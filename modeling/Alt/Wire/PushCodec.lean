import Alt.Wire.Frames
import Alt.Wire.PushPayload

namespace Alt.Wire

open Alt.Library List

/-!
# The push request and its reply, both ways (`alt-wire/src/push.rs`)

The client's half: the request it encodes (`encodePushRequest`), which the server parses with
`parsePushRequestHead`, and the status report it parses (`parseReportStatus`,
`parseReportStatusSideband`), which the server encodes.

* `push_request_round_trip` — updates and capabilities come back, and the reader is left at the
  pack;
* `report_round_trip`, `report_sideband_round_trip` — the statuses come back.
-/

/-! ### The request -/

/-- The `i`-th command line; the first carries the capabilities behind a NUL. -/
def commandLine (algo : HashAlgo) (capabilities : List String) (i : Nat) (u : RefUpdate) : Bytes :=
  utf8 (String.ofList (lineHead algo u ++ u.name.toList)) ++
    (if i = 0 then 0 :: utf8 (" ".intercalate capabilities) else []) ++ [10]

def commandLines (algo : HashAlgo) (capabilities : List String) (updates : List RefUpdate) :
    List Bytes :=
  updates.zipIdx.map fun (u, i) => commandLine algo capabilities i u

/-- The body of a push: the commands, a flush, and the pack as it is. -/
def encodePushRequest (updates : List RefUpdate) (capabilities : List String) (algo : HashAlgo)
    (packBytes : Bytes) : Option Bytes := do
  let w ← writeLines [] (commandLines algo capabilities updates)
  return writeFlush w ++ packBytes

/-- A capability is a word. -/
def IsWord (s : String) : Prop := s ≠ "" ∧ ∀ c ∈ s.toList, isWhitespace c = false

theorem isWhitespace_newline : isWhitespace '\n' = true ∧ isWhitespace '\r' = true ∧
    isWhitespace ' ' = true := by decide

/-- Words joined by blanks are split again. -/
theorem splitWhitespace_intercalate {caps : List String} (h : ∀ c ∈ caps, IsWord c) :
    splitWhitespace (" ".intercalate caps) = caps := by
  induction caps with
  | nil => decide
  | cons c caps ih =>
    have hc := h c mem_cons_self
    have hne : c.toList ≠ [] := fun hnil => hc.1 (String.toList_inj.mp hnil)
    cases caps with
    | nil =>
      rw [String.intercalate_singleton, splitWhitespace, splitOnP_eq_singleton hc.2]
      simp [hne]
    | cons c' caps =>
      have hrest := ih fun x hx => h x (mem_cons_of_mem _ hx)
      have hlist : (" ".intercalate (c :: c' :: caps)).toList =
          c.toList ++ ' ' :: (" ".intercalate (c' :: caps)).toList := by
        rw [String.intercalate_cons_cons]
        simp
      rw [splitWhitespace] at hrest ⊢
      rw [hlist, splitOnP_append_cons_of_forall_mem hc.2 _ isWhitespace_newline.2.2]
      rw [filter_cons_of_pos (by simpa using hne), map_cons, hrest, String.ofList_toList]

/-- Words joined by blanks end in no line feed. -/
theorem endsClean_intercalate {caps : List String} (h : ∀ c ∈ caps, IsWord c) :
    EndsClean (" ".intercalate caps) := by
  have hword : ∀ {c : String}, IsWord c → EndsClean c := by
    intro c hc
    refine endsClean_of_forall fun x hx => ⟨?_, ?_⟩
    · rintro rfl
      exact absurd (hc.2 _ hx) (by decide)
    · rintro rfl
      exact absurd (hc.2 _ hx) (by decide)
  induction caps with
  | nil => exact endsClean_of_forall (by simp)
  | cons c caps ih =>
    have hc := hword (h c mem_cons_self)
    cases caps with
    | nil => rwa [String.intercalate_singleton]
    | cons c' caps =>
      rw [String.intercalate_cons_cons]
      refine (hc.append (endsClean_of_forall (by simp))).append ?_
      exact ih fun x hx => h x (mem_cons_of_mem _ hx)

theorem splitNul_none {b : Bytes} (hb : (0 : UInt8) ∉ b) : splitNul b = (b, none) := by
  have hdrop : b.dropWhile (· ≠ 0) = [] := by
    rw [dropWhile_eq_nil_iff]
    exact fun x hx => decide_eq_true fun heq => hb (heq ▸ hx)
  rw [splitNul, hdrop]

section Commands

variable {algo : HashAlgo} {u : RefUpdate} {capabilities : List String}

/-- **A command line** is read back: its update, and the capabilities if it is the first. -/
theorem parseUpdateLine_commandLine (hu : WellFormed algo u) (hname : EndsClean u.name)
    (hcaps : ∀ c ∈ capabilities, IsWord c) (i : Nat) :
    parseUpdateLine algo (commandLine algo capabilities i u) =
      .ok (u, if i = 0 then capabilities else []) := by
  obtain ⟨hparts, hold, hnew, hold', hnew'⟩ := parse_lineHead hu
  have hnul := nul_not_mem_lineHead hu
  by_cases hi : i = 0
  · subst hi
    have htrim : trimNewline (commandLine algo capabilities 0 u) =
        utf8 (String.ofList (lineHead algo u ++ u.name.toList)) ++
          0 :: utf8 (" ".intercalate capabilities) := by
      rw [commandLine, if_pos rfl]
      refine trimNewline_concat fun b hb => ?_
      rw [getLast?_append, getLast?_cons] at hb
      cases hlast : (utf8 (" ".intercalate capabilities)).getLast? with
      | none =>
        rw [hlast] at hb
        cases hb
        decide
      | some x =>
        rw [hlast] at hb
        cases hb
        exact (endsClean_intercalate hcaps).getLast? x hlast
    simp only [parseUpdateLine, htrim, splitNul_append hnul, fromUtf8_utf8, String.toList_ofList,
      hparts, hold, hnew, hold', hnew', String.ofList_toList,
      splitWhitespace_intercalate hcaps, if_true]
  · have hclean : EndsClean (String.ofList (lineHead algo u ++ u.name.toList)) := by
      rw [String.ofList_append, String.ofList_toList]
      refine EndsClean.append (fun c hc => ?_) hname
      rw [String.toList_ofList, lineHead] at hc
      simp only [← append_assoc, ← cons_append, getLast?_concat] at hc
      cases hc
      decide
    have htrim : trimNewline (commandLine algo capabilities i u) =
        utf8 (String.ofList (lineHead algo u ++ u.name.toList)) := by
      rw [commandLine, if_neg hi, append_nil]
      exact trimNewline_concat hclean.getLast?
    simp only [parseUpdateLine, htrim, splitNul_none hnul, fromUtf8_utf8, String.toList_ofList,
      hparts, hold, hnew, hold', hnew', String.ofList_toList, hi, if_false]

/-- The parser's loop over written command lines. -/
theorem parseHeadFuel_stream {lines : List Bytes} {results : List (RefUpdate × List String)}
    (h : List.Forall₂ (fun line r => parseUpdateLine algo line = .ok r) lines results)
    (hfit : ∀ line ∈ lines, line.length ≤ maxPayload) (rest : Bytes) {fuel : Nat}
    (hfuel : lines.length < fuel) (head : PushHead) :
    parseHeadFuel algo fuel (streamBytes (lines.map Frame.data) ++ (writeFlush [] ++ rest)) head =
      .ok (⟨head.updates ++ results.map Prod.fst,
        head.capabilities ++ (results.map Prod.snd).flatten⟩, rest) := by
  obtain ⟨fuel, rfl⟩ : ∃ n, fuel = n + 1 := ⟨fuel - 1, by omega⟩
  induction h generalizing fuel head with
  | nil =>
    rw [map_nil, streamBytes_nil, nil_append, parseHeadFuel, readFrame_flush]
    simp
  | @cons line r lines results hline _ ih =>
    rw [length_cons] at hfuel
    obtain ⟨fuel, rfl⟩ : ∃ n, fuel = n + 1 := ⟨fuel - 1, by omega⟩
    have hfits : (Frame.data line).Fits := hfit line mem_cons_self
    rw [map_cons, streamBytes_cons, append_assoc, parseHeadFuel, readFrame_frameBytes hfits]
    simp only [hline]
    rw [ih (fun l hl => hfit l (mem_cons_of_mem _ hl)) _ fuel (by omega)]
    simp

/-- What the command lines give: every update, and the capabilities once. -/
theorem commandLines_results {updates : List RefUpdate} (hne : updates ≠ []) :
    (updates.zipIdx.map fun (u, i) => (u, if i = 0 then capabilities else [])).map Prod.fst =
        updates ∧
      ((updates.zipIdx.map fun (u, i) => (u, if i = 0 then capabilities else [])).map
        Prod.snd).flatten = capabilities := by
  constructor
  · rw [map_map]
    exact zipIdx_map_fst 0 updates
  · cases updates with
    | nil => exact absurd rfl hne
    | cons u updates =>
      have hrest : ((updates.zipIdx 1).map fun p : RefUpdate × Nat =>
          if p.2 = 0 then capabilities else []).flatten = [] := by
        rw [flatten_eq_nil_iff]
        intro l hl
        obtain ⟨⟨v, i⟩, hp, rfl⟩ := mem_map.mp hl
        have hi := le_snd_of_mem_zipIdx hp
        exact if_neg (by dsimp only at hi ⊢; omega)
      rw [zipIdx_cons, map_map, map_cons, flatten_cons]
      exact (congrArg (capabilities ++ ·) hrest).trans (append_nil _)

/-- **Push request, there and back**: the same updates and capabilities, and the reader at the
first byte of the pack. -/
theorem push_request_round_trip {updates : List RefUpdate} (hne : updates ≠ [])
    (hwf : ∀ u ∈ updates, WellFormed algo u ∧ EndsClean u.name)
    (hcaps : ∀ c ∈ capabilities, IsWord c)
    (hfit : ∀ line ∈ commandLines algo capabilities updates, line.length ≤ maxPayload)
    (pack : Bytes) : ∃ w, encodePushRequest updates capabilities algo pack = some w ∧
      parsePushRequestHead algo w = .ok (⟨updates, capabilities⟩, pack) := by
  refine ⟨streamBytes ((commandLines algo capabilities updates).map Frame.data) ++
    (writeFlush [] ++ pack), ?_, ?_⟩
  · rw [encodePushRequest, writeLines_eq hfit]
    simp [writeFlush]
  · have hlines : List.Forall₂ (fun line r => parseUpdateLine algo line = .ok r)
        (commandLines algo capabilities updates)
        (updates.zipIdx.map fun (u, i) => (u, if i = 0 then capabilities else [])) := by
      rw [commandLines, List.forall₂_map_left_iff, List.forall₂_map_right_iff, List.forall₂_same]
      rintro ⟨u, i⟩ hmem
      have hu := hwf u (fst_mem_of_mem_zipIdx hmem)
      exact parseUpdateLine_commandLine hu.1 hu.2 hcaps i
    have hfuel : (commandLines algo capabilities updates).length <
        (streamBytes ((commandLines algo capabilities updates).map Frame.data) ++
          (writeFlush [] ++ pack)).length + 1 := by
      have := length_le_streamBytes ((commandLines algo capabilities updates).map Frame.data)
      rw [length_map] at this
      rw [length_append]
      omega
    obtain ⟨hfst, hsnd⟩ := @commandLines_results capabilities updates hne
    rw [parsePushRequestHead, parseHeadFuel_stream hlines hfit pack hfuel, hfst, hsnd]
    rfl

end Commands

/-! ### The report -/

/-- What the server reported after a push. -/
structure ReportStatus where
  unpack : Except String Unit
  commands : List CommandStatus

/-- Why a report is not understood; a fatal message is kept as its bytes. -/
inductive ReportError
  | pkt (e : PktError)
  | badStatusLine (line : Bytes)
  | badSideband (band : UInt8)
  | serverError (message : Bytes)
  deriving DecidableEq

/-- One turn of `parse_report_status`. -/
def reportStep (s : ReportStatus) : Frame → Except ReportError (Turn ReportStatus)
  | .flush => .ok (.leave s)
  | .responseEnd => .ok (.leave s)
  | .delim => .ok (.next s)
  | .data line =>
    let line := trimNewline line
    match fromUtf8 line with
    | none => .error (.badStatusLine line)
    | some text =>
      match stripPrefix "unpack " text with
      | some rest => .ok (.next ⟨if rest = "ok" then .ok () else .error rest, s.commands⟩)
      | none =>
        match stripPrefix "ok " text with
        | some name => .ok (.next ⟨s.unpack, s.commands ++ [.ok name]⟩)
        | none =>
          match stripPrefix "ng " text with
          | none => .error (.badStatusLine line)
          | some rest =>
            match splitFirst ' ' rest.toList with
            | none => .error (.badStatusLine line)
            | some (name, reason) =>
              .ok (.next ⟨s.unpack, s.commands ++ [.ng (String.ofList name) (String.ofList reason)]⟩)

/-- Parses a status report. -/
def parseReportStatus (r : Bytes) : Except ReportError (ReportStatus × Bytes) :=
  readAll .pkt reportStep r ⟨.error "(no unpack line)", []⟩

/-- What a sideband stream has given so far: band 1, and the progress messages of band 2. -/
structure Demuxed where
  band1 : Bytes
  progress : List Bytes
  deriving DecidableEq

/-- One turn of the demultiplexing of a report. -/
def reportSidebandStep (s : Demuxed) : Frame → Except ReportError (Turn Demuxed)
  | .flush => .ok (.leave s)
  | .responseEnd => .ok (.leave s)
  | .delim => .ok (.next s)
  | .data [] => .error (.badStatusLine (utf8 "empty sideband pkt"))
  | .data (band :: body) =>
    if band = 1 then .ok (.next ⟨s.band1 ++ body, s.progress⟩)
    else if band = 2 then .ok (.next ⟨s.band1, s.progress ++ [body]⟩)
    else if band = 3 then .error (.serverError body)
    else .error (.badSideband band)

/-- Parses a status report in `side-band-64k`, with the progress messages that came. -/
def parseReportStatusSideband (r : Bytes) :
    Except ReportError ((ReportStatus × List Bytes) × Bytes) := do
  let (demuxed, rest) ← readAll .pkt reportSidebandStep r ⟨[], []⟩
  let (status, _) ← parseReportStatus demuxed.band1
  return ((status, demuxed.progress), rest)

/-- A status that a report line can carry. -/
def CommandStatus.Clean : CommandStatus → Prop
  | .ok name => EndsClean name
  | .ng name reason => ' ' ∉ name.toList ∧ EndsClean reason

/-- An unpack result that its line can carry. -/
def UnpackClean : Except String Unit → Prop
  | .ok () => True
  | .error reason => reason ≠ "ok" ∧ EndsClean reason

section Report

variable {unpack : Except String Unit} {commands : List CommandStatus} {s : ReportStatus}

theorem reportStep_unpack (h : UnpackClean unpack) :
    reportStep s (.data (unpackLine unpack)) = .ok (.next ⟨unpack, s.commands⟩) := by
  cases unpack with
  | ok u =>
    cases u
    have htrim : trimNewline (unpackLine (.ok ())) = utf8 ("unpack " ++ "ok") := by decide
    simp only [reportStep, htrim, fromUtf8_utf8, stripPrefix_append]
    rfl
  | error reason =>
    have hclean : EndsClean ("unpack " ++ reason) :=
      EndsClean.append (endsClean_of_forall (by simp)) h.2
    have htrim : trimNewline (unpackLine (.error reason)) = utf8 ("unpack " ++ reason) :=
      trimNewline_line hclean
    simp only [reportStep, htrim, fromUtf8_utf8, stripPrefix_append]
    rw [if_neg h.1]

theorem reportStep_status {c : CommandStatus} (h : c.Clean) :
    reportStep s (.data (statusLine c)) = .ok (.next ⟨s.unpack, s.commands ++ [c]⟩) := by
  cases c with
  | ok name =>
    have hclean : EndsClean ("ok " ++ name) := EndsClean.append (endsClean_of_forall (by simp)) h
    have htrim : trimNewline (statusLine (.ok name)) = utf8 ("ok " ++ name) := trimNewline_line hclean
    have hunpack : stripPrefix "unpack " ("ok " ++ name) = none := by
      simp [stripPrefix, List.dropPrefix?]
    simp only [reportStep, htrim, fromUtf8_utf8, hunpack, stripPrefix_append]
  | ng name reason =>
    have htext : "ng " ++ name ++ " " ++ reason = "ng " ++ (name ++ " " ++ reason) := by
      rw [String.append_assoc, String.append_assoc, String.append_assoc]
    have hclean : EndsClean ("ng " ++ name ++ " " ++ reason) := (endsClean_blank _).append h.2
    have htrim : trimNewline (statusLine (.ng name reason)) =
        utf8 ("ng " ++ (name ++ " " ++ reason)) := by
      rw [← htext]
      exact trimNewline_line hclean
    have hunpack : stripPrefix "unpack " ("ng " ++ (name ++ " " ++ reason)) = none := by
      simp [stripPrefix, List.dropPrefix?]
    have hok : stripPrefix "ok " ("ng " ++ (name ++ " " ++ reason)) = none := by
      simp [stripPrefix, List.dropPrefix?]
    have hsplit : splitFirst ' ' (name ++ " " ++ reason).toList = some (name.toList, reason.toList) := by
      rw [String.append_assoc, String.toList_append, String.toList_append]
      exact splitFirst_append h.1 reason.toList
    simp only [reportStep, htrim, fromUtf8_utf8, hunpack, hok, stripPrefix_append, hsplit,
      String.ofList_toList]

/-- The turns over the lines of a report. -/
theorem goes_statuses (h : ∀ c ∈ commands, c.Clean) :
    Goes reportStep s (commands.map fun c => .data (statusLine c)) ⟨s.unpack, s.commands ++ commands⟩ := by
  induction commands generalizing s with
  | nil =>
    rw [append_nil]
    exact .done s
  | cons c commands ih =>
    have hrest := @ih ⟨s.unpack, s.commands ++ [c]⟩ fun x hx => h x (mem_cons_of_mem _ hx)
    rw [append_assoc, singleton_append] at hrest
    exact .turn (reportStep_status (h c mem_cons_self)) hrest

/-- **Report, there and back.** -/
theorem report_round_trip (hunpack : UnpackClean unpack) (hcommands : ∀ c ∈ commands, c.Clean)
    (hfit : ∀ line ∈ unpackLine unpack :: commands.map statusLine, line.length ≤ maxPayload)
    (rest : Bytes) : ∃ w, encodeReportStatus unpack commands = some w ∧
      parseReportStatus (w ++ rest) = .ok (⟨unpack, commands⟩, rest) := by
  refine ⟨streamBytes ((unpackLine unpack :: commands.map statusLine).map Frame.data) ++
    frameBytes .flush, ?_, ?_⟩
  · rw [encodeReportStatus, writeLines_eq hfit]
    rfl
  · have hgoes : Goes reportStep ⟨.error "(no unpack line)", []⟩
        ((unpackLine unpack :: commands.map statusLine).map Frame.data) ⟨unpack, commands⟩ := by
      refine .turn (reportStep_unpack hunpack) ?_
      rw [map_map]
      exact goes_statuses hcommands
    rw [append_assoc]
    refine readAll_run (f := .flush) hgoes (fun f hf => ?_) rfl trivial rest
    obtain ⟨line, hline, rfl⟩ := mem_map.mp hf
    exact hfit line hline

end Report

/-! ### Sideband -/

theorem flatten_chunks {n : Nat} (hn : 0 < n) (b : Bytes) : (chunks n b).flatten = b := by
  have htake : ∀ k, ((List.range k).map fun i => (b.drop (i * n)).take n).flatten = b.take (k * n) := by
    intro k
    induction k with
    | zero => simp
    | succ k ih =>
      rw [range_succ, map_append, flatten_append, ih, Nat.succ_mul, take_add]
      simp
  have hlen : b.length ≤ (b.length + n - 1) / n * n := by
    have hdiv := Nat.div_add_mod (b.length + n - 1) n
    have hmod := Nat.mod_lt (b.length + n - 1) hn
    rw [Nat.mul_comm]
    omega
  rw [chunks, htake, take_of_length_le hlen]

/-- Band-1 lines: what `chunks` makes of a body. -/
def bandLines (b : Bytes) : List Bytes := (chunks (maxLineLen - 5) b).map fun chunk => 1 :: chunk

theorem bandLines_fit (b : Bytes) : ∀ line ∈ bandLines b, line.length ≤ maxPayload := by
  intro line hline
  obtain ⟨chunk, hchunk, rfl⟩ := mem_map.mp hline
  obtain ⟨i, -, rfl⟩ := mem_map.mp hchunk
  have hlen : ((b.drop (i * (maxLineLen - 5))).take (maxLineLen - 5)).length ≤ maxLineLen - 5 :=
    length_take_le _ _
  have hmax : maxLineLen - 5 + 1 = maxPayload := by simp only [maxPayload, maxLineLen]
  rw [length_cons, ← hmax]
  exact Nat.succ_le_succ hlen

theorem goes_reportSideband (cs : List Bytes) (s : Demuxed) :
    Goes reportSidebandStep s ((cs.map fun chunk => 1 :: chunk).map Frame.data)
      ⟨s.band1 ++ cs.flatten, s.progress⟩ := by
  induction cs generalizing s with
  | nil =>
    rw [flatten_nil, append_nil]
    exact .done s
  | cons c cs ih =>
    have hrest := ih ⟨s.band1 ++ c, s.progress⟩
    rw [append_assoc] at hrest
    exact .turn rfl hrest

/-- **Report in sideband, there and back.** -/
theorem report_sideband_round_trip {unpack : Except String Unit} {commands : List CommandStatus}
    (hunpack : UnpackClean unpack) (hcommands : ∀ c ∈ commands, c.Clean)
    (hfit : ∀ line ∈ unpackLine unpack :: commands.map statusLine, line.length ≤ maxPayload)
    (rest : Bytes) : ∃ w, encodeReportStatusSideband unpack commands = some w ∧
      parseReportStatusSideband (w ++ rest) = .ok ((⟨unpack, commands⟩, []), rest) := by
  obtain ⟨inner, hinner, hparse⟩ := report_round_trip hunpack hcommands hfit []
  rw [append_nil] at hparse
  refine ⟨streamBytes ((bandLines inner).map Frame.data) ++ frameBytes .flush, ?_, ?_⟩
  · have hlines : writeLines [] ((chunks (maxLineLen - 5) inner).map fun chunk => 1 :: chunk) =
        some (streamBytes ((bandLines inner).map Frame.data)) := by
      rw [← bandLines, writeLines_eq (bandLines_fit inner), nil_append]
    rw [encodeReportStatusSideband, hinner, Option.bind_eq_bind, Option.bind_some, hlines]
    rfl
  · have hgoes := goes_reportSideband (chunks (maxLineLen - 5) inner) ⟨[], []⟩
    rw [nil_append, flatten_chunks (by decide), ← bandLines] at hgoes
    have hread : readAll .pkt reportSidebandStep
        (streamBytes ((bandLines inner).map Frame.data) ++ (frameBytes .flush ++ rest)) ⟨[], []⟩ =
        .ok (⟨inner, []⟩, rest) := by
      refine readAll_run (f := .flush) hgoes (fun f hf => ?_) rfl trivial rest
      obtain ⟨line, hline, rfl⟩ := mem_map.mp hf
      exact bandLines_fit inner line hline
    rw [parseReportStatusSideband, append_assoc, hread]
    simp only [bind, Except.bind, hparse]
    rfl

end Alt.Wire
