import Alt.Wire.PushCodec

namespace Alt.Wire

open Alt.Library List

/-!
# The fetch request and its response, both ways (`alt-wire/src/fetch.rs`)

A request is a header, a delimiter and argument lines; a response is sections, the last of
which is the pack in sideband.

* `fetch_request_round_trip` — a request comes back, if its ids are SHA-1 and its texts are trimmed;
* `drain_bands` — pack bytes in band 1 and progress in band 2 are told apart, however they are
  cut and mixed;
* `fetch_response_round_trip` — the response the server encodes gives the pack.
-/

/-- Client-side fetch arguments. -/
structure FetchRequest where
  wants : List ObjectId
  haves : List ObjectId
  done : Bool
  noProgress : Bool
  thinPack : Bool
  ofsDelta : Bool
  includeTag : Bool
  filter : Option String
  deriving DecidableEq

def FetchRequest.default : FetchRequest := ⟨[], [], false, false, false, false, false, none⟩

/-- Why a request or response is not understood; texts that are shown lossily are kept as their
bytes. -/
inductive FetchError
  | pkt (e : PktError)
  | badLine (part : String) (line : Bytes)
  | unknownSection (name : Bytes)
  | serverError (message : Bytes)
  | badSideband (band : UInt8)
  | emptySidebandPkt
  deriving DecidableEq

/-! ### Encoding the request -/

def headerLines (objectFormat : Option String) : List Bytes :=
  utf8 "command=fetch\n" ::
    (objectFormat.map fun fmt => utf8 ("object-format=" ++ fmt ++ "\n")).toList

def flagLine (flag : Bool) (name : String) : List Bytes := if flag then [utf8 (name ++ "\n")] else []

def oidLine (word : String) (oid : ObjectId) : Bytes :=
  utf8 (word ++ String.ofList oid.hexText ++ "\n")

def argLines (req : FetchRequest) : List Bytes :=
  flagLine req.thinPack "thin-pack" ++ flagLine req.noProgress "no-progress" ++
    flagLine req.includeTag "include-tag" ++ flagLine req.ofsDelta "ofs-delta" ++
    (req.filter.map fun spec => utf8 ("filter " ++ spec ++ "\n")).toList ++
    req.wants.map (oidLine "want ") ++ req.haves.map (oidLine "have ") ++ flagLine req.done "done"

/-- Encodes a fetch request. -/
def encodeFetchRequest (req : FetchRequest) (objectFormat : Option String) : Option Bytes := do
  let w ← writeLines [] (headerLines objectFormat)
  let w ← writeLines (writeDelim w) (argLines req)
  return writeFlush w

/-! ### Parsing the request -/

/-- `str::trim`. -/
def trim (s : String) : String :=
  String.ofList ((s.toList.dropWhile isWhitespace).reverse.dropWhile isWhitespace).reverse

def parseOidStr (s : String) (algo : HashAlgo) (line : Bytes) (part : String) :
    Except FetchError ObjectId :=
  match parseOid algo s.toList with
  | some oid => .ok oid
  | none => .error (.badLine part line)

/-- One turn over the header: the object format so far, and whether arguments follow. -/
def headerStep (s : Option String × Bool) : Frame → Except FetchError (Turn (Option String × Bool))
  | .delim => .ok (.leave (s.1, true))
  | .flush => .ok (.leave s)
  | .responseEnd => .ok (.leave s)
  | .data line =>
    let line := trimNewline line
    match fromUtf8 line with
    | none => .error (.badLine "header" line)
    | some text =>
      if text = "command=fetch" then .ok (.next s)
      else
        match stripPrefix "object-format=" text with
        | some v => .ok (.next (some (trim v), s.2))
        | none => .ok (.next s) -- unknown header lines are ignored

/-- One turn over the arguments. -/
def argStep (req : FetchRequest) : Frame → Except FetchError (Turn FetchRequest)
  | .flush => .ok (.leave req)
  | .delim => .ok (.leave req)
  | .responseEnd => .ok (.leave req)
  | .data line =>
    let line := trimNewline line
    match fromUtf8 line with
    | none => .error (.badLine "args" line)
    | some text =>
      if text = "done" then .ok (.next { req with done := true })
      else if text = "no-progress" then .ok (.next { req with noProgress := true })
      else if text = "thin-pack" then .ok (.next { req with thinPack := true })
      else if text = "ofs-delta" then .ok (.next { req with ofsDelta := true })
      else if text = "include-tag" then .ok (.next { req with includeTag := true })
      else
        match stripPrefix "want " text with
        | some hex => do
          let oid ← parseOidStr (trim hex) .sha1 line "want/have"
          return .next { req with wants := req.wants ++ [oid] }
        | none =>
          match stripPrefix "have " text with
          | some hex => do
            let oid ← parseOidStr (trim hex) .sha1 line "want/have"
            return .next { req with haves := req.haves ++ [oid] }
          | none =>
            match stripPrefix "filter " text with
            | some spec => .ok (.next { req with filter := some (trim spec) })
            | none => .ok (.next req) -- unknown arguments are ignored

/-- Parses a fetch request, and the object format it asks for. -/
def parseFetchRequest (r : Bytes) :
    Except FetchError ((FetchRequest × Option String) × Bytes) := do
  let ((objectFormat, args), r) ← readAll .pkt headerStep r (none, false)
  if args then
    let (req, r) ← readAll .pkt argStep r .default
    return ((req, objectFormat), r)
  else return ((.default, objectFormat), r)

/-! ### The request, there and back -/

theorem trim_of_forall {s : String} (h : ∀ c ∈ s.toList, isWhitespace c = false) : trim s = s := by
  have hdrop : ∀ l : List Char, (∀ c ∈ l, isWhitespace c = false) → l.dropWhile isWhitespace = l := by
    intro l hl
    cases l with
    | nil => rfl
    | cons c l => rw [dropWhile_cons_of_neg (by simpa using hl c mem_cons_self)]
  rw [trim, hdrop _ h, hdrop _ fun c hc => h c (mem_reverse.mp hc), reverse_reverse,
    String.ofList_toList]

/-- A trimmed text does not end in a line feed. -/
theorem endsClean_of_trim {s : String} (h : trim s = s) : EndsClean s := by
  have hlist : ((s.toList.dropWhile isWhitespace).reverse.dropWhile isWhitespace).reverse = s.toList := by
    rw [← String.toList_ofList (l := List.reverse _), ← trim, h]
  intro c hc
  rw [← hlist, getLast?_reverse] at hc
  have hnot := head?_dropWhile_not isWhitespace (s.toList.dropWhile isWhitespace).reverse
  rw [hc] at hnot
  constructor
  · rintro rfl
    simp [isWhitespace_newline] at hnot
  · rintro rfl
    simp [isWhitespace_newline] at hnot

theorem isWhitespace_hexDigit : ∀ n < 16, isWhitespace (hexDigit n) = false := by decide

theorem trim_hexText (oid : ObjectId) :
    trim (String.ofList oid.hexText) = String.ofList oid.hexText := by
  refine trim_of_forall fun c hc => ?_
  rw [String.toList_ofList] at hc
  obtain ⟨n, hn, rfl⟩ := isHexDigit_of_mem hc
  exact isWhitespace_hexDigit n hn

/-- A text that is no flag: it begins like none. -/
structure NotFlag (text : String) : Prop where
  done : text ≠ "done"
  noProgress : text ≠ "no-progress"
  thinPack : text ≠ "thin-pack"
  ofsDelta : text ≠ "ofs-delta"
  includeTag : text ≠ "include-tag"

theorem notFlag_of_head {c : Char} {rest text : String} (htext : text.toList = c :: rest.toList)
    (hc : c ∉ ['d', 'n', 't', 'o', 'i']) : NotFlag text := by
  constructor
  all_goals
    rintro rfl
    refine hc ?_
    rw [← (List.cons.inj htext).1]
    decide

section Args

variable {req : FetchRequest} {oid : ObjectId} {spec : String}

theorem endsClean_hexText (word : String) (oid : ObjectId) :
    EndsClean word → EndsClean (word ++ String.ofList oid.hexText) := fun h =>
  h.append (endsClean_of_trim (trim_hexText oid))

theorem parseOidStr_hexText (h : oid.algo = .sha1) (line : Bytes) (part : String) :
    parseOidStr (trim (String.ofList oid.hexText)) .sha1 line part = .ok oid := by
  have hparse : parseOid .sha1 oid.hexText = some oid := by
    rw [parseOid, ObjectId.fromHex_hexText]
    simp [Option.filter, h]
  rw [trim_hexText, parseOidStr, String.toList_ofList, hparse]

theorem argStep_want (h : oid.algo = .sha1) : argStep req (.data (oidLine "want " oid)) =
    .ok (.next { req with wants := req.wants ++ [oid] }) := by
  have htrim : trimNewline (oidLine "want " oid) = utf8 ("want " ++ String.ofList oid.hexText) :=
    trimNewline_line (endsClean_hexText _ oid (endsClean_of_forall (by simp)))
  have hflag : NotFlag ("want " ++ String.ofList oid.hexText) :=
    @notFlag_of_head 'w' ("ant " ++ String.ofList oid.hexText) _ (by simp) (by decide)
  simp only [argStep, htrim, fromUtf8_utf8, hflag.done, hflag.noProgress, hflag.thinPack,
    hflag.ofsDelta, hflag.includeTag, if_false, stripPrefix_append, parseOidStr_hexText h]
  rfl

theorem argStep_have (h : oid.algo = .sha1) : argStep req (.data (oidLine "have " oid)) =
    .ok (.next { req with haves := req.haves ++ [oid] }) := by
  have htrim : trimNewline (oidLine "have " oid) = utf8 ("have " ++ String.ofList oid.hexText) :=
    trimNewline_line (endsClean_hexText _ oid (endsClean_of_forall (by simp)))
  have hflag : NotFlag ("have " ++ String.ofList oid.hexText) :=
    @notFlag_of_head 'h' ("ave " ++ String.ofList oid.hexText) _ (by simp) (by decide)
  have hwant : stripPrefix "want " ("have " ++ String.ofList oid.hexText) = none := by
    simp [stripPrefix, List.dropPrefix?]
  simp only [argStep, htrim, fromUtf8_utf8, hflag.done, hflag.noProgress, hflag.thinPack,
    hflag.ofsDelta, hflag.includeTag, if_false, hwant, stripPrefix_append, parseOidStr_hexText h]
  rfl

theorem argStep_filter (h : EndsClean spec) : argStep req (.data (utf8 ("filter " ++ spec ++ "\n"))) =
    .ok (.next { req with filter := some (trim spec) }) := by
  have htrim : trimNewline (utf8 ("filter " ++ spec ++ "\n")) = utf8 ("filter " ++ spec) :=
    trimNewline_line ((endsClean_of_forall (by simp)).append h)
  have hflag : NotFlag ("filter " ++ spec) :=
    @notFlag_of_head 'f' ("ilter " ++ spec) _ (by simp) (by decide)
  have hwant : stripPrefix "want " ("filter " ++ spec) = none := by
    simp [stripPrefix, List.dropPrefix?]
  have hhave : stripPrefix "have " ("filter " ++ spec) = none := by
    simp [stripPrefix, List.dropPrefix?]
  simp only [argStep, htrim, fromUtf8_utf8, hflag.done, hflag.noProgress, hflag.thinPack,
    hflag.ofsDelta, hflag.includeTag, if_false, hwant, hhave, stripPrefix_append]

/-- The turn over a flag's line, if it is there. -/
theorem goes_flag {flag : Bool} {name : String} (at_ : Bool → FetchRequest)
    (hstep : argStep (at_ false) (.data (utf8 (name ++ "\n"))) = .ok (.next (at_ true))) :
    Goes argStep (at_ false) ((flagLine flag name).map Frame.data) (at_ flag) := by
  cases flag with
  | false => exact .done _
  | true => exact .turn hstep (.done _)

theorem goes_wants {oids : List ObjectId} (h : ∀ oid ∈ oids, oid.algo = .sha1) :
    Goes argStep req ((oids.map (oidLine "want ")).map Frame.data)
      { req with wants := req.wants ++ oids } := by
  induction oids generalizing req with
  | nil =>
    rw [append_nil]
    exact .done req
  | cons oid oids ih =>
    have hrest := @ih { req with wants := req.wants ++ [oid] } fun x hx => h x (mem_cons_of_mem _ hx)
    simp only [append_assoc, singleton_append] at hrest
    exact .turn (argStep_want (h oid mem_cons_self)) hrest

theorem goes_haves {oids : List ObjectId} (h : ∀ oid ∈ oids, oid.algo = .sha1) :
    Goes argStep req ((oids.map (oidLine "have ")).map Frame.data)
      { req with haves := req.haves ++ oids } := by
  induction oids generalizing req with
  | nil =>
    rw [append_nil]
    exact .done req
  | cons oid oids ih =>
    have hrest := @ih { req with haves := req.haves ++ [oid] } fun x hx => h x (mem_cons_of_mem _ hx)
    simp only [append_assoc, singleton_append] at hrest
    exact .turn (argStep_have (h oid mem_cons_self)) hrest

/-- A request as its lines can carry it. -/
structure FetchRequest.Clean (req : FetchRequest) : Prop where
  wants : ∀ oid ∈ req.wants, oid.algo = .sha1
  haves : ∀ oid ∈ req.haves, oid.algo = .sha1
  filter : ∀ spec ∈ req.filter, trim spec = spec

/-- The turns over all arguments. -/
theorem goes_args (h : req.Clean) : Goes argStep .default ((argLines req).map Frame.data) req := by
  have hline : ∀ name : String, (∀ c ∈ name.toList, c ≠ '\n' ∧ c ≠ '\r') →
      trimNewline (utf8 (name ++ "\n")) = utf8 name :=
    fun name hname => trimNewline_line (endsClean_of_forall hname)
  obtain ⟨wants, haves, done, noProgress, thinPack, ofsDelta, includeTag, filter⟩ := req
  have hthin := @goes_flag thinPack "thin-pack"
    (fun b => ⟨[], [], false, false, b, false, false, none⟩) (by
      simp only [argStep, hline "thin-pack" (by simp), fromUtf8_utf8]
      rfl)
  have hprogress := @goes_flag noProgress "no-progress"
    (fun b => ⟨[], [], false, b, thinPack, false, false, none⟩) (by
      simp only [argStep, hline "no-progress" (by simp), fromUtf8_utf8]
      rfl)
  have htag := @goes_flag includeTag "include-tag"
    (fun b => ⟨[], [], false, noProgress, thinPack, false, b, none⟩) (by
      simp only [argStep, hline "include-tag" (by simp), fromUtf8_utf8]
      rfl)
  have hofs := @goes_flag ofsDelta "ofs-delta"
    (fun b => ⟨[], [], false, noProgress, thinPack, b, includeTag, none⟩) (by
      simp only [argStep, hline "ofs-delta" (by simp), fromUtf8_utf8]
      rfl)
  have hfilter : Goes argStep ⟨[], [], false, noProgress, thinPack, ofsDelta, includeTag, none⟩
      ((filter.map fun spec => utf8 ("filter " ++ spec ++ "\n")).toList.map Frame.data)
      ⟨[], [], false, noProgress, thinPack, ofsDelta, includeTag, filter⟩ := by
    cases filter with
    | none => exact .done _
    | some spec =>
      have hspec : trim spec = spec := h.filter spec rfl
      have hturn := @argStep_filter ⟨[], [], false, noProgress, thinPack, ofsDelta, includeTag, none⟩
        spec (endsClean_of_trim hspec)
      rw [hspec] at hturn
      exact .turn hturn (.done _)
  have hwants := @goes_wants ⟨[], [], false, noProgress, thinPack, ofsDelta, includeTag, filter⟩
    wants h.wants
  have hhaves := @goes_haves ⟨wants, [], false, noProgress, thinPack, ofsDelta, includeTag, filter⟩
    haves h.haves
  have hdone := @goes_flag done "done"
    (fun b => ⟨wants, haves, b, noProgress, thinPack, ofsDelta, includeTag, filter⟩) (by
      simp only [argStep, hline "done" (by simp), fromUtf8_utf8]
      rfl)
  simp only [argLines, map_append]
  exact (((((((hthin.append hprogress).append htag).append hofs).append hfilter).append hwants).append
    hhaves).append hdone)

theorem headerStep_command (s : Option String × Bool) :
    headerStep s (.data (utf8 "command=fetch\n")) = .ok (.next s) := by
  have htrim : trimNewline (utf8 "command=fetch\n") = utf8 "command=fetch" := by decide
  simp only [headerStep, htrim, fromUtf8_utf8]
  rfl

theorem headerStep_format {fmt : String} (h : trim fmt = fmt) (s : Option String × Bool) :
    headerStep s (.data (utf8 ("object-format=" ++ fmt ++ "\n"))) = .ok (.next (some fmt, s.2)) := by
  have htrim : trimNewline (utf8 ("object-format=" ++ fmt ++ "\n")) = utf8 ("object-format=" ++ fmt) :=
    trimNewline_line ((endsClean_of_forall (by simp)).append (endsClean_of_trim h))
  have hcommand : "object-format=" ++ fmt ≠ "command=fetch" := by
    intro heq
    have hchars := congrArg String.toList heq
    simp at hchars
  simp only [headerStep, htrim, fromUtf8_utf8, hcommand, if_false, stripPrefix_append, h]

/-- **Fetch request, there and back.** -/
theorem fetch_request_round_trip (h : req.Clean) {objectFormat : Option String}
    (hformat : ∀ fmt ∈ objectFormat, trim fmt = fmt)
    (hfit : ∀ line ∈ headerLines objectFormat ++ argLines req, line.length ≤ maxPayload)
    (rest : Bytes) : ∃ w, encodeFetchRequest req objectFormat = some w ∧
      parseFetchRequest (w ++ rest) = .ok ((req, objectFormat), rest) := by
  have hheader : Goes headerStep (none, false) ((headerLines objectFormat).map Frame.data)
      (objectFormat, false) := by
    refine .turn (headerStep_command _) ?_
    cases objectFormat with
    | none => exact .done _
    | some fmt => exact .turn (headerStep_format (hformat fmt rfl) _) (.done _)
  have hfit₁ : ∀ f ∈ (headerLines objectFormat).map Frame.data, f.Fits := by
    intro f hf
    obtain ⟨line, hline, rfl⟩ := mem_map.mp hf
    exact hfit line (mem_append_left _ hline)
  have hfit₂ : ∀ f ∈ (argLines req).map Frame.data, f.Fits := by
    intro f hf
    obtain ⟨line, hline, rfl⟩ := mem_map.mp hf
    exact hfit line (mem_append_right _ hline)
  refine ⟨streamBytes ((headerLines objectFormat).map Frame.data) ++ (frameBytes .delim ++
    (streamBytes ((argLines req).map Frame.data) ++ frameBytes .flush)), ?_, ?_⟩
  · have hlines := writeLines_eq (fun line hline => hfit line (mem_append_left _ hline)) []
    have hargs := writeLines_eq (fun line hline => hfit line (mem_append_right _ hline))
      (writeDelim (streamBytes ((headerLines objectFormat).map Frame.data)))
    rw [nil_append] at hlines
    rw [encodeFetchRequest, hlines, Option.bind_eq_bind, Option.bind_some, hargs]
    simp [writeDelim, writeFlush, frameBytes]
  · have hread₁ := @readAll_run _ _ FetchError.pkt _ _ _ _ _ .delim hheader hfit₁ rfl trivial
      (streamBytes ((argLines req).map Frame.data) ++ (frameBytes .flush ++ rest))
    have hread₂ := @readAll_run _ _ FetchError.pkt _ _ _ _ _ .flush (goes_args h) hfit₂ rfl trivial rest
    rw [parseFetchRequest, append_assoc, append_assoc, append_assoc]
    simp only [hread₁, hread₂, bind, Except.bind, if_true]
    rfl

end Args

/-! ### The response -/

/-- The response a server encodes: the pack alone, in band 1. -/
def encodeFetchResponsePackfile (packBytes : Bytes) : Option Bytes := do
  let w ← writeData [] (utf8 "packfile\n")
  let w ← writeLines w (bandLines packBytes)
  return writeFlush w

inductive FetchAck
  | nak
  | ack (oid : ObjectId)
  | ready
  deriving DecidableEq

inductive ShallowInfo
  | shallow (oid : ObjectId)
  | unshallow (oid : ObjectId)
  deriving DecidableEq

structure WantedRef where
  oid : ObjectId
  name : String
  deriving DecidableEq

/-- Everything before the pack; the lines of `packfile-uris` are kept as their bytes. -/
structure FetchPreamble where
  acknowledgments : List FetchAck
  shallowInfo : List ShallowInfo
  wantedRefs : List WantedRef
  packfileUris : List Bytes
  packfileMissing : Bool
  deriving DecidableEq

def FetchPreamble.default : FetchPreamble := ⟨[], [], [], [], false⟩

/-- The sections before the pack. -/
inductive Part
  | acknowledgments | shallowInfo | wantedRefs | packfileUris
  deriving DecidableEq

def parseAck (line : Bytes) (algo : HashAlgo) : Except FetchError FetchAck :=
  match fromUtf8 line with
  | none => .error (.badLine "acknowledgments" line)
  | some text =>
    if text = "NAK" then .ok .nak
    else if text = "ready" then .ok .ready
    else
      match stripPrefix "ACK " text with
      | some hex => (parseOidStr (trim hex) algo line "acknowledgments").map .ack
      | none => .error (.badLine "acknowledgments" line)

def parseShallow (line : Bytes) (algo : HashAlgo) : Except FetchError ShallowInfo :=
  match fromUtf8 line with
  | none => .error (.badLine "shallow-info" line)
  | some text =>
    match stripPrefix "shallow " text with
    | some hex => (parseOidStr (trim hex) algo line "shallow-info").map .shallow
    | none =>
      match stripPrefix "unshallow " text with
      | some hex => (parseOidStr (trim hex) algo line "shallow-info").map .unshallow
      | none => .error (.badLine "shallow-info" line)

def parseWantedRef (line : Bytes) (algo : HashAlgo) : Except FetchError WantedRef :=
  match fromUtf8 line with
  | none => .error (.badLine "wanted-refs" line)
  | some text =>
    match splitFirst ' ' text.toList with
    | none => .error (.badLine "wanted-refs" line)
    | some (hex, name) =>
      (parseOidStr (trim (String.ofList hex)) algo line "wanted-refs").map fun oid =>
        ⟨oid, trim (String.ofList name)⟩

/-- One turn over the sections: what came so far, and the section it is in. -/
def preambleStep (algo : HashAlgo) (s : FetchPreamble × Option Part) :
    Frame → Except FetchError (Turn (FetchPreamble × Option Part))
  | .flush => .ok (.leave ({ s.1 with packfileMissing := true }, s.2))
  | .responseEnd => .ok (.leave ({ s.1 with packfileMissing := true }, s.2))
  | .delim => .ok (.next (s.1, none))
  | .data line =>
    let line := trimNewline line
    match s.2 with
    | none =>
      -- the first line of a section is its name
      if line = utf8 "acknowledgments" then .ok (.next (s.1, some .acknowledgments))
      else if line = utf8 "shallow-info" then .ok (.next (s.1, some .shallowInfo))
      else if line = utf8 "wanted-refs" then .ok (.next (s.1, some .wantedRefs))
      else if line = utf8 "packfile-uris" then .ok (.next (s.1, some .packfileUris))
      else if line = utf8 "packfile" then .ok (.leave s)
      else .error (.unknownSection line)
    | some .acknowledgments => do
      let ack ← parseAck line algo
      return .next ({ s.1 with acknowledgments := s.1.acknowledgments ++ [ack] }, s.2)
    | some .shallowInfo => do
      let info ← parseShallow line algo
      return .next ({ s.1 with shallowInfo := s.1.shallowInfo ++ [info] }, s.2)
    | some .wantedRefs => do
      let wanted ← parseWantedRef line algo
      return .next ({ s.1 with wantedRefs := s.1.wantedRefs ++ [wanted] }, s.2)
    | some .packfileUris =>
      .ok (.next ({ s.1 with packfileUris := s.1.packfileUris ++ [line] }, s.2))

/-- Parses a response up to the pack. -/
def readFetchPreamble (algo : HashAlgo) (r : Bytes) : Except FetchError (FetchPreamble × Bytes) := do
  let ((preamble, _), r) ← readAll .pkt (preambleStep algo) r (.default, none)
  return (preamble, r)

/-- One turn of the demultiplexing of a pack: what came so far, and the pack bytes counted. -/
def packStep (s : Demuxed × Nat) : Frame → Except FetchError (Turn (Demuxed × Nat))
  | .flush => .ok (.leave s)
  | .responseEnd => .ok (.leave s)
  | .delim => .error (.badLine "packfile" (utf8 "unexpected delim"))
  | .data [] => .error .emptySidebandPkt
  | .data (band :: body) =>
    if band = 1 then .ok (.next (⟨s.1.band1 ++ body, s.1.progress⟩, s.2 + body.length))
    else if band = 2 then .ok (.next (⟨s.1.band1, s.1.progress ++ [body]⟩, s.2))
    else if band = 3 then .error (.serverError body)
    else .error (.badSideband band)

/-- Reads the pack from its sideband stream; gives the pack, the progress messages, and the
number of pack bytes. -/
def drainPackfile (r : Bytes) : Except FetchError ((Demuxed × Nat) × Bytes) :=
  readAll .pkt packStep r (⟨[], []⟩, 0)

/-! ### The response, there and back -/

/-- A sideband line: pack bytes, or a progress message. -/
inductive BandLine
  | pack (bytes : Bytes)
  | progress (message : Bytes)
  deriving DecidableEq

namespace BandLine

def line : BandLine → Bytes
  | pack bytes => 1 :: bytes
  | progress message => 2 :: message

def packBytes : BandLine → Bytes
  | pack bytes => bytes
  | progress _ => []

def message? : BandLine → Option Bytes
  | pack _ => none
  | progress message => some message

end BandLine

/-- The frames of sideband lines. -/
def bandFrames (bands : List BandLine) : List Frame := bands.map fun band => .data band.line

theorem goes_bands (bands : List BandLine) (s : Demuxed × Nat) : Goes packStep s (bandFrames bands)
    (⟨s.1.band1 ++ (bands.map BandLine.packBytes).flatten,
      s.1.progress ++ bands.filterMap BandLine.message?⟩,
      s.2 + (bands.map BandLine.packBytes).flatten.length) := by
  induction bands generalizing s with
  | nil =>
    simp only [map_nil, flatten_nil, filterMap_nil, append_nil]
    exact .done s
  | cons band bands ih =>
    cases band with
    | pack bytes =>
      have hrest := ih (⟨s.1.band1 ++ bytes, s.1.progress⟩, s.2 + bytes.length)
      simp only [append_assoc, Nat.add_assoc, ← length_append] at hrest
      exact .turn rfl hrest
    | progress message =>
      have hrest := ih (⟨s.1.band1, s.1.progress ++ [message]⟩, s.2)
      rw [append_assoc, singleton_append] at hrest
      exact .turn rfl hrest

/-- **Demultiplexing** gives the pack and the progress messages, however they are cut and
mixed. -/
theorem drain_bands {bands : List BandLine} (hfit : ∀ band ∈ bands, band.line.length ≤ maxPayload)
    (rest : Bytes) : drainPackfile (streamBytes (bandFrames bands) ++ (frameBytes .flush ++ rest)) =
      .ok ((⟨(bands.map BandLine.packBytes).flatten, bands.filterMap BandLine.message?⟩,
        (bands.map BandLine.packBytes).flatten.length), rest) := by
  have hgoes := goes_bands bands (⟨[], []⟩, 0)
  simp only [nil_append, Nat.zero_add] at hgoes
  refine readAll_run (f := .flush) hgoes (fun f hf => ?_) rfl trivial rest
  obtain ⟨band, hband, rfl⟩ := mem_map.mp hf
  exact hfit band hband

/-- The lines that `chunks` makes of a pack. -/
theorem bandLines_eq (b : Bytes) : (bandLines b).map Frame.data =
    bandFrames ((chunks (maxLineLen - 5) b).map BandLine.pack) := by
  rw [bandLines, bandFrames, map_map, map_map]
  rfl

/-- The preamble ends at the header of the pack. -/
theorem readFetchPreamble_packfile (algo : HashAlgo) (r : Bytes) :
    readFetchPreamble algo (frameBytes (.data (utf8 "packfile\n")) ++ r) = .ok (.default, r) := by
  have htrim : trimNewline (utf8 "packfile\n") = utf8 "packfile" := by decide
  have hleave : preambleStep algo (.default, none) (.data (utf8 "packfile\n")) =
      .ok (.leave (.default, none)) := by
    simp only [preambleStep, htrim]
    rfl
  have hfits : (Frame.data (utf8 "packfile\n")).Fits := by
    show (utf8 "packfile\n").length ≤ maxPayload
    decide
  have hread := @readAll_run _ _ FetchError.pkt _ _ _ _ [] _ (.done (FetchPreamble.default, none))
    (by simp) hleave hfits r
  rw [streamBytes_nil, nil_append] at hread
  rw [readFetchPreamble, hread]
  rfl

/-- **Fetch response, there and back.** -/
theorem fetch_response_round_trip (algo : HashAlgo) (pack rest : Bytes) :
    ∃ w r, encodeFetchResponsePackfile pack = some w ∧
      readFetchPreamble algo (w ++ rest) = .ok (.default, r) ∧
      drainPackfile r = .ok ((⟨pack, []⟩, pack.length), rest) := by
  have hheader : (utf8 "packfile\n").length ≤ maxPayload := by decide
  have hlines := writeLines_eq (bandLines_fit pack) (frameBytes (.data (utf8 "packfile\n")))
  rw [bandLines_eq] at hlines
  have hwrite : writeData [] (utf8 "packfile\n") = some (frameBytes (.data (utf8 "packfile\n"))) := by
    rw [writeData, if_pos hheader, nil_append, frameBytes]
  have hdrain := @drain_bands ((chunks (maxLineLen - 5) pack).map BandLine.pack)
    (fun band hband => ?_) rest
  · have hpack : (((chunks (maxLineLen - 5) pack).map BandLine.pack).map BandLine.packBytes).flatten =
        pack := by
      rw [map_map]
      exact (congrArg List.flatten (map_id _)).trans (flatten_chunks (by decide) pack)
    have hmessages : ((chunks (maxLineLen - 5) pack).map BandLine.pack).filterMap BandLine.message? =
        [] := by
      rw [filterMap_map]
      exact filterMap_eq_nil_iff.mpr fun _ _ => rfl
    rw [hpack, hmessages] at hdrain
    generalize bandFrames ((chunks (maxLineLen - 5) pack).map BandLine.pack) = frames at hlines hdrain
    refine ⟨frameBytes (.data (utf8 "packfile\n")) ++ (streamBytes frames ++ frameBytes .flush),
      streamBytes frames ++ (frameBytes .flush ++ rest), ?_, ?_, hdrain⟩
    · rw [encodeFetchResponsePackfile, hwrite, Option.bind_eq_bind, Option.bind_some, hlines,
        Option.bind_some, ← append_assoc]
      rfl
    · rw [append_assoc, append_assoc]
      exact readFetchPreamble_packfile algo _
  · obtain ⟨chunk, hchunk, rfl⟩ := mem_map.mp hband
    exact bandLines_fit pack _ (mem_map_of_mem hchunk)

end Alt.Wire
