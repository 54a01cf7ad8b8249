import Alt.Wire.Fetch

namespace Alt.Wire

open Alt.Library List

/-!
# The wire codecs are inverse

`wire_round_trip` puts together what the codecs do to each other: push request, fetch request,
sideband response, status report, frames.  A line that does not fit a frame, an id of another
hash, an empty capability, a text that a parser trims or splits are not carried:
`wire_round_trip_fails`.
-/

/-- **The wire codecs are inverse** on what their lines can carry, with anything behind them. -/
theorem wire_round_trip :
    (∀ (algo : HashAlgo) (updates : List RefUpdate) (capabilities : List String) (pack : Bytes),
      updates ≠ [] → (∀ u ∈ updates, WellFormed algo u ∧ EndsClean u.name) →
      (∀ c ∈ capabilities, IsWord c) →
      (∀ line ∈ commandLines algo capabilities updates, line.length ≤ maxPayload) →
      ∃ w, encodePushRequest updates capabilities algo pack = some w ∧
        parsePushRequestHead algo w = .ok (⟨updates, capabilities⟩, pack)) ∧
    (∀ (req : FetchRequest) (objectFormat : Option String) (rest : Bytes), req.Clean →
      (∀ fmt ∈ objectFormat, trim fmt = fmt) →
      (∀ line ∈ headerLines objectFormat ++ argLines req, line.length ≤ maxPayload) →
      ∃ w, encodeFetchRequest req objectFormat = some w ∧
        parseFetchRequest (w ++ rest) = .ok ((req, objectFormat), rest)) ∧
    (∀ (algo : HashAlgo) (pack rest : Bytes), ∃ w r, encodeFetchResponsePackfile pack = some w ∧
      readFetchPreamble algo (w ++ rest) = .ok (.default, r) ∧
      drainPackfile r = .ok ((⟨pack, []⟩, pack.length), rest)) ∧
    (∀ (bands : List BandLine) (rest : Bytes), (∀ band ∈ bands, band.line.length ≤ maxPayload) →
      drainPackfile (streamBytes (bandFrames bands) ++ (frameBytes .flush ++ rest)) =
        .ok ((⟨(bands.map BandLine.packBytes).flatten, bands.filterMap BandLine.message?⟩,
          (bands.map BandLine.packBytes).flatten.length), rest)) ∧
    (∀ (unpack : Except String Unit) (commands : List CommandStatus) (rest : Bytes),
      UnpackClean unpack → (∀ c ∈ commands, c.Clean) →
      (∀ line ∈ unpackLine unpack :: commands.map statusLine, line.length ≤ maxPayload) →
      (∃ w, encodeReportStatus unpack commands = some w ∧
        parseReportStatus (w ++ rest) = .ok (⟨unpack, commands⟩, rest)) ∧
      ∃ w, encodeReportStatusSideband unpack commands = some w ∧
        parseReportStatusSideband (w ++ rest) = .ok ((⟨unpack, commands⟩, []), rest)) ∧
    (∀ (frames : List Frame) (rest : Bytes), (∀ f ∈ frames, f.Fits) →
      ∃ w, writeFrames [] frames = some w ∧
        readFrames frames.length (w ++ rest) = .ok (frames, rest)) :=
  ⟨fun _ _ _ pack hne hwf hcaps hfit => push_request_round_trip hne hwf hcaps hfit pack,
    fun _ _ rest hclean hformat hfit => fetch_request_round_trip hclean hformat hfit rest,
    fetch_response_round_trip,
    fun _ rest hfit => drain_bands hfit rest,
    fun _ _ rest hunpack hcommands hfit => ⟨report_round_trip hunpack hcommands hfit rest,
      report_sideband_round_trip hunpack hcommands hfit rest⟩,
    fun _ rest hfit => frames_round_trip hfit rest⟩

theorem createA_wellFormed : WellFormed .sha1 createA ∧ EndsClean createA.name := by
  refine ⟨⟨by simp [createA], ?_, by decide⟩, endsClean_of_forall (by simp [createA])⟩
  intro o ho
  obtain rfl : firstId = o := Option.some.inj ho
  exact ⟨rfl, by decide⟩

theorem wire_round_trip_push : [createA] ≠ [] ∧
    (∀ u ∈ [createA], WellFormed .sha1 u ∧ EndsClean u.name) ∧
    (∀ c ∈ ["report-status"], IsWord c) ∧
    (∀ line ∈ commandLines .sha1 ["report-status"] [createA], line.length ≤ maxPayload) ∧
    ∃ w, encodePushRequest [createA] ["report-status"] .sha1 [0x50] = some w ∧
      parsePushRequestHead .sha1 w = .ok (⟨[createA], ["report-status"]⟩, [0x50]) := by
  have hwf : ∀ u ∈ [createA], WellFormed .sha1 u ∧ EndsClean u.name := by
    simpa using createA_wellFormed
  have hcaps : ∀ c ∈ ["report-status"], IsWord c := by
    simp [IsWord, isWhitespace]
  have hfit : ∀ line ∈ commandLines .sha1 ["report-status"] [createA], line.length ≤ maxPayload := by
    decide +kernel
  exact ⟨by simp, hwf, hcaps, hfit, wire_round_trip.1 .sha1 [createA] ["report-status"] [0x50] (by simp)
    hwf hcaps hfit⟩

theorem encodeFetch_eq {req : FetchRequest}
    (hfit : ∀ line ∈ argLines req, line.length ≤ maxPayload) : encodeFetchRequest req none =
      some (streamBytes [.data (utf8 "command=fetch\n")] ++ (frameBytes .delim ++
        (streamBytes ((argLines req).map Frame.data) ++ frameBytes .flush))) := by
  have hheader : ∀ line ∈ headerLines none, line.length ≤ maxPayload := by decide
  have hlines := writeLines_eq hheader []
  have hargs := writeLines_eq hfit (writeDelim (streamBytes [.data (utf8 "command=fetch\n")]))
  rw [nil_append] at hlines
  rw [encodeFetchRequest, hlines, Option.bind_eq_bind, Option.bind_some]
  rw [show (headerLines none).map Frame.data = [.data (utf8 "command=fetch\n")] from rfl, hargs]
  simp [writeDelim, writeFlush, frameBytes]

/-- A request that wants one object. -/
def wantOnly (oid : ObjectId) : FetchRequest := ⟨[oid], [], false, false, false, false, false, none⟩

/-- A request with a filter alone. -/
def filterOnly (spec : String) : FetchRequest :=
  ⟨[], [], false, false, false, false, false, some spec⟩

/-- The header of a request without a format is read. -/
theorem readHeader_none (rest : Bytes) : readAll FetchError.pkt headerStep
    (streamBytes [.data (utf8 "command=fetch\n")] ++ (frameBytes .delim ++ rest)) (none, false) =
      .ok ((none, true), rest) := by
  refine readAll_run (f := .delim) (.turn (headerStep_command _) (.done _)) (fun f hf => ?_) rfl trivial
    rest
  rw [mem_singleton] at hf
  subst hf
  show (utf8 "command=fetch\n").length ≤ maxPayload
  decide

/-- A request without a format is its arguments. -/
theorem parseFetchRequest_none (rest : Bytes) : parseFetchRequest
    (streamBytes [.data (utf8 "command=fetch\n")] ++ (frameBytes .delim ++ rest)) =
      (readAll FetchError.pkt argStep rest .default).map fun p => ((p.1, none), p.2) := by
  rw [parseFetchRequest, readHeader_none]
  cases hargs : readAll FetchError.pkt argStep rest .default with
  | error e => simp only [bind, Except.bind, if_true, hargs, Except.map]
  | ok p => simp only [bind, Except.bind, if_true, hargs, Except.map, pure, Except.pure]

/-- The argument line of an id that is not SHA-1 is refused. -/
theorem argStep_want_other {req : FetchRequest} {oid : ObjectId} (h : oid.algo ≠ .sha1) :
    argStep req (.data (oidLine "want " oid)) =
      .error (.badLine "want/have" (utf8 ("want " ++ String.ofList oid.hexText))) := by
  have htrim : trimNewline (oidLine "want " oid) = utf8 ("want " ++ String.ofList oid.hexText) :=
    trimNewline_line (endsClean_hexText _ oid (endsClean_of_forall (by simp)))
  have hflag : NotFlag ("want " ++ String.ofList oid.hexText) :=
    @notFlag_of_head 'w' ("ant " ++ String.ofList oid.hexText) _ (by simp) (by decide)
  have hparse : parseOid .sha1 oid.hexText = none := by
    rw [parseOid, ObjectId.fromHex_hexText]
    simp [Option.filter, h]
  simp only [argStep, htrim, fromUtf8_utf8, hflag.done, hflag.noProgress, hflag.thinPack,
    hflag.ofsDelta, hflag.includeTag, if_false, stripPrefix_append, trim_hexText, parseOidStr,
    String.toList_ofList, hparse]
  rfl

/-- **What the lines do not carry.** An empty capability is lost; an all-zero id comes back as
none; a line longer than a frame trips the assertion; a SHA-256 id is refused; a blank filter is
trimmed; a name with a blank is split, and the unpack error `ok` is a success. -/
theorem wire_round_trip_fails :
    (∃ w, encodePushRequest [createA] [""] .sha1 [] = some w ∧
      parsePushRequestHead .sha1 w = .ok (⟨[createA], []⟩, [])) ∧
    (∃ w, encodePushRequest [{ createA with old := some (ObjectId.zeroOid .sha1) }] [] .sha1 [] = some w ∧
      parsePushRequestHead .sha1 w = .ok (⟨[createA], []⟩, [])) ∧
    encodePushRequest [{ createA with name := String.ofList (List.replicate 65520 'a') }] [] .sha1 [] =
      none ∧
    (∃ w, encodeFetchRequest (wantOnly (ObjectId.zeroOid .sha256)) none =
      some w ∧ (parseFetchRequest w).isOk = false) ∧
    (∃ w, encodeFetchRequest (filterOnly " ") none = some w ∧
      parseFetchRequest w = .ok ((filterOnly "", none), [])) ∧
    (∃ w, encodeReportStatus (.ok ()) [.ng "a b" "c"] = some w ∧
      parseReportStatus w = .ok (⟨.ok (), [.ng "a" "b c"]⟩, [])) ∧
    (∃ w, encodeReportStatus (.error "ok") [] = some w ∧
      parseReportStatus w = .ok (⟨.ok (), []⟩, [])) := by
  have hwf : ∀ u ∈ [createA], WellFormed .sha1 u ∧ EndsClean u.name := by
    simpa using createA_wellFormed
  have hfit : ∀ line ∈ commandLines .sha1 [] [createA], line.length ≤ maxPayload := by decide +kernel
  have hpush := push_request_round_trip (by simp) hwf (by simp) hfit []
  refine ⟨?_, ?_, ?_, ?_, ?_, ?_, ?_⟩
  · have hlines : commandLines .sha1 [""] [createA] = commandLines .sha1 [] [createA] := by
      simp [commandLines, commandLine]
    rw [encodePushRequest, hlines]
    exact hpush
  · exact hpush
  · have hlong : (utf8 (String.ofList (List.replicate 65520 'a'))).length = 65520 :=
      length_utf8_replicate 65520
    have hnone : writeLines [] (commandLines .sha1 []
        [{ createA with name := String.ofList (List.replicate 65520 'a') }]) = none := by
      rw [← Option.not_isSome_iff_eq_none, writeLines_isSome]
      intro hall
      have hline : (commandLine .sha1 [] 0 _).length ≤ maxPayload := hall _ mem_cons_self
      rw [commandLine, String.ofList_append, String.ofList_toList, utf8_append] at hline
      simp only [length_append, hlong] at hline
      exact absurd hline (by rw [maxPayload, maxLineLen]; omega)
    rw [encodePushRequest, hnone]
    rfl
  · -- the argument line of a SHA-256 id is refused
    have hfit' : ∀ line ∈ argLines (wantOnly (ObjectId.zeroOid .sha256)),
        line.length ≤ maxPayload := by decide +kernel
    refine ⟨_, encodeFetch_eq hfit', ?_⟩
    have herror := @readAll_error _ _ FetchError.pkt argStep _ _ [] _ _ (.done FetchRequest.default)
      (by simp) (@argStep_want_other _ (ObjectId.zeroOid .sha256) (by decide))
      (hfit' _ mem_cons_self) (frameBytes .flush)
    rw [streamBytes_nil, nil_append] at herror
    have hlines : streamBytes ((argLines (wantOnly (ObjectId.zeroOid .sha256))).map Frame.data) =
        frameBytes (.data (oidLine "want " (ObjectId.zeroOid .sha256))) := append_nil _
    rw [parseFetchRequest_none, hlines, herror]
    rfl
  · have hfit' : ∀ line ∈ argLines (filterOnly " "),
        line.length ≤ maxPayload := by decide +kernel
    have hturn := @argStep_filter .default " " (endsClean_of_forall (by simp))
    rw [show trim " " = "" by decide] at hturn
    have hread := @readAll_run _ _ FetchError.pkt argStep _ _ _ _ .flush (.turn hturn (.done _))
      (fun f hf => by
        rw [mem_singleton] at hf
        subst hf
        exact hfit' _ mem_cons_self) rfl trivial []
    have hlines : streamBytes ((argLines (filterOnly " ")).map Frame.data) =
        streamBytes [.data (utf8 ("filter " ++ " " ++ "\n"))] := rfl
    rw [append_nil] at hread
    refine ⟨_, encodeFetch_eq hfit', ?_⟩
    rw [parseFetchRequest_none, hlines, hread]
    rfl
  · have hline : ∀ line ∈ unpackLine (.ok ()) :: [CommandStatus.ng "a" "b c"].map statusLine,
        line.length ≤ maxPayload := by decide
    have hreport := @report_round_trip (.ok ()) [.ng "a" "b c"] trivial (by
      simp only [mem_singleton, forall_eq, CommandStatus.Clean]
      exact ⟨by decide, endsClean_of_forall (by simp)⟩) hline []
    simp only [append_nil] at hreport
    exact hreport
  · have hreport := @report_round_trip (.ok ()) [] trivial (by simp) (by decide) []
    simp only [append_nil] at hreport
    exact hreport

end Alt.Wire
