import Alt.Prism.PngTotal

namespace Alt.PngPrism

open Alt.Library Attempt Alt.Prism

/-!
# What the PNG prism cuts, it puts together again

* `decodeRecipeV1_encodeRecipeV1`, `decodeRecipeV2_encodeRecipeV2` — recipes are read as they were written;
* `spliceSpans_cutSpans` — segments and pieces of the stream in turn are the image;
* `filterRows_unfilterRows` — the rows of an image, filtered again, are what was inflated;
* `recompose_decompose` — the round trip, in both modes.
-/

variable {Z : Zlib} {input envelope : Bytes}

/-! ### Recipes -/

@[simp] theorem length_encodeSpan (s : SpanMeta) : (encodeSpan s).length = 8 := by
  simp [encodeSpan]

variable {p q : Bytes} {i : Nat}

theorem readSpan_append {recipe : Bytes} {s : SpanMeta}
    (hrecipe : recipe = p ++ (encodeSpan s ++ q)) (hi : p.length = i) :
    readSpan recipe i = .ok s := by
  have hseg : u32At recipe i = .ok s.segBeforeLen := by
    rw [hrecipe, encodeSpan, List.append_assoc]
    exact u32At_append s.segBeforeLen hi
  have hdata : u32At recipe (i + 4) = .ok s.dataLen := by
    have hfield := u32At_append (p := p ++ leBytes 4 s.segBeforeLen.toNat) (i := i + 4) (q := q) s.dataLen
      (by rw [List.length_append, length_leBytes, hi])
    rw [hrecipe]
    simpa only [encodeSpan, List.append_assoc] using hfield
  rw [readSpan, hseg, ok_bind, hdata]
  rfl

variable {spans : List SpanMeta}

/-- The end of a recipe is read where it was written. -/
theorem decodeSpans_append (segAfterLen : UInt32) (hi : p.length = i)
    (hspans : spans.length < 2 ^ 32) (henvelope : envelope.length < 2 ^ 32) :
    decodeSpans (p ++ encodeSpans spans segAfterLen envelope) i = .ok (spans, segAfterLen, envelope) := by
  have hcount : (UInt32.ofNat spans.length).toNat = spans.length := by
    rw [UInt32.toNat_ofNat', Nat.mod_eq_of_lt hspans]
  have htable : (spans.flatMap encodeSpan).length = spans.length * 8 := length_table fun s _ => length_encodeSpan s
  have hlength : i + 4 ≤ (p ++ encodeSpans spans segAfterLen envelope).length := by
    rw [List.length_append, encodeSpans, List.length_append, length_leBytes]
    omega
  have hn : u32At (p ++ encodeSpans spans segAfterLen envelope) i = .ok (UInt32.ofNat spans.length) := by
    have hfield := u32At_append (p := p) (i := i)
      (q := spans.flatMap encodeSpan ++ encodeTail segAfterLen envelope) (UInt32.ofNat spans.length) hi
    rwa [hcount] at hfield
  have hrecords : readRows (p ++ encodeSpans spans segAfterLen envelope) 8
      (readSpan (p ++ encodeSpans spans segAfterLen envelope)) spans.length (i + 4) = .ok spans :=
    readRows_append length_encodeSpan (p := p ++ leBytes 4 spans.length)
      (by rw [encodeSpans, List.append_assoc]) (by rw [List.length_append, length_leBytes, hi])
      fun s p q k hl hk => readSpan_append hl hk
  have htail : decodeTail (p ++ encodeSpans spans segAfterLen envelope) (i + 4 + 8 * spans.length) =
      .ok (segAfterLen, envelope) := by
    have hread := decodeTail_append segAfterLen (p := p ++ (leBytes 4 spans.length ++ spans.flatMap encodeSpan))
      (i := i + 4 + 8 * spans.length) (by
        rw [List.length_append, List.length_append, length_leBytes, htable]
        omega) henvelope
    simpa only [encodeSpans, List.append_assoc] using hread
  rw [decodeSpans, declineIf_of_not (not_lt.mpr hlength), ok_bind, hn, ok_bind, hcount, hrecords, ok_bind, htail]
  rfl

variable {segAfterLen : UInt32}

/-- **A recipe of mode A is read as it was written.** -/
theorem decodeRecipeV1_encodeRecipeV1 {level : UInt8} (hspans : spans.length < 2 ^ 32)
    (henvelope : envelope.length < 2 ^ 32) :
    decodeRecipeV1 (encodeRecipeV1 level spans segAfterLen envelope) = .ok (level, spans, segAfterLen, envelope) := by
  have hlength : 13 ≤ (encodeRecipeV1 level spans segAfterLen envelope).length := by
    simp only [encodeRecipeV1, encodeSpans, List.length_append, List.length_cons, length_leBytes]
    rw [show recipeMagicV1.length = 8 from rfl]
    omega
  have hmagic : cut (encodeRecipeV1 level spans segAfterLen envelope) 0 8 = .ok recipeMagicV1 :=
    cut_append (p := []) (m := recipeMagicV1) rfl rfl
  have hlevel : byteAt (encodeRecipeV1 level spans segAfterLen envelope) 8 = .ok level :=
    byteAt_append (p := recipeMagicV1) level rfl
  have hdecode : decodeSpans (encodeRecipeV1 level spans segAfterLen envelope) 9 =
      .ok (spans, segAfterLen, envelope) := by
    have hread := decodeSpans_append segAfterLen (p := recipeMagicV1 ++ [level]) (i := 9) rfl
      hspans henvelope
    simpa only [encodeRecipeV1, List.append_assoc, List.cons_append, List.nil_append] using hread
  rw [decodeRecipeV1, declineIf_of_not (not_lt.mpr hlength), ok_bind, hmagic, ok_bind,
    declineIf_of_not (not_not.mpr rfl), ok_bind, hlevel, ok_bind, hdecode]
  rfl

@[simp] theorem length_encodeIhdr (ihdr : Ihdr) : (encodeIhdr ihdr).length = 11 := by
  simp [encodeIhdr]

theorem decodeIhdr_append {recipe : Bytes} {ihdr : Ihdr}
    (hrecipe : recipe = p ++ (encodeIhdr ihdr ++ q)) (hi : p.length = i) :
    decodeIhdr recipe i = .ok ihdr := by
  have hwidth : u32At recipe i = .ok ihdr.width := by
    rw [hrecipe, encodeIhdr, List.append_assoc]
    exact u32At_append ihdr.width hi
  have hheight : u32At recipe (i + 4) = .ok ihdr.height := by
    have hfield := u32At_append (p := p ++ leBytes 4 ihdr.width.toNat) (i := i + 4)
      (q := [ihdr.bitDepth, ihdr.colorType, ihdr.interlace] ++ q) ihdr.height
      (by rw [List.length_append, length_leBytes, hi])
    rw [hrecipe]
    simpa only [encodeIhdr, List.append_assoc] using hfield
  have hbyte : ∀ k (x : UInt8) rest, [ihdr.bitDepth, ihdr.colorType, ihdr.interlace] =
      [ihdr.bitDepth, ihdr.colorType, ihdr.interlace].take k ++ (x :: rest) → k ≤ 3 →
      byteAt recipe (i + 8 + k) = .ok x := by
    intro k x rest hsplit hk
    have hfield := byteAt_append (p := p ++ (leBytes 4 ihdr.width.toNat ++ (leBytes 4 ihdr.height.toNat ++
      [ihdr.bitDepth, ihdr.colorType, ihdr.interlace].take k))) (i := i + 8 + k) (q := rest ++ q) x (by
        simp only [List.length_append, length_leBytes, List.length_take, List.length_cons, List.length_nil, hi]
        omega)
    rw [hrecipe, encodeIhdr, hsplit]
    simpa only [List.append_assoc, List.cons_append] using hfield
  have hbitDepth := hbyte 0 ihdr.bitDepth [ihdr.colorType, ihdr.interlace] rfl (by omega)
  have hcolorType := hbyte 1 ihdr.colorType [ihdr.interlace] rfl (by omega)
  have hinterlace := hbyte 2 ihdr.interlace [] rfl (by omega)
  rw [decodeIhdr, hwidth, ok_bind, hheight, ok_bind, hbitDepth, ok_bind, hcolorType, ok_bind, hinterlace]
  rfl

/-- **A recipe of mode B is read as it was written.** -/
theorem decodeRecipeV2_encodeRecipeV2 {level : UInt8} {ihdr : Ihdr} {filters : Bytes}
    (hfilters : filters.length < 2 ^ 32) (hspans : spans.length < 2 ^ 32)
    (henvelope : envelope.length < 2 ^ 32) :
    decodeRecipeV2 (encodeRecipeV2 level ihdr filters spans segAfterLen envelope) =
      .ok (level, ihdr, filters, spans, segAfterLen, envelope) := by
  have hcount : (UInt32.ofNat filters.length).toNat = filters.length := by
    rw [UInt32.toNat_ofNat', Nat.mod_eq_of_lt hfilters]
  have hmagicLength : recipeMagicV2.length = 8 := rfl
  have hlength : 24 + filters.length ≤ (encodeRecipeV2 level ihdr filters spans segAfterLen envelope).length := by
    simp only [encodeRecipeV2, List.length_append, List.length_cons, length_leBytes, length_encodeIhdr]
    omega
  have hmagic : cut (encodeRecipeV2 level ihdr filters spans segAfterLen envelope) 0 8 = .ok recipeMagicV2 :=
    cut_append (p := []) (m := recipeMagicV2) rfl rfl
  have hlevel : byteAt (encodeRecipeV2 level ihdr filters spans segAfterLen envelope) 8 = .ok level :=
    byteAt_append (p := recipeMagicV2) level rfl
  have hihdr : decodeIhdr (encodeRecipeV2 level ihdr filters spans segAfterLen envelope) 9 = .ok ihdr :=
    decodeIhdr_append (p := recipeMagicV2 ++ [level])
      (q := leBytes 4 filters.length ++ (filters ++ encodeSpans spans segAfterLen envelope))
      (by simp only [encodeRecipeV2, List.append_assoc, List.cons_append, List.nil_append]) rfl
  have hfcount : u32At (encodeRecipeV2 level ihdr filters spans segAfterLen envelope) 20 =
      .ok (UInt32.ofNat filters.length) := by
    have hfield := u32At_append (p := recipeMagicV2 ++ (level :: encodeIhdr ihdr)) (i := 20)
      (q := filters ++ encodeSpans spans segAfterLen envelope) (UInt32.ofNat filters.length)
      (by rw [List.length_append, List.length_cons, length_encodeIhdr, hmagicLength])
    rw [hcount] at hfield
    simpa only [encodeRecipeV2, List.append_assoc, List.cons_append] using hfield
  have hcut : cut (encodeRecipeV2 level ihdr filters spans segAfterLen envelope) 24 (24 + filters.length) =
      .ok filters := by
    have hmiddle := cut_append (p := recipeMagicV2 ++ (level :: (encodeIhdr ihdr ++ leBytes 4 filters.length)))
      (i := 24) (j := 24 + filters.length) (m := filters) (q := encodeSpans spans segAfterLen envelope)
      (by rw [List.length_append, List.length_cons, List.length_append, length_encodeIhdr, length_leBytes,
        hmagicLength]) rfl
    simpa only [encodeRecipeV2, List.append_assoc, List.cons_append] using hmiddle
  have hdecode : decodeSpans (encodeRecipeV2 level ihdr filters spans segAfterLen envelope) (24 + filters.length) =
      .ok (spans, segAfterLen, envelope) := by
    have hread := decodeSpans_append segAfterLen (i := 24 + filters.length)
      (p := recipeMagicV2 ++ (level :: (encodeIhdr ihdr ++ (leBytes 4 filters.length ++ filters))))
      (by
        simp only [List.length_append, List.length_cons, length_encodeIhdr, length_leBytes]
        omega) hspans henvelope
    simpa only [encodeRecipeV2, List.append_assoc, List.cons_append] using hread
  rw [decodeRecipeV2, declineIf_of_not (by omega), ok_bind, hmagic, ok_bind, declineIf_of_not (not_not.mpr rfl),
    ok_bind, hlevel, ok_bind, hihdr, ok_bind, hfcount, ok_bind, hcount, declineIf_of_not (not_lt.mpr hlength),
    ok_bind, hcut, ok_bind, hdecode]
  rfl

/-! ### The envelope -/

/-- What the spans' lengths come to. -/
structure Tally (cursor cursor' : Nat) (spans : List Range) (env stream : Bytes) (metas : List SpanMeta) : Prop where
  count : metas.length = spans.length
  segments : (metas.map fun s => s.segBeforeLen.toNat).sum = env.length
  data : (metas.map fun s => s.dataLen.toNat).sum = stream.length
  total : cursor + env.length + stream.length = cursor'

variable {cursor cursor' : Nat} {env stream : Bytes} {metas : List SpanMeta}

/-- One span: what is kept of it, and what it is cut to. -/
theorem cutSpans_cons {span : Range} {spans : List Range} (hsize : input.length < 2 ^ 32)
    (h : InOrder input.length cursor (span :: spans))
    (hcut : cutSpans input cursor (span :: spans) = .ok (env, metas, cursor'))
    (hconcat : concatSpans input (span :: spans) = .ok stream) :
    ∃ env' metas' stream' s, cutSpans input span.stop spans = .ok (env', metas', cursor') ∧
      concatSpans input spans = .ok stream' ∧ metas = s :: metas' ∧ env = slice input cursor span.start ++ env' ∧
      stream = slice input span.start span.stop ++ stream' ∧
      s.segBeforeLen.toNat = span.start - cursor ∧ s.dataLen.toNat = span.stop - span.start := by
  simp only [cutSpans, steps_eq_ok] at hcut
  obtain ⟨seg, hseg, dataLen, hdata, ⟨env', metas', cursor''⟩, hrest, hok⟩ := hcut
  cases hok
  simp only [concatSpans, steps_eq_ok] at hconcat
  obtain ⟨data, hslice, stream', hstream, hok⟩ := hconcat
  cases hok
  have hstop := h.2.2.le
  have hlength := length_of_cut hseg
  obtain ⟨-, rfl⟩ := cut_eq_ok.mp hseg
  obtain ⟨-, rfl⟩ := cut_eq_ok.mp hslice
  obtain ⟨-, rfl⟩ := sub_eq_ok.mp hdata
  have hle := h.2.1
  refine ⟨env', metas', stream', _, hrest, hstream, rfl, rfl, rfl, ?_, ?_⟩
  · rw [UInt32.toNat_ofNat', hlength, Nat.mod_eq_of_lt (by omega)]
  · rw [UInt32.toNat_ofNat', Nat.mod_eq_of_lt (by omega)]

theorem tally_cutSpans {spans : List Range} (hsize : input.length < 2 ^ 32)
    (h : InOrder input.length cursor spans)
    (hcut : cutSpans input cursor spans = .ok (env, metas, cursor'))
    (hconcat : concatSpans input spans = .ok stream) :
    Tally cursor cursor' spans env stream metas := by
  induction spans generalizing cursor env stream metas with
  | nil =>
    cases hcut
    cases hconcat
    exact ⟨rfl, rfl, rfl, rfl⟩
  | cons span spans ih =>
    obtain ⟨env', metas', stream', s, hrest, hstream, rfl, rfl, rfl, hseg, hdata⟩ :=
      cutSpans_cons hsize h hcut hconcat
    obtain ⟨hcount, hsegments, hdatas, htotal⟩ := ih h.2.2 hrest hstream
    have hstop := h.2.2.le
    have hstart := h.1
    have hle := h.2.1
    have hsegLength : (slice input cursor span.start).length = span.start - cursor :=
      length_slice hstart (by omega)
    have hdataLength : (slice input span.start span.stop).length = span.stop - span.start := length_slice hle hstop
    refine ⟨by rw [List.length_cons, List.length_cons, hcount], ?_, ?_, ?_⟩
    · rw [List.map_cons, List.sum_cons, hsegments, List.length_append, hseg, hsegLength]
    · rw [List.map_cons, List.sum_cons, hdatas, List.length_append, hdata, hdataLength]
    · rw [List.length_append, List.length_append, hsegLength, hdataLength]
      omega

/-- **Segments and pieces of the stream in turn are the image**, up to the end of the last span. -/
theorem spliceSpans_cutSpans {spans : List Range} {s t : Bytes} {j : Nat}
    (hsize : input.length < 2 ^ 32) (h : InOrder input.length cursor spans)
    (hcut : cutSpans input cursor spans = .ok (env, metas, cursor'))
    (hconcat : concatSpans input spans = .ok stream) (hi : p.length = i) (hj : s.length = j)
    (henv : (p ++ (env ++ q)).length < 2 ^ 32) (hstr : (s ++ (stream ++ t)).length < 2 ^ 32) :
    spliceSpans (p ++ (env ++ q)) (s ++ (stream ++ t)) i j metas =
      .ok (slice input cursor cursor', i + env.length) := by
  induction spans generalizing cursor env stream metas p s i j with
  | nil =>
    cases hcut
    rw [slice_self]
    rfl
  | cons span spans ih =>
    obtain ⟨env', metas', stream', kept, hrest, hstream, rfl, rfl, rfl, hseg, hdata⟩ :=
      cutSpans_cons hsize h hcut hconcat
    have hstop := h.2.2.le
    have hstart := h.1
    have hle := h.2.1
    obtain ⟨hcursor, -⟩ := cursor_of_cutSpans h.2.2 hrest
    have hsegLength : (slice input cursor span.start).length = span.start - cursor :=
      length_slice hstart (by omega)
    have hdataLength : (slice input span.start span.stop).length = span.stop - span.start := length_slice hle hstop
    rw [List.append_assoc] at henv hstr ⊢
    rw [List.append_assoc (slice input span.start span.stop)]
    have htail := ih (p := p ++ slice input cursor span.start)
      (s := s ++ slice input span.start span.stop) (i := i + (span.start - cursor))
      (j := j + (span.stop - span.start)) h.2.2 hrest hstream
      (by rw [List.length_append, hi, hsegLength]) (by rw [List.length_append, hj, hdataLength])
      (by rwa [List.append_assoc]) (by rwa [List.append_assoc])
    rw [List.append_assoc, List.append_assoc] at htail
    have hlengthEnv : i + (span.start - cursor) ≤
        (p ++ (slice input cursor span.start ++ (env' ++ q))).length := by
      simp only [List.length_append]
      omega
    have hlengthStr : j + (span.stop - span.start) ≤
        (s ++ (slice input span.start span.stop ++ (stream' ++ t))).length := by
      simp only [List.length_append]
      omega
    have haddEnv : checkedAdd i (span.start - cursor) = .ok (i + (span.start - cursor)) :=
      checkedAdd_eq_ok.mpr ⟨by omega, rfl⟩
    have haddStr : checkedAdd j (span.stop - span.start) = .ok (j + (span.stop - span.start)) :=
      checkedAdd_eq_ok.mpr ⟨by omega, rfl⟩
    rw [spliceSpans, hseg, hdata, haddEnv, ok_bind, declineIf_of_not (not_lt.mpr hlengthEnv), ok_bind,
      cut_append hi (by rw [hsegLength]), ok_bind, haddStr, ok_bind, declineIf_of_not (not_lt.mpr hlengthStr),
      ok_bind, cut_append hj (by rw [hdataLength]), ok_bind, htail, ok_bind]
    dsimp only
    rw [slice_append hle hcursor, slice_append hstart (by omega), List.length_append, hsegLength, Nat.add_assoc]
    rfl

variable {parsed : ParsedPng}

/-- **The image is put together from its envelope and the stream.** -/
theorem spliceZlib_buildEnvelope (h : Parsed Z input parsed)
    (henvelope : buildEnvelope input parsed.idatSpans = .ok (envelope, spans, segAfterLen)) :
    spans.length < 2 ^ 32 ∧ envelope.length < 2 ^ 32 ∧
      spliceZlib Z envelope spans segAfterLen parsed.inflated parsed.level = .ok input := by
  obtain ⟨stream, hstream, hdeflate⟩ := h.stream
  have hsize := h.size
  have hcount := h.count
  simp only [buildEnvelope, steps_eq_ok] at henvelope
  obtain ⟨⟨env, metas, cursor⟩, hcut, trailing, htrailing, hok⟩ := henvelope
  cases hok
  dsimp only at htrailing
  have htraillen := length_of_cut htrailing
  obtain ⟨⟨hend, -⟩, htrailing⟩ := cut_eq_ok.mp htrailing
  obtain ⟨hmetas, hsegments, hdata, htotal⟩ := tally_cutSpans (by omega) h.spans hcut hstream
  have hlength : (env ++ trailing).length < 2 ^ 32 := by
    rw [List.length_append]
    omega
  have hcast : (UInt32.ofNat trailing.length).toNat = trailing.length := by
    rw [UInt32.toNat_ofNat', Nat.mod_eq_of_lt (by omega)]
  have hsumData : sum (metas.map fun s => s.dataLen.toNat) = .ok stream.length :=
    sum_eq_ok.mpr ⟨by rw [hdata]; omega, hdata⟩
  have hsumSegs : sum (metas.map (fun s => s.segBeforeLen.toNat) ++ [trailing.length]) = .ok (env ++ trailing).length := by
    have hsum : (metas.map (fun s => s.segBeforeLen.toNat) ++ [trailing.length]).sum = (env ++ trailing).length := by
      rw [List.sum_append, List.sum_singleton, hsegments, List.length_append]
    exact sum_eq_ok.mpr ⟨by omega, hsum⟩
  have hsplice := spliceSpans_cutSpans (p := []) (q := trailing) (s := []) (t := []) (by omega) h.spans
    hcut hstream rfl rfl hlength (by simp only [List.nil_append, List.append_nil]; omega)
  rw [List.nil_append, List.nil_append, List.append_nil] at hsplice
  have hlast : cut (env ++ trailing) env.length (env.length + trailing.length) = .ok trailing := by
    have hmiddle := cut_append (p := env) (m := trailing) (q := []) rfl rfl
    rwa [List.append_nil] at hmiddle
  have hfinal : checkedAdd env.length trailing.length = .ok (env.length + trailing.length) :=
    checkedAdd_eq_ok.mpr ⟨by rw [List.length_append] at hlength; omega, rfl⟩
  have hresult : slice input 0 cursor ++ trailing = input := by
    rw [← htrailing, slice_append (Nat.zero_le _) hend, slice_to_end, List.drop_zero]
  refine ⟨by dsimp only; omega, hlength, ?_⟩
  rw [spliceZlib, hdeflate, orDecline, ok_bind, hsumData, ok_bind, declineIf_of_not (not_not.mpr rfl), ok_bind, hcast,
    hsumSegs, ok_bind, declineIf_of_not (not_not.mpr rfl), ok_bind]
  simp only [List.length_nil, Nat.zero_add] at hsplice
  rw [hsplice, ok_bind]
  dsimp only
  rw [hfinal, ok_bind, declineIf_of_not (not_not.mpr (List.length_append).symm), ok_bind, hlast, ok_bind, hresult]
  rfl

/-! ### Rows -/

/-- The row above as the two directions see it: the same, or none and zeros before the first. -/
def SameAbove (rowData : Nat) (prevRaw prevRaw' : Bytes) : Prop :=
  prevRaw' = prevRaw ∨ prevRaw' = [] ∧ prevRaw = List.replicate rowData 0

theorem filterRow_of_unfilterRow {filter : UInt8} {bytes prevRaw prevRaw' out : Bytes} {rowData bpp : Nat}
    (hbpp : 0 < bpp) (hsame : SameAbove rowData prevRaw prevRaw') (hlength : prevRaw.length = rowData)
    (h : unfilterRow filter bytes prevRaw bpp = .ok out) : filterRow filter out prevRaw' bpp = .ok bytes := by
  have hrow := filter_unfilter hbpp h
  obtain ⟨-, habove, hout, -⟩ := unfilterRow_eq_ok h
  rcases hsame with rfl | ⟨rfl, rfl⟩
  · exact hrow
  · rwa [filterRow_zeros (by omega)] at hrow

/-- **The rows of an image, filtered again, are what was inflated.** -/
theorem filterRows_unfilterRows {inflated prevRaw a filters raw s t : Bytes}
    {rowData bpp n r : Nat} (hbpp : 0 < bpp) (hfits : (r + n) * rowData < 2 ^ 64)
    (hlength : prevRaw.length = rowData) (hsame : SameAbove rowData prevRaw a)
    (h : unfilterRows inflated (rowData + 1) bpp n r prevRaw = .ok (filters, raw))
    (hfront : p.length = r * rowData) (hffront : s.length = r) :
    filterRows (p ++ (raw ++ q)) (s ++ (filters ++ t)) rowData bpp n r a =
        .ok (slice inflated (r * (rowData + 1)) ((r + n) * (rowData + 1))) ∧
      raw.length = n * rowData ∧ filters.length = n := by
  induction n generalizing r prevRaw a filters raw p s with
  | zero =>
    cases h
    refine ⟨?_, by rw [Nat.zero_mul]; rfl, rfl⟩
    rw [Nat.add_zero r, slice_self]
    rfl
  | succ n ih =>
    simp only [unfilterRows, steps_eq_ok] at h
    obtain ⟨off, hoff, filterType, hbyte, bytes, hbytes, decoded, hdecoded, ⟨filters', raw'⟩, hrest, hok⟩ := h
    cases hok
    obtain ⟨-, rfl⟩ := mul_eq_ok.mp hoff
    obtain ⟨-, habove, hout, -⟩ := unfilterRow_eq_ok hdecoded
    have hdecodedLength : decoded.length = rowData := by omega
    have hnext : (r + 1) * rowData = r * rowData + rowData := Nat.succ_mul r rowData
    have hle : (r + 1) * rowData ≤ (r + (n + 1)) * rowData := Nat.mul_le_mul_right _ (by omega)
    obtain ⟨htail, hraw, hfilters⟩ := ih (r := r + 1) (a := decoded) (p := p ++ decoded)
      (s := s ++ [filterType]) (by rwa [show r + 1 + n = r + (n + 1) by omega]) hdecodedLength (.inl rfl)
      hrest (by rw [List.length_append, hfront, hdecodedLength, hnext]) (by rw [List.length_append, hffront]; rfl)
    have hstart : mul r rowData = .ok (r * rowData) := mul_eq_ok.mpr ⟨by omega, rfl⟩
    have hstop : mul (r + 1) rowData = .ok ((r + 1) * rowData) := mul_eq_ok.mpr ⟨by omega, rfl⟩
    have hcut : cut (p ++ (decoded ++ (raw' ++ q))) (r * rowData) ((r + 1) * rowData) = .ok decoded :=
      cut_append hfront (by rw [hdecodedLength, hnext])
    have hfilterByte : byteAt (s ++ (filterType :: (filters' ++ t))) r = .ok filterType :=
      byteAt_append filterType hffront
    have hrow := filterRow_of_unfilterRow hbpp hsame hlength hdecoded
    simp only [List.append_assoc, List.cons_append, List.nil_append] at htail
    have hnextStride : (r + 1) * (rowData + 1) = r * (rowData + 1) + (rowData + 1) := Nat.succ_mul r _
    have hstride : (r + 1) * (rowData + 1) ≤ (r + 1 + n) * (rowData + 1) := Nat.mul_le_mul_right _ (by omega)
    obtain ⟨-, hslice⟩ := cut_eq_ok.mp hbytes
    have hfirst : filterType :: bytes = slice inflated (r * (rowData + 1)) ((r + 1) * (rowData + 1)) := by
      rw [slice_cons (byteAt_eq_ok.mp hbyte) (by omega), hnextStride, hslice]
    refine ⟨?_, by rw [List.length_append, hdecodedLength, hraw, Nat.succ_mul, Nat.add_comm],
      by rw [List.length_cons, hfilters]⟩
    rw [filterRows, hstart, ok_bind, hstop, ok_bind, List.append_assoc, hcut, ok_bind, List.cons_append, hfilterByte,
      ok_bind, hrow, ok_bind, htail, ok_bind, pure_eq_ok, ← List.cons_append, hfirst,
      slice_append (by omega) hstride, show r + 1 + n = r + (n + 1) by omega]

/-! ### The round trip -/

variable {d : Decomposition}

theorem recomposeModeA_decomposeModeA (h : Parsed Z input parsed)
    (hd : decomposeModeA input parsed = .ok d) : recompose Z d.recipe d.parts = .ok input := by
  simp only [decomposeModeA, steps_eq_ok] at hd
  obtain ⟨⟨envelope, spans, segAfterLen⟩, henvelope, hok⟩ := hd
  cases hok
  obtain ⟨hspans, hlength, hsplice⟩ := spliceZlib_buildEnvelope h henvelope
  have hmagicLength : recipeMagicV1.length = 8 := rfl
  have hsize : 8 ≤ (encodeRecipeV1 parsed.level spans segAfterLen envelope).length := by
    rw [encodeRecipeV1, List.length_append]
    omega
  have hmagic : cut (encodeRecipeV1 parsed.level spans segAfterLen envelope) 0 8 = .ok recipeMagicV1 :=
    cut_append (p := []) (m := recipeMagicV1) rfl rfl
  rw [recompose, declineIf_of_not (not_lt.mpr hsize), ok_bind, hmagic, ok_bind, if_pos rfl, recomposeModeA,
    decodeRecipeV1_encodeRecipeV1 hspans hlength, ok_bind]
  exact hsplice

theorem recomposeModeB_decomposeModeB (h : Parsed Z input parsed)
    (hd : decomposeModeB input parsed = .ok d) : recompose Z d.recipe d.parts = .ok input := by
  simp only [decomposeModeB, steps_eq_ok, orDecline_eq_ok, declineIf_eq_ok, checkedMul_eq_ok, checkedAdd_eq_ok,
    mul_eq_ok] at hd
  obtain ⟨bpp, hbpp, _, ⟨hrow, rfl⟩, _, ⟨-, rfl⟩, _, ⟨hexpected, rfl⟩, _, hinflated, _, ⟨hsize, rfl⟩, _, -,
    ⟨filters, raw⟩, hrows, ⟨envelope, spans, segAfterLen⟩, henvelope, hok⟩ := hd
  cases hok
  obtain ⟨hspans, hlength, hsplice⟩ := spliceZlib_buildEnvelope h henvelope
  have hinflated := not_not.mp hinflated
  obtain ⟨hfiltered, hraw, hfilters⟩ := filterRows_unfilterRows (p := []) (q := []) (s := []) (t := [])
    (a := []) (bytesPerPixel_le hbpp).1 (by rw [Nat.zero_add, Nat.mul_comm]; exact hsize)
    List.length_replicate (.inr ⟨rfl, rfl⟩) hrows (by rw [Nat.zero_mul]; rfl) rfl
  have hall : slice parsed.inflated (0 * (parsed.ihdr.width.toNat * bpp + 1))
      ((0 + parsed.ihdr.height.toNat) * (parsed.ihdr.width.toNat * bpp + 1)) = parsed.inflated := by
    rw [Nat.zero_mul, Nat.zero_add, Nat.mul_comm, ← hinflated, slice_to_end, List.drop_zero]
  rw [hall, List.nil_append, List.append_nil, List.nil_append, List.append_nil] at hfiltered
  have hfiltersLength : filters.length < 2 ^ 32 := hfilters ▸ parsed.ihdr.height.toNat_lt
  have hmagicLength : recipeMagicV2.length = 8 := rfl
  have hrecipe : 8 ≤ (encodeRecipeV2 parsed.level parsed.ihdr filters spans segAfterLen envelope).length := by
    rw [encodeRecipeV2, List.length_append]
    omega
  have hmagic : cut (encodeRecipeV2 parsed.level parsed.ihdr filters spans segAfterLen envelope) 0 8 =
      .ok recipeMagicV2 := cut_append (p := []) (m := recipeMagicV2) rfl rfl
  have hrowMul : checkedMul parsed.ihdr.width.toNat bpp = .ok (parsed.ihdr.width.toNat * bpp) :=
    checkedMul_eq_ok.mpr ⟨hrow, rfl⟩
  have hsizeMul : mul (parsed.ihdr.width.toNat * bpp) parsed.ihdr.height.toNat =
      .ok (parsed.ihdr.width.toNat * bpp * parsed.ihdr.height.toNat) := mul_eq_ok.mpr ⟨hsize, rfl⟩
  have hlengths : ¬(raw.length ≠ parsed.ihdr.width.toNat * bpp * parsed.ihdr.height.toNat ∨
      filters.length ≠ parsed.ihdr.height.toNat) := by
    rw [hraw, hfilters, Nat.mul_comm parsed.ihdr.height.toNat]
    simp
  rw [recompose, declineIf_of_not (not_lt.mpr hrecipe), ok_bind, hmagic, ok_bind, if_neg (by decide), if_pos rfl,
    recomposeModeB, decodeRecipeV2_encodeRecipeV2 hfiltersLength hspans hlength, ok_bind]
  dsimp only
  rw [onlyPart, orDecline, ok_bind, hbpp, orDecline, ok_bind, hrowMul, ok_bind, hsizeMul, ok_bind,
    declineIf_of_not hlengths, ok_bind, hfiltered, ok_bind]
  exact hsplice

/-- **What an image is cut into gives it q**, in either mode. -/
theorem recompose_decompose (h : decompose Z input = .ok d) :
    recompose Z d.recipe d.parts = .ok input := by
  simp only [decompose, steps_eq_ok] at h
  obtain ⟨parsed, hparsed, h⟩ := h
  have hparsed := parsed_of_parsePng hparsed
  split at h
  · exact recomposeModeA_decomposeModeA hparsed h
  · exact recomposeModeB_decomposeModeB hparsed h

end Alt.PngPrism
