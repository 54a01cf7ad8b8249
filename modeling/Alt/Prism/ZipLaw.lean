import Alt.Prism.ZipTotal

namespace Alt.ZipPrism

open Alt.Library Attempt Alt.Prism

/-!
# What the ZIP prism cuts, it puts together again

* `decodeRecipe_encodeRecipe` — a recipe is read as it was written;
* `bodyOf_partOf` — a part gives q the body it was made of;
* `splice_cutMembers` — segments and bodies in turn are the archive;
* `recompose_decompose` — the round trip.
-/

variable {Z : Zlib} {input : Bytes}

/-! ### Recipes -/

@[simp] theorem length_encodeEntry (e : EntryMeta) : (encodeEntry e).length = 11 := by
  simp [encodeEntry]

theorem readEntry_append {recipe p q : Bytes} {e : EntryMeta} {i : Nat}
    (hrecipe : recipe = p ++ (encodeEntry e ++ q)) (hi : p.length = i) :
    readEntry recipe i = .ok e := by
  have hmethod : u16At recipe i = .ok e.method := by
    rw [hrecipe, encodeEntry, List.append_assoc]
    exact u16At_append e.method hi
  have hlevel : byteAt recipe (i + 2) = .ok e.level := by
    have hbyte := byteAt_append (p := p ++ leBytes 2 e.method.toNat) (i := i + 2)
      (q := leBytes 4 e.segBeforeLen.toNat ++ (leBytes 4 e.bodyLen.toNat ++ q)) e.level
      (by rw [List.length_append, length_leBytes, hi])
    rw [hrecipe]
    simpa only [encodeEntry, List.append_assoc, List.cons_append] using hbyte
  have hseg : u32At recipe (i + 3) = .ok e.segBeforeLen := by
    have hfield := u32At_append (p := p ++ (leBytes 2 e.method.toNat ++ [e.level])) (i := i + 3)
      (q := leBytes 4 e.bodyLen.toNat ++ q) e.segBeforeLen (by simp [hi])
    rw [hrecipe]
    simpa only [encodeEntry, List.append_assoc, List.cons_append, List.nil_append] using hfield
  have hbody : u32At recipe (i + 7) = .ok e.bodyLen := by
    have hfield := u32At_append
      (p := p ++ (leBytes 2 e.method.toNat ++ (e.level :: leBytes 4 e.segBeforeLen.toNat))) (i := i + 7)
      (q := q) e.bodyLen (by simp [hi])
    rw [hrecipe]
    simpa only [encodeEntry, List.append_assoc, List.cons_append, List.nil_append] using hfield
  rw [readEntry, hmethod, ok_bind, hlevel, ok_bind, hseg, ok_bind, hbody]
  rfl

/-- **A recipe is read as it was written.** -/
theorem decodeRecipe_encodeRecipe {entries : List EntryMeta} {segAfterLen : UInt32} {envelope : Bytes}
    (hentries : entries.length < 2 ^ 32) (henvelope : envelope.length < 2 ^ 32) :
    decodeRecipe (encodeRecipe entries segAfterLen envelope) = .ok (entries, segAfterLen, envelope) := by
  have hcount : (UInt32.ofNat entries.length).toNat = entries.length := by
    rw [UInt32.toNat_ofNat', Nat.mod_eq_of_lt hentries]
  have htable : (entries.flatMap encodeEntry).length = entries.length * 11 :=
    length_table fun e _ => length_encodeEntry e
  have hlength : (encodeRecipe entries segAfterLen envelope).length =
      12 + entries.length * 11 + (8 + envelope.length) := by
    simp only [encodeRecipe, encodeTail, List.length_append, length_leBytes, htable]
    rw [show recipeMagic.length = 8 from rfl]
    omega
  have hmagic : cut (encodeRecipe entries segAfterLen envelope) 0 8 = .ok recipeMagic :=
    cut_append (p := []) (m := recipeMagic) rfl rfl
  have hn : u32At (encodeRecipe entries segAfterLen envelope) 8 = .ok (UInt32.ofNat entries.length) := by
    have hfield := u32At_append (p := recipeMagic) (i := 8)
      (q := entries.flatMap encodeEntry ++ encodeTail segAfterLen envelope) (UInt32.ofNat entries.length) rfl
    rwa [hcount] at hfield
  have hrecords : readRows (encodeRecipe entries segAfterLen envelope) 11
      (readEntry (encodeRecipe entries segAfterLen envelope)) entries.length 12 = .ok entries :=
    readRows_append length_encodeEntry (p := recipeMagic ++ leBytes 4 entries.length)
      (by rw [encodeRecipe, List.append_assoc]) rfl fun e p q i hl hi => readEntry_append hl hi
  have htail : decodeTail (encodeRecipe entries segAfterLen envelope) (12 + 11 * entries.length) =
      .ok (segAfterLen, envelope) := by
    have hread := decodeTail_append segAfterLen
      (p := recipeMagic ++ (leBytes 4 entries.length ++ entries.flatMap encodeEntry))
      (i := 12 + 11 * entries.length) (by
        rw [List.length_append, List.length_append, length_leBytes, htable, show recipeMagic.length = 8 from rfl]
        omega) henvelope
    simpa only [encodeRecipe, List.append_assoc] using hread
  rw [decodeRecipe, declineIf_of_not (by omega), ok_bind, hmagic, ok_bind, declineIf_of_not (not_not.mpr rfl),
    ok_bind, hn, ok_bind, hcount, hrecords, ok_bind, htail]
  rfl

/-! ### Bodies -/

/-- A part gives q the body it was made of. -/
theorem bodyOf_partOf {method : UInt16} {body part : Bytes} {level : UInt8} {segBeforeLen : UInt32}
    (h : partOf Z method body = some (level, part)) :
    bodyOf Z ⟨method, level, segBeforeLen, UInt32.ofNat body.length⟩ part = some body := by
  rw [partOf] at h
  split at h
  · rename_i hstored
    cases h
    simp [bodyOf, hstored]
  · rename_i hstored
    split at h
    · rename_i hdeflated
      simp only [Option.bind_eq_bind, Option.bind_eq_some_iff] at h
      obtain ⟨inflated, -, l, hlevel, hok⟩ := h
      cases hok
      obtain ⟨hmem, hdeflate⟩ := deflate_matchedLevel (by decide) hlevel
      have hne : level ≠ 0xff := by
        rintro rfl
        revert hmem
        decide
      simp only [bodyOf]
      rw [if_neg hstored, if_pos hdeflated, if_neg hne, hdeflate, Option.filter_some, if_pos (by simp)]
    · cases h

/-! ### Members -/

/-- What the members' lengths come to. -/
structure Tally (lastEnd : Nat) (ms : Members) : Prop where
  parts : ms.entries.length = ms.parts.length
  segments : (ms.entries.map fun e => e.segBeforeLen.toNat).sum = ms.envelope.length
  bodies : lastEnd + ms.envelope.length + (ms.entries.map fun e => e.bodyLen.toNat).sum = ms.lastEnd

variable {lastEnd : Nat} {cs : List CentralEntry} {ms : Members}

theorem tally_cutMembers (hsize : input.length < 2 ^ 32)
    (h : cutMembers Z input lastEnd cs = .ok ms) : Tally lastEnd ms := by
  induction cs generalizing lastEnd ms with
  | nil =>
    cases h
    exact ⟨rfl, rfl, rfl⟩
  | cons c cs ih =>
    simp only [cutMembers, steps_eq_ok] at h
    obtain ⟨body, hbody, seg, hseg, bytes, hbytes, part, -, rest, hrest, hok⟩ := h
    cases hok
    obtain ⟨-, hstop, hwithin⟩ := locate_eq_ok hbody
    obtain ⟨⟨hstart, -⟩, -⟩ := cut_eq_ok.mp hseg
    have hlength := length_of_cut hseg
    obtain ⟨hparts, hsegments, hbodies⟩ := ih hrest
    have hcast : (UInt32.ofNat seg.length).toNat = seg.length := by
      rw [UInt32.toNat_ofNat', Nat.mod_eq_of_lt (by omega)]
    have hcomp : (UInt32.ofNat c.compSize).toNat = c.compSize := by
      rw [UInt32.toNat_ofNat', Nat.mod_eq_of_lt (by omega)]
    refine ⟨by rw [List.length_cons, List.length_cons, hparts], ?_, ?_⟩
    · rw [List.map_cons, List.sum_cons, hsegments, List.length_append, hcast]
    · dsimp only
      rw [List.map_cons, List.sum_cons, List.length_append, hcomp]
      omega

/-- **Segments and bodies in turn are the archive**, up to the end of the last body. -/
theorem splice_cutMembers {i : Nat} {p q : Bytes} (hsize : input.length < 2 ^ 32)
    (hlast : lastEnd ≤ input.length) (h : cutMembers Z input lastEnd cs = .ok ms)
    (hi : p.length = i) (henvelope : (p ++ (ms.envelope ++ q)).length < 2 ^ 32) :
    splice Z (p ++ (ms.envelope ++ q)) i (ms.entries.zip ms.parts) =
      .ok (slice input lastEnd ms.lastEnd, i + ms.envelope.length) := by
  induction cs generalizing lastEnd ms p i with
  | nil =>
    cases h
    rw [List.zip_nil_left, splice, slice_self]
    rfl
  | cons c cs ih =>
    simp only [cutMembers, steps_eq_ok, orDecline_eq_ok] at h
    obtain ⟨body, hbody, seg, hseg, bytes, hbytes, ⟨level, part⟩, hpart, rest, hrest, hok⟩ := h
    cases hok
    obtain ⟨-, hstop, hwithin⟩ := locate_eq_ok hbody
    obtain ⟨⟨hstart, -⟩, hslice⟩ := cut_eq_ok.mp hseg
    have hseglen := length_of_cut hseg
    have hbodylen := length_of_cut hbytes
    have hbytesEq := (cut_eq_ok.mp hbytes).2
    obtain ⟨hle, -⟩ := lastEnd_of_cutMembers hwithin hrest
    have hcast : (UInt32.ofNat seg.length).toNat = seg.length := by
      rw [UInt32.toNat_ofNat', Nat.mod_eq_of_lt (by omega)]
    have hbodyOf : bodyOf Z ⟨c.method, level, UInt32.ofNat seg.length, UInt32.ofNat c.compSize⟩ part = some bytes := by
      have hcomp : c.compSize = bytes.length := by omega
      rw [hcomp]
      exact bodyOf_partOf hpart
    have hlength : i + seg.length ≤ (p ++ (seg ++ (rest.envelope ++ q))).length := by
      simp only [List.length_append]
      omega
    dsimp only at henvelope ⊢
    rw [List.append_assoc] at henvelope
    have htail := ih hwithin hrest (p := p ++ seg) (i := i + seg.length)
      (by rw [List.length_append, hi]) (by rwa [List.append_assoc])
    rw [List.append_assoc] at htail
    have hadd : checkedAdd i seg.length = .ok (i + seg.length) :=
      checkedAdd_eq_ok.mpr ⟨by omega, rfl⟩
    have hmatch : slice input lastEnd body.start ++ (slice input body.start body.stop ++
        slice input body.stop rest.lastEnd) = slice input lastEnd rest.lastEnd := by
      rw [slice_append (by omega) hle, slice_append hstart (by omega)]
    rw [List.zip_cons_cons, splice, hcast, hadd, ok_bind, List.append_assoc,
      declineIf_of_not (not_lt.mpr hlength), ok_bind, cut_append hi rfl, ok_bind, hbodyOf]
    simp only [orDecline, ok_bind, htail, pure_eq_ok]
    rw [← hslice, ← hbytesEq, hmatch, List.length_append, Nat.add_assoc]

theorem length_centrals (h : centrals input = .ok cs) : cs.length < 2 ^ 16 := by
  simp only [centrals, steps_eq_ok, declineIf_eq_ok] at h
  obtain ⟨_, -, _, -, _, -, _, -, _, -, _, -, _, -, _, -, total, -, _, -, _, -, _, -, _, hcount, _, -, hok⟩ := h
  cases hok
  rw [List.length_insertionSort, not_not.mp hcount]
  exact total.toNat_lt

theorem length_cutMembers (h : cutMembers Z input lastEnd cs = .ok ms) :
    ms.entries.length = cs.length := by
  induction cs generalizing lastEnd ms with
  | nil =>
    cases h
    rfl
  | cons c cs ih =>
    simp only [cutMembers, steps_eq_ok] at h
    obtain ⟨_, -, _, -, _, -, _, -, rest, hrest, hok⟩ := h
    cases hok
    rw [List.length_cons, List.length_cons, ih hrest]

/-- **What an archive is cut into gives it q.** -/
theorem recompose_decompose {d : Decomposition} (h : decompose Z input = .ok d) :
    recompose Z d.recipe d.parts = .ok input := by
  simp only [decompose, steps_eq_ok, cut_eq_ok] at h
  obtain ⟨cs, hcs, ms, hms, trailing, ⟨⟨hend, -⟩, htrailing⟩, hok⟩ := h
  cases hok
  have hsize := length_of_centrals hcs
  obtain ⟨hparts, hsegments, hbodies⟩ := tally_cutMembers (by omega) hms
  have htraillen : trailing.length = input.length - ms.lastEnd := by
    rw [← htrailing, length_slice hend (le_refl _)]
  have hentries : ms.entries.length < 2 ^ 32 := by
    have := length_centrals hcs
    rw [length_cutMembers hms]
    omega
  have henvelope : (ms.envelope ++ trailing).length < 2 ^ 32 := by
    rw [List.length_append]
    omega
  have hcast : (UInt32.ofNat trailing.length).toNat = trailing.length := by
    rw [UInt32.toNat_ofNat', Nat.mod_eq_of_lt (by omega)]
  have htotal : (ms.entries.map (fun e => e.segBeforeLen.toNat) ++ [trailing.length]).sum =
      (ms.envelope ++ trailing).length := by
    rw [List.sum_append, List.sum_singleton, hsegments, List.length_append]
  have hsplice := splice_cutMembers (p := []) (q := trailing) (i := 0) (by omega) (Nat.zero_le _) hms
    rfl henvelope
  rw [List.nil_append, Nat.zero_add] at hsplice
  have hlast : cut (ms.envelope ++ trailing) ms.envelope.length (ms.envelope.length + trailing.length) =
      .ok trailing := by
    have hmiddle := cut_append (p := ms.envelope) (m := trailing) (q := []) rfl rfl
    rwa [List.append_nil] at hmiddle
  have hbodies' : sum (ms.entries.map fun e => e.bodyLen.toNat) =
      .ok (ms.entries.map fun e => e.bodyLen.toNat).sum := sum_eq_ok.mpr ⟨by omega, rfl⟩
  have hsegs : sum (ms.entries.map (fun e => e.segBeforeLen.toNat) ++ [trailing.length]) =
      .ok (ms.envelope ++ trailing).length := by
    refine sum_eq_ok.mpr ⟨?_, htotal⟩
    rw [htotal]
    omega
  have hcapacity : withCapacity ((ms.envelope ++ trailing).length + (ms.entries.map fun e => e.bodyLen.toNat).sum) =
      .ok () := withCapacity_eq_ok.mpr (by rw [List.length_append]; omega)
  have hfinal : checkedAdd ms.envelope.length trailing.length = .ok (ms.envelope.length + trailing.length) :=
    checkedAdd_eq_ok.mpr ⟨by rw [List.length_append] at henvelope; omega, rfl⟩
  have hresult : slice input 0 ms.lastEnd ++ trailing = input := by
    rw [← htrailing, slice_append (Nat.zero_le _) hend, slice_to_end, List.drop_zero]
  rw [recompose, decodeRecipe_encodeRecipe hentries henvelope, ok_bind]
  dsimp only
  rw [declineIf_of_not (not_not.mpr hparts), ok_bind, hbodies', ok_bind, hcast, hsegs, ok_bind,
    declineIf_of_not (not_not.mpr rfl), ok_bind, hcapacity, ok_bind, hsplice, ok_bind]
  dsimp only
  rw [hfinal, ok_bind, declineIf_of_not (not_not.mpr (List.length_append).symm), ok_bind, hlast, ok_bind, hresult]
  rfl

end Alt.ZipPrism
