import Alt.GitPack.Resolve

namespace Alt.GitPack

open Alt.Library List

/-!
# Resolving deltas — what comes of the waves

* `resolveLoop_ok` — what is given is what the entries stand for;
* `resolveLoop_panics` — no panic, whatever the entries are;
* `resolveLoop_total` — where every entry stands for an object, all are resolved: a wave in which one
  waits moves another (`Resolves.progress`);
* `resolve_all_iff` — all together.
-/

variable {P : Prims} {entries : List RawEntry} {resolved : List (Option Resolved)}

/-! ### All waves -/

/-- **What is given** is what the entries stand for. -/
theorem resolveLoop_ok (hw : Resolves P entries resolved) {rs : List Resolved}
    (h : resolveLoop P entries resolved = .ok rs) : Resolves P entries (rs.map some) := by
  fun_induction resolveLoop P entries resolved with
  | case1 => cases h
  | case2 resolved w hrun hdone =>
    obtain ⟨rs', hrs, hall, hfull⟩ := hw.finished hrun (by simpa using hdone)
    rw [hall] at h
    cases h
    exact hfull
  | case3 resolved w hrun _ _ ih => exact ih (hw.runWave mem_zipIdx_entries hrun) h
  | case4 => cases h

/-- An entry that stands for an object meets no error. -/
theorem Resolves.moveOf_ok (hw : Resolves P entries resolved)
    (hoffsets : (entries.map RawEntry.offset).Nodup) (hid : NoCollision P entries) {e : RawEntry} {i : Nat}
    {r : Resolved} (he : entries[i]? = some e) (hr : Denotes P entries i r) :
    ∃ m, moveOf P entries resolved e i = .ok m := by
  have happly : ∀ {j base}, resolved[j]? = some (some base) → apply base.data e.payload = .ok r.data →
      ∃ m, applyAt resolved e j = .ok m := by
    intro j base hbase hdata
    rw [applyAt, hbase]
    dsimp only
    rw [hdata]
    exact ⟨_, rfl⟩
  have hi := (List.getElem?_eq_some_iff.mp he).1
  rw [moveOf]
  split
  · rename_i hnone
    rw [List.getElem?_eq_none_iff, hw.length] at hnone
    omega
  · exact ⟨_, rfl⟩
  · rename_i hunresolved
    split
    · rename_i kind hkind
      obtain ⟨s, hs⟩ := hw.plain i e kind he hkind
      rw [hs] at hunresolved
      cases hunresolved
    · rename_i baseAt hkind
      obtain ⟨j, b, base, hb, hat, hbase, hdata, -⟩ := hr.of_ofs he hkind
      have hj := byOffset_of_getElem hoffsets hb
      rw [hat] at hj
      rw [hj]
      dsimp only
      cases hres : resolved[j]? with
      | none =>
        have hlt := (List.getElem?_eq_some_iff.mp hb).1
        rw [List.getElem?_eq_none_iff, hw.length] at hres
        omega
      | some entry =>
        cases entry with
        | none =>
          rw [applyAt, hres]
          exact ⟨_, rfl⟩
        | some base' =>
          obtain rfl := (hw.denotes j base' hres).unique hoffsets hid hbase
          exact happly hres hdata
    · rename_i id hkind
      obtain ⟨j, base, hbase, hoid, hdata, -⟩ := hr.of_ref he hkind
      split
      · exact ⟨_, rfl⟩
      · rename_i k hk
        obtain ⟨base', hbase', hoid'⟩ := findBase_spec hk
        obtain rfl := hid _ _ _ he hkind _ _ _ _ (hw.denotes k base' hbase') hbase hoid' hoid
        exact happly hbase' hdata

/-- **Progress.** Where every entry stands for an object, a wave in which one waits moves another. -/
theorem Resolves.progress (hw : Resolves P entries resolved)
    (hoffsets : (entries.map RawEntry.offset).Nodup) (hid : NoCollision P entries)
    (hall : ∀ i < entries.length, ∃ r, Denotes P entries i r) {w' : Wave}
    (h : GitPack.runWave P entries entries.zipIdx ⟨resolved, false, false⟩ = .ok w')
    (hwaits : w'.stillUnresolved = true) : w'.progressed = true := by
  by_contra hprogress
  obtain ⟨-, hnone, hwait⟩ := stuck_of_runWave h (by simpa using hprogress)
  have hmoves : ∀ {i e}, entries[i]? = some e → ∀ r, moveOf P entries resolved e i ≠ .ok (.resolves r) :=
    fun he r => hnone (_, _) (mem_zipIdx_iff_getElem?.mpr he) r
  -- along the chain: with its base resolved a delta would have moved
  have hresolved : ∀ i r, Denotes P entries i r → ∃ s, resolved[i]? = some (some s) := by
    intro i r hr
    induction hr with
    | plain he hkind => exact hw.plain _ _ _ he hkind
    | @ofs i j e b baseAt base data he hkind hb hat hbase hdata ih =>
      obtain ⟨s, hs⟩ := ih
      obtain rfl := (hw.denotes j s hs).unique hoffsets hid hbase
      cases hres : resolved[i]? with
      | none =>
        have hlt := (List.getElem?_eq_some_iff.mp he).1
        rw [List.getElem?_eq_none_iff, hw.length] at hres
        omega
      | some entry =>
        cases entry with
        | some s => exact ⟨s, rfl⟩
        | none =>
          have hj := byOffset_of_getElem hoffsets hb
          rw [hat] at hj
          refine absurd ?_ (hmoves he ⟨s.kind, data⟩)
          simp only [moveOf, hres, hkind, hj, applyAt, hs, hdata]
    | @ref i j e id base data he hkind hbase hoid hdata ih =>
      obtain ⟨s, hs⟩ := ih
      cases hres : resolved[i]? with
      | none =>
        have hlt := (List.getElem?_eq_some_iff.mp he).1
        rw [List.getElem?_eq_none_iff, hw.length] at hres
        omega
      | some entry =>
        cases entry with
        | some s => exact ⟨s, rfl⟩
        | none =>
          obtain rfl := (hw.denotes j s hs).unique hoffsets hid hbase
          obtain ⟨k, hk⟩ := exists_findBase hs hoid
          obtain ⟨base', hbase', hoid'⟩ := findBase_spec hk
          obtain rfl := hid _ _ _ he hkind _ _ _ _ (hw.denotes k base' hbase') hbase hoid' hoid
          refine absurd ?_ (hmoves he ⟨base'.kind, data⟩)
          simp only [moveOf, hres, hkind, hk, applyAt, hbase', hdata]
  rcases hwait hwaits with hfalse | ⟨p, hp, hmove⟩
  · cases hfalse
  · have he := mem_zipIdx_entries p hp
    obtain ⟨r, hr⟩ := hall p.2 (List.getElem?_eq_some_iff.mp he).1
    obtain ⟨s, hs⟩ := hresolved p.2 r hr
    rw [moveOf, hs] at hmove
    cases hmove

/-- **Enough.** Where every entry stands for an object, all are resolved. -/
theorem resolveLoop_total (hw : Resolves P entries resolved)
    (hoffsets : (entries.map RawEntry.offset).Nodup) (hid : NoCollision P entries)
    (hall : ∀ i < entries.length, ∃ r, Denotes P entries i r) :
    ∃ rs, resolveLoop P entries resolved = .ok rs := by
  have hrun : ∀ {rest : List (RawEntry × Nat)} {w : Wave}, Resolves P entries w.resolved →
      (∀ p ∈ rest, entries[p.2]? = some p.1) → ∃ w', GitPack.runWave P entries rest w = .ok w' := by
    intro rest
    induction rest with
    | nil => exact fun _ _ => ⟨_, rfl⟩
    | cons p rest ih =>
      intro w hw hrest
      obtain ⟨e, i⟩ := p
      have he := hrest _ mem_cons_self
      have hrest' := fun p hp => hrest p (mem_cons_of_mem _ hp)
      obtain ⟨r, hr⟩ := hall i (List.getElem?_eq_some_iff.mp he).1
      obtain ⟨m, hm⟩ := hw.moveOf_ok hoffsets hid he hr
      rw [GitPack.runWave, hm]
      cases m with
      | settled => exact ih hw hrest'
      | waits => exact ih (w := { w with stillUnresolved := true }) hw hrest'
      | resolves s => exact ih (hw.set (unresolved_of_moveOf hm) (hw.denotes_of_moveOf he hm)) hrest'
  fun_induction resolveLoop P entries resolved with
  | case1 resolved f hfail =>
    obtain ⟨w', hw'⟩ := hrun (w := ⟨resolved, false, false⟩) hw mem_zipIdx_entries
    rw [hw'] at hfail
    cases hfail
  | case2 resolved w hwave hdone =>
    obtain ⟨rs, -, hall', -⟩ := hw.finished hwave (by simpa using hdone)
    exact ⟨rs, hall'⟩
  | case3 resolved w hwave _ _ ih => exact ih (hw.runWave mem_zipIdx_entries hwave)
  | case4 resolved w hwave hwaits hstuck =>
    exact absurd (hw.progress hoffsets hid hall hwave (by simpa using hwaits)) hstuck

/-! ### The law -/

/-- The third pass: the id of each object, where its entry begins, and its checksum. -/
def oidEntries (P : Prims) (algo : HashAlgo) (entries : List RawEntry) (rs : List Resolved) : List PackEntry :=
  (entries.zip rs).map fun p => ⟨p.2.oid P algo, p.1.offset, p.1.crc32⟩

/-- **Resolution.** All entries are resolved exactly where each stands for an object: its chain ends
    in a plain entry and the deltas on it apply.  Then each is resolved to that object, and listed once
    under its id. -/
theorem resolve_all_iff (P : Prims) (entries : List RawEntry)
    (hoffsets : (entries.map RawEntry.offset).Nodup) (hid : NoCollision P entries) :
    ((∃ rs, resolveAll P entries = .ok rs) ↔ ∀ i < entries.length, ∃ r, Denotes P entries i r) ∧
      ∀ rs, resolveAll P entries = .ok rs → rs.length = entries.length ∧
        (∀ i r, rs[i]? = some r ↔ Denotes P entries i r) ∧
        ∀ algo, (oidEntries P algo entries rs).length = entries.length ∧
          ∀ i e r, entries[i]? = some e → Denotes P entries i r →
            (oidEntries P algo entries rs)[i]? = some ⟨r.oid P algo, e.offset, e.crc32⟩ := by
  have hok : ∀ {rs}, resolveAll P entries = .ok rs →
      rs.length = entries.length ∧ ∀ i r, rs[i]? = some r ↔ Denotes P entries i r := by
    intro rs h
    have hfull := resolveLoop_ok resolves_plain h
    have hlength : rs.length = entries.length := by rw [← hfull.length, length_map]
    have hsound : ∀ i r, rs[i]? = some r → Denotes P entries i r := fun i r hr =>
      hfull.denotes i r (by rw [getElem?_map, hr, Option.map_some])
    refine ⟨hlength, fun i r => ⟨hsound i r, fun hr => ?_⟩⟩
    cases hres : rs[i]? with
    | some s => rw [(hsound i s hres).unique hoffsets hid hr]
    | none =>
      have hlt := hr.lt_length
      rw [List.getElem?_eq_none_iff] at hres
      omega
  refine ⟨⟨fun ⟨rs, h⟩ i hi => ?_, resolveLoop_total resolves_plain hoffsets hid⟩, fun rs h => ?_⟩
  · obtain ⟨hlength, hiff⟩ := hok h
    have hi' : i < rs.length := hlength ▸ hi
    exact ⟨rs[i], (hiff i rs[i]).mp (getElem?_eq_getElem hi')⟩
  · obtain ⟨hlength, hiff⟩ := hok h
    refine ⟨hlength, hiff, fun algo => ⟨?_, fun i e r he hr => ?_⟩⟩
    · rw [oidEntries, length_map, length_zip, hlength, Nat.min_self]
    · have hzip : (entries.zip rs)[i]? = some (e, r) :=
        getElem?_zip_eq_some.mpr ⟨he, (hiff i r).mpr hr⟩
      rw [oidEntries, getElem?_map, hzip]
      rfl

/-- A delta against a plain blob; its script is cut off. -/
def cutDelta : List RawEntry := [⟨12, 20, .plain .blob, [], 0⟩, ⟨20, 30, .ofsDelta 12, [], 0⟩]

/-- **A chain is not enough.** The base is there, but the delta does not apply. -/
theorem cut_delta_fails :
    (cutDelta.map RawEntry.kind = [.plain .blob, .ofsDelta 12] ∧ cutDelta.map RawEntry.offset = [12, 20]) ∧
      resolveAll Prims.toy cutDelta = .error (.failed (.format "truncated delta size varint")) := by
  refine ⟨⟨rfl, rfl⟩, ?_⟩
  have hwave : runWave Prims.toy cutDelta cutDelta.zipIdx ⟨plainResolved cutDelta, false, false⟩ =
      .error (.failed (.format "truncated delta size varint")) := rfl
  rw [resolveAll, resolveLoop]
  split
  · rename_i f hfail
    cases hfail.symm.trans hwave
    rfl
  · rename_i w hok
    cases hok.symm.trans hwave

/-- A delta against the empty blob, that blob, and a delta against the first. -/
def samplePack : List RawEntry :=
  [⟨12, 20, .refDelta (ObjectId.hashObject Prims.toy .sha1 .blob []), [0, 1, 1, 0x61], 0⟩,
    ⟨20, 30, .plain .blob, [], 0⟩, ⟨30, 40, .ofsDelta 12, [1, 2, 0x90, 1, 1, 0x62], 0⟩]

theorem apply_sample : apply [] [0, 1, 1, 0x61] = .ok [0x61] ∧
    apply [0x61] [1, 2, 0x90, 1, 1, 0x62] = .ok [0x61, 0x62] := by
  constructor
  · have hop : runOp [] 1 [0x61] = .ok ([0x61], []) := rfl
    have hops : runOps [] [] [1, 0x61] = .ok [0x61] := by
      rw [runOps_of_ok hop, runOps]
      rfl
    have hsrc : varint 0 0 [0, 1, 1, 0x61] = .ok (0, [1, 1, 0x61]) := rfl
    have htgt : varint 0 0 [1, 1, 0x61] = .ok (1, [1, 0x61]) := rfl
    simp only [apply, hsrc, htgt, hops]
    rfl
  · have hcopy : runOp [0x61] 0x90 [1, 1, 0x62] = .ok ([0x61], [1, 0x62]) := rfl
    have hinsert : runOp [0x61] 1 [0x62] = .ok ([0x62], []) := rfl
    have hops : runOps [0x61] [] [0x90, 1, 1, 0x62] = .ok [0x61, 0x62] := by
      rw [runOps_of_ok hcopy, runOps_of_ok hinsert, runOps]
      rfl
    have hsrc : varint 0 0 [1, 2, 0x90, 1, 1, 0x62] = .ok (1, [2, 0x90, 1, 1, 0x62]) := rfl
    have htgt : varint 0 0 [2, 0x90, 1, 1, 0x62] = .ok (2, [0x90, 1, 1, 0x62]) := rfl
    simp only [apply, hsrc, htgt, hops]
    rfl

/-- The objects of the sample. -/
theorem denotes_sample {i : Nat} {r : Resolved} (h : Denotes Prims.toy samplePack i r) :
    r = ⟨.blob, []⟩ ∨ r = ⟨.blob, [0x61]⟩ ∨ r = ⟨.blob, [0x61, 0x62]⟩ := by
  have hentry : ∀ {i e}, samplePack[i]? = some e → e ∈ samplePack := fun h => mem_of_getElem? h
  simp only [samplePack, mem_cons, not_mem_nil, or_false] at hentry
  induction h with
  | plain he hkind =>
    rcases hentry he with rfl | rfl | rfl <;> cases hkind
    exact .inl rfl
  | ofs he hkind _ _ _ hdata ih =>
    rcases hentry he with rfl | rfl | rfl <;> cases hkind
    rcases ih with rfl | rfl | rfl
    · cases hdata
    · cases apply_sample.2.symm.trans hdata
      exact .inr (.inr rfl)
    · cases hdata
  | ref he hkind _ _ hdata ih =>
    rcases hentry he with rfl | rfl | rfl <;> cases hkind
    rcases ih with rfl | rfl | rfl
    · cases apply_sample.1.symm.trans hdata
      exact .inr (.inl rfl)
    · cases hdata
    · cases hdata

theorem noCollision_sample : NoCollision Prims.toy samplePack := by
  have hdiffer : ∀ r : Resolved, r = ⟨.blob, []⟩ ∨ r = ⟨.blob, [0x61]⟩ ∨ r = ⟨.blob, [0x61, 0x62]⟩ →
      r.oid Prims.toy .sha1 = ObjectId.hashObject Prims.toy .sha1 .blob [] → r = ⟨.blob, []⟩ := by
    rintro r (rfl | rfl | rfl) hid
    · rfl
    · exact absurd hid (by decide +kernel)
    · exact absurd hid (by decide +kernel)
  intro i e id he hkind j k r s hr hs hrid hsid
  have hmem : e ∈ samplePack := mem_of_getElem? he
  simp only [samplePack, mem_cons, not_mem_nil, or_false] at hmem
  rcases hmem with rfl | rfl | rfl <;> cases hkind
  rw [hdiffer r (denotes_sample hr) hrid, hdiffer s (denotes_sample hs) hsid]

theorem resolve_all_iff_sample :
    ((∃ rs, resolveAll Prims.toy samplePack = .ok rs) ↔
        ∀ i < samplePack.length, ∃ r, Denotes Prims.toy samplePack i r) ∧
      ∀ rs, resolveAll Prims.toy samplePack = .ok rs → rs.length = samplePack.length ∧
        (∀ i r, rs[i]? = some r ↔ Denotes Prims.toy samplePack i r) ∧
        ∀ algo, (oidEntries Prims.toy algo samplePack rs).length = samplePack.length ∧
          ∀ i e r, samplePack[i]? = some e → Denotes Prims.toy samplePack i r →
            (oidEntries Prims.toy algo samplePack rs)[i]? = some ⟨r.oid Prims.toy algo, e.offset, e.crc32⟩ :=
  resolve_all_iff Prims.toy samplePack (by decide) noCollision_sample

end Alt.GitPack
