import Alt.Library.Attempt

namespace Alt.PngPrism

open Alt.Library Attempt List

/-!
# The row filters of PNG (`alt-prism-png/src/lib.rs`, 364–461)

A filter replaces each byte of a row by its difference to what the filter's type predicts, from the byte
to the left, the byte above and the byte above to the left.  `filterRow` and `unfilterRow` are the loops
of the code, with every index checked; `predictor` is what the standard says, with zeros outside the image.

* `filterRow_eq` — the loop takes the predictions off;
* `unfilterRow_eq` — the other loop finds the row whose predictions, taken off, give the filtered one;
* `unfilter_filter`, `filter_unfilter` — the two are inverse, for every type, distance and row above.
-/

/-- The neighbour nearest to `a + b - c`. -/
def paeth (a b c : UInt8) : UInt8 :=
  let p : Int := a.toNat + b.toNat - c.toNat
  let pa := (p - a.toNat).natAbs
  let pb := (p - b.toNat).natAbs
  let pc := (p - c.toNat).natAbs
  if pa ≤ pb ∧ pa ≤ pc then a else if pb ≤ pc then b else c

def average (left up : UInt8) : UInt8 := UInt8.ofNat ((left.toNat + up.toNat) / 2)

/-- The byte to the left, `bpp` bytes away. -/
def leftAt (row : Bytes) (bpp i : Nat) : Attempt UInt8 :=
  if bpp ≤ i then byteAt row (i - bpp) else .ok 0

/-- What the types 0 to 4 predict at `i`. -/
def predicted (filter : UInt8) (row : Bytes) (up upLeft : Nat → Attempt UInt8) (bpp i : Nat) : Attempt UInt8 :=
  if filter = 0 then .ok 0
  else if filter = 1 then leftAt row bpp i
  else if filter = 2 then up i
  else if filter = 3 then do
    let left ← leftAt row bpp i
    let up ← up i
    return average left up
  else do
    let left ← leftAt row bpp i
    let up ← up i
    let upLeft ← upLeft i
    return paeth left up upLeft

/-- An empty row above stands for a row of zeros. -/
def filterRow (filter : UInt8) (raw prevRaw : Bytes) (bpp : Nat) : Attempt Bytes := do
  declineIf (prevRaw ≠ [] ∧ prevRaw.length ≠ raw.length)
  declineIf (4 < filter)
  let up := fun i => if prevRaw = [] then .ok 0 else byteAt prevRaw i
  let upLeft := fun i => if bpp ≤ i ∧ prevRaw ≠ [] then byteAt prevRaw (i - bpp) else .ok 0
  (List.range raw.length).mapM fun i => do
    let x ← byteAt raw i
    let p ← predicted filter raw up upLeft bpp i
    return x - p

/-- The row is filled from the left, and read from where it is filled. -/
def unfilterRow (filter : UInt8) (filtered prevRaw : Bytes) (bpp : Nat) : Attempt Bytes := do
  declineIf (prevRaw.length ≠ filtered.length)
  declineIf (4 < filter)
  let upLeft := fun i => if bpp ≤ i then byteAt prevRaw (i - bpp) else .ok 0
  (List.range filtered.length).foldlM (fun out i => do
    let x ← byteAt filtered i
    let p ← predicted filter out (byteAt prevRaw) upLeft bpp i
    return out.set i (x + p)) (List.replicate filtered.length 0)

/-! ### What is predicted -/

/-- The prediction at `i`, with zeros outside the image. -/
def predictor (filter : UInt8) (row above : Bytes) (bpp i : Nat) : UInt8 :=
  let left := if bpp ≤ i then row.getD (i - bpp) 0 else 0
  let up := above.getD i 0
  let upLeft := if bpp ≤ i then above.getD (i - bpp) 0 else 0
  if filter = 0 then 0
  else if filter = 1 then left
  else if filter = 2 then up
  else if filter = 3 then average left up
  else paeth left up upLeft

/-- The row with the predictions taken off. -/
def filtered (filter : UInt8) (row above : Bytes) (bpp : Nat) : Bytes :=
  (List.range row.length).map fun i => row.getD i 0 - predictor filter row above bpp i

variable {filter : UInt8} {row above : Bytes} {bpp i : Nat}

@[simp] theorem length_filtered : (filtered filter row above bpp).length = row.length := by
  simp [filtered]

theorem getD_filtered (hi : i < row.length) :
    (filtered filter row above bpp).getD i 0 = row.getD i 0 - predictor filter row above bpp i := by
  rw [filtered, getD_eq_getElem _ _ (by simpa using hi), getElem_map, getElem_range]

theorem byteAt_eq (hi : i < row.length) : byteAt row i = .ok (row.getD i 0) := by
  rw [byteAt_eq_ok, getD_eq_getElem _ _ hi, getElem?_eq_getElem hi]

theorem leftAt_eq (hi : i < row.length) : leftAt row bpp i = .ok (if bpp ≤ i then row.getD (i - bpp) 0 else 0) := by
  rw [leftAt]
  split
  · exact byteAt_eq (by omega)
  · rfl

/-- The code predicts what the standard says, when it reads the row above as the standard does. -/
theorem predicted_eq (above : Bytes) {up upLeft : Nat → Attempt UInt8} (hi : i < row.length) (hup : up i = .ok (above.getD i 0))
    (hupLeft : upLeft i = .ok (if bpp ≤ i then above.getD (i - bpp) 0 else 0)) :
    predicted filter row up upLeft bpp i = .ok (predictor filter row above bpp i) := by
  simp only [predicted, predictor, leftAt_eq hi, hup, hupLeft, ok_bind, pure_eq_ok]
  split_ifs <;> rfl

/-- A row of zeros above predicts what no row above does. -/
theorem predictor_zeros (n : Nat) :
    predictor filter row (List.replicate n 0) bpp i = predictor filter row [] bpp i := by
  have hzero : ∀ k, (List.replicate n (0 : UInt8)).getD k 0 = 0 := fun k => by
    rw [getD_eq_getElem?_getD, getElem?_replicate]
    split <;> rfl
  simp only [predictor, hzero, getD_nil]

theorem filtered_zeros (n : Nat) :
    filtered filter row (List.replicate n 0) bpp = filtered filter row [] bpp := by
  simp only [filtered, predictor_zeros]

/-- The prediction at `i` reads nothing of the row from `i` on. -/
theorem predictor_congr {row' : Bytes} (hbpp : 0 < bpp) (h : ∀ k < i, row'.getD k 0 = row.getD k 0) :
    predictor filter row' above bpp i = predictor filter row above bpp i := by
  have hleft : (if bpp ≤ i then row'.getD (i - bpp) 0 else 0) = if bpp ≤ i then row.getD (i - bpp) 0 else 0 := by
    split
    · exact h _ (by omega)
    · rfl
  simp only [predictor, hleft]

/-- A row is known from its filtered one. -/
theorem filtered_injective {row' : Bytes} (hbpp : 0 < bpp)
    (h : filtered filter row above bpp = filtered filter row' above bpp) : row = row' := by
  have hlength : row.length = row'.length := by
    simpa only [length_filtered] using congrArg List.length h
  have hbytes : ∀ n, ∀ k < n, row.getD k 0 = row'.getD k 0 := by
    intro n
    induction n with
    | zero => exact fun k hk => absurd hk (Nat.not_lt_zero k)
    | succ n ih =>
      intro k hk
      rcases Nat.lt_succ_iff_lt_or_eq.mp hk with hk | rfl
      · exact ih k hk
      by_cases hin : k < row.length
      · have hk := congrArg (fun l => l.getD k 0) h
        simp only [getD_filtered hin, getD_filtered (hlength ▸ hin), predictor_congr hbpp ih] at hk
        have hsum := congrArg (· + predictor filter row' above bpp k) hk
        simpa only [UInt8.sub_add_cancel] using hsum
      · rw [getD_eq_default _ _ (by omega), getD_eq_default _ _ (by omega)]
  refine ext_getElem hlength fun k hk hk' => ?_
  have hbyte := hbytes (k + 1) k (Nat.lt_succ_self k)
  rwa [getD_eq_getElem _ _ hk, getD_eq_getElem _ _ hk'] at hbyte

/-! ### The loops -/

theorem mapM_eq_ok {α β : Type} {f : α → Attempt β} {g : α → β} {l : List α} (h : ∀ x ∈ l, f x = .ok (g x)) :
    l.mapM f = .ok (l.map g) := by
  induction l with
  | nil => rfl
  | cons x l ih =>
    rw [mapM_cons, h x mem_cons_self, ok_bind, ih fun y hy => h y (mem_cons_of_mem _ hy)]
    rfl

/-- **The loop takes the predictions off.** -/
theorem filterRow_eq (bpp : Nat) (hfilter : filter ≤ 4) (habove : above = [] ∨ above.length = row.length) :
    filterRow filter row above bpp = .ok (filtered filter row above bpp) := by
  have hlength : ¬(above ≠ [] ∧ above.length ≠ row.length) := by
    rintro ⟨hne, hlength⟩
    exact habove.elim hne hlength
  rw [filterRow, declineIf_of_not hlength, ok_bind, declineIf_of_not (UInt8.not_lt.mpr hfilter), ok_bind]
  refine mapM_eq_ok fun i hi => ?_
  have hi := mem_range.mp hi
  rw [byteAt_eq hi, ok_bind, predicted_eq above hi]
  · rfl
  · split
    · rename_i hnil
      rw [hnil, getD_nil]
    · rename_i hne
      exact byteAt_eq (by rw [habove.resolve_left hne]; exact hi)
  · by_cases hnil : above = []
    · rw [if_neg (fun h => h.2 hnil), hnil, getD_nil, ite_self]
    · by_cases hbpp : bpp ≤ i
      · rw [if_pos ⟨hbpp, hnil⟩, if_pos hbpp]
        exact byteAt_eq (by rw [habove.resolve_left hnil]; omega)
      · rw [if_neg (fun h => hbpp h.1), if_neg hbpp]

theorem filterRow_eq_ok {out : Bytes} (h : filterRow filter row above bpp = .ok out) :
    filter ≤ 4 ∧ (above = [] ∨ above.length = row.length) ∧ out = filtered filter row above bpp := by
  have h' := h
  simp only [filterRow, steps_eq_ok, declineIf_eq_ok] at h
  obtain ⟨_, hlength, _, hfilter, -⟩ := h
  have habove : above = [] ∨ above.length = row.length := by
    by_contra hnot
    exact hlength ⟨fun hnil => hnot (.inl hnil), fun hlen => hnot (.inr hlen)⟩
  refine ⟨UInt8.not_lt.mp hfilter, habove, ?_⟩
  rw [filterRow_eq bpp (UInt8.not_lt.mp hfilter) habove] at h'
  cases h'
  rfl

/-- The first `k` bytes are filled in, and each is what the filtered one and its prediction give. -/
theorem unfilter_run (filter : UInt8) {bytes above : Bytes} (bpp : Nat) {k : Nat} (habove : above.length = bytes.length) (hk : k ≤ bytes.length) :
    ∃ out, (List.range k).foldlM (fun out i => do
        let x ← byteAt bytes i
        let p ← predicted filter out (byteAt above)
          (fun i => if bpp ≤ i then byteAt above (i - bpp) else .ok 0) bpp i
        return out.set i (x + p)) (List.replicate bytes.length 0) = (.ok out : Attempt Bytes) ∧
      out.length = bytes.length ∧
      (0 < bpp → ∀ i < k, out.getD i 0 - predictor filter out above bpp i = bytes.getD i 0) := by
  induction k with
  | zero => exact ⟨_, rfl, length_replicate, fun _ i hi => absurd hi (Nat.not_lt_zero i)⟩
  | succ k ih =>
    obtain ⟨out, hrun, hlength, hfilled⟩ := ih (by omega)
    have hpredicted : predicted filter out (byteAt above)
        (fun i => if bpp ≤ i then byteAt above (i - bpp) else .ok 0) bpp k =
          .ok (predictor filter out above bpp k) := by
      refine predicted_eq above (by omega) (byteAt_eq (by omega)) ?_
      split
      · exact byteAt_eq (by omega)
      · rfl
    refine ⟨out.set k (bytes.getD k 0 + predictor filter out above bpp k), ?_, by rw [length_set, hlength],
      fun hbpp i hi => ?_⟩
    · have hbyte : byteAt bytes k = .ok (bytes.getD k 0) := byteAt_eq (by omega)
      rw [range_succ, foldlM_append, hrun, ok_bind]
      simp only [foldlM_cons, foldlM_nil, hbyte, hpredicted, ok_bind, pure_eq_ok]
    have hother : ∀ j, j ≠ k → (out.set k (bytes.getD k 0 + predictor filter out above bpp k)).getD j 0 =
        out.getD j 0 := fun j hj => by
      simp only [getD_eq_getElem?_getD, getElem?_set_ne (Ne.symm hj)]
    rw [predictor_congr hbpp fun j hj => hother j (by omega)]
    rcases Nat.lt_succ_iff_lt_or_eq.mp hi with hlt | rfl
    · rw [hother i (by omega)]
      exact hfilled hbpp i hlt
    · rw [getD_eq_getElem _ _ (by rw [length_set]; omega), getElem_set_self, UInt8.add_sub_cancel]

/-- **The other loop finds the row whose predictions, taken off, give the filtered one.** -/
theorem unfilterRow_eq {bytes : Bytes} (bpp : Nat) (hfilter : filter ≤ 4) (habove : above.length = bytes.length) :
    ∃ out, unfilterRow filter bytes above bpp = .ok out ∧ out.length = bytes.length ∧
      (0 < bpp → filtered filter out above bpp = bytes) := by
  obtain ⟨out, hrun, hlength, hfilled⟩ := unfilter_run filter bpp habove (le_refl _)
  refine ⟨out, ?_, hlength, fun hbpp => ?_⟩
  · rw [unfilterRow, declineIf_of_not (not_not.mpr habove), ok_bind, declineIf_of_not (UInt8.not_lt.mpr hfilter),
      ok_bind]
    exact hrun
  · refine ext_getElem (by rw [length_filtered, hlength]) fun k hk hk' => ?_
    have hbyte := hfilled hbpp k hk'
    rwa [← getD_filtered (by omega), getD_eq_getElem _ _ hk, getD_eq_getElem _ _ hk'] at hbyte

theorem unfilterRow_eq_ok {bytes out : Bytes} (h : unfilterRow filter bytes above bpp = .ok out) :
    filter ≤ 4 ∧ above.length = bytes.length ∧ out.length = bytes.length ∧
      (0 < bpp → filtered filter out above bpp = bytes) := by
  have h' := h
  simp only [unfilterRow, steps_eq_ok, declineIf_eq_ok] at h
  obtain ⟨_, hlength, _, hfilter, -⟩ := h
  have hfilter := UInt8.not_lt.mp hfilter
  obtain ⟨out', hout, hfacts⟩ := unfilterRow_eq bpp hfilter (not_not.mp hlength)
  rw [hout] at h'
  cases h'
  exact ⟨hfilter, not_not.mp hlength, hfacts⟩

/-- **What is filtered is unfiltered to the row.** -/
theorem unfilter_filter {out : Bytes} (hbpp : 0 < bpp) (habove : above.length = row.length)
    (h : filterRow filter row above bpp = .ok out) : unfilterRow filter out above bpp = .ok row := by
  obtain ⟨hfilter, -, rfl⟩ := filterRow_eq_ok h
  obtain ⟨row', hrow', -, hfiltered⟩ := unfilterRow_eq bpp hfilter
    (by rw [length_filtered, habove] : above.length = (filtered filter row above bpp).length)
  rw [hrow', filtered_injective hbpp (hfiltered hbpp)]

/-- **What is unfiltered is filtered to the bytes it was.** -/
theorem filter_unfilter {bytes out : Bytes} (hbpp : 0 < bpp) (h : unfilterRow filter bytes above bpp = .ok out) :
    filterRow filter out above bpp = .ok bytes := by
  obtain ⟨hfilter, habove, hlength, hfiltered⟩ := unfilterRow_eq_ok h
  rw [filterRow_eq bpp hfilter (.inr (by rw [habove, hlength])), hfiltered hbpp]

/-- The first row has no row above, or a row of zeros. -/
theorem filterRow_zeros {n : Nat} (hn : n = row.length) :
    filterRow filter row (List.replicate n 0) bpp = filterRow filter row [] bpp := by
  by_cases hfilter : filter ≤ 4
  · rw [filterRow_eq bpp hfilter (.inr (by rw [length_replicate, hn])), filterRow_eq bpp hfilter (.inl rfl),
      filtered_zeros]
  · have hdeclined : declineIf (4 < filter) = .error .declined := if_pos (UInt8.not_le.mp hfilter)
    have hsame : ¬(List.replicate n (0 : UInt8) ≠ [] ∧ (List.replicate n (0 : UInt8)).length ≠ row.length) :=
      fun h => h.2 (by rw [length_replicate, hn])
    rw [filterRow, filterRow, declineIf_of_not hsame, ok_bind, hdeclined, declineIf_of_not (fun h => h.1 rfl), ok_bind]
    rfl

end Alt.PngPrism
