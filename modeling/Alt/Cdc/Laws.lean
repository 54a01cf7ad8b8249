import Alt.Cdc.Chunks

namespace Alt.Cdc

open Alt.Library List

/-!
# The laws of content-defined chunking

* `Cut` — the four ways a cut is found, none of which reads behind it or behind the maximum;
* `nextCut_take` — a chunk, chunked on its own, is cut at its end;
* `nextCut_congr` — a cut is found within `max` bytes;
* `chunks_cons` — one chunk, and the chunks of the rest;
* `cutsBefore_congr` — the cuts before a position depend on no byte that is `max` behind the last of them.
-/

variable {p : Params} {data data' : Bytes}

/-! ### The rolling hash -/

section Roll

variable {mask fp : UInt64} {i cut : Nat} {window : Bytes}

/-- A cut is found in what is read up to it. -/
theorem roll_take (h : roll mask fp i window = .inl cut) : roll mask fp i (window.take (cut - i)) = .inl cut := by
  induction window generalizing fp i with
  | nil => cases h
  | cons b window ih =>
    have hlt := (roll_bounds h).1
    rw [show cut - i = (cut - (i + 1)) + 1 by omega, take_succ_cons, roll]
    rw [roll] at h
    split at h
    · rename_i hhit
      rw [if_pos hhit]
      exact h
    · rename_i hmiss
      rw [if_neg hmiss]
      exact ih h

/-- What is behind a cut does not change it. -/
theorem roll_append (h : roll mask fp i window = .inl cut) (rest : Bytes) :
    roll mask fp i (window ++ rest) = .inl cut := by
  induction window generalizing fp i with
  | nil => cases h
  | cons b window ih =>
    rw [cons_append, roll]
    rw [roll] at h
    split at h
    · rename_i hhit
      rw [if_pos hhit]
      exact h
    · rename_i hmiss
      rw [if_neg hmiss]
      exact ih h

theorem take_drop_take {i j k : Nat} (hjk : j ≤ k) : ((data.take k).drop i).take (j - i) = (data.take j).drop i := by
  rw [← drop_take, take_take, Nat.min_eq_left hjk]

theorem roll_narrow {k : Nat} (hle : cut ≤ k) (h : roll mask fp i ((data.take k).drop i) = .inl cut) :
    roll mask fp i ((data.take cut).drop i) = .inl cut := by
  rw [← take_drop_take hle]
  exact roll_take h

theorem roll_widen {k : Nat} (hle : cut ≤ k) (h : roll mask fp i ((data.take cut).drop i) = .inl cut) :
    roll mask fp i ((data.take k).drop i) = .inl cut := by
  rw [← take_append_drop (cut - i) ((data.take k).drop i), take_drop_take hle]
  exact roll_append h _

end Roll

/-! ### One cut -/

/-- The ways a cut is found: the data is short; the strict mask hits; the lax mask hits behind the average;
    nothing hits up to the end of the data, or the maximum. -/
inductive Cut (p : Params) (data : Bytes) (cut : Nat) : Prop
  | short : data.length ≤ p.min → cut = data.length → Cut p data cut
  | strict : p.min < cut → cut ≤ data.length → cut ≤ p.avg →
      roll p.maskStrict 0 p.min ((data.take cut).drop p.min) = .inl cut → Cut p data cut
  | lax (fp : UInt64) : p.avg < cut → cut ≤ data.length → cut ≤ p.max →
      roll p.maskStrict 0 p.min ((data.take p.avg).drop p.min) = .inr fp →
      roll p.maskLax fp p.avg ((data.take cut).drop p.avg) = .inl cut → Cut p data cut
  | full (fp fp' : UInt64) : p.min < data.length → cut = Nat.min data.length p.max →
      roll p.maskStrict 0 p.min ((data.take (Nat.min p.avg cut)).drop p.min) = .inr fp →
      roll p.maskLax fp (Nat.min p.avg cut) ((data.take cut).drop (Nat.min p.avg cut)) = .inr fp' →
      Cut p data cut

/-- **How a cut is found.** -/
theorem cut_nextCut (p : Params) (data : Bytes) : Cut p data (nextCut p data) := by
  unfold nextCut
  split
  · rename_i hshort
    exact .short hshort rfl
  · rename_i hlong
    have hlong := not_le.mp hlong
    have hmin := p.min_lt
    have havg := p.avg_lt
    have hcap : Nat.min data.length p.max ≤ data.length := Nat.min_le_left _ _
    have hmax : Nat.min data.length p.max ≤ p.max := Nat.min_le_right _ _
    have hnormal : Nat.min p.avg (Nat.min data.length p.max) ≤ Nat.min data.length p.max := Nat.min_le_right _ _
    have hnormal' : Nat.min p.avg (Nat.min data.length p.max) ≤ p.avg := Nat.min_le_left _ _
    dsimp only
    split
    · rename_i cut hroll
      have hbounds := roll_bounds hroll
      rw [length_drop, length_take_of_le (hnormal.trans hcap)] at hbounds
      have hcut : cut ≤ Nat.min p.avg (Nat.min data.length p.max) := by omega
      exact .strict hbounds.1 (by omega) (by omega) (roll_narrow hcut hroll)
    · rename_i fp hstrict
      split
      · rename_i cut hroll
        have hbounds := roll_bounds hroll
        rw [length_drop, length_take_of_le hcap] at hbounds
        have hshorter : Nat.min p.avg (Nat.min data.length p.max) = p.avg := by
          refine Nat.min_eq_left ?_
          by_contra hnot
          have hfull : Nat.min p.avg (Nat.min data.length p.max) = Nat.min data.length p.max :=
            Nat.min_eq_right (not_le.mp hnot).le
          omega
        rw [hshorter] at hstrict hroll hbounds
        exact .lax fp hbounds.1 (by omega) (by omega) hstrict (roll_narrow (by omega) hroll)
      · rename_i fp' hlax
        exact .full fp fp' hlong rfl hstrict hlax

/-- What is found so is the cut. -/
theorem Cut.eq_nextCut {cut : Nat} (h : Cut p data cut) : nextCut p data = cut := by
  have hmin := p.min_lt
  have havg := p.avg_lt
  cases h with
  | short hshort hcut => rw [nextCut, if_pos hshort, hcut]
  | strict hlow hlen hcut hroll =>
    have hnormal : cut ≤ Nat.min p.avg (Nat.min data.length p.max) :=
      Nat.le_min.mpr ⟨hcut, Nat.le_min.mpr ⟨hlen, by omega⟩⟩
    rw [nextCut, if_neg (by omega)]
    dsimp only
    rw [roll_widen hnormal hroll]
  | lax fp hcut hlen hmax hstrict hroll =>
    have hcap : cut ≤ Nat.min data.length p.max := Nat.le_min.mpr ⟨hlen, hmax⟩
    have hnormal : Nat.min p.avg (Nat.min data.length p.max) = p.avg := Nat.min_eq_left (by omega)
    rw [nextCut, if_neg (by omega)]
    dsimp only
    rw [hnormal, hstrict]
    dsimp only
    rw [roll_widen hcap hroll]
  | full fp fp' hlong hcut hstrict hlax =>
    rw [nextCut, if_neg (by omega)]
    dsimp only
    rw [← hcut, hstrict]
    dsimp only
    rw [hlax]

theorem nextCut_le_max : nextCut p data ≤ p.max := by
  have hmin := p.min_lt
  have havg := p.avg_lt
  cases cut_nextCut p data with
  | short hshort hcut => omega
  | strict hlow hlen hcut hroll => omega
  | lax fp hcut hlen hmax hstrict hroll => exact hmax
  | full fp fp' hlong hcut hstrict hlax =>
    rw [hcut]
    exact Nat.min_le_right _ _

theorem min_lt_nextCut (h : p.min < data.length) : p.min < nextCut p data := by
  have hmin := p.min_lt
  have havg := p.avg_lt
  cases cut_nextCut p data with
  | short hshort hcut => omega
  | strict hlow hlen hcut hroll => exact hlow
  | lax fp hcut hlen hmax hstrict hroll => omega
  | full fp fp' hlong hcut hstrict hlax =>
    rw [hcut]
    exact Nat.lt_min.mpr ⟨h, by omega⟩

theorem nextCut_le_length : nextCut p data ≤ data.length := by
  cases cut_nextCut p data with
  | short hshort hcut => omega
  | strict hlow hlen hcut hroll => exact hlen
  | lax fp hcut hlen hmax hstrict hroll => exact hlen
  | full fp fp' hlong hcut hstrict hlax =>
    rw [hcut]
    exact Nat.min_le_left _ _

/-- **A chunk, chunked on its own, is cut at its end.** -/
theorem nextCut_take : nextCut p (data.take (nextCut p data)) = nextCut p data := by
  have hlength : (data.take (nextCut p data)).length = nextCut p data :=
    length_take_of_le nextCut_le_length
  have hmax : nextCut p data ≤ p.max := nextCut_le_max
  have hcut := cut_nextCut p data
  generalize nextCut p data = cut at hlength hmax hcut ⊢
  have htake : (data.take cut).take cut = data.take cut := by rw [take_take, Nat.min_self]
  refine Cut.eq_nextCut ?_
  cases hcut with
  | short hshort hcut =>
    rw [hcut, take_length]
    exact .short hshort rfl
  | strict hlow hlen hcut hroll => exact .strict hlow (by omega) hcut (by rwa [htake])
  | lax fp hcut hlen hmax hstrict hroll =>
    refine .lax fp hcut (by omega) hmax ?_ (by rwa [htake])
    rwa [take_take, Nat.min_eq_left hcut.le]
  | full fp fp' hlong hcut hstrict hlax =>
    have hmin := p.min_lt
    have havg := p.avg_lt
    have hlow : p.min < cut := by
      rw [hcut]
      exact Nat.lt_min.mpr ⟨hlong, by omega⟩
    refine .full fp fp' (by omega) ?_ ?_ (by rwa [htake])
    · rw [hlength]
      exact (Nat.min_eq_left hmax).symm
    · rwa [take_take, Nat.min_eq_left (Nat.min_le_right _ _)]

theorem take_congr {i k : Nat} (h : data.take k = data'.take k) (hik : i ≤ k) : data.take i = data'.take i := by
  have := congrArg (List.take i) h
  rwa [take_take, take_take, Nat.min_eq_left hik] at this

/-- **A cut is found within `max` bytes.** -/
theorem nextCut_congr (h : data.take p.max = data'.take p.max) : nextCut p data = nextCut p data' := by
  have hmin := p.min_lt
  have havg := p.avg_lt
  have hlengths : min p.max data.length = min p.max data'.length := by
    have := congrArg List.length h
    rwa [length_take, length_take] at this
  have hle : ∀ k ≤ p.max, k ≤ data'.length → k ≤ data.length := fun k hk hlen => by omega
  refine Cut.eq_nextCut ?_
  have hmax : nextCut p data' ≤ p.max := nextCut_le_max
  have hcut := cut_nextCut p data'
  generalize nextCut p data' = cut at hmax hcut ⊢
  cases hcut with
  | short hshort hcut =>
    have hshort' : data.length ≤ p.min := by omega
    have hsame : data = data' := by
      rwa [take_of_length_le (by omega), take_of_length_le (by omega)] at h
    exact .short hshort' (by rw [hsame, hcut])
  | strict hlow hlen hcut hroll =>
    exact .strict hlow (hle cut hmax hlen) hcut (by rwa [take_congr h hmax])
  | lax fp hcut hlen hmax hstrict hroll =>
    refine .lax fp hcut (hle cut hmax hlen) hmax ?_ (by rwa [take_congr h hmax])
    rwa [take_congr h havg.le]
  | full fp fp' hlong hcut hstrict hlax =>
    have hcut' : cut = min data'.length p.max := hcut
    refine .full fp fp' (by omega) ?_ ?_ (by rwa [take_congr h hmax])
    · exact hcut'.trans (by rw [Nat.min_comm, ← hlengths, Nat.min_comm])
    · rwa [take_congr h ((Nat.min_le_right _ _).trans hmax)]

/-! ### All cuts -/

theorem cutAll_fuel {fuel fuel' : Nat} (h : data.length ≤ fuel) (h' : data.length ≤ fuel') :
    cutAll p fuel data = cutAll p fuel' data := by
  induction fuel generalizing data fuel' with
  | zero =>
    rw [length_eq_zero_iff.mp (Nat.le_zero.mp h)]
    cases fuel' <;> rfl
  | succ fuel ih =>
    cases data with
    | nil => cases fuel' <;> rfl
    | cons b rest =>
      cases fuel' with
      | zero => exact absurd h' (by simp)
      | succ fuel' =>
        have hcut := nextCut_bounds p (cons_ne_nil b rest)
        rw [cutAll, cutAll]
        congr 1
        exact ih (by rw [length_drop]; omega) (by rw [length_drop]; omega)

@[simp] theorem chunks_nil : chunks p [] = [] := rfl

/-- **One chunk, and the chunks of the rest.** -/
theorem chunks_cons (h : data ≠ []) :
    chunks p data = data.take (nextCut p data) :: chunks p (data.drop (nextCut p data)) := by
  cases data with
  | nil => exact absurd rfl h
  | cons b rest =>
    have hcut := nextCut_bounds p h
    have hrest : cutAll p rest.length ((b :: rest).drop (nextCut p (b :: rest))) =
        chunks p ((b :: rest).drop (nextCut p (b :: rest))) :=
      cutAll_fuel (by rw [length_drop, length_cons]; omega) (le_refl _)
    rw [chunks, length_cons, cutAll, hrest]

/-- Induction along the chunks. -/
theorem chunks_induction {motive : Bytes → Prop} (nil : motive [])
    (cons : ∀ data, data ≠ [] → motive (data.drop (nextCut p data)) → motive data) (data : Bytes) : motive data := by
  induction hlength : data.length using Nat.strong_induction_on generalizing data with
  | _ n ih =>
    by_cases hnil : data = []
    · exact hnil ▸ nil
    · have hcut := nextCut_bounds p hnil
      exact cons data hnil (ih _ (by rw [length_drop]; omega) _ rfl)

/-- **The sizes of the chunks.** None is empty or longer than the maximum. -/
theorem chunk_bounds (data : Bytes) : ∀ c ∈ chunks p data, c ≠ [] ∧ c.length ≤ p.max := by
  induction data using chunks_induction (p := p) with
  | nil => exact fun c hc => nomatch hc
  | cons data hne ih =>
    have hcut := nextCut_bounds p hne
    rw [chunks_cons hne, forall_mem_cons]
    refine ⟨⟨fun hnil => ?_, ?_⟩, ih⟩
    · have hlength := congrArg List.length hnil
      rw [length_take_of_le hcut.2] at hlength
      exact absurd hlength (by simp; omega)
    · rw [length_take_of_le hcut.2]
      exact nextCut_le_max

/-- Each chunk but the last is longer than the minimum. -/
theorem chunk_min (data : Bytes) : ∀ c ∈ (chunks p data).dropLast, p.min ≤ c.length := by
  induction data using chunks_induction (p := p) with
  | nil => exact fun c hc => nomatch hc
  | cons data hne ih =>
    have hcut := nextCut_bounds p hne
    rw [chunks_cons hne]
    by_cases hrest : data.drop (nextCut p data) = []
    · rw [hrest]
      exact fun c hc => nomatch hc
    · have hmore : chunks p (data.drop (nextCut p data)) ≠ [] := by
        rw [chunks_cons hrest]
        exact cons_ne_nil _ _
      rw [dropLast_cons_of_ne_nil hmore, forall_mem_cons]
      refine ⟨?_, ih⟩
      have hlonger : nextCut p data < data.length := by
        rw [drop_eq_nil_iff, not_le] at hrest
        exact hrest
      have hmin : p.min < data.length := by
        by_contra hshort
        rw [nextCut, if_pos (not_lt.mp hshort)] at hlonger
        omega
      rw [length_take_of_le hcut.2]
      exact (min_lt_nextCut hmin).le

/-- **A chunk is one chunk.** -/
theorem chunks_chunk (data : Bytes) : ∀ c ∈ chunks p data, chunks p c = [c] := by
  induction data using chunks_induction (p := p) with
  | nil => exact fun c hc => nomatch hc
  | cons data hne ih =>
    have hcut := nextCut_bounds p hne
    rw [chunks_cons hne, forall_mem_cons]
    refine ⟨?_, ih⟩
    have hlength := length_take_of_le hcut.2
    have hne' : data.take (nextCut p data) ≠ [] := fun hnil => by
      rw [hnil] at hlength
      exact absurd hlength (by simp; omega)
    rw [chunks_cons hne', nextCut_take, drop_of_length_le (by rw [hlength]), chunks_nil, take_take,
      Nat.min_self]

/-! ### Where the cuts are -/

/-- The positions of the cuts, from `start` on. -/
def cutsFrom (start : Nat) : List Bytes → List Nat
  | [] => []
  | c :: cs => (start + c.length) :: cutsFrom (start + c.length) cs

/-- The cuts of the data before a position. -/
def cutsBefore (p : Params) (data : Bytes) (n : Nat) : List Nat :=
  (cutsFrom 0 (chunks p data)).takeWhile (· < n)

theorem le_of_mem_cutsFrom {start k : Nat} {cs : List Bytes} (h : k ∈ cutsFrom start cs) : start ≤ k := by
  induction cs generalizing start with
  | nil => cases h
  | cons c cs ih =>
    rcases mem_cons.mp h with rfl | h
    · exact Nat.le_add_right _ _
    · exact le_trans (Nat.le_add_right _ _) (ih h)

theorem le_getLastD_cutsFrom (start n : Nat) (cs : List Bytes) :
    start ≤ ((cutsFrom start cs).takeWhile (· < n)).getLastD start := by
  cases hlast : ((cutsFrom start cs).takeWhile (· < n)).getLast? with
  | none => rw [getLast?_eq_none_iff.mp hlast, getLastD_nil]
  | some k =>
    rw [getLastD_eq_getLast?, hlast, Option.getD_some]
    exact le_of_mem_cutsFrom (takeWhile_subset _ (mem_of_getLast? hlast))

/-- Two inputs cut alike as long as they agree from the last cut before the position on, for `max` bytes. -/
theorem cutsFrom_congr {start n : Nat} (data data' : Bytes)
    (h : data.take (((cutsFrom start (chunks p data)).takeWhile (· < n)).getLastD start - start + p.max) =
      data'.take (((cutsFrom start (chunks p data)).takeWhile (· < n)).getLastD start - start + p.max)) :
    (cutsFrom start (chunks p data')).takeWhile (· < n) = (cutsFrom start (chunks p data)).takeWhile (· < n) := by
  have hmaxpos : 0 < p.max := by
    have := p.min_lt
    have := p.avg_lt
    omega
  induction data using chunks_induction (p := p) generalizing start data' with
  | nil =>
    have hnil : data' = [] := by
      rw [chunks_nil] at h
      have hlength := congrArg List.length h
      rw [take_nil, length_nil, length_take] at hlength
      refine length_eq_zero_iff.mp ?_
      simp only [cutsFrom, takeWhile_nil, getLastD_nil] at hlength
      omega
    rw [hnil]
  | cons data hne ih =>
    have hmax : data.take p.max = data'.take p.max := take_congr h (Nat.le_add_left _ _)
    have hcut := nextCut_congr hmax
    have hbounds := nextCut_bounds p hne
    have hne' : data' ≠ [] := fun hnil => by
      rw [hnil, take_nil, take_eq_nil_iff] at hmax
      exact hmax.elim (by omega) hne
    have hlength := length_take_of_le hbounds.2
    have hlength' := length_take_of_le (nextCut_bounds p hne').2
    have hsplit : cutsFrom start (chunks p data) =
        (start + nextCut p data) :: cutsFrom (start + nextCut p data) (chunks p (data.drop (nextCut p data))) := by
      rw [chunks_cons hne, cutsFrom, length_take_of_le hbounds.2]
    have hsplit' : cutsFrom start (chunks p data') =
        (start + nextCut p data) :: cutsFrom (start + nextCut p data) (chunks p (data'.drop (nextCut p data))) := by
      rw [chunks_cons hne', cutsFrom, length_take_of_le (nextCut_bounds p hne').2, hcut]
    rw [hsplit] at h ⊢
    rw [hsplit']
    by_cases hbefore : start + nextCut p data < n
    · rw [takeWhile_cons_of_pos (by simpa using hbefore)] at h ⊢
      rw [takeWhile_cons_of_pos (by simpa using hbefore)]
      congr 1
      refine ih (data'.drop (nextCut p data)) ?_
      rw [getLastD_cons] at h
      have hlast := le_getLastD_cutsFrom (start + nextCut p data) n (chunks p (data.drop (nextCut p data)))
      generalize ((cutsFrom (start + nextCut p data) (chunks p (data.drop (nextCut p data)))).takeWhile
        (· < n)).getLastD (start + nextCut p data) = last at h hlast ⊢
      have hdrop := congrArg (List.drop (nextCut p data)) h
      rw [drop_take, drop_take,
        show last - start + p.max - nextCut p data = last - (start + nextCut p data) + p.max by omega] at hdrop
      exact hdrop
    · rw [takeWhile_cons_of_neg (by simpa using hbefore), takeWhile_cons_of_neg (by simpa using hbefore)]

/-- **The cuts before a position** are the same in all data that agree up to `max` bytes behind the last of
    them. -/
theorem cutsBefore_congr {n : Nat}
    (h : data.take ((cutsBefore p data n).getLastD 0 + p.max) = data'.take ((cutsBefore p data n).getLastD 0 + p.max)) :
    cutsBefore p data' n = cutsBefore p data n :=
  cutsFrom_congr data data' (by simpa only [cutsBefore, Nat.sub_zero] using h)

end Alt.Cdc
