import Alt.Library.EditScript

namespace Alt.Diff.Histogram

open Alt.Library List

/-!
# The histogram diff (`alt-diff/src/histogram.rs`)

Works on token lists, one token a line.  A region is trimmed at both ends; the best common run
in the rest, anchored on the rarest token, splits it; the flanks are diffed in turn.

* `trimPrefix` / `trimSuffix` — the two trimming loops;
* `findLcs` — the best common run, or none; `findLcs_spec` says it is one, nonempty and inside
  the region, which is all the recursion needs to shrink;
* `diff_path` — the edits are a script from the region's start to its end.
-/

/-- A token more frequent than this is no anchor. -/
def maxChain : Nat := 64

def usizeMax : Nat := 2 ^ 64 - 1

section

variable (a b : List Nat)

/-! ### Common ends -/

/-- Strip the common prefix. -/
def trimPrefix (alo ahi blo bhi : Nat) : Nat × Nat :=
  if alo < ahi ∧ blo < bhi ∧ a[alo]? = b[blo]? then trimPrefix (alo + 1) ahi (blo + 1) bhi
  else (alo, blo)
termination_by ahi - alo

/-- Strip the common suffix. -/
def trimSuffix (alo ahi blo bhi : Nat) : Nat × Nat :=
  if alo < ahi ∧ blo < bhi ∧ a[ahi - 1]? = b[bhi - 1]? then trimSuffix alo (ahi - 1) blo (bhi - 1)
  else (ahi, bhi)
termination_by ahi - alo

/-! ### The best common run -/

/-- Positions of a token within `a`'s region, ascending. -/
def positions (alo ahi : Nat) (tok : Option Nat) : List Nat :=
  (List.range' alo (ahi - alo)).filter fun i => a[i]? = tok

/-- Grow an aligned run backwards. -/
def growBack (alo blo sa sb : Nat) : Nat × Nat :=
  if alo < sa ∧ blo < sb ∧ a[sa - 1]? = b[sb - 1]? then growBack alo blo (sa - 1) (sb - 1)
  else (sa, sb)
termination_by sa

/-- Grow an aligned run forwards. -/
def growForth (ahi bhi ea eb : Nat) : Nat × Nat :=
  if ea + 1 < ahi ∧ eb + 1 < bhi ∧ a[ea + 1]? = b[eb + 1]? then growForth ahi bhi (ea + 1) (eb + 1)
  else (ea, eb)
termination_by ahi - ea

/-- A common run, both ends included, and the fewest occurrences of any of its tokens. -/
structure Run where
  aStart : Nat
  aEnd : Nat
  bStart : Nat
  bEnd : Nat
  rarity : Nat

/-- The run through `(ai, bi)`. -/
def runAt (alo ahi blo bhi ai bi : Nat) : Run :=
  let (sa, sb) := growBack a b alo blo ai bi
  let (ea, eb) := growForth a b ahi bhi ai bi
  let rarities := (List.range' sa (ea + 1 - sa)).map fun k => (positions a alo ahi a[k]?).length
  ⟨sa, ea, sb, eb, rarities.min?.getD usizeMax⟩

/-- The rarer run, then the longer one, then the earlier one. -/
def Run.better (run : Run) : Option Run → Bool
  | none => true
  | some best =>
    run.rarity < best.rarity ∨
      (run.rarity = best.rarity ∧ best.aEnd - best.aStart + 1 < run.aEnd - run.aStart + 1)

/-- The run with the best anchor, if the regions share a line that can be one. -/
def findLcs (alo ahi blo bhi : Nat) : Option (Nat × Nat × Nat × Nat) :=
  let best := (List.range' blo (bhi - blo)).foldl (fun best bi =>
    let chain := positions a alo ahi b[bi]?
    if maxChain < chain.length then best -- too common a line to be a good anchor
    else
      chain.foldl (fun best ai =>
        let run := runAt a b alo ahi blo bhi ai bi
        if run.better best then some run else best) best) none
  best.map fun run => (run.aStart, run.aEnd + 1, run.bStart, run.bEnd + 1)

end

section Runs

variable {a b : List Nat} {alo ahi blo bhi : Nat}

/-- `a` from `i` and `b` from `j` agree for `n` places. -/
def Agree (a b : List Nat) (i j n : Nat) : Prop := ∀ k < n, a[i + k]? = b[j + k]?

theorem Agree.cons {i j n : Nat} (h : a[i]? = b[j]?) (hrest : Agree a b (i + 1) (j + 1) n) :
    Agree a b i j (n + 1) := by
  intro k hk
  cases k with
  | zero => exact h
  | succ k =>
    have := hrest k (by omega)
    rwa [show i + 1 + k = i + (k + 1) by omega, show j + 1 + k = j + (k + 1) by omega] at this

theorem Agree.concat {i j n : Nat} (hrest : Agree a b i j n) (h : a[i + n]? = b[j + n]?) :
    Agree a b i j (n + 1) := by
  intro k hk
  by_cases hkn : k = n
  · exact hkn ▸ h
  · exact hrest k (by omega)

/-- Two stretches that agree, inside their lists, are kept by a path. -/
theorem Agree.path {i j n : Nat} (h : Agree a b i j n) (hi : i + n ≤ a.length) :
    Path a b i j [] (i + n) (j + n) := by
  refine Path.keeps fun k hk => ?_
  have hlt : i + k < a.length := by omega
  exact ⟨a[i + k], getElem?_eq_getElem hlt, h k hk ▸ getElem?_eq_getElem hlt⟩

theorem trimPrefix_spec (hlo : alo ≤ ahi) (hlo' : blo ≤ bhi) :
    ∃ n, trimPrefix a b alo ahi blo bhi = (alo + n, blo + n) ∧ alo + n ≤ ahi ∧ blo + n ≤ bhi ∧
      Agree a b alo blo n := by
  fun_induction trimPrefix a b alo ahi blo bhi with
  | case1 alo blo h ih =>
    obtain ⟨n, heq, hle, hle', hagree⟩ := ih (by omega) (by omega)
    refine ⟨n + 1, ?_, by omega, by omega, .cons h.2.2 hagree⟩
    rw [heq, Nat.add_right_comm, Nat.add_assoc, Nat.add_right_comm blo, Nat.add_assoc]
  | case2 alo blo h => exact ⟨0, rfl, hlo, hlo', fun k hk => by omega⟩

theorem le_trimPrefix : alo ≤ (trimPrefix a b alo ahi blo bhi).1 := by
  fun_induction trimPrefix a b alo ahi blo bhi with
  | case1 alo blo h ih => omega
  | case2 alo blo h => exact le_rfl

theorem trimSuffix_le : (trimSuffix a b alo ahi blo bhi).1 ≤ ahi := by
  fun_induction trimSuffix a b alo ahi blo bhi with
  | case1 ahi bhi h ih => omega
  | case2 ahi bhi h => exact le_rfl

theorem trimSuffix_spec (hlo : alo ≤ ahi) (hlo' : blo ≤ bhi) :
    ∃ n, trimSuffix a b alo ahi blo bhi = (ahi - n, bhi - n) ∧ alo ≤ ahi - n ∧ blo ≤ bhi - n ∧
      n ≤ ahi ∧ n ≤ bhi ∧ Agree a b (ahi - n) (bhi - n) n := by
  fun_induction trimSuffix a b alo ahi blo bhi with
  | case1 ahi bhi h ih =>
    obtain ⟨n, heq, hle, hle', hn, hn', hagree⟩ := ih (by omega) (by omega)
    refine ⟨n + 1, ?_, by omega, by omega, by omega, by omega, ?_⟩
    · rw [heq, Nat.sub_sub, Nat.sub_sub, Nat.add_comm 1 n]
    · rw [Nat.sub_sub, Nat.sub_sub, Nat.add_comm 1 n] at hagree
      refine hagree.concat ?_
      rw [show ahi - (n + 1) + n = ahi - 1 by omega, show bhi - (n + 1) + n = bhi - 1 by omega]
      exact h.2.2
  | case2 ahi bhi h =>
    exact ⟨0, rfl, hlo, hlo', Nat.zero_le _, Nat.zero_le _, fun k hk => by omega⟩

theorem growBack_spec {sa sb : Nat} (hlo : alo ≤ sa) (hlo' : blo ≤ sb) :
    ∃ n, growBack a b alo blo sa sb = (sa - n, sb - n) ∧ n ≤ sa - alo ∧ n ≤ sb - blo ∧
      Agree a b (sa - n) (sb - n) n := by
  fun_induction growBack a b alo blo sa sb with
  | case1 sa sb h ih =>
    obtain ⟨n, heq, hn, hn', hagree⟩ := ih (by omega) (by omega)
    refine ⟨n + 1, ?_, by omega, by omega, ?_⟩
    · rw [heq, Nat.sub_sub, Nat.sub_sub, Nat.add_comm 1 n]
    · rw [Nat.sub_sub, Nat.sub_sub, Nat.add_comm 1 n] at hagree
      refine hagree.concat ?_
      rw [show sa - (n + 1) + n = sa - 1 by omega, show sb - (n + 1) + n = sb - 1 by omega]
      exact h.2.2
  | case2 sa sb h => exact ⟨0, rfl, Nat.zero_le _, Nat.zero_le _, fun k hk => by omega⟩

theorem growForth_spec {ea eb : Nat} (hhi : ea < ahi) (hhi' : eb < bhi) :
    ∃ n, growForth a b ahi bhi ea eb = (ea + n, eb + n) ∧ ea + n < ahi ∧ eb + n < bhi ∧
      Agree a b (ea + 1) (eb + 1) n := by
  fun_induction growForth a b ahi bhi ea eb with
  | case1 ea eb h ih =>
    obtain ⟨n, heq, hlt, hlt', hagree⟩ := ih h.1 h.2.1
    refine ⟨n + 1, ?_, by omega, by omega, .cons h.2.2 hagree⟩
    rw [heq, Nat.add_right_comm, Nat.add_assoc, Nat.add_right_comm eb, Nat.add_assoc]
  | case2 ea eb h => exact ⟨0, rfl, hhi, hhi', fun k hk => by omega⟩

/-- A nonempty run common to the regions. -/
structure Run.Common (run : Run) (a b : List Nat) (alo ahi blo bhi : Nat) : Prop where
  aLo : alo ≤ run.aStart
  aLe : run.aStart ≤ run.aEnd
  aHi : run.aEnd < ahi
  bLo : blo ≤ run.bStart
  bHi : run.bEnd < bhi
  len : run.aEnd - run.aStart = run.bEnd - run.bStart
  bLe : run.bStart ≤ run.bEnd
  agree : Agree a b run.aStart run.bStart (run.aEnd + 1 - run.aStart)

theorem runAt_common {ai bi : Nat} (hlo : alo ≤ ai) (hhi : ai < ahi) (hlo' : blo ≤ bi)
    (hhi' : bi < bhi) (h : a[ai]? = b[bi]?) :
    (runAt a b alo ahi blo bhi ai bi).Common a b alo ahi blo bhi := by
  obtain ⟨n, hback, hn, hn', hbefore⟩ := @growBack_spec a b alo blo ai bi hlo hlo'
  obtain ⟨m, hforth, hm, hm', hafter⟩ := @growForth_spec a b ahi bhi ai bi hhi hhi'
  simp only [runAt, hback, hforth]
  constructor
  case agree =>
    intro k hk
    dsimp only at hk ⊢
    rcases Nat.lt_trichotomy k n with hlt | rfl | hgt
    · exact hbefore k hlt
    · rw [show ai - k + k = ai by omega, show bi - k + k = bi by omega, h]
    · have := hafter (k - n - 1) (by omega)
      rwa [show ai + 1 + (k - n - 1) = ai - n + k by omega,
        show bi + 1 + (k - n - 1) = bi - n + k by omega] at this
  all_goals
    dsimp only
    omega

theorem mem_positions {i : Nat} {tok : Option Nat} (h : i ∈ positions a alo ahi tok) :
    alo ≤ i ∧ i < ahi ∧ a[i]? = tok := by
  rw [positions, mem_filter, mem_range'_1, decide_eq_true_eq] at h
  exact ⟨by omega, by omega, h.2⟩

/-- What a fold that keeps or replaces the best has at the end, it had at the start or found. -/
theorem foldl_best {ρ : Type} {P : Run → Prop} {f : Option Run → ρ → Option Run} {xs : List ρ}
    (hf : ∀ best x, x ∈ xs → (∀ run ∈ best, P run) → ∀ run ∈ f best x, P run)
    {best : Option Run} (hbest : ∀ run ∈ best, P run) : ∀ run ∈ xs.foldl f best, P run := by
  induction xs generalizing best with
  | nil => exact hbest
  | cons x xs ih =>
    exact ih (fun best y hy => hf best y (mem_cons_of_mem _ hy))
      (hf best x mem_cons_self hbest)

/-- **The best common run is one.** -/
theorem findLcs_spec {as_ ae bs be : Nat} (h : findLcs a b alo ahi blo bhi = some (as_, ae, bs, be)) :
    ∃ n, 0 < n ∧ ae = as_ + n ∧ be = bs + n ∧ alo ≤ as_ ∧ ae ≤ ahi ∧ blo ≤ bs ∧ be ≤ bhi ∧
      Agree a b as_ bs n := by
  obtain ⟨run, hrun, heq⟩ := Option.map_eq_some_iff.mp h
  have hcommon : run.Common a b alo ahi blo bhi := by
    refine foldl_best (P := fun run => run.Common a b alo ahi blo bhi) ?_ (by simp) run hrun
    intro best bi hbi hbest
    obtain ⟨hlo', hhi'⟩ : blo ≤ bi ∧ bi < bhi := by
      rw [mem_range'_1] at hbi
      omega
    dsimp only
    split
    · exact hbest
    · refine foldl_best (fun best ai hai hbest => ?_) hbest
      obtain ⟨hlo, hhi, hsame⟩ := mem_positions hai
      split
      · intro run hmem
        cases hmem
        exact runAt_common hlo hhi hlo' hhi' hsame
      · exact hbest
  cases heq
  have h1 := hcommon.aLo
  have h2 := hcommon.aLe
  have h3 := hcommon.aHi
  have h4 := hcommon.bLo
  have h5 := hcommon.bHi
  have h6 := hcommon.len
  have h7 := hcommon.bLe
  exact ⟨run.aEnd + 1 - run.aStart, by omega, by omega, by omega, h1, by omega, h4, by omega,
    hcommon.agree⟩

end Runs

/-! ### The recursion -/

/-- The edits of a region, in increasing order. -/
def diff (a b : List Nat) (alo ahi blo bhi : Nat) : List Edit :=
  let lo := trimPrefix a b alo ahi blo bhi
  let hi := trimSuffix a b lo.1 ahi lo.2 bhi
  if lo.1 = hi.1 ∨ lo.2 = hi.2 then
    if lo.1 ≠ hi.1 ∨ lo.2 ≠ hi.2 then [⟨⟨lo.1, hi.1⟩, ⟨lo.2, hi.2⟩⟩] else []
  else
    match h : findLcs a b lo.1 hi.1 lo.2 hi.2 with
    | some (as_, ae, bs, be) => diff a b lo.1 as_ lo.2 bs ++ diff a b ae hi.1 be hi.2
    | none => [⟨⟨lo.1, hi.1⟩, ⟨lo.2, hi.2⟩⟩]
termination_by ahi - alo
decreasing_by
  all_goals
    have hlo := @le_trimPrefix a b alo ahi blo bhi
    have hhi := @trimSuffix_le a b lo.1 ahi lo.2 bhi
    obtain ⟨n, hn, rfl, rfl, h1, h2, -⟩ := findLcs_spec h
    dsimp only [lo, hi] at *
    omega

/-- One edit for all of a region. -/
theorem path_whole {a b : List Nat} {i i' j j' : Nat} (hi : i ≤ i') (hj : j ≤ j')
    (hi' : i' ≤ a.length) (hj' : j' ≤ b.length) : Path a b i j [⟨⟨i, i'⟩, ⟨j, j'⟩⟩] i' j' :=
  .edit rfl rfl hi hi' hj hj' (.done i' j')

/-- Between the trimmed ends and the ends of the region everything is kept. -/
theorem trim_path {a b : List Nat} {alo ahi blo bhi : Nat} (hlo : alo ≤ ahi) (hlo' : blo ≤ bhi)
    (hhi : ahi ≤ a.length) {lo hi : Nat × Nat} (hp : trimPrefix a b alo ahi blo bhi = lo)
    (hs : trimSuffix a b lo.1 ahi lo.2 bhi = hi) :
    lo.1 ≤ hi.1 ∧ lo.2 ≤ hi.2 ∧ hi.1 ≤ ahi ∧ hi.2 ≤ bhi ∧
      ∀ es, Path a b lo.1 lo.2 es hi.1 hi.2 → Path a b alo blo es ahi bhi := by
  obtain ⟨n, heq, hn, hn', hpre⟩ := @trimPrefix_spec a b alo ahi blo bhi hlo hlo'
  obtain rfl := hp.symm.trans heq
  obtain ⟨m, heq', hm, hm', hle, hle', hsuf⟩ := @trimSuffix_spec a b (alo + n) ahi (blo + n) bhi hn hn'
  obtain rfl := hs.symm.trans heq'
  dsimp only at hm hm' ⊢
  refine ⟨hm, hm', Nat.sub_le _ _, Nat.sub_le _ _, fun es hpath => ?_⟩
  have hfront := hpre.path (by omega)
  have hback := hsuf.path (by omega)
  rw [Nat.sub_add_cancel hle, Nat.sub_add_cancel hle'] at hback
  simpa using (hfront.append hpath).append hback

/-- **The edits are a script of the region.** -/
theorem diff_path {a b : List Nat} {alo ahi blo bhi : Nat} (hlo : alo ≤ ahi) (hlo' : blo ≤ bhi)
    (hhi : ahi ≤ a.length) (hhi' : bhi ≤ b.length) :
    Path a b alo blo (diff a b alo ahi blo bhi) ahi bhi := by
  fun_induction diff a b alo ahi blo bhi with
  | case1 alo ahi blo bhi lo hi hend hne =>
    obtain ⟨h1, h2, h3, h4, hpath⟩ := trim_path hlo hlo' hhi rfl rfl
    exact hpath _ (path_whole h1 h2 (h3.trans hhi) (h4.trans hhi'))
  | case2 alo ahi blo bhi lo hi hend hne =>
    obtain ⟨h1, h2, h3, h4, hpath⟩ := trim_path hlo hlo' hhi rfl rfl
    refine hpath _ ?_
    rw [← show lo.1 = hi.1 by omega, ← show lo.2 = hi.2 by omega]
    exact .done _ _
  | case3 alo ahi blo bhi lo hi hend as_ ae bs be hf ih1 ih2 =>
    obtain ⟨h1, h2, h3, h4, hpath⟩ := trim_path hlo hlo' hhi rfl rfl
    obtain ⟨n, hn, rfl, rfl, h5, h6, h7, h8, hagree⟩ := findLcs_spec hf
    have ha : hi.1 ≤ a.length := h3.trans hhi
    have hb : hi.2 ≤ b.length := h4.trans hhi'
    have hleft := ih1 h5 h7 (by omega) (by omega)
    have hright := ih2 h6 h8 ha hb
    have hrun := hagree.path (by omega)
    simpa using hpath _ ((hleft.append hrun).append hright)
  | case4 alo ahi blo bhi lo hi hend hf =>
    obtain ⟨h1, h2, h3, h4, hpath⟩ := trim_path hlo hlo' hhi rfl rfl
    exact hpath _ (path_whole h1 h2 (h3.trans hhi) (h4.trans hhi'))

end Alt.Diff.Histogram
