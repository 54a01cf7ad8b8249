import Mathlib

namespace Alt.Library

open List

/-!
# Library — edit scripts between two lists

A script lists the regions of `a` that are replaced and what of `b` replaces them; what is in
no region is kept.  `Path a b i j es i' j'` is the walk it stands for, from position `(i, j)`
to `(i', j')` of the edit graph: a kept element steps on both sides, an edit jumps.  Paths
compose (`Path.append`), so a divide-and-conquer diff is correct when its parts are.

* `gaps` / `applyEdits` — the kept stretches of a side, and the list a script makes of `a`;
* `Path.applyEdits` — a path to the ends of both lists makes `b` of `a`;
* `Path.gaps` — what it keeps is the same on both sides;
* `keptPairs` — which positions are kept, and where they get; `Path.kept_same`: with what is there;
* `Path.cut` — a path cut at a position of `a` that no edit reaches over.
-/

/-- A half-open range of positions. -/
structure Range where
  start : Nat
  stop : Nat
  deriving DecidableEq, Repr

namespace Range

def isEmpty (r : Range) : Bool := r.stop ≤ r.start

def len (r : Range) : Nat := r.stop - r.start

end Range

/-- One changed region: what stood at `old` is replaced by what stands at `new`. -/
structure Edit where
  old : Range
  new : Range
  deriving DecidableEq, Repr

variable {α : Type}

/-- The elements of `l` at positions from `i` to `j`. -/
def slice (l : List α) (i j : Nat) : List α := (l.drop i).take (j - i)

section Slice

variable {l : List α} {i j k : Nat}

theorem length_slice (hij : i ≤ j) (hj : j ≤ l.length) : (slice l i j).length = j - i := by
  rw [slice, length_take, length_drop]
  omega

@[simp] theorem slice_self (l : List α) (i : Nat) : slice l i i = [] := by
  simp [slice]

theorem slice_append (hij : i ≤ j) (hjk : j ≤ k) : slice l i j ++ slice l j k = slice l i k := by
  have hdrop : l.drop j = (l.drop i).drop (j - i) := by
    rw [drop_drop]
    congr 1
    omega
  have htake : k - i = (j - i) + (k - j) := by omega
  rw [slice, slice, slice, hdrop, htake, take_add]

theorem slice_to_end (l : List α) (i : Nat) : slice l i l.length = l.drop i := by
  rw [slice, take_of_length_le (by rw [length_drop])]

theorem slice_append_drop (hij : i ≤ j) : slice l i j ++ l.drop j = l.drop i := by
  have hdrop : l.drop j = (l.drop i).drop (j - i) := by
    rw [drop_drop]
    congr 1
    omega
  rw [slice, hdrop, take_append_drop]

theorem slice_cons {x : α} (h : l[i]? = some x) (hij : i < j) :
    slice l i j = x :: slice l (i + 1) j := by
  obtain ⟨hlt, hx⟩ := List.getElem?_eq_some_iff.mp h
  have hlen : j - i = (j - (i + 1)) + 1 := by omega
  rw [slice, slice, drop_eq_getElem_cons hlt, hx, hlen, take_succ_cons]

end Slice

/-- The stretches of `l` that no edit touches, from position `i` on. -/
def gaps (l : List α) (side : Edit → Range) (i : Nat) : List Edit → List (List α)
  | [] => [l.drop i]
  | e :: es => slice l i (side e).start :: gaps l side (side e).stop es

/-- Replace every old range of `a` by its new range of `b`, from position `i` on. -/
def applyEdits (a b : List α) (i : Nat) : List Edit → List α
  | [] => a.drop i
  | e :: es => slice a i e.old.start ++ slice b e.new.start e.new.stop ++ applyEdits a b e.old.stop es

/-- A kept element is the head of the first gap. -/
theorem gaps_keep {l : List α} {side : Edit → Range} {i : Nat} {es : List Edit} {x : α}
    (h : l[i]? = some x) (hfirst : ∀ e ∈ es.head?, i < (side e).start) :
    gaps l side i es = (gaps l side (i + 1) es).modifyHead (x :: ·) := by
  cases es with
  | nil =>
    obtain ⟨hlt, hx⟩ := List.getElem?_eq_some_iff.mp h
    rw [gaps, gaps, drop_eq_getElem_cons hlt, hx]
    rfl
  | cons e es =>
    rw [gaps, gaps, slice_cons h (hfirst e rfl)]
    rfl

/-- How many elements a script adds, less those it takes away. -/
def delta (es : List Edit) : Int := (es.map fun e => (e.new.len : Int) - e.old.len).sum

/-- The pairs of positions between `(i, j)` and `(i', j')`, as far as both sides go. -/
def gapPairs (i j i' j' : Nat) : List (Nat × Nat) :=
  (List.range (min (i' - i) (j' - j))).map fun k => (i + k, j + k)

/-- The positions of `a` that are kept, each with where it is in `b`. -/
def keptPairs (i j : Nat) (es : List Edit) (i' j' : Nat) : List (Nat × Nat) :=
  match es with
  | [] => gapPairs i j i' j'
  | e :: es => gapPairs i j e.old.start e.new.start ++ keptPairs e.old.stop e.new.stop es i' j'

section Kept

variable {i j i' j' : Nat}

theorem gapPairs_eq_nil (h : ¬ (i < i' ∧ j < j')) : gapPairs i j i' j' = [] := by
  have hzero : min (i' - i) (j' - j) = 0 := by omega
  rw [gapPairs, hzero]
  rfl

theorem gapPairs_cons (hi : i < i') (hj : j < j') :
    gapPairs i j i' j' = (i, j) :: gapPairs (i + 1) (j + 1) i' j' := by
  have hlen : min (i' - i) (j' - j) = min (i' - (i + 1)) (j' - (j + 1)) + 1 := by omega
  rw [gapPairs, gapPairs, hlen, range_succ_eq_map, map_cons, map_map]
  congr 1
  refine map_congr_left fun k _ => ?_
  simp only [Function.comp_apply, Nat.succ_eq_add_one, Prod.mk.injEq]
  omega

end Kept

/-- The script leads from `(i, j)` to `(i', j')`. -/
inductive Path (a b : List α) : Nat → Nat → List Edit → Nat → Nat → Prop
  | done (i j : Nat) : Path a b i j [] i j
  | keep {i j i' j' : Nat} {es : List Edit} {x : α} :
      a[i]? = some x → b[j]? = some x → Path a b (i + 1) (j + 1) es i' j' → Path a b i j es i' j'
  | edit {i j i' j' : Nat} {e : Edit} {es : List Edit} :
      e.old.start = i → e.new.start = j → i ≤ e.old.stop → e.old.stop ≤ a.length →
      j ≤ e.new.stop → e.new.stop ≤ b.length → Path a b e.old.stop e.new.stop es i' j' →
      Path a b i j (e :: es) i' j'

namespace Path

variable {a b : List α} {i j i' j' i'' j'' : Nat} {es es' : List Edit}

theorem append (h : Path a b i j es i' j') (h' : Path a b i' j' es' i'' j'') :
    Path a b i j (es ++ es') i'' j'' := by
  induction h with
  | done => exact h'
  | keep ha hb _ ih => exact .keep ha hb (ih h')
  | edit ho hn hos hol hns hnl _ ih => exact .edit ho hn hos hol hns hnl (ih h')

/-- A stretch that is the same on both sides is kept. -/
theorem keeps {n : Nat} (h : ∀ k < n, ∃ x, a[i + k]? = some x ∧ b[j + k]? = some x) :
    Path a b i j [] (i + n) (j + n) := by
  induction n generalizing i j with
  | zero => exact .done i j
  | succ n ih =>
    obtain ⟨x, ha, hb⟩ := h 0 (Nat.succ_pos n)
    have hrest := @ih (i + 1) (j + 1) fun k hk => by
      have := h (k + 1) (by omega)
      rwa [show i + (k + 1) = i + 1 + k by omega, show j + (k + 1) = j + 1 + k by omega] at this
    rw [show i + 1 + n = i + (n + 1) by omega, show j + 1 + n = j + (n + 1) by omega] at hrest
    exact .keep ha hb hrest

/-- A path does not go back. -/
theorem le (h : Path a b i j es i' j') : i ≤ i' ∧ j ≤ j' := by
  induction h with
  | done => exact ⟨le_rfl, le_rfl⟩
  | keep _ _ _ ih => omega
  | edit _ _ _ _ _ _ _ ih => omega

/-- A path stays within the lists. -/
theorem le_length (h : Path a b i j es i' j') (hi : i ≤ a.length) (hj : j ≤ b.length) :
    i' ≤ a.length ∧ j' ≤ b.length := by
  induction h with
  | done => exact ⟨hi, hj⟩
  | keep ha hb _ ih =>
    obtain ⟨hlt, -⟩ := List.getElem?_eq_some_iff.mp ha
    obtain ⟨hlt', -⟩ := List.getElem?_eq_some_iff.mp hb
    exact ih hlt hlt'
  | edit _ _ _ hol _ hnl _ ih => exact ih hol hnl

/-- Every edit lies between the ends of its path, and its ranges are ranges. -/
theorem bounds (h : Path a b i j es i' j') : ∀ e ∈ es,
    (i ≤ e.old.start ∧ e.old.start ≤ e.old.stop ∧ e.old.stop ≤ i' ∧ e.old.stop ≤ a.length) ∧
    (j ≤ e.new.start ∧ e.new.start ≤ e.new.stop ∧ e.new.stop ≤ j' ∧ e.new.stop ≤ b.length) := by
  induction h with
  | done => intro e he; cases he
  | keep _ _ _ ih =>
    intro e he
    have := ih e he
    omega
  | edit ho hn hos hol hns hnl hrest ih =>
    intro e' he
    have hle := hrest.le
    rcases mem_cons.mp he with rfl | he
    · omega
    · have := ih e' he
      omega

/-- An edit of a path ends before the next one starts, on both sides by as much. -/
theorem pairwise (h : Path a b i j es i' j') : es.Pairwise fun e e' =>
    e.old.stop ≤ e'.old.start ∧ e.new.stop ≤ e'.new.start := by
  induction h with
  | done => exact .nil
  | keep _ _ _ ih => exact ih
  | edit _ _ _ _ _ _ hrest ih =>
    refine pairwise_cons.mpr ⟨fun e' he => ?_, ih⟩
    have := hrest.bounds e' he
    omega

/-- Between the start of a path and its first edit both sides have as much. -/
theorem first_gap {e : Edit} (h : Path a b i j (e :: es) i' j') :
    i ≤ e.old.start ∧ j ≤ e.new.start ∧ e.old.start - i = e.new.start - j := by
  generalize hes : e :: es = es' at h
  induction h with
  | done => cases hes
  | keep _ _ _ ih =>
    have := ih hes
    omega
  | edit ho hn =>
    cases hes
    omega

/-- Short of its next edit and of its end a path keeps what comes. -/
theorem next (h : Path a b i j es i' j') (hes : ∀ e ∈ es.head?, i < e.old.start) (hi : i < i') :
    ∃ x, a[i]? = some x ∧ b[j]? = some x ∧ Path a b (i + 1) (j + 1) es i' j' := by
  cases h with
  | done => omega
  | keep ha hb hrest => exact ⟨_, ha, hb, hrest⟩
  | edit ho hn hos hol hns hnl hrest =>
    have := hes _ rfl
    omega

/-- **A path to the ends makes `b` of `a`.** -/
theorem applyEdits (h : Path a b i j es i' j') (hi : i' = a.length) (hj : j' = b.length) :
    applyEdits a b i es = b.drop j := by
  induction h with
  | done i j =>
    subst hi hj
    rw [Library.applyEdits, drop_length, drop_length]
  | @keep i j i' j' es x ha hb hrest ih =>
    have htail := ih hi hj
    obtain ⟨hlt, hx⟩ := List.getElem?_eq_some_iff.mp ha
    obtain ⟨hlt', hx'⟩ := List.getElem?_eq_some_iff.mp hb
    rw [drop_eq_getElem_cons hlt', hx', ← htail]
    cases es with
    | nil => rw [Library.applyEdits, Library.applyEdits, drop_eq_getElem_cons hlt, hx]
    | cons e es =>
      obtain ⟨hle, -, -⟩ := hrest.first_gap
      rw [Library.applyEdits, Library.applyEdits, slice_cons ha (by omega)]
      rfl
  | edit ho hn hos hol hns hnl hrest ih =>
    subst ho hn
    rw [Library.applyEdits, slice_self, nil_append, ih hi hj, slice_append_drop hns]

/-- **What a path to the ends keeps** is the same on both sides. -/
theorem gaps (h : Path a b i j es i' j') (hi : i' = a.length) (hj : j' = b.length) :
    gaps a Edit.old i es = gaps b Edit.new j es := by
  induction h with
  | done i j =>
    subst hi hj
    rw [Library.gaps, Library.gaps, drop_length, drop_length]
  | @keep i j i' j' es x ha hb hrest ih =>
    have hfirst : ∀ e ∈ es.head?, i < e.old.start ∧ j < e.new.start := by
      intro e he
      cases es with
      | nil => cases he
      | cons e' es =>
        cases he
        obtain ⟨hle, hle', -⟩ := hrest.first_gap
        omega
    rw [gaps_keep ha fun e he => (hfirst e he).1, gaps_keep hb fun e he => (hfirst e he).2,
      ih hi hj]
  | edit ho hn hos hol hns hnl hrest ih =>
    subst ho hn
    rw [Library.gaps, Library.gaps, slice_self, slice_self, ih hi hj]

/-- A kept element in front is the first pair. -/
theorem keptPairs_keep (h : Path a b (i + 1) (j + 1) es i' j') :
    keptPairs i j es i' j' = (i, j) :: keptPairs (i + 1) (j + 1) es i' j' := by
  cases es with
  | nil =>
    have hle := h.le
    rw [keptPairs, keptPairs, gapPairs_cons (by omega) (by omega)]
  | cons e es =>
    obtain ⟨hle, hle', -⟩ := h.first_gap
    rw [keptPairs, keptPairs, gapPairs_cons (by omega) (by omega), cons_append]

/-- An edit in front is passed over. -/
theorem keptPairs_edit {e : Edit} (ho : e.old.start = i) :
    keptPairs i j (e :: es) i' j' = keptPairs e.old.stop e.new.stop es i' j' := by
  rw [keptPairs, gapPairs_eq_nil (by omega), nil_append]

/-- **What is kept is the same** on both sides. -/
theorem kept_same (h : Path a b i j es i' j') {p : Nat × Nat} (hp : p ∈ keptPairs i j es i' j') :
    ∃ x, a[p.1]? = some x ∧ b[p.2]? = some x := by
  induction h with
  | done i j => rw [keptPairs, gapPairs_eq_nil (by omega)] at hp; cases hp
  | @keep i j i' j' es x ha hb hrest ih =>
    rw [keptPairs_keep hrest, mem_cons] at hp
    rcases hp with rfl | hp
    · exact ⟨x, ha, hb⟩
    · exact ih hp
  | edit ho hn hos hol hns hnl hrest ih => exact ih (keptPairs_edit ho ▸ hp)

/-- A path can be cut at a position of `a` that no edit reaches over. -/
theorem cut {k : Nat} (h : Path a b i j (es ++ es') i' j') (hik : i ≤ k) (hki : k ≤ i')
    (hbefore : ∀ e ∈ es, e.old.stop ≤ k) (hafter : ∀ e ∈ es', k ≤ e.old.start) :
    ∃ m, Path a b i j es k m ∧ Path a b k m es' i' j' := by
  generalize hall : es ++ es' = all at h
  induction h generalizing es with
  | done i j =>
    obtain ⟨rfl, rfl⟩ := append_eq_nil_iff.mp hall
    obtain rfl : k = i := by omega
    exact ⟨j, .done k j, .done k j⟩
  | @keep i j i' j' all x ha hb hrest ih =>
    by_cases hk : k = i
    · -- the edits before `k` would start behind it
      subst hk
      cases es with
      | nil =>
        rw [nil_append] at hall
        subst hall
        exact ⟨j, .done k j, .keep ha hb hrest⟩
      | cons e es =>
        have hstop := hbefore e mem_cons_self
        have hstart := (hrest.bounds e (hall ▸ mem_cons_self)).1
        omega
    · obtain ⟨m, hleft, hright⟩ := ih (by omega) hki hbefore hall
      exact ⟨m, .keep ha hb hleft, hright⟩
  | @edit i j i' j' e all ho hn hos hol hns hnl hrest ih =>
    cases es with
    | nil =>
      rw [nil_append] at hall
      subst hall
      have hstart := hafter e mem_cons_self
      obtain rfl : k = i := by omega
      exact ⟨j, .done k j, .edit ho hn hos hol hns hnl hrest⟩
    | cons e' es =>
      obtain ⟨rfl, rfl⟩ := List.cons.inj hall
      have hstop := hbefore e' mem_cons_self
      obtain ⟨m, hleft, hright⟩ :=
        ih hstop hki (fun e he => hbefore e (mem_cons_of_mem _ he)) rfl
      exact ⟨m, .edit ho hn hos hol hns hnl hleft, hright⟩

/-- A path through an edit is a path to it and a path from it. -/
theorem split {e : Edit} (h : Path a b i j (es ++ e :: es') i' j') :
    Path a b i j es e.old.start e.new.start ∧
      Path a b e.old.start e.new.start [e] e.old.stop e.new.stop ∧
      Path a b e.old.stop e.new.stop es' i' j' := by
  generalize hall : es ++ e :: es' = all at h
  induction h generalizing es with
  | done => simp at hall
  | keep ha hb _ ih =>
    obtain ⟨hfront, hedit, hback⟩ := ih hall
    exact ⟨.keep ha hb hfront, hedit, hback⟩
  | @edit i j i' j' e' all ho hn hos hol hns hnl hrest ih =>
    cases es with
    | nil =>
      obtain ⟨rfl, rfl⟩ := List.cons.inj hall
      subst ho hn
      exact ⟨.done _ _, .edit rfl rfl hos hol hns hnl (.done _ _), hrest⟩
    | cons e'' es =>
      obtain ⟨rfl, rfl⟩ := List.cons.inj hall
      obtain ⟨hfront, hedit, hback⟩ := ih rfl
      exact ⟨.edit ho hn hos hol hns hnl hfront, hedit, hback⟩

/-- Two edits with nothing kept between them are as good as one over both. -/
theorem merge {e e' : Edit} (h : Path a b i j (es ++ e :: e' :: es') i' j')
    (htouch : e'.old.start ≤ e.old.stop) :
    Path a b i j (es ++ ⟨⟨e.old.start, e'.old.stop⟩, ⟨e.new.start, e'.new.stop⟩⟩ :: es') i' j' := by
  obtain ⟨hfront, hfirst, hrest⟩ := h.split
  obtain ⟨-, hsecond, hback⟩ := @split _ a b _ _ i' j' [] es' e' hrest
  have h1 := hfirst.bounds e mem_cons_self
  have h2 := hsecond.bounds e' mem_cons_self
  have hgap := hrest.first_gap
  refine hfront.append (.edit rfl rfl ?_ ?_ ?_ ?_ hback)
  all_goals
    dsimp only
    omega

/-- How far a path gets on the new side. -/
theorem delta (h : Path a b i j es i' j') : (j' : Int) = j + ((i' - i : Nat) : Int) + delta es := by
  induction h with
  | done => simp [Library.delta]
  | keep _ _ hrest ih =>
    have := hrest.le
    omega
  | @edit i j i' j' e es ho hn hos hol hns hnl hrest ih =>
    have := hrest.le
    have hcons : Library.delta (e :: es) = ((e.new.len : Int) - e.old.len) + Library.delta es := by
      simp [Library.delta]
    rw [hcons, ih, Range.len, Range.len]
    omega

/-- A path on labels is a path on what is labelled, if equal labels mean equal things. -/
theorem relabel {β : Type} {p q : List β} (h : Path p q i j es i' j')
    (ha : a.length = p.length) (hb : b.length = q.length)
    (hsame : ∀ (i j : Nat) (x : β), p[i]? = some x → q[j]? = some x → ∃ y, a[i]? = some y ∧ b[j]? = some y) :
    Path a b i j es i' j' := by
  induction h with
  | done i j => exact .done i j
  | keep hp hq _ ih =>
    obtain ⟨y, hya, hyb⟩ := hsame _ _ _ hp hq
    exact .keep hya hyb ih
  | edit ho hn hos hol hns hnl _ ih =>
    exact .edit ho hn hos (ha ▸ hol) hns (hb ▸ hnl) ih

end Path

end Alt.Library
