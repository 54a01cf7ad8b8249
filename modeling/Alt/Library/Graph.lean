import Mathlib.Algebra.Order.BigOperators.Group.Finset
import Mathlib.Data.Fintype.EquivFin

namespace Alt.Library

open List

/-!
# Library — exploring a graph, and its best common ancestors

A graph is given by a partial successor function.  `explore` is the worklist loop: it takes a
node from the stack, reads its successors once, and goes on until the stack is empty.

* `explored_of_explore` — what it returns is what can be reached, each node once;
* `explore_total` — it returns, on every finite closed set of readable nodes;
* `Best` — the common ancestors that no other one lies above; `best_eq_iff` says when one
  of two nodes is the only one, `shrinks_of_best` why bases of bases get smaller.
-/

universe u v

variable {α : Type u} {ε : Type v}

/-! ### The worklist loop -/

/-- `a` can be read and has successor `b`. -/
def Succ (succ : α → Except ε (List α)) (a b : α) : Prop := ∃ next, succ a = .ok next ∧ b ∈ next

/-- `b` can be reached from `a`. -/
abbrev Reach (succ : α → Except ε (List α)) : α → α → Prop := Relation.ReflTransGen (Succ succ)

/-- `b` can be reached from `a` in at least one step. -/
abbrev Below (succ : α → Except ε (List α)) : α → α → Prop := Relation.TransGen (Succ succ)

section Explore

variable [DecidableEq α]

/-- The nodes seen, each with its successors; `out` is the error of a loop out of fuel. -/
def explore (out : ε) (succ : α → Except ε (List α)) :
    Nat → List α → List (α × List α) → Except ε (List (α × List α))
  | _, [], seen => .ok seen
  | 0, _ :: _, _ => .error out
  | fuel + 1, c :: stack, seen =>
    if c ∈ seen.map Prod.fst then explore out succ fuel stack seen
    else
      match succ c with
      | .error e => .error e
      | .ok next =>
        explore out succ fuel ((next.filter (· ∉ seen.map Prod.fst)).reverse ++ stack)
          ((c, next) :: seen)

variable {out : ε} {succ : α → Except ε (List α)} {starts : List α}

/-- What the loop keeps: the nodes seen are read and reachable, and what they lead to is seen
    or on the stack. -/
structure Exploring (succ : α → Except ε (List α)) (starts stack : List α)
    (seen : List (α × List α)) : Prop where
  nodup : (seen.map Prod.fst).Nodup
  read : ∀ e ∈ seen, succ e.1 = .ok e.2
  reached : ∀ c, c ∈ seen.map Prod.fst ∨ c ∈ stack → ∃ s ∈ starts, Reach succ s c
  starts : ∀ s ∈ starts, s ∈ seen.map Prod.fst ∨ s ∈ stack
  closed : ∀ e ∈ seen, ∀ d ∈ e.2, d ∈ seen.map Prod.fst ∨ d ∈ stack

/-- What an exploration returns. -/
structure Explored (succ : α → Except ε (List α)) (starts : List α)
    (seen : List (α × List α)) : Prop where
  nodup : (seen.map Prod.fst).Nodup
  read : ∀ e ∈ seen, succ e.1 = .ok e.2
  mem_iff : ∀ c, c ∈ seen.map Prod.fst ↔ ∃ s ∈ starts, Reach succ s c

omit [DecidableEq α] in
theorem Exploring.init : Exploring succ starts starts [] where
  nodup := nodup_nil
  read := fun _ he => absurd he not_mem_nil
  reached := fun c hc => ⟨c, hc.resolve_left not_mem_nil, .refl⟩
  starts := fun _ hs => .inr hs
  closed := fun _ he => absurd he not_mem_nil

omit [DecidableEq α] in
variable {c : α} {stack : List α} {seen : List (α × List α)}

/-- A node that was seen is dropped from the stack. -/
theorem Exploring.drop (h : Exploring succ starts (c :: stack) seen) (hc : c ∈ seen.map Prod.fst) :
    Exploring succ starts stack seen where
  nodup := h.nodup
  read := h.read
  reached := fun d hd => h.reached d (hd.imp_right (mem_cons_of_mem c))
  starts := fun s hs => (h.starts s hs).elim .inl fun hmem =>
    (mem_cons.mp hmem).elim (fun heq => .inl (heq ▸ hc)) .inr
  closed := fun e he d hd => (h.closed e he d hd).elim .inl fun hmem =>
    (mem_cons.mp hmem).elim (fun heq => .inl (heq ▸ hc)) .inr

/-- A new node is read, and its successors go on the stack. -/
theorem Exploring.visit {next : List α} (h : Exploring succ starts (c :: stack) seen)
    (hc : c ∉ seen.map Prod.fst) (hread : succ c = .ok next) :
    Exploring succ starts ((next.filter (· ∉ seen.map Prod.fst)).reverse ++ stack)
      ((c, next) :: seen) := by
  have hkeep : ∀ d, d ∈ seen.map Prod.fst ∨ d ∈ c :: stack →
      d ∈ ((c, next) :: seen).map Prod.fst ∨
        d ∈ (next.filter (· ∉ seen.map Prod.fst)).reverse ++ stack := by
    rintro d (hseen | hstack)
    · exact .inl (mem_cons_of_mem _ hseen)
    · rcases mem_cons.mp hstack with rfl | hmem
      · exact .inl mem_cons_self
      · exact .inr (mem_append_right _ hmem)
  obtain ⟨s, hs, hreach⟩ := h.reached c (.inr mem_cons_self)
  refine ⟨nodup_cons.mpr ⟨hc, h.nodup⟩, ?_, ?_, fun s hs => hkeep s (h.starts s hs), ?_⟩
  · intro e he
    rcases mem_cons.mp he with rfl | hmem
    · exact hread
    · exact h.read e hmem
  · rintro d (hseen | hstack)
    · rcases mem_cons.mp hseen with rfl | hmem
      · exact ⟨s, hs, hreach⟩
      · exact h.reached d (.inl hmem)
    · rcases mem_append.mp hstack with hnew | hmem
      · have hd : d ∈ next := (mem_filter.mp (mem_reverse.mp hnew)).1
        exact ⟨s, hs, hreach.tail ⟨next, hread, hd⟩⟩
      · exact h.reached d (.inr (mem_cons_of_mem c hmem))
  · intro e he d hd
    rcases mem_cons.mp he with rfl | hmem
    · by_cases hseen : d ∈ seen.map Prod.fst
      · exact .inl (mem_cons_of_mem _ hseen)
      · refine .inr (mem_append_left _ (mem_reverse.mpr ?_))
        exact mem_filter.mpr ⟨hd, decide_eq_true hseen⟩
    · exact hkeep d (h.closed e hmem d hd)

omit [DecidableEq α] in
/-- With an empty stack, what was seen is closed. -/
theorem Exploring.explored (h : Exploring succ starts [] seen) :
    Explored succ starts seen := by
  refine ⟨h.nodup, h.read, fun c => ⟨fun hc => h.reached c (.inl hc), ?_⟩⟩
  rintro ⟨s, hs, hreach⟩
  induction hreach with
  | refl => exact (h.starts s hs).resolve_right not_mem_nil
  | tail _ hstep ih =>
    obtain ⟨next, hread, hmem⟩ := hstep
    obtain ⟨e, he, heq⟩ := mem_map.mp ih
    have hnext : e.2 = next := by
      have hok := h.read e he
      rw [heq, hread] at hok
      exact (Except.ok.inj hok).symm
    exact (h.closed e he _ (hnext ▸ hmem)).resolve_right not_mem_nil

variable {fuel : Nat}

theorem Exploring.explore {result : List (α × List α)} (h : Exploring succ starts stack seen)
    (hrun : explore out succ fuel stack seen = .ok result) : Explored succ starts result := by
  fun_induction Alt.Library.explore out succ fuel stack seen with
  | case1 fuel seen =>
    cases hrun
    exact h.explored
  | case2 => cases hrun
  | case3 fuel c stack seen hc ih => exact ih (h.drop hc) hrun
  | case4 => cases hrun
  | case5 fuel c stack seen hc next hread ih => exact ih (h.visit hc hread) hrun

/-- **An exploration is exact.** It returns each reachable node once, with its successors. -/
theorem explored_of_explore {result : List (α × List α)}
    (h : explore out succ fuel starts [] = .ok result) : Explored succ starts result :=
  Exploring.init.explore h

/-! ### The loop returns -/

/-- A finite set of readable nodes that leads nowhere else. -/
def Closed (succ : α → Except ε (List α)) (V : Finset α) : Prop :=
  ∀ c ∈ V, ∃ next, succ c = .ok next ∧ ∀ d ∈ next, d ∈ V

omit [DecidableEq α] in
theorem Closed.reach {V : Finset α} (h : Closed succ V) {a b : α} (ha : a ∈ V)
    (hab : Reach succ a b) : b ∈ V := by
  induction hab with
  | refl => exact ha
  | tail _ hstep ih =>
    obtain ⟨next, hread, hmem⟩ := hstep
    obtain ⟨next', hread', hall⟩ := h _ ih
    rw [hread] at hread'
    cases hread'
    exact hall _ hmem

/-- How many successors a node has. -/
def degree (succ : α → Except ε (List α)) (c : α) : Nat :=
  match succ c with
  | .ok next => next.length
  | .error _ => 0

/-- The steps left: the stack, and the successors of what was not seen. -/
def stepsLeft (succ : α → Except ε (List α)) (V : Finset α) (stack : List α)
    (seen : List (α × List α)) : Nat :=
  stack.length + ∑ c ∈ V.filter (· ∉ seen.map Prod.fst), degree succ c

theorem stepsLeft_visit {V : Finset α} (stack : List α) {next : List α} (hV : c ∈ V)
    (hc : c ∉ seen.map Prod.fst) (hread : succ c = .ok next) :
    stepsLeft succ V ((next.filter (· ∉ seen.map Prod.fst)).reverse ++ stack)
      ((c, next) :: seen) < stepsLeft succ V (c :: stack) seen := by
  have hmem : c ∈ V.filter (· ∉ seen.map Prod.fst) := Finset.mem_filter.mpr ⟨hV, hc⟩
  have hrest : V.filter (· ∉ ((c, next) :: seen).map Prod.fst) =
      (V.filter (· ∉ seen.map Prod.fst)).erase c := by
    ext d
    simp only [map_cons, mem_cons, not_or, Finset.mem_filter, Finset.mem_erase]
    tauto
  have hsum := Finset.add_sum_erase _ (degree succ) hmem
  have hdegree : degree succ c = next.length := by rw [degree, hread]
  have hle : (next.filter (· ∉ seen.map Prod.fst)).length ≤ next.length := length_filter_le ..
  simp only [stepsLeft, length_append, length_reverse, length_cons, hrest]
  omega

theorem explore_of_stepsLeft {V : Finset α} (hclosed : Closed succ V)
    (hstack : ∀ c ∈ stack, c ∈ V) (hfuel : stepsLeft succ V stack seen ≤ fuel) :
    ∃ result, explore out succ fuel stack seen = .ok result := by
  fun_induction explore out succ fuel stack seen with
  | case1 fuel seen => exact ⟨seen, rfl⟩
  | case2 c stack seen => simp [stepsLeft] at hfuel
  | case3 fuel c stack seen hc ih =>
    refine ih (fun d hd => hstack d (mem_cons_of_mem c hd)) ?_
    simp only [stepsLeft, length_cons] at hfuel ⊢
    omega
  | case4 fuel c stack seen hc e hread =>
    obtain ⟨next, hread', -⟩ := hclosed c (hstack c mem_cons_self)
    rw [hread] at hread'
    cases hread'
  | case5 fuel c stack seen hc next hread ih =>
    have hV := hstack c mem_cons_self
    refine ih ?_ ?_
    · intro d hd
      rcases mem_append.mp hd with hnew | hmem
      · obtain ⟨next', hread', hall⟩ := hclosed c hV
        rw [hread] at hread'
        cases hread'
        exact hall d (mem_filter.mp (mem_reverse.mp hnew)).1
      · exact hstack d (mem_cons_of_mem c hmem)
    · have hlt := stepsLeft_visit stack hV hc hread
      omega

/-- The fuel that any exploration inside `V` needs, for each start. -/
def exploreBound (succ : α → Except ε (List α)) (V : Finset α) : Nat := ∑ c ∈ V, degree succ c

/-- **An exploration returns**, given fuel for its starts and the edges of a closed set. -/
theorem explore_total {V : Finset α} (hclosed : Closed succ V) (hstarts : ∀ s ∈ starts, s ∈ V)
    (hfuel : starts.length + exploreBound succ V ≤ fuel) :
    ∃ result, explore out succ fuel starts [] = .ok result := by
  refine explore_of_stepsLeft hclosed hstarts ?_
  simpa [stepsLeft, exploreBound] using hfuel

end Explore

/-- The loop fails for want of fuel, or as a node cannot be read. -/
theorem explore_error [DecidableEq α] {out e : ε} {succ : α → Except ε (List α)} {fuel : Nat}
    {stack : List α} {seen : List (α × List α)} (h : explore out succ fuel stack seen = .error e) :
    e = out ∨ ∃ c, succ c = .error e := by
  fun_induction explore out succ fuel stack seen with
  | case1 => cases h
  | case2 =>
    cases h
    exact .inl rfl
  | case3 fuel c stack seen hc ih => exact ih h
  | case4 fuel c stack seen hc e' hread =>
    cases h
    exact .inr ⟨c, hread⟩
  | case5 fuel c stack seen hc next hread ih => exact ih h

/-! ### Acyclic graphs -/

/-- Of finitely many nodes of an acyclic graph, one lies below no other. -/
theorem exists_lowest {succ : α → Except ε (List α)} {S : Finset α} (hS : S.Nonempty)
    (hacyclic : ∀ c ∈ S, ¬Below succ c c) : ∃ c ∈ S, ∀ d ∈ S, ¬Below succ c d := by
  have htrans : IsTrans S fun a b : S => Below succ b.1 a.1 :=
    ⟨fun _ _ _ hab hbc => hbc.trans hab⟩
  have hirrefl : Std.Irrefl fun a b : S => Below succ b.1 a.1 := ⟨fun a => hacyclic a.1 a.2⟩
  obtain ⟨c₀, hc₀⟩ := hS
  obtain ⟨c, -, hmin⟩ := (Finite.wellFounded_of_trans_of_irrefl
    fun a b : S => Below succ b.1 a.1).has_min Set.univ ⟨⟨c₀, hc₀⟩, Set.mem_univ _⟩
  exact ⟨c.1, c.2, fun d hd => hmin ⟨d, hd⟩ (Set.mem_univ _)⟩

/-! ### Best common ancestors -/

section Best

variable {succ : α → Except ε (List α)} {A B : List α}

/-- `c` can be reached from `A` and from `B`. -/
def Common (succ : α → Except ε (List α)) (A B : List α) (c : α) : Prop :=
  (∃ a ∈ A, Reach succ a c) ∧ ∃ b ∈ B, Reach succ b c

/-- A common node that lies below no other common node. -/
def Best (succ : α → Except ε (List α)) (A B : List α) (c : α) : Prop :=
  Common succ A B c ∧ ∀ d, Common succ A B d → ¬Below succ d c

variable {c : α}

/-- No best node lies below another. -/
theorem Best.not_below {d : α} (hc : Best succ A B c) (hd : Best succ A B d) :
    ¬Below succ c d := hd.2 c hc.1

/-- Lying below a node is being reached from one of its successors. -/
theorem below_iff {d : α} :
    Below succ d c ↔ ∃ next, succ d = .ok next ∧ ∃ p ∈ next, Reach succ p c := by
  rw [Below, Relation.TransGen.head'_iff]
  constructor
  · rintro ⟨p, ⟨next, hread, hp⟩, hreach⟩
    exact ⟨next, hread, p, hp, hreach⟩
  · rintro ⟨next, hread, p, hp, hreach⟩
    exact ⟨p, ⟨next, hread, hp⟩, hreach⟩

theorem common_of_reach {a b : α} (h : Reach succ a b) : Common succ [a] [b] b :=
  ⟨⟨a, mem_singleton_self a, h⟩, b, mem_singleton_self b, .refl⟩

theorem Common.symm (h : Common succ A B c) : Common succ B A c := ⟨h.2, h.1⟩

theorem best_comm : Best succ A B c ↔ Best succ B A c :=
  ⟨fun h => ⟨h.1.symm, fun d hd => h.2 d hd.symm⟩, fun h => ⟨h.1.symm, fun d hd => h.2 d hd.symm⟩⟩

/-- **The only best node.** One of two nodes is their only best common node exactly when the
    other reaches it. -/
theorem best_eq_iff {a b : α} (hacyclic : ¬Below succ b b) :
    (∀ c, Best succ [a] [b] c ↔ c = b) ↔ Reach succ a b := by
  constructor
  · intro h
    obtain ⟨a', ha', hreach⟩ := ((h b).mpr rfl).1.1
    rwa [mem_singleton.mp ha'] at hreach
  · intro hab c
    constructor
    · rintro ⟨⟨-, b', hb', hbc⟩, hbest⟩
      rw [mem_singleton.mp hb'] at hbc
      rcases Relation.reflTransGen_iff_eq_or_transGen.mp hbc with rfl | hbelow
      · rfl
      · exact absurd hbelow (hbest b (common_of_reach hab))
    · rintro rfl
      refine ⟨common_of_reach hab, fun d hd hbelow => hacyclic ?_⟩
      obtain ⟨-, b', hb', hbd⟩ := hd
      rw [mem_singleton.mp hb'] at hbd
      exact Relation.TransGen.trans_right hbd hbelow

/-- A node no list reaches back to: the best common nodes of it and nodes it is not below lie
    below it. -/
theorem Best.below {merged : List α} {next : α} (hnot : ∀ m ∈ merged, ¬Below succ m next)
    (hne : next ∉ merged) (h : Best succ merged [next] c) : Below succ next c := by
  obtain ⟨⟨⟨m, hm, hmc⟩, n, hn, hnc⟩, -⟩ := h
  rw [mem_singleton.mp hn] at hnc
  rcases Relation.reflTransGen_iff_eq_or_transGen.mp hnc with rfl | hbelow
  · rcases Relation.reflTransGen_iff_eq_or_transGen.mp hmc with rfl | hbelow'
    · exact absurd hm hne
    · exact absurd hbelow' (hnot m hm)
  · exact hbelow

/-- What can be reached from `starts` inside `V`. -/
noncomputable def reached (succ : α → Except ε (List α)) (V : Finset α) (starts : List α) :
    Finset α :=
  open Classical in V.filter fun c => ∃ s ∈ starts, Reach succ s c

theorem mem_reached {V : Finset α} {starts : List α} :
    c ∈ reached succ V starts ↔ c ∈ V ∧ ∃ s ∈ starts, Reach succ s c := by
  classical
  rw [reached, Finset.mem_filter]

/-- **Bases of bases get smaller.** Nodes that all lie below one of `starts` reach less. -/
theorem shrinks_of_below {V : Finset α} {starts inner : List α} {next : α} (hV : next ∈ V)
    (hnext : next ∈ starts) (hacyclic : ¬Below succ next next)
    (hbelow : ∀ c ∈ inner, Below succ next c) :
    (reached succ V inner).card < (reached succ V starts).card := by
  refine Finset.card_lt_card (Finset.ssubset_iff_of_subset ?_ |>.mpr ⟨next, ?_, ?_⟩)
  · intro d hd
    obtain ⟨hdV, c, hc, hcd⟩ := mem_reached.mp hd
    exact mem_reached.mpr ⟨hdV, next, hnext, (hbelow c hc).to_reflTransGen.trans hcd⟩
  · exact mem_reached.mpr ⟨hV, next, hnext, .refl⟩
  · intro hmem
    obtain ⟨-, c, hc, hcn⟩ := mem_reached.mp hmem
    exact hacyclic (Relation.TransGen.trans_left (hbelow c hc) hcn)

end Best

/-! ### Graphs that agree on a closed set -/

section Agree

variable {succ succ' : α → Except ε (List α)} {V : Finset α}

theorem Closed.congr (h : Closed succ V) (hagree : ∀ c ∈ V, succ' c = succ c) : Closed succ' V := by
  intro c hc
  rw [hagree c hc]
  exact h c hc

theorem exploreBound_congr (hagree : ∀ c ∈ V, succ' c = succ c) :
    exploreBound succ' V = exploreBound succ V :=
  Finset.sum_congr rfl fun c hc => by rw [degree, degree, hagree c hc]

variable {a b : α}

theorem Reach.congr (h : Closed succ V) (hagree : ∀ c ∈ V, succ' c = succ c) (ha : a ∈ V)
    (hab : Reach succ a b) : Reach succ' a b := by
  induction hab with
  | refl => exact .refl
  | tail hreach hstep ih =>
    obtain ⟨next, hread, hmem⟩ := hstep
    exact ih.tail ⟨next, by rw [hagree _ (h.reach ha hreach), hread], hmem⟩

theorem reach_congr (h : Closed succ V) (hagree : ∀ c ∈ V, succ' c = succ c) (ha : a ∈ V) :
    Reach succ' a b ↔ Reach succ a b :=
  ⟨Reach.congr (h.congr hagree) (fun c hc => (hagree c hc).symm) ha, Reach.congr h hagree ha⟩

theorem below_congr (h : Closed succ V) (hagree : ∀ c ∈ V, succ' c = succ c) (ha : a ∈ V) :
    Below succ' a b ↔ Below succ a b := by
  rw [below_iff, below_iff, hagree a ha]
  obtain ⟨next, hread, hall⟩ := h a ha
  simp only [hread, Except.ok.injEq, exists_eq_left']
  exact exists_congr fun p => and_congr_right fun hp => reach_congr h hagree (hall p hp)

/-- Best common nodes are the same in two graphs that agree on a closed set. -/
theorem best_congr (h : Closed succ V) (hagree : ∀ c ∈ V, succ' c = succ c) {A B : List α}
    (hA : ∀ a ∈ A, a ∈ V) (hB : ∀ b ∈ B, b ∈ V) {c : α} :
    Best succ' A B c ↔ Best succ A B c := by
  have hcommon : ∀ d, Common succ' A B d ↔ Common succ A B d := fun d =>
    and_congr (exists_congr fun a => and_congr_right fun ha => reach_congr h hagree (hA a ha))
      (exists_congr fun b => and_congr_right fun hb => reach_congr h hagree (hB b hb))
  rw [Best, Best, hcommon]
  refine and_congr_right fun _ => forall_congr' fun d => ?_
  rw [hcommon]
  refine imp_congr_right fun hd => not_congr ?_
  obtain ⟨⟨a, ha, hreach⟩, -⟩ := hd
  exact below_congr h hagree (h.reach (hA a ha) hreach)

end Agree

end Alt.Library
