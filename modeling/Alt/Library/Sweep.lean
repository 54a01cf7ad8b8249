import Alt.Library.Graph

namespace Alt.Library

open List

/-!
# Library — sweeping a graph around a set of nodes

`sweep` is the worklist loop that leaves out a set of nodes: a node of the set is dropped
when it comes off the stack, and never pushed.  With a set that nothing leads out of, what it
sees is a difference of closures.

* `mem_sweep` — what was seen: reached from a start, and not in the set;
* `sweep_error` — a sweep fails only at such a node;
* `sweep_total` — it returns, on every finite type of nodes;
* `sweep_mono` — more fuel changes nothing.
-/

universe u v

variable {α : Type u} {ε : Type v} [DecidableEq α]

/-- The nodes seen, the last one first; `none` for a loop out of fuel. -/
def sweep (skip : α → Bool) (succ : α → Except ε (List α)) :
    Nat → List α → List α → Option (Except ε (List α))
  | _, [], seen => some (.ok seen)
  | 0, _ :: _, _ => none
  | fuel + 1, c :: stack, seen =>
    if skip c = true ∨ c ∈ seen then sweep skip succ fuel stack seen
    else
      match succ c with
      | .error e => some (.error e)
      | .ok next =>
        sweep skip succ fuel ((next.filter fun d => skip d = false).reverse ++ stack) (c :: seen)

variable {skip : α → Bool} {succ : α → Except ε (List α)} {starts stack seen : List α}

/-! ### What was seen -/

/-- What the loop keeps: the nodes seen are read, reachable and outside the set, and what they
    lead to is in the set, seen, or on the stack. -/
structure Sweeping (skip : α → Bool) (succ : α → Except ε (List α)) (starts stack seen : List α) :
    Prop where
  nodup : seen.Nodup
  outside : ∀ c ∈ seen, skip c = false
  reached : ∀ c, c ∈ seen ∨ c ∈ stack → ∃ s ∈ starts, Reach succ s c
  starts : ∀ s ∈ starts, skip s = true ∨ s ∈ seen ∨ s ∈ stack
  closed : ∀ c ∈ seen, ∃ next, succ c = .ok next ∧
    ∀ d ∈ next, skip d = true ∨ d ∈ seen ∨ d ∈ stack

omit [DecidableEq α] in
theorem Sweeping.init (h : ∀ s ∈ starts, skip s = true ∨ s ∈ stack) (hsub : stack ⊆ starts) :
    Sweeping skip succ starts stack [] where
  nodup := nodup_nil
  outside := fun _ hc => absurd hc not_mem_nil
  reached := fun c hc => ⟨c, hsub (hc.resolve_left not_mem_nil), .refl⟩
  starts := fun s hs => (h s hs).imp_right .inr
  closed := fun _ hc => absurd hc not_mem_nil

omit [DecidableEq α] in
/-- A node of the set, or one that was seen, is dropped from the stack. -/
theorem Sweeping.drop {c : α} (h : Sweeping skip succ starts (c :: stack) seen)
    (hc : skip c = true ∨ c ∈ seen) : Sweeping skip succ starts stack seen := by
  have hkeep : ∀ d, skip d = true ∨ d ∈ seen ∨ d ∈ c :: stack →
      skip d = true ∨ d ∈ seen ∨ d ∈ stack := by
    rintro d (hskip | hseen | hstack)
    · exact .inl hskip
    · exact .inr (.inl hseen)
    · rcases mem_cons.mp hstack with rfl | hmem
      · exact hc.imp_right .inl
      · exact .inr (.inr hmem)
  refine ⟨h.nodup, h.outside, fun d hd => h.reached d (hd.imp_right (mem_cons_of_mem c)),
    fun s hs => hkeep s (h.starts s hs), fun d hd => ?_⟩
  obtain ⟨next, hread, hnext⟩ := h.closed d hd
  exact ⟨next, hread, fun e he => hkeep e (hnext e he)⟩

omit [DecidableEq α] in
/-- A new node is read, and its successors outside the set go on the stack. -/
theorem Sweeping.visit {c : α} {next : List α} (h : Sweeping skip succ starts (c :: stack) seen)
    (hskip : skip c = false) (hc : c ∉ seen) (hread : succ c = .ok next) :
    Sweeping skip succ starts ((next.filter fun d => skip d = false).reverse ++ stack)
      (c :: seen) := by
  have hkeep : ∀ d, skip d = true ∨ d ∈ seen ∨ d ∈ c :: stack → skip d = true ∨ d ∈ c :: seen ∨
      d ∈ (next.filter fun d => skip d = false).reverse ++ stack := by
    rintro d (hskip | hseen | hstack)
    · exact .inl hskip
    · exact .inr (.inl (mem_cons_of_mem _ hseen))
    · rcases mem_cons.mp hstack with rfl | hmem
      · exact .inr (.inl mem_cons_self)
      · exact .inr (.inr (mem_append_right _ hmem))
  obtain ⟨s, hs, hreach⟩ := h.reached c (.inr mem_cons_self)
  refine ⟨nodup_cons.mpr ⟨hc, h.nodup⟩, ?_, ?_, fun s hs => hkeep s (h.starts s hs), ?_⟩
  · intro d hd
    rcases mem_cons.mp hd with rfl | hmem
    · exact hskip
    · exact h.outside d hmem
  · rintro d (hseen | hstack)
    · rcases mem_cons.mp hseen with rfl | hmem
      · exact ⟨s, hs, hreach⟩
      · exact h.reached d (.inl hmem)
    · rcases mem_append.mp hstack with hnew | hmem
      · have hd : d ∈ next := (mem_filter.mp (mem_reverse.mp hnew)).1
        exact ⟨s, hs, hreach.tail ⟨next, hread, hd⟩⟩
      · exact h.reached d (.inr (mem_cons_of_mem c hmem))
  · intro d hd
    rcases mem_cons.mp hd with rfl | hmem
    · refine ⟨next, hread, fun e he => ?_⟩
      cases hout : skip e with
      | true => exact .inl rfl
      | false =>
        refine .inr (.inr (mem_append_left _ (mem_reverse.mpr ?_)))
        exact mem_filter.mpr ⟨he, decide_eq_true hout⟩
    · obtain ⟨next', hread', hnext⟩ := h.closed d hmem
      exact ⟨next', hread', fun e he => hkeep e (hnext e he)⟩

/-- A sweep keeps the invariant to its end, or fails at a node it could reach. -/
theorem Sweeping.run {fuel : Nat} {result : Except ε (List α)}
    (h : Sweeping skip succ starts stack seen) (hrun : sweep skip succ fuel stack seen = some result) :
    (∀ seen', result = .ok seen' → Sweeping skip succ starts [] seen') ∧
    (∀ e, result = .error e →
      ∃ c, (∃ s ∈ starts, Reach succ s c) ∧ skip c = false ∧ succ c = .error e) := by
  fun_induction sweep skip succ fuel stack seen with
  | case1 fuel seen =>
    cases hrun
    refine ⟨fun seen' heq => ?_, fun e heq => (nomatch heq)⟩
    cases heq
    exact h
  | case2 => cases hrun
  | case3 fuel c stack seen hc ih => exact ih (h.drop hc) hrun
  | case4 fuel c stack seen hc e hread =>
    cases hrun
    refine ⟨fun seen' heq => (nomatch heq), fun e' heq => ?_⟩
    cases heq
    rw [not_or, Bool.not_eq_true] at hc
    exact ⟨c, h.reached c (.inr mem_cons_self), hc.1, hread⟩
  | case5 fuel c stack seen hc next hread ih =>
    rw [not_or, Bool.not_eq_true] at hc
    exact ih (h.visit hc.1 hc.2 hread) hrun

omit [DecidableEq α] in
/-- **What a sweep sees**: what can be reached and is not in the set, if nothing leads out of
    the set. -/
theorem Sweeping.mem_iff (h : Sweeping skip succ starts [] seen)
    (hskip : ∀ a b, Succ succ a b → skip a = true → skip b = true) {c : α} :
    c ∈ seen ↔ (∃ s ∈ starts, Reach succ s c) ∧ skip c = false := by
  refine ⟨fun hc => ⟨h.reached c (.inl hc), h.outside c hc⟩, ?_⟩
  rintro ⟨⟨s, hs, hreach⟩, hout⟩
  have hor : skip c = true ∨ c ∈ seen := by
    clear hout
    induction hreach with
    | refl => exact (h.starts s hs).imp_right fun hmem => hmem.resolve_right not_mem_nil
    | @tail b c _ hstep ih =>
      rcases ih with hb | hb
      · exact .inl (hskip b c hstep hb)
      · obtain ⟨next, hread, hnext⟩ := h.closed b hb
        obtain ⟨next', hread', hmem⟩ := hstep
        rw [hread] at hread'
        cases hread'
        exact (hnext c hmem).imp_right fun hmem => hmem.resolve_right not_mem_nil
  exact hor.resolve_left (by rw [hout]; exact Bool.false_ne_true)

/-! ### The loop returns -/

theorem sweep_mono {fuel fuel' : Nat} {result : Except ε (List α)}
    (hrun : sweep skip succ fuel stack seen = some result) (hle : fuel ≤ fuel') :
    sweep skip succ fuel' stack seen = some result := by
  fun_induction sweep skip succ fuel stack seen generalizing fuel' with
  | case1 fuel seen =>
    cases hrun
    cases fuel' <;> rfl
  | case2 => cases hrun
  | case3 fuel c stack seen hc ih =>
    obtain ⟨fuel', rfl⟩ := Nat.exists_eq_add_of_le' (Nat.le_trans (Nat.succ_pos fuel) hle)
    rw [sweep, if_pos hc]
    exact ih hrun (Nat.le_of_succ_le_succ hle)
  | case4 fuel c stack seen hc e hread =>
    obtain ⟨fuel', rfl⟩ := Nat.exists_eq_add_of_le' (Nat.le_trans (Nat.succ_pos fuel) hle)
    rw [sweep, if_neg hc, hread]
    exact hrun
  | case5 fuel c stack seen hc next hread ih =>
    obtain ⟨fuel', rfl⟩ := Nat.exists_eq_add_of_le' (Nat.le_trans (Nat.succ_pos fuel) hle)
    rw [sweep, if_neg hc, hread]
    exact ih hrun (Nat.le_of_succ_le_succ hle)

/-- The passes left: the stack, and the successors of what was not seen. -/
def passesLeft (succ : α → Except ε (List α)) (V : Finset α) (stack seen : List α) : Nat :=
  stack.length + ∑ c ∈ V.filter (· ∉ seen), degree succ c

theorem passesLeft_visit {V : Finset α} {c : α} (skip : α → Bool) (stack : List α) {next : List α}
    (hV : c ∈ V) (hc : c ∉ seen) (hread : succ c = .ok next) :
    passesLeft succ V ((next.filter fun d => skip d = false).reverse ++ stack) (c :: seen)
      < passesLeft succ V (c :: stack) seen := by
  have hmem : c ∈ V.filter (· ∉ seen) := Finset.mem_filter.mpr ⟨hV, hc⟩
  have hrest : V.filter (· ∉ c :: seen) = (V.filter (· ∉ seen)).erase c := by
    ext d
    simp only [mem_cons, not_or, Finset.mem_filter, Finset.mem_erase]
    tauto
  have hsum := Finset.add_sum_erase _ (degree succ) hmem
  have hdegree : degree succ c = next.length := by rw [degree, hread]
  have hle : (next.filter fun d => skip d = false).length ≤ next.length := length_filter_le ..
  simp only [passesLeft, length_append, length_reverse, length_cons, hrest]
  omega

theorem sweep_of_passesLeft {V : Finset α} (hV : ∀ c, c ∈ V) {fuel : Nat}
    (hfuel : passesLeft succ V stack seen ≤ fuel) :
    ∃ result, sweep skip succ fuel stack seen = some result := by
  fun_induction sweep skip succ fuel stack seen with
  | case1 fuel seen => exact ⟨_, rfl⟩
  | case2 c stack seen => simp [passesLeft] at hfuel
  | case3 fuel c stack seen hc ih =>
    refine ih ?_
    simp only [passesLeft, length_cons] at hfuel ⊢
    omega
  | case4 => exact ⟨_, rfl⟩
  | case5 fuel c stack seen hc next hread ih =>
    have hlt := passesLeft_visit skip stack (hV c) (fun hmem => hc (.inr hmem)) hread
    exact ih (by omega)

/-- **A sweep returns**, whatever it finds. -/
theorem sweep_total [Finite α] (skip : α → Bool) (succ : α → Except ε (List α)) (stack seen : List α) :
    ∃ bound result, ∀ fuel, bound ≤ fuel → sweep skip succ fuel stack seen = some result := by
  have := Fintype.ofFinite α
  have hfuel : passesLeft succ Finset.univ stack seen ≤ passesLeft succ Finset.univ stack seen :=
    Nat.le_refl _
  obtain ⟨result, hresult⟩ := sweep_of_passesLeft Finset.mem_univ hfuel
  exact ⟨_, result, fun fuel hle => sweep_mono hresult hle⟩

end Alt.Library
