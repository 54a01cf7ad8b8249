import Mathlib.Data.List.Forall2
import Mathlib.Order.Basic

namespace Alt.Library

open List

/-!
# Library — programs over a growing world

A program reads and changes a state and may fail; what it changed before it failed stays
changed (`EStateM`).  A relation `Shows s w` says that the state holds what the abstract
world `w` says; worlds grow.

* `Grows Shows w m Q` — from any state that shows `w`, the program leaves a state that shows
  a larger world, also when it fails, and what it returns satisfies `Q` there;
* `Yields Shows w m a` — from any state that shows `w`, the program returns `a`, and the
  state still shows `w`.

Both have one rule for each way programs are put together, so a proof about a program
follows its text and never looks at the state.
-/

/-- The state a program leaves. -/
def leaves {ε σ α : Type} : EStateM.Result ε σ α → σ
  | .ok _ s => s
  | .error _ s => s

/-- A program that fails when `x` does, and changes nothing. -/
def fromExcept {ε σ α : Type} : Except ε α → EStateM ε σ α
  | .ok a => fun s => .ok a s
  | .error e => fun s => .error e s

/-- What fails nowhere, step by step. -/
theorem bind_eq_ok {ε α β : Type} {x : Except ε α} {f : α → Except ε β} {b : β}
    (hb : (x >>= f) = .ok b) : ∃ a, x = .ok a ∧ f a = .ok b := by
  cases x with
  | error e => cases hb
  | ok a => exact ⟨a, rfl, hb⟩

/-- What returns, as a test can tell. -/
theorem ok_of_toOption {ε α : Type} {x : Except ε α} {a : α} (h : x.toOption = some a) :
    x = .ok a := by
  cases x with
  | error e => cases h
  | ok a' =>
    cases h
    rfl

section Run

variable {ε σ α β : Type} {s s' : σ}

/-- A program that starts by reading the state. -/
theorem run_get {f : σ → EStateM ε σ β} : (MonadState.get >>= f) s = f s s := rfl

variable {f : α → EStateM ε σ β}

theorem run_bind_ok {m : EStateM ε σ α} {a : α} (h : m s = .ok a s') :
    (m >>= f) s = f a s' := by
  simp only [Bind.bind, EStateM.bind, h]

theorem run_bind_error {m : EStateM ε σ α} {e : ε} (h : m s = .error e s') :
    (m >>= f) s = .error e s' := by
  simp only [Bind.bind, EStateM.bind, h]

theorem run_lift {a : α} : (fromExcept (.ok a) >>= f) s = f a s := rfl

/-- A loop for its effect, each round of which returns. -/
theorem run_forM {f : α → EStateM ε σ PUnit} (xs : List α) (I : List α → σ → Prop)
    (hstep : ∀ done x rest s, xs = done ++ x :: rest → I done s →
      ∃ s', f x s = .ok ⟨⟩ s' ∧ I (done ++ [x]) s')
    (h : I [] s) : ∃ s', xs.forM f s = .ok ⟨⟩ s' ∧ I xs s' := by
  have hloop : ∀ rest done s, xs = done ++ rest → I done s →
      ∃ s', rest.forM f s = .ok ⟨⟩ s' ∧ I xs s' := by
    intro rest
    induction rest with
    | nil =>
      intro done s hxs hi
      rw [append_nil] at hxs
      exact ⟨s, rfl, hxs ▸ hi⟩
    | cons x rest ih =>
      intro done s hxs hi
      obtain ⟨s₁, hrun, hi₁⟩ := hstep done x rest s hxs hi
      obtain ⟨s', hrest, hi'⟩ := ih (done ++ [x]) s₁ (by rw [hxs, append_assoc]; rfl) hi₁
      exact ⟨s', (run_bind_ok hrun).trans hrest, hi'⟩
  exact hloop xs [] s rfl h

/-- A program for each element that returns what it should. -/
theorem run_mapM {g : α → β} (xs : List α) (I : List α → σ → Prop)
    (hstep : ∀ done x rest s, xs = done ++ x :: rest → I done s → ∃ s', f x s = .ok (g x) s' ∧ I (done ++ [x]) s')
    (h : I [] s) : ∃ s', xs.mapM f s = .ok (xs.map g) s' ∧ I xs s' := by
  have hloop : ∀ rest done s, xs = done ++ rest → I done s →
      ∃ s', rest.mapM f s = .ok (rest.map g) s' ∧ I xs s' := by
    intro rest
    induction rest with
    | nil =>
      intro done s hxs hi
      rw [append_nil] at hxs
      rw [mapM_nil]
      exact ⟨s, rfl, hxs ▸ hi⟩
    | cons x rest ih =>
      intro done s hxs hi
      obtain ⟨s₁, hrun, hi₁⟩ := hstep done x rest s hxs hi
      obtain ⟨s', hrest, hi'⟩ := ih (done ++ [x]) s₁ (by rw [hxs, append_assoc]; rfl) hi₁
      refine ⟨s', ?_, hi'⟩
      rw [mapM_cons, run_bind_ok hrun, run_bind_ok hrest]
      rfl
  exact hloop xs [] s rfl h

end Run

/-- A list of computations fails as one of them does. -/
theorem exists_of_mapM_error {ε α β : Type} {f : α → Except ε β} {xs : List α} {e : ε}
    (h : xs.mapM f = .error e) : ∃ x ∈ xs, f x = .error e := by
  induction xs with
  | nil => cases h
  | cons x xs ih =>
    rw [mapM_cons] at h
    cases hx : f x with
    | error e' =>
      rw [hx] at h
      cases h
      exact ⟨x, mem_cons_self, hx⟩
    | ok y =>
      cases hxs : xs.mapM f with
      | error e' =>
        rw [hx, hxs] at h
        cases h
        obtain ⟨x', hmem, hx'⟩ := ih hxs
        exact ⟨x', mem_cons_of_mem x hmem, hx'⟩
      | ok ys =>
        rw [hx, hxs] at h
        cases h

/-- A list of computations that succeeds gives a result for each. -/
theorem forall₂_of_mapM_ok {ε α β : Type} {f : α → Except ε β} {xs : List α} {ys : List β}
    (h : xs.mapM f = .ok ys) : List.Forall₂ (fun x y => f x = .ok y) xs ys := by
  induction xs generalizing ys with
  | nil =>
    cases h
    exact .nil
  | cons x xs ih =>
    rw [mapM_cons] at h
    cases hx : f x with
    | error e =>
      rw [hx] at h
      cases h
    | ok y =>
      cases hxs : xs.mapM f with
      | error e =>
        rw [hx, hxs] at h
        cases h
      | ok ys' =>
        rw [hx, hxs] at h
        cases h
        exact .cons hx (ih hxs)

/-- A list of computations that all succeed. -/
theorem mapM_eq_ok {ε α β : Type} {f : α → Except ε β} {g : α → β} {xs : List α}
    (h : ∀ x ∈ xs, f x = .ok (g x)) : xs.mapM f = .ok (xs.map g) := by
  induction xs with
  | nil => rfl
  | cons x xs ih =>
    rw [mapM_cons, h x mem_cons_self, ih fun y hy => h y (mem_cons_of_mem x hy)]
    rfl

/-- Two computations that agree on every element. -/
theorem mapM_congr {ε α β : Type} {f g : α → Except ε β} {xs : List α}
    (h : ∀ x ∈ xs, f x = g x) : xs.mapM f = xs.mapM g := by
  induction xs with
  | nil => rfl
  | cons x xs ih =>
    rw [mapM_cons, mapM_cons, h x mem_cons_self,
      ih fun y hy => h y (mem_cons_of_mem x hy)]

theorem exists_of_mem_forall₂ {α β : Type} {R : α → β → Prop} {xs : List α} {ys : List β}
    (h : List.Forall₂ R xs ys) {y : β} (hy : y ∈ ys) : ∃ x ∈ xs, R x y := by
  induction h with
  | nil => cases hy
  | cons hxy _ ih =>
    rcases mem_cons.mp hy with rfl | hy
    · exact ⟨_, mem_cons_self, hxy⟩
    · obtain ⟨x, hx, hR⟩ := ih hy
      exact ⟨x, mem_cons_of_mem _ hx, hR⟩

variable {ε σ α β ω : Type} {Shows : σ → ω → Prop} {w w' : ω}

section Grows

variable [Preorder ω]

/-- The world grows, and what is returned satisfies `Q` in it. -/
def Grows (Shows : σ → ω → Prop) (w : ω) (m : EStateM ε σ α) (Q : α → ω → Prop) : Prop :=
  ∀ s, Shows s w → ∃ w', w ≤ w' ∧ Shows (leaves (m s)) w' ∧ ∀ a s', m s = .ok a s' → Q a w'

variable {Q : α → ω → Prop}

theorem Grows.pure {a : α} (h : Q a w) :
    Grows Shows w (Pure.pure a : EStateM ε σ α) Q := by
  intro s hs
  refine ⟨w, le_rfl, hs, ?_⟩
  intro a' s' heq
  cases heq
  exact h

theorem Grows.throw {e : ε} :
    Grows Shows w (MonadExcept.throw e : EStateM ε σ α) Q := by
  intro s hs
  exact ⟨w, le_rfl, hs, fun a s' heq => by cases heq⟩

/-- One program after another. -/
theorem Grows.bind {m : EStateM ε σ α} {f : α → EStateM ε σ β} {R : β → ω → Prop}
    (hm : Grows Shows w m Q) (hf : ∀ a w', w ≤ w' → Q a w' → Grows Shows w' (f a) R) :
    Grows Shows w (m >>= f) R := by
  intro s hs
  obtain ⟨w₁, hle, hshows, hq⟩ := hm s hs
  cases hrun : m s with
  | ok a s₁ =>
    rw [hrun] at hshows
    obtain ⟨w₂, hle₂, hshows₂, hr⟩ := hf a w₁ hle (hq a s₁ hrun) s₁ hshows
    have hbind : (m >>= f) s = f a s₁ := by
      simp only [Bind.bind, EStateM.bind, hrun]
    rw [hbind]
    exact ⟨w₂, hle.trans hle₂, hshows₂, hr⟩
  | error e s₁ =>
    rw [hrun] at hshows
    have hbind : (m >>= f) s = .error e s₁ := by
      simp only [Bind.bind, EStateM.bind, hrun]
    rw [hbind]
    exact ⟨w₁, hle, hshows, fun b s' heq => by cases heq⟩

theorem Grows.imp {m : EStateM ε σ α} {R : α → ω → Prop} (h : Grows Shows w m Q)
    (himp : ∀ a w', w ≤ w' → Q a w' → R a w') : Grows Shows w m R := by
  intro s hs
  obtain ⟨w', hle, hshows, hq⟩ := h s hs
  exact ⟨w', hle, hshows, fun a s' heq => himp a w' hle (hq a s' heq)⟩

/-- A program for every element of a list, with a result for each that stays right while the
    world grows. -/
theorem Grows.mapM {f : α → EStateM ε σ β} {Q : α → β → ω → Prop} {xs : List α}
    (hmono : ∀ x y w₁ w₂, w₁ ≤ w₂ → Q x y w₁ → Q x y w₂)
    (hf : ∀ x ∈ xs, ∀ w', w ≤ w' → Grows Shows w' (f x) (Q x)) :
    Grows Shows w (xs.mapM f) fun ys w' => List.Forall₂ (fun x y => Q x y w') xs ys := by
  induction xs generalizing w with
  | nil =>
    rw [mapM_nil]
    exact Grows.pure .nil
  | cons x xs ih =>
    rw [mapM_cons]
    refine (hf x mem_cons_self w le_rfl).bind fun y w₁ hle₁ hy => ?_
    refine (ih fun x' hx' w' hw' => hf x' (mem_cons_of_mem x hx') w' (hle₁.trans hw')).bind
      fun ys w₂ hle₂ hys => ?_
    exact Grows.pure (.cons (hmono x y w₁ w₂ hle₂ hy) hys)

end Grows

/-- What is returned is right, and the world is as it was. -/
def Yields (Shows : σ → ω → Prop) (w : ω) (m : EStateM ε σ α) (a : α) : Prop :=
  ∀ s, Shows s w → ∃ s', m s = .ok a s' ∧ Shows s' w

variable {a : α}

theorem Yields.pure : Yields Shows w (Pure.pure a : EStateM ε σ α) a :=
  fun s hs => ⟨s, rfl, hs⟩

theorem Yields.lift {x : Except ε α} (h : x = .ok a) :
    Yields Shows w (fromExcept x : EStateM ε σ α) a := by
  subst h
  exact fun s hs => ⟨s, rfl, hs⟩

theorem Yields.bind {m : EStateM ε σ α} {f : α → EStateM ε σ β} {b : β} (hm : Yields Shows w m a)
    (hf : Yields Shows w (f a) b) : Yields Shows w (m >>= f) b := by
  intro s hs
  obtain ⟨s₁, hrun, hs₁⟩ := hm s hs
  obtain ⟨s₂, hrun₂, hs₂⟩ := hf s₁ hs₁
  refine ⟨s₂, ?_, hs₂⟩
  simp only [Bind.bind, EStateM.bind, hrun, hrun₂]

theorem Yields.mapM {f : α → EStateM ε σ β} {xs : List α} {ys : List β}
    (h : List.Forall₂ (fun x y => Yields Shows w (f x) y) xs ys) :
    Yields Shows w (xs.mapM f) ys := by
  induction h with
  | nil =>
    rw [mapM_nil]
    exact .pure
  | cons hxy _ ih =>
    rw [mapM_cons]
    exact hxy.bind (ih.bind .pure)

end Alt.Library
