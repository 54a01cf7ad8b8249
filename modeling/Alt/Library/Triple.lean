import Alt.Library.Prog

namespace Alt.Library

open List

/-!
# Library — pre- and postconditions of programs that may fail

A program reads and changes a state and may fail; what it changed before it failed stays
changed (`EStateM`).  `Triple P m Q E` says that from a state with `P` the program `m` either
returns a value that satisfies `Q` in the state it leaves, or fails with an error that satisfies
`E` there.  There is one rule for each way programs are put together; a loop has an invariant
over what it has done.

`Keeps f m` says that the program leaves what `f` looks at as it was, whether it returns or fails;
`Refuses m s` that from `s` it fails and leaves everything as it was.
-/

variable {ε σ α β γ : Type}

/-- **Pre- and postconditions**, the second for a program that fails. -/
def Triple (P : σ → Prop) (m : EStateM ε σ α) (Q : α → σ → Prop) (E : ε → σ → Prop) : Prop :=
  ∀ s, P s → match m s with
    | .ok a s' => Q a s'
    | .error e s' => E e s'

namespace Triple

variable {P P' : σ → Prop} {Q Q' : α → σ → Prop} {R : β → σ → Prop} {E E' : ε → σ → Prop}
  {m : EStateM ε σ α}

variable {s' : σ}

/-- What a triple says of a run that returns. -/
theorem ok (h : Triple P m Q E) {s : σ} {a : α} (hs : P s) (hrun : m s = .ok a s') : Q a s' := by
  have hm := h s hs
  rwa [hrun] at hm

/-- What a triple says of a run that fails. -/
theorem error (h : Triple P m Q E) {s : σ} {e : ε} (hs : P s) (hrun : m s = .error e s') :
    E e s' := by
  have hm := h s hs
  rwa [hrun] at hm

theorem imp (h : Triple P m Q E) (hpre : ∀ s, P' s → P s) (hpost : ∀ a s, Q a s → Q' a s)
    (herr : ∀ e s, E e s → E' e s) : Triple P' m Q' E' := by
  intro s hs
  have hm := h s (hpre s hs)
  split at hm
  · rename_i a s' hrun
    exact hpost a s' hm
  rename_i e s' hrun
  exact herr e s' hm

/-- From each of the states alone. -/
theorem frozen (h : ∀ s, P s → Triple (· = s) m Q E) : Triple P m Q E :=
  fun s hs => h s hs s rfl

/-- A fact that does not depend on the state. -/
theorem pre {p : Prop} (h : p → Triple P m Q E) : Triple (fun s => p ∧ P s) m Q E :=
  fun s hs => h hs.1 s hs.2

theorem pure {a : α} (h : ∀ s, P s → Q a s) : Triple P (Pure.pure a : EStateM ε σ α) Q E :=
  fun s hs => h s hs

theorem throw {e : ε} (h : ∀ s, P s → E e s) :
    Triple P (MonadExcept.throw e : EStateM ε σ α) Q E :=
  fun s hs => h s hs

/-- One program after another. -/
theorem bind {f : α → EStateM ε σ β} (hm : Triple P m Q E) (hf : ∀ a, Triple (Q a) (f a) R E) :
    Triple P (m >>= f) R E := by
  intro s hs
  have hq := hm s hs
  cases hrun : m s with
  | ok a s₁ =>
    rw [hrun] at hq
    have hbind : (m >>= f) s = f a s₁ := by simp only [Bind.bind, EStateM.bind, hrun]
    rw [hbind]
    exact hf a s₁ hq
  | error e s₁ =>
    rw [hrun] at hq
    have hbind : (m >>= f) s = .error e s₁ := by simp only [Bind.bind, EStateM.bind, hrun]
    rw [hbind]
    exact hq

/-- Reading the state. -/
theorem get {f : σ → EStateM ε σ β} (h : ∀ s, P s → Triple (· = s) (f s) R E) :
    Triple P (MonadState.get >>= f) R E :=
  fun s hs => h s hs s rfl

theorem modify {g : σ → σ} {Q : Unit → σ → Prop} (h : ∀ s, P s → Q ⟨⟩ (g s)) :
    Triple P (MonadState.modifyGet (fun s => (PUnit.unit, g s)) : EStateM ε σ PUnit) Q E :=
  fun s hs => h s hs

/-- A pure computation that may fail. -/
theorem lift {x : Except ε α} (hok : ∀ a, x = .ok a → ∀ s, P s → Q a s)
    (herr : ∀ e, x = .error e → ∀ s, P s → E e s) :
    Triple P (fromExcept x : EStateM ε σ α) Q E := by
  intro s hs
  cases x with
  | ok a => exact hok a rfl s hs
  | error e => exact herr e rfl s hs

theorem ite {c : Prop} [Decidable c] {m' : EStateM ε σ α}
    (hthen : c → Triple P m Q E) (helse : ¬c → Triple P m' Q E) :
    Triple P (if c then m else m') Q E := by
  split
  · exact hthen ‹_›
  · exact helse ‹_›

variable {xs : List γ}

/-- **Loop with an accumulator.** The invariant speaks of the part of the list that is done. -/
theorem foldlM {f : β → γ → EStateM ε σ β} {b : β} (I : List γ → β → σ → Prop)
    (hstep : ∀ done x rest b, xs = done ++ x :: rest → Triple (I done b) (f b x) (fun b' => I (done ++ [x]) b') E) :
    Triple (I [] b) (xs.foldlM f b) (I xs) E := by
  have hloop : ∀ rest done b, xs = done ++ rest →
      Triple (I done b) (rest.foldlM f b) (I xs) E := by
    intro rest
    induction rest with
    | nil =>
      intro done b hxs
      rw [append_nil] at hxs
      rw [foldlM_nil, hxs]
      exact Triple.pure fun _ h => h
    | cons x rest ih =>
      intro done b hxs
      rw [foldlM_cons]
      refine (hstep done x rest b hxs).bind fun b' => ?_
      exact ih (done ++ [x]) b' (by rw [hxs, append_assoc]; rfl)
  exact hloop xs [] b rfl

/-- **A program for each element.** The invariant speaks of the elements done and the results. -/
theorem mapM {f : γ → EStateM ε σ β} (I : List γ → List β → σ → Prop)
    (hstep : ∀ done ys x rest, xs = done ++ x :: rest → Triple (I done ys) (f x) (fun y => I (done ++ [x]) (ys ++ [y])) E) :
    Triple (I [] []) (xs.mapM f) (I xs) E := by
  have hloop : ∀ rest done ys, xs = done ++ rest →
      Triple (I done ys) (rest.mapM f) (fun ys' s => I xs (ys ++ ys') s) E := by
    intro rest
    induction rest with
    | nil =>
      intro done ys hxs
      rw [append_nil] at hxs
      rw [mapM_nil, hxs]
      exact Triple.pure fun s h => by rwa [append_nil]
    | cons x rest ih =>
      intro done ys hxs
      rw [mapM_cons]
      refine (hstep done ys x rest hxs).bind fun y => ?_
      refine (ih (done ++ [x]) (ys ++ [y]) (by rw [hxs, append_assoc]; rfl)).bind fun ys' => ?_
      exact Triple.pure fun s h => by rwa [append_assoc] at h
  exact (hloop xs [] [] rfl).imp (fun _ h => h) (fun _ _ h => h) (fun _ _ h => h)

/-- A loop for its effect. -/
theorem forM {f : γ → EStateM ε σ PUnit} (I : List γ → σ → Prop)
    (hstep : ∀ done x rest, xs = done ++ x :: rest → Triple (I done) (f x) (fun _ => I (done ++ [x])) E) :
    Triple (I []) (ForM.forM xs f) (fun _ => I xs) E := by
  have hloop : ∀ rest done, xs = done ++ rest →
      Triple (I done) (ForM.forM rest f) (fun _ => I xs) E := by
    intro rest
    induction rest with
    | nil =>
      intro done hxs
      rw [append_nil] at hxs
      rw [forM_nil, hxs]
      exact Triple.pure fun _ h => h
    | cons x rest ih =>
      intro done hxs
      rw [forM_cons]
      refine (hstep done x rest hxs).bind fun _ => ?_
      exact ih (done ++ [x]) (by rw [hxs, append_assoc]; rfl)
  exact hloop xs [] rfl

end Triple

/-! ### Programs that leave something alone -/

/-- The program does not change what `f` looks at. -/
def Keeps {τ : Type*} (f : σ → τ) (m : EStateM ε σ α) : Prop := ∀ s, f (leaves (m s)) = f s

namespace Keeps

variable {τ : Type*} {f : σ → τ} {m : EStateM ε σ α}

theorem pure {a : α} : Keeps f (Pure.pure a : EStateM ε σ α) := fun _ => rfl

theorem throw {e : ε} : Keeps f (MonadExcept.throw e : EStateM ε σ α) := fun _ => rfl

theorem lift {x : Except ε α} : Keeps f (fromExcept x : EStateM ε σ α) := by
  intro s
  cases x <;> rfl

theorem get : Keeps f (MonadState.get : EStateM ε σ σ) := fun _ => rfl

theorem bind {g : α → EStateM ε σ β} (hm : Keeps f m) (hg : ∀ a, Keeps f (g a)) :
    Keeps f (m >>= g) := by
  intro s
  have h := hm s
  simp only [Bind.bind, EStateM.bind]
  cases hrun : m s with
  | ok a s' =>
    rw [hrun] at h
    exact (hg a s').trans h
  | error e s' =>
    rw [hrun] at h
    exact h

variable {xs : List γ}

theorem foldlM {g : β → γ → EStateM ε σ β} {b : β} (h : ∀ b x, Keeps f (g b x)) :
    Keeps f (xs.foldlM g b) := by
  induction xs generalizing b with
  | nil => exact .pure
  | cons x xs ih =>
    rw [foldlM_cons]
    exact .bind (h b x) fun _ => ih

theorem mapM {g : γ → EStateM ε σ β} (h : ∀ x, Keeps f (g x)) :
    Keeps f (xs.mapM g) := by
  induction xs with
  | nil =>
    rw [mapM_nil]
    exact .pure
  | cons x xs ih =>
    rw [mapM_cons]
    exact .bind (h x) fun _ => .bind ih fun _ => .pure

theorem forM {g : γ → EStateM ε σ PUnit} (h : ∀ x, Keeps f (g x)) :
    Keeps f (xs.forM g) := by
  induction xs with
  | nil => exact .pure
  | cons x xs ih => exact .bind (h x) fun _ => ih

/-- What is left alone, as a postcondition. -/
theorem triple {v : τ} (hm : Keeps f m) :
    Triple (f · = v) m (fun _ s => f s = v) (fun _ s => f s = v) := by
  intro s hs
  have h := hm s
  cases hrun : m s with
  | ok a s' =>
    rw [hrun] at h
    exact h.trans hs
  | error e s' =>
    rw [hrun] at h
    exact h.trans hs

end Keeps

/-- From `s` the program fails and leaves `s` as it was. -/
def Refuses (m : EStateM ε σ α) (s : σ) : Prop := ∃ e, m s = .error e s

namespace Refuses

variable {s : σ}

theorem leaves_eq {m : EStateM ε σ α} (h : Refuses m s) : leaves (m s) = s := by
  obtain ⟨e, he⟩ := h
  rw [he]
  rfl

theorem throw {e : ε} : Refuses (MonadExcept.throw e : EStateM ε σ α) s := ⟨e, rfl⟩

variable {g : α → EStateM ε σ β}

/-- What is refused after a program that changes nothing is refused. -/
theorem bind {m : EStateM ε σ α} (hm : Keeps id m) (hg : ∀ a, m s = .ok a s → Refuses (g a) s) :
    Refuses (m >>= g) s := by
  have h := hm s
  simp only [id_eq] at h
  simp only [Refuses, Bind.bind, EStateM.bind]
  cases hrun : m s with
  | ok a s' =>
    rw [hrun] at h
    obtain rfl : s' = s := h
    exact hg a hrun
  | error e s' =>
    rw [hrun] at h
    obtain rfl : s' = s := h
    exact ⟨e, rfl⟩

/-- A refusal, as a triple. -/
theorem triple {m : EStateM ε σ α} {Q : α → σ → Prop} (h : Refuses m s) :
    Triple (· = s) m Q (fun _ s' => s' = s) := by
  rintro s' rfl
  obtain ⟨e, he⟩ := h
  rw [he]

theorem get {g : σ → EStateM ε σ β} (h : Refuses (g s) s) :
    Refuses (MonadState.get >>= g) s := h

/-- After a pure computation that may fail. -/
theorem lift {x : Except ε α} (h : ∀ a, x = .ok a → Refuses (g a) s) :
    Refuses ((fromExcept x : EStateM ε σ α) >>= g) s := by
  cases x with
  | ok a => exact h a rfl
  | error e => exact ⟨e, rfl⟩

/-- What is refused first is refused. -/
theorem first {m : EStateM ε σ α} (hm : Refuses m s) :
    Refuses (m >>= g) s := by
  obtain ⟨e, he⟩ := hm
  exact ⟨e, by simp only [Bind.bind, EStateM.bind, he]⟩

end Refuses

end Alt.Library
