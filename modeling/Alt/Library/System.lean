import Mathlib.Logic.Basic

namespace Alt.Library

/-!
# Library — executable transition systems, guarded runs and the invariant rules

A `System` has one start state and a *computable* step function, so a concrete run is
evaluated (`System.run`) while a safety property is proved over `System.Reachable`.

* `System.ReachableIf G` — the states reached by runs whose every step meets the
  condition `G` on the state before it; `System.Reachable` drops the condition;
* `System.invariant_if` / `System.invariant` — what one step preserves, a run preserves;
* `System.reachable_of_run`, `System.ReachableIf.runIf` — an evaluated run is a reachability proof.
-/

universe u v

/-- A start state and a step function; `none` when the action is not enabled. -/
structure System (σ : Type u) (α : Type v) where
  init : σ
  step : σ → α → Option σ

namespace System

variable {σ : Type u} {α : Type v} (S : System σ α)

/-- The states reached by runs whose every step meets `G` in the state before it. -/
inductive ReachableIf (G : σ → α → Prop) : σ → Prop
  | init : ReachableIf G S.init
  | step {s s' : σ} {a : α} :
      ReachableIf G s → G s a → S.step s a = some s' → ReachableIf G s'

/-- The states reached by any run. -/
def Reachable : σ → Prop := S.ReachableIf fun _ _ => True

/-- Run a list of actions in order; `none` when one of them is not enabled. -/
def run : σ → List α → Option σ
  | s, [] => some s
  | s, a :: as => (S.step s a).bind (run · as)

/-- Run a list of actions in order, as long as each meets `G`. -/
def runIf (G : σ → α → Prop) [∀ s a, Decidable (G s a)] : σ → List α → Option σ
  | s, [] => some s
  | s, a :: as => if G s a then (S.step s a).bind (runIf G · as) else none

variable {S}

variable {G : σ → α → Prop}

/-- **Guarded run rule.** A property of the start state that every step meeting `G`
    preserves holds in every state a `G`-run reaches. -/
theorem invariant_if {I : σ → Prop} (h0 : I S.init)
    (hstep : ∀ s a s', I s → G s a → S.step s a = some s' → I s') :
    ∀ s, S.ReachableIf G s → I s := by
  intro s hs
  induction hs with
  | init => exact h0
  | step _ hg hst ih => exact hstep _ _ _ ih hg hst

/-- **Run rule.** The guarded rule with no condition on the steps. -/
theorem invariant {I : σ → Prop} (h0 : I S.init)
    (hstep : ∀ s a s', I s → S.step s a = some s' → I s') : ∀ s, S.Reachable s → I s :=
  invariant_if h0 fun s a s' hi _ hst => hstep s a s' hi hst

variable {s : σ}

/-- A guarded run is a run. -/
theorem ReachableIf.reachable (h : S.ReachableIf G s) :
    S.Reachable s := by
  induction h with
  | init => exact .init
  | step _ _ hst ih => exact .step ih trivial hst

variable {s' : σ} {as : List α}

/-- Running actions that meet the guard in every state. -/
theorem ReachableIf.run (h : S.ReachableIf G s) (hg : ∀ a ∈ as, ∀ t, G t a)
    (hrun : S.run s as = some s') : S.ReachableIf G s' := by
  induction as generalizing s with
  | nil =>
    simp only [System.run, Option.some.injEq] at hrun
    exact hrun ▸ h
  | cons a as ih =>
    simp only [System.run, Option.bind_eq_some_iff] at hrun
    obtain ⟨s1, h1, h2⟩ := hrun
    have h' : S.ReachableIf G s1 := .step h (hg a List.mem_cons_self s) h1
    exact ih h' (fun b hb => hg b (List.mem_cons_of_mem a hb)) h2

/-- Running on from a reachable state stays among the reachable states. -/
theorem Reachable.run (h : S.Reachable s) (hrun : S.run s as = some s') : S.Reachable s' :=
  ReachableIf.run h (fun _ _ _ => trivial) hrun

/-- An evaluated run that meets the guard in each of its states. -/
theorem ReachableIf.runIf [∀ s a, Decidable (G s a)] (h : S.ReachableIf G s)
    (hrun : S.runIf G s as = some s') : S.ReachableIf G s' := by
  induction as generalizing s with
  | nil =>
    simp only [System.runIf, Option.some.injEq] at hrun
    exact hrun ▸ h
  | cons a as ih =>
    rw [System.runIf] at hrun
    split at hrun
    case isTrue hg =>
      obtain ⟨s1, h1, h2⟩ := Option.bind_eq_some_iff.mp hrun
      exact ih (.step h hg h1) h2
    case isFalse => cases hrun

/-- An evaluated run shows its last state reachable. -/
theorem reachable_of_run (h : S.run S.init as = some s) :
    S.Reachable s :=
  Reachable.run .init h

end System

end Alt.Library
