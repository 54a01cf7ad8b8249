import Mathlib.Data.Finset.Card

namespace Alt.Library

/-!
# Library — following a chain

Every node has at most one node after it.  `Stops next a`: the chain from `a` comes to an end.

* `stops_iff_not_cyclic` — where finitely many nodes have a node after them, a chain stops exactly
  when it does not come back to one of its nodes.
-/

universe u

variable {α : Type u} (next : α → Option α)

/-- The node after `k` steps. -/
def along : Nat → α → Option α
  | 0, a => some a
  | k + 1, a => (next a).bind (along k)

/-- The chain comes to an end. -/
def Stops (a : α) : Prop := ∃ k, along next k a = none

/-- The chain comes to a node, and from there back to it. -/
def Cyclic (a : α) : Prop := ∃ k b, along next k a = some b ∧ ∃ m, 0 < m ∧ along next m b = some b

variable {next}

theorem along_add (k m : Nat) (a : α) : along next (k + m) a = (along next k a).bind (along next m) := by
  induction k generalizing a with
  | zero => rw [Nat.zero_add, along, Option.bind_some]
  | succ k ih =>
    rw [Nat.succ_add, along, along]
    cases next a with
    | none => rfl
    | some b => exact ih b

/-- A chain that has ended goes no further. -/
theorem along_none_of_le {k m : Nat} {a : α} (h : along next k a = none) (hle : k ≤ m) :
    along next m a = none := by
  obtain ⟨d, rfl⟩ := Nat.exists_eq_add_of_le hle
  rw [along_add, h, Option.bind_none]

/-- A chain that comes back does so for ever. -/
theorem along_mul {m : Nat} {b : α} (h : along next m b = some b) (n : Nat) :
    along next (n * m) b = some b := by
  induction n with
  | zero => rw [Nat.zero_mul, along]
  | succ n ih => rw [Nat.succ_mul, along_add, ih, Option.bind_some, h]

theorem Cyclic.not_stops {a : α} (h : Cyclic next a) : ¬Stops next a := by
  rintro ⟨n, hn⟩
  obtain ⟨k, b, hb, m, hm, hback⟩ := h
  have hlong : along next (k + n * m) a = some b := by
    rw [along_add, hb, Option.bind_some, along_mul hback]
  have hle : n ≤ k + n * m := Nat.le_trans (Nat.le_mul_of_pos_right n hm) (Nat.le_add_left _ _)
  rw [along_none_of_le hn hle] at hlong
  cases hlong

/-- **Chains in a finite set.** A chain stops, or comes back to one of its nodes. -/
theorem stops_iff_not_cyclic (nodes : Finset α) (hnodes : ∀ a b, next a = some b → a ∈ nodes) (a : α) :
    Stops next a ↔ ¬Cyclic next a := by
  refine ⟨fun h hcyclic => hcyclic.not_stops h, fun hacyclic => ?_⟩
  by_contra hgoes
  have hall : ∀ k, ∃ b, along next k a = some b := by
    intro k
    cases hk : along next k a with
    | some b => exact ⟨b, rfl⟩
    | none => exact absurd ⟨k, hk⟩ hgoes
  choose node hnode using hall
  -- each node on the chain has a node after it, so two of them are the same
  have hin : ∀ k ∈ Finset.range (nodes.card + 1), node k ∈ nodes := by
    intro k _
    have hstep : along next (k + 1) a = next (node k) := by
      rw [along_add, hnode k, Option.bind_some, along]
      cases next (node k) <;> rfl
    exact hnodes _ _ (hstep.symm.trans (hnode (k + 1)))
  obtain ⟨i, -, j, -, hne, heq⟩ := Finset.exists_ne_map_eq_of_card_lt_of_maps_to
    (by rw [Finset.card_range]; exact Nat.lt_succ_self _) hin
  have hback : ∀ {i j}, i < j → node i = node j → False := by
    intro i j hlt heq
    refine hacyclic ⟨i, node i, hnode i, j - i, Nat.sub_pos_of_lt hlt, ?_⟩
    have hj := hnode j
    rw [← Nat.add_sub_cancel' (Nat.le_of_lt hlt), along_add, hnode i, Option.bind_some] at hj
    rw [hj, Nat.add_sub_cancel' (Nat.le_of_lt hlt), ← heq]
  rcases Nat.lt_or_gt_of_ne hne with hlt | hlt
  · exact hback hlt heq
  · exact hback hlt heq.symm

end Alt.Library
