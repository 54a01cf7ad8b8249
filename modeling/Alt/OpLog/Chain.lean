import Alt.OpLog.Log
import Mathlib.Data.List.Induction

namespace Alt

open Alt.Library List

/-!
# Positions in a chain

`CollisionFree` is the assumption on BLAKE3 a chain needs: no two of its bodies collide and
none hashes to the root id.  Under it ids stand for positions (`index_eq_of_id_eq`), and the
index of a handle finds every op where it is (`indexOf_ofOps`).
-/

/-- No two bodies of the chain collide, and none hashes to the root id. -/
structure CollisionFree (P : Prims) (ops : List Op) : Prop where
  injOn : Set.InjOn P.blake3 { b | ∃ op ∈ ops, b = op.body }
  ne_root : ∀ op ∈ ops, P.blake3 op.body ≠ OpId.root

variable {P : Prims} {ops : List Op}

theorem CollisionFree.of_prefix {ops' : List Op} (h : CollisionFree P ops') (hpre : ops <+: ops') :
    CollisionFree P ops where
  injOn := by
    refine h.injOn.mono ?_
    rintro b ⟨op, hop, hb⟩
    exact ⟨op, hpre.subset hop, hb⟩
  ne_root op hop := h.ne_root op (hpre.subset hop)

theorem parent_eq_of_body_eq {op op' : Op} (h : op.body = op'.body) : op.parent = op'.parent := by
  have htake : ∀ o : Op, o.body.take 32 = o.parent.val := by
    intro o
    simp only [Op.body, bodyBytes, append_assoc]
    exact take_left' o.parent.2
  exact Subtype.ext (by rw [← htake, ← htake, h])

/-- In a chain, each op's id is its body's hash. -/
theorem Linked.id_getElem (h : Linked P OpId.root ops) {k : Nat} (hk : k < ops.length) :
    ops[k].id = P.blake3 ops[k].body := by
  have hsplit : ops = ops.take k ++ ops[k] :: ops.drop (k + 1) := by simp
  rw [hsplit] at h
  obtain ⟨-, hhash, -⟩ := h.right
  exact hhash

/-- The first op names the root as its parent. -/
theorem Linked.parent_zero (h : Linked P OpId.root ops) (hk : 0 < ops.length) :
    ops[0].parent = OpId.root := by
  cases ops with
  | nil => simp at hk
  | cons op ops => exact h.1

/-- Every later op names the op before it. -/
theorem Linked.parent_succ (h : Linked P OpId.root ops) {k : Nat} (hk : k + 1 < ops.length) :
    ops[k + 1].parent = ops[k].id := by
  have hsplit : ops = ops.take (k + 1) ++ ops[k + 1] :: ops.drop (k + 2) := by simp
  rw [hsplit] at h
  obtain ⟨hparent, -⟩ := h.right
  rw [hparent, take_add_one, getElem?_eq_getElem (by omega), headFrom_append]
  rfl

/-- In a chain without collisions ids stand for positions. -/
theorem index_eq_of_id_eq (h : Linked P OpId.root ops) (hfree : CollisionFree P ops) {i j : Nat}
    (hi : i < ops.length) (hj : j < ops.length) (hid : ops[i].id = ops[j].id) : i = j := by
  have hroot : ∀ k (hk : k < ops.length), ops[k].id ≠ OpId.root := by
    intro k hk
    rw [h.id_getElem hk]
    exact hfree.ne_root _ (getElem_mem hk)
  have hparent : ∀ i j (hi : i < ops.length) (hj : j < ops.length), ops[i].id = ops[j].id →
      ops[i].parent = ops[j].parent := by
    intro i j hi hj hid
    rw [h.id_getElem hi, h.id_getElem hj] at hid
    apply parent_eq_of_body_eq
    exact hfree.injOn ⟨_, getElem_mem hi, rfl⟩ ⟨_, getElem_mem hj, rfl⟩ hid
  -- walk both positions back until one of them is the first op
  induction i generalizing j with
  | zero =>
    have hp := hparent 0 j hi hj hid
    rw [h.parent_zero hi] at hp
    by_cases hj0 : j = 0
    · exact hj0.symm
    · obtain ⟨j, rfl⟩ := Nat.exists_eq_succ_of_ne_zero hj0
      rw [h.parent_succ hj] at hp
      exact absurd hp.symm (hroot j (by omega))
  | succ i ih =>
    have hp := hparent (i + 1) j hi hj hid
    rw [h.parent_succ hi] at hp
    by_cases hj0 : j = 0
    · subst hj0
      rw [h.parent_zero hj] at hp
      exact absurd hp (hroot i (by omega))
    · obtain ⟨j, rfl⟩ := Nat.exists_eq_succ_of_ne_zero hj0
      rw [h.parent_succ hj] at hp
      rw [ih (by omega) (by omega) hp]

namespace OpLog

variable {ops : List Op}

theorem pushOps_snd_of_not_mem {s : List Op × ById} {id : OpId} (h : ∀ op ∈ ops, op.id ≠ id) :
    (pushOps s ops).2 id = s.2 id := by
  induction ops generalizing s with
  | nil => rfl
  | cons op ops ih =>
    have hstep : pushOps s (op :: ops) = pushOps (pushOp s op) ops := rfl
    rw [hstep, ih fun o ho => h o (mem_cons_of_mem _ ho)]
    exact Function.update_of_ne (h op mem_cons_self).symm _ _

/-- The last op of an id is the one the index names. -/
theorem byId_of_last {p post : List Op} {op : Op} (h : ∀ o ∈ post, o.id ≠ op.id) :
    (pushOps ([], fun _ => none) (p ++ op :: post)).2 op.id = some (slot p.length) := by
  have hone : pushOps (pushOps ([], fun _ => none) p) [op]
      = pushOp (pushOps ([], fun _ => none) p) op := rfl
  rw [← singleton_append, pushOps_append, pushOps_append, pushOps_snd_of_not_mem h, hone]
  simp only [pushOp, Function.update_self, pushOps_fst, nil_append]

/-- **The index finds an op at its position**, in a chain of fewer than 2³² ops. -/
theorem indexOf_ofOps {P : Prims} (h : Linked P OpId.root ops) (hfree : CollisionFree P ops)
    (hcount : ops.length < 2 ^ 32) {k : Nat} (hk : k < ops.length) :
    indexOf (ofOps P ops) ops[k].id = some k := by
  have hsplit : ops.take k ++ ops[k] :: ops.drop (k + 1) = ops := by simp
  have hlater : ∀ op ∈ ops.drop (k + 1), op.id ≠ ops[k].id := by
    intro op hop hid
    obtain ⟨i, hi, rfl⟩ := getElem_of_mem hop
    rw [length_drop] at hi
    rw [getElem_drop] at hid
    have := index_eq_of_id_eq h hfree (by omega) hk hid
    omega
  have hlast := byId_of_last (p := ops.take k) hlater
  rw [hsplit, length_take, Nat.min_eq_left hk.le, slot,
    Nat.mod_eq_of_lt (Nat.lt_trans hk hcount)] at hlast
  exact hlast

/-- What the index finds is an op of that id. -/
theorem id_of_indexOf {P : Prims} (hcount : ops.length < 2 ^ 32) {id : OpId} {k : Nat}
    (h : indexOf (ofOps P ops) id = some k) : ∃ op, ops[k]? = some op ∧ op.id = id := by
  have hindex : (pushOps ([], fun _ => none) ops).2 id = some k := h
  clear h
  induction ops using List.reverseRecOn with
  | nil => cases hindex
  | append_singleton ops op ih =>
    rw [length_append, length_singleton] at hcount
    have hlast : (pushOps ([], fun _ => none) (ops ++ [op])).2
        = Function.update (pushOps ([], fun _ => none) ops).2 op.id (some (slot ops.length)) := by
      rw [pushOps_append, pushOps, foldl_cons, foldl_nil, pushOp, pushOps_fst,
        nil_append]
    rw [hlast] at hindex
    by_cases hid : id = op.id
    · subst hid
      rw [Function.update_self, slot, Nat.mod_eq_of_lt (by omega)] at hindex
      cases hindex
      exact ⟨op, by simp, rfl⟩
    · rw [Function.update_of_ne hid] at hindex
      obtain ⟨op', hop, hid'⟩ := ih (by omega) hindex
      refine ⟨op', ?_, hid'⟩
      rw [getElem?_append_left (List.getElem?_eq_some_iff.mp hop).1, hop]

end OpLog

end Alt
