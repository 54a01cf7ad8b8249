import Alt.Library.EditScript
import Alt.Library.Table

namespace Alt.Library

open List

/-!
# Library — reading untrusted bytes

Code that reads bytes it does not trust ends in one of three ways: with a value, by declining, or by a
panic (a slice out of range, a product too large, a vector larger than can be asked for).  `Attempt` keeps
the three apart, so that "it never panics" is a statement about the code.

* `Safe` — an attempt that does not panic, with one rule for a sequence of steps (`Safe.bind`);
* `cut`, `byteAt`, `u16At`, `u32At` — the indexed reads, with the positions they need and what they give
  on bytes that were written there;
* `readRows` — a table of fixed-size records.
-/

/-- How a reader of untrusted bytes ends without a value. -/
inductive Stop where
  | declined
  | panicked
  deriving DecidableEq, Repr

abbrev Attempt (α : Type) := Except Stop α

namespace Attempt

variable {α β : Type}

/-! ### Sequences of steps -/

variable {x : Attempt α} {f : α → Attempt β}

theorem steps_eq_ok {b : β} :
    (x >>= f) = .ok b ↔ ∃ a, x = .ok a ∧ f a = .ok b := by
  cases x with
  | ok a => exact ⟨fun h => ⟨a, rfl, h⟩, fun ⟨_, ha, h⟩ => by cases ha; exact h⟩
  | error e => exact ⟨fun h => (by cases h), fun ⟨_, ha, _⟩ => by cases ha⟩

@[simp] theorem ok_bind (a : α) (f : α → Attempt β) : ((.ok a : Attempt α) >>= f) = f a := rfl

@[simp] theorem pure_eq_ok (a : α) : (pure a : Attempt α) = .ok a := rfl

/-- An attempt that gives a value or declines. -/
def Safe (x : Attempt α) : Prop := x ≠ .error .panicked

@[simp] theorem safe_ok (a : α) : Safe (.ok a : Attempt α) := fun h => by cases h

@[simp] theorem safe_declined : Safe (.error .declined : Attempt α) := fun h => by cases h

@[simp] theorem not_safe_panicked : ¬Safe (.error .panicked : Attempt α) := fun h => h rfl

/-- A sequence is safe where each step is, on what the steps before it gave. -/
theorem safe_bind :
    Safe (x >>= f) ↔ Safe x ∧ ∀ a, x = .ok a → Safe (f a) := by
  cases x with
  | ok a => exact ⟨fun h => ⟨safe_ok a, fun _ ha => by cases ha; exact h⟩, fun h => h.2 a rfl⟩
  | error e =>
    refine ⟨fun h => ⟨fun he => h (by cases he; rfl), fun _ ha => by cases ha⟩, fun h he => h.1 ?_⟩
    cases he
    rfl

theorem Safe.bind (hx : Safe x) (hf : ∀ a, x = .ok a → Safe (f a)) :
    Safe (x >>= f) :=
  safe_bind.mpr ⟨hx, hf⟩

/-! ### Refusals and bounds -/

/-- `if c { return None }`. -/
def declineIf (c : Prop) [Decidable c] : Attempt Unit := if c then .error .declined else .ok ()

/-- `x?`. -/
def orDecline : Option α → Attempt α
  | none => .error .declined
  | some a => .ok a

/-- `a.checked_add(b)?`. -/
def checkedAdd (a b : Nat) : Attempt Nat := if a + b < 2 ^ 64 then .ok (a + b) else .error .declined

/-- `a.checked_mul(b)?`. -/
def checkedMul (a b : Nat) : Attempt Nat := if a * b < 2 ^ 64 then .ok (a * b) else .error .declined

/-- `a * b`. -/
def mul (a b : Nat) : Attempt Nat := if a * b < 2 ^ 64 then .ok (a * b) else .error .panicked

/-- `a - b`. -/
def sub (a b : Nat) : Attempt Nat := if b ≤ a then .ok (a - b) else .error .panicked

/-- `ns.sum::<u64>()`. -/
def sum (ns : List Nat) : Attempt Nat := if ns.sum < 2 ^ 64 then .ok ns.sum else .error .panicked

/-- `Vec::with_capacity(n)` of bytes: no vector holds `isize::MAX` bytes or more. -/
def withCapacity (n : Nat) : Attempt Unit := if n < 2 ^ 63 then .ok () else .error .panicked

section Bounds

variable {c : Prop} [Decidable c] {a b n : Nat} {ns : List Nat}

theorem declineIf_eq_ok {u : Unit} : declineIf c = .ok u ↔ ¬c := by
  rw [declineIf]
  split <;> simp_all

theorem declineIf_of_not (h : ¬c) : declineIf c = .ok () := if_neg h

theorem safe_declineIf : Safe (declineIf c) := by
  rw [declineIf]
  split <;> simp

theorem orDecline_eq_ok {o : Option α} {x : α} : orDecline o = .ok x ↔ o = some x := by
  cases o <;> simp [orDecline]

theorem safe_orDecline (o : Option α) : Safe (orDecline o) := by
  cases o <;> simp [orDecline]

theorem checkedAdd_eq_ok : checkedAdd a b = .ok n ↔ a + b < 2 ^ 64 ∧ a + b = n := by
  rw [checkedAdd]
  split <;> simp_all

theorem checkedMul_eq_ok : checkedMul a b = .ok n ↔ a * b < 2 ^ 64 ∧ a * b = n := by
  rw [checkedMul]
  split <;> simp_all

theorem mul_eq_ok : mul a b = .ok n ↔ a * b < 2 ^ 64 ∧ a * b = n := by
  rw [mul]
  split <;> simp_all

theorem sub_eq_ok : sub a b = .ok n ↔ b ≤ a ∧ a - b = n := by
  rw [sub]
  split <;> simp_all

theorem sum_eq_ok : sum ns = .ok n ↔ ns.sum < 2 ^ 64 ∧ ns.sum = n := by
  rw [sum]
  split <;> simp_all

theorem withCapacity_eq_ok {u : Unit} : withCapacity n = .ok u ↔ n < 2 ^ 63 := by
  rw [withCapacity]
  split <;> simp_all

end Bounds

/-! ### Indexed reads -/

/-- `&l[i..j]`. -/
def cut (l : List α) (i j : Nat) : Attempt (List α) :=
  if i ≤ j ∧ j ≤ l.length then .ok (slice l i j) else .error .panicked

/-- `l[i]`. -/
def byteAt (l : List α) (i : Nat) : Attempt α :=
  match l[i]? with
  | none => .error .panicked
  | some x => .ok x

/-- The little-endian `u16` at `i`. -/
def u16At (l : Bytes) (i : Nat) : Attempt UInt16 := do
  let b ← cut l i (i + 2)
  return UInt16.ofNat (leNat b)

/-- The little-endian `u32` at `i`. -/
def u32At (l : Bytes) (i : Nat) : Attempt UInt32 := do
  let b ← cut l i (i + 4)
  return UInt32.ofNat (leNat b)

/-- The big-endian `u32` at `i`. -/
def u32BeAt (l : Bytes) (i : Nat) : Attempt UInt32 := do
  let b ← cut l i (i + 4)
  return UInt32.ofNat (beNat b)

section Reads

variable {l p m q s : List α} {i j : Nat}

theorem cut_eq_ok : cut l i j = .ok s ↔ (i ≤ j ∧ j ≤ l.length) ∧ slice l i j = s := by
  rw [cut]
  split <;> simp_all

theorem safe_cut : Safe (cut l i j) ↔ i ≤ j ∧ j ≤ l.length := by
  rw [cut]
  split <;> simp_all

theorem slice_middle (hi : p.length = i) (hj : i + m.length = j) :
    slice (p ++ (m ++ q)) i j = m := by
  subst hi hj
  rw [slice, drop_left, Nat.add_sub_cancel_left, take_left]

/-- What stands between what is before it and what is behind it is cut out. -/
theorem cut_append (hi : p.length = i) (hj : i + m.length = j) :
    cut (p ++ (m ++ q)) i j = .ok m := by
  refine cut_eq_ok.mpr ⟨⟨by omega, ?_⟩, slice_middle hi hj⟩
  simp only [length_append]
  omega

theorem length_of_cut (h : cut l i j = .ok s) : s.length = j - i := by
  obtain ⟨⟨hij, hj⟩, rfl⟩ := cut_eq_ok.mp h
  exact length_slice hij hj

theorem byteAt_eq_ok {x : α} : byteAt l i = .ok x ↔ l[i]? = some x := by
  rw [byteAt]
  split <;> simp_all

theorem byteAt_append (x : α) (hi : p.length = i) : byteAt (p ++ (x :: q)) i = .ok x := by
  subst hi
  rw [byteAt_eq_ok, getElem?_append_right (le_refl _), Nat.sub_self]
  rfl

end Reads

section Fields

variable {l p q : Bytes} {i : Nat}

/-- A field is read q where it was written. -/
theorem u16At_append (n : UInt16) (hi : p.length = i) :
    u16At (p ++ (leBytes 2 n.toNat ++ q)) i = .ok n := by
  rw [u16At, cut_append hi (by rw [length_leBytes]), ok_bind, pure_eq_ok,
    leNat_leBytes_of_lt n.toNat_lt, UInt16.ofNat_toNat]

theorem u32At_append (n : UInt32) (hi : p.length = i) :
    u32At (p ++ (leBytes 4 n.toNat ++ q)) i = .ok n := by
  rw [u32At, cut_append hi (by rw [length_leBytes]), ok_bind, pure_eq_ok,
    leNat_leBytes_of_lt n.toNat_lt, UInt32.ofNat_toNat]

end Fields

/-! ### Tables of records -/

/-- `n` records of `w` bytes from `i` on; declines where one does not fit. -/
def readRows (l : Bytes) (w : Nat) (read : Nat → Attempt α) : Nat → Nat → Attempt (List α)
  | 0, _ => .ok []
  | n + 1, i => do
    declineIf (l.length < i + w)
    let x ← read i
    let xs ← readRows l w read n (i + w)
    return x :: xs

section Records

variable {l : Bytes} {w : Nat} {read : Nat → Attempt α}

/-- A table is read q where it was written. -/
theorem readRows_append {enc : α → Bytes} (hw : ∀ x, (enc x).length = w) {p q : Bytes} {xs : List α}
    {i : Nat} (hl : l = p ++ (xs.flatMap enc ++ q)) (hi : p.length = i)
    (hread : ∀ x p q i, l = p ++ (enc x ++ q) → p.length = i → read i = .ok x) :
    readRows l w read xs.length i = .ok xs := by
  induction xs generalizing p i with
  | nil => rfl
  | cons x xs ih =>
    rw [flatMap_cons, append_assoc] at hl
    have hlength : i + w ≤ l.length := by
      rw [hl]
      simp only [length_append, hw]
      omega
    have hrest := ih (p := p ++ enc x) (i := i + w) (by rw [hl, append_assoc])
      (by rw [length_append, hw, hi])
    rw [length_cons, readRows, declineIf_of_not (not_lt.mpr hlength), ok_bind,
      hread x p _ i hl hi, ok_bind, hrest]
    rfl

end Records

end Attempt

end Alt.Library
