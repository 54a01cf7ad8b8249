import Alt.Library.Bytes

namespace Alt.Library

open List

/-!
# Library — big-endian fields, tables of fixed width and binary search

What an index file is made of, with no format in sight:

* `beBytes`, `beNat` — big-endian fields;
* `bytesAt data at n` — `n` bytes of a byte string; `bytesAt_table` finds a record of a table by its
  number;
* `search` — binary search with an order of each place against what is wanted: what it finds is
  there (`search_some`), and in a sorted range it misses nothing (`search_none`).
-/

/-! ### Big-endian fields -/

/-- The `w` low bytes of `n`, most significant first. -/
def beBytes (w n : Nat) : Bytes := (leBytes w n).reverse

/-- The value of a big-endian field. -/
def beNat (bs : Bytes) : Nat := leNat bs.reverse

@[simp] theorem length_beBytes (w n : Nat) : (beBytes w n).length = w := by
  rw [beBytes, length_reverse, length_leBytes]

theorem beNat_beBytes {w n : Nat} (h : n < 256 ^ w) : beNat (beBytes w n) = n := by
  rw [beNat, beBytes, reverse_reverse, leNat_leBytes_of_lt h]

theorem beBytes_beNat (bs : Bytes) : beBytes bs.length (beNat bs) = bs := by
  have hback := leBytes_leNat bs.reverse
  rw [length_reverse] at hback
  rw [beBytes, beNat, hback, reverse_reverse]

theorem beNat_lt (bs : Bytes) : beNat bs < 256 ^ bs.length := by
  have hlt := leNat_lt bs.reverse
  rwa [length_reverse] at hlt

/-! ### Slices and tables -/

def bytesAt (data : Bytes) (at_ n : Nat) : Bytes := (data.drop at_).take n

theorem bytesAt_append {front middle back : Bytes} {at_ n : Nat} (hat : front.length = at_)
    (hn : middle.length = n) : bytesAt (front ++ middle ++ back) at_ n = middle := by
  rw [bytesAt, append_assoc, drop_left' hat, take_left' hn]

theorem length_bytesAt {data : Bytes} {at_ n : Nat} (h : at_ + n ≤ data.length) :
    (bytesAt data at_ n).length = n := by
  rw [bytesAt, length_take, length_drop]
  omega

/-- Two slices, one behind the other. -/
theorem bytesAt_add (data : Bytes) (at_ n m : Nat) :
    bytesAt data at_ (n + m) = bytesAt data at_ n ++ bytesAt data (at_ + n) m := by
  rw [bytesAt, bytesAt, bytesAt, take_add, drop_drop]

/-- The length of a table. -/
theorem length_table {α : Type} {enc : α → Bytes} {w : Nat} {rows : List α}
    (hw : ∀ r ∈ rows, (enc r).length = w) : (rows.flatMap enc).length = rows.length * w := by
  induction rows with
  | nil => simp
  | cons r rows ih =>
    rw [flatMap_cons, length_append, hw r mem_cons_self,
      ih fun s hs => hw s (mem_cons_of_mem r hs), length_cons, Nat.succ_mul, Nat.add_comm]

/-- **A row of a table.** The record of number `i` stands at `i` widths. -/
theorem bytesAt_table {α : Type} {enc : α → Bytes} {w : Nat} {rows : List α} {front back : Bytes}
    {at_ : Nat} (hat : front.length = at_) (hw : ∀ r ∈ rows, (enc r).length = w) {i : Nat}
    (hi : i < rows.length) :
    bytesAt (front ++ rows.flatMap enc ++ back) (at_ + i * w) w = enc rows[i] := by
  induction rows generalizing front at_ i with
  | nil => exact absurd hi (Nat.not_lt_zero i)
  | cons r rows ih =>
    have hr := hw r mem_cons_self
    rw [flatMap_cons]
    cases i with
    | zero =>
      rw [Nat.zero_mul, Nat.add_zero, getElem_cons_zero, ← append_assoc, append_assoc]
      exact bytesAt_append hat hr
    | succ i =>
      have hnext : (front ++ enc r).length = at_ + w := by
        rw [length_append, hat, hr]
      have hrow := ih hnext (fun s hs => hw s (mem_cons_of_mem r hs)) (Nat.lt_of_succ_lt_succ hi)
      have hplace : at_ + (i + 1) * w = at_ + w + i * w := by
        rw [Nat.succ_mul]
        omega
      rw [getElem_cons_succ, ← hrow, hplace, ← append_assoc front (enc r)]

/-! ### Binary search -/

/-- Looks for a place that compares equal. -/
def search (order : Nat → Ordering) (lo hi : Nat) : Option Nat :=
  if lo < hi then
    let mid := lo + (hi - lo) / 2
    match order mid with
    | .lt => search order (mid + 1) hi
    | .gt => search order lo mid
    | .eq => some mid
  else none
termination_by hi - lo
decreasing_by all_goals omega

variable {order : Nat → Ordering} {lo hi : Nat}

/-- What is found is there. -/
theorem search_some {i : Nat} (h : search order lo hi = some i) : lo ≤ i ∧ i < hi ∧ order i = .eq := by
  fun_induction search order lo hi with
  | case1 lo hi hlt mid hmid ih =>
    obtain ⟨hlo, hhi, heq⟩ := ih h
    exact ⟨by omega, hhi, heq⟩
  | case2 lo hi hlt mid hmid ih =>
    obtain ⟨hlo, hhi, heq⟩ := ih h
    exact ⟨hlo, by omega, heq⟩
  | case3 lo hi hlt mid hmid =>
    obtain rfl := Option.some.inj h
    exact ⟨by omega, by omega, hmid⟩
  | case4 => cases h

/-- In a sorted range nothing is missed. -/
theorem search_none (hless : ∀ i j, lo ≤ i → i ≤ j → j < hi → order j = .lt → order i = .lt)
    (hmore : ∀ i j, lo ≤ i → i ≤ j → j < hi → order i = .gt → order j = .gt)
    (h : search order lo hi = none) {i : Nat} (hlo : lo ≤ i) (hhi : i < hi) : order i ≠ .eq := by
  fun_induction search order lo hi with
  | case1 lo hi hlt mid hmid ih =>
    by_cases hi' : i ≤ mid
    · rw [hless i mid hlo hi' (by omega) hmid]
      decide
    · exact ih (fun a b ha hab hb => hless a b (by omega) hab hb)
        (fun a b ha hab hb => hmore a b (by omega) hab hb) h (by omega) hhi
  | case2 lo hi hlt mid hmid ih =>
    by_cases hi' : i < mid
    · exact ih (fun a b ha hab hb => hless a b ha hab (by omega))
        (fun a b ha hab hb => hmore a b ha hab (by omega)) h hlo hi'
    · rw [hmore mid i (by omega) (by omega) hhi hmid]
      decide
  | case3 => cases h
  | case4 lo hi hlt => omega

end Alt.Library
