import Alt.Library.Bytes

namespace Alt.Library.Base64

open Alt.Library List

/-!
# Library — base64 for URLs

The text form of RFC 4648 §5 without padding: three bytes are four digits of six bits, and one or two
bytes at the end two or three digits.

* `decode_encode` — what is encoded decodes to itself;
* `ascii_of_encode` — the text is ASCII, and nothing in it is blank.
-/

/-- The digit for six bits: letters, digits, `-` and `_`. -/
def digit (v : Nat) : UInt8 :=
  if v < 26 then UInt8.ofNat (0x41 + v)
  else if v < 52 then UInt8.ofNat (0x61 + (v - 26))
  else if v < 62 then UInt8.ofNat (0x30 + (v - 52))
  else if v = 62 then 0x2d else 0x5f

/-- The six bits of a digit. -/
def val (c : UInt8) : Option Nat :=
  if 0x41 ≤ c ∧ c ≤ 0x5a then some (c.toNat - 0x41)
  else if 0x61 ≤ c ∧ c ≤ 0x7a then some (c.toNat - 0x61 + 26)
  else if 0x30 ≤ c ∧ c ≤ 0x39 then some (c.toNat - 0x30 + 52)
  else if c = 0x2d then some 62
  else if c = 0x5f then some 63
  else none

def encode : Bytes → Bytes
  | a :: b :: c :: rest =>
    let n := a.toNat * 2 ^ 16 + b.toNat * 2 ^ 8 + c.toNat
    digit (n / 2 ^ 18) :: digit (n / 2 ^ 12 % 64) :: digit (n / 2 ^ 6 % 64) :: digit (n % 64) :: encode rest
  | [a, b] =>
    let n := a.toNat * 2 ^ 16 + b.toNat * 2 ^ 8
    [digit (n / 2 ^ 18), digit (n / 2 ^ 12 % 64), digit (n / 2 ^ 6 % 64)]
  | [a] =>
    let n := a.toNat * 2 ^ 16
    [digit (n / 2 ^ 18), digit (n / 2 ^ 12 % 64)]
  | [] => []

/-- The groups of four digits, and what is left of a group. -/
def decodeGroups : Bytes → Option Bytes
  | a :: b :: c :: d :: rest => do
    let n := (← val a) * 2 ^ 18 + (← val b) * 2 ^ 12 + (← val c) * 2 ^ 6 + (← val d)
    let tail ← decodeGroups rest
    return UInt8.ofNat (n / 2 ^ 16) :: UInt8.ofNat (n / 2 ^ 8) :: UInt8.ofNat n :: tail
  | [a, b, c] => do
    let n := (← val a) * 2 ^ 18 + (← val b) * 2 ^ 12 + (← val c) * 2 ^ 6
    return [UInt8.ofNat (n / 2 ^ 16), UInt8.ofNat (n / 2 ^ 8)]
  | [a, b] => do
    let n := (← val a) * 2 ^ 18 + (← val b) * 2 ^ 12
    return [UInt8.ofNat (n / 2 ^ 16)]
  | _ => some []

def decode (text : Bytes) : Option Bytes := if text.length % 4 = 1 then none else decodeGroups text

/-! ### There and back -/

theorem val_digit {v : Nat} (h : v < 64) : val (digit v) = some v := by
  have hall : ∀ v : Fin 64, val (digit v) = some v.val := by decide
  exact hall ⟨v, h⟩

/-- A digit is above the blank and below the end of ASCII. -/
theorem digit_bounds (v : Nat) : 0x20 < digit v ∧ digit v < 0x80 := by
  by_cases h : v < 64
  · have hall : ∀ v : Fin 64, 0x20 < digit v ∧ digit v < 0x80 := by decide
    exact hall ⟨v, h⟩
  · have hlast : digit v = 0x5f := by
      rw [digit, if_neg (by omega), if_neg (by omega), if_neg (by omega), if_neg (by omega)]
    rw [hlast]
    decide

theorem ascii_of_encode (data : Bytes) : ∀ c ∈ encode data, 0x20 < c ∧ c < 0x80 := by
  fun_induction encode data with
  | case1 a b c rest n ih =>
    intro x hx
    simp only [mem_cons] at hx
    rcases hx with rfl | rfl | rfl | rfl | hx
    · exact digit_bounds _
    · exact digit_bounds _
    · exact digit_bounds _
    · exact digit_bounds _
    · exact ih x hx
  | case2 a b n =>
    intro x hx
    simp only [mem_cons, not_mem_nil, or_false] at hx
    rcases hx with rfl | rfl | rfl <;> exact digit_bounds _
  | case3 a n =>
    intro x hx
    simp only [mem_cons, not_mem_nil, or_false] at hx
    rcases hx with rfl | rfl <;> exact digit_bounds _
  | case4 => exact nofun

/-- A group is never one digit. -/
theorem length_encode (data : Bytes) : (encode data).length % 4 ≠ 1 := by
  fun_induction encode data with
  | case1 a b c rest n ih =>
    simp only [length_cons]
    omega
  | case2 a b n => exact (by decide : 3 % 4 ≠ 1)
  | case3 a n => exact (by decide : 2 % 4 ≠ 1)
  | case4 => exact (by decide : 0 % 4 ≠ 1)

theorem ofNat_eq {n : Nat} {b : UInt8} (h : n % 256 = b.toNat) : UInt8.ofNat n = b := by
  rw [← UInt8.toNat_inj, UInt8.toNat_ofNat', ← h]

theorem decodeGroups_encode (data : Bytes) : decodeGroups (encode data) = some data := by
  fun_induction encode data with
  | case1 a b c rest n ih =>
    have ha := a.toNat_lt
    have hb := b.toNat_lt
    have hc := c.toNat_lt
    have hn : n = a.toNat * 65536 + b.toNat * 256 + c.toNat := rfl
    clear_value n
    have hwhole : n / 2 ^ 18 * 2 ^ 18 + n / 2 ^ 12 % 64 * 2 ^ 12 + n / 2 ^ 6 % 64 * 2 ^ 6 + n % 64 = n := by
      omega
    rw [decodeGroups, val_digit (by omega), val_digit (by omega), val_digit (by omega),
      val_digit (by omega), ih]
    simp only [Option.bind_eq_bind, Option.bind_some, hwhole, Option.pure_def]
    rw [ofNat_eq (b := a) (by omega), ofNat_eq (b := b) (by omega), ofNat_eq (b := c) (by omega)]
  | case2 a b n =>
    have ha := a.toNat_lt
    have hb := b.toNat_lt
    have hn : n = a.toNat * 65536 + b.toNat * 256 := rfl
    clear_value n
    have hwhole : n / 2 ^ 18 * 2 ^ 18 + n / 2 ^ 12 % 64 * 2 ^ 12 + n / 2 ^ 6 % 64 * 2 ^ 6 = n := by
      omega
    rw [decodeGroups, val_digit (by omega), val_digit (by omega), val_digit (by omega)]
    simp only [Option.bind_eq_bind, Option.bind_some, hwhole, Option.pure_def]
    rw [ofNat_eq (b := a) (by omega), ofNat_eq (b := b) (by omega)]
  | case3 a n =>
    have ha := a.toNat_lt
    have hn : n = a.toNat * 65536 := rfl
    clear_value n
    have hwhole : n / 2 ^ 18 * 2 ^ 18 + n / 2 ^ 12 % 64 * 2 ^ 12 = n := by omega
    rw [decodeGroups, val_digit (by omega), val_digit (by omega)]
    simp only [Option.bind_eq_bind, Option.bind_some, hwhole, Option.pure_def]
    rw [ofNat_eq (b := a) (by omega)]
  | case4 => rfl

/-- **What is encoded decodes to itself.** -/
theorem decode_encode (data : Bytes) : decode (encode data) = some data := by
  rw [decode, if_neg (length_encode data), decodeGroups_encode]

end Alt.Library.Base64
