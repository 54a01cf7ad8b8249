import Alt.Library.Bytes

namespace Alt.Library

open List

/-!
# Library — hexadecimal text

`hexChars` writes bytes as pairs of lower-case digits; `decodeHex` reads pairs of digits of
either case.  Reading what was written gives the bytes back (`decodeHex_hexChars`).
-/

/-- The digit of a value below 16. -/
def hexDigit (n : Nat) : Char := Char.ofNat (if n < 10 then 48 + n else 87 + n)

/-- A lower-case digit. -/
def IsHexDigit (c : Char) : Prop := ∃ n < 16, c = hexDigit n

/-- Bytes as text, two digits each. -/
def hexChars : Bytes → List Char
  | [] => []
  | b :: bs => hexDigit (b.toNat / 16) :: hexDigit (b.toNat % 16) :: hexChars bs

/-- The value of a digit, in either case. -/
def nibble (b : UInt8) : Option Nat :=
  if 48 ≤ b.toNat ∧ b.toNat ≤ 57 then some (b.toNat - 48)
  else if 97 ≤ b.toNat ∧ b.toNat ≤ 102 then some (b.toNat - 87)
  else if 65 ≤ b.toNat ∧ b.toNat ≤ 70 then some (b.toNat - 55)
  else none

/-- Reads pairs of digits. -/
def decodeHex : Bytes → Option Bytes
  | [] => some []
  | [_] => none
  | hi :: lo :: rest =>
    match nibble hi, nibble lo with
    | some h, some l => (decodeHex rest).map fun bs => UInt8.ofNat (16 * h + l) :: bs
    | _, _ => none

@[simp] theorem length_hexChars (bs : Bytes) : (hexChars bs).length = 2 * bs.length := by
  induction bs with
  | nil => rfl
  | cons b bs ih =>
    simp only [hexChars, length_cons, ih]
    omega

theorem isHexDigit_of_mem {bs : Bytes} {c : Char} (h : c ∈ hexChars bs) : IsHexDigit c := by
  induction bs with
  | nil => cases h
  | cons b bs ih =>
    have hb := b.toNat_lt
    simp only [hexChars, mem_cons] at h
    rcases h with rfl | rfl | h
    · exact ⟨b.toNat / 16, by omega, rfl⟩
    · exact ⟨b.toNat % 16, by omega, rfl⟩
    · exact ih h

/-- A digit's code is one byte, and its value comes back. -/
theorem utf8EncodeChar_hexDigit : ∀ n < 16,
    String.utf8EncodeChar (hexDigit n) = [UInt8.ofNat (hexDigit n).toNat] ∧
      nibble (UInt8.ofNat (hexDigit n).toNat) = some n := by
  decide

theorem length_utf8_hexChars (bs : Bytes) :
    (utf8 (String.ofList (hexChars bs))).length = 2 * bs.length := by
  rw [utf8_ofList]
  induction bs with
  | nil => rfl
  | cons b bs ih =>
    have hb := b.toNat_lt
    obtain ⟨hhi, -⟩ := utf8EncodeChar_hexDigit (b.toNat / 16) (by omega)
    obtain ⟨hlo, -⟩ := utf8EncodeChar_hexDigit (b.toNat % 16) (by omega)
    simp only [hexChars, flatMap_cons, hhi, hlo, singleton_append, length_cons, ih]
    omega

theorem length_utf8_replicate (n : Nat) :
    (utf8 (String.ofList (List.replicate n 'a'))).length = n := by
  have ha : (String.utf8EncodeChar 'a').length = 1 := by decide
  rw [utf8_ofList, length_flatMap, map_replicate, ha]
  simp

theorem utf8_append (s t : String) : utf8 (s ++ t) = utf8 s ++ utf8 t := by
  rw [utf8, String.toByteArray_append, utf8, utf8]
  simp

/-- **Round trip.** -/
theorem decodeHex_hexChars (bs : Bytes) :
    decodeHex (utf8 (String.ofList (hexChars bs))) = some bs := by
  rw [utf8_ofList]
  induction bs with
  | nil => rfl
  | cons b bs ih =>
    have hb := b.toNat_lt
    obtain ⟨hhi, hhi'⟩ := utf8EncodeChar_hexDigit (b.toNat / 16) (by omega)
    obtain ⟨hlo, hlo'⟩ := utf8EncodeChar_hexDigit (b.toNat % 16) (by omega)
    have hval : 16 * (b.toNat / 16) + b.toNat % 16 = b.toNat := by omega
    simp only [hexChars, flatMap_cons, hhi, hlo, singleton_append, decodeHex, hhi', hlo',
      ih, Option.map_some, hval, UInt8.ofNat_toNat]

/-- Nor is the code of one any byte below the digits. -/
theorem not_mem_utf8_hexChars {x : UInt8} (hx : x < 48) (bs : Bytes) :
    x ∉ utf8 (String.ofList (hexChars bs)) := by
  have hdigit : ∀ n < 16, 48 ≤ UInt8.ofNat (hexDigit n).toNat := by decide
  rw [utf8_ofList]
  induction bs with
  | nil => simp [hexChars]
  | cons b bs ih =>
    have hb := b.toNat_lt
    obtain ⟨hhi, -⟩ := utf8EncodeChar_hexDigit (b.toNat / 16) (by omega)
    obtain ⟨hlo, -⟩ := utf8EncodeChar_hexDigit (b.toNat % 16) (by omega)
    have hhi' := hdigit (b.toNat / 16) (by omega)
    have hlo' := hdigit (b.toNat % 16) (by omega)
    simp only [hexChars, flatMap_cons, hhi, hlo, singleton_append, mem_cons, not_or]
    refine ⟨?_, ?_, ih⟩
    · rintro rfl
      exact absurd hx (UInt8.not_lt.mpr hhi')
    · rintro rfl
      exact absurd hx (UInt8.not_lt.mpr hlo')

/-- No digit is a separator. -/
theorem IsHexDigit.ne {c : Char} (h : IsHexDigit c) : c ≠ ' ' ∧ c ≠ '\n' ∧ c ≠ 'n' ∧ c ≠ '\x00' := by
  obtain ⟨n, hn, rfl⟩ := h
  revert n
  decide

end Alt.Library
