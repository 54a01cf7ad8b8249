import Alt.Library.Bytes

namespace Alt.Library

open List

/-!
# Library — reading bytes as text, with losses

A lossy reader keeps the characters of a byte string and puts U+FFFD in the place of each piece that
is not one: of a byte that begins none, or of a character that is cut short.

* `lossyText b` — the characters it reads; `lossy b` — their UTF-8 bytes;
* `lossy_eq_self_iff` — nothing is lost exactly if the bytes are UTF-8.
-/

/-- The first character, if the bytes begin with one. -/
def decodeChar (b : Bytes) : Option Char := ByteArray.utf8DecodeChar? ⟨b.toArray⟩ 0

theorem decodeChar_append (c : Char) (rest : Bytes) :
    decodeChar (String.utf8EncodeChar c ++ rest) = some c := by
  have h := ByteArray.utf8DecodeChar?_utf8EncodeChar_append (b := ⟨rest.toArray⟩) (c := c)
  rw [decodeChar, ← h]
  congr 1
  ext1
  rw [ByteArray.data_append, data_toByteArray]
  simp

/-- Whether `c` can follow the first byte `b` of a character of three bytes or four. -/
def followsLead (b c : UInt8) : Bool :=
  (b == 0xe0 && 0xa0 ≤ c && c ≤ 0xbf) || (0xe1 ≤ b && b ≤ 0xec && 0x80 ≤ c && c ≤ 0xbf) ||
    (b == 0xed && 0x80 ≤ c && c ≤ 0x9f) || (0xee ≤ b && b ≤ 0xef && 0x80 ≤ c && c ≤ 0xbf) ||
    (b == 0xf0 && 0x90 ≤ c && c ≤ 0xbf) || (0xf1 ≤ b && b ≤ 0xf3 && 0x80 ≤ c && c ≤ 0xbf) ||
    (b == 0xf4 && 0x80 ≤ c && c ≤ 0x8f)

/-- How many of the bytes behind `b` belong to a character that is cut short. -/
def cutRest (b : UInt8) : Bytes → Nat
  | [] => 0
  | [c] => if followsLead b c then 1 else 0
  | c :: d :: _ => if followsLead b c then if 0xf0 ≤ b && 0x80 ≤ d && d ≤ 0xbf then 2 else 1 else 0

/-- The bytes of U+FFFD. -/
def replacement : Bytes := String.utf8EncodeChar '\uFFFD'

/-- The bytes, with a mark in the place of what is no character. -/
def lossy : Bytes → Bytes
  | [] => []
  | b :: bs =>
    match decodeChar (b :: bs) with
    | some c => String.utf8EncodeChar c ++ lossy (bs.drop (c.utf8Size - 1))
    | none => replacement ++ lossy (bs.drop (cutRest b bs))
termination_by bs => bs.length
decreasing_by all_goals simp only [length_drop, length_cons]; omega

/-- The characters, with a mark in the place of what is none. -/
def lossyText : Bytes → List Char
  | [] => []
  | b :: bs =>
    match decodeChar (b :: bs) with
    | some c => c :: lossyText (bs.drop (c.utf8Size - 1))
    | none => '\uFFFD' :: lossyText (bs.drop (cutRest b bs))
termination_by bs => bs.length
decreasing_by all_goals simp only [length_drop, length_cons]; omega

theorem lossyText_append (c : Char) (rest : Bytes) :
    lossyText (String.utf8EncodeChar c ++ rest) = c :: lossyText rest := by
  have hdecode := decodeChar_append c rest
  have hlength : (String.utf8EncodeChar c).length = c.utf8Size := String.length_utf8EncodeChar c
  have hpos := c.utf8Size_pos
  cases hbytes : String.utf8EncodeChar c with
  | nil =>
    rw [hbytes, length_nil] at hlength
    omega
  | cons b bs =>
    rw [hbytes, cons_append] at hdecode
    rw [hbytes, length_cons] at hlength
    have hdrop : (bs ++ rest).drop (c.utf8Size - 1) = rest := by
      rw [show c.utf8Size - 1 = bs.length by omega, drop_left]
    rw [cons_append, lossyText, hdecode]
    dsimp only
    rw [hdrop]

/-- **The characters come back.** -/
theorem lossyText_encoded (cs : List Char) : lossyText (cs.flatMap String.utf8EncodeChar) = cs := by
  induction cs with
  | nil => rw [flatMap_nil, lossyText]
  | cons c cs ih => rw [flatMap_cons, lossyText_append, ih]

/-- What is read, as bytes, is what is read as characters. -/
theorem lossy_eq_flatMap (b : Bytes) : lossy b = (lossyText b).flatMap String.utf8EncodeChar := by
  induction b using lossy.induct with
  | case1 => rw [lossy, lossyText, flatMap_nil]
  | case2 b bs c hdecode ih =>
    rw [lossy, lossyText, hdecode]
    dsimp only
    rw [ih, flatMap_cons]
  | case3 b bs hdecode ih =>
    rw [lossy, lossyText, hdecode]
    dsimp only
    rw [ih, flatMap_cons]
    rfl

/-- **Text is read as it is.** -/
theorem lossy_utf8 (s : String) : lossy (utf8 s) = utf8 s := by
  obtain ⟨cs, rfl⟩ : ∃ cs, s = String.ofList cs := ⟨s.toList, String.ofList_toList.symm⟩
  rw [utf8_ofList, lossy_eq_flatMap, lossyText_encoded]

/-- **What is read is text.** -/
theorem exists_lossy (b : Bytes) : ∃ s, lossy b = utf8 s :=
  ⟨String.ofList (lossyText b), by rw [lossy_eq_flatMap, utf8_ofList]⟩

/-- **Nothing is lost** exactly if the bytes are text. -/
theorem lossy_eq_self_iff {b : Bytes} : lossy b = b ↔ ∃ s, b = utf8 s := by
  constructor
  · intro h
    obtain ⟨s, hs⟩ := exists_lossy b
    exact ⟨s, by rw [← hs, h]⟩
  · rintro ⟨s, rfl⟩
    exact lossy_utf8 s

end Alt.Library
