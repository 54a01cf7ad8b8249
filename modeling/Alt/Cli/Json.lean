import Alt.StructDiff.Unambiguous

namespace Alt.Cli

open Alt.Library StructDiff Binary64 List

/-!
# CLI — the JSON that is written (`alt-cli/src/json.rs`)

* `Json` — what commands report; `Json.write`, `emit` — how it is written;
* `Json.meaning` — what it says, with strings as what is left of their bytes as text;
* `write_faithful` — what is written is a document, it says that and nothing else, and it is one line.
-/

/-- A value, with floats of `φ`. -/
inductive Json (φ : Type) where
  | null
  | bool (b : Bool)
  | num (n : Int)
  | float (f : φ)
  | str (bytes : Bytes)
  | array (items : List (Json φ))
  | object (fields : List (String × Json φ))

/-- `{:04x}`. -/
def hex4 (n : Nat) : Text := List.leftpad 4 '0' (Nat.toDigits 16 n)

/-- What is written for a character of a string. -/
def writeChar (c : Char) : Bytes :=
  if c = '"' then [0x5c, 0x22]
  else if c = '\\' then [0x5c, 0x5c]
  else if c = '\n' then [0x5c, 0x6e]
  else if c = '\r' then [0x5c, 0x72]
  else if c = '\t' then [0x5c, 0x74]
  else if c = '\x08' then [0x5c, 0x62]
  else if c = '\x0c' then [0x5c, 0x66]
  else if c.toNat < 0x20 then [0x5c, 0x75] ++ encode (hex4 c.toNat)
  else String.utf8EncodeChar c

/-- `write_json_string`. -/
def writeJsonString (bytes : Bytes) : Bytes := 0x22 :: ((lossyText bytes).flatMap writeChar ++ [0x22])

section Write

variable {φ : Type} (writeFloat : φ → Bytes)

mutual

def Json.write : Json φ → Bytes
  | .null => utf8 "null"
  | .bool b => if b then utf8 "true" else utf8 "false"
  | .num n => encode (intText n)
  | .float f => writeFloat f
  | .str bytes => writeJsonString bytes
  | .array items => 0x5b :: ([0x2c].intercalate (writeItems items) ++ [0x5d])
  | .object fields => 0x7b :: ([0x2c].intercalate (writeFields fields) ++ [0x7d])

def writeItems : List (Json φ) → List Bytes
  | [] => []
  | v :: vs => v.write :: writeItems vs

def writeFields : List (String × Json φ) → List Bytes
  | [] => []
  | (k, v) :: fields => (writeJsonString (utf8 k) ++ 0x3a :: v.write) :: writeFields fields

end

def emit (fields : List (String × Json φ)) : Bytes :=
  (Json.object (("schema_version", .num 1) :: fields)).write writeFloat ++ [0x0a]

end Write

/-! ### What is said -/

/-- What is left of bytes as text, in code points. -/
def readText (bytes : Bytes) : List Nat := (lossyText bytes).map Char.toNat

mutual

/-- **What a value says**, if it has no floats. -/
def Json.meaning : Json Empty → StructDiff.Tree ℚ (List Nat)
  | .null => .null
  | .bool b => .bool b
  | .num n => .number n
  | .str bytes => .string (readText bytes)
  | .array items => .array (meaningItems items)
  | .object fields => .object (meaningFields fields)

def meaningItems : List (Json Empty) → List (StructDiff.Tree ℚ (List Nat))
  | [] => []
  | v :: vs => v.meaning :: meaningItems vs

def meaningFields : List (String × Json Empty) → List (List Nat × StructDiff.Tree ℚ (List Nat))
  | [] => []
  | (k, v) :: fields => (k.toList.map Char.toNat, v.meaning) :: meaningFields fields

end

/-! ### Strings -/

/-- A hexadecimal digit in lower case. -/
def lowerHex (d : Fin 16) : HexDigit :=
  ⟨UInt8.ofNat (if d.val < 10 then 48 + d.val else 87 + d.val), by revert d; decide⟩

theorem value_lowerHex : ∀ d : Fin 16, (lowerHex d).value = d.val := by decide

/-- An escape of a control character is a code unit in four digits. -/
theorem encode_hex4 : ∀ n : Fin 32, encode (hex4 n.val) = [0x30, 0x30, (lowerHex ⟨n.val / 16, by omega⟩).val,
    (lowerHex ⟨n.val % 16, by omega⟩).val] := by decide

/-- What is written for a character stands for it. -/
theorem exists_piece (c : Char) : ∃ p : Piece, p.bytes = writeChar c ∧ p.unit = c.toNat := by
  rw [writeChar]
  split_ifs with h₁ h₂ h₃ h₄ h₅ h₆ h₇ h₈
  · exact ⟨.escape .quote, rfl, by rw [h₁]; rfl⟩
  · exact ⟨.escape .backslash, rfl, by rw [h₂]; rfl⟩
  · exact ⟨.escape .lineFeed, rfl, by rw [h₃]; rfl⟩
  · exact ⟨.escape .carriageReturn, rfl, by rw [h₄]; rfl⟩
  · exact ⟨.escape .tab, rfl, by rw [h₅]; rfl⟩
  · exact ⟨.escape .backspace, rfl, by rw [h₆]; rfl⟩
  · exact ⟨.escape .formFeed, rfl, by rw [h₇]; rfl⟩
  · have hhex := encode_hex4 ⟨c.toNat, h₈⟩
    refine ⟨.code (lowerHex 0) (lowerHex 0) (lowerHex ⟨c.toNat / 16, by omega⟩) (lowerHex ⟨c.toNat % 16, by omega⟩),
      ?_, ?_⟩
    · rw [hhex]
      rfl
    · simp only [Piece.unit, codeValue, value_lowerHex]
      change 16 * (16 * (16 * 0 + 0) + c.toNat / 16) + c.toNat % 16 = c.toNat
      omega
  · exact ⟨.plain c ⟨not_lt.mp h₈, h₁, h₂⟩, rfl, rfl⟩

/-- A string is written in pieces that stand for its characters. -/
theorem exists_pieces (s : Text) :
    ∃ pieces : List Piece, pieces.flatMap Piece.bytes = s.flatMap writeChar ∧ codePoints pieces = s.map Char.toNat := by
  have hunits : ∃ pieces : List Piece, pieces.flatMap Piece.bytes = s.flatMap writeChar ∧
      pieces.map Piece.unit = s.map Char.toNat := by
    induction s with
    | nil => exact ⟨[], rfl, rfl⟩
    | cons c s ih =>
      obtain ⟨p, hbytes, hunit⟩ := exists_piece c
      obtain ⟨pieces, hpieces, hunits⟩ := ih
      exact ⟨p :: pieces, by rw [flatMap_cons, flatMap_cons, hbytes, hpieces],
        by rw [map_cons, map_cons, hunit, hunits]⟩
  obtain ⟨pieces, hbytes, hunits⟩ := hunits
  have hplain : Plain pieces := by
    intro p hp _ hsurrogate
    have hmem : p.unit ∈ s.map Char.toNat := hunits ▸ mem_map_of_mem hp
    obtain ⟨c, -, hc⟩ := mem_map.mp hmem
    have hvalid : c.toNat.isValidChar := c.valid
    rw [Nat.isValidChar] at hvalid
    omega
  refine ⟨pieces, hbytes, ?_⟩
  rw [codePoints_plain hplain, keptString, map_map, ← hunits]
  exact map_congr_left fun p hp => unit_plain (hplain p hp)

theorem exists_string (bytes : Bytes) :
    ∃ pieces, stringBytes pieces = writeJsonString bytes ∧ codePoints pieces = readText bytes := by
  obtain ⟨pieces, hbytes, hpoints⟩ := exists_pieces (lossyText bytes)
  exact ⟨pieces, by rw [stringBytes, hbytes, writeJsonString], hpoints⟩

theorem lossyText_key (k : String) : readText (utf8 k) = k.toList.map Char.toNat := by
  obtain ⟨cs, rfl⟩ : ∃ cs, k = String.ofList cs := ⟨k.toList, String.ofList_toList.symm⟩
  rw [readText, utf8_ofList, lossyText_encoded, String.toList_ofList]

/-! ### Numbers -/

/-- Digits do not begin with a zero, unless they are one. -/
theorem head_toDigits (n : Nat) : (Nat.toDigits 10 n).head? = some '0' → Nat.toDigits 10 n = ['0'] := by
  induction n using Nat.strongRecOn with
  | ind n ih =>
    by_cases hlt : n < 10
    · rw [Nat.toDigits_of_lt_base hlt]
      intro h
      rw [Option.some.inj h]
    · intro h
      rw [Nat.toDigits_of_base_le (by decide) (not_lt.mp hlt), head?_append_of_ne_nil _ Nat.toDigits_ne_nil] at h
      have hzero : natOf (Nat.toDigits 10 (n / 10)) = natOf ['0'] := by rw [ih (n / 10) (by omega) h]
      rw [natOf_toDigits] at hzero
      have hnone : natOf ['0'] = 0 := rfl
      omega

/-- The spelling of an integer. -/
def intToken (n : Int) : NumberToken where
  negative := decide (n < 0)
  whole := ⟨Nat.toDigits 10 n.natAbs, Nat.toDigits_ne_nil, isDigit_of_mem_toDigits⟩
  noLeadingZero := head_toDigits n.natAbs
  fraction := none
  exponent := none

theorem text_intToken (n : Int) : (intToken n).text = intText n := by
  simp [NumberToken.text, intToken, intText, fractionText]

theorem value_intToken (n : Int) : (intToken n).value = n := by
  have hsign := sign_mul_natAbs n
  simpa [NumberToken.value, intToken, natOf_toDigits] using hsign

/-! ### Values -/

/-- Parts with commas between them. -/
theorem intercalate_cons_cons (c : UInt8) (a b : Bytes) (l : List Bytes) :
    [c].intercalate (a :: b :: l) = a ++ c :: [c].intercalate (b :: l) := by
  simp [List.intercalate]

mutual

/-- What is written for a value is a document that says what it says. -/
theorem exists_doc : ∀ v : Json Empty, ∃ d : Doc, d.bytes = v.write Empty.elim ∧ d.denote = v.meaning
  | .null => ⟨.null, rfl, rfl⟩
  | .bool true => ⟨.bool true, rfl, rfl⟩
  | .bool false => ⟨.bool false, rfl, rfl⟩
  | .num n => ⟨.number (intToken n), congrArg encode (text_intToken n), congrArg Tree.number (value_intToken n)⟩
  | .str bytes => by
    obtain ⟨pieces, hbytes, hpoints⟩ := exists_string bytes
    exact ⟨.string pieces, hbytes, congrArg Tree.string hpoints⟩
  | .array [] => ⟨.emptyArray noBlanks, rfl, rfl⟩
  | .array (v :: vs) => by
    obtain ⟨items, hbytes, hsays⟩ := exists_items (v :: vs) (cons_ne_nil v vs)
    exact ⟨.array noBlanks items, congrArg (0x5b :: ·) hbytes, congrArg Tree.array hsays⟩
  | .object [] => ⟨.emptyObject noBlanks, rfl, rfl⟩
  | .object ((k, v) :: fields) => by
    obtain ⟨members, hbytes, hsays⟩ := exists_members ((k, v) :: fields) (cons_ne_nil _ _)
    exact ⟨.object noBlanks members, congrArg (0x7b :: ·) hbytes, congrArg Tree.object hsays⟩

theorem exists_items : ∀ vs : List (Json Empty), vs ≠ [] → ∃ items : Items,
    items.bytes = [0x2c].intercalate (writeItems Empty.elim vs) ++ [0x5d] ∧ items.denote = meaningItems vs
  | [], h => absurd rfl h
  | [v], _ => by
    obtain ⟨d, hbytes, hsays⟩ := exists_doc v
    refine ⟨.last d noBlanks, ?_, congrArg (fun t => [t]) hsays⟩
    simp [Items.bytes, hbytes, noBlanks, writeItems, List.intercalate]
  | v :: w :: vs, _ => by
    obtain ⟨d, hbytes, hsays⟩ := exists_doc v
    obtain ⟨items, hrest, hmore⟩ := exists_items (w :: vs) (cons_ne_nil w vs)
    refine ⟨.more d noBlanks noBlanks items, ?_, congrArg₂ List.cons hsays hmore⟩
    simp [Items.bytes, hbytes, hrest, noBlanks, writeItems, intercalate_cons_cons]

theorem exists_members : ∀ fields : List (String × Json Empty), fields ≠ [] → ∃ members : Members,
    members.bytes = [0x2c].intercalate (writeFields Empty.elim fields) ++ [0x7d] ∧
      members.denote = meaningFields fields
  | [], h => absurd rfl h
  | [(k, v)], _ => by
    obtain ⟨d, hbytes, hsays⟩ := exists_doc v
    obtain ⟨key, hkey, hpoints⟩ := exists_string (utf8 k)
    rw [lossyText_key] at hpoints
    refine ⟨.last key noBlanks noBlanks d noBlanks, ?_, congrArg₂ (fun j t => [(j, t)]) hpoints hsays⟩
    simp [Members.bytes, hbytes, hkey, noBlanks, writeFields, List.intercalate]
  | (k, v) :: (k', v') :: fields, _ => by
    obtain ⟨d, hbytes, hsays⟩ := exists_doc v
    obtain ⟨key, hkey, hpoints⟩ := exists_string (utf8 k)
    rw [lossyText_key] at hpoints
    obtain ⟨members, hrest, hmore⟩ := exists_members ((k', v') :: fields) (cons_ne_nil _ _)
    refine ⟨.more key noBlanks noBlanks d noBlanks noBlanks members, ?_,
      congrArg₂ List.cons (congrArg₂ Prod.mk hpoints hsays) hmore⟩
    simp [Members.bytes, hbytes, hkey, hrest, noBlanks, writeFields, intercalate_cons_cons]

end

/-! ### One line -/

theorem newline_not_mem_writeChar (c : Char) : 0x0a ∉ writeChar c := by
  rw [writeChar]
  split_ifs with h₁ h₂ h₃ h₄ h₅ h₆ h₇ h₈
  any_goals decide
  · have hhex := encode_hex4 ⟨c.toNat, h₈⟩
    have hdigit : ∀ d : Fin 16, (lowerHex d).val ≠ 0x0a := by decide
    rw [hhex]
    simp [(hdigit _).symm]
  · intro hmem
    have hnat : c.toNat = 10 := eq_of_mem_utf8EncodeChar (by decide) hmem
    omega

theorem newline_not_mem_string (bytes : Bytes) : 0x0a ∉ writeJsonString bytes := by
  intro hmem
  rw [writeJsonString, mem_cons, mem_append, mem_flatMap] at hmem
  rcases hmem with h | ⟨c, -, h⟩ | h
  · exact absurd h (by decide)
  · exact newline_not_mem_writeChar c h
  · exact absurd h (by decide)

theorem newline_not_mem_number (n : Int) : 0x0a ∉ encode (intText n) := by
  intro hmem
  rw [← text_intToken] at hmem
  exact absurd (isNumberByte_encode (text_numberChars (intToken n)) _ hmem) (by decide)

theorem newline_not_mem_intercalate {l : List Bytes} (h : ∀ part ∈ l, 0x0a ∉ part) :
    0x0a ∉ [0x2c].intercalate l := by
  induction l with
  | nil => exact not_mem_nil
  | cons a l ih =>
    cases l with
    | nil => simpa [List.intercalate] using h a mem_cons_self
    | cons b l =>
      rw [intercalate_cons_cons, mem_append, mem_cons, not_or, not_or]
      exact ⟨h a mem_cons_self, by decide, ih fun part hpart => h part (mem_cons_of_mem a hpart)⟩

mutual

theorem newline_not_mem_write : ∀ v : Json Empty, 0x0a ∉ v.write Empty.elim
  | .null => by decide
  | .bool true => by decide
  | .bool false => by decide
  | .num n => newline_not_mem_number n
  | .str bytes => newline_not_mem_string bytes
  | .array items => by
    rw [Json.write, mem_cons, mem_append, mem_singleton, not_or, not_or]
    exact ⟨by decide, newline_not_mem_intercalate (newline_not_mem_items items), by decide⟩
  | .object fields => by
    rw [Json.write, mem_cons, mem_append, mem_singleton, not_or, not_or]
    exact ⟨by decide, newline_not_mem_intercalate (newline_not_mem_fields fields), by decide⟩

theorem newline_not_mem_items : ∀ (vs : List (Json Empty)), ∀ part ∈ writeItems Empty.elim vs, 0x0a ∉ part
  | [] => fun part hpart => by cases hpart
  | v :: vs => by
    rw [writeItems, forall_mem_cons]
    exact ⟨newline_not_mem_write v, newline_not_mem_items vs⟩

theorem newline_not_mem_fields : ∀ (fields : List (String × Json Empty)), ∀ part ∈ writeFields Empty.elim fields, 0x0a ∉ part
  | [] => fun part hpart => by cases hpart
  | (k, v) :: fields => by
    rw [writeFields, forall_mem_cons]
    refine ⟨?_, newline_not_mem_fields fields⟩
    rw [mem_append, mem_cons, not_or, not_or]
    exact ⟨newline_not_mem_string _, by decide, newline_not_mem_write v⟩

end

/-- **What is written** for a value without floats is a JSON document that says what the value says, and no
document of these bytes says anything else; a command's result is one line. -/
theorem write_faithful :
    (∀ v : Json Empty, (∃ d : Document, d.bytes = v.write Empty.elim) ∧
      ∀ d : Document, d.bytes = v.write Empty.elim → d.value.denote = v.meaning) ∧
    ∀ fields : List (String × Json Empty), ∃ line, emit Empty.elim fields = line ++ [0x0a] ∧ 0x0a ∉ line := by
  refine ⟨fun v => ?_, fun fields => ⟨_, rfl, newline_not_mem_write _⟩⟩
  obtain ⟨d, hbytes, hsays⟩ := exists_doc v
  have hdocument : (Document.mk noBlanks d noBlanks).bytes = v.write Empty.elim := by
    rw [Document.bytes, noBlanks, nil_append, append_nil, hbytes]
  refine ⟨⟨_, hdocument⟩, fun e he => ?_⟩
  rw [denote_unique (he.trans hdocument.symm), hsays]

end Alt.Cli
