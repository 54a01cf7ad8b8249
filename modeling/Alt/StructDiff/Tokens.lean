import Alt.StructDiff.Json

namespace Alt.StructDiff

open Alt.Library Attempt TextScan Binary64 List

/-!
# Structured diff — what numbers and strings say, and what is kept of them

* `keptText_injective` — of two numbers the same text is kept exactly when the same binary64 value is;
* `NumberToken` — a number as it is spelled; `parseNumber_token` — how it is read;
* `Piece` — a character of a string as it is spelled; `codePoints` — what a string says, `keptString` — what is
  kept of it; `parseString_pieces` — how it is read.
-/

/-! ### Kept numbers -/

theorem parseDecimal_intText (n : Int) : ∃ d, parseDecimal (intText n) = some d ∧ d.value = n := by
  have hread := @parseDecimal_parts (decide (n < 0)) _ [] none 0 (Nat.toDigits_ne_nil (n := n.natAbs) (b := 10))
    isDigit_of_mem_toDigits (fun _ h => by cases h) (fun c hc => by cases hc) rfl
  have htext : intText n = (if decide (n < 0) then ['-'] else []) ++ (Nat.toDigits 10 n.natAbs ++
      (fractionText none ++ [])) := by
    rw [intText, fractionText, append_nil, append_nil]
    by_cases hn : n < 0
    · simp [hn]
    · simp [hn]
  rw [← htext] at hread
  refine ⟨_, hread, ?_⟩
  rw [Decimal.value, Option.getD_none, append_nil, natOf_toDigits]
  have hsign := sign_mul_natAbs n
  simpa using hsign

/-- A kept text of a number names its value. -/
theorem keptText_reads {q v : ℚ} (h : nearest q = .finite v) :
    ∃ d, parseDecimal (keptText (.finite v)) = some d ∧ nearest d.value = .finite v := by
  rw [keptText]
  split
  · rename_i hint
    obtain ⟨d, hd, hvalue⟩ := parseDecimal_intText v.num
    have hv : (v.num : ℚ) = v := Rat.coe_int_num_of_den_eq_one hint.1
    exact ⟨d, hd, by rw [hvalue, hv, nearest_of_nearest h]⟩
  · obtain ⟨d, hd, hvalue⟩ := parseDecimal_plain (shortest v)
    exact ⟨d, hd, by rw [hvalue, nearest_shortest (representable_of_nearest h)]⟩

theorem parseDecimal_infinite (negative : Bool) : parseDecimal (keptText (.infinite negative)) = none := by
  cases negative <;> rfl

/-- **The kept text** tells two values apart. -/
theorem keptText_injective {p q : ℚ} (h : keptText (nearest p) = keptText (nearest q)) : nearest p = nearest q := by
  cases hp : nearest p with
  | finite v =>
    obtain ⟨d, hd, hv⟩ := keptText_reads hp
    cases hq : nearest q with
    | finite w =>
      obtain ⟨e, he, hw⟩ := keptText_reads hq
      rw [hp, hq] at h
      rw [h, he] at hd
      cases hd
      rw [← hv, hw]
    | infinite n =>
      rw [hp, hq] at h
      rw [h, parseDecimal_infinite] at hd
      cases hd
  | infinite m =>
    cases hq : nearest q with
    | finite w =>
      obtain ⟨e, he, hw⟩ := keptText_reads hq
      rw [hp, hq] at h
      rw [← h, parseDecimal_infinite] at he
      cases he
    | infinite n =>
      rw [hp, hq] at h
      cases m <;> cases n <;> first | rfl | exact absurd h (by decide)

/-! ### Numbers as they are spelled -/

/-- One digit or more. -/
abbrev Digits := { s : Text // s ≠ [] ∧ ∀ c ∈ s, c.isDigit = true }

/-- An exponent: its letter, its sign if it has one, and its digits. -/
structure ExponentToken where
  upper : Bool
  negative : Option Bool
  digits : Digits

/-- A number of a JSON document. -/
structure NumberToken where
  negative : Bool
  whole : Digits
  noLeadingZero : whole.val.head? = some '0' → whole.val = ['0']
  fraction : Option Digits
  exponent : Option ExponentToken

def ExponentToken.text (e : ExponentToken) : Text :=
  (if e.upper then 'E' else 'e') ::
    ((match e.negative with | none => [] | some true => ['-'] | some false => ['+']) ++ e.digits.val)

/-- The power of ten. -/
def ExponentToken.value (e : ExponentToken) : Int :=
  if e.negative = some true then -(natOf e.digits.val : Int) else natOf e.digits.val

def NumberToken.text (t : NumberToken) : Text :=
  (if t.negative then ['-'] else []) ++ (t.whole.val ++ (fractionText (t.fraction.map (·.val)) ++
    (t.exponent.map ExponentToken.text).getD []))

/-- The number that is spelled, exactly. -/
def NumberToken.value (t : NumberToken) : ℚ :=
  let fraction := (t.fraction.map (·.val)).getD []
  (if t.negative then -1 else 1) * natOf (t.whole.val ++ fraction) *
    (10 : ℚ) ^ ((t.exponent.map ExponentToken.value).getD 0 - (fraction.length : Int))

/-- What is kept of it. -/
def NumberToken.kept (t : NumberToken) : Text := keptText (nearest t.value)

theorem parseExponent_text (e : ExponentToken) : parseExponent e.text = some e.value := by
  obtain ⟨upper, negative, digits, hne, hdigits⟩ := e
  have hall : digits.all Char.isDigit = true := all_eq_true.mpr hdigits
  have hplain : splitSign digits = (false, digits) := by
    cases digits with
    | nil => exact absurd rfl hne
    | cons c digits => exact splitSign_digit (hdigits c mem_cons_self) digits
  rw [ExponentToken.text, parseExponent]
  cases negative with
  | none => simp [hplain, hne, hall, ExponentToken.value]
  | some negative => cases negative <;> simp [splitSign, hne, hall, ExponentToken.value]

variable (t : NumberToken)

/-- A number is read as the decimal that it spells. -/
theorem parseDecimal_token : ∃ d, parseDecimal t.text = some d ∧ d.value = t.value := by
  have htail : ∀ c ∈ ((t.exponent.map ExponentToken.text).getD []).head?, c.isDigit = false ∧ c ≠ '.' := by
    cases t.exponent with
    | none => exact fun c hc => by cases hc
    | some e =>
      intro c hc
      cases hc
      cases e.upper <;> decide
  have hexponent : parseExponent ((t.exponent.map ExponentToken.text).getD [])
      = some ((t.exponent.map ExponentToken.value).getD 0) := by
    cases t.exponent with
    | none => rfl
    | some e => exact parseExponent_text e
  have hfraction : ∀ digits ∈ t.fraction.map (·.val), ∀ c ∈ digits, c.isDigit = true := by
    intro digits hmem
    obtain ⟨f, -, rfl⟩ := Option.map_eq_some_iff.mp hmem
    exact f.2.2
  have hread := parseDecimal_parts t.negative (t.fraction.map (·.val)) t.whole.2.1 t.whole.2.2 hfraction htail
    hexponent
  exact ⟨_, hread, rfl⟩

theorem canonicalNumber_token : canonicalNumber t.text = some t.kept := by
  obtain ⟨d, hd, hvalue⟩ := parseDecimal_token t
  rw [canonicalNumber, hd, Option.map_some, hvalue]
  rfl

/-! ### How a number is read -/

/-- The bytes of a text. -/
def encode (s : Text) : Bytes := s.flatMap String.utf8EncodeChar

theorem fromUtf8_encode (s : Text) : fromUtf8 (encode s) = some (String.ofList s) := by
  rw [encode, ← utf8_ofList, fromUtf8_utf8]

theorem digit_cases {c : Char} (h : c.isDigit = true) : c ∈ ['0', '1', '2', '3', '4', '5', '6', '7', '8', '9'] := by
  simp only [Char.isDigit, Bool.and_eq_true, decide_eq_true_eq] at h
  have hlow : 48 ≤ c.toNat := UInt32.le_iff_toNat_le.mp h.1
  have hhigh : c.toNat ≤ 57 := UInt32.le_iff_toNat_le.mp h.2
  have hc : c = Char.ofNat c.toNat := (Char.ofNat_toNat c).symm
  generalize c.toNat = n at hlow hhigh hc
  subst hc
  interval_cases n <;> decide

/-- The characters of which numbers are spelled. -/
def numberChars : Text := ['0', '1', '2', '3', '4', '5', '6', '7', '8', '9', '.', 'e', 'E', '+', '-']

theorem digits_numberChars {s : Text} (h : ∀ c ∈ s, c.isDigit = true) : ∀ c ∈ s, c ∈ numberChars := fun c hc =>
  mem_append_left ['.', 'e', 'E', '+', '-'] (digit_cases (h c hc))

theorem exponentText_numberChars (e : ExponentToken) : ∀ c ∈ e.text, c ∈ numberChars := by
  intro c hc
  rw [ExponentToken.text, mem_cons, mem_append] at hc
  rcases hc with rfl | hc | hc
  · cases e.upper <;> decide
  · cases hsign : e.negative with
    | none =>
      rw [hsign] at hc
      cases hc
    | some negative =>
      rw [hsign] at hc
      cases negative <;> rw [mem_singleton.mp hc] <;> decide
  · exact digits_numberChars e.digits.2.2 c hc

theorem text_numberChars : ∀ c ∈ t.text, c ∈ numberChars := by
  intro c hc
  rw [NumberToken.text, mem_append, mem_append, mem_append] at hc
  rcases hc with hc | hc | hc | hc
  · cases hsign : t.negative <;> rw [hsign] at hc
    · cases hc
    · rw [mem_singleton.mp hc]
      decide
  · exact digits_numberChars t.whole.2.2 c hc
  · cases hfraction : t.fraction with
    | none =>
      rw [hfraction] at hc
      cases hc
    | some f =>
      rw [hfraction] at hc
      rcases mem_cons.mp hc with rfl | hc
      · decide
      · exact digits_numberChars f.2.2 c hc
  · cases hexponent : t.exponent with
    | none =>
      rw [hexponent] at hc
      cases hc
    | some e =>
      rw [hexponent] at hc
      exact exponentText_numberChars e c hc

theorem isNumberByte_encode {s : Text} (h : ∀ c ∈ s, c ∈ numberChars) : ∀ b ∈ encode s, isNumberByte b = true := by
  have hchars : ∀ c ∈ numberChars, (String.utf8EncodeChar c).all isNumberByte = true := by
    refine forall_iff_forall_mem.mp ?_
    decide
  intro b hb
  obtain ⟨c, hc, hb⟩ := mem_flatMap.mp hb
  exact all_eq_true.mp (hchars c (h c hc)) b hb

/-- **A number** is read up to what follows, and its canonical text is kept. -/
theorem parseNumber_token {bytes rest : Bytes} {i : Nat}
    (h : Remains bytes i (encode t.text ++ rest)) (hrest : ∀ b ∈ rest.head?, isNumberByte b = false) :
    parseNumber bytes i = .ok (.number t.kept, i + (encode t.text).length) := by
  have hlength := h.length
  rw [length_append] at hlength
  have hnumber := isNumberByte_encode (text_numberChars t)
  have hskip : skipBytes isNumberByte bytes (bytes.length + 1) (if bytes[i]? = some 0x2d then i + 1 else i)
      = .ok (i + (encode t.text).length) := by
    split
    · rename_i hminus
      rw [h.head] at hminus
      cases hbytes : encode t.text with
      | nil =>
        rw [hbytes, nil_append] at hminus
        exact absurd (hrest _ hminus) (by decide)
      | cons b behind =>
        rw [hbytes, cons_append] at h
        have hnext : Remains bytes (i + 1) (behind ++ rest) := h.next_byte
        have hskip : skipBytes isNumberByte bytes (bytes.length + 1) _ = .ok _ := hnext.skipBytes
          (fun c hc => hnumber c (by rw [hbytes]; exact mem_cons_of_mem b hc)) hrest
          (by rw [hbytes, length_cons] at hlength; omega)
        rw [hskip, length_cons, Nat.add_assoc, Nat.add_comm 1]
    · exact h.skipBytes hnumber hrest (by omega)
  rw [parseNumber, hskip]
  simp only [ok_bind, h.cut, fromUtf8_encode, orDecline, String.toList_ofList, canonicalNumber_token, pure_eq_ok]

/-! ### Strings as they are spelled -/

/-- An escape of one letter. -/
inductive Escape where
  | quote | backslash | slash | backspace | formFeed | lineFeed | carriageReturn | tab
  deriving DecidableEq

def Escape.letter : Escape → UInt8
  | .quote => 0x22
  | .backslash => 0x5c
  | .slash => 0x2f
  | .backspace => 0x62
  | .formFeed => 0x66
  | .lineFeed => 0x6e
  | .carriageReturn => 0x72
  | .tab => 0x74

def Escape.char : Escape → Char
  | .quote => '"'
  | .backslash => '\\'
  | .slash => '/'
  | .backspace => '\x08'
  | .formFeed => '\x0c'
  | .lineFeed => '\n'
  | .carriageReturn => '\r'
  | .tab => '\t'

theorem simpleEscape_letter (e : Escape) : simpleEscape e.letter = some e.char ∧ e.letter ≠ 0x75 := by
  cases e <;> decide

/-- A hexadecimal digit, in either case. -/
abbrev HexDigit := { b : UInt8 // (nibble b).isSome }

def HexDigit.value (d : HexDigit) : Nat := (nibble d.val).get d.2

/-- A character of a string: itself, an escape of one letter, or a code unit in four digits. -/
inductive Piece where
  | plain (c : Char) (h : 0x20 ≤ c.toNat ∧ c ≠ '"' ∧ c ≠ '\\')
  | escape (e : Escape)
  | code (a b c d : HexDigit)

def codeValue (a b c d : HexDigit) : Nat := 16 * (16 * (16 * a.value + b.value) + c.value) + d.value

def Piece.bytes : Piece → Bytes
  | .plain c _ => String.utf8EncodeChar c
  | .escape e => [0x5c, e.letter]
  | .code a b c d => [0x5c, 0x75, a.val, b.val, c.val, d.val]

/-- The code unit or code point that it stands for. -/
def Piece.unit : Piece → Nat
  | .plain c _ => c.toNat
  | .escape e => e.char.toNat
  | .code a b c d => codeValue a b c d

/-- The character that is kept of it. -/
def Piece.kept : Piece → Char
  | .plain c _ => c
  | .escape e => e.char
  | .code a b c d => charOrReplacement (codeValue a b c d)

def Piece.isCode : Piece → Bool
  | .code .. => true
  | _ => false

def isHigh (n : Nat) : Bool := 0xd800 ≤ n && n < 0xdc00

def isLow (n : Nat) : Bool := 0xdc00 ≤ n && n < 0xe000

/-- The code points of a string, with each pair of surrogates as the one that it stands for. -/
def codePoints : List Piece → List Nat
  | [] => []
  | [p] => [p.unit]
  | p :: q :: rest =>
    if p.isCode && q.isCode && isHigh p.unit && isLow q.unit then
      (0x10000 + 0x400 * (p.unit - 0xd800) + (q.unit - 0xdc00)) :: codePoints rest
    else p.unit :: codePoints (q :: rest)

/-- What is kept of a string. -/
def keptString (pieces : List Piece) : Text := pieces.map Piece.kept

/-! ### How a string is read -/

def Piece.isPlain : Piece → Bool
  | .plain .. => true
  | _ => false

theorem isPlain_encodeChar {c : Char} (h : c ≠ '"' ∧ c ≠ '\\') : ∀ b ∈ String.utf8EncodeChar c, isPlain b = true := by
  intro b hb
  have hne : ∀ (a : UInt8) (d : Char), a < 0x80 → d.toNat = a.toNat → c ≠ d → b ≠ a := by
    rintro a d ha hd hcd rfl
    have hnat := eq_of_mem_utf8EncodeChar ha hb
    exact hcd (Char.toNat_inj.mp (hnat.trans hd.symm))
  simp only [isPlain, bne_iff_ne, Bool.and_eq_true]
  exact ⟨hne 0x22 '"' (by decide) rfl h.1, hne 0x5c '\\' (by decide) rfl h.2⟩

/-- Plain characters up to the next that is not. -/
theorem plain_run (pieces : List Piece) : ∃ run rest, pieces = run ++ rest ∧
    run.flatMap Piece.bytes = encode (keptString run) ∧ (∀ b ∈ run.flatMap Piece.bytes, isPlain b = true) ∧
    (∀ p ∈ rest.head?, p.isPlain = false) ∧ ∀ p ∈ pieces.head?, p.isPlain = true → run ≠ [] := by
  induction pieces with
  | nil => exact ⟨[], [], rfl, rfl, (fun b hb => by cases hb), (fun p hp => by cases hp), fun p hp => by cases hp⟩
  | cons p pieces ih =>
    cases hplain : p.isPlain with
    | true =>
      obtain ⟨c, h, rfl⟩ : ∃ c h, p = .plain c h := by
        cases p with
        | plain c h => exact ⟨c, h, rfl⟩
        | _ => cases hplain
      obtain ⟨run, rest, rfl, henc, hbytes, hrest, -⟩ := ih
      refine ⟨.plain c h :: run, rest, rfl, ?_, fun b hb => ?_, hrest, fun _ _ _ => by simp⟩
      · rw [flatMap_cons, henc]
        rfl
      · rw [flatMap_cons] at hb
        rcases mem_append.mp hb with hb | hb
        · exact isPlain_encodeChar h.2 b hb
        · exact hbytes b hb
    | false =>
      refine ⟨[], p :: pieces, rfl, rfl, (fun b hb => by cases hb), fun q hq => ?_, fun q hq htrue => ?_⟩
      · cases hq
        exact hplain
      · cases hq
        rw [hplain] at htrue
        cases htrue

theorem fromStrRadix16_code (a b c d : HexDigit) :
    fromStrRadix16 [a.val, b.val, c.val, d.val] = some (codeValue a b c d) := by
  have hdigit : ∀ x : HexDigit, nibble x.val = some x.value := fun x => (Option.some_get x.2).symm
  have hplus : a.val ≠ 0x2b := by
    intro heq
    have h := a.2
    rw [heq] at h
    exact absurd h (by decide)
  rw [fromStrRadix16]
  · simp only [foldlM_cons, foldlM_nil, hdigit, Option.map_some, Option.bind_eq_bind, Option.bind_some,
      Option.pure_def, codeValue, Nat.mul_zero, Nat.zero_add]
  · exact fun h => by cases h
  · exact fun h => hplus (List.cons.inj h).1
  · exact fun _ h => hplus (List.cons.inj h).1

theorem ascii_hexDigit (d : HexDigit) : d.val < 0x80 := by
  obtain ⟨b, h⟩ := d
  rw [nibble] at h
  rw [UInt8.lt_iff_toNat_lt]
  split_ifs at h
  · change b.toNat < 128
    omega
  · change b.toNat < 128
    omega
  · change b.toNat < 128
    omega
  · cases h

theorem fromUtf8_hexDigits (a b c d : HexDigit) : ∃ s, fromUtf8 [a.val, b.val, c.val, d.val] = some s := by
  have hcode : ∀ x : HexDigit, String.utf8EncodeChar (Char.ofNat x.val.toNat) = [x.val] := fun x =>
    utf8EncodeChar_ascii (ascii_hexDigit x)
  have henc : encode [Char.ofNat a.val.toNat, Char.ofNat b.val.toNat, Char.ofNat c.val.toNat, Char.ofNat d.val.toNat]
      = [a.val, b.val, c.val, d.val] := by
    simp [encode, hcode]
  exact ⟨_, henc ▸ fromUtf8_encode _⟩

section Strings

variable {bytes rest : Bytes} {i : Nat}

/-- What follows the pieces of a string. -/
theorem head_not_plain {pieces : List Piece} (h : ∀ p ∈ pieces.head?, p.isPlain = false) (rest : Bytes) :
    ∀ b ∈ (pieces.flatMap Piece.bytes ++ 0x22 :: rest).head?, isPlain b = false := by
  cases pieces with
  | nil =>
    intro b hb
    cases hb
    rfl
  | cons p pieces =>
    have hp := h p rfl
    cases p with
    | plain c hc => cases hp
    | escape e =>
      intro b hb
      cases hb
      rfl
    | code a b c d =>
      intro b hb
      cases hb
      rfl

theorem getSlice_remains {run : Bytes} (h : Remains bytes i (run ++ rest)) :
    getSlice bytes i (i + run.length) = some run := by
  obtain ⟨hfits, hslice⟩ := cut_eq_ok.mp h.cut
  rw [getSlice, if_pos hfits, hslice]

theorem bytes_ne_nil (p : Piece) : p.bytes ≠ [] := by
  cases p with
  | plain c h =>
    intro hnil
    have hlength := String.length_utf8EncodeChar c
    rw [show String.utf8EncodeChar c = [] from hnil] at hlength
    exact absurd hlength.symm (Nat.pos_iff_ne_zero.mp (Char.utf8Size_pos c))
  | escape e => exact cons_ne_nil _ _
  | code a b c d => exact cons_ne_nil _ _

/-- A place in the text, one piece further. -/
theorem result_step {out kept : Text} {p : Piece} {pieces : List Piece} {n : Nat} (hkept : kept = [p.kept])
    (hn : p.bytes.length = n) :
    (.ok (out ++ kept ++ keptString pieces, i + n + (pieces.flatMap Piece.bytes).length + 1) : Attempt (Text × Nat))
      = .ok (out ++ keptString (p :: pieces), i + ((p :: pieces).flatMap Piece.bytes).length + 1) := by
  subst hkept hn
  rw [keptString, keptString, map_cons, flatMap_cons, length_append, append_assoc,
    singleton_append, Nat.add_assoc i]

variable (pieces : List Piece)

/-- **The loop** over a string gives a character for each piece, up to the closing quote. -/
theorem stringLoop_pieces (out : Text) {fuel : Nat} (hfuel : pieces.length < fuel)
    (h : Remains bytes i (pieces.flatMap Piece.bytes ++ 0x22 :: rest)) :
    stringLoop bytes fuel out i
      = .ok (out ++ keptString pieces, i + (pieces.flatMap Piece.bytes).length + 1) := by
  induction fuel generalizing pieces out i with
  | zero => omega
  | succ fuel ih =>
    have hquote : ¬(0x5c : UInt8) = 0x22 := by decide
    rw [stringLoop]
    cases pieces with
    | nil =>
      have hhead : bytes[i]? = some 0x22 := h.head
      simp only [hhead, if_true, keptString, map_nil, append_nil]
      rfl
    | cons p pieces =>
      rw [length_cons] at hfuel
      cases hplain : p.isPlain with
      | false =>
        rw [flatMap_cons, append_assoc] at h
        cases p with
        | plain c hc => cases hplain
        | escape e =>
          have hhead : bytes[i]? = some 0x5c := h.head
          have hsecond : bytes[i + 1]? = some e.letter := h.getElem? 1
          have hnext : Remains bytes (i + 2) (pieces.flatMap Piece.bytes ++ 0x22 :: rest) :=
            h.next_byte.next_byte
          obtain ⟨hescape, hletter⟩ := simpleEscape_letter e
          have hloop := ih pieces (out ++ [e.char]) (by omega) hnext
          simp only [hhead, hsecond, hquote, if_false, if_true, if_neg hletter, hescape, orDecline, ok_bind, hloop]
          exact result_step rfl rfl
        | code a b c d =>
          have hhead : bytes[i]? = some 0x5c := h.head
          have hsecond : bytes[i + 1]? = some 0x75 := h.getElem? 1
          have hdigits : Remains bytes (i + 2)
              ([a.val, b.val, c.val, d.val] ++ (pieces.flatMap Piece.bytes ++ 0x22 :: rest)) :=
            h.next_byte.next_byte
          have hnext : Remains bytes (i + 6) (pieces.flatMap Piece.bytes ++ 0x22 :: rest) :=
            hdigits.next
          have hslice : getSlice bytes (i + 2) (i + 6) = some [a.val, b.val, c.val, d.val] := getSlice_remains hdigits
          obtain ⟨s, hs⟩ := fromUtf8_hexDigits a b c d
          have hloop := ih pieces (out ++ [charOrReplacement (codeValue a b c d)]) (by omega) hnext
          simp only [hhead, hsecond, hquote, if_false, if_true, hslice, hs, fromStrRadix16_code, orDecline, ok_bind,
            hloop]
          exact result_step rfl rfl
      | true =>
        obtain ⟨run, behind, hpieces, henc, hbytes, hbehind, hrun⟩ := plain_run (p :: pieces)
        have hrun : run ≠ [] := hrun p rfl hplain
        have hlengths : run.length + behind.length = pieces.length + 1 := by
          rw [← length_append, ← hpieces, length_cons]
        have hpos := length_pos_of_ne_nil hrun
        rw [hpieces, flatMap_append, append_assoc] at h
        have hlength := h.length
        rw [length_append] at hlength
        have hskip : skipBytes isPlain bytes (bytes.length + 1) i = .ok _ :=
          h.skipBytes hbytes (head_not_plain hbehind rest) (by omega)
        have hloop := ih behind (out ++ keptString run) (by omega) h.next
        obtain ⟨b, hb, hbplain⟩ : ∃ b, bytes[i]? = some b ∧ isPlain b = true := by
          cases hrunBytes : run.flatMap Piece.bytes with
          | nil =>
            obtain ⟨q, hq⟩ := exists_mem_of_ne_nil run hrun
            exact absurd (flatMap_eq_nil_iff.mp hrunBytes q hq) (bytes_ne_nil q)
          | cons b behindBytes =>
            refine ⟨b, ?_, hbytes b (by rw [hrunBytes]; exact mem_cons_self)⟩
            rw [h.head, hrunBytes]
            rfl
        have hquote : ¬b = 0x22 := fun heq => by rw [heq] at hbplain; exact absurd hbplain (by decide)
        have hescape : ¬b = 0x5c := fun heq => by rw [heq] at hbplain; exact absurd hbplain (by decide)
        have htext : fromUtf8 (run.flatMap Piece.bytes) = some (String.ofList (keptString run)) := by
          rw [henc, fromUtf8_encode]
        simp only [hb, hquote, hescape, if_false, hskip, ok_bind, h.cut, htext, orDecline, String.toList_ofList, hloop]
        rw [hpieces, keptString, keptString, keptString, map_append, flatMap_append, length_append,
          append_assoc, Nat.add_assoc i]

theorem length_le_flatMap : pieces.length ≤ (pieces.flatMap Piece.bytes).length := by
  induction pieces with
  | nil => exact le_refl 0
  | cons p pieces ih =>
    have hpos := length_pos_of_ne_nil (bytes_ne_nil p)
    rw [flatMap_cons, length_append, length_cons]
    omega

/-- A string with its quotes. -/
def stringBytes (pieces : List Piece) : Bytes := 0x22 :: (pieces.flatMap Piece.bytes ++ [0x22])

/-- **A string** is read with a character for each piece. -/
theorem parseString_pieces (h : Remains bytes i (stringBytes pieces ++ rest)) :
    parseString bytes i = .ok (keptString pieces, i + (stringBytes pieces).length) := by
  have hinner : Remains bytes (i + 1) (pieces.flatMap Piece.bytes ++ 0x22 :: rest) := by
    have hsplit : stringBytes pieces ++ rest = [0x22] ++ (pieces.flatMap Piece.bytes ++ 0x22 :: rest) := by
      simp [stringBytes]
    rw [hsplit] at h
    exact h.next
  have hhead : bytes[i]? = some 0x22 := h.head
  have hlength := hinner.length
  have hpieces := length_le_flatMap pieces
  rw [length_append] at hlength
  have hloop : stringLoop bytes (bytes.length + 1) [] _ = .ok _ := stringLoop_pieces pieces [] (by omega) hinner
  rw [parseString, expect, if_pos hhead, ok_bind, hloop, stringBytes]
  simp only [nil_append, length_cons, length_append, length_nil]
  congr 2
  omega

end Strings

end Alt.StructDiff
