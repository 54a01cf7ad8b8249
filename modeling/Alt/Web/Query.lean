import Alt.Library.Hex
import Mathlib.Data.List.SplitOn
import Mathlib.Data.List.Forall2

namespace Alt.Web

open Alt.Library List

/-!
# Web — query parameters (`alt-web/src/router.rs`)

The bytes of a parameter are decoded one at a time, each to the character of its number.

* `parseQuery` — the value of a parameter; `urlDecode` — how it is decoded;
* `Encodes` — the texts that stand for a value; `Sent` — the queries that it is placed in;
* `parseQuery_returns_iff` — what is sent is returned exactly if it is ASCII.
-/

abbrev Text := List Char

/-- The UTF-8 bytes of a text. -/
def bytesOf (s : Text) : Bytes := s.flatMap String.utf8EncodeChar

/-- `b as char`. -/
def asChar (b : UInt8) : Char := Char.ofNat b.toNat

/-- `u8::from_str_radix(_, 16)` of the two bytes behind a percent sign; a plus sign can stand before one digit. -/
def fromStrRadix16 : Bytes → Option Nat
  | [h, l] =>
    if h = 0x2b then nibble l
    else (nibble h).bind fun high => (nibble l).map fun low => 16 * high + low
  | _ => none

/-- `url_decode`. -/
def urlDecode : Bytes → Text
  | [] => []
  | b :: bs =>
    if b = 0x2b then ' ' :: urlDecode bs
    else if b = 0x25 ∧ 2 ≤ bs.length then
      match fromStrRadix16 (bs.take 2) with
      | some v => Char.ofNat v :: urlDecode (bs.drop 2)
      | none => asChar b :: urlDecode bs
    else asChar b :: urlDecode bs
termination_by bs => bs.length
decreasing_by all_goals simp only [length_drop, length_cons]; omega

/-- `str::strip_prefix`. -/
def stripPrefix (needle s : Text) : Option Text :=
  if needle.isPrefixOf s then some (s.drop needle.length) else none

/-- `parse_query`. -/
def parseQuery (query key : Text) : Option Text :=
  (query.splitOn '&').findSome? fun pair => (stripPrefix (key ++ ['=']) pair).map fun v => urlDecode (bytesOf v)

/-! ### What is sent -/

/-- A percent sign and two digits, in either case, for a byte. -/
def Escape (b : UInt8) (e : Text) : Prop :=
  ∃ h l : UInt8, nibble h = some (b.toNat / 16) ∧ nibble l = some (b.toNat % 16) ∧ e = ['%', asChar h, asChar l]

/-- The texts that stand for a character: itself, if it has no meaning in a query; a plus sign for a blank;
an escape for each of its bytes. -/
inductive Spells : Char → Text → Prop where
  | plain {c : Char} : c ∉ ['%', '+', '&', ' '] → Spells c [c]
  | plus : Spells ' ' ['+']
  | escaped {c : Char} {es : List Text} : List.Forall₂ Escape (String.utf8EncodeChar c) es → Spells c es.flatten

/-- **The texts that stand for a value.** -/
inductive Encodes : Text → Text → Prop where
  | nil : Encodes [] []
  | cons {c : Char} {v s e : Text} : Spells c s → Encodes v e → Encodes (c :: v) (s ++ e)

/-- A query in which a value is sent under a key, behind parameters of other keys and before any. -/
def Sent (key v query : Text) : Prop :=
  ∃ (e : Text) (before after : List Text), Encodes v e ∧ '&' ∉ key ∧
    (∀ p ∈ before, '&' ∉ p ∧ ¬(key ++ ['=']) <+: p) ∧ (∀ p ∈ after, '&' ∉ p) ∧
    query = ['&'].intercalate (before ++ (key ++ '=' :: e) :: after)

/-! ### What is decoded -/

theorem urlDecode_plain {run : Bytes} (h : ∀ b ∈ run, b ≠ 0x2b ∧ b ≠ 0x25) (rest : Bytes) :
    urlDecode (run ++ rest) = run.map asChar ++ urlDecode rest := by
  induction run with
  | nil => rfl
  | cons b run ih =>
    obtain ⟨hplus, hpercent⟩ := h b mem_cons_self
    rw [cons_append, urlDecode, if_neg hplus, if_neg fun h => hpercent h.1,
      ih fun c hc => h c (mem_cons_of_mem b hc)]
    rfl

theorem nibble_ascii {b : UInt8} {n : Nat} (h : nibble b = some n) : b < 0x80 ∧ b ≠ 0x2b ∧ b ≠ 0x26 := by
  have hplus : nibble 0x2b = none := by decide
  have hamp : nibble 0x26 = none := by decide
  refine ⟨UInt8.lt_iff_toNat_lt.mpr ?_, ?_, ?_⟩
  · change b.toNat < 128
    rw [nibble] at h
    split_ifs at h <;> omega
  · rintro rfl
    cases hplus.symm.trans h
  · rintro rfl
    cases hamp.symm.trans h

theorem bytesOf_asChar {b : UInt8} (h : b < 0x80) : String.utf8EncodeChar (asChar b) = [b] := utf8EncodeChar_ascii h

/-- An escape is decoded to the character of its number. -/
theorem urlDecode_escape {b : UInt8} {e : Text} (h : Escape b e) (rest : Bytes) :
    urlDecode (bytesOf e ++ rest) = asChar b :: urlDecode rest := by
  obtain ⟨h, l, hh, hl, rfl⟩ := h
  obtain ⟨hhigh, hplus, -⟩ := nibble_ascii hh
  obtain ⟨hlow, -, -⟩ := nibble_ascii hl
  have hpercent : String.utf8EncodeChar '%' = [0x25] := by decide
  have hbytes : bytesOf ['%', asChar h, asChar l] = [0x25, h, l] := by
    simp [bytesOf, hpercent, bytesOf_asChar hhigh, bytesOf_asChar hlow]
  have hnumber : fromStrRadix16 [h, l] = some b.toNat := by
    rw [fromStrRadix16, if_neg hplus, hh, hl]
    simp only [Option.bind_some, Option.map_some]
    congr 1
    omega
  rw [hbytes, cons_append, urlDecode, if_neg (by decide), if_pos ⟨rfl, by simp⟩]
  simp [hnumber, asChar]

theorem urlDecode_escapes {bs : Bytes} {es : List Text} (h : List.Forall₂ Escape bs es) (rest : Bytes) :
    urlDecode (bytesOf es.flatten ++ rest) = bs.map asChar ++ urlDecode rest := by
  induction h with
  | nil => rfl
  | @cons b e bs es he _ ih =>
    rw [flatten_cons, bytesOf, flatMap_append, append_assoc]
    exact (urlDecode_escape he _).trans (congrArg (asChar b :: ·) ih)

/-- What stands for a character is decoded to the characters of its bytes. -/
theorem urlDecode_spells {c : Char} {s : Text} (h : Spells c s) (rest : Bytes) :
    urlDecode (bytesOf s ++ rest) = (String.utf8EncodeChar c).map asChar ++ urlDecode rest := by
  cases h with
  | plain hc =>
    simp only [mem_cons, not_mem_nil, or_false, not_or] at hc
    rw [bytesOf, flatMap_singleton]
    refine urlDecode_plain (fun b hb => ⟨?_, ?_⟩) rest
    · rintro rfl
      exact hc.2.1 (Char.toNat_inj.mp (eq_of_mem_utf8EncodeChar (by decide) hb))
    · rintro rfl
      exact hc.1 (Char.toNat_inj.mp (eq_of_mem_utf8EncodeChar (by decide) hb))
  | plus =>
    have hplus : bytesOf ['+'] = [0x2b] := by decide
    have hblank : (String.utf8EncodeChar ' ').map asChar = [' '] := by decide
    rw [hplus, hblank, singleton_append, urlDecode, if_pos rfl, singleton_append]
  | escaped hes => exact urlDecode_escapes hes rest

/-- **A value** is decoded to the characters of its bytes. -/
theorem urlDecode_encodes {v e : Text} (h : Encodes v e) : urlDecode (bytesOf e) = (bytesOf v).map asChar := by
  induction h with
  | nil => rw [bytesOf, flatMap_nil, urlDecode]; rfl
  | cons hs _ ih =>
    rw [bytesOf, flatMap_append]
    refine (urlDecode_spells hs _).trans ?_
    rw [bytesOf, flatMap_cons, map_append]
    exact congrArg _ ih

/-! ### When it is what was sent -/

theorem length_le_bytesOf (v : Text) : v.length ≤ (bytesOf v).length := by
  induction v with
  | nil => exact Nat.zero_le _
  | cons c v ih =>
    have hpos := c.utf8Size_pos
    have hlength : (String.utf8EncodeChar c).length = c.utf8Size := String.length_utf8EncodeChar c
    rw [bytesOf, flatMap_cons, length_append, length_cons]
    change v.length ≤ (v.flatMap String.utf8EncodeChar).length at ih
    omega

/-- The characters of the bytes are those of the text exactly if it is ASCII. -/
theorem map_asChar_bytesOf_iff (v : Text) : (bytesOf v).map asChar = v ↔ ∀ c ∈ v, c.toNat < 0x80 := by
  induction v with
  | nil => exact iff_of_true rfl fun c hc => by cases hc
  | cons c v ih =>
    rw [forall_mem_cons, ← ih, bytesOf, flatMap_cons]
    by_cases hc : c.toNat < 0x80
    · have hchar : Char.ofNat (UInt8.ofNat c.toNat).toNat = c := by
        rw [UInt8.toNat_ofNat', Nat.mod_eq_of_lt (by omega), Char.ofNat_toNat]
      have hascii : UInt8.ofNat c.toNat < 0x80 := by
        rw [UInt8.lt_iff_toNat_lt, UInt8.toNat_ofNat', Nat.mod_eq_of_lt (by omega)]
        exact hc
      have hcode := utf8EncodeChar_ascii hascii
      rw [hchar] at hcode
      rw [hcode, singleton_append, map_cons, asChar, hchar]
      exact ⟨fun h => ⟨hc, (List.cons.inj h).2⟩, fun h => congrArg (c :: ·) h.2⟩
    · refine iff_of_false (fun heq => ?_) fun h => hc h.1
      have hlengths := congrArg List.length heq
      have hone : c.utf8Size ≠ 1 := fun h => hc (Nat.lt_succ_of_le (Char.utf8Size_eq_one_iff.mp h))
      have hpos := c.utf8Size_pos
      have hlength : (String.utf8EncodeChar c).length = c.utf8Size := String.length_utf8EncodeChar c
      have hle := length_le_bytesOf v
      rw [length_map, length_append, length_cons] at hlengths
      change v.length ≤ (v.flatMap String.utf8EncodeChar).length at hle
      omega

/-! ### The query -/

theorem stripPrefix_append (needle s : Text) : stripPrefix needle (needle ++ s) = some s := by
  rw [stripPrefix, if_pos (List.isPrefixOf_iff_prefix.mpr (prefix_append needle s)), drop_left]

theorem stripPrefix_of_not {needle s : Text} (h : ¬needle <+: s) : stripPrefix needle s = none :=
  if_neg (by rwa [List.isPrefixOf_iff_prefix])

/-- No ampersand is in what stands for a value. -/
theorem amp_not_mem_escape {b : UInt8} {e : Text} (h : Escape b e) : '&' ∉ e := by
  obtain ⟨h, l, hh, hl, rfl⟩ := h
  have hchar : ∀ {d : UInt8} {n : Nat}, nibble d = some n → '&' ≠ asChar d := by
    intro d n hd heq
    obtain ⟨-, -, hne⟩ := nibble_ascii hd
    refine hne (UInt8.toNat_inj.mp ?_)
    rw [← toNat_ofNat_byte d]
    exact congrArg Char.toNat heq.symm
  simp only [mem_cons, not_mem_nil, or_false, not_or]
  exact ⟨by decide, hchar hh, hchar hl⟩

theorem amp_not_mem_escapes {bs : Bytes} {es : List Text} (h : List.Forall₂ Escape bs es) : '&' ∉ es.flatten := by
  induction h with
  | nil => exact not_mem_nil
  | cons he _ ih =>
    rw [flatten_cons, mem_append, not_or]
    exact ⟨amp_not_mem_escape he, ih⟩

theorem amp_not_mem_encodes {v e : Text} (h : Encodes v e) : '&' ∉ e := by
  induction h with
  | nil => exact not_mem_nil
  | @cons c v s e hs _ ih =>
    rw [mem_append, not_or]
    refine ⟨?_, ih⟩
    cases hs with
    | plain hc =>
      simp only [mem_cons, not_mem_nil, or_false, not_or] at hc
      exact fun hmem => hc.2.2.1 (mem_singleton.mp hmem).symm
    | plus => decide
    | escaped hes => exact amp_not_mem_escapes hes

/-- The parameter that is sent is the one that is found. -/
theorem parseQuery_sent {key v query : Text} (h : Sent key v query) :
    parseQuery query key = some ((bytesOf v).map asChar) := by
  obtain ⟨e, before, after, hv, hkey, hbefore, hafter, rfl⟩ := h
  have hpair : '&' ∉ key ++ '=' :: e := by
    rw [mem_append, mem_cons, not_or, not_or]
    exact ⟨hkey, by decide, amp_not_mem_encodes hv⟩
  have hsplit : (['&'].intercalate (before ++ (key ++ '=' :: e) :: after)).splitOn '&'
      = before ++ (key ++ '=' :: e) :: after := by
    refine splitOn_intercalate '&' (fun p hp => ?_) (by simp)
    rcases mem_append.mp hp with hp | hp
    · exact (hbefore p hp).1
    · rcases mem_cons.mp hp with rfl | hp
      · exact hpair
      · exact hafter p hp
  have hfront : before.findSome? (fun pair => (stripPrefix (key ++ ['=']) pair).map fun v => urlDecode (bytesOf v))
      = none := by
    rw [findSome?_eq_none_iff]
    intro p hp
    rw [stripPrefix_of_not (hbefore p hp).2, Option.map_none]
  have hneedle : key ++ '=' :: e = (key ++ ['=']) ++ e := by rw [append_assoc, singleton_append]
  rw [parseQuery, hsplit, findSome?_append, hfront, Option.none_or, findSome?_cons, hneedle,
    stripPrefix_append, Option.map_some, urlDecode_encodes hv]

/-- **What is sent is returned** exactly if it is ASCII. -/
theorem parseQuery_returns_iff {key v query : Text} (h : Sent key v query) :
    parseQuery query key = some v ↔ ∀ c ∈ v, c.toNat < 0x80 := by
  rw [parseQuery_sent h, Option.some.injEq, map_asChar_bytesOf_iff]

theorem sent_blank : Sent ['q'] ['a', ' ', 'b'] ['n', '=', '5', '&', 'q', '=', 'a', '+', '%', '6', '2'] := by
  refine ⟨['a', '+', '%', '6', '2'], [['n', '=', '5']], [], ?_, by decide, by decide, by decide, rfl⟩
  have hb : Spells 'b' ['%', '6', '2'] :=
    @Spells.escaped _ [['%', '6', '2']] (.cons ⟨0x36, 0x32, by decide, by decide, rfl⟩ .nil)
  exact .cons (.plain (by decide)) (.cons .plus (.cons hb .nil))

theorem blank_returns : parseQuery ['n', '=', '5', '&', 'q', '=', 'a', '+', '%', '6', '2'] ['q'] = some ['a', ' ', 'b'] :=
  (parseQuery_returns_iff sent_blank).mpr (forall_iff_forall_mem.mp (by decide))

/-- A letter with an accent comes back as two characters. -/
theorem accent_changes : ∃ query, Sent ['q'] ['é'] query ∧ parseQuery query ['q'] ≠ some ['é'] := by
  refine ⟨['q', '=', '%', 'C', '3', '%', 'A', '9'], ?_, by decide +kernel⟩
  refine ⟨['%', 'C', '3', '%', 'A', '9'], [], [], ?_, by decide, by decide, by decide, rfl⟩
  have he : Spells 'é' ['%', 'C', '3', '%', 'A', '9'] :=
    @Spells.escaped _ [['%', 'C', '3'], ['%', 'A', '9']]
      (.cons ⟨0x43, 0x33, by decide, by decide, rfl⟩ (.cons ⟨0x41, 0x39, by decide, by decide, rfl⟩ .nil))
  exact .cons he .nil

end Alt.Web
