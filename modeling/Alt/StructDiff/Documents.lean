import Alt.StructDiff.Tokens

namespace Alt.StructDiff

open Alt.Library Attempt TextScan List

/-!
# Structured diff — JSON documents and how they are read

* `Doc` — a JSON value as it is written, with its blanks; `Doc.bytes` — its text;
* `Doc.kept` — the value that the parser keeps of it;
* `parseJson_document` — a document is read as that value.
-/

/-- Blanks between two tokens. -/
abbrev Blanks := { ws : Bytes // ∀ b ∈ ws, isSpace b = true }

mutual

/-- A value as it is written. -/
inductive Doc where
  | null
  | bool (b : Bool)
  | number (t : NumberToken)
  | string (s : List Piece)
  | emptyArray (ws : Blanks)
  | array (before : Blanks) (items : Items)
  | emptyObject (ws : Blanks)
  | object (before : Blanks) (members : Members)

/-- The items of an array, each with the blanks behind it. -/
inductive Items where
  | last (d : Doc) (after : Blanks)
  | more (d : Doc) (after before : Blanks) (rest : Items)

/-- The members of an object, each with the blanks behind its key, its colon and its value. -/
inductive Members where
  | last (key : List Piece) (afterKey beforeValue : Blanks) (d : Doc) (after : Blanks)
  | more (key : List Piece) (afterKey beforeValue : Blanks) (d : Doc) (after before : Blanks) (rest : Members)

end

mutual

def Doc.bytes : Doc → Bytes
  | .null => utf8 "null"
  | .bool true => utf8 "true"
  | .bool false => utf8 "false"
  | .number t => encode t.text
  | .string s => stringBytes s
  | .emptyArray ws => 0x5b :: (ws.val ++ [0x5d])
  | .array before items => 0x5b :: (before.val ++ items.bytes)
  | .emptyObject ws => 0x7b :: (ws.val ++ [0x7d])
  | .object before members => 0x7b :: (before.val ++ members.bytes)

/-- The items, with the bracket behind them. -/
def Items.bytes : Items → Bytes
  | .last d after => d.bytes ++ (after.val ++ [0x5d])
  | .more d after before rest => d.bytes ++ (after.val ++ 0x2c :: (before.val ++ rest.bytes))

/-- The members, with the brace behind them. -/
def Members.bytes : Members → Bytes
  | .last key afterKey beforeValue d after =>
    stringBytes key ++ (afterKey.val ++ 0x3a :: (beforeValue.val ++ (d.bytes ++ (after.val ++ [0x7d]))))
  | .more key afterKey beforeValue d after before rest =>
    stringBytes key ++ (afterKey.val ++ 0x3a :: (beforeValue.val ++ (d.bytes ++
      (after.val ++ 0x2c :: (before.val ++ rest.bytes)))))

end

mutual

/-- The value that is kept. -/
def Doc.kept : Doc → Value
  | .null => .null
  | .bool b => .bool b
  | .number t => .number t.kept
  | .string s => .string (keptString s)
  | .emptyArray _ => .array []
  | .array _ items => .array items.kept
  | .emptyObject _ => .object []
  | .object _ members => .object members.kept

def Items.kept : Items → List Value
  | .last d _ => [d.kept]
  | .more d _ _ rest => d.kept :: rest.kept

def Members.kept : Members → List (Text × Value)
  | .last key _ _ d _ => [(keptString key, d.kept)]
  | .more key _ _ d _ _ rest => (keptString key, d.kept) :: rest.kept

end

/-! ### How a document is read -/

section Reader

variable {bytes rest tail : Bytes} {i fuel : Nat}

variable (ws : Blanks)

theorem skipWhitespace_blanks (h : Remains bytes i (ws.val ++ rest))
    (hrest : ∀ b ∈ rest.head?, isSpace b = false) :
    skipWhitespace bytes i = .ok (i + ws.val.length) := by
  have hlength := h.length
  rw [length_append] at hlength
  exact h.skipBytes ws.2 hrest (by omega)

variable {c : UInt8}

theorem expect_remains (h : Remains bytes i (c :: tail)) : expect bytes c i = .ok (i + 1) :=
  if_pos h.head

variable {b : UInt8}

/-- The reader that the first byte of a value leads to. -/
theorem parseValue_at (h : Remains bytes i (ws.val ++ b :: tail)) (hb : isSpace b = false)
    (fuel : Nat) :
    parseValue bytes (fuel + 1) i =
      if b = 0x6e then parseLiteral bytes (utf8 "null") .null (i + ws.val.length)
      else if b = 0x74 then parseLiteral bytes (utf8 "true") (.bool true) (i + ws.val.length)
      else if b = 0x66 then parseLiteral bytes (utf8 "false") (.bool false) (i + ws.val.length)
      else if b = 0x22 then do
        let (s, i) ← parseString bytes (i + ws.val.length)
        return (.string s, i)
      else if b = 0x7b then parseObject bytes fuel (i + ws.val.length)
      else if b = 0x5b then parseArray bytes fuel (i + ws.val.length)
      else if b = 0x2d ∨ (0x30 ≤ b ∧ b ≤ 0x39) then parseNumber bytes (i + ws.val.length)
      else .error .declined := by
  have hskip := skipWhitespace_blanks ws h fun c hc => by
    cases hc
    exact hb
  have hhead : bytes[i + ws.val.length]? = some b := h.next.head
  rw [parseValue, hskip, ok_bind, hhead, orDecline, ok_bind]

theorem parseLiteral_remains {lit : Bytes} (out : Value) (h : Remains bytes i (lit ++ rest)) :
    parseLiteral bytes lit out i = .ok (out, i + lit.length) := by
  rw [parseLiteral, getSlice_remains h, if_pos rfl]

/-- The first byte of a number. -/
theorem head_number (t : NumberToken) : ∃ b tail, encode t.text = b :: tail ∧
    (b = 0x2d ∨ (0x30 ≤ b ∧ b ≤ 0x39)) ∧ isSpace b = false ∧ b ≠ 0x5d := by
  have hdigits : ∀ c ∈ ['0', '1', '2', '3', '4', '5', '6', '7', '8', '9'],
      String.utf8EncodeChar c = [UInt8.ofNat c.toNat] ∧ 0x30 ≤ UInt8.ofNat c.toNat ∧ UInt8.ofNat c.toNat ≤ 0x39 ∧
        isSpace (UInt8.ofNat c.toNat) = false ∧ UInt8.ofNat c.toNat ≠ 0x5d := by
    refine forall_iff_forall_mem.mp ?_
    decide
  rw [NumberToken.text]
  cases t.negative with
  | true => exact ⟨0x2d, _, rfl, .inl rfl, rfl, by decide⟩
  | false =>
    obtain ⟨whole, hne, hwhole⟩ := t.whole
    cases whole with
    | nil => exact absurd rfl hne
    | cons c whole =>
      obtain ⟨hcode, hlow, hhigh, hspace, hbracket⟩ := hdigits c (digit_cases (hwhole c mem_cons_self))
      have hencode : ∀ s, encode (c :: s) = UInt8.ofNat c.toNat :: encode s := fun s => by
        rw [encode, flatMap_cons, hcode]
        rfl
      exact ⟨_, _, hencode _, .inr ⟨hlow, hhigh⟩, hspace, hbracket⟩

/-- A value does not begin with a blank, or with a closing bracket. -/
theorem head_doc (d : Doc) : ∃ b tail, d.bytes = b :: tail ∧ isSpace b = false ∧ b ≠ 0x5d := by
  cases d with
  | null => exact ⟨0x6e, _, rfl, rfl, by decide⟩
  | bool b => cases b <;> exact ⟨_, _, rfl, rfl, by decide⟩
  | number t =>
    obtain ⟨b, tail, hbytes, -, hspace, hbracket⟩ := head_number t
    exact ⟨b, tail, hbytes, hspace, hbracket⟩
  | string s => exact ⟨_, _, rfl, rfl, by decide⟩
  | emptyArray ws => exact ⟨_, _, rfl, rfl, by decide⟩
  | array before items => exact ⟨_, _, rfl, rfl, by decide⟩
  | emptyObject ws => exact ⟨_, _, rfl, rfl, by decide⟩
  | object before members => exact ⟨_, _, rfl, rfl, by decide⟩

theorem not_number_of_space (h : isSpace b = true) : isNumberByte b = false := by
  simp only [isSpace, Bool.or_eq_true, beq_iff_eq] at h
  rcases h with ((rfl | rfl) | rfl) | rfl <;> rfl

/-- Behind a value there is no more of a number. -/
theorem follow_blanks (hc : isNumberByte c = false) (tail : Bytes) :
    ∀ b ∈ (ws.val ++ c :: tail).head?, isNumberByte b = false := by
  obtain ⟨ws, hws⟩ := ws
  cases ws with
  | nil =>
    intro b hb
    cases hb
    exact hc
  | cons b ws =>
    intro d hd
    cases hd
    exact not_number_of_space (hws b mem_cons_self)

/-- The bytes behind a value, and the byte behind its blanks. -/
theorem after_value (hc : isSpace c = false) (h : Remains bytes i (ws.val ++ c :: tail)) :
    skipWhitespace bytes i = .ok (i + ws.val.length) ∧ bytes[i + ws.val.length]? = some c ∧
      Remains bytes (i + ws.val.length + 1) tail := by
  refine ⟨skipWhitespace_blanks ws h fun b hb => ?_, h.next.head, h.next.next_byte⟩
  cases hb
  exact hc

/-- A place behind the blanks and the text of a value. -/
theorem ok_place {α : Type} {a b : α} {m n : Nat} (hab : a = b) (hmn : m = n) :
    (.ok (a, m) : Attempt (α × Nat)) = .ok (b, n) := by
  rw [hab, hmn]

theorem parseValue_number (t : NumberToken) (ws : Blanks) (h : Remains bytes i (ws.val ++ (encode t.text ++ rest)))
    (hrest : ∀ b ∈ rest.head?, isNumberByte b = false) (fuel : Nat) :
    parseValue bytes (fuel + 1) i = .ok (.number t.kept, i + ws.val.length + (encode t.text).length) := by
  obtain ⟨b, tail, henc, hb, hspace, -⟩ := head_number t
  have hword : ∀ c : UInt8, ¬(c = 0x2d ∨ (0x30 ≤ c ∧ c ≤ 0x39)) → b ≠ c := fun c hc heq => hc (heq ▸ hb)
  have hnumber := parseNumber_token t h.next hrest
  rw [henc, cons_append] at h
  rw [parseValue_at ws h hspace, if_neg (hword _ (by decide)), if_neg (hword _ (by decide)),
    if_neg (hword _ (by decide)), if_neg (hword _ (by decide)), if_neg (hword _ (by decide)),
    if_neg (hword _ (by decide)), if_pos hb, hnumber]

theorem parseValue_string (s : List Piece) (ws : Blanks) (h : Remains bytes i (ws.val ++ (stringBytes s ++ rest)))
    (fuel : Nat) :
    parseValue bytes (fuel + 1) i = .ok (.string (keptString s), i + ws.val.length + (stringBytes s).length) := by
  have hstring := parseString_pieces s h.next
  rw [stringBytes, cons_append] at h
  rw [parseValue_at ws h (by decide), if_neg (by decide), if_neg (by decide), if_neg (by decide), if_pos rfl, hstring]
  rfl

/-- An opening bracket. -/
theorem parseValue_bracket (h : Remains bytes i (ws.val ++ 0x5b :: tail)) (fuel : Nat) :
    parseValue bytes (fuel + 1) i = parseArray bytes fuel (i + ws.val.length) := by
  rw [parseValue_at ws h (by decide), if_neg (by decide), if_neg (by decide), if_neg (by decide), if_neg (by decide),
    if_neg (by decide), if_pos rfl]

/-- An opening brace. -/
theorem parseValue_brace (h : Remains bytes i (ws.val ++ 0x7b :: tail)) (fuel : Nat) :
    parseValue bytes (fuel + 1) i = parseObject bytes fuel (i + ws.val.length) := by
  rw [parseValue_at ws h (by decide), if_neg (by decide), if_neg (by decide), if_neg (by decide), if_neg (by decide),
    if_pos rfl]

theorem parseArray_empty (h : Remains bytes i (0x5b :: (ws.val ++ 0x5d :: rest))) (fuel : Nat) :
    parseArray bytes (fuel + 1) i = .ok (.array [], i + 1 + ws.val.length + 1) := by
  obtain ⟨hskip, hhead, -⟩ := after_value ws (c := 0x5d) rfl h.next_byte
  rw [parseArray, expect_remains h, ok_bind, hskip, ok_bind, if_pos hhead]
  rfl

theorem parseArray_items (before : Blanks) (h : Remains bytes i (0x5b :: (before.val ++ b :: tail)))
    (hspace : isSpace b = false) (hb : b ≠ 0x5d) (fuel : Nat) :
    parseArray bytes (fuel + 1) i = arrayLoop bytes fuel [] (i + 1 + before.val.length) := by
  obtain ⟨hskip, hhead, -⟩ := after_value before hspace h.next_byte
  rw [parseArray, expect_remains h, ok_bind, hskip, ok_bind, hhead, if_neg fun heq => hb (Option.some.inj heq)]

theorem parseObject_empty (h : Remains bytes i (0x7b :: (ws.val ++ 0x7d :: rest))) (fuel : Nat) :
    parseObject bytes (fuel + 1) i = .ok (.object [], i + 1 + ws.val.length + 1) := by
  obtain ⟨hskip, hhead, -⟩ := after_value ws (c := 0x7d) rfl h.next_byte
  rw [parseObject, expect_remains h, ok_bind, hskip, ok_bind, if_pos hhead]
  rfl

theorem parseObject_members (before : Blanks)
    (h : Remains bytes i (0x7b :: (before.val ++ b :: tail))) (hspace : isSpace b = false)
    (hb : b ≠ 0x7d) (fuel : Nat) :
    parseObject bytes (fuel + 1) i = objectLoop bytes fuel [] (i + 1 + before.val.length) := by
  obtain ⟨hskip, hhead, -⟩ := after_value before hspace h.next_byte
  rw [parseObject, expect_remains h, ok_bind, hskip, ok_bind, hhead, if_neg fun heq => hb (Option.some.inj heq)]

/-- The first byte of the items of an array. -/
theorem head_items (items : Items) : ∃ b tail, items.bytes = b :: tail ∧ isSpace b = false ∧ b ≠ 0x5d := by
  cases items with
  | last d after =>
    obtain ⟨b, tail, hbytes, hspace, hb⟩ := head_doc d
    exact ⟨b, _, by rw [Items.bytes, hbytes, cons_append], hspace, hb⟩
  | more d after before rest =>
    obtain ⟨b, tail, hbytes, hspace, hb⟩ := head_doc d
    exact ⟨b, _, by rw [Items.bytes, hbytes, cons_append], hspace, hb⟩

theorem head_members (members : Members) : ∃ tail, members.bytes = 0x22 :: tail := by
  cases members with
  | last => exact ⟨_, rfl⟩
  | more => exact ⟨_, rfl⟩

end Reader

/-- No blanks. -/
def noBlanks : Blanks := ⟨[], fun b hb => by cases hb⟩

mutual

/-- A value is read, with the blanks before it. -/
theorem parseValue_doc : ∀ (d : Doc) (ws : Blanks) {bytes rest : Bytes} {i fuel : Nat},
    Remains bytes i (ws.val ++ (d.bytes ++ rest)) → (∀ b ∈ rest.head?, isNumberByte b = false) →
      4 * (ws.val.length + d.bytes.length) + 3 ≤ fuel →
        parseValue bytes fuel i = .ok (d.kept, i + ws.val.length + d.bytes.length)
  | .null, ws, bytes, rest, i, fuel + 1, h, _, _ => by
    rw [parseValue_at (b := 0x6e) ws h (by decide), if_pos rfl]
    exact parseLiteral_remains .null h.next
  | .bool true, ws, bytes, rest, i, fuel + 1, h, _, _ => by
    rw [parseValue_at (b := 0x74) ws h (by decide), if_neg (by decide), if_pos rfl]
    exact parseLiteral_remains (.bool true) h.next
  | .bool false, ws, bytes, rest, i, fuel + 1, h, _, _ => by
    rw [parseValue_at (b := 0x66) ws h (by decide), if_neg (by decide), if_neg (by decide), if_pos rfl]
    exact parseLiteral_remains (.bool false) h.next
  | .number t, ws, bytes, rest, i, fuel + 1, h, hrest, _ => parseValue_number t ws h hrest fuel
  | .string s, ws, bytes, rest, i, fuel + 1, h, _, _ => parseValue_string s ws h fuel
  | .emptyArray inner, ws, bytes, rest, i, fuel + 1, h, _, hfuel => by
    rw [Doc.bytes, length_cons, length_append, length_singleton] at hfuel
    obtain ⟨fuel, rfl⟩ : ∃ n, fuel = n + 1 := ⟨fuel - 1, by omega⟩
    rw [Doc.bytes, cons_append, append_assoc] at h
    rw [parseValue_bracket ws h, parseArray_empty inner h.next, Doc.kept, Doc.bytes]
    refine ok_place rfl ?_
    simp only [length_cons, length_append, length_nil]
    omega
  | .array before items, ws, bytes, rest, i, fuel + 1, h, _, hfuel => by
    rw [Doc.bytes, length_cons, length_append] at hfuel
    obtain ⟨fuel, rfl⟩ : ∃ n, fuel = n + 1 := ⟨fuel - 1, by omega⟩
    rw [Doc.bytes, cons_append, append_assoc] at h
    obtain ⟨b, tail, hbytes, hspace, hb⟩ := head_items items
    have hopen := h.next
    have hloop : arrayLoop bytes fuel [] _ = .ok _ := arrayLoop_items items noBlanks [] hopen.next_byte.next (by simp only [noBlanks, length_nil]; omega)
    rw [hbytes, cons_append] at hopen
    rw [parseValue_bracket ws h, parseArray_items before hopen hspace hb]
    rw [hloop, Doc.kept, Doc.bytes]
    refine ok_place rfl ?_
    simp only [noBlanks, length_cons, length_append, length_nil]
    omega
  | .emptyObject inner, ws, bytes, rest, i, fuel + 1, h, _, hfuel => by
    rw [Doc.bytes, length_cons, length_append, length_singleton] at hfuel
    obtain ⟨fuel, rfl⟩ : ∃ n, fuel = n + 1 := ⟨fuel - 1, by omega⟩
    rw [Doc.bytes, cons_append, append_assoc] at h
    rw [parseValue_brace ws h, parseObject_empty inner h.next, Doc.kept, Doc.bytes]
    refine ok_place rfl ?_
    simp only [length_cons, length_append, length_nil]
    omega
  | .object before members, ws, bytes, rest, i, fuel + 1, h, _, hfuel => by
    rw [Doc.bytes, length_cons, length_append] at hfuel
    obtain ⟨fuel, rfl⟩ : ∃ n, fuel = n + 1 := ⟨fuel - 1, by omega⟩
    rw [Doc.bytes, cons_append, append_assoc] at h
    obtain ⟨tail, hbytes⟩ := head_members members
    have hopen := h.next
    have hloop : objectLoop bytes fuel [] _ = .ok _ := objectLoop_members members noBlanks [] hopen.next_byte.next (by simp only [noBlanks, length_nil]; omega)
    rw [hbytes, cons_append] at hopen
    rw [parseValue_brace ws h, parseObject_members before hopen rfl (by decide)]
    rw [hloop, Doc.kept, Doc.bytes]
    refine ok_place rfl ?_
    simp only [noBlanks, length_cons, length_append, length_nil]
    omega

/-- The items of an array are read, with the blanks before them. -/
theorem arrayLoop_items : ∀ (items : Items) (ws : Blanks) (done : List Value) {bytes rest : Bytes} {i fuel : Nat},
    Remains bytes i (ws.val ++ (items.bytes ++ rest)) → 4 * (ws.val.length + items.bytes.length) + 4 ≤ fuel →
      arrayLoop bytes fuel done i
        = .ok (.array (done ++ items.kept), i + ws.val.length + items.bytes.length)
  | .last d after, ws, done, bytes, rest, i, fuel + 1, h, hfuel => by
    simp only [Items.bytes, length_append, length_singleton] at hfuel
    simp only [Items.bytes, append_assoc, singleton_append] at h
    have hvalue : parseValue bytes fuel _ = .ok _ := parseValue_doc d ws h (follow_blanks after rfl rest) (by omega)
    obtain ⟨hskip, hhead, -⟩ := after_value after (c := 0x5d) rfl h.next.next
    have hcomma : ¬(0x5d : UInt8) = 0x2c := by decide
    rw [arrayLoop, hvalue]
    simp only [ok_bind, hskip, hhead, orDecline, hcomma, if_false, if_true, pure_eq_ok]
    refine ok_place rfl ?_
    simp only [Items.bytes, length_append, length_singleton]
    omega
  | .more d after before items, ws, done, bytes, rest, i, fuel + 1, h, hfuel => by
    simp only [Items.bytes, length_append, length_cons] at hfuel
    simp only [Items.bytes, append_assoc, cons_append] at h
    have hvalue : parseValue bytes fuel _ = .ok _ := parseValue_doc d ws h (follow_blanks after rfl _) (by omega)
    obtain ⟨hskip, hhead, hnext⟩ := after_value after (c := 0x2c) rfl h.next.next
    have hloop : arrayLoop bytes fuel _ _ = .ok _ :=
      arrayLoop_items items before (done ++ [d.kept]) hnext (by omega)
    rw [arrayLoop, hvalue]
    simp only [ok_bind, hskip, hhead, orDecline, if_true, hloop]
    refine ok_place ?_ ?_
    · rw [Items.kept, append_assoc, singleton_append]
    · simp only [Items.bytes, length_append, length_cons]
      omega

/-- The members of an object are read, with the blanks before them. -/
theorem objectLoop_members : ∀ (members : Members) (ws : Blanks) (done : List (Text × Value)) {bytes rest : Bytes}
    {i fuel : Nat},
    Remains bytes i (ws.val ++ (members.bytes ++ rest)) → 4 * (ws.val.length + members.bytes.length) + 4 ≤ fuel →
      objectLoop bytes fuel done i
        = .ok (.object (done ++ members.kept), i + ws.val.length + members.bytes.length)
  | .last key afterKey beforeValue d after, ws, done, bytes, rest, i, fuel + 1, h, hfuel => by
    simp only [Members.bytes, length_append, length_cons, length_nil] at hfuel
    simp only [Members.bytes, append_assoc, cons_append, nil_append] at h
    have hblank : skipWhitespace bytes i = .ok (i + ws.val.length) := skipWhitespace_blanks ws h fun b hb => by
      cases hb
      rfl
    have hkey := parseString_pieces key h.next
    obtain ⟨hcolonSkip, hcolon, hafterColon⟩ := after_value afterKey (c := 0x3a) rfl h.next.next
    have hvalue : parseValue bytes fuel _ = .ok _ := parseValue_doc d beforeValue hafterColon
      (follow_blanks after rfl rest) (by omega)
    obtain ⟨hskip, hhead, -⟩ := after_value after (c := 0x7d) rfl hafterColon.next.next
    have hcomma : ¬(0x7d : UInt8) = 0x2c := by decide
    rw [objectLoop, hblank]
    simp only [ok_bind, hkey, hcolonSkip, expect, hcolon, hvalue, hskip, hhead, orDecline, hcomma, if_false,
      if_true, pure_eq_ok]
    refine ok_place rfl ?_
    simp only [Members.bytes, length_append, length_cons, length_nil]
    omega
  | .more key afterKey beforeValue d after before members, ws, done, bytes, rest, i, fuel + 1, h, hfuel => by
    simp only [Members.bytes, length_append, length_cons] at hfuel
    simp only [Members.bytes, append_assoc, cons_append] at h
    have hblank : skipWhitespace bytes i = .ok (i + ws.val.length) := skipWhitespace_blanks ws h fun b hb => by
      cases hb
      rfl
    have hkey := parseString_pieces key h.next
    obtain ⟨hcolonSkip, hcolon, hafterColon⟩ := after_value afterKey (c := 0x3a) rfl h.next.next
    have hvalue : parseValue bytes fuel _ = .ok _ := parseValue_doc d beforeValue hafterColon
      (follow_blanks after rfl _) (by omega)
    obtain ⟨hskip, hhead, hnext⟩ := after_value after (c := 0x2c) rfl hafterColon.next.next
    have hloop : objectLoop bytes fuel _ _ = .ok _ :=
      objectLoop_members members before (done ++ [(keptString key, d.kept)]) hnext (by omega)
    rw [objectLoop, hblank]
    simp only [ok_bind, hkey, hcolonSkip, expect, hcolon, hvalue, hskip, hhead, orDecline, if_true, hloop]
    refine ok_place ?_ ?_
    · rw [Members.kept, append_assoc, singleton_append]
    · simp only [Members.bytes, length_append, length_cons]
      omega

end

/-- A document: a value, with blanks before and behind it. -/
structure Document where
  before : Blanks
  value : Doc
  after : Blanks

def Document.bytes (d : Document) : Bytes := d.before.val ++ (d.value.bytes ++ d.after.val)

/-- **A document** is read as the value that is kept of it. -/
theorem parseJson_document (d : Document) : parseJson d.bytes = .ok d.value.kept := by
  have h : Remains d.bytes 0 (d.before.val ++ (d.value.bytes ++ d.after.val)) := remains_zero d.bytes
  obtain ⟨b, tail, hbytes, hspace, -⟩ := head_doc d.value
  have hskip := skipWhitespace_blanks d.before h fun c hc => by
    rw [hbytes] at hc
    cases hc
    exact hspace
  have hfollow : ∀ b ∈ d.after.val.head?, isNumberByte b = false := by
    intro b hb
    exact not_number_of_space (d.after.2 b (mem_of_head? hb))
  have hvalue : parseValue d.bytes (4 * d.bytes.length + 4) _ = .ok _ := parseValue_doc d.value noBlanks h.next hfollow (by
    rw [Document.bytes, length_append, length_append]
    simp only [noBlanks, length_nil]
    omega)
  have hend : Remains d.bytes (0 + d.before.val.length + d.value.bytes.length) (d.after.val ++ []) := by
    rw [append_nil]
    exact h.next.next
  have hskipEnd := skipWhitespace_blanks d.after hend fun c hc => by cases hc
  have hlength : 0 + d.before.val.length + d.value.bytes.length + d.after.val.length = d.bytes.length := by
    rw [Document.bytes, length_append, length_append]
    omega
  rw [parseJson, hskip, ok_bind, hvalue, ok_bind]
  simp only [noBlanks, length_nil, Nat.add_zero, hskipEnd, ok_bind, hlength]
  rw [declineIf_of_not (not_not.mpr rfl), ok_bind]
  rfl

end Alt.StructDiff
