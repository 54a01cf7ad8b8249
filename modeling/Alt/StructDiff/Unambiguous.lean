import Alt.Library.LossyUtf8
import Alt.StructDiff.Meaning

namespace Alt.StructDiff

open Alt.Library Attempt TextScan List

/-!
# Structured diff — a document says one thing

* `stringBytes_unique`, `token_unique` — a string and a number are of one spelling;
* `denote_unique` — documents of the same bytes say the same.
-/

/-! ### Blanks, numbers and strings -/

variable {ws ws' : Blanks}

/-- Blanks end where something else begins. -/
theorem blanks_unique {b b' : UInt8} {tail tail' : Bytes} (hb : isSpace b = false)
    (hb' : isSpace b' = false) (h : ws.val ++ b :: tail = ws'.val ++ b' :: tail') :
    b = b' ∧ tail = tail' := by
  have hdrop := congrArg (List.dropWhile isSpace) h
  rw [dropWhile_append_of_pos ws.2, dropWhile_append_of_pos ws'.2,
    dropWhile_cons_of_neg (by simp [hb]), dropWhile_cons_of_neg (by simp [hb'])] at hdrop
  exact List.cons.inj hdrop

theorem encode_injective {s t : Text} (h : encode s = encode t) : s = t := by
  have hs := fromUtf8_encode s
  rw [h, fromUtf8_encode t] at hs
  exact (String.ofList_injective (Option.some.inj hs)).symm

/-- Numbers of the same bytes are the same number. -/
theorem token_unique {m n : NumberToken} (h : encode m.text = encode n.text) : m.value = n.value := by
  obtain ⟨d, hd, hm⟩ := parseDecimal_token m
  obtain ⟨e, he, hn⟩ := parseDecimal_token n
  rw [encode_injective h, he] at hd
  cases hd
  rw [← hm, hn]

/-- A piece begins with a backslash, or with a byte that is plain. -/
theorem head_piece (p : Piece) : ∃ b tail, p.bytes = b :: tail ∧ b ≠ 0x22 := by
  cases p with
  | plain c hc =>
    have hlength : (String.utf8EncodeChar c).length = c.utf8Size := String.length_utf8EncodeChar c
    have hpos := c.utf8Size_pos
    cases hbytes : String.utf8EncodeChar c with
    | nil =>
      rw [hbytes, length_nil] at hlength
      omega
    | cons b tail =>
      have hplain := isPlain_encodeChar hc.2 b (by rw [hbytes]; exact mem_cons_self)
      simp only [isPlain, bne_iff_ne, Bool.and_eq_true] at hplain
      exact ⟨b, tail, hbytes, hplain.1⟩
  | escape e => exact ⟨0x5c, _, rfl, by decide⟩
  | code a b c d => exact ⟨0x5c, _, rfl, by decide⟩

/-- A plain character does not begin with a backslash. -/
theorem plain_ne_backslash {c : Char} (hc : 0x20 ≤ c.toNat ∧ c ≠ '"' ∧ c ≠ '\\') {r r' : Bytes} :
    String.utf8EncodeChar c ++ r ≠ 0x5c :: r' := by
  intro h
  obtain ⟨b, tail, hbytes, -⟩ := head_piece (.plain c hc)
  change String.utf8EncodeChar c = b :: tail at hbytes
  have hplain := isPlain_encodeChar hc.2 b (by rw [hbytes]; exact mem_cons_self)
  rw [hbytes] at h
  rw [(List.cons.inj h).1] at hplain
  exact absurd hplain (by decide)

theorem letter_injective {e f : Escape} (h : e.letter = f.letter) : e = f := by
  cases e <;> cases f <;> first | rfl | exact absurd h (by decide)

/-- The first piece of a string is of one spelling. -/
theorem piece_unique {p q : Piece} {r r' : Bytes} (h : p.bytes ++ r = q.bytes ++ r') : p = q ∧ r = r' := by
  cases p with
  | plain c hc =>
    cases q with
    | plain d hd =>
      simp only [Piece.bytes] at h
      have hchar := decodeChar_append c r
      rw [h, decodeChar_append d r'] at hchar
      cases hchar
      exact ⟨rfl, append_cancel_left h⟩
    | escape f => exact absurd h (plain_ne_backslash hc)
    | code => exact absurd h (plain_ne_backslash hc)
  | escape e =>
    cases q with
    | plain d hd => exact absurd h.symm (plain_ne_backslash hd)
    | escape f =>
      simp only [Piece.bytes, cons_append, nil_append, List.cons.injEq, true_and] at h
      exact ⟨by rw [letter_injective h.1], h.2⟩
    | code a b c d =>
      simp only [Piece.bytes, cons_append, nil_append, List.cons.injEq, true_and] at h
      exact absurd h.1 (simpleEscape_letter e).2
  | code a b c d =>
    cases q with
    | plain d hd => exact absurd h.symm (plain_ne_backslash hd)
    | escape f =>
      simp only [Piece.bytes, cons_append, nil_append, List.cons.injEq, true_and] at h
      exact absurd h.1.symm (simpleEscape_letter f).2
    | code a' b' c' d' =>
      simp only [Piece.bytes, cons_append, nil_append, List.cons.injEq, true_and] at h
      obtain ⟨ha, hb, hc, hd, hr⟩ := h
      rw [Subtype.ext ha, Subtype.ext hb, Subtype.ext hc, Subtype.ext hd]
      exact ⟨rfl, hr⟩

variable {rest rest' : Bytes}

/-- **A string** is of one spelling, and ends at its quote. -/
theorem pieces_unique {s t : List Piece}
    (h : s.flatMap Piece.bytes ++ 0x22 :: rest = t.flatMap Piece.bytes ++ 0x22 :: rest') :
    s = t ∧ rest = rest' := by
  induction s generalizing t with
  | nil =>
    cases t with
    | nil => exact ⟨rfl, (List.cons.inj h).2⟩
    | cons q t =>
      obtain ⟨b, tail, hq, hb⟩ := head_piece q
      rw [flatMap_cons, hq] at h
      exact absurd (List.cons.inj h).1.symm hb
  | cons p s ih =>
    cases t with
    | nil =>
      obtain ⟨b, tail, hp, hb⟩ := head_piece p
      rw [flatMap_cons, hp] at h
      exact absurd (List.cons.inj h).1 hb
    | cons q t =>
      rw [flatMap_cons, flatMap_cons, append_assoc, append_assoc] at h
      obtain ⟨rfl, hnext⟩ := piece_unique h
      obtain ⟨rfl, hrest⟩ := ih hnext
      exact ⟨rfl, hrest⟩

theorem stringBytes_unique {s t : List Piece} (h : stringBytes s ++ rest = stringBytes t ++ rest') :
    s = t ∧ rest = rest' := by
  simp only [stringBytes, cons_append, append_assoc, nil_append, List.cons.injEq, true_and] at h
  exact pieces_unique h

/-! ### Documents -/

/-- No more of a number. -/
def Follows (rest : Bytes) : Prop := ∀ b ∈ rest.head?, isNumberByte b = false

/-- A value is read as far as it goes, and as what is kept of it. -/
theorem kept_unique {d e : Doc} (hrest : Follows rest) (hrest' : Follows rest')
    (h : d.bytes ++ rest = e.bytes ++ rest') :
    d.kept = e.kept ∧ d.bytes = e.bytes ∧ rest = rest' := by
  have hd : Remains (d.bytes ++ rest) 0 (noBlanks.val ++ (d.bytes ++ rest)) := remains_zero _
  have he : Remains (d.bytes ++ rest) 0 (noBlanks.val ++ (e.bytes ++ rest')) := by
    rw [← h]
    exact hd
  have hlengths : d.bytes.length + rest.length = e.bytes.length + rest'.length := by
    rw [← length_append, h, length_append]
  have hread : parseValue (d.bytes ++ rest) (4 * (d.bytes.length + rest.length) + 3) 0 = .ok _ :=
    parseValue_doc d noBlanks hd hrest (by simp only [noBlanks, length_nil]; omega)
  have hread' : parseValue (d.bytes ++ rest) (4 * (d.bytes.length + rest.length) + 3) 0 = .ok _ :=
    parseValue_doc e noBlanks he hrest' (by simp only [noBlanks, length_nil]; omega)
  rw [hread] at hread'
  have hpair := Prod.ext_iff.mp (Except.ok.inj hread')
  have hlength : d.bytes.length = e.bytes.length := by
    have := hpair.2
    simp only at this
    omega
  exact ⟨hpair.1, append_inj h hlength⟩

/-- Behind the blanks before them, items begin at the same byte. -/
theorem items_behind {items items' : Items}
    (h : ws.val ++ (items.bytes ++ rest) = ws'.val ++ (items'.bytes ++ rest')) :
    items.bytes ++ rest = items'.bytes ++ rest' := by
  obtain ⟨b, tail, hbytes, hspace, -⟩ := head_items items
  obtain ⟨b', tail', hbytes', hspace', -⟩ := head_items items'
  rw [hbytes, hbytes', cons_append, cons_append] at h ⊢
  obtain ⟨rfl, htail⟩ := blanks_unique hspace hspace' h
  rw [htail]

theorem members_behind {members members' : Members}
    (h : ws.val ++ (members.bytes ++ rest) = ws'.val ++ (members'.bytes ++ rest')) :
    members.bytes ++ rest = members'.bytes ++ rest' := by
  obtain ⟨tail, hbytes⟩ := head_members members
  obtain ⟨tail', hbytes'⟩ := head_members members'
  rw [hbytes, hbytes', cons_append, cons_append] at h ⊢
  rw [(blanks_unique rfl rfl h).2]

theorem doc_behind {d e : Doc} (h : ws.val ++ (d.bytes ++ rest) = ws'.val ++ (e.bytes ++ rest')) :
    d.bytes ++ rest = e.bytes ++ rest' := by
  obtain ⟨b, tail, hbytes, hspace, -⟩ := head_doc d
  obtain ⟨b', tail', hbytes', hspace', -⟩ := head_doc e
  rw [hbytes, hbytes', cons_append, cons_append] at h ⊢
  obtain ⟨rfl, htail⟩ := blanks_unique hspace hspace' h
  rw [htail]

theorem kept_items_ne_nil (items : Items) : items.kept ≠ [] := by
  cases items <;> exact cons_ne_nil _ _

theorem kept_members_ne_nil (members : Members) : members.kept ≠ [] := by
  cases members <;> exact cons_ne_nil _ _

/-- What the items of an array say. -/
def Items.denote (items : Items) : List (Tree ℚ (List Nat)) := Tree.mapItems NumberToken.value codePoints items.tokens

/-- What the members of an object say. -/
def Members.denote (members : Members) : List (List Nat × Tree ℚ (List Nat)) :=
  Tree.mapEntries NumberToken.value codePoints members.tokens

mutual

/-- A value of the same bytes says the same. -/
theorem doc_unique : ∀ (d e : Doc) {rest rest' : Bytes}, Follows rest → Follows rest' →
    d.bytes ++ rest = e.bytes ++ rest' → d.denote = e.denote ∧ rest = rest'
  | .null, e, rest, rest', hrest, hrest', h => by
    obtain ⟨hkept, -, hends⟩ := kept_unique hrest hrest' h
    cases e <;> simp only [Doc.kept, reduceCtorEq] at hkept
    exact ⟨rfl, hends⟩
  | .bool b, e, rest, rest', hrest, hrest', h => by
    obtain ⟨hkept, -, hends⟩ := kept_unique hrest hrest' h
    cases e <;> simp only [Doc.kept, reduceCtorEq, Value.bool.injEq] at hkept
    rw [hkept]
    exact ⟨rfl, hends⟩
  | .number t, e, rest, rest', hrest, hrest', h => by
    obtain ⟨hkept, hbytes, hends⟩ := kept_unique hrest hrest' h
    cases e <;> simp only [Doc.kept, reduceCtorEq] at hkept
    exact ⟨congrArg Tree.number (token_unique hbytes), hends⟩
  | .string s, e, rest, rest', hrest, hrest', h => by
    obtain ⟨hkept, -, hends⟩ := kept_unique hrest hrest' h
    cases e <;> simp only [Doc.kept, reduceCtorEq] at hkept
    rw [(stringBytes_unique h).1]
    exact ⟨rfl, hends⟩
  | .emptyArray _, e, rest, rest', hrest, hrest', h => by
    obtain ⟨hkept, -, hends⟩ := kept_unique hrest hrest' h
    cases e <;> simp only [Doc.kept, reduceCtorEq, Value.array.injEq] at hkept
    · exact ⟨rfl, hends⟩
    · exact absurd hkept.symm (kept_items_ne_nil _)
  | .array before items, e, rest, rest', hrest, hrest', h => by
    obtain ⟨hkept, hbytes, hends⟩ := kept_unique hrest hrest' h
    cases e <;> simp only [Doc.kept, reduceCtorEq, Value.array.injEq] at hkept
    · exact absurd hkept (kept_items_ne_nil _)
    · simp only [Doc.bytes, List.cons.injEq, true_and] at hbytes
      rename_i before' items'
      have hpadded : before.val ++ (items.bytes ++ []) = before'.val ++ (items'.bytes ++ []) := by
        simpa only [append_nil] using hbytes
      have hinner := items_behind hpadded
      exact ⟨congrArg Tree.array (items_unique items _ hinner).1, hends⟩
  | .emptyObject _, e, rest, rest', hrest, hrest', h => by
    obtain ⟨hkept, -, hends⟩ := kept_unique hrest hrest' h
    cases e <;> simp only [Doc.kept, reduceCtorEq, Value.object.injEq] at hkept
    · exact ⟨rfl, hends⟩
    · exact absurd hkept.symm (kept_members_ne_nil _)
  | .object before members, e, rest, rest', hrest, hrest', h => by
    obtain ⟨hkept, hbytes, hends⟩ := kept_unique hrest hrest' h
    cases e <;> simp only [Doc.kept, reduceCtorEq, Value.object.injEq] at hkept
    · exact absurd hkept (kept_members_ne_nil _)
    · simp only [Doc.bytes, List.cons.injEq, true_and] at hbytes
      rename_i before' members'
      have hpadded : before.val ++ (members.bytes ++ []) = before'.val ++ (members'.bytes ++ []) := by
        simpa only [append_nil] using hbytes
      have hinner := members_behind hpadded
      exact ⟨congrArg Tree.object (members_unique members _ hinner).1, hends⟩

/-- Items of the same bytes say the same. -/
theorem items_unique : ∀ (items items' : Items) {rest rest' : Bytes}, items.bytes ++ rest = items'.bytes ++ rest' →
    items.denote = items'.denote ∧ rest = rest'
  | .last d after, .last e after', rest, rest', h => by
    simp only [Items.bytes, append_assoc, singleton_append] at h
    obtain ⟨hd, hnext⟩ := doc_unique d e (follow_blanks after rfl rest) (follow_blanks after' rfl rest') h
    exact ⟨congrArg (fun t => [t]) hd, (blanks_unique rfl rfl hnext).2⟩
  | .last d after, .more e after' before' items', rest, rest', h => by
    simp only [Items.bytes, append_assoc, cons_append] at h
    obtain ⟨-, hnext⟩ := doc_unique d e (follow_blanks after rfl rest) (follow_blanks after' rfl _) h
    exact absurd (blanks_unique rfl rfl hnext).1 (by decide)
  | .more d after before items, .last e after', rest, rest', h => by
    simp only [Items.bytes, append_assoc, cons_append] at h
    obtain ⟨-, hnext⟩ := doc_unique d e (follow_blanks after rfl _) (follow_blanks after' rfl rest') h
    exact absurd (blanks_unique rfl rfl hnext).1 (by decide)
  | .more d after before items, .more e after' before' items', rest, rest', h => by
    simp only [Items.bytes, append_assoc, cons_append] at h
    obtain ⟨hd, hnext⟩ := doc_unique d e (follow_blanks after rfl _) (follow_blanks after' rfl _) h
    obtain ⟨hitems, hrest⟩ := items_unique items items' (items_behind (blanks_unique rfl rfl hnext).2)
    exact ⟨congrArg₂ List.cons hd hitems, hrest⟩

/-- Members of the same bytes say the same. -/
theorem members_unique : ∀ (members members' : Members) {rest rest' : Bytes},
    members.bytes ++ rest = members'.bytes ++ rest' → members.denote = members'.denote ∧ rest = rest'
  | .last key afterKey beforeValue d after, .last key' afterKey' beforeValue' e after', rest, rest', h => by
    simp only [Members.bytes, append_assoc, cons_append] at h
    obtain ⟨rfl, hcolon⟩ := stringBytes_unique h
    obtain ⟨hd, hnext⟩ := doc_unique d e (follow_blanks after rfl rest) (follow_blanks after' rfl rest')
      (doc_behind (blanks_unique rfl rfl hcolon).2)
    exact ⟨congrArg (fun t => [(codePoints key, t)]) hd, (blanks_unique rfl rfl hnext).2⟩
  | .last key afterKey beforeValue d after, .more key' afterKey' beforeValue' e after' before' members', rest, rest', h =>
    by
    simp only [Members.bytes, append_assoc, cons_append] at h
    obtain ⟨rfl, hcolon⟩ := stringBytes_unique h
    obtain ⟨-, hnext⟩ := doc_unique d e (follow_blanks after rfl rest) (follow_blanks after' rfl _)
      (doc_behind (blanks_unique rfl rfl hcolon).2)
    exact absurd (blanks_unique rfl rfl hnext).1 (by decide)
  | .more key afterKey beforeValue d after before members, .last key' afterKey' beforeValue' e after', rest, rest', h =>
    by
    simp only [Members.bytes, append_assoc, cons_append] at h
    obtain ⟨rfl, hcolon⟩ := stringBytes_unique h
    obtain ⟨-, hnext⟩ := doc_unique d e (follow_blanks after rfl _) (follow_blanks after' rfl rest')
      (doc_behind (blanks_unique rfl rfl hcolon).2)
    exact absurd (blanks_unique rfl rfl hnext).1 (by decide)
  | .more key afterKey beforeValue d after before members,
      .more key' afterKey' beforeValue' e after' before' members', rest, rest', h => by
    simp only [Members.bytes, append_assoc, cons_append] at h
    obtain ⟨rfl, hcolon⟩ := stringBytes_unique h
    obtain ⟨hd, hnext⟩ := doc_unique d e (follow_blanks after rfl _) (follow_blanks after' rfl _)
      (doc_behind (blanks_unique rfl rfl hcolon).2)
    obtain ⟨hmembers, hrest⟩ := members_unique members members' (members_behind (blanks_unique rfl rfl hnext).2)
    exact ⟨congrArg₂ (fun t l => (codePoints key, t) :: l) hd hmembers, hrest⟩

end

/-- **Documents of the same bytes** say the same. -/
theorem denote_unique {d e : Document} (h : d.bytes = e.bytes) : d.value.denote = e.value.denote := by
  have hfollow : ∀ ws : Blanks, Follows ws.val := fun ws b hb => not_number_of_space (ws.2 b (mem_of_head? hb))
  exact (doc_unique d.value e.value (hfollow d.after) (hfollow e.after) (doc_behind h)).1

end Alt.StructDiff
