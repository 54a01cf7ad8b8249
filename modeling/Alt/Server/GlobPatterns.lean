import Alt.Server.Globs
import Mathlib.Data.List.Count

namespace Alt.Server

open Alt.Library List

/-!
# Glob patterns (`alt-cli/src/policy.rs`, 283–334)

`Glob::new` takes the slashes beside a `**` into the wildcard and copies everything else byte by
byte, each byte as a character.  A literal with a byte above 0x7f comes out as another text, and
`L/**` comes out as `L**`.

* `Reading` — what the documentation says of plain patterns, of `L/**` and of `L/**/R`;
* `glob_reading_iff` — the inputs on which a pattern is read so, and the patterns that are read so
  on every input.
-/

def star : UInt8 := 0x2a

def pathSep : UInt8 := 0x2f

/-- The bytes of a literal, each taken for a character. -/
def reencode (s : Bytes) : Bytes := s.flatMap fun b => String.utf8EncodeChar (Char.ofNat b.toNat)

/-- The documented reading of a pattern on one input. -/
structure Reading (p s : String) : Prop where
  plain : star ∉ utf8 p → (globMatches p s = true ↔ s = p)
  below : ∀ front, star ∉ front → utf8 p = front ++ [pathSep, star, star] → globMatches p s = true →
    utf8 s = front ∨ front ++ [pathSep] <+: utf8 s
  between : ∀ front back, star ∉ front → star ∉ back →
    utf8 p = front ++ [pathSep, star, star, pathSep] ++ back → globMatches p s = true →
      utf8 s = front ++ pathSep :: back ∨
        (front ++ [pathSep] <+: utf8 s ∧ pathSep :: back <:+ utf8 s)

/-- The inputs on which the slashes and the characters that were lost do not matter. -/
structure Unharmed (p s : String) : Prop where
  plain : star ∉ utf8 p → (utf8 s = reencode (utf8 p) ↔ s = p)
  below : ∀ front, star ∉ front → utf8 p = front ++ [pathSep, star, star] →
    reencode front <+: utf8 s → utf8 s = front ∨ front ++ [pathSep] <+: utf8 s
  between : ∀ front back middle, star ∉ front → star ∉ back →
    utf8 p = front ++ [pathSep, star, star, pathSep] ++ back →
      utf8 s = reencode front ++ middle ++ reencode back →
        utf8 s = front ++ pathSep :: back ∨
          (front ++ [pathSep] <+: utf8 s ∧ pathSep :: back <:+ utf8 s)

/-- The patterns that are read as documented on every input: plain ones in ASCII, and those of
    another form than `L/**` and `L/**/R`. -/
structure Harmless (p : String) : Prop where
  plain : star ∉ utf8 p → ∀ b ∈ utf8 p, b < 0x80
  below : ∀ front, star ∉ front → utf8 p ≠ front ++ [pathSep, star, star]
  between : ∀ front back, star ∉ front → star ∉ back →
    utf8 p ≠ front ++ [pathSep, star, star, pathSep] ++ back

/-! ### Literals, byte by byte -/

@[simp] theorem reencode_nil : reencode [] = [] := rfl

@[simp] theorem reencode_append {a b : Bytes} : reencode (a ++ b) = reencode a ++ reencode b :=
  flatMap_append

theorem encode_high {b : UInt8} (hb : ¬b < 0x80) :
    (String.utf8EncodeChar (Char.ofNat b.toNat)).length = 2 := by
  obtain ⟨c, d, heq, -, -⟩ := utf8EncodeChar_high hb
  rw [heq]
  rfl

/-- A byte is as many slashes as what it becomes. -/
theorem count_encode (b : UInt8) :
    (String.utf8EncodeChar (Char.ofNat b.toNat)).count pathSep = [b].count pathSep := by
  by_cases hb : b < 0x80
  · rw [utf8EncodeChar_ascii hb]
  · obtain ⟨c, d, heq, hc, hd⟩ := utf8EncodeChar_high hb
    have hne : ∀ {x : UInt8}, ¬x < 0x80 → x ≠ pathSep := by
      rintro _ hx rfl
      exact hx (by decide)
    simp [heq, hne hb, hne hc, hne hd]

variable {s : Bytes}

theorem count_reencode : (reencode s).count pathSep = s.count pathSep := by
  induction s with
  | nil => rfl
  | cons b s ih =>
    have hcons : reencode (b :: s) =
        String.utf8EncodeChar (Char.ofNat b.toNat) ++ reencode s := rfl
    rw [hcons, count_append, count_encode, ih, ← count_append]
    rfl

theorem length_reencode : s.length ≤ (reencode s).length := by
  induction s with
  | nil => exact Nat.zero_le _
  | cons b s ih =>
    have hcons : reencode (b :: s) =
        String.utf8EncodeChar (Char.ofNat b.toNat) ++ reencode s := rfl
    have hone : 1 ≤ (String.utf8EncodeChar (Char.ofNat b.toNat)).length := by
      by_cases hb : b < 0x80
      · rw [utf8EncodeChar_ascii hb, length_singleton]
      · rw [encode_high hb]
        omega
    rw [hcons, length_append, length_cons]
    omega

/-- What is in ASCII, and nothing else, is copied as it is. -/
theorem reencode_eq_self : reencode s = s ↔ ∀ b ∈ s, b < 0x80 := by
  induction s with
  | nil => simp
  | cons b s ih =>
    have hcons : reencode (b :: s) =
        String.utf8EncodeChar (Char.ofNat b.toNat) ++ reencode s := rfl
    rw [forall_mem_cons, ← ih, hcons]
    by_cases hb : b < 0x80
    · rw [utf8EncodeChar_ascii hb]
      simp [hb]
    · constructor
      · intro h
        have hlength := congrArg List.length h
        rw [length_append, encode_high hb, length_cons] at hlength
        have hle := length_reencode (s := s)
        omega
      · exact fun h => absurd h.1 hb

/-- The text that a literal becomes. -/
theorem utf8_chars (s : Bytes) : utf8 (String.ofList (s.map fun b => Char.ofNat b.toNat)) = reencode s := by
  rw [utf8_ofList, flatMap_map]
  rfl

/-! ### What a pattern is compiled to -/

theorem globFrom_byte {buf rest : Bytes} {b : UInt8} (hb : b ≠ star) :
    globFrom buf (b :: rest) = globFrom (buf ++ String.utf8EncodeChar (Char.ofNat b.toNat)) rest := by
  rw [globFrom.eq_def]
  split
  case h_1 heq => cases heq
  case h_2 heq => exact absurd (List.cons.inj heq).1 hb
  case h_3 heq => exact absurd (List.cons.inj heq).1 hb
  case h_4 heq => exact absurd (List.cons.inj heq).1 hb
  case h_5 heq =>
    obtain ⟨rfl, rfl⟩ := List.cons.inj heq
    rfl

/-- A literal is copied byte by byte. -/
theorem globFrom_literal (buf rest : Bytes) (hs : star ∉ s) :
    globFrom buf (s ++ rest) = globFrom (buf ++ reencode s) rest := by
  induction s generalizing buf with
  | nil => rw [nil_append, reencode_nil, append_nil]
  | cons b s ih =>
    have hb : b ≠ star := fun heq => hs (heq ▸ mem_cons_self)
    have hcons : reencode (b :: s) =
        String.utf8EncodeChar (Char.ofNat b.toNat) ++ reencode s := rfl
    rw [cons_append, globFrom_byte hb, ih _ fun hmem => hs (mem_cons_of_mem _ hmem), hcons,
      append_assoc]

theorem globFrom_plain {p : Bytes} (hp : star ∉ p) : globFrom [] p = litPart (reencode p) := by
  have hliteral := globFrom_literal [] [] hp
  rwa [append_nil, nil_append, globFrom] at hliteral

theorem reencode_sep : reencode [pathSep] = [pathSep] := by
  refine reencode_eq_self.mpr fun b hb => ?_
  rw [mem_singleton.mp hb]
  decide

variable {front : Bytes}

/-- The slash in front of a `**` goes, whatever is behind it. -/
theorem globFrom_below (hfront : star ∉ front) :
    globFrom [] (front ++ [pathSep, star, star]) = litPart (reencode front) ++ [.anyChars] := by
  have hsep : star ∉ front ++ [pathSep] := by
    rw [mem_append, mem_singleton]
    exact fun h => h.elim hfront (by decide)
  have hsplit : front ++ [pathSep, star, star] = (front ++ [pathSep]) ++ [star, star] := by simp
  rw [hsplit, globFrom_literal _ _ hsep, nil_append, reencode_append, reencode_sep]
  show litPart (if (reencode front ++ [pathSep]).getLast? = some pathSep then
    (reencode front ++ [pathSep]).dropLast else _) ++ .anyChars :: globFrom [] [] = _
  rw [getLast?_append_cons, getLast?_singleton, if_pos rfl, dropLast_concat]
  rfl

variable {back : Bytes}

/-- So does the one behind it. -/
theorem globFrom_between (hfront : star ∉ front) (hback : star ∉ back) :
    globFrom [] (front ++ [pathSep, star, star, pathSep] ++ back) =
      litPart (reencode front) ++ .anyChars :: litPart (reencode back) := by
  have hsep : star ∉ front ++ [pathSep] := by
    rw [mem_append, mem_singleton]
    exact fun h => h.elim hfront (by decide)
  have hsplit : front ++ [pathSep, star, star, pathSep] ++ back =
      (front ++ [pathSep]) ++ star :: star :: pathSep :: back := by simp
  rw [hsplit, globFrom_literal _ _ hsep, nil_append, reencode_append, reencode_sep]
  show litPart (if (reencode front ++ [pathSep]).getLast? = some pathSep then
    (reencode front ++ [pathSep]).dropLast else _) ++ .anyChars :: globFrom [] back = _
  rw [getLast?_append_cons, getLast?_singleton, if_pos rfl, dropLast_concat,
    globFrom_plain hback]

/-! ### What it matches -/

theorem splits_litPart {parts : List Part} {input : Bytes} :
    Splits (litPart s ++ parts) input ↔ ∃ rest, Splits parts rest ∧ s ++ rest = input := by
  rw [litPart]
  split
  case isTrue hs =>
    subst hs
    simp
  case isFalse =>
    rw [cons_append, nil_append, splits_cons]
    constructor
    · rintro ⟨piece, rest, hpiece, hrest, heq⟩
      obtain rfl : piece = s := hpiece
      exact ⟨rest, hrest, heq⟩
    · rintro ⟨rest, hrest, heq⟩
      exact ⟨s, rest, rfl, hrest, heq⟩

theorem litPart_ne {part : Part} (h : part ∈ litPart s) : part ≠ .anySegment := by
  rw [litPart] at h
  split at h
  · cases h
  · obtain rfl := mem_singleton.mp h
    intro heq
    cases heq

variable {p : String}

/-- A pattern that is compiled without `*`. -/
theorem globMatches_iff {s : String} {parts : List Part} (hparts : globFrom [] (utf8 p) = parts)
    (hstar : ∀ part ∈ parts, part ≠ .anySegment) :
    globMatches p s = true ↔ Splits parts (utf8 s) := by
  rw [globMatches, hparts, ← matchPartsOf_eq]
  exact matchPartsOf_iff_splits hstar

theorem globMatches_plain {s : String} (hp : star ∉ utf8 p) :
    globMatches p s = true ↔ utf8 s = reencode (utf8 p) := by
  rw [globMatches_iff (globFrom_plain hp) fun part hmem => litPart_ne hmem,
    ← append_nil (litPart _), splits_litPart]
  simp only [splits_nil]
  constructor
  · rintro ⟨rest, rfl, heq⟩
    rw [← heq, append_nil]
  · exact fun h => ⟨[], rfl, by rw [append_nil, h]⟩

theorem globMatches_below {s : String} (hfront : star ∉ front)
    (hp : utf8 p = front ++ [pathSep, star, star]) :
    globMatches p s = true ↔ reencode front <+: utf8 s := by
  have hstar : ∀ part ∈ litPart (reencode front) ++ [Part.anyChars], part ≠ .anySegment := by
    intro part hmem
    rcases mem_append.mp hmem with hmem | hmem
    · exact litPart_ne hmem
    · obtain rfl := mem_singleton.mp hmem
      intro heq
      cases heq
  rw [globMatches_iff (hp ▸ globFrom_below hfront) hstar, splits_litPart]
  constructor
  · rintro ⟨rest, _, heq⟩
    exact ⟨rest, heq⟩
  · rintro ⟨rest, heq⟩
    exact ⟨rest, splits_cons.mpr ⟨rest, [], trivial, splits_nil.mpr rfl, append_nil _⟩, heq⟩

theorem globMatches_between {s : String} (hfront : star ∉ front) (hback : star ∉ back)
    (hp : utf8 p = front ++ [pathSep, star, star, pathSep] ++ back) :
    globMatches p s = true ↔ ∃ middle, utf8 s = reencode front ++ middle ++ reencode back := by
  have hstar : ∀ part ∈ litPart (reencode front) ++ Part.anyChars :: litPart (reencode back),
      part ≠ .anySegment := by
    intro part hmem
    rcases mem_append.mp hmem with hmem | hmem
    · exact litPart_ne hmem
    · rcases mem_cons.mp hmem with rfl | hmem
      · intro heq
        cases heq
      · exact litPart_ne hmem
  rw [globMatches_iff (hp ▸ globFrom_between hfront hback) hstar, splits_litPart]
  constructor
  · rintro ⟨rest, hrest, heq⟩
    obtain ⟨middle, tail, _, htail, rfl⟩ := splits_cons.mp hrest
    rw [← append_nil (litPart _), splits_litPart] at htail
    obtain ⟨last, hlast, rfl⟩ := htail
    obtain rfl := splits_nil.mp hlast
    exact ⟨middle, by rw [← heq, append_nil, append_assoc]⟩
  · rintro ⟨middle, heq⟩
    refine ⟨middle ++ reencode back, splits_cons.mpr ⟨middle, reencode back, trivial, ?_, rfl⟩,
      by rw [heq, append_assoc]⟩
    rw [← append_nil (litPart _), splits_litPart]
    exact ⟨[], splits_nil.mpr rfl, append_nil _⟩

/-! ### The reading -/

theorem reading_iff {s : String} : Reading p s ↔ Unharmed p s := by
  constructor
  · intro h
    refine ⟨fun hp => ?_, fun front hfront hp hprefix => ?_,
      fun front back middle hfront hback hp heq => ?_⟩
    · rw [← globMatches_plain hp]
      exact h.plain hp
    · exact h.below front hfront hp ((globMatches_below hfront hp).mpr hprefix)
    · exact h.between front back hfront hback hp ((globMatches_between hfront hback hp).mpr ⟨middle, heq⟩)
  · intro h
    refine ⟨fun hp => ?_, fun front hfront hp hmatch => ?_, fun front back hfront hback hp hmatch => ?_⟩
    · rw [globMatches_plain hp]
      exact h.plain hp
    · exact h.below front hfront hp ((globMatches_below hfront hp).mp hmatch)
    · obtain ⟨middle, heq⟩ := (globMatches_between hfront hback hp).mp hmatch
      exact h.between front back middle hfront hback hp heq

/-- A sibling whose name starts with the same letters. -/
def sibling (front back : Bytes) : String :=
  String.ofList ((front ++ [0x78] ++ back).map fun b : UInt8 => Char.ofNat b.toNat)

theorem utf8_sibling :
    utf8 (sibling front back) = reencode front ++ [0x78] ++ reencode back := by
  rw [sibling, utf8_chars, reencode_append, reencode_append]
  rfl

theorem count_sibling (front back : Bytes) :
    (utf8 (sibling front back)).count pathSep = front.count pathSep + back.count pathSep := by
  rw [utf8_sibling, count_append, count_append, count_reencode, count_reencode]
  rfl

theorem length_sibling (front back : Bytes) :
    front.length + back.length < (utf8 (sibling front back)).length := by
  have hfront := length_reencode (s := front)
  have hback := length_reencode (s := back)
  rw [utf8_sibling, length_append, length_append, length_singleton]
  omega

/-- `L/**` matches a sibling of `L`. -/
theorem not_reading_below (hfront : star ∉ front) (hp : utf8 p = front ++ [pathSep, star, star]) :
    ¬Unharmed p (sibling front []) := by
  intro h
  have hprefix : reencode front <+: utf8 (sibling front []) := by
    rw [utf8_sibling, append_assoc]
    exact prefix_append _ _
  rcases h.below front hfront hp hprefix with heq | ⟨rest, heq⟩
  · have hlength := length_sibling front []
    rw [heq] at hlength
    omega
  · have hcount := count_sibling front []
    rw [← heq, count_append, count_append] at hcount
    have hone : [pathSep].count pathSep = 1 := rfl
    rw [hone, count_nil] at hcount
    omega

/-- `L/**/R` matches a sibling of `L` whose name ends as `R`. -/
theorem not_reading_between (hfront : star ∉ front) (hback : star ∉ back)
    (hp : utf8 p = front ++ [pathSep, star, star, pathSep] ++ back) :
    ¬Unharmed p (sibling front back) := by
  intro h
  have hone : [pathSep].count pathSep = 1 := rfl
  have hcount := count_sibling front back
  rcases h.between front back [0x78] hfront hback hp utf8_sibling with heq | ⟨⟨rest, hrest⟩, hsuffix⟩
  · rw [heq, count_append, count_cons_self] at hcount
    omega
  · have hlength := length_sibling front back
    rw [← hrest, length_append, length_append, length_singleton] at hlength
    -- the two slashes may be one, but not the names beside them
    have hback' : back <:+ rest := by
      have hall : back <:+ front ++ [pathSep] ++ rest := by
        rw [hrest]
        exact (suffix_cons _ _).trans hsuffix
      exact suffix_of_suffix_length_le hall (suffix_append _ _) (by omega)
    have hle := hback'.sublist.count_le pathSep
    rw [← hrest, count_append, count_append, hone] at hcount
    omega

/-- A plain pattern in ASCII, or one of another form. -/
theorem unharmed_all_iff : (∀ s, Unharmed p s) ↔ Harmless p := by
  constructor
  · intro h
    refine ⟨fun hp => ?_, fun front hfront hp => not_reading_below hfront hp (h _),
      fun front back hfront hback hp => not_reading_between hfront hback hp (h _)⟩
    rw [← reencode_eq_self]
    exact (((h p).plain hp).mpr rfl).symm
  · intro h s
    refine ⟨fun hp => ?_, fun front hfront hp => absurd hp (h.below front hfront),
      fun front back _ hfront hback hp => absurd hp (h.between front back hfront hback)⟩
    rw [reencode_eq_self.mpr (h.plain hp)]
    exact ⟨utf8_injective, congrArg utf8⟩

/-- **Glob patterns.** A pattern is read as documented on an input exactly if the bytes it lost do
    not matter there; and it is so on every input exactly if it is plain ASCII or has a `*` in
    another form than `L/**` and `L/**/R`. -/
theorem glob_reading_iff (p : String) :
    (∀ s, Reading p s ↔ Unharmed p s) ∧ ((∀ s, Reading p s) ↔ Harmless p) := by
  refine ⟨fun s => reading_iff, ?_⟩
  simp only [reading_iff]
  exact unharmed_all_iff

/-- **A rule for one directory applies to its sibling.** -/
theorem glob_matches_sibling : ¬Reading "refs/heads/agent/**" "refs/heads/agent-evil" := by
  intro h
  have hmatch : globMatches "refs/heads/agent/**" "refs/heads/agent-evil" = true := by decide +kernel
  have hpattern : utf8 "refs/heads/agent/**" = utf8 "refs/heads/agent" ++ [pathSep, star, star] := by
    decide +kernel
  have hreads := h.below (utf8 "refs/heads/agent") (by decide +kernel) hpattern hmatch
  exact absurd hreads (by decide +kernel)

end Alt.Server
