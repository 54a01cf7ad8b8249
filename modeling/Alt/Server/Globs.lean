import Alt.Server.Policy
import Mathlib.Data.List.Forall2
import Mathlib.Data.List.Infix

namespace Alt.Server

open Alt.Library List

/-!
# Glob matching (`alt-cli/src/policy.rs`, 336–410)

`match_parts` walks the parts with one cursor and the input with another.  It remembers one `**`,
the last, and goes back to it when a part does not match; a `*` hands the rest to a matcher of its
own and the answer of that one stands.

* `matchLoop` — the loop, `matchAnySegment` — the matcher of a `*`;
* `matchLoop_eq` — the loop computes `matchParts`;
* `Splits` — the splits a part list stands for, `ShortestSplit` — those the loop looks for;
* `match_parts_iff` — the loop answers right exactly when a split, if there is one, can be had with
  every `**` that has a wildcard behind it as short as it goes.
-/

/-! ### The loop -/

/-- Where the loop stands: the cursors of the input and the parts, and the last `**` with the place
    it was tried at. -/
structure Cursor (parts : List Part) (input : Bytes) where
  i : Nat
  p : Nat
  bt : Option (Nat × Nat)
  within : i ≤ input.length
  tried : ∀ b ∈ bt, b.1 < parts.length ∧ b.2 ≤ i

namespace Cursor

variable {parts : List Part} {input : Bytes}

def start (parts : List Part) (input : Bytes) : Cursor parts input :=
  ⟨0, 0, none, Nat.zero_le _, by simp⟩

/-- Behind a literal. -/
def skip (c : Cursor parts input) (n : Nat) (h : c.i + n ≤ input.length) : Cursor parts input :=
  ⟨c.i + n, c.p + 1, c.bt, h, fun b hb => ⟨(c.tried b hb).1, by have := (c.tried b hb).2; omega⟩⟩

/-- Behind a `**`, which is remembered. -/
def remember (c : Cursor parts input) (hp : c.p < parts.length) : Cursor parts input :=
  ⟨c.i, c.p + 1, some (c.p, c.i), c.within, by simp [hp]⟩

/-- The next place for the remembered `**`. -/
def back (bp bi : Nat) (hbp : bp < parts.length) (hbi : bi < input.length) : Cursor parts input :=
  ⟨bi + 1, bp + 1, some (bp, bi + 1), hbi, by simp [hbp]⟩

/-- How often the loop can still go back. -/
def left (c : Cursor parts input) : Nat :=
  match c.bt with
  | none => input.length + 1
  | some (_, bi) => input.length - bi

/-- What every round of the loop makes smaller. -/
def weight (c : Cursor parts input) : Nat := c.left * (parts.length + 1) + (parts.length - c.p)

variable {c : Cursor parts input}

theorem weight_skip {n : Nat} {h : c.i + n ≤ input.length} (hp : c.p < parts.length) :
    (c.skip n h).weight < c.weight := by
  have hleft : (c.skip n h).left = c.left := rfl
  have hpos : (c.skip n h).p = c.p + 1 := rfl
  rw [weight, weight, hleft, hpos]
  omega

theorem weight_remember (hp : c.p < parts.length) :
    (c.remember hp).weight < c.weight := by
  have hleft : (c.remember hp).left ≤ c.left := by
    show input.length - c.i ≤ c.left
    rw [left]
    split
    · omega
    · next bp bi hbt =>
      have htried := (c.tried (bp, bi) hbt).2
      omega
  have hpos : (c.remember hp).p = c.p + 1 := rfl
  have hmul := Nat.mul_le_mul_right (parts.length + 1) hleft
  rw [weight, weight, hpos]
  omega

theorem weight_back {bp bi : Nat} {hbp : bp < parts.length} {hbi : bi < input.length}
    (hbt : c.bt = some (bp, bi)) :
    (back bp bi hbp hbi : Cursor parts input).weight < c.weight := by
  have hleft : c.left = input.length - bi := by rw [left, hbt]
  have hback : (back bp bi hbp hbi : Cursor parts input).left + 1 = c.left := by
    rw [hleft]
    show input.length - (bi + 1) + 1 = _
    omega
  have hpos : (back bp bi hbp hbi : Cursor parts input).p = bp + 1 := rfl
  rw [weight, weight, ← hback, Nat.succ_mul, hpos]
  omega

end Cursor

/-- The longest segment first, and at least one byte. -/
def tryEnds (again : Nat → Bool) (lo : Nat) : Nat → Bool
  | 0 => false
  | 1 => again (lo + 1)
  | n + 2 => again (lo + n + 2) || tryEnds again lo (n + 1)

/-- `match_anysegment`, where `rest` matches what is behind the `*`. -/
def matchAnySegment (rest : Bytes → Bool) (input : Bytes) (lo hi : Nat) : Bool :=
  tryEnds (fun e => rest (input.drop e)) lo (hi - lo)

/-- `match_parts`, from a place of its loop. -/
def matchLoop (parts : List Part) (input : Bytes) (c : Cursor parts input) : Bool :=
  if hp : c.p < parts.length then
    match parts[c.p] with
    | .lit s =>
      if hs : c.i + s.length ≤ input.length ∧ (input.drop c.i).take s.length = s then
        matchLoop parts input (c.skip s.length hs.1)
      else
        match hbt : c.bt with
        | none => false
        | some (bp, bi) =>
          if hbi : bi < input.length then
            matchLoop parts input (.back bp bi (c.tried _ hbt).1 hbi)
          else false
    | .anySegment =>
      let hi := c.i + ((input.drop c.i).takeWhile (· != 0x2f)).length
      matchAnySegment (fun rest => matchLoop (parts.drop (c.p + 1)) rest (.start _ rest)) input c.i hi
    | .anyChars => matchLoop parts input (c.remember hp)
  else if c.i = input.length then true
  else
    match hbt : c.bt with
    | none => false
    | some (bp, bi) =>
      if hbi : bi < input.length then
        matchLoop parts input (.back bp bi (c.tried _ hbt).1 hbi)
      else false
termination_by (parts.length, c.weight)
decreasing_by
  · exact Prod.Lex.right _ (Cursor.weight_skip hp)
  · exact Prod.Lex.right _ (Cursor.weight_back hbt)
  · exact Prod.Lex.left _ _ (by rw [length_drop]; omega)
  · exact Prod.Lex.right _ (Cursor.weight_remember hp)
  · exact Prod.Lex.right _ (Cursor.weight_back hbt)

/-- `match_parts`. -/
def matchPartsOf (parts : List Part) (input : Bytes) : Bool :=
  matchLoop parts input (.start parts input)

/-! ### The loop computes `matchParts` -/

section Loop

variable {parts : List Part} {input : Bytes}

/-- What a mismatch goes on with. -/
def Cursor.miss (c : Cursor parts input) : Bool :=
  match c.bt with
  | none => false
  | some (bp, bi) =>
    decide (bi < input.length) && tryEach (matchParts (parts.drop (bp + 1))) (input.drop (bi + 1))

theorem tryEach_drop {attempt : Bytes → Bool → Bool} {i : Nat} :
    tryEach attempt (input.drop i) = attempt (input.drop i)
      (decide (i < input.length) && tryEach attempt (input.drop (i + 1))) := by
  by_cases hlt : i < input.length
  · rw [drop_eq_getElem_cons hlt, tryEach, decide_eq_true hlt, Bool.true_and]
  · rw [drop_eq_nil_of_le (by omega), tryEach, decide_eq_false hlt, Bool.false_and]

variable {c : Cursor parts input}

theorem miss_of_none (hbt : c.bt = none) : c.miss = false := by
  rw [Cursor.miss, hbt]

theorem miss_of_end {bp bi : Nat} (hbt : c.bt = some (bp, bi)) (hbi : ¬bi < input.length) :
    c.miss = false := by
  simp only [Cursor.miss, hbt, decide_eq_false hbi, Bool.false_and]

/-- Going back is trying the last `**` one place further on. -/
theorem miss_eq_back {bp bi : Nat} (hbt : c.bt = some (bp, bi)) (hbp : bp < parts.length)
    (hbi : bi < input.length) :
    c.miss = matchParts (parts.drop (bp + 1)) (input.drop (bi + 1))
      (Cursor.back bp bi hbp hbi : Cursor parts input).miss := by
  simp only [Cursor.miss, hbt, decide_eq_true hbi, Bool.true_and]
  rw [tryEach_drop]
  rfl

theorem tryEnds_eq {again : Nat → Bool} {lo n : Nat} :
    tryEnds again lo n = (List.range n).any fun k => again (lo + k + 1) := by
  induction n with
  | zero => rfl
  | succ n ih =>
    rw [range_succ, any_append]
    cases n with
    | zero => simp [tryEnds]
    | succ n =>
      rw [tryEnds, ih, Bool.or_comm]
      simp only [any_cons, any_nil, Bool.or_false]
      rfl

/-- A literal that is not there, or input behind the last part. -/
theorem matchParts_lit_miss {s : Bytes} {ps : List Part} {rest : Bytes} {miss : Bool}
    (h : ¬s <+: rest) : matchParts (.lit s :: ps) rest miss = miss := by
  rw [matchParts, if_neg (by rwa [List.isPrefixOf_iff_prefix])]

theorem matchParts_nil_miss {rest : Bytes} {miss : Bool} (h : rest ≠ []) :
    matchParts [] rest miss = miss := by
  cases rest with
  | nil => exact absurd rfl h
  | cons b rest => rfl

theorem lit_there_iff {s : Bytes} :
    (c.i + s.length ≤ input.length ∧ (input.drop c.i).take s.length = s) ↔ s <+: input.drop c.i := by
  rw [prefix_iff_eq_take]
  constructor
  · exact fun h => h.2.symm
  · intro h
    have hlength := congrArg List.length h
    rw [length_take, length_drop] at hlength
    have hwithin := c.within
    exact ⟨by omega, h.symm⟩

theorem rest_ne_nil (h : c.i ≠ input.length) : input.drop c.i ≠ [] := by
  have hwithin := c.within
  rw [Ne, drop_eq_nil_iff]
  omega

/-- **The loop is the function.** Its one remembered `**` is what a mismatch of `matchParts` goes on
    with. -/
theorem matchLoop_eq (c : Cursor parts input) :
    matchLoop parts input c = matchParts (parts.drop c.p) (input.drop c.i) c.miss := by
  fun_induction matchLoop parts input c with
  | case1 parts input c hp s hpart hs ih =>
    have hprefix : s.isPrefixOf (input.drop c.i) = true :=
      isPrefixOf_iff_prefix.mpr (lit_there_iff.mp hs)
    rw [ih, drop_eq_getElem_cons hp, hpart, matchParts, if_pos hprefix, drop_drop]
    rfl
  | case2 parts input c hp s hpart hs hbt =>
    rw [drop_eq_getElem_cons hp, hpart, matchParts_lit_miss (mt lit_there_iff.mpr hs),
      miss_of_none hbt]
  | case3 parts input c hp s hpart hs bp bi hbt hbi ih =>
    rw [ih, drop_eq_getElem_cons hp, hpart, matchParts_lit_miss (mt lit_there_iff.mpr hs),
      miss_eq_back hbt (c.tried _ hbt).1 hbi]
    rfl
  | case4 parts input c hp s hpart hs bp bi hbt hbi =>
    rw [drop_eq_getElem_cons hp, hpart, matchParts_lit_miss (mt lit_there_iff.mpr hs),
      miss_of_end hbt hbi]
  | case5 parts input c hp hpart hi ih =>
    have hlength : hi - c.i = ((input.drop c.i).takeWhile (· != 0x2f)).length := by omega
    rw [drop_eq_getElem_cons hp, hpart, matchParts, matchAnySegment, tryEnds_eq, hlength]
    refine congrArg _ (funext fun n => ?_)
    have hrest : (input.drop c.i).drop (n + 1) = input.drop (c.i + n + 1) := drop_drop
    rw [hrest]
    exact ih _
  | case6 parts input c hp hpart ih =>
    rw [ih, drop_eq_getElem_cons hp, hpart, matchParts, tryEach_drop]
    rfl
  | case7 parts input c hp hi =>
    rw [drop_eq_nil_of_le (by omega), hi, drop_length, matchParts]
    rfl
  | case8 parts input c hp hi hbt =>
    rw [drop_eq_nil_of_le (by omega), matchParts_nil_miss (rest_ne_nil hi), miss_of_none hbt]
  | case9 parts input c hp hi bp bi hbt hbi ih =>
    rw [ih, drop_eq_nil_of_le (i := c.p) (by omega), matchParts_nil_miss (rest_ne_nil hi),
      miss_eq_back hbt (c.tried _ hbt).1 hbi]
    rfl
  | case10 parts input c hp hi bp bi hbt hbi =>
    rw [drop_eq_nil_of_le (by omega), matchParts_nil_miss (rest_ne_nil hi), miss_of_end hbt hbi]

theorem matchPartsOf_eq : matchPartsOf parts input = matchParts parts input false := matchLoop_eq _

end Loop

/-! ### Splits of the input -/

/-- The pieces one part stands for. -/
def Part.Fits : Part → Bytes → Prop
  | .lit s, piece => piece = s
  | .anySegment, piece => piece ≠ [] ∧ 0x2f ∉ piece
  | .anyChars, _ => True

/-- The input is cut into consecutive pieces, one for each part. -/
def Splits (parts : List Part) (input : Bytes) : Prop :=
  ∃ pieces, List.Forall₂ Part.Fits parts pieces ∧ pieces.flatten = input

/-- The literals in front of the next wildcard. -/
def lead : List Part → Bytes
  | .lit s :: parts => s ++ lead parts
  | _ => []

/-- Whether a wildcard is left. -/
def hasWild : List Part → Bool
  | [] => false
  | .lit _ :: parts => hasWild parts
  | _ :: _ => true

/-- A split in which every `**` with a wildcard behind it is as short as it can be: in front of the
    place where the literals between the two come first. -/
inductive ShortestSplit : List Part → Bytes → Prop
  | nil : ShortestSplit [] []
  | lit {s rest : Bytes} {parts : List Part} :
      ShortestSplit parts rest → ShortestSplit (.lit s :: parts) (s ++ rest)
  | anySegment {piece rest : Bytes} {parts : List Part} : piece ≠ [] → 0x2f ∉ piece →
      ShortestSplit parts rest → ShortestSplit (.anySegment :: parts) (piece ++ rest)
  | anyChars {piece rest : Bytes} {parts : List Part} :
      (hasWild parts = true → ∀ n < piece.length, ¬lead parts <+: (piece ++ rest).drop n) →
      ShortestSplit parts rest → ShortestSplit (.anyChars :: parts) (piece ++ rest)

section Match

variable {parts : List Part} {input : Bytes}

theorem splits_nil : Splits [] input ↔ input = [] := by
  constructor
  · rintro ⟨pieces, hfits, rfl⟩
    cases hfits
    rfl
  · rintro rfl
    exact ⟨[], .nil, rfl⟩

theorem splits_cons {part : Part} : Splits (part :: parts) input ↔
    ∃ piece rest, part.Fits piece ∧ Splits parts rest ∧ piece ++ rest = input := by
  constructor
  · rintro ⟨pieces, hfits, rfl⟩
    cases hfits with
    | cons hpiece hrest => exact ⟨_, _, hpiece, ⟨_, hrest, rfl⟩, rfl⟩
  · rintro ⟨piece, rest, hpiece, ⟨pieces, hrest, rfl⟩, rfl⟩
    exact ⟨piece :: pieces, .cons hpiece hrest, rfl⟩

/-- A shortest split is a split. -/
theorem ShortestSplit.splits (h : ShortestSplit parts input) : Splits parts input := by
  induction h with
  | nil => exact splits_nil.mpr rfl
  | lit _ ih => exact splits_cons.mpr ⟨_, _, rfl, ih, rfl⟩
  | anySegment hne hslash _ ih => exact splits_cons.mpr ⟨_, _, ⟨hne, hslash⟩, ih, rfl⟩
  | anyChars _ _ ih => exact splits_cons.mpr ⟨_, _, trivial, ih, rfl⟩

/-! ### What the loop answers -/

theorem shortestSplit_lit {s : Bytes} : ShortestSplit (.lit s :: parts) input ↔
    s <+: input ∧ ShortestSplit parts (input.drop s.length) := by
  constructor
  · rintro (_ | h)
    rw [drop_left]
    exact ⟨prefix_append _ _, h⟩
  · rintro ⟨⟨rest, rfl⟩, h⟩
    rw [drop_left] at h
    exact .lit h

theorem shortestSplit_anySegment : ShortestSplit (.anySegment :: parts) input ↔
    ∃ n < (input.takeWhile (· != 0x2f)).length, ShortestSplit parts (input.drop (n + 1)) := by
  constructor
  · intro h
    cases h with
    | @anySegment piece rest _ hne hslash h =>
      obtain ⟨b, piece, rfl⟩ := exists_cons_of_ne_nil hne
      have htake : ∀ c ∈ b :: piece, (c != 0x2f) = true := by
        intro c hc
        simp only [bne_iff_ne, ne_eq]
        rintro rfl
        exact hslash hc
      refine ⟨piece.length, ?_, ?_⟩
      · rw [takeWhile_append_of_pos htake, length_append, length_cons]
        omega
      · rwa [show (b :: piece ++ rest).drop (piece.length + 1) = rest from by simp]
  · rintro ⟨n, hn, h⟩
    have hprefix : input.take (n + 1) <+: input.takeWhile (· != 0x2f) :=
      prefix_of_prefix_length_le (List.take_prefix _ _) (List.takeWhile_prefix _)
        (by rw [length_take]; omega)
    have hlength : (input.takeWhile (· != 0x2f)).length ≤ input.length :=
      (List.takeWhile_prefix _).length_le
    have hsplit : ShortestSplit (.anySegment :: parts) (input.take (n + 1) ++ input.drop (n + 1)) := by
      refine .anySegment ?_ ?_ h
      · rw [← length_pos_iff_ne_nil, length_take]
        omega
      · intro hmem
        have hmem' := mem_takeWhile_imp ( hprefix.subset hmem)
        simp at hmem'
    rwa [take_append_drop] at hsplit

theorem shortestSplit_anyChars : ShortestSplit (.anyChars :: parts) input ↔
    ∃ n ≤ input.length, (hasWild parts = true → ∀ m < n, ¬lead parts <+: input.drop m) ∧
      ShortestSplit parts (input.drop n) := by
  constructor
  · intro h
    cases h with
    | @anyChars piece rest _ hshort h =>
      refine ⟨piece.length, by rw [length_append]; omega, hshort, ?_⟩
      rwa [drop_left]
  · rintro ⟨n, hn, hshort, h⟩
    have hlength : (input.take n).length = n := length_take_of_le hn
    have hsplit : ShortestSplit (.anyChars :: parts) (input.take n ++ input.drop n) := by
      refine .anyChars ?_ h
      rwa [take_append_drop, hlength]
    rwa [take_append_drop] at hsplit

/-- What a matcher with a fallback answers: a split, or the fallback where the literals in front of
    the next wildcard are not there. -/
def Answers (parts : List Part) : Prop := ∀ input miss, matchParts parts input miss = true ↔
  ShortestSplit parts input ∨ (miss = true ∧ ¬(hasWild parts = true ∧ lead parts <+: input))

theorem answers_false (h : Answers parts) :
    matchParts parts input false = true ↔ ShortestSplit parts input := by
  rw [h]
  simp

/-- **A `**` tries one place after the other.** It stops where the literals behind it come first, if
    a wildcard follows them. -/
theorem tryEach_iff (h : Answers parts) :
    tryEach (matchParts parts) input = true ↔ ShortestSplit (.anyChars :: parts) input := by
  induction input with
  | nil =>
    rw [tryEach, answers_false h, shortestSplit_anyChars]
    constructor
    · exact fun hs => ⟨0, le_refl _, fun _ m hm => absurd hm (Nat.not_lt_zero m), hs⟩
    · rintro ⟨n, hn, _, hs⟩
      rwa [drop_nil] at hs
  | cons b input ih =>
    rw [tryEach, h, ih, shortestSplit_anyChars, shortestSplit_anyChars]
    constructor
    · rintro (hs | ⟨⟨n, hn, hshort, hs⟩, hlead⟩)
      · exact ⟨0, Nat.zero_le _, fun _ m hm => absurd hm (Nat.not_lt_zero m), hs⟩
      · refine ⟨n + 1, by rw [length_cons]; omega, ?_, hs⟩
        intro hwild m hm
        cases m with
        | zero => exact fun hprefix => hlead ⟨hwild, hprefix⟩
        | succ m => exact hshort hwild m (by omega)
    · rintro ⟨n, hn, hshort, hs⟩
      cases n with
      | zero => exact .inl hs
      | succ n =>
        rw [length_cons] at hn
        refine .inr ⟨⟨n, by omega, fun hwild m hm => hshort hwild (m + 1) (by omega), hs⟩, ?_⟩
        rintro ⟨hwild, hprefix⟩
        exact hshort hwild 0 (Nat.succ_pos n) hprefix

theorem answers : ∀ parts, Answers parts
  | [] => by
    intro input miss
    have hnil : ShortestSplit [] input ↔ input = [] := by
      constructor
      · rintro ⟨⟩
        rfl
      · rintro rfl
        exact .nil
    rw [matchParts, Bool.or_eq_true, List.isEmpty_iff, hnil]
    simp [hasWild]
  | .lit s :: parts => by
    intro input miss
    rw [shortestSplit_lit]
    by_cases hs : s <+: input
    · obtain ⟨rest, rfl⟩ := hs
      rw [matchParts, if_pos (List.isPrefixOf_iff_prefix.mpr (prefix_append _ _)), drop_left,
        answers parts]
      simp [hasWild, lead, prefix_append_right_inj]
    · rw [matchParts_lit_miss hs]
      have hlead : ¬lead (.lit s :: parts) <+: input := fun h => hs ((prefix_append _ _).trans h)
      simp [hs, hlead]
  | .anySegment :: parts => by
    intro input miss
    rw [matchParts, any_eq_true, shortestSplit_anySegment]
    simp only [mem_range, answers_false (answers parts)]
    simp [hasWild, lead]
  | .anyChars :: parts => by
    intro input miss
    rw [matchParts, tryEach_iff (answers parts)]
    simp [hasWild, lead]

/-- What `match_parts` looks for. -/
theorem matchPartsOf_iff : matchPartsOf parts input = true ↔ ShortestSplit parts input := by
  rw [matchPartsOf_eq]
  exact answers_false (answers parts)

/-- **Glob matching.** The matcher says yes to the inputs that can be split, and only to those,
    exactly if whatever can be split can be split with every `**` that has a wildcard behind it as
    short as it goes. -/
theorem match_parts_iff (parts : List Part) (input : Bytes) :
    (matchPartsOf parts input = true ↔ Splits parts input) ↔
      (Splits parts input → ShortestSplit parts input) := by
  rw [matchPartsOf_iff]
  exact ⟨fun h => h.mpr, fun h => ⟨ShortestSplit.splits, h⟩⟩

theorem lead_prefix (h : Splits parts input) : lead parts <+: input := by
  induction parts generalizing input with
  | nil => exact nil_prefix
  | cons part parts ih =>
    obtain ⟨piece, rest, hpiece, hrest, rfl⟩ := splits_cons.mp h
    cases part with
    | anySegment => exact nil_prefix
    | anyChars => exact nil_prefix
    | lit s =>
      obtain rfl : piece = s := hpiece
      exact (prefix_append_right_inj _).mpr (ih hrest)

/-- A `**` can be split off as early as the literals behind it allow. -/
theorem splits_earlier {n m : Nat} (hstar : ∀ part ∈ parts, part ≠ .anySegment)
    (hwild : hasWild parts = true) (hsplits : Splits parts (input.drop n)) (hmn : m ≤ n)
    (hlead : lead parts <+: input.drop m) : Splits parts (input.drop m) := by
  induction parts generalizing n m with
  | nil => cases hwild
  | cons part parts ih =>
    obtain ⟨piece, rest, hpiece, hrest, heq⟩ := splits_cons.mp hsplits
    cases part with
    | anySegment => exact absurd rfl (hstar _ mem_cons_self)
    | anyChars =>
      refine splits_cons.mpr ⟨(input.drop m).take (n - m) ++ piece, rest, trivial, hrest, ?_⟩
      have hdrop : input.drop n = (input.drop m).drop (n - m) := by
        rw [drop_drop]
        congr 1
        omega
      rw [append_assoc, heq, hdrop, take_append_drop]
    | lit s =>
      obtain rfl : piece = s := hpiece
      obtain ⟨back, hback⟩ := hlead
      rw [lead, append_assoc] at hback
      have hdropn : input.drop (n + piece.length) = rest := by
        rw [← drop_drop, ← heq, drop_left]
      have hdropm : input.drop (m + piece.length) = lead parts ++ back := by
        rw [← drop_drop, ← hback, drop_left]
      have hrest' := ih (fun part hmem => hstar part (mem_cons_of_mem _ hmem)) hwild
        (hdropn ▸ hrest) (Nat.add_le_add_right hmn piece.length) (hdropm ▸ prefix_append _ _)
      rw [hdropm] at hrest'
      exact splits_cons.mpr ⟨piece, _, rfl, hrest', hback⟩

/-- Patterns without `*` are matched exactly. -/
theorem shortestSplit_of_splits (hstar : ∀ part ∈ parts, part ≠ .anySegment)
    (h : Splits parts input) : ShortestSplit parts input := by
  induction parts generalizing input with
  | nil =>
    obtain rfl := splits_nil.mp h
    exact .nil
  | cons part parts ih =>
    have hstar' : ∀ part ∈ parts, part ≠ .anySegment :=
      fun part hmem => hstar part (mem_cons_of_mem _ hmem)
    obtain ⟨piece, rest, hpiece, hrest, rfl⟩ := splits_cons.mp h
    cases part with
    | anySegment => exact absurd rfl (hstar _ mem_cons_self)
    | lit s =>
      obtain rfl : piece = s := hpiece
      exact .lit (ih hstar' hrest)
    | anyChars =>
      rw [shortestSplit_anyChars]
      have hat : (piece ++ rest).drop piece.length = rest := drop_left
      by_cases hwild : hasWild parts = true
      · -- the first place where the literals behind it are
        have hsome : ∃ n, n ≤ piece.length ∧ lead parts <+: (piece ++ rest).drop n := by
          refine ⟨piece.length, le_refl _, ?_⟩
          rw [hat]
          exact lead_prefix hrest
        have hfirst := Nat.find_spec hsome
        refine ⟨Nat.find hsome, le_trans hfirst.1 (by rw [length_append]; omega), ?_, ?_⟩
        · intro _ m hm hprefix
          exact Nat.find_min hsome hm ⟨le_trans (le_of_lt hm) hfirst.1, hprefix⟩
        · exact ih hstar' (splits_earlier hstar' hwild (hat.symm ▸ hrest) hfirst.1 hfirst.2)
      · exact ⟨piece.length, by rw [length_append]; omega, fun h => absurd h hwild,
          hat.symm ▸ ih hstar' hrest⟩

/-- A pattern without `*` matches what it can be split into. -/
theorem matchPartsOf_iff_splits (hstar : ∀ part ∈ parts, part ≠ .anySegment) :
    matchPartsOf parts input = true ↔ Splits parts input :=
  matchPartsOf_iff.trans ⟨ShortestSplit.splits, shortestSplit_of_splits hstar⟩

end Match

/-- **A `*` behind a `**`.** The `**` is empty where the `*` can begin, and is not tried again. -/
theorem glob_misses_split : ¬(matchPartsOf [.anyChars, .anySegment] (utf8 "a/b") = true ↔
    Splits [.anyChars, .anySegment] (utf8 "a/b")) := by
  have hsplits : Splits [.anyChars, .anySegment] (utf8 "a/b") :=
    splits_cons.mpr ⟨utf8 "a/", utf8 "b", trivial,
      splits_cons.mpr ⟨utf8 "b", [], ⟨by decide +kernel, by decide +kernel⟩, splits_nil.mpr rfl,
        by decide +kernel⟩, by decide +kernel⟩
  have hmisses : matchPartsOf [.anyChars, .anySegment] (utf8 "a/b") = false := by
    rw [matchPartsOf_eq]
    decide +kernel
  intro h
  rw [h.mpr hsplits] at hmisses
  cases hmisses

end Alt.Server
