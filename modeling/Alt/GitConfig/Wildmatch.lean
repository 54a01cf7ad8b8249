import Alt.GitConfig.Parse

namespace Alt.GitConfig

open Alt.Library List

/-!
# Include patterns (`alt-git-config/src/wildmatch.rs`)

`Matcher::matches` walks the pattern and tries every split of the text.  A `**` counts as
slash-bounded where the flag `at_path_start` stands, and the flag stays after a `**` that took
nothing.

* `Along` — the text splits along the pattern, piece by piece, as the documentation has it; with
  `evenRuns`, a path component of two, four, six … stars is read as one `**`;
* `wildmatch_iff` — the matcher reads such components so;
* `wildmatch_exact_iff` — where this does not matter.
-/

structure Matcher where
  caseInsensitive : Bool

namespace Matcher

def slash : UInt8 := 0x2f
def star : UInt8 := 0x2a
def question : UInt8 := 0x3f
def bracket : UInt8 := 0x5b
def close : UInt8 := 0x5d
def dash : UInt8 := 0x2d

variable (m : Matcher)

/-- The byte that is compared. -/
def fold (b : UInt8) : UInt8 := if m.caseInsensitive then toLower b else b

def eq (a b : UInt8) : Bool := m.fold a == m.fold b

def inRange (lo hi ch : UInt8) : Bool := m.fold lo ≤ m.fold ch && m.fold ch ≤ m.fold hi

/-- The loop of `match_class` on what is left of the class. -/
def classLoop (ch : UInt8) (negated : Bool) : Bool → Bool → Bytes → Option (Bool × Bytes)
  | _, _, [] => none
  | hit, first, c :: rest =>
    if c = close ∧ first = false then some (hit != negated, rest)
    else
      match rest with
      | d :: e :: more =>
        if d = dash ∧ e ≠ close then classLoop ch negated (hit || m.inRange c e ch) false more
        else classLoop ch negated (hit || m.eq c ch) false (d :: e :: more)
      | rest => classLoop ch negated (hit || m.eq c ch) false rest

def isNegated (cls : Bytes) : Bool := cls.head? = some 0x21 || cls.head? = some 0x5e

def matchClass (cls text : Bytes) : Option (Bool × Bytes) :=
  match text with
  | [] => none
  | ch :: _ =>
    if ch = slash then none
    else m.classLoop ch (isNegated cls) false true (if isNegated cls then cls.tail else cls)

/-- The loop over the lengths of a run without a slash. -/
def starLoop (f : Bytes → Bool → Bool) : Bool → Bytes → Bool
  | start, [] => f [] start
  | start, b :: text => f (b :: text) start || (b != slash && starLoop f false text)

/-- The loop over the slashes of the text. -/
def slashLoop (f : Bytes → Bool) : Bytes → Bool
  | [] => false
  | b :: text => (b == slash && f (b :: text)) || slashLoop f text

/-- The pattern behind one `*` or, where a second one follows, behind both. -/
def restAfter (pat : Bytes) : Bytes := if pat.head? = some star then pat.tail else pat

/-- Nothing, or a slash. -/
def boundedRight (rest : Bytes) : Bool := rest.isEmpty || rest.head? = some slash

/-- `Matcher::matches`; the pattern gets shorter with every call. -/
def matchesFrom : Nat → Bytes → Bytes → Bool → Bool
  | _, [], text, _ => text.isEmpty
  | 0, _ :: _, _, _ => false
  | fuel + 1, c :: pat, text, atPathStart =>
    if c = star then
      if pat.head? = some star && atPathStart && boundedRight (restAfter pat) then
        if (restAfter pat).isEmpty then true
        else matchesFrom fuel (restAfter pat).tail text true ||
          slashLoop (fun t => matchesFrom fuel (restAfter pat) t false) text
      else starLoop (matchesFrom fuel (restAfter pat)) atPathStart text
    else if c = question then
      match text with
      | [] => false
      | b :: text => b != slash && matchesFrom fuel pat text false
    else if c = bracket then
      match m.matchClass pat text with
      | none => false
      | some (matched, rest) => matched && matchesFrom fuel rest text.tail false
    else
      match text with
      | [] => false
      | b :: text => m.eq c b && matchesFrom fuel pat text (c = slash)

end Matcher

def wildmatch (pattern text : Bytes) (caseInsensitive : Bool) : Bool :=
  (Matcher.mk caseInsensitive).matchesFrom pattern.length pattern text true

/-! ### What a pattern stands for -/

namespace Matcher

variable (m : Matcher)

inductive ClassItem where
  | one (c : UInt8)
  | range (lo hi : UInt8)

def ClassItem.has (ch : UInt8) : ClassItem → Bool
  | .one c => m.eq c ch
  | .range lo hi => m.inRange lo hi ch

/-- The items of a class and the pattern behind its bracket. -/
def readItems : Bool → Bytes → Option (List ClassItem × Bytes)
  | _, [] => none
  | first, c :: rest =>
    if c = close ∧ first = false then some ([], rest)
    else
      match rest with
      | d :: e :: more =>
        if d = dash ∧ e ≠ close then (readItems false more).map fun r => (.range c e :: r.1, r.2)
        else (readItems false (d :: e :: more)).map fun r => (.one c :: r.1, r.2)
      | rest => (readItems false rest).map fun r => (.one c :: r.1, r.2)

inductive Piece where
  | byte (c : UInt8)
  | any
  | oneOf (negated : Bool) (items : List ClassItem)
  /-- `*` or an unbounded `**`. -/
  | run
  /-- `**/` -/
  | components
  /-- `**` at the end. -/
  | everything

/-- What a piece can stand for. -/
def Piece.Takes : Piece → Bytes → Prop
  | .byte c, part => ∃ b, part = [b] ∧ m.eq c b = true
  | .any, part => ∃ b, part = [b] ∧ b ≠ slash
  | .oneOf negated items, part =>
    ∃ b, part = [b] ∧ b ≠ slash ∧ (items.any (ClassItem.has m b) != negated) = true
  | .run, part => slash ∉ part
  | .components, part => part = [] ∨ ∃ front, part = front ++ [slash]
  | .everything, _ => True

/-- The pattern behind a `**` that goes up to a slash or the end. -/
def boundedStars (evenRuns : Bool) : Bytes → Option Bytes
  | a :: b :: rest =>
    if a = star ∧ b = star then
      if boundedRight rest then some rest
      else if evenRuns then boundedStars evenRuns rest
      else none
    else none
  | _ => none

/-- The first piece of a pattern, whether a path component starts behind it, and the rest. -/
def nextPiece (evenRuns start : Bool) (c : UInt8) (pat : Bytes) : Option (Piece × Bool × Bytes) :=
  match if start then boundedStars evenRuns (c :: pat) else none with
  | some [] => some (.everything, false, [])
  | some (_ :: rest) => some (.components, true, rest)
  | none =>
    if c = star then some (.run, false, restAfter pat)
    else if c = question then some (.any, false, pat)
    else if c = bracket then
      (readItems true (if isNegated pat then pat.tail else pat)).map fun r =>
        (.oneOf (isNegated pat) r.1, false, r.2)
    else some (.byte c, c = slash, pat)

/-- The text splits along the pattern, at the start of a path component or not. -/
inductive Along (evenRuns : Bool) : Bool → Bytes → Bytes → Prop
  | nil {start : Bool} : Along evenRuns start [] []
  | cons {start start' : Bool} {c : UInt8} {pat rest front back : Bytes} {piece : Piece}
      (hnext : nextPiece evenRuns start c pat = some (piece, start', rest))
      (htakes : piece.Takes m front) (hrest : Along evenRuns start' rest back) :
      Along evenRuns start (c :: pat) (front ++ back)

variable {m} {evenRuns start : Bool} {c : UInt8} {pat rest text front : Bytes}

theorem restAfter_star : restAfter (star :: pat) = pat := rfl

/-! ### The loops -/

theorem classLoop_eq (ch : UInt8) (negated hit first : Bool) (cls : Bytes) :
    m.classLoop ch negated hit first cls = (readItems first cls).map fun r =>
      ((hit || r.1.any (ClassItem.has m ch)) != negated, r.2) := by
  fun_induction readItems first cls generalizing hit with
  | case1 => rfl
  | case2 first c rest hclose =>
    unfold classLoop
    simp [hclose]
  | case3 first c hclose d e more hrange ih =>
    rw [classLoop, if_neg hclose]
    simp [hrange, ih, ClassItem.has, Bool.or_assoc, Function.comp_def]
  | case4 first c hclose d e more hrange ih =>
    rw [classLoop, if_neg hclose]
    simp [hrange, ih, ClassItem.has, Bool.or_assoc, Function.comp_def]
  | case5 first c hclose rest hshort ih =>
    rw [classLoop, if_neg hclose]
    · simp [ih, ClassItem.has, Bool.or_assoc, Function.comp_def]
    · exact hshort

theorem starLoop_iff {f : Bytes → Bool → Bool} : starLoop f start text = true ↔
    ∃ front back, text = front ++ back ∧ slash ∉ front ∧ f back (start && front.isEmpty) = true := by
  induction text generalizing start with
  | nil => simp [starLoop]
  | cons b text ih =>
    simp only [starLoop, Bool.or_eq_true, Bool.and_eq_true, bne_iff_ne, ih]
    constructor
    · rintro (h | ⟨hb, front, back, rfl, hfront, h⟩)
      · exact ⟨[], b :: text, rfl, by simp, by simpa using h⟩
      · exact ⟨b :: front, back, rfl, by simp [hb.symm, hfront], by simpa using h⟩
    · rintro ⟨front, back, htext, hfront, h⟩
      cases front with
      | nil => exact .inl (by simpa [htext] using h)
      | cons b' front =>
        obtain ⟨rfl, rfl⟩ := List.cons.inj htext
        rw [mem_cons, not_or] at hfront
        exact .inr ⟨fun hb => hfront.1 hb.symm, front, back, rfl, hfront.2, by simpa using h⟩

theorem slashLoop_iff {f : Bytes → Bool} : slashLoop f text = true ↔
    ∃ front back, text = front ++ slash :: back ∧ f (slash :: back) = true := by
  induction text with
  | nil => simp [slashLoop]
  | cons b text ih =>
    simp only [slashLoop, Bool.or_eq_true, Bool.and_eq_true, beq_iff_eq, ih]
    constructor
    · rintro (⟨rfl, h⟩ | ⟨front, back, rfl, h⟩)
      · exact ⟨[], text, rfl, h⟩
      · exact ⟨b :: front, back, rfl, h⟩
    · rintro ⟨front, back, htext, h⟩
      cases front with
      | nil =>
        obtain ⟨rfl, rfl⟩ := List.cons.inj htext
        exact .inl ⟨rfl, h⟩
      | cons b' front => exact .inr ⟨front, back, (List.cons.inj htext).2, h⟩

/-! ### One piece at a time -/

theorem along_nil : Along m evenRuns start [] text ↔ text = [] :=
  ⟨fun h => by cases h; rfl, by rintro rfl; exact .nil⟩

theorem along_cons : Along m evenRuns start (c :: pat) text ↔ ∃ piece start' rest,
    nextPiece evenRuns start c pat = some (piece, start', rest) ∧ ∃ front back,
      text = front ++ back ∧ piece.Takes m front ∧ Along m evenRuns start' rest back := by
  constructor
  · rintro (_ | ⟨hnext, htakes, hrest⟩)
    exact ⟨_, _, _, hnext, _, _, rfl, htakes, hrest⟩
  · rintro ⟨piece, start', rest, hnext, front, back, rfl, htakes, hrest⟩
    exact .cons hnext htakes hrest

theorem along_of_next {piece : Piece} {start' : Bool}
    (h : nextPiece evenRuns start c pat = some (piece, start', rest)) :
    Along m evenRuns start (c :: pat) text ↔ ∃ front back,
      text = front ++ back ∧ piece.Takes m front ∧ Along m evenRuns start' rest back := by
  rw [along_cons, h]
  constructor
  · rintro ⟨_, _, _, hnext, hsplit⟩
    cases hnext
    exact hsplit
  · exact fun hsplit => ⟨piece, start', rest, rfl, hsplit⟩

theorem nextPiece_bounded : boundedStars evenRuns (c :: pat) = some rest →
    nextPiece evenRuns true c pat = match rest with
      | [] => some (.everything, false, [])
      | _ :: rest => some (.components, true, rest) := by
  intro h
  cases rest <;> simp [nextPiece, h]

/-- Without a slash-bounded `**` the start of a component does not matter. -/
theorem along_start (h : boundedStars evenRuns pat = none) :
    Along m evenRuns start pat text ↔ Along m evenRuns false pat text := by
  cases pat with
  | nil => rw [along_nil, along_nil]
  | cons c pat =>
    have hnext : nextPiece evenRuns start c pat = nextPiece evenRuns false c pat := by
      cases start <;> simp [nextPiece, h]
    rw [along_cons, along_cons, hnext]

theorem along_slash : Along m evenRuns false (slash :: pat) text ↔
    ∃ back, text = slash :: back ∧ Along m evenRuns true pat back := by
  have hslash : m.eq slash slash = true := beq_self_eq_true _
  have hfold : ∀ b, m.eq slash b = true → b = slash := by
    intro b hb
    rw [eq, beq_iff_eq, fold, fold] at hb
    split at hb
    · rw [toLower, toLower] at hb
      split at hb <;> grind [isUpper, slash]
    · exact hb.symm
  rw [along_of_next (rfl : nextPiece evenRuns false slash pat = some (.byte slash, true, pat))]
  constructor
  · rintro ⟨front, back, rfl, ⟨b, rfl, hb⟩, h⟩
    exact ⟨back, by rw [hfold b hb]; rfl, h⟩
  · rintro ⟨back, rfl, h⟩
    exact ⟨[slash], back, rfl, ⟨slash, rfl, hslash⟩, h⟩

theorem along_components (h : boundedStars evenRuns (c :: pat) = some (slash :: rest)) :
    Along m evenRuns true (c :: pat) text ↔ Along m evenRuns true rest text ∨
      ∃ front back, text = front ++ slash :: back ∧ Along m evenRuns true rest back := by
  rw [along_of_next (nextPiece_bounded h)]
  constructor
  · rintro ⟨front, back, rfl, rfl | ⟨front, rfl⟩, hrest⟩
    · exact .inl hrest
    · exact .inr ⟨front, back, by simp, hrest⟩
  · rintro (hrest | ⟨front, back, rfl, hrest⟩)
    · exact ⟨[], text, rfl, .inl rfl, hrest⟩
    · exact ⟨front ++ [slash], back, by simp, .inr ⟨front, rfl⟩, hrest⟩

theorem along_everything (h : boundedStars evenRuns (c :: pat) = some []) :
    Along m evenRuns true (c :: pat) text :=
  (along_of_next (nextPiece_bounded h)).mpr ⟨text, [], (append_nil text).symm, trivial, .nil⟩

theorem along_run (h : start = false ∨ boundedStars evenRuns (star :: pat) = none) :
    Along m evenRuns start (star :: pat) text ↔ ∃ front back, text = front ++ back ∧
      slash ∉ front ∧ Along m evenRuns false (restAfter pat) back := by
  have hnext : nextPiece evenRuns start star pat = some (.run, false, restAfter pat) := by
    rcases h with rfl | h
    · rfl
    · cases start <;> simp [nextPiece, h]
  rw [along_of_next hnext]
  rfl

/-- Two stars more before stars that go up to a slash or the end. -/
theorem along_two_more (hright : ¬ boundedRight pat = true) (h : boundedStars true pat = some rest) :
    Along m true true (star :: star :: pat) text ↔ Along m true true pat text := by
  have hmore : boundedStars true (star :: star :: pat) = some rest := by
    simp [boundedStars, hright, h]
  cases pat with
  | nil => cases h
  | cons c pat => rw [along_cons, along_cons, nextPiece_bounded hmore, nextPiece_bounded h]

/-- A run before an unbounded reading of the stars is a run of path components. -/
theorem along_absorb (h : boundedStars true pat = some rest) (hfront : slash ∉ front)
    (halong : Along m true false pat text) : Along m true true pat (front ++ text) := by
  fun_induction boundedStars true pat generalizing front text with
  | case1 a b tail hstars hright =>
    obtain ⟨rfl, rfl⟩ := hstars
    have hbounded : boundedStars true (star :: star :: tail) = some tail := by
      simp [boundedStars, hright]
    obtain ⟨run, back, rfl, -, hback⟩ := (along_run (.inl rfl)).mp halong
    rw [restAfter_star] at hback
    cases tail with
    | nil => exact along_everything hbounded
    | cons c tail =>
      obtain rfl : c = slash := by simpa [boundedRight] using hright
      obtain ⟨back, rfl, hrest⟩ := along_slash.mp hback
      exact (along_components hbounded).mpr (.inr ⟨front ++ run, back, by simp, hrest⟩)
  | case2 a b tail hstars hright _ ih =>
    obtain ⟨rfl, rfl⟩ := hstars
    obtain ⟨run, back, rfl, hrun, hback⟩ := (along_run (.inl rfl)).mp halong
    rw [restAfter_star] at hback
    have hall := @ih back (front ++ run) h (by simp [hfront, hrun]) hback
    rw [append_assoc] at hall
    exact (along_two_more hright h).mpr hall
  | case3 => simp_all
  | case4 => cases h
  | case5 => cases h

theorem boundedStars_of_ne (h : c ≠ star) : boundedStars evenRuns (c :: pat) = none := by
  cases pat <;> simp [boundedStars, h]

/-- What can stand behind a star. -/
theorem stars_cases (pat : Bytes) :
    (∃ tail, pat = star :: tail ∧ boundedRight tail = true) ∨
      (∃ tail rest, pat = star :: tail ∧ ¬ boundedRight tail = true ∧
        boundedStars true tail = some rest) ∨
      (boundedStars true (star :: pat) = none ∧ boundedStars true (restAfter pat) = none) := by
  cases pat with
  | nil => exact .inr (.inr ⟨rfl, rfl⟩)
  | cons d tail =>
    by_cases hd : d = star
    · subst hd
      by_cases hright : boundedRight tail = true
      · exact .inl ⟨tail, rfl, hright⟩
      · cases hrest : boundedStars true tail with
        | some rest => exact .inr (.inl ⟨tail, rest, rfl, hright, hrest⟩)
        | none => exact .inr (.inr ⟨by simp [boundedStars, hright, hrest], hrest⟩)
    · refine .inr (.inr ⟨by simp [boundedStars, hd], ?_⟩)
      rw [restAfter, if_neg (by simpa using hd)]
      exact boundedStars_of_ne hd

/-- Reading runs of stars as one `**` only adds texts. -/
theorem Along.of_documented (h : Along m false start pat text) : Along m true start pat text := by
  induction h with
  | nil => exact .nil
  | @cons start start' c pat rest front back piece hnext htakes _ ih =>
    cases start with
    | false => exact .cons hnext htakes ih
    | true =>
      by_cases hstar : c = star
      · subst hstar
        rcases stars_cases pat with ⟨tail, rfl, hright⟩ | ⟨tail, rest, rfl, hright, hrest⟩ | ⟨hnone, -⟩
        · exact .cons (by simpa [nextPiece, boundedStars, hright] using hnext) htakes ih
        · have hrun : nextPiece false true star (star :: tail) = some (.run, false, tail) := by
            simp [nextPiece, boundedStars, hright, restAfter]
          cases hrun.symm.trans hnext
          exact (along_two_more hright hrest).mpr (along_absorb hrest htakes ih)
        · have hfalse : boundedStars false (star :: pat) = none := by
            cases pat <;> grind [boundedStars]
          exact .cons (by simpa [nextPiece, hnone, hfalse] using hnext) htakes ih
      · exact .cons (by simpa [nextPiece, boundedStars_of_ne hstar] using hnext) htakes ih

/-! ### The matcher -/

theorem split_one {q : UInt8 → Prop} {r : Bytes → Prop} :
    (∃ front back, text = front ++ back ∧ (∃ b, front = [b] ∧ q b) ∧ r back) ↔
      ∃ b back, text = b :: back ∧ q b ∧ r back := by
  constructor
  · rintro ⟨_, back, rfl, ⟨b, rfl, hb⟩, hback⟩
    exact ⟨b, back, rfl, hb, hback⟩
  · rintro ⟨b, back, rfl, hb, hback⟩
    exact ⟨[b], back, rfl, ⟨b, rfl, hb⟩, hback⟩

theorem length_readItems {first : Bool} {cls : Bytes} {items : List ClassItem}
    (h : readItems first cls = some (items, rest)) : rest.length ≤ cls.length := by
  fun_induction readItems first cls generalizing items <;>
    grind [Option.map_eq_some_iff]

/-- Stars, by what the rest of the pattern matches. -/
theorem matchesFrom_star {fuel : Nat} (hfuel : pat.length ≤ fuel)
    (ih : ∀ {pat text : Bytes} {start : Bool}, pat.length ≤ fuel →
      (m.matchesFrom fuel pat text start = true ↔ Along m true start pat text)) :
    m.matchesFrom (fuel + 1) (star :: pat) text start = true ↔
      Along m true start (star :: pat) text := by
  have hafter : (restAfter pat).length ≤ fuel := by
    rw [restAfter]
    split
    · exact (length_tail ▸ Nat.sub_le _ _).trans hfuel
    · exact hfuel
  have hloop : (pat.head? = some star && start && boundedRight (restAfter pat)) = false →
      (m.matchesFrom (fuel + 1) (star :: pat) text start = true ↔ ∃ front back,
        text = front ++ back ∧ slash ∉ front ∧
          Along m true (start && front.isEmpty) (restAfter pat) back) := by
    intro hbounded
    unfold matchesFrom
    simp only [if_true, hbounded, Bool.false_eq_true, if_false, starLoop_iff, ih hafter]
  cases start with
  | false =>
    rw [hloop (by simp), along_run (.inl rfl)]
    simp
  | true =>
    rcases stars_cases pat with ⟨tail, rfl, hright⟩ | ⟨tail, rest, rfl, hright, hrest⟩ | ⟨hnone, hrest⟩
    · have hbounded : boundedStars true (star :: star :: tail) = some tail := by
        simp [boundedStars, hright]
      unfold matchesFrom
      rw [restAfter_star] at hafter ⊢
      cases tail with
      | nil => simpa [boundedRight] using along_everything hbounded
      | cons d tail =>
        obtain rfl : d = slash := by simpa [boundedRight] using hright
        have htail := @ih tail text true ((Nat.le_succ _).trans hafter)
        simp [hright, along_components hbounded, slashLoop_iff, htail, ih hafter, along_slash]
    · rw [hloop (by simp [restAfter_star, hright]), along_two_more hright hrest, restAfter_star]
      constructor
      · rintro ⟨front, back, rfl, hfront, h⟩
        cases front with
        | nil => exact h
        | cons b front => exact along_absorb hrest hfront h
      · exact fun h => ⟨[], text, rfl, by simp, h⟩
    · have hbounded : (pat.head? = some star && true && boundedRight (restAfter pat)) = false := by
        cases pat <;> grind [boundedStars, restAfter, boundedRight]
      rw [hloop hbounded, along_run (.inr hnone)]
      exact exists_congr fun front => exists_congr fun back => and_congr_right fun _ =>
        and_congr_right fun _ => along_start hrest

/-- **What the matcher does.** -/
theorem matchesFrom_iff {fuel : Nat} (hfuel : pat.length ≤ fuel) :
    m.matchesFrom fuel pat text start = true ↔ Along m true start pat text := by
  induction fuel generalizing pat text start with
  | zero =>
    obtain rfl := length_eq_zero_iff.mp (Nat.le_zero.mp hfuel)
    rw [along_nil, matchesFrom, List.isEmpty_iff]
  | succ fuel ih =>
    cases pat with
    | nil => rw [along_nil, matchesFrom, List.isEmpty_iff]
    | cons c pat =>
      rw [length_cons, Nat.succ_le_succ_iff] at hfuel
      by_cases hstar : c = star
      · subst hstar
        exact matchesFrom_star hfuel ih
      · have hplain : nextPiece true start c pat = nextPiece true false c pat := by
          cases start <;> simp [nextPiece, boundedStars_of_ne hstar]
        unfold matchesFrom
        rw [if_neg hstar]
        by_cases hquestion : c = question
        · subst hquestion
          rw [along_of_next hplain, if_pos rfl]
          simp only [Piece.Takes, split_one]
          cases text <;> simp [ih hfuel]
        · by_cases hbracket : c = bracket
          · subst hbracket
            rw [if_neg hquestion, if_pos rfl]
            cases hitems : readItems true (if isNegated pat then pat.tail else pat) with
            | none =>
              have hnone : nextPiece true start bracket pat = none := by
                rw [hplain]
                simp [nextPiece, hstar, hquestion, hitems]
              have hclass : m.matchClass pat text = none := by
                cases text <;> simp [matchClass, classLoop_eq, hitems]
              rw [along_cons, hnone, hclass]
              simp
            | some found =>
              have hone : nextPiece true start bracket pat
                  = some (.oneOf (isNegated pat) found.1, false, found.2) := by
                rw [hplain]
                simp [nextPiece, hstar, hquestion, hitems]
              have hfound : found.2.length ≤ fuel := by
                refine (length_readItems hitems).trans (le_trans ?_ hfuel)
                split
                · exact length_tail ▸ Nat.sub_le _ _
                · exact Nat.le_refl _
              rw [along_of_next hone]
              simp only [Piece.Takes, split_one]
              cases text with
              | nil => simp [matchClass]
              | cons b text =>
                by_cases hb : b = slash
                · simp [matchClass, hb]
                · simp [matchClass, hb, classLoop_eq, hitems, ih hfound]
          · have hbyte : nextPiece true false c pat = some (Piece.byte c, decide (c = slash), pat) := by
              simp [nextPiece, hstar, hquestion, hbracket]
            rw [along_of_next (hplain.trans hbyte), if_neg hquestion, if_neg hbracket]
            simp only [Piece.Takes, split_one]
            cases text <;> simp [ih hfuel]

end Matcher

/-- The text splits along the pattern; `evenRuns` reads path components of two, four, six …
    stars as one `**`, without it only those of two. -/
def SplitsAlong (caseInsensitive evenRuns : Bool) (pattern text : Bytes) : Prop :=
  (Matcher.mk caseInsensitive).Along evenRuns true pattern text

theorem wildmatch_iff {pattern text : Bytes} {caseInsensitive : Bool} :
    wildmatch pattern text caseInsensitive = true ↔ SplitsAlong caseInsensitive true pattern text :=
  Matcher.matchesFrom_iff (Nat.le_refl _)

/-- **Where the matcher is right.**  Longer runs of stars must not matter to the text. -/
theorem wildmatch_exact_iff (pattern text : Bytes) (caseInsensitive : Bool) :
    (wildmatch pattern text caseInsensitive = true ↔
        SplitsAlong caseInsensitive false pattern text) ↔
      (SplitsAlong caseInsensitive true pattern text →
        SplitsAlong caseInsensitive false pattern text) := by
  rw [wildmatch_iff]
  exact ⟨Iff.mp, fun h => ⟨h, Matcher.Along.of_documented⟩⟩

/-- `****` matches `a/b`. -/
theorem four_stars_cross : wildmatch [0x2a, 0x2a, 0x2a, 0x2a] [0x61, 0x2f, 0x62] false = true ∧
    ¬ SplitsAlong false false [0x2a, 0x2a, 0x2a, 0x2a] [0x61, 0x2f, 0x62] := by
  refine ⟨by decide, fun h => ?_⟩
  obtain ⟨front, back, htext, hfront, hrest⟩ := (Matcher.along_of_next rfl).mp h
  obtain ⟨front', back', rfl, hfront', hrest'⟩ := (Matcher.along_of_next rfl).mp hrest
  have hnil : back' = [] := Matcher.along_nil.mp hrest'
  have hmem : Matcher.slash ∈ front ++ (front' ++ back') := htext ▸ by decide
  simp_all [Matcher.Piece.Takes]

end Alt.GitConfig
