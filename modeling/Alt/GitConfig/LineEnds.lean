import Alt.GitConfig.Edit

namespace Alt.GitConfig.LineEnds

open Alt.Library List

/-!
# Line ends (`alt-git-config/src/parse.rs`)

A carriage return is a blank between the lines and in a value, and nothing that may stand behind a variable's
name or a backslash.  So a file with its line feeds made into line ends of two bytes is not always read the
same.

* `crlf` — the file with `CR LF` for every `LF`;
* `Place`, `place` — where in the syntax a byte of a file stands;
* `LineFeedsFree` — no line feed stands behind a variable's name or a backslash;
* `parse_crlf_iff` — the two files are read the same exactly then.
-/

def carriageReturn : UInt8 := 0x0d

/-- `CR LF` for every `LF`. -/
def crlf (data : Bytes) : Bytes :=
  data.flatMap fun c => if c = newline then [carriageReturn, newline] else [c]

/-! ### Where a byte stands -/

/-- What the parser is in the middle of. -/
inductive Place
  | gap
  | comment
  | section
  | behindSection -- the blanks before a quoted subsection
  | subsection
  | subsectionEscape
  | behindSubsection
  | key -- and the blanks behind it
  | value (quoted : Bool)
  | valueEscape (quoted : Bool)
  deriving DecidableEq

/-- Where the byte behind `c` stands. -/
def Place.step : Place → UInt8 → Place
  | .gap, c =>
    if isBlank c || c == newline then .gap
    else if beginsComment c then .comment
    else if c = 0x5b then .section
    else .key
  | .comment, c => if c = newline then .gap else .comment
  | .section, c => if c = 0x5d then .gap else if isInlineWs c then .behindSection else .section
  | .behindSection, c => if c = quote then .subsection else .behindSection
  | .subsection, c =>
    if c = quote then .behindSubsection else if c = backslash then .subsectionEscape else .subsection
  | .subsectionEscape, _ => .subsection
  | .behindSubsection, c => if c = 0x5d then .gap else .behindSubsection
  | .key, c =>
    if c = newline then .gap
    else if beginsComment c then .comment
    else if c = 0x3d then .value false
    else .key
  | .value quoted, c =>
    if c = newline then .gap
    else if beginsComment c && !quoted then .comment
    else if c = quote then .value (!quoted)
    else if c = backslash then .valueEscape quoted
    else .value quoted
  | .valueEscape quoted, _ => .value quoted

/-- Where the byte behind some bytes stands. -/
def place (start : Place) (data : Bytes) : Place := data.foldl Place.step start

/-- Behind a variable's name or a backslash. -/
def Place.isBound : Place → Bool
  | .key => true
  | .subsectionEscape => true
  | .valueEscape _ => true
  | _ => false

/-- No line feed stands behind a variable's name or a backslash. -/
def LineFeedsFree (start : Place) (data : Bytes) : Prop :=
  ∀ front rest, data = front ++ newline :: rest → (place start front).isBound = false

theorem lineFeedsFree_nil (start : Place) : LineFeedsFree start [] := by
  intro front rest h
  cases front <;> cases h

variable {start : Place} {c : UInt8} {data : Bytes}

theorem lineFeedsFree_cons :
    LineFeedsFree start (c :: data) ↔
      (c = newline → start.isBound = false) ∧ LineFeedsFree (start.step c) data := by
  constructor
  · intro h
    refine ⟨fun hc => h [] data (by rw [hc]; rfl), fun front rest heq => ?_⟩
    exact h (c :: front) rest (congrArg (c :: ·) heq)
  · rintro ⟨hc, hrest⟩ front rest heq
    cases front with
    | nil => exact hc (List.cons.inj heq).1
    | cons d front =>
      obtain ⟨rfl, hdata⟩ := List.cons.inj heq
      exact hrest front rest hdata

/-- A byte that is no line feed. -/
theorem lineFeedsFree_step (hc : c ≠ newline) (data : Bytes) :
    LineFeedsFree start (c :: data) ↔ LineFeedsFree (start.step c) data := by
  rw [lineFeedsFree_cons]
  exact and_iff_right fun h => absurd h hc

/-- A line feed. -/
theorem lineFeedsFree_newline (start : Place) (data : Bytes) :
    LineFeedsFree start (newline :: data) ↔
      start.isBound = false ∧ LineFeedsFree (start.step newline) data := by
  rw [lineFeedsFree_cons]
  simp

/-! ### Gaps -/

theorem crlf_newline (data : Bytes) : crlf (newline :: data) = carriageReturn :: newline :: crlf data := rfl

theorem crlf_cons (h : c ≠ newline) (data : Bytes) : crlf (c :: data) = c :: crlf data := by
  rw [crlf, flatMap_cons, if_neg h]
  rfl

theorem isBlank_carriageReturn : isBlank carriageReturn = true := by decide

theorem skipGap_crlf (comment : Bool) (data : Bytes) :
    skipGap comment (crlf data) = crlf (skipGap comment data) := by
  induction data generalizing comment with
  | nil => cases comment <;> rfl
  | cons c data ih =>
    by_cases hc : c = newline
    · subst hc
      rw [crlf_newline]
      cases comment
      · exact ih false
      · exact ih false
    · rw [crlf_cons hc]
      cases comment
      · rw [skipGap, skipGap]
        split
        · exact ih false
        · split
          · exact ih true
          · rw [crlf_cons hc]
      · rw [skipGap, skipGap, if_neg hc, if_neg hc]
        exact ih true

/-- What is skipped has no line feed that matters. -/
theorem lineFeedsFree_skip (data : Bytes) :
    (LineFeedsFree .gap data ↔ LineFeedsFree .gap (skipGap false data)) ∧
      (LineFeedsFree .comment data ↔ LineFeedsFree .gap (skipGap true data)) := by
  induction data with
  | nil => exact ⟨Iff.rfl, iff_of_true (lineFeedsFree_nil _) (lineFeedsFree_nil _)⟩
  | cons c data ih =>
    by_cases hc : c = newline
    · subst hc
      have hboth : ∀ start : Place, start.isBound = false → start.step newline = .gap →
          (LineFeedsFree start (newline :: data) ↔ LineFeedsFree .gap (skipGap false data)) := by
        intro start hfree hstep
        rw [lineFeedsFree_newline, hstep, ← ih.1]
        exact and_iff_right hfree
      exact ⟨hboth .gap rfl rfl, hboth .comment rfl rfl⟩
    · constructor
      · rw [skipGap]
        by_cases hblank : (isBlank c || c == newline) = true
        · rw [if_pos hblank, lineFeedsFree_step hc, Place.step, if_pos hblank]
          exact ih.1
        · rw [if_neg hblank]
          by_cases hcomment : beginsComment c = true
          · rw [if_pos hcomment, lineFeedsFree_step hc, Place.step, if_neg hblank, if_pos hcomment]
            exact ih.2
          · rw [if_neg hcomment]
      · rw [skipGap, if_neg hc, lineFeedsFree_step hc, Place.step, if_neg hc]
        exact ih.2

/-- The line feed that ends a comment is left. -/
theorem skipGap_dropWhile (data : Bytes) :
    skipGap false (data.dropWhile (· != newline)) = skipGap true data := by
  induction data with
  | nil => rfl
  | cons c data ih =>
    by_cases hc : c = newline
    · subst hc
      rfl
    · rw [dropWhile_cons_of_pos (by simpa using hc), ih, skipGap, if_neg hc]

variable {f : UInt8 → Bool}

/-- Bytes that are skipped, none of which ends a line. -/
theorem lineFeedsFree_dropWhile (h : ∀ c, f c = true → c ≠ newline ∧ start.step c = start)
    (data : Bytes) :
    LineFeedsFree start data ↔ LineFeedsFree start (data.dropWhile f) := by
  induction data with
  | nil => exact Iff.rfl
  | cons c data ih =>
    by_cases hc : f c = true
    · rw [dropWhile_cons_of_pos hc, lineFeedsFree_step (h c hc).1, (h c hc).2]
      exact ih
    · rw [dropWhile_cons_of_neg hc]

theorem crlf_dropWhile (hlf : f newline = false) (hcr : f carriageReturn = false) (data : Bytes) :
    (crlf data).dropWhile f = crlf (data.dropWhile f) := by
  induction data with
  | nil => rfl
  | cons c data ih =>
    by_cases hc : c = newline
    · subst hc
      rw [crlf_newline, dropWhile_cons_of_neg (by simp [hcr]),
        dropWhile_cons_of_neg (by simp [hlf]), crlf_newline]
    · rw [crlf_cons hc, dropWhile_cons, dropWhile_cons]
      split
      · exact ih
      · rw [crlf_cons hc]

theorem crlf_takeWhile (hlf : f newline = false) (hcr : f carriageReturn = false) (data : Bytes) :
    (crlf data).takeWhile f = data.takeWhile f := by
  induction data with
  | nil => rfl
  | cons c data ih =>
    by_cases hc : c = newline
    · subst hc
      rw [crlf_newline, takeWhile_cons_of_neg (by simp [hcr]),
        takeWhile_cons_of_neg (by simp [hlf])]
    · rw [crlf_cons hc, takeWhile_cons, takeWhile_cons, ih]

/-! ### What is read -/

variable {α : Type}

/-- With line ends of two bytes, the same is read and what is left is `left` of what was left, or nothing is
read and a line feed stood where it may not. -/
def ReadAlike (read : Bytes → Except ConfigError (α × Bytes)) (start stop : Place) (data : Bytes)
    (left : Bytes → Prop) (a : α) (rest : Bytes) : Prop :=
  (∃ rest', read (crlf data) = .ok (a, rest') ∧ left rest' ∧
      (LineFeedsFree start data ↔ LineFeedsFree stop rest)) ∨
    ((∃ e, read (crlf data) = .error e) ∧ ¬LineFeedsFree start data)

variable {rest : Bytes}

theorem subsection_alike {sub sub' : Bytes} (h : parseSubsection sub data = .ok (sub', rest)) :
    ReadAlike (parseSubsection sub) .subsection .behindSubsection data (· = crlf rest) sub' rest := by
  fun_induction parseSubsection sub data with
  | case1 => cases h
  | case2 sub rest =>
    cases h
    refine .inl ⟨crlf rest, ?_, rfl, lineFeedsFree_step (by decide) rest⟩
    rw [crlf_cons (by decide), parseSubsection.eq_def]
    exact if_pos rfl
  | case3 => cases h
  | case4 sub d rest' _ ih =>
    have hstep : LineFeedsFree .subsection (backslash :: d :: rest')
        ↔ LineFeedsFree .subsectionEscape (d :: rest') := lineFeedsFree_step (by decide) _
    by_cases hd : d = newline
    · subst hd
      refine .inr ⟨⟨"newline in subsection", ?_⟩, ?_⟩
      · have hcr : parseSubsection sub (backslash :: carriageReturn :: newline :: crlf rest')
            = parseSubsection (sub ++ [carriageReturn]) (newline :: crlf rest') := rfl
        rw [crlf_cons (by decide), crlf_newline, hcr, parseSubsection.eq_def]
        rfl
      · rw [hstep, lineFeedsFree_newline]
        exact fun hfree => Bool.noConfusion hfree.1
    · have hread : parseSubsection sub (crlf (backslash :: d :: rest'))
          = parseSubsection (sub ++ [d]) (crlf rest') := by
        rw [crlf_cons (by decide), crlf_cons hd]
        rfl
      have hfree : LineFeedsFree .subsection (backslash :: d :: rest') ↔ LineFeedsFree .subsection rest' :=
        hstep.trans (lineFeedsFree_step hd rest')
      rw [ReadAlike, hread, hfree]
      exact ih h
  | case5 => cases h
  | case6 sub c rest' hquote hbackslash hnewline ih =>
    have hread : parseSubsection sub (crlf (c :: rest')) = parseSubsection (sub ++ [c]) (crlf rest') := by
      rw [crlf_cons hnewline, parseSubsection.eq_def]
      simp only [if_neg hquote, if_neg hbackslash, if_neg hnewline]
    have hfree : LineFeedsFree .subsection (c :: rest') ↔ LineFeedsFree .subsection rest' := by
      rw [lineFeedsFree_step hnewline, Place.step, if_neg hquote, if_neg hbackslash]
    rw [ReadAlike, hread, hfree]
    exact ih h

theorem inlineWs_step (h : start = .behindSection ∨ start = .behindSubsection ∨ start = .key)
    (hc : isInlineWs c = true) : c ≠ newline ∧ start.step c = start := by
  simp only [isInlineWs, Bool.or_eq_true, beq_iff_eq] at hc
  rcases h with rfl | rfl | rfl
  all_goals
    rcases hc with rfl | rfl
    · decide
    · decide

theorem skipInlineWs_crlf (data : Bytes) : skipInlineWs (crlf data) = crlf (skipInlineWs data) :=
  crlf_dropWhile (by decide) (by decide) data

theorem quotedHeader_alike {name : Bytes} {here : SectionCtx}
    (h : quotedHeader name data = .ok (here, rest)) :
    ReadAlike (quotedHeader name) .behindSection .gap data (· = crlf rest) here rest := by
  have hskip : LineFeedsFree .behindSection data ↔ LineFeedsFree .behindSection (skipInlineWs data) :=
    lineFeedsFree_dropWhile (fun c hc => inlineWs_step (.inl rfl) hc) data
  rw [quotedHeader] at h
  split at h
  · rename_i rest₁ hquote
    have hcrlf : skipInlineWs (crlf data) = quote :: crlf rest₁ := by
      rw [skipInlineWs_crlf, hquote]
      exact crlf_cons (by decide) rest₁
    have hopen : LineFeedsFree .behindSection data ↔ LineFeedsFree .subsection rest₁ := by
      rw [hskip, hquote]
      exact lineFeedsFree_step (by decide) rest₁
    split at h
    · cases h
    · rename_i sub rest₂ hsub
      rcases subsection_alike hsub with ⟨_, hread, rfl, hfree⟩ | ⟨⟨e, he⟩, hbound⟩
      · have hskip₂ : LineFeedsFree .behindSubsection rest₂
            ↔ LineFeedsFree .behindSubsection (skipInlineWs rest₂) :=
          lineFeedsFree_dropWhile (fun c hc => inlineWs_step (.inr (.inl rfl)) hc) rest₂
        split at h
        · rename_i rest₃ hclose
          have hcrlf₂ : skipInlineWs (crlf rest₂) = 0x5d :: crlf rest₃ := by
            rw [skipInlineWs_crlf, hclose]
            exact crlf_cons (by decide) rest₃
          have hshut : LineFeedsFree .behindSubsection rest₂ ↔ LineFeedsFree .gap rest₃ := by
            rw [hskip₂, hclose]
            exact lineFeedsFree_step (by decide) rest₃
          obtain ⟨text, htext, h⟩ := of_match_ok h
          cases h
          refine .inl ⟨crlf rest, ?_, rfl, (hopen.trans hfree).trans hshut⟩
          simp only [quotedHeader, hcrlf, quote, hread, hcrlf₂, htext]
          rfl
        · cases h
      · refine .inr ⟨⟨e, ?_⟩, fun hall => hbound (hopen.mp hall)⟩
        simp only [quotedHeader, hcrlf, quote, he]
  · cases h

theorem sectionHeader_alike {name : Bytes} {here : SectionCtx}
    (h : parseSectionHeader name data = .ok (here, rest)) :
    ReadAlike (parseSectionHeader name) .section .gap data (· = crlf rest) here rest := by
  induction data generalizing name with
  | nil => cases h
  | cons c data ih =>
    by_cases hclose : c = 0x5d
    · subst hclose
      rw [parseSectionHeader, if_pos rfl] at h
      obtain ⟨here', hplain, h⟩ := of_match_ok h
      cases h
      refine .inl ⟨crlf rest, ?_, rfl, lineFeedsFree_step (by decide) rest⟩
      rw [crlf_cons (by decide), parseSectionHeader, if_pos rfl, hplain]
      rfl
    · rw [parseSectionHeader, if_neg hclose] at h
      by_cases hws : isInlineWs c = true
      · rw [if_pos hws] at h
        have hc : c ≠ newline := (inlineWs_step (.inl rfl) hws).1
        have hread : parseSectionHeader name (crlf (c :: data)) = quotedHeader name (crlf data) := by
          rw [crlf_cons hc, parseSectionHeader, if_neg hclose, if_pos hws]
        have hfree : LineFeedsFree .section (c :: data) ↔ LineFeedsFree .behindSection data := by
          rw [lineFeedsFree_step hc, Place.step, if_neg hclose, if_pos hws]
        rw [ReadAlike, hread, hfree]
        exact quotedHeader_alike h
      · rw [if_neg hws] at h
        by_cases hname : (isAlnum c || c == 0x2d || c == 0x2e) = true
        · rw [if_pos hname] at h
          have hc : c ≠ newline := by
            rintro rfl
            exact absurd hname (by decide)
          have hread : parseSectionHeader name (crlf (c :: data))
              = parseSectionHeader (name ++ [c]) (crlf data) := by
            rw [crlf_cons hc, parseSectionHeader, if_neg hclose, if_neg hws, if_pos hname]
          have hfree : LineFeedsFree .section (c :: data) ↔ LineFeedsFree .section data := by
            rw [lineFeedsFree_step hc, Place.step, if_neg hclose, if_neg hws]
          rw [ReadAlike, hread, hfree]
          exact ih h
        · rw [if_neg hname] at h
          cases h

/-- What stands behind a variable is left where it was, but for the blanks and line ends in front of it. -/
def LeftAlike (rest rest' : Bytes) : Prop := skipGap false rest' = crlf (skipGap false rest)

theorem comment_left (rest : Bytes) :
    LeftAlike (rest.dropWhile (· != newline)) ((crlf rest).dropWhile (· != newline)) := by
  rw [LeftAlike, skipGap_dropWhile, skipGap_dropWhile, skipGap_crlf]

theorem lineFeedsFree_comment (rest : Bytes) :
    LineFeedsFree .comment rest ↔ LineFeedsFree .gap (rest.dropWhile (· != newline)) := by
  rw [(lineFeedsFree_skip rest).2, (lineFeedsFree_skip (rest.dropWhile (· != newline))).1, skipGap_dropWhile]

theorem value_step {quoted : Bool} (hc : c ≠ newline)
    (hcomment : ¬(beginsComment c && !quoted) = true) (hquote : c ≠ quote)
    (hbackslash : c ≠ backslash) (data : Bytes) :
    LineFeedsFree (.value quoted) (c :: data) ↔ LineFeedsFree (.value quoted) data := by
  rw [lineFeedsFree_step hc, Place.step, if_neg hc, if_neg hcomment, if_neg hquote, if_neg hbackslash]

theorem value_alike {out pending o : Bytes} {quoted : Bool}
    (h : parseValue out pending quoted data = .ok (o, rest)) :
    ReadAlike (parseValue out pending quoted) (.value quoted) .gap data (LeftAlike rest) o rest := by
  fun_induction parseValue out pending quoted data with
  | case1 out pending quoted =>
    obtain ⟨rfl, rfl, rfl⟩ := endValue_eq_ok h
    exact .inl ⟨[], rfl, rfl, iff_of_true (lineFeedsFree_nil _) (lineFeedsFree_nil _)⟩
  | case2 out pending quoted rest' =>
    obtain ⟨rfl, rfl, rfl⟩ := endValue_eq_ok h
    refine .inl ⟨newline :: crlf rest', ?_, ?_, ?_⟩
    · rw [crlf_newline, parseValue_blank _ (by decide) isBlank_carriageReturn, parseValue_newline]
      rfl
    · exact skipGap_crlf false rest'
    · rw [lineFeedsFree_newline, lineFeedsFree_newline]
      exact Iff.rfl
  | case3 out pending quoted c rest' hc hcomment =>
    obtain ⟨rfl, rfl, rfl⟩ := endValue_eq_ok h
    refine .inl ⟨_, ?_, comment_left rest', ?_⟩
    · rw [crlf_cons hc, parseValue.eq_def]
      simp only [if_neg hc, if_pos hcomment]
      rfl
    · rw [lineFeedsFree_step hc, Place.step, if_neg hc, if_pos hcomment]
      exact lineFeedsFree_comment rest'
  | case4 out pending quoted c rest' hc hcomment hblank ih =>
    have hspecial := not_special_of_isBlank (Bool.and_eq_true_iff.mp hblank).1
    obtain ⟨-, -, hquote, hbackslash⟩ := isSpecial_eq_false_iff.mp hspecial
    have hread : parseValue out pending quoted (crlf (c :: rest'))
        = parseValue out (if out = [] then pending else pending ++ [c]) quoted (crlf rest') := by
      rw [crlf_cons hc, parseValue.eq_def]
      simp only [if_neg hc, if_neg hcomment, if_pos hblank]
    rw [ReadAlike, hread, value_step hc hcomment hquote hbackslash]
    exact ih h
  | case5 out pending quoted rest' hc hcomment hblank ih =>
    have hread : parseValue out pending quoted (crlf (quote :: rest'))
        = parseValue (out ++ pending) [] (!quoted) (crlf rest') := by
      rw [crlf_cons hc, parseValue.eq_def]
      simp only [if_neg hc, if_neg hcomment, if_neg hblank, if_pos]
    have hfree : LineFeedsFree (.value quoted) (quote :: rest') ↔ LineFeedsFree (.value !quoted) rest' := by
      rw [lineFeedsFree_step hc, Place.step, if_neg hc, if_neg hcomment, if_pos rfl]
    rw [ReadAlike, hread, hfree]
    exact ih h
  | case6 => cases h
  | case7 => cases h
  | case8 out pending quoted esc rest' bytes hesc hc hcomment hblank hquote ih =>
    have hfree : LineFeedsFree (.value quoted) (backslash :: esc :: rest')
        ↔ LineFeedsFree (.valueEscape quoted) (esc :: rest') := by
      rw [lineFeedsFree_step hc, Place.step, if_neg hc, if_neg hcomment, if_neg hquote, if_pos rfl]
    by_cases hlf : esc = newline
    · subst hlf
      refine .inr ⟨⟨"invalid escape in value", ?_⟩, ?_⟩
      · rw [crlf_cons hc, crlf_newline, parseValue.eq_def]
        simp only [if_neg hc, if_neg hcomment, if_neg hblank, if_neg hquote, if_pos]
        rfl
      · rw [hfree, lineFeedsFree_newline]
        exact fun hall => Bool.noConfusion hall.1
    · have hread : parseValue out pending quoted (crlf (backslash :: esc :: rest'))
          = parseValue (out ++ pending ++ bytes) [] quoted (crlf rest') := by
        rw [crlf_cons hc, crlf_cons hlf, parseValue.eq_def]
        simp only [if_neg hc, if_neg hcomment, if_neg hblank, if_neg hquote, if_pos, hesc]
      rw [ReadAlike, hread, hfree.trans (lineFeedsFree_step hlf rest')]
      exact ih h
  | case9 out pending quoted c rest' hc hcomment hblank hquote hbackslash ih =>
    have hread : parseValue out pending quoted (crlf (c :: rest'))
        = parseValue (out ++ pending ++ [c]) [] quoted (crlf rest') := by
      rw [crlf_cons hc, parseValue.eq_def]
      simp only [if_neg hc, if_neg hcomment, if_neg hblank, if_neg hquote, if_neg hbackslash]
    rw [ReadAlike, hread, value_step hc hcomment hquote hbackslash]
    exact ih h

theorem tail_alike {key : String} {var : String × Option Bytes}
    (h : parseTail key data = .ok (var, rest)) :
    ReadAlike (parseTail key) .key .gap data (LeftAlike rest) var rest := by
  cases data with
  | nil =>
    cases h
    exact .inl ⟨[], rfl, rfl, iff_of_true (lineFeedsFree_nil _) (lineFeedsFree_nil _)⟩
  | cons c data =>
    by_cases hc : c = newline
    · subst hc
      refine .inr ⟨⟨"unexpected character after variable name", rfl⟩, ?_⟩
      rw [lineFeedsFree_newline]
      exact fun hall => Bool.noConfusion hall.1
    · rw [parseTail, if_neg hc] at h
      by_cases hcomment : beginsComment c = true
      · rw [if_pos hcomment] at h
        cases h
        refine .inl ⟨_, ?_, comment_left data, ?_⟩
        · rw [crlf_cons hc, parseTail, if_neg hc, if_pos hcomment]
        · rw [lineFeedsFree_step hc, Place.step, if_neg hc, if_pos hcomment]
          exact lineFeedsFree_comment data
      · rw [if_neg hcomment] at h
        by_cases hequals : c = 0x3d
        · rw [if_pos hequals] at h
          have hfree : LineFeedsFree .key (c :: data) ↔ LineFeedsFree (.value false) data := by
            rw [lineFeedsFree_step hc, Place.step, if_neg hc, if_neg hcomment, if_pos hequals]
          obtain ⟨result, hvalue, h⟩ := of_match_ok h
          cases h
          rcases value_alike hvalue with ⟨rest', hread, hleft, hsame⟩ | ⟨⟨e, he⟩, hbound⟩
          · refine .inl ⟨rest', ?_, hleft, hfree.trans hsame⟩
            rw [crlf_cons hc, parseTail, if_neg hc, if_neg hcomment, if_pos hequals, hread]
            rfl
          · refine .inr ⟨⟨e, ?_⟩, fun hall => hbound (hfree.mp hall)⟩
            rw [crlf_cons hc, parseTail, if_neg hc, if_neg hcomment, if_pos hequals, he]
            rfl
        · rw [if_neg hequals] at h
          cases h

theorem key_step (h : isKeyByte c = true) : c ≠ newline ∧ Place.step .key c = .key := by
  have hother : c ≠ newline ∧ beginsComment c = false ∧ c ≠ 0x3d := by
    grind [isKeyByte, isAlnum, isAlpha, isUpper, beginsComment, newline]
  obtain ⟨hlf, hcomment, hequals⟩ := hother
  refine ⟨hlf, ?_⟩
  rw [Place.step, if_neg hlf, hcomment, if_neg Bool.false_ne_true, if_neg hequals]

theorem alpha_step (h : isAlpha c = true) : c ≠ newline ∧ Place.step .gap c = .key := by
  have hother : c ≠ newline ∧ isBlank c = false ∧ beginsComment c = false ∧ c ≠ 0x5b := by
    grind [isAlpha, isUpper, isBlank, beginsComment, newline]
  obtain ⟨hlf, hblank, hcomment, hbracket⟩ := hother
  refine ⟨hlf, ?_⟩
  rw [Place.step, hblank, hcomment, if_neg Bool.false_ne_true, if_neg hbracket, Bool.false_or,
    if_neg (by simpa using hlf)]

theorem variable_alike {first : UInt8} {var : String × Option Bytes}
    (h : parseVariable first data = .ok (var, rest)) :
    ReadAlike (parseVariable first) .key .gap data (LeftAlike rest) var rest ∧ isAlpha first = true := by
  rw [parseVariable] at h
  split at h
  · cases h
  · rename_i hfirst
    have hkey : (crlf data).takeWhile isKeyByte = data.takeWhile isKeyByte :=
      crlf_takeWhile (by decide) (by decide) data
    have hbehind : skipInlineWs ((crlf data).dropWhile isKeyByte)
        = crlf (skipInlineWs (data.dropWhile isKeyByte)) := by
      rw [crlf_dropWhile (by decide) (by decide), skipInlineWs_crlf]
    have hfree : LineFeedsFree .key data ↔ LineFeedsFree .key (skipInlineWs (data.dropWhile isKeyByte)) :=
      (lineFeedsFree_dropWhile (fun c hc => key_step hc) data).trans
        (lineFeedsFree_dropWhile (fun c hc => inlineWs_step (.inr (.inr rfl)) hc) _)
    have hread : parseVariable first (crlf data) =
        parseTail ((fromUtf8 ((first :: data.takeWhile isKeyByte).map toLower)).getD "")
          (crlf (skipInlineWs (data.dropWhile isKeyByte))) := by
      rw [parseVariable, if_neg hfirst, hkey, hbehind]
    rw [ReadAlike, hread, hfree]
    exact ⟨tail_alike h, by simpa using hfirst⟩

/-! ### Files -/

theorem parseFrom_crlf_iff {ctx : Option SectionCtx} {entries : List Entry}
    (h : parseFrom ctx data = .ok entries) :
    parseFrom ctx (crlf data) = .ok entries ↔ LineFeedsFree .gap data := by
  induction hn : data.length using Nat.strong_induction_on generalizing ctx data entries with
  | _ n ih =>
    subst hn
    have hlength := length_skipGap false data
    have hskip := skipGap_crlf false data
    rw [(lineFeedsFree_skip data).1]
    cases hgap : skipGap false data with
    | nil =>
      rw [hgap] at hskip
      rw [parseFrom_end hgap] at h
      rw [parseFrom_end hskip]
      exact iff_of_true h (lineFeedsFree_nil _)
    | cons c rest =>
      rw [hgap, length_cons] at hlength
      rw [hgap] at hskip
      by_cases hc : c = 0x5b
      · subst hc
        have hfree : LineFeedsFree .gap (0x5b :: rest) ↔ LineFeedsFree .section rest :=
          lineFeedsFree_step (by decide) rest
        rw [crlf_cons (by decide)] at hskip
        rw [parseFrom_header hgap] at h
        rw [hfree, parseFrom_header hskip]
        cases hheader : parseSectionHeader [] rest with
        | error e =>
          rw [hheader] at h
          cases h
        | ok result =>
          obtain ⟨here, rest₁⟩ := result
          rw [hheader] at h
          have hshorter := length_parseSectionHeader hheader
          rcases sectionHeader_alike hheader with ⟨_, hread, rfl, hsame⟩ | ⟨⟨e, he⟩, hbound⟩
          · rw [hread, hsame]
            exact ih rest₁.length (by omega) h rfl
          · rw [he]
            exact iff_of_false (fun h => by cases h) hbound
      · cases ctx with
        | none =>
          rw [parseFrom_none hgap hc] at h
          cases h
        | some here =>
          rw [parseFrom_variable hgap hc] at h
          cases hvar : parseVariable c rest with
          | error e =>
            rw [hvar] at h
            cases h
          | ok result =>
            obtain ⟨⟨key, value⟩, rest₁⟩ := result
            obtain ⟨halike, halpha⟩ := variable_alike hvar
            obtain ⟨hlf, hstep⟩ := alpha_step halpha
            have hshorter := length_parseVariable hvar
            rw [hvar] at h
            rw [crlf_cons hlf] at hskip
            rw [parseFrom_variable hskip hc, lineFeedsFree_step hlf, hstep]
            rcases halike with ⟨rest', hread, hleft, hsame⟩ | ⟨⟨e, he⟩, hbound⟩
            · have hcongr : parseFrom (some here) rest' = parseFrom (some here) (crlf rest₁) :=
                parseFrom_congr (hleft.trans (skipGap_crlf false rest₁).symm)
              rw [hread, hsame]
              simp only [hcongr]
              cases hrest : parseFrom (some here) rest₁ with
              | error e =>
                simp only [hrest] at h
                cases h
              | ok entries' =>
                simp only [hrest] at h
                cases h
                rw [← ih rest₁.length (by omega) hrest rfl]
                cases parseFrom (some here) (crlf rest₁) with
                | error e => exact iff_of_false (fun h => by cases h) (fun h => by cases h)
                | ok entries₂ => simp
            · rw [he]
              exact iff_of_false (fun h => by cases h) hbound

/-- **Line ends.** A file whose line feeds are made into line ends of two bytes is read the same exactly when
none of them stands behind a variable's name or a backslash. -/
theorem parse_crlf_iff {data : Bytes} {entries : List Entry} (h : parseFile data = .ok entries) :
    parseFile (crlf data) = .ok entries ↔ LineFeedsFree .gap data :=
  parseFrom_crlf_iff h

theorem parse_crlf_iff_plain :
    parseFile (crlf (utf8 "[x]\na = 1 # b\n")) = .ok [⟨"x", none, "a", some (utf8 "1")⟩] ↔
      LineFeedsFree .gap (utf8 "[x]\na = 1 # b\n") :=
  parse_crlf_iff (by decide +kernel)

/-- A valueless key. -/
theorem valueless_key_is_lost : parseFile (utf8 "[x]\nflag\n") = .ok [⟨"x", none, "flag", none⟩] ∧
    parseFile (crlf (utf8 "[x]\nflag\n")) = .error "unexpected character after variable name" := by
  decide +kernel

end Alt.GitConfig.LineEnds
