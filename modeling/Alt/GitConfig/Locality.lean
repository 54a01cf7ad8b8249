import Alt.GitConfig.Edit

namespace Alt.GitConfig.Locality

open Alt.Library List

/-!
# What a parser takes (`alt-git-config/src/parse.rs`)

A header is read up to its bracket, a variable up to the end of its last line; what stands behind does not
matter to what was read.

* `header_text` — the text of a header;
* `variable_text` — the text of a variable;
* both go on behind the end of a line only where a backslash stands before it (`Continued`).
-/

/-- Nothing, or the end of a line. -/
def EndsLine (rest : Bytes) : Prop := rest = [] ∨ rest.head? = some newline

/-- A line ends in a backslash. -/
def Continued (text : Bytes) : Prop := ∃ front back, text = front ++ backslash :: newline :: back

variable {text : Bytes}

theorem Continued.append_left (h : Continued text) (front : Bytes) :
    Continued (front ++ text) := by
  obtain ⟨front', back, rfl⟩ := h
  exact ⟨front ++ front', back, by rw [append_assoc]⟩

theorem Continued.append_right (h : Continued text) (back : Bytes) :
    Continued (text ++ back) := by
  obtain ⟨front, back', rfl⟩ := h
  exact ⟨front, back' ++ back, by simp⟩

theorem continued_cons {c : UInt8} (hc : c ≠ newline) (h : newline ∈ text → Continued text) :
    newline ∈ c :: text → Continued (c :: text) := by
  intro hmem
  rcases mem_cons.mp hmem with heq | hmem
  · exact absurd heq.symm hc
  · exact (h hmem).append_left [c]

theorem continued_escape {d : UInt8} (h : newline ∈ text → Continued text) :
    newline ∈ backslash :: d :: text → Continued (backslash :: d :: text) := by
  intro hmem
  by_cases hd : d = newline
  · subst hd
    exact ⟨[], text, rfl⟩
  · rcases mem_cons.mp hmem with heq | hmem
    · exact absurd heq (by decide)
    · rcases mem_cons.mp hmem with heq | hmem
      · exact absurd heq.symm hd
      · exact (h hmem).append_left [backslash, d]

/-! ### Headers -/

variable {data rest : Bytes}

theorem subsection_text {sub sub' : Bytes} (h : parseSubsection sub data = .ok (sub', rest)) :
    ∃ text, data = text ++ rest ∧ (newline ∈ text → Continued text) ∧
      ∀ r, parseSubsection sub (text ++ r) = .ok (sub', r) := by
  fun_induction parseSubsection sub data with
  | case1 => cases h
  | case2 sub rest =>
    cases h
    refine ⟨[quote], rfl, fun hmem => absurd hmem (by decide), fun r => ?_⟩
    rw [singleton_append, parseSubsection.eq_def]
    exact if_pos rfl
  | case3 => cases h
  | case4 sub d rest' _ ih =>
    obtain ⟨text, rfl, hcont, htext⟩ := ih h
    exact ⟨backslash :: d :: text, rfl, continued_escape hcont, htext⟩
  | case5 => cases h
  | case6 sub c rest' hquote hbackslash hnewline ih =>
    obtain ⟨text, rfl, hcont, htext⟩ := ih h
    refine ⟨c :: text, rfl, continued_cons hnewline hcont, fun r => ?_⟩
    rw [cons_append, parseSubsection.eq_def]
    simp only [if_neg hquote, if_neg hbackslash, if_neg hnewline]
    exact htext r

/-- Blanks that are skipped. -/
theorem skipInlineWs_text (data : Bytes) : ∃ blanks, data = blanks ++ skipInlineWs data ∧ newline ∉ blanks ∧
    ∀ r, (∀ c ∈ r.head?, isInlineWs c = false) → skipInlineWs (blanks ++ r) = r := by
  have htake : ∀ c ∈ data.takeWhile isInlineWs, isInlineWs c = true := fun c hc => mem_takeWhile_imp hc
  refine ⟨data.takeWhile isInlineWs, (takeWhile_append_dropWhile).symm, fun hmem => ?_, fun r hr => ?_⟩
  · exact absurd (htake newline hmem) (by decide)
  · rw [skipInlineWs, dropWhile_append_of_pos htake]
    cases r with
    | nil => rfl
    | cons c r => exact dropWhile_cons_of_neg (by simpa using hr c rfl)

theorem quotedHeader_text {name : Bytes} {here : SectionCtx}
    (h : quotedHeader name data = .ok (here, rest)) :
    ∃ text, data = text ++ rest ∧ (newline ∈ text → Continued text) ∧
      ∀ r, quotedHeader name (text ++ r) = .ok (here, r) := by
  obtain ⟨blanks, hblanks, hno, hskip⟩ := skipInlineWs_text data
  rw [quotedHeader] at h
  split at h
  · rename_i rest₁ hquote
    rw [hquote] at hblanks
    split at h
    · cases h
    · rename_i sub rest₂ hsub
      obtain ⟨text, rfl, hcont, htext⟩ := subsection_text hsub
      obtain ⟨blanks₂, hblanks₂, hno₂, hskip₂⟩ := skipInlineWs_text rest₂
      split at h
      · rename_i rest₃ hclose
        rw [hclose] at hblanks₂
        obtain ⟨sectionName, hname, h⟩ := of_match_ok h
        cases h
        refine ⟨blanks ++ quote :: (text ++ (blanks₂ ++ [0x5d])), ?_, fun hmem => ?_, fun r => ?_⟩
        · rw [hblanks, hblanks₂]
          simp [quote]
        · have hclosing : newline ∉ blanks₂ ++ [0x5d] := by
            intro hmem
            rcases mem_append.mp hmem with hmem | hmem
            · exact hno₂ hmem
            · exact absurd hmem (by decide)
          have htextMem : newline ∈ text := by
            rcases mem_append.mp hmem with hmem | hmem
            · exact absurd hmem hno
            · rcases mem_cons.mp hmem with heq | hmem
              · exact absurd heq (by decide)
              · exact (mem_append.mp hmem).resolve_right hclosing
          exact (((hcont htextMem).append_right (blanks₂ ++ [0x5d])).append_left [quote]).append_left blanks
        · have hopen : skipInlineWs (blanks ++ quote :: (text ++ (blanks₂ ++ [0x5d])) ++ r)
              = quote :: (text ++ (blanks₂ ++ 0x5d :: r)) := by
            have hcat : blanks ++ quote :: (text ++ (blanks₂ ++ [0x5d])) ++ r
                = blanks ++ quote :: (text ++ (blanks₂ ++ 0x5d :: r)) := by simp
            rw [hcat]
            exact hskip _ (by simp [quote]; decide)
          have hshut : skipInlineWs (blanks₂ ++ 0x5d :: r) = 0x5d :: r := hskip₂ _ (by simp; decide)
          rw [quotedHeader, hopen]
          simp only [quote, htext, hshut, hname]
          rfl
      · cases h
  · cases h

/-- A header is read up to its bracket. -/
theorem header_text {name : Bytes} {here : SectionCtx}
    (h : parseSectionHeader name data = .ok (here, rest)) :
    ∃ text, data = text ++ rest ∧ (newline ∈ text → Continued text) ∧
      ∀ r, parseSectionHeader name (text ++ r) = .ok (here, r) := by
  induction data generalizing name with
  | nil => cases h
  | cons c data ih =>
    rw [parseSectionHeader] at h
    split at h
    · rename_i hclose
      subst hclose
      obtain ⟨here', hplain, h⟩ := of_match_ok h
      cases h
      refine ⟨[0x5d], rfl, fun hmem => absurd hmem (by decide), fun r => ?_⟩
      rw [singleton_append, parseSectionHeader, if_pos rfl, hplain]
      rfl
    · rename_i hclose
      split at h
      · rename_i hws
        obtain ⟨text, rfl, hcont, htext⟩ := quotedHeader_text h
        have hc : c ≠ newline := by
          rintro rfl
          exact absurd hws (by decide)
        refine ⟨c :: text, rfl, continued_cons hc hcont, fun r => ?_⟩
        rw [cons_append, parseSectionHeader, if_neg hclose, if_pos hws]
        exact htext r
      · rename_i hws
        split at h
        · rename_i hname
          obtain ⟨text, rfl, hcont, htext⟩ := ih h
          have hc : c ≠ newline := by
            rintro rfl
            exact absurd hname (by decide)
          refine ⟨c :: text, rfl, continued_cons hc hcont, fun r => ?_⟩
          rw [cons_append, parseSectionHeader, if_neg hclose, if_neg hws, if_pos hname]
          exact htext r
        · cases h

/-! ### Variables -/

theorem endsLine_dropWhile (data : Bytes) : EndsLine (data.dropWhile (· != newline)) := by
  cases hrest : data.dropWhile (· != newline) with
  | nil => exact .inl rfl
  | cons c rest =>
    have hhead := head?_dropWhile_not (· != newline) data
    rw [hrest] at hhead
    exact .inr (congrArg some (by simpa using hhead))

/-- A comment is read up to the end of its line. -/
theorem comment_text (data : Bytes) : ∃ text, data = text ++ data.dropWhile (· != newline) ∧ newline ∉ text ∧
    ∀ r, EndsLine r → (text ++ r).dropWhile (· != newline) = r := by
  have htake : ∀ c ∈ data.takeWhile (· != newline), (c != newline) = true := fun c hc =>
    mem_takeWhile_imp (p := (· != newline)) hc
  refine ⟨data.takeWhile (· != newline), (takeWhile_append_dropWhile).symm, fun hmem => ?_,
    fun r hr => ?_⟩
  · exact absurd (htake newline hmem) (by decide)
  · rw [dropWhile_append_of_pos htake]
    rcases hr with rfl | hr
    · rfl
    · cases r with
      | nil => rfl
      | cons c r => exact dropWhile_cons_of_neg (by simpa using hr)

theorem value_text {out pending o : Bytes} {quoted : Bool}
    (h : parseValue out pending quoted data = .ok (o, rest)) :
    ∃ text, data = text ++ rest ∧ EndsLine rest ∧
      (newline ∈ text → Continued text) ∧
        ∀ r, EndsLine r → parseValue out pending quoted (text ++ r) = .ok (o, r) := by
  fun_induction parseValue out pending quoted data with
  | case1 out pending quoted =>
    obtain ⟨rfl, rfl, rfl⟩ := endValue_eq_ok h
    refine ⟨[], rfl, .inl rfl, (fun h => by cases h), fun r hr => ?_⟩
    rcases hr with rfl | hr
    · exact h
    · obtain ⟨r, rfl⟩ := head?_eq_some_iff.mp hr
      exact parseValue_newline r
  | case2 out pending quoted rest' =>
    obtain ⟨rfl, rfl, rfl⟩ := endValue_eq_ok h
    refine ⟨[], rfl, .inr rfl, (fun h => by cases h), fun r hr => ?_⟩
    rcases hr with rfl | hr
    · exact parseValue.eq_def _ _ _ _
    · obtain ⟨r, rfl⟩ := head?_eq_some_iff.mp hr
      exact parseValue_newline r
  | case3 out pending quoted c rest' hc hcomment =>
    obtain ⟨rfl, rfl, rfl⟩ := endValue_eq_ok h
    obtain ⟨text, htext, hno, hdrop⟩ := comment_text rest'
    refine ⟨c :: text, congrArg (c :: ·) htext, endsLine_dropWhile rest',
      continued_cons hc fun hmem => absurd hmem hno, fun r hr => ?_⟩
    rw [cons_append, parseValue.eq_def]
    simp only [if_neg hc, if_pos hcomment, hdrop r hr]
    rfl
  | case4 out pending quoted c rest' hc hcomment hblank ih =>
    obtain ⟨text, rfl, hends, hcont, htext⟩ := ih h
    refine ⟨c :: text, rfl, hends, continued_cons hc hcont, fun r hr => ?_⟩
    rw [cons_append, parseValue.eq_def]
    simp only [if_neg hc, if_neg hcomment, if_pos hblank]
    exact htext r hr
  | case5 out pending quoted rest' hc hcomment hblank ih =>
    obtain ⟨text, rfl, hends, hcont, htext⟩ := ih h
    refine ⟨quote :: text, rfl, hends, continued_cons hc hcont, fun r hr => ?_⟩
    rw [cons_append, parseValue.eq_def]
    simp only [if_neg hc, if_neg hcomment, if_neg hblank, if_pos]
    exact htext r hr
  | case6 => cases h
  | case7 => cases h
  | case8 out pending quoted esc rest' bytes hesc hc hcomment hblank hquote ih =>
    obtain ⟨text, rfl, hends, hcont, htext⟩ := ih h
    refine ⟨backslash :: esc :: text, rfl, hends, continued_escape hcont, fun r hr => ?_⟩
    rw [cons_append, cons_append, parseValue.eq_def]
    simp only [if_neg hc, if_neg hcomment, if_neg hblank, if_neg hquote, if_pos, hesc]
    exact htext r hr
  | case9 out pending quoted c rest' hc hcomment hblank hquote hbackslash ih =>
    obtain ⟨text, rfl, hends, hcont, htext⟩ := ih h
    refine ⟨c :: text, rfl, hends, continued_cons hc hcont, fun r hr => ?_⟩
    rw [cons_append, parseValue.eq_def]
    simp only [if_neg hc, if_neg hcomment, if_neg hblank, if_neg hquote, if_neg hbackslash]
    exact htext r hr

theorem tail_text {key : String} {var : String × Option Bytes}
    (h : parseTail key data = .ok (var, rest)) : ∃ text, data = text ++ rest ∧ EndsLine rest ∧
      (newline ∈ text → Continued text) ∧ ∀ r, EndsLine r → parseTail key (text ++ r) = .ok (var, r) := by
  cases data with
  | nil =>
    cases h
    refine ⟨[], rfl, .inl rfl, nofun, fun r hr => ?_⟩
    rcases hr with rfl | hr
    · rfl
    · obtain ⟨r, rfl⟩ := head?_eq_some_iff.mp hr
      rw [nil_append, parseTail, if_pos rfl]
  | cons c data =>
    rw [parseTail] at h
    split at h
    · rename_i hc
      subst hc
      cases h
      refine ⟨[], rfl, .inr rfl, nofun, fun r hr => ?_⟩
      rcases hr with rfl | hr
      · rfl
      · obtain ⟨r, rfl⟩ := head?_eq_some_iff.mp hr
        rw [nil_append, parseTail, if_pos rfl]
    · rename_i hc
      split at h
      · rename_i hcomment
        cases h
        obtain ⟨text, htext, hno, hdrop⟩ := comment_text data
        refine ⟨c :: text, congrArg (c :: ·) htext, endsLine_dropWhile data,
          continued_cons hc fun hmem => absurd hmem hno, fun r hr => ?_⟩
        rw [cons_append, parseTail, if_neg hc, if_pos hcomment, hdrop r hr]
      · rename_i hcomment
        split at h
        · rename_i hequals
          obtain ⟨result, hvalue, h⟩ := of_match_ok h
          cases h
          obtain ⟨text, htext, hends, hcont, hread⟩ := value_text hvalue
          refine ⟨c :: text, congrArg (c :: ·) htext, hends, continued_cons hc hcont, fun r hr => ?_⟩
          rw [cons_append, parseTail, if_neg hc, if_neg hcomment, if_pos hequals, hread r hr]
          rfl
        · cases h

/-- Bytes up to the first that is not one of them. -/
theorem span_text {f : UInt8 → Bool} (hlf : f newline = false)
    (h : data.dropWhile f = text ++ rest) {r : Bytes} (hr : EndsLine r) :
    (data.takeWhile f ++ (text ++ r)).takeWhile f = data.takeWhile f ∧
      (data.takeWhile f ++ (text ++ r)).dropWhile f = text ++ r := by
  have htake : ∀ c ∈ data.takeWhile f, f c = true := fun c hc => mem_takeWhile_imp hc
  have hhead : ∀ c ∈ (text ++ r).head?, f c = false := by
    intro c hc
    cases text with
    | nil =>
      rcases hr with rfl | hr
      · cases hc
      · rw [nil_append, hr] at hc
        cases hc
        exact hlf
    | cons d text =>
      cases hc
      have hnot := head?_dropWhile_not f data
      rw [h] at hnot
      simpa using hnot
  rw [takeWhile_append_of_pos htake, dropWhile_append_of_pos htake]
  cases hcat : text ++ r with
  | nil => simp
  | cons c behind =>
    have hc : ¬f c = true := by simpa using hhead c (by rw [hcat]; rfl)
    rw [takeWhile_cons_of_neg hc, dropWhile_cons_of_neg hc, append_nil]
    exact ⟨rfl, rfl⟩

/-- A variable is read up to the end of its last line. -/
theorem variable_text {first : UInt8} {var : String × Option Bytes}
    (h : parseVariable first data = .ok (var, rest)) : ∃ text, data = text ++ rest ∧ EndsLine rest ∧
      (newline ∈ text → Continued text) ∧
        ∀ r, EndsLine r → parseVariable first (text ++ r) = .ok (var, r) := by
  rw [parseVariable] at h
  split at h
  · cases h
  · rename_i hfirst
    obtain ⟨text, htext, hends, hcont, hread⟩ := tail_text h
    have hblanks : data.dropWhile isKeyByte =
        (data.dropWhile isKeyByte).takeWhile isInlineWs ++ text ++ rest := by
      rw [append_assoc, ← htext]
      exact (takeWhile_append_dropWhile).symm
    refine ⟨data.takeWhile isKeyByte ++ ((data.dropWhile isKeyByte).takeWhile isInlineWs ++ text), ?_, hends,
      fun hmem => ?_, fun r hr => ?_⟩
    · rw [append_assoc, ← hblanks]
      exact (takeWhile_append_dropWhile).symm
    · have hkey : newline ∉ data.takeWhile isKeyByte := fun hmem =>
        absurd (mem_takeWhile_imp hmem) (by decide)
      have hws : newline ∉ (data.dropWhile isKeyByte).takeWhile isInlineWs := fun hmem =>
        absurd (mem_takeWhile_imp hmem) (by decide)
      have htextMem := (mem_append.mp ((mem_append.mp hmem).resolve_left hkey)).resolve_left hws
      exact ((hcont htextMem).append_left _).append_left _
    · obtain ⟨hkey, hbehind⟩ := span_text (by decide) hblanks hr
      obtain ⟨-, hskip⟩ := span_text (by decide) htext hr
      rw [append_assoc, parseVariable, if_neg hfirst, hkey, hbehind, append_assoc, skipInlineWs,
        hskip]
      exact hread r hr

end Alt.GitConfig.Locality
