import Alt.GitConfig.Locality
import Alt.Server.SignedHeader

namespace Alt.Export.StripRefstorage

open Alt.Library Alt.GitConfig Alt.GitConfig.Locality List
open Alt.Server (linesOf)

/-!
# The exported config (`strip_refstorage` of `alt-export/src/lib.rs`)

An export's config is the repository's without `extensions.refstorage`.  The lines to leave out are found
line by line, from what each begins with; the config parser reads byte by byte.

* `stripRefstorage` — the filter of lines;
* `takesOut_variable` — what it does with a line that a variable begins on;
* `InStep` — a file on which the filter and the parser agree on every line that matters;
* `strip_removes_refstorage` — of such a file exactly the entries `extensions.refstorage` are lost.
-/

/-! ### The filter -/

/-- `is_ascii_whitespace`. -/
def isAsciiWs (c : UInt8) : Bool := c == 0x20 || c == 0x09 || c == 0x0a || c == 0x0c || c == 0x0d

/-- `trim_ascii_start`. -/
def trimStart (s : Bytes) : Bytes := s.dropWhile isAsciiWs

/-- `trim_ascii_end`. -/
def trimEnd : Bytes → Bytes
  | [] => []
  | c :: s =>
    match trimEnd s with
    | [] => if isAsciiWs c then [] else [c]
    | d :: t => c :: d :: t

def trimAscii (s : Bytes) : Bytes := trimEnd (trimStart s)

/-- `in_extensions` behind a line. -/
def flagAfter (inExtensions : Bool) (line : Bytes) : Bool :=
  let trimmed := trimAscii line
  if trimmed.head? = some 0x5b then trimmed.map toLower == utf8 "[extensions]" else inExtensions

/-- The line is left out. -/
def takesOut (inExtensions : Bool) (line : Bytes) : Bool :=
  inExtensions &&
    match ((trimAscii line).map toLower).dropPrefix? (utf8 "refstorage") with
    | some rest => (trimStart rest).head? == some 0x3d
    | none => false

/-- The loop of `strip_refstorage`. -/
def stripLines (inExtensions : Bool) : List Bytes → Bytes
  | [] => []
  | line :: lines =>
    let inExtensions := flagAfter inExtensions line
    if takesOut inExtensions line then stripLines inExtensions lines
    else line ++ stripLines inExtensions lines

/-- `refstorage = …` lines inside `[extensions]` are dropped. -/
def stripRefstorage (config : Bytes) : Bytes := stripLines false (linesOf config)

/-! ### Trimming -/

theorem isAsciiWs_newline : isAsciiWs newline = true := by decide

theorem isAsciiWs_of_isBlank {c : UInt8} (h : isBlank c = true) : isAsciiWs c = true := by
  simp only [isBlank, Bool.or_eq_true, beq_iff_eq] at h
  rcases h with (rfl | rfl) | rfl <;> decide

theorem isAsciiWs_of_isInlineWs {c : UInt8} (h : isInlineWs c = true) : isAsciiWs c = true := by
  simp only [isInlineWs, Bool.or_eq_true, beq_iff_eq] at h
  rcases h with rfl | rfl <;> decide

theorem trimEnd_cons {c : UInt8} (h : isAsciiWs c = false) (s : Bytes) :
    trimEnd (c :: s) = c :: trimEnd s := by
  rw [trimEnd]
  split
  · rename_i hnil
    rw [hnil, h, if_neg Bool.false_ne_true]
  · rename_i hcons
    rw [hcons]

theorem trimEnd_of_forall {s : Bytes} (h : ∀ c ∈ s, isAsciiWs c = true) : trimEnd s = [] := by
  induction s with
  | nil => rfl
  | cons c s ih =>
    rw [trimEnd, ih fun d hd => h d (mem_cons_of_mem c hd)]
    exact if_pos (h c mem_cons_self)

theorem trimEnd_append_ws (s : Bytes) {ws : Bytes} (h : ∀ c ∈ ws, isAsciiWs c = true) :
    trimEnd (s ++ ws) = trimEnd s := by
  induction s with
  | nil => exact trimEnd_of_forall h
  | cons c s ih => rw [cons_append, trimEnd, trimEnd, ih]

theorem trimEnd_append (s : Bytes) {c : UInt8} (h : isAsciiWs c = false) (rest : Bytes) :
    trimEnd (s ++ c :: rest) = s ++ c :: trimEnd rest := by
  induction s with
  | nil => exact trimEnd_cons h rest
  | cons d s ih =>
    rw [cons_append, trimEnd, ih]
    cases s <;> rfl

theorem trimAscii_ws_append {ws : Bytes} (h : ∀ c ∈ ws, isAsciiWs c = true) (s : Bytes) :
    trimAscii (ws ++ s) = trimAscii s := by
  rw [trimAscii, trimAscii, trimStart, trimStart, dropWhile_append_of_pos h]

theorem trimAscii_cons {c : UInt8} (h : isAsciiWs c = false) (s : Bytes) :
    trimAscii (c :: s) = c :: trimEnd s := by
  rw [trimAscii, trimStart, dropWhile_cons_of_neg (by simp [h]), trimEnd_cons h]

theorem trimAscii_concat_newline (s : Bytes) : trimAscii (s ++ [newline]) = trimAscii s := by
  have hws : ∀ c ∈ [newline], isAsciiWs c = true := by simp [isAsciiWs_newline]
  rw [trimAscii, trimAscii, trimStart, trimStart, dropWhile_append]
  split
  · rename_i hnil
    rw [List.isEmpty_iff.mp hnil, trimEnd, dropWhile_cons_of_pos isAsciiWs_newline]
    rfl
  · exact trimEnd_append_ws _ hws

/-! ### Lines that are kept -/

/-- The rest of a line that is kept, and the lines behind it. -/
def keepLine (inExtensions : Bool) : Bytes → Bytes
  | [] => []
  | c :: data =>
    if c = newline then c :: stripLines inExtensions (linesOf data) else c :: keepLine inExtensions data

/-- The bytes up to the end of the line. -/
def firstLine (data : Bytes) : Bytes := data.takeWhile (· != newline)

theorem keepLine_cons {c : UInt8} (h : c ≠ newline) (inExtensions : Bool) (data : Bytes) :
    keepLine inExtensions (c :: data) = c :: keepLine inExtensions data := if_neg h

theorem keepLine_newline (inExtensions : Bool) (data : Bytes) :
    keepLine inExtensions (newline :: data) = newline :: stripLines inExtensions (linesOf data) := if_pos rfl

theorem keepLine_append {text : Bytes} (h : newline ∉ text) (inExtensions : Bool) (data : Bytes) :
    keepLine inExtensions (text ++ data) = text ++ keepLine inExtensions data := by
  induction text with
  | nil => rfl
  | cons c text ih =>
    have hc : c ≠ newline := fun heq => h (heq ▸ mem_cons_self)
    rw [cons_append, keepLine_cons hc, ih fun hmem => h (mem_cons_of_mem c hmem), cons_append]

theorem newline_not_mem_firstLine (data : Bytes) : newline ∉ firstLine data := by
  intro hmem
  have hne := mem_takeWhile_imp (p := (· != newline)) hmem
  exact absurd hne (by decide)

/-- A file is its first line, and what is behind it. -/
theorem split_firstLine (data : Bytes) :
    data = firstLine data ∨ ∃ rest, data = firstLine data ++ newline :: rest := by
  have hcat := (takeWhile_append_dropWhile (p := (· != newline)) (l := data)).symm
  rcases endsLine_dropWhile data with hnil | hhead
  · rw [hnil, append_nil] at hcat
    exact .inl hcat
  · obtain ⟨rest, hrest⟩ := head?_eq_some_iff.mp hhead
    rw [hrest] at hcat
    exact .inr ⟨rest, hcat⟩

theorem linesOf_line {content : Bytes} (h : newline ∉ content) (rest : Bytes) :
    linesOf (content ++ newline :: rest) = (content ++ [newline]) :: linesOf rest :=
  Server.SignedHeader.linesOf_line h rest

theorem linesOf_last {content : Bytes} (h : newline ∉ content) (hne : content ≠ []) :
    linesOf content = [content] := by
  induction content with
  | nil => exact absurd rfl hne
  | cons c content ih =>
    have hc : c ≠ 10 := fun heq => h (heq ▸ mem_cons_self)
    cases content with
    | nil => rw [linesOf, if_neg hc]; rfl
    | cons d content =>
      rw [linesOf, if_neg hc, ih (fun hmem => h (mem_cons_of_mem c hmem)) (cons_ne_nil _ _)]

theorem stripLines_cons (inExtensions : Bool) (line : Bytes) (lines : List Bytes) :
    stripLines inExtensions (line :: lines) =
      (if takesOut (flagAfter inExtensions line) line then [] else line) ++
        stripLines (flagAfter inExtensions line) lines := by
  rw [stripLines]
  split
  · rfl
  · rfl

theorem flagAfter_concat (inExtensions : Bool) (line : Bytes) :
    flagAfter inExtensions (line ++ [newline]) = flagAfter inExtensions line := by
  rw [flagAfter, flagAfter, trimAscii_concat_newline]

theorem takesOut_concat (inExtensions : Bool) (line : Bytes) :
    takesOut inExtensions (line ++ [newline]) = takesOut inExtensions line := by
  rw [takesOut, takesOut, trimAscii_concat_newline]

theorem flagAfter_ws_append {ws : Bytes} (h : ∀ c ∈ ws, isAsciiWs c = true) (inExtensions : Bool)
    (line : Bytes) : flagAfter inExtensions (ws ++ line) = flagAfter inExtensions line := by
  rw [flagAfter, flagAfter, trimAscii_ws_append h]

theorem takesOut_ws_append {ws : Bytes} (h : ∀ c ∈ ws, isAsciiWs c = true) (inExtensions : Bool)
    (line : Bytes) : takesOut inExtensions (ws ++ line) = takesOut inExtensions line := by
  rw [takesOut, takesOut, trimAscii_ws_append h]

/-- A file from the start of a line that is kept. -/
theorem strip_kept {inExtensions : Bool} {data : Bytes}
    (h : takesOut (flagAfter inExtensions (firstLine data)) (firstLine data) = false) :
    stripLines inExtensions (linesOf data) = keepLine (flagAfter inExtensions (firstLine data)) data := by
  have hlf := newline_not_mem_firstLine data
  rcases split_firstLine data with hall | ⟨rest, hall⟩
  · generalize firstLine data = line at hall h hlf
    subst hall
    cases data with
    | nil => rfl
    | cons c data =>
      have hkeep := keepLine_append hlf (flagAfter inExtensions (c :: data)) []
      rw [append_nil] at hkeep
      rw [hkeep, linesOf_last hlf (cons_ne_nil _ _), stripLines_cons, h, if_neg Bool.false_ne_true]
      rfl
  · generalize firstLine data = line at hall h hlf
    subst hall
    rw [linesOf_line hlf, stripLines_cons, flagAfter_concat, takesOut_concat, h, if_neg Bool.false_ne_true,
      keepLine_append hlf, keepLine_newline]
    simp

/-- A file from the start of a line that is left out. -/
theorem strip_taken {inExtensions : Bool} {line : Bytes} (hlf : newline ∉ line)
    (h : takesOut (flagAfter inExtensions line) line = true) {rest : Bytes} (hrest : EndsLine rest) :
    newline :: stripLines inExtensions (linesOf (line ++ rest))
        = keepLine (flagAfter inExtensions line) rest ∨
      rest = [] ∧ stripLines inExtensions (linesOf (line ++ rest)) = [] := by
  rcases hrest with rfl | hrest
  · refine .inr ⟨rfl, ?_⟩
    rw [append_nil]
    cases line with
    | nil => rfl
    | cons c line =>
      rw [linesOf_last hlf (cons_ne_nil _ _), stripLines_cons, if_pos h]
      rfl
  · obtain ⟨rest, rfl⟩ := head?_eq_some_iff.mp hrest
    refine .inl ?_
    rw [linesOf_line hlf, stripLines_cons, flagAfter_concat, takesOut_concat, if_pos h, keepLine_newline]
    rfl

/-! ### Lines that a variable begins on -/

theorem trimEnd_word_append {word : Bytes} (h : ∀ c ∈ word, isAsciiWs c = false) (s : Bytes) :
    trimEnd (word ++ s) = word ++ trimEnd s := by
  induction word with
  | nil => rfl
  | cons c word ih =>
    rw [cons_append, trimEnd_cons (h c mem_cons_self),
      ih fun d hd => h d (mem_cons_of_mem c hd), cons_append]

theorem takeWhile_word {f : UInt8 → Bool} {word s : Bytes} (hword : ∀ c ∈ word, f c = true)
    (hs : ∀ c ∈ s.head?, f c = false) : (word ++ s).takeWhile f = word := by
  rw [takeWhile_append_of_pos hword]
  cases s with
  | nil => simp
  | cons c s => rw [takeWhile_cons_of_neg (by simpa using hs c rfl), append_nil]

/-- A word and `=` behind it, if the words agree. -/
theorem match_word {f : UInt8 → Bool} {word key behind : Bytes} (hword : ∀ c ∈ word, f c = true)
    (hkey : ∀ c ∈ key, f c = true) (hbehind : ∀ c ∈ behind.head?, f c = false)
    (hws : ∀ c, isAsciiWs c = true → f c = false) (hequals : f 0x3d = false) :
    (match (key ++ behind).dropPrefix? word with
      | some rest => (trimStart rest).head? == some 0x3d
      | none => false) = (decide (key = word) && (trimStart behind).head? == some 0x3d) := by
  cases hdrop : (key ++ behind).dropPrefix? word with
  | none =>
    have hne : key ≠ word := by
      rintro rfl
      rw [dropPrefix?_append_of_beq behind (BEq.rfl : key == key)] at hdrop
      cases hdrop
    simp [hne]
  | some rest =>
    obtain ⟨word', hcat, hsame⟩ := dropPrefix?_eq_some_iff.mp hdrop
    obtain rfl : word = word' := (LawfulBEq.eq_of_beq hsame).symm
    by_cases heq : (trimStart rest).head? = some 0x3d
    · have hhead : ∀ c ∈ rest.head?, f c = false := by
        intro c hc
        obtain ⟨rest, rfl⟩ := head?_eq_some_iff.mp hc
        by_cases hblank : isAsciiWs c = true
        · exact hws c hblank
        · rw [trimStart, dropWhile_cons_of_neg hblank] at heq
          cases heq
          exact hequals
      have hwords := congrArg (List.takeWhile f) hcat
      rw [takeWhile_word hkey hbehind, takeWhile_word hword hhead] at hwords
      subst hwords
      rw [append_cancel_left hcat]
      simp
    · have hfalse : ((trimStart rest).head? == some 0x3d) = false := by simpa using heq
      dsimp only
      rw [hfalse]
      by_cases hsame : key = word
      · subst hsame
        rw [append_cancel_left hcat, hfalse, Bool.and_false]
      · simp [hsame]

theorem keyByte_facts {c : UInt8} (h : isKeyByte c = true) :
    isAsciiWs c = false ∧ c ≠ newline ∧ isLowerKeyByte (toLower c) = true := by
  grind [isKeyByte, isAlnum, isAlpha, isUpper, isAsciiWs, isLowerKeyByte, toLower, newline]

theorem isKeyByte_of_isAlpha {c : UInt8} (h : isAlpha c = true) : isKeyByte c = true := by
  rw [isKeyByte, isAlnum, h]
  rfl

theorem not_lowerKeyByte_of_ws {c : UInt8} (h : isAsciiWs c = true) : isLowerKeyByte c = false := by
  grind [isAsciiWs, isLowerKeyByte]

theorem map_toLower_inlineWs {blanks : Bytes} (h : ∀ c ∈ blanks, isInlineWs c = true) :
    blanks.map toLower = blanks := by
  refine (map_congr_left fun c hc => ?_).trans (map_id _)
  have hc := h c hc
  simp only [isInlineWs, Bool.or_eq_true, beq_iff_eq] at hc
  rcases hc with rfl | rfl <;> rfl

theorem firstLine_append {text : Bytes} (h : ∀ c ∈ text, c ≠ newline) (data : Bytes) :
    firstLine (text ++ data) = text ++ firstLine data :=
  takeWhile_append_of_pos (by simpa using h)

/-- What stands behind a name decides whether there is a value. -/
theorem parseTail_head {key : String} {data rest : Bytes} {value : Option Bytes}
    (h : parseTail key data = .ok ((key, value), rest)) :
    (value = none ∧ firstLine data = []) ∨
      ∃ c behind, firstLine data = c :: behind ∧ (c == 0x3d) = value.isSome ∧
        (beginsComment c = true ∨ c = 0x3d) := by
  cases data with
  | nil =>
    cases h
    exact .inl ⟨rfl, rfl⟩
  | cons c data =>
    rw [parseTail] at h
    split at h
    · rename_i hc
      subst hc
      cases h
      exact .inl ⟨rfl, rfl⟩
    · rename_i hc
      have hfirst : firstLine (c :: data) = c :: firstLine data :=
        takeWhile_cons_of_pos (by simpa using hc)
      refine .inr ⟨c, firstLine data, hfirst, ?_⟩
      split at h
      · rename_i hcomment
        cases h
        refine ⟨?_, .inl hcomment⟩
        have hne : c ≠ 0x3d := by
          rintro rfl
          exact absurd hcomment (by decide)
        simpa using hne
      · split at h
        · rename_i hequals
          obtain ⟨result, hvalue, h⟩ := of_match_ok h
          cases h
          exact ⟨by simpa using hequals, .inr hequals⟩
        · cases h

/-- The bytes behind a name, as the filter sees them. -/
theorem behind_name {key : String} {behind rest : Bytes} {value : Option Bytes}
    (h : parseTail key (skipInlineWs behind) = .ok ((key, value), rest))
    (hhead : ∀ c ∈ behind.head?, isKeyByte c = false) :
    (∀ c ∈ ((trimEnd (firstLine behind)).map toLower).head?, isLowerKeyByte c = false) ∧
      ((trimStart ((trimEnd (firstLine behind)).map toLower)).head? == some 0x3d) = value.isSome := by
  generalize hblanks : behind.takeWhile isInlineWs = blanks
  have hws : ∀ c ∈ blanks, isInlineWs c = true := by
    intro c hc
    rw [← hblanks] at hc
    exact mem_takeWhile_imp hc
  have hbehind : behind = blanks ++ skipInlineWs behind := by
    rw [← hblanks]
    exact (takeWhile_append_dropWhile).symm
  have hnewline : ∀ c ∈ blanks, c ≠ newline := by
    rintro c hc rfl
    exact absurd (hws newline hc) (by decide)
  have hascii : ∀ c ∈ blanks, isAsciiWs c = true := fun c hc => isAsciiWs_of_isInlineWs (hws c hc)
  have hline : firstLine behind = blanks ++ firstLine (skipInlineWs behind) := by
    rw [← firstLine_append hnewline, ← hbehind]
  rcases parseTail_head h with ⟨rfl, hnil⟩ | ⟨c, more, hcons, hvalue, hc⟩
  · rw [hline, hnil, append_nil, trimEnd_of_forall hascii]
    exact ⟨nofun, rfl⟩
  · have hfacts : isAsciiWs c = false ∧ toLower c = c ∧ isLowerKeyByte c = false := by
      rcases hc with hc | rfl
      · simp only [beginsComment, Bool.or_eq_true, beq_iff_eq] at hc
        rcases hc with rfl | rfl <;> decide
      · decide
    have htrim : (trimEnd (firstLine behind)).map toLower = blanks ++ c :: (trimEnd more).map toLower := by
      rw [hline, hcons, trimEnd_append blanks hfacts.1, map_append, map_cons, hfacts.2.1,
        map_toLower_inlineWs hws]
    rw [htrim]
    constructor
    · intro d hd
      cases blanks with
      | nil =>
        cases hd
        exact hfacts.2.2
      | cons b blanks =>
        cases hd
        exact not_lowerKeyByte_of_ws (hascii d mem_cons_self)
    · rw [trimStart, dropWhile_append_of_pos hascii, dropWhile_cons_of_neg (by simp [hfacts.1]),
        ← hvalue]
      rfl

/-- **A line that a variable begins on** is left out when the filter takes the section for `[extensions]`, the
variable is `refstorage`, and it has a value. -/
theorem takesOut_variable {c : UInt8} {data rest : Bytes} {key : String} {value : Option Bytes}
    (h : parseVariable c data = .ok ((key, value), rest)) (inExtensions : Bool) :
    takesOut inExtensions (firstLine (c :: data))
      = (inExtensions && (decide (key = "refstorage") && value.isSome)) := by
  rw [parseVariable] at h
  split at h
  · cases h
  · rename_i hfirst
    have hc : isKeyByte c = true := isKeyByte_of_isAlpha (by simpa using hfirst)
    generalize hname : data.takeWhile isKeyByte = name at h
    generalize hbehind : data.dropWhile isKeyByte = behind at h
    have hdata : data = name ++ behind := by
      rw [← hname, ← hbehind]
      exact (takeWhile_append_dropWhile).symm
    have hhead : ∀ d ∈ behind.head?, isKeyByte d = false := by
      intro d hd
      have hnot := head?_dropWhile_not isKeyByte data
      rw [hbehind, hd] at hnot
      simpa using hnot
    have hbytes : ∀ d ∈ c :: name, isKeyByte d = true := by
      intro d hd
      rcases mem_cons.mp hd with rfl | hd
      · exact hc
      · rw [← hname] at hd
        exact mem_takeWhile_imp hd
    have hlower : ∀ d ∈ (c :: name).map toLower, isLowerKeyByte d = true := by
      intro d hd
      obtain ⟨b, hb, rfl⟩ := mem_map.mp hd
      exact (keyByte_facts (hbytes b hb)).2.2
    obtain ⟨text, htext, hutf8⟩ := exists_text_of_ascii fun d hd => ascii_of_isLowerKeyByte (hlower d hd)
    rw [htext, Option.getD_some] at h
    obtain rfl : text = key := (key_of_parseTail h).symm
    obtain ⟨hnext, hvalue⟩ := behind_name h hhead
    have hline : firstLine (c :: data) = c :: name ++ firstLine behind := by
      rw [hdata, ← cons_append, firstLine_append fun d hd => (keyByte_facts (hbytes d hd)).2.1]
    have htrim : (trimAscii (firstLine (c :: data))).map toLower
        = (c :: name).map toLower ++ (trimEnd (firstLine behind)).map toLower := by
      rw [hline, cons_append, trimAscii_cons (keyByte_facts hc).1,
        trimEnd_word_append fun d hd => (keyByte_facts (hbytes d (mem_cons_of_mem c hd))).1,
        ← cons_append, map_append]
    have hword : ∀ d ∈ utf8 "refstorage", isLowerKeyByte d = true := by decide +kernel
    have hsame : decide ((c :: name).map toLower = utf8 "refstorage") = decide (text = "refstorage") := by
      rw [← hutf8]
      exact decide_eq_decide.mpr ⟨utf8_injective, congrArg utf8⟩
    rw [takesOut, htrim, match_word hword hlower hnext (fun _ => not_lowerKeyByte_of_ws) (by decide), hvalue,
      hsame]

/-! ### Files -/

/-- What has to go. -/
def isRefstorage (e : Entry) : Bool := decide (e.ctx = ("extensions", none)) && decide (e.key = "refstorage")

/-- None of the further lines of a text is left out; `rest` stands behind the text. -/
def KeptThrough (rest : Bytes) : Bool → Bytes → Prop
  | _, [] => True
  | inExtensions, c :: text =>
    if c = newline then
      takesOut (flagAfter inExtensions (firstLine (text ++ rest))) (firstLine (text ++ rest)) = false ∧
        KeptThrough rest (flagAfter inExtensions (firstLine (text ++ rest))) text
    else KeptThrough rest inExtensions text

/-- `in_extensions` behind a text. -/
def flagThrough (rest : Bytes) : Bool → Bytes → Bool
  | inExtensions, [] => inExtensions
  | inExtensions, c :: text =>
    if c = newline then flagThrough rest (flagAfter inExtensions (firstLine (text ++ rest))) text
    else flagThrough rest inExtensions text

/-- `in_extensions` behind a line whose header begins here; behind the first, the line was looked at. -/
def flagAt (fresh inExtensions : Bool) (data : Bytes) : Bool :=
  if fresh then flagAfter inExtensions (firstLine data) else inExtensions

/-- The parser and the filter go through a file in step.  The parser is in the section `ctx`; the filter takes
it for `[extensions]` or not; `fresh` says that nothing but blanks stands before on the line. -/
inductive InStep : Option SectionCtx → Bool → Bool → Bytes → Prop
  | done (ctx : Option SectionCtx) (inExtensions fresh : Bool) : InStep ctx inExtensions fresh []
  | newline {ctx : Option SectionCtx} {inExtensions fresh : Bool} {rest : Bytes}
      (hrest : InStep ctx inExtensions true rest) : InStep ctx inExtensions fresh (newline :: rest)
  | blank {ctx : Option SectionCtx} {inExtensions fresh : Bool} {c : UInt8} {rest : Bytes}
      (hc : isBlank c = true) (hrest : InStep ctx inExtensions fresh rest) :
      InStep ctx inExtensions fresh (c :: rest)
  | comment {ctx : Option SectionCtx} {inExtensions fresh : Bool} {c : UInt8} {text rest : Bytes}
      (hc : beginsComment c = true) (htext : GitConfig.newline ∉ text) (hends : EndsLine rest)
      (hrest : InStep ctx inExtensions false rest) : InStep ctx inExtensions fresh (c :: (text ++ rest))
  | header {ctx : Option SectionCtx} {inExtensions fresh : Bool} {here : SectionCtx} {text rest : Bytes}
      (hheader : parseSectionHeader [] (text ++ rest) = .ok (here, rest))
      (hkept : KeptThrough rest (flagAt fresh inExtensions (0x5b :: (text ++ rest))) text)
      (hrest : InStep (some here)
        (flagThrough rest (flagAt fresh inExtensions (0x5b :: (text ++ rest))) text) false rest) :
      InStep ctx inExtensions fresh (0x5b :: (text ++ rest))
  | kept {here : SectionCtx} {inExtensions fresh : Bool} {c : UInt8} {text rest : Bytes} {key : String}
      {value : Option Bytes} (hvar : parseVariable c (text ++ rest) = .ok ((key, value), rest))
      (hkey : key = "refstorage" →
        here ≠ ("extensions", none) ∧ (fresh && inExtensions && value.isSome) = false)
      (hkept : KeptThrough rest inExtensions text)
      (hrest : InStep (some here) (flagThrough rest inExtensions text) false rest) :
      InStep (some here) inExtensions fresh (c :: (text ++ rest))
  | removed {c : UInt8} {text rest value : Bytes}
      (hvar : parseVariable c (text ++ rest) = .ok (("refstorage", some value), rest))
      (htext : GitConfig.newline ∉ text) (hrest : InStep (some ("extensions", none)) true false rest) :
      InStep (some ("extensions", none)) true true (c :: (text ++ rest))

theorem keepLine_through {rest text : Bytes} {inExtensions : Bool} (h : KeptThrough rest inExtensions text) :
    keepLine inExtensions (text ++ rest) = text ++ keepLine (flagThrough rest inExtensions text) rest := by
  induction text generalizing inExtensions with
  | nil => rfl
  | cons c text ih =>
    rw [KeptThrough] at h
    rw [flagThrough]
    by_cases hc : c = newline
    · rw [if_pos hc] at h
      rw [if_pos hc, cons_append, hc, keepLine_newline, strip_kept h.1, ih h.2, cons_append]
    · rw [if_neg hc] at h
      rw [if_neg hc, cons_append, keepLine_cons hc, ih h, cons_append]

theorem takesOut_of_head {line : Bytes} (h : ∀ c ∈ (trimAscii line).head?, toLower c ≠ 0x72)
    (inExtensions : Bool) : takesOut inExtensions line = false := by
  have hnone : ((trimAscii line).map toLower).dropPrefix? (utf8 "refstorage") = none := by
    cases hdrop : ((trimAscii line).map toLower).dropPrefix? (utf8 "refstorage") with
    | none => rfl
    | some rest =>
      obtain ⟨word, hcat, hsame⟩ := dropPrefix?_eq_some_iff.mp hdrop
      obtain rfl : word = utf8 "refstorage" := LawfulBEq.eq_of_beq hsame
      cases htrim : trimAscii line with
      | nil =>
        rw [htrim] at hcat
        have hlength := congrArg List.length hcat
        have hword : (utf8 "refstorage").length = 10 := by decide
        rw [length_append, hword, map_nil, length_nil] at hlength
        omega
      | cons c trimmed =>
        rw [htrim] at hcat h
        refine absurd ?_ (h c rfl)
        exact (List.cons.inj hcat).1
  rw [takesOut, hnone, Bool.and_false]

section Begins

variable {ctx : Option SectionCtx} {blanks data : Bytes} {inExtensions : Bool}

theorem parseFrom_blanks (h : ∀ c ∈ blanks, isBlank c = true) (data : Bytes) :
    parseFrom ctx (blanks ++ data) = parseFrom ctx data := by
  refine parseFrom_congr ?_
  induction blanks with
  | nil => rfl
  | cons c blanks ih =>
    rw [cons_append, skipGap, h c mem_cons_self, Bool.true_or, if_pos rfl]
    exact ih fun d hd => h d (mem_cons_of_mem c hd)

theorem blank_ne_newline {c : UInt8} (h : isBlank c = true) : c ≠ newline := by
  rintro rfl
  exact absurd h (by decide)

/-- A line that is kept, from behind its blanks. -/
theorem parseFrom_kept (hblanks : ∀ c ∈ blanks, isBlank c = true)
    (h : takesOut (flagAfter inExtensions (firstLine data)) (firstLine data) = false) :
    parseFrom ctx (stripLines inExtensions (linesOf (blanks ++ data)))
      = parseFrom ctx (keepLine (flagAfter inExtensions (firstLine data)) data) := by
  have hws : ∀ c ∈ blanks, isAsciiWs c = true := fun c hc => isAsciiWs_of_isBlank (hblanks c hc)
  have hne : ∀ c ∈ blanks, c ≠ newline := fun c hc => blank_ne_newline (hblanks c hc)
  have hline : firstLine (blanks ++ data) = blanks ++ firstLine data := firstLine_append hne data
  have hkept : takesOut (flagAfter inExtensions (firstLine (blanks ++ data))) (firstLine (blanks ++ data))
      = false := by
    rw [hline, flagAfter_ws_append hws, takesOut_ws_append hws]
    exact h
  rw [strip_kept hkept, hline, flagAfter_ws_append hws, keepLine_append (fun hmem => hne newline hmem rfl),
    parseFrom_blanks hblanks]

/-- The first byte of a line that is no blank. -/
theorem line_head {c : UInt8} (hws : isAsciiWs c = false) (hlf : c ≠ newline) (hbracket : c ≠ 0x5b)
    (inExtensions : Bool) (data : Bytes) :
    flagAfter inExtensions (firstLine (c :: data)) = inExtensions := by
  have hline : firstLine (c :: data) = c :: firstLine data :=
    takeWhile_cons_of_pos (by simpa using hlf)
  rw [hline, flagAfter, trimAscii_cons hws, head?_cons, if_neg (by simpa using hbracket)]

theorem line_takesOut {c : UInt8} (hws : isAsciiWs c = false) (hlf : c ≠ newline) (hr : toLower c ≠ 0x72)
    (inExtensions : Bool) (data : Bytes) : takesOut inExtensions (firstLine (c :: data)) = false := by
  have hline : firstLine (c :: data) = c :: firstLine data :=
    takeWhile_cons_of_pos (by simpa using hlf)
  refine takesOut_of_head ?_ inExtensions
  rw [hline, trimAscii_cons hws]
  intro d hd
  cases hd
  exact hr

end Begins

theorem skipGap_alpha {c : UInt8} (h : isAlpha c = true) (data : Bytes) :
    skipGap false (c :: data) = c :: data ∧ c ≠ 0x5b ∧ isAsciiWs c = false ∧ c ≠ newline := by
  have hfacts : (isBlank c || c == newline) = false ∧ beginsComment c = false ∧ c ≠ 0x5b ∧
      isAsciiWs c = false ∧ c ≠ newline := by
    grind [isAlpha, isUpper, isBlank, beginsComment, isAsciiWs, newline]
  rw [skipGap, hfacts.1, hfacts.2.1]
  exact ⟨rfl, hfacts.2.2⟩

theorem isAlpha_of_parseVariable {c : UInt8} {data rest : Bytes} {var : String × Option Bytes}
    (h : parseVariable c data = .ok (var, rest)) : isAlpha c = true := by
  rw [parseVariable] at h
  split at h
  · cases h
  · rename_i halpha
    simpa using halpha

theorem endsLine_keepLine {rest : Bytes} (h : EndsLine rest) (inExtensions : Bool) :
    EndsLine (keepLine inExtensions rest) := by
  rcases h with rfl | h
  · exact .inl rfl
  · obtain ⟨rest, rfl⟩ := head?_eq_some_iff.mp h
    rw [keepLine_newline]
    exact .inr rfl

theorem parseFrom_comment {ctx : Option SectionCtx} {c : UInt8} {text rest : Bytes}
    (hc : beginsComment c = true) (htext : newline ∉ text) (hends : EndsLine rest) :
    parseFrom ctx (c :: (text ++ rest)) = parseFrom ctx rest := by
  have hgap : (isBlank c || c == newline) = false := by
    simp only [beginsComment, Bool.or_eq_true, beq_iff_eq] at hc
    rcases hc with rfl | rfl <;> decide
  have hskip : skipGap true (text ++ rest) = skipGap true rest := by
    induction text with
    | nil => rfl
    | cons d text ih =>
      have hd : d ≠ newline := fun heq => htext (heq ▸ mem_cons_self)
      rw [cons_append, skipGap, if_neg hd]
      exact ih fun hmem => htext (mem_cons_of_mem d hmem)
  refine parseFrom_congr ?_
  rw [skipGap, hgap, if_neg Bool.false_ne_true, if_pos hc, hskip]
  rcases hends with rfl | hhead
  · rfl
  · obtain ⟨rest, rfl⟩ := head?_eq_some_iff.mp hhead
    rfl

/-! ### What is lost -/

/-- Behind the start of a line that is kept, or in the middle of one, the parser reads the entries that are
to stay. -/
def ReadsKept (ctx : Option SectionCtx) (inExtensions fresh : Bool) (data : Bytes) (entries : List Entry) :
    Prop :=
  if fresh then ∀ blanks : Bytes, (∀ c ∈ blanks, isBlank c = true) →
    parseFrom ctx (stripLines inExtensions (linesOf (blanks ++ data))) = .ok entries
  else parseFrom ctx (keepLine inExtensions data) = .ok entries

/-- It is enough to look at the line from its first byte that is no blank. -/
theorem readsKept_of {ctx : Option SectionCtx} {inExtensions fresh : Bool} {data : Bytes}
    {entries : List Entry}
    (htakes : fresh = true → takesOut (flagAt true inExtensions data) (firstLine data) = false)
    (h : parseFrom ctx (keepLine (flagAt fresh inExtensions data) data) = .ok entries) :
    ReadsKept ctx inExtensions fresh data entries := by
  cases fresh with
  | false => exact h
  | true =>
    intro blanks hblanks
    rw [parseFrom_kept hblanks (htakes rfl)]
    exact h

theorem flagAt_of_head {c : UInt8} (hws : isAsciiWs c = false) (hlf : c ≠ newline) (hbracket : c ≠ 0x5b)
    (fresh inExtensions : Bool) (data : Bytes) : flagAt fresh inExtensions (c :: data) = inExtensions := by
  cases fresh with
  | false => rfl
  | true => exact line_head hws hlf hbracket inExtensions data

section Steps

variable {ctx : Option SectionCtx} {here : SectionCtx} {inExtensions fresh : Bool} {c : UInt8}
  {text rest : Bytes} {entries : List Entry}

theorem readsKept_nil (ctx : Option SectionCtx) (inExtensions fresh : Bool) :
    ReadsKept ctx inExtensions fresh [] [] := by
  refine readsKept_of (fun _ => takesOut_of_head ?_ _) (parseFrom_end rfl)
  simp [firstLine, trimAscii, trimStart, trimEnd]

theorem readsKept_newline (h : ReadsKept ctx inExtensions true rest entries) :
    ReadsKept ctx inExtensions fresh (newline :: rest) entries := by
  have hkept := h [] (by simp)
  have hline : firstLine (newline :: rest) = [] := rfl
  have hflag : flagAt fresh inExtensions (newline :: rest) = inExtensions := by
    cases fresh
    · rfl
    · rw [flagAt, if_pos rfl, hline, flagAfter]
      rfl
  refine readsKept_of (fun _ => takesOut_of_head ?_ _) ?_
  · rw [hline]
    simp [trimAscii, trimStart, trimEnd]
  · rw [hflag, keepLine_newline, parseFrom_newline]
    exact hkept

theorem readsKept_blank (hc : isBlank c = true) (h : ReadsKept ctx inExtensions fresh rest entries) :
    ReadsKept ctx inExtensions fresh (c :: rest) entries := by
  have hone : ∀ d ∈ [c], isBlank d = true := by simp [hc]
  cases fresh with
  | true =>
    intro blanks hblanks
    have hmore := h (blanks ++ [c]) fun d hd => (mem_append.mp hd).elim (hblanks d) (hone d)
    rwa [append_assoc, singleton_append] at hmore
  | false =>
    rw [ReadsKept, if_neg Bool.false_ne_true, keepLine_cons (blank_ne_newline hc)]
    exact (parseFrom_blanks hone _).trans h

theorem readsKept_comment (hc : beginsComment c = true) (htext : newline ∉ text) (hends : EndsLine rest)
    (h : ReadsKept ctx inExtensions false rest entries) :
    ReadsKept ctx inExtensions fresh (c :: (text ++ rest)) entries := by
  have hfacts : isAsciiWs c = false ∧ c ≠ newline ∧ c ≠ 0x5b ∧ toLower c ≠ 0x72 := by
    simp only [beginsComment, Bool.or_eq_true, beq_iff_eq] at hc
    rcases hc with rfl | rfl <;> decide
  obtain ⟨hws, hlf, hbracket, hr⟩ := hfacts
  refine readsKept_of (fun _ => line_takesOut hws hlf hr _ _) ?_
  rw [flagAt_of_head hws hlf hbracket, keepLine_cons hlf, keepLine_append htext,
    parseFrom_comment hc htext (endsLine_keepLine hends inExtensions)]
  exact h

theorem readsKept_header (hheader : parseSectionHeader [] (text ++ rest) = .ok (here, rest))
    (hkept : KeptThrough rest (flagAt fresh inExtensions (0x5b :: (text ++ rest))) text)
    (h : ReadsKept (some here) (flagThrough rest (flagAt fresh inExtensions (0x5b :: (text ++ rest))) text)
      false rest entries) : ReadsKept ctx inExtensions fresh (0x5b :: (text ++ rest)) entries := by
  obtain ⟨text', hcat, -, htext⟩ := header_text hheader
  obtain rfl := append_cancel_right hcat
  refine readsKept_of (fun _ => line_takesOut (by decide) (by decide) (by decide) _ _) ?_
  rw [keepLine_cons (by decide), keepLine_through hkept, parseFrom_header (skipGap_header _), htext]
  exact h

section Variable

variable {key : String} {value : Option Bytes}
  (hvar : parseVariable c (text ++ rest) = .ok ((key, value), rest))
include hvar

theorem readsKept_kept
    (htakes : fresh = true → takesOut inExtensions (firstLine (c :: (text ++ rest))) = false)
    (hkept : KeptThrough rest inExtensions text)
    (h : ReadsKept (some here) (flagThrough rest inExtensions text) false rest entries) :
    ReadsKept (some here) inExtensions fresh (c :: (text ++ rest))
      (⟨here.1, here.2, key, value⟩ :: entries) := by
  obtain ⟨-, hbracket, hws, hlf⟩ := skipGap_alpha (isAlpha_of_parseVariable hvar) (text ++ rest)
  obtain ⟨text', hcat, hends, -, htext⟩ := variable_text hvar
  obtain rfl := append_cancel_right hcat
  have hread := htext _ (endsLine_keepLine hends (flagThrough rest inExtensions text))
  have hskip := (skipGap_alpha (isAlpha_of_parseVariable hvar)
    (text ++ keepLine (flagThrough rest inExtensions text) rest)).1
  rw [ReadsKept, if_neg Bool.false_ne_true] at h
  refine readsKept_of (fun hfresh => ?_) ?_
  · rw [flagAt_of_head hws hlf hbracket]
    exact htakes hfresh
  · rw [flagAt_of_head hws hlf hbracket, keepLine_cons hlf, keepLine_through hkept,
      parseFrom_variable hskip hbracket, hread]
    simp only [h]

theorem readsKept_removed (htakes : takesOut inExtensions (firstLine (c :: (text ++ rest))) = true)
    (htext : newline ∉ text) (h : ReadsKept (some here) inExtensions false rest entries) :
    ReadsKept (some here) inExtensions true (c :: (text ++ rest)) entries := by
  obtain ⟨-, hbracket, hws, hlf⟩ := skipGap_alpha (isAlpha_of_parseVariable hvar) (text ++ rest)
  obtain ⟨text', hcat, hends, -, -⟩ := variable_text hvar
  obtain rfl := append_cancel_right hcat
  intro blanks hblanks
  have hwsBlanks : ∀ d ∈ blanks, isAsciiWs d = true := fun d hd => isAsciiWs_of_isBlank (hblanks d hd)
  have hline : firstLine (c :: (text ++ rest)) = c :: text := by
    have hno : ∀ d ∈ c :: text, (d != newline) = true := by
      intro d hd
      rcases mem_cons.mp hd with rfl | hd
      · simpa using hlf
      · have hne : d ≠ newline := fun heq => htext (heq ▸ hd)
        simpa using hne
    have hrestLine : rest.takeWhile (· != newline) = [] := by
      rcases hends with rfl | hhead
      · rfl
      · obtain ⟨rest, rfl⟩ := head?_eq_some_iff.mp hhead
        rfl
    rw [firstLine, ← cons_append, takeWhile_append_of_pos hno, hrestLine, append_nil]
  have hflag : flagAfter inExtensions (blanks ++ c :: text) = inExtensions := by
    rw [flagAfter_ws_append hwsBlanks, ← hline]
    exact line_head hws hlf hbracket inExtensions _
  have htakesLine : takesOut (flagAfter inExtensions (blanks ++ c :: text)) (blanks ++ c :: text) = true := by
    rw [hflag, takesOut_ws_append hwsBlanks, ← hline]
    exact htakes
  have hno : newline ∉ blanks ++ c :: text := by
    intro hmem
    rcases mem_append.mp hmem with hmem | hmem
    · exact blank_ne_newline (hblanks _ hmem) rfl
    · rcases mem_cons.mp hmem with heq | hmem
      · exact hlf heq.symm
      · exact htext hmem
  rw [ReadsKept, if_neg Bool.false_ne_true] at h
  have hsplit : blanks ++ c :: (text ++ rest) = (blanks ++ c :: text) ++ rest := by simp
  rw [hsplit]
  rcases strip_taken hno htakesLine hends with hcut | ⟨rfl, hcut⟩
  · rw [hflag] at hcut
    rw [← parseFrom_newline, hcut]
    exact h
  · rw [hcut]
    exact h

end Variable

end Steps

/-- A variable that was read, and the entries behind it. -/
theorem entries_of_parseFrom {here : SectionCtx} {c : UInt8} {data rest : Bytes} {key : String}
    {value : Option Bytes} (hvar : parseVariable c data = .ok ((key, value), rest)) {entries : List Entry}
    (h : parseFrom (some here) (c :: data) = .ok entries) : ∃ behind,
      parseFrom (some here) rest = .ok behind ∧ entries = ⟨here.1, here.2, key, value⟩ :: behind := by
  obtain ⟨hskip, hbracket, -, -⟩ := skipGap_alpha (isAlpha_of_parseVariable hvar) data
  rw [parseFrom_variable hskip hbracket, hvar] at h
  cases hentries : parseFrom (some here) rest with
  | error e =>
    simp only [hentries] at h
    cases h
  | ok behind =>
    simp only [hentries] at h
    cases h
    exact ⟨behind, rfl, rfl⟩

theorem not_isRefstorage {here : SectionCtx} {key : String} {value : Option Bytes}
    (h : key = "refstorage" → here ≠ ("extensions", none)) :
    isRefstorage ⟨here.1, here.2, key, value⟩ = false := by
  by_cases hname : key = "refstorage"
  · simp [isRefstorage, Entry.ctx, h hname]
  · simp [isRefstorage, hname]

/-- **Run law.** The filter and the parser in step. -/
theorem readsKept_of_inStep {ctx : Option SectionCtx} {inExtensions fresh : Bool} {data : Bytes}
    (h : InStep ctx inExtensions fresh data) {entries : List Entry}
    (hparse : parseFrom ctx data = .ok entries) :
    ReadsKept ctx inExtensions fresh data (entries.filter fun e => !isRefstorage e) := by
  induction h generalizing entries with
  | done ctx inExtensions fresh =>
    rw [parseFrom_end rfl] at hparse
    cases hparse
    exact readsKept_nil ctx inExtensions fresh
  | newline hrest ih =>
    rw [parseFrom_newline] at hparse
    exact readsKept_newline (ih hparse)
  | @blank ctx inExtensions fresh c rest hc hrest ih =>
    have hone : ∀ d ∈ [c], isBlank d = true := by simp [hc]
    rw [← singleton_append, parseFrom_blanks hone] at hparse
    exact readsKept_blank hc (ih hparse)
  | comment hc htext hends hrest ih =>
    rw [parseFrom_comment hc htext hends] at hparse
    exact readsKept_comment hc htext hends (ih hparse)
  | header hheader hkept hrest ih =>
    rw [parseFrom_header (skipGap_header _), hheader] at hparse
    exact readsKept_header hheader hkept (ih hparse)
  | @kept here inExtensions fresh c text rest key value hvar hkey hkept hrest ih =>
    obtain ⟨behind, hbehind, rfl⟩ := entries_of_parseFrom hvar hparse
    have hstays : isRefstorage ⟨here.1, here.2, key, value⟩ = false :=
      not_isRefstorage fun hname => (hkey hname).1
    rw [filter_cons_of_pos (by simp [hstays])]
    refine readsKept_kept hvar (fun hfresh => ?_) hkept (ih hbehind)
    rw [takesOut_variable hvar]
    by_cases hname : key = "refstorage"
    · have hnot := (hkey hname).2
      rw [hfresh, Bool.true_and] at hnot
      rw [← hnot]
      simp [hname]
    · simp [hname]
  | @removed c text rest value hvar htext hrest ih =>
    obtain ⟨behind, hbehind, rfl⟩ := entries_of_parseFrom hvar hparse
    have hgoes : isRefstorage ⟨"extensions", none, "refstorage", some value⟩ = true := by
      simp [isRefstorage, Entry.ctx]
    rw [filter_cons_of_neg (by simp [hgoes])]
    exact readsKept_removed hvar (by rw [takesOut_variable hvar]; rfl) htext (ih hbehind)

/-! ### Files without continued lines -/

theorem through_line (rest : Bytes) {text : Bytes} (h : newline ∉ text) (inExtensions : Bool) :
    KeptThrough rest inExtensions text ∧ flagThrough rest inExtensions text = inExtensions := by
  induction text with
  | nil => exact ⟨trivial, rfl⟩
  | cons c text ih =>
    have hc : c ≠ newline := fun heq => h (heq ▸ mem_cons_self)
    rw [KeptThrough, flagThrough, if_neg hc, if_neg hc]
    exact ih fun hmem => h (mem_cons_of_mem c hmem)

/-- The filter keeps some of the entries, in their order; if it keeps the right ones it was in step. -/
theorem inStep_of_kept {ctx : Option SectionCtx} {inExtensions fresh : Bool} {data : Bytes}
    {entries : List Entry} (hparse : parseFrom ctx data = .ok entries) (hsingle : ¬Continued data) :
    ∃ kept : List Entry, kept.Sublist entries ∧ ReadsKept ctx inExtensions fresh data kept ∧
      (kept = (entries.filter fun e => !isRefstorage e) → InStep ctx inExtensions fresh data) := by
  induction hn : data.length using Nat.strong_induction_on
    generalizing ctx inExtensions fresh data entries with
  | _ n ih =>
    subst hn
    cases data with
    | nil =>
      rw [parseFrom_end rfl] at hparse
      cases hparse
      exact ⟨[], List.Sublist.refl [], readsKept_nil _ _ _, fun _ => .done _ _ _⟩
    | cons c data =>
      have hbehind : ¬Continued data := fun hcont => hsingle (hcont.append_left [c])
      by_cases hlf : c = newline
      · subst hlf
        rw [parseFrom_newline] at hparse
        obtain ⟨kept, hsub, hkept, hstep⟩ :=
          @ih data.length (Nat.lt_succ_self _) ctx inExtensions true data entries hparse hbehind rfl
        exact ⟨kept, hsub, readsKept_newline hkept, fun heq => .newline (hstep heq)⟩
      by_cases hblank : isBlank c = true
      · have hone : ∀ d ∈ [c], isBlank d = true := by simp [hblank]
        rw [← singleton_append, parseFrom_blanks hone] at hparse
        obtain ⟨kept, hsub, hkept, hstep⟩ :=
          @ih data.length (Nat.lt_succ_self _) ctx inExtensions fresh data entries hparse hbehind rfl
        exact ⟨kept, hsub, readsKept_blank hblank hkept, fun heq => .blank hblank (hstep heq)⟩
      by_cases hcomment : beginsComment c = true
      · obtain ⟨text, htext, hno, -⟩ := comment_text data
        have hends := endsLine_dropWhile data
        generalize data.dropWhile (· != newline) = rest at htext hends
        subst htext
        rw [parseFrom_comment hcomment hno hends] at hparse
        obtain ⟨kept, hsub, hkept, hstep⟩ :=
          @ih rest.length (by simp only [length_append, length_cons]; omega)
            ctx inExtensions false rest entries hparse
            (fun hcont => hbehind (hcont.append_left text)) rfl
        exact ⟨kept, hsub, readsKept_comment hcomment hno hends hkept,
          fun heq => .comment hcomment hno hends (hstep heq)⟩
      by_cases hbracket : c = 0x5b
      · subst hbracket
        rw [parseFrom_header (skipGap_header _)] at hparse
        cases hheader : parseSectionHeader [] data with
        | error e =>
          rw [hheader] at hparse
          cases hparse
        | ok result =>
          obtain ⟨here, rest⟩ := result
          rw [hheader] at hparse
          obtain ⟨text, rfl, hcont, -⟩ := header_text hheader
          have hno : newline ∉ text := fun hmem => hbehind ((hcont hmem).append_right rest)
          obtain ⟨hthrough, hflag⟩ := through_line rest hno
            (flagAt fresh inExtensions (0x5b :: (text ++ rest)))
          obtain ⟨kept, hsub, hkept, hstep⟩ :=
            @ih rest.length (by simp only [length_append, length_cons]; omega) (some here)
              (flagThrough rest (flagAt fresh inExtensions (0x5b :: (text ++ rest))) text) false rest entries
              hparse (fun hcont => hbehind (hcont.append_left text)) rfl
          exact ⟨kept, hsub, readsKept_header hheader hthrough hkept,
            fun heq => .header hheader hthrough (hstep heq)⟩
      · have hskip : skipGap false (c :: data) = c :: data := by
          have hgap : (isBlank c || c == newline) = false := by simp [hblank, hlf]
          rw [skipGap, hgap, if_neg Bool.false_ne_true, if_neg hcomment]
        cases ctx with
        | none =>
          rw [parseFrom_none hskip hbracket] at hparse
          cases hparse
        | some here =>
          cases hvar : parseVariable c data with
          | error e =>
            rw [parseFrom_variable hskip hbracket, hvar] at hparse
            cases hparse
          | ok result =>
            obtain ⟨⟨key, value⟩, rest⟩ := result
            obtain ⟨behind, hbehindParse, rfl⟩ := entries_of_parseFrom hvar hparse
            obtain ⟨text, rfl, hends, hcont, -⟩ := variable_text hvar
            have hno : newline ∉ text := fun hmem => hbehind ((hcont hmem).append_right rest)
            obtain ⟨hthrough, hflag⟩ := through_line rest hno inExtensions
            obtain ⟨kept, hsub, hkept, hstep⟩ :=
              @ih rest.length (by simp only [length_append, length_cons]; omega)
                (some here) inExtensions false rest behind
                hbehindParse (fun hcont => hbehind (hcont.append_left text)) rfl
            have htakesLine := takesOut_variable hvar inExtensions
            by_cases hout : fresh = true ∧ takesOut inExtensions (firstLine (c :: (text ++ rest))) = true
            · obtain ⟨rfl, htakes⟩ := hout
              refine ⟨kept, hsub.cons _, readsKept_removed hvar htakes hno hkept, fun heq => ?_⟩
              rw [htakes] at htakesLine
              obtain ⟨rfl, hname, hvalue⟩ :
                  inExtensions = true ∧ key = "refstorage" ∧ value.isSome = true := by
                simpa using htakesLine.symm
              obtain ⟨text', rfl⟩ := Option.isSome_iff_exists.mp hvalue
              subst hname
              by_cases hhere : here = ("extensions", none)
              · subst hhere
                have hgoes : isRefstorage ⟨"extensions", none, "refstorage", some text'⟩ = true := by
                  simp [isRefstorage, Entry.ctx]
                rw [filter_cons_of_neg (by simp [hgoes])] at heq
                exact .removed hvar hno (hstep heq)
              · -- another section's entry is lost, and none comes in its place
                have hstays : isRefstorage ⟨here.1, here.2, "refstorage", some text'⟩ = false :=
                  not_isRefstorage fun _ => hhere
                rw [filter_cons_of_pos (by simp [hstays])] at heq
                have hlength := (hsub.filter fun e => !isRefstorage e).length_le
                rw [heq, filter_cons_of_pos (by simp [hstays]), filter_filter] at hlength
                simp only [Bool.and_self, length_cons] at hlength
                omega
            · have hkeptLine : fresh = true →
                  takesOut inExtensions (firstLine (c :: (text ++ rest))) = false := fun hfresh =>
                Bool.eq_false_iff.mpr fun htakes => hout ⟨hfresh, htakes⟩
              have hkept' : ReadsKept (some here) (flagThrough rest inExtensions text) false rest kept := by
                rw [hflag]
                exact hkept
              refine ⟨_ :: kept, hsub.cons_cons _, readsKept_kept hvar hkeptLine hthrough hkept',
                fun heq => ?_⟩
              by_cases hgoes : isRefstorage ⟨here.1, here.2, key, value⟩ = true
              · rw [filter_cons_of_neg (by simp [hgoes])] at heq
                have hmem : (⟨here.1, here.2, key, value⟩ : Entry)
                    ∈ behind.filter fun e => !isRefstorage e := by
                  rw [← heq]
                  exact mem_cons_self
                have hnot := (mem_filter.mp hmem).2
                rw [hgoes] at hnot
                cases hnot
              · rw [filter_cons_of_pos (by simpa using hgoes)] at heq
                have hrest := hstep (List.cons.inj heq).2
                rw [← hflag] at hrest
                refine .kept hvar (fun hname => ⟨fun hhere => hgoes ?_, ?_⟩) hthrough hrest
                · simp [isRefstorage, Entry.ctx, hhere, hname]
                · cases fresh with
                  | false => rfl
                  | true =>
                    rw [hkeptLine rfl] at htakesLine
                    simpa [hname] using htakesLine.symm

/-- **Stripping refstorage.** Where the filter and the parser are in step exactly the entries
`extensions.refstorage` are lost; and no line being continued, only there. -/
theorem strip_removes_refstorage {config : Bytes} {entries : List Entry}
    (hparse : parseFile config = .ok entries) :
    (InStep none false true config →
      parseFile (stripRefstorage config) = .ok (entries.filter fun e => !isRefstorage e)) ∧
    (¬Continued config →
      parseFile (stripRefstorage config) = .ok (entries.filter fun e => !isRefstorage e) →
        InStep none false true config) := by
  refine ⟨fun h => readsKept_of_inStep h hparse [] (by simp), fun hsingle h => ?_⟩
  have hcase : ∃ kept : List Entry, kept.Sublist entries ∧ ReadsKept none false true config kept ∧ _ :=
    inStep_of_kept hparse hsingle
  obtain ⟨kept, -, hkept, hstep⟩ := hcase
  have hread := hkept [] (by simp)
  rw [nil_append] at hread
  rw [parseFile, stripRefstorage, hread] at h
  exact hstep (Except.ok.inj h)

/-- A continued value can make up for a line that was lost, so with such lines the converse fails. -/
example : parseFile (stripRefstorage (utf8
      "[f]\na = \\\n[extensions]\nrefstorage = \"#Z\\\n[f] refstorage = \"#Z[f] refstorage = \"\n"))
    = parseFile (utf8
      "[f]\na = \\\n[extensions]\nrefstorage = \"#Z\\\n[f] refstorage = \"#Z[f] refstorage = \"\n") := by
  decide +kernel

theorem not_continued {text : Bytes} (h : backslash ∉ text) : ¬Continued text := by
  rintro ⟨front, back, rfl⟩
  exact h (by simp)

def sampleConfig : Bytes :=
  utf8 "[core]\n\tbare = true\n[Extensions]\n\trefStorage = reftable # new\n\tnoop\n"

theorem strip_removes_refstorage_sample : InStep none false true sampleConfig := by
  have hparse : parseFile sampleConfig = .ok [⟨"core", none, "bare", some (utf8 "true")⟩,
      ⟨"extensions", none, "refstorage", some (utf8 "reftable")⟩, ⟨"extensions", none, "noop", none⟩] := by
    decide +kernel
  exact (strip_removes_refstorage hparse).2 (not_continued (by decide +kernel)) (by decide +kernel)

/-- A section on one line keeps its entry. -/
theorem one_line_section_keeps_refstorage :
    parseFile (utf8 "[extensions] refstorage = reftable\n")
        = .ok [⟨"extensions", none, "refstorage", some (utf8 "reftable")⟩] ∧
      parseFile (stripRefstorage (utf8 "[extensions] refstorage = reftable\n"))
        = .ok [⟨"extensions", none, "refstorage", some (utf8 "reftable")⟩] ∧
      isRefstorage ⟨"extensions", none, "refstorage", some (utf8 "reftable")⟩ = true := by
  decide +kernel

end Alt.Export.StripRefstorage
