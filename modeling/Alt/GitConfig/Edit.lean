import Alt.GitConfig.Parse
import Alt.Library.LossyUtf8

namespace Alt.GitConfig

open Alt.Library List

/-!
# Setting and removing a config key (`alt-cli/src/config_cmd.rs`)

`alt config` reads the whole file as entries, changes those of one key, and writes all entries
anew.  Names and subsections are written so that they can be read; values are written as they are.

* `edit` — the file after a `set` or an `unset`;
* `parseValue_cases` — what a value can come out as, byte by byte;
* `parse_serialize_iff` — what is written is read back just if every entry can be written;
* `config_edit_iff` — so an edit leaves the other keys alone just if they, and the new value, can be.
-/

/-! ### Writing -/

/-- A subsection between quotes. -/
def escapeBytes (sub : Bytes) : Bytes :=
  sub.flatMap fun c => if c = backslash ∨ c = quote then [backslash, c] else [c]

/-- Subsections are read as text first, with losses. -/
def escapeSubsection (sub : Bytes) : Bytes := escapeBytes (lossy sub)

def headerLine : SectionCtx → Bytes
  | (sect, some sub) =>
    0x5b :: utf8 sect ++ space :: quote :: escapeSubsection sub ++ quote :: 0x5d :: [newline]
  | (sect, none) => 0x5b :: utf8 sect ++ 0x5d :: [newline]

def variableLine (key : String) : Option Bytes → Bytes
  | some value => tab :: utf8 key ++ space :: 0x3d :: space :: value ++ [newline]
  | none => tab :: utf8 key ++ [newline]

/-- The entries below the section `last`; a header stands where the section changes. -/
def serializeFrom (last : Option SectionCtx) : List Entry → Bytes
  | [] => []
  | e :: es =>
    (if last = some e.ctx then [] else headerLine e.ctx) ++ variableLine e.key e.value ++
      serializeFrom (some e.ctx) es

def serializeEntries (entries : List Entry) : Bytes := serializeFrom none entries

/-! ### Editing -/

/-- A key, taken apart. -/
structure Key where
  sect : String
  subsection : Option Bytes
  name : String

/-- `section.name`, or `section.subsection.name` with dots in the middle. -/
def splitKey (toLowercase : String → String) (key : String) : Except String Key :=
  let parts := key.toList.splitOn '.'
  match parts with
  | first :: rest =>
    if parts.length < 2 ∨ [] ∈ parts then .error ("bad config key '" ++ key ++ "'")
    else .ok
      { sect := toLowercase (String.ofList first)
        subsection :=
          if 2 < parts.length then some (utf8 (String.ofList (['.'].intercalate rest.dropLast))) else none
        name := toLowercase (String.ofList (parts.getLast?.getD [])) }
  | [] => .error ("bad config key '" ++ key ++ "'")

def Entry.isAt (e : Entry) (key : Key) : Bool :=
  e.sect == key.sect && e.subsection == key.subsection && e.key == key.name

/-- Every entry of the key gets the value; without one, an entry is added. -/
def setEntries (key : Key) (value : Bytes) (entries : List Entry) : List Entry :=
  if entries.any (·.isAt key) then
    entries.map fun e => if e.isAt key then { e with value := some value } else e
  else entries ++ [⟨key.sect, key.subsection, key.name, some value⟩]

def unsetEntries (key : Key) (entries : List Entry) : List Entry :=
  entries.filter fun e => !e.isAt key

/-- What is asked of `alt config`. -/
inductive Change
  | set (key value : String)
  | unset (key : String)

/-- The entries after a change, if it is one. -/
def Change.apply (toLowercase : String → String) (entries : List Entry) :
    Change → Except String (List Entry)
  | .set key value => do
    let k ← splitKey toLowercase key
    return setEntries k (utf8 value) entries
  | .unset key => do
    let k ← splitKey toLowercase key
    if (unsetEntries k entries).length = entries.length then .error ("'" ++ key ++ "' not set")
    else .ok (unsetEntries k entries)

def currentEntries : Option Bytes → Except String (List Entry)
  | none => .ok []
  | some data => parseFile data

/-- The file after a change. -/
def edit (toLowercase : String → String) (file : Option Bytes) (change : Change) :
    Except String Bytes := do
  let entries ← currentEntries file
  let entries ← change.apply toLowercase entries
  return serializeEntries entries

/-! ### Entries that can be written -/

/-- A byte that means something in a value. -/
def isSpecial (c : UInt8) : Bool := c == newline || beginsComment c || c == quote || c == backslash

/-- What is left of a value stands for itself, behind `out` and the blanks `pending`. -/
structure PlainFrom (out pending value : Bytes) : Prop where
  special : ∀ b ∈ value, isSpecial b = false
  head : out = [] → pending = [] ∧ ∀ b ∈ value.head?, isBlank b = false
  last : ∀ b ∈ value.getLast?, isBlank b = false
  waits : value = [] → pending = []

/-- A value that stands for itself. -/
structure PlainValue (value : Bytes) : Prop where
  special : ∀ b ∈ value, isSpecial b = false
  head : ∀ b ∈ value.head?, isBlank b = false
  last : ∀ b ∈ value.getLast?, isBlank b = false

/-- A header that is read back as it was written. -/
structure WritableCtx (ctx : SectionCtx) : Prop where
  sect : ValidSection ctx.1 ctx.2
  subsection : ∀ sub ∈ ctx.2, (∃ s, sub = utf8 s) ∧ newline ∉ sub

/-- An entry that is read back as it was written. -/
structure Writable (e : Entry) : Prop where
  ctx : WritableCtx e.ctx
  key : ValidKey e.key
  value : ∀ value ∈ e.value, PlainValue value

/-! ### Values -/

section

variable {out pending o r : Bytes} {quoted : Bool} {c : UInt8}

theorem not_special_of_isBlank (h : isBlank c = true) : isSpecial c = false := by
  simp only [isBlank, Bool.or_eq_true, beq_iff_eq] at h
  rcases h with (rfl | rfl) | rfl <;> rfl

theorem isSpecial_eq_false_iff :
    isSpecial c = false ↔ c ≠ newline ∧ beginsComment c = false ∧ c ≠ quote ∧ c ≠ backslash := by
  simp [isSpecial, and_assoc]

variable (rest : Bytes)

theorem parseValue_blank (hs : isSpecial c = false) (hb : isBlank c = true) :
    parseValue out pending false (c :: rest) =
      parseValue out (if out = [] then pending else pending ++ [c]) false rest := by
  obtain ⟨hnl, hcomment, -, -⟩ := isSpecial_eq_false_iff.mp hs
  rw [parseValue.eq_def]
  simp [hnl, hcomment, hb]

theorem parseValue_quoted_blank (hs : isSpecial c = false) :
    parseValue out pending true (c :: rest) = parseValue (out ++ pending ++ [c]) [] true rest := by
  obtain ⟨hnl, -, hquote, hbackslash⟩ := isSpecial_eq_false_iff.mp hs
  rw [parseValue.eq_def]
  simp [hnl, hquote, hbackslash]

theorem parseValue_ordinary (hs : isSpecial c = false) (hb : isBlank c = false) :
    parseValue out pending quoted (c :: rest) = parseValue (out ++ pending ++ [c]) [] quoted rest := by
  obtain ⟨hnl, hcomment, hquote, hbackslash⟩ := isSpecial_eq_false_iff.mp hs
  rw [parseValue.eq_def]
  simp [hnl, hcomment, hb, hquote, hbackslash]

theorem parseValue_newline :
    parseValue out pending quoted (newline :: rest) = endValue out quoted (newline :: rest) := by
  rw [parseValue.eq_def]
  rfl

/-- A plain value is read as it stands. -/
theorem parseValue_plain {value : Bytes} (tail : Bytes) (h : PlainFrom out pending value) :
    parseValue out pending false (value ++ newline :: tail) =
      .ok (out ++ pending ++ value, newline :: tail) := by
  induction value generalizing out pending with
  | nil =>
    rw [h.waits rfl, nil_append, parseValue_newline]
    simp [endValue]
  | cons c value ih =>
    have hs := h.special c mem_cons_self
    have hspecial : ∀ b ∈ value, isSpecial b = false :=
      fun b hb => h.special b (mem_cons_of_mem c hb)
    have hlast : ∀ b ∈ value.getLast?, isBlank b = false := by
      intro b hb
      refine h.last b ?_
      rw [getLast?_cons, Option.mem_def.mp hb]
      rfl
    rw [cons_append]
    cases hb : isBlank c with
    | true =>
      have hout : out ≠ [] := by
        intro hout
        rw [(h.head hout).2 c rfl] at hb
        cases hb
      have hvalue : value ≠ [] := by
        rintro rfl
        rw [h.last c rfl] at hb
        cases hb
      rw [parseValue_blank _ hs hb, if_neg hout,
        ih ⟨hspecial, fun h => absurd h hout, hlast, fun h => absurd h hvalue⟩]
      simp
    | false =>
      rw [parseValue_ordinary _ hs hb,
        ih ⟨hspecial, fun h => absurd h (by simp), hlast, fun _ => rfl⟩]
      simp

/-- Bytes that no header and no variable with a value comes without. -/
def isMark (c : UInt8) : Bool := c == 0x3d || c == 0x5b

theorem not_mark_of_isBlank (h : isBlank c = true) : isMark c = false := by
  simp only [isBlank, Bool.or_eq_true, beq_iff_eq] at h
  rcases h with (rfl | rfl) | rfl <;> rfl

theorem unescape_eq_some {bytes : Bytes} (h : unescape c = some bytes) :
    bytes.length ≤ 1 ∧ bytes.countP isMark = 0 ∧ isMark c = false := by
  rw [unescape] at h
  split_ifs at h <;> cases h <;> subst c <;> decide

/-- The value goes on below the line: `value` ends in a backslash that is not itself escaped. -/
def GoesOn (out pending value tail : Bytes) (result : Bytes × Bytes) : Prop :=
  ∃ front out' quoted', value = front ++ [backslash] ∧
    out'.length < out.length + pending.length + value.length ∧
    out.countP isMark + value.countP isMark ≤ out'.countP isMark ∧
    parseValue out' [] quoted' tail = .ok result

/-- A value comes out shorter than it was, or plain, or it goes on below the line. -/
def ComesOut (out pending : Bytes) (quoted : Bool) (value tail o r : Bytes) : Prop :=
  (o.length ≤ out.length + pending.length + value.length ∧
    (o.length = out.length + pending.length + value.length →
      quoted = false ∧ PlainFrom out pending value)) ∨
  GoesOn out pending value tail (o, r)

section

variable {out' pending' value tail : Bytes} {quoted' : Bool} {result : Bytes × Bytes}

theorem GoesOn.append (front : Bytes) (h : GoesOn out' pending' value tail result)
    (hlength : out'.length + pending'.length ≤ out.length + pending.length + front.length)
    (hmarks : out.countP isMark + front.countP isMark ≤ out'.countP isMark) :
    GoesOn out pending (front ++ value) tail result := by
  obtain ⟨front', out₁, quoted₁, rfl, hshorter, hcount, hparse⟩ := h
  refine ⟨front ++ front', out₁, quoted₁, (append_assoc _ _ _).symm, ?_, ?_, hparse⟩
  · rw [length_append]
    omega
  · rw [countP_append]
    omega

/-- A step that makes a value shorter. -/
theorem ComesOut.append_of_lt (front : Bytes) (h : ComesOut out' pending' quoted' value tail o r)
    (hlength : out'.length + pending'.length < out.length + pending.length + front.length)
    (hmarks : out.countP isMark + front.countP isMark ≤ out'.countP isMark) :
    ComesOut out pending quoted (front ++ value) tail o r := by
  rcases h with ⟨hle, -⟩ | h
  · refine .inl ⟨?_, fun heq => ?_⟩ <;> rw [length_append] at *
    · omega
    · omega
  · exact .inr (h.append front (Nat.le_of_lt hlength) hmarks)

end

theorem PlainFrom.cons {value : Bytes} (hs : isSpecial c = false) (hb : isBlank c = false)
    (h : PlainFrom (out ++ pending ++ [c]) [] value) (hout : out = [] → pending = []) :
    PlainFrom out pending (c :: value) where
  special b hmem := by
    rcases mem_cons.mp hmem with rfl | hmem
    · exact hs
    · exact h.special b hmem
  head hnil := by
    refine ⟨hout hnil, fun b hmem => ?_⟩
    cases hmem
    exact hb
  last b hmem := by
    rw [getLast?_cons] at hmem
    cases hvalue : value.getLast? with
    | none =>
      rw [hvalue] at hmem
      cases hmem
      exact hb
    | some b' =>
      rw [hvalue] at hmem
      cases hmem
      exact h.last b' hvalue
  waits := nofun

theorem PlainFrom.cons_blank {value : Bytes} (hb : isBlank c = true) (hout : out ≠ [])
    (h : PlainFrom out (pending ++ [c]) value) : PlainFrom out pending (c :: value) where
  special b hmem := by
    rcases mem_cons.mp hmem with rfl | hmem
    · exact not_special_of_isBlank hb
    · exact h.special b hmem
  head hnil := absurd hnil hout
  last b hmem := by
    have hvalue : value ≠ [] := by
      intro hvalue
      have hwaits := h.waits hvalue
      simp at hwaits
    rw [getLast?_cons] at hmem
    cases hlast : value.getLast? with
    | none => exact absurd (getLast?_eq_none_iff.mp hlast) hvalue
    | some b' =>
      rw [hlast] at hmem
      cases hmem
      exact h.last b' hlast
  waits := nofun

/-- **What a value comes out as.** -/
theorem parseValue_cases {value tail data : Bytes} (hout : out = [] → pending = [])
    (hdata : data = value ++ newline :: tail) (h : parseValue out pending quoted data = .ok (o, r)) :
    ComesOut out pending quoted value tail o r := by
  fun_induction parseValue out pending quoted data generalizing value with
  | case1 => simp at hdata
  | case2 out pending quoted rest =>
    obtain ⟨rfl, rfl, rfl⟩ := endValue_eq_ok h
    refine .inl ⟨by omega, fun hlength => ⟨rfl, ?_⟩⟩
    have hpending : pending = [] := length_eq_zero_iff.mp (by omega)
    have hvalue : value = [] := length_eq_zero_iff.mp (by omega)
    subst hvalue hpending
    exact ⟨by simp, fun _ => ⟨rfl, by simp⟩, by simp, fun _ => rfl⟩
  | case3 out pending quoted c rest hc hcomment =>
    obtain ⟨rfl, -, -⟩ := endValue_eq_ok h
    cases value with
    | nil =>
      cases hdata
      exact absurd rfl hc
    | cons c value =>
      refine .inl ⟨?_, fun hlength => ?_⟩
      · rw [length_cons]
        omega
      · rw [length_cons] at hlength
        omega
  | case4 out pending quoted c rest hc hcomment hblank ih =>
    obtain ⟨hb, hquoted⟩ : isBlank c = true ∧ quoted = false := by simpa using hblank
    subst hquoted
    cases value with
    | nil =>
      cases hdata
      exact absurd rfl hc
    | cons c value =>
      cases hdata
      have hmark : isMark c = false := not_mark_of_isBlank hb
      by_cases hnil : out = []
      · have hpending := hout hnil
        subst hnil hpending
        refine (ih (fun _ => rfl) rfl h).append_of_lt [c] ?_ ?_
        · simp
        · simp [hmark]
      · rw [if_neg hnil] at ih h
        rcases ih (fun h => absurd h hnil) rfl h with ⟨hle, hplain⟩ | hgoes
        · rw [length_append, length_singleton] at hle hplain
          refine .inl ⟨?_, fun hlength => ⟨rfl, ?_⟩⟩
          · rw [length_cons]
            omega
          · rw [length_cons] at hlength
            exact (hplain (by omega)).2.cons_blank hb hnil
        · refine .inr (hgoes.append [c] ?_ ?_)
          · rw [length_append]
            omega
          · simp [hmark]
  | case5 out pending quoted rest hc hcomment hblank ih =>
    cases value with
    | nil => cases hdata
    | cons c value =>
      cases hdata
      refine (ih (fun _ => rfl) rfl h).append_of_lt [quote] ?_ ?_
      · simp
      · rw [countP_append]
        exact Nat.add_le_add_left (Nat.zero_le _) _
  | case6 => cases h
  | case7 => cases h
  | case8 out pending quoted esc rest bytes hbytes _ _ _ _ ih =>
    obtain ⟨hshort, hmarks, hesc⟩ := unescape_eq_some hbytes
    cases value with
    | nil => cases hdata
    | cons c value =>
      cases value with
      | nil =>
        cases hdata
        cases hbytes
        refine .inr ⟨[], out ++ pending ++ [], quoted, rfl, ?_, ?_, h⟩
        · simp
        · simp only [countP_append]
          exact Nat.le_add_right _ _
      | cons c value =>
        cases hdata
        refine (ih (fun _ => rfl) rfl h).append_of_lt [backslash, esc] ?_ ?_
        · simp only [length_append, length_cons, length_nil]
          omega
        · have hback : isMark backslash = false := rfl
          simp [hback, hesc]
  | case9 out pending quoted c rest hc hcomment hblank hquote hbackslash ih =>
    cases value with
    | nil =>
      cases hdata
      exact absurd rfl hc
    | cons c value =>
      cases hdata
      rcases ih (fun _ => rfl) rfl h with ⟨hle, hplain⟩ | hgoes
      · simp only [length_append, length_singleton, length_nil] at hle hplain
        refine .inl ⟨?_, fun hlength => ?_⟩
        · rw [length_cons]
          omega
        · rw [length_cons] at hlength
          obtain ⟨hquoted, hrest⟩ := hplain (by omega)
          subst hquoted
          have hs : isSpecial c = false := by
            simpa [isSpecial, hc, hquote, hbackslash] using hcomment
          have hb : isBlank c = false := by simpa using hblank
          exact ⟨rfl, hrest.cons hs hb hout⟩
      · refine .inr (hgoes.append [c] ?_ ?_)
        · simp [Nat.add_assoc]
        · simp [countP_append]

/-- What has come out stays. -/
theorem marks_le_of_parseValue {data : Bytes} (h : parseValue out pending quoted data = .ok (o, r)) :
    out.countP isMark ≤ o.countP isMark := by
  fun_induction parseValue out pending quoted data with
  | case1 => exact Nat.le_of_eq (by rw [(endValue_eq_ok h).1])
  | case2 => exact Nat.le_of_eq (by rw [(endValue_eq_ok h).1])
  | case3 => exact Nat.le_of_eq (by rw [(endValue_eq_ok h).1])
  | case4 out pending quoted c rest _ _ _ ih => exact ih h
  | case5 out pending quoted rest _ _ _ ih =>
    refine Nat.le_trans ?_ (ih h)
    rw [countP_append]
    exact Nat.le_add_right _ _
  | case6 => cases h
  | case7 => cases h
  | case8 out pending quoted esc rest bytes _ _ _ _ _ ih =>
    refine Nat.le_trans ?_ (ih h)
    rw [append_assoc, countP_append]
    exact Nat.le_add_right _ _
  | case9 out pending quoted c rest _ _ _ _ _ ih =>
    refine Nat.le_trans ?_ (ih h)
    rw [append_assoc, countP_append]
    exact Nat.le_add_right _ _

/-- Bytes without a special meaning come out. -/
theorem marks_of_ordinary (front : Bytes) {rest : Bytes} (hs : ∀ b ∈ front, isSpecial b = false)
    (h : parseValue out pending quoted (front ++ rest) = .ok (o, r)) :
    out.countP isMark + front.countP isMark ≤ o.countP isMark := by
  induction front generalizing out pending with
  | nil => exact marks_le_of_parseValue h
  | cons c front ih =>
    have hc := hs c mem_cons_self
    have hfront : ∀ b ∈ front, isSpecial b = false := fun b hb => hs b (mem_cons_of_mem c hb)
    -- a blank may be dropped, but it is no mark
    have hstep : ∀ {out' pending'}, out.countP isMark + [c].countP isMark ≤ out'.countP isMark →
        parseValue out' pending' quoted (front ++ rest) = .ok (o, r) →
        out.countP isMark + (c :: front).countP isMark ≤ o.countP isMark := by
      intro out' pending' hmarks h
      have hrest := ih hfront h
      have hcons : (c :: front).countP isMark = [c].countP isMark + front.countP isMark := by
        rw [← countP_append]
        rfl
      omega
    have hsnoc : out.countP isMark + [c].countP isMark ≤ (out ++ pending ++ [c]).countP isMark := by
      rw [countP_append, countP_append]
      omega
    rw [cons_append] at h
    cases hb : isBlank c with
    | false =>
      rw [parseValue_ordinary _ hc hb] at h
      exact hstep hsnoc h
    | true =>
      cases quoted with
      | true =>
        rw [parseValue_quoted_blank _ hc] at h
        exact hstep hsnoc h
      | false =>
        rw [parseValue_blank _ hc hb] at h
        refine hstep ?_ h
        simp [not_mark_of_isBlank hb]

/-- A word comes out as it stands. -/
theorem parseValue_word {word : Bytes} (hne : word ≠ [])
    (hs : ∀ b ∈ word, isSpecial b = false ∧ isBlank b = false) :
    parseValue out pending quoted (word ++ rest) = parseValue (out ++ pending ++ word) [] quoted rest := by
  induction word generalizing out pending with
  | nil => exact absurd rfl hne
  | cons c word ih =>
    obtain ⟨hc, hb⟩ := hs c mem_cons_self
    rw [cons_append, parseValue_ordinary _ hc hb]
    cases word with
    | nil => rfl
    | cons c' word =>
      rw [ih (cons_ne_nil _ _) fun b hb => hs b (mem_cons_of_mem c hb)]
      simp

theorem isLowerKeyByte_of_lower {b : UInt8} (h : (0x61 ≤ b && b ≤ 0x7a) = true) :
    isLowerKeyByte b = true := by
  rw [isLowerKeyByte, h]
  rfl

theorem word_of_isLowerKeyByte {b : UInt8} (h : isLowerKeyByte b = true) :
    isSpecial b = false ∧ isBlank b = false := by
  grind [isLowerKeyByte, isSpecial, isBlank, beginsComment, newline, quote, backslash]

theorem ValidKey.keyBytes {key : String} (h : ValidKey key) :
    utf8 key ≠ [] ∧ ∀ b ∈ utf8 key, isLowerKeyByte b = true := by
  obtain ⟨first, rest, hkey, hfirst, hrest⟩ := h
  rw [hkey]
  refine ⟨cons_ne_nil _ _, fun b hb => ?_⟩
  rcases mem_cons.mp hb with rfl | hb
  · exact isLowerKeyByte_of_lower hfirst
  · exact hrest b hb

/-- What stands below a value: nothing, a header, a variable with a value, or one without. -/
inductive Follows : Bytes → Prop
  | nothing : Follows []
  | header (rest : Bytes) : Follows (0x5b :: rest)
  | assigned (key : String) (rest : Bytes) (h : ValidKey key) :
    Follows (tab :: utf8 key ++ space :: 0x3d :: rest)
  | named (key : String) (rest : Bytes) (h : ValidKey key) :
    Follows (tab :: utf8 key ++ newline :: rest)

/-- No value goes on below its line and comes out as it stands. -/
theorem not_goesOn {value tail : Bytes} (hfollows : Follows tail)
    (h : GoesOn [] [] value tail (value, r)) : False := by
  obtain ⟨front, out', quoted', hvalue, hlength, hmarks, hparse⟩ := h
  rw [countP_nil, Nat.zero_add] at hmarks
  cases hfollows with
  | nothing =>
    rw [parseValue.eq_def] at hparse
    obtain ⟨rfl, -, -⟩ := endValue_eq_ok hparse
    simp at hlength
  | header rest =>
    have hmore := marks_of_ordinary [0x5b] (fun b hb => by
      rw [mem_singleton.mp hb]
      rfl) hparse
    have hmark : [(0x5b : UInt8)].countP isMark = 1 := rfl
    omega
  | assigned key rest hkey =>
    have hsign : ∀ b ∈ [space, 0x3d], isSpecial b = false := by
      intro b hb
      simp only [mem_cons, not_mem_nil, or_false] at hb
      rcases hb with rfl | rfl <;> rfl
    have hspecial : ∀ b ∈ tab :: utf8 key ++ [space, 0x3d], isSpecial b = false := by
      intro b hb
      rcases mem_cons.mp hb with rfl | hb
      · rfl
      · rcases mem_append.mp hb with hb | hb
        · exact (word_of_isLowerKeyByte (hkey.keyBytes.2 b hb)).1
        · exact hsign b hb
    have hmore := marks_of_ordinary (tab :: utf8 key ++ [space, 0x3d]) hspecial
      (show parseValue out' [] quoted' ((tab :: utf8 key ++ [space, 0x3d]) ++ rest) = _ by simpa using hparse)
    have hmark : 0 < (tab :: utf8 key ++ [space, 0x3d]).countP isMark :=
      countP_pos_iff.mpr ⟨0x3d, by simp, rfl⟩
    omega
  | named key rest hkey =>
    obtain ⟨hne, hbytes⟩ := hkey.keyBytes
    have hword := fun b hb => word_of_isLowerKeyByte (hbytes b hb)
    -- the blank in front of the key comes out, waits, or is dropped; the key comes out last
    obtain ⟨out₁, hout₁⟩ : ∃ out₁, value = out₁ ++ utf8 key := by
      rw [cons_append] at hparse
      cases quoted' with
      | true =>
        rw [parseValue_quoted_blank _ rfl, parseValue_word _ hne hword, parseValue_newline] at hparse
        exact ⟨_, (endValue_eq_ok hparse).1⟩
      | false =>
        rw [parseValue_blank _ rfl rfl, parseValue_word _ hne hword, parseValue_newline] at hparse
        exact ⟨_, (endValue_eq_ok hparse).1⟩
    have hlast : backslash ∈ utf8 key := by
      have heq := congrArg List.getLast? (hvalue.symm.trans hout₁)
      rw [getLast?_append, getLast?_append] at heq
      simp only [getLast?_singleton, Option.some_or] at heq
      rw [getLast?_eq_some_getLast hne, Option.some_or, Option.some.injEq] at heq
      rw [heq]
      exact getLast_mem hne
    exact absurd (hbytes _ hlast) (by decide)

/-- **A value that comes out as it stands is plain.** -/
theorem plain_of_parseValue {value tail : Bytes} (hfollows : Follows tail)
    (h : parseValue [] [] false (value ++ newline :: tail) = .ok (value, r)) : PlainValue value := by
  rcases parseValue_cases (fun _ => rfl) rfl h with ⟨-, hplain⟩ | hgoes
  · obtain ⟨-, hplain⟩ := hplain (by simp)
    exact ⟨hplain.special, (hplain.head rfl).2, hplain.last⟩
  · exact (not_goesOn hfollows hgoes).elim

theorem PlainValue.plainFrom {value : Bytes} (h : PlainValue value) : PlainFrom [] [] value :=
  ⟨h.special, fun _ => ⟨rfl, h.head⟩, h.last, fun _ => rfl⟩

end

/-! ### Headers and variables -/

section

variable {ctx : Option SectionCtx} {sect key : String} {sub : Bytes}

/-- Blanks and line ends in front do not matter. -/
theorem parseFrom_congr {data data' : Bytes} (h : skipGap false data = skipGap false data') :
    parseFrom ctx data = parseFrom ctx data' := by
  cases hgap : skipGap false data' with
  | nil => rw [parseFrom_end hgap, parseFrom_end (h.trans hgap)]
  | cons c rest =>
    by_cases hc : c = 0x5b
    · subst hc
      rw [parseFrom_header hgap, parseFrom_header (h.trans hgap)]
    · cases ctx with
      | none => rw [parseFrom_none hgap hc, parseFrom_none (h.trans hgap) hc]
      | some here => rw [parseFrom_variable hgap hc, parseFrom_variable (h.trans hgap) hc]

variable (rest : Bytes)

theorem parseFrom_newline : parseFrom ctx (newline :: rest) = parseFrom ctx rest :=
  parseFrom_congr rfl

variable {b : UInt8}

theorem sectionByte_eq (h : isSectionByte b = true) :
    b ≠ 0x5d ∧ isInlineWs b = false ∧ (isAlnum b || b == 0x2d || b == 0x2e) = true ∧ toLower b = b := by
  grind [isSectionByte, isInlineWs, isAlnum, isAlpha, isUpper, toLower]

theorem parseSectionHeader_name {front : Bytes} (name rest : Bytes)
    (h : ∀ b ∈ front, isSectionByte b = true) :
    parseSectionHeader name (front ++ rest) = parseSectionHeader (name ++ front) rest := by
  induction front generalizing name with
  | nil => rw [nil_append, append_nil]
  | cons c front ih =>
    obtain ⟨hend, hws, hname, -⟩ := sectionByte_eq (h c mem_cons_self)
    rw [cons_append, parseSectionHeader, if_neg hend, hws, if_neg Bool.false_ne_true, if_pos hname,
      ih _ fun b hb => h b (mem_cons_of_mem c hb), append_assoc, singleton_append]

theorem map_toLower_section (h : ∀ b ∈ utf8 sect, isSectionByte b = true) :
    (utf8 sect).map toLower = utf8 sect :=
  (map_congr_left fun b hb => (sectionByte_eq (h b hb)).2.2.2).trans (map_id _)

theorem sectionText_utf8 (sect : String) : sectionText (utf8 sect) = .ok sect := by
  rw [sectionText, fromUtf8_utf8]

/-- What was escaped is read back, unless a line ends in it. -/
theorem parseSubsection_escapeBytes (x front rest : Bytes) :
    parseSubsection front (escapeBytes x ++ quote :: rest) =
      if newline ∈ x then .error "newline in subsection" else .ok (front ++ x, rest) := by
  induction x generalizing front with
  | nil =>
    rw [if_neg not_mem_nil, append_nil]
    exact parseSubsection.eq_def front (quote :: rest)
  | cons c x ih =>
    have hcons : escapeBytes (c :: x) ++ quote :: rest =
        (if c = backslash ∨ c = quote then [backslash, c] else [c]) ++
          (escapeBytes x ++ quote :: rest) := by
      rw [escapeBytes, flatMap_cons, append_assoc]
      rfl
    rw [hcons]
    by_cases hescape : c = backslash ∨ c = quote
    · have hline : newline ≠ c := by
        rintro rfl
        exact absurd hescape (by decide)
      rw [if_pos hescape]
      have hstep : parseSubsection front ([backslash, c] ++ (escapeBytes x ++ quote :: rest)) =
          parseSubsection (front ++ [c]) (escapeBytes x ++ quote :: rest) := rfl
      rw [hstep, ih]
      simp [hline]
    · rw [if_neg hescape, singleton_append, parseSubsection.eq_def]
      obtain ⟨hbackslash, hquote⟩ := not_or.mp hescape
      by_cases hline : c = newline
      · subst hline
        simp [hbackslash, hquote]
      · have hline' : newline ≠ c := fun h => hline h.symm
        simp [hbackslash, hquote, hline, hline', ih]

theorem skipGap_header : skipGap false (0x5b :: rest) = 0x5b :: rest := rfl

theorem parseFrom_headerLine_none (h : ValidSection sect none) :
    parseFrom ctx (headerLine (sect, none) ++ rest) = parseFrom (some (sect, none)) rest := by
  have hheader : parseSectionHeader [] (utf8 sect ++ 0x5d :: newline :: rest) =
      .ok ((sect, none), newline :: rest) := by
    rw [parseSectionHeader_name [] _ h.1, nil_append, parseSectionHeader, if_pos rfl, plainHeader,
      map_toLower_section h.1, splitFirst_eq_none.mpr (h.2 rfl)]
    dsimp only
    rw [sectionText_utf8]
    rfl
  have hline : headerLine (sect, none) ++ rest = 0x5b :: (utf8 sect ++ 0x5d :: newline :: rest) := by
    simp [headerLine]
  rw [hline, parseFrom_header (skipGap_header _), hheader]
  exact parseFrom_newline rest

theorem parseFrom_headerLine_some (h : ValidSection sect (some sub)) :
    parseFrom ctx (headerLine (sect, some sub) ++ rest) =
      if newline ∈ lossy sub then .error "newline in subsection"
      else parseFrom (some (sect, some (lossy sub))) rest := by
  have hquoted : quotedHeader (utf8 sect)
      (quote :: (escapeSubsection sub ++ quote :: 0x5d :: newline :: rest)) =
      if newline ∈ lossy sub then .error "newline in subsection"
      else .ok ((sect, some (lossy sub)), newline :: rest) := by
    have hskip : ∀ x, skipInlineWs (quote :: x) = 0x22 :: x := fun x => rfl
    rw [quotedHeader, hskip, escapeSubsection]
    simp only [parseSubsection_escapeBytes, nil_append]
    by_cases hnewline : newline ∈ lossy sub
    · rw [if_pos hnewline, if_pos hnewline]
    · rw [if_neg hnewline, if_neg hnewline, map_toLower_section h.1, sectionText_utf8]
      rfl
  have hheader : parseSectionHeader [] (utf8 sect ++
      space :: quote :: (escapeSubsection sub ++ quote :: 0x5d :: newline :: rest)) =
      if newline ∈ lossy sub then .error "newline in subsection"
      else .ok ((sect, some (lossy sub)), newline :: rest) := by
    rw [parseSectionHeader_name [] _ h.1, nil_append, ← hquoted, parseSectionHeader]
    rfl
  have hline : headerLine (sect, some sub) ++ rest = 0x5b :: (utf8 sect ++
      space :: quote :: (escapeSubsection sub ++ quote :: 0x5d :: newline :: rest)) := by
    simp [headerLine]
  rw [hline, parseFrom_header (skipGap_header _), hheader]
  by_cases hnewline : newline ∈ lossy sub
  · rw [if_pos hnewline, if_pos hnewline]
  · rw [if_neg hnewline, if_neg hnewline]
    exact parseFrom_newline rest

theorem lowerKeyByte_eq (h : isLowerKeyByte b = true) :
    isKeyByte b = true ∧ toLower b = b := by
  grind [isLowerKeyByte, isKeyByte, isAlnum, isAlpha, isUpper, toLower]

theorem lower_eq (h : (0x61 ≤ b && b ≤ 0x7a) = true) :
    isAlpha b = true ∧ isBlank b = false ∧ b ≠ newline ∧ beginsComment b = false ∧ b ≠ 0x5b := by
  grind [isAlpha, isBlank, newline, beginsComment]

/-- A variable whose name is valid, with what stands behind the name. -/
theorem parseFrom_name {here : SectionCtx} {c : UInt8} (hkey : ValidKey key)
    (hc : isKeyByte c = false) :
    parseFrom (some here) (tab :: utf8 key ++ c :: rest) =
      match parseTail key (skipInlineWs (c :: rest)) with
      | .error e => .error e
      | .ok ((key, value), rest') =>
        match parseFrom (some here) rest' with
        | .error e => .error e
        | .ok entries => .ok (⟨here.1, here.2, key, value⟩ :: entries) := by
  have hbytes := hkey.keyBytes.2
  obtain ⟨first, name, hname, hfirst, hrest⟩ := hkey
  obtain ⟨halpha, hblank, hline, hcomment, hheader⟩ := lower_eq hfirst
  have hgap : skipGap false (tab :: utf8 key ++ c :: rest) = first :: (name ++ c :: rest) := by
    have htab : skipGap false (tab :: utf8 key ++ c :: rest) = skipGap false (utf8 key ++ c :: rest) := rfl
    rw [htab, hname, cons_append, skipGap, hcomment]
    simp [hblank, hline]
  have hword : ∀ b ∈ name, isKeyByte b = true := fun b hb => (lowerKeyByte_eq (hrest b hb)).1
  have htake : (name ++ c :: rest).takeWhile isKeyByte = name := by
    rw [takeWhile_append_of_pos hword, takeWhile_cons_of_neg (by simp [hc]), append_nil]
  have hdrop : (name ++ c :: rest).dropWhile isKeyByte = c :: rest := by
    rw [dropWhile_append_of_pos hword, dropWhile_cons_of_neg (by simp [hc])]
  have hlower : (utf8 key).map toLower = utf8 key :=
    (map_congr_left fun b hb => (lowerKeyByte_eq (hbytes b hb)).2).trans (map_id _)
  have hvar : parseVariable first (name ++ c :: rest) = parseTail key (skipInlineWs (c :: rest)) := by
    rw [parseVariable, halpha, htake, hdrop, ← hname, hlower, fromUtf8_utf8]
    rfl
  have hread : parseFrom (some here) (tab :: utf8 key ++ c :: rest) = _ := parseFrom_variable hgap hheader
  rw [hvar] at hread
  exact hread

theorem parseFrom_variableLine_none {here : SectionCtx} (hkey : ValidKey key) :
    parseFrom (some here) (variableLine key none ++ rest) =
      match parseFrom (some here) rest with
      | .error e => .error e
      | .ok entries => .ok (⟨here.1, here.2, key, none⟩ :: entries) := by
  have hline : variableLine key none ++ rest = tab :: utf8 key ++ newline :: rest := by
    simp [variableLine]
  have htail : parseTail key (skipInlineWs (newline :: rest)) = .ok ((key, none), newline :: rest) := rfl
  rw [hline, parseFrom_name rest hkey rfl, htail]
  dsimp only
  rw [parseFrom_newline]

theorem parseFrom_variableLine_some {here : SectionCtx} {value : Bytes} (hkey : ValidKey key) :
    parseFrom (some here) (variableLine key (some value) ++ rest) =
      match parseValue [] [] false (value ++ newline :: rest) with
      | .error e => .error e
      | .ok (value, rest') =>
        match parseFrom (some here) rest' with
        | .error e => .error e
        | .ok entries => .ok (⟨here.1, here.2, key, some value⟩ :: entries) := by
  have hline : variableLine key (some value) ++ rest =
      tab :: utf8 key ++ space :: (0x3d :: space :: (value ++ newline :: rest)) := by
    simp [variableLine]
  have htail : parseTail key (skipInlineWs (space :: 0x3d :: space :: (value ++ newline :: rest))) =
      parseValue [] [] false (value ++ newline :: rest) >>= fun p => pure ((key, some p.1), p.2) := by
    have hblank : parseValue [] [] false (space :: (value ++ newline :: rest)) =
        parseValue [] [] false (value ++ newline :: rest) := parseValue_blank _ rfl rfl
    rw [← hblank]
    rfl
  rw [hline, parseFrom_name _ hkey rfl, htail]
  cases parseValue [] [] false (value ++ newline :: rest) with
  | error e => rfl
  | ok result => rfl

end

/-! ### What is written, read back -/

section

variable {last ctx : Option SectionCtx} {here : SectionCtx} {e : Entry} {es : List Entry}

theorem follows_serializeFrom (h : ∀ e ∈ es, ValidKey e.key) :
    Follows (serializeFrom (some here) es) := by
  cases es with
  | nil => exact .nothing
  | cons e es =>
    have hkey := h e mem_cons_self
    rw [serializeFrom]
    split
    · cases hvalue : e.value with
      | none =>
        have hline := Follows.named e.key (serializeFrom (some e.ctx) es) hkey
        simpa [variableLine] using hline
      | some value =>
        have hline := Follows.assigned e.key
          (space :: value ++ newline :: serializeFrom (some e.ctx) es) hkey
        simpa [variableLine] using hline
    · cases hctx : e.ctx with
      | mk sect sub =>
        cases sub with
        | none => exact .header _
        | some sub => exact .header _

variable {rest : Bytes}

/-- The first variable of a section, read back without a value. -/
theorem of_parseFrom_none {key : String} (hkey : ValidKey key)
    (h : parseFrom (some here) (variableLine key none ++ rest) = .ok (e :: es)) :
    e.ctx = here ∧ parseFrom (some here) rest = .ok es := by
  rw [parseFrom_variableLine_none rest hkey] at h
  cases hrest : parseFrom (some here) rest with
  | error _ =>
    rw [hrest] at h
    cases h
  | ok entries =>
    rw [hrest] at h
    cases h
    exact ⟨rfl, rfl⟩

/-- The first variable of a section, read back with the value that was written. -/
theorem of_parseFrom_some {key : String} {value : Bytes} (hkey : ValidKey key)
    (hvalue : e.value = some value)
    (h : parseFrom (some here) (variableLine key (some value) ++ rest) = .ok (e :: es)) :
    e.ctx = here ∧ ∃ r, parseValue [] [] false (value ++ newline :: rest) = .ok (value, r) ∧
      parseFrom (some here) r = .ok es := by
  rw [parseFrom_variableLine_some rest hkey] at h
  cases hparse : parseValue [] [] false (value ++ newline :: rest) with
  | error _ =>
    rw [hparse] at h
    cases h
  | ok result =>
    rw [hparse] at h
    dsimp only at h
    split at h
    · cases h
    rename_i entries hrest
    cases h
    cases hvalue
    exact ⟨rfl, result.2, rfl, hrest⟩

theorem ctx_of_parseFrom {key : String} {value : Option Bytes} (hkey : ValidKey key)
    (hvalue : e.value = value)
    (h : parseFrom (some here) (variableLine key value ++ rest) = .ok (e :: es)) : e.ctx = here := by
  cases value with
  | none => exact (of_parseFrom_none hkey h).1
  | some value => exact (of_parseFrom_some hkey hvalue h).1

theorem parseFrom_headerLine (rest : Bytes) (h : WritableCtx here) :
    parseFrom ctx (headerLine here ++ rest) = parseFrom (some here) rest := by
  obtain ⟨sect, sub⟩ := here
  cases sub with
  | none => exact parseFrom_headerLine_none rest h.sect
  | some sub =>
    obtain ⟨htext, hline⟩ := h.subsection sub rfl
    have hlossy : lossy sub = sub := lossy_eq_self_iff.mpr htext
    rw [parseFrom_headerLine_some rest h.sect, hlossy, if_neg hline]

/-- A header that an entry is read below. -/
theorem writableCtx_of_parseFrom (hsect : ValidSection e.sect e.subsection) (hkey : ValidKey e.key)
    (h : parseFrom ctx (headerLine e.ctx ++ (variableLine e.key e.value ++ rest)) = .ok (e :: es)) :
    WritableCtx e.ctx := by
  refine ⟨hsect, fun sub hsub => ?_⟩
  have hsub : e.subsection = some sub := hsub
  rw [hsub] at hsect
  have hctx : e.ctx = (e.sect, some sub) := by rw [Entry.ctx, hsub]
  rw [hctx, parseFrom_headerLine_some _ hsect] at h
  split at h
  · cases h
  · rename_i hline
    have hlossy : lossy sub = sub := by
      have hread := ctx_of_parseFrom hkey rfl h
      rw [hctx] at hread
      exact Option.some.inj (congrArg Prod.snd hread).symm
    rw [hlossy] at hline
    exact ⟨lossy_eq_self_iff.mp hlossy, hline⟩

theorem parseFrom_serializeFrom_cons (h : WritableCtx e.ctx) :
    parseFrom last (serializeFrom last (e :: es)) =
      parseFrom (some e.ctx) (variableLine e.key e.value ++ serializeFrom (some e.ctx) es) := by
  rw [serializeFrom, append_assoc]
  split
  · rename_i hlast
    rw [hlast, nil_append]
  · exact parseFrom_headerLine _ h

/-- **What is written is read back** just if every entry can be written. -/
theorem parse_serialize_iff (hlast : ∀ here ∈ last, WritableCtx here) :
    parseFrom last (serializeFrom last es) = .ok es ↔ ∀ e ∈ es, Writable e := by
  induction es generalizing last with
  | nil => exact ⟨fun _ => nofun, fun _ => parseFrom_end rfl⟩
  | cons e es ih =>
    constructor
    · intro h
      have hvalid := valid_of_parseFrom (fun here hhere => (hlast here hhere).sect) h
      obtain ⟨hsect, hkey⟩ := hvalid e mem_cons_self
      have hctx : WritableCtx e.ctx := by
        by_cases heq : last = some e.ctx
        · exact hlast e.ctx heq
        · rw [serializeFrom, if_neg heq, append_assoc] at h
          exact writableCtx_of_parseFrom hsect hkey h
      rw [parseFrom_serializeFrom_cons hctx] at h
      have hrest : (∀ value ∈ e.value, PlainValue value) ∧
          parseFrom (some e.ctx) (serializeFrom (some e.ctx) es) = .ok es := by
        cases hvalue : e.value with
        | none =>
          rw [hvalue] at h
          exact ⟨nofun, (of_parseFrom_none hkey h).2⟩
        | some value =>
          rw [hvalue] at h
          obtain ⟨-, r, hparse, hread⟩ := of_parseFrom_some hkey hvalue h
          have hplain := plain_of_parseValue
            (follows_serializeFrom fun e' he' => (hvalid e' (mem_cons_of_mem e he')).2) hparse
          rw [parseValue_plain _ hplain.plainFrom] at hparse
          cases hparse
          refine ⟨fun value' hmem => ?_, ?_⟩
          · cases hmem
            exact hplain
          · rwa [parseFrom_newline] at hread
      rintro e' (_ | ⟨_, he'⟩)
      · exact ⟨hctx, hkey, hrest.1⟩
      · refine (ih fun here hhere => ?_).mp hrest.2 e' he'
        cases hhere
        exact hctx
    · intro h
      have he := h e mem_cons_self
      have hrest : parseFrom (some e.ctx) (serializeFrom (some e.ctx) es) = .ok es := by
        refine (ih fun here hhere => ?_).mpr fun e' he' => h e' (mem_cons_of_mem e he')
        cases hhere
        exact he.ctx
      rw [parseFrom_serializeFrom_cons he.ctx]
      cases hvalue : e.value with
      | none =>
        rw [parseFrom_variableLine_none _ he.key, hrest]
        dsimp only
        rw [← hvalue]
        rfl
      | some value =>
        rw [parseFrom_variableLine_some _ he.key, parseValue_plain _ (he.value value hvalue).plainFrom]
        dsimp only
        rw [parseFrom_newline, hrest]
        dsimp only
        rw [nil_append, nil_append, ← hvalue]
        rfl

end

/-! ### Edits -/

section

variable {toLowercase : String → String} {entries : List Entry} {key : Key}

/-- The entry that a set is for. -/
def Key.entry (key : Key) (value : Bytes) : Entry := ⟨key.sect, key.subsection, key.name, some value⟩

/-- A change that can be written: the other entries can, and the one that is set. -/
def Change.Safe (toLowercase : String → String) (entries : List Entry) : Change → Prop
  | .set name value => ∃ key, splitKey toLowercase name = .ok key ∧
    (∀ e ∈ entries, e.isAt key = false → Writable e) ∧ Writable (key.entry (utf8 value))
  | .unset name => ∃ key, splitKey toLowercase name = .ok key ∧
    ∀ e ∈ entries, e.isAt key = false → Writable e

theorem entry_of_isAt {e : Entry} (value : Bytes) (h : e.isAt key = true) :
    { e with value := some value } = key.entry value := by
  simp only [Entry.isAt, Bool.and_eq_true, beq_iff_eq] at h
  obtain ⟨⟨hsect, hsub⟩, hname⟩ := h
  rw [Key.entry, hsect, hsub, hname]

/-- After a set, there are the entries of other keys and the one that was set. -/
theorem mem_setEntries {value : Bytes} {e : Entry} :
    e ∈ setEntries key value entries ↔ (e ∈ entries ∧ e.isAt key = false) ∨ e = key.entry value := by
  have hself : (key.entry value).isAt key = true := by simp [Entry.isAt, Key.entry]
  rw [setEntries]
  split
  · rename_i hany
    obtain ⟨old, hold, hat⟩ := any_eq_true.mp hany
    rw [mem_map]
    constructor
    · rintro ⟨e', he', rfl⟩
      cases hat' : e'.isAt key with
      | true =>
        rw [if_pos rfl]
        exact .inr (entry_of_isAt value hat')
      | false =>
        rw [if_neg Bool.false_ne_true]
        exact .inl ⟨he', hat'⟩
    · rintro (⟨he, hother⟩ | rfl)
      · exact ⟨e, he, by rw [hother, if_neg Bool.false_ne_true]⟩
      · exact ⟨old, hold, by rw [if_pos hat, entry_of_isAt value hat]⟩
  · rename_i hnone
    have hother : ∀ e ∈ entries, e.isAt key = false := by simpa using hnone
    rw [mem_append, mem_singleton]
    exact ⟨fun h => h.imp (fun he => ⟨he, hother e he⟩) id, fun h => h.imp And.left id⟩

theorem mem_unsetEntries {e : Entry} :
    e ∈ unsetEntries key entries ↔ e ∈ entries ∧ e.isAt key = false := by
  simp [unsetEntries]

/-- A change is safe just if every entry after it can be written. -/
theorem safe_iff {change : Change} {entries' : List Entry}
    (h : change.apply toLowercase entries = .ok entries') :
    change.Safe toLowercase entries ↔ ∀ e ∈ entries', Writable e := by
  cases change with
  | set name value =>
    rw [Change.apply] at h
    obtain ⟨key, hkey, h⟩ := of_match_ok h
    cases h
    simp only [Change.Safe, hkey, Except.ok.injEq, exists_eq_left', mem_setEntries]
    constructor
    · rintro ⟨hothers, hset⟩ e (⟨he, hat⟩ | rfl)
      · exact hothers e he hat
      · exact hset
    · exact fun h => ⟨fun e he hat => h e (.inl ⟨he, hat⟩), h _ (.inr rfl)⟩
  | unset name =>
    rw [Change.apply] at h
    obtain ⟨key, hkey, h⟩ := of_match_ok h
    have hentries : unsetEntries key entries = entries' := by
      by_cases hsame : (unsetEntries key entries).length = entries.length
      · exact absurd h (by simp [bind, Except.bind, hsame])
      · simpa [bind, Except.bind, hsame] using h
    subst hentries
    simp only [Change.Safe, hkey, Except.ok.injEq, exists_eq_left', mem_unsetEntries, and_imp]

/-- **Editing a key** leaves the other entries alone, and sets its own, just if the change is safe:
the file is read back as the entries that the change was to give. -/
theorem config_edit_iff {file : Option Bytes} {change : Change} {file' : Bytes}
    (h : edit toLowercase file change = .ok file') :
    ∃ entries entries', currentEntries file = .ok entries ∧
      change.apply toLowercase entries = .ok entries' ∧
      (parseFile file' = .ok entries' ↔ change.Safe toLowercase entries) := by
  rw [edit] at h
  cases hentries : currentEntries file with
  | error _ =>
    rw [hentries] at h
    cases h
  | ok entries =>
    rw [hentries] at h
    cases hentries' : change.apply toLowercase entries with
    | error _ => simp [bind, Except.bind, hentries'] at h
    | ok entries' =>
      have hfile : serializeEntries entries' = file' := by
        simpa [bind, Except.bind, pure, Except.pure, hentries'] using h
      refine ⟨entries, entries', rfl, hentries', ?_⟩
      rw [safe_iff hentries', ← hfile]
      exact parse_serialize_iff nofun

end

/-- A file with a plain value, and a second one set. -/
theorem config_edit_iff_plain :
    edit String.toLower (some (utf8 "[a]\n\tx = 1\n")) (.set "a.y" "3") =
      .ok (utf8 "[a]\n\tx = 1\n\ty = 3\n") ∧
    ∃ entries entries', currentEntries (some (utf8 "[a]\n\tx = 1\n")) = .ok entries ∧
      (Change.set "a.y" "3").apply String.toLower entries = .ok entries' ∧
      (parseFile (utf8 "[a]\n\tx = 1\n\ty = 3\n") = .ok entries' ↔
        (Change.set "a.y" "3").Safe String.toLower entries) :=
  have h : edit String.toLower (some (utf8 "[a]\n\tx = 1\n")) (.set "a.y" "3") =
      .ok (utf8 "[a]\n\tx = 1\n\ty = 3\n") := by decide +kernel
  ⟨h, config_edit_iff h⟩

/-- A value between quotes loses them to the edit of another key, and what follows its `;`. -/
theorem quoted_value_is_cut :
    edit String.toLower (some (utf8 "[a]\n\tx = \"1;2\"\n")) (.set "a.y" "3") =
      .ok (utf8 "[a]\n\tx = 1;2\n\ty = 3\n") ∧
    parseFile (utf8 "[a]\n\tx = \"1;2\"\n") = .ok [⟨"a", none, "x", some (utf8 "1;2")⟩] ∧
    parseFile (utf8 "[a]\n\tx = 1;2\n\ty = 3\n") =
      .ok [⟨"a", none, "x", some (utf8 "1")⟩, ⟨"a", none, "y", some (utf8 "3")⟩] :=
  ⟨by decide +kernel, by decide +kernel, by decide +kernel⟩

end Alt.GitConfig
