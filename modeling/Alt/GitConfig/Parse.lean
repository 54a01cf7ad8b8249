import Alt.Library.Bytes

namespace Alt.GitConfig

open Alt.Library List

/-!
# Reading a config file (`alt-git-config/src/parse.rs`)

The syntax of one file: section headers, variables, and values with quotes, escapes, comments and
blanks.  Each parser takes what is left of the file and gives what it read and what is left then.

* `parseValue` — the value of a variable, byte by byte;
* `parseFile` — the entries of a file in their order;
* `valid_of_parseFile` — sections and keys that were read have only letters, digits, `-` and dots.
-/

/-- `ConfigError::Syntax`. -/
abbrev ConfigError := String

/-- One configuration line, fully qualified. -/
structure Entry where
  sect : String
  subsection : Option Bytes
  key : String
  /-- `none` for a variable without `=`. -/
  value : Option Bytes
  deriving DecidableEq

/-- The section that the variables below a header belong to. -/
abbrev SectionCtx := String × Option Bytes

def Entry.ctx (e : Entry) : SectionCtx := (e.sect, e.subsection)

/-! ### Bytes -/

def newline : UInt8 := 0x0a

def space : UInt8 := 0x20

def tab : UInt8 := 0x09

def quote : UInt8 := 0x22

def backslash : UInt8 := 0x5c

/-- A blank within a line. -/
def isInlineWs (c : UInt8) : Bool := c == 0x20 || c == 0x09

/-- A blank of a value. -/
def isBlank (c : UInt8) : Bool := c == 0x20 || c == 0x09 || c == 0x0d

/-- `#` and `;`. -/
def beginsComment (c : UInt8) : Bool := c == 0x23 || c == 0x3b

def isUpper (c : UInt8) : Bool := 0x41 ≤ c && c ≤ 0x5a

def isAlpha (c : UInt8) : Bool := isUpper c || (0x61 ≤ c && c ≤ 0x7a)

def isAlnum (c : UInt8) : Bool := isAlpha c || (0x30 ≤ c && c ≤ 0x39)

def toLower (c : UInt8) : UInt8 := if isUpper c then c + 0x20 else c

/-! ### Headers -/

/-- Skips comments, blanks and line ends; within a comment, everything to the line's end. -/
def skipGap : Bool → Bytes → Bytes
  | _, [] => []
  | true, c :: rest => if c = newline then skipGap false rest else skipGap true rest
  | false, c :: rest =>
    if isBlank c || c == newline then skipGap false rest
    else if beginsComment c then skipGap true rest
    else c :: rest

def skipInlineWs (data : Bytes) : Bytes := data.dropWhile isInlineWs

/-- Up to the quote that ends a subsection. -/
def parseSubsection (sub : Bytes) : Bytes → Except ConfigError (Bytes × Bytes)
  | [] => .error "unterminated subsection"
  | c :: rest =>
    if c = quote then .ok (sub, rest)
    else if c = backslash then
      match rest with
      | [] => .error "unterminated subsection"
      | d :: rest => parseSubsection (sub ++ [d]) rest
    else if c = newline then .error "newline in subsection"
    else parseSubsection (sub ++ [c]) rest

/-- The text of a section name, which is ASCII. -/
def sectionText (name : Bytes) : Except ConfigError String :=
  match fromUtf8 name with
  | some text => .ok text
  | none => .error "non-ascii section name"

/-- `[section]`, or `[section.subsection]` as it was written once. -/
def plainHeader (name : Bytes) : Except ConfigError SectionCtx :=
  match splitFirst 0x2e (name.map toLower) with
  | some (front, sub) => do return (← sectionText front, some sub)
  | none => do return (← sectionText (name.map toLower), none)

/-- `[section "subsection"]`, from behind the blank. -/
def quotedHeader (name rest : Bytes) : Except ConfigError (SectionCtx × Bytes) :=
  match skipInlineWs rest with
  | 0x22 :: rest =>
    match parseSubsection [] rest with
    | .error e => .error e
    | .ok (sub, rest) =>
      match skipInlineWs rest with
      | 0x5d :: rest => do return ((← sectionText (name.map toLower), some sub), rest)
      | _ => .error "expected ] after subsection"
  | _ => .error "expected quoted subsection"

/-- A section header, from behind the bracket. -/
def parseSectionHeader (name : Bytes) : Bytes → Except ConfigError (SectionCtx × Bytes)
  | [] => .error "unterminated section header"
  | c :: rest =>
    if c = 0x5d then do return (← plainHeader name, rest)
    else if isInlineWs c then quotedHeader name rest
    else if isAlnum c || c == 0x2d || c == 0x2e then parseSectionHeader (name ++ [c]) rest
    else .error "invalid section name character"

/-! ### Variables -/

/-- What an escape in a value stands for; `none` behind a backslash that escapes nothing. -/
def unescape (c : UInt8) : Option Bytes :=
  if c = newline then some [] -- the line goes on
  else if c = 0x6e then some [newline]
  else if c = 0x74 then some [tab]
  else if c = 0x62 then some [0x08]
  else if c = quote then some [quote]
  else if c = backslash then some [backslash]
  else none

/-- The end of a value, which no quote may be open at. -/
def endValue (out : Bytes) (quoted : Bool) (rest : Bytes) : Except ConfigError (Bytes × Bytes) :=
  if quoted then .error "unterminated quote in value" else .ok (out, rest)

/-- A value: what is out, the blanks that wait for something to follow, and whether a quote is open. -/
def parseValue (out pending : Bytes) (quoted : Bool) : Bytes → Except ConfigError (Bytes × Bytes)
  | [] => endValue out quoted []
  | c :: rest =>
    if c = newline then endValue out quoted (c :: rest)
    else if beginsComment c && !quoted then endValue out quoted (rest.dropWhile (· != newline))
    else if isBlank c && !quoted then
      parseValue out (if out = [] then pending else pending ++ [c]) quoted rest
    else if c = quote then parseValue (out ++ pending) [] (!quoted) rest
    else if c = backslash then
      match rest with
      | [] => .error "dangling backslash in value"
      | esc :: rest =>
        match unescape esc with
        | none => .error "invalid escape in value"
        | some bytes => parseValue (out ++ pending ++ bytes) [] quoted rest
    else parseValue (out ++ pending ++ [c]) [] quoted rest

def isKeyByte (c : UInt8) : Bool := isAlnum c || c == 0x2d

/-- What stands behind a variable's name. -/
def parseTail (key : String) : Bytes → Except ConfigError ((String × Option Bytes) × Bytes)
  | [] => .ok ((key, none), [])
  | c :: rest =>
    if c = newline then .ok ((key, none), c :: rest)
    else if beginsComment c then .ok ((key, none), rest.dropWhile (· != newline))
    else if c = 0x3d then do
      let (value, rest) ← parseValue [] [] false rest
      return ((key, some value), rest)
    else .error "unexpected character after variable name"

/-- A variable that begins with the byte `first`. -/
def parseVariable (first : UInt8) (rest : Bytes) :
    Except ConfigError ((String × Option Bytes) × Bytes) :=
  if !isAlpha first then .error "variable must start with a letter"
  else
    -- the bytes are ASCII, and so text
    let key := (fromUtf8 ((first :: rest.takeWhile isKeyByte).map toLower)).getD ""
    parseTail key (skipInlineWs (rest.dropWhile isKeyByte))

/-! ### Files -/

theorem length_skipGap (comment : Bool) (data : Bytes) : (skipGap comment data).length ≤ data.length := by
  induction data generalizing comment with
  | nil => cases comment <;> exact Nat.le_refl 0
  | cons c rest ih =>
    have hrest := fun b => Nat.le_trans (ih b) (Nat.le_succ rest.length)
    cases comment with
    | true =>
      rw [skipGap]
      split
      · exact hrest false
      · exact hrest true
    | false =>
      rw [skipGap]
      split
      · exact hrest false
      · split
        · exact hrest true
        · exact Nat.le_refl _

theorem length_dropWhile_le (f : UInt8 → Bool) (data : Bytes) :
    (data.dropWhile f).length ≤ data.length :=
  (dropWhile_sublist f).length_le

theorem length_parseSubsection {sub sub' data rest : Bytes}
    (h : parseSubsection sub data = .ok (sub', rest)) : rest.length ≤ data.length := by
  fun_induction parseSubsection sub data with
  | case1 => cases h
  | case2 =>
    cases h
    exact Nat.le_succ _
  | case3 => cases h
  | case4 sub _ d rest' ih => exact Nat.le_trans (ih h) (Nat.le_succ_of_le (Nat.le_succ _))
  | case5 => cases h
  | case6 sub c rest' _ _ _ ih => exact Nat.le_trans (ih h) (Nat.le_succ _)

theorem length_quotedHeader {name data rest : Bytes} {here : SectionCtx}
    (h : quotedHeader name data = .ok (here, rest)) : rest.length ≤ data.length := by
  rw [quotedHeader] at h
  have hskip := length_dropWhile_le isInlineWs data
  rw [← skipInlineWs] at hskip
  split at h
  · rename_i rest₁ heq
    rw [heq, length_cons] at hskip
    split at h
    · cases h
    · rename_i sub rest₂ hsub
      have hlength := length_parseSubsection hsub
      have hskip' := length_dropWhile_le isInlineWs rest₂
      rw [← skipInlineWs] at hskip'
      split at h
      · rename_i rest₃ heq'
        rw [heq', length_cons] at hskip'
        obtain ⟨text, htext, h⟩ := of_match_ok h
        cases h
        omega
      · cases h
  · cases h

theorem length_parseSectionHeader {name data rest : Bytes} {here : SectionCtx}
    (h : parseSectionHeader name data = .ok (here, rest)) : rest.length < data.length := by
  induction data generalizing name with
  | nil => cases h
  | cons c data ih =>
    rw [parseSectionHeader] at h
    split at h
    · obtain ⟨here', hplain, h⟩ := of_match_ok h
      cases h
      exact Nat.lt_succ_self _
    · split at h
      · exact Nat.lt_succ_of_le (length_quotedHeader h)
      · split at h
        · exact Nat.lt_succ_of_lt (ih h)
        · cases h

theorem endValue_eq_ok {out o data r : Bytes} {quoted : Bool} (h : endValue out quoted data = .ok (o, r)) :
    o = out ∧ r = data ∧ quoted = false := by
  cases quoted with
  | true => cases h
  | false =>
    cases h
    exact ⟨rfl, rfl, rfl⟩

theorem length_parseValue {out pending data o r : Bytes} {quoted : Bool}
    (h : parseValue out pending quoted data = .ok (o, r)) : r.length ≤ data.length := by
  fun_induction parseValue out pending quoted data with
  | case1 => rw [(endValue_eq_ok h).2.1]
  | case2 => rw [(endValue_eq_ok h).2.1]
  | case3 out pending quoted c rest _ _ =>
    rw [(endValue_eq_ok h).2.1]
    exact Nat.le_succ_of_le (length_dropWhile_le _ rest)
  | case4 out pending quoted c rest _ _ _ ih => exact Nat.le_succ_of_le (ih h)
  | case5 out pending quoted rest _ _ _ ih => exact Nat.le_succ_of_le (ih h)
  | case6 => cases h
  | case7 => cases h
  | case8 out pending quoted _ _ _ _ esc rest bytes _ ih =>
    exact Nat.le_succ_of_le (Nat.le_succ_of_le (ih h))
  | case9 out pending quoted c rest _ _ _ _ _ ih => exact Nat.le_succ_of_le (ih h)

theorem length_parseTail {key : String} {data r : Bytes} {var : String × Option Bytes}
    (h : parseTail key data = .ok (var, r)) : r.length ≤ data.length := by
  cases data with
  | nil =>
    cases h
    exact Nat.le_refl 0
  | cons c rest =>
    rw [parseTail] at h
    split at h
    · cases h
      exact Nat.le_refl _
    · split at h
      · cases h
        exact Nat.le_succ_of_le (length_dropWhile_le _ rest)
      · split at h
        · obtain ⟨value, hvalue, h⟩ := of_match_ok h
          cases h
          exact Nat.le_succ_of_le (length_parseValue hvalue)
        · cases h

theorem length_parseVariable {first : UInt8} {data r : Bytes} {var : String × Option Bytes}
    (h : parseVariable first data = .ok (var, r)) : r.length ≤ data.length := by
  rw [parseVariable] at h
  split at h
  · cases h
  · exact ((length_parseTail h).trans (length_dropWhile_le _ _)).trans (length_dropWhile_le _ _)

/-- The entries of what is left of a file, below the section `ctx`. -/
def parseFrom (ctx : Option SectionCtx) (data : Bytes) : Except ConfigError (List Entry) :=
  match hgap : skipGap false data with
  | [] => .ok []
  | c :: rest =>
    if c = 0x5b then
      match hheader : parseSectionHeader [] rest with
      | .error e => .error e
      | .ok (here, rest') => parseFrom (some here) rest'
    else
      match ctx with
      | none => .error "variable before any section header"
      | some here =>
        match hvar : parseVariable c rest with
        | .error e => .error e
        | .ok ((key, value), rest') =>
          match parseFrom (some here) rest' with
          | .error e => .error e
          | .ok entries => .ok (⟨here.1, here.2, key, value⟩ :: entries)
termination_by data.length
decreasing_by
  · have hlength := length_skipGap false data
    rw [hgap, length_cons] at hlength
    have hheader' := length_parseSectionHeader hheader
    omega
  · have hlength := length_skipGap false data
    rw [hgap, length_cons] at hlength
    have hvar' := length_parseVariable hvar
    omega

def parseFile (data : Bytes) : Except ConfigError (List Entry) := parseFrom none data

section

variable {ctx : Option SectionCtx} {here : SectionCtx} {data rest rest' : Bytes} {c : UInt8}

theorem parseFrom_end (h : skipGap false data = []) : parseFrom ctx data = .ok [] := by
  rw [parseFrom]
  split
  · rfl
  · rename_i heq
    rw [h] at heq
    cases heq

theorem parseFrom_header (h : skipGap false data = 0x5b :: rest) :
    parseFrom ctx data =
      match parseSectionHeader [] rest with
      | .error e => .error e
      | .ok (here, rest') => parseFrom (some here) rest' := by
  rw [parseFrom]
  split
  · rename_i heq
    rw [h] at heq
    cases heq
  · rename_i heq
    rw [h] at heq
    cases heq
    rw [if_pos rfl]
    split
    · rename_i hheader
      rw [hheader]
    · rename_i hheader
      rw [hheader]

theorem parseFrom_variable (h : skipGap false data = c :: rest) (hc : c ≠ 0x5b) :
    parseFrom (some here) data =
      match parseVariable c rest with
      | .error e => .error e
      | .ok ((key, value), rest') =>
        match parseFrom (some here) rest' with
        | .error e => .error e
        | .ok entries => .ok (⟨here.1, here.2, key, value⟩ :: entries) := by
  rw [parseFrom]
  split
  · rename_i heq
    rw [h] at heq
    cases heq
  · rename_i heq
    rw [h] at heq
    cases heq
    rw [if_neg hc]
    dsimp only
    split
    · rename_i hvar
      rw [hvar]
    · rename_i hvar
      rw [hvar]

theorem parseFrom_none (h : skipGap false data = c :: rest) (hc : c ≠ 0x5b) :
    parseFrom none data = .error "variable before any section header" := by
  rw [parseFrom]
  split
  · rename_i heq
    rw [h] at heq
    cases heq
  · rename_i heq
    rw [h] at heq
    cases heq
    rw [if_neg hc]

end

/-! ### Names that were read -/

/-- A byte of a section's name, as it is kept. -/
def isSectionByte (c : UInt8) : Bool :=
  (0x61 ≤ c && c ≤ 0x7a) || (0x30 ≤ c && c ≤ 0x39) || c == 0x2d || c == 0x2e

/-- A byte of a variable's name, as it is kept. -/
def isLowerKeyByte (c : UInt8) : Bool :=
  (0x61 ≤ c && c ≤ 0x7a) || (0x30 ≤ c && c ≤ 0x39) || c == 0x2d

/-- The name of a section: without a subsection, it has no dot. -/
def ValidSection (sect : String) (sub : Option Bytes) : Prop :=
  (∀ b ∈ utf8 sect, isSectionByte b = true) ∧ (sub = none → (0x2e : UInt8) ∉ utf8 sect)

/-- The name of a variable: a letter first. -/
def ValidKey (key : String) : Prop :=
  ∃ first rest, utf8 key = first :: rest ∧ (0x61 ≤ first && first ≤ 0x7a) = true ∧
    ∀ b ∈ rest, isLowerKeyByte b = true

/-- ASCII is text. -/
theorem exists_text_of_ascii {bytes : Bytes} (h : ∀ b ∈ bytes, b < 0x80) :
    ∃ s, fromUtf8 bytes = some s ∧ utf8 s = bytes := by
  have htext : utf8 (String.ofList (bytes.map fun b => Char.ofNat b.toNat)) = bytes := by
    rw [utf8_ofList]
    induction bytes with
    | nil => rfl
    | cons b bytes ih =>
      rw [map_cons, flatMap_cons, utf8EncodeChar_ascii (h b mem_cons_self),
        ih fun b' hb' => h b' (mem_cons_of_mem b hb')]
      rfl
  refine ⟨_, ?_, htext⟩
  have h := fromUtf8_utf8 (String.ofList (bytes.map fun b => Char.ofNat b.toNat))
  rwa [htext] at h

section

variable {name data rest : Bytes} {here : SectionCtx}

/-- The bytes that a header's name is read from. -/
def NameBytes (name : Bytes) : Prop := ∀ b ∈ name, (isAlnum b || b == 0x2d || b == 0x2e) = true

theorem isSectionByte_toLower {b : UInt8} (h : (isAlnum b || b == 0x2d || b == 0x2e) = true) :
    isSectionByte (toLower b) = true := by
  grind [isAlnum, isAlpha, isUpper, isSectionByte, toLower]

theorem sectionBytes_of_nameBytes (h : NameBytes name) :
    ∀ b ∈ name.map toLower, isSectionByte b = true := by
  intro b hb
  obtain ⟨a, ha, rfl⟩ := mem_map.mp hb
  exact isSectionByte_toLower (h a ha)

theorem utf8_of_sectionText {text : String} (h : sectionText name = .ok text) : utf8 text = name := by
  rw [sectionText] at h
  split at h
  · rename_i text' htext
    cases h
    exact utf8_of_fromUtf8 htext
  · cases h

theorem validSection_of_plainHeader (hname : NameBytes name) (h : plainHeader name = .ok here) :
    ValidSection here.1 here.2 := by
  have hbytes := sectionBytes_of_nameBytes hname
  rw [plainHeader] at h
  split at h
  · rename_i front sub hsplit
    obtain ⟨hcut, -⟩ := splitFirst_eq_some.mp hsplit
    obtain ⟨text, htext, h⟩ := of_match_ok h
    cases h
    refine ⟨fun b hb => hbytes b ?_, nofun⟩
    rw [utf8_of_sectionText htext] at hb
    rw [hcut]
    exact mem_append_left _ hb
  · rename_i hsplit
    obtain ⟨text, htext, h⟩ := of_match_ok h
    cases h
    constructor <;> rw [utf8_of_sectionText htext]
    · exact hbytes
    · exact fun _ => splitFirst_eq_none.mp hsplit

theorem validSection_of_quotedHeader (hname : NameBytes name)
    (h : quotedHeader name data = .ok (here, rest)) : ValidSection here.1 here.2 := by
  rw [quotedHeader] at h
  split at h
  · split at h
    · cases h
    · split at h
      · obtain ⟨text, htext, h⟩ := of_match_ok h
        cases h
        refine ⟨?_, nofun⟩
        rw [utf8_of_sectionText htext]
        exact sectionBytes_of_nameBytes hname
      · cases h
  · cases h

theorem validSection_of_parseSectionHeader (hname : NameBytes name)
    (h : parseSectionHeader name data = .ok (here, rest)) : ValidSection here.1 here.2 := by
  induction data generalizing name with
  | nil => cases h
  | cons c data ih =>
    rw [parseSectionHeader] at h
    split at h
    · obtain ⟨here', hplain, h⟩ := of_match_ok h
      cases h
      exact validSection_of_plainHeader hname hplain
    · split at h
      · exact validSection_of_quotedHeader hname h
      · split at h
        · rename_i hc
          refine ih (fun b hb => ?_) h
          rcases mem_append.mp hb with hb | hb
          · exact hname b hb
          · rw [mem_singleton.mp hb]
            exact hc
        · cases h

theorem key_of_parseTail {key : String} {var : String × Option Bytes}
    (h : parseTail key data = .ok (var, rest)) : var.1 = key := by
  cases data with
  | nil =>
    cases h
    rfl
  | cons c data =>
    rw [parseTail] at h
    split at h
    · cases h
      rfl
    · split at h
      · cases h
        rfl
      · split at h
        · obtain ⟨value, hvalue, h⟩ := of_match_ok h
          cases h
          rfl
        · cases h

theorem lower_of_isAlpha {b : UInt8} (h : isAlpha b = true) :
    (0x61 ≤ toLower b && toLower b ≤ 0x7a) = true := by
  rw [Bool.and_eq_true, decide_eq_true_eq, decide_eq_true_eq]
  grind [isAlpha, isUpper, toLower]

theorem lower_of_isKeyByte {b : UInt8} (h : isKeyByte b = true) : isLowerKeyByte (toLower b) = true := by
  grind [isKeyByte, isAlnum, isAlpha, isUpper, isLowerKeyByte, toLower]

theorem ascii_of_isLowerKeyByte {b : UInt8} (h : isLowerKeyByte b = true) : b < 0x80 := by
  grind [isLowerKeyByte]

theorem validKey_of_parseVariable {first : UInt8} {var : String × Option Bytes}
    (h : parseVariable first data = .ok (var, rest)) : ValidKey var.1 := by
  rw [parseVariable] at h
  split at h
  · cases h
  · rename_i halpha
    have hfirst : (0x61 ≤ toLower first && toLower first ≤ 0x7a) = true := by
      refine lower_of_isAlpha ?_
      simpa using halpha
    have hrest : ∀ b ∈ (data.takeWhile isKeyByte).map toLower, isLowerKeyByte b = true := by
      intro b hb
      obtain ⟨a, ha, rfl⟩ := mem_map.mp hb
      exact lower_of_isKeyByte (mem_takeWhile_imp ha)
    have hascii : ∀ b ∈ (first :: data.takeWhile isKeyByte).map toLower, b < 0x80 := by
      intro b hb
      rcases mem_cons.mp hb with rfl | hb
      · refine ascii_of_isLowerKeyByte ?_
        rw [isLowerKeyByte, hfirst]
        rfl
      · exact ascii_of_isLowerKeyByte (hrest b hb)
    obtain ⟨key, hkey, hbytes⟩ := exists_text_of_ascii hascii
    rw [hkey, Option.getD_some] at h
    rw [key_of_parseTail h]
    exact ⟨_, _, hbytes, hfirst, hrest⟩

/-- **Names that were read** are valid. -/
theorem valid_of_parseFrom {ctx : Option SectionCtx} {entries : List Entry}
    (hctx : ∀ here ∈ ctx, ValidSection here.1 here.2) (h : parseFrom ctx data = .ok entries) :
    ∀ e ∈ entries, ValidSection e.sect e.subsection ∧ ValidKey e.key := by
  induction hlength : data.length using Nat.strong_induction_on generalizing data ctx entries with
  | _ length ih =>
    cases hgap : skipGap false data with
    | nil =>
      rw [parseFrom_end hgap] at h
      cases h
      nofun
    | cons c rest =>
      have hshorter := length_skipGap false data
      rw [hgap, length_cons] at hshorter
      by_cases hc : c = 0x5b
      · subst hc
        rw [parseFrom_header hgap] at h
        cases hheader : parseSectionHeader [] rest with
        | error e =>
          rw [hheader] at h
          cases h
        | ok result =>
          rw [hheader] at h
          have hless := length_parseSectionHeader hheader
          refine ih result.2.length (by omega) (fun here hhere => ?_) h rfl
          cases hhere
          exact validSection_of_parseSectionHeader (fun _ hb => absurd hb not_mem_nil) hheader
      · cases ctx with
        | none =>
          rw [parseFrom_none hgap hc] at h
          cases h
        | some here =>
          rw [parseFrom_variable hgap hc] at h
          cases hvar : parseVariable c rest with
          | error e =>
            rw [hvar] at h
            cases h
          | ok result =>
            rw [hvar] at h
            dsimp only at h
            have hless := length_parseVariable hvar
            split at h
            · cases h
            rename_i entries' hrest
            cases h
            intro e he
            rcases mem_cons.mp he with rfl | he
            · exact ⟨hctx here rfl, validKey_of_parseVariable hvar⟩
            · exact ih result.2.length (by omega) hctx hrest rfl e he

end

end Alt.GitConfig
