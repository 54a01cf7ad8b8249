import Alt.GitCodec.Hex

namespace Alt

open Alt.Library List

/-!
# Commit and tag objects (`alt-git-codec/src/headers.rs`, `commit.rs`, `tag.rs`)

Commits and tags share one text layout: headers `name SP value LF`, whose values go on in
lines that start with a space, then a blank line, then the message.

* `HeaderBlock.parse` / `serialize` — the codec; headers keep their order and their bytes;
* `HeaderBlock.WellFormed` — what every parsed block is;
* `serialize_of_parse` — the bytes come back;
* `parse_serialize_iff` — a block comes back exactly when it is well formed.

`Commit` and `Tag` keep their block private: a value of these types was parsed.
-/

inductive ObjectParseError
  | headers (message : String)
  | tree (message : String)
  deriving DecidableEq

/-- Headers, an optional blank line, and the message behind it. -/
structure HeaderBlock where
  headers : List (Bytes × Bytes)
  hasSeparator : Bool
  message : Bytes
  deriving DecidableEq

namespace HeaderBlock

def lf : UInt8 := 0x0a

def sp : UInt8 := 0x20

/-- `headers.last_mut()`, with a line added to its value. -/
def continueLast (headers : List (Bytes × Bytes)) (line : Bytes) : Option (List (Bytes × Bytes)) :=
  headers.getLast?.map fun last => headers.dropLast ++ [(last.1, last.2 ++ lf :: line)]

/-- The loop of `parse`: the headers read so far, and the rest of the input. -/
def parseFrom (headers : List (Bytes × Bytes)) (rest : Bytes) :
    Except ObjectParseError HeaderBlock :=
  match rest with
  | [] => .ok ⟨headers, false, []⟩
  | b :: tail =>
    if b = lf then .ok ⟨headers, true, tail⟩
    else
      match h : splitFirst lf (b :: tail) with
      | none => .error (.headers "unterminated header line")
      | some (line, rest) =>
        if b = sp then
          match continueLast headers line.tail with
          | none => .error (.headers "continuation before any header")
          | some headers => parseFrom headers rest
        else
          match splitFirst sp line with
          | none => .error (.headers "header line without space")
          | some (name, value) => parseFrom (headers ++ [(name, value)]) rest
termination_by rest.length
decreasing_by
  all_goals
    have hlen := congrArg List.length (splitFirst_eq_some.mp h).1
    simp only [length_append, length_cons] at hlen ⊢
    omega

def parse (data : Bytes) : Except ObjectParseError HeaderBlock := parseFrom [] data

/-- One header: the first line of the value behind the name, the others behind a space. -/
def serializeHeader (header : Bytes × Bytes) : Bytes :=
  match header.2.splitOn lf with
  | [] => header.1 ++ [sp] -- a split is never empty
  | first :: continuations =>
    header.1 ++ sp :: first ++ continuations.flatMap (fun c => lf :: sp :: c) ++ [lf]

def serialize (block : HeaderBlock) : Bytes :=
  block.headers.flatMap serializeHeader ++ if block.hasSeparator then lf :: block.message else []

/-- A header name: not empty, no space, no line feed. -/
structure IsName (name : Bytes) : Prop where
  ne_nil : name ≠ []
  sp_not_mem : sp ∉ name
  lf_not_mem : lf ∉ name

/-- Header names are names, and there is no message without the blank line. -/
structure WellFormed (block : HeaderBlock) : Prop where
  names : ∀ h ∈ block.headers, IsName h.1
  message : block.hasSeparator = false → block.message = []

/-! ### Values of several lines -/

theorem lf_ne_sp : lf ≠ sp := by decide

/-- A value is its first line and, behind a line feed each, its continuations. -/
theorem splitOn_lf (value : Bytes) : ∃ first continuations,
    value.splitOn lf = first :: continuations ∧
      value = first ++ continuations.flatMap (lf :: ·) ∧
      lf ∉ first ∧ ∀ c ∈ continuations, lf ∉ c := by
  induction value with
  | nil => exact ⟨[], [], rfl, rfl, by simp, by simp⟩
  | cons b value ih =>
    obtain ⟨first, continuations, hsplit, hvalue, hfirst, hcont⟩ := ih
    rw [splitOn_cons_eq_if_modifyHead, hsplit]
    by_cases hb : b = lf
    · subst hb
      refine ⟨[], first :: continuations, by simp, ?_, by simp, ?_⟩
      · simp [← hvalue]
      · intro c hc
        rcases mem_cons.mp hc with rfl | hc
        · exact hfirst
        · exact hcont c hc
    · refine ⟨b :: first, continuations, by simp [hb], ?_, ?_, hcont⟩
      · rw [cons_append, ← hvalue]
      · intro hmem
        rcases mem_cons.mp hmem with heq | hmem
        · exact hb heq.symm
        · exact hfirst hmem

/-- A value of one line. -/
theorem serializeHeader_line {value : Bytes} (h : lf ∉ value) (name : Bytes) :
    serializeHeader (name, value) = name ++ sp :: value ++ [lf] := by
  rw [serializeHeader, splitOn_eq_singleton h]
  simp

/-- A header is written with a blank more for each line its value goes on in. -/
theorem length_serializeHeader (name value : Bytes) :
    (serializeHeader (name, value)).length = name.length + value.length + 2 + value.count lf := by
  obtain ⟨first, continuations, hsplit, hvalue, hfirst, hcont⟩ := splitOn_lf value
  have hcounts : ∀ cs : List Bytes, (∀ c ∈ cs, lf ∉ c) →
      (cs.flatMap fun c => lf :: sp :: c).length
        = (cs.flatMap (lf :: ·)).length + (cs.flatMap (lf :: ·)).count lf := by
    intro cs hcs
    induction cs with
    | nil => rfl
    | cons c cs ih =>
      have hc := count_eq_zero_of_not_mem (hcs c mem_cons_self)
      have hrest := ih fun d hd => hcs d (mem_cons_of_mem c hd)
      simp only [flatMap_cons, length_append, length_cons, count_append,
        count_cons_self, hc, hrest]
      omega
  have hlength := hcounts continuations hcont
  have hvalueLength := congrArg List.length hvalue
  have hvalueCount := congrArg (List.count lf) hvalue
  rw [length_append] at hvalueLength
  rw [count_append, count_eq_zero_of_not_mem hfirst] at hvalueCount
  rw [serializeHeader, hsplit]
  simp only [length_append, length_cons, length_nil]
  omega

variable {line : Bytes}

/-- A line put behind a value. -/
theorem serializeHeader_continued (name value : Bytes) (h : lf ∉ line) :
    serializeHeader (name, value ++ lf :: line)
      = serializeHeader (name, value) ++ sp :: line ++ [lf] := by
  obtain ⟨first, continuations, hsplit, -, -, -⟩ := splitOn_lf value
  have hline : (value ++ lf :: line).splitOn lf = first :: (continuations ++ [line]) := by
    rw [splitOn_append_cons_self, hsplit, splitOn_eq_singleton h, cons_append]
  simp only [serializeHeader, hline, hsplit, flatMap_append, flatMap_singleton,
    append_assoc, cons_append, nil_append]

variable {headers : List (Bytes × Bytes)}

/-- Continuing the last header puts a line behind the headers. -/
theorem serialize_continueLast {headers' : List (Bytes × Bytes)} (hline : lf ∉ line)
    (h : continueLast headers line = some headers') :
    headers'.flatMap serializeHeader
      = headers.flatMap serializeHeader ++ sp :: line ++ [lf] := by
  obtain ⟨last, hlast, rfl⟩ := Option.map_eq_some_iff.mp h
  obtain ⟨front, rfl⟩ := getLast?_eq_some_iff.mp hlast
  rw [dropLast_concat, flatMap_append, flatMap_singleton,
    serializeHeader_continued _ _ hline, flatMap_append, flatMap_singleton]
  simp only [append_assoc]

/-- Continuing a list that ends in a header. -/
theorem continueLast_concat (headers : List (Bytes × Bytes)) (name value line : Bytes) :
    continueLast (headers ++ [(name, value)]) line
      = some (headers ++ [(name, value ++ lf :: line)]) := by
  simp [continueLast]

/-! ### The bytes come back -/

variable {rest : Bytes} {block : HeaderBlock}

/-- **Loop invariant.** What was read and what is left are the input. -/
theorem serialize_of_parseFrom (h : parseFrom headers rest = .ok block) :
    block.serialize = headers.flatMap serializeHeader ++ rest := by
  fun_induction parseFrom headers rest with
  | case1 headers =>
    cases h
    simp [serialize]
  | case2 headers tail =>
    cases h
    simp [serialize]
  | case3 => cases h
  | case4 => cases h
  | case5 headers tail line rest headers' hcont hb hsplit ih =>
    obtain ⟨hinput, hline⟩ := splitFirst_eq_some.mp hsplit
    cases line with
    | nil =>
      obtain ⟨hsp, -⟩ := List.cons.inj hinput
      exact absurd hsp.symm lf_ne_sp
    | cons c line =>
      obtain ⟨rfl, rfl⟩ := List.cons.inj hinput
      have htail : lf ∉ line := fun hmem => hline (mem_cons_of_mem _ hmem)
      rw [ih h, serialize_continueLast htail hcont]
      simp
  | case6 => cases h
  | case7 headers b tail hb line rest hsplit hsp name value hword ih =>
    obtain ⟨hinput, hline⟩ := splitFirst_eq_some.mp hsplit
    obtain ⟨rfl, -⟩ := splitFirst_eq_some.mp hword
    have hvalue : lf ∉ value := fun hmem =>
      hline (mem_append_right _ (mem_cons_of_mem _ hmem))
    rw [ih h, hinput, flatMap_append, flatMap_singleton, serializeHeader_line hvalue]
    simp

/-- **The bytes come back.** -/
theorem serialize_of_parse {data : Bytes} (h : parse data = .ok block) :
    block.serialize = data := by
  rw [serialize_of_parseFrom h]
  rfl

/-! ### The block comes back -/

theorem wellFormed_of_parseFrom (h : parseFrom headers rest = .ok block)
    (hnames : ∀ hd ∈ headers, IsName hd.1) : block.WellFormed := by
  fun_induction parseFrom headers rest with
  | case1 headers =>
    cases h
    exact ⟨hnames, fun _ => rfl⟩
  | case2 headers tail =>
    cases h
    exact ⟨hnames, fun hsep => Bool.noConfusion hsep⟩
  | case3 => cases h
  | case4 => cases h
  | case5 headers tail line rest headers' hcont hb hsplit ih =>
    refine ih h ?_
    obtain ⟨last, hlast, rfl⟩ := Option.map_eq_some_iff.mp hcont
    intro hd hmem
    rcases mem_append.mp hmem with hold | hnew
    · exact hnames hd (dropLast_subset _ hold)
    · rw [mem_singleton.mp hnew]
      exact hnames last (mem_of_getLast? hlast)
  | case6 => cases h
  | case7 headers b tail hb line rest hsplit hsp name value hword ih =>
    refine ih h ?_
    obtain ⟨hinput, hline⟩ := splitFirst_eq_some.mp hsplit
    obtain ⟨rfl, hspace⟩ := splitFirst_eq_some.mp hword
    intro hd hmem
    rcases mem_append.mp hmem with hold | hnew
    · exact hnames hd hold
    · rw [mem_singleton.mp hnew]
      refine ⟨?_, hspace, fun hlf => hline (mem_append_left _ hlf)⟩
      -- a line that starts with a space continues the header before it
      rintro rfl
      exact hsp (List.cons.inj hinput).1

/-- What is parsed is well formed. -/
theorem wellFormed_of_parse {data : Bytes} (h : parse data = .ok block) :
    block.WellFormed :=
  wellFormed_of_parseFrom h (by simp)

/-- One line of the headers. -/
theorem parseFrom_split (headers : List (Bytes × Bytes)) {b : UInt8} {tail : Bytes} (hb : b ≠ lf)
    (hsplit : splitFirst lf (b :: tail) = some (line, rest)) :
    parseFrom headers (b :: tail) =
      if b = sp then
        match continueLast headers line.tail with
        | none => .error (.headers "continuation before any header")
        | some headers => parseFrom headers rest
      else
        match splitFirst sp line with
        | none => .error (.headers "header line without space")
        | some (name, value) => parseFrom (headers ++ [(name, value)]) rest := by
  rw [parseFrom, if_neg hb]
  split
  · rename_i hnone
    rw [hsplit] at hnone
    cases hnone
  · rename_i hsome
    rw [hsplit] at hsome
    cases hsome
    rfl

/-- A line that does not end. -/
theorem parseFrom_unsplit (headers : List (Bytes × Bytes)) {b : UInt8} {tail : Bytes} (hb : b ≠ lf)
    (hsplit : splitFirst lf (b :: tail) = none) :
    parseFrom headers (b :: tail) = .error (.headers "unterminated header line") := by
  rw [parseFrom, if_neg hb]
  split
  · rfl
  · rename_i hsome
    rw [hsplit] at hsome
    cases hsome

/-- One header line. -/
theorem parseFrom_line (headers : List (Bytes × Bytes)) {name : Bytes} (hname : IsName name)
    (hline : lf ∉ line) (rest : Bytes) :
    parseFrom headers (name ++ sp :: line ++ lf :: rest)
      = parseFrom (headers ++ [(name, line)]) rest := by
  obtain ⟨b, tail, rfl⟩ := exists_cons_of_ne_nil hname.ne_nil
  have hb : b ≠ lf := fun heq => hname.lf_not_mem (heq ▸ mem_cons_self)
  have hsp : b ≠ sp := fun heq => hname.sp_not_mem (heq ▸ mem_cons_self)
  have hmem : lf ∉ (b :: tail) ++ sp :: line := by
    intro hmem
    rcases mem_append.mp hmem with hn | hl
    · exact hname.lf_not_mem hn
    · rcases mem_cons.mp hl with heq | hl
      · exact lf_ne_sp heq
      · exact hline hl
  have hsplit := splitFirst_append hmem rest
  have hword := splitFirst_append hname.sp_not_mem line
  rw [cons_append, cons_append] at hsplit ⊢
  rw [cons_append] at hword
  rw [parseFrom_split _ hb hsplit, if_neg hsp, hword]

/-- One continuation line. -/
theorem parseFrom_continuation (headers : List (Bytes × Bytes)) (name value : Bytes)
    (hline : lf ∉ line) (rest : Bytes) :
    parseFrom (headers ++ [(name, value)]) (sp :: line ++ lf :: rest)
      = parseFrom (headers ++ [(name, value ++ lf :: line)]) rest := by
  have hmem : lf ∉ sp :: line := by
    intro hmem
    rcases mem_cons.mp hmem with heq | hl
    · exact lf_ne_sp heq
    · exact hline hl
  have hsplit := splitFirst_append hmem rest
  rw [cons_append] at hsplit ⊢
  rw [parseFrom_split _ (Ne.symm lf_ne_sp) hsplit, if_pos rfl, tail_cons, continueLast_concat]

theorem parseFrom_continuations (headers : List (Bytes × Bytes)) (name value : Bytes)
    {lines : List Bytes} (hlines : ∀ c ∈ lines, lf ∉ c) (rest : Bytes) :
    parseFrom (headers ++ [(name, value)]) (lines.flatMap (fun c => sp :: c ++ [lf]) ++ rest)
      = parseFrom (headers ++ [(name, value ++ lines.flatMap (lf :: ·))]) rest := by
  induction lines generalizing value with
  | nil => simp
  | cons line lines ih =>
    have hstep := parseFrom_continuation headers name value (hlines line mem_cons_self)
      (lines.flatMap (fun c => sp :: c ++ [lf]) ++ rest)
    have htail := ih (value ++ lf :: line) fun c hc => hlines c (mem_cons_of_mem _ hc)
    rw [htail] at hstep
    simpa using hstep

/-- A serialized header is its lines, each with its own line feed. -/
theorem serializeHeader_eq (name : Bytes) {value first : Bytes} {continuations : List Bytes}
    (h : value.splitOn lf = first :: continuations) :
    serializeHeader (name, value)
      = name ++ sp :: first ++ lf :: continuations.flatMap (fun c => sp :: c ++ [lf]) := by
  have hmove : ∀ cs : List Bytes, cs.flatMap (fun c => lf :: sp :: c) ++ [lf]
      = lf :: cs.flatMap (fun c => sp :: c ++ [lf]) := by
    intro cs
    induction cs with
    | nil => rfl
    | cons c cs ih => simp [ih]
  simp only [serializeHeader, h, append_assoc, hmove]

/-- One whole header. -/
theorem parseFrom_header (headers : List (Bytes × Bytes)) {name : Bytes} (hname : IsName name)
    (value rest : Bytes) :
    parseFrom headers (serializeHeader (name, value) ++ rest)
      = parseFrom (headers ++ [(name, value)]) rest := by
  obtain ⟨first, continuations, hsplit, hvalue, hfirst, hcont⟩ := splitOn_lf value
  have hline := parseFrom_line headers hname hfirst
    (continuations.flatMap (fun c => sp :: c ++ [lf]) ++ rest)
  rw [parseFrom_continuations _ _ _ hcont, ← hvalue] at hline
  rw [serializeHeader_eq name hsplit, ← hline]
  simp only [append_assoc, cons_append]

theorem parseFrom_headers (headers : List (Bytes × Bytes)) {more : List (Bytes × Bytes)}
    (hnames : ∀ hd ∈ more, IsName hd.1) (rest : Bytes) :
    parseFrom headers (more.flatMap serializeHeader ++ rest) = parseFrom (headers ++ more) rest := by
  induction more generalizing headers with
  | nil => simp
  | cons hd more ih =>
    have hstep := parseFrom_header headers (hnames hd mem_cons_self) hd.2
      (more.flatMap serializeHeader ++ rest)
    rw [ih _ fun hd' hmem => hnames hd' (mem_cons_of_mem _ hmem)] at hstep
    simpa using hstep

/-- Continuing the last of some headers. -/
theorem continueLast_append (front : List (Bytes × Bytes)) (hne : headers ≠ []) (line : Bytes) :
    continueLast (front ++ headers) line = (continueLast headers line).map (front ++ ·) := by
  obtain ⟨last, init, rfl⟩ : ∃ last init, headers = init ++ [last] :=
    ⟨headers.getLast hne, headers.dropLast, (dropLast_concat_getLast hne).symm⟩
  rw [← append_assoc, continueLast_concat, continueLast_concat]
  simp

/-- Headers that are there already stay in front. -/
theorem parseFrom_prepend (front : List (Bytes × Bytes)) (h : headers ≠ [] ∨ rest.head? ≠ some sp) :
    parseFrom (front ++ headers) rest
      = (parseFrom headers rest).map fun block => { block with headers := front ++ block.headers } := by
  fun_induction parseFrom headers rest with
  | case1 headers => rw [parseFrom]; rfl
  | case2 headers tail =>
    rw [parseFrom, if_pos rfl]
    rfl
  | case3 headers b tail hb hsplit =>
    rw [parseFrom_unsplit _ hb hsplit]
    rfl
  | case4 headers tail line rest hnone hb hsplit =>
    have hne : headers ≠ [] := by simpa using h
    rw [parseFrom_split _ hb hsplit, if_pos rfl, continueLast_append front hne, hnone]
    rfl
  | case5 headers tail line rest headers' hcont hb hsplit ih =>
    have hne : headers ≠ [] := by simpa using h
    have hne' : headers' ≠ [] := by
      rintro rfl
      obtain ⟨last, -, hlast⟩ := Option.map_eq_some_iff.mp hcont
      simp at hlast
    rw [parseFrom_split _ hb hsplit, if_pos rfl, continueLast_append front hne, hcont]
    exact ih (.inl hne')
  | case6 headers b tail hb line rest hsplit hsp hnone =>
    rw [parseFrom_split _ hb hsplit, if_neg hsp, hnone]
    rfl
  | case7 headers b tail hb line rest hsplit hsp name value hword ih =>
    rw [parseFrom_split _ hb hsplit, if_neg hsp, hword]
    have hrest := ih (.inl (by simp))
    rw [← append_assoc] at hrest
    exact hrest

/-- **The block comes back** exactly when it is well formed. -/
theorem parse_serialize_iff (block : HeaderBlock) :
    parse block.serialize = .ok block ↔ block.WellFormed := by
  refine ⟨wellFormed_of_parse, fun hw => ?_⟩
  obtain ⟨headers, hasSeparator, message⟩ := block
  rw [parse, serialize, parseFrom_headers [] hw.names]
  cases hasSeparator with
  | false =>
    have hmessage : message = [] := hw.message rfl
    subst hmessage
    simp [parseFrom]
  | true => simp [parseFrom]

/-- The value of the first header with this name. -/
def value (block : HeaderBlock) (name : Bytes) : Option Bytes :=
  (block.headers.find? fun header => header.1 = name).map (·.2)

/-- The values of every header with this name, in order. -/
def values (block : HeaderBlock) (name : Bytes) : List Bytes :=
  (block.headers.filter fun header => header.1 = name).map (·.2)

end HeaderBlock

/-! ### Commits and tags -/

/-- A parsed commit. -/
structure Commit where
  block : HeaderBlock
  wellFormed : block.WellFormed

/-- A parsed annotated tag; the same layout. -/
structure Tag where
  block : HeaderBlock
  wellFormed : block.WellFormed

namespace Commit

def parse (data : Bytes) : Except ObjectParseError Commit :=
  match h : HeaderBlock.parse data with
  | .error e => .error e
  | .ok block => .ok ⟨block, HeaderBlock.wellFormed_of_parse h⟩

def serialize (commit : Commit) : Bytes := commit.block.serialize

def tree (commit : Commit) : Option ObjectId :=
  (commit.block.value (utf8 "tree")).bind ObjectId.fromHex

def parents (commit : Commit) : List ObjectId :=
  (commit.block.values (utf8 "parent")).filterMap ObjectId.fromHex

theorem parse_eq_error {data : Bytes} {e : ObjectParseError} (h : HeaderBlock.parse data = .error e) :
    parse data = .error e := by
  rw [parse]
  split
  · rename_i e' h'
    rw [h] at h'
    cases h'
    rfl
  · rename_i block h'
    rw [h] at h'
    cases h'

theorem parse_eq_ok {data : Bytes} {commit : Commit} :
    parse data = .ok commit ↔ HeaderBlock.parse data = .ok commit.block := by
  obtain ⟨block, hw⟩ := commit
  rw [parse]
  split
  · rename_i e h
    simp [h]
  · rename_i block' h
    simp [h]

end Commit

namespace Tag

def parse (data : Bytes) : Except ObjectParseError Tag :=
  match h : HeaderBlock.parse data with
  | .error e => .error e
  | .ok block => .ok ⟨block, HeaderBlock.wellFormed_of_parse h⟩

def serialize (tag : Tag) : Bytes := tag.block.serialize

/-- The tagged object. -/
def object (tag : Tag) : Option ObjectId := (tag.block.value (utf8 "object")).bind ObjectId.fromHex

theorem parse_eq_ok {data : Bytes} {tag : Tag} :
    parse data = .ok tag ↔ HeaderBlock.parse data = .ok tag.block := by
  obtain ⟨block, hw⟩ := tag
  rw [parse]
  split
  · rename_i e h
    simp [h]
  · rename_i block' h
    simp [h]

end Tag

end Alt
