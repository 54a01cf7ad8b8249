import Alt.Repo.RevWalk
import Alt.Repo.WorkTree
import Alt.Server.Identity

namespace Alt.Repo.CommitText

open Alt.Library HeaderBlock List

/-!
# The text of a commit (`build_commit_bytes` of `alt-worktree/src/lib.rs`, `parse_sig` of
`alt-cli/src/native/commit.rs`)

Names and mails are put into the header lines as they are; a commit is read line by line, and an identity
line by its blanks and brackets.

* `parseSig` — an identity line, read;
* `parseSig_line_iff` — when it gives what was written;
* `readsBack_iff` — when a whole commit does.
-/

/-! ### Identity lines -/

/-- `str::rsplit_once`. -/
def rsplitOnce (sep : List Char) : List Char → Option (List Char × List Char)
  | [] => none
  | c :: rest =>
    match rsplitOnce sep rest with
    | some (front, back) => some (c :: front, back)
    | none => ((c :: rest).dropPrefix? sep).map fun back => ([], back)

/-- `strip_suffix`, of one character. -/
def stripSuffix (c : Char) (s : List Char) : Option (List Char) :=
  if s.getLast? = some c then some s.dropLast else none

/-- Splits an identity line `Name <email> <seconds> <tz>`. -/
def parseSig (line : String) : Except String Sig :=
  let bad := "malformed identity line: " ++ line
  match rsplitOnce [' '] line.toList with
  | none => .error bad
  | some (who, tz) =>
    match rsplitOnce [' '] who with
    | none => .error bad
    | some (who, when_) =>
      match (stripSuffix '>' who).bind (rsplitOnce [' ', '<']) with
      | none => .error bad
      | some (name, email) =>
        match parseI64 (utf8 (String.ofList when_)) with
        | none => .error bad
        | some seconds => .ok ⟨String.ofList name, String.ofList email, seconds, String.ofList tz⟩

/-- `Identity::sig`, at a time. -/
def callerSig (id : Server.Identity) (seconds : Int) : Sig :=
  ⟨id.authorName, id.authorEmail, seconds, "+0000"⟩

section Rsplit

variable {sep l : List Char}

variable {front back : List Char}

theorem rsplitOnce_some (h : rsplitOnce sep l = some (front, back)) :
    l = front ++ sep ++ back := by
  induction l generalizing front with
  | nil => cases h
  | cons c l ih =>
    rw [rsplitOnce] at h
    split at h
    · rename_i front' back' hrest
      cases h
      rw [ih hrest]
      rfl
    · obtain ⟨back', hdrop, hpair⟩ := Option.map_eq_some_iff.mp h
      cases hpair
      obtain ⟨word, hcat, hsame⟩ := dropPrefix?_eq_some_iff.mp hdrop
      rw [hcat, LawfulBEq.eq_of_beq hsame]
      rfl

theorem rsplitOnce_append (h : rsplitOnce sep l = some (front, back)) (before : List Char) :
    rsplitOnce sep (before ++ l) = some (before ++ front, back) := by
  induction before with
  | nil => exact h
  | cons c before ih => rw [cons_append, rsplitOnce, ih, cons_append]

/-- No separator is found only where there is none. -/
theorem rsplitOnce_eq_none (hne : sep ≠ []) : rsplitOnce sep l = none ↔ ¬sep <:+: l := by
  constructor
  · rintro h ⟨front, back, rfl⟩
    have hnone : ∀ rest, rsplitOnce sep (sep ++ rest) ≠ none := by
      intro rest hrest
      obtain ⟨c, tail, rfl⟩ := exists_cons_of_ne_nil hne
      rw [cons_append, rsplitOnce] at hrest
      split at hrest
      · cases hrest
      · rw [← cons_append,
          dropPrefix?_append_of_beq rest (BEq.rfl : c :: tail == c :: tail)] at hrest
        cases hrest
    cases hsome : rsplitOnce sep (sep ++ back) with
    | none => exact hnone back hsome
    | some parts =>
      rw [append_assoc, rsplitOnce_append hsome] at h
      cases h
  · intro h
    cases hsome : rsplitOnce sep l with
    | none => rfl
    | some parts => exact absurd ⟨parts.1, parts.2, (rsplitOnce_some hsome).symm⟩ h

/-- The last separator. -/
theorem rsplitOnce_last {c : Char} {tail : List Char} (h : ¬(c :: tail) <:+: tail ++ back)
    (front : List Char) :
    rsplitOnce (c :: tail) (front ++ (c :: tail) ++ back) = some (front, back) := by
  have hnone : rsplitOnce (c :: tail) (tail ++ back) = none := (rsplitOnce_eq_none (by simp)).mpr h
  have hone : rsplitOnce (c :: tail) (c :: tail ++ back) = some ([], back) := by
    rw [cons_append, rsplitOnce, hnone, ← cons_append,
      dropPrefix?_append_of_beq back (BEq.rfl : c :: tail == c :: tail)]
    rfl
  rw [append_assoc, rsplitOnce_append hone, append_nil]

/-- A separator that comes later is found before. -/
theorem rsplitOnce_later {front' back' : List Char} (hne : sep ≠ []) (h : sep <:+: back)
    (hsplit : rsplitOnce sep (front ++ back) = some (front', back')) :
    back'.length < back.length := by
  cases hback : rsplitOnce sep back with
  | none => exact absurd h ((rsplitOnce_eq_none hne).mp hback)
  | some parts =>
    rw [rsplitOnce_append hback] at hsplit
    cases hsplit
    have hlength := congrArg List.length (rsplitOnce_some hback)
    have hpos := length_pos_of_ne_nil hne
    simp only [length_append] at hlength
    omega

end Rsplit

/-! ### Seconds -/

/-- The values of an `i64`. -/
def IsI64 (n : Int) : Prop := -2 ^ 63 ≤ n ∧ n < 2 ^ 63

instance (n : Int) : Decidable (IsI64 n) := inferInstanceAs (Decidable (_ ∧ _))

variable {c : Char}

theorem digit_bounds (h : c.isDigit = true) : 48 ≤ c.toNat ∧ c.toNat ≤ 57 := by
  simp only [Char.isDigit, Bool.and_eq_true, decide_eq_true_eq] at h
  exact ⟨UInt32.le_iff_toNat_le.mp h.1, UInt32.le_iff_toNat_le.mp h.2⟩

theorem toNat_digit (h : c.isDigit = true) : (UInt8.ofNat c.toNat).toNat = c.toNat := by
  have hbounds := digit_bounds h
  rw [UInt8.toNat_ofNat']
  omega

theorem utf8_digits {digits : List Char} (h : ∀ c ∈ digits, c.isDigit = true) :
    utf8 (String.ofList digits) = digits.map fun c => UInt8.ofNat c.toNat := by
  rw [utf8_ofList]
  induction digits with
  | nil => rfl
  | cons c digits ih =>
    have hc := h c mem_cons_self
    have hbounds := digit_bounds hc
    have hchar : Char.ofNat (UInt8.ofNat c.toNat).toNat = c := by
      rw [toNat_digit hc, Char.ofNat_toNat]
    have hcode := utf8EncodeChar_ascii (b := UInt8.ofNat c.toNat) (by
      rw [UInt8.lt_iff_toNat_lt, toNat_digit hc]
      exact Nat.lt_of_le_of_lt hbounds.2 (by decide))
    rw [hchar] at hcode
    rw [flatMap_cons, hcode, ih fun d hd => h d (mem_cons_of_mem c hd)]
    rfl

theorem isDigit_toDigits (n : Nat) : ∀ c ∈ Nat.toDigits 10 n, c.isDigit = true := fun _ hc =>
  Nat.isDigit_of_mem_toDigits (by decide) (by decide) hc

theorem foldl_digits {digits : List Char} (h : ∀ c ∈ digits, c.isDigit = true) (start : Nat) :
    (digits.map fun c => UInt8.ofNat c.toNat).foldl (fun n b => 10 * n + (b.toNat - 0x30)) start
      = Nat.ofDigitChars 10 digits start := by
  induction digits generalizing start with
  | nil => rw [Nat.ofDigitChars_nil]; rfl
  | cons c digits ih =>
    rw [map_cons, foldl_cons, ih (fun d hd => h d (mem_cons_of_mem c hd)),
      toNat_digit (h c mem_cons_self), Nat.ofDigitChars_cons]
    rfl

theorem readDigits_toDigits (n : Nat) : readDigits (utf8 (String.ofList (Nat.toDigits 10 n))) = some n := by
  have hdigits := isDigit_toDigits n
  rw [utf8_digits hdigits]
  have hall : ((Nat.toDigits 10 n).map fun c => UInt8.ofNat c.toNat).all
      (fun b => 0x30 ≤ b && b ≤ 0x39) = true := by
    rw [all_eq_true]
    intro b hb
    obtain ⟨c, hc, rfl⟩ := mem_map.mp hb
    have hbounds := digit_bounds (hdigits c hc)
    have hnat := toNat_digit (hdigits c hc)
    simp only [Bool.and_eq_true, decide_eq_true_eq, UInt8.le_iff_toNat_le, hnat]
    exact hbounds
  have hne : ((Nat.toDigits 10 n).map fun c => UInt8.ofNat c.toNat).isEmpty = false := by
    have hnil : Nat.toDigits 10 n ≠ [] := Nat.toDigits_ne_nil
    simpa using hnil
  rw [readDigits, hall, hne]
  simp only [Bool.not_true, Bool.or_self, Bool.false_eq_true, if_false]
  rw [foldl_digits hdigits, Nat.ofDigitChars_ten_toDigits]

theorem toString_negSucc (n : Nat) :
    toString (Int.negSucc n) = "-" ++ String.ofList (Nat.toDigits 10 (n + 1)) := by
  rw [← Nat.repr_eq_ofList_toDigits]
  rfl

theorem toString_ofNat (n : Nat) : toString (Int.ofNat n) = String.ofList (Nat.toDigits 10 n) :=
  Nat.repr_eq_ofList_toDigits

/-- Digits without a sign. -/
theorem parseI64_digits {digits : Bytes} (h : ∀ b ∈ digits.head?, b ≠ 0x2d ∧ b ≠ 0x2b) :
    parseI64 digits = (readDigits digits).bind fun n => if n < 2 ^ 63 then some (n : Int) else none := by
  unfold parseI64
  split
  · exact absurd rfl (h 0x2d rfl).1
  · exact absurd rfl (h 0x2b rfl).2
  · rfl

theorem parseI64_toString {n : Int} (h : IsI64 n) : parseI64 (utf8 (toString n)) = some n := by
  obtain ⟨hlow, hhigh⟩ := h
  cases n with
  | ofNat n =>
    have hlt : n < 2 ^ 63 := Int.ofNat_lt.mp hhigh
    have hhead : ∀ b ∈ (utf8 (String.ofList (Nat.toDigits 10 n))).head?, b ≠ 0x2d ∧ b ≠ 0x2b := by
      rw [utf8_digits (isDigit_toDigits n), head?_map]
      intro b hb
      obtain ⟨c, hc, rfl⟩ := Option.map_eq_some_iff.mp hb
      have hdigit := isDigit_toDigits n c (mem_of_head? hc)
      have hbounds := digit_bounds hdigit
      have hnat := toNat_digit hdigit
      constructor
      · intro heq
        rw [heq] at hnat
        exact absurd hbounds.1 (by rw [← hnat]; decide)
      · intro heq
        rw [heq] at hnat
        exact absurd hbounds.1 (by rw [← hnat]; decide)
    rw [toString_ofNat, parseI64_digits hhead, readDigits_toDigits, Option.bind_some, if_pos hlt]
    rfl
  | negSucc n =>
    have hminus : utf8 "-" = [0x2d] := by decide
    have hle : n + 1 ≤ 2 ^ 63 := by
      have hcast : Int.negSucc n = -(n + 1 : Int) := Int.negSucc_eq n
      omega
    rw [toString_negSucc, utf8_append, hminus, singleton_append, parseI64, readDigits_toDigits,
      Option.bind_some, if_pos hle]
    rfl

/-! ### When an identity line is read back -/

/-- An identity without what ends a line, a mail or a time zone. -/
structure Plain (s : Sig) : Prop where
  name : '\n' ∉ s.name.toList
  email : '\n' ∉ s.email.toList
  tz : '\n' ∉ s.tz.toList
  oneMail : ¬[' ', '<'] <:+: s.email.toList
  oneZone : ' ' ∉ s.tz.toList

theorem toList_line (s : Sig) : s.line.toList =
    (s.name.toList ++ [' ', '<'] ++ s.email.toList ++ ['>'] ++ [' '] ++ (toString s.when_).toList) ++ [' '] ++
      s.tz.toList := by
  have hlt : " <".toList = [' ', '<'] := rfl
  have hgt : "> ".toList = ['>', ' '] := rfl
  have hsp : " ".toList = [' '] := rfl
  simp [Sig.line, String.toList_append, hlt, hgt, hsp]

theorem not_infix_singleton {l : List Char} : ¬[c] <:+: l ↔ c ∉ l := by
  rw [not_iff_not]
  constructor
  · rintro ⟨front, back, rfl⟩
    simp
  · intro h
    obtain ⟨front, back, rfl⟩ := mem_iff_append.mp h
    exact ⟨front, back, by simp⟩

/-- The characters of a number. -/
theorem mem_toString {n : Int} (h : c ∈ (toString n).toList) : c = '-' ∨ c.isDigit = true := by
  cases n with
  | ofNat n =>
    rw [toString_ofNat, String.toList_ofList] at h
    exact .inr (isDigit_toDigits n c h)
  | negSucc n =>
    have hminus : "-".toList = ['-'] := rfl
    simp only [toString_negSucc, String.toList_append, String.toList_ofList, hminus,
      singleton_append] at h
    rcases mem_cons.mp h with heq | h
    · exact .inl heq
    · exact .inr (isDigit_toDigits (n + 1) c h)

theorem not_mem_toString (hminus : c ≠ '-') (hdigit : c.isDigit = false) (n : Int) :
    c ∉ (toString n).toList := by
  intro h
  rcases mem_toString h with heq | heq
  · exact hminus heq
  · rw [hdigit] at heq
    cases heq

/-- What was found in a line that was read. -/
theorem parts_of_parseSig {line : String} {s : Sig} (h : parseSig line = .ok s) : ∃ who who' when_ w,
    rsplitOnce [' '] line.toList = some (who, s.tz.toList) ∧ rsplitOnce [' '] who = some (who', when_) ∧
      stripSuffix '>' who' = some w ∧ rsplitOnce [' ', '<'] w = some (s.name.toList, s.email.toList) := by
  rw [parseSig] at h
  cases htz : rsplitOnce [' '] line.toList with
  | none =>
    simp only [htz] at h
    cases h
  | some parts =>
    obtain ⟨who, tz⟩ := parts
    simp only [htz] at h
    cases hwhen : rsplitOnce [' '] who with
    | none =>
      simp only [hwhen] at h
      cases h
    | some parts =>
      obtain ⟨who', when_⟩ := parts
      simp only [hwhen] at h
      cases hname : (stripSuffix '>' who').bind (rsplitOnce [' ', '<']) with
      | none =>
        simp only [hname] at h
        cases h
      | some parts =>
        obtain ⟨name, email⟩ := parts
        obtain ⟨w, hw, hsplit⟩ := Option.bind_eq_some_iff.mp hname
        simp only [hname] at h
        split at h
        · cases h
        rename_i seconds hseconds
        cases h
        refine ⟨who, who', when_, w, ?_, hwhen, hw, ?_⟩
        · rw [String.toList_ofList]
        · rw [String.toList_ofList, String.toList_ofList]
          exact hsplit

/-- The line of an identity with no second bracket in its mail, taken apart. -/
theorem rsplitOnce_mail {email : List Char} (h : ¬[' ', '<'] <:+: email) (name : List Char) :
    rsplitOnce [' ', '<'] (name ++ [' ', '<'] ++ email) = some (name, email) := by
  refine rsplitOnce_last ?_ name
  rintro ⟨front, back, hcat⟩
  cases front with
  | nil => exact absurd (List.cons.inj hcat).1 (by decide)
  | cons c front => exact h ⟨front, back, (List.cons.inj hcat).2⟩

theorem stripSuffix_concat (c : Char) (s : List Char) : stripSuffix c (s ++ [c]) = some s := by
  rw [stripSuffix, getLast?_concat, if_pos rfl, dropLast_concat]

/-- **An identity line** is read back as it was written exactly when its mail has no second bracket behind a
blank, and its time zone no blank. -/
theorem parseSig_line_iff {s : Sig} (htime : IsI64 s.when_) :
    parseSig s.line = .ok s ↔ ¬[' ', '<'] <:+: s.email.toList ∧ ' ' ∉ s.tz.toList := by
  have hseconds : ¬[' '] <:+: [] ++ (toString s.when_).toList :=
    not_infix_singleton.mpr (not_mem_toString (by decide) (by decide) s.when_)
  have hwhen := rsplitOnce_last hseconds (s.name.toList ++ [' ', '<'] ++ s.email.toList ++ ['>'])
  constructor
  · intro h
    obtain ⟨who, who', when_, w, htz, hwho, hw, hname⟩ := parts_of_parseSig h
    rw [toList_line] at htz
    have hzone : ' ' ∉ s.tz.toList := by
      intro hmem
      have hinfix : [' '] <:+: s.tz.toList := by
        by_contra hnone
        exact not_infix_singleton.mp hnone hmem
      exact absurd (rsplitOnce_later (by simp) hinfix htz) (Nat.lt_irrefl _)
    refine ⟨fun hinfix => ?_, hzone⟩
    have hlastZone : ¬[' '] <:+: [] ++ s.tz.toList := not_infix_singleton.mpr hzone
    have hlast := rsplitOnce_last hlastZone
      (s.name.toList ++ [' ', '<'] ++ s.email.toList ++ ['>'] ++ [' '] ++ (toString s.when_).toList)
    rw [hlast] at htz
    cases htz
    rw [hwhen] at hwho
    cases hwho
    rw [stripSuffix_concat] at hw
    cases hw
    exact absurd (rsplitOnce_later (by simp) hinfix hname) (Nat.lt_irrefl _)
  · rintro ⟨hmail, hzone⟩
    have hlastZone : ¬[' '] <:+: [] ++ s.tz.toList := not_infix_singleton.mpr hzone
    have hlast := rsplitOnce_last hlastZone
      (s.name.toList ++ [' ', '<'] ++ s.email.toList ++ ['>'] ++ [' '] ++ (toString s.when_).toList)
    rw [parseSig, toList_line, hlast]
    simp only [hwhen, stripSuffix_concat, Option.bind_some, rsplitOnce_mail hmail, String.ofList_toList,
      parseI64_toString htime]

/-! ### When a commit is read back -/

section Commits

variable (tree : ObjectId) (parents : List ObjectId) (author committer : Sig) (message : String)

/-- The text of an id, in a header. -/
def hexValue (oid : ObjectId) : Bytes := utf8 (String.ofList oid.hexText)

/-- The headers that are meant. -/
def headersOf : List (Bytes × Bytes) :=
  (utf8 "tree", hexValue tree) :: parents.map (fun p => (utf8 "parent", hexValue p)) ++
    [(utf8 "author", utf8 author.line), (utf8 "committer", utf8 committer.line)]

/-- A commit reads as it was meant. -/
structure Reads (commit : Commit) : Prop where
  tree_eq : commit.tree = some tree
  parents_eq : commit.parents = parents
  headers_eq : commit.block.headers = headersOf tree parents author committer
  author_eq : commit.block.values (utf8 "author") = [utf8 author.line] ∧ parseSig author.line = .ok author
  committer_eq : commit.block.values (utf8 "committer") = [utf8 committer.line] ∧
    parseSig committer.line = .ok committer
  message_eq : commit.block.hasSeparator = true ∧ commit.block.message = utf8 message

/-- What is written reads as it was meant. -/
def ReadsBack : Prop :=
  ∃ commit, Commit.parse (buildCommitBytes tree parents author committer message) = .ok commit ∧
    Reads tree parents author committer message commit

/-- A header as it is written, its value not looked at. -/
def written (header : Bytes × Bytes) : Bytes := header.1 ++ sp :: header.2 ++ [lf]

theorem buildCommitBytes_eq : buildCommitBytes tree parents author committer message
    = (headersOf tree parents author committer).flatMap written ++ lf :: utf8 message := by
  have hparents : utf8 (String.join (parents.map fun p => "parent " ++ String.ofList p.hexText ++ "\n"))
      = (parents.map fun p => (utf8 "parent", hexValue p)).flatMap written := by
    induction parents with
    | nil => rfl
    | cons p parents ih =>
      have hword : utf8 "parent " = utf8 "parent" ++ [sp] := by decide
      have hlf : utf8 "\n" = [lf] := by decide
      simp only [map_cons, String.join_cons, utf8_append, ih, hword, hlf, flatMap_cons, written,
        hexValue]
      simp
  have htree : utf8 "tree " = utf8 "tree" ++ [sp] := by decide
  have hauthor : utf8 "author " = utf8 "author" ++ [sp] := by decide
  have hcommitter : utf8 "committer " = utf8 "committer" ++ [sp] := by decide
  have hlf : utf8 "\n" = [lf] := by decide
  have hblank : utf8 "\n\n" = [lf, lf] := by decide
  simp only [buildCommitBytes, utf8_append, hparents, htree, hauthor, hcommitter, hlf, hblank, headersOf,
    flatMap_append, flatMap_cons, flatMap_nil, written, hexValue]
  simp

theorem lf_not_mem_hexValue (oid : ObjectId) : lf ∉ hexValue oid := not_mem_utf8_hexChars (by decide) _

theorem lf_mem_line_iff (s : Sig) : lf ∉ utf8 s.line ↔
    '\n' ∉ s.name.toList ∧ '\n' ∉ s.email.toList ∧ '\n' ∉ s.tz.toList := by
  have hlf : lf ∈ utf8 s.line ↔ '\n' ∈ s.line.toList := mem_utf8_ascii (by decide)
  have hseconds : '\n' ∉ s.when_.repr.toList := not_mem_toString (by decide) (by decide) s.when_
  rw [hlf, toList_line]
  simp [hseconds]

theorem isName_of_mem : ∀ header ∈ headersOf tree parents author committer, IsName header.1 := by
  have htree : IsName (utf8 "tree") := ⟨by decide, by decide, by decide⟩
  have hparent : IsName (utf8 "parent") := ⟨by decide, by decide, by decide⟩
  have hauthor : IsName (utf8 "author") := ⟨by decide, by decide, by decide⟩
  have hcommitter : IsName (utf8 "committer") := ⟨by decide, by decide, by decide⟩
  intro header hmem
  rcases mem_append.mp hmem with hmem | hmem
  · rcases mem_cons.mp hmem with rfl | hmem
    · exact htree
    · obtain ⟨p, -, rfl⟩ := mem_map.mp hmem
      exact hparent
  · rcases mem_cons.mp hmem with rfl | hmem
    · exact hauthor
    · rw [mem_singleton.mp hmem]
      exact hcommitter

/-- The headers are found by their names. -/
theorem values_of_headers {block : HeaderBlock}
    (h : block.headers = headersOf tree parents author committer) :
    block.value (utf8 "tree") = some (hexValue tree) ∧
      block.values (utf8 "parent") = parents.map hexValue ∧
      block.values (utf8 "author") = [utf8 author.line] ∧
      block.values (utf8 "committer") = [utf8 committer.line] := by
  obtain ⟨htp, hta, htc, hpa, hpc, hac⟩ : utf8 "tree" ≠ utf8 "parent" ∧ utf8 "tree" ≠ utf8 "author" ∧
      utf8 "tree" ≠ utf8 "committer" ∧ utf8 "parent" ≠ utf8 "author" ∧ utf8 "parent" ≠ utf8 "committer" ∧
      utf8 "author" ≠ utf8 "committer" := by decide
  rw [headersOf] at h
  rw [value, values, values, values, h]
  generalize utf8 "tree" = t at *
  generalize utf8 "parent" = p at *
  generalize utf8 "author" = a at *
  generalize utf8 "committer" = c at *
  refine ⟨by simp, ?_, ?_, ?_⟩
  · simp [filter_cons, filter_map, Function.comp_def, htp, hpa.symm, hpc.symm]
  · simp [filter_cons, filter_map, Function.comp_def, hta, hpa, hac.symm]
  · simp [filter_cons, filter_map, Function.comp_def, htc, hpc, hac]

theorem fromHex_hexValue (oid : ObjectId) : ObjectId.fromHex (hexValue oid) = some oid :=
  ObjectId.fromHex_hexText oid

/-- The bytes written are a block's if no value has a line feed. -/
theorem flatMap_written {headers : List (Bytes × Bytes)} (h : ∀ header ∈ headers, lf ∉ header.2) :
    headers.flatMap written = headers.flatMap serializeHeader := by
  induction headers with
  | nil => rfl
  | cons header headers ih =>
    rw [flatMap_cons, flatMap_cons, ih fun hd hmem => h hd (mem_cons_of_mem _ hmem), written,
      serializeHeader_line (h header mem_cons_self)]

/-- Else the block would be longer. -/
theorem length_written (headers : List (Bytes × Bytes)) :
    (headers.flatMap serializeHeader).length
      = (headers.flatMap written).length + (headers.map fun header => header.2.count lf).sum := by
  induction headers with
  | nil => rfl
  | cons header headers ih =>
    have hone := length_serializeHeader header.1 header.2
    simp only [flatMap_cons, length_append, ih, map_cons, sum_cons, hone, written,
      length_cons, length_nil]
    omega

variable {author committer}

variable {tree parents message}

/-- What reads as it was meant has identities that can be read. -/
theorem plain_of_readsBack (h : ReadsBack tree parents author committer message)
    (hauthor : IsI64 author.when_) (hcommitter : IsI64 committer.when_) : Plain author ∧ Plain committer := by
  obtain ⟨commit, hparse, hreads⟩ := h
  have hbytes := serialize_of_parse (Commit.parse_eq_ok.mp hparse)
  rw [serialize, hreads.headers_eq, hreads.message_eq.1, hreads.message_eq.2, if_pos rfl,
    buildCommitBytes_eq] at hbytes
  have hlength := congrArg List.length hbytes
  rw [length_append, length_append, length_written] at hlength
  have hsum : ((headersOf tree parents author committer).map fun header => header.2.count lf).sum = 0 := by
    omega
  have hnone : ∀ header ∈ headersOf tree parents author committer, lf ∉ header.2 := by
    intro header hmem
    refine count_eq_zero.mp (Nat.le_zero.mp ?_)
    rw [← hsum]
    exact single_le_sum (fun _ _ => Nat.zero_le _) _ (mem_map_of_mem hmem)
  have hauthorLine :=
    (lf_mem_line_iff author).mp (hnone (utf8 "author", utf8 author.line) (by simp [headersOf]))
  have hcommitterLine :=
    (lf_mem_line_iff committer).mp (hnone (utf8 "committer", utf8 committer.line) (by simp [headersOf]))
  obtain ⟨hmail, hzone⟩ := (parseSig_line_iff hauthor).mp hreads.author_eq.2
  obtain ⟨hmail', hzone'⟩ := (parseSig_line_iff hcommitter).mp hreads.committer_eq.2
  exact ⟨⟨hauthorLine.1, hauthorLine.2.1, hauthorLine.2.2, hmail, hzone⟩,
    ⟨hcommitterLine.1, hcommitterLine.2.1, hcommitterLine.2.2, hmail', hzone'⟩⟩

variable (tree parents message)

theorem lf_not_mem_headers (ha : Plain author) (hc : Plain committer) :
    ∀ header ∈ headersOf tree parents author committer, lf ∉ header.2 := by
  intro header hmem
  rcases mem_append.mp hmem with hmem | hmem
  · rcases mem_cons.mp hmem with rfl | hmem
    · exact lf_not_mem_hexValue tree
    · obtain ⟨p, -, rfl⟩ := mem_map.mp hmem
      exact lf_not_mem_hexValue p
  · rcases mem_cons.mp hmem with rfl | hmem
    · exact (lf_mem_line_iff author).mpr ⟨ha.name, ha.email, ha.tz⟩
    · rw [mem_singleton.mp hmem]
      exact (lf_mem_line_iff committer).mpr ⟨hc.name, hc.email, hc.tz⟩

/-- Identities that can be read do not spoil the commit they stand in. -/
theorem readsBack_of_plain (ha : Plain author) (hc : Plain committer) (hauthor : IsI64 author.when_)
    (hcommitter : IsI64 committer.when_) : ReadsBack tree parents author committer message := by
  have hnone := lf_not_mem_headers tree parents ha hc
  have hwell : (HeaderBlock.mk (headersOf tree parents author committer) true (utf8 message)).WellFormed :=
    ⟨isName_of_mem tree parents author committer, nofun⟩
  have hparse := (parse_serialize_iff _).mpr hwell
  rw [serialize, ← flatMap_written hnone, if_pos rfl, ← buildCommitBytes_eq] at hparse
  have hheaders : (HeaderBlock.mk (headersOf tree parents author committer) true (utf8 message)).headers
      = headersOf tree parents author committer := rfl
  obtain ⟨htree, hparents, hauthors, hcommitters⟩ := values_of_headers tree parents author committer hheaders
  have hhex : ObjectId.fromHex ∘ hexValue = some := funext fromHex_hexValue
  refine ⟨⟨_, hwell⟩, Commit.parse_eq_ok.mpr hparse, ?_, ?_, rfl, ⟨hauthors, ?_⟩, ⟨hcommitters, ?_⟩, rfl, rfl⟩
  · rw [Commit.tree, htree, Option.bind_some, fromHex_hexValue]
  · rw [Commit.parents, hparents, filterMap_map, hhex, filterMap_some]
  · exact (parseSig_line_iff hauthor).mpr ⟨ha.oneMail, ha.oneZone⟩
  · exact (parseSig_line_iff hcommitter).mpr ⟨hc.oneMail, hc.oneZone⟩

/-- **A commit** reads as it was meant exactly when its identities have no line ends, no second bracket behind
a blank in a mail, and no blank in a time zone. -/
theorem commit_reads_back_iff (hauthor : IsI64 author.when_) (hcommitter : IsI64 committer.when_) :
    ReadsBack tree parents author committer message ↔ Plain author ∧ Plain committer :=
  ⟨fun h => plain_of_readsBack h hauthor hcommitter,
    fun ⟨ha, hc⟩ => readsBack_of_plain tree parents message ha hc hauthor hcommitter⟩

end Commits

/-! ### Two callers -/

def sampleSig : Sig := ⟨"A U Thor", "a@example.com", 1700000000, "+0000"⟩

theorem plain_sampleSig : Plain sampleSig := ⟨by decide, by decide, by decide, by decide, by decide⟩

theorem commit_reads_back_sample :
    ReadsBack (.zeroOid .sha1) [.zeroOid .sha1] sampleSig sampleSig "one\n\ntree two\n" :=
  (commit_reads_back_iff _ _ _ (by decide) (by decide)).mpr ⟨plain_sampleSig, plain_sampleSig⟩

/-- A caller whose name has two lines. -/
def twoLineCaller : Server.Identity :=
  Server.Identity.fromLookup fun k => if k = "GIT_AUTHOR_NAME" then some "a\nparent b" else none

theorem name_adds_header :
    ¬ReadsBack (.zeroOid .sha1) [] (callerSig twoLineCaller 0) (callerSig twoLineCaller 0) "m\n" := by
  intro h
  obtain ⟨hplain, -⟩ := plain_of_readsBack h (by decide) (by decide)
  exact hplain.name (by decide)

end Alt.Repo.CommitText
