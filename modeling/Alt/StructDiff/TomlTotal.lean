import Alt.StructDiff.Toml

namespace Alt.StructDiff

open Alt.Library Attempt TextScan List

/-!
# Structured diff — the TOML parser reads every text

Every reader moves over characters that it has seen, so it stays between two of them, and every loop goes on.

* `ends_readStatement` — a statement is read, or the text is refused;
* `Through` — a way that meets tables only; `safe_walkTo_iff` — the way back is gone exactly then;
* `safe_parseToml_iff` — when a document is built.
-/

section Reader

variable {text : Text} {i fuel : Nat}

theorem fuel_length (text : Text) : text.length < size text + 1 := Nat.lt_succ_of_le (length_le_size text)

/-- Behind a character that was seen there is a position, further on. -/
theorem next_of_peek {c : Char} (h : peekChar text i = .ok (some c)) :
    Boundary text (i + c.utf8Size) ∧ i < i + c.utf8Size :=
  ⟨boundary_of_peek h, Nat.lt_add_of_pos_right (Char.utf8Size_pos c)⟩

/-- Behind an ASCII character the next byte is one. -/
theorem next_of_ascii {c : Char} (h : peekChar text i = .ok (some c)) (hc : c.utf8Size = 1) :
    Boundary text (i + 1) :=
  hc ▸ (next_of_peek h).1

theorem ends_skipLine (hi : Boundary text i) (hfuel : size text - i < fuel) :
    Ends (Boundary text) i id (skipLine text fuel i) := by
  induction fuel generalizing i with
  | zero => omega
  | succ fuel ih =>
    refine Ends.after (safe_peekChar hi) fun c hc => ?_
    cases c with
    | none => exact ends_ok hi (le_refl i)
    | some c =>
      obtain ⟨hnext, hlt⟩ := next_of_peek hc
      have hle := hnext.le
      dsimp only
      split
      · exact ends_ok hnext hlt.le
      · exact (ih hnext (by omega)).mono hlt.le

/-- From a character on, it gets further. -/
theorem ends_skipLine_next {c : Char} (hc : peekChar text i = .ok (some c)) (hfuel : size text - i < fuel) :
    Ends (Boundary text) (i + 1) id (skipLine text fuel i) := by
  obtain ⟨hnext, hlt⟩ := next_of_peek hc
  have hle := hnext.le
  obtain ⟨fuel, rfl⟩ : ∃ n, fuel = n + 1 := ⟨fuel - 1, by omega⟩
  rw [skipLine, hc, ok_bind]
  dsimp only
  split
  · exact ends_ok hnext hlt
  · exact (ends_skipLine hnext (by omega)).mono hlt

/-- A loop over ASCII characters, with steps of one byte. -/
theorem ends_skipAscii {p : Char → Bool} (hp : ∀ c, p c = true → c.utf8Size = 1) (hi : Boundary text i) :
    Ends (Boundary text) i id (skipWhile p (fun _ => 1) text (size text + 1) i) :=
  ends_skipWhile (fun c hc => (hp c hc).symm) hi (fuel_length text)

theorem isInline_ascii {c : Char} (h : isInline c = true) : c.utf8Size = 1 := by
  rw [isInline, Bool.or_eq_true, beq_iff_eq, beq_iff_eq] at h
  rcases h with rfl | rfl <;> rfl

theorem ends_skipInlineWhitespace (hi : Boundary text i) :
    Ends (Boundary text) i id (skipInlineWhitespace text i) :=
  ends_skipAscii (fun _ => isInline_ascii) hi

theorem ends_blanksLoop (hi : Boundary text i) (hfuel : size text - i < fuel) :
    Ends (Boundary text) i id (blanksLoop text fuel i) := by
  induction fuel generalizing i with
  | zero => omega
  | succ fuel ih =>
    refine Ends.bind (ends_skipWhile (fun _ _ => rfl) hi (fuel_length text)) fun j hj hij => ?_
    refine Ends.after (safe_peekChar hj) fun c hc => ?_
    split
    · rename_i hhash
      subst hhash
      refine Ends.bind (ends_skipLine_next hc (by omega)) fun k hk hjk => ?_
      exact (ih hk (by dsimp only [id] at *; have := hk.le; omega)).mono (by dsimp only [id] at *; omega)
    · exact ends_ok hj hij

theorem ends_skipBlanksAndComments (hi : Boundary text i) :
    Ends (Boundary text) i id (skipBlanksAndComments text i) :=
  ends_blanksLoop hi (by omega)

theorem ends_skipUntilNewlineOrComment (hi : Boundary text i) :
    Ends (Boundary text) i id (skipUntilNewlineOrComment text i) := by
  refine Ends.bind (ends_skipInlineWhitespace hi) fun j hj hij => ?_
  refine Ends.after (safe_peekChar hj) fun c hc => ?_
  split
  · exact (ends_skipLine hj (by omega)).mono hij
  · split
    · rename_i hlf
      subst hlf
      exact ends_ok (next_of_ascii hc rfl) (Nat.le_succ_of_le hij)
    · split
      · rename_i hcr
        subst hcr
        have hnext := next_of_ascii hc rfl
        refine Ends.after (safe_peekChar hnext) fun d hd => ?_
        split
        · rename_i hlf
          subst hlf
          exact ends_ok (next_of_ascii hd rfl) (by dsimp only [id] at *; omega)
        · exact ends_ok hnext (Nat.le_succ_of_le hij)
      · exact ends_ok hj hij

/-! ### Keys and values -/

theorem ends_basicLoop {out : Text} (hi : Boundary text i) (hfuel : size text - i < fuel) :
    Ends (Boundary text) i Prod.snd (basicLoop text fuel out i) := by
  induction fuel generalizing i out with
  | zero => omega
  | succ fuel ih =>
    refine Ends.after (safe_peekChar hi) fun c hc => Ends.after (safe_orDecline c) fun c hsome => ?_
    rw [orDecline_eq_ok.mp hsome] at hc
    obtain ⟨hnext, hlt⟩ := next_of_peek hc
    have hle := hnext.le
    split
    · rename_i hquote
      subst hquote
      exact ends_ok hnext hlt.le
    · split
      · rename_i hescape
        subst hescape
        refine Ends.after (safe_peekChar hnext) fun e he => Ends.after (safe_orDecline e) fun e hsome => ?_
        rw [orDecline_eq_ok.mp hsome] at he
        obtain ⟨hafter, hlt'⟩ := next_of_peek he
        have hle' := hafter.le
        refine Ends.after (safe_orDecline _) fun d _ => (ih hafter ?_).mono ?_
        · change size text - (i + 1 + e.utf8Size) < fuel
          omega
        · change i ≤ i + 1 + e.utf8Size
          omega
      · split
        · exact ends_declined
        · exact (ih hnext (by omega)).mono hlt.le

theorem ends_parseBasicString (hc : peekChar text i = .ok (some '"')) :
    Ends (Boundary text) (i + 1) Prod.snd (parseBasicString text i) :=
  ends_basicLoop (next_of_ascii hc rfl) (by omega)

theorem ends_literalLoop {start : Nat} (hstart : Boundary text start) (hi : Boundary text i) (hle : start ≤ i)
    (hfuel : size text - i < fuel) : Ends (Boundary text) i Prod.snd (literalLoop text start fuel i) := by
  induction fuel generalizing i with
  | zero => omega
  | succ fuel ih =>
    refine Ends.after (safe_peekChar hi) fun c hc => Ends.after (safe_orDecline c) fun c hsome => ?_
    rw [orDecline_eq_ok.mp hsome] at hc
    obtain ⟨hnext, hlt⟩ := next_of_peek hc
    have hend := hnext.le
    split
    · rename_i hquote
      subst hquote
      exact Ends.after (safe_pieceAt hstart hi hle) fun body _ => ends_ok hnext hlt.le
    · split
      · exact ends_declined
      · exact (ih hnext (hle.trans hlt.le) (by omega)).mono hlt.le

theorem ends_parseLiteralString (hc : peekChar text i = .ok (some '\'')) :
    Ends (Boundary text) (i + 1) Prod.snd (parseLiteralString text i) :=
  ends_literalLoop (next_of_ascii hc rfl) (next_of_ascii hc rfl) (le_refl _) (by omega)

theorem ends_parseKeySegment (hi : Boundary text i) :
    Ends (Boundary text) i Prod.snd (parseKeySegment text i) := by
  refine Ends.after (safe_peekChar hi) fun c hc => Ends.after (safe_orDecline c) fun c hsome => ?_
  rw [orDecline_eq_ok.mp hsome] at hc
  split
  · rename_i hquote
    subst hquote
    exact (ends_parseBasicString hc).mono (Nat.le_succ i)
  · split
    · rename_i hquote
      subst hquote
      exact (ends_parseLiteralString hc).mono (Nat.le_succ i)
    · split
      · refine Ends.bind (ends_skipWhile (fun _ _ => rfl) hi (fuel_length text)) fun j hj hij => ?_
        exact Ends.after (safe_pieceAt hi hj hij) fun key _ => ends_ok hj hij
      · exact ends_declined

theorem ends_dottedLoop {out : List Text} (hi : Boundary text i) (hfuel : size text - i < fuel) :
    Ends (Boundary text) i Prod.snd (dottedLoop text fuel out i) := by
  induction fuel generalizing i out with
  | zero => omega
  | succ fuel ih =>
    refine Ends.bind (ends_skipInlineWhitespace hi) fun j hj hij => ?_
    refine Ends.bind (ends_parseKeySegment hj) fun ⟨part, k⟩ hk hjk => ?_
    refine Ends.bind (ends_skipInlineWhitespace hk) fun l hl hkl => ?_
    refine Ends.after (safe_peekChar hl) fun c hc => ?_
    dsimp only [id] at *
    split
    · rename_i hdot
      subst hdot
      have hnext := next_of_ascii hc rfl
      have hle := hnext.le
      exact (ih hnext (by omega)).mono (by omega)
    · exact ends_ok hl (by dsimp only; omega)

theorem ends_parseDottedKey (hi : Boundary text i) : Ends (Boundary text) i Prod.snd (parseDottedKey text i) :=
  ends_dottedLoop hi (by omega)

/-- Behind a word that begins what is read. -/
theorem boundary_of_append {rest word : Text} (htail : tailAt text i = .ok rest) (hword : word.isPrefixOf rest) :
    Boundary text (i + size word) := by
  obtain ⟨pre, rfl, rfl⟩ := tailAt_eq_ok.mp htail
  obtain ⟨post, rfl⟩ := isPrefixOf_iff_prefix.mp hword
  exact ⟨pre ++ word, post, by simp, size_append _ _⟩

theorem ends_parseBool (hi : Boundary text i) : Ends (Boundary text) i Prod.snd (parseBool text i) := by
  refine Ends.after (safe_tailAt.mpr hi) fun rest hrest => ?_
  split
  · rename_i htrue
    exact ends_ok (boundary_of_append hrest htrue) (Nat.le_add_right i 4)
  · split
    · rename_i hfalse
      exact ends_ok (boundary_of_append hrest hfalse) (Nat.le_add_right i 5)
    · exact ends_declined

theorem isTomlNumberChar_ascii {c : Char} (h : isTomlNumberChar c = true) : c.utf8Size = 1 := by
  simp only [isTomlNumberChar, Bool.or_eq_true, Bool.and_eq_true, decide_eq_true_eq, beq_iff_eq] at h
  rcases h with (((((⟨-, hle⟩ | rfl) | rfl) | rfl) | rfl) | rfl) | rfl
  · exact utf8Size_of_lt (Nat.lt_of_le_of_lt (UInt32.le_iff_toNat_le.mp hle) (by decide))
  all_goals rfl

theorem ends_parseTomlNumber (hi : Boundary text i) : Ends (Boundary text) i Prod.snd (parseTomlNumber text i) := by
  refine Ends.after (safe_peekChar hi) fun c hc => ?_
  have hfirst : Boundary text (if c = some '+' ∨ c = some '-' then i + 1 else i) := by
    split
    · rename_i hsign
      rcases hsign with rfl | rfl
      · exact next_of_ascii hc rfl
      · exact next_of_ascii hc rfl
    · exact hi
  have hle : i ≤ if c = some '+' ∨ c = some '-' then i + 1 else i := by
    split
    · exact Nat.le_succ i
    · exact le_refl i
  refine Ends.bind (ends_skipAscii (fun _ => isTomlNumberChar_ascii) hfirst) fun j hj hij => ?_
  refine Ends.after (safe_pieceAt hi hj (hle.trans hij)) fun raw _ => ?_
  exact Ends.after (safe_orDecline _) fun canonical _ => ends_ok hj (hle.trans hij)

/-- A value, and what is behind a bracket, are read with fuel for two rounds a byte. -/
theorem ends_values (fuel : Nat) :
    (∀ i, Boundary text i → 2 * (size text - i) + 1 ≤ fuel →
      Ends (Boundary text) i Prod.snd (parseTomlValue text fuel i)) ∧
    ∀ i items, Boundary text i → 2 * (size text - i) + 2 ≤ fuel →
      Ends (Boundary text) i Prod.snd (tomlArrayLoop text fuel items i) := by
  induction fuel with
  | zero => exact ⟨fun i _ h => by omega, fun i _ _ h => by omega⟩
  | succ fuel ih =>
    refine ⟨fun i hi hfuel => ?_, fun i items hi hfuel => ?_⟩
    · refine Ends.bind (ends_skipInlineWhitespace hi) fun j hj hij => ?_
      refine Ends.after (safe_peekChar hj) fun c hc => Ends.after (safe_orDecline c) fun c hsome => ?_
      rw [orDecline_eq_ok.mp hsome] at hc
      dsimp only [id] at hj hij
      split
      · rename_i hquote
        subst hquote
        exact Ends.bind (ends_parseBasicString hc) fun p hp hjp => ends_ok hp (by dsimp only at *; omega)
      · split
        · rename_i hquote
          subst hquote
          exact Ends.bind (ends_parseLiteralString hc) fun p hp hjp => ends_ok hp (by dsimp only at *; omega)
        · split
          · rename_i hbracket
            subst hbracket
            have hnext := next_of_ascii hc rfl
            have hle := hnext.le
            exact (ih.2 (j + 1) [] hnext (by omega)).mono (by omega)
          · split
            · exact (ends_parseBool hj).mono hij
            · split
              · exact (ends_parseTomlNumber hj).mono hij
              · exact ends_declined
    · refine Ends.bind (ends_skipBlanksAndComments hi) fun j hj hij => ?_
      refine Ends.after (safe_peekChar hj) fun c hc => ?_
      dsimp only [id] at hj hij
      split
      · rename_i hbracket
        subst hbracket
        exact ends_ok (next_of_ascii hc rfl) (by dsimp only; omega)
      · have hle := hj.le
        refine Ends.bind (ih.1 j hj (by omega)) fun ⟨v, k⟩ hk hjk => ?_
        refine Ends.bind (ends_skipBlanksAndComments hk) fun l hl hkl => ?_
        refine Ends.after (safe_peekChar hl) fun d hd => Ends.after (safe_orDecline d) fun d hsome => ?_
        rw [orDecline_eq_ok.mp hsome] at hd
        dsimp only [id] at *
        have hend := hl.le
        split
        · rename_i hcomma
          subst hcomma
          have hnext := next_of_ascii hd rfl
          have hle := hnext.le
          exact (ih.2 (l + 1) _ hnext (by omega)).mono (by omega)
        · split
          · rename_i hbracket
            subst hbracket
            exact ends_ok (next_of_ascii hd rfl) (by dsimp only; omega)
          · exact ends_declined

theorem ends_closeBracket (hi : Boundary text i) : Ends (Boundary text) (i + 1) id (closeBracket text i) := by
  refine Ends.after (safe_peekChar hi) fun c hc => Ends.after (safe_orDecline c) fun c hsome => ?_
  rw [orDecline_eq_ok.mp hsome] at hc
  refine Ends.after safe_declineIf fun _ hdecline => ?_
  have hbracket := not_not.mp (declineIf_eq_ok.mp hdecline)
  subst hbracket
  exact ends_ok (next_of_ascii hc rfl) (le_refl _)

theorem ends_readStatement (hi : Boundary text i) : Ends (Boundary text) (i + 1) Prod.snd (readStatement text i) := by
  refine Ends.after (safe_peekChar hi) fun c hc => Ends.after (safe_orDecline c) fun c hsome => ?_
  rw [orDecline_eq_ok.mp hsome] at hc
  split
  · rename_i hbracket
    subst hbracket
    have hnext := next_of_ascii hc rfl
    refine Ends.after (safe_peekChar hnext) fun d hd => ?_
    split
    · rename_i hsecond
      subst hsecond
      refine Ends.bind (ends_parseDottedKey (next_of_ascii hd rfl)) fun ⟨path, j⟩ hj hij => ?_
      refine Ends.bind (ends_skipInlineWhitespace hj) fun k hk hjk => ?_
      refine Ends.bind (ends_closeBracket hk) fun l hl hkl => ?_
      refine Ends.bind (ends_closeBracket hl) fun m hm hlm => ?_
      refine Ends.bind (ends_skipUntilNewlineOrComment hm) fun n hn hmn => ends_ok hn ?_
      dsimp only [id] at *
      omega
    · refine Ends.bind (ends_parseDottedKey hnext) fun ⟨path, j⟩ hj hij => ?_
      refine Ends.bind (ends_skipInlineWhitespace hj) fun k hk hjk => ?_
      refine Ends.bind (ends_closeBracket hk) fun l hl hkl => ?_
      refine Ends.bind (ends_skipUntilNewlineOrComment hl) fun n hn hln => ends_ok hn ?_
      dsimp only [id] at *
      omega
  · refine Ends.bind (ends_parseDottedKey hi) fun ⟨path, j⟩ hj hij => ?_
    refine Ends.bind (ends_skipInlineWhitespace hj) fun k hk hjk => ?_
    refine Ends.after (safe_peekChar hk) fun d hd => Ends.after (safe_orDecline d) fun d hsome => ?_
    rw [orDecline_eq_ok.mp hsome] at hd
    refine Ends.after safe_declineIf fun _ hdecline => ?_
    have hequals := not_not.mp (declineIf_eq_ok.mp hdecline)
    subst hequals
    have hnext := next_of_ascii hd rfl
    refine Ends.bind (ends_skipInlineWhitespace hnext) fun l hl hkl => ?_
    refine Ends.bind ((ends_values _).1 l hl (by omega)) fun ⟨value, m⟩ hm hlm => ?_
    refine Ends.bind (ends_skipUntilNewlineOrComment hm) fun n hn hmn => ends_ok hn ?_
    dsimp only [id] at *
    omega

end Reader

/-! ### Building -/

/-- A way on which there are only tables, or nothing yet. -/
def Through (cur : Entries) : List Text → Prop
  | [] => True
  | key :: rest =>
    match lookup cur key with
    | none => True
    | some (.object inner) => Through inner rest
    | some (.array items) =>
      match items.getLast? with
      | some (.object inner) => Through inner rest
      | _ => False
    | some _ => False

theorem lookup_cons (k : Text) (v : Value) (cur : Entries) (key : Text) :
    lookup ((k, v) :: cur) key = if k = key then some v else lookup cur key := by
  by_cases hk : k = key
  · simp [lookup, hk]
  · simp [lookup, hk]

theorem lookup_updateFirst (key : Text) (f : Value → Value) (cur : Entries) :
    lookup (updateFirst key f cur) key = (lookup cur key).map f := by
  induction cur with
  | nil => rfl
  | cons entry cur ih =>
    obtain ⟨k, v⟩ := entry
    by_cases hk : k = key
    · rw [updateFirst, if_pos hk, lookup_cons, if_pos hk, lookup_cons, if_pos hk]
      rfl
    · rw [updateFirst, if_neg hk, lookup_cons, if_neg hk, lookup_cons, if_neg hk, ih]

theorem lookup_append_self (key : Text) (v : Value) (cur : Entries) (h : lookup cur key = none) :
    lookup (cur ++ [(key, v)]) key = some v := by
  induction cur with
  | nil => simp [lookup]
  | cons entry cur ih =>
    obtain ⟨k, w⟩ := entry
    rw [lookup_cons] at h
    by_cases hk : k = key
    · rw [if_pos hk] at h
      cases h
    · rw [if_neg hk] at h
      rw [cons_append, lookup_cons, if_neg hk, ih h]

theorem lookup_orPush (key : Text) (v : Value) (cur : Entries) :
    lookup (orPush key v cur) key = some ((lookup cur key).getD v) := by
  rw [orPush]
  cases h : lookup cur key with
  | none => simpa using lookup_append_self key v cur h
  | some w => simpa using h

theorem through_nil (path : List Text) : Through [] path := by
  cases path <;> exact trivial

theorem safe_return {α β : Type} {x : Attempt α} {g : α → β} : Safe (x >>= fun a => .ok (g a)) ↔ Safe x := by
  simp [safe_bind]

/-- The way to a table is gone exactly when it can be made. -/
theorem safe_walkTo_iff (f : Entries → Entries) (cur : Entries) (path : List Text) :
    Safe (walkTo f (ensureTable cur path) path) ↔ Through cur path := by
  induction path generalizing cur with
  | nil => simp [walkTo, Through]
  | cons key rest ih =>
    rw [walkTo, ensureTable, lookup_updateFirst, lookup_orPush, Through]
    cases hkey : lookup cur key with
    | none =>
      simp only [Option.getD_none, Option.map_some, pure_eq_ok, safe_return]
      exact (ih []).trans (iff_of_true (through_nil rest) trivial)
    | some v =>
      cases v with
      | object inner =>
        simp only [Option.getD_some, Option.map_some, pure_eq_ok, safe_return]
        exact ih inner
      | array items =>
        simp only [Option.getD_some, Option.map_some]
        cases hlast : items.getLast? with
        | none => simp [hlast]
        | some v =>
          cases v with
          | object inner =>
            simp only [getLast?_concat, pure_eq_ok, safe_return]
            exact ih inner
          | _ => simp [hlast]
      | _ => simp

/-- The way that a statement goes before it changes the document. -/
def Statement.way (current : List Text) : Statement → List Text
  | .table _ => []
  | .arrayOfTables path => path.dropLast
  | .entry path _ => (current ++ path).dropLast

theorem safe_buildStatement_iff (root : Entries) (current : List Text) (statement : Statement) :
    Safe (buildStatement root current statement) ↔ Through root (statement.way current) := by
  cases statement with
  | table path => exact iff_of_true (safe_ok _) trivial
  | arrayOfTables path =>
    rw [buildStatement, Statement.way]
    simp only [pure_eq_ok, safe_return]
    rw [ensureArrayOfTables]
    cases hlast : path.getLast? with
    | none =>
      rw [getLast?_eq_none_iff.mp hlast]
      exact iff_of_true (safe_ok _) trivial
    | some leaf => exact safe_walkTo_iff _ root path.dropLast
  | entry path value =>
    rw [buildStatement, Statement.way]
    simp only [pure_eq_ok, safe_return]
    rw [insertInto]
    cases hlast : (current ++ path).getLast? with
    | none =>
      rw [getLast?_eq_none_iff.mp hlast]
      exact iff_of_true safe_declined trivial
    | some leaf => exact safe_walkTo_iff _ root (current ++ path).dropLast

/-! ### Documents -/

/-- The statements of a text from a position on, up to its end or to the first that cannot be read. -/
def statementsFrom (text : Text) : Nat → Nat → List Statement
  | 0, _ => []
  | fuel + 1, i =>
    match skipBlanksAndComments text i with
    | .error _ => []
    | .ok i =>
      if size text ≤ i then []
      else
        match readStatement text i with
        | .error _ => []
        | .ok (statement, i) => statement :: statementsFrom text fuel i

def statements (text : Text) : List Statement := statementsFrom text (size text + 1) 0

/-- Each statement goes through tables only, in the document that the ones before it made. -/
def Consistent (root : Entries) (current : List Text) : List Statement → Prop
  | [] => True
  | statement :: rest =>
    Through root (statement.way current) ∧
      ∀ root' current', buildStatement root current statement = .ok (root', current') →
        Consistent root' current' rest

theorem safe_tomlLoop_iff {text : Text} {fuel i : Nat} (hi : Boundary text i) (hfuel : size text - i < fuel)
    (root : Entries) (current : List Text) :
    Safe (tomlLoop text fuel i root current) ↔ Consistent root current (statementsFrom text fuel i) := by
  induction fuel generalizing i root current with
  | zero => omega
  | succ fuel ih =>
    rw [tomlLoop, statementsFrom]
    obtain ⟨hsafe, hends⟩ := ends_skipBlanksAndComments hi
    cases hskip : skipBlanksAndComments text i with
    | error e =>
      rw [hskip] at hsafe
      exact iff_of_true (hsafe.bind fun _ h => by cases h) trivial
    | ok j =>
      obtain ⟨hj, hij⟩ := hends j hskip
      dsimp only [id] at hj hij
      rw [ok_bind]
      by_cases hend : size text ≤ j
      · simp only [if_pos hend]
        exact iff_of_true (safe_ok root) trivial
      · simp only [if_neg hend]
        obtain ⟨hsafe, hends⟩ := ends_readStatement hj
        cases hread : readStatement text j with
        | error e =>
          rw [hread] at hsafe
          exact iff_of_true (hsafe.bind fun _ h => by cases h) trivial
        | ok result =>
          obtain ⟨statement, k⟩ := result
          obtain ⟨hk, hjk⟩ := hends _ hread
          dsimp only at hk hjk
          have hle := hk.le
          rw [ok_bind]
          simp only [Consistent, safe_bind, safe_buildStatement_iff, Prod.forall]
          exact and_congr_right fun _ => forall_congr' fun root' => forall_congr' fun current' =>
            imp_congr_right fun _ => ih hk (by omega) root' current'

/-- **A TOML document** is read or refused exactly when each statement goes through tables only. -/
theorem safe_parseToml_iff (data : Bytes) :
    Safe (parseToml data) ↔ ∀ s, fromUtf8 data = some s → Consistent [] [] (statements s.toList) := by
  rw [parseToml]
  cases htext : fromUtf8 data with
  | none => exact iff_of_true safe_declined fun s hs => by cases hs
  | some s =>
    simp only [orDecline, ok_bind, pure_eq_ok, safe_return, Option.some.injEq, forall_eq']
    exact safe_tomlLoop_iff (boundary_zero _) (by omega) [] []

end Alt.StructDiff
