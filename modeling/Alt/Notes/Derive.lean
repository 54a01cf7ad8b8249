import Alt.Notes.Meta
import Alt.Repo.WorkTree
import Alt.Server.Identity

namespace Alt.Notes

open Alt.Library List
open Alt.Repo (WorkEntry)
open Alt.Server (Identity)

/-!
# What a note is derived from (`alt-cli/src/meta.rs`, 88–187; `native/notes.rs`, 22–68, 162–197)

A recorded commit gets a note with fields derived from its message, its tree and who made it, and
with the decisions and fields the caller chose to record.  A rewritten commit keeps what was recorded
with the one before it, and `meta set` adds to a note that is there.

* `derive`, `carryOver`, `metaFor`, `metaSet` — the notes that are written;
* `metaFor_plain_iff`, `metaSet_plain_iff` — which of them their text stands for, in terms of the
  strings they are made from.
-/

/-! ### Deriving a note -/

def MAX_DECISIONS : Nat := 3

inductive MetaError
  /-- "at most 3 decisions per commit" -/
  | tooManyDecisions
  /-- "a decision is one non-empty line: …" -/
  | badDecision (decision : Text)
  /-- "bad metadata field …=…: lowercase key, one-line value" -/
  | badField (key value : Text)

/-- What a commit is recorded with besides its message. -/
structure Facts where
  authorType : Text
  author : Text
  controlling : Option Text
  session : Option Text
  touched : List Text

def text (s : String) : Text := s.toList

/-- Without the white space around it. -/
def trim (s : Text) : Text := (s.dropWhile isWhitespace).rdropWhile isWhitespace

def isLower (c : Char) : Bool := 'a' ≤ c && c ≤ 'z'

/-- Behind a scope in parentheses, if there is one. -/
def dropScope (s : Text) : Text :=
  match s with
  | '(' :: rest =>
    match rest.dropWhile (· != ')') with
    | _ :: behind => behind
    | [] => s
  | _ => s

/-- Behind a `!`, if there is one. -/
def dropBang (s : Text) : Bool × Text :=
  match s with
  | '!' :: rest => (true, rest)
  | _ => (false, s)

/-- `type(scope)!: summary`: the type, whether there is a `!`, and the summary, which is what is left
    of the line. -/
def conventional (subject : Text) : Option (Text × Bool × Text) :=
  let kind := subject.takeWhile isLower
  let cut := dropBang (dropScope (subject.dropWhile isLower))
  match kind, cut.2 with
  | _ :: _, ':' :: ' ' :: c :: summary => some (kind, cut.1, c :: summary)
  | _, _ => none

def subjectOf (message : Text) : Text := (lines message).head?.getD []

/-- `contains`. -/
def hasPart (part s : Text) : Bool := s.tails.any part.isPrefixOf

/-- Type and summary of a commit. -/
def subjectFields (message : Text) : List (Text × Text) :=
  match conventional (subjectOf message) with
  | some (kind, bang, summary) =>
    [(text "type", kind), (text "summary", summary)] ++
      if bang || hasPart (text "\nBREAKING CHANGE: ") message then [(text "breaking", text "true")]
      else []
  | none => [(text "summary", subjectOf message)]

def recordDecision (d : Text) : Except MetaError (Text × Text) :=
  if d.contains '\n' || isBlank d then .error (.badDecision d) else .ok (text "decision", trim d)

def validKey (k : Text) : Bool := !k.isEmpty && k.all fun c => isLower c || c.isDigit || c == '-'

def recordField (field : Text × Text) : Except MetaError (Text × Text) :=
  if !validKey field.1 || field.2.contains '\n' then .error (.badField field.1 field.2)
  else .ok (text "x-" ++ field.1, field.2)

/-- What a caller chose to record, as fields. -/
def recorded (decisions : List Text) (extra : List (Text × Text)) :
    Except MetaError (List (Text × Text)) :=
  if MAX_DECISIONS < decisions.length then .error .tooManyDecisions
  else do
    let decided ← decisions.mapM recordDecision
    let fields ← extra.mapM recordField
    return decided ++ fields

/-- The fields about who made a commit and what it touched. -/
def factFields (facts : Facts) : List (Text × Text) :=
  (text "author", facts.author) :: (facts.controlling.map fun c => (text "controlling", c)).toList ++
    (facts.session.map fun s => (text "session", s)).toList ++
    facts.touched.map fun t => (text "touched", t)

def derive (message : Text) (facts : Facts) (decisions : List Text) (extra : List (Text × Text)) :
    Except MetaError Meta := do
  let fields ← recorded decisions extra
  return ⟨(text "schema", text "alt-meta/1") :: subjectFields message ++
    (text "author-type", facts.authorType) :: factFields facts ++ fields, none⟩

/-- What someone chose to record, not what was derived. -/
def isRecorded (key : Text) : Bool := key == text "decision" || (text "x-").isPrefixOf key

/-- What a rewritten commit keeps of its original note. -/
def carryOver (source onto : Meta) : Meta :=
  ⟨onto.fields ++ source.fields.filter fun field => isRecorded field.1, onto.message.or source.message⟩

/-! ### Notes of commits -/

/-- The paths whose entries differ, in order. -/
def touchedPaths (before after : List WorkEntry) : List Text :=
  let old := fun path => lastOf (before.map fun e => (e.path, (e.oid, e.mode))) path
  let changed := after.filter fun e => decide (old e.path ≠ some (e.oid, e.mode))
  let gone := before.filter fun e => !(after.map WorkEntry.path).contains e.path
  ((changed ++ gone).map fun e => lossyText e.path).insertionSort fun a b => (compare a b).isLE = true

/-- What is known of a commit by who makes it. -/
def factsOf (id : Identity) (before after : List WorkEntry) : Facts where
  authorType := text id.principal.kind.word
  author := text id.principal.id
  controlling := id.controlling.map text
  session := id.principal.session.map text
  touched := touchedPaths before after

/-- The note on a commit, in the place of one that has the note `replaced`. -/
def metaFor (id : Identity) (message : Text) (before after : List WorkEntry) (decisions : List Text)
    (extra : List (Text × Text)) (replaced : Option Meta) : Except MetaError Meta := do
  let note ← derive message (factsOf id before after) decisions extra
  return replaced.elim note fun source => carryOver source note

/-- Replaces every field of that key. -/
def Meta.set (note : Meta) (field : Text × Text) : Meta :=
  { note with fields := note.fields.filter (fun f => f.1 != field.1) ++ [field] }

def Meta.enter (note : Meta) (field : Text × Text) : Meta :=
  if field.1 = text "decision" then { note with fields := note.fields ++ [field] } else note.set field

/-- The note that is there, or an empty one; with a schema in either case. -/
def openNote (prior : Option Meta) : Meta :=
  let note := prior.getD ⟨[], none⟩
  if note.fields = [] then { note with fields := [(text "schema", text "alt-meta/1")] } else note

/-- `alt meta set`, on a commit that has this note or none. -/
def metaSet (prior : Option Meta) (message : Option Text) (decisions : List Text)
    (extra : List (Text × Text)) : Except MetaError Meta :=
  let note := openNote prior
  let decided := (note.fields.filter fun f => f.1 = text "decision").length + decisions.length
  if MAX_DECISIONS < decided then .error .tooManyDecisions
  else
    (recorded decisions extra).map fun fields =>
      let note := fields.foldl Meta.enter note
      { note with message := (message.map Meta.endLine).or note.message }

/-! ### The fields of a commit's note -/

/-- No field but the last one ends in a carriage return. -/
def NoReturns (fields : List (Text × Text)) : Prop :=
  ∀ field ∈ fields.dropLast, field.2.getLast? ≠ some '\r'

section

variable {s : Text}

theorem dropScope_suffix (s : Text) : dropScope s <:+ s := by
  rw [dropScope.eq_def]
  split
  · rename_i rest
    split
    · rename_i c behind hdrop
      have hsuffix := dropWhile_suffix (l := rest) (· != ')')
      rw [hdrop] at hsuffix
      exact (suffix_cons c behind).trans (hsuffix.trans (suffix_cons _ rest))
    · exact suffix_rfl
  · exact suffix_rfl

theorem dropBang_suffix (s : Text) : (dropBang s).2 <:+ s := by
  rw [dropBang.eq_def]
  split
  · exact suffix_cons _ _
  · exact suffix_rfl

/-- The summary is the end of the subject. -/
theorem of_conventional {kind summary : Text} {bang : Bool}
    (h : conventional s = some (kind, bang, summary)) :
    (∀ c ∈ kind, isLower c = true) ∧ summary <:+ s ∧ summary ≠ [] := by
  rw [conventional] at h
  split at h
  · rename_i k kinds c rest hkind hcut
    cases h
    refine ⟨fun c hc => mem_takeWhile_imp hc, ?_, cons_ne_nil _ _⟩
    have hsuffix := (dropBang_suffix _).trans ((dropScope_suffix _).trans
      (dropWhile_suffix (l := s) isLower))
    rw [hcut] at hsuffix
    exact ((suffix_cons _ _).trans (suffix_cons _ _)).trans hsuffix
  · cases h

theorem getLast?_of_suffix {back : Text} (h : back <:+ s) (hne : back ≠ []) :
    back.getLast? = s.getLast? := by
  obtain ⟨front, rfl⟩ := h
  rw [getLast?_append_of_ne_nil _ hne]

end

theorem newline_not_mem_subjectOf (message : Text) : '\n' ∉ subjectOf message := by
  rw [subjectOf]
  cases hlines : lines message with
  | nil => exact not_mem_nil
  | cons line rest => exact newline_not_mem_of_mem_lines (hlines ▸ mem_cons_self)

/-- A key of the program's own. -/
theorem plainField_text {key : String} {value : Text} (hkey : '\n' ∉ key.toList ∧ ':' ∉ key.toList)
    (hvalue : '\n' ∉ value) : PlainField (text key, value) where
  key := hkey.1
  cut := by
    refine isChain_iff_getElem.mpr fun i hi hcut => hkey.2 ?_
    have hmem : (text key, value).1[i] ∈ key.toList := getElem_mem _
    exact hcut.1 ▸ hmem
  value := hvalue

theorem not_lower_newline : isLower '\n' = false := by decide

theorem not_lower_return : isLower '\r' = false := by decide

/-- The fields of the subject are lines; the summary's end is the subject's. -/
theorem subjectFields_spec (message : Text) :
    (∀ field ∈ subjectFields message, PlainField field) ∧
    ((∀ field ∈ subjectFields message, field.2.getLast? ≠ some '\r') ↔
      (subjectOf message).getLast? ≠ some '\r') := by
  have hsubject := newline_not_mem_subjectOf message
  rw [subjectFields]
  cases hconv : conventional (subjectOf message) with
  | none =>
    constructor
    · intro field hfield
      obtain rfl := mem_singleton.mp hfield
      exact plainField_text (by decide) hsubject
    · simp
  | some cut =>
    obtain ⟨kind, bang, summary⟩ := cut
    obtain ⟨hlower, hsuffix, hne⟩ := of_conventional hconv
    have hlast := getLast?_of_suffix hsuffix hne
    have hkind : '\n' ∉ kind := fun hmem => by simpa [not_lower_newline] using hlower _ hmem
    have hkindReturn : kind.getLast? ≠ some '\r' := fun hmem => by
      simpa [not_lower_return] using hlower _ (mem_of_getLast? hmem)
    dsimp only
    constructor
    · intro field hfield
      rcases mem_append.mp hfield with hfield | hfield
      · simp only [mem_cons, not_mem_nil, or_false] at hfield
        rcases hfield with rfl | rfl
        · exact plainField_text (by decide) hkind
        · exact plainField_text (by decide) fun hmem => hsubject (hsuffix.subset hmem)
      · split at hfield
        · obtain rfl := mem_singleton.mp hfield
          exact plainField_text (by decide) (by decide)
        · cases hfield
    · rw [← hlast]
      constructor
      · exact fun h => h (text "summary", summary) (by simp)
      · intro h field hfield
        rcases mem_append.mp hfield with hfield | hfield
        · simp only [mem_cons, not_mem_nil, or_false] at hfield
          rcases hfield with rfl | rfl
          · exact hkindReturn
          · exact h
        · split at hfield
          · obtain rfl := mem_singleton.mp hfield
            decide
          · cases hfield

/-! ### What is recorded -/

section

variable {decisions : List Text} {extra fields : List (Text × Text)}

def decisionField (d : Text) : Text × Text := (text "decision", trim d)

def extraField (field : Text × Text) : Text × Text := (text "x-" ++ field.1, field.2)

theorem eq_map_of_mapM_ok {α β ε : Type} {f : α → Except ε β} {g : α → β} {P : α → Prop}
    (hf : ∀ a b, f a = .ok b → b = g a ∧ P a) {xs : List α} {ys : List β}
    (h : xs.mapM f = .ok ys) : ys = xs.map g ∧ ∀ a ∈ xs, P a := by
  have hall := forall₂_of_mapM_ok h
  clear h
  induction hall with
  | nil => exact ⟨rfl, fun a ha => absurd ha not_mem_nil⟩
  | cons hab _ ih =>
    obtain ⟨rfl, hP⟩ := hf _ _ hab
    exact ⟨by rw [ih.1, map_cons], forall_mem_cons.mpr ⟨hP, ih.2⟩⟩

/-- What is recorded of a caller's strings, and what they were checked for. -/
theorem recorded_eq_ok (h : recorded decisions extra = .ok fields) :
    fields = decisions.map decisionField ++ extra.map extraField ∧
    (∀ d ∈ decisions, '\n' ∉ d) ∧ ∀ x ∈ extra, validKey x.1 = true ∧ '\n' ∉ x.2 := by
  rw [recorded] at h
  split at h
  · cases h
  obtain ⟨decided, hdecided, h⟩ := of_match_ok h
  obtain ⟨given, hextra, h⟩ := of_match_ok h
  cases h
  obtain ⟨rfl, hd⟩ := eq_map_of_mapM_ok (fun d b hb => by
    rw [recordDecision] at hb
    split at hb
    · cases hb
    · rename_i hcheck
      cases hb
      have hnot : '\n' ∉ d := fun hmem => hcheck (by simp [hmem])
      exact ⟨rfl, hnot⟩) hdecided
  obtain ⟨rfl, hx⟩ := eq_map_of_mapM_ok (fun x b hb => by
    rw [recordField] at hb
    split at hb
    · cases hb
    · rename_i hcheck
      cases hb
      have hvalid : validKey x.1 = true ∧ '\n' ∉ x.2 := by simpa using hcheck
      exact ⟨rfl, hvalid⟩) hextra
  exact ⟨rfl, hd, hx⟩

theorem mem_of_mem_trim {c : Char} {s : Text} (h : c ∈ trim s) : c ∈ s :=
  (dropWhile_suffix _).subset ((List.rdropWhile_prefix _ _).subset h)

/-- A key of the caller's, behind `x-`. -/
theorem plainField_extraField {x : Text × Text} (h : validKey x.1 = true ∧ '\n' ∉ x.2) :
    PlainField (extraField x) := by
  have hkey : ∀ c ∈ text "x-" ++ x.1, c ≠ '\n' ∧ c ≠ ':' := by
    intro c hc
    rcases mem_append.mp hc with hc | hc
    · have hfront : ∀ c ∈ text "x-", c ≠ '\n' ∧ c ≠ ':' := by simp [text]
      exact hfront c hc
    · have hvalid := h.1
      rw [validKey, Bool.and_eq_true, all_eq_true] at hvalid
      have hchar := hvalid.2 c hc
      constructor <;> rintro rfl <;> exact absurd hchar (by decide)
  refine ⟨fun hmem => (hkey _ hmem).1 rfl, ?_, h.2⟩
  exact isChain_iff_getElem.mpr fun i hi hcut => (hkey _ (getElem_mem _)).2 hcut.1

theorem plainField_decisionField {d : Text} (h : '\n' ∉ d) : PlainField (decisionField d) :=
  plainField_text (by decide) fun hmem => h (mem_of_mem_trim hmem)

end

/-! ### The note on a commit -/

/-- The strings about who made a commit and what it touched. -/
def saidOf (facts : Facts) : List Text :=
  facts.author :: facts.controlling.toList ++ facts.session.toList ++ facts.touched

theorem factFields_values (facts : Facts) : (factFields facts).map Prod.snd = saidOf facts := by
  obtain ⟨kind, author, controlling, session, touched⟩ := facts
  cases controlling <;> cases session <;> simp [factFields, saidOf, Function.comp_def]

theorem plainField_factFields {facts : Facts} :
    (∀ field ∈ factFields facts, PlainField field) ↔ ∀ v ∈ saidOf facts, '\n' ∉ v := by
  rw [← factFields_values, forall_mem_map]
  constructor
  · exact fun h field hfield => (h field hfield).value
  · intro h field hfield
    have hvalue := h field hfield
    simp only [factFields, cons_append, append_assoc, mem_cons, mem_append,
      Option.mem_toList, Option.map_eq_some_iff, mem_map] at hfield
    rcases hfield with rfl | ⟨c, -, rfl⟩ | ⟨c, -, rfl⟩ | ⟨t, -, rfl⟩ <;>
      exact plainField_text (by decide) hvalue

/-- The fields a commit's note is given behind its author's kind, by what they are made of. -/
def commitFields (facts : Facts) (decisions : List Text) (extra : List (Text × Text))
    (replaced : Option Meta) : List (Text × Text) :=
  factFields facts ++ decisions.map decisionField ++ extra.map extraField ++
    replaced.elim [] fun source => source.fields.filter fun field => isRecorded field.1

/-- What the strings of a commit's note have to be like. -/
structure CommitFits (message : Text) (facts : Facts) (decisions : List Text)
    (extra : List (Text × Text)) (replaced : Option Meta) : Prop where
  subject : (subjectOf message).getLast? ≠ some '\r'
  /-- Who is acting and what is touched is named on one line. -/
  lines : ∀ v ∈ saidOf facts, '\n' ∉ v
  returns : NoReturns (commitFields facts decisions extra replaced)

theorem newline_not_mem_word (kind : Server.PrincipalKind) : '\n' ∉ text kind.word := by
  cases kind <;> decide

theorem noReturns_append {front back : List (Text × Text)} (hne : back ≠ []) :
    NoReturns (front ++ back) ↔
      (∀ field ∈ front, field.2.getLast? ≠ some '\r') ∧ NoReturns back := by
  rw [NoReturns, dropLast_append_of_ne_nil hne]
  simp only [mem_append, or_imp, forall_and, NoReturns]

/-- The note on a commit, field by field. -/
theorem metaFor_eq_ok {id : Identity} {message : Text} {before after : List WorkEntry}
    {decisions : List Text} {extra : List (Text × Text)} {replaced : Option Meta} {note : Meta}
    (h : metaFor id message before after decisions extra replaced = .ok note) :
    note.fields = ((text "schema", text "alt-meta/1") :: subjectFields message ++
        [(text "author-type", (factsOf id before after).authorType)]) ++
      commitFields (factsOf id before after) decisions extra replaced ∧
    note.message = (replaced.bind Meta.message) ∧
    (∀ d ∈ decisions, '\n' ∉ d) ∧ ∀ x ∈ extra, validKey x.1 = true ∧ '\n' ∉ x.2 := by
  rw [metaFor, derive] at h
  cases hrecorded : recorded decisions extra with
  | error e =>
    rw [hrecorded] at h
    cases h
  | ok fields =>
    obtain ⟨rfl, hdecisions, hextra⟩ := recorded_eq_ok hrecorded
    rw [hrecorded] at h
    cases h
    refine ⟨?_, ?_, hdecisions, hextra⟩
    · cases replaced <;> simp [carryOver, commitFields]
    · cases replaced <;> rfl

/-- **Which commit's notes their text stands for.** -/
theorem metaFor_plain_iff {id : Identity} {message : Text} {before after : List WorkEntry}
    {decisions : List Text} {extra : List (Text × Text)} {replaced : Option Meta} {note : Meta}
    (hreplaced : ∀ source ∈ replaced, source.Plain)
    (h : metaFor id message before after decisions extra replaced = .ok note) :
    note.Plain ↔ CommitFits message (factsOf id before after) decisions extra replaced := by
  obtain ⟨hfields, hmessage, hdecisions, hextra⟩ := metaFor_eq_ok h
  obtain ⟨hsubject, hreturn⟩ := subjectFields_spec message
  have hkind : '\n' ∉ (factsOf id before after).authorType := newline_not_mem_word _
  have hkindReturn : (factsOf id before after).authorType.getLast? ≠ some '\r' := by
    change (text id.principal.kind.word).getLast? ≠ _
    cases id.principal.kind <;> decide
  have hne : commitFields (factsOf id before after) decisions extra replaced ≠ [] := by
    simp [commitFields, factFields]
  have hkept : ∀ field ∈ replaced.elim [] fun source =>
      source.fields.filter fun field => isRecorded field.1, PlainField field := by
    cases replaced with
    | none => exact fun field hfield => absurd hfield not_mem_nil
    | some source => exact fun field hfield =>
        (hreplaced source rfl).fields field (mem_filter.mp hfield).1
  have hhead : ∀ field ∈ (text "schema", text "alt-meta/1") :: subjectFields message ++
      [(text "author-type", (factsOf id before after).authorType)], PlainField field := by
    intro field hfield
    rcases mem_append.mp hfield with hfield | hfield
    · rcases mem_cons.mp hfield with rfl | hfield
      · exact plainField_text (by decide) (by decide)
      · exact hsubject field hfield
    · obtain rfl := mem_singleton.mp hfield
      exact plainField_text (by decide) hkind
  have hheadReturn : (∀ field ∈ (text "schema", text "alt-meta/1") :: subjectFields message ++
      [(text "author-type", (factsOf id before after).authorType)],
      field.2.getLast? ≠ some '\r') ↔ (subjectOf message).getLast? ≠ some '\r' := by
    rw [← hreturn]
    constructor
    · exact fun hall field hfield =>
        hall field (mem_append_left _ (mem_cons_of_mem _ hfield))
    · intro hall field hfield
      rcases mem_append.mp hfield with hfield | hfield
      · rcases mem_cons.mp hfield with rfl | hfield
        · decide
        · exact hall field hfield
      · obtain rfl := mem_singleton.mp hfield
        exact hkindReturn
  constructor
  · intro hplain
    have hreturns : NoReturns note.fields := hplain.returns
    rw [hfields, noReturns_append hne] at hreturns
    refine ⟨hheadReturn.mp hreturns.1, plainField_factFields.mp fun field hfield => ?_, hreturns.2⟩
    refine hplain.fields field (hfields ▸ mem_append_right _ ?_)
    simp only [commitFields, mem_append, hfield, true_or]
  · intro hfits
    refine ⟨fun field hfield => ?_, ?_, fun m hm => ?_, fun hnil => ?_⟩
    · rw [hfields] at hfield
      rcases mem_append.mp hfield with hfield | hfield
      · exact hhead field hfield
      · rw [commitFields, mem_append, mem_append, mem_append] at hfield
        rcases hfield with ((hfield | hfield) | hfield) | hfield
        · exact plainField_factFields.mpr hfits.lines field hfield
        · obtain ⟨d, hd, rfl⟩ := mem_map.mp hfield
          exact plainField_decisionField (hdecisions d hd)
        · obtain ⟨x, hx, rfl⟩ := mem_map.mp hfield
          exact plainField_extraField (hextra x hx)
        · exact hkept field hfield
    · have hreturns : NoReturns note.fields := by
        rw [hfields, noReturns_append hne]
        exact ⟨hheadReturn.mpr hfits.subject, hfits.returns⟩
      exact hreturns
    · rw [hmessage] at hm
      obtain ⟨source, hsource, hm⟩ := Option.bind_eq_some_iff.mp hm
      exact (hreplaced source hsource).message m hm
    · rw [hfields] at hnil
      exact absurd hnil (by simp)

/-! ### Setting a note -/

/-- The note's fields that are not given again. -/
def keptFields (prior : Option Meta) (extra : List (Text × Text)) : List (Text × Text) :=
  (openNote prior).fields.filter fun field =>
    !(extra.map fun x => text "x-" ++ x.1).contains field.1

/-- Of the fields with one key, the last. -/
def lastGiven : List (Text × Text) → List (Text × Text)
  | [] => []
  | x :: extra => if (extra.map Prod.fst).contains x.1 then lastGiven extra else x :: lastGiven extra

/-- The fields a note is set to, by what they are made of. -/
def setFields (prior : Option Meta) (decisions : List Text) (extra : List (Text × Text)) :
    List (Text × Text) :=
  keptFields prior extra ++ decisions.map decisionField ++ (lastGiven extra).map extraField

/-- What the strings a note is set to have to be like. -/
structure SetFits (prior : Option Meta) (message : Option Text) (decisions : List Text)
    (extra : List (Text × Text)) : Prop where
  returns : NoReturns (setFields prior decisions extra)
  message : ∀ m ∈ message, isBlank m = false

theorem foldl_enter_decisions (decisions : List Text) (note : Meta) :
    (decisions.map decisionField).foldl Meta.enter note =
      ⟨note.fields ++ decisions.map decisionField, note.message⟩ := by
  induction decisions generalizing note with
  | nil => simp
  | cons d decisions ih =>
    have hkey : (decisionField d).1 = text "decision" := rfl
    rw [map_cons, foldl_cons, ih, Meta.enter, if_pos hkey]
    simp

/-- Entering the caller's fields one by one leaves the last of each key, behind what has another
    key. -/
theorem foldl_enter_extra (extra : List (Text × Text)) (note : Meta) :
    (extra.map extraField).foldl Meta.enter note =
      ⟨(note.fields.filter fun field => !(extra.map fun x => text "x-" ++ x.1).contains field.1) ++
        (lastGiven extra).map extraField, note.message⟩ := by
  induction extra generalizing note with
  | nil => simp [lastGiven]
  | cons x extra ih =>
    have hkey : (extraField x).1 ≠ text "decision" := by
      intro heq
      exact absurd (List.cons.inj heq).1 (by decide)
    have hagain : (extra.map fun y => text "x-" ++ y.1).contains (text "x-" ++ x.1) =
        (extra.map Prod.fst).contains x.1 := by
      rw [Bool.eq_iff_iff, contains_iff_mem, contains_iff_mem]
      simp
    have hfront : (note.fields.filter fun f => f.1 != (extraField x).1).filter
          (fun field => !(extra.map fun y => text "x-" ++ y.1).contains field.1) =
        note.fields.filter fun field =>
          !((x :: extra).map fun y => text "x-" ++ y.1).contains field.1 := by
      rw [filter_filter]
      refine filter_congr fun f _ => ?_
      rw [map_cons, contains_cons, Bool.not_or, Bool.and_comm]
      rfl
    have hself : [extraField x].filter
          (fun field => !(extra.map fun y => text "x-" ++ y.1).contains field.1) ++
        (lastGiven extra).map extraField = (lastGiven (x :: extra)).map extraField := by
      rw [filter_singleton, lastGiven, extraField, hagain]
      cases (extra.map Prod.fst).contains x.1 <;> rfl
    rw [map_cons, foldl_cons, ih, Meta.enter, if_neg hkey, Meta.set, filter_append,
      hfront, append_assoc, hself]

theorem isBlank_endLine (m : Text) : isBlank (Meta.endLine m) = isBlank m := by
  rw [Meta.endLine]
  split
  · rfl
  · rw [isBlank, isBlank, all_append]
    simp [show isWhitespace '\n' = true by decide]

theorem getLast?_endLine (m : Text) : (Meta.endLine m).getLast? = some '\n' := by
  rw [Meta.endLine]
  split
  · assumption
  · rw [getLast?_append_of_ne_nil _ (cons_ne_nil _ _)]
    rfl

theorem lastGiven_subset (extra : List (Text × Text)) : lastGiven extra ⊆ extra := by
  induction extra with
  | nil => exact List.Subset.refl _
  | cons x extra ih =>
    rw [lastGiven]
    split
    · exact subset_cons_of_subset x ih
    · exact cons_subset_cons x ih

theorem openNote_fields_ne_nil (prior : Option Meta) : (openNote prior).fields ≠ [] := by
  rw [openNote]
  split
  · exact cons_ne_nil _ _
  · assumption

theorem openNote_message (prior : Option Meta) :
    (openNote prior).message = prior.bind Meta.message := by
  have hmessage : (openNote prior).message = (prior.getD ⟨[], none⟩).message := by
    rw [openNote]
    split <;> rfl
  rw [hmessage]
  cases prior <;> rfl

/-- The note that is set, field by field. -/
theorem metaSet_eq_ok {prior : Option Meta} {message : Option Text} {decisions : List Text}
    {extra : List (Text × Text)} {note : Meta} (h : metaSet prior message decisions extra = .ok note) :
    note = ⟨setFields prior decisions extra,
      (message.map Meta.endLine).or (prior.bind Meta.message)⟩ ∧
    (∀ d ∈ decisions, '\n' ∉ d) ∧ ∀ x ∈ extra, validKey x.1 = true ∧ '\n' ∉ x.2 := by
  rw [metaSet] at h
  split at h
  · cases h
  obtain ⟨fields, hrecorded, h⟩ := of_match_ok h
  obtain ⟨rfl, hdecisions, hextra⟩ := recorded_eq_ok hrecorded
  cases h
  refine ⟨?_, hdecisions, hextra⟩
  dsimp only
  rw [foldl_append, foldl_enter_decisions, foldl_enter_extra, openNote_message]
  have hdecided : (decisions.map decisionField).filter
      (fun field => !(extra.map fun x => text "x-" ++ x.1).contains field.1) =
      decisions.map decisionField := by
    rw [filter_eq_self]
    intro field hfield
    obtain ⟨d, -, rfl⟩ := mem_map.mp hfield
    rw [Bool.not_eq_true', Bool.eq_false_iff, ne_eq, contains_iff_mem, mem_map]
    rintro ⟨x, -, heq⟩
    exact absurd (List.cons.inj heq).1 (by decide)
  rw [setFields, keptFields, filter_append, hdecided]

theorem lastGiven_eq_nil {extra : List (Text × Text)} (h : lastGiven extra = []) : extra = [] := by
  induction extra with
  | nil => rfl
  | cons x extra ih =>
    rw [lastGiven] at h
    split at h
    · next hagain =>
      rw [ih h] at hagain
      cases hagain
    · cases h

/-- **Which notes that are set their text stands for.** -/
theorem metaSet_plain_iff {prior : Option Meta} {message : Option Text} {decisions : List Text}
    {extra : List (Text × Text)} {note : Meta} (hprior : ∀ source ∈ prior, source.Plain)
    (h : metaSet prior message decisions extra = .ok note) :
    note.Plain ↔ SetFits prior message decisions extra := by
  obtain ⟨rfl, hdecisions, hextra⟩ := metaSet_eq_ok h
  have hkept : ∀ field ∈ keptFields prior extra, PlainField field := by
    intro field hfield
    have hmem := (mem_filter.mp hfield).1
    rw [openNote] at hmem
    split at hmem
    · obtain rfl := mem_singleton.mp hmem
      exact plainField_text (by decide) (by decide)
    · cases prior with
      | none => exact absurd hmem not_mem_nil
      | some source => exact (hprior source rfl).fields field hmem
  have hne : setFields prior decisions extra ≠ [] := by
    intro hnil
    rw [setFields, append_eq_nil_iff, append_eq_nil_iff, map_eq_nil_iff,
      map_eq_nil_iff] at hnil
    obtain ⟨⟨hkept, -⟩, hlast⟩ := hnil
    rw [keptFields, lastGiven_eq_nil hlast] at hkept
    exact openNote_fields_ne_nil prior (by simpa using hkept)
  constructor
  · intro hplain
    refine ⟨hplain.returns, fun m hm => ?_⟩
    have hmessage := hplain.message (Meta.endLine m) (by rw [Option.mem_def.mp hm]; rfl)
    rw [← isBlank_endLine]
    exact hmessage.2
  · intro hfits
    refine ⟨fun field hfield => ?_, hfits.returns, fun m hm => ?_, fun hnil => absurd hnil hne⟩
    · rw [setFields, mem_append, mem_append] at hfield
      rcases hfield with (hfield | hfield) | hfield
      · exact hkept field hfield
      · obtain ⟨d, hd, rfl⟩ := mem_map.mp hfield
        exact plainField_decisionField (hdecisions d hd)
      · obtain ⟨x, hx, rfl⟩ := mem_map.mp hfield
        exact plainField_extraField (hextra x (lastGiven_subset extra hx))
    · cases message with
      | none =>
        obtain ⟨source, hsource, hm⟩ := Option.bind_eq_some_iff.mp hm
        exact (hprior source hsource).message m hm
      | some text =>
        obtain rfl := Option.some.inj hm
        exact ⟨getLast?_endLine text, (isBlank_endLine text).trans (hfits.message text rfl)⟩

end Alt.Notes
