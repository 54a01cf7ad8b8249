import Alt.Library.Binary64
import Alt.Notes.Meta
import Alt.Repo.Workspace

namespace Alt.Repo

open Alt.Library Alt.Library.Binary64 List
open Alt.Notes (Text lines stripReturn)

/-!
# The state files (`native/revert.rs`, 331–383; `native/rebase.rs`, 504–587; `native/bisect.rs`, 339–383)

A revert, a rebase and a bisect that wait keep what they remember next to the index, a line for each
field: a word, a blank and the value.

* `stateText`, `readState` — the lines of such a file, written and read;
* `RevertState.parse`, `RebaseState.parse`, `BisectState.parse` — the three files;
* `state_files_return` — what is read of a file that was written.
-/

/-! ### Lines of fields -/

/-- One line: its word and its value. -/
abbrev Field := String × Text

def Field.line (f : Field) : Text := f.1.toList ++ ' ' :: f.2

def stateText (fields : List Field) : Text := fields.flatMap fun f => f.line ++ ['\n']

section

variable {S : Type} (corrupt : String) (field : S → String → Text → Except String S)

/-- One line, cut at its first blank. -/
def readLine (s : S) (line : Text) : Except String S :=
  match splitFirst ' ' line with
  | none => .error corrupt
  | some (key, value) => field s (String.ofList key) value

def readState (start : S) (text : Text) : Except String S :=
  (lines text).foldlM (readLine corrupt field) start

variable {corrupt field} {fields : List Field} {start : S}

/-- The word can be cut off, and the value is on its line. -/
def Field.Plain (f : Field) : Prop := f.1.toList.all Char.isLower = true ∧ '\n' ∉ f.2

theorem lines_append {line rest : Text} (h : '\n' ∉ line) :
    lines (line ++ '\n' :: rest) = stripReturn line :: lines rest := by
  have hne : rest.splitOn '\n' ≠ [] := splitOn_ne_nil _ _
  rw [lines, lines, splitOn_append_cons_self_of_not_mem h, dropLast_cons_of_ne_nil hne,
    map_cons, getLast?_cons_of_ne_nil hne]
  rfl

/-- What stands behind the blank loses its carriage return. -/
theorem stripReturn_blank (front value : Text) :
    stripReturn (front ++ ' ' :: value) = front ++ ' ' :: stripReturn value := by
  unfold stripReturn
  cases value with
  | nil => simp
  | cons c value =>
    have hlast : (front ++ ' ' :: c :: value).getLast? = (c :: value).getLast? := by
      simp [getLast?_append, getLast?_cons]
    rw [hlast]
    split
    · simp [dropLast_append_of_ne_nil]
    · rfl

/-- Reading what was written: each field, its value less a carriage return at its end. -/
theorem readState_stateText (h : ∀ f ∈ fields, f.Plain) :
    readState corrupt field start (stateText fields) =
      fields.foldlM (fun s f => field s f.1 (stripReturn f.2)) start := by
  induction fields generalizing start with
  | nil => rfl
  | cons f fields ih =>
    obtain ⟨hf, hrest⟩ := forall_mem_cons.mp h
    have hword : ∀ c : Char, c.isLower = false → c ∉ f.1.toList := fun c hc hmem =>
      absurd (all_eq_true.mp hf.1 c hmem) (by simp [hc])
    have hline : '\n' ∉ f.line := by
      simp only [Field.line, mem_append, mem_cons, not_or]
      exact ⟨hword _ rfl, by decide, hf.2⟩
    have hread : readLine corrupt field start (stripReturn f.line) =
        field start f.1 (stripReturn f.2) := by
      rw [Field.line, stripReturn_blank, readLine, splitFirst_append (hword _ rfl)]
      show field start (String.ofList f.1.toList) _ = _
      rw [String.ofList_toList]
    unfold readState
    rw [stateText, flatMap_cons, append_assoc, singleton_append, lines_append hline, foldlM_cons,
      foldlM_cons, hread]
    congr 1
    ext s
    exact ih hrest

variable (field) in
/-- Lines of one word, one for each of a list. -/
theorem foldlM_pushes {α : Type} (line : α → Field) (push : S → List α → S) (hnil : ∀ s, push s [] = s)
    (hcons : ∀ s a xs, push (push s [a]) xs = push s (a :: xs))
    (h : ∀ s a, field s (line a).1 (stripReturn (line a).2) = .ok (push s [a])) (xs : List α) (s : S) :
    (xs.map line).foldlM (fun s f => field s f.1 (stripReturn f.2)) s = .ok (push s xs) := by
  induction xs generalizing s with
  | nil => exact congrArg _ (hnil s).symm
  | cons a xs ih =>
    rw [map_cons, foldlM_cons, h]
    exact (ih _).trans (congrArg _ (hcons s a xs))

end

/-! ### Values -/

/-- `value.parse::<ObjectId>()` -/
def readOid (corrupt : String) (value : Text) : Except String ObjectId :=
  match ObjectId.fromHex (utf8 (String.ofList value)) with
  | some id => .ok id
  | none => .error corrupt

/-- `value.parse::<usize>()` -/
def parseUsize (value : Text) : Option Nat :=
  let digits := if value.head? = some '+' then value.tail else value
  if digits ≠ [] ∧ digits.all Char.isDigit ∧ natOf digits < 2 ^ 64 then some (natOf digits) else none

@[simp] theorem readOid_hexText (corrupt : String) (id : ObjectId) : readOid corrupt id.hexText = .ok id := by
  simp [readOid]

theorem parseUsize_toDigits (n : Nat) :
    parseUsize (Nat.toDigits 10 n) = if n < 2 ^ 64 then some n else none := by
  have hdigit := @isDigit_of_mem_toDigits n
  have hhead : (Nat.toDigits 10 n).head? ≠ some '+' := fun h =>
    absurd (hdigit _ (mem_of_head? h)) (by decide)
  have hall : (Nat.toDigits 10 n).all Char.isDigit = true := all_eq_true.mpr hdigit
  unfold parseUsize
  simp [hhead, hall, Nat.toDigits_ne_nil]

theorem stripReturn_eq_self {text : Text} (h : '\r' ∉ text) : stripReturn text = text :=
  if_neg fun hlast => h (mem_of_getLast? hlast)

theorem not_mem_hexText (id : ObjectId) : '\n' ∉ id.hexText ∧ '\r' ∉ id.hexText := by
  have hdigits : ∀ n < 16, hexDigit n ≠ '\n' ∧ hexDigit n ≠ '\r' := by decide
  constructor <;> intro hmem <;> obtain ⟨n, hn, hc⟩ := isHexDigit_of_mem hmem
  · exact (hdigits n hn).1 hc.symm
  · exact (hdigits n hn).2 hc.symm

@[simp] theorem stripReturn_hexText (id : ObjectId) : stripReturn id.hexText = id.hexText :=
  stripReturn_eq_self (not_mem_hexText id).2

@[simp] theorem stripReturn_toDigits (n : Nat) : stripReturn (Nat.toDigits 10 n) = Nat.toDigits 10 n :=
  stripReturn_eq_self fun h => absurd (isDigit_of_mem_toDigits _ h) (by decide)

theorem newline_not_mem_toDigits (n : Nat) : '\n' ∉ Nat.toDigits 10 n :=
  fun h => absurd (isDigit_of_mem_toDigits _ h) (by decide)

/-! ### REVERT_STATE -/

def corruptRevert : String := "corrupt REVERT_STATE"

structure RevertStateParts where
  current : Option ObjectId
  todo : List ObjectId
  mainline : Option Nat
  orig : Option ObjectId

def RevertStateParts.field (s : RevertStateParts) (key : String) (value : Text) :
    Except String RevertStateParts :=
  if key = "current" then (readOid corruptRevert value).map fun id => { s with current := some id }
  else if key = "todo" then (readOid corruptRevert value).map fun id => { s with todo := s.todo ++ [id] }
  else if key = "mainline" then
    match parseUsize value with
    | some n => .ok { s with mainline := some n }
    | none => .error corruptRevert
  else if key = "orig" then (readOid corruptRevert value).map fun id => { s with orig := some id }
  else .error corruptRevert

def RevertState.parse (text : Text) : Except String RevertState := do
  let s ← readState corruptRevert RevertStateParts.field ⟨none, [], none, none⟩ text
  match s.orig with
  | some orig => return ⟨s.current, s.todo, s.mainline, orig⟩
  | none => .error corruptRevert

def RevertState.text (s : RevertState) : Text :=
  stateText (("orig", s.orig.hexText) :: ((s.current.map fun c => ("current", c.hexText)).toList ++
    ((s.mainline.map fun m => ("mainline", Nat.toDigits 10 m)).toList ++
      s.todo.map fun t => ("todo", t.hexText))))

theorem RevertState.parse_text (s : RevertState) : parse s.text =
    if ∀ m ∈ s.mainline, m < 2 ^ 64 then .ok s else .error corruptRevert := by
  have hid : ∀ (p : RevertStateParts) (id : ObjectId),
      p.field "orig" id.hexText = .ok { p with orig := some id } ∧
        p.field "current" id.hexText = .ok { p with current := some id } := by
    simp [RevertStateParts.field, Except.map]
  have hmainline : ∀ (p : RevertStateParts) (m : Nat), p.field "mainline" (Nat.toDigits 10 m) =
      if m < 2 ^ 64 then .ok { p with mainline := some m } else .error corruptRevert := by
    intro p m
    unfold RevertStateParts.field
    rw [if_neg (by simp), if_neg (by simp), if_pos rfl, parseUsize_toDigits]
    split_ifs <;> rfl
  have htodo := foldlM_pushes RevertStateParts.field (fun t : ObjectId => ("todo", t.hexText))
    (fun p ids => { p with todo := p.todo ++ ids })
    (by simp) (by simp) (by simp [RevertStateParts.field, Except.map])
  unfold parse text
  rw [readState_stateText]
  · obtain ⟨current, todo, mainline, orig⟩ := s
    cases current <;> cases mainline <;>
      simp only [Option.map_none, Option.map_some, Option.toList_none, Option.toList_some, nil_append,
        cons_append, foldlM_cons, stripReturn_hexText, stripReturn_toDigits, hid, hmainline, htodo,
        bind, Except.bind, Option.mem_def, Option.some.injEq, forall_eq']
    case none.none => simp [pure, Except.pure]
    case some.none => simp [pure, Except.pure]
    -- a number that is too large is not read
    all_goals split_ifs <;> rfl
  · simp [or_imp, forall_and, Field.Plain, not_mem_hexText, newline_not_mem_toDigits]

/-! ### REBASE_STATE -/

def corruptRebase : String := "corrupt REBASE_STATE"

def Action.word : Action → String
  | .pick => "pick"
  | .reword => "reword"
  | .squash => "squash"
  | .fixup => "fixup"
  | .drop => "drop"

/-- `<action> <oid>`, trusted as written. -/
def parseStepLine (value : Text) : Except String (Action × ObjectId) :=
  match splitFirst ' ' value with
  | none => .error corruptRebase
  | some (word, c) =>
    match [Action.pick, .reword, .squash, .fixup, .drop].find? fun a => a.word = String.ofList word with
    | none => .error corruptRebase
    | some action => (readOid corruptRebase c).map fun id => (action, id)

structure RebaseStateParts where
  branch : Option String
  orig : Option ObjectId
  onto : Option ObjectId
  current : Option (Action × ObjectId)
  todo : List (Action × ObjectId)

def RebaseStateParts.field (s : RebaseStateParts) (key : String) (value : Text) :
    Except String RebaseStateParts :=
  if key = "branch" then .ok { s with branch := some (String.ofList value) }
  else if key = "orig" then (readOid corruptRebase value).map fun id => { s with orig := some id }
  else if key = "onto" then (readOid corruptRebase value).map fun id => { s with onto := some id }
  else if key = "current" then (parseStepLine value).map fun step => { s with current := some step }
  else if key = "todo" then (parseStepLine value).map fun step => { s with todo := s.todo ++ [step] }
  else .error corruptRebase

def RebaseState.parse (text : Text) : Except String RebaseState := do
  let s ← readState corruptRebase RebaseStateParts.field ⟨none, none, none, none, []⟩ text
  match s.branch, s.orig, s.onto with
  | some branch, some orig, some onto => return ⟨branch, orig, onto, s.current, s.todo⟩
  | _, _, _ => .error corruptRebase

def stepText (step : Action × ObjectId) : Text := step.1.word.toList ++ ' ' :: step.2.hexText

def RebaseState.text (s : RebaseState) : Text :=
  stateText (("branch", s.branch.toList) :: ("orig", s.orig.hexText) :: ("onto", s.onto.hexText) ::
    ((s.current.map fun step => ("current", stepText step)).toList ++
      s.todo.map fun step => ("todo", stepText step)))

@[simp] theorem stripReturn_stepText (step : Action × ObjectId) : stripReturn (stepText step) = stepText step := by
  rw [stepText, stripReturn_blank, stripReturn_hexText]

@[simp] theorem parseStepLine_stepText (step : Action × ObjectId) : parseStepLine (stepText step) = .ok step := by
  obtain ⟨action, id⟩ := step
  have hblank : ' ' ∉ action.word.toList := by cases action <;> simp [Action.word]
  unfold parseStepLine stepText
  rw [splitFirst_append hblank]
  cases action <;> simp [Action.word, Except.map]

theorem newline_not_mem_stepText (step : Action × ObjectId) : '\n' ∉ stepText step := by
  unfold stepText
  cases step.1 <;> simp [Action.word, not_mem_hexText]

/-- What its line keeps of a branch. -/
def keptBranch (branch : String) : String := String.ofList (stripReturn branch.toList)

theorem RebaseState.parse_text (s : RebaseState) (h : '\n' ∉ s.branch.toList) :
    parse s.text = .ok { s with branch := keptBranch s.branch } := by
  have hid : ∀ (p : RebaseStateParts) (id : ObjectId),
      p.field "orig" id.hexText = .ok { p with orig := some id } ∧
        p.field "onto" id.hexText = .ok { p with onto := some id } := by
    simp [RebaseStateParts.field, Except.map]
  have hcurrent : ∀ (p : RebaseStateParts) step,
      p.field "current" (stepText step) = .ok { p with current := some step } := by
    simp [RebaseStateParts.field, Except.map]
  have htodo := foldlM_pushes RebaseStateParts.field (fun step => ("todo", stepText step))
    (fun p steps => { p with todo := p.todo ++ steps })
    (by simp) (by simp) (by simp [RebaseStateParts.field, Except.map])
  unfold parse text
  rw [readState_stateText]
  · obtain ⟨branch, orig, onto, current, todo⟩ := s
    cases current <;>
      simp only [Option.map_none, Option.map_some, Option.toList_none, Option.toList_some, nil_append,
        cons_append, foldlM_cons, stripReturn_hexText, stripReturn_stepText, hid, hcurrent, htodo, bind, Except.bind]
    all_goals rfl
  · simp only [mem_cons, mem_append, mem_map, Option.mem_toList, Option.map_eq_some_iff]
    rintro f (rfl | rfl | rfl | ⟨step, -, rfl⟩ | ⟨step, -, rfl⟩) <;>
      simp [Field.Plain, h, not_mem_hexText, newline_not_mem_stepText]

/-! ### BISECT_STATE -/

def corruptBisect : String := "corrupt BISECT_STATE"

def BisectState.field (s : BisectState) (key : String) (value : Text) : Except String BisectState :=
  if key = "branch" then .ok { s with branch := String.ofList value }
  else if key = "bad" then (readOid corruptBisect value).map fun id => { s with bad := some id }
  else if key = "good" then (readOid corruptBisect value).map fun id => { s with good := s.good ++ [id] }
  else if key = "skip" then (readOid corruptBisect value).map fun id => { s with skip := s.skip ++ [id] }
  else .error corruptBisect

def BisectState.parse (text : Text) : Except String BisectState := do
  let s ← readState corruptBisect field ⟨"", none, [], []⟩ text
  if s.branch = "" then .error corruptBisect else return s

def BisectState.text (s : BisectState) : Text :=
  stateText (("branch", s.branch.toList) :: ((s.bad.map fun b => ("bad", b.hexText)).toList ++
    ((s.good.map fun g => ("good", g.hexText)) ++ s.skip.map fun k => ("skip", k.hexText))))

theorem BisectState.parse_text (s : BisectState) (h : '\n' ∉ s.branch.toList) : parse s.text =
    if keptBranch s.branch = "" then .error corruptBisect
    else .ok { s with branch := keptBranch s.branch } := by
  have hbad : ∀ (p : BisectState) (id : ObjectId), p.field "bad" id.hexText = .ok { p with bad := some id } := by
    simp [field, Except.map]
  have hgood := foldlM_pushes field (fun g : ObjectId => ("good", g.hexText))
    (fun p ids => { p with good := p.good ++ ids })
    (by simp) (by simp) (by simp [field, Except.map])
  have hskip := foldlM_pushes field (fun k : ObjectId => ("skip", k.hexText))
    (fun p ids => { p with skip := p.skip ++ ids })
    (by simp) (by simp) (by simp [field, Except.map])
  unfold parse text
  rw [readState_stateText]
  · obtain ⟨branch, bad, good, skip⟩ := s
    cases bad <;>
      simp only [Option.map_none, Option.map_some, Option.toList_none, Option.toList_some, nil_append,
        cons_append, foldlM_cons, foldlM_append, stripReturn_hexText, hbad, hgood, hskip, bind, Except.bind]
    all_goals rfl
  · simp [or_imp, forall_and, Field.Plain, h, not_mem_hexText]

/-- **State files.** A revert comes back as it was written, whatever waits in it; a rebase and a bisect
    with the branch that its line keeps: a carriage return at its end is lost, and a bisect of no branch
    is not read. -/
theorem state_files_return :
    (∀ s : RevertState, RevertState.parse s.text =
      if ∀ m ∈ s.mainline, m < 2 ^ 64 then .ok s else .error corruptRevert) ∧
    (∀ s : RebaseState, '\n' ∉ s.branch.toList →
      RebaseState.parse s.text = .ok { s with branch := keptBranch s.branch }) ∧
    ∀ s : BisectState, '\n' ∉ s.branch.toList → BisectState.parse s.text =
      if keptBranch s.branch = "" then .error corruptBisect
      else .ok { s with branch := keptBranch s.branch } :=
  ⟨RevertState.parse_text, RebaseState.parse_text, BisectState.parse_text⟩

theorem state_files_return_main :
    RebaseState.parse (RebaseState.text ⟨"main", .zeroOid .sha1, .zeroOid .sha1, none, []⟩) =
      .ok ⟨"main", .zeroOid .sha1, .zeroOid .sha1, none, []⟩ := by
  have h := state_files_return.2.1 ⟨"main", .zeroOid .sha1, .zeroOid .sha1, none, []⟩ (by simp)
  simpa [keptBranch, stripReturn] using h

end Alt.Repo
