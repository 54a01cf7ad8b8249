import Alt.Repo.Commands

namespace Alt.Repo

open Alt.Library Alt.Odb Alt.Refs

/-!
# Sequences of commits (`native/revert.rs`, `native/rebase.rs`, `native/bisect.rs`)

`revert` and `rebase` work through a list of commits and may stop at each of them; what is left
is kept in a state file until `--continue`, `--skip` or `--abort`.  A rebase hands HEAD to a
scratch ref and moves the branch at its end only; a bisect hands HEAD to one as well.
-/

section

variable (env : Env)

/-- The first seven digits of an id. -/
def shortId (c : ObjectId) : String := String.ofList (c.hexText.take 7)

/-- Every path of the index once, conflicted ones included. -/
def knownEntries (index : Index) : List WorkEntry :=
  (index.splitBy fun a b => a.path == b.path).filterMap fun run => run.head?.map IndexEntry.entry

/-! ### Revert -/

inductive Reverted
  | committed (commit : ObjectId)
  | conflicted (paths : List Bytes)

/-- The parent a revert goes back to. -/
def revertParent (target : ObjectId) (mainline : Option Nat) : Cmd (Option ObjectId) := do
  let parents ← fromExcept (commitParents (← get).objects target)
  let n := parents.length
  match mainline with
  | none =>
    if n ≤ 1 then return parents.head?
    else fail ("revert: commit " ++ shortId target ++ " is a merge (" ++ toString n ++
      " parents) but no -m option was given")
  | some m =>
    if n < 2 then
      fail ("revert: mainline was specified but commit " ++ shortId target ++ " is not a merge")
    else
      match if m = 0 then none else parents[m - 1]? with
      | some p => return some p
      | none => fail ("revert: commit " ++ shortId target ++ " does not have parent " ++
          toString m ++ " (it has " ++ toString n ++ ")")

def revertTitle (subject : String) : String :=
  if subject.startsWith "Revert \"" && subject.endsWith "\"" && 9 ≤ subject.length then
    "Reapply \"" ++ String.ofList ((subject.toList.drop 8).dropLast) ++ "\""
  else "Revert \"" ++ subject ++ "\""

/-- The message of a revert. -/
def revertMessage (target : ObjectId) (mainline : Option Nat) : Cmd String := do
  let commit ← fromExcept (readCommit (← get).objects target)
  let title := revertTitle (env.subject commit)
  let hex := String.ofList target.hexText
  match mainline with
  | none => return title ++ "\n\nThis reverts commit " ++ hex ++ ".\n"
  | some _ => do
    match ← revertParent target mainline with
    | none => fail "merge without parents"
    | some parent =>
      return title ++ "\n\nThis reverts commit " ++ hex ++ ", reversing\nchanges made to " ++
        String.ofList parent.hexText ++ ".\n"

/-- Records a revert commit, refusing one that changes nothing. -/
def commitRevert (head tree : ObjectId) (message : String) : Cmd ObjectId := do
  let headTree ← fromExcept (commitTree (← get).objects head)
  if headTree = tree then fail "revert: nothing to commit, the revert changes nothing"
  else
    let branch ← currentBranch env
    recordCommit env ⟨tree, [head], env.me, env.me, message⟩ branch (some head) "revert"

/-- Reverts one commit onto the branch tip. -/
def revertOne (target : ObjectId) (mainline : Option Nat) : Cmd Reverted := do
  let head ← branchTip env "revert: the branch has no commits yet"
  let parent ← revertParent target mainline
  let base ← entriesOf env target
  let ours ← entriesOf env head
  let theirs ← entriesAt env parent
  let resolved ← onObjects (mergeTrees env.P env.algo ("parent of " ++ shortId target) base ours
    theirs)
  if resolved.any Resolved.conflicted then
    writeConflicted env resolved
    return .conflicted ((resolved.filter Resolved.conflicted).map Resolved.path)
  else
    let entries := resolved.filterMap Resolved.entry
    let tree ← onObjects (writeTree env.P env.algo entries)
    let old ← indexedEntries env
    checkout env old entries
    let message ← revertMessage env target mainline
    return .committed (← commitRevert env head tree message)

def clearRevertState : Cmd Unit := setControl env fun c => { c with revert := none }

/-- Reverts the commits in turn; a conflict stops it, with the rest saved. -/
def runReverts (mainline : Option Nat) (orig : ObjectId) : List ObjectId → Cmd Bool
  | [] => do
    clearRevertState env
    return false
  | target :: todo => do
    match ← revertOne env target mainline with
    | .committed _ => do
      let _ ← revertMessage env target mainline
      runReverts mainline orig todo
    | .conflicted _ => do
      setControl env fun c => { c with revert := some ⟨some target, todo, mainline, orig⟩ }
      return true

/-- `alt revert`, of the commits the revisions name. -/
def revert (revs : List (Res ObjectId)) (mainline : Option Nat) : Cmd Bool := do
  ensureTopicBranchOrUnborn env "revert"
  ensureNoMergeInProgress env "revert"
  ensureClean env "revert"
  let todo ← revs.mapM fun r => (fromExcept r : Cmd ObjectId)
  let orig ← branchTip env "revert: the branch has no commits yet"
  runReverts env mainline orig todo

def revertState (verb : String) : Cmd RevertState := do
  match (← control env).revert with
  | some state => pure state
  | none => fail (verb ++ ": no revert in progress")

/-- Commits the revert that stopped. -/
def commitResolved (state : RevertState) (current : ObjectId) : Cmd Unit := do
  if unmerged (← control env).index then
    fail "revert --continue: resolve the conflicts and `alt add` them first"
  else
    let head ← branchTip env "revert --continue: the branch has no commits yet"
    let tree ← stagedTree env
    let message ← revertMessage env current state.mainline
    let _ ← commitRevert env head tree message

def commitPending (state : RevertState) : Cmd Unit :=
  match state.current with
  | some current => commitResolved env state current
  | none => pure ()

/-- `alt revert --continue`. -/
def revertContinue : Cmd Bool := do
  let state ← revertState env "revert --continue"
  commitPending env state
  runReverts env state.mainline state.orig state.todo

/-- `alt revert --abort`. -/
def revertAbort : Cmd Unit := do
  let state ← revertState env "revert --abort"
  let branch ← currentBranch env
  let head ← branchTip env "revert --abort: the branch has no commits yet"
  let known := knownEntries (← control env).index
  let target ← entriesOf env state.orig
  checkout env known target
  whenever (head != state.orig)
    (commitRefs env "revert" [⟨branch, some (.oid head), some (.oid state.orig)⟩])
  clearRevertState env

/-! ### Rebase -/

/-- The step goes into the commit before it. -/
def Action.melds : Action → Bool
  | .squash | .fixup => true
  | _ => false

inductive Picked
  | clean (tree : ObjectId)
  | conflicted (paths : List Bytes)

def rebaseRef : String := "rebase/" ++ env.workspace

def rebaseHead : Cmd ObjectId := resolveOr (rebaseRef env) "rebase: the scratch ref is missing"

def saveRebase (state : Option RebaseState) : Cmd Unit :=
  setControl env fun c => { c with rebase := state }

/-- The commits whose parents are done or not replayed, by date and id. -/
def readyCommits (mine : List (ObjectId × List ObjectId)) (done : List ObjectId) :
    List ObjectId :=
  (mine.filter fun e => e.1 ∉ done ∧ ∀ p ∈ e.2, p ∉ mine.map Prod.fst ∨ p ∈ done).map Prod.fst

def byDate (a b : Int × ObjectId) : Bool :=
  decide (a.1 < b.1) || (a.1 == b.1 && byOid a.2 b.2)

/-- Lists commits parents first; one round for each of them. -/
def replayOrder (mine : List (ObjectId × List ObjectId)) (objects : Objects) :
    Nat → List ObjectId → Res (List ObjectId)
  | 0, _ => .ok []
  | rounds + 1, done => do
    let dated ← (readyCommits mine done).mapM fun c => do
      let commit ← readCommit objects c
      return (env.date commit, c)
    match dated.insertionSort (byDate · ·) with
    | [] => .error .panic
    | (_, next) :: _ => do
      let rest ← replayOrder mine objects rounds (next :: done)
      return if ((mine.lookup next).getD []).length < 2 then next :: rest else rest

/-- The commits a rebase replays: those of `orig` that `onto` lacks, but for merges. -/
def commitsToReplay (objects : Objects) (orig onto : ObjectId) : Res (List ObjectId) := do
  let fromOrig ← ancestry objects env.fuel.history [orig]
  let fromOnto ← ancestry objects env.fuel.history [onto]
  let mine := fromOrig.filter fun e => e.1 ∉ fromOnto.map Prod.fst
  replayOrder env mine objects mine.length []

/-- Merges a commit's own change onto `head` and checks the result out. -/
def pick (head commit : ObjectId) : Cmd Picked := do
  let parents ← fromExcept (commitParents (← get).objects commit)
  let base ← entriesAt env parents.head?
  let ours ← entriesOf env head
  let theirs ← entriesOf env commit
  let resolved ← onObjects (mergeTrees env.P env.algo (shortId commit) base ours theirs)
  if resolved.any Resolved.conflicted then
    writeConflicted env resolved
    return .conflicted ((resolved.filter Resolved.conflicted).map Resolved.path)
  else
    let entries := resolved.filterMap Resolved.entry
    let tree ← onObjects (writeTree env.P env.algo entries)
    let old ← indexedEntries env
    checkout env old entries
    return .clean tree

def squashText (first next : String) : String :=
  "# This is a combination of 2 commits.\n# This is the 1st commit message:\n\n" ++ first ++
    "\n# This is the commit message #2:\n\n" ++ next

/-- What the editor makes of a message; an empty one stops the rebase. -/
def editedMessage (message : String) : Cmd String := do
  let edited ← fromExcept (env.edit message)
  if edited = "" then fail "rebase: aborting because the commit message is empty"
  else return edited

/-- The message of a step, from the message before it and its own. -/
def stepMessage (action : Action) (prev theirs : String) : Cmd String :=
  match action with
  | .squash => editedMessage env (squashText prev theirs)
  | .fixup => pure prev
  | .reword => editedMessage env theirs
  | .pick | .drop => pure theirs

/-- A commit's parents, author line and message. -/
structure CommitParts where
  parents : List ObjectId
  author : String
  message : String

def readCommitParts (objects : Objects) (c : ObjectId) : Res CommitParts := do
  let commit ← readCommit objects c
  let author ← env.authorLine commit
  let message ← env.text commit
  return ⟨commit.parents, author, message⟩

/-- The commit a step makes of a tree: a new one, or one in the place of the last. -/
def stepCommit (action : Action) (head commit tree : ObjectId) : Cmd NewCommit := do
  let theirs ← fromExcept (readCommitParts env (← get).objects commit)
  if action.melds then
    let prev ← fromExcept (readCommitParts env (← get).objects head)
    let message ← stepMessage env action prev.message theirs.message
    return ⟨tree, prev.parents, ← fromExcept (env.parseSig prev.author), env.me, message⟩
  else
    let message ← stepMessage env action "" theirs.message
    return ⟨tree, [head], ← fromExcept (env.parseSig theirs.author), env.me, message⟩

/-- Records one replayed step whose tree is ready. -/
def applyStep (action : Action) (commit tree : ObjectId) : Cmd Unit := do
  let head ← rebaseHead env
  let new ← stepCommit env action head commit tree
  let _ ← recordCommit env new (rebaseRef env) (some head) "rebase"

/-- Points HEAD back at the branch and drops the scratch ref. -/
def leaveScratch (branch : String) : Cmd Unit := do
  let scratch := rebaseRef env
  let at_ ← onRefs (resolve (← get).refs scratch)
  commitRefs env "rebase" [⟨env.headRef, some (.symbolic scratch), some (.symbolic branch)⟩,
    ⟨scratch, at_.map .oid, none⟩]

/-- Moves the branch to what was replayed, once nothing is left. -/
def finishRebase (state : RebaseState) : Cmd Unit := do
  let new ← rebaseHead env
  leaveScratch env state.branch
  whenever (new != state.orig)
    (commitRefs env "rebase" [⟨state.branch, some (.oid state.orig), some (.oid new)⟩])
  saveRebase env none

/-- Records a clean step; changes that are already in the new base leave nothing to replay. -/
def applyClean (action : Action) (head commit tree : ObjectId) : Cmd Unit := do
  let headTree ← fromExcept (commitTree (← get).objects head)
  if tree = headTree ∧ !action.melds then pure () else applyStep env action commit tree

/-- Runs the steps that are left; a conflict stops it. -/
def runRebase (state : RebaseState) : List (Action × ObjectId) → Cmd Bool
  | [] => do
    finishRebase env state
    return false
  | (action, commit) :: todo => do
    if action = .drop then
      saveRebase env (some { state with todo })
      runRebase state todo
    else
      let head ← rebaseHead env
      match ← pick env head commit with
      | .conflicted _ => do
        saveRebase env (some { state with current := some (action, commit), todo })
        return true
      | .clean tree => do
        applyClean env action head commit tree
        saveRebase env (some { state with todo })
        runRebase state todo

/-- Hands HEAD to the scratch ref, sitting on the new base, and starts. -/
def startRebase (branch : String) (orig onto : ObjectId) (todo : List (Action × ObjectId)) :
    Cmd Bool := do
  commitRefs env "rebase" [⟨rebaseRef env, none, some (.oid onto)⟩,
    ⟨env.headRef, some (.symbolic branch), some (.symbolic (rebaseRef env))⟩]
  let old ← entriesOf env orig
  let target ← entriesOf env onto
  checkout env old target
  saveRebase env (some ⟨branch, orig, onto, none, todo⟩)
  runRebase env ⟨branch, orig, onto, none, todo⟩ todo

/-- The todo list: every commit picked, or what becomes of that in the editor; nothing when the
    branch is up to date or the list comes back empty. -/
def rebaseTodo (objects : Objects) (orig onto : ObjectId)
    (edited : Option (List (Action × ObjectId) → Res (List (Action × ObjectId)))) :
    Res (Option (List (Action × ObjectId))) := do
  let commits ← commitsToReplay env objects orig onto
  let picks := commits.map fun c => (Action.pick, c)
  match edited with
  | none => do
    let bases ← mergeBases objects env.fuel.history [orig] [onto]
    return if bases = [onto] then none else some picks
  | some edit => do
    let todo ← edit picks
    return if todo = [] then none else some todo

/-- `alt rebase`, onto the commit a revision names; `edited` is what the todo list becomes. -/
def rebase (upstream : Res ObjectId)
    (edited : Option (List (Action × ObjectId) → Res (List (Action × ObjectId)))) : Cmd Bool := do
  ensureTopicBranchOrUnborn env "rebase"
  ensureNoMergeInProgress env "rebase"
  ensureClean env "rebase"
  let branch ← currentBranch env
  demand (branch.startsWith "refs/heads/") "rebase: HEAD is not on a branch"
  let onto ← fromExcept upstream
  let orig ← resolveOr branch "rebase: the branch has no commits yet"
  match ← fromExcept (rebaseTodo env (← get).objects orig onto edited) with
  | none => return false
  | some todo => startRebase env branch orig onto todo

def rebaseState (verb : String) : Cmd RebaseState := do
  match (← control env).rebase with
  | some state => pure state
  | none => fail (verb ++ ": no rebase in progress")

/-- Commits the step that stopped. -/
def commitStep (action : Action) (commit : ObjectId) : Cmd Unit := do
  if unmerged (← control env).index then
    fail "rebase --continue: resolve the conflicts and `alt add` them first"
  else
    let tree ← stagedTree env
    let head ← rebaseHead env
    let headTree ← fromExcept (commitTree (← get).objects head)
    if tree = headTree ∧ !action.melds then
      fail ("rebase --continue: no changes staged; if nothing is left of " ++
        "this commit, run `alt rebase --skip`")
    else applyStep env action commit tree

def commitStopped (state : RebaseState) : Cmd Unit :=
  match state.current with
  | some (action, commit) => do
    commitStep env action commit
    saveRebase env (some { state with current := none })
  | none => pure ()

/-- `alt rebase --continue`. -/
def rebaseContinue : Cmd Bool := do
  let state ← rebaseState env "rebase --continue"
  commitStopped env state
  runRebase env { state with current := none } state.todo

/-- Makes the index and the working tree match a commit. -/
def resetWorktreeTo (commit : ObjectId) : Cmd Unit := do
  let known := knownEntries (← control env).index
  let target ← entriesOf env commit
  checkout env known target

/-- `alt rebase --skip`. -/
def rebaseSkip : Cmd Bool := do
  let state ← rebaseState env "rebase --skip"
  let head ← rebaseHead env
  resetWorktreeTo env head
  saveRebase env (some { state with current := none })
  runRebase env { state with current := none } state.todo

/-- `alt rebase --abort`. -/
def rebaseAbort : Cmd Unit := do
  let state ← rebaseState env "rebase --abort"
  resetWorktreeTo env state.orig
  leaveScratch env state.branch
  saveRebase env none

/-! ### Bisect -/

def bisectRef : String := "bisect/" ++ env.workspace

def bisectHead : Cmd ObjectId := resolveOr (bisectRef env) "bisect: the scratch ref is missing"

/-- The commit to test next, if there is one. -/
abbrev BisectNext := Objects → BisectState → Res (Option ObjectId)

/-- Checks the next commit out. -/
def bisectStep (next : BisectNext) (state : BisectState) : Cmd Unit := do
  match ← fromExcept (next (← get).objects state) with
  | none => pure ()
  | some c => do
    ensureClean env "bisect"
    let at_ ← bisectHead env
    let old ← entriesOf env at_
    let target ← entriesOf env c
    checkout env old target
    commitRefs env "bisect" [⟨bisectRef env, some (.oid at_), some (.oid c)⟩]

def saveBisect (state : Option BisectState) : Cmd Unit :=
  setControl env fun c => { c with bisect := state }

/-- `alt bisect start`. -/
def bisectStart (next : BisectNext) (bad : Option (Res ObjectId)) (good : List (Res ObjectId)) :
    Cmd Unit := do
  ensureNoMergeInProgress env "bisect start"
  ensureClean env "bisect start"
  let branch ← currentBranch env
  demand (branch.startsWith "refs/heads/") "bisect start: HEAD is not on a branch"
  let tip ← resolveOr branch "bisect start: the branch has no commits yet"
  let bad ← bad.toList.mapM fun r => (fromExcept r : Cmd ObjectId)
  let good ← good.mapM fun r => (fromExcept r : Cmd ObjectId)
  let state : BisectState := ⟨branch, bad.head?, good, []⟩
  commitRefs env "bisect" [⟨bisectRef env, none, some (.oid tip)⟩,
    ⟨env.headRef, some (.symbolic branch), some (.symbolic (bisectRef env))⟩]
  saveBisect env (some state)
  bisectStep env next state

inductive Verdict
  | bad | good | skip

def Verdict.word : Verdict → String
  | .bad => "bad"
  | .good => "good"
  | .skip => "skip"

/-- A verdict on commits. -/
def markState (state : BisectState) (commits : List ObjectId) : Verdict → Res BisectState
  | .bad =>
    if 1 < commits.length then .error (.message "bisect bad: only one commit can be bad")
    else .ok { state with bad := commits.head? }
  | .good => .ok { state with good := state.good ++ commits }
  | .skip => .ok { state with skip := state.skip ++ commits }

/-- The commits a verdict is on: the ones named, or the one being tested. -/
def markedCommits (revs : List (Res ObjectId)) : Cmd (List ObjectId) :=
  if revs.isEmpty then do
    let c ← bisectHead env
    return [c]
  else revs.mapM fun r => (fromExcept r : Cmd ObjectId)

/-- `alt bisect good`, `bad` and `skip`. -/
def bisectMark (next : BisectNext) (verdict : Verdict) (revs : List (Res ObjectId)) : Cmd Unit := do
  match (← control env).bisect with
  | none => fail ("bisect " ++ verdict.word ++ ": no bisect in progress; run `alt bisect start`")
  | some state => do
    let commits ← markedCommits env revs
    let state ← fromExcept (markState state commits verdict)
    saveBisect env (some state)
    bisectStep env next state

/-- `alt bisect reset`. -/
def bisectReset : Cmd Unit := do
  match (← control env).bisect with
  | none => fail "bisect reset: no bisect in progress"
  | some state => do
    let at_ ← bisectHead env
    ensureClean env "bisect reset"
    let tip ← resolveOr state.branch "bisect reset: the branch is gone"
    let old ← entriesOf env at_
    let target ← entriesOf env tip
    checkout env old target
    commitRefs env "bisect" [⟨env.headRef, some (.symbolic (bisectRef env)), some (.symbolic state.branch)⟩,
      ⟨bisectRef env, some (.oid at_), none⟩]
    saveBisect env none

end

end Alt.Repo
