import Alt.Repo.Checkout

namespace Alt.Repo

open Alt.Library Alt.Odb Alt.Refs

/-!
# The commands (`native.rs`, 742–800, 1869–2160; `native/commit.rs`, `native/cherry_pick.rs`)

The commands of one workspace, each as the program it runs: which gates it asks, in which order it
touches the refs, the working tree, the index and the state files.  What a command prints is left
out; `merge` and its kin return whether they stopped on a conflict.
-/

/-! ### Gates -/

section

variable (env : Env)

/-- The git-flow branches and prefixes. -/
structure BranchModel where
  main : String
  develop : String

/-- The production branch is whichever of `master` and `main` exists. -/
def flowModel (refs : RefMap) : BranchModel where
  main :=
    if refs["refs/heads/master"]?.isNone && refs["refs/heads/main"]?.isSome then "main"
    else "master"
  develop := "develop"

/-- The refusal to work on a protected branch directly. -/
def protectedText (verb short topic kind : String) : String :=
  "refusing to " ++ verb ++ " directly on protected branch '" ++ short ++ "'.\n" ++
  "alt's collaboration model is git-flow; topic branches are how work merges " ++
  "back. To carry your staged changes onto a topic branch right now:\n" ++
  "\n" ++
  " alt switch -c " ++ topic ++ "<name>\n" ++
  "\n" ++
  "Or formally via flow (requires a clean index first):\n" ++
  " alt flow " ++ kind ++ " start <name>\n" ++
  "\n" ++
  "(override with ALT_PROTECTED_OVERRIDE=1 only for emergency recovery — " ++
  "not for normal work.)"

/-- Once flow is set up, the long-lived branches are worked on through topic branches. -/
def topicBranchOrUnborn (refs : RefMap) (verb : String) : Res Unit :=
  if env.protectedOverride then .ok ()
  else
    match headBranch env refs with
    | .error e => .error e
    | .ok head =>
      let model := flowModel refs
      let short := stripPrefix "refs/heads/" head
      if !head.startsWith "refs/heads/" || !(short == model.main || short == model.develop) then .ok ()
      else
        match resolve refs ("refs/heads/" ++ model.develop), resolve refs head with
        | .error e, _ => .error (.refs e)
        | .ok none, _ => .ok ()
        | .ok (some _), .error e => .error (.refs e)
        | .ok (some _), .ok none => .ok ()
        | .ok (some _), .ok (some _) =>
          .error (.message (if short == model.main then protectedText verb short "hotfix/" "hotfix"
            else protectedText verb short "feature/" "feature"))

def ensureTopicBranchOrUnborn (verb : String) : Cmd Unit := do
  fromExcept (topicBranchOrUnborn env (← get).refs verb)

/-- What is in the way of `verb`: a merge, a bisect, a rebase or a revert that is not finished. -/
def inProgress (c : Control) (verb : String) : Option String :=
  if c.mergeHead.isSome then
    some (verb ++ ": a merge is in progress; resolve the conflicts and commit it first")
  else if c.bisect.isSome then
    some (verb ++ ": a bisect is in progress; end it with `alt bisect reset`")
  else if c.rebase.isSome then
    some (verb ++ ": a rebase is in progress; finish it with `alt rebase --continue`, " ++
      "`--skip` or `--abort`")
  else if c.revert.isSome then
    some (verb ++ ": a revert is in progress; finish it with `alt revert --continue` " ++
      "or `alt revert --abort`")
  else none

def ensureNoMergeInProgress (verb : String) : Cmd Unit := do
  match inProgress (← control env) verb with
  | some text => fail text
  | none => pure ()

/-- The commit HEAD's branch is at, or what to say if there is none. -/
def branchTip (text : String) : Cmd ObjectId := do
  match ← fromExcept (headCommit env (← get).refs) with
  | some c => pure c
  | none => fail text

/-- A commit's entries. -/
def entriesOf (c : ObjectId) : Cmd (List WorkEntry) := do
  fromExcept (commitEntries (← get).objects env.algo env.fuel.tree c)

/-- The index's entries, stage 0 only. -/
def indexedEntries : Cmd (List WorkEntry) := do return indexEntries (← control env).index

/-- The branch a command works on. -/
def currentBranch : Cmd String := do fromExcept (headBranch env (← get).refs)

/-- What a name resolves to, or what to say if there is nothing. -/
def resolveOr (name text : String) : Cmd ObjectId := do
  match ← onRefs (resolve (← get).refs name) with
  | some c => pure c
  | none => fail text

/-! ### Recording commits -/

def notesRef : String := "refs/notes/alt/meta"

/-- The content of a commit about to be written. -/
structure NewCommit where
  tree : ObjectId
  parents : List ObjectId
  author : Sig
  committer : Sig
  message : String

/-- The index's stage-0 entries written out as a tree. -/
def stagedTree : Cmd ObjectId := do
  let staged ← indexedEntries env
  if staged = [] then fail "nothing to commit (empty index)"
  else onObjects (writeTree env.P env.algo staged)

/-- The note on a commit, and the change that publishes it. -/
def noteChange (commit : ObjectId) : Cmd RefChange := do
  let r ← get
  let tip ← onRefs (resolve r.refs notesRef)
  let (objects, new) ← fromExcept (env.note r.objects r.refs commit)
  objects.forM fun o => do
    let _ ← onObjects (store env.P env.algo o.1 o.2)
    pure ()
  return ⟨notesRef, tip.map .oid, some (.oid new)⟩

/-- Stores a commit and moves `branch` to it, with the note on it, in one ref transaction. -/
def recordCommit (c : NewCommit) (branch : String) (old : Option ObjectId) (verb : String) :
    Cmd ObjectId := do
  let bytes ← fromExcept (env.signed (buildCommitBytes c.tree c.parents c.author c.committer c.message))
  let commit ← onObjects (store env.P env.algo .commit bytes)
  let note ← noteChange env commit
  commitRefs env verb [⟨branch, old.map .oid, some (.oid commit)⟩, note]
  return commit

def withNewline (message : String) : String :=
  if message.endsWith "\n" then message else message ++ "\n"

def runPrecommit : Cmd Unit := do
  let r ← get
  let head ← fromExcept (headEntries env r)
  fromExcept (env.precommit r.objects head (indexEntries (r.controls env.workspace).index))

/-- A stopped revert or rebase goes on without the step that was just committed. -/
def stepCommitted : Cmd Unit :=
  setControl env fun c =>
    { c with
      revert := c.revert.map fun s => { s with current := none }
      rebase := c.rebase.map fun s => { s with current := none } }

/-- A commit that changes nothing is refused, merges aside. -/
def ensureChanges (parent merging : Option ObjectId) (allowEmpty : Bool) (tree : ObjectId) :
    Cmd Unit :=
  match parent with
  | none => pure ()
  | some p =>
    if merging.isSome || allowEmpty then pure ()
    else do
      let headTree ← fromExcept (commitTree (← get).objects p)
      demand (headTree != tree) ("nothing to commit: the index matches HEAD (use --allow-empty to " ++
        "record an empty commit)")

/-- `alt commit`. -/
def commit (message : String) (allowEmpty noVerify : Bool) : Cmd ObjectId := do
  ensureWritable env "commit"
  ensureTopicBranchOrUnborn env "commit"
  demand (← control env).bisect.isNone
    "commit: a bisect is in progress; end it with `alt bisect reset`"
  let tree ← stagedTree env
  let branch ← currentBranch env
  let parent ← onRefs (resolve (← get).refs branch)
  let merging := (← control env).mergeHead
  ensureChanges parent merging allowEmpty tree
  whenever (!noVerify) (runPrecommit env)
  let new ← recordCommit env ⟨tree, parent.toList ++ merging.toList, env.me, env.me,
    withNewline message⟩ branch parent "commit"
  whenever merging.isSome (setControl env fun c => { c with mergeHead := none })
  stepCommitted env
  return new

/-- The message of an amended commit: the new one, or the old. -/
def amendText (message : Option String) (prev : Commit) : Res String :=
  match message with
  | some m => .ok (withNewline m)
  | none => env.text prev

/-- `alt commit --amend`. -/
def amend (message : Option String) (noVerify : Bool) : Cmd ObjectId := do
  ensureWritable env "commit --amend"
  ensureTopicBranchOrUnborn env "commit --amend"
  ensureNoMergeInProgress env "commit --amend"
  let branch ← currentBranch env
  let old ← resolveOr branch "commit --amend: there is no commit to amend yet"
  let prev ← fromExcept (readCommit (← get).objects old)
  let authorLine ← fromExcept (env.authorLine prev)
  let author ← fromExcept (env.parseSig authorLine)
  let text ← fromExcept (amendText env message prev)
  let tree ← stagedTree env
  whenever (!noVerify) (runPrecommit env)
  recordCommit env ⟨tree, prev.parents, author, env.me, text⟩ branch (some old) "amend"

/-! ### Switching and merging -/

/-- A segment of a branch name. -/
def badSegment (seg : List Char) : Bool := seg.isEmpty || seg.head? == some '.'

/-- Minimal check of a branch name. -/
def isBranchName (name : String) : Bool :=
  let cs := name.toList
  !(cs.isEmpty || cs.head? == some '/' || cs.getLast? == some '/' || name.endsWith ".lock" ||
    (cs.tails.any fun rest => ['.', '.'].isPrefixOf rest || ['/', '/'].isPrefixOf rest) ||
    (cs.any fun c => "\\ ~^:?*[".toList.contains c || c.toNat < 0x20 || c.toNat == 0x7f) ||
    ((cs.splitOn '/').any badSegment))

/-- A new branch at a commit, if there is one. -/
def startBranch (full : String) : Option ObjectId → Cmd Unit
  | some c => commitRefs env "branch" [⟨full, none, some (.oid c)⟩]
  | none => pure ()

/-- A new branch off the current one; the working tree and the index carry over. -/
def switchCreate (name full current : String) : Cmd Unit := do
  demand (isBranchName name) ("'" ++ name ++ "' is not a valid branch name")
  demand ((← get).refs[full]?).isNone ("a branch named '" ++ name ++ "' already exists")
  startBranch env full (← onRefs (resolve (← get).refs current))
  moveHead env current full

/-- The entries of a commit; none before the first one. -/
def entriesAt : Option ObjectId → Cmd (List WorkEntry)
  | some c => entriesOf env c
  | none => pure []

def switchExisting (name full current : String) : Cmd Unit := do
  demand ((← get).refs[full]?).isSome ("invalid reference: " ++ name)
  if full = current then pure ()
  else
    ensureClean env "switch"
    let target ← entriesAt env (← onRefs (resolve (← get).refs full))
    let old ← indexedEntries env
    checkout env old target
    moveHead env current full

/-- `alt switch`. -/
def switch (name : String) (create : Bool) : Cmd Unit := do
  ensureNoMergeInProgress env "switch"
  let full := "refs/heads/" ++ name
  let current ← currentBranch env
  if create then switchCreate env name full current else switchExisting env name full current

/-- What `merge` does with its outcome. -/
def applyMerge (branch : String) (ours theirs : ObjectId) : MergeOutcome → Cmd Bool
  | .upToDate => pure false
  | .fastForward c => do
    let target ← entriesOf env c
    let old ← indexedEntries env
    checkout env old target
    advanceBranch env branch ours c
    return false
  | .merged c entries => do
    let old ← indexedEntries env
    checkout env old entries
    advanceBranch env branch ours c
    return false
  | .conflicted resolved => do
    writeConflicted env resolved
    setControl env fun c => { c with mergeHead := some theirs }
    return true

/-- `alt merge`. -/
def merge (name : String) : Cmd Bool := do
  ensureTopicBranchOrUnborn env "merge"
  let theirs ← resolveOr ("refs/heads/" ++ name) ("merge: " ++ name ++ " - not something we can merge")
  let branch ← currentBranch env
  let ours ← resolveOr branch "cannot merge into an unborn branch"
  ensureClean env "merge"
  let outcome ← onObjects (computeMerge env.P env.algo env.fuel env.me ours theirs name)
  applyMerge env branch ours theirs outcome

/-- The author and the message a picked commit gets. -/
abbrev PickText := ObjectId → Commit → Sig × String

def firstParent (commit : Commit) : Cmd ObjectId :=
  match commit.parents.head? with
  | some p => pure p
  | none => fail "cannot cherry-pick a root commit"

/-- `alt cherry-pick`, of the commit a revision names. -/
def cherryPick (rev : Res ObjectId) (text : PickText) : Cmd Bool := do
  ensureTopicBranchOrUnborn env "cherry-pick"
  let target ← fromExcept rev
  let picked ← fromExcept (readCommit (← get).objects target)
  let parent ← firstParent picked
  let branch ← currentBranch env
  let head ← resolveOr branch "cannot cherry-pick before the first commit"
  ensureClean env "cherry-pick"
  let base ← entriesOf env parent
  let ours ← entriesOf env head
  let theirs ← entriesOf env target
  let resolved ← onObjects (mergeTrees env.P env.algo (String.ofList (target.hexText.take 8)) base
    ours theirs)
  if resolved.any Resolved.conflicted then
    writeConflicted env resolved
    return true
  else
    let entries := resolved.filterMap Resolved.entry
    let tree ← onObjects (writeTree env.P env.algo entries)
    let headNow ← fromExcept (readCommit (← get).objects head)
    if headNow.tree = some tree then return false
    else
      let old ← indexedEntries env
      checkout env old entries
      let c ← onObjects (writeCommit env.P env.algo tree [head] (text target picked).1 env.me
        (text target picked).2)
      advanceBranch env branch head c
      return false

end

end Alt.Repo
