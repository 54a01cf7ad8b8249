import Alt.Repo.Flow
import Alt.Repo.Sequences
import Alt.Repo.Undo

namespace Alt.Repo

open Alt.Library Alt.Odb Alt.Refs

/-!
# What the commands leave alone

One lemma for each step the commands are put together from, and from them one for each command.

* a step that only reads changes nothing at all;
* `BlindTree` — what is no part of a working tree and its index; writing them does not change it;
* `Blind` — what no command but `commit` and `merge` changes: the merge in progress, and whatever
  belongs to other workspaces.
-/

variable {env : Env} {τ : Type} {f : NativeRepo → τ}

/-! ### Reading -/

variable {text : String}

theorem keeps_demand {c : Bool} : Keeps f (demand c text) := by
  rw [demand]
  split
  · exact .pure
  · exact .throw

theorem keeps_onRefs {α : Type} {x : Except RefError α} : Keeps f (onRefs x : Cmd α) := .lift

theorem keeps_whenever {c : Bool} {m : Cmd Unit} (h : Keeps f m) : Keeps f (whenever c m) := by
  rw [whenever]
  split
  · exact h
  · exact .pure

theorem keeps_control : Keeps f (control env) := fun _ => rfl

variable {verb : String}

theorem keeps_ensureWritable : Keeps f (ensureWritable env verb) := keeps_demand

theorem keeps_ensureTopicBranchOrUnborn :
    Keeps f (ensureTopicBranchOrUnborn env verb) := .bind .get fun _ => .lift

theorem keeps_ensureNoMergeInProgress :
    Keeps f (ensureNoMergeInProgress env verb) := by
  refine .bind keeps_control fun c => ?_
  split
  · exact .throw
  · exact .pure

theorem keeps_branchTip : Keeps f (branchTip env text) := by
  refine .bind .get fun _ => .bind .lift fun tip => ?_
  cases tip with
  | none => exact .throw
  | some c => exact .pure

theorem keeps_entriesOf {c : ObjectId} : Keeps f (entriesOf env c) := .bind .get fun _ => .lift

theorem keeps_indexedEntries : Keeps f (indexedEntries env) := .bind keeps_control fun _ => .pure

theorem keeps_currentBranch : Keeps f (currentBranch env) := .bind .get fun _ => .lift

theorem keeps_resolveOr {name : String} : Keeps f (resolveOr name text) := by
  refine .bind .get fun _ => .bind keeps_onRefs fun c => ?_
  cases c with
  | none => exact .throw
  | some c => exact .pure

theorem keeps_ensureClean {action : String} : Keeps f (ensureClean env action) := by
  intro r
  rw [ensureClean]
  split
  · rfl
  · split <;> rfl

theorem keeps_entriesAt {c : Option ObjectId} : Keeps f (entriesAt env c) := by
  cases c with
  | none => exact .pure
  | some c => exact keeps_entriesOf

theorem keeps_makeEntry {w : WorkEntry} : Keeps f (makeEntry env w) := by
  intro r
  rw [makeEntry]
  split
  · rfl
  · split <;> rfl

theorem keeps_ensureChanges {parent merging : Option ObjectId} {allowEmpty : Bool}
    {tree : ObjectId} : Keeps f (ensureChanges parent merging allowEmpty tree) := by
  rw [ensureChanges.eq_def]
  split
  · exact .pure
  · split
    · exact .pure
    · exact .bind .get fun _ => .bind .lift fun _ => keeps_demand

theorem keeps_runPrecommit : Keeps f (runPrecommit env) :=
  .bind .get fun _ => .bind .lift fun _ => .lift

theorem keeps_firstParent {c : Commit} : Keeps f (firstParent c) := by
  rw [firstParent]
  split
  · exact .pure
  · exact .throw

theorem keeps_flowBase {main : Option ObjectId} : Keeps f (flowBase env main) := by
  cases main with
  | some c => exact .pure
  | none => exact .bind keeps_currentBranch fun _ => keeps_resolveOr

theorem keeps_revertParent {target : ObjectId} {mainline : Option Nat} :
    Keeps f (revertParent target mainline) := by
  refine .bind .get fun _ => .bind .lift fun parents => ?_
  cases mainline with
  | none =>
    dsimp only
    split
    · exact .pure
    · exact .throw
  | some m =>
    dsimp only
    split
    · exact .throw
    · split
      · exact .pure
      · exact .throw

theorem keeps_revertMessage {target : ObjectId} {mainline : Option Nat} :
    Keeps f (revertMessage env target mainline) := by
  refine .bind .get fun _ => .bind .lift fun commit => ?_
  cases mainline with
  | none => exact .pure
  | some m =>
    refine .bind keeps_revertParent fun parent => ?_
    cases parent with
    | none => exact .throw
    | some p => exact .pure

theorem keeps_revertState : Keeps f (revertState env verb) := by
  refine .bind keeps_control fun c => ?_
  split
  · exact .pure
  · exact .throw

theorem keeps_rebaseState : Keeps f (rebaseState env verb) := by
  refine .bind keeps_control fun c => ?_
  split
  · exact .pure
  · exact .throw

theorem keeps_rebaseHead : Keeps f (rebaseHead env) := keeps_resolveOr

theorem keeps_bisectHead : Keeps f (bisectHead env) := keeps_resolveOr

theorem keeps_editedMessage {message : String} : Keeps f (editedMessage env message) := by
  refine .bind .lift fun edited => ?_
  split
  · exact .throw
  · exact .pure

theorem keeps_stepMessage {action : Action} {prev theirs : String} :
    Keeps f (stepMessage env action prev theirs) := by
  cases action with
  | squash => exact keeps_editedMessage
  | reword => exact keeps_editedMessage
  | fixup => exact .pure
  | pick => exact .pure
  | drop => exact .pure

theorem keeps_stepCommit {action : Action} {head commit tree : ObjectId} :
    Keeps f (stepCommit env action head commit tree) := by
  refine .bind .get fun _ => .bind .lift fun theirs => ?_
  split
  · exact .bind .get fun _ => .bind .lift fun prev => .bind keeps_stepMessage fun _ =>
      .bind .lift fun _ => .pure
  · exact .bind keeps_stepMessage fun _ => .bind .lift fun _ => .pure

theorem keeps_markedCommits {revs : List (Res ObjectId)} : Keeps f (markedCommits env revs) := by
  rw [markedCommits]
  split
  · exact .bind keeps_bisectHead fun _ => .pure
  · exact .mapM fun _ => .lift

/-! ### Writing the working tree and the index -/

/-- The repository with the workspace's own files replaced. -/
abbrev withControl (env : Env) (r : NativeRepo) (c : Control) : NativeRepo :=
  { r with controls := Function.update r.controls env.workspace c }

/-- `f` looks neither at files nor at the index of the workspace. -/
structure BlindTree (env : Env) (f : NativeRepo → τ) : Prop where
  files : ∀ r fs, f { r with fs } = f r
  index : ∀ (r : NativeRepo) (index : Index), f (withControl env r
    { r.controls env.workspace with index := index }) = f r

section Tree

variable (h : BlindTree env f)

include h

theorem keeps_onFiles {g : FileTree → Except IoError FileTree} : Keeps f (onFiles g) := by
  intro r
  rw [onFiles]
  split
  · exact h.files r _
  · rfl

theorem keeps_saveIndex {entries : Index} : Keeps f (saveIndex env entries) :=
  fun r => h.index r _

variable {path : List Bytes}

theorem keeps_createDirAll : Keeps f (createDirAll path) := by
  intro r
  rw [createDirAll]
  split <;> exact h.files r _

theorem keeps_clearPath : Keeps f (clearPath path) := by
  refine .bind .get fun r => ?_
  split
  · exact keeps_onFiles h
  · exact .pure

theorem keeps_removeTracked : Keeps f (removeTracked env path) := by
  refine .bind .get fun r => ?_
  split
  · exact .bind (keeps_onFiles h) fun _ => fun r => h.files r _
  · exact .pure

theorem keeps_materialize {w : WorkEntry} : Keeps f (materialize env w) := by
  rw [materialize]
  split
  · refine .bind (.bind .get fun r => ?_) fun _ => keeps_createDirAll h
    split
    · exact .pure
    · exact .pure
    · exact keeps_onFiles h
  · refine .bind (keeps_createDirAll h) fun _ => .bind (keeps_clearPath h) fun _ =>
      .bind .get fun r => ?_
    split
    · exact .throw
    · rw [writeBlob]
      split
      · exact keeps_onFiles h
      · exact .bind .lift fun _ => .bind (keeps_onFiles h) fun _ => keeps_onFiles h

theorem keeps_checkout {old target : List WorkEntry} : Keeps f (checkout env old target) := by
  refine .bind .get fun r => ?_
  split
  · exact .throw
  · refine .bind (.forM fun o => ?_) fun _ => .bind (.mapM fun t => ?_) fun _ => keeps_saveIndex h
    · split
      · exact .pure
      · exact keeps_removeTracked h
    · exact .bind (keeps_materialize h) fun _ => keeps_makeEntry

theorem keeps_writeConflicted {resolved : List Resolved} :
    Keeps f (writeConflicted env resolved) := by
  refine .bind (.forM fun r => ?_) fun _ => .bind (.mapM fun r => ?_) fun _ => keeps_saveIndex h
  · rw [writeResolved]
    split
    · exact .bind (keeps_createDirAll h) fun _ => .bind (keeps_clearPath h) fun _ =>
        keeps_onFiles h
    · split
      · exact keeps_materialize h
      · exact keeps_removeTracked h
  · rw [resolvedEntries]
    split
    · exact .pure
    · split
      · exact .bind keeps_makeEntry fun _ => .pure
      · exact .pure

end Tree

/-! ### Objects and refs -/

theorem keeps_onObjects {α : Type} {m : OdbM α}
    (h : ∀ (r : NativeRepo) (objects : Objects), f { r with objects } = f r) :
    Keeps f (onObjects m) := by
  intro r
  rw [onObjects]
  split <;> exact h r _

/-- `f` looks at nothing a command changes but the merge in progress, and not at that. -/
structure Blind (env : Env) (f : NativeRepo → τ) : Prop where
  objects : ∀ (r : NativeRepo) (objects : Objects), f { r with objects } = f r
  refs : ∀ (r : NativeRepo) (refs : RefMap) (ops : List Bytes), f { r with refs, ops } = f r
  files : ∀ (r : NativeRepo) (fs : FileTree), f { r with fs } = f r
  control : ∀ (r : NativeRepo) (c : Control),
    c.mergeHead = (r.controls env.workspace).mergeHead → f (withControl env r c) = f r

/-- The merge in progress in the workspace. -/
def mergeHeadOf (env : Env) (r : NativeRepo) : Option ObjectId :=
  (r.controls env.workspace).mergeHead

theorem blind_mergeHead : Blind env (mergeHeadOf env) where
  objects _ _ := rfl
  refs _ _ _ := rfl
  files _ _ := rfl
  control r c h := by
    have hown : ((withControl env r c).controls env.workspace) = c := Function.update_self ..
    rw [mergeHeadOf, hown, h]
    rfl

/-- The index and the state files of another workspace. -/
theorem blind_elsewhere {workspace : String} (h : workspace ≠ env.workspace) :
    Blind env fun r => r.controls workspace where
  objects _ _ := rfl
  refs _ _ _ := rfl
  files _ _ := rfl
  control _ _ _ := Function.update_of_ne h _ _

section Commands

variable (h : Blind env f)

include h

theorem Blind.tree : BlindTree env f where
  files := h.files
  index r _ := h.control r _ rfl

theorem Blind.keeps_onObjects {α : Type} {m : OdbM α} : Keeps f (onObjects m) :=
  Repo.keeps_onObjects h.objects

theorem Blind.keeps_checkout {old target : List WorkEntry} : Keeps f (checkout env old target) :=
  Repo.keeps_checkout h.tree

theorem Blind.keeps_writeConflicted {resolved : List Resolved} :
    Keeps f (writeConflicted env resolved) :=
  Repo.keeps_writeConflicted h.tree

theorem Blind.keeps_setControl {g : Control → Control} (hg : ∀ c, (g c).mergeHead = c.mergeHead) :
    Keeps f (setControl env g) :=
  fun r => h.control r _ (hg _)

theorem Blind.keeps_commitRefs {verb : String} {changes : List RefChange} :
    Keeps f (commitRefs env verb changes) := by
  intro r
  rw [commitRefs]
  split
  · rfl
  · exact h.refs r _ _

theorem Blind.keeps_moveHead {source target : String} : Keeps f (moveHead env source target) :=
  .bind .get fun _ => h.keeps_commitRefs

variable {branch : String}

theorem Blind.keeps_advanceBranch {old new : ObjectId} :
    Keeps f (advanceBranch env branch old new) :=
  h.keeps_commitRefs

theorem Blind.keeps_recordOp {payload : Bytes} : Keeps f (recordOp env payload) := by
  intro r
  rw [recordOp]
  split
  · rfl
  · split
    · rfl
    · exact h.refs r r.refs _

theorem Blind.keeps_stagedTree : Keeps f (stagedTree env) := by
  refine .bind keeps_indexedEntries fun staged => ?_
  split
  · exact .throw
  · exact h.keeps_onObjects

variable {commit : ObjectId}

theorem Blind.keeps_noteChange : Keeps f (noteChange env commit) := by
  refine .bind .get fun _ => .bind keeps_onRefs fun _ => .bind .lift fun _ => .bind (.forM fun _ => ?_)
    fun _ => .pure
  exact .bind h.keeps_onObjects fun _ => .pure

theorem Blind.keeps_recordCommit {c : NewCommit} {verb : String} {old : Option ObjectId} :
    Keeps f (recordCommit env c branch old verb) :=
  .bind .lift fun _ => .bind h.keeps_onObjects fun _ => .bind h.keeps_noteChange fun _ =>
    .bind h.keeps_commitRefs fun _ => .pure

theorem Blind.keeps_stepCommitted : Keeps f (stepCommitted env) :=
  h.keeps_setControl fun _ => rfl

/-! ### Commands -/

theorem Blind.keeps_amend {message : Option String} {noVerify : Bool} :
    Keeps f (amend env message noVerify) :=
  .bind keeps_ensureWritable fun _ => .bind keeps_ensureTopicBranchOrUnborn fun _ =>
    .bind keeps_ensureNoMergeInProgress fun _ => .bind keeps_currentBranch fun _ =>
    .bind keeps_resolveOr fun _ => .bind .get fun _ => .bind .lift fun _ => .bind .lift fun _ =>
    .bind .lift fun _ => .bind .lift fun _ => .bind h.keeps_stagedTree fun _ =>
    .bind (keeps_whenever keeps_runPrecommit) fun _ => h.keeps_recordCommit

variable {name : String}

theorem Blind.keeps_switch {create : Bool} : Keeps f (switch env name create) := by
  refine .bind keeps_ensureNoMergeInProgress fun _ => .bind keeps_currentBranch fun current => ?_
  split
  · refine .bind keeps_demand fun _ => .bind .get fun _ => .bind keeps_demand fun _ =>
      .bind .get fun _ => .bind keeps_onRefs fun c => .bind ?_ fun _ => h.keeps_moveHead
    cases c with
    | none => exact .pure
    | some c => exact h.keeps_commitRefs
  · refine .bind .get fun _ => .bind keeps_demand fun _ => ?_
    split
    · exact .pure
    · exact .bind keeps_ensureClean fun _ => .bind .get fun _ => .bind keeps_onRefs fun _ =>
        .bind keeps_entriesAt fun _ => .bind keeps_indexedEntries fun _ =>
        .bind h.keeps_checkout fun _ => h.keeps_moveHead

theorem Blind.keeps_cherryPick {rev : Res ObjectId} {text : PickText} :
    Keeps f (cherryPick env rev text) := by
  refine .bind keeps_ensureTopicBranchOrUnborn fun _ => .bind .lift fun _ => .bind .get fun _ =>
    .bind .lift fun _ => .bind keeps_firstParent fun _ => .bind keeps_currentBranch fun _ =>
    .bind keeps_resolveOr fun _ => .bind keeps_ensureClean fun _ => .bind keeps_entriesOf fun _ =>
    .bind keeps_entriesOf fun _ => .bind keeps_entriesOf fun _ =>
    .bind h.keeps_onObjects fun resolved => ?_
  split
  · exact .bind h.keeps_writeConflicted fun _ => .pure
  · refine .bind h.keeps_onObjects fun tree => .bind .get fun _ => .bind .lift fun _ => ?_
    split
    · exact .pure
    · exact .bind keeps_indexedEntries fun _ => .bind h.keeps_checkout fun _ =>
        .bind h.keeps_onObjects fun _ => .bind h.keeps_advanceBranch fun _ => .pure

theorem Blind.keeps_flowInit : Keeps f (flowInit env) := by
  refine .bind .get fun _ => ?_
  dsimp only
  split
  · exact .pure
  · exact .bind keeps_onRefs fun _ => .bind keeps_flowBase fun _ => h.keeps_commitRefs

theorem Blind.keeps_flowStart {kind : FlowKind} :
    Keeps f (flowStart env kind name) :=
  .bind .get fun _ => .bind .lift fun _ => .bind .get fun _ => .bind keeps_demand fun _ =>
    .bind keeps_resolveOr fun _ => .bind keeps_ensureClean fun _ => .bind keeps_entriesOf fun _ =>
    .bind keeps_indexedEntries fun _ => .bind h.keeps_checkout fun _ => .bind .get fun _ =>
    h.keeps_commitRefs

theorem Blind.keeps_mergeFor {ours theirs : ObjectId} {label conflict : String} :
    Keeps f (mergeFor env ours theirs label conflict) := by
  refine .bind h.keeps_onObjects fun outcome => ?_
  cases outcome with
  | upToDate => exact .bind keeps_entriesOf fun _ => .pure
  | fastForward c => exact .bind keeps_entriesOf fun _ => .pure
  | merged c entries => exact .pure
  | conflicted resolved => exact .throw

theorem Blind.keeps_flowFeatureFinish : Keeps f (flowFeatureFinish env name) :=
  .bind .get fun _ => .bind .lift fun _ => .bind keeps_resolveOr fun _ =>
    .bind keeps_resolveOr fun _ => .bind keeps_ensureClean fun _ => .bind h.keeps_mergeFor fun _ =>
    .bind .get fun _ => .bind h.keeps_commitRefs fun _ => .bind keeps_indexedEntries fun _ =>
    h.keeps_checkout

theorem Blind.keeps_backMerge {back newTarget : ObjectId} {entries : List WorkEntry}
    {label conflict : String} : Keeps f (backMerge env back newTarget entries label conflict) := by
  rw [backMerge]
  split
  · exact .pure
  · exact h.keeps_mergeFor

theorem Blind.keeps_flowTopicFinish {kind : FlowKind} :
    Keeps f (flowTopicFinish env kind name) :=
  .bind .get fun _ => .bind .lift fun _ => .bind keeps_resolveOr fun _ =>
    .bind keeps_resolveOr fun _ => .bind keeps_resolveOr fun _ => .bind keeps_ensureClean fun _ =>
    .bind h.keeps_mergeFor fun _ => .bind h.keeps_backMerge fun _ => .bind .get fun _ =>
    .bind h.keeps_commitRefs fun _ => .bind keeps_indexedEntries fun _ => h.keeps_checkout

theorem Blind.keeps_add {paths : List Bytes} : Keeps f (add env paths) := by
  refine .bind keeps_ensureWritable fun _ => .bind keeps_control fun _ => .bind .get fun _ =>
    .bind .lift fun _ => .bind .lift fun _ => .bind (.foldlM fun entries path => ?_) fun _ =>
    .bind (keeps_saveIndex h.tree) fun _ => keeps_whenever h.keeps_recordOp
  rw [stagePath.eq_def]
  split
  · exact .pure
  · split
    · exact .throw
    · exact .bind .get fun _ => .bind .lift fun _ => .bind h.keeps_onObjects fun _ =>
        .bind keeps_makeEntry fun _ => .pure

theorem Blind.keeps_undo : Keeps f (undo env) := by
  refine .bind .get fun r => ?_
  split
  · exact .throw
  · split
    · exact .throw
    · split
      · refine .bind .get fun _ => .bind keeps_onRefs fun changes => ?_
        cases changes with
        | none => exact .throw
        | some changes =>
          exact .bind keeps_ensureClean fun _ => .bind keeps_indexedEntries fun _ =>
            .bind h.keeps_commitRefs fun _ => .bind .get fun _ => .bind .lift fun _ =>
            h.keeps_checkout
      · split
        · rw [undoIndexTx]
          split
          · exact .throw
          · exact .bind keeps_control fun _ => .bind (keeps_saveIndex h.tree) fun _ =>
              h.keeps_recordOp
        · exact .throw

/-! ### Sequences -/

variable {head tree : ObjectId}

theorem Blind.keeps_commitRevert {message : String} :
    Keeps f (commitRevert env head tree message) := by
  refine .bind .get fun _ => .bind .lift fun _ => ?_
  split
  · exact .throw
  · exact .bind keeps_currentBranch fun _ => h.keeps_recordCommit

variable {mainline : Option Nat}

theorem Blind.keeps_revertOne {target : ObjectId} :
    Keeps f (revertOne env target mainline) := by
  refine .bind keeps_branchTip fun _ => .bind keeps_revertParent fun _ => .bind keeps_entriesOf
    fun _ => .bind keeps_entriesOf fun _ => .bind keeps_entriesAt fun _ =>
    .bind h.keeps_onObjects fun resolved => ?_
  split
  · exact .bind h.keeps_writeConflicted fun _ => .pure
  · exact .bind h.keeps_onObjects fun _ => .bind keeps_indexedEntries fun _ =>
      .bind h.keeps_checkout fun _ => .bind keeps_revertMessage fun _ =>
      .bind h.keeps_commitRevert fun _ => .pure

theorem Blind.keeps_runReverts {orig : ObjectId} {todo : List ObjectId} :
    Keeps f (runReverts env mainline orig todo) := by
  induction todo with
  | nil => exact .bind (h.keeps_setControl fun _ => rfl) fun _ => .pure
  | cons target todo ih =>
    refine .bind h.keeps_revertOne fun done => ?_
    cases done with
    | committed c => exact .bind keeps_revertMessage fun _ => ih
    | conflicted paths => exact .bind (h.keeps_setControl fun _ => rfl) fun _ => .pure

theorem Blind.keeps_revert {revs : List (Res ObjectId)} :
    Keeps f (revert env revs mainline) :=
  .bind keeps_ensureTopicBranchOrUnborn fun _ => .bind keeps_ensureNoMergeInProgress fun _ =>
    .bind keeps_ensureClean fun _ => .bind (.mapM fun _ => .lift) fun _ =>
    .bind keeps_branchTip fun _ => h.keeps_runReverts

theorem Blind.keeps_revertContinue : Keeps f (revertContinue env) := by
  refine .bind keeps_revertState fun state => .bind ?_ fun _ => h.keeps_runReverts
  rw [commitPending]
  split
  · refine .bind keeps_control fun _ => ?_
    split
    · exact .throw
    · exact .bind keeps_branchTip fun _ => .bind h.keeps_stagedTree fun _ =>
        .bind keeps_revertMessage fun _ => .bind h.keeps_commitRevert fun _ => .pure
  · exact .pure

theorem Blind.keeps_revertAbort : Keeps f (revertAbort env) :=
  .bind keeps_revertState fun _ => .bind keeps_currentBranch fun _ => .bind keeps_branchTip fun _ =>
    .bind keeps_control fun _ => .bind keeps_entriesOf fun _ => .bind h.keeps_checkout fun _ =>
    .bind (keeps_whenever h.keeps_commitRefs) fun _ => h.keeps_setControl fun _ => rfl

theorem Blind.keeps_saveRebase {state : Option RebaseState} : Keeps f (saveRebase env state) :=
  h.keeps_setControl fun _ => rfl

theorem Blind.keeps_pick : Keeps f (pick env head commit) := by
  refine .bind .get fun _ => .bind .lift fun _ => .bind keeps_entriesAt fun _ =>
    .bind keeps_entriesOf fun _ => .bind keeps_entriesOf fun _ =>
    .bind h.keeps_onObjects fun resolved => ?_
  split
  · exact .bind h.keeps_writeConflicted fun _ => .pure
  · exact .bind h.keeps_onObjects fun _ => .bind keeps_indexedEntries fun _ =>
      .bind h.keeps_checkout fun _ => .pure

theorem Blind.keeps_applyStep {action : Action} :
    Keeps f (applyStep env action commit tree) :=
  .bind keeps_rebaseHead fun _ => .bind keeps_stepCommit fun _ =>
    .bind h.keeps_recordCommit fun _ => .pure

theorem Blind.keeps_leaveScratch : Keeps f (leaveScratch env branch) :=
  .bind .get fun _ => .bind keeps_onRefs fun _ => h.keeps_commitRefs

theorem Blind.keeps_finishRebase {state : RebaseState} : Keeps f (finishRebase env state) :=
  .bind keeps_rebaseHead fun _ => .bind h.keeps_leaveScratch fun _ =>
    .bind (keeps_whenever h.keeps_commitRefs) fun _ => h.keeps_saveRebase

theorem Blind.keeps_applyClean {action : Action} :
    Keeps f (applyClean env action head commit tree) := by
  refine .bind .get fun _ => .bind .lift fun _ => ?_
  split
  · exact .pure
  · exact h.keeps_applyStep

theorem Blind.keeps_runRebase {state : RebaseState} {todo : List (Action × ObjectId)} :
    Keeps f (runRebase env state todo) := by
  induction todo with
  | nil => exact .bind h.keeps_finishRebase fun _ => .pure
  | cons step todo ih =>
    obtain ⟨action, commit⟩ := step
    rw [runRebase]
    split
    · exact .bind h.keeps_saveRebase fun _ => ih
    · refine .bind keeps_rebaseHead fun _ => .bind h.keeps_pick fun picked => ?_
      cases picked with
      | clean tree =>
        exact .bind h.keeps_applyClean fun _ => .bind h.keeps_saveRebase fun _ => ih
      | conflicted paths => exact .bind h.keeps_saveRebase fun _ => .pure

theorem Blind.keeps_rebase {upstream : Res ObjectId}
    {edited : Option (List (Action × ObjectId) → Res (List (Action × ObjectId)))} :
    Keeps f (rebase env upstream edited) := by
  refine .bind keeps_ensureTopicBranchOrUnborn fun _ => .bind keeps_ensureNoMergeInProgress fun _ =>
    .bind keeps_ensureClean fun _ => .bind keeps_currentBranch fun _ => .bind keeps_demand fun _ =>
    .bind .lift fun _ => .bind keeps_resolveOr fun _ => .bind .get fun _ => .bind .lift fun todo => ?_
  cases todo with
  | none => exact .pure
  | some todo =>
    exact .bind h.keeps_commitRefs fun _ => .bind keeps_entriesOf fun _ =>
      .bind keeps_entriesOf fun _ => .bind h.keeps_checkout fun _ =>
      .bind h.keeps_saveRebase fun _ => h.keeps_runRebase

theorem Blind.keeps_rebaseContinue : Keeps f (rebaseContinue env) := by
  refine .bind keeps_rebaseState fun state => .bind ?_ fun _ => h.keeps_runRebase
  rw [commitStopped]
  split
  · refine .bind (.bind keeps_control fun _ => ?_) fun _ => h.keeps_saveRebase
    split
    · exact .throw
    · refine .bind h.keeps_stagedTree fun _ => .bind keeps_rebaseHead fun _ => .bind .get fun _ =>
        .bind .lift fun _ => ?_
      split
      · exact .throw
      · exact h.keeps_applyStep
  · exact .pure

theorem Blind.keeps_resetWorktreeTo : Keeps f (resetWorktreeTo env commit) :=
  .bind keeps_control fun _ => .bind keeps_entriesOf fun _ => h.keeps_checkout

theorem Blind.keeps_rebaseSkip : Keeps f (rebaseSkip env) :=
  .bind keeps_rebaseState fun _ => .bind keeps_rebaseHead fun _ =>
    .bind h.keeps_resetWorktreeTo fun _ => .bind h.keeps_saveRebase fun _ => h.keeps_runRebase

theorem Blind.keeps_rebaseAbort : Keeps f (rebaseAbort env) :=
  .bind keeps_rebaseState fun _ => .bind h.keeps_resetWorktreeTo fun _ =>
    .bind h.keeps_leaveScratch fun _ => h.keeps_saveRebase

theorem Blind.keeps_saveBisect {state : Option BisectState} : Keeps f (saveBisect env state) :=
  h.keeps_setControl fun _ => rfl

variable {next : BisectNext}

theorem Blind.keeps_bisectStep {state : BisectState} :
    Keeps f (bisectStep env next state) := by
  refine .bind .get fun _ => .bind .lift fun c => ?_
  cases c with
  | none => exact .pure
  | some c =>
    exact .bind keeps_ensureClean fun _ => .bind keeps_bisectHead fun _ =>
      .bind keeps_entriesOf fun _ => .bind keeps_entriesOf fun _ => .bind h.keeps_checkout fun _ =>
      h.keeps_commitRefs

theorem Blind.keeps_bisectStart {bad : Option (Res ObjectId)} {good : List (Res ObjectId)} :
    Keeps f (bisectStart env next bad good) :=
  .bind keeps_ensureNoMergeInProgress fun _ => .bind keeps_ensureClean fun _ =>
    .bind keeps_currentBranch fun _ => .bind keeps_demand fun _ => .bind keeps_resolveOr fun _ =>
    .bind (.mapM fun _ => .lift) fun _ => .bind (.mapM fun _ => .lift) fun _ =>
    .bind h.keeps_commitRefs fun _ => .bind h.keeps_saveBisect fun _ => h.keeps_bisectStep

theorem Blind.keeps_bisectMark {verdict : Verdict} {revs : List (Res ObjectId)} :
    Keeps f (bisectMark env next verdict revs) := by
  refine .bind keeps_control fun c => ?_
  split
  · exact .throw
  · exact .bind keeps_markedCommits fun _ => .bind .lift fun _ => .bind h.keeps_saveBisect fun _ =>
      h.keeps_bisectStep

theorem Blind.keeps_bisectReset : Keeps f (bisectReset env) := by
  refine .bind keeps_control fun c => ?_
  split
  · exact .throw
  · exact .bind keeps_bisectHead fun _ => .bind keeps_ensureClean fun _ =>
      .bind keeps_resolveOr fun _ => .bind keeps_entriesOf fun _ => .bind keeps_entriesOf fun _ =>
      .bind h.keeps_checkout fun _ => .bind h.keeps_commitRefs fun _ => h.keeps_saveBisect

end Commands

end Alt.Repo
