import Alt.Repo.Frames
import Alt.Repo.TreeRoundTrip

namespace Alt.Repo

open Alt.Library Alt.Odb Alt.Refs List

/-!
# Recording the index (`native/commit.rs`, 33–245; `native/revert.rs`, 61–79; `native/rebase.rs`, 109–133)

Four commands record the index as a commit: `commit`, `commit --amend`, and `--continue` of a revert
or a rebase that stopped.  The last two ask for unmerged paths first.

* `Recorded` — what recording the index leaves, `Untouched` — what a refusal leaves,
  `RecordsIndex` — a command that leaves the one or the other;
* `index_commits_keep` — each of the commands does the one or the other.
-/

section

variable {env : Env} {r s : NativeRepo}

/-- The stage-0 entries of the index. -/
def stagedEntries (env : Env) (r : NativeRepo) : List WorkEntry :=
  indexEntries (r.controls env.workspace).index

/-- No path of the index is unmerged. -/
def Merged (env : Env) (r : NativeRepo) : Prop := unmerged (r.controls env.workspace).index = false

/-- The refs, the index and the state files are as they were. -/
structure Untouched (r s : NativeRepo) : Prop where
  refs : s.refs = r.refs
  controls : s.controls = r.controls

theorem Untouched.refl (r : NativeRepo) : Untouched r r := ⟨rfl, rfl⟩

/-- The op that was logged moves `branch` to the commit `c`, as it was signed. -/
def Moved (env : Env) (branch : String) (c : NewCommit) (r s : NativeRepo) : Prop :=
  ∃ old note bytes,
    env.signed (buildCommitBytes c.tree c.parents c.author c.committer c.message) = .ok bytes ∧
    s.ops = r.ops ++ [encodeTx
      [⟨branch, old, some (.oid (ObjectId.hashObject env.P env.algo .commit bytes))⟩, note] none]

/-- **The index was recorded**: a branch was moved to a commit whose tree flattens to its entries. -/
def Recorded (env : Env) (branch : Res String) (r s : NativeRepo) : Prop :=
  ∃ b c, branch = .ok b ∧ Moved env b c r s ∧ ∀ depth, pathBound (stagedEntries env r) ≤ depth →
    flattenTree s.objects env.algo depth c.tree = .ok (stagedEntries env r)

/-- The command records the index, where `p` holds, or changes nothing but the objects. -/
def RecordsIndex {α : Type} (env : Env) (r : NativeRepo) (p : Prop) (branch : Res String) (m : Cmd α) : Prop :=
  Triple (· = r) m (fun _ s => p ∧ Recorded env branch r s) fun _ => Untouched r

/-! ### The tree and the commit -/

/-- `tree` is the index, and only objects were added. -/
structure Staged (env : Env) (r : NativeRepo) (tree : ObjectId) (s : NativeRepo) : Prop where
  rest : s = { r with objects := s.objects }
  flattens : ∀ objects, Within s.objects objects → ∀ depth, pathBound (stagedEntries env r) ≤ depth →
    flattenTree objects env.algo depth tree = .ok (stagedEntries env r)

theorem Staged.untouched {tree : ObjectId} (h : Staged env r tree s) : Untouched r s := by
  rw [h.rest]
  exact ⟨rfl, rfl⟩

theorem stagedTree_spec (hwrite : Writeable env.algo (stagedEntries env r))
    (hapart : TreesApart env.P env.algo r.objects (treesOf env.P env.algo (stagedEntries env r))) :
    Triple (· = r) (stagedTree env) (Staged env r) fun _ => Untouched r := by
  intro s hs
  rw [show s = r from hs]
  have hrun : stagedTree env r = if stagedEntries env r = [] then
      (fail "nothing to commit (empty index)" : Cmd ObjectId) r
      else onObjects (writeTree env.P env.algo (stagedEntries env r)) r := by
    unfold stagedTree
    exact apply_ite (fun m : Cmd ObjectId => m r) ..
  rw [hrun]
  by_cases hnil : stagedEntries env r = []
  · rw [if_pos hnil]
    exact ⟨rfl, rfl⟩
  · rw [if_neg hnil, onObjects, writeTree_eq]
    refine ⟨rfl, fun objects hwithin depth hdepth => ?_⟩
    -- the index is kept in order
    have hsort : (stagedEntries env r).insertionSort (byPath · ·) = stagedEntries env r :=
      (pairwise_insertionSort _ _).insertionSort_eq
    exact (flatten_held hwrite hdepth fun t ht => hwithin (hapart.putTrees t ht)).trans (congrArg _ hsort)

/-- The objects have only grown, and the rest is as it was. -/
structure Grown (r s : NativeRepo) : Prop extends Untouched r s where
  within : Within r.objects s.objects
  ops : s.ops = r.ops

variable {branch verb : String} {c : NewCommit} {old : Option ObjectId} {p : Prop}

theorem grown_store {kind : ObjectKind} {data : Bytes} :
    Triple (Grown r) (onObjects (store env.P env.algo kind data))
      (fun id s => id = ObjectId.hashObject env.P env.algo kind data ∧ Grown r s) fun _ => Untouched r := by
  intro s hs
  obtain ⟨objects, hrun, hwithin, -⟩ := @store_eq env.P env.algo s.objects kind data
  rw [onObjects, hrun]
  exact ⟨rfl, ⟨hs.refs, hs.controls⟩, hs.within.trans hwithin, hs.ops⟩

theorem grown_noteChange {commit : ObjectId} :
    Triple (Grown r) (noteChange env commit) (fun _ => Grown r) fun _ => Untouched r := by
  refine .get fun s hs => ?_
  have hread : Triple (· = s) (onRefs (resolve s.refs notesRef) : Cmd _) (fun _ => Grown r)
      fun _ => Untouched r :=
    .lift (fun _ _ _ h => h ▸ hs) fun _ _ _ h => h ▸ hs.toUntouched
  refine hread.bind fun tip => .bind (Q := fun _ => Grown r)
    (.lift (fun _ _ _ h => h) fun _ _ _ h => h.toUntouched) fun new => ?_
  refine .bind (.forM (fun _ => Grown r) fun _ o _ _ => ?_) fun _ => .pure fun _ h => h
  exact grown_store.bind fun _ => .pure fun _ h => h.2

theorem recordCommit_spec : Triple (· = r) (recordCommit env c branch old verb)
    (fun _ s => Moved env branch c r s ∧ Within r.objects s.objects) fun _ => Untouched r := by
  refine Triple.bind (Q := fun bytes s =>
    env.signed (buildCommitBytes c.tree c.parents c.author c.committer c.message) = .ok bytes ∧ Grown r s)
    (.lift (fun bytes hbytes s hs => ?_) fun _ _ s hs => ?_) fun bytes => .pre fun hbytes => ?_
  · exact ⟨hbytes, hs ▸ ⟨⟨rfl, rfl⟩, .refl _, rfl⟩⟩
  · exact hs ▸ ⟨rfl, rfl⟩
  refine grown_store.bind fun new => .pre fun hnew => grown_noteChange.bind fun note => ?_
  refine Triple.bind (Q := fun _ s => Moved env branch c r s ∧ Within r.objects s.objects)
    (fun s hs => ?_) fun _ => .pure fun _ h => h
  rw [commitRefs]
  cases refTx env s verb [⟨branch, old.map .oid, some (.oid new)⟩, note] with
  | error e => exact hs.toUntouched
  | ok refs => exact ⟨⟨_, note, bytes, hbytes, by rw [hs.ops, hnew]⟩, hs.within⟩

/-! ### The commands -/

/-- A program that only reads comes first. -/
theorem reading {α β : Type} {m : Cmd α} {f : α → Cmd β} {Q : β → NativeRepo → Prop}
    (hsame : Untouched r s) (hm : Keeps id m) (hf : ∀ a, Triple (· = s) (f a) Q fun _ => Untouched r) :
    Triple (· = s) (m >>= f) Q fun _ => Untouched r :=
  (hm.triple.imp (fun _ h => h) (fun _ _ h => h) fun _ s' (h : s' = s) => h ▸ hsame).bind hf

theorem currentBranch_spec (hsame : Untouched r s) : Triple (· = s) (currentBranch env)
    (fun b s' => headBranch env r.refs = .ok b ∧ s' = s) fun _ => Untouched r := by
  refine .get fun s₁ hs₁ => .lift (fun b hb s₂ hs₂ => ?_) fun _ _ s₂ hs₂ => ?_
  · exact ⟨hsame.refs ▸ hs₁ ▸ hb, hs₂.trans hs₁⟩
  · exact hs₂ ▸ hs₁ ▸ hsame

/-- What was staged goes to `branch`. -/
theorem Staged.records {tree : ObjectId} {ref : Res String} (h : Staged env r tree s) (htree : c.tree = tree)
    (href : ref = .ok branch) (hp : p) : Triple (· = s) (recordCommit env c branch old verb)
      (fun _ s' => p ∧ Recorded env ref r s') fun _ => Untouched r := by
  refine recordCommit_spec.imp (fun _ h => h) (fun _ s' hs' => ?_) fun _ _ hsame =>
    ⟨hsame.refs.trans h.untouched.refs, hsame.controls.trans h.untouched.controls⟩
  obtain ⟨hmoved, hwithin⟩ := hs'
  rw [h.rest] at hmoved
  exact ⟨hp, branch, c, href, hmoved, htree ▸ h.flattens s'.objects hwithin⟩

/-- What waits for the conflicts to be resolved. -/
theorem merged_first {α : Type} {m : Cmd α} {text : String} {ref : Res String}
    (hm : Merged env r → RecordsIndex env r (Merged env r) ref m) : RecordsIndex env r (Merged env r) ref
      (do if unmerged (← control env).index then fail text else m) := by
  refine Triple.bind (Q := fun c s => c = r.controls env.workspace ∧ s = r) (fun s hs => ?_) fun c =>
    .pre fun hc => .ite (fun _ => .throw fun _ h => h ▸ .refl r) fun hmerged => ?_
  · exact ⟨congrArg (fun r : NativeRepo => r.controls env.workspace) hs, hs⟩
  · exact hm (by rw [Merged, ← hc]; simpa using hmerged)

theorem stepCommit_tree {action : Action} {head commit tree : ObjectId} (hsame : Untouched r s) :
    Triple (· = s) (stepCommit env action head commit tree) (fun c s' => c.tree = tree ∧ s' = s)
      fun _ => Untouched r := by
  refine reading hsame .get fun _ => reading hsame .lift fun theirs => .ite (fun _ => ?_) fun _ => ?_
  · exact reading hsame .get fun _ => reading hsame .lift fun prev => reading hsame keeps_stepMessage fun _ =>
      reading hsame .lift fun _ => .pure fun _ h => ⟨rfl, h⟩
  · exact reading hsame keeps_stepMessage fun _ => reading hsame .lift fun _ => .pure fun _ h => ⟨rfl, h⟩

variable (hwrite : Writeable env.algo (stagedEntries env r))
  (hapart : TreesApart env.P env.algo r.objects (treesOf env.P env.algo (stagedEntries env r)))

include hwrite hapart

theorem commit_records (message : String) (allowEmpty noVerify : Bool) :
    RecordsIndex env r True (headBranch env r.refs) (commit env message allowEmpty noVerify) := by
  refine reading (.refl r) keeps_ensureWritable fun _ =>
    reading (.refl r) keeps_ensureTopicBranchOrUnborn fun _ =>
    reading (.refl r) keeps_control fun _ => reading (.refl r) keeps_demand fun _ =>
    (stagedTree_spec hwrite hapart).bind fun tree => .frozen fun s hs => ?_
  refine (currentBranch_spec hs.untouched).bind fun branch => .pre fun hbranch => ?_
  refine reading hs.untouched .get fun _ => reading hs.untouched keeps_onRefs fun parent =>
    reading hs.untouched keeps_control fun _ => reading hs.untouched keeps_ensureChanges fun _ =>
    reading hs.untouched (keeps_whenever keeps_runPrecommit) fun _ =>
    (hs.records rfl hbranch trivial).bind fun new => ?_
  -- the control files are written once the commit is there
  have hset : ∀ {g : Control → Control}, Triple (fun s => True ∧ Recorded env (headBranch env r.refs) r s)
      (setControl env g) (fun _ s => True ∧ Recorded env (headBranch env r.refs) r s)
      fun _ => Untouched r := fun s hs => hs
  refine .bind (.ite (fun _ => hset) fun _ => .pure fun _ h => h) fun _ => hset.bind fun _ => .pure fun _ h => h

theorem amend_records (message : Option String) (noVerify : Bool) :
    RecordsIndex env r True (headBranch env r.refs) (amend env message noVerify) := by
  refine reading (.refl r) keeps_ensureWritable fun _ =>
    reading (.refl r) keeps_ensureTopicBranchOrUnborn fun _ =>
    reading (.refl r) keeps_ensureNoMergeInProgress fun _ =>
    (currentBranch_spec (.refl r)).bind fun branch => .pre fun hbranch => ?_
  refine reading (.refl r) keeps_resolveOr fun old => reading (.refl r) .get fun _ =>
    reading (.refl r) .lift fun prev => reading (.refl r) .lift fun _ =>
    reading (.refl r) .lift fun author => reading (.refl r) .lift fun text =>
    (stagedTree_spec hwrite hapart).bind fun tree => .frozen fun s hs => ?_
  exact reading hs.untouched (keeps_whenever keeps_runPrecommit) fun _ => hs.records rfl hbranch trivial

theorem commitResolved_records (state : RevertState) (current : ObjectId) :
    RecordsIndex env r (Merged env r) (headBranch env r.refs) (commitResolved env state current) := by
  refine merged_first fun hmerged => ?_
  refine reading (.refl r) keeps_branchTip fun head =>
    (stagedTree_spec hwrite hapart).bind fun tree => .frozen fun s hs => ?_
  refine reading hs.untouched keeps_revertMessage fun message =>
    .bind (Q := fun _ s' => _ ∧ Recorded env (headBranch env r.refs) r s') ?_ fun _ => .pure fun _ h => h
  refine reading hs.untouched .get fun _ => reading hs.untouched .lift fun headTree =>
    .ite (fun _ => .throw fun _ h => h ▸ hs.untouched) fun _ => ?_
  exact (currentBranch_spec hs.untouched).bind fun branch => .pre fun hbranch => hs.records rfl hbranch hmerged

theorem commitStep_records (action : Action) (commit : ObjectId) :
    RecordsIndex env r (Merged env r) (.ok (rebaseRef env)) (commitStep env action commit) := by
  refine merged_first fun hmerged => ?_
  refine (stagedTree_spec hwrite hapart).bind fun tree => .frozen fun s hs => ?_
  refine reading hs.untouched keeps_rebaseHead fun head => reading hs.untouched .get fun _ =>
    reading hs.untouched .lift fun headTree => .ite (fun _ => .throw fun _ h => h ▸ hs.untouched) fun _ => ?_
  refine reading hs.untouched keeps_rebaseHead fun head => (stepCommit_tree hs.untouched).bind fun c =>
    .pre fun htree => ?_
  exact (hs.records htree rfl hmerged).bind fun _ => .pure fun _ h => h

end

/-- **Recording the index.**  Where a tree can be written of it, each command moves its ref to a commit
    whose tree flattens to the index, or fails and leaves all but the objects; `--continue` records
    nothing while a path is unmerged. -/
theorem index_commits_keep (env : Env) (r : NativeRepo) (hwrite : Writeable env.algo (stagedEntries env r))
    (hapart : TreesApart env.P env.algo r.objects (treesOf env.P env.algo (stagedEntries env r))) :
    (∀ message allowEmpty noVerify,
      RecordsIndex env r True (headBranch env r.refs) (commit env message allowEmpty noVerify)) ∧
    (∀ message noVerify, RecordsIndex env r True (headBranch env r.refs) (amend env message noVerify)) ∧
    (∀ state current,
      RecordsIndex env r (Merged env r) (headBranch env r.refs) (commitResolved env state current)) ∧
    ∀ action commit,
      RecordsIndex env r (Merged env r) (.ok (rebaseRef env)) (commitStep env action commit) :=
  ⟨commit_records hwrite hapart, amend_records hwrite hapart, commitResolved_records hwrite hapart,
    commitStep_records hwrite hapart⟩

/-- Two files are staged. -/
def dotStaged : NativeRepo :=
  ⟨fun _ => none, ∅, [], .empty, fun _ => ⟨dotLeaves.map (stageEntry · 0), none, none, none, none⟩⟩

theorem staged_dotStaged : stagedEntries .toy dotStaged = dotLeaves := by decide +kernel

theorem index_commits_keep_dots : RecordsIndex .toy dotStaged True (headBranch .toy dotStaged.refs)
    (commit .toy "message" false false) :=
  (index_commits_keep .toy dotStaged (staged_dotStaged ▸ writeable_dotLeaves)
    (staged_dotStaged ▸ apart_dotLeaves)).1 "message" false false

end Alt.Repo
