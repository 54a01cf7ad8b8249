import Alt.Repo.Frames

namespace Alt.Repo

open Alt.Library Alt.Odb Alt.Refs

/-!
# A merge in progress (`native/merge.rs`, 211–268; `native/commit.rs`, 52–97)

A conflicted merge leaves the commit it brings in in `MERGE_HEAD`, and the next commit takes it as
its second parent.  The first parent is whatever the branch is at by then.

* `Command`, `Session`, `Event` — the commands of one workspace, and what happens to it in turn;
  the session remembers the branch tip that the last conflicted merge was computed against;
* `Command.Passes` — `merge`, `cherry-pick`, the flow commands, `undo`, and what goes on with a
  revert, a rebase or a bisect, none of which asks whether a merge is in progress: what they do
  ask lets them through;
* `merge_state_consistent` — in runs where none of these gets through while a merge is in
  progress, that commit has the tip as its first parent, and nothing else moves HEAD or a branch.
-/

/-! ### Commands -/

/-- A command of a workspace, with its arguments. -/
inductive Command
  | commit (message : String) (allowEmpty noVerify : Bool)
  | amend (message : Option String) (noVerify : Bool)
  | switch (name : String) (create : Bool)
  | merge (name : String)
  | cherryPick (rev : Res ObjectId) (text : PickText)
  | flowInit
  | flowStart (kind : FlowKind) (name : String)
  | flowFeatureFinish (name : String)
  | flowTopicFinish (kind : FlowKind) (name : String)
  | add (paths : List Bytes)
  | undo
  | revert (revs : List (Res ObjectId)) (mainline : Option Nat)
  | revertContinue
  | revertAbort
  | rebase (upstream : Res ObjectId)
      (edited : Option (List (Action × ObjectId) → Res (List (Action × ObjectId))))
  | rebaseContinue
  | rebaseSkip
  | rebaseAbort
  | bisectStart (next : BisectNext) (bad : Option (Res ObjectId)) (good : List (Res ObjectId))
  | bisectMark (next : BisectNext) (verdict : Verdict) (revs : List (Res ObjectId))
  | bisectReset

/-- The commit a command made, if it made one that `commit` reports. -/
def done {α : Type} (m : Cmd α) : Cmd Bool := do
  let _ ← m
  return false

/-- Runs a command; whether it stopped on a conflict. -/
def Command.run (env : Env) : Command → Cmd Bool
  | .commit message allowEmpty noVerify => done (Repo.commit env message allowEmpty noVerify)
  | .amend message noVerify => done (Repo.amend env message noVerify)
  | .switch name create => done (Repo.switch env name create)
  | .merge name => Repo.merge env name
  | .cherryPick rev text => Repo.cherryPick env rev text
  | .flowInit => done (Repo.flowInit env)
  | .flowStart kind name => done (Repo.flowStart env kind name)
  | .flowFeatureFinish name => done (Repo.flowFeatureFinish env name)
  | .flowTopicFinish kind name => done (Repo.flowTopicFinish env kind name)
  | .add paths => done (Repo.add env paths)
  | .undo => done (Repo.undo env)
  | .revert revs mainline => Repo.revert env revs mainline
  | .revertContinue => Repo.revertContinue env
  | .revertAbort => done (Repo.revertAbort env)
  | .rebase upstream edited => Repo.rebase env upstream edited
  | .rebaseContinue => Repo.rebaseContinue env
  | .rebaseSkip => Repo.rebaseSkip env
  | .rebaseAbort => done (Repo.rebaseAbort env)
  | .bisectStart next bad good => done (Repo.bisectStart env next bad good)
  | .bisectMark next verdict revs => done (Repo.bisectMark env next verdict revs)
  | .bisectReset => done (Repo.bisectReset env)

/-- HEAD, the index and the working tree agree. -/
def Clean (env : Env) (r : NativeRepo) : Prop :=
  ∃ st, statusOf env r = .ok st ∧ st.staged = [] ∧ st.unstaged = []

/-- A name resolves to a commit. -/
def HasTip (r : NativeRepo) (name : String) : Prop := ∃ c, resolve r.refs name = .ok (some c)

/-- Of the commands that do not ask whether a merge is in progress, and may move HEAD or a branch
    or start another merge: what they do ask lets them through. -/
def Command.Passes (env : Env) (r : NativeRepo) : Command → Prop
  | .merge name =>
    topicBranchOrUnborn env r.refs "merge" = .ok () ∧ HasTip r ("refs/heads/" ++ name) ∧ Clean env r
  | .cherryPick rev _ =>
    topicBranchOrUnborn env r.refs "cherry-pick" = .ok () ∧
      (∃ c commit, rev = .ok c ∧ readCommit r.objects c = .ok commit ∧ commit.parents ≠ []) ∧
      Clean env r
  | .flowInit => r.refs[branchRef (flowModel r.refs).develop]? = none
  | .flowStart kind name =>
    (∃ flow, flowOf (flowModel r.refs) kind name = .ok flow ∧
      r.refs[branchRef flow.branch]? = none ∧ HasTip r (branchRef flow.base)) ∧ Clean env r
  | .flowFeatureFinish name =>
    (∃ flow, flowOf (flowModel r.refs) .feature name = .ok flow ∧
      HasTip r (branchRef flow.branch) ∧ HasTip r (branchRef flow.target)) ∧ Clean env r
  | .flowTopicFinish kind name =>
    (∃ flow, flowOf (flowModel r.refs) kind name = .ok flow ∧
      HasTip r (branchRef flow.branch) ∧ HasTip r (branchRef flow.target) ∧
      HasTip r (branchRef (flowModel r.refs).develop)) ∧ Clean env r
  | .undo => r.ops.getLast?.bind List.head? = some payloadRefTx ∧ Clean env r
  | .revertContinue =>
    ∃ state, (r.controls env.workspace).revert = some state ∧
      (state.current ≠ none → unmerged (r.controls env.workspace).index = false)
  | .rebaseContinue =>
    ∃ state, (r.controls env.workspace).rebase = some state ∧
      (state.current ≠ none → unmerged (r.controls env.workspace).index = false)
  | .revertAbort => (r.controls env.workspace).revert ≠ none
  | .rebaseSkip | .rebaseAbort => (r.controls env.workspace).rebase ≠ none
  | .bisectMark .. | .bisectReset => (r.controls env.workspace).bisect ≠ none ∧ Clean env r
  | .commit .. | .amend .. | .switch .. | .add _ | .revert .. | .rebase .. | .bisectStart .. => False

/-! ### Runs -/

/-- Another call from the same workspace, whoever makes it and whenever. -/
structure Env.At (home env : Env) : Prop where
  workspace : env.workspace = home.workspace
  headRef : env.headRef = home.headRef

/-- What happens to a workspace. -/
inductive Event (home : Env)
  | command (env : Env) (hat : env.At home) (c : Command)
  /-- Anything else: files are edited, objects are stored, other workspaces run commands. -/
  | elsewhere (repo : NativeRepo)

/-- The repository, and the branch tip that the last conflicted merge was computed against. -/
structure Session where
  repo : NativeRepo
  tip : Option ObjectId

/-- The commit HEAD is on, if there is one. -/
def headTip (env : Env) (r : NativeRepo) : Option ObjectId :=
  match headCommit env r.refs with
  | .ok c => c
  | .error _ => none

/-- The tip a merge that has just stopped on a conflict was computed against. -/
def tipAfter (env : Env) (s : Session) : Command → Option ObjectId
  | .merge name =>
    match Repo.merge env name s.repo with
    | .ok true _ => headTip env s.repo
    | _ => s.tip
  | _ => s.tip

def Session.after {home : Env} (s : Session) : Event home → Session
  | .command env _ c => ⟨leaves (c.run env s.repo), tipAfter env s c⟩
  | .elsewhere repo => ⟨repo, s.tip⟩

/-- Runs from `start`. -/
def sessions (home : Env) (start : NativeRepo) : System Session (Event home) where
  init := ⟨start, none⟩
  step s e := some (s.after e)

/-- While a merge is in progress, no command that does not ask gets through, and nobody else
    touches this workspace's HEAD or its state files. -/
def Meets {home : Env} (s : Session) : Event home → Prop
  | .command env _ c => mergeHeadOf home s.repo ≠ none → ¬c.Passes env s.repo
  | .elsewhere repo => mergeHeadOf home repo = mergeHeadOf home s.repo ∧
      (mergeHeadOf home s.repo ≠ none → headCommit home repo.refs = headCommit home s.repo.refs)

/-- While a merge is in progress: a commit has the tip the merge was computed against as its first
    parent and `MERGE_HEAD` as its second, no other command moves a ref, and no merge runs to its
    end. -/
structure Consistent {home : Env} (s : Session) (e : Event home) (t : ObjectId) : Prop where
  commit : ∀ env hat message allowEmpty noVerify, e = .command env hat (.commit message allowEmpty noVerify) →
    ∀ new r', Repo.commit env message allowEmpty noVerify s.repo = .ok new r' →
      ∃ b tree bytes, s.tip = some b ∧ headTip home s.repo = some b ∧
        env.signed (buildCommitBytes tree [b, t] env.me env.me (withNewline message)) = .ok bytes ∧
        new = ObjectId.hashObject env.P env.algo .commit bytes
  other : ∀ env hat c, e = .command env hat c → (∀ m ae nv, c ≠ .commit m ae nv) →
    (s.after e).repo.refs = s.repo.refs
  merge : ∀ env hat name, e = .command env hat (.merge name) →
    Refuses (Repo.merge env name) s.repo

/-! ### What a merge in progress depends on -/

section

variable {env : Env} {refs : RefMap} {m : Option ObjectId} {r : NativeRepo}

/-- The refs and the merge in progress. -/
def held (env : Env) (r : NativeRepo) : RefMap × Option ObjectId := (r.refs, mergeHeadOf env r)

theorem blindTree_held : BlindTree env (held env) where
  files _ _ := rfl
  index r index := congrArg (r.refs, ·) (blind_mergeHead.tree.index r index)

theorem held_setControl {g : Control → Control} (hg : ∀ c, (g c).mergeHead = c.mergeHead) :
    Keeps (held env) (setControl env g) :=
  fun r => congrArg (r.refs, ·) (blind_mergeHead.keeps_setControl hg r)

variable {α : Type}

theorem held_onObjects {x : OdbM α} : Keeps (held env) (onObjects x) :=
  keeps_onObjects fun _ _ => rfl

theorem held_stagedTree : Keeps (held env) (stagedTree env) := by
  refine .bind keeps_indexedEntries fun staged => ?_
  split
  · exact .throw
  · exact held_onObjects

theorem held_noteChange {commit : ObjectId} : Keeps (held env) (noteChange env commit) := by
  refine .bind .get fun _ => .bind keeps_onRefs fun _ => .bind .lift fun _ => .bind (.forM fun _ => ?_)
    fun _ => .pure
  exact .bind held_onObjects fun _ => .pure

theorem triple_control {E : CliError → NativeRepo → Prop} :
    Triple (held env · = (refs, m)) (control env)
      (fun c s => c.mergeHead = m ∧ held env s = (refs, m)) E := by
  intro s hs
  exact ⟨congrArg Prod.snd hs, hs⟩

theorem triple_currentBranch :
    Triple (held env · = (refs, m)) (currentBranch env)
      (fun b s => headBranch env refs = .ok b ∧ held env s = (refs, m))
      (fun _ s => held env s = (refs, m)) := by
  refine .get fun s hs => .lift (fun b hb s' hs' => ?_) fun _ _ s' hs' => hs' ▸ hs
  have hrefs : s.refs = refs := congrArg Prod.fst hs
  exact ⟨hrefs ▸ hb, hs' ▸ hs⟩

variable {verb : String}

/-- What is stored is the commit, signed where that is asked for; the refs move at the very end. -/
theorem triple_recordCommit {c : NewCommit} {branch : String} {old : Option ObjectId} :
    Triple (held env · = (refs, m)) (recordCommit env c branch old verb)
      (fun new s => (∃ bytes,
        env.signed (buildCommitBytes c.tree c.parents c.author c.committer c.message) = .ok bytes ∧
        new = ObjectId.hashObject env.P env.algo .commit bytes) ∧ mergeHeadOf env s = m)
      (fun _ s => held env s = (refs, m)) := by
  refine Triple.bind (Q := fun bytes s =>
    env.signed (buildCommitBytes c.tree c.parents c.author c.committer c.message) = .ok bytes ∧
      held env s = (refs, m)) (.lift (fun bytes hb s hs => ⟨hb, hs⟩) fun _ _ _ hs => hs) ?_
  refine fun bytes => .pre fun hbytes => ?_
  have hstore : Triple (held env · = (refs, m)) (onObjects (store env.P env.algo .commit bytes))
      (fun new s => new = ObjectId.hashObject env.P env.algo .commit bytes ∧ held env s = (refs, m))
      (fun _ s => held env s = (refs, m)) := by
    intro s hs
    rw [onObjects, store]
    cases hput : s.objects.put env.P (ObjectId.hashObject env.P env.algo .commit bytes) .commit bytes with
    | ok objects => exact ⟨rfl, hs⟩
    | error e => exact hs
  refine hstore.bind fun new => .pre fun hnew => held_noteChange.triple.bind fun note => ?_
  have hmove : Triple (held env · = (refs, m))
      (commitRefs env verb [⟨branch, old.map .oid, some (.oid new)⟩, note])
      (fun _ s => mergeHeadOf env s = m) (fun _ s => held env s = (refs, m)) := by
    intro s hs
    rw [commitRefs]
    cases refTx env s verb [⟨branch, old.map .oid, some (.oid new)⟩, note] with
    | error e => exact hs
    | ok refs' => exact congrArg Prod.snd hs
  exact hmove.bind fun _ => .pure fun s hs => ⟨⟨bytes, hbytes, hnew⟩, hs⟩

/-- **`commit`.** Its parents are the branch tip and the commit that is merged in; the merge is over
    with it, and only with it. -/
theorem commit_spec (message : String) (allowEmpty noVerify : Bool) :
    Triple (held env · = (refs, m)) (commit env message allowEmpty noVerify)
      (fun new s => mergeHeadOf env s = none ∧ ∃ tip tree bytes, headCommit env refs = .ok tip ∧
        env.signed (buildCommitBytes tree (tip.toList ++ m.toList) env.me env.me
          (withNewline message)) = .ok bytes ∧
        new = ObjectId.hashObject env.P env.algo .commit bytes)
      (fun _ s => held env s = (refs, m)) := by
  refine keeps_ensureWritable.triple.bind fun _ =>
    keeps_ensureTopicBranchOrUnborn.triple.bind fun _ => keeps_control.triple.bind fun _ =>
    keeps_demand.triple.bind fun _ => held_stagedTree.triple.bind fun tree =>
    triple_currentBranch.bind fun branch => .pre fun hbranch => .get fun s hs => ?_
  have htip : Triple (· = s) (onRefs (resolve s.refs branch) : Cmd _)
      (fun tip s' => headCommit env refs = .ok tip ∧ held env s' = (refs, m))
      (fun _ s' => held env s' = (refs, m)) := by
    refine .lift (fun tip htip s' hs' => ⟨?_, hs' ▸ hs⟩) fun _ _ s' hs' => hs' ▸ hs
    have hrefs : s.refs = refs := congrArg Prod.fst hs
    rw [headCommit, hbranch, ← hrefs]
    exact htip
  refine htip.bind fun tip => .pre fun htip => triple_control.bind fun c => .pre fun hc => ?_
  refine keeps_ensureChanges.triple.bind fun _ =>
    (keeps_whenever keeps_runPrecommit).triple.bind fun _ => triple_recordCommit.bind fun new =>
    .pre fun hnew => ?_
  obtain ⟨bytes, hbytes, hnew⟩ := hnew
  rw [hc] at hbytes ⊢
  have hfinish : Triple (mergeHeadOf env · = m)
      (whenever m.isSome (setControl env fun c => { c with mergeHead := none }))
      (fun _ s => mergeHeadOf env s = none) (fun _ s => held env s = (refs, m)) := by
    intro s hs
    cases m with
    | none => exact hs
    | some t =>
      have hown : Function.update s.controls env.workspace
          { s.controls env.workspace with mergeHead := none } env.workspace =
          { s.controls env.workspace with mergeHead := none } := Function.update_self ..
      exact congrArg Control.mergeHead hown
  have hstep : Triple (mergeHeadOf env · = none) (stepCommitted env)
      (fun _ s => mergeHeadOf env s = none) (fun _ s => held env s = (refs, m)) := by
    intro s hs
    exact (blind_mergeHead.keeps_stepCommitted s).trans hs
  exact hfinish.bind fun _ => hstep.bind fun _ => .pure fun s hs =>
    ⟨hs, tip, tree, bytes, htip, hbytes, hnew⟩

theorem ok_of_mapError {ε ε' : Type} {x : Except ε α} {g : ε → ε'} {a : α}
    (h : x.mapError g = .ok a) : x = .ok a := by
  cases x with
  | ok b =>
    cases h
    rfl
  | error e => cases h

/-- **`merge`.** Where it stops on a conflict, the refs are what the merge was computed from. -/
theorem merge_spec (name : String) :
    Triple (held env · = (refs, none)) (merge env name)
      (fun stopped s => if stopped then (∃ b, headCommit env refs = .ok (some b)) ∧ s.refs = refs
        else mergeHeadOf env s = none)
      (fun _ s => mergeHeadOf env s = none) := by
  have hnone {α : Type} {x : Cmd α} (hx : Keeps (mergeHeadOf env) x) :
      Triple (held env · = (refs, none)) x (fun _ s => mergeHeadOf env s = none)
        (fun _ s => mergeHeadOf env s = none) :=
    hx.triple.imp (fun s hs => congrArg Prod.snd hs) (fun _ _ hs => hs) fun _ _ hs => hs
  have hheld {α : Type} {x : Cmd α} (hx : Keeps (held env) x) :
      Triple (held env · = (refs, none)) x (fun _ s => held env s = (refs, none))
        (fun _ s => mergeHeadOf env s = none) :=
    hx.triple.imp (fun s hs => hs) (fun _ _ hs => hs) fun _ s hs => congrArg Prod.snd hs
  have hbranch : Triple (held env · = (refs, none)) (currentBranch env)
      (fun b s => headBranch env refs = .ok b ∧ held env s = (refs, none))
      (fun _ s => held env s = (refs, none)) := triple_currentBranch
  refine (hheld keeps_ensureTopicBranchOrUnborn).bind fun _ => (hheld keeps_resolveOr).bind
    fun theirs => (hbranch.imp (fun _ hs => hs) (fun _ _ hs => hs) fun _ s hs =>
      congrArg Prod.snd hs).bind fun branch => .pre fun hbranch => ?_
  have hours : Triple (held env · = (refs, none)) (resolveOr branch "cannot merge into an unborn branch")
      (fun b s => headCommit env refs = .ok (some b) ∧ held env s = (refs, none))
      (fun _ s => mergeHeadOf env s = none) := by
    refine .get fun s hs => ?_
    have hrefs : s.refs = refs := congrArg Prod.fst hs
    refine Triple.bind (Q := fun c s' => resolve refs branch = .ok c ∧ held env s' = (refs, none))
      (.lift (fun c hc s' hs' => ?_) fun _ _ s' hs' => ?_) fun c => .pre fun hc => ?_
    · rw [hrefs] at hc
      exact ⟨ok_of_mapError hc, hs' ▸ hs⟩
    · exact hs' ▸ congrArg Prod.snd hs
    · cases c with
      | none => exact .throw fun s hs => congrArg Prod.snd hs
      | some b =>
        refine .pure fun s hs => ⟨?_, hs⟩
        rw [headCommit, hbranch]
        exact congrArg (Except.mapError CliError.refs) hc
  refine hours.bind fun ours => .pre fun hours => (hheld keeps_ensureClean).bind fun _ =>
    (hheld held_onObjects).bind fun outcome => ?_
  cases outcome with
  | upToDate => exact .pure fun s hs => congrArg Prod.snd hs
  | fastForward c =>
    exact (hnone keeps_entriesOf).bind fun _ => keeps_indexedEntries.triple.bind fun _ =>
      blind_mergeHead.keeps_checkout.triple.bind fun _ =>
      blind_mergeHead.keeps_advanceBranch.triple.bind fun _ => .pure fun s hs => hs
  | merged c entries =>
    exact (hnone keeps_indexedEntries).bind fun _ =>
      blind_mergeHead.keeps_checkout.triple.bind fun _ =>
      blind_mergeHead.keeps_advanceBranch.triple.bind fun _ => .pure fun s hs => hs
  | conflicted resolved =>
    have hset : Triple (held env · = (refs, none))
        (setControl env fun c => { c with mergeHead := some theirs })
        (fun _ s => s.refs = refs) (fun _ s => mergeHeadOf env s = none) :=
      fun s hs => congrArg Prod.fst hs
    exact (hheld (keeps_writeConflicted blindTree_held)).bind fun _ => hset.bind fun _ =>
      .pure fun s hs => ⟨⟨ours, hours⟩, hs⟩

/-! ### Refusals -/

variable {r' : NativeRepo} {u : Unit}

theorem clean_of_ok {action : String} (h : ensureClean env action r = .ok u r') : Clean env r := by
  rw [ensureClean] at h
  split at h
  · cases h
  rename_i st hst
  split at h
  · cases h
  · rename_i hclean
    exact ⟨st, hst, by_contra fun hs => hclean (.inl hs), by_contra fun hs => hclean (.inr hs)⟩

theorem topic_of_ok (h : ensureTopicBranchOrUnborn env verb r = .ok u r') :
    topicBranchOrUnborn env r.refs verb = .ok () := by
  cases htopic : topicBranchOrUnborn env r.refs verb with
  | ok u' => rfl
  | error e =>
    have hrun : ensureTopicBranchOrUnborn env verb r = fromExcept (.error e) r :=
      congrArg (fun x : Res Unit => fromExcept x r) htopic
    rw [hrun] at h
    cases h

variable {name : String}

theorem hasTip_of_ok {text : String} {c : ObjectId} (h : resolveOr name text r = .ok c r') :
    HasTip r name := by
  cases hresolve : resolve r.refs name with
  | ok tip =>
    cases tip with
    | some c => exact ⟨c, hresolve⟩
    | none =>
      have hrun : resolveOr name text r = .error (.message text) r := by
        simp only [resolveOr, Bind.bind, EStateM.bind, onRefs, get, getThe, MonadStateOf.get,
          EStateM.get, hresolve, Except.mapError, fromExcept]
        rfl
      rw [hrun] at h
      cases h
  | error e =>
    have hrun : resolveOr name text r = .error (.refs e) r := by
      simp only [resolveOr, Bind.bind, EStateM.bind, onRefs, get, getThe, MonadStateOf.get,
        EStateM.get, hresolve, Except.mapError, fromExcept]
    rw [hrun] at h
    cases h

theorem of_demand {c : Bool} {text : String} (h : demand c text r = .ok u r') : c = true := by
  cases c with
  | true => rfl
  | false => cases h

theorem refuses_control {g : Control → Cmd α} (h : Refuses (g (r.controls env.workspace)) r) :
    Refuses (control env >>= g) r := h

theorem refuses_ensureNoMergeInProgress (h : mergeHeadOf env r ≠ none) :
    Refuses (ensureNoMergeInProgress env verb) r := by
  refine refuses_control ?_
  have hprogress : inProgress (r.controls env.workspace) verb =
      some (verb ++ ": a merge is in progress; resolve the conflicts and commit it first") :=
    if_pos (Option.isSome_iff_ne_none.mpr h)
  rw [hprogress]
  exact .throw

theorem refuses_merge (h : ¬(Command.merge name).Passes env r) :
    Refuses (merge env name) r :=
  .bind keeps_ensureTopicBranchOrUnborn fun _ htopic => .bind keeps_resolveOr fun _ htheirs =>
    .bind keeps_currentBranch fun _ _ => .bind keeps_resolveOr fun _ _ =>
    .bind keeps_ensureClean fun _ hclean =>
      absurd ⟨topic_of_ok htopic, hasTip_of_ok htheirs, clean_of_ok hclean⟩ h

theorem refuses_cherryPick {rev : Res ObjectId} {text : PickText}
    (h : ¬(Command.cherryPick rev text).Passes env r) : Refuses (cherryPick env rev text) r := by
  refine .bind keeps_ensureTopicBranchOrUnborn fun _ htopic => .lift fun c hc => .get <|
    .lift fun commit hcommit => .bind keeps_firstParent fun p hp => ?_
  have hparents : commit.parents ≠ [] := by
    intro hnil
    rw [firstParent, hnil] at hp
    cases hp
  exact .bind keeps_currentBranch fun _ _ => .bind keeps_resolveOr fun _ _ =>
    .bind keeps_ensureClean fun _ hclean =>
      absurd ⟨topic_of_ok htopic, ⟨c, commit, hc, hcommit, hparents⟩, clean_of_ok hclean⟩ h

theorem refuses_flowStart {kind : FlowKind} (h : ¬(Command.flowStart kind name).Passes env r) :
    Refuses (flowStart env kind name) r := by
  refine .get <| .lift fun flow hflow => .get <| .bind keeps_demand fun _ hfree =>
    .bind keeps_resolveOr fun _ hbase => .bind keeps_ensureClean fun _ hclean => absurd ?_ h
  exact ⟨⟨flow, hflow, Option.isNone_iff_eq_none.mp (of_demand hfree), hasTip_of_ok hbase⟩,
    clean_of_ok hclean⟩

theorem refuses_flowFeatureFinish (h : ¬(Command.flowFeatureFinish name).Passes env r) :
    Refuses (flowFeatureFinish env name) r :=
  .get <| .lift fun flow hflow => .bind keeps_resolveOr fun _ hfeat =>
    .bind keeps_resolveOr fun _ hdev => .bind keeps_ensureClean fun _ hclean =>
      absurd ⟨⟨flow, hflow, hasTip_of_ok hfeat, hasTip_of_ok hdev⟩, clean_of_ok hclean⟩ h

theorem refuses_flowTopicFinish {kind : FlowKind}
    (h : ¬(Command.flowTopicFinish kind name).Passes env r) :
    Refuses (flowTopicFinish env kind name) r :=
  .get <| .lift fun flow hflow => .bind keeps_resolveOr fun _ htopic =>
    .bind keeps_resolveOr fun _ htarget => .bind keeps_resolveOr fun _ hback =>
    .bind keeps_ensureClean fun _ hclean => absurd ⟨⟨flow, hflow, hasTip_of_ok htopic,
      hasTip_of_ok htarget, hasTip_of_ok hback⟩, clean_of_ok hclean⟩ h

theorem refuses_bisectReset (h : ¬Command.bisectReset.Passes env r) : Refuses (bisectReset env) r := by
  refine refuses_control ?_
  split
  · exact .throw
  · rename_i state hstate
    refine .bind keeps_bisectHead fun _ _ => .bind keeps_ensureClean fun _ hclean => absurd ?_ h
    exact ⟨by rw [hstate]; exact Option.some_ne_none _, clean_of_ok hclean⟩

theorem revertState_of_ok {state : RevertState} (h : revertState env verb r = .ok state r') :
    (r.controls env.workspace).revert = some state := by
  cases hstate : (r.controls env.workspace).revert with
  | none =>
    simp only [revertState, Bind.bind, EStateM.bind, control, hstate] at h
    cases h
  | some state' =>
    simp only [revertState, Bind.bind, EStateM.bind, control, hstate] at h
    cases h
    rfl

theorem rebaseState_of_ok {state : RebaseState} (h : rebaseState env verb r = .ok state r') :
    (r.controls env.workspace).rebase = some state := by
  cases hstate : (r.controls env.workspace).rebase with
  | none =>
    simp only [rebaseState, Bind.bind, EStateM.bind, control, hstate] at h
    cases h
  | some state' =>
    simp only [rebaseState, Bind.bind, EStateM.bind, control, hstate] at h
    cases h
    rfl

theorem refuses_revertAbort (h : ¬Command.revertAbort.Passes env r) : Refuses (revertAbort env) r := by
  refine .bind keeps_revertState fun state hstate => absurd ?_ h
  rw [Command.Passes, revertState_of_ok hstate]
  exact Option.some_ne_none _

theorem refuses_rebaseSkip (h : ¬Command.rebaseSkip.Passes env r) : Refuses (rebaseSkip env) r := by
  refine .bind keeps_rebaseState fun state hstate => absurd ?_ h
  rw [Command.Passes, rebaseState_of_ok hstate]
  exact Option.some_ne_none _

theorem refuses_rebaseAbort (h : ¬Command.rebaseAbort.Passes env r) : Refuses (rebaseAbort env) r := by
  refine .bind keeps_rebaseState fun state hstate => absurd ?_ h
  rw [Command.Passes, rebaseState_of_ok hstate]
  exact Option.some_ne_none _

/-- Whoever goes on with a revert is stopped by an unmerged path. -/
theorem refuses_revertContinue (h : ¬Command.revertContinue.Passes env r) :
    Refuses (revertContinue env) r := by
  refine .bind keeps_revertState fun state hstate => .first ?_
  have hstate := revertState_of_ok hstate
  have hstopped : ∃ c, state.current = some c ∧ unmerged (r.controls env.workspace).index = true := by
    by_contra hno
    refine h ⟨state, hstate, fun hcurrent => ?_⟩
    obtain ⟨c, hc⟩ := Option.ne_none_iff_exists'.mp hcurrent
    exact Bool.eq_false_of_not_eq_true fun hu => hno ⟨c, hc, hu⟩
  obtain ⟨c, hc, hu⟩ := hstopped
  rw [commitPending, hc]
  refine refuses_control ?_
  rw [if_pos hu]
  exact .throw

theorem refuses_rebaseContinue (h : ¬Command.rebaseContinue.Passes env r) :
    Refuses (rebaseContinue env) r := by
  refine .bind keeps_rebaseState fun state hstate => .first ?_
  have hstate := rebaseState_of_ok hstate
  have hstopped : ∃ c, state.current = some c ∧ unmerged (r.controls env.workspace).index = true := by
    by_contra hno
    refine h ⟨state, hstate, fun hcurrent => ?_⟩
    obtain ⟨c, hc⟩ := Option.ne_none_iff_exists'.mp hcurrent
    exact Bool.eq_false_of_not_eq_true fun hu => hno ⟨c, hc, hu⟩
  obtain ⟨⟨action, c⟩, hc, hu⟩ := hstopped
  rw [commitStopped, hc]
  refine .first (refuses_control ?_)
  rw [if_pos hu]
  exact .throw

/-! ### Steps -/

theorem held_recordOp {payload : Bytes} : Keeps (held env) (recordOp env payload) := by
  intro r
  rw [recordOp]
  split
  · rfl
  · split <;> rfl

theorem held_add {paths : List Bytes} : Keeps (held env) (add env paths) := by
  refine .bind keeps_ensureWritable fun _ => .bind keeps_control fun _ => .bind .get fun _ =>
    .bind .lift fun _ => .bind .lift fun _ => .bind (.foldlM fun entries path => ?_) fun _ =>
    .bind (keeps_saveIndex blindTree_held) fun _ => keeps_whenever held_recordOp
  rw [stagePath.eq_def]
  split
  · exact .pure
  · split
    · exact .throw
    · exact .bind .get fun _ => .bind .lift fun _ => .bind held_onObjects fun _ =>
        .bind keeps_makeEntry fun _ => .pure

theorem held_undoIndexTx {payload : Bytes} : Keeps (held env) (undoIndexTx env payload) := by
  rw [undoIndexTx]
  split
  · exact .throw
  · exact .bind keeps_control fun _ => .bind (keeps_saveIndex blindTree_held) fun _ => held_recordOp

/-- A ref transaction is only undone from a clean tree. -/
theorem refuses_undoRefTx (h : ¬Clean env r) : Refuses (undoRefTx env) r := by
  refine .get <| .bind keeps_onRefs fun changes _ => ?_
  cases changes with
  | none => exact .throw
  | some changes => exact .bind keeps_ensureClean fun _ hclean => absurd (clean_of_ok hclean) h

theorem held_undo (h : ¬Command.undo.Passes env r) :
    Triple (· = r) (undo env) (fun _ s => held env s = held env r)
      (fun _ s => held env s = held env r) := by
  refine .get fun s hs => ?_
  rw [hs]
  have h : ¬(r.ops.getLast?.bind List.head? = some payloadRefTx ∧ Clean env r) := h
  have hsame : ∀ s : NativeRepo, s = r → held env s = held env r := fun s hs => by rw [hs]
  cases hlast : r.ops.getLast? with
  | none => exact .throw hsame
  | some payload =>
    rw [hlast, Option.bind_some] at h
    dsimp only
    cases hkind : payload.head? with
    | none => exact .throw hsame
    | some kind =>
      dsimp only
      refine .ite (fun href => ?_) fun _ => .ite (fun _ => ?_) fun _ => .throw hsame
      · have hdirty : ¬Clean env r := fun hclean => h ⟨by rw [hkind, href], hclean⟩
        exact (refuses_undoRefTx hdirty).triple.imp (fun _ hs => hs) (fun _ _ hs => hs) fun _ => hsame
      · exact held_undoIndexTx.triple.imp hsame (fun _ _ hs => hs) fun _ _ hs => hs

theorem held_flowInit (h : ¬Command.flowInit.Passes env r) :
    held env (leaves (flowInit env r)) = held env r := by
  have hsome : (r.refs[branchRef (flowModel r.refs).develop]?).isSome :=
    Option.isSome_iff_ne_none.mpr h
  have hrun : flowInit env r = .ok () r := by
    simp only [flowInit, Bind.bind, EStateM.bind, get, getThe, MonadStateOf.get, EStateM.get,
      if_pos hsome]
    rfl
  rw [hrun]
  rfl

theorem clean_withControl {c : Control} (h : c.index = (r.controls env.workspace).index) :
    Clean env (withControl env r c) ↔ Clean env r := by
  have hown : (withControl env r c).controls env.workspace = c := Function.update_self ..
  have hstatus : statusOf env (withControl env r c) = statusOf env r := by
    rw [statusOf, statusOf, hown, h]
    rfl
  rw [Clean, Clean, hstatus]

theorem held_bisectStep (next : BisectNext) (state : BisectState) (h : ¬Clean env r) :
    Triple (· = r) (bisectStep env next state) (fun _ s => held env s = held env r)
      (fun _ s => held env s = held env r) := by
  have hsame : ∀ s : NativeRepo, s = r → held env s = held env r := fun s hs => by rw [hs]
  refine .get fun s hs => Triple.bind (Q := fun _ s => s = r)
    (.lift (fun _ _ s' hs' => hs'.trans hs) fun _ _ s' hs' => hsame s' (hs'.trans hs)) fun c => ?_
  cases c with
  | none => exact .pure hsame
  | some c =>
    have hrefuses := Refuses.bind (m := ensureClean env "bisect") keeps_ensureClean
      (g := fun _ => do
        let at_ ← bisectHead env
        let old ← entriesOf env at_
        let target ← entriesOf env c
        checkout env old target
        commitRefs env "bisect" [⟨bisectRef env, some (.oid at_), some (.oid c)⟩])
      fun _ hclean => absurd (clean_of_ok hclean) h
    exact hrefuses.triple.imp (fun _ hs => hs) (fun _ _ hs => hs) fun _ => hsame

theorem held_bisectMark {next : BisectNext} {verdict : Verdict} {revs : List (Res ObjectId)}
    (h : ¬(Command.bisectMark next verdict revs).Passes env r) :
    Triple (· = r) (bisectMark env next verdict revs) (fun _ s => held env s = held env r)
      (fun _ s => held env s = held env r) := by
  have hsame : ∀ s : NativeRepo, s = r → held env s = held env r := fun s hs => by rw [hs]
  refine Triple.bind (Q := fun c s => c = r.controls env.workspace ∧ s = r)
    (E := fun _ s => held env s = held env r)
    (fun s hs => ⟨congrArg (fun s => s.controls env.workspace) hs, hs⟩) fun c => .pre fun hc => ?_
  subst hc
  cases hbisect : (r.controls env.workspace).bisect with
  | none => exact .throw hsame
  | some state =>
    have hdirty : ¬Clean env r := fun hclean => h ⟨by rw [hbisect]; exact Option.some_ne_none _, hclean⟩
    have hmarked : Triple (· = r) (markedCommits env revs) (fun _ s => s = r)
        (fun _ s => held env s = held env r) :=
      (keeps_markedCommits (f := id)).triple.imp (fun _ hs => hs) (fun _ _ hs => hs) fun _ => hsame
    refine hmarked.bind fun commits => Triple.bind (Q := fun _ s => s = r)
      (.lift (fun _ _ s hs => hs) fun _ _ s hs => hsame s hs) fun state' => ?_
    intro s hs
    have hsaved : ¬Clean env (withControl env s
        { s.controls env.workspace with bisect := some state' }) :=
      (clean_withControl (c := { s.controls env.workspace with bisect := some state' }) rfl).not.mpr
        (hs ▸ hdirty)
    have hheld : held env (withControl env s { s.controls env.workspace with bisect := some state' }) =
        held env r := by
      rw [← hs]
      exact held_setControl (g := fun c => { c with bisect := some state' }) (fun _ => rfl) s
    have hstep := held_bisectStep next state' hsaved _ rfl
    rw [hheld] at hstep
    exact hstep

/-- What a triple that ends alike either way says of what is left. -/
theorem held_of_triple {x : Cmd α}
    (h : Triple (· = r) x (fun _ s => held env s = held env r) (fun _ s => held env s = held env r)) :
    held env (leaves (x r)) = held env r := by
  have hx := h r rfl
  cases hrun : x r with
  | ok a s =>
    rw [hrun] at hx
    exact hx
  | error e s =>
    rw [hrun] at hx
    exact hx

theorem leaves_done {x : Cmd α} : leaves (done x r) = leaves (x r) := by
  simp only [done, Bind.bind, EStateM.bind]
  cases x r <;> rfl

/-- **While a merge is in progress**, what does not get through leaves the refs and the merge as they
    are, whether it fails or not; a commit aside. -/
theorem held_command {c : Command} (hmerge : mergeHeadOf env r ≠ none) (h : ¬c.Passes env r)
    (hc : ∀ m ae nv, c ≠ .commit m ae nv) : held env (leaves (c.run env r)) = held env r := by
  have hrefuses {α : Type} {x : Cmd α} (hx : Refuses x r) : held env (leaves (x r)) = held env r :=
    congrArg (held env) hx.leaves_eq
  have hasks {α : Type} {verb : String} {g : Unit → Cmd α} :
      Refuses (ensureNoMergeInProgress env verb >>= g) r :=
    .first (refuses_ensureNoMergeInProgress hmerge)
  cases c with
  | commit message allowEmpty noVerify => exact absurd rfl (hc _ _ _)
  | amend message noVerify =>
    rw [Command.run, leaves_done]
    exact hrefuses (.bind keeps_ensureWritable fun _ _ =>
      .bind keeps_ensureTopicBranchOrUnborn fun _ _ => hasks)
  | switch name create =>
    rw [Command.run, leaves_done]
    exact hrefuses hasks
  | merge name => exact hrefuses (refuses_merge h)
  | cherryPick rev text => exact hrefuses (refuses_cherryPick h)
  | flowInit =>
    rw [Command.run, leaves_done]
    exact held_flowInit h
  | flowStart kind name =>
    rw [Command.run, leaves_done]
    exact hrefuses (refuses_flowStart h)
  | flowFeatureFinish name =>
    rw [Command.run, leaves_done]
    exact hrefuses (refuses_flowFeatureFinish h)
  | flowTopicFinish kind name =>
    rw [Command.run, leaves_done]
    exact hrefuses (refuses_flowTopicFinish h)
  | add paths =>
    rw [Command.run, leaves_done]
    exact held_add r
  | undo =>
    rw [Command.run, leaves_done]
    exact held_of_triple (held_undo h)
  | revert revs mainline =>
    exact hrefuses (.bind keeps_ensureTopicBranchOrUnborn fun _ _ => hasks)
  | revertContinue => exact hrefuses (refuses_revertContinue h)
  | revertAbort =>
    rw [Command.run, leaves_done]
    exact hrefuses (refuses_revertAbort h)
  | rebase upstream edited =>
    exact hrefuses (.bind keeps_ensureTopicBranchOrUnborn fun _ _ => hasks)
  | rebaseContinue => exact hrefuses (refuses_rebaseContinue h)
  | rebaseSkip => exact hrefuses (refuses_rebaseSkip h)
  | rebaseAbort =>
    rw [Command.run, leaves_done]
    exact hrefuses (refuses_rebaseAbort h)
  | bisectStart next bad good =>
    rw [Command.run, leaves_done]
    exact hrefuses hasks
  | bisectMark next verdict revs =>
    rw [Command.run, leaves_done]
    exact held_of_triple (held_bisectMark h)
  | bisectReset =>
    rw [Command.run, leaves_done]
    exact hrefuses (refuses_bisectReset h)

/-- What `commit` and `merge` keep, every command keeps that is blind to it. -/
theorem Blind.keeps_run {τ : Type} {f : NativeRepo → τ} (b : Blind env f) {c : Command}
    (hcommit : ∀ message allowEmpty noVerify, c = .commit message allowEmpty noVerify →
      Keeps f (Repo.commit env message allowEmpty noVerify))
    (hmerge : ∀ name, c = .merge name → Keeps f (Repo.merge env name)) : Keeps f (c.run env) := by
  have hdone {α : Type} {x : Cmd α} (hx : Keeps f x) : Keeps f (done x) := .bind hx fun _ => .pure
  cases c with
  | commit message allowEmpty noVerify => exact hdone (hcommit message allowEmpty noVerify rfl)
  | amend message noVerify => exact hdone b.keeps_amend
  | switch name create => exact hdone b.keeps_switch
  | merge name => exact hmerge name rfl
  | cherryPick rev text => exact b.keeps_cherryPick
  | flowInit => exact hdone b.keeps_flowInit
  | flowStart kind name => exact hdone b.keeps_flowStart
  | flowFeatureFinish name => exact hdone b.keeps_flowFeatureFinish
  | flowTopicFinish kind name => exact hdone b.keeps_flowTopicFinish
  | add paths => exact hdone b.keeps_add
  | undo => exact hdone b.keeps_undo
  | revert revs mainline => exact b.keeps_revert
  | revertContinue => exact b.keeps_revertContinue
  | revertAbort => exact hdone b.keeps_revertAbort
  | rebase upstream edited => exact b.keeps_rebase
  | rebaseContinue => exact b.keeps_rebaseContinue
  | rebaseSkip => exact b.keeps_rebaseSkip
  | rebaseAbort => exact hdone b.keeps_rebaseAbort
  | bisectStart next bad good => exact hdone b.keeps_bisectStart
  | bisectMark next verdict revs => exact hdone b.keeps_bisectMark
  | bisectReset => exact hdone b.keeps_bisectReset

/-- Only `merge` starts a merge. -/
theorem mergeHead_command {c : Command} (hnone : mergeHeadOf env r = none)
    (hc : ∀ name, c ≠ .merge name) : mergeHeadOf env (leaves (c.run env r)) = none := by
  cases c with
  | commit message allowEmpty noVerify =>
    have hspec := commit_spec message allowEmpty noVerify r (Prod.ext rfl hnone : held env r = (r.refs, none))
    rw [Command.run, leaves_done]
    cases hrun : Repo.commit env message allowEmpty noVerify r with
    | ok new s =>
      rw [hrun] at hspec
      exact hspec.1
    | error e s =>
      rw [hrun] at hspec
      exact congrArg Prod.snd hspec
  | merge name => exact absurd rfl (hc name)
  | _ => exact (blind_mergeHead.keeps_run (fun _ _ _ h => by cases h) (fun _ h => by cases h) r).trans hnone

end

/-! ### Runs -/

section

variable {home : Env} {start : NativeRepo} {s : Session}

theorem Env.At.headCommit {env : Env} (hat : env.At home) (refs : RefMap) :
    headCommit env refs = headCommit home refs := by
  simp only [Repo.headCommit, headBranch, hat.headRef]

theorem Env.At.mergeHeadOf {env : Env} (hat : env.At home) (r : NativeRepo) :
    mergeHeadOf env r = mergeHeadOf home r := by
  simp only [Repo.mergeHeadOf, hat.workspace]

/-- While a merge is in progress, HEAD is on the tip the merge was computed against. -/
def OnTip (home : Env) (s : Session) : Prop :=
  mergeHeadOf home s.repo ≠ none → ∃ b, s.tip = some b ∧ headCommit home s.repo.refs = .ok (some b)

/-- A merge that does not get through does not change what is remembered. -/
theorem tipAfter_eq {env : Env} {c : Command} (h : ¬c.Passes env s.repo) :
    tipAfter env s c = s.tip := by
  cases c with
  | merge name =>
    obtain ⟨e, he⟩ := refuses_merge h
    rw [tipAfter, he]
  | _ => rfl

/-- A merge starts from the tip that is remembered. -/
theorem onTip_merge {env : Env} (hat : env.At home) {name : String}
    (hnone : mergeHeadOf home s.repo = none) :
    OnTip home (s.after (.command env hat (.merge name))) := by
  rw [← hat.mergeHeadOf] at hnone
  have hspec := merge_spec name s.repo (Prod.ext rfl hnone : held env s.repo = (s.repo.refs, none))
  intro hsome
  rw [← hat.mergeHeadOf] at hsome
  simp only [Session.after, Command.run, tipAfter] at hsome ⊢
  cases hrun : Repo.merge env name s.repo with
  | error e s' =>
    rw [hrun] at hspec hsome
    exact absurd hspec hsome
  | ok stopped s' =>
    rw [hrun] at hspec hsome
    cases stopped with
    | false => exact absurd hspec hsome
    | true =>
      obtain ⟨⟨b, hb⟩, hrefs⟩ := hspec
      refine ⟨b, ?_, ?_⟩
      · simp only [headTip, hb]
      · rw [← hat.headCommit]
        exact hrefs ▸ hb

/-- A commit ends the merge, or leaves everything as it was. -/
theorem onTip_commit {env : Env} (hat : env.At home) {message : String} {allowEmpty noVerify : Bool}
    (hi : OnTip home s) :
    OnTip home (s.after (.command env hat (.commit message allowEmpty noVerify))) := by
  have hspec := commit_spec message allowEmpty noVerify s.repo (rfl : held env s.repo = (s.repo.refs, mergeHeadOf env s.repo))
  intro hsome
  rw [← hat.mergeHeadOf] at hsome
  simp only [Session.after, Command.run, leaves_done, tipAfter] at hsome ⊢
  cases hrun : Repo.commit env message allowEmpty noVerify s.repo with
  | ok new s' =>
    rw [hrun] at hspec hsome
    exact absurd hspec.1 hsome
  | error e s' =>
    rw [hrun] at hspec hsome
    have hrefs : s'.refs = s.repo.refs := congrArg Prod.fst hspec
    have hsame : mergeHeadOf env s' = mergeHeadOf env s.repo := congrArg Prod.snd hspec
    obtain ⟨b, htip, hb⟩ := hi fun h => hsome (hsame.trans ((hat.mergeHeadOf _).trans h))
    refine ⟨b, htip, ?_⟩
    rw [← hb]
    exact congrArg (headCommit home) hrefs

/-- **One step.** -/
theorem onTip_after {e : Event home} (hi : OnTip home s) (hm : Meets s e) :
    OnTip home (s.after e) := by
  cases e with
  | elsewhere repo =>
    intro hsome
    obtain ⟨hsame, hhead⟩ := hm
    have hbefore : mergeHeadOf home s.repo ≠ none := fun h => hsome (hsame.trans h)
    obtain ⟨b, htip, hb⟩ := hi hbefore
    exact ⟨b, htip, (hhead hbefore).trans hb⟩
  | command env hat c =>
    by_cases hprogress : mergeHeadOf home s.repo = none
    · by_cases hc : ∃ name, c = .merge name
      · obtain ⟨name, rfl⟩ := hc
        exact onTip_merge hat hprogress
      · have hstill : mergeHeadOf env (leaves (c.run env s.repo)) = none := mergeHead_command
          ((hat.mergeHeadOf _).trans hprogress) fun name h => hc ⟨name, h⟩
        exact fun hsome => absurd ((hat.mergeHeadOf _).symm.trans hstill) hsome
    · have hsome : mergeHeadOf env s.repo ≠ none := fun h => hprogress ((hat.mergeHeadOf _).symm.trans h)
      have htip := tipAfter_eq (s := s) (hm hprogress)
      by_cases hc : ∃ m ae nv, c = .commit m ae nv
      · obtain ⟨message, allowEmpty, noVerify, rfl⟩ := hc
        exact onTip_commit hat hi
      · have hheld := held_command hsome (hm hprogress) fun m ae nv h => hc ⟨m, ae, nv, h⟩
        have hrefs : (leaves (c.run env s.repo)).refs = s.repo.refs := congrArg Prod.fst hheld
        obtain ⟨b, hb, hhead⟩ := hi hprogress
        refine fun _ => ⟨b, htip.trans hb, ?_⟩
        simp only [Session.after, hrefs]
        exact hhead

/-- Every state of a run is on the tip. -/
theorem onTip_of_reachable (hstart : mergeHeadOf home start = none) :
    ∀ s, (sessions home start).ReachableIf Meets s → OnTip home s := by
  refine System.invariant_if (fun hsome => absurd hstart hsome) fun s e s' hi hm hstep => ?_
  obtain rfl : s.after e = s' := Option.some.inj hstep
  exact onTip_after hi hm

/-- **A merge in progress.** In every run in which nothing gets through that does not ask, the commit
    that ends a merge has the tip the merge was computed against as its first parent; until then no
    command moves a ref, and no merge runs to its end. -/
theorem merge_state_consistent (hstart : mergeHeadOf home start = none) :
    ∀ s, (sessions home start).ReachableIf Meets s → ∀ e : Event home, Meets s e →
      ∀ t, mergeHeadOf home s.repo = some t → Consistent s e t := by
  intro s hs e hm t ht
  have hprogress : mergeHeadOf home s.repo ≠ none := ht ▸ Option.some_ne_none t
  obtain ⟨b, htip, hb⟩ := onTip_of_reachable hstart s hs hprogress
  refine ⟨?_, ?_, ?_⟩
  · rintro env hat message allowEmpty noVerify - new r' hrun
    have hheld : held env s.repo = (s.repo.refs, some t) :=
      Prod.ext rfl ((hat.mergeHeadOf _).trans ht)
    obtain ⟨-, tip, tree, bytes, hhead, hbytes, hnew⟩ := (commit_spec message allowEmpty noVerify).ok hheld hrun
    rw [hat.headCommit, hb] at hhead
    cases hhead
    have hhead : headTip home s.repo = some b := by rw [headTip, hb]
    exact ⟨b, tree, bytes, htip, hhead, hbytes, hnew⟩
  · rintro env hat c rfl hc
    have hsome : mergeHeadOf env s.repo ≠ none := fun h => hprogress ((hat.mergeHeadOf _).symm.trans h)
    exact congrArg Prod.fst (held_command hsome (hm hprogress) hc)
  · rintro env hat name rfl
    exact refuses_merge (hm hprogress)

end

/-! ### Another merge in between -/

def pathF : Bytes := [0x66]

def commitBase : Bytes := toyCommit [(pathF, [1])] []

def commitOurs : Bytes := toyCommit [(pathF, [2])] [toyId .commit commitBase]

/-- Deletes what `commitOurs` changes. -/
def commitSide : Bytes := toyCommit [] [toyId .commit commitBase]

def commitNext : Bytes := toyCommit [(pathF, [3])] [toyId .commit commitOurs]

/-- `side` conflicts with the branch, `next` is ahead of it. -/
def threeBranches : NativeRepo where
  objects := toyObjects [(.blob, [1]), (.blob, [2]), (.blob, [3]), (.tree, toyTree [(pathF, [1])]),
    (.tree, toyTree [(pathF, [2])]), (.tree, toyTree [(pathF, [3])]), (.tree, toyTree []),
    (.commit, commitBase), (.commit, commitOurs), (.commit, commitSide), (.commit, commitNext)]
  refs := toyRefs [("HEAD", .symbolic "refs/heads/main"),
    ("refs/heads/main", .oid (toyId .commit commitOurs)),
    ("refs/heads/side", .oid (toyId .commit commitSide)),
    ("refs/heads/next", .oid (toyId .commit commitNext))]
  ops := []
  fs := toyFiles [(pathF, [2])]
  controls _ := ⟨[stageEntry (toyEntry pathF [2]) 0], none, none, none, none⟩

def call (c : Command) : Event Env.toy := .command Env.toy ⟨rfl, rfl⟩ c

def stopped : Session := Session.after ⟨threeBranches, none⟩ (call (.merge "side"))

/-- The conflict is resolved as it was on the branch, and the branch goes ahead. -/
def ahead : Session :=
  (stopped.after (call (.add [pathF]))).after (call (.merge "next"))

theorem merge_state_consistent_stopped : ∃ t,
    (sessions Env.toy threeBranches).ReachableIf Meets stopped ∧
      mergeHeadOf Env.toy stopped.repo = some t ∧
      Consistent stopped (call (.commit "merged" false false)) t := by
  have hstart : mergeHeadOf Env.toy threeBranches = none := rfl
  have hreach : (sessions Env.toy threeBranches).ReachableIf Meets stopped :=
    .step (a := call (.merge "side")) .init (fun h => absurd hstart h) rfl
  have ht : mergeHeadOf Env.toy stopped.repo = some (toyId .commit commitSide) := by decide +kernel
  exact ⟨_, hreach, ht, merge_state_consistent hstart stopped hreach
    (call (.commit "merged" false false)) (fun _ h => h) _ ht⟩

/-- What the run comes to: the merge is still in progress, but not on the tip, and a commit ends it. -/
theorem ahead_commits : headTip Env.toy ahead.repo ≠ ahead.tip ∧
    mergeHeadOf Env.toy ahead.repo = some (toyId .commit commitSide) ∧
    (commit Env.toy "merged" false false ahead.repo matches .ok _ _) = true := by
  decide +kernel

/-- **A second merge runs to its end**, and the commit that ends the first one has a parent the first
    one was not computed against. -/
theorem merge_in_between : ∃ (s : Session) (e : Event Env.toy) (t : ObjectId),
    (sessions Env.toy threeBranches).Reachable s ∧ mergeHeadOf Env.toy s.repo = some t ∧
      ¬Consistent s e t := by
  obtain ⟨hne, ht, hok⟩ := ahead_commits
  refine ⟨ahead, call (.commit "merged" false false), toyId .commit commitSide, ?_, ht, fun h => ?_⟩
  · exact .step (a := call (.merge "next")) (.step (a := call (.add [pathF]))
      (.step (a := call (.merge "side")) .init trivial rfl) trivial rfl) trivial rfl
  · cases hrun : commit Env.toy "merged" false false ahead.repo with
    | error e r' =>
      rw [hrun] at hok
      cases hok
    | ok new r' =>
      obtain ⟨b, tree, bytes, htip, hhead, -, -⟩ := h.commit Env.toy ⟨rfl, rfl⟩ _ _ _ rfl new r' hrun
      exact hne (hhead.trans htip.symm)

end Alt.Repo
