import Alt.Repo.OneWorkspace

namespace Alt.Repo

open Alt.Library Alt.Odb Alt.Refs Alt.Wire List

/-!
# The branch lists at every gate (`native.rs`, 628–664 and 862–905; `bin/altd_server.rs`, 1634–1660)

A policy's allow and deny lists are read at the ref store's gate, for local transactions and for
pushes that come in, and by a check before a push goes out.  Each reads them against names of its
own.

* `refTx_iff_lists`, `commitRefs_iff_lists` — what the lists add to a gate of the ref store: they
  accept the name of every change, of HEAD and of the notes as well;
* `pushAllowed_iff` — the check before a push reads them against the name of the branch without
  `refs/heads/`;
* `branch_rule_iff` — so the gates agree on a branch just if the lists accept these names alike.
-/

/-! ### Gates -/

/-- The check before a push goes out, on the would-be changes of the remote's refs. -/
def ensurePushBranchAllowed (caps : Server.Capabilities) : List RefChange → Res Unit
  | [] => .ok ()
  | c :: changes =>
    if caps.branchAllow = [] ∧ caps.branchDeny = [] then .ok ()
    else
      match Wire.stripPrefix "refs/heads/" c.name with
      | none => ensurePushBranchAllowed caps changes -- tags and the like
      | some short =>
        if caps.branchDeny.any fun g => g short then
          .error (.message ("capability denied: push to '" ++ c.name ++ "' is blocked by branch_deny"))
        else if !caps.branchAllow.isEmpty && !caps.branchAllow.any fun g => g short then
          .error (.message ("capability denied: push to '" ++ c.name ++ "' is not in branch_allow"))
        else ensurePushBranchAllowed caps changes

/-- The capabilities without their lists. -/
def withoutLists (caps : Server.Capabilities) : Server.Capabilities :=
  { caps with branchAllow := [], branchDeny := [] }

/-- The same process, of a principal without lists. -/
def Env.withoutLists (env : Env) : Env := { env with caps := Repo.withoutLists env.caps }

/-- Local transactions that are about one branch. -/
inductive Gate
  | commit
  | create
  | switch
  /-- A new branch that is checked out at once. -/
  | start

/-- The transactions of a gate. -/
def Gate.Issues (branch : String) : Gate → Issue → Prop
  | .commit, .record (some (b, _, _)) _ _ => b = branch
  | .commit, .move b _ (some _) => b = branch
  | .create, .move b none (some _) => b = branch
  | .switch, .switch _ b => b = branch
  | .start, .start b _ _ => b = branch
  | _, _ => False

/-- The lists of `caps` let the transactions of a gate through: those that go through without lists. -/
def Gate.Lets (caps : Server.Capabilities) (own branch : String) (gate : Gate) : Prop :=
  ∀ issue, gate.Issues branch issue → ∀ (env : Env) (r : NativeRepo) (verb : String) (refs : RefMap),
    env.headRef = own → env.caps.branchAllow = caps.branchAllow →
    env.caps.branchDeny = caps.branchDeny →
    refTx env.withoutLists r verb (issue.changes own) = .ok refs →
    refTx env r verb (issue.changes own) = .ok refs

/-- The lists let an update of the branch out. -/
def PushLets (caps : Server.Capabilities) (branch : String) : Prop :=
  ∀ old new, ensurePushBranchAllowed caps [⟨branch, old, new⟩] = .ok ()

/-- The lists let an update of the branch in. -/
def WireLets (caps : Server.Capabilities) (branch : String) : Prop :=
  ∀ (caps' : Server.Capabilities) (u : RefUpdate) (refs refs' : RefMap), u.name = branch →
    caps'.branchAllow = caps.branchAllow → caps'.branchDeny = caps.branchDeny →
    Server.commitRefs (some (Server.refPolicy (withoutLists caps'))) refs [Server.changeOf u] = .ok refs' →
    Server.commitRefs (some (Server.refPolicy caps')) refs [Server.changeOf u] = .ok refs'

/-- Every gate lets the branch through in the same cases: those in which the lists accept it. -/
structure SameRule (caps : Server.Capabilities) (own branch : String) : Prop where
  tx : ∀ gate : Gate, gate.Lets caps own branch ↔ caps.allowsBranchName branch = true
  push : PushLets caps branch ↔ caps.allowsBranchName branch = true
  wire : WireLets caps branch ↔ caps.allowsBranchName branch = true

/-! ### What the lists add -/

section

variable {env : Env} {caps : Server.Capabilities} {r : NativeRepo} {verb : String}
  {changes : List RefChange} {refs refs' : RefMap}

/-- The ref store's view of the lists is the policy's. -/
theorem find_not_allowed :
    ((Server.refPolicy caps).isBranchAllowed.bind fun allow => changes.find? fun c => !allow c.name) =
      changes.find? fun c => !caps.allowsBranchName c.name := by
  rw [Server.refPolicy]
  split
  · rename_i hlists
    have hopen : ∀ c ∈ changes, (!caps.allowsBranchName c.name) ≠ true := by
      intro c _
      simp [Server.Capabilities.allowsBranchName, hlists.1, hlists.2]
    rw [Option.bind_none, find?_eq_none.mpr hopen]
  · rw [Option.bind_some]
    congr 1
    funext c
    rw [Server.Capabilities.allowsBranchName, Bool.and_comm]

/-- A gate with lists is the gate without them, and every name accepted. -/
theorem policyVerdict_iff_lists (caps : Server.Capabilities) (refs : RefMap) (changes : List RefChange)
    (check : Option (RefMap → List RefChange → Except String Unit)) :
    policyVerdict (some { Server.refPolicy caps with stateCheck := check }) refs changes = .ok () ↔
      policyVerdict (some { Server.refPolicy (withoutLists caps) with stateCheck := check }) refs
        changes = .ok () ∧ ∀ c ∈ changes, caps.allowsBranchName c.name = true := by
  have hread : ∀ caps, (Server.refPolicy caps).readOnly = caps.readOnly := fun _ => rfl
  rw [policyVerdict, policyVerdict, RefPolicy.check, RefPolicy.check]
  dsimp only
  rw [find_not_allowed, find_not_allowed, hread, hread, withoutLists]
  split
  · exact ⟨fun h => (by cases h), fun h => by cases h.1⟩
  · have hopen : (changes.find? fun c => !(withoutLists caps).allowsBranchName c.name) = none :=
      find?_eq_none.mpr fun _ _ => Bool.false_ne_true
    rw [withoutLists] at hopen
    rw [hopen]
    cases hfind : changes.find? fun c => !caps.allowsBranchName c.name with
    | some c =>
      refine ⟨fun h => (by cases h), fun h => ?_⟩
      have hrefused : (!caps.allowsBranchName c.name) = true :=
        find?_some (p := fun c : RefChange => !caps.allowsBranchName c.name) hfind
      rw [h.2 c (mem_of_find?_eq_some hfind)] at hrefused
      cases hrefused
    | none =>
      refine ⟨fun h => ⟨h, fun c hc => ?_⟩, And.left⟩
      simpa using find?_eq_none.mp hfind c hc

theorem ensureNoForce_withoutLists (env : Env) (objects : Objects) (changes : List RefChange) :
    ensureNoForce env.withoutLists objects changes = ensureNoForce env objects changes := by
  induction changes with
  | nil => rfl
  | cons c changes ih =>
    rw [ensureNoForce, ensureNoForce, ih]
    rfl

/-- **What the lists add** to a local transaction. -/
theorem refTx_iff_lists : refTx env r verb changes = .ok refs ↔
    refTx env.withoutLists r verb changes = .ok refs ∧
      ∀ c ∈ changes, env.caps.allowsBranchName c.name = true := by
  have hpolicy := policyVerdict_iff_lists env.caps r.refs changes
    (some (oneWorkspacePerBranch env.headRef))
  have hforce := ensureNoForce_withoutLists env r.objects changes
  rw [refTx_eq_ok, refTx_eq_ok]
  constructor
  · rintro ⟨h, happly⟩
    obtain ⟨hverdict, hnames⟩ := hpolicy.mp h.policy
    exact ⟨⟨⟨h.writable, fun hset => hforce.trans (h.force hset), hverdict, h.logged⟩, happly⟩, hnames⟩
  · rintro ⟨⟨h, happly⟩, hnames⟩
    exact ⟨⟨h.writable, fun hset => hforce.symm.trans (h.force hset), hpolicy.mpr ⟨h.policy, hnames⟩,
      h.logged⟩, happly⟩

/-- **What the lists add** to a push that comes in. -/
theorem commitRefs_iff_lists : Server.commitRefs (some (Server.refPolicy caps)) refs changes = .ok refs' ↔
    Server.commitRefs (some (Server.refPolicy (withoutLists caps))) refs changes = .ok refs' ∧
      ∀ c ∈ changes, caps.allowsBranchName c.name = true := by
  have hpolicy := policyVerdict_iff_lists caps refs changes none
  have hcommit : ∀ policy, Server.commitRefs policy refs changes = .ok refs' ↔
      policyVerdict policy refs changes = .ok () ∧ applyChanges refs changes false = .ok refs' := by
    intro policy
    rw [Server.commitRefs]
    cases policyVerdict policy refs changes with
    | error e => exact ⟨fun h => (by cases h), fun h => by cases h.1⟩
    | ok u => exact ⟨fun h => ⟨rfl, h⟩, And.right⟩
  rw [hcommit, hcommit]
  constructor
  · rintro ⟨hverdict, happly⟩
    obtain ⟨hopen, hnames⟩ := hpolicy.mp hverdict
    exact ⟨⟨hopen, happly⟩, hnames⟩
  · rintro ⟨⟨hopen, happly⟩, hnames⟩
    exact ⟨hpolicy.mpr ⟨hopen, hnames⟩, happly⟩

end

/-! ### What each gate reads -/

section

variable {caps : Server.Capabilities} {own branch : String}

/-- The check before a push reads the lists against the short name. -/
theorem pushAllowed_iff :
    PushLets caps ("refs/heads/" ++ branch) ↔ caps.allowsBranchName branch = true := by
  have hcheck : ∀ old new, ensurePushBranchAllowed caps [⟨"refs/heads/" ++ branch, old, new⟩] = .ok () ↔
      caps.allowsBranchName branch = true := by
    intro old new
    rw [ensurePushBranchAllowed, Server.Capabilities.allowsBranchName, Wire.stripPrefix_append]
    split
    · rename_i hlists
      simp [hlists.1, hlists.2]
    · dsimp only
      split
      · rename_i hdeny
        simp [hdeny]
      · rename_i hdeny
        have hdeny : (caps.branchDeny.any fun g => g branch) = false := by simpa using hdeny
        split
        · rename_i hallow
          have hallow : caps.branchAllow.isEmpty = false ∧
              (caps.branchAllow.any fun g => g branch) = false := by simpa using hallow
          simp [hallow.1, hallow.2]
        · rename_i hallow
          rw [ensurePushBranchAllowed, hdeny]
          cases hempty : caps.branchAllow.isEmpty <;> simp [hempty] at hallow ⊢
          exact hallow
  exact ⟨fun h => (hcheck none none).mp (h none none), fun h old new => (hcheck old new).mpr h⟩

/-- A transaction of new refs, in a repository without any. -/
def firstTx (own : String) (caps : Server.Capabilities) : Env :=
  { Env.toy with headRef := own, caps := { Server.Capabilities.full with
      branchAllow := caps.branchAllow, branchDeny := caps.branchDeny } }

def noRefs : NativeRepo := ⟨fun _ => none, ∅, [], .empty, fun _ => ⟨[], none, none, none, none⟩⟩

theorem heldBy_noRefs (changes : List RefChange) (c : RefChange) : heldBy own ∅ changes c = none := by
  rw [heldBy]
  split
  · rfl
  · simp

/-- Without lists, a transaction of new refs goes through there. -/
theorem refTx_firstTx {changes : List RefChange} (h : ∀ c ∈ changes, c.old = none) :
    refTx (firstTx own caps).withoutLists noRefs "" changes = .ok (changes.foldl applyChange ∅) := by
  have hheld : changes.findSome? (heldBy own ∅ changes) = none :=
    findSome?_eq_none_iff.mpr fun c _ => heldBy_noRefs changes c
  have hverdict : policyVerdict (some (workspacePolicy (firstTx own caps).withoutLists)) noRefs.refs
      changes = .ok () := by
    have hcheck : oneWorkspacePerBranch own ∅ changes = .ok () := by
      rw [oneWorkspacePerBranch, hheld]
    change (oneWorkspacePerBranch own ∅ changes).mapError RefError.rejected = .ok ()
    rw [hcheck]
    rfl
  refine refTx_eq_ok.mpr ⟨⟨rfl, (fun h => by cases h), hverdict, rfl⟩, applyChanges_eq_ok (fun c hc => ?_) false⟩
  rw [h c hc]
  rfl

/-- What a gate's transactions change. -/
def Gate.names (own branch : String) : Gate → List String
  | .commit => [branch, notesRef]
  | .create => [branch]
  | .switch => [own]
  | .start => [branch, own]

theorem Gate.name_mem {gate : Gate} {issue : Issue} {c : RefChange} (h : gate.Issues branch issue)
    (hc : c ∈ issue.changes own) : c.name ∈ gate.names own branch := by
  unfold Gate.Issues at h
  split at h
  · subst h
    exact mem_map_of_mem (f := RefChange.name) hc
  · subst h
    rw [mem_singleton.mp hc]
    exact mem_cons_self
  · subst h
    rw [mem_singleton.mp hc]
    exact mem_cons_self
  · subst h
    rw [mem_singleton.mp hc]
    exact mem_cons_self
  · subst h
    exact mem_map_of_mem (f := RefChange.name) hc
  · cases h

/-- A gate's lists let a branch through just if they accept every name of its transactions. -/
theorem Gate.lets_iff (gate : Gate) (hall : ∃ issue, gate.Issues branch issue ∧
      (issue.changes own).map RefChange.name = gate.names own branch ∧
      ∀ c ∈ issue.changes own, c.old = none) :
    gate.Lets caps own branch ↔ ∀ name ∈ gate.names own branch, caps.allowsBranchName name = true := by
  constructor
  · intro h name hname
    obtain ⟨issue, hissue, hnames, hnew⟩ := hall
    rw [← hnames] at hname
    obtain ⟨c, hc, rfl⟩ := mem_map.mp hname
    have htx := h issue hissue (firstTx own caps) noRefs "" _ rfl rfl rfl (refTx_firstTx hnew)
    exact (refTx_iff_lists.mp htx).2 c hc
  · intro h issue hissue env r verb refs _ hallow hdeny htx
    refine refTx_iff_lists.mpr ⟨htx, fun c hc => ?_⟩
    have haccept := h c.name (Gate.name_mem hissue hc)
    rwa [Server.Capabilities.allowsBranchName, ← hallow, ← hdeny] at haccept

theorem commit_lets_iff : Gate.commit.Lets caps own branch ↔
    caps.allowsBranchName branch = true ∧ caps.allowsBranchName notesRef = true := by
  rw [Gate.lets_iff .commit ⟨.record (some (branch, none, toyId .commit [])) none (toyId .commit []), rfl,
    rfl, by simp [Issue.changes]⟩]
  simp [Gate.names]

theorem create_lets_iff :
    Gate.create.Lets caps own branch ↔ caps.allowsBranchName branch = true := by
  rw [Gate.lets_iff .create ⟨.move branch none (some (toyId .commit [])), rfl, rfl, by simp [Issue.changes]⟩]
  simp [Gate.names]

/-- A switch is let through for the name of HEAD, not for the branch. -/
theorem switch_lets_iff : Gate.switch.Lets caps own branch ↔ caps.allowsBranchName own = true := by
  rw [Gate.lets_iff .switch ⟨.switch none branch, rfl, rfl, by simp [Issue.changes]⟩]
  simp [Gate.names]

theorem start_lets_iff : Gate.start.Lets caps own branch ↔
    caps.allowsBranchName branch = true ∧ caps.allowsBranchName own = true := by
  rw [Gate.lets_iff .start ⟨.start branch (toyId .commit []) none, rfl, rfl, by simp [Issue.changes]⟩]
  simp [Gate.names]

theorem wireLets_iff : WireLets caps branch ↔ caps.allowsBranchName branch = true := by
  constructor
  · intro h
    have hold : ∀ c ∈ [Server.changeOf ⟨none, some (toyId .commit []), branch⟩],
        (∅ : RefMap)[c.name]? = c.old := by
      intro c hc
      rw [mem_singleton.mp hc]
      rfl
    have hopen : Server.commitRefs (some (Server.refPolicy (withoutLists (firstTx "HEAD" caps).caps))) ∅
        [Server.changeOf ⟨none, some (toyId .commit []), branch⟩] = .ok _ :=
      applyChanges_eq_ok hold false
    have htx := h (firstTx "HEAD" caps).caps ⟨none, some (toyId .commit []), branch⟩ ∅ _ rfl rfl rfl hopen
    exact (commitRefs_iff_lists.mp htx).2 _ mem_cons_self
  · intro h caps' u refs refs' hname hallow hdeny hopen
    refine commitRefs_iff_lists.mpr ⟨hopen, fun c hc => ?_⟩
    rw [mem_singleton.mp hc]
    rwa [Server.Capabilities.allowsBranchName, ← hallow, ← hdeny, ← hname] at h

/-- **A branch rule means the same at every gate** just if the lists accept the branch's short name and
    HEAD where they accept the branch, and the notes' ref at least there. -/
theorem branch_rule_iff (caps : Server.Capabilities) (own branch : String) :
    SameRule caps own ("refs/heads/" ++ branch) ↔
      caps.allowsBranchName branch = caps.allowsBranchName ("refs/heads/" ++ branch) ∧
      caps.allowsBranchName own = caps.allowsBranchName ("refs/heads/" ++ branch) ∧
      (caps.allowsBranchName ("refs/heads/" ++ branch) = true →
        caps.allowsBranchName notesRef = true) := by
  constructor
  · intro h
    have hcommit := (h.tx .commit).symm.trans commit_lets_iff
    have hswitch := (h.tx .switch).symm.trans switch_lets_iff
    have hpush := h.push.symm.trans pushAllowed_iff
    exact ⟨(Bool.eq_iff_iff.mpr hpush).symm, (Bool.eq_iff_iff.mpr hswitch).symm,
      fun hbranch => (hcommit.mp hbranch).2⟩
  · rintro ⟨hshort, hown, hnotes⟩
    have hshort := Bool.eq_iff_iff.mp hshort
    have hown := Bool.eq_iff_iff.mp hown
    refine ⟨fun gate => ?_, pushAllowed_iff.trans hshort, wireLets_iff⟩
    cases gate with
    | commit => exact commit_lets_iff.trans ⟨And.left, fun h => ⟨h, hnotes h⟩⟩
    | create => exact create_lets_iff
    | switch => exact switch_lets_iff.trans hown
    | start => exact start_lets_iff.trans ⟨And.left, fun h => ⟨h, hown.mpr h⟩⟩

/-- Every branch is allowed, and none can be committed on, switched to or pushed. -/
theorem allowed_branch_is_refused :
    let caps : Server.Capabilities :=
      { Server.Capabilities.full with branchAllow := [Server.globMatches "refs/heads/**"] }
    caps.allowsBranchName "refs/heads/main" = true ∧ ¬Gate.commit.Lets caps "HEAD" "refs/heads/main" ∧
      ¬Gate.switch.Lets caps "HEAD" "refs/heads/main" ∧ ¬PushLets caps "refs/heads/main" := by
  refine ⟨by decide +kernel, fun h => ?_, fun h => ?_, fun h => ?_⟩
  · exact absurd (commit_lets_iff.mp h).2 (by decide +kernel)
  · exact absurd (switch_lets_iff.mp h) (by decide +kernel)
  · have hshort := pushAllowed_iff.mp (show PushLets _ ("refs/heads/" ++ "main") from h)
    exact absurd hshort (by decide +kernel)

end

end Alt.Repo
