import Alt.Repo.UndoRefs

namespace Alt.Repo

open Alt.Library Alt.Odb Alt.Refs Alt.Wire List

/-!
# One workspace per branch (`native/workspace.rs`, 15–149, 271–330)

Any number of processes, in any workspaces, commit ref transactions to one log.  Each builds its
changes from refs it read some time ago; the gates and the old values are checked against the refs
of the moment.

* `Issue` — the transactions of the commands, with whatever old values their process read;
* `Step` — one transaction goes through, of a command or of a push;
* `exclusive_of_policy` — a transaction that checks a branch out once, and that the check accepts,
  leaves no branch in two workspaces;
* `oneCheckout_inverse` — undoing a transaction checks each branch out once, whatever the
  transaction did, because its old values were in the refs;
* `branch_in_one_workspace` — so in every reachable state two HEADs on one branch are one HEAD.
-/

/-- The ref that is a workspace's HEAD. -/
def headRefOf (workspace : String) : String :=
  if workspace = "default" then "HEAD" else "workspaces/" ++ workspace ++ "/HEAD"

/-! ### Transactions -/

/-- A ref transaction of a command, with what its process read before. -/
inductive Issue
  /-- One ref to an object, or away: branches and tags, `merge`, the end of a rebase, a step of a
      bisection, `revert --abort`. -/
  | move (name : String) (old : Option RefTarget) (new : Option ObjectId)
  /-- A commit with its note, or a note alone. -/
  | record (branch : Option (String × Option ObjectId × ObjectId)) (note : Option ObjectId)
      (noted : ObjectId)
  | switch (head : Option RefTarget) (branch : String)
  /-- `flow init` and the starts of topics. -/
  | start (branch : String) (tip : ObjectId) (head : Option RefTarget)
  | finishFeature (dev : String) (tip merged : ObjectId) (topic : String) (done : ObjectId)
      (head : Option RefTarget)
  | finishTopic (target : String) (tip merged : ObjectId) (topic : String) (done : ObjectId)
      (head : Option RefTarget) (back : String) (backTip backMerged : ObjectId)
  /-- `rebase` and `bisect start` put HEAD on a scratch ref. -/
  | handOver (scratch : String) (tip : ObjectId) (branch : String)
  /-- HEAD goes back to the branch, and the scratch ref away. -/
  | takeBack (scratch : String) (tip : Option ObjectId) (branch : String)
  | addWorkspace (name branch : String) (newBranchAt : Option ObjectId)
  | removeWorkspace (name : String) (old : RefTarget)
  | fetch (updates : List (String × Option ObjectId × ObjectId))
      (remoteHead : Option (String × Option RefTarget × String))
  | undo (changes : List RefChange)

/-- The changes of a transaction, issued by a process whose HEAD is `own`. -/
def Issue.changes (own : String) : Issue → List RefChange
  | .move name old new => [⟨name, old, new.map .oid⟩]
  | .record branch note noted =>
    (branch.map fun b => ⟨b.1, b.2.1.map .oid, some (.oid b.2.2)⟩).toList ++
      [⟨notesRef, note.map .oid, some (.oid noted)⟩]
  | .switch head branch => [⟨own, head, some (.symbolic branch)⟩]
  | .start branch tip head =>
    [⟨branch, none, some (.oid tip)⟩, ⟨own, head, some (.symbolic branch)⟩]
  | .finishFeature dev tip merged topic done head =>
    [⟨dev, some (.oid tip), some (.oid merged)⟩, ⟨topic, some (.oid done), none⟩,
      ⟨own, head, some (.symbolic dev)⟩]
  | .finishTopic target tip merged topic done head back backTip backMerged =>
    [⟨target, some (.oid tip), some (.oid merged)⟩, ⟨topic, some (.oid done), none⟩,
      ⟨own, head, some (.symbolic back)⟩] ++
      if backMerged ≠ backTip then [⟨back, some (.oid backTip), some (.oid backMerged)⟩] else []
  | .handOver scratch tip branch =>
    [⟨scratch, none, some (.oid tip)⟩, ⟨own, some (.symbolic branch), some (.symbolic scratch)⟩]
  | .takeBack scratch tip branch =>
    [⟨own, some (.symbolic scratch), some (.symbolic branch)⟩, ⟨scratch, tip.map .oid, none⟩]
  | .addWorkspace name branch newBranchAt =>
    (newBranchAt.map fun tip => ⟨"refs/heads/" ++ branch, none, some (.oid tip)⟩).toList ++
      [⟨"workspaces/" ++ name ++ "/HEAD", none, some (.symbolic ("refs/heads/" ++ branch))⟩]
  | .removeWorkspace name old => [⟨"workspaces/" ++ name ++ "/HEAD", some old, none⟩]
  | .fetch updates remoteHead =>
    (updates.map fun u => ⟨u.1, u.2.1.map .oid, some (.oid u.2.2)⟩) ++
      (remoteHead.map fun h =>
        ⟨"refs/remotes/" ++ h.1 ++ "/HEAD", h.2.1, some (.symbolic h.2.2)⟩).toList
  | .undo changes => inverse changes

/-- The refs, and the transactions that made them. -/
structure World where
  refs : RefMap
  txs : List (List RefChange)

/-- `undo` takes back a transaction it found in the log. -/
def Issue.From (txs : List (List RefChange)) : Issue → Prop
  | .undo changes => changes ∈ txs
  | _ => True

/-- A repository begins with the one transaction of `init` or of an import. -/
inductive World.Start : World → Prop
  | init : Start ⟨(∅ : RefMap).insert "HEAD" (.symbolic "refs/heads/main"),
      [[⟨"HEAD", none, some (.symbolic "refs/heads/main")⟩]]⟩
  | import (wanted : List (String × RefTarget))
      (hnames : ∀ e ∈ wanted, e.1 = "HEAD" ∨ e.1.startsWith "refs/" = true) :
      Start ⟨(wanted.map fun e => ⟨e.1, none, some e.2⟩).foldl applyChange ∅,
        [wanted.map fun e => ⟨e.1, none, some e.2⟩]⟩

/-- One transaction goes through. -/
inductive World.Step : World → World → Prop
  | commit {w : World} {env : Env} {r : NativeRepo} {verb : String} {refs : RefMap} (issue : Issue)
      (hfrom : issue.From w.txs) (hrefs : r.refs = w.refs)
      (htx : refTx env r verb (issue.changes env.headRef) = .ok refs) :
      Step w ⟨refs, w.txs ++ [issue.changes env.headRef]⟩
  | push {w : World} {caps : Server.Capabilities} {updates : List RefUpdate} {refs : RefMap}
      (htx : Server.commitRefs (some (Server.refPolicy caps)) w.refs
        (updates.map Server.changeOf) = .ok refs) :
      Step w ⟨refs, w.txs ++ [updates.map Server.changeOf]⟩

/-- The states of a repository, over every interleaving. -/
def World.Reachable (w : World) : Prop :=
  ∃ start, World.Start start ∧ Relation.ReflTransGen World.Step start w

/-! ### The invariant -/

/-- No branch is checked out in two workspaces. -/
def Exclusive (refs : RefMap) : Prop :=
  ∀ head head' branch, isWorkspaceHead head = true → isWorkspaceHead head' = true →
    refs[head]? = some (.symbolic branch) → refs[head']? = some (.symbolic branch) → head = head'

/-- The changes check each branch out in one workspace at most. -/
def OneCheckout (changes : List RefChange) : Prop :=
  ∀ c ∈ changes, ∀ c' ∈ changes, ∀ branch, isWorkspaceHead c.name = true →
    isWorkspaceHead c'.name = true → c.new = some (.symbolic branch) →
    c'.new = some (.symbolic branch) → c.name = c'.name

section

variable {refs refs' : RefMap} {changes : List RefChange}

theorem not_refs_of_isWorkspaceHead {name : String} (h : isWorkspaceHead name = true) :
    name.startsWith "refs/" = false := by
  rw [String.startsWith_string_eq_false_iff]
  rw [isWorkspaceHead, Bool.or_eq_true, Bool.and_eq_true] at h
  rcases h with h | ⟨h, -⟩
  · rw [beq_iff_eq] at h
    rw [h]
    decide
  · rw [String.startsWith_string_iff] at h
    obtain ⟨rest, hrest⟩ := h
    rw [← hrest]
    rintro ⟨rest', hrest'⟩
    have hhead : some 'r' = some 'w' := congrArg List.head? hrest'
    exact absurd hhead (by decide)

/-- A branch that a change checks out is in no workspace whose HEAD the transaction leaves. -/
def ChecksOutFree (refs : RefMap) (changes : List RefChange) : Prop :=
  ∀ c ∈ changes, ∀ head branch, isWorkspaceHead c.name = true → c.new = some (.symbolic branch) →
    isWorkspaceHead head = true → (∀ o ∈ changes, o.name ≠ head) →
    refs[head]? ≠ some (.symbolic branch)

theorem checksOutFree_of_oneWorkspacePerBranch {own : String}
    (h : oneWorkspacePerBranch own refs changes = .ok ()) : ChecksOutFree refs changes := by
  intro c hc head branch hname hnew hhead hkept hget
  have hnone : heldBy own refs changes c = none := by
    rw [oneWorkspacePerBranch] at h
    cases hfind : changes.findSome? (heldBy own refs changes) with
    | some e =>
      rw [hfind] at h
      cases h
    | none => exact findSome?_eq_none_iff.mp hfind c hc
  have hbranch : branchOf own c = some (branch, c.name) := by
    have hrefs := not_refs_of_isWorkspaceHead hname
    have hheads : c.name.startsWith "refs/heads/" = false := by
      rw [String.startsWith_string_eq_false_iff] at hrefs ⊢
      exact fun hfront => hrefs ((by decide : "refs/".toList <+: "refs/heads/".toList).trans hfront)
    rw [branchOf, hheads, if_neg Bool.false_ne_true, if_pos hname, hnew]
  rw [heldBy, hbranch] at hnone
  dsimp only at hnone
  rw [Option.map_eq_none_iff, find?_eq_none] at hnone
  have hmem : (head, RefTarget.symbolic branch) ∈ refs.toList := by
    rw [Std.ExtTreeMap.mem_toList_iff_getElem?_eq_some]
    exact hget
  have hstays : changes.any (fun o => o.name == head &&
      decide (o.new ≠ some (.symbolic branch))) = false := by
    rw [any_eq_false]
    intro o ho
    rw [beq_false_of_ne (hkept o ho), Bool.false_and]
    exact Bool.false_ne_true
  refine hnone _ hmem ?_
  dsimp only
  rw [bne_iff_ne.mpr fun heq => hkept c hc heq.symm, hhead, hstays, decide_eq_true rfl]
  rfl

theorem stateCheck_of_policyVerdict {env : Env}
    (h : policyVerdict (some (workspacePolicy env)) refs changes = .ok ()) :
    oneWorkspacePerBranch env.headRef refs changes = .ok () := by
  rw [policyVerdict, RefPolicy.check] at h
  split at h
  · cases h
  · split at h
    · cases h
    · cases hcheck : oneWorkspacePerBranch env.headRef refs changes with
      | ok u => rfl
      | error reason =>
        rw [workspacePolicy] at h
        dsimp only at h
        rw [hcheck] at h
        cases h

/-- **Step rule.** A transaction that checks each branch out once, and where no other workspace has
    it, leaves no branch in two workspaces. -/
theorem exclusive_foldl (hrefs : Exclusive refs) (hone : OneCheckout changes)
    (hfree : ChecksOutFree refs changes) : Exclusive (changes.foldl applyChange refs) := by
  -- one HEAD comes onto the branch, and the other was on it and stays
  have hmixed : ∀ head head' branch, isWorkspaceHead head = true → isWorkspaceHead head' = true →
      (∃ c ∈ changes, c.name = head) → (∀ c ∈ changes, c.name ≠ head') →
      (changes.foldl applyChange refs)[head]? = some (.symbolic branch) →
      (changes.foldl applyChange refs)[head']? = some (.symbolic branch) → False := by
    intro head head' branch hhead hhead' hmoved hkept hget hget'
    obtain ⟨c, hc, rfl, hnew⟩ := exists_new_of_foldl refs hmoved
    rw [get_foldl_applyChange hkept] at hget'
    exact hfree c hc head' branch hhead (hnew.symm.trans hget) hhead' hkept hget'
  intro head head' branch hhead hhead' hget hget'
  by_cases hmoved : ∃ c ∈ changes, c.name = head
  · by_cases hmoved' : ∃ c ∈ changes, c.name = head'
    · obtain ⟨c, hc, rfl, hnew⟩ := exists_new_of_foldl refs hmoved
      obtain ⟨c', hc', rfl, hnew'⟩ := exists_new_of_foldl refs hmoved'
      exact hone c hc c' hc' branch hhead hhead' (hnew.symm.trans hget) (hnew'.symm.trans hget')
    · exact (hmixed head head' branch hhead hhead' hmoved
        (fun c hc heq => hmoved' ⟨c, hc, heq⟩) hget hget').elim
  · by_cases hmoved' : ∃ c ∈ changes, c.name = head'
    · exact (hmixed head' head branch hhead' hhead hmoved'
        (fun c hc heq => hmoved ⟨c, hc, heq⟩) hget' hget).elim
    · rw [get_foldl_applyChange fun c hc heq => hmoved ⟨c, hc, heq⟩] at hget
      rw [get_foldl_applyChange fun c hc heq => hmoved' ⟨c, hc, heq⟩] at hget'
      exact hrefs head head' branch hhead hhead' hget hget'

/-- **Undo checks out once.** The old values of a transaction were the refs it found. -/
theorem oneCheckout_inverse (hrefs : Exclusive refs) (hold : ∀ c ∈ changes, refs[c.name]? = c.old) :
    OneCheckout (inverse changes) := by
  intro c hc c' hc' branch hname hname' hnew hnew'
  obtain ⟨d, hd, rfl⟩ := mem_map.mp hc
  obtain ⟨d', hd', rfl⟩ := mem_map.mp hc'
  exact hrefs d.name d'.name branch hname hname' ((hold d hd).trans hnew) ((hold d' hd').trans hnew')

/-- Only the HEAD `own` is put on branches. -/
def ChecksOutAt (own : String) (changes : List RefChange) : Prop :=
  ∀ c ∈ changes, ∀ branch, isWorkspaceHead c.name = true → c.new = some (.symbolic branch) →
    c.name = own

theorem ChecksOutAt.oneCheckout {own : String} (h : ChecksOutAt own changes) : OneCheckout changes :=
  fun c hc c' hc' branch hname hname' hnew hnew' =>
    (h c hc branch hname hnew).trans (h c' hc' branch hname' hnew').symm

/-- A command's own transaction puts one HEAD on a branch, if any. -/
theorem Issue.checksOutAt (issue : Issue) (own : String)
    (h : ∀ changes, issue ≠ .undo changes) : ∃ head, ChecksOutAt head (issue.changes own) := by
  have hobject : ∀ {head : String} {c : RefChange} (new : Option ObjectId),
      c.new = new.map .oid → ∀ branch : String, isWorkspaceHead c.name = true →
      c.new = some (.symbolic branch) → c.name = head := by
    intro head c new hnew branch _ hsymbolic
    rw [hnew] at hsymbolic
    cases new <;> cases hsymbolic
  cases issue with
  | move name old new =>
    refine ⟨own, fun c hc => ?_⟩
    rw [changes, mem_singleton] at hc
    exact hobject new (by rw [hc])
  | record branch note noted =>
    refine ⟨own, fun c hc => ?_⟩
    rw [changes, mem_append, Option.mem_toList, mem_singleton] at hc
    rcases hc with hc | rfl
    · obtain ⟨b, -, rfl⟩ := Option.map_eq_some_iff.mp hc
      exact hobject (some b.2.2) rfl
    · exact hobject (some noted) rfl
  | switch head branch =>
    refine ⟨own, fun c hc _ _ _ => ?_⟩
    rw [changes, mem_singleton] at hc
    rw [hc]
  | start branch tip head =>
    refine ⟨own, fun c hc => ?_⟩
    rw [changes, mem_cons, mem_singleton] at hc
    rcases hc with rfl | rfl
    · exact hobject (some tip) rfl
    · exact fun _ _ _ => rfl
  | finishFeature dev tip merged topic done head =>
    refine ⟨own, fun c hc => ?_⟩
    rw [changes, mem_cons, mem_cons, mem_singleton] at hc
    rcases hc with rfl | rfl | rfl
    · exact hobject (some merged) rfl
    · exact hobject none rfl
    · exact fun _ _ _ => rfl
  | finishTopic target tip merged topic done head back backTip backMerged =>
    refine ⟨own, fun c hc => ?_⟩
    rw [changes, mem_append, mem_cons, mem_cons, mem_singleton] at hc
    rcases hc with (rfl | rfl | rfl) | hc
    · exact hobject (some merged) rfl
    · exact hobject none rfl
    · exact fun _ _ _ => rfl
    · split at hc
      · rw [mem_singleton] at hc
        exact hobject (some backMerged) (by rw [hc]; rfl)
      · cases hc
  | handOver scratch tip branch =>
    refine ⟨own, fun c hc => ?_⟩
    rw [changes, mem_cons, mem_singleton] at hc
    rcases hc with rfl | rfl
    · exact hobject (some tip) rfl
    · exact fun _ _ _ => rfl
  | takeBack scratch tip branch =>
    refine ⟨own, fun c hc => ?_⟩
    rw [changes, mem_cons, mem_singleton] at hc
    rcases hc with rfl | rfl
    · exact fun _ _ _ => rfl
    · exact hobject none rfl
  | addWorkspace name branch newBranchAt =>
    refine ⟨"workspaces/" ++ name ++ "/HEAD", fun c hc => ?_⟩
    rw [changes, mem_append, Option.mem_toList, mem_singleton] at hc
    rcases hc with hc | rfl
    · obtain ⟨tip, -, rfl⟩ := Option.map_eq_some_iff.mp hc
      exact hobject (some tip) rfl
    · exact fun _ _ _ => rfl
  | removeWorkspace name old =>
    refine ⟨own, fun c hc => ?_⟩
    rw [changes, mem_singleton] at hc
    exact hobject none (by rw [hc]; rfl)
  | fetch updates remoteHead =>
    refine ⟨own, fun c hc => ?_⟩
    rw [changes, mem_append, Option.mem_toList] at hc
    rcases hc with hc | hc
    · obtain ⟨u, -, rfl⟩ := mem_map.mp hc
      exact hobject (some u.2.2) rfl
    · obtain ⟨remote, -, rfl⟩ := Option.map_eq_some_iff.mp hc
      intro branch hname
      have hrefs : ("refs/remotes/" ++ remote.1 ++ "/HEAD").startsWith "refs/" = true := by
        rw [String.startsWith_string_iff, String.toList_append, String.toList_append,
          append_assoc]
        exact (by decide : "refs/".toList <+: "refs/remotes/".toList).trans (prefix_append _ _)
      rw [not_refs_of_isWorkspaceHead hname] at hrefs
      cases hrefs
  | undo changes => exact absurd rfl (h changes)

/-- A push puts no HEAD on a branch. -/
theorem new_ne_symbolic_of_push {updates : List RefUpdate} {c : RefChange}
    (hc : c ∈ updates.map Server.changeOf) (branch : String) : c.new ≠ some (.symbolic branch) := by
  obtain ⟨u, -, rfl⟩ := mem_map.mp hc
  rw [Server.changeOf]
  cases u.new <;> exact fun h => by cases h

end

/-! ### Runs -/

/-- No branch is in two workspaces, and taking back any transaction of the log would check each
    branch out once. -/
structure World.Sound (w : World) : Prop where
  exclusive : Exclusive w.refs
  inverses : ∀ changes ∈ w.txs, OneCheckout (inverse changes)

section

variable {w w' : World}

/-- One HEAD is on one branch at most. -/
theorem exclusive_of_names {refs : RefMap}
    (h : ∀ name target, refs[name]? = some target → isWorkspaceHead name = true → name = "HEAD") :
    Exclusive refs :=
  fun head head' _ hhead hhead' hget hget' =>
    (h head _ hget hhead).trans (h head' _ hget' hhead').symm

theorem World.Start.sound (h : World.Start w) : w.Sound := by
  cases h with
  | init =>
    constructor
    · refine exclusive_of_names fun name target hget hname => ?_
      rw [Std.ExtTreeMap.getElem?_insert] at hget
      by_cases heq : compare "HEAD" name = .eq
      · exact (Std.LawfulEqCmp.eq_of_compare heq).symm
      · rw [if_neg heq] at hget
        simp at hget
    · intro changes hchanges c hc c' hc' branch _ _ hnew
      rw [mem_singleton] at hchanges
      subst hchanges
      rw [inverse, map_singleton, mem_singleton] at hc
      rw [hc] at hnew
      cases hnew
  | «import» wanted hnames =>
    constructor
    · refine exclusive_of_names fun name target hget hname => ?_
      by_cases hmem : ∃ c ∈ wanted.map fun e => (⟨e.1, none, some e.2⟩ : RefChange), c.name = name
      · obtain ⟨c, hc, rfl⟩ := hmem
        obtain ⟨e, he, rfl⟩ := mem_map.mp hc
        refine (hnames e he).resolve_right fun hrefs => ?_
        rw [not_refs_of_isWorkspaceHead hname] at hrefs
        cases hrefs
      · rw [get_foldl_applyChange fun c hc heq => hmem ⟨c, hc, heq⟩] at hget
        simp at hget
    · intro changes hchanges c hc c' hc' branch _ _ hnew
      rw [mem_singleton] at hchanges
      subst hchanges
      obtain ⟨d, hd, rfl⟩ := mem_map.mp hc
      obtain ⟨e, -, rfl⟩ := mem_map.mp hd
      cases hnew

theorem World.Step.sound (h : World.Step w w') (hw : w.Sound) : w'.Sound := by
  have hlog : ∀ {refs : RefMap} {changes : List RefChange}, (∀ c ∈ changes, w.refs[c.name]? = c.old) →
      Exclusive refs → World.Sound ⟨refs, w.txs ++ [changes]⟩ := by
    intro refs changes hold hrefs
    refine ⟨hrefs, fun tx htx => ?_⟩
    rcases mem_append.mp htx with htx | htx
    · exact hw.inverses tx htx
    · rw [mem_singleton.mp htx]
      exact oneCheckout_inverse hw.exclusive hold
  cases h with
  | @commit env r verb refs issue hfrom hrefs htx =>
    obtain ⟨hthrough, happly⟩ := refTx_eq_ok.mp htx
    have hone : OneCheckout (issue.changes env.headRef) := by
      by_cases hundo : ∃ changes, issue = .undo changes
      · obtain ⟨changes, rfl⟩ := hundo
        exact hw.inverses changes hfrom
      · obtain ⟨head, hhead⟩ := issue.checksOutAt env.headRef
          fun changes heq => hundo ⟨changes, heq⟩
        exact hhead.oneCheckout
    have hfree := checksOutFree_of_oneWorkspacePerBranch (stateCheck_of_policyVerdict hthrough.policy)
    rw [hrefs] at happly hfree
    refine hlog (old_of_applyChanges happly) ?_
    rw [applyChanges_ok happly]
    exact exclusive_foldl hw.exclusive hone hfree
  | @push caps updates refs htx =>
    obtain ⟨hacc, rfl⟩ := Server.commitRefs_eq_ok.mp htx
    refine hlog hacc.2 (exclusive_foldl hw.exclusive ?_ ?_)
    · exact fun c hc _ _ branch _ _ hnew => absurd hnew (new_ne_symbolic_of_push hc branch)
    · exact fun c hc _ branch _ hnew => absurd hnew (new_ne_symbolic_of_push hc branch)

/-- The run rule: what holds of both beginnings and is kept by every transaction. -/
theorem World.Reachable.sound (h : w.Reachable) : w.Sound := by
  obtain ⟨start, hstart, hsteps⟩ := h
  induction hsteps with
  | refl => exact hstart.sound
  | tail _ hstep ih => exact hstep.sound ih

end

/-! ### One workspace per branch -/

theorem isWorkspaceHead_headRefOf (workspace : String) :
    isWorkspaceHead (headRefOf workspace) = true := by
  rw [headRefOf]
  split
  · decide
  · have hfront : ("workspaces/" ++ workspace ++ "/HEAD").startsWith "workspaces/" = true := by
      rw [String.startsWith_string_iff, String.toList_append, String.toList_append,
        append_assoc]
      exact prefix_append _ _
    have hback : ("workspaces/" ++ workspace ++ "/HEAD").endsWith "/HEAD" = true := by
      rw [String.endsWith, String.Slice.endsWith_string_iff, String.copy_toSlice, String.toList_append]
      exact suffix_append _ _
    rw [isWorkspaceHead, hfront, hback, Bool.and_self, Bool.or_true]

theorem headRefOf_inj {a b : String} (h : headRefOf a = headRefOf b) : a = b := by
  have hhead : ∀ name : String, "HEAD" ≠ "workspaces/" ++ name ++ "/HEAD" := by
    intro name heq
    rw [← String.toList_inj, String.toList_append, String.toList_append, append_assoc] at heq
    have hfirst : some 'H' = some 'w' := congrArg List.head? heq
    exact absurd hfirst (by decide)
  rw [headRefOf, headRefOf] at h
  split at h <;> split at h
  · rename_i ha hb
    rw [ha, hb]
  · exact absurd h (hhead b)
  · exact absurd h.symm (hhead a)
  · rw [← String.toList_inj] at h ⊢
    rw [String.toList_append, String.toList_append, String.toList_append, String.toList_append] at h
    exact append_cancel_left (append_cancel_right h)

/-- **One workspace per branch.** In every state that any interleaving of ref transactions reaches,
    each branch is named by the HEAD of at most one workspace. -/
theorem branch_in_one_workspace {w : World} (h : w.Reachable) {a b branch : String}
    (ha : w.refs[headRefOf a]? = some (.symbolic branch))
    (hb : w.refs[headRefOf b]? = some (.symbolic branch)) : a = b :=
  headRefOf_inj (h.sound.exclusive _ _ branch (isWorkspaceHead_headRefOf a)
    (isWorkspaceHead_headRefOf b) ha hb)

/-! ### A toy run -/

/-- A transaction of the default workspace that the check accepts and whose old values are there. -/
theorem World.step_toy {w : World} (issue : Issue) (hfrom : issue.From w.txs)
    (hcheck : policyVerdict (some (workspacePolicy .toy)) w.refs (issue.changes "HEAD") = .ok ())
    (hold : ∀ c ∈ issue.changes "HEAD", w.refs[c.name]? = c.old) :
    World.Step w ⟨(issue.changes "HEAD").foldl applyChange w.refs, w.txs ++ [issue.changes "HEAD"]⟩ := by
  let r : NativeRepo := ⟨fun _ => none, w.refs, [], .empty, fun _ => ⟨[], none, none, none, none⟩⟩
  have htx : refTx .toy r "toy" (issue.changes "HEAD") =
      .ok ((issue.changes "HEAD").foldl applyChange w.refs) :=
    refTx_eq_ok.mpr ⟨⟨rfl, nofun, hcheck, rfl⟩, applyChanges_eq_ok hold false⟩
  exact .commit issue hfrom (show r.refs = w.refs from rfl) htx

/-- A branch is made, and a second workspace put on it. -/
def sideBranch : Issue := .move "refs/heads/side" none (some (toyId .commit []))

def sideWorkspace : Issue := .addWorkspace "w" "side" none

def twoWorkspaces : World :=
  ⟨(sideBranch.changes "HEAD" ++ sideWorkspace.changes "HEAD").foldl applyChange
      ((∅ : RefMap).insert "HEAD" (.symbolic "refs/heads/main")),
    [[⟨"HEAD", none, some (.symbolic "refs/heads/main")⟩], sideBranch.changes "HEAD",
      sideWorkspace.changes "HEAD"]⟩

theorem reachable_twoWorkspaces : twoWorkspaces.Reachable := by
  refine ⟨_, .init, .tail (.tail .refl (World.step_toy sideBranch trivial ?_ ?_))
    (World.step_toy sideWorkspace trivial ?_ ?_)⟩
  all_goals decide +kernel

theorem branch_in_one_workspace_two :
    twoWorkspaces.refs[headRefOf "default"]? = some (.symbolic "refs/heads/main") ∧
      twoWorkspaces.refs[headRefOf "w"]? = some (.symbolic "refs/heads/side") ∧ "w" = "w" := by
  have hside : twoWorkspaces.refs[headRefOf "w"]? = some (.symbolic "refs/heads/side") := by
    decide +kernel
  exact ⟨by decide +kernel, hside, branch_in_one_workspace reachable_twoWorkspaces hside hside⟩

end Alt.Repo
