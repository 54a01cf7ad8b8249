import Alt.OpLog.Writers
import Alt.Refs.Reopen

namespace Alt.Refs

open Alt.Library OpLog List

/-!
# A linearizable compare-and-swap store

The log is the linearization: in every state, each handle's refs are the replay of the ops
it has read, and a commit decides on the replay of the whole log.

* `Accepts` — what a transaction must find in the refs;
* `CommitSpec` — how a commit on a log decides, and what it leaves;
* `Linearized` — the chain, the handles, the snapshot file and every next open and commit;
* `linearizable` — every state is linearized in every run in which no commit is written
  and then fails at its fsync, and whose fields fit.

A commit that fails at its fsync leaves its op in the log and in the handle's op list and
not in the handle's refs.  A snapshot of that handle names the op with refs that lack it
(`linearizable_fails`).
-/

variable {P : Prims}

/-! ### Deciding a transaction -/

/-- The policy allows the changes on `refs`, and every expected-old value is there. -/
def Accepts (policy : Option RefPolicy) (changes : List RefChange) (refs : RefMap) : Prop :=
  policyVerdict policy refs changes = .ok () ∧ ∀ c ∈ changes, refs[c.name]? = c.old

theorem applyChanges_eq_ok {refs : RefMap} {changes : List RefChange}
    (h : ∀ c ∈ changes, refs[c.name]? = c.old) (replaying : Bool) :
    applyChanges refs changes replaying = .ok (changes.foldl applyChange refs) := by
  have hnone : (changes.find? fun c => refs[c.name]? ≠ c.old) = none := by
    rw [find?_eq_none]
    intro c hc
    simp [h c hc]
  rw [applyChanges, hnone]

theorem old_of_applyChanges {refs refs' : RefMap} {changes : List RefChange} {replaying : Bool}
    (h : applyChanges refs changes replaying = .ok refs') :
    ∀ c ∈ changes, refs[c.name]? = c.old := by
  intro c hc
  rw [applyChanges] at h
  split at h
  · cases h
  · rename_i hnone
    have hold := find?_eq_none.mp hnone c hc
    simpa using hold

variable {ops : List Op}

/-- Under the append lock, a transaction that is accepted is encoded. -/
theorem buildTx_accepted {changes : List RefChange} {key : Option IdemKey}
    {policy : Option RefPolicy} {st st' : Folded} (hfold : foldNew st ops = (st', .ok ()))
    (hacc : Accepts policy changes st'.refs) :
    RefStore.buildTx changes key policy st ops = (st', .ok (encodeTx changes key)) := by
  rw [RefStore.buildTx, hfold]
  simp only [hacc.1, applyChanges_eq_ok hacc.2]

/-- One that is not accepted is refused, with the fold done. -/
theorem buildTx_rejected {changes : List RefChange} (key : Option IdemKey)
    {policy : Option RefPolicy} {st st' : Folded} (hfold : foldNew st ops = (st', .ok ()))
    (hrej : ¬Accepts policy changes st'.refs) :
    ∃ e, RefStore.buildTx changes key policy st ops = (st', .error e) := by
  rw [RefStore.buildTx, hfold]
  cases hpol : policyVerdict policy st'.refs changes with
  | error e => exact ⟨e, by simp only [hpol]⟩
  | ok _ =>
    simp only [hpol]
    cases happly : applyChanges st'.refs changes false with
    | error e => exact ⟨e, rfl⟩
    | ok refs => exact absurd ⟨hpol, old_of_applyChanges happly⟩ hrej

/-! ### A commit on a log -/

/-- A handle's refs are the replay of the ops it has read. -/
def AtHead (h : RefStore) : Prop := replayRefs ∅ h.oplog.ops = some h.refs

section Commit

variable {disk : Disk} {h : RefStore} {L : List Op} {refs : RefMap} {st : Folded}
  {actor : String} {timestampMs : UInt64} {changes : List RefChange} {key : Option IdemKey}
  {policy : Option RefPolicy}

variable (timestampMs key) in
/-- An accepted commit appends its op, and the handle takes it in. -/
theorem commit_accepted (hlog : Holds P disk.log L) (hf : Follows P L h)
    (hfold : foldNew h.toFolded L = (st, .ok ())) (hactor : (utf8 actor).length < 2 ^ 16)
    (hbody : bodyFixedLen + (utf8 actor).length + (encodeTx changes key).length < 2 ^ 32)
    (hacc : Accepts policy changes st.refs) :
    ∃ file, Holds P file (L ++ [txOp P L actor timestampMs changes key]) ∧
      RefStore.commitIdempotent P disk h actor timestampMs changes key policy true
        = (RefStore.noteOp P ⟨file, disk.snapshot⟩
            ⟨⟨changes.foldl applyChange st.refs, L.length + 1,
              insertKey st.byKey key (txOp P L actor timestampMs changes key).id⟩,
              ofOps P (L ++ [txOp P L actor timestampMs changes key]), h.opsSinceSnapshot⟩,
          .ok (txOp P L actor timestampMs changes key).id) := by
  obtain ⟨front, ⟨more, rfl⟩, ho⟩ := hf
  have hops : (ofOps P (front ++ more)).ops = front ++ more := rfl
  have hfit : BodyFits actor (encodeTx changes key) := ⟨hactor, by omega⟩
  have hlen : (newOp P (front ++ more) actor timestampMs (encodeTx changes key)).body.length
      < 2 ^ 32 := by
    rw [Op.body, length_bodyBytes]
    exact hbody
  obtain ⟨file, hholds, hwrite⟩ := writeRecord_holds hlog hfit hlen
  refine ⟨file, hholds, ?_⟩
  have hpay : ¬2 ^ 32 ≤ (encodeTx changes key).length := by omega
  have happ : OpLog.appendChecked P RefError.opLog disk.log h.oplog actor timestampMs h.toFolded
      (RefStore.buildTx changes key policy)
      = (((file, ofOps P (front ++ more ++ [txOp P (front ++ more) actor timestampMs changes key])),
          st), .ok (txOp P (front ++ more) actor timestampMs changes key).id) := by
    rw [OpLog.appendChecked, if_neg (Nat.not_le_of_lt hactor), ho]
    simp only [catchUp_holds hlog, hops, buildTx_accepted hfold hacc, if_neg hpay, hwrite]
    rfl
  rw [RefStore.commitIdempotent, happ]
  simp only [Bool.not_true, Bool.false_eq_true, ↓reduceIte, applyChanges_eq_ok hacc.2,
    length_ofOps_concat]

variable (timestampMs key) in
/-- A commit that is not accepted writes nothing; the handle has caught up with the log. -/
theorem commit_rejected (hlog : Holds P disk.log L) (hf : Follows P L h)
    (hfold : foldNew h.toFolded L = (st, .ok ())) (hactor : (utf8 actor).length < 2 ^ 16)
    (hrej : ¬Accepts policy changes st.refs) (synced : Bool) :
    ∃ e, RefStore.commitIdempotent P disk h actor timestampMs changes key policy synced
      = ((disk, ⟨st, ofOps P L, h.opsSinceSnapshot⟩), .error e) := by
  obtain ⟨front, ⟨more, rfl⟩, ho⟩ := hf
  have hops : (ofOps P (front ++ more)).ops = front ++ more := rfl
  obtain ⟨e, hbuild⟩ := buildTx_rejected key hfold hrej
  have happ : OpLog.appendChecked P RefError.opLog disk.log h.oplog actor timestampMs h.toFolded
      (RefStore.buildTx changes key policy)
      = (((disk.log, ofOps P (front ++ more)), st), .error e) := by
    rw [OpLog.appendChecked, if_neg (Nat.not_le_of_lt hactor), ho]
    simp only [catchUp_holds hlog, hops, hbuild]
  rw [RefStore.commitIdempotent, happ]
  exact ⟨e, rfl⟩

variable (P disk h timestampMs changes key policy) in
/-- An actor the record has no room for. -/
theorem commit_actor (hactor : 2 ^ 16 ≤ (utf8 actor).length) (synced : Bool) :
    ∃ e, RefStore.commitIdempotent P disk h actor timestampMs changes key policy synced
      = ((disk, h), .error e) := by
  have happ : OpLog.appendChecked P RefError.opLog disk.log h.oplog actor timestampMs h.toFolded
      (RefStore.buildTx changes key policy)
      = (((disk.log, h.oplog), h.toFolded), .error (.opLog (.tooLarge (utf8 actor).length))) := by
    rw [OpLog.appendChecked, if_pos hactor]
  rw [RefStore.commitIdempotent, happ]
  exact ⟨_, rfl⟩

end Commit

/-! ### Handles stay at their heads -/

section Head

variable {disk : Disk} {h : RefStore} {L : List Op} {actor : String} {timestampMs : UInt64}

theorem atHead_commit (hlog : Holds P disk.log L) (hf : Follows P L h)
    (hd : DiskInv P disk.snapshot L) (hc : Current disk.snapshot L h.toFolded) (hat : AtHead h)
    {changes : List RefChange} {key : Option IdemKey} {policy : Option RefPolicy}
    (hfit : TxFits changes)
    (hbody : bodyFixedLen + (utf8 actor).length + (encodeTx changes key).length < 2 ^ 32) :
    AtHead (RefStore.commitIdempotent P disk h actor timestampMs changes key policy true).1.2 := by
  obtain ⟨refs, hr⟩ := hd.replays
  obtain ⟨byKey, hfold, -⟩ := hc.foldNew hr
  by_cases hactor : (utf8 actor).length < 2 ^ 16
  · by_cases hacc : Accepts policy changes refs
    · -- the op is in the handle's list and its changes are in the handle's refs
      obtain ⟨file, -, heq⟩ := commit_accepted timestampMs key hlog hf
        hfold hactor hbody hacc
      obtain ⟨-, hoplog, -⟩ := noteOp_frame (P := P) ⟨file, disk.snapshot⟩
        ⟨⟨changes.foldl applyChange refs, L.length + 1,
          insertKey byKey key (txOp P L actor timestampMs changes key).id⟩,
          ofOps P (L ++ [txOp P L actor timestampMs changes key]), h.opsSinceSnapshot⟩
      have hreplay : replayRefs ∅ (L ++ [txOp P L actor timestampMs changes key]) = some _ :=
        (replay_txOp rfl hfit (by omega) hr (applyChanges_eq_ok hacc.2 false)).1
      unfold AtHead
      rw [heq, hoplog, noteOp_folded]
      exact hreplay
    · obtain ⟨e, heq⟩ := commit_rejected timestampMs key hlog hf hfold
        hactor hacc true
      rw [heq]
      exact hr
  · obtain ⟨e, heq⟩ := commit_actor P disk h timestampMs changes key policy
      (Nat.le_of_not_lt hactor) true
    rw [heq]
    exact hat

/-- A non-ref op adds nothing to the refs, whether or not it was synced. -/
theorem atHead_recordOp (hlog : Holds P disk.log L) (hf : Follows P L h)
    (hd : DiskInv P disk.snapshot L) (hc : Current disk.snapshot L h.toFolded) (hat : AtHead h)
    {payload : Bytes} {synced : Bool}
    (hbody : bodyFixedLen + (utf8 actor).length + payload.length < 2 ^ 32) :
    AtHead (RefStore.recordOp P disk h actor timestampMs payload synced).1.2 := by
  obtain ⟨refs, hr⟩ := hd.replays
  obtain ⟨byKey, hfold, -⟩ := hc.foldNew hr
  by_cases hkind : payload.head? = some payloadRefTx
  · rw [RefStore.recordOp, if_pos hkind]
    exact hat
  · have hreplay : replayRefs ∅ (L ++ [newOp P L actor timestampMs payload]) = some refs :=
      (replay_otherOp hkind hr).1
    have hout := recordOp_outcome timestampMs synced hlog hf hkind hbody
    rw [hfold] at hout
    generalize RefStore.recordOp P disk h actor timestampMs payload synced = r at hout ⊢
    cases hout with
    | refused e => exact hat
    | rejected e =>
      rw [hfold]
      exact hr
    | unsynced e _ _ =>
      rw [hfold]
      exact hreplay
    | @done file _ _ =>
      obtain ⟨-, hoplog, -⟩ := noteOp_frame (P := P) ⟨file, disk.snapshot⟩
        ⟨⟨refs, L.length + 1, byKey⟩, ofOps P (L ++ [newOp P L actor timestampMs payload]),
          h.opsSinceSnapshot⟩
      unfold AtHead
      rw [hoplog, noteOp_folded]
      exact hreplay

theorem atHead_refresh (hlog : Holds P disk.log L) (hf : Follows P L h)
    (hd : DiskInv P disk.snapshot L) (hc : Current disk.snapshot L h.toFolded) :
    AtHead (RefStore.refresh P disk h).1.2 := by
  obtain ⟨refs, hr⟩ := hd.replays
  obtain ⟨byKey, hfold, -⟩ := hc.foldNew hr
  obtain ⟨front, ⟨more, rfl⟩, ho⟩ := hf
  have hcatch : OpLog.refresh P disk.log h.oplog
      = ((disk.log, ofOps P (front ++ more)), .ok ()) := by
    rw [ho]
    exact catchUp_holds hlog
  have hops : (ofOps P (front ++ more)).ops = front ++ more := rfl
  unfold AtHead
  rw [RefStore.refresh, hcatch]
  simp only [hops, hfold]
  exact hr

end Head

/-! ### Runs -/

/-- Every commit's log sync succeeds, if it comes to that, and the fields fit. -/
def SyncedCommits (_ : State) : Action → Prop
  | .commit _ actor _ changes key _ synced =>
    TxFits changes ∧
      bodyFixedLen + (utf8 actor).length + (encodeTx changes key).length < 2 ^ 32 ∧
      synced = true
  | .recordOp _ actor _ payload _ =>
    bodyFixedLen + (utf8 actor).length + payload.length < 2 ^ 32
  | _ => True

/-- The run invariant, with every handle at its head. -/
structure HeadInv (P : Prims) (s : State) (L : List Op) : Prop where
  run : RunInv P s L
  atHead : CollisionFree P L → L.length < 2 ^ 32 → ∀ i h, s.handles i = some h → AtHead h

variable {s : State} {i : Nat}

theorem HeadInv.withHandle {L L' : List Op} {r : Disk × RefStore} (hinv : HeadInv P s L)
    (hrun : RunInv P (s.withHandle i r) L') (hgrown : L <+: L')
    (hat : CollisionFree P L → L.length < 2 ^ 32 → AtHead r.2) :
    HeadInv P (s.withHandle i r) L' where
  run := hrun
  atHead := by
    intro hfree hcount j h' hj
    have hfree' := hfree.of_prefix hgrown
    have hcount' := Nat.lt_of_le_of_lt hgrown.length_le hcount
    simp only [State.withHandle, Function.update_apply] at hj
    split at hj
    · cases hj
      exact hat hfree' hcount'
    · exact hinv.atHead hfree' hcount' j h' hj

theorem HeadInv.openStore {s' : State} {L : List Op} (hinv : HeadInv P s L)
    (hstep : step P s (.openStore i) = some s') : HeadInv P s' L := by
  have hrun := hinv.run.openStore hstep
  obtain ⟨log, hopen, hholds⟩ := hinv.run.openLog
  simp only [step] at hstep
  split at hstep
  · rename_i disk store heq
    cases hstep
    apply hinv.withHandle hrun prefix_rfl
    intro hfree hcount
    obtain ⟨hd, -⟩ := hinv.run.refs hfree hcount
    obtain ⟨refs, hr⟩ := hd.replays
    obtain ⟨store', hopen', hrefs, -, hoplog, -⟩ :=
      openStore_eq hopen hholds.2 hfree hcount hd hr
    rw [heq] at hopen'
    cases hopen'
    unfold AtHead
    rw [hrefs, hoplog]
    exact hr
  · cases hstep
    exact ⟨hrun, hinv.atHead⟩

/-- A snapshot of a handle at its head is the replay up to the op it names. -/
theorem HeadInv.snapshot {L : List Op} (hinv : HeadInv P s L) {h : RefStore}
    (hh : s.handles i = some h) : HeadInv P (s.withHandle i (RefStore.snapshot P s.disk h)) L := by
  obtain ⟨front, hfront, ho⟩ := hinv.run.follows i h hh
  obtain ⟨hlog, hoplog, hkept⟩ := snapshot_frame (P := P) s.disk h
  have hnoted : CollisionFree P L → L.length < 2 ^ 32 →
      Noted P s.disk h L (RefStore.snapshot P s.disk h) := by
    intro hfree hcount
    have hat := hinv.atHead hfree hcount i h hh
    unfold AtHead at hat
    rw [ho, show (ofOps P front).ops = front from rfl] at hat
    exact noted_snapshot hfront ho hat (hinv.run.refs hfree hcount).1
  have hrun : RunInv P (s.withHandle i (RefStore.snapshot P s.disk h)) L := by
    apply hinv.run.updated prefix_rfl (hlog ▸ hinv.run.holds hh)
      ⟨front, hfront, hoplog.trans ho⟩ hkept
    intro hfree hcount
    have hn := hnoted hfree hcount
    have hc := (hinv.run.refs hfree hcount).2 i h hh
    exact ⟨hn.inv, hn.folded ▸ hc.extend prefix_rfl hkept⟩
  apply hinv.withHandle hrun prefix_rfl
  intro hfree hcount
  have hn := hnoted hfree hcount
  unfold AtHead
  rw [hoplog, hn.folded]
  exact hinv.atHead hfree hcount i h hh

theorem headInv_step {s' : State} {a : Action} (hinv : ∃ L, HeadInv P s L)
    (hg : SyncedCommits s a) (hstep : step P s a = some s') : ∃ L, HeadInv P s' L := by
  obtain ⟨L, hinv⟩ := hinv
  cases a with
  | openStore i => exact ⟨L, hinv.openStore hstep⟩
  | commit i actor timestampMs changes key policy synced =>
    simp only [step, Option.map_eq_some_iff] at hstep
    obtain ⟨h, hh, rfl⟩ := hstep
    obtain ⟨hfit, hbody, rfl⟩ := hg
    have hlog := hinv.run.holds hh
    have hf := hinv.run.follows i h hh
    obtain ⟨L', -, hadv, -⟩ := commit_advanced hlog hf hfit hbody
    refine ⟨L', hinv.withHandle (hinv.run.withHandle hh hadv) hadv.grown ?_⟩
    intro hfree hcount
    obtain ⟨hd, hc⟩ := hinv.run.refs hfree hcount
    exact atHead_commit hlog hf hd (hc i h hh) (hinv.atHead hfree hcount i h hh) hfit hbody
  | recordOp i actor timestampMs payload synced =>
    simp only [step, Option.map_eq_some_iff] at hstep
    obtain ⟨h, hh, rfl⟩ := hstep
    have hlog := hinv.run.holds hh
    have hf := hinv.run.follows i h hh
    obtain ⟨L', -, hadv⟩ := recordOp_advanced hlog hf hg
    refine ⟨L', hinv.withHandle (hinv.run.withHandle hh hadv) hadv.grown ?_⟩
    intro hfree hcount
    obtain ⟨hd, hc⟩ := hinv.run.refs hfree hcount
    exact atHead_recordOp hlog hf hd (hc i h hh) (hinv.atHead hfree hcount i h hh) hg
  | refresh i =>
    simp only [step, Option.map_eq_some_iff] at hstep
    obtain ⟨h, hh, rfl⟩ := hstep
    have hlog := hinv.run.holds hh
    have hf := hinv.run.follows i h hh
    have hadv := refresh_advanced hlog hf
    refine ⟨L, hinv.withHandle (hinv.run.withHandle hh hadv) hadv.grown ?_⟩
    intro hfree hcount
    obtain ⟨hd, hc⟩ := hinv.run.refs hfree hcount
    exact atHead_refresh hlog hf hd (hc i h hh)
  | snapshot i =>
    simp only [step, Option.map_eq_some_iff] at hstep
    obtain ⟨h, hh, rfl⟩ := hstep
    exact ⟨L, hinv.snapshot hh⟩

theorem headInv_run (hs : (stores P).ReachableIf SyncedCommits s) :
    ∃ L, HeadInv P s L :=
  System.invariant_if (I := fun s => ∃ L, HeadInv P s L)
    ⟨[], runInv_init, fun _ _ i h hh => by cases hh⟩
    (fun _ _ _ hinv hg hstep => headInv_step hinv hg hstep) s hs

/-- The chain of the invariant is what the log file parses to. -/
theorem RunInv.chainOf_eq {L : List Op} (hinv : RunInv P s L) :
    chainOf P s.disk.log = L := by
  obtain ⟨log, hopen, -⟩ := hinv.openLog
  rw [chainOf, hopen]
  rfl

/-! ### The store's contract -/

/-- How a handle `h` commits on a log whose chain `L` replays to `refs`. -/
structure CommitSpec (P : Prims) (disk : Disk) (h : RefStore) (L : List Op) (refs : RefMap)
    (actor : String) (timestampMs : UInt64) (changes : List RefChange) (key : Option IdemKey)
    (policy : Option RefPolicy) : Prop where
  accepted : (∃ id, (RefStore.commitIdempotent P disk h actor timestampMs changes key policy
      true).2 = .ok id) ↔ Accepts policy changes refs
  committed : ∀ r id,
    RefStore.commitIdempotent P disk h actor timestampMs changes key policy true = (r, .ok id) →
      id = (txOp P L actor timestampMs changes key).id ∧
      chainOf P r.1.log = L ++ [txOp P L actor timestampMs changes key] ∧
      r.2.oplog.ops = L ++ [txOp P L actor timestampMs changes key] ∧
      r.2.refs = changes.foldl applyChange refs
  rejected : ¬Accepts policy changes refs → ∀ synced, ∃ h' e,
    RefStore.commitIdempotent P disk h actor timestampMs changes key policy synced
      = ((disk, h'), .error e) ∧ h'.oplog.ops = L ∧ h'.refs = refs

/-- What holds of a directory and the handles open on it. -/
structure Linearized (P : Prims) (s : State) (L : List Op) (refs : RefMap) : Prop where
  replays : replayRefs ∅ L = some refs
  handles : ∀ i h, s.handles i = some h →
    h.oplog.ops <+: L ∧ replayRefs ∅ h.oplog.ops = some h.refs
  snapshot : ∀ b, s.disk.snapshot = some b → ∃ front op at_, front ++ [op] <+: L ∧
    replayRefs ∅ (front ++ [op]) = some at_ ∧ b = Snapshot.write P op.id at_
  opens : ∀ snapshot, snapshot = s.disk.snapshot ∨ snapshot = none → ∃ disk store,
    RefStore.openStore P ⟨s.disk.log, snapshot⟩ = (disk, .ok store) ∧
      chainOf P disk.log = L ∧ store.oplog.ops = L ∧ store.refs = refs
  commits : ∀ i h, s.handles i = some h → ∀ actor timestampMs changes key policy,
    (utf8 actor).length < 2 ^ 16 →
    bodyFixedLen + (utf8 actor).length + (encodeTx changes key).length < 2 ^ 32 →
    CommitSpec P s.disk h L refs actor timestampMs changes key policy

theorem Holds.chainOf {file : Bytes} (h : Holds P file ops) :
    chainOf P file = ops := by
  have hopen := openLog_holds h (nextRecord_nil _)
  rw [append_nil] at hopen
  rw [OpLog.chainOf, hopen]
  rfl

theorem commitSpec {disk : Disk} {h : RefStore} {L : List Op} {refs : RefMap} {actor : String}
    {timestampMs : UInt64} {changes : List RefChange} {key : Option IdemKey}
    {policy : Option RefPolicy} (hlog : Holds P disk.log L) (hf : Follows P L h)
    (hr : replayRefs ∅ L = some refs) (hc : Current disk.snapshot L h.toFolded)
    (hactor : (utf8 actor).length < 2 ^ 16)
    (hbody : bodyFixedLen + (utf8 actor).length + (encodeTx changes key).length < 2 ^ 32) :
    CommitSpec P disk h L refs actor timestampMs changes key policy := by
  obtain ⟨byKey, hfold, -⟩ := hc.foldNew hr
  by_cases hacc : Accepts policy changes refs
  · obtain ⟨file, hholds, heq⟩ := commit_accepted timestampMs key hlog hf
      hfold hactor hbody hacc
    refine ⟨iff_of_true ⟨_, by rw [heq]⟩ hacc, fun r id hcommit => ?_, fun hrej => absurd hacc hrej⟩
    rw [heq] at hcommit
    cases hcommit
    obtain ⟨hfile, hoplog, -⟩ := noteOp_frame (P := P) ⟨file, disk.snapshot⟩
      ⟨⟨changes.foldl applyChange refs, L.length + 1,
        insertKey byKey key (txOp P L actor timestampMs changes key).id⟩,
        ofOps P (L ++ [txOp P L actor timestampMs changes key]), h.opsSinceSnapshot⟩
    refine ⟨rfl, ?_, ?_, ?_⟩
    · rw [hfile]
      exact Holds.chainOf hholds
    · rw [hoplog]
      rfl
    · rw [noteOp_folded]
  · have hrej : ∀ synced, ∃ h' e,
        RefStore.commitIdempotent P disk h actor timestampMs changes key policy synced
          = ((disk, h'), .error e) ∧ h'.oplog.ops = L ∧ h'.refs = refs := by
      intro synced
      obtain ⟨e, heq⟩ := commit_rejected timestampMs key hlog hf hfold
        hactor hacc synced
      exact ⟨_, e, heq, rfl, rfl⟩
    obtain ⟨h', e, heq, -⟩ := hrej true
    refine ⟨iff_of_false ?_ hacc, fun r id hcommit => ?_, fun _ => hrej⟩
    · rintro ⟨id, hid⟩
      rw [heq] at hid
      cases hid
    · rw [heq] at hcommit
      cases hcommit

/-- **The ref store is linearizable.** In every run whose commits sync and fit, the chain in
    the log file is the order: the handles, the snapshot file and every next open and commit
    are as if the chain's transactions had been applied one after the other. -/
theorem linearizable {s : State} (hs : (stores P).ReachableIf SyncedCommits s)
    (hfree : CollisionFree P (chainOf P s.disk.log))
    (hcount : (chainOf P s.disk.log).length < 2 ^ 32) :
    ∃ refs, Linearized P s (chainOf P s.disk.log) refs := by
  obtain ⟨L, hinv⟩ := headInv_run hs
  have hchain := hinv.run.chainOf_eq
  rw [hchain] at hfree hcount ⊢
  obtain ⟨hd, hc⟩ := hinv.run.refs hfree hcount
  obtain ⟨refs, hr⟩ := hd.replays
  refine ⟨refs, hr, fun i h hh => ?_, hd.anchored, fun snapshot hsnap => ?_, ?_⟩
  · obtain ⟨front, hfront, ho⟩ := hinv.run.follows i h hh
    refine ⟨?_, hinv.atHead hfree hcount i h hh⟩
    rw [ho]
    exact hfront
  · have hd' : DiskInv P snapshot L := by
      rcases hsnap with rfl | rfl
      · exact hd
      · exact ⟨⟨refs, hr⟩, fun b hb => by cases hb⟩
    obtain ⟨log, hopen, hholds⟩ := hinv.run.openLog
    obtain ⟨store, hstore, hrefs, -, hoplog, -⟩ :=
      @openStore_eq P _ _ ⟨s.disk.log, snapshot⟩ _ hopen hholds.2 hfree hcount hd' hr
    exact ⟨_, store, hstore, Holds.chainOf hholds, by rw [hoplog]; rfl, hrefs⟩
  · intro i h hh actor timestampMs changes key policy hactor hbody
    exact commitSpec (hinv.run.holds hh) (hinv.run.follows i h hh) hr (hc i h hh) hactor hbody

/-! ### A commit, a snapshot and a second handle -/

def syncedRun : List Action :=
  [.openStore 0, .commit 0 "alice" 1 sampleChanges (some sampleKey) none true, .snapshot 0,
    .openStore 1]

/-- The two handles, the snapshot and the next commits after a first commit. -/
theorem linearizable_first : ∃ s refs, (stores Prims.toy).run (stores Prims.toy).init syncedRun
    = some s ∧ Linearized Prims.toy s [sampleOp] refs := by
  have hsome : ((stores Prims.toy).run (stores Prims.toy).init syncedRun).isSome = true := by
    decide +kernel
  obtain ⟨s, hrun⟩ := Option.isSome_iff_exists.mp hsome
  have hchain : ((stores Prims.toy).run (stores Prims.toy).init syncedRun).map
      (fun s => decide (chainOf Prims.toy s.disk.log = [sampleOp])) = some true := by
    decide +kernel
  rw [hrun, Option.map_some, Option.some.injEq, decide_eq_true_eq] at hchain
  have hs : (stores Prims.toy).ReachableIf SyncedCommits s := by
    apply System.ReachableIf.run .init _ hrun
    intro a ha t
    simp only [syncedRun, mem_cons, not_mem_nil, or_false] at ha
    rcases ha with rfl | rfl | rfl | rfl
    · trivial
    · exact ⟨fits_sampleChanges, body_sampleCommit, rfl⟩
    · trivial
    · trivial
  have hfree : CollisionFree Prims.toy (chainOf Prims.toy s.disk.log) := by
    rw [hchain]
    exact collisionFree_sampleOp
  have hcount : (chainOf Prims.toy s.disk.log).length < 2 ^ 32 := by
    rw [hchain]
    decide
  obtain ⟨refs, hlin⟩ := linearizable hs hfree hcount
  rw [hchain] at hlin
  exact ⟨s, refs, hrun, hlin⟩

/-- The commit fails at its fsync, and the caller asks for a snapshot. -/
def unsyncedRun : List Action :=
  [.openStore 0, .commit 0 "alice" 1 sampleChanges (some sampleKey) none false, .snapshot 0]

/-- The handle and the snapshot name the op, with refs that lack it. -/
theorem linearizable_fails : ∃ s h, (stores Prims.toy).Reachable s ∧ s.handles 0 = some h ∧
    chainOf Prims.toy s.disk.log = [sampleOp] ∧ h.oplog.ops = [sampleOp] ∧
    replayRefs ∅ [sampleOp] ≠ some h.refs ∧
    s.disk.snapshot = some (Snapshot.write Prims.toy sampleOp.id h.refs) := by
  have hsome : ((stores Prims.toy).run (stores Prims.toy).init unsyncedRun).isSome = true := by
    decide +kernel
  obtain ⟨s, hrun⟩ := Option.isSome_iff_exists.mp hsome
  have heval : ((stores Prims.toy).run (stores Prims.toy).init unsyncedRun).bind (fun s =>
      (s.handles 0).map fun h => decide (chainOf Prims.toy s.disk.log = [sampleOp] ∧
        h.oplog.ops = [sampleOp] ∧ h.refs.toList = [] ∧
        s.disk.snapshot = some (Snapshot.write Prims.toy sampleOp.id h.refs))) = some true := by
    decide +kernel
  rw [hrun, Option.bind_some] at heval
  obtain ⟨h, hh, hfacts⟩ := Option.map_eq_some_iff.mp heval
  obtain ⟨hchain, hops, hrefs, hsnap⟩ := of_decide_eq_true hfacts
  have hreplay : (replayRefs ∅ [sampleOp]).map (fun refs => refs.toList.length) = some 1 := by
    decide +kernel
  refine ⟨s, h, System.reachable_of_run hrun, hh, hchain, hops, fun heq => ?_, hsnap⟩
  rw [heq, Option.map_some, hrefs] at hreplay
  cases hreplay

end Alt.Refs
