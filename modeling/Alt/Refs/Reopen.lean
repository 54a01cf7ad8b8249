import Alt.Library.Hex
import Alt.Library.System
import Alt.OpLog.Chain
import Alt.Refs.Replay

namespace Alt.Refs

open Alt.Library OpLog

/-!
# What a ref commit accepts can be replayed

Any number of `RefStore` handles work on one directory.  `stores P` is the system of their
operations, in any order; a commit may fail at the fsync, after its op is in the log.

* `Follows L h` — the handle has read a front of the log's chain `L`;
* `DiskInv` — the chain replays, and a snapshot is some op with the refs up to it;
* `Current` — a handle's refs are the replay of the ops it has applied.

`reopen_after_commit` is the main result.  Its guard `Sized` asks what the encoders do not
check: names and targets below 64 KiB, bodies below 4 GiB; and that no snapshot is taken
by a handle whose own last commit failed at the fsync.
-/

variable {P : Prims}

/-! ### The system -/

/-- One operation of one handle. -/
inductive Action
  | openStore (i : Nat)
  | commit (i : Nat) (actor : String) (timestampMs : UInt64) (changes : List RefChange)
      (key : Option IdemKey) (policy : Option RefPolicy) (synced : Bool)
  | recordOp (i : Nat) (actor : String) (timestampMs : UInt64) (payload : Bytes) (synced : Bool)
  | refresh (i : Nat)
  | snapshot (i : Nat)

/-- The directory and the handles open on it. -/
structure State where
  disk : Disk
  handles : Nat → Option RefStore

def State.withHandle (s : State) (i : Nat) (r : Disk × RefStore) : State :=
  ⟨r.1, Function.update s.handles i (some r.2)⟩

def step (P : Prims) (s : State) : Action → Option State
  | .openStore i =>
    match RefStore.openStore P s.disk with
    | (disk, .ok store) => some (s.withHandle i (disk, store))
    | (disk, .error _) => some { s with disk }
  | .commit i actor timestampMs changes key policy synced =>
    (s.handles i).map fun h => s.withHandle i
      (RefStore.commitIdempotent P s.disk h actor timestampMs changes key policy synced).1
  | .recordOp i actor timestampMs payload synced =>
    (s.handles i).map fun h => s.withHandle i
      (RefStore.recordOp P s.disk h actor timestampMs payload synced).1
  | .refresh i =>
    (s.handles i).map fun h => s.withHandle i (RefStore.refresh P s.disk h).1
  | .snapshot i =>
    (s.handles i).map fun h => s.withHandle i (RefStore.snapshot P s.disk h)

/-- Ref stores on one directory, which starts empty. -/
def stores (P : Prims) : System State Action where
  init := ⟨⟨[], none⟩, fun _ => none⟩
  step := step P

/-- What the encoders take on trust. -/
def Sized (s : State) : Action → Prop
  | .commit _ actor _ changes key _ _ =>
    TxFits changes ∧ bodyFixedLen + (utf8 actor).length + (encodeTx changes key).length < 2 ^ 32
  | .recordOp _ actor _ payload _ =>
    bodyFixedLen + (utf8 actor).length + payload.length < 2 ^ 32
  | .snapshot i => ∀ h, s.handles i = some h → h.applied = h.oplog.ops.length
  | _ => True

/-! ### The invariants -/

/-- The handle has read a front of the chain. -/
def Follows (P : Prims) (L : List Op) (h : RefStore) : Prop :=
  ∃ front, front <+: L ∧ h.oplog = ofOps P front

/-- The chain replays, and a snapshot is some op of it with the refs up to it. -/
structure DiskInv (P : Prims) (snapshot : Option Bytes) (L : List Op) : Prop where
  replays : ∃ refs, replayRefs ∅ L = some refs
  anchored : ∀ b, snapshot = some b → ∃ front op refs, front ++ [op] <+: L ∧
    replayRefs ∅ (front ++ [op]) = some refs ∧ b = Snapshot.write P op.id refs

/-- The handle's refs are the replay of the ops it has applied; with no snapshot about, its
    keys are theirs too. -/
structure Current (snapshot : Option Bytes) (L : List Op) (st : Folded) : Prop where
  applied_le : st.applied ≤ L.length
  refs : replayRefs ∅ (L.take st.applied) = some st.refs
  keys : snapshot = none → st.byKey = keysOf (L.take st.applied)

variable {snapshot : Option Bytes} {L L' : List Op} {st : Folded}

/-- A longer log and a later snapshot leave a handle as current as it was. -/
theorem Current.extend {snapshot' : Option Bytes} (hc : Current snapshot L st) (hL : L <+: L')
    (hs : snapshot' = none → snapshot = none) :
    Current snapshot' L' st := by
  obtain ⟨more, rfl⟩ := hL
  have htake : (L ++ more).take st.applied = L.take st.applied :=
    List.take_append_of_le_length hc.applied_le
  exact
    { applied_le := by rw [List.length_append]; exact Nat.le_add_right_of_le hc.applied_le
      refs := by rw [htake]; exact hc.refs
      keys := fun h => by rw [htake]; exact hc.keys (hs h) }

variable {refs : RefMap}

theorem DiskInv.extend (hd : DiskInv P snapshot L) (hL : L <+: L')
    (hr : replayRefs ∅ L' = some refs) :
    DiskInv P snapshot L' where
  replays := ⟨refs, hr⟩
  anchored := by
    intro b hb
    obtain ⟨front, op, refs, hfront, hrefs, hb⟩ := hd.anchored b hb
    exact ⟨front, op, refs, hfront.trans hL, hrefs, hb⟩

/-! ### Folding, snapshots and the ends of a commit -/

/-- A current handle folds up to the end of the log. -/
theorem Current.foldNew (hc : Current snapshot L st) (hr : replayRefs ∅ L = some refs) :
    ∃ byKey, foldNew st L = (⟨refs, L.length, byKey⟩, .ok ()) ∧
      Current snapshot L ⟨refs, L.length, byKey⟩ := by
  refine ⟨_, foldNew_eq hc.refs hr, le_rfl, by rwa [List.take_length], fun h => ?_⟩
  simp only [List.take_length]
  rw [hc.keys h, keysOf, ← recordKeys_append, List.take_append_drop]
  rfl

/-- What a snapshot or a skipped one leaves: the log and the handle as they were, and a
    snapshot file that still fits the log. -/
structure Noted (P : Prims) (disk : Disk) (store : RefStore) (L : List Op)
    (r : Disk × RefStore) : Prop where
  log : r.1.log = disk.log
  folded : r.2.toFolded = store.toFolded
  oplog : r.2.oplog = store.oplog
  inv : DiskInv P r.1.snapshot L
  kept : r.1.snapshot = none → disk.snapshot = none

variable {disk : Disk}

theorem noted_snapshot {store : RefStore} {front : List Op} (hL : front <+: L)
    (ho : store.oplog = ofOps P front) (hr : replayRefs ∅ front = some store.refs)
    (hd : DiskInv P disk.snapshot L) :
    Noted P disk store L (RefStore.snapshot P disk store) := by
  rw [RefStore.snapshot]
  rcases List.eq_nil_or_concat front with rfl | ⟨init, op, rfl⟩
  · have hhead : head store.oplog = none := by rw [ho]; rfl
    rw [hhead]
    exact ⟨rfl, rfl, rfl, hd, id⟩
  · rw [List.concat_eq_append] at ho hr hL
    have hhead : head store.oplog = some op.id := by
      simp [ho, head, ofOps]
    rw [hhead]
    exact
      { log := rfl
        folded := rfl
        oplog := rfl
        inv :=
          { replays := hd.replays
            anchored := by
              intro b hb
              cases hb
              exact ⟨init, op, store.refs, hL, hr, rfl⟩ }
        kept := fun h => by cases h }

theorem noted_noteOp {store : RefStore} (ho : store.oplog = ofOps P L)
    (hr : replayRefs ∅ L = some store.refs) (hd : DiskInv P disk.snapshot L) :
    Noted P disk store L (RefStore.noteOp P disk store) := by
  rw [RefStore.noteOp]
  simp only
  split
  · have hn : Noted P disk { store with opsSinceSnapshot := store.opsSinceSnapshot + 1 } L
        (RefStore.snapshot P disk { store with opsSinceSnapshot := store.opsSinceSnapshot + 1 }) :=
      noted_snapshot List.prefix_rfl ho hr hd
    exact ⟨hn.log, hn.folded, hn.oplog, hn.inv, hn.kept⟩
  · exact ⟨rfl, rfl, rfl, hd, id⟩

/-- Without its invariant: a snapshot touches neither the log nor the op log handle. -/
theorem snapshot_frame (disk : Disk) (store : RefStore) :
    (RefStore.snapshot P disk store).1.log = disk.log ∧
      (RefStore.snapshot P disk store).2.oplog = store.oplog ∧
      ((RefStore.snapshot P disk store).1.snapshot = none → disk.snapshot = none) := by
  rw [RefStore.snapshot]
  split
  · exact ⟨rfl, rfl, id⟩
  · exact ⟨rfl, rfl, fun h => by cases h⟩

theorem noteOp_frame (disk : Disk) (store : RefStore) :
    (RefStore.noteOp P disk store).1.log = disk.log ∧
      (RefStore.noteOp P disk store).2.oplog = store.oplog ∧
      ((RefStore.noteOp P disk store).1.snapshot = none → disk.snapshot = none) := by
  rw [RefStore.noteOp]
  simp only
  split
  · exact snapshot_frame disk _
  · exact ⟨rfl, rfl, id⟩

theorem snapshot_folded (disk : Disk) (store : RefStore) :
    (RefStore.snapshot P disk store).2.toFolded = store.toFolded := by
  rw [RefStore.snapshot]
  split <;> rfl

theorem noteOp_folded (disk : Disk) (store : RefStore) :
    (RefStore.noteOp P disk store).2.toFolded = store.toFolded := by
  rw [RefStore.noteOp]
  simp only
  split
  · exact snapshot_folded disk _
  · rfl

/-! ### What each operation leaves -/

/-- The outcome of one operation of a handle on a log with chain `L`: the log has grown to
    `L'`; and given that the files and the handle were in order, they are in order. -/
structure Advanced (P : Prims) (disk : Disk) (h : RefStore) (L L' : List Op)
    (r : Disk × RefStore) : Prop where
  grown : L <+: L'
  holds : Holds P r.1.log L'
  follows : Follows P L' r.2
  kept : r.1.snapshot = none → disk.snapshot = none
  inv : DiskInv P disk.snapshot L → Current disk.snapshot L h.toFolded →
    DiskInv P r.1.snapshot L' ∧ Current r.1.snapshot L' r.2.toFolded

variable {h : RefStore}

theorem snapshot_advanced (hlog : Holds P disk.log L) (hf : Follows P L h)
    (happlied : h.applied = h.oplog.ops.length) :
    Advanced P disk h L L (RefStore.snapshot P disk h) := by
  obtain ⟨front, hfront, ho⟩ := hf
  obtain ⟨hlog', hoplog, hkept⟩ := snapshot_frame (P := P) disk h
  refine ⟨List.prefix_rfl, hlog' ▸ hlog, ⟨front, hfront, hoplog.trans ho⟩, hkept, fun hd hc => ?_⟩
  have hr : replayRefs ∅ front = some h.refs := by
    have hrefs := hc.refs
    rw [happlied, ho, show (ofOps P front).ops = front from rfl,
      ← List.prefix_iff_eq_take.mp hfront] at hrefs
    exact hrefs
  have hn := noted_snapshot hfront ho hr hd
  exact ⟨hn.inv, hn.folded ▸ hc.extend List.prefix_rfl hkept⟩

theorem refresh_advanced (hlog : Holds P disk.log L) (hf : Follows P L h) :
    Advanced P disk h L L (RefStore.refresh P disk h).1 := by
  obtain ⟨front, ⟨more, rfl⟩, ho⟩ := hf
  have hcatch : OpLog.refresh P disk.log h.oplog
      = ((disk.log, ofOps P (front ++ more)), .ok ()) := by
    rw [ho]
    exact catchUp_holds hlog
  rw [RefStore.refresh, hcatch]
  refine ⟨List.prefix_rfl, hlog, ⟨_, List.prefix_rfl, rfl⟩, id, fun hd hc => ⟨hd, ?_⟩⟩
  obtain ⟨refs, hr⟩ := hd.replays
  obtain ⟨byKey, hfold, hcur⟩ := hc.foldNew hr
  have hops : (ofOps P (front ++ more)).ops = front ++ more := rfl
  simp only [hops, hfold]
  exact hcur

/-- What `build` leaves of the fold, and the only payload it builds. -/
theorem buildTx_spec (changes : List RefChange) (key : Option IdemKey)
    (policy : Option RefPolicy) (st : Folded) (ops : List Op) :
    (RefStore.buildTx changes key policy st ops).1 = (foldNew st ops).1 ∧
      ∀ payload, (RefStore.buildTx changes key policy st ops).2 = .ok payload →
        payload = encodeTx changes key ∧
          ∃ refs, applyChanges (foldNew st ops).1.refs changes false = .ok refs := by
  rw [RefStore.buildTx]
  split
  · rename_i st' e hfold
    rw [hfold]
    exact ⟨rfl, fun payload h => by cases h⟩
  · rename_i st' hfold
    rw [hfold]
    split
    · exact ⟨rfl, fun payload h => by cases h⟩
    · split
      · exact ⟨rfl, fun payload h => by cases h⟩
      · rename_i refs happly
        exact ⟨rfl, fun payload h => ⟨by cases h; rfl, refs, happly⟩⟩

theorem buildRecorded_spec (recorded : Bytes) (st : Folded) (ops : List Op) :
    (RefStore.buildRecorded recorded st ops).1 = (foldNew st ops).1 ∧
      ∀ payload, (RefStore.buildRecorded recorded st ops).2 = .ok payload → payload = recorded := by
  rw [RefStore.buildRecorded]
  split
  · rename_i st' e hfold
    rw [hfold]
    exact ⟨rfl, fun payload h => by cases h⟩
  · rename_i st' hfold
    rw [hfold]
    exact ⟨rfl, fun payload h => by cases h; rfl⟩

variable {op : Op} {changes : List RefChange}

/-- A transaction op that applies extends the replay by its changes and its key. -/
theorem replay_txOp {key : Option IdemKey} {refs' : RefMap}
    (hpayload : op.payload = encodeTx changes key) (hfit : TxFits changes)
    (hlen : (encodeTx changes key).length < 2 ^ 32) (hr : replayRefs ∅ L = some refs)
    (happly : applyChanges refs changes false = .ok refs') :
    replayRefs ∅ (L ++ [op]) = some refs' ∧
      keysOf (L ++ [op]) = insertKey (keysOf L) key op.id := by
  have hparse := parseTx_encodeTx hfit hlen
  rw [← hpayload] at hparse
  constructor
  · rw [replayRefs_append, hr, Option.bind_some]
    simp only [replayRefs, hparse, applyChanges_replaying happly]
  · rw [keysOf, recordKeys_append]
    simp only [recordKeys, List.foldl_cons, List.foldl_nil, opKey, hparse]
    rfl

/-- An op of another kind extends it by nothing. -/
theorem replay_otherOp (hkind : op.payload.head? ≠ some payloadRefTx)
    (hr : replayRefs ∅ L = some refs) :
    replayRefs ∅ (L ++ [op]) = some refs ∧ keysOf (L ++ [op]) = keysOf L := by
  have hparse : parseTx op.payload = .ok none := by rw [parseTx, if_pos hkind]
  constructor
  · rw [replayRefs_append, hr, Option.bind_some]
    simp only [replayRefs, hparse]
  · rw [keysOf, recordKeys_append]
    simp only [recordKeys, List.foldl_cons, List.foldl_nil, opKey, hparse, insertKey]
    rfl

/-- The fold of a current handle after the append lock's catch-up. -/
theorem Current.folded {st' : Folded} (hc : Current snapshot L st)
    (hr : replayRefs ∅ L = some refs) (hst : st' = (Refs.foldNew st L).1) :
    st'.refs = refs ∧ st'.applied = L.length ∧ Current snapshot L st' := by
  obtain ⟨byKey, hfold, hcur⟩ := hc.foldNew hr
  rw [hst, hfold]
  exact ⟨rfl, rfl, hcur⟩

/-- How a write of `op` can end: refused with nothing read, refused after catching up,
    written but not synced, or done with the fold `final`. -/
inductive Outcome (P : Prims) (disk : Disk) (h : RefStore) (L : List Op) (op : Op) (valid : Prop)
    (final : Folded) : (Disk × RefStore) × Except RefError OpId → Prop
  | refused (e : RefError) : Outcome P disk h L op valid final ((disk, h), .error e)
  | rejected (e : RefError) : Outcome P disk h L op valid final
      ((disk, ⟨(foldNew h.toFolded L).1, ofOps P L, h.opsSinceSnapshot⟩), .error e)
  | unsynced {file : Bytes} (e : RefError) : valid → Holds P file (L ++ [op]) →
      Outcome P disk h L op valid final
        ((⟨file, disk.snapshot⟩,
          ⟨(foldNew h.toFolded L).1, ofOps P (L ++ [op]), h.opsSinceSnapshot⟩), .error e)
  | done {file : Bytes} : valid → Holds P file (L ++ [op]) →
      Outcome P disk h L op valid final
        (RefStore.noteOp P ⟨file, disk.snapshot⟩
          ⟨final, ofOps P (L ++ [op]), h.opsSinceSnapshot⟩, .ok op.id)

/-- **What a write leaves**, given what its op adds to the replay. -/
theorem Outcome.advanced {valid : Prop} {final : Folded}
    {r : (Disk × RefStore) × Except RefError OpId} (hout : Outcome P disk h L op valid final r)
    (hlog : Holds P disk.log L) (hf : Follows P L h)
    (happlied : final.applied = (L ++ [op]).length)
    (hop : ∀ refs, replayRefs ∅ L = some refs → Current disk.snapshot L h.toFolded → valid → replayRefs ∅ (L ++ [op]) = some final.refs ∧ (disk.snapshot = none → final.byKey = keysOf (L ++ [op]))) :
    ∃ L', (L' = L ∨ L' = L ++ [op]) ∧ Advanced P disk h L L' r.1 ∧
      ∀ id, r.2 = .ok id → r.1.2.oplog = ofOps P L' ∧ r.1.2.applied = L'.length ∧
        L' = L ++ [op] ∧ id = op.id := by
  have hpre : L <+: L ++ [op] := List.prefix_append _ _
  cases hout with
  | refused e =>
    refine ⟨L, .inl rfl, ⟨List.prefix_rfl, hlog, hf, id, fun hd hc => ⟨hd, hc⟩⟩, ?_⟩
    intro id hid
    cases hid
  | rejected e =>
    refine ⟨L, .inl rfl, ⟨List.prefix_rfl, hlog, ⟨L, List.prefix_rfl, rfl⟩, id,
      fun hd hc => ?_⟩, ?_⟩
    · obtain ⟨refs, hr⟩ := hd.replays
      exact ⟨hd, (hc.folded hr rfl).2.2⟩
    · intro id hid
      cases hid
  | unsynced e hvalid hholds =>
    refine ⟨L ++ [op], .inr rfl, ⟨hpre, hholds, ⟨_, List.prefix_rfl, rfl⟩, id,
      fun hd hc => ?_⟩, ?_⟩
    · obtain ⟨refs, hr⟩ := hd.replays
      obtain ⟨hrep, -⟩ := hop refs hr hc hvalid
      exact ⟨hd.extend hpre hrep, (hc.folded hr rfl).2.2.extend hpre id⟩
    · intro id hid
      cases hid
  | @done file hvalid hholds =>
    obtain ⟨hf1, hf2, hf3⟩ := noteOp_frame (P := P) ⟨file, disk.snapshot⟩
      ⟨final, ofOps P (L ++ [op]), h.opsSinceSnapshot⟩
    refine ⟨L ++ [op], .inr rfl, ⟨hpre, hf1.symm ▸ hholds, ⟨_, List.prefix_rfl, hf2⟩, hf3,
      fun hd hc => ?_⟩, ?_⟩
    · obtain ⟨refs, hr⟩ := hd.replays
      obtain ⟨hrep, hkeys⟩ := hop refs hr hc hvalid
      have hn : Noted P ⟨file, disk.snapshot⟩ ⟨final, ofOps P (L ++ [op]), h.opsSinceSnapshot⟩
          (L ++ [op]) (RefStore.noteOp P ⟨file, disk.snapshot⟩
            ⟨final, ofOps P (L ++ [op]), h.opsSinceSnapshot⟩) :=
        noted_noteOp rfl hrep (hd.extend hpre hrep)
      refine ⟨hn.inv, ?_⟩
      rw [noteOp_folded]
      exact
        { applied_le := happlied.le
          refs := by rw [happlied, List.take_length]; exact hrep
          keys := fun hs => by rw [happlied, List.take_length]; exact hkeys (hf3 hs) }
    · intro id hid
      cases hid
      exact ⟨hf2, by rw [noteOp_folded]; exact happlied, rfl, rfl⟩

/-- The op a commit writes onto chain `L`. -/
def txOp (P : Prims) (L : List Op) (actor : String) (timestampMs : UInt64)
    (changes : List RefChange) (key : Option IdemKey) : Op :=
  newOp P L actor timestampMs (encodeTx changes key)

theorem length_ofOps_concat (L : List Op) (op : Op) :
    (ofOps P (L ++ [op])).ops.length = L.length + 1 := by
  rw [show (ofOps P (L ++ [op])).ops = L ++ [op] from rfl, List.length_append]
  rfl

variable {actor : String}

theorem commit_outcome (timestampMs : UInt64) {key : Option IdemKey} (policy : Option RefPolicy)
    (synced : Bool) (hlog : Holds P disk.log L) (hf : Follows P L h)
    (hbody : bodyFixedLen + (utf8 actor).length + (encodeTx changes key).length < 2 ^ 32) :
    Outcome P disk h L (txOp P L actor timestampMs changes key)
      (applyChanges (foldNew h.toFolded L).1.refs changes false
        = .ok (changes.foldl applyChange (foldNew h.toFolded L).1.refs))
      ⟨changes.foldl applyChange (foldNew h.toFolded L).1.refs, L.length + 1,
        insertKey (foldNew h.toFolded L).1.byKey key
          (txOp P L actor timestampMs changes key).id⟩
      (RefStore.commitIdempotent P disk h actor timestampMs changes key policy synced) := by
  obtain ⟨front, ⟨more, rfl⟩, ho⟩ := hf
  have hbuild := buildTx_spec changes key policy h.toFolded (front ++ more)
  have happ : Appended P disk.log front more actor timestampMs h.toFolded
      (RefStore.buildTx changes key policy) (OpLog.appendChecked P RefError.opLog disk.log
        h.oplog actor timestampMs h.toFolded (RefStore.buildTx changes key policy)) := by
    rw [ho]
    refine appendChecked_appended hlog fun payload hp => ?_
    rw [(hbuild.2 payload hp).1]
    exact hbody
  rw [RefStore.commitIdempotent]
  generalize OpLog.appendChecked P RefError.opLog disk.log h.oplog actor timestampMs
    h.toFolded (RefStore.buildTx changes key policy) = r at happ
  cases happ with
  | refused e =>
    simp only [← ho]
    exact .refused e
  | rejected e =>
    simp only [hbuild.1]
    exact .rejected e
  | @written payload file hpayload hholds =>
    obtain ⟨rfl, refs, happly⟩ := hbuild.2 payload hpayload
    have hvalid := happly
    rw [applyChanges_ok happly] at hvalid
    simp only [hbuild.1]
    cases synced with
    | false => exact .unsynced _ hvalid hholds
    | true =>
      generalize hv : (applyChanges (foldNew h.toFolded (front ++ more)).1.refs changes false
        = .ok (changes.foldl applyChange (foldNew h.toFolded (front ++ more)).1.refs)) = valid
      have hvt : valid := hv ▸ hvalid
      simp only [hvalid, Bool.not_true, Bool.false_eq_true, ↓reduceIte, length_ofOps_concat]
      exact .done hvt hholds

/-- A chain stays, or grows by one op that records `key`. -/
def Grows (key : Option IdemKey) (L L' : List Op) : Prop :=
  L' = L ∨ ∃ op, L' = L ++ [op] ∧ opKey op = key

variable {timestampMs : UInt64}

theorem opKey_txOp {key : Option IdemKey} (hfit : TxFits changes)
    (hlen : (encodeTx changes key).length < 2 ^ 32) :
    opKey (txOp P L actor timestampMs changes key) = key := by
  have hpayload : (txOp P L actor timestampMs changes key).payload = encodeTx changes key := rfl
  rw [opKey, hpayload, parseTx_encodeTx hfit hlen]

theorem commit_advanced (hlog : Holds P disk.log L) (hf : Follows P L h) {key : Option IdemKey}
    {policy : Option RefPolicy} {synced : Bool} (hfit : TxFits changes)
    (hbody : bodyFixedLen + (utf8 actor).length + (encodeTx changes key).length < 2 ^ 32) :
    let r := RefStore.commitIdempotent P disk h actor timestampMs changes key policy synced
    ∃ L', Grows key L L' ∧ Advanced P disk h L L' r.1 ∧
      ∀ id, r.2 = .ok id → r.1.2.oplog = ofOps P L' ∧ r.1.2.applied = L'.length ∧
        ∃ op, L' = L ++ [op] ∧ id = op.id := by
  have hout := commit_outcome timestampMs policy synced hlog hf hbody
  obtain ⟨L', hgrows, hadv, hdone⟩ := hout.advanced hlog hf (by simp)
    fun refs hr hc happly => by
      obtain ⟨hrefs, happlied, hcur⟩ := hc.folded hr rfl
      have happly' : applyChanges refs changes false
          = .ok (changes.foldl applyChange (foldNew h.toFolded L).1.refs) := by
        rw [← hrefs]
        exact happly
      obtain ⟨hrep, hkeys⟩ := replay_txOp (L := L)
        (rfl : (txOp P L actor timestampMs changes key).payload = encodeTx changes key) hfit
        (by omega) hr happly'
      refine ⟨hrep, fun hs => ?_⟩
      have hk := hcur.keys hs
      rw [happlied, List.take_length] at hk
      rw [hkeys, hk]
  refine ⟨L', hgrows.imp_right fun hL => ⟨_, hL, opKey_txOp hfit (by omega)⟩, hadv,
    fun id hid => ?_⟩
  obtain ⟨ho, happlied, hL, hop⟩ := hdone id hid
  exact ⟨ho, happlied, _, hL, hop⟩

/-- An op of another kind records no key. -/
theorem opKey_other (hkind : op.payload.head? ≠ some payloadRefTx) :
    opKey op = none := by
  have hparse : parseTx op.payload = .ok none := by rw [parseTx, if_pos hkind]
  rw [opKey, hparse]

theorem recordOp_outcome (timestampMs : UInt64) {payload : Bytes} (synced : Bool)
    (hlog : Holds P disk.log L) (hf : Follows P L h) (hkind : payload.head? ≠ some payloadRefTx)
    (hbody : bodyFixedLen + (utf8 actor).length + payload.length < 2 ^ 32) :
    Outcome P disk h L (newOp P L actor timestampMs payload) True
      ⟨(foldNew h.toFolded L).1.refs, L.length + 1, (foldNew h.toFolded L).1.byKey⟩
      (RefStore.recordOp P disk h actor timestampMs payload synced) := by
  obtain ⟨front, ⟨more, rfl⟩, ho⟩ := hf
  have hbuild := buildRecorded_spec payload h.toFolded (front ++ more)
  have happ : Appended P disk.log front more actor timestampMs h.toFolded
      (RefStore.buildRecorded payload) (OpLog.appendChecked P RefError.opLog disk.log
        h.oplog actor timestampMs h.toFolded (RefStore.buildRecorded payload)) := by
    rw [ho]
    refine appendChecked_appended hlog fun p hp => ?_
    rw [hbuild.2 p hp]
    exact hbody
  rw [RefStore.recordOp, if_neg hkind]
  generalize OpLog.appendChecked P RefError.opLog disk.log h.oplog actor timestampMs
    h.toFolded (RefStore.buildRecorded payload) = r at happ
  cases happ with
  | refused e =>
    simp only [← ho]
    exact .refused e
  | rejected e =>
    simp only [hbuild.1]
    exact .rejected e
  | @written p file hpayload hholds =>
    obtain rfl := hbuild.2 p hpayload
    simp only [hbuild.1]
    cases synced with
    | false => exact .unsynced _ trivial hholds
    | true =>
      simp only [Bool.not_true, Bool.false_eq_true, ↓reduceIte, length_ofOps_concat]
      exact .done trivial hholds

theorem recordOp_advanced (hlog : Holds P disk.log L) (hf : Follows P L h) {payload : Bytes}
    {synced : Bool} (hbody : bodyFixedLen + (utf8 actor).length + payload.length < 2 ^ 32) :
    ∃ L', Grows none L L' ∧
      Advanced P disk h L L' (RefStore.recordOp P disk h actor timestampMs payload synced).1 := by
  by_cases hkind : payload.head? = some payloadRefTx
  · rw [RefStore.recordOp, if_pos hkind]
    exact ⟨L, .inl rfl, List.prefix_rfl, hlog, hf, id, fun hd hc => ⟨hd, hc⟩⟩
  · have hkind' : (newOp P L actor timestampMs payload).payload.head? ≠ some payloadRefTx := hkind
    have hout := recordOp_outcome timestampMs synced hlog hf hkind hbody
    obtain ⟨L', hgrows, hadv, -⟩ := hout.advanced hlog hf (by simp)
      fun refs hr hc _ => by
        obtain ⟨hrefs, happlied, hcur⟩ := hc.folded hr rfl
        obtain ⟨hrep, hkeys⟩ := replay_otherOp hkind' hr
        refine ⟨hrefs ▸ hrep, fun hs => ?_⟩
        have hk := hcur.keys hs
        rw [happlied, List.take_length] at hk
        rw [hkeys, hk]
    exact ⟨L', hgrows.imp_right fun hL => ⟨_, hL, opKey_other hkind'⟩, hadv⟩

/-! ### Opening the store -/

theorem openLog_nil : openLog P [] = .ok (fileHeader.header, ofOps P []) := rfl

theorem holds_header : Holds P fileHeader.header [] := ⟨by simp, trivial⟩

/-- Replay starts at a front of the chain, with the refs that front leads to. -/
theorem replayBase_spec (hlinked : Linked P OpId.root L) (hfree : CollisionFree P L)
    (hcount : L.length < 2 ^ 32) (hd : DiskInv P snapshot L) :
    replayRefs ∅ (L.take (RefStore.replayBase P snapshot (ofOps P L)).2)
      = some (RefStore.replayBase P snapshot (ofOps P L)).1 := by
  cases hs : snapshot with
  | none => rfl
  | some b =>
    obtain ⟨front, op, refs, ⟨more, rfl⟩, hr, rfl⟩ := hd.anchored b hs
    have hfits := fits_of_replayRefs fits_empty hr
    rcases Nat.lt_or_ge refs.size (2 ^ 32) with hsize | hsize
    · have hk : front.length < (front ++ [op] ++ more).length := by
        simp only [List.length_append, List.length_cons, List.length_nil]
        omega
      have hget : (front ++ [op] ++ more)[front.length] = op := by simp
      have hindex := indexOf_ofOps hlinked hfree hcount hk
      rw [hget] at hindex
      have htake : (front ++ [op] ++ more).take (front.length + 1) = front ++ [op] :=
        List.take_left' (by simp)
      simp only [RefStore.replayBase, Snapshot.read_write P op.id hfits hsize, hindex, htake]
      exact hr
    · simp only [RefStore.replayBase, Snapshot.read_write_large P op.id hfits hsize]
      rfl

/-- **Opening.** A store whose files are in order opens, to the replay of its log and the
    keys of the ops past the snapshot. -/
theorem openStore_eq {log : Bytes} (hopen : openLog P disk.log = .ok (log, ofOps P L))
    (hlinked : Linked P OpId.root L) (hfree : CollisionFree P L) (hcount : L.length < 2 ^ 32)
    (hd : DiskInv P disk.snapshot L) (hr : replayRefs ∅ L = some refs) :
    ∃ store, RefStore.openStore P disk = (⟨log, disk.snapshot⟩, .ok store) ∧
      store.refs = refs ∧ store.applied = L.length ∧ store.oplog = ofOps P L ∧
      store.byKey = keysOf (L.drop (RefStore.replayBase P disk.snapshot (ofOps P L)).2) := by
  have hbase := replayBase_spec hlinked hfree hcount hd
  generalize hb : RefStore.replayBase P disk.snapshot (ofOps P L) = base at hbase ⊢
  obtain ⟨refs0, from_⟩ := base
  have hrest : replayRefs refs0 (L.drop from_) = some refs := by
    have := replayRefs_append ∅ (L.take from_) (L.drop from_)
    rwa [List.take_append_drop, hbase, hr, Option.bind_some, eq_comm] at this
  have hops : (ofOps P L).ops = L := rfl
  rw [RefStore.openStore, hopen]
  simp only [hb, hops, foldOps_eq hrest]
  exact ⟨_, rfl, rfl, rfl, rfl, rfl⟩

/-- Whatever comes of it, opening leaves the log's chain alone. -/
theorem openStore_frame {log : Bytes} (hopen : openLog P disk.log = .ok (log, ofOps P L)) :
    (RefStore.openStore P disk).1 = ⟨log, disk.snapshot⟩ ∧
      ∀ store, (RefStore.openStore P disk).2 = .ok store → store.oplog = ofOps P L := by
  rw [RefStore.openStore, hopen]
  simp only
  split
  · exact ⟨rfl, fun store h => by cases h⟩
  · exact ⟨rfl, fun store h => by cases h; rfl⟩

/-! ### Runs -/

/-- The run invariant.  The chain and what the handles have read of it are in order in any
    case; that the refs are takes BLAKE3 not to collide on the chain. -/
structure RunInv (P : Prims) (s : State) (L : List Op) : Prop where
  log : Holds P s.disk.log L ∨ (s.disk.log = [] ∧ L = [] ∧ ∀ i, s.handles i = none)
  follows : ∀ i h, s.handles i = some h → Follows P L h
  refs : CollisionFree P L → L.length < 2 ^ 32 → DiskInv P s.disk.snapshot L ∧
    ∀ i h, s.handles i = some h → Current s.disk.snapshot L h.toFolded

variable {s : State} {i : Nat}

/-- An operation of one handle that keeps the files and the handle in order, at least on a
    chain without collisions. -/
theorem RunInv.updated {r : Disk × RefStore} (hinv : RunInv P s L) (hgrown : L <+: L')
    (hholds : Holds P r.1.log L') (hfollows : Follows P L' r.2)
    (hkept : r.1.snapshot = none → s.disk.snapshot = none)
    (hrefs : CollisionFree P L' → L'.length < 2 ^ 32 → DiskInv P r.1.snapshot L' ∧ Current r.1.snapshot L' r.2.toFolded) :
    RunInv P (s.withHandle i r) L' where
  log := .inl hholds
  follows := by
    intro j h' hj
    simp only [State.withHandle, Function.update_apply] at hj
    split at hj
    · cases hj
      exact hfollows
    · obtain ⟨front, hfront, ho⟩ := hinv.follows j h' hj
      exact ⟨front, hfront.trans hgrown, ho⟩
  refs := by
    intro hfree hcount
    obtain ⟨-, hc⟩ := hinv.refs (hfree.of_prefix hgrown)
      (Nat.lt_of_le_of_lt hgrown.length_le hcount)
    obtain ⟨hd', hc'⟩ := hrefs hfree hcount
    refine ⟨hd', fun j h' hj => ?_⟩
    simp only [State.withHandle, Function.update_apply] at hj
    split at hj
    · cases hj
      exact hc'
    · exact (hc j h' hj).extend hgrown hkept

/-- An operation of one handle keeps the invariant. -/
theorem RunInv.withHandle {r : Disk × RefStore} (hinv : RunInv P s L) (hh : s.handles i = some h)
    (hadv : Advanced P s.disk h L L' r) : RunInv P (s.withHandle i r) L' := by
  apply hinv.updated hadv.grown hadv.holds hadv.follows hadv.kept
  intro hfree hcount
  obtain ⟨hd, hc⟩ := hinv.refs (hfree.of_prefix hadv.grown)
    (Nat.lt_of_le_of_lt hadv.grown.length_le hcount)
  exact hadv.inv hd (hc i h hh)

/-- A handle in use finds a chain in the log file. -/
theorem RunInv.holds (hinv : RunInv P s L) (hh : s.handles i = some h) : Holds P s.disk.log L := by
  rcases hinv.log with hlog | ⟨-, -, hnone⟩
  · exact hlog
  · rw [hnone i] at hh
    cases hh

theorem RunInv.openLog (hinv : RunInv P s L) :
    ∃ log, OpLog.openLog P s.disk.log = .ok (log, ofOps P L) ∧ Holds P log L := by
  rcases hinv.log with hlog | ⟨hlog, rfl, -⟩
  · have hopen := openLog_holds hlog (nextRecord_nil _)
    rw [List.append_nil] at hopen
    exact ⟨_, hopen, hlog⟩
  · rw [hlog]
    exact ⟨_, openLog_nil, holds_header⟩

variable {s' : State}

/-- Opening one more handle keeps the invariant. -/
theorem RunInv.openStore (hinv : RunInv P s L) (hstep : step P s (.openStore i) = some s') :
    RunInv P s' L := by
  obtain ⟨log, hopen, hholds⟩ := hinv.openLog
  obtain ⟨hdisk, hoplog⟩ := openStore_frame hopen
  simp only [step] at hstep
  have hfrom : ∀ j h, s.handles j = some h → Follows P L h := hinv.follows
  split at hstep
  · rename_i disk store heq
    rw [heq] at hdisk hoplog
    simp only at hdisk
    cases hstep
    subst hdisk
    refine ⟨.inl hholds, fun j h hj => ?_, fun hfree hcount => ?_⟩
    · simp only [State.withHandle, Function.update_apply] at hj
      split at hj
      · cases hj
        exact ⟨L, List.prefix_rfl, hoplog store rfl⟩
      · exact hfrom j h hj
    · obtain ⟨hd, hc⟩ := hinv.refs hfree hcount
      obtain ⟨refs, hr⟩ := hd.replays
      obtain ⟨store', hopen', hrefs, happlied, -, hkeys⟩ :=
        openStore_eq hopen hholds.2 hfree hcount hd hr
      rw [heq] at hopen'
      cases hopen'
      refine ⟨hd, fun j h hj => ?_⟩
      simp only [State.withHandle, Function.update_apply] at hj
      split at hj
      · cases hj
        exact
          { applied_le := happlied.le
            refs := by rw [happlied, List.take_length, hrefs]; exact hr
            keys := fun hs => by
              rw [happlied, List.take_length, hkeys]
              rw [show s.disk.snapshot = none from hs]
              rfl }
      · exact hc j h hj
  · rename_i disk e heq
    rw [heq] at hdisk
    simp only at hdisk
    cases hstep
    subst hdisk
    exact ⟨.inl hholds, hfrom, hinv.refs⟩

/-- The key an operation commits under. -/
def Action.key : Action → Option IdemKey
  | .commit _ _ _ _ key _ _ => key
  | _ => none

/-- **One operation** keeps the invariant, and adds at most one op, under its own key. -/
theorem runInv_next {a : Action} (hinv : RunInv P s L) (hg : Sized s a)
    (hstep : step P s a = some s') : ∃ L', Grows a.key L L' ∧ RunInv P s' L' := by
  cases a with
  | openStore i => exact ⟨L, .inl rfl, hinv.openStore hstep⟩
  | commit i actor timestampMs changes key policy synced =>
    simp only [step, Option.map_eq_some_iff] at hstep
    obtain ⟨h, hh, rfl⟩ := hstep
    obtain ⟨L', hgrows, hadv, -⟩ :=
      commit_advanced (hinv.holds hh) (hinv.follows i h hh) hg.1 hg.2
    exact ⟨L', hgrows, hinv.withHandle hh hadv⟩
  | recordOp i actor timestampMs payload synced =>
    simp only [step, Option.map_eq_some_iff] at hstep
    obtain ⟨h, hh, rfl⟩ := hstep
    obtain ⟨L', hgrows, hadv⟩ := recordOp_advanced (hinv.holds hh) (hinv.follows i h hh) hg
    exact ⟨L', hgrows, hinv.withHandle hh hadv⟩
  | refresh i =>
    simp only [step, Option.map_eq_some_iff] at hstep
    obtain ⟨h, hh, rfl⟩ := hstep
    exact ⟨L, .inl rfl,
      hinv.withHandle hh (refresh_advanced (hinv.holds hh) (hinv.follows i h hh))⟩
  | snapshot i =>
    simp only [step, Option.map_eq_some_iff] at hstep
    obtain ⟨h, hh, rfl⟩ := hstep
    exact ⟨L, .inl rfl, hinv.withHandle hh
      (snapshot_advanced (hinv.holds hh) (hinv.follows i h hh) (hg h hh))⟩

theorem runInv_step {a : Action} (hinv : ∃ L, RunInv P s L) (hg : Sized s a)
    (hstep : step P s a = some s') : ∃ L, RunInv P s' L := by
  obtain ⟨L, hinv⟩ := hinv
  obtain ⟨L', -, hinv'⟩ := runInv_next hinv hg hstep
  exact ⟨L', hinv'⟩

theorem runInv_init : RunInv P (stores P).init [] where
  log := .inr ⟨rfl, rfl, fun _ => rfl⟩
  follows i h hh := by cases hh
  refs _ _ := ⟨⟨⟨∅, rfl⟩, fun b hb => by cases hb⟩, fun i h hh => by cases hh⟩

/-- **The run invariant holds in every state a sized run reaches.** -/
theorem exists_runInv (hs : (stores P).ReachableIf Sized s) : ∃ L, RunInv P s L :=
  System.invariant_if (I := fun s => ∃ L, RunInv P s L) ⟨[], runInv_init⟩
    (fun _ _ _ hinv hg hstep => runInv_step hinv hg hstep) s hs

/-! ### The accepted transaction -/

/-- Opening these files gives the refs and the ops the handle holds, and the keys of the ops
    past the snapshot, all of them without one. -/
def ReopensTo (P : Prims) (disk : Disk) (h : RefStore) : Prop :=
  ∃ store, RefStore.openStore P disk = (disk, .ok store) ∧ store.refs = h.refs ∧
    store.oplog = h.oplog ∧
    store.byKey = keysOf (h.oplog.ops.drop (RefStore.replayBase P disk.snapshot h.oplog).2)

theorem reopensTo_of_holds (hlog : Holds P disk.log L) (hfree : CollisionFree P L)
    (hcount : L.length < 2 ^ 32) (hd : DiskInv P disk.snapshot L) (ho : h.oplog = ofOps P L)
    (hr : replayRefs ∅ L = some h.refs) : ReopensTo P disk h := by
  have hopen := openLog_holds hlog (nextRecord_nil _)
  rw [List.append_nil] at hopen
  obtain ⟨store, hstore, hrefs, -, hoplog, hkeys⟩ :=
    openStore_eq hopen hlog.2 hfree hcount hd hr
  exact ⟨store, hstore, hrefs, hoplog.trans ho.symm, by rw [ho]; exact hkeys⟩

/-- **An accepted transaction can be replayed.** In every run, for every transaction a
    handle accepts whose names and targets fit: the payload parses back to it, and the store
    reopens to the refs the handle holds — with the snapshot there is, without one, and with
    one written now — and to the keys past that snapshot. -/
theorem reopen_after_commit {s : State} (hs : (stores P).ReachableIf Sized s) {i : Nat}
    {h h' : RefStore} (hh : s.handles i = some h) {actor : String} {timestampMs : UInt64}
    {changes : List RefChange} {key : Option IdemKey} {policy : Option RefPolicy} {synced : Bool}
    {disk' : Disk} {id : OpId} (hfit : TxFits changes)
    (hbody : bodyFixedLen + (utf8 actor).length + (encodeTx changes key).length < 2 ^ 32)
    (hacc : RefStore.commitIdempotent P s.disk h actor timestampMs changes key policy synced
      = ((disk', h'), .ok id))
    (hfree : CollisionFree P h'.oplog.ops) (hcount : h'.oplog.ops.length < 2 ^ 32) :
    parseTx (encodeTx changes key) = .ok (some ⟨changes, key⟩) ∧
      ReopensTo P disk' h' ∧ ReopensTo P ⟨disk'.log, none⟩ h' ∧
      ReopensTo P ⟨disk'.log, some (Snapshot.write P id h'.refs)⟩ h' ∧
      (disk'.snapshot = none → h'.byKey = keysOf h'.oplog.ops) ∧
      Snapshot.read P (some (Snapshot.write P id h'.refs))
        = if h'.refs.size < 2 ^ 32 then some (id, h'.refs) else none := by
  obtain ⟨L, hinv⟩ := exists_runInv hs
  obtain ⟨L', -, hadv, hdone⟩ := commit_advanced (hinv.holds hh) (hinv.follows i h hh) hfit hbody
  rw [hacc] at hadv hdone
  obtain ⟨ho, happlied, op, hL', rfl⟩ := hdone id rfl
  have hops : h'.oplog.ops = L' := by rw [show h'.oplog = ofOps P L' from ho]; rfl
  rw [hops] at hfree hcount ⊢
  obtain ⟨hd, hc⟩ := hinv.refs (hfree.of_prefix hadv.grown)
    (Nat.lt_of_le_of_lt hadv.grown.length_le hcount)
  obtain ⟨hd', hc'⟩ := hadv.inv hd (hc i h hh)
  have hr : replayRefs ∅ L' = some h'.refs := by
    have hrefs := hc'.refs
    rwa [show h'.applied = L'.length from happlied, List.take_length] at hrefs
  have hfits := fits_of_replayRefs fits_empty hr
  refine ⟨parseTx_encodeTx hfit (by omega), ?_, ?_, ?_, fun hs => ?_, ?_⟩
  · exact reopensTo_of_holds hadv.holds hfree hcount hd' ho hr
  · exact reopensTo_of_holds hadv.holds hfree hcount ⟨⟨_, hr⟩, fun b hb => by cases hb⟩ ho hr
  · refine reopensTo_of_holds hadv.holds hfree hcount ⟨⟨_, hr⟩, fun b hb => ?_⟩ ho hr
    cases hb
    exact ⟨L, op, h'.refs, hL' ▸ List.prefix_rfl, hL' ▸ hr, rfl⟩
  · have hkeys := hc'.keys hs
    rwa [show h'.applied = L'.length from happlied, List.take_length] at hkeys
  · split
    · rename_i hsize
      exact Snapshot.read_write P op.id hfits hsize
    · rename_i hsize
      exact Snapshot.read_write_large P op.id hfits (Nat.le_of_not_lt hsize)

/-! ### A first commit -/

def sampleKey : IdemKey := .fill 16 7

def sampleChanges : List RefChange :=
  [⟨"refs/heads/main", none, some (.oid (.sha1 (.fill 20 1)))⟩]

/-- The state after the first handle was opened on an empty directory. -/
def sampleState : State :=
  State.withHandle (stores Prims.toy).init 0
    (⟨fileHeader.header, none⟩, ⟨⟨∅, 0, fun _ => none⟩, ofOps Prims.toy [], 0⟩)

def sampleHandle : RefStore := ⟨⟨∅, 0, fun _ => none⟩, ofOps Prims.toy [], 0⟩

def sampleCommit : (Disk × RefStore) × Except RefError OpId :=
  RefStore.commitIdempotent Prims.toy sampleState.disk sampleHandle "alice" 1 sampleChanges
    (some sampleKey) none true

def sampleOp : Op := txOp Prims.toy [] "alice" 1 sampleChanges (some sampleKey)

theorem reachable_sampleState : (stores Prims.toy).ReachableIf Sized sampleState :=
  .step .init (a := .openStore 0) trivial rfl

theorem sampleCommit_eq : sampleCommit = (sampleCommit.1, .ok sampleOp.id) := by
  have hid : (match sampleCommit.2 with
      | .ok id => decide (id = sampleOp.id)
      | .error _ => false) = true := by decide +kernel
  have hres : sampleCommit.2 = .ok sampleOp.id := by
    split at hid
    · rename_i id heq
      rw [heq, of_decide_eq_true hid]
    · cases hid
  rw [← hres]

theorem sampleCommit_ops : sampleCommit.1.2.oplog.ops = [sampleOp] := by decide +kernel

theorem fits_sampleChanges : TxFits sampleChanges := by
  intro change hc
  rw [sampleChanges, List.mem_singleton] at hc
  subst hc
  exact ⟨by decide, trivial, trivial⟩

theorem collisionFree_sampleOp : CollisionFree Prims.toy [sampleOp] where
  injOn := by
    rintro b ⟨op, hop, rfl⟩ c ⟨op', hop', rfl⟩ -
    rw [List.mem_singleton.mp hop, List.mem_singleton.mp hop']
  ne_root := by
    intro op hop
    rw [List.mem_singleton.mp hop]
    decide +kernel

theorem body_sampleCommit : bodyFixedLen + (utf8 "alice").length
    + (encodeTx sampleChanges (some sampleKey)).length < 2 ^ 32 := by decide +kernel

/-- The first keyed commit of a new store. -/
theorem reopen_after_commit_first :
    parseTx (encodeTx sampleChanges (some sampleKey)) = .ok (some ⟨sampleChanges, some sampleKey⟩) ∧
      ReopensTo Prims.toy sampleCommit.1.1 sampleCommit.1.2 := by
  have hfree : CollisionFree Prims.toy sampleCommit.1.2.oplog.ops := by
    rw [sampleCommit_ops]
    exact collisionFree_sampleOp
  have hcount : sampleCommit.1.2.oplog.ops.length < 2 ^ 32 := by
    rw [sampleCommit_ops]
    decide
  have hacc : RefStore.commitIdempotent Prims.toy sampleState.disk sampleHandle "alice" 1
      sampleChanges (some sampleKey) none true
      = ((sampleCommit.1.1, sampleCommit.1.2), .ok sampleOp.id) := sampleCommit_eq
  have hh : sampleState.handles 0 = some sampleHandle := rfl
  have h := reopen_after_commit reachable_sampleState hh fits_sampleChanges body_sampleCommit hacc
    hfree hcount
  exact ⟨h.1, h.2.1⟩

/-- The same commit, a snapshot, and a second handle: the states of the two handles. -/
def sampleHandles : Option (RefStore × RefStore) := do
  let s ← (stores Prims.toy).run (stores Prims.toy).init
    [.openStore 0, .commit 0 "alice" 1 sampleChanges (some sampleKey) none true, .snapshot 0,
      .openStore 1]
  let h ← s.handles 0
  let h' ← s.handles 1
  return (h, h')

/-- A ref name of 65536 letters. -/
def longName : String := String.ofList (List.replicate 65536 'a')

theorem length_longName : (utf8 longName).length = 65536 := length_utf8_replicate 65536

/-- The handle opened on the snapshot does not know the key the accepting handle holds; and
    a transaction with a name of 65536 bytes does not parse back. -/
theorem reopen_after_commit_fails :
    (∃ h h', sampleHandles = some (h, h') ∧ h'.refs = h.refs ∧ h.byKey ≠ h'.byKey) ∧
    parseTx (encodeTx [⟨longName, none, none⟩] none)
      ≠ .ok (some ⟨[⟨longName, none, none⟩], none⟩) := by
  constructor
  · have hsome : sampleHandles.isSome = true := by decide +kernel
    obtain ⟨⟨h, h'⟩, hrun⟩ := Option.isSome_iff_exists.mp hsome
    have hrefs : sampleHandles.map (fun p => decide (p.1.refs.toList = p.2.refs.toList))
        = some true := by decide +kernel
    have hkeys : sampleHandles.map (fun p => (p.1.byKey sampleKey, p.2.byKey sampleKey))
        = some (some sampleOp.id, none) := by decide +kernel
    rw [hrun] at hrefs hkeys
    simp only [Option.map_some, Option.some.injEq, Prod.mk.injEq, decide_eq_true_eq] at hrefs hkeys
    refine ⟨h, h', hrun, ?_, fun heq => ?_⟩
    · exact (Std.ExtTreeMap.ext_toList (List.Perm.of_eq hrefs)).symm
    · rw [heq, hkeys.2] at hkeys
      cases hkeys.1
  · intro h
    have hfits := parseTx_fits h ⟨longName, none, none⟩ List.mem_cons_self
    have hname : (utf8 longName).length < 2 ^ 16 := hfits.name
    rw [length_longName] at hname
    omega

end Alt.Refs
