import Alt.OpLog.Log
import Alt.Refs.Snapshot

namespace Alt.Refs

open Alt.Library

/-!
# The ref store (`alt-refs/src/lib.rs`)

Ref state as a deterministic function of the op log.  A `RefStore` is one handle's memory;
its operations act on the directory (`Disk`: the log file and the snapshot file) and the
handle.  Whether the log's fsync succeeds is a parameter of the writing operations.
-/

/-- The idempotency index: a client key and the op that applied it. -/
abbrev ByKey := IdemKey → Option OpId

/-- The files of one store. -/
structure Disk where
  log : Bytes
  snapshot : Option Bytes

/-- A commit's capability gate. -/
structure RefPolicy where
  readOnly : Bool
  isBranchAllowed : Option (String → Bool)
  stateCheck : Option (RefMap → List RefChange → Except String Unit)

def RefPolicy.check (p : RefPolicy) (refs : RefMap) (changes : List RefChange) :
    Except RefError Unit :=
  if p.readOnly && !changes.isEmpty then
    .error (.capabilityDenied "<read-only>: principal cannot write any ref")
  else
    match p.isBranchAllowed.bind fun allow => changes.find? fun c => !allow c.name with
    | some c => .error (.capabilityDenied (c.name ++ ": principal cannot write this ref"))
    | none =>
      match p.stateCheck with
      | none => .ok ()
      | some f => (f refs changes).mapError .rejected

/-- No policy gates nothing. -/
def policyVerdict (policy : Option RefPolicy) (refs : RefMap) (changes : List RefChange) :
    Except RefError Unit :=
  match policy with
  | none => .ok ()
  | some p => p.check refs changes

/-- How many symbolic hops `resolve` follows. -/
def maxSymrefDepth : Nat := 5

/-- Write a snapshot every this many ops. -/
def snapshotEvery : Nat := 1024

/-! ### Folding ops into the ref map -/

def applyChange (refs : RefMap) (change : RefChange) : RefMap :=
  match change.new with
  | some target => refs.insert change.name target
  | none => refs.erase change.name

/-- Applies changes to a map, enforcing every expected-old value first. -/
def applyChanges (refs : RefMap) (changes : List RefChange) (replaying : Bool) :
    Except RefError RefMap :=
  match changes.find? fun c => refs[c.name]? ≠ c.old with
  | some c =>
    .error (if replaying then .format "ref state diverged during replay" else .conflict c.name)
  | none => .ok (changes.foldl applyChange refs)

def insertKey (byKey : ByKey) (key : Option IdemKey) (id : OpId) : ByKey :=
  match key with
  | some k => Function.update byKey k (some id)
  | none => byKey

/-- Folds ops one by one: ref transactions only.  An error leaves what was folded before it. -/
def foldOps (s : RefMap × ByKey) : List Op → (RefMap × ByKey) × Except RefError Unit
  | [] => (s, .ok ())
  | op :: ops =>
    match parseTx op.payload with
    | .error e => (s, .error e)
    | .ok none => foldOps s ops
    | .ok (some tx) =>
      match applyChanges s.1 tx.changes true with
      | .error e => (s, .error e)
      | .ok refs => foldOps (refs, insertKey s.2 tx.key op.id) ops

/-- What a handle has folded so far, and how many ops that covers. -/
structure Folded where
  refs : RefMap
  applied : Nat
  byKey : ByKey

/-- Folds the ops not applied yet. -/
def foldNew (st : Folded) (ops : List Op) : Folded × Except RefError Unit :=
  match foldOps (st.refs, st.byKey) (ops.drop st.applied) with
  | ((refs, byKey), .error e) => (⟨refs, st.applied, byKey⟩, .error e)
  | ((refs, byKey), .ok ()) => (⟨refs, ops.length, byKey⟩, .ok ())

/-! ### The store -/

/-- One handle's memory. -/
structure RefStore extends Folded where
  oplog : OpLog
  opsSinceSnapshot : Nat

namespace RefStore

variable (P : Prims)

/-- Where replay starts: at the snapshot, if its op is still in the log. -/
def replayBase (snapshot : Option Bytes) (oplog : OpLog) : RefMap × Nat :=
  match Snapshot.read P snapshot with
  | some (atOp, refs) =>
    match OpLog.indexOf oplog atOp with
    | some index => (refs, index + 1)
    | none => (∅, 0)
  | none => (∅, 0)

/-- Opens the store, replaying and re-verifying what lies past the snapshot. -/
def openStore (disk : Disk) : Disk × Except RefError RefStore :=
  match OpLog.openLog P disk.log with
  | .error e => (disk, .error (.opLog e))
  | .ok (log, oplog) =>
    let disk := { disk with log }
    let (refs, replayFrom) := replayBase P disk.snapshot oplog
    match foldOps (refs, fun _ => none) (oplog.ops.drop replayFrom) with
    | (_, .error e) => (disk, .error e)
    | ((refs, byKey), .ok ()) =>
      (disk, .ok
        { refs
          applied := oplog.ops.length
          byKey
          oplog
          opsSinceSnapshot := oplog.ops.length - replayFrom })

/-- Writes the snapshot now. -/
def snapshot (disk : Disk) (store : RefStore) : Disk × RefStore :=
  match OpLog.head store.oplog with
  | none => (disk, store)
  | some head =>
    ({ disk with snapshot := some (Snapshot.write P head store.refs) },
      { store with opsSinceSnapshot := 0 })

def noteOp (disk : Disk) (store : RefStore) : Disk × RefStore :=
  let store := { store with opsSinceSnapshot := store.opsSinceSnapshot + 1 }
  if snapshotEvery ≤ store.opsSinceSnapshot then snapshot P disk store else (disk, store)

/-- What `commit_idempotent` runs under the append lock: fold, gate, validate, encode. -/
def buildTx (changes : List RefChange) (key : Option IdemKey) (policy : Option RefPolicy)
    (st : Folded) (ops : List Op) : Folded × Except RefError Bytes :=
  match foldNew st ops with
  | (st, .error e) => (st, .error e)
  | (st, .ok ()) =>
    match policyVerdict policy st.refs changes with
    | .error e => (st, .error e)
    | .ok () =>
      match applyChanges st.refs changes false with
      | .error e => (st, .error e)
      | .ok _ => (st, .ok (encodeTx changes key))

/-- One atomic transaction, stamped with an idempotency key. -/
def commitIdempotent (disk : Disk) (store : RefStore) (actor : String) (timestampMs : UInt64)
    (changes : List RefChange) (key : Option IdemKey) (policy : Option RefPolicy)
    (synced : Bool) : (Disk × RefStore) × Except RefError OpId :=
  match OpLog.appendChecked P .opLog disk.log store.oplog actor timestampMs store.toFolded
      (buildTx changes key policy) with
  | (((log, oplog), st), .error e) =>
    (({ disk with log }, { store with toFolded := st, oplog }), .error e)
  | (((log, oplog), st), .ok id) =>
    let disk := { disk with log }
    let store := { store with toFolded := st, oplog }
    if !synced then ((disk, store), .error (.opLog .io))
    else
      match applyChanges st.refs changes false with
      | .error e => ((disk, store), .error e)
      | .ok refs =>
        (noteOp P disk
          { store with
            refs
            applied := oplog.ops.length
            byKey := insertKey st.byKey key id }, .ok id)

/-- A transaction without a key or a policy. -/
def commit (disk : Disk) (store : RefStore) (actor : String) (timestampMs : UInt64)
    (changes : List RefChange) (synced : Bool) : (Disk × RefStore) × Except RefError OpId :=
  commitIdempotent P disk store actor timestampMs changes none none synced

/-- The op that applied a write carrying `key`. -/
def appliedRequest (store : RefStore) (key : IdemKey) : Option OpId := store.byKey key

def buildRecorded (payload : Bytes) (st : Folded) (ops : List Op) :
    Folded × Except RefError Bytes :=
  match foldNew st ops with
  | (st, .error e) => (st, .error e)
  | (st, .ok ()) => (st, .ok payload)

/-- Records a non-ref op in the shared log. -/
def recordOp (disk : Disk) (store : RefStore) (actor : String) (timestampMs : UInt64)
    (payload : Bytes) (synced : Bool) : (Disk × RefStore) × Except RefError OpId :=
  if payload.head? = some payloadRefTx then
    ((disk, store), .error (.reservedPayload payloadRefTx))
  else
    match OpLog.appendChecked P .opLog disk.log store.oplog actor timestampMs store.toFolded
        (buildRecorded payload) with
    | (((log, oplog), st), .error e) =>
      (({ disk with log }, { store with toFolded := st, oplog }), .error e)
    | (((log, oplog), st), .ok id) =>
      let disk := { disk with log }
      let store := { store with toFolded := st, oplog }
      if !synced then ((disk, store), .error (.opLog .io))
      else (noteOp P disk { store with applied := oplog.ops.length }, .ok id)

/-- Read-path catch-up. -/
def refresh (disk : Disk) (store : RefStore) : (Disk × RefStore) × Except RefError Unit :=
  match OpLog.refresh P disk.log store.oplog with
  | ((log, oplog), .error e) => (({ disk with log }, { store with oplog }), .error (.opLog e))
  | ((log, oplog), .ok ()) =>
    match foldNew store.toFolded oplog.ops with
    | (st, r) => (({ disk with log }, { store with toFolded := st, oplog }), r)

end RefStore

end Alt.Refs
