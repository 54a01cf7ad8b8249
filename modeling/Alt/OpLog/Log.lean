import Alt.Library.File
import Alt.OpLog.Record

namespace Alt

open Alt.Library List

/-!
# The op log (`alt-oplog/src/lib.rs`)

`OpLog` is a handle's memory: the ops it has replayed, their index by id, and the offset
behind the last of them.  The operations act on the log file's bytes and a handle:

* `openLog` — `scan` the file, and repair a torn tail or a missing header;
* `catchUp` — replay what other writers appended past the handle's offset;
* `writeRecord` — append one record onto the handle's head;
* `appendChecked` — catch up, let the caller build a payload against the current ops, write.

`Holds P file ops` — the file is the header and the records of a chain — is what all of
them keep, and `OpLog.ofOps` is the handle that has read such a file.
-/

namespace OpLog

/-- Magic `ALTL`, version 1. -/
def fileHeader : FileHeader OpLogError where
  magic := [0x41, 0x4c, 0x54, 0x4c]
  version := 1
  badHeader := .format "bad oplog header"
  badVersion := .format "unsupported oplog version"

/-- Positions in the index are `u32`. -/
def slot (n : Nat) : Nat := n % 2 ^ 32

/-- The index of ops by id. -/
abbrev ById := OpId → Option Nat

/-- Record one op: its position in the index, then the op. -/
def pushOp (s : List Op × ById) (op : Op) : List Op × ById :=
  (s.1 ++ [op], Function.update s.2 op.id (some (slot s.1.length)))

def pushOps (s : List Op × ById) (ops : List Op) : List Op × ById := ops.foldl pushOp s

end OpLog

/-- What a handle keeps in memory. -/
structure OpLog where
  ops : List Op
  byId : OpLog.ById
  lenBytes : Nat

/-- One pass over the whole log file. -/
structure Scan where
  ops : List Op
  byId : OpLog.ById
  validLen : Nat
  fileLen : Nat

namespace OpLog

variable (P : Prims)

/-- Walks the records of `data`, pushing each op; the offset just past the last of them, or
    the error that ended the walk. -/
def replayRecords (data : Bytes) (prevHead : OpId) (s : List Op × ById) :
    (List Op × ById) × Except OpLogError Nat :=
  let found := (framing P).walk prevHead data
  (pushOps s found.records,
    match found.error with
    | some e => .error e
    | none => .ok found.valid)

/-- Verifies and replays a copy of the file. -/
def scan (data : Bytes) : Except OpLogError Scan :=
  match fileHeader.checkHeader data with
  | .error e => .error e
  | .ok () =>
    let start := min fileHeader.headerLen data.length
    match replayRecords P (data.drop start) OpId.root ([], fun _ => none) with
    | (_, .error e) => .error e
    | ((ops, byId), .ok valid) => .ok ⟨ops, byId, start + valid, data.length⟩

/-- A new log without its header yet, or a torn tail to cut. -/
def needsRepair (s : Scan) : Bool :=
  decide (s.validLen < fileHeader.headerLen) || decide (s.validLen < s.fileLen)

/-- Rescans and repairs, under the exclusive lock. -/
def scanAndRepair (file : Bytes) : Except OpLogError (Bytes × Scan) :=
  match scan P file with
  | .error e => .error e
  | .ok s =>
    if s.validLen < fileHeader.headerLen then
      .ok (fileHeader.header,
        { s with validLen := fileHeader.headerLen, fileLen := fileHeader.headerLen })
    else if s.validLen < s.fileLen then
      .ok (setLen file s.validLen, { s with fileLen := s.validLen })
    else .ok (file, { s with fileLen := s.validLen })

def ofScan (s : Scan) : OpLog := ⟨s.ops, s.byId, s.validLen⟩

/-- Opens the log whose file holds `file` (created empty if missing). -/
def openLog (file : Bytes) : Except OpLogError (Bytes × OpLog) :=
  match scan P file with
  | .error e => .error e
  | .ok s =>
    if needsRepair s then
      match scanAndRepair P file with
      | .error e => .error e
      | .ok (file, s) => .ok (file, ofScan s)
    else .ok (file, ofScan s)

/-- The latest op. -/
def head (log : OpLog) : Option OpId := log.ops.getLast?.map Op.id

def get (log : OpLog) (id : OpId) : Option Op := (log.byId id).bind fun at_ => log.ops[at_]?

/-- Position of an op in chain order. -/
def indexOf (log : OpLog) (id : OpId) : Option Nat := log.byId id

/-- Replays what was appended past the handle's offset; a torn tail is cut. -/
def catchUp (file : Bytes) (log : OpLog) : (Bytes × OpLog) × Except OpLogError Unit :=
  if file.length ≤ log.lenBytes then ((file, log), .ok ())
  else
    let tail := file.drop log.lenBytes
    match replayRecords P tail ((head log).getD OpId.root) (log.ops, log.byId) with
    | ((ops, byId), .error e) => ((file, { log with ops, byId }), .error e)
    | ((ops, byId), .ok valid) =>
      let newLen := log.lenBytes + valid
      ((if valid < tail.length then setLen file newLen else file, ⟨ops, byId, newLen⟩), .ok ())

/-- Appends one record onto the current head; the caller has caught up. -/
def writeRecord (file : Bytes) (log : OpLog) (actor : String) (timestampMs : UInt64)
    (payload : Bytes) : (Bytes × OpLog) × OpId :=
  let parent := (head log).getD OpId.root
  let body := encodeBody parent timestampMs actor payload
  let op : Op := ⟨P.blake3 body, parent, .fill 32 0, timestampMs, actor, payload⟩
  let pushed := pushOp (log.ops, log.byId) op
  ((writeAt file log.lenBytes (record P body),
    ⟨pushed.1, pushed.2, log.lenBytes + (record P body).length⟩), op.id)

/-- Catch up, build the payload against every op there is now, append.  `build` works on a
    state of the caller's and may refuse with nothing written. -/
def appendChecked {σ ε : Type} (ofLog : OpLogError → ε) (file : Bytes) (log : OpLog)
    (actor : String) (timestampMs : UInt64) (st : σ)
    (build : σ → List Op → σ × Except ε Bytes) : ((Bytes × OpLog) × σ) × Except ε OpId :=
  if 2 ^ 16 ≤ (utf8 actor).length then
    (((file, log), st), .error (ofLog (.tooLarge (utf8 actor).length)))
  else
    match catchUp P file log with
    | ((file, log), .error e) => (((file, log), st), .error (ofLog e))
    | ((file, log), .ok ()) =>
      match build st log.ops with
      | (st, .error e) => (((file, log), st), .error e)
      | (st, .ok payload) =>
        if 2 ^ 32 ≤ payload.length then
          (((file, log), st), .error (ofLog (.tooLarge payload.length)))
        else
          let (written, id) := writeRecord P file log actor timestampMs payload
          ((written, st), .ok id)

/-- Appends one op with a given payload. -/
def append (file : Bytes) (log : OpLog) (actor : String) (timestampMs : UInt64)
    (payload : Bytes) : (Bytes × OpLog) × Except OpLogError OpId :=
  if 2 ^ 16 ≤ (utf8 actor).length then ((file, log), .error (.tooLarge (utf8 actor).length))
  else if 2 ^ 32 ≤ payload.length then ((file, log), .error (.tooLarge payload.length))
  else
    match catchUp P file log with
    | ((file, log), .error e) => ((file, log), .error e)
    | ((file, log), .ok ()) =>
      let (written, id) := writeRecord P file log actor timestampMs payload
      (written, .ok id)

/-- Read-path catch-up. -/
def refresh (file : Bytes) (log : OpLog) : (Bytes × OpLog) × Except OpLogError Unit :=
  catchUp P file log

/-! ### Files that hold a chain, and the handles that have read them -/

/-- The file is the header and the records of a chain. -/
def Holds (file : Bytes) (ops : List Op) : Prop :=
  file = fileHeader.header ++ records P ops ∧ Linked P OpId.root ops

/-- The handle that has read exactly `ops`. -/
def ofOps (ops : List Op) : OpLog :=
  ⟨ops, (pushOps ([], fun _ => none) ops).2, (fileHeader.header ++ records P ops).length⟩

variable {P}

@[simp] theorem pushOps_fst (s : List Op × ById) (ops : List Op) :
    (pushOps s ops).1 = s.1 ++ ops := by
  induction ops generalizing s with
  | nil => simp [pushOps]
  | cons op ops ih =>
    have hstep : pushOps s (op :: ops) = pushOps (pushOp s op) ops := rfl
    rw [hstep, ih, pushOp, append_assoc]
    rfl

theorem pushOps_append (s : List Op × ById) (ops ops' : List Op) :
    pushOps s (ops ++ ops') = pushOps (pushOps s ops) ops' := by
  simp [pushOps]

theorem pushOps_ofOps (ops ops' : List Op) :
    pushOps ((ofOps P ops).ops, (ofOps P ops).byId) ops'
      = ((ofOps P (ops ++ ops')).ops, (ofOps P (ops ++ ops')).byId) := by
  have hpair : ((ofOps P ops).ops, (ofOps P ops).byId) = pushOps ([], fun _ => none) ops := by
    rw [← Prod.mk.eta (p := pushOps ([], fun _ => none) ops), pushOps_fst]
    rfl
  rw [hpair, ← pushOps_append, ← Prod.mk.eta (p := pushOps ([], fun _ => none) (ops ++ ops')),
    pushOps_fst]
  rfl

variable {file : Bytes} {ops : List Op}

theorem Holds.length (h : Holds P file ops) :
    file.length = (ofOps P ops).lenBytes := by
  rw [h.1]
  rfl

@[simp] theorem head_ofOps (ops : List Op) :
    (head (ofOps P ops)).getD OpId.root = headFrom OpId.root ops := rfl

variable {torn : Bytes}

/-- Replaying a chain's records pushes its ops and ends behind them. -/
theorem replayRecords_reads {prevHead : OpId} (h : Linked P prevHead ops)
    (ht : nextRecord P (headFrom prevHead ops) torn = .stop) (s : List Op × ById) :
    replayRecords P (records P ops ++ torn) prevHead s
      = (pushOps s ops, .ok (records P ops).length) := by
  have hreads : (framing P).Reads prevHead (records P ops) ops (headFrom prevHead ops) :=
    reads_iff.mpr ⟨rfl, h, rfl⟩
  rw [replayRecords, Framing.walk_reads_stop hreads ht]

theorem nextRecord_nil (s : OpId) : nextRecord P s [] = .stop := rfl

/-- A chain's file with a torn tail scans to the chain. -/
theorem scan_holds (h : Holds P file ops)
    (ht : nextRecord P (headFrom OpId.root ops) torn = .stop) :
    scan P (file ++ torn) = .ok ⟨ops, (ofOps P ops).byId, file.length, (file ++ torn).length⟩ := by
  obtain ⟨rfl, hlinked⟩ := h
  have hstart : min fileHeader.headerLen (fileHeader.header ++ records P ops ++ torn).length
      = fileHeader.header.length := by
    simp
  have hdrop : (fileHeader.header ++ records P ops ++ torn).drop fileHeader.header.length
      = records P ops ++ torn := by
    rw [append_assoc, drop_left]
  have hcheck : fileHeader.checkHeader (fileHeader.header ++ records P ops ++ torn) = .ok () := by
    rw [append_assoc]
    exact FileHeader.checkHeader_header _
  have hops : pushOps ([], fun _ => none) ops = (ops, (ofOps P ops).byId) := by
    rw [← Prod.mk.eta (p := pushOps ([], fun _ => none) ops), pushOps_fst]
    rfl
  simp only [scan, hcheck, hstart, hdrop, replayRecords_reads hlinked ht, hops,
    ← length_append]

/-- **Opening.** A chain's file, with or without a torn tail behind it, opens to the handle
    that has read the chain, with the tail cut. -/
theorem openLog_holds (h : Holds P file ops)
    (ht : nextRecord P (headFrom OpId.root ops) torn = .stop) :
    openLog P (file ++ torn) = .ok (file, ofOps P ops) := by
  have hscan := scan_holds h ht
  have hlong : ¬ file.length < fileHeader.headerLen := by
    rw [h.1, length_append, FileHeader.length_header]; omega
  have hof : ∀ n, ofScan ⟨ops, (ofOps P ops).byId, file.length, n⟩ = ofOps P ops := by
    intro n
    rw [ofScan, h.length]
    rfl
  rw [openLog, hscan]
  simp only [needsRepair, hlong, decide_false, Bool.false_or]
  split
  · rename_i hshort
    rw [decide_eq_true_eq] at hshort
    simp only [scanAndRepair, hscan, hlong, ↓reduceIte, hshort, setLen_append, hof]
  · rename_i hshort
    have htorn : torn = [] := by
      rw [decide_eq_true_eq, length_append] at hshort
      exact length_eq_zero_iff.mp (by omega)
    rw [htorn, append_nil, hof]

/-- **Catching up.** A handle that has read a front of the chain has then read all of it. -/
theorem catchUp_holds {front more : List Op} (h : Holds P file (front ++ more)) :
    catchUp P file (ofOps P front) = ((file, ofOps P (front ++ more)), .ok ()) := by
  have hfile : file = fileHeader.header ++ records P front ++ records P more := by
    rw [h.1, records_append, append_assoc]
  have hlen := h.length
  rw [catchUp]
  split
  · rename_i hsize
    have hmore : records P more = [] := by
      rw [hfile, length_append] at hsize
      have : (records P more).length = 0 := by
        have : (ofOps P front).lenBytes = (fileHeader.header ++ records P front).length := rfl
        omega
      exact length_eq_zero_iff.mp this
    cases more with
    | nil => rw [append_nil]
    | cons op more =>
      have := congrArg List.length hmore
      rw [records_cons, length_append, length_record, length_nil] at this
      omega
  · have hdrop : file.drop (ofOps P front).lenBytes = records P more := by
      rw [hfile]
      exact drop_left
    have hreplay := replayRecords_reads h.2.right (nextRecord_nil _)
      ((ofOps P front).ops, (ofOps P front).byId)
    rw [append_nil, pushOps_ofOps] at hreplay
    have hend : (ofOps P front).lenBytes + (records P more).length
        = (ofOps P (front ++ more)).lenBytes := by
      rw [← hlen, hfile]
      exact length_append.symm
    simp only [hdrop, head_ofOps, hreplay, Nat.lt_irrefl, ↓reduceIte, hend]

/-- The op a write appends. -/
def newOp (P : Prims) (ops : List Op) (actor : String) (timestampMs : UInt64)
    (payload : Bytes) : Op :=
  ⟨P.blake3 (encodeBody (headFrom OpId.root ops) timestampMs actor payload),
    headFrom OpId.root ops, .fill 32 0, timestampMs, actor, payload⟩

/-- **Writing.** A record whose lengths fit extends the chain by its op. -/
theorem writeRecord_holds (h : Holds P file ops) {actor : String} {timestampMs : UInt64}
    {payload : Bytes} (hfit : BodyFits actor payload)
    (hlen : (newOp P ops actor timestampMs payload).body.length < 2 ^ 32) :
    ∃ file', Holds P file' (ops ++ [newOp P ops actor timestampMs payload]) ∧
      writeRecord P file (ofOps P ops) actor timestampMs payload
        = ((file', ofOps P (ops ++ [newOp P ops actor timestampMs payload])),
          (newOp P ops actor timestampMs payload).id) := by
  have hrec : records P [newOp P ops actor timestampMs payload]
      = record P (encodeBody (headFrom OpId.root ops) timestampMs actor payload) := by
    rw [records_cons, records_nil, append_nil]
    rfl
  have hfile : writeAt file (ofOps P ops).lenBytes
        (record P (encodeBody (headFrom OpId.root ops) timestampMs actor payload))
      = fileHeader.header ++ records P (ops ++ [newOp P ops actor timestampMs payload]) := by
    rw [writeAt_end _ h.length.symm, h.1, records_append, hrec, append_assoc]
  have hlinked : Linked P OpId.root (ops ++ [newOp P ops actor timestampMs payload]) :=
    h.2.append ⟨rfl, rfl, hfit, hlen, trivial⟩
  have hpush := pushOps_ofOps (P := P) ops [newOp P ops actor timestampMs payload]
  have hend : (ofOps P ops).lenBytes
        + (record P (encodeBody (headFrom OpId.root ops) timestampMs actor payload)).length
      = (ofOps P (ops ++ [newOp P ops actor timestampMs payload])).lenBytes := by
    rw [ofOps, ofOps, records_append, hrec]
    simp only [length_append, Nat.add_assoc]
  refine ⟨_, ⟨rfl, hlinked⟩, ?_⟩
  rw [← hfile]
  simp only [writeRecord, head_ofOps, hend]
  rw [pushOps, foldl_cons, foldl_nil] at hpush
  rw [show (⟨P.blake3 (encodeBody (headFrom OpId.root ops) timestampMs actor payload),
    headFrom OpId.root ops, .fill 32 0, timestampMs, actor, payload⟩ : Op)
      = newOp P ops actor timestampMs payload from rfl, hpush]
  rfl

/-- How an append can end: refused outright, refused after catching up (with the caller's
    state as `build` left it), or written. -/
inductive Appended {σ ε : Type} (P : Prims) (file : Bytes) (front more : List Op)
    (actor : String) (timestampMs : UInt64) (st : σ) (build : σ → List Op → σ × Except ε Bytes) :
    ((Bytes × OpLog) × σ) × Except ε OpId → Prop
  | refused (e : ε) : Appended P file front more actor timestampMs st build
      (((file, ofOps P front), st), .error e)
  | rejected (e : ε) : Appended P file front more actor timestampMs st build
      (((file, ofOps P (front ++ more)), (build st (front ++ more)).1), .error e)
  | written {payload file' : Bytes} : (build st (front ++ more)).2 = .ok payload →
      Holds P file' (front ++ more ++ [newOp P (front ++ more) actor timestampMs payload]) →
      Appended P file front more actor timestampMs st build
        (((file', ofOps P (front ++ more ++ [newOp P (front ++ more) actor timestampMs payload])),
          (build st (front ++ more)).1),
          .ok (newOp P (front ++ more) actor timestampMs payload).id)

/-- **Appending.** A handle that has read a front of the chain; bodies stay below 4 GiB. -/
theorem appendChecked_appended {σ ε : Type} {ofLog : OpLogError → ε} {front more : List Op}
    (h : Holds P file (front ++ more)) {actor : String} {timestampMs : UInt64} {st : σ}
    {build : σ → List Op → σ × Except ε Bytes}
    (hbody : ∀ payload, (build st (front ++ more)).2 = .ok payload → bodyFixedLen + (utf8 actor).length + payload.length < 2 ^ 32) :
    Appended P file front more actor timestampMs st build
      (appendChecked P ofLog file (ofOps P front) actor timestampMs st build) := by
  rw [appendChecked]
  split
  · exact .refused _
  · rename_i hactor
    have hops : (ofOps P (front ++ more)).ops = front ++ more := rfl
    simp only [catchUp_holds h, hops]
    split
    · rename_i st' e hbuild
      have hst : st' = (build st (front ++ more)).1 := by rw [hbuild]
      rw [hst]
      exact .rejected e
    · rename_i st' payload hbuild
      have hst : st' = (build st (front ++ more)).1 := by rw [hbuild]
      have hpayload : (build st (front ++ more)).2 = .ok payload := by rw [hbuild]
      rw [hst]
      split
      · exact .rejected _
      · rename_i hlen
        have hfit : BodyFits actor payload := ⟨by omega, by omega⟩
        have hsize : (newOp P (front ++ more) actor timestampMs payload).body.length
            < 2 ^ 32 := by
          rw [Op.body, length_bodyBytes]
          exact hbody payload hpayload
        obtain ⟨file', hholds, hwrite⟩ := writeRecord_holds h hfit hsize
        rw [hwrite]
        exact .written hpayload hholds

end OpLog

end Alt
