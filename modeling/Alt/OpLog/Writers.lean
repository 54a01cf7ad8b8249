import Alt.Library.System
import Alt.OpLog.Chain
import Alt.OpLog.Requests

namespace Alt

open Alt.Library List

namespace OpLog

/-!
# Any number of handles on one op log

`logs P` is the system of handles on one log file, their steps in any order.  The append
lock is a field: while a writer stands in the middle of its write, only `sync` and the
death of a handle go on.  A writer may fail or die with any part of its record written.

* `LogHolds` — the file is a chain with a torn record behind it, every handle has read a
  front of the chain, and every acknowledged append is in it;
* `logs_one_chain` — in every run whose bodies fit their length field, the file parses to
  one chain that holds every acknowledged append exactly once.

The guard is what `append` forgets: it bounds actor and payload, and then cuts the length
of the body they make to 32 bits.
-/

/-! ### The system -/

/-- An append that returned: what was asked for, and the id it got. -/
structure Ack where
  id : OpId
  actor : String
  timestampMs : UInt64
  payload : Bytes
  deriving DecidableEq

def Ack.of (op : Op) : Ack := ⟨op.id, op.actor, op.timestampMs, op.payload⟩

/-- A writer in the middle of its write: what the file, its memory and the acknowledgement
    will be when the write is through. -/
structure HalfAppend where
  who : Nat
  file : Bytes
  log : OpLog
  ack : Ack

/-- The log file, the handles open on it, the writer that holds the append lock in the
    middle of its write, every acknowledgement so far, and those of each open handle. -/
structure LogState where
  file : Bytes
  handles : Nat → Option OpLog
  writer : Option HalfAppend
  acked : List Ack
  mine : Nat → List Ack

inductive LogAction
  /-- Read under the shared lock; a log to repair is left to `openRepair`. -/
  | openShared (i : Nat)
  /-- Rescan and repair under the exclusive lock. -/
  | openRepair (i : Nat)
  /-- An opener dies after `n` bytes of a new log's header. -/
  | openDies (n : Nat)
  | append (i : Nat) (actor : String) (timestampMs : UInt64) (req : Request)
  /-- The first part of an append, up to `n` bytes of file. -/
  | appendHalf (i : Nat) (actor : String) (timestampMs : UInt64) (req : Request) (n : Nat)
  | appendRest
  /-- The write returned an error. -/
  | appendFails
  | refresh (i : Nat)
  /-- An fsync and the marker file: the log file's bytes stay as they are. -/
  | sync (i : Nat)
  /-- The handle is closed, or its process dies. -/
  | drop (i : Nat)

variable (P : Prims)

/-- The acknowledgement of a request that was given `id`. -/
def ackOf (file : Bytes) (h : OpLog) (actor : String) (timestampMs : UInt64) (req : Request)
    (id : OpId) : Ack :=
  ⟨id, actor, timestampMs, (req.payload (catchUp P file h).1.2.ops).toOption.getD []⟩

/-- Handle `i` leaves the file and itself like this, with these acknowledgements. -/
def LogState.withHandle (s : LogState) (i : Nat) (r : Bytes × OpLog) (mine : List Ack) :
    LogState :=
  { s with
    file := r.1
    handles := Function.update s.handles i (some r.2)
    mine := Function.update s.mine i mine }

def logStep (s : LogState) : LogAction → Option LogState
  | .openShared i =>
    if s.writer.isSome then none
    else
      match scan P s.file with
      | .error _ => some s
      | .ok found => some (if needsRepair found then s else s.withHandle i (s.file, ofScan found) [])
  | .openRepair i =>
    if s.writer.isSome then none
    else
      match scanAndRepair P s.file with
      | .error _ => some s
      | .ok (file, found) => some (s.withHandle i (file, ofScan found) [])
  | .openDies n =>
    if s.writer.isSome then none
    else
      match scan P s.file with
      | .error _ => some s
      | .ok found =>
        if found.validLen < fileHeader.headerLen then
          some { s with file := fileHeader.header.take n }
        else some s
  | .append i actor timestampMs req =>
    if s.writer.isSome then none
    else
      (s.handles i).map fun h =>
        match req.run P s.file h actor timestampMs with
        | (r, .error _) => s.withHandle i r (s.mine i)
        | (r, .ok id) =>
          let ack := ackOf P s.file h actor timestampMs req id
          { s.withHandle i r (s.mine i ++ [ack]) with acked := s.acked ++ [ack] }
  | .appendHalf i actor timestampMs req n =>
    if s.writer.isSome then none
    else
      (s.handles i).bind fun h =>
        match req.run P s.file h actor timestampMs with
        | (_, .error _) => none
        | ((file, log), .ok id) =>
          let caught := (catchUp P s.file h).1
          if caught.1.length ≤ n then
            some { s.withHandle i (file.take n, caught.2) (s.mine i) with
              writer := some ⟨i, file, log, ackOf P s.file h actor timestampMs req id⟩ }
          else none
  | .appendRest =>
    s.writer.map fun w =>
      { s.withHandle w.who (w.file, w.log) (s.mine w.who ++ [w.ack]) with
        writer := none
        acked := s.acked ++ [w.ack] }
  | .appendFails => s.writer.map fun _ => { s with writer := none }
  | .refresh i =>
    if s.writer.isSome then none
    else (s.handles i).map fun h => s.withHandle i (refresh P s.file h).1 (s.mine i)
  | .sync i => (s.handles i).map fun _ => s
  | .drop i =>
    some { s with
      handles := Function.update s.handles i none
      writer := s.writer.filter fun w => w.who ≠ i }

/-- Handles on one log, whose file does not exist yet. -/
def logs : System LogState LogAction where
  init := ⟨[], fun _ => none, none, [], fun _ => []⟩
  step := logStep P

/-- The ops the file parses to. -/
def chainOf (file : Bytes) : List Op :=
  match openLog P file with
  | .error _ => []
  | .ok (_, log) => log.ops

/-- What the record's length field takes on trust. -/
def BodiesFit (s : LogState) : LogAction → Prop
  | .append _ actor _ req => req.Fits actor (chainOf P s.file)
  | .appendHalf _ actor _ req _ => req.Fits actor (chainOf P s.file)
  | _ => True

variable {P}

/-! ### The invariant -/

/-- The file is a chain with at most a torn record behind it; every handle has read a front
    of it; a writer in the middle of its write adds one op behind what is acknowledged. -/
structure LogHolds (P : Prims) (s : LogState) (ops : List Op) (torn : Bytes) : Prop where
  file : s.file = fileHeader.header ++ records P ops ++ torn
  linked : Linked P OpId.root ops
  torn : Torn P torn
  handles : ∀ i h, s.handles i = some h → ∃ front, front <+: ops ∧ h = ofOps P front ∧
    s.mine i ⊆ front.map Ack.of
  acked : s.acked.Sublist (ops.map Ack.of)
  writer : ∀ w, s.writer = some w → ∃ done op, Linked P OpId.root (done ++ [op]) ∧
    w.file = fileHeader.header ++ records P (done ++ [op]) ∧ w.log = ofOps P (done ++ [op]) ∧
    w.ack = Ack.of op ∧ ops <+: done ++ [op] ∧ s.acked.Sublist (done.map Ack.of) ∧
    s.file.length ≤ w.file.length ∧ (s.handles w.who).isSome

/-- No header yet: no handle got through opening. -/
structure LogFresh (s : LogState) : Prop where
  file : ∃ n, n < fileHeader.headerLen ∧ s.file = fileHeader.header.take n
  handles : ∀ i, s.handles i = none
  writer : s.writer = none
  acked : s.acked = []

def LogInv (P : Prims) (s : LogState) : Prop :=
  LogFresh s ∨ ∃ ops torn, LogHolds P s ops torn

/-- The invariant after a step, with the chain grown. -/
def LogNext (P : Prims) (s s' : LogState) : Prop :=
  (LogFresh s ∧ LogFresh s') ∨ ∃ ops torn, LogHolds P s' ops torn ∧ chainOf P s.file <+: ops

theorem LogNext.inv {s s' : LogState} (h : LogNext P s s') : LogInv P s' :=
  h.imp And.right fun ⟨ops, torn, hholds, _⟩ => ⟨ops, torn, hholds⟩

namespace LogHolds

variable {s : LogState} {ops : List Op} {torn : Bytes}

theorem holds (h : LogHolds P s ops torn) : Holds P (fileHeader.header ++ records P ops) ops :=
  ⟨rfl, h.linked⟩

theorem openLog (h : LogHolds P s ops torn) :
    openLog P s.file = .ok (fileHeader.header ++ records P ops, ofOps P ops) := by
  rw [h.file]
  exact openLog_holds h.holds (nextRecord_torn h.torn _)

theorem chainOf_eq (h : LogHolds P s ops torn) : chainOf P s.file = ops := by
  rw [chainOf, h.openLog]
  rfl

theorem chain_prefix (h : LogHolds P s ops torn) : chainOf P s.file <+: ops :=
  h.chainOf_eq ▸ prefix_rfl

variable {ops' front : List Op} {mine : List Ack}

/-- A handle takes in what is on disk: the file loses its torn tail or stays, and grows by
    the given ops. -/
theorem withHandle (h : LogHolds P s ops torn) (hw : s.writer = none) (i : Nat) {torn' : Bytes}
    (hops : ops <+: ops') (hlinked : Linked P OpId.root ops') (ht : Torn P torn')
    (hfront : front <+: ops') {acked : List Ack} (hacked : acked.Sublist (ops'.map Ack.of))
    (hmine : mine ⊆ front.map Ack.of) :
    LogHolds P { s.withHandle i (fileHeader.header ++ records P ops' ++ torn', ofOps P front) mine with
      acked := acked } ops' torn' where
  file := rfl
  linked := hlinked
  torn := ht
  handles := by
    intro j hj hget
    by_cases hij : j = i
    · subst hij
      have hsome : some (ofOps P front) = some hj := by
        simpa [LogState.withHandle] using hget
      refine ⟨front, hfront, (Option.some.inj hsome).symm, ?_⟩
      simpa [LogState.withHandle] using hmine
    · have hold : s.handles j = some hj := by
        simpa [LogState.withHandle, Function.update_of_ne hij] using hget
      obtain ⟨front', hpre, hlog, hmine'⟩ := h.handles j hj hold
      refine ⟨front', hpre.trans hops, hlog, ?_⟩
      simpa [LogState.withHandle, Function.update_of_ne hij] using hmine'
  acked := hacked
  writer := by
    intro w hsome
    have : s.writer = some w := hsome
    rw [hw] at this
    cases this

/-- The handle leaves no torn tail. -/
theorem withHandle_whole (h : LogHolds P s ops torn) (hw : s.writer = none) (i : Nat)
    (hops : ops <+: ops') (hlinked : Linked P OpId.root ops') (hfront : front <+: ops')
    {acked : List Ack} (hacked : acked.Sublist (ops'.map Ack.of))
    (hmine : mine ⊆ front.map Ack.of) :
    LogHolds P { s.withHandle i (fileHeader.header ++ records P ops', ofOps P front) mine with
      acked := acked } ops' [] := by
  have hkeep := h.withHandle hw i hops hlinked (torn_nil P) hfront hacked hmine
  rwa [append_nil] at hkeep

/-- What is in a front of the chain is in the chain. -/
theorem mine_extend {more : List Op} (hmine : mine ⊆ front.map Ack.of) :
    mine ⊆ (front ++ more).map Ack.of := by
  rw [map_append]
  exact subset_append_of_subset_left _ hmine

theorem sublist_extend (h : LogHolds P s ops torn) (hops : ops <+: ops') :
    s.acked.Sublist (ops'.map Ack.of) :=
  h.acked.trans (hops.sublist.map _)

end LogHolds

/-! ### Cutting a record short -/

variable {n : Nat}

/-- The file of a chain and the front of one more record. -/
theorem exists_take_record {ops : List Op} {op : Op} (h : Linked P OpId.root (ops ++ [op]))
    (hn : (fileHeader.header ++ records P ops).length ≤ n) :
    ∃ ops' torn, (fileHeader.header ++ records P (ops ++ [op])).take n
        = fileHeader.header ++ records P ops' ++ torn ∧
      ops <+: ops' ∧ ops' <+: ops ++ [op] ∧ Torn P torn := by
  obtain ⟨-, -, -, hbody, -⟩ := h.right
  have hsplit : fileHeader.header ++ records P (ops ++ [op])
      = fileHeader.header ++ records P ops ++ record P op.body := by
    rw [records_append, records_cons, records_nil, append_nil, append_assoc]
  by_cases hfull : (fileHeader.header ++ records P (ops ++ [op])).length ≤ n
  · refine ⟨ops ++ [op], [], ?_, prefix_append _ _, prefix_rfl, torn_nil P⟩
    rw [take_of_length_le hfull, append_nil]
  · refine ⟨ops, (record P op.body).take (n - (fileHeader.header ++ records P ops).length), ?_,
      prefix_rfl, prefix_append _ _, op.body, _, hbody, ?_, rfl⟩
    · rw [hsplit, take_append, take_of_length_le hn]
    · rw [hsplit, length_append] at hfull
      omega

/-! ### What each step keeps -/

variable {s s' : LogState} {ops : List Op} {torn : Bytes}

theorem scan_fresh (hn : n < fileHeader.headerLen) :
    scan P (fileHeader.header.take n) = .ok ⟨[], fun _ => none, n, n⟩ := by
  have hlen : (fileHeader.header.take n).length = n := by
    rw [length_take, FileHeader.length_header]
    omega
  have hcheck : fileHeader.checkHeader (fileHeader.header.take n) = .ok () := by
    unfold FileHeader.checkHeader
    rw [if_pos (by rw [hlen]; exact hn), if_pos]
    exact isPrefixOf_iff_prefix.mpr (List.take_prefix _ _)
  have hdrop : (fileHeader.header.take n).drop n = [] := by
    rw [drop_eq_nil_iff, hlen]
  have hreplay : replayRecords P [] OpId.root ([], fun _ => none)
      = (([], fun _ => none), .ok 0) := rfl
  unfold scan
  rw [hcheck]
  simp only [hlen, Nat.min_eq_right (Nat.le_of_lt hn), hdrop, hreplay, Nat.add_zero]

theorem scanAndRepair_fresh (hn : n < fileHeader.headerLen) :
    scanAndRepair P (fileHeader.header.take n)
      = .ok (fileHeader.header, ⟨[], fun _ => none, fileHeader.headerLen, fileHeader.headerLen⟩) := by
  simp only [scanAndRepair, scan_fresh hn, if_pos hn]

theorem openLog_fresh (hn : n < fileHeader.headerLen) :
    openLog P (fileHeader.header.take n) = .ok (fileHeader.header, ofOps P []) := by
  have hneeds : needsRepair ⟨[], fun _ => none, n, n⟩ = true := by
    simp [needsRepair, hn]
  simp only [openLog, scan_fresh hn, hneeds, if_true, scanAndRepair_fresh hn]
  rfl

theorem LogFresh.chain_prefix (hf : LogFresh s) : chainOf P s.file <+: ops := by
  obtain ⟨n, hn, hfile⟩ := hf.file
  rw [hfile, chainOf, openLog_fresh hn]
  exact nil_prefix

/-- The handle of a repaired new log. -/
theorem LogFresh.repaired (hf : LogFresh s) (i : Nat) :
    LogHolds P (s.withHandle i (fileHeader.header, ofOps P []) []) [] [] where
  file := by simp [LogState.withHandle]
  linked := trivial
  torn := torn_nil P
  handles := by
    intro j hj hget
    by_cases hij : j = i
    · subst hij
      have hsome : some (ofOps P []) = some hj := by
        simpa [LogState.withHandle] using hget
      refine ⟨[], prefix_rfl, (Option.some.inj hsome).symm, ?_⟩
      simp [LogState.withHandle]
    · have hold : s.handles j = some hj := by
        simpa [LogState.withHandle, Function.update_of_ne hij] using hget
      rw [hf.handles j] at hold
      cases hold
  acked := by
    show s.acked.Sublist _
    rw [hf.acked]
    exact nil_sublist _
  writer := by
    intro w hsome
    have : s.writer = some w := hsome
    rw [hf.writer] at this
    cases this

/-- Scanning what a chain's file holds. -/
theorem LogHolds.scan (h : LogHolds P s ops torn) :
    scan P s.file = .ok ⟨ops, (ofOps P ops).byId, (fileHeader.header ++ records P ops).length,
      s.file.length⟩ := by
  rw [h.file]
  exact scan_holds h.holds (nextRecord_torn h.torn _)

theorem headerLen_le (ops : List Op) :
    ¬ (fileHeader.header ++ records P ops).length < fileHeader.headerLen := by
  rw [length_append, FileHeader.length_header]
  omega

theorem LogHolds.scanAndRepair (h : LogHolds P s ops torn) :
    ∃ n, scanAndRepair P s.file = .ok (fileHeader.header ++ records P ops,
      ⟨ops, (ofOps P ops).byId, (fileHeader.header ++ records P ops).length, n⟩) := by
  refine ⟨(fileHeader.header ++ records P ops).length, ?_⟩
  unfold OpLog.scanAndRepair
  rw [h.scan]
  dsimp only
  rw [if_neg (headerLen_le ops)]
  by_cases hcut : (fileHeader.header ++ records P ops).length < s.file.length
  · rw [if_pos hcut, h.file, setLen_append]
  · have hnil : torn = [] := by
      have htotal : s.file.length
          = (fileHeader.header ++ records P ops).length + torn.length := by
        rw [h.file, length_append]
      exact length_eq_zero_iff.mp (by omega)
    rw [if_neg hcut, h.file, hnil, append_nil]

theorem of_idle {o : Option HalfAppend} {x : Option LogState}
    (h : (if o.isSome then none else x) = some s) : o = none ∧ x = some s := by
  cases o with
  | none => exact ⟨rfl, h⟩
  | some w => cases h

variable {i : Nat}

/-- Opening for reading. -/
theorem openShared_inv (hi : LogInv P s) (hstep : logStep P s (.openShared i) = some s') :
    LogNext P s s' := by
  unfold logStep at hstep
  obtain ⟨hw, hstep⟩ := of_idle hstep
  rcases hi with hfresh | ⟨ops, torn, h⟩
  · obtain ⟨n, hn, hfile⟩ := hfresh.file
    have hneeds : needsRepair ⟨[], fun _ => none, n, n⟩ = true := by
      simp [needsRepair, hn]
    rw [hfile, scan_fresh hn] at hstep
    simp only [hneeds] at hstep
    cases hstep
    exact .inl ⟨hfresh, hfresh⟩
  · rw [h.scan] at hstep
    by_cases hneeds : needsRepair ⟨ops, (ofOps P ops).byId,
        (fileHeader.header ++ records P ops).length, s.file.length⟩ = true
    · simp only [hneeds] at hstep
      cases hstep
      exact .inr ⟨ops, torn, h, h.chain_prefix⟩
    · simp only [hneeds] at hstep
      cases hstep
      refine .inr ⟨ops, torn, ?_, h.chain_prefix⟩
      have hkeep := h.withHandle hw i prefix_rfl h.linked h.torn prefix_rfl h.acked
        (nil_subset _)
      rw [← h.file] at hkeep
      exact hkeep

/-- Opening with repair. -/
theorem openRepair_inv (hi : LogInv P s) (hstep : logStep P s (.openRepair i) = some s') :
    LogNext P s s' := by
  unfold logStep at hstep
  obtain ⟨hw, hstep⟩ := of_idle hstep
  rcases hi with hfresh | ⟨ops, torn, h⟩
  · obtain ⟨n, hn, hfile⟩ := hfresh.file
    rw [hfile, scanAndRepair_fresh hn] at hstep
    cases hstep
    exact .inr ⟨[], [], hfresh.repaired i, hfresh.chain_prefix⟩
  · obtain ⟨n, hrepair⟩ := h.scanAndRepair
    rw [hrepair] at hstep
    cases hstep
    exact .inr ⟨ops, [], h.withHandle_whole hw i prefix_rfl h.linked prefix_rfl h.acked
      (nil_subset _),
      h.chain_prefix⟩

theorem openDies_inv (hi : LogInv P s) (hstep : logStep P s (.openDies n) = some s') :
    LogNext P s s' := by
  unfold logStep at hstep
  obtain ⟨hw, hstep⟩ := of_idle hstep
  rcases hi with hfresh | ⟨ops, torn, h⟩
  · obtain ⟨m, hm, hfile⟩ := hfresh.file
    rw [hfile, scan_fresh hm] at hstep
    simp only [if_pos hm] at hstep
    cases hstep
    by_cases hn : n < fileHeader.headerLen
    · exact .inl ⟨hfresh, ⟨n, hn, rfl⟩, hfresh.handles, hfresh.writer, hfresh.acked⟩
    · -- the header got through, its opener did not
      have hall : fileHeader.header.take n = fileHeader.header :=
        take_of_length_le (by rw [FileHeader.length_header]; omega)
      refine .inr ⟨[], [], ?_, hfresh.chain_prefix⟩
      exact
        { file := by simp [hall]
          linked := trivial
          torn := torn_nil P
          handles := fun j hj hget => by
            have : s.handles j = some hj := hget
            rw [hfresh.handles j] at this
            cases this
          acked := by
            show s.acked.Sublist _
            rw [hfresh.acked]
            exact nil_sublist _
          writer := fun w hsome => by
            have : s.writer = some w := hsome
            rw [hfresh.writer] at this
            cases this }
  · rw [h.scan] at hstep
    simp only [if_neg (headerLen_le ops)] at hstep
    cases hstep
    exact .inr ⟨ops, torn, h, h.chain_prefix⟩

theorem refresh_inv (hi : LogInv P s) (hstep : logStep P s (.refresh i) = some s') :
    LogNext P s s' := by
  unfold logStep at hstep
  obtain ⟨hw, hstep⟩ := of_idle hstep
  cases hget : s.handles i with
  | none => simp [hget] at hstep
  | some log =>
    rw [hget] at hstep
    cases hstep
    rcases hi with hfresh | ⟨ops, torn, h⟩
    · rw [hfresh.handles i] at hget
      cases hget
    · obtain ⟨front, ⟨more, rfl⟩, rfl, hmine⟩ := h.handles i log hget
      have hcatch := catchUp_torn h.holds h.torn
      rw [← h.file] at hcatch
      have hrefresh : OpLog.refresh P s.file (ofOps P front) = _ := hcatch
      dsimp only
      rw [hrefresh]
      exact .inr ⟨front ++ more, [], h.withHandle_whole hw i prefix_rfl h.linked
        prefix_rfl h.acked (LogHolds.mine_extend hmine),
        h.chain_prefix⟩

variable {actor : String} {timestampMs : UInt64} {req : Request}

theorem ackOf_catchUp {front more : List Op} {payload : Bytes}
    (hcatch : catchUp P s.file (ofOps P front) = ((fileHeader.header ++ records P (front ++ more), ofOps P (front ++ more)), .ok ()))
    (hpayload : req.payload (front ++ more) = .ok payload) :
    ackOf P s.file (ofOps P front) actor timestampMs req
        (newOp P (front ++ more) actor timestampMs payload).id
      = Ack.of (newOp P (front ++ more) actor timestampMs payload) := by
  have hops : (ofOps P (front ++ more)).ops = front ++ more := rfl
  rw [ackOf, hcatch, hops, hpayload]
  rfl

theorem append_inv (hi : LogInv P s) (hfits : req.Fits actor (chainOf P s.file))
    (hstep : logStep P s (.append i actor timestampMs req) = some s') : LogNext P s s' := by
  unfold logStep at hstep
  obtain ⟨hw, hstep⟩ := of_idle hstep
  cases hget : s.handles i with
  | none => simp [hget] at hstep
  | some log =>
    rw [hget] at hstep
    rcases hi with hfresh | ⟨ops, torn, h⟩
    · rw [hfresh.handles i] at hget
      cases hget
    · rw [h.chainOf_eq] at hfits
      obtain ⟨front, ⟨more, rfl⟩, rfl, hmine⟩ := h.handles i log hget
      have hends := Request.run_cases h.holds h.torn req timestampMs hfits
      have hcatch := catchUp_torn h.holds h.torn
      rw [← h.file] at hends hcatch
      generalize hrun : req.run P s.file (ofOps P front) actor timestampMs = r at hends
      simp only [Option.map_some, hrun] at hstep
      cases hends with
      | refused e =>
        cases hstep
        refine .inr ⟨front ++ more, torn, ?_, h.chain_prefix⟩
        exact h.withHandle hw i prefix_rfl h.linked h.torn (prefix_append _ _) h.acked
          hmine
      | rejected e =>
        cases hstep
        exact .inr ⟨front ++ more, [], h.withHandle_whole hw i prefix_rfl h.linked
        prefix_rfl h.acked (LogHolds.mine_extend hmine),
          h.chain_prefix⟩
      | @written payload hpayload hlinked =>
        cases hstep
        dsimp only
        rw [ackOf_catchUp hcatch hpayload]
        have hacked : (s.acked ++ [Ack.of (newOp P (front ++ more) actor timestampMs payload)]).Sublist
            ((front ++ more ++ [newOp P (front ++ more) actor timestampMs payload]).map Ack.of) := by
          rw [map_append]
          exact h.acked.append (List.Sublist.refl _)
        have hmine' : s.mine i ++ [Ack.of (newOp P (front ++ more) actor timestampMs payload)]
            ⊆ (front ++ more ++ [newOp P (front ++ more) actor timestampMs payload]).map Ack.of := by
          rw [map_append]
          exact append_subset.mpr ⟨subset_append_of_subset_left _
            (LogHolds.mine_extend hmine), subset_append_right _ _⟩
        exact .inr ⟨front ++ more ++ [newOp P (front ++ more) actor timestampMs payload], [],
          h.withHandle_whole hw i (prefix_append _ _) hlinked prefix_rfl hacked hmine',
          h.chain_prefix.trans (prefix_append _ _)⟩

theorem appendHalf_inv (hi : LogInv P s) (hfits : req.Fits actor (chainOf P s.file))
    (hstep : logStep P s (.appendHalf i actor timestampMs req n) = some s') : LogNext P s s' := by
  unfold logStep at hstep
  obtain ⟨hw, hstep⟩ := of_idle hstep
  cases hget : s.handles i with
  | none => simp [hget] at hstep
  | some log =>
    rw [hget] at hstep
    rcases hi with hfresh | ⟨ops, torn, h⟩
    · rw [hfresh.handles i] at hget
      cases hget
    · rw [h.chainOf_eq] at hfits
      obtain ⟨front, ⟨more, rfl⟩, rfl, hmine⟩ := h.handles i log hget
      have hends := Request.run_cases h.holds h.torn req timestampMs hfits
      have hcatch := catchUp_torn h.holds h.torn
      rw [← h.file] at hends hcatch
      generalize hrun : req.run P s.file (ofOps P front) actor timestampMs = r at hends
      simp only [Option.bind_some, hrun] at hstep
      cases hends with
      | refused e => cases hstep
      | rejected e => cases hstep
      | @written payload hpayload hlinked =>
        simp only [hcatch] at hstep
        by_cases hn : (fileHeader.header ++ records P (front ++ more)).length ≤ n
        · simp only [if_pos hn] at hstep
          cases hstep
          rw [ackOf_catchUp hcatch hpayload]
          generalize hop : newOp P (front ++ more) actor timestampMs payload = op at *
          obtain ⟨ops', torn', hcut, hops, hops', ht⟩ := exists_take_record hlinked hn
          refine .inr ⟨ops', torn', ?_, h.chain_prefix.trans hops⟩
          have hkeep := h.withHandle hw i hops (hlinked.of_prefix hops') ht hops
            (h.sublist_extend hops) (LogHolds.mine_extend hmine)
          rw [← hcut] at hkeep
          have hshort : ((fileHeader.header ++ records P (front ++ more ++ [op])).take n).length
              ≤ (fileHeader.header ++ records P (front ++ more ++ [op])).length :=
            length_take_le' n _
          exact { hkeep with
            writer := by
              intro w hsome
              cases hsome
              exact ⟨front ++ more, op, hlinked, rfl, rfl, rfl, hops', h.acked, hshort, by
                simp [LogState.withHandle]⟩ }
        · simp only [if_neg hn] at hstep
          cases hstep

theorem appendRest_inv (hi : LogInv P s) (hstep : logStep P s .appendRest = some s') :
    LogNext P s s' := by
  unfold logStep at hstep
  cases hw : s.writer with
  | none => simp [hw] at hstep
  | some w =>
    rw [hw] at hstep
    cases hstep
    rcases hi with hfresh | ⟨ops, torn, h⟩
    · rw [hfresh.writer] at hw
      cases hw
    · obtain ⟨done, op, hlinked, hfile, hlog, hack, hops, hacked, -, hwho⟩ :=
        h.writer w hw
      refine .inr ⟨done ++ [op], [], ?_, h.chain_prefix.trans hops⟩
      have hsub : (s.acked ++ [w.ack]).Sublist ((done ++ [op]).map Ack.of) := by
        rw [hack, map_append]
        exact hacked.append (List.Sublist.refl _)
      have hnone : LogHolds P { s with writer := none } ops torn :=
        { h with writer := fun w hsome => by cases hsome }
      obtain ⟨log, hget⟩ := Option.isSome_iff_exists.mp hwho
      obtain ⟨front, hfront, -, hmine⟩ := h.handles w.who log hget
      have hmine' : s.mine w.who ++ [w.ack] ⊆ (done ++ [op]).map Ack.of := by
        obtain ⟨more, hmore⟩ := hfront.trans hops
        apply append_subset.mpr
        refine ⟨hmore ▸ LogHolds.mine_extend hmine, ?_⟩
        rw [hack, map_append]
        exact subset_append_right _ _
      have hkeep := hnone.withHandle_whole rfl w.who hops hlinked prefix_rfl hsub hmine'
      rw [← hfile, ← hlog] at hkeep
      exact hkeep

theorem appendFails_inv (hi : LogInv P s) (hstep : logStep P s .appendFails = some s') :
    LogNext P s s' := by
  unfold logStep at hstep
  cases hw : s.writer with
  | none => simp [hw] at hstep
  | some w =>
    rw [hw] at hstep
    cases hstep
    rcases hi with hfresh | ⟨ops, torn, h⟩
    · rw [hfresh.writer] at hw
      cases hw
    · exact .inr ⟨ops, torn, { h with writer := fun w hsome => by cases hsome }, h.chain_prefix⟩

theorem drop_inv (hi : LogInv P s) (hstep : logStep P s (.drop i) = some s') :
    LogNext P s s' := by
  unfold logStep at hstep
  cases hstep
  have hdropped : ∀ j log, Function.update s.handles i none j = some log →
      s.handles j = some log := by
    intro j log hget
    by_cases hij : j = i
    · subst hij
      simp at hget
    · rwa [Function.update_of_ne hij] at hget
  rcases hi with hfresh | ⟨ops, torn, h⟩
  · refine .inl ⟨hfresh, hfresh.file, ?_, ?_, hfresh.acked⟩
    · intro j
      by_cases hij : j = i
      · subst hij
        simp
      · simp [Function.update_of_ne hij, hfresh.handles j]
    · simp [hfresh.writer]
  · refine .inr ⟨ops, torn, ?_, h.chain_prefix⟩
    exact { h with
      handles := fun j log hget => h.handles j log (hdropped j log hget)
      writer := by
        intro w hsome
        obtain ⟨hw, hne⟩ := Option.filter_eq_some_iff.mp hsome
        obtain ⟨done, op, h1, h2, h3, h4, h5, h6, h7, h8⟩ := h.writer w hw
        refine ⟨done, op, h1, h2, h3, h4, h5, h6, h7, ?_⟩
        have hne' : w.who ≠ i := of_decide_eq_true hne
        show (Function.update s.handles i none w.who).isSome = true
        rwa [Function.update_of_ne hne'] }

/-- **Step lemma.** Every step whose bodies fit keeps the invariant and the chain. -/
theorem logNext_step (a : LogAction) (hi : LogInv P s) (hg : BodiesFit P s a)
    (hstep : logStep P s a = some s') : LogNext P s s' := by
  cases a with
  | openShared i => exact openShared_inv hi hstep
  | openRepair i => exact openRepair_inv hi hstep
  | openDies n => exact openDies_inv hi hstep
  | append i actor timestampMs req => exact append_inv hi hg hstep
  | appendHalf i actor timestampMs req n => exact appendHalf_inv hi hg hstep
  | appendRest => exact appendRest_inv hi hstep
  | appendFails => exact appendFails_inv hi hstep
  | refresh i => exact refresh_inv hi hstep
  | sync i =>
    obtain ⟨-, -, rfl⟩ := Option.map_eq_some_iff.mp hstep
    rcases hi with hfresh | ⟨ops, torn, h⟩
    · exact .inl ⟨hfresh, hfresh⟩
    · exact .inr ⟨ops, torn, h, h.chain_prefix⟩
  | drop i => exact drop_inv hi hstep

theorem logInv_init (P : Prims) : LogInv P (logs P).init :=
  .inl ⟨⟨0, FileHeader.headerLen_pos _, rfl⟩, fun _ => rfl, rfl, rfl⟩

theorem logInv_run {s : LogState} (h : (logs P).ReachableIf (BodiesFit P) s) : LogInv P s :=
  System.invariant_if (logInv_init P) (fun _ a _ hi hg hst => (logNext_step a hi hg hst).inv) s h

/-! ### One linear, complete chain -/

/-- In a chain without collisions an acknowledged append has one place. -/
theorem existsUnique_ack {ops : List Op} (h : Linked P OpId.root ops)
    (hfree : CollisionFree P ops) {a : Ack} (ha : a ∈ ops.map Ack.of) :
    ∃! k : Nat, (ops[k]?).map Ack.of = some a := by
  obtain ⟨op, hop, rfl⟩ := mem_map.mp ha
  obtain ⟨k, hk, rfl⟩ := getElem_of_mem hop
  refine ⟨k, ?_, ?_⟩
  · show (ops[k]?).map Ack.of = some (Ack.of ops[k])
    rw [getElem?_eq_getElem hk]
    rfl
  · intro j hj
    obtain ⟨op', hget, hack⟩ := Option.map_eq_some_iff.mp hj
    obtain ⟨hlt, rfl⟩ := List.getElem?_eq_some_iff.mp hget
    exact index_eq_of_id_eq h hfree hlt hk (congrArg Ack.id hack)

/-- **The op log is one linear, complete chain.** In every run whose bodies fit their
    length field, the file parses to one chain from the root; every acknowledged append is
    a record of its own in it, found exactly once where bodies do not collide; and every
    handle has read a front of it. -/
theorem logs_one_chain (P : Prims) :
    ∀ s, (logs P).ReachableIf (BodiesFit P) s → ∃ file log, openLog P s.file = .ok (file, log) ∧
      (∀ op, log.ops[0]? = some op → op.parent = OpId.root) ∧
      (∀ (k : Nat) (op op' : Op), log.ops[k]? = some op → log.ops[k + 1]? = some op' →
        op'.parent = op.id) ∧
      (∀ op ∈ log.ops, op.id = P.blake3 op.body) ∧
      s.acked.Sublist (log.ops.map Ack.of) ∧
      (CollisionFree P log.ops → ∀ a ∈ s.acked, ∃! k : Nat, (log.ops[k]?).map Ack.of = some a) ∧
      ∀ i h, s.handles i = some h → h.ops <+: log.ops := by
  intro s hs
  rcases logInv_run hs with hfresh | ⟨ops, torn, h⟩
  · obtain ⟨n, hn, hfile⟩ := hfresh.file
    refine ⟨_, _, hfile ▸ openLog_fresh hn, ?_, ?_, ?_, ?_, ?_, ?_⟩
    · intro op hop
      cases hop
    · intro k op op' hop
      simp [ofOps] at hop
    · intro op hop
      simp [ofOps] at hop
    · rw [hfresh.acked]
      exact nil_sublist _
    · intro hfree a ha
      rw [hfresh.acked] at ha
      cases ha
    · intro i log hget
      rw [hfresh.handles i] at hget
      cases hget
  · have hops : (ofOps P ops).ops = ops := rfl
    refine ⟨_, _, h.openLog, ?_, ?_, ?_, ?_, ?_, ?_⟩
    · intro op hop
      obtain ⟨hlt, rfl⟩ := List.getElem?_eq_some_iff.mp hop
      exact h.linked.parent_zero hlt
    · intro k op op' hop hop'
      obtain ⟨hlt, rfl⟩ := List.getElem?_eq_some_iff.mp hop
      obtain ⟨hlt', rfl⟩ := List.getElem?_eq_some_iff.mp hop'
      exact h.linked.parent_succ hlt'
    · intro op hop
      obtain ⟨k, hk, rfl⟩ := getElem_of_mem hop
      exact h.linked.id_getElem hk
    · exact h.acked
    · intro hfree a ha
      exact existsUnique_ack h.linked hfree (h.acked.subset ha)
    · intro i log hget
      obtain ⟨front, hfront, rfl, -⟩ := h.handles i log hget
      exact hfront

/-- A log that was just created. -/
def createdLog : LogState :=
  (⟨[], fun _ => none, none, [], fun _ => []⟩ : LogState).withHandle 0
    (fileHeader.header, ofOps Prims.toy []) []

theorem created_step : (logs Prims.toy).step (logs Prims.toy).init (.openRepair 0)
    = some createdLog := rfl

/-- The chain of a log with one op, while a second writer stands half way through its
    record. -/
theorem logs_one_chain_half :
    ∃ s file log, (logs Prims.toy).ReachableIf (BodiesFit Prims.toy) s ∧ s.writer.isSome ∧
      s.file.length = 55 ∧ openLog Prims.toy s.file = .ok (file, log) ∧
      ∀ i h, s.handles i = some h → h.ops <+: log.ops := by
  have hfits : ∀ ops, (Request.plain [7]).Fits "" ops := by
    intro ops payload hpayload
    cases hpayload
    decide
  have hhalf : ((logs Prims.toy).step createdLog (.appendHalf 0 "" 0 (.plain [7]) 55)).map
      (fun s => decide (s.writer.isSome ∧ s.file.length = 55)) = some true := by
    decide +kernel
  obtain ⟨s, hstep, hs⟩ := Option.map_eq_some_iff.mp hhalf
  obtain ⟨hwriter, hlen⟩ := of_decide_eq_true hs
  have hcreated : (logs Prims.toy).ReachableIf (BodiesFit Prims.toy) createdLog :=
    .step (a := .openRepair 0) .init trivial created_step
  have hreach : (logs Prims.toy).ReachableIf (BodiesFit Prims.toy) s :=
    .step (a := .appendHalf 0 "" 0 (.plain [7]) 55) hcreated (hfits _) hstep
  obtain ⟨file, log, hopen, -, -, -, -, -, hprefix⟩ := logs_one_chain Prims.toy s hreach
  exact ⟨s, file, log, hreach, hwriter, hlen, hopen, hprefix⟩

/-! ### A body of 4 GiB -/

/-- A record whose body is exactly 4 GiB long says that its body is empty. -/
theorem nextRecord_overlong {P : Prims} {payload : Bytes} (hlen : payload.length = 2 ^ 32 - 78)
    (hcheck : P.checksum [] ≠ List.replicate 8 0) :
    nextRecord P OpId.root (record P (encodeBody OpId.root 0 "" payload))
      = .fail (.format "oplog record corrupt") := by
  have hbody : (encodeBody OpId.root 0 "" payload).length = 2 ^ 32 := by
    have hempty : (utf8 "").length = 0 := rfl
    rw [encodeBody, length_bodyBytes, hempty, hlen, bodyFixedLen]
    omega
  have hfield : leBytes 4 (2 ^ 32) = leBytes 4 0 := by decide
  have hread : readLE 4 (record P (encodeBody OpId.root 0 "" payload))
      = some (0, encodeBody OpId.root 0 "" payload
          ++ P.checksum (encodeBody OpId.root 0 "" payload)) := by
    rw [record, hbody, hfield, append_assoc, readLE_append_of_lt _ (by decide)]
  -- the body starts with the root id
  obtain ⟨rest, hrest⟩ : ∃ rest, encodeBody OpId.root 0 "" payload
      ++ P.checksum (encodeBody OpId.root 0 "" payload) = List.replicate 8 0 ++ rest := by
    have hroot : OpId.root.val = List.replicate 8 0 ++ List.replicate 24 0 := rfl
    simp only [encodeBody, bodyBytes, append_assoc, hroot]
    exact ⟨_, rfl⟩
  have hlong : rest ≠ [] := by
    intro hnil
    have := congrArg List.length hrest
    rw [hnil, length_append, hbody] at this
    simp at this
  have htake : takeN (0 + checksumLen) (List.replicate 8 0 ++ rest)
      = some (List.replicate 8 0, rest) := takeN_append' _ _ rfl
  unfold nextRecord
  rw [hread, hrest]
  simp only [htake, take_zero, drop_zero, ne_eq, hcheck, not_false_eq_true, if_true,
    hlong, if_false]

/-- **An acknowledged append can destroy the log.** `append` takes a payload of 2³² − 78
    bytes and returns its id; the record says its body is empty, and the file does not open
    any more. -/
theorem logs_one_chain_fails :
    ¬ ∀ s, (logs Prims.toy).Reachable s → ∃ file log,
      openLog Prims.toy s.file = .ok (file, log) ∧ s.acked.Sublist (log.ops.map Ack.of) := by
  intro hall
  obtain ⟨payload, hlen⟩ : ∃ payload : Bytes, payload.length = 2 ^ 32 - 78 :=
    ⟨List.replicate (2 ^ 32 - 78) 0, length_replicate⟩
  have hcheck : Prims.toy.checksum [] ≠ List.replicate 8 0 := by decide
  have hactor : ¬ 2 ^ 16 ≤ (utf8 "").length := by decide
  have hpayload : ¬ 2 ^ 32 ≤ payload.length := by rw [hlen]; decide
  have hcaught : catchUp Prims.toy fileHeader.header (ofOps Prims.toy [])
      = ((fileHeader.header, ofOps Prims.toy []), .ok ()) := rfl
  have hwrite : writeAt fileHeader.header (ofOps Prims.toy []).lenBytes
      (record Prims.toy (encodeBody OpId.root 0 "" payload))
      = fileHeader.header ++ record Prims.toy (encodeBody OpId.root 0 "" payload) :=
    writeAt_end _ rfl
  have hstep : ∃ s, (logs Prims.toy).step createdLog (.append 0 "" 0 (.plain payload)) = some s ∧
      s.file = fileHeader.header ++ record Prims.toy (encodeBody OpId.root 0 "" payload) := by
    have hget : createdLog.handles 0 = some (ofOps Prims.toy []) := rfl
    have hfile : createdLog.file = fileHeader.header := rfl
    have hwriter : createdLog.writer.isSome = false := rfl
    have hunfold : ∃ ack, (logs Prims.toy).step createdLog (.append 0 "" 0 (.plain payload))
        = some { createdLog.withHandle 0 (writeRecord Prims.toy fileHeader.header
            (ofOps Prims.toy []) "" 0 payload).1 (createdLog.mine 0 ++ [ack]) with
          acked := createdLog.acked ++ [ack] } := by
      refine ⟨ackOf Prims.toy createdLog.file (ofOps Prims.toy []) "" 0 (.plain payload)
        (writeRecord Prims.toy fileHeader.header (ofOps Prims.toy []) "" 0 payload).2, ?_⟩
      show logStep Prims.toy createdLog (.append 0 "" 0 (.plain payload)) = _
      simp only [logStep, hwriter, hget, hfile, Request.run, append, if_neg hactor,
        if_neg hpayload, hcaught, Option.map_some]
      rfl
    obtain ⟨ack, hunfold⟩ := hunfold
    exact ⟨_, hunfold, hwrite⟩
  obtain ⟨s, hs, hfile⟩ := hstep
  obtain ⟨file, log, hopen, -⟩ := hall s (.step (.step .init trivial created_step) trivial hs)
  have herr : ((framing Prims.toy).walk OpId.root
      (record Prims.toy (encodeBody OpId.root 0 "" payload))).error
      = some (.format "oplog record corrupt") := by
    have hnext : (framing Prims.toy).next OpId.root
        (record Prims.toy (encodeBody OpId.root 0 "" payload)) = _ :=
      nextRecord_overlong hlen hcheck
    rw [Framing.walk, Framing.walkFuel, hnext]
  have hdrop : (fileHeader.header ++ record Prims.toy (encodeBody OpId.root 0 "" payload)).drop
      (min fileHeader.headerLen (fileHeader.header
        ++ record Prims.toy (encodeBody OpId.root 0 "" payload)).length)
      = record Prims.toy (encodeBody OpId.root 0 "" payload) := by
    rw [length_append, FileHeader.length_header, Nat.min_eq_left (Nat.le_add_right _ _),
      ← FileHeader.length_header, drop_left]
  rw [hfile, openLog, scan, FileHeader.checkHeader_header] at hopen
  simp only [hdrop, replayRecords, herr] at hopen
  cases hopen

end OpLog

end Alt
