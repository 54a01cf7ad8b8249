import Alt.OpLog.Writers

namespace Alt

open Alt.Library List

namespace OpLog

/-!
# Group commit of the op log

`durableLogs P` adds to the handles of one log what a crash leaves of it: how many bytes are
durable, the marker file `durable`, and the `sync` calls under way, one system call at a
time.  A crash keeps any extension of the durable prefix and ends every process.

* `cutBy` — the length a step truncates the log to, if it does;
* `DurableInv` — the marker stays within the durable bytes, and every operation a `sync`
  returned for lies within them;
* `sync_is_durable` — in every run that never cuts the log below what a `sync` has measured
  no such operation is lost.

Without the guard one is: `sync_is_durable_fails`.
-/

variable (P : Prims)

/-! ### Truncations -/

/-- Is the request refused before the append lock is taken? -/
def Request.tooLarge (actor : String) : Request → Bool
  | .plain payload => 2 ^ 16 ≤ (utf8 actor).length || 2 ^ 32 ≤ payload.length
  | .checked _ => 2 ^ 16 ≤ (utf8 actor).length

/-- The length catching up truncates the file to, if there is a torn tail to cut. -/
def cutByCatchUp (file : Bytes) (h : OpLog) : Option Nat :=
  let caught := (catchUp P file h).1.1
  if caught.length < file.length then some caught.length else none

/-- The length a step truncates the file to, and fsyncs it at, before it goes on. -/
def cutBy (s : LogState) : LogAction → Option Nat
  | .openRepair _ =>
    match scan P s.file with
    | .error _ => none
    | .ok found =>
      if found.validLen < fileHeader.headerLen then some fileHeader.headerLen
      else if found.validLen < found.fileLen then some found.validLen
      else none
  | .openDies _ =>
    match scan P s.file with
    | .error _ => none
    | .ok found => if found.validLen < fileHeader.headerLen then some 0 else none
  | .append i actor _ req =>
    if req.tooLarge actor then none else (s.handles i).bind (cutByCatchUp P s.file)
  | .appendHalf i actor _ req _ =>
    if req.tooLarge actor then none else (s.handles i).bind (cutByCatchUp P s.file)
  | .refresh i => (s.handles i).bind (cutByCatchUp P s.file)
  | _ => none

/-! ### The system -/

/-- Where a `sync` call stands: before the sync lock, behind it, with the file's length
    measured, with the file fsynced after that. -/
inductive SyncPhase
  | waiting
  | locked
  | measured (eof : Nat)
  | synced (eof : Nat)
  deriving DecidableEq

/-- A `sync` call under way: the length to make durable, the handle's own acknowledged
    appends at the time of the call. -/
structure SyncCall where
  target : Nat
  mine : List Ack
  phase : SyncPhase

def SyncCall.eof (c : SyncCall) : Option Nat :=
  match c.phase with
  | .measured eof => some eof
  | .synced eof => some eof
  | _ => none

/-- The log, its durable length, the marker file and the versions of it a crash may bring
    back, the `sync` calls under way, the holder of the sync lock, and every append a
    `sync` has returned for. -/
structure DurableState where
  log : LogState
  synced : Nat
  marker : Nat
  versions : List Nat
  calls : Nat → Option SyncCall
  holder : Option Nat
  promised : List Ack

inductive DurableAction
  | log (a : LogAction)
  /-- An fsync outside `sync`: of a handle that is closed, or the group commit's. -/
  | fsync
  /-- `sync` is called; `skip` when the handle defers or durability is relaxed. -/
  | call (i : Nat) (skip : Bool)
  | lock (i : Nat)
  | measure (i : Nat)
  | flush (i : Nat)
  | mark (i : Nat)
  /-- The call returns an error. -/
  | fail (i : Nat)
  /-- A crash keeps `n` bytes of the log and some version of the marker file. -/
  | crash (n marker : Nat)

namespace DurableState

/-- Handle `i` has no call under way any more. -/
def clear (s : DurableState) (i : Nat) : DurableState :=
  { s with
    calls := Function.update s.calls i none
    holder := s.holder.filter (· ≠ i) }

/-- `sync` returns `Ok` to handle `i`. -/
def returnOk (s : DurableState) (i : Nat) (mine : List Ack) : DurableState :=
  { s.clear i with promised := s.promised ++ mine }

def withPhase (s : DurableState) (i : Nat) (c : SyncCall) (phase : SyncPhase) : DurableState :=
  { s with calls := Function.update s.calls i (some { c with phase }) }

end DurableState

def durableStep (s : DurableState) : DurableAction → Option DurableState
  | .log a =>
    (logStep P s.log a).map fun log =>
      let s' := { s with log, synced := (cutBy P s.log a).getD s.synced }
      match a with
      | .drop i => s'.clear i
      | _ => s'
  | .fsync => some { s with synced := s.log.file.length }
  | .call i skip =>
    match s.log.handles i, s.calls i with
    | some h, none =>
      if skip || h.lenBytes ≤ s.marker then some (s.returnOk i (s.log.mine i))
      else
        some { s with
          calls := Function.update s.calls i (some ⟨h.lenBytes, s.log.mine i, .waiting⟩) }
    | _, _ => none
  | .lock i =>
    match s.calls i, s.holder with
    | some ⟨target, mine, .waiting⟩, none =>
      if target ≤ s.marker then some (s.returnOk i mine)
      else some { s.withPhase i ⟨target, mine, .waiting⟩ .locked with holder := some i }
    | _, _ => none
  | .measure i =>
    match s.calls i with
    | some ⟨target, mine, .locked⟩ =>
      some (s.withPhase i ⟨target, mine, .locked⟩ (.measured s.log.file.length))
    | _ => none
  | .flush i =>
    match s.calls i with
    | some ⟨target, mine, .measured eof⟩ =>
      some { s.withPhase i ⟨target, mine, .measured eof⟩ (.synced eof) with
        synced := s.log.file.length }
    | _ => none
  | .mark i =>
    match s.calls i with
    | some ⟨_, mine, .synced eof⟩ =>
      some { s.returnOk i mine with marker := eof, versions := s.marker :: s.versions }
    | _ => none
  | .fail i => some (s.clear i)
  | .crash n marker =>
    if s.synced ≤ n ∧ n ≤ s.log.file.length ∧ marker ∈ 0 :: s.marker :: s.versions then
      some
        { s with
          log := ⟨s.log.file.take n, fun _ => none, none, [], fun _ => []⟩
          synced := n
          marker
          versions := []
          calls := fun _ => none
          holder := none }
    else none

def durableLogs : System DurableState DurableAction where
  init := ⟨(logs P).init, 0, 0, [], fun _ => none, none, []⟩
  step := durableStep P

/-- No `sync` is skipped, every body fits its length field, and no step truncates the log
    below the marker or below a length that a `sync` under way has measured. -/
def MarkerSafe (s : DurableState) : DurableAction → Prop
  | .log a =>
    BodiesFit P s.log a ∧ ∀ k, cutBy P s.log a = some k →
      s.marker ≤ k ∧ ∀ i c eof, s.calls i = some c → c.eof = some eof → eof ≤ k
  | .call _ skip => skip = false
  | _ => True

variable {P}

/-! ### What truncating keeps -/

variable {s s' : LogState} {ops : List Op} {torn : Bytes} {a : LogAction}

/-- The end of a chain in its file. -/
theorem lenBytes_ofOps (ops : List Op) :
    (ofOps P ops).lenBytes = (fileHeader.header ++ records P ops).length := rfl

theorem lenBytes_mono {front ops : List Op} (h : front <+: ops) :
    (ofOps P front).lenBytes ≤ (ofOps P ops).lenBytes := by
  obtain ⟨more, rfl⟩ := h
  rw [lenBytes_ofOps, lenBytes_ofOps, records_append]
  simp only [length_append]
  omega

theorem LogHolds.lenBytes_le (h : LogHolds P s ops torn) :
    (ofOps P ops).lenBytes ≤ s.file.length := by
  rw [h.file, length_append, lenBytes_ofOps]
  exact Nat.le_add_right _ _

theorem LogHolds.cutByCatchUp_eq (h : LogHolds P s ops torn) {i : Nat} :
    (s.handles i).bind (cutByCatchUp P s.file) =
      (s.handles i).bind fun _ =>
        if (ofOps P ops).lenBytes < s.file.length then some (ofOps P ops).lenBytes else none := by
  cases hget : s.handles i with
  | none => rfl
  | some log =>
    obtain ⟨front, ⟨more, rfl⟩, rfl, -⟩ := h.handles i log hget
    have hcatch := catchUp_torn h.holds h.torn
    rw [← h.file] at hcatch
    simp only [Option.bind_some, cutByCatchUp, hcatch, lenBytes_ofOps]
    rfl

/-- A step cuts the log exactly behind its chain. -/
theorem LogHolds.cutBy_eq (h : LogHolds P s ops torn) {k : Nat} (hcut : cutBy P s a = some k) :
    k = (ofOps P ops).lenBytes := by
  have hcaught : ∀ i, (s.handles i).bind (cutByCatchUp P s.file) = some k →
      k = (ofOps P ops).lenBytes := by
    intro i hi
    rw [h.cutByCatchUp_eq] at hi
    obtain ⟨log, -, hlog⟩ := Option.bind_eq_some_iff.mp hi
    by_cases hlt : (ofOps P ops).lenBytes < s.file.length
    · rw [if_pos hlt] at hlog
      exact (Option.some.inj hlog).symm
    · rw [if_neg hlt] at hlog
      cases hlog
  cases a with
  | openRepair i =>
    simp only [cutBy, h.scan, if_neg (headerLen_le ops)] at hcut
    by_cases hlt : (fileHeader.header ++ records P ops).length < s.file.length
    · rw [if_pos hlt] at hcut
      exact (Option.some.inj hcut).symm
    · rw [if_neg hlt] at hcut
      cases hcut
  | openDies n =>
    simp only [cutBy, h.scan, if_neg (headerLen_le ops)] at hcut
    cases hcut
  | append i actor timestampMs req =>
    simp only [cutBy] at hcut
    by_cases hlarge : req.tooLarge actor = true
    · rw [if_pos hlarge] at hcut
      cases hcut
    · rw [if_neg hlarge] at hcut
      exact hcaught i hcut
  | appendHalf i actor timestampMs req n =>
    simp only [cutBy] at hcut
    by_cases hlarge : req.tooLarge actor = true
    · rw [if_pos hlarge] at hcut
      cases hcut
    · rw [if_neg hlarge] at hcut
      exact hcaught i hcut
  | refresh i => exact hcaught i hcut
  | openShared i => cases hcut
  | appendRest => cases hcut
  | appendFails => cases hcut
  | sync i => cases hcut
  | drop i => cases hcut

/-- A request that is too large leaves the file alone. -/
theorem Request.run_tooLarge {req : Request} {actor : String} (hlarge : req.tooLarge actor = true)
    (file : Bytes) (log : OpLog) (timestampMs : UInt64) :
    ∃ e, req.run P file log actor timestampMs = ((file, log), .error e) := by
  cases req with
  | plain payload =>
    simp only [Request.tooLarge, Bool.or_eq_true, decide_eq_true_eq] at hlarge
    by_cases hactor : 2 ^ 16 ≤ (utf8 actor).length
    · exact ⟨.tooLarge (utf8 actor).length, by simp only [Request.run, append, if_pos hactor]⟩
    · have hpayload := hlarge.resolve_left hactor
      refine ⟨.tooLarge payload.length, ?_⟩
      simp only [Request.run, append, if_neg hactor, if_pos hpayload]
  | checked build =>
    simp only [Request.tooLarge, decide_eq_true_eq] at hlarge
    refine ⟨.tooLarge (utf8 actor).length, ?_⟩
    simp only [Request.run, appendChecked, if_pos hlarge, id]

/-- Nothing to cut: the file ends with its chain. -/
theorem LogHolds.length_of_caught (h : LogHolds P s ops torn) {i : Nat} {log : OpLog}
    (hget : s.handles i = some log)
    (hcut : (s.handles i).bind (cutByCatchUp P s.file) = none) :
    s.file.length ≤ (ofOps P ops).lenBytes := by
  rw [h.cutByCatchUp_eq, hget, Option.bind_some] at hcut
  by_cases hlt : (ofOps P ops).lenBytes < s.file.length
  · rw [if_pos hlt] at hcut
    cases hcut
  · exact Nat.le_of_not_lt hlt

/-- The three ways an append leaves the length of a log it does not cut. -/
theorem length_le_of_request {ops' : List Op} {torn' : Bytes} (h : LogHolds P s ops torn)
    (h' : LogHolds P s' ops' torn') (hops : ops <+: ops') (timestampMs : UInt64)
    {i : Nat} {actor : String} {req : Request} {log : OpLog} (hget : s.handles i = some log)
    (hcut : (if req.tooLarge actor then none
      else (s.handles i).bind (cutByCatchUp P s.file)) = none)
    (hsame : ∀ e, req.run P s.file log actor timestampMs = ((s.file, log), .error e) →
      s'.file = s.file) : s.file.length ≤ s'.file.length := by
  by_cases hlarge : req.tooLarge actor = true
  · obtain ⟨e, hrun⟩ := Request.run_tooLarge (P := P) hlarge s.file log timestampMs
    rw [hsame e hrun]
  · rw [if_neg hlarge] at hcut
    calc s.file.length ≤ (ofOps P ops).lenBytes := h.length_of_caught hget hcut
      _ ≤ (ofOps P ops').lenBytes := lenBytes_mono hops
      _ ≤ s'.file.length := h'.lenBytes_le

/-- A step that does not cut the log does not shorten it. -/
theorem length_le_of_not_cut {ops' : List Op} {torn' : Bytes} (h : LogHolds P s ops torn)
    (h' : LogHolds P s' ops' torn') (hops : ops <+: ops') (hcut : cutBy P s a = none)
    (hstep : logStep P s a = some s') : s.file.length ≤ s'.file.length := by
  cases a with
  | openShared i =>
    simp only [logStep, h.scan] at hstep
    by_cases hw : s.writer.isSome = true
    · simp [hw] at hstep
    · simp only [hw] at hstep
      cases hstep
      split <;> exact le_rfl
  | openRepair i =>
    simp only [cutBy, h.scan, if_neg (headerLen_le ops)] at hcut
    obtain ⟨n, hrepair⟩ := h.scanAndRepair
    have hle : s.file.length ≤ (fileHeader.header ++ records P ops).length := by
      by_contra hlt
      rw [if_pos (Nat.lt_of_not_le hlt)] at hcut
      cases hcut
    calc s.file.length ≤ (ofOps P ops).lenBytes := hle
      _ ≤ (ofOps P ops').lenBytes := lenBytes_mono hops
      _ ≤ s'.file.length := h'.lenBytes_le
  | openDies n =>
    simp only [logStep, h.scan, if_neg (headerLen_le ops)] at hstep
    by_cases hw : s.writer.isSome = true
    · simp [hw] at hstep
    · simp only [hw] at hstep
      cases hstep
      exact le_rfl
  | append i actor timestampMs req =>
    simp only [logStep] at hstep
    by_cases hw : s.writer.isSome = true
    · simp [hw] at hstep
    · simp only [hw] at hstep
      obtain ⟨log, hget, hrun⟩ := Option.map_eq_some_iff.mp hstep
      apply length_le_of_request h h' hops timestampMs hget hcut
      intro e he
      rw [he] at hrun
      rw [← hrun]
      rfl
  | appendHalf i actor timestampMs req n =>
    simp only [logStep] at hstep
    by_cases hw : s.writer.isSome = true
    · simp [hw] at hstep
    · simp only [hw] at hstep
      obtain ⟨log, hget, hrun⟩ := Option.bind_eq_some_iff.mp hstep
      apply length_le_of_request h h' hops timestampMs hget hcut
      intro e he
      rw [he] at hrun
      cases hrun
  | appendRest =>
    obtain ⟨w, hw, rfl⟩ := Option.map_eq_some_iff.mp hstep
    obtain ⟨done, op, -, -, -, -, -, -, hlen, -⟩ := h.writer w hw
    exact hlen
  | appendFails =>
    obtain ⟨w, -, rfl⟩ := Option.map_eq_some_iff.mp hstep
    exact le_rfl
  | refresh i =>
    simp only [logStep] at hstep
    by_cases hw : s.writer.isSome = true
    · simp [hw] at hstep
    · simp only [hw] at hstep
      obtain ⟨log, hget, -⟩ := Option.map_eq_some_iff.mp hstep
      calc s.file.length ≤ (ofOps P ops).lenBytes := h.length_of_caught hget hcut
        _ ≤ (ofOps P ops').lenBytes := lenBytes_mono hops
        _ ≤ s'.file.length := h'.lenBytes_le
  | sync i =>
    obtain ⟨-, -, rfl⟩ := Option.map_eq_some_iff.mp hstep
    exact le_rfl
  | drop i =>
    cases hstep
    exact le_rfl

/-! ### What a crash keeps -/

/-- The front of a chain's file is the file of a shorter chain, with a torn record behind
    it; whatever ends before the cut is in the shorter chain. -/
theorem exists_take_chain (h : Linked P OpId.root ops) {n : Nat}
    (hn : fileHeader.headerLen ≤ n) :
    ∃ ops' torn', (fileHeader.header ++ records P ops).take n
        = fileHeader.header ++ records P ops' ++ torn' ∧ ops' <+: ops ∧ Torn P torn' ∧
      ∀ front, front <+: ops → (ofOps P front).lenBytes ≤ n → front <+: ops' := by
  induction ops using List.reverseRecOn with
  | nil =>
    refine ⟨[], [], ?_, prefix_rfl, torn_nil P, fun front hfront _ => hfront⟩
    rw [records_nil, append_nil, append_nil, take_of_length_le]
    rw [FileHeader.length_header]
    exact hn
  | append_singleton ops op ih =>
    by_cases hfull : (ofOps P (ops ++ [op])).lenBytes ≤ n
    · refine ⟨ops ++ [op], [], ?_, prefix_rfl, torn_nil P, fun front hfront _ => hfront⟩
      rw [append_nil, take_of_length_le hfull]
    by_cases hlong : (fileHeader.header ++ records P ops).length ≤ n
    · -- the cut is inside the last record
      obtain ⟨ops', torn', htake, hops, hops', ht⟩ := exists_take_record h hlong
      refine ⟨ops', torn', htake, hops', ht, ?_⟩
      intro front hfront hlen
      rcases prefix_concat_iff.mp hfront with rfl | hshort
      · exact absurd hlen hfull
      · exact hshort.trans hops
    · have hcut : (fileHeader.header ++ records P (ops ++ [op])).take n
          = (fileHeader.header ++ records P ops).take n := by
        rw [records_append, ← append_assoc, take_append_of_le_length (by omega)]
      obtain ⟨ops', torn', htake, hops', ht, hfront'⟩ := ih h.left
      refine ⟨ops', torn', hcut.trans htake, hops'.trans (prefix_append _ _), ht, ?_⟩
      intro front hfront hlen
      apply hfront' front _ hlen
      rcases prefix_concat_iff.mp hfront with rfl | hshort
      · exact absurd hlen hfull
      · exact hshort

/-- **A crash** that keeps `n` bytes leaves a log whose chain has every op that ends
    within them. -/
theorem logInv_crash (hi : LogInv P s) (n : Nat) :
    LogInv P ⟨s.file.take n, fun _ => none, none, [], fun _ => []⟩ ∧
    ∀ front, front <+: chainOf P s.file → front ≠ [] → (ofOps P front).lenBytes ≤ n →
      front <+: chainOf P (s.file.take n) := by
  rcases hi with hfresh | ⟨ops, torn, h⟩
  · obtain ⟨m, hm, hfile⟩ := hfresh.file
    constructor
    · refine .inl ⟨⟨min n m, lt_of_le_of_lt (Nat.min_le_right n m) hm, ?_⟩, fun _ => rfl, rfl, rfl⟩
      show s.file.take n = _
      rw [hfile, take_take]
    · intro front hfront hne
      rw [hfile, chainOf, openLog_fresh hm] at hfront
      exact absurd (prefix_nil.mp hfront) hne
  · have hchain := h.chainOf_eq
    by_cases hn : n < fileHeader.headerLen
    · constructor
      · refine .inl ⟨⟨n, hn, ?_⟩, fun _ => rfl, rfl, rfl⟩
        show s.file.take n = _
        rw [h.file, append_assoc, take_append_of_le_length]
        rw [FileHeader.length_header]
        exact Nat.le_of_lt hn
      · intro front hfront hne hlen
        rw [lenBytes_ofOps, length_append, FileHeader.length_header] at hlen
        omega
    · obtain ⟨ops', torn', htake, hops', ht, hfront'⟩ :=
        exists_take_chain h.linked (Nat.le_of_not_lt hn)
      -- the cut may also fall into the torn tail
      have hcut : ∃ torn'', s.file.take n = fileHeader.header ++ records P ops' ++ torn'' ∧
          Torn P torn'' := by
        by_cases hlong : (fileHeader.header ++ records P ops).length ≤ n
        · have hall : ops <+: ops' := hfront' ops prefix_rfl hlong
          obtain rfl : ops' = ops := hops'.eq_of_length_le hall.length_le
          refine ⟨torn.take (n - (fileHeader.header ++ records P ops').length), ?_, h.torn.take _⟩
          rw [h.file, take_append, take_of_length_le hlong]
        · refine ⟨torn', ?_, ht⟩
          rw [h.file, take_append_of_le_length (by omega), htake]
      obtain ⟨torn'', hfile, ht'⟩ := hcut
      have hafter : LogHolds P ⟨s.file.take n, fun _ => none, none, [], fun _ => []⟩ ops' torn'' :=
        { file := hfile
          linked := h.linked.of_prefix hops'
          torn := ht'
          handles := fun i log hget => by cases hget
          acked := nil_sublist _
          writer := fun w hw => by cases hw }
      refine ⟨.inr ⟨ops', torn'', hafter⟩, ?_⟩
      intro front hfront hne hlen
      have hafter' := hafter.chainOf_eq
      rw [hchain] at hfront
      rw [show chainOf P (s.file.take n) = ops' from hafter']
      exact hfront' front hfront hlen

end OpLog

end Alt
