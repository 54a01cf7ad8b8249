import Alt.OpLog.Durable

namespace Alt

open Alt.Library List

namespace OpLog

/-!
# What `sync` returned for stays in the log

`DurableInv` over every run that meets `MarkerSafe`: the marker stays within the durable
bytes, each call under way measured no more than the file has, and every operation a call
returned for ends within the durable bytes.  `sync_is_durable` reads the claim off it.
-/

variable {P : Prims}

/-! ### What a step of the log keeps -/

section LogStep

variable {s s' : LogState} {a : LogAction}

theorem headerLen_le_lenBytes (front : List Op) :
    fileHeader.headerLen ≤ (ofOps P front).lenBytes := by
  rw [lenBytes_ofOps, length_append, FileHeader.length_header]
  exact Nat.le_add_right _ _

theorem LogFresh.length_lt (h : LogFresh s) : s.file.length < fileHeader.headerLen := by
  obtain ⟨n, hn, hfile⟩ := h.file
  rw [hfile, length_take, FileHeader.length_header]
  omega

theorem LogNext.chain (h : LogNext P s s') : chainOf P s.file <+: chainOf P s'.file := by
  rcases h with ⟨hfresh, hfresh'⟩ | ⟨ops, torn, hholds, hchain⟩
  · exact hfresh.chain_prefix
  · rw [hholds.chainOf_eq]
    exact hchain

/-- A cut leaves every op of the chain in place. -/
theorem lenBytes_le_cut (hi : LogInv P s) {k : Nat} (hcut : cutBy P s a = some k)
    {front : List Op} (hfront : front <+: chainOf P s.file)
    (hlen : (ofOps P front).lenBytes ≤ s.file.length) : (ofOps P front).lenBytes ≤ k := by
  rcases hi with hfresh | ⟨ops, torn, h⟩
  · have := hfresh.length_lt
    have := headerLen_le_lenBytes (P := P) front
    omega
  · rw [h.chainOf_eq] at hfront
    rw [h.cutBy_eq hcut]
    exact lenBytes_mono hfront

/-- In a new log only the opener cuts. -/
theorem LogFresh.length_le (hf : LogFresh s) (hstep : logStep P s a = some s') :
    (cutBy P s a).getD s.file.length ≤ s'.file.length := by
  obtain ⟨n, hn, hfile⟩ := hf.file
  have hw : s.writer.isSome = false := by rw [hf.writer]; rfl
  have hnone : ∀ i, s.handles i = none := hf.handles
  cases a with
  | openShared i =>
    have hneeds : needsRepair ⟨[], fun _ => none, n, n⟩ = true := by
      simp [needsRepair, hn]
    simp only [logStep, hw, hfile, scan_fresh hn, hneeds] at hstep
    cases hstep
    exact le_rfl
  | openRepair i =>
    have hrepair := scanAndRepair_fresh (P := P) hn
    simp only [logStep, hw, hfile, hrepair] at hstep
    cases hstep
    simp only [cutBy, hfile, scan_fresh hn, if_pos hn]
    exact le_rfl
  | openDies m =>
    simp only [cutBy, hfile, scan_fresh hn, if_pos hn]
    exact Nat.zero_le _
  | append i actor timestampMs req => simp [logStep, hw, hnone i] at hstep
  | appendHalf i actor timestampMs req m => simp [logStep, hw, hnone i] at hstep
  | appendRest => simp [logStep, hf.writer] at hstep
  | appendFails => simp [logStep, hf.writer] at hstep
  | refresh i => simp [logStep, hw, hnone i] at hstep
  | sync i => simp [logStep, hnone i] at hstep
  | drop i =>
    cases hstep
    exact le_rfl

/-- After a step the file is at least as long as before, or as long as it was cut to. -/
theorem length_le_step (hi : LogInv P s) (hg : BodiesFit P s a)
    (hstep : logStep P s a = some s') : (cutBy P s a).getD s.file.length ≤ s'.file.length := by
  rcases hi with hfresh | ⟨ops, torn, h⟩
  · exact hfresh.length_le hstep
  · have hchain := (logNext_step a (.inr ⟨ops, torn, h⟩) hg hstep)
    rcases hchain with ⟨hfresh, -⟩ | ⟨ops', torn', h', hops⟩
    · have hlong := h.lenBytes_le
      have := hfresh.length_lt
      have := headerLen_le_lenBytes (P := P) ops
      omega
    · rw [h.chainOf_eq] at hops
      cases hcut : cutBy P s a with
      | none => exact length_le_of_not_cut h h' hops hcut hstep
      | some k =>
        calc k = (ofOps P ops).lenBytes := h.cutBy_eq hcut
          _ ≤ (ofOps P ops').lenBytes := lenBytes_mono hops
          _ ≤ s'.file.length := h'.lenBytes_le

end LogStep

/-! ### The invariant -/

/-- The acknowledgement is of an op in the chain that ends within `n` bytes. -/
def Stored (P : Prims) (file : Bytes) (n : Nat) (a : Ack) : Prop :=
  ∃ front, front <+: chainOf P file ∧ a ∈ front.map Ack.of ∧ (ofOps P front).lenBytes ≤ n

/-- The call's target is the end of a front of the chain that has the handle's appends. -/
def CallOk (P : Prims) (file : Bytes) (c : SyncCall) : Prop :=
  ∃ front, front <+: chainOf P file ∧ c.mine ⊆ front.map Ack.of ∧
    c.target = (ofOps P front).lenBytes ∧ c.target ≤ file.length

structure DurableInv (P : Prims) (s : DurableState) : Prop where
  log : LogInv P s.log
  synced_le : s.synced ≤ s.log.file.length
  marker_le : s.marker ≤ s.synced
  versions_le : ∀ m ∈ s.versions, m ≤ s.marker
  holder : ∀ i c, s.calls i = some c → c.phase ≠ .waiting → s.holder = some i
  call : ∀ i c, s.calls i = some c → CallOk P s.log.file c
  measured : ∀ i c eof, s.calls i = some c → c.eof = some eof →
    s.marker ≤ eof ∧ eof ≤ s.log.file.length ∧ c.target ≤ eof
  flushed : ∀ i c eof, s.calls i = some c → c.phase = .synced eof → eof ≤ s.synced
  promised : ∀ a ∈ s.promised, Stored P s.log.file s.synced a

namespace DurableInv

variable {s : DurableState}

theorem stored_of_call {file : Bytes} {c : SyncCall} (h : CallOk P file c) {n : Nat}
    (hn : c.target ≤ n) : ∀ a ∈ c.mine, Stored P file n a := by
  obtain ⟨front, hfront, hmine, htarget, -⟩ := h
  intro a ha
  exact ⟨front, hfront, hmine ha, htarget ▸ hn⟩

variable (h : DurableInv P s)
include h

/-- A call that ends leaves the others as they are. -/
theorem clear (i : Nat) : DurableInv P (s.clear i) := by
  have hold : ∀ j c, (s.clear i).calls j = some c → j ≠ i ∧ s.calls j = some c := by
    intro j c hget
    by_cases hij : j = i
    · subst hij
      simp [DurableState.clear] at hget
    · refine ⟨hij, ?_⟩
      simpa [DurableState.clear, Function.update_of_ne hij] using hget
  exact { h with
    holder := by
      intro j c hget hphase
      obtain ⟨hij, hget⟩ := hold j c hget
      have hj := h.holder j c hget hphase
      simp [DurableState.clear, hj, Option.filter, hij]
    call := fun j c hget => h.call j c (hold j c hget).2
    measured := fun j c eof hget => h.measured j c eof (hold j c hget).2
    flushed := fun j c eof hget => h.flushed j c eof (hold j c hget).2 }

theorem returnOk (i : Nat) {mine : List Ack} (hmine : ∀ a ∈ mine, Stored P s.log.file s.synced a) :
    DurableInv P (s.returnOk i mine) := by
  have hclear := h.clear i
  exact { hclear with
    promised := by
      intro a ha
      rcases mem_append.mp ha with hold | hnew
      · exact h.promised a hold
      · exact hmine a hnew }

/-- An fsync moves the durable length up. -/
theorem fsync : DurableInv P { s with synced := s.log.file.length } :=
  { h with
    synced_le := le_rfl
    marker_le := h.marker_le.trans h.synced_le
    flushed := fun i c eof hget hphase => (h.flushed i c eof hget hphase).trans h.synced_le
    promised := by
      intro a ha
      obtain ⟨front, hfront, hmem, hlen⟩ := h.promised a ha
      exact ⟨front, hfront, hmem, hlen.trans h.synced_le⟩ }

/-- A call that goes on to the next phase. -/
theorem setCall (i : Nat) (c : SyncCall) (hcall : CallOk P s.log.file c)
    (hholder : c.phase ≠ .waiting → s.holder = some i)
    (hmeasured : ∀ eof, c.eof = some eof → s.marker ≤ eof ∧ eof ≤ s.log.file.length ∧ c.target ≤ eof)
    (hflushed : ∀ eof, c.phase = .synced eof → eof ≤ s.synced) :
    DurableInv P { s with calls := Function.update s.calls i (some c) } := by
  have hold : ∀ j c', Function.update s.calls i (some c) j = some c' →
      (j = i ∧ c' = c) ∨ s.calls j = some c' := by
    intro j c' hget
    by_cases hij : j = i
    · subst hij
      rw [Function.update_self] at hget
      exact .inl ⟨rfl, (Option.some.inj hget).symm⟩
    · rw [Function.update_of_ne hij] at hget
      exact .inr hget
  exact { h with
    holder := by
      intro j c' hget hphase
      rcases hold j c' hget with ⟨rfl, rfl⟩ | hget
      · exact hholder hphase
      · exact h.holder j c' hget hphase
    call := by
      intro j c' hget
      rcases hold j c' hget with ⟨rfl, rfl⟩ | hget
      · exact hcall
      · exact h.call j c' hget
    measured := by
      intro j c' eof hget heof
      rcases hold j c' hget with ⟨rfl, rfl⟩ | hget
      · exact hmeasured eof heof
      · exact h.measured j c' eof hget heof
    flushed := by
      intro j c' eof hget hphase
      rcases hold j c' hget with ⟨rfl, rfl⟩ | hget
      · exact hflushed eof hphase
      · exact h.flushed j c' eof hget hphase }

/-! ### The steps -/

/-- A step of the log that cuts nothing the marker or a measured length covers. -/
theorem logStep {a : LogAction} {log : LogState} (hg : MarkerSafe P s (.log a))
    (hstep : OpLog.logStep P s.log a = some log) :
    DurableInv P { s with log, synced := (cutBy P s.log a).getD s.synced } := by
  obtain ⟨hfits, hcut⟩ := hg
  have hnext := logNext_step a h.log hfits hstep
  have hlen := length_le_step h.log hfits hstep
  have hchain := hnext.chain
  have hsynced := h.synced_le
  have hmarker := h.marker_le
  cases hk : cutBy P s.log a with
  | none =>
    rw [hk, Option.getD_none] at hlen
    exact
      { log := hnext.inv
        synced_le := hsynced.trans hlen
        marker_le := hmarker
        versions_le := h.versions_le
        holder := h.holder
        call := by
          intro i c hget
          obtain ⟨front, hfront, hmine, htarget, hle⟩ := h.call i c hget
          exact ⟨front, hfront.trans hchain, hmine, htarget, hle.trans hlen⟩
        measured := by
          intro i c eof hget heof
          obtain ⟨h1, h2, h3⟩ := h.measured i c eof hget heof
          exact ⟨h1, h2.trans hlen, h3⟩
        flushed := h.flushed
        promised := by
          intro a ha
          obtain ⟨front, hfront, hmem, hle⟩ := h.promised a ha
          exact ⟨front, hfront.trans hchain, hmem, hle⟩ }
  | some k =>
    obtain ⟨hmarker', heofs⟩ := hcut k hk
    rw [hk, Option.getD_some] at hlen
    exact
      { log := hnext.inv
        synced_le := hlen
        marker_le := hmarker'
        versions_le := h.versions_le
        holder := h.holder
        call := by
          intro i c hget
          obtain ⟨front, hfront, hmine, htarget, hle⟩ := h.call i c hget
          have hkept := lenBytes_le_cut h.log hk hfront (htarget ▸ hle)
          exact ⟨front, hfront.trans hchain, hmine, htarget, (htarget ▸ hkept).trans hlen⟩
        measured := by
          intro i c eof hget heof
          obtain ⟨h1, h2, h3⟩ := h.measured i c eof hget heof
          exact ⟨h1, (heofs i c eof hget heof).trans hlen, h3⟩
        flushed := by
          intro i c eof hget hphase
          exact heofs i c eof hget (by rw [SyncCall.eof, hphase])
        promised := by
          intro a ha
          obtain ⟨front, hfront, hmem, hle⟩ := h.promised a ha
          have hkept := lenBytes_le_cut h.log hk hfront (hle.trans hsynced)
          exact ⟨front, hfront.trans hchain, hmem, hkept⟩ }

/-- What the handle of a call knows about its own appends. -/
theorem call_handle {i : Nat} {log : OpLog} (hget : s.log.handles i = some log) (phase : SyncPhase) :
    CallOk P s.log.file ⟨log.lenBytes, s.log.mine i, phase⟩ := by
  rcases h.log with hfresh | ⟨ops, torn, hholds⟩
  · rw [hfresh.handles i] at hget
    cases hget
  · obtain ⟨front, hfront, rfl, hmine⟩ := hholds.handles i log hget
    refine ⟨front, ?_, hmine, rfl, ?_⟩
    · rw [hholds.chainOf_eq]
      exact hfront
    · exact (lenBytes_mono hfront).trans hholds.lenBytes_le

theorem mark {i target eof : Nat} {mine : List Ack}
    (hget : s.calls i = some ⟨target, mine, .synced eof⟩) :
    DurableInv P { s.returnOk i mine with marker := eof, versions := s.marker :: s.versions } := by
  obtain ⟨hmarker, -, htarget⟩ := h.measured i _ eof hget rfl
  have heof : eof ≤ s.synced := h.flushed i _ eof hget rfl
  have hmine : ∀ a ∈ mine, Stored P s.log.file s.synced a :=
    stored_of_call (h.call i _ hget) (htarget.trans heof)
  have hreturn := h.returnOk i hmine
  exact { hreturn with
    marker_le := heof
    versions_le := by
      intro m hm
      rcases mem_cons.mp hm with rfl | hm
      · exact hmarker
      · exact (h.versions_le m hm).trans hmarker
    measured := by
      intro j c eof' hget' heof'
      -- nobody else is past the sync lock
      have hj := hreturn.holder j c hget' (by
        intro hwait
        rw [SyncCall.eof, hwait] at heof'
        cases heof')
      have hi : s.holder = some i := h.holder i _ hget (by simp)
      simp [DurableState.returnOk, DurableState.clear, hi, Option.filter] at hj }

theorem crash {n marker : Nat} (hlow : s.synced ≤ n) (hhigh : n ≤ s.log.file.length)
    (hm : marker ∈ 0 :: s.marker :: s.versions) :
    DurableInv P { s with
      log := ⟨s.log.file.take n, fun _ => none, none, [], fun _ => []⟩
      synced := n, marker, versions := [], calls := fun _ => none, holder := none } := by
  obtain ⟨hlog, hkeep⟩ := logInv_crash h.log n
  exact
    { log := hlog
      synced_le := by
        show n ≤ (s.log.file.take n).length
        rw [length_take]
        omega
      marker_le := by
        have hle : marker ≤ s.marker := by
          rcases mem_cons.mp hm with rfl | hm
          · exact Nat.zero_le _
          · rcases mem_cons.mp hm with rfl | hm
            · exact le_rfl
            · exact h.versions_le marker hm
        exact hle.trans (h.marker_le.trans hlow)
      versions_le := fun m hm => by cases hm
      holder := fun i c hget => by cases hget
      call := fun i c hget => by cases hget
      measured := fun i c eof hget => by cases hget
      flushed := fun i c eof hget => by cases hget
      promised := by
        intro a ha
        obtain ⟨front, hfront, hmem, hlen⟩ := h.promised a ha
        have hne : front ≠ [] := by
          rintro rfl
          cases hmem
        exact ⟨front, hkeep front hfront hne (hlen.trans hlow), hmem, hlen.trans hlow⟩ }

/-- **Step lemma.** -/
theorem step {a : DurableAction} {s' : DurableState} (hg : MarkerSafe P s a)
    (hstep : durableStep P s a = some s') : DurableInv P s' := by
  cases a with
  | log a =>
    obtain ⟨log, hlog, rfl⟩ := Option.map_eq_some_iff.mp hstep
    have hnext := h.logStep hg hlog
    cases a with
    | drop i => exact hnext.clear i
    | _ => exact hnext
  | fsync =>
    cases hstep
    exact h.fsync
  | call i skip =>
    obtain rfl : skip = false := hg
    simp only [durableStep] at hstep
    split at hstep
    · rename_i log hget hnone
      have hcall := h.call_handle hget .waiting
      split at hstep
      · rename_i hcovered
        cases hstep
        apply h.returnOk
        apply stored_of_call hcall
        simp only [Bool.false_or, decide_eq_true_eq] at hcovered
        exact hcovered.trans h.marker_le
      · cases hstep
        exact h.setCall i _ hcall (fun hp => absurd rfl hp) (fun eof heof => by cases heof)
          (fun eof hp => by cases hp)
    · cases hstep
  | lock i =>
    simp only [durableStep] at hstep
    split at hstep
    · rename_i target mine hget hfree
      have hcall := h.call i _ hget
      split at hstep
      · rename_i hcovered
        cases hstep
        exact h.returnOk i (stored_of_call hcall (hcovered.trans h.marker_le))
      · cases hstep
        -- the lock is free, so no call is past it
        have hlocked : DurableInv P { s with holder := some i } := { h with
          holder := by
            intro j c hget' hphase
            have := h.holder j c hget' hphase
            rw [hfree] at this
            cases this }
        exact hlocked.setCall i ⟨target, mine, .locked⟩ hcall (fun _ => rfl)
          (fun eof heof => by cases heof) (fun eof hp => by cases hp)
    · cases hstep
  | measure i =>
    simp only [durableStep] at hstep
    split at hstep
    · rename_i target mine hget
      cases hstep
      have hcall := h.call i _ hget
      have hholder : s.holder = some i := h.holder i _ hget (by simp)
      apply h.setCall i ⟨target, mine, .measured s.log.file.length⟩ hcall (fun _ => hholder)
      · intro eof heof
        obtain ⟨front, -, -, -, hle⟩ := hcall
        cases heof
        exact ⟨h.marker_le.trans h.synced_le, le_rfl, hle⟩
      · intro eof hp
        cases hp
    · cases hstep
  | flush i =>
    simp only [durableStep] at hstep
    split at hstep
    · rename_i target mine eof hget
      cases hstep
      have hcall := h.call i _ hget
      have hholder : s.holder = some i := h.holder i _ hget (by simp)
      have hmeasured := h.measured i _ eof hget rfl
      apply h.fsync.setCall i ⟨target, mine, .synced eof⟩ hcall (fun _ => hholder)
      · intro eof' heof
        cases heof
        exact hmeasured
      · intro eof' hp
        cases hp
        exact hmeasured.2.1
    · cases hstep
  | mark i =>
    simp only [durableStep] at hstep
    split at hstep
    · rename_i target mine eof hget
      cases hstep
      exact h.mark hget
    · cases hstep
  | fail i =>
    cases hstep
    exact h.clear i
  | crash n marker =>
    simp only [durableStep] at hstep
    split at hstep
    · rename_i hcrash
      cases hstep
      exact h.crash hcrash.1 hcrash.2.1 hcrash.2.2
    · cases hstep

end DurableInv

theorem durableInv_init (P : Prims) : DurableInv P (durableLogs P).init where
  log := logInv_init P
  synced_le := Nat.zero_le _
  marker_le := Nat.zero_le _
  versions_le := fun m hm => by cases hm
  holder := fun i c hget => by cases hget
  call := fun i c hget => by cases hget
  measured := fun i c eof hget => by cases hget
  flushed := fun i c eof hget => by cases hget
  promised := fun a ha => by cases ha

theorem durableInv_run {s : DurableState} (h : (durableLogs P).ReachableIf (MarkerSafe P) s) :
    DurableInv P s :=
  System.invariant_if (durableInv_init P) (fun _ _ _ hi hg hst => hi.step hg hst) s h

/-! ### The main result -/

/-- **What `sync` returned for is durable.** In every run that meets `MarkerSafe`, the
    marker does not exceed the durable bytes, and the log opens with every operation that a
    handle had appended before a `sync` of it returned `Ok`. -/
theorem sync_is_durable (P : Prims) :
    ∀ s, (durableLogs P).ReachableIf (MarkerSafe P) s →
      s.marker ≤ s.synced ∧ s.synced ≤ s.log.file.length ∧
      ∃ file log, openLog P s.log.file = .ok (file, log) ∧
        ∀ a ∈ s.promised, a ∈ log.ops.map Ack.of := by
  intro s hs
  have h := durableInv_run hs
  refine ⟨h.marker_le, h.synced_le, ?_⟩
  have hopen : ∃ file log, openLog P s.log.file = .ok (file, log) := by
    rcases h.log with hfresh | ⟨ops, torn, hholds⟩
    · obtain ⟨n, hn, hfile⟩ := hfresh.file
      exact ⟨_, _, hfile ▸ openLog_fresh hn⟩
    · exact ⟨_, _, hholds.openLog⟩
  obtain ⟨file, log, hopen⟩ := hopen
  refine ⟨file, log, hopen, ?_⟩
  intro a ha
  obtain ⟨front, hfront, hmem, -⟩ := h.promised a ha
  have hchain : chainOf P s.log.file = log.ops := by rw [chainOf, hopen]
  rw [hchain] at hfront
  exact (hfront.sublist.map Ack.of).subset hmem

/-- One append and one `sync`, and a crash that keeps just what was fsynced. -/
theorem sync_is_durable_once :
    ∃ s, (durableLogs Prims.toy).ReachableIf (MarkerSafe Prims.toy) s ∧ s.promised ≠ [] ∧
      ∃ file log, openLog Prims.toy s.log.file = .ok (file, log) ∧
        ∀ a ∈ s.promised, a ∈ log.ops.map Ack.of := by
  let created : DurableState := ⟨createdLog, 5, 0, [], fun _ => none, none, []⟩
  have hcreated : (durableLogs Prims.toy).ReachableIf (MarkerSafe Prims.toy) created := by
    refine .step (a := .log (.openRepair 0)) .init ⟨trivial, ?_⟩ rfl
    intro k _
    exact ⟨Nat.zero_le k, fun i c eof hget => by cases hget⟩
  have happend : MarkerSafe Prims.toy created (.log (.append 0 "" 0 (.plain [7]))) := by
    refine ⟨?_, fun k hk => by cases hk⟩
    intro payload hpayload
    cases hpayload
    decide
  have hrun : (((durableLogs Prims.toy).step created (.log (.append 0 "" 0 (.plain [7])))).bind
      fun s => ((durableLogs Prims.toy).run s [.call 0 false, .lock 0, .measure 0, .flush 0,
        .mark 0, .crash 96 96]).map fun s => decide (s.promised ≠ [])) = some true := by
    decide +kernel
  obtain ⟨s₁, h₁, hrest⟩ := Option.bind_eq_some_iff.mp hrun
  obtain ⟨s, h₂, hs⟩ := Option.map_eq_some_iff.mp hrest
  have hreach : (durableLogs Prims.toy).ReachableIf (MarkerSafe Prims.toy) s := by
    apply (System.ReachableIf.step hcreated happend h₁).run _ h₂
    intro a ha t
    simp only [mem_cons, not_mem_nil, or_false] at ha
    rcases ha with rfl | rfl | rfl | rfl | rfl | rfl
    · exact (rfl : false = false)
    all_goals exact trivial
  obtain ⟨-, -, file, log, hopen, hkept⟩ := sync_is_durable Prims.toy s hreach
  exact ⟨s, hreach, of_decide_eq_true hs, file, log, hopen, hkept⟩

/-- **A measured half record takes a later `sync` in.** Handle 1's write fails half way;
    handle 0's `sync` records the file's length with the torn record in it.  Handle 0 then
    appends: the torn record is cut off, the new one is shorter, and its `sync` returns
    without an fsync.  A crash loses the operation. -/
theorem sync_is_durable_fails :
    ¬ ∀ s, (durableLogs Prims.toy).ReachableIf (fun _ a => ∀ i, a ≠ .call i true) s →
      s.marker ≤ s.synced ∧
        ∀ a ∈ s.promised, a ∈ (chainOf Prims.toy s.log.file).map Ack.of := by
  intro hall
  have hrun : ((durableLogs Prims.toy).run (durableLogs Prims.toy).init
      [.log (.openRepair 0), .log (.openShared 1),
        .log (.appendHalf 1 "" 0 (.plain (List.replicate 100 0)) 150), .log .appendFails,
        .call 0 false, .lock 0, .measure 0, .flush 0, .mark 0,
        .log (.append 0 "" 0 (.plain [7])), .call 0 false, .crash 5 150]).map
      (fun s => decide (s.promised ≠ [] ∧ chainOf Prims.toy s.log.file = [])) = some true := by
    decide +kernel
  obtain ⟨s, h, hs⟩ := Option.map_eq_some_iff.mp hrun
  obtain ⟨hpromised, hchain⟩ := of_decide_eq_true hs
  have hreach := System.ReachableIf.run (G := fun _ a => ∀ i, a ≠ .call i true) .init (by simp) h
  obtain ⟨-, hkept⟩ := hall s hreach
  obtain ⟨a, rest, hcons⟩ := exists_cons_of_ne_nil hpromised
  have := hkept a (by rw [hcons]; exact mem_cons_self)
  rw [hchain] at this
  cases this

end OpLog

end Alt
