import Alt.Refs.Retry

namespace Alt.Refs

open Alt.Library OpLog List

/-!
# Retried writes

Two systems over `stores P`.  `tracked P` notes how long the log was when each handle was
opened.  `retries P k` is a client that retries one write under the key `k` next to any
other users of the store: an attempt opens a handle and asks for the key, and commits if the
key is not known.

`keys_survive` is the main result.  Its guards ask that the snapshot stands before the key's
last op when a handle is opened.  That is more than the store sees to: the snapshot that is
taken every 1024 ops, or on request, may be taken by the keyed commit itself, and then the
next attempt writes a second time (`keys_survive_fails`).
-/

variable {P : Prims}

/-! ### Handles and the logs they were opened on -/

/-- A store, and the length of the chain when each handle was opened. -/
structure Tracked where
  store : State
  openedAt : Nat → Nat

def trackedStep (P : Prims) (t : Tracked) (a : Action) : Option Tracked :=
  (step P t.store a).map fun s =>
    ⟨s, match a with
      | .openStore i =>
        match (RefStore.openStore P t.store.disk).2 with
        | .ok _ => Function.update t.openedAt i (chainOf P t.store.disk.log).length
        | .error _ => t.openedAt
      | _ => t.openedAt⟩

def tracked (P : Prims) : System Tracked Action where
  init := ⟨(stores P).init, fun _ => 0⟩
  step := trackedStep P

/-- The snapshot stands before the key's last op. -/
def KeyInReach (P : Prims) (k : IdemKey) (disk : Disk) : Prop :=
  ∀ front op, LastKeyed k (chainOf P disk.log) front op →
    SnapshotWithin P disk (chainOf P disk.log) front

/-- The fields fit, and handles are opened with the key in reach. -/
def TrackedKept (P : Prims) (k : IdemKey) (t : Tracked) (a : Action) : Prop :=
  Sized t.store a ∧ ∀ i, a = .openStore i → KeyInReach P k t.store.disk

/-- The handle has applied the log it was opened on, and holds the keys of what it has
    applied from `base` on; `base` is not behind the last op of the key at the time. -/
def HoldsKeys (k : IdemKey) (L : List Op) (openedAt : Nat) (st : Folded) : Prop :=
  openedAt ≤ st.applied ∧ ∃ base ≤ st.applied, st.byKey = keysOf ((L.take st.applied).drop base) ∧
    ∀ front op, LastKeyed k (L.take openedAt) front op → base ≤ front.length

variable {k : IdemKey} {L : List Op}

theorem HoldsKeys.grow {L' : List Op} {openedAt : Nat} {st st' : Folded}
    (h : HoldsKeys k L openedAt st) (hgrown : L <+: L') (happlied : st.applied ≤ L.length)
    (hgrow : KeysGrow L' st st') : HoldsKeys k L' openedAt st' := by
  obtain ⟨hopened, base, hbase, hkeys, hlast⟩ := h
  have htake : ∀ n ≤ L.length, L'.take n = L.take n := by
    intro n hn
    obtain ⟨more, rfl⟩ := hgrown
    exact take_append_of_le_length hn
  refine ⟨hopened.trans hgrow.le, base, hbase.trans hgrow.le, ?_, ?_⟩
  · -- what is held now is what was held and what was newly applied
    have hsplit : (L'.take st'.applied).drop base
        = (L.take st.applied).drop base ++ (L'.take st'.applied).drop st.applied := by
      have hfront : (L'.take st'.applied).take st.applied = L.take st.applied := by
        rw [take_take, Nat.min_eq_left hgrow.le, htake _ happlied]
      rw [← hfront, ← drop_append_of_le_length, take_append_drop]
      rw [hfront, length_take, Nat.min_eq_left happlied]
      exact hbase
    rw [hsplit, keysOf, recordKeys_append, hgrow.keys, hkeys]
    rfl
  · rw [htake _ (hopened.trans happlied)]
    exact hlast

/-- A handle that was opened on the key's last op finds it. -/
theorem HoldsKeys.found {front : List Op} {openedAt : Nat} {st : Folded} {op : Op}
    (h : HoldsKeys k L openedAt st) (hlast : LastKeyed k L front op)
    (hopened : front.length < openedAt) : st.byKey k = some op.id := by
  obtain ⟨hle, base, -, hkeys, hbase⟩ := h
  have hin : LastKeyed k (L.take openedAt) front op := by
    simpa using hlast.window hopened (Nat.zero_le front.length)
  rw [hkeys]
  exact (hlast.window (hopened.trans_le hle) (hbase front op hin)).keysOf

/-- Opening with the key in reach. -/
theorem holdsKeys_openStore {disk disk' : Disk} {log : Bytes} {store : RefStore}
    (hopen : openLog P disk.log = .ok (log, ofOps P L)) (hlinked : Linked P OpId.root L)
    (hfree : CollisionFree P L) (hcount : L.length < 2 ^ 32) (hd : DiskInv P disk.snapshot L)
    (hreach : ∀ front op, LastKeyed k L front op → SnapshotWithin P disk L front)
    (hstore : RefStore.openStore P disk = (disk', .ok store)) :
    HoldsKeys k L L.length store.toFolded := by
  obtain ⟨refs, hr⟩ := hd.replays
  obtain ⟨store', hstore', -, happlied, -, hkeys⟩ := openStore_eq hopen hlinked hfree hcount hd hr
  rw [hstore] at hstore'
  cases hstore'
  have hmin : ∀ n, L.drop (min n L.length) = L.drop n := by
    intro n
    rcases Nat.le_total n L.length with hn | hn
    · rw [Nat.min_eq_left hn]
    · rw [Nat.min_eq_right hn, drop_length, drop_of_length_le hn]
  refine ⟨happlied.ge, min (RefStore.replayBase P disk.snapshot (ofOps P L)).2 L.length, ?_, ?_, ?_⟩
  · rw [happlied]
    exact Nat.min_le_right _ _
  · rw [happlied, take_length, hmin, hkeys]
  · intro front op hlast
    rw [take_length] at hlast
    exact (Nat.min_le_left _ _).trans (replayBase_le hcount (hreach front op hlast))

/-- The run invariant of `stores P`, and what each handle holds of the key `k`. -/
structure TrackedInv (P : Prims) (k : IdemKey) (t : Tracked) (L : List Op) : Prop where
  run : RunInv P t.store L
  keys : CollisionFree P L → L.length < 2 ^ 32 → ∀ i h, t.store.handles i = some h →
    HoldsKeys k L (t.openedAt i) h.toFolded

variable {t : Tracked}

theorem trackedInv_open {t' : Tracked} (hinv : TrackedInv P k t L) {i : Nat}
    (hreach : KeyInReach P k t.store.disk) (hstep : trackedStep P t (.openStore i) = some t') :
    TrackedInv P k t' L := by
  obtain ⟨s', hs', rfl⟩ := Option.map_eq_some_iff.mp hstep
  refine ⟨hinv.run.openStore hs', fun hfree hcount j h hj => ?_⟩
  obtain ⟨log, hopen, hholds⟩ := hinv.run.openLog
  obtain ⟨hd, -⟩ := hinv.run.refs hfree hcount
  simp only [step] at hs'
  simp only at hj ⊢
  split at hs'
  · rename_i disk store heq
    cases hs'
    simp only [heq]
    simp only [State.withHandle, Function.update_apply] at hj ⊢
    split at hj
    · rename_i hji
      cases hj
      unfold KeyInReach at hreach
      rw [hinv.run.chainOf_eq] at hreach
      rw [if_pos hji, hinv.run.chainOf_eq]
      exact holdsKeys_openStore hopen hholds.2 hfree hcount hd hreach heq
    · rename_i hji
      rw [if_neg hji]
      exact hinv.keys hfree hcount j h hj
  · rename_i disk e heq
    cases hs'
    simp only [heq]
    exact hinv.keys hfree hcount j h hj

theorem trackedInv_step {t' : Tracked} {a : Action} (hinv : ∃ L, TrackedInv P k t L)
    (hg : TrackedKept P k t a) (hstep : trackedStep P t a = some t') :
    ∃ L, TrackedInv P k t' L := by
  obtain ⟨L, hinv⟩ := hinv
  obtain ⟨hsized, hreach⟩ := hg
  by_cases hopen : ∃ i, a = .openStore i
  · obtain ⟨i, rfl⟩ := hopen
    exact ⟨L, trackedInv_open hinv (hreach i rfl) hstep⟩
  · have hother : ∀ i, a ≠ .openStore i := fun i h => hopen ⟨i, h⟩
    obtain ⟨s', hs', ht'⟩ := Option.map_eq_some_iff.mp hstep
    obtain ⟨L', hgrows, hrun'⟩ := runInv_next hinv.run hsized hs'
    have hgrown : L <+: L' := by
      rcases hgrows with rfl | ⟨op, rfl, -⟩
      · exact prefix_rfl
      · exact prefix_append _ _
    have hopened : t'.openedAt = t.openedAt := by
      rw [← ht']
      cases a with
      | openStore i => exact absurd rfl (hother i)
      | commit => rfl
      | recordOp => rfl
      | refresh => rfl
      | snapshot => rfl
    have hstore : t'.store = s' := by rw [← ht']
    refine ⟨L', by rw [hstore]; exact hrun', fun hfree hcount j h' hj => ?_⟩
    have hfree' := hfree.of_prefix hgrown
    have hcount' := Nat.lt_of_le_of_lt hgrown.length_le hcount
    rw [hstore] at hj
    obtain ⟨h, hh, hgrow⟩ :=
      keysGrow_step hinv.run hrun' hgrown hfree' hcount' hsized hs' hother j h' hj
    rw [hopened]
    exact (hinv.keys hfree' hcount' j h hh).grow hgrown
      ((hinv.run.refs hfree' hcount').2 j h hh).applied_le hgrow

theorem trackedInv_run (ht : (tracked P).ReachableIf (TrackedKept P k) t) :
    ∃ L, TrackedInv P k t L :=
  System.invariant_if (I := fun t => ∃ L, TrackedInv P k t L)
    ⟨[], runInv_init, fun _ _ i h hh => by cases hh⟩
    (fun _ _ _ hinv hg hstep => trackedInv_step hinv hg hstep) t ht

/-! ### A client that retries -/

/-- A store, and the handle through which the client is about to commit. -/
structure Retrying where
  store : State
  pending : Option Nat

inductive RetryAction
  /-- Anyone else, or the client through another key. -/
  | other (a : Action)
  /-- An attempt opens the store and asks for the key. -/
  | begin (i : Nat)
  /-- The attempt's key was not known: it commits. -/
  | finish (actor : String) (timestampMs : UInt64) (changes : List RefChange)
      (policy : Option RefPolicy) (synced : Bool)

def retryStep (P : Prims) (k : IdemKey) (c : Retrying) : RetryAction → Option Retrying
  | .other a =>
    if a.key = some k then none else (step P c.store a).map fun s => { c with store := s }
  | .begin i =>
    (step P c.store (.openStore i)).map fun s =>
      ⟨s, match (RefStore.openStore P c.store.disk).2 with
        | .ok store => if store.appliedRequest k = none then some i else none
        | .error _ => none⟩
  | .finish actor timestampMs changes policy synced =>
    c.pending.bind fun i =>
      (step P c.store (.commit i actor timestampMs changes (some k) policy synced)).map fun s =>
        ⟨s, none⟩

def retries (P : Prims) (k : IdemKey) : System Retrying RetryAction where
  init := ⟨(stores P).init, none⟩
  step := retryStep P k

/-- The fields fit, and attempts begin with the key in reach. -/
def RetryKept (P : Prims) (k : IdemKey) (c : Retrying) : RetryAction → Prop
  | .other a => Sized c.store a
  | .begin _ => KeyInReach P k c.store.disk
  | .finish actor timestampMs changes policy synced =>
    Sized c.store (.commit 0 actor timestampMs changes (some k) policy synced)

/-- The ops of the chain that record `k`. -/
def keyedOps (k : IdemKey) (L : List Op) : List Op := L.filter fun op => opKey op = some k

theorem keyedOps_eq_nil :
    keyedOps k L = [] ↔ ∀ o ∈ L, opKey o ≠ some k := by
  simp [keyedOps, filter_eq_nil_iff]

/-- At most one op records the key, and none while the client is about to commit. -/
structure RetryInv (P : Prims) (k : IdemKey) (c : Retrying) (L : List Op) : Prop where
  run : RunInv P c.store L
  once : CollisionFree P L → L.length < 2 ^ 32 → (keyedOps k L).length ≤ 1
  pending : CollisionFree P L → L.length < 2 ^ 32 → c.pending ≠ none → keyedOps k L = []

/-- An op under another key is no op of the client. -/
theorem keyedOps_grows {key : Option IdemKey} {L' : List Op} (h : Grows key L L')
    (hkey : key ≠ some k) : L <+: L' ∧ keyedOps k L' = keyedOps k L := by
  rcases h with rfl | ⟨op, rfl, hop⟩
  · exact ⟨prefix_rfl, rfl⟩
  · have hne : opKey op ≠ some k := hop ▸ hkey
    refine ⟨prefix_append _ _, ?_⟩
    simp [keyedOps, filter_append, hne]

theorem retryInv_step {c c' : Retrying} {a : RetryAction} (hinv : ∃ L, RetryInv P k c L)
    (hg : RetryKept P k c a) (hstep : retryStep P k c a = some c') : ∃ L, RetryInv P k c' L := by
  obtain ⟨L, hinv⟩ := hinv
  cases a with
  | other a =>
    simp only [retryStep] at hstep
    split at hstep
    · cases hstep
    · rename_i hkey
      obtain ⟨s, hs, rfl⟩ := Option.map_eq_some_iff.mp hstep
      obtain ⟨L', hgrows, hrun⟩ := runInv_next hinv.run hg hs
      obtain ⟨hgrown, hkeyed⟩ := keyedOps_grows hgrows hkey
      refine ⟨L', hrun, fun hfree hcount => ?_, fun hfree hcount hpending => ?_⟩
      · rw [hkeyed]
        exact hinv.once (hfree.of_prefix hgrown) (Nat.lt_of_le_of_lt hgrown.length_le hcount)
      · rw [hkeyed]
        exact hinv.pending (hfree.of_prefix hgrown)
          (Nat.lt_of_le_of_lt hgrown.length_le hcount) hpending
  | begin i =>
    simp only [retryStep] at hstep
    obtain ⟨s, hs, rfl⟩ := Option.map_eq_some_iff.mp hstep
    refine ⟨L, hinv.run.openStore hs, hinv.once, fun hfree hcount hpending => ?_⟩
    -- the opened store knows the key if an op records it
    obtain ⟨log, hopen, hholds⟩ := hinv.run.openLog
    obtain ⟨hd, -⟩ := hinv.run.refs hfree hcount
    obtain ⟨disk, store, hstore, hfinds, -⟩ :=
      opened_keys (k := k) hopen hholds.2 hfree hcount hd
    simp only [hstore] at hpending
    rcases exists_lastKeyed k L with ⟨front, op, hlast⟩ | hnone
    · have hreach : KeyInReach P k c.store.disk := hg
      unfold KeyInReach at hreach
      rw [hinv.run.chainOf_eq] at hreach
      have hfound := (hfinds front op hlast).mpr (hreach front op hlast)
      rw [hfound] at hpending
      exact absurd rfl hpending
    · exact keyedOps_eq_nil.mpr hnone
  | finish actor timestampMs changes policy synced =>
    simp only [retryStep] at hstep
    obtain ⟨i, hi, hstep⟩ := Option.bind_eq_some_iff.mp hstep
    obtain ⟨s, hs, rfl⟩ := Option.map_eq_some_iff.mp hstep
    obtain ⟨L', hgrows, hrun⟩ := runInv_next hinv.run (a := .commit i actor timestampMs changes
      (some k) policy synced) hg hs
    refine ⟨L', hrun, fun hfree hcount => ?_, fun _ _ hpending => absurd rfl hpending⟩
    have hpending : c.pending ≠ none := by
      rw [hi]
      simp
    rcases hgrows with rfl | ⟨op, rfl, -⟩
    · exact hinv.once hfree hcount
    · have hgrown : L <+: L ++ [op] := prefix_append _ _
      have hnil := hinv.pending (hfree.of_prefix hgrown)
        (Nat.lt_of_le_of_lt hgrown.length_le hcount) hpending
      rw [keyedOps, filter_append, ← keyedOps, hnil, nil_append]
      exact (length_filter_le _ _).trans (by simp)

theorem retryInv_run {c : Retrying} (hc : (retries P k).ReachableIf (RetryKept P k) c) :
    ∃ L, RetryInv P k c L :=
  System.invariant_if (I := fun c => ∃ L, RetryInv P k c L)
    ⟨[], runInv_init, fun _ _ => Nat.zero_le 1, fun _ _ _ => rfl⟩
    (fun _ _ _ hinv hg hstep => retryInv_step hinv hg hstep) c hc

/-! ### The main result -/

/-- **Keys survive where the snapshot stands before them.**  In every run: opening succeeds,
    and finds a key's last op iff the snapshot is within what is before it; if handles are
    opened with the key in reach, each finds the key's last op as long as it was opened on
    it; and if a client's attempts begin so, it never writes its key twice. -/
theorem keys_survive (P : Prims) (k : IdemKey) :
    (∀ s, (stores P).ReachableIf Sized s → CollisionFree P (chainOf P s.disk.log) →
      (chainOf P s.disk.log).length < 2 ^ 32 →
      ∃ disk store, RefStore.openStore P s.disk = (disk, .ok store) ∧
        ∀ front op, LastKeyed k (chainOf P s.disk.log) front op →
          (store.appliedRequest k = some op.id ↔
            SnapshotWithin P s.disk (chainOf P s.disk.log) front)) ∧
    (∀ t, (tracked P).ReachableIf (TrackedKept P k) t →
      CollisionFree P (chainOf P t.store.disk.log) →
      (chainOf P t.store.disk.log).length < 2 ^ 32 →
      ∀ i h front op, t.store.handles i = some h →
        LastKeyed k (chainOf P t.store.disk.log) front op → front.length < t.openedAt i →
        h.appliedRequest k = some op.id) ∧
    ∀ c, (retries P k).ReachableIf (RetryKept P k) c →
      CollisionFree P (chainOf P c.store.disk.log) →
      (chainOf P c.store.disk.log).length < 2 ^ 32 →
      (keyedOps k (chainOf P c.store.disk.log)).length ≤ 1 := by
  refine ⟨fun s hs hfree hcount => ?_, fun t ht hfree hcount i h front op hh hlast hopened => ?_,
    fun c hc hfree hcount => ?_⟩
  · obtain ⟨L, hinv⟩ := exists_runInv hs
    rw [hinv.chainOf_eq] at hfree hcount ⊢
    obtain ⟨log, hopen, hholds⟩ := hinv.openLog
    obtain ⟨disk, store, hstore, hfinds, -⟩ :=
      opened_keys (k := k) hopen hholds.2 hfree hcount (hinv.refs hfree hcount).1
    exact ⟨disk, store, hstore, hfinds⟩
  · obtain ⟨L, hinv⟩ := trackedInv_run ht
    rw [hinv.run.chainOf_eq] at hfree hcount hlast
    exact (hinv.keys hfree hcount i h hh).found hlast hopened
  · obtain ⟨L, hinv⟩ := retryInv_run hc
    rw [hinv.run.chainOf_eq] at hfree hcount ⊢
    exact hinv.once hfree hcount

/-! ### One retried commit -/

theorem keyInReach_of_none {disk : Disk} (h : disk.snapshot = none) :
    KeyInReach P k disk := by
  intro front op _ atOp refs hread
  rw [h] at hread
  cases hread

/-- A first attempt that commits, and a second one that finds the key. -/
def retriedRun : List RetryAction :=
  [.begin 0, .finish "alice" 1 sampleChanges none true, .begin 1]

theorem keys_survive_first : ∃ c, (retries Prims.toy sampleKey).run
    (retries Prims.toy sampleKey).init retriedRun = some c ∧ c.pending = none ∧
    chainOf Prims.toy c.store.disk.log = [sampleOp] ∧
    (keyedOps sampleKey (chainOf Prims.toy c.store.disk.log)).length ≤ 1 := by
  have hsome : ((retries Prims.toy sampleKey).run (retries Prims.toy sampleKey).init
      retriedRun).isSome = true := by decide +kernel
  obtain ⟨c, hrun⟩ := Option.isSome_iff_exists.mp hsome
  have heval : ((retries Prims.toy sampleKey).run (retries Prims.toy sampleKey).init
      retriedRun).map (fun c => decide (c.pending = none ∧
        chainOf Prims.toy c.store.disk.log = [sampleOp])) = some true := by decide +kernel
  rw [hrun, Option.map_some, Option.some.injEq, decide_eq_true_eq] at heval
  obtain ⟨hpending, hchain⟩ := heval
  -- no snapshot is about when an attempt begins
  have hc : (retries Prims.toy sampleKey).ReachableIf (RetryKept Prims.toy sampleKey) c := by
    simp only [retriedRun, System.run, Option.bind_eq_some_iff, Option.some.injEq] at hrun
    obtain ⟨c1, h1, c2, h2, c3, h3, rfl⟩ := hrun
    have hc1 : c1 = ⟨sampleState, some 0⟩ := by
      have hbegin : (retries Prims.toy sampleKey).step (retries Prims.toy sampleKey).init
          (.begin 0) = some ⟨sampleState, some 0⟩ := rfl
      rw [h1] at hbegin
      exact Option.some.inj hbegin
    subst hc1
    have hsnap : ((retries Prims.toy sampleKey).step ⟨sampleState, some 0⟩
        (.finish "alice" 1 sampleChanges none true)).map
          (fun c => decide (c.store.disk.snapshot = none)) = some true := by decide +kernel
    rw [h2, Option.map_some, Option.some.injEq, decide_eq_true_eq] at hsnap
    have hr1 : (retries Prims.toy sampleKey).ReachableIf (RetryKept Prims.toy sampleKey)
        ⟨sampleState, some 0⟩ := .step (a := .begin 0) .init (keyInReach_of_none rfl) h1
    have hr2 : (retries Prims.toy sampleKey).ReachableIf (RetryKept Prims.toy sampleKey) c2 :=
      .step (a := .finish "alice" 1 sampleChanges none true) hr1
        ⟨fits_sampleChanges, body_sampleCommit⟩ h2
    exact .step (a := .begin 1) hr2 (keyInReach_of_none hsnap) h3
  have hfree : CollisionFree Prims.toy (chainOf Prims.toy c.store.disk.log) := by
    rw [hchain]
    exact collisionFree_sampleOp
  have hcount : (chainOf Prims.toy c.store.disk.log).length < 2 ^ 32 := by
    rw [hchain]
    decide
  exact ⟨c, hrun, hpending, hchain, (keys_survive Prims.toy sampleKey).2.2 c hc hfree hcount⟩

/-- The commit, a snapshot by the committing handle, and a handle opened on it. -/
def snapshotRun : List Action :=
  [.openStore 0, .commit 0 "alice" 1 sampleChanges (some sampleKey) none true, .snapshot 0,
    .openStore 1]

/-- The client's second write of the ref, should it not find its key. -/
def secondChanges : List RefChange :=
  [⟨"refs/heads/main", some (.oid (.sha1 (.fill 20 1))), some (.oid (.sha1 (.fill 20 2)))⟩]

/-- The same with a client that retries. -/
def writtenTwiceRun : List RetryAction :=
  [.begin 0, .finish "alice" 1 sampleChanges none true, .other (.snapshot 0), .begin 0,
    .finish "alice" 2 secondChanges none true]

/-- The handle opened on the snapshot does not find the key, and the client writes twice. -/
theorem keys_survive_fails :
    (∃ t h, (tracked Prims.toy).Reachable t ∧ t.store.handles 1 = some h ∧
      LastKeyed sampleKey (chainOf Prims.toy t.store.disk.log) [] sampleOp ∧
      0 < t.openedAt 1 ∧ h.appliedRequest sampleKey = none) ∧
    ∃ c, (retries Prims.toy sampleKey).Reachable c ∧
      (keyedOps sampleKey (chainOf Prims.toy c.store.disk.log)).length = 2 := by
  constructor
  · have hsome : ((tracked Prims.toy).run (tracked Prims.toy).init snapshotRun).isSome = true := by
      decide +kernel
    obtain ⟨t, hrun⟩ := Option.isSome_iff_exists.mp hsome
    have heval : ((tracked Prims.toy).run (tracked Prims.toy).init snapshotRun).bind (fun t =>
        (t.store.handles 1).map fun h =>
          decide (chainOf Prims.toy t.store.disk.log = [sampleOp] ∧ 0 < t.openedAt 1 ∧
            h.appliedRequest sampleKey = none)) = some true := by decide +kernel
    rw [hrun, Option.bind_some] at heval
    obtain ⟨h, hh, hfacts⟩ := Option.map_eq_some_iff.mp heval
    obtain ⟨hchain, hopened, hnone⟩ := of_decide_eq_true hfacts
    have hkey : opKey sampleOp = some sampleKey := by decide +kernel
    refine ⟨t, h, System.reachable_of_run hrun, hh, ?_, hopened, hnone⟩
    exact ⟨hkey, [], hchain, fun o ho => absurd ho not_mem_nil⟩
  · have hsome : ((retries Prims.toy sampleKey).run (retries Prims.toy sampleKey).init
        writtenTwiceRun).isSome = true := by decide +kernel
    obtain ⟨c, hrun⟩ := Option.isSome_iff_exists.mp hsome
    have heval : ((retries Prims.toy sampleKey).run (retries Prims.toy sampleKey).init
        writtenTwiceRun).map (fun c => decide
          ((keyedOps sampleKey (chainOf Prims.toy c.store.disk.log)).length = 2)) = some true := by
      decide +kernel
    rw [hrun, Option.map_some, Option.some.injEq, decide_eq_true_eq] at heval
    exact ⟨c, System.reachable_of_run hrun, heval⟩

end Alt.Refs
