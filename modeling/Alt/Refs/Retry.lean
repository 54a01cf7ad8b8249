import Alt.Refs.Linear

namespace Alt.Refs

open Alt.Library OpLog List

/-!
# Idempotency keys across a reopen

An opened store knows the keys of the ops past its snapshot; from then on its keys grow by
those of the ops it applies.

* `LastKeyed k L front op` — `op` is the last op of `L` that records `k`, behind `front`;
* `SnapshotWithin` — the snapshot names no op of the chain behind `front`;
* `opened_keys` — an opened store finds a key's last op iff the snapshot is within what is
  before it;
* `keysGrow_step` — what a handle learns in one step of any handle.
-/

variable {P : Prims}

/-! ### The last op of a key -/

/-- `op` is the last op of `L` that records `k`. -/
structure LastKeyed (k : IdemKey) (L front : List Op) (op : Op) : Prop where
  key : opKey op = some k
  split : ∃ rest, L = front ++ op :: rest ∧ ∀ o ∈ rest, opKey o ≠ some k

theorem recordKeys_of_not_mem {k : IdemKey} {byKey : ByKey} {ops : List Op}
    (h : ∀ o ∈ ops, opKey o ≠ some k) : recordKeys byKey ops k = byKey k := by
  induction ops generalizing byKey with
  | nil => rfl
  | cons op ops ih =>
    have hcons : recordKeys byKey (op :: ops)
        = recordKeys (insertKey byKey (opKey op) op.id) ops := rfl
    rw [hcons, ih fun o ho => h o (mem_cons_of_mem _ ho)]
    have hop := h op mem_cons_self
    cases hkey : opKey op with
    | none => rfl
    | some k' =>
      rw [hkey] at hop
      exact Function.update_of_ne (fun heq : k = k' => hop (by rw [heq])) _ _

theorem keysOf_of_not_mem {k : IdemKey} {ops : List Op} (h : ∀ o ∈ ops, opKey o ≠ some k) :
    keysOf ops k = none := recordKeys_of_not_mem h

/-- The index names the last op of a key. -/
theorem LastKeyed.keysOf {k : IdemKey} {L front : List Op} {op : Op}
    (h : LastKeyed k L front op) : Refs.keysOf L k = some op.id := by
  obtain ⟨rest, rfl, hrest⟩ := h.split
  have hcons : ∀ byKey, recordKeys byKey (op :: rest)
      = recordKeys (insertKey byKey (opKey op) op.id) rest := fun _ => rfl
  rw [Refs.keysOf, recordKeys_append, hcons, recordKeys_of_not_mem hrest, h.key]
  exact Function.update_self _ _ _

/-- It stays the last op of a part of the list that it is in. -/
theorem LastKeyed.window {k : IdemKey} {L front : List Op} {op : Op} (h : LastKeyed k L front op)
    {n base : Nat} (hn : front.length < n) (hbase : base ≤ front.length) :
    LastKeyed k ((L.take n).drop base) (front.drop base) op := by
  obtain ⟨rest, rfl, hrest⟩ := h.split
  refine ⟨h.key, rest.take (n - front.length - 1), ?_,
    fun o ho => hrest o (mem_of_mem_take ho)⟩
  obtain ⟨m, hm⟩ : ∃ m, n - front.length = m + 1 := ⟨n - front.length - 1, by omega⟩
  rw [take_append, take_of_length_le hn.le, hm, take_succ_cons,
    drop_append_of_le_length hbase]
  rfl

/-- A key is recorded or not. -/
theorem exists_lastKeyed (k : IdemKey) (L : List Op) :
    (∃ front op, LastKeyed k L front op) ∨ ∀ o ∈ L, opKey o ≠ some k := by
  induction L using List.reverseRecOn with
  | nil => exact .inr fun o ho => absurd ho not_mem_nil
  | append_singleton L op ih =>
    by_cases hkey : opKey op = some k
    · exact .inl ⟨L, op, hkey, [], rfl, fun o ho => absurd ho not_mem_nil⟩
    · rcases ih with ⟨front, last, hlast⟩ | hnone
      · obtain ⟨rest, rfl, hrest⟩ := hlast.split
        refine .inl ⟨front, last, hlast.key, rest ++ [op], by simp, fun o ho => ?_⟩
        rcases mem_append.mp ho with ho | ho
        · exact hrest o ho
        · exact mem_singleton.mp ho ▸ hkey
      · refine .inr fun o ho => ?_
        rcases mem_append.mp ho with ho | ho
        · exact hnone o ho
        · exact mem_singleton.mp ho ▸ hkey

/-! ### Opening -/

/-- The snapshot names no op of the chain `L` behind `front`. -/
def SnapshotWithin (P : Prims) (disk : Disk) (L front : List Op) : Prop :=
  ∀ atOp refs, Snapshot.read P disk.snapshot = some (atOp, refs) →
    ∀ o ∈ L.drop front.length, o.id ≠ atOp

/-- Then replay starts within `front`. -/
theorem replayBase_le {disk : Disk} {L front : List Op} (hcount : L.length < 2 ^ 32)
    (h : SnapshotWithin P disk L front) :
    (RefStore.replayBase P disk.snapshot (ofOps P L)).2 ≤ front.length := by
  rw [RefStore.replayBase]
  cases hread : Snapshot.read P disk.snapshot with
  | none => exact Nat.zero_le _
  | some found =>
    obtain ⟨atOp, refs⟩ := found
    cases hindex : indexOf (ofOps P L) atOp with
    | none => simp only [hindex, Nat.zero_le]
    | some index =>
      obtain ⟨op, hop, hid⟩ := id_of_indexOf hcount hindex
      simp only [hindex]
      by_contra hlt
      have hdrop : (L.drop front.length)[index - front.length]? = some op := by
        rw [getElem?_drop, ← hop]
        congr 1
        omega
      exact h atOp refs hread op (mem_of_getElem? hdrop) hid

/-- Otherwise it starts behind the first op past `front`. -/
theorem lt_replayBase {disk : Disk} {L front : List Op} (hlinked : Linked P OpId.root L)
    (hfree : CollisionFree P L) (hcount : L.length < 2 ^ 32)
    (h : ¬SnapshotWithin P disk L front) :
    front.length < (RefStore.replayBase P disk.snapshot (ofOps P L)).2 := by
  simp only [SnapshotWithin, not_forall, not_not] at h
  obtain ⟨atOp, refs, hread, o, ho, rfl⟩ := h
  obtain ⟨j, hj, rfl⟩ := getElem_of_mem ho
  rw [getElem_drop] at hread
  rw [length_drop] at hj
  have hindex := indexOf_ofOps hlinked hfree hcount (k := front.length + j) (by omega)
  rw [RefStore.replayBase, hread]
  simp only [hindex]
  omega

/-- **An opened store finds a key's last op iff the snapshot is within what is before it.** -/
theorem opened_keys {disk : Disk} {L : List Op} {log : Bytes}
    (hopen : openLog P disk.log = .ok (log, ofOps P L)) (hlinked : Linked P OpId.root L)
    (hfree : CollisionFree P L) (hcount : L.length < 2 ^ 32) (hd : DiskInv P disk.snapshot L)
    {k : IdemKey} : ∃ disk' store, RefStore.openStore P disk = (disk', .ok store) ∧
      (∀ front op, LastKeyed k L front op →
        (store.appliedRequest k = some op.id ↔ SnapshotWithin P disk L front)) ∧
      ((∀ o ∈ L, opKey o ≠ some k) → store.appliedRequest k = none) := by
  obtain ⟨refs, hr⟩ := hd.replays
  obtain ⟨store, hstore, -, -, -, hkeys⟩ := openStore_eq hopen hlinked hfree hcount hd hr
  refine ⟨_, store, hstore, fun front op hlast => ?_, fun hnone => ?_⟩
  · rw [RefStore.appliedRequest, hkeys]
    by_cases hwithin : SnapshotWithin P disk L front
    · have hle := replayBase_le hcount hwithin
      obtain ⟨rest, hL, -⟩ := hlast.split
      have hlt : front.length < L.length := by
        rw [hL]
        simp
      have hfound := (hlast.window hlt hle).keysOf
      rw [take_length] at hfound
      exact iff_of_true hfound hwithin
    · have hlt := lt_replayBase hlinked hfree hcount hwithin
      obtain ⟨rest, hL, hrest⟩ := hlast.split
      refine iff_of_false (fun hfound => ?_) hwithin
      have hnone : Refs.keysOf
          (L.drop (RefStore.replayBase P disk.snapshot (ofOps P L)).2) k = none := by
        apply keysOf_of_not_mem
        intro o ho
        -- what is replayed lies behind the op
        have hdrop : L.drop (front.length + 1) = rest := by
          rw [hL, append_cons, drop_left' (by simp)]
        exact hrest o (hdrop ▸ drop_subset_drop_left L hlt ho)
      rw [hnone] at hfound
      cases hfound
  · rw [RefStore.appliedRequest, hkeys]
    exact keysOf_of_not_mem fun o ho => hnone o (mem_of_mem_drop ho)

/-! ### What a handle learns -/

/-- A handle's keys grow by those of the ops of `L` it newly applies. -/
structure KeysGrow (L : List Op) (st st' : Folded) : Prop where
  le : st.applied ≤ st'.applied
  applied_le : st'.applied ≤ L.length
  keys : st'.byKey = recordKeys st.byKey ((L.take st'.applied).drop st.applied)

theorem KeysGrow.refl {L : List Op} {st : Folded} (h : st.applied ≤ L.length) :
    KeysGrow L st st := by
  refine ⟨le_rfl, h, ?_⟩
  rw [drop_of_length_le (length_take_le _ _)]
  rfl

/-- The fold under the append lock applies the whole log. -/
theorem keysGrow_fold {L : List Op} (op : Op) {st st' : Folded} {refs : RefMap}
    (hfold : (foldNew st L).1 = ⟨refs, L.length, recordKeys st.byKey (L.drop st.applied)⟩)
    (happlied : st.applied ≤ L.length) (hst : st' = (foldNew st L).1) :
    KeysGrow L st st' ∧ KeysGrow (L ++ [op]) st st' := by
  rw [hst, hfold]
  refine ⟨⟨happlied, le_rfl, by simp⟩, ⟨happlied, by simp, ?_⟩⟩
  rw [take_left]

section Handle

variable {disk : Disk} {h : RefStore} {L : List Op} {refs : RefMap} {actor : String}
  {timestampMs : UInt64}

theorem keysGrow_outcome {op : Op} {valid : Prop} {final : Folded}
    {r : (Disk × RefStore) × Except RefError OpId} (hout : Outcome P disk h L op valid final r)
    (hlog : Holds P disk.log L) (happlied : h.applied ≤ L.length)
    (hfold : (foldNew h.toFolded L).1
      = ⟨refs, L.length, recordKeys h.byKey (L.drop h.applied)⟩)
    (hfinal : final.applied = L.length + 1)
    (hkeys : final.byKey = insertKey (foldNew h.toFolded L).1.byKey (opKey op) op.id) :
    ∃ L', Holds P r.1.1.log L' ∧ KeysGrow L' h.toFolded r.1.2.toFolded := by
  cases hout with
  | refused e => exact ⟨L, hlog, .refl happlied⟩
  | rejected e =>
    obtain ⟨hgrow, -⟩ := keysGrow_fold op hfold happlied rfl
    exact ⟨L, hlog, hgrow⟩
  | unsynced e _ hholds =>
    obtain ⟨-, hgrow⟩ := keysGrow_fold op hfold happlied rfl
    exact ⟨L ++ [op], hholds, hgrow⟩
  | @done file _ hholds =>
    obtain ⟨hfile, -, -⟩ := noteOp_frame (P := P) ⟨file, disk.snapshot⟩
      ⟨final, ofOps P (L ++ [op]), h.opsSinceSnapshot⟩
    refine ⟨L ++ [op], hfile.symm ▸ hholds, ?_⟩
    rw [noteOp_folded]
    refine ⟨by rw [hfinal]; omega, by rw [hfinal]; simp, ?_⟩
    have htake : (L ++ [op]).take final.applied = L ++ [op] :=
      take_of_length_le (by rw [hfinal]; simp)
    rw [htake, drop_append_of_le_length happlied, recordKeys_append, hkeys, hfold]
    rfl

theorem keysGrow_commit (hlog : Holds P disk.log L) (hf : Follows P L h)
    (hr : replayRefs ∅ L = some refs) (hc : Current disk.snapshot L h.toFolded)
    {changes : List RefChange} {key : Option IdemKey} {policy : Option RefPolicy} {synced : Bool}
    (hfit : TxFits changes)
    (hbody : bodyFixedLen + (utf8 actor).length + (encodeTx changes key).length < 2 ^ 32) :
    let r := (RefStore.commitIdempotent P disk h actor timestampMs changes key policy synced).1
    ∃ L', Holds P r.1.log L' ∧ KeysGrow L' h.toFolded r.2.toFolded := by
  have hout := commit_outcome timestampMs policy synced hlog hf hbody
  refine keysGrow_outcome hout hlog hc.applied_le (congrArg Prod.fst (foldNew_eq hc.refs hr)) rfl ?_
  rw [opKey_txOp hfit (by omega)]

theorem keysGrow_recordOp (hlog : Holds P disk.log L) (hf : Follows P L h)
    (hr : replayRefs ∅ L = some refs) (hc : Current disk.snapshot L h.toFolded)
    {payload : Bytes} {synced : Bool}
    (hbody : bodyFixedLen + (utf8 actor).length + payload.length < 2 ^ 32) :
    let r := (RefStore.recordOp P disk h actor timestampMs payload synced).1
    ∃ L', Holds P r.1.log L' ∧ KeysGrow L' h.toFolded r.2.toFolded := by
  by_cases hkind : payload.head? = some payloadRefTx
  · rw [RefStore.recordOp, if_pos hkind]
    exact ⟨L, hlog, .refl hc.applied_le⟩
  · have hout := recordOp_outcome timestampMs synced hlog hf hkind hbody
    refine keysGrow_outcome hout hlog hc.applied_le (congrArg Prod.fst (foldNew_eq hc.refs hr))
      rfl ?_
    have hkind' : (newOp P L actor timestampMs payload).payload.head? ≠ some payloadRefTx := hkind
    rw [opKey_other hkind']
    rfl

theorem keysGrow_refresh (hlog : Holds P disk.log L) (hf : Follows P L h)
    (hr : replayRefs ∅ L = some refs) (hc : Current disk.snapshot L h.toFolded) :
    let r := (RefStore.refresh P disk h).1
    ∃ L', Holds P r.1.log L' ∧ KeysGrow L' h.toFolded r.2.toFolded := by
  have hfold := foldNew_eq hc.refs hr
  have happlied := hc.applied_le
  obtain ⟨front, ⟨more, rfl⟩, ho⟩ := hf
  have hcatch : OpLog.refresh P disk.log h.oplog
      = ((disk.log, ofOps P (front ++ more)), .ok ()) := by
    rw [ho]
    exact catchUp_holds hlog
  have hops : (ofOps P (front ++ more)).ops = front ++ more := rfl
  simp only [RefStore.refresh, hcatch, hops, hfold]
  refine ⟨_, hlog, happlied, le_rfl, ?_⟩
  rw [take_length]

end Handle

/-- After a step of a handle open before it, that handle's keys have grown, and the others
    are as they were. -/
theorem keysGrow_step {s s' : State} {a : Action} {L L' : List Op} (hinv : RunInv P s L)
    (hinv' : RunInv P s' L') (hgrown : L <+: L') (hfree : CollisionFree P L)
    (hcount : L.length < 2 ^ 32) (hg : Sized s a) (hstep : step P s a = some s')
    (hopen : ∀ i, a ≠ .openStore i) :
    ∀ j h', s'.handles j = some h' →
      ∃ h, s.handles j = some h ∧ KeysGrow L' h.toFolded h'.toFolded := by
  obtain ⟨hd, hc⟩ := hinv.refs hfree hcount
  obtain ⟨refs, hr⟩ := hd.replays
  have hchain := hinv'.chainOf_eq
  -- one handle moves from `h` to `r`, the chain of `r` being the chain of `s'`
  have hupdate : ∀ i h (r : Disk × RefStore), s.handles i = some h → s' = s.withHandle i r →
      (∃ L1, Holds P r.1.log L1 ∧ KeysGrow L1 h.toFolded r.2.toFolded) →
      ∀ j h', s'.handles j = some h' →
        ∃ h, s.handles j = some h ∧ KeysGrow L' h.toFolded h'.toFolded := by
    intro i h r hh hs hgrow j h' hj
    obtain ⟨L1, hholds, hgrow⟩ := hgrow
    subst hs
    have hL1 : L1 = L' := (Holds.chainOf hholds).symm.trans hchain
    simp only [State.withHandle, Function.update_apply] at hj
    split at hj
    · rename_i hji
      cases hj
      exact ⟨h, hji ▸ hh, hL1 ▸ hgrow⟩
    · exact ⟨h', hj, .refl ((hc j h' hj).applied_le.trans hgrown.length_le)⟩
  cases a with
  | openStore i => exact absurd rfl (hopen i)
  | commit i actor timestampMs changes key policy synced =>
    simp only [step, Option.map_eq_some_iff] at hstep
    obtain ⟨h, hh, rfl⟩ := hstep
    exact hupdate i h _ hh rfl
      (keysGrow_commit (hinv.holds hh) (hinv.follows i h hh) hr (hc i h hh) hg.1 hg.2)
  | recordOp i actor timestampMs payload synced =>
    simp only [step, Option.map_eq_some_iff] at hstep
    obtain ⟨h, hh, rfl⟩ := hstep
    exact hupdate i h _ hh rfl
      (keysGrow_recordOp (hinv.holds hh) (hinv.follows i h hh) hr (hc i h hh) hg)
  | refresh i =>
    simp only [step, Option.map_eq_some_iff] at hstep
    obtain ⟨h, hh, rfl⟩ := hstep
    exact hupdate i h _ hh rfl
      (keysGrow_refresh (hinv.holds hh) (hinv.follows i h hh) hr (hc i h hh))
  | snapshot i =>
    simp only [step, Option.map_eq_some_iff] at hstep
    obtain ⟨h, hh, rfl⟩ := hstep
    obtain ⟨hlog, -, -⟩ := snapshot_frame (P := P) s.disk h
    refine hupdate i h _ hh rfl ⟨L, hlog.symm ▸ hinv.holds hh, ?_⟩
    rw [snapshot_folded]
    exact .refl (hc i h hh).applied_le

end Alt.Refs
