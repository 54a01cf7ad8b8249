import Alt.Store.ChunkWrites
import Mathlib.Data.List.Flatten

namespace Alt.Store

open Alt.Library Pack ChunkStore List

/-!
# Compacting, reloading and rewinding

The operations that replace what a handle holds.  `compact_spec` keeps the newest record of
every chunk; `load_spec`, `syncFromDisk_spec` and `rewind_spec` leave the handle in step
with the disk wherever the altidx files agree with their packs (`AltidxAgree`).
-/

variable {P : Prims} {S : IdxSort} {c c₀ : PackSet} {h : ChunkStore}
  {right : ChunkId → Bytes → Prop}

/-! ### Compaction -/

/-- Copying live records gives a pack of the newest records, in the order of the list. -/
theorem copyLive_spec (hf : Follows c h) {l : List (ChunkId × Location)}
    (hl : ∀ e ∈ l, h.index.get e.1 = some e.2) (offset : Nat) :
    ∃ recs, copyLive (c.dir S) h l offset
        = .ok (body recs, (place offset recs).map fun q => (q.1.id, q.2)) ∧
      l.map (fun e => c.newest P e.1) = recs.map some := by
  induction l generalizing offset with
  | nil => exact ⟨[], rfl, rfl⟩
  | cons e l ih =>
    obtain ⟨id, loc⟩ := e
    have hget := hl (id, loc) mem_cons_self
    obtain ⟨r, hr⟩ := hf.newest_of_get (P := P) hget
    obtain ⟨loc', hget', hmem⟩ := hf.locate_newest hr
    rw [hget] at hget'
    cases hget'
    have hread := (hf.readRecord_placed (S := S) hmem id).2
    have hkey : r.id = id := (Coding.key_newest hr).1
    obtain ⟨recs, hcopy, hrecs⟩ := ih (fun e he => hl e (mem_cons_of_mem _ he))
      (offset + recHeaderLen + r.payload.length)
    refine ⟨r :: recs, ?_, ?_⟩
    · unfold copyLive
      rw [hread]
      show (copyLive (c.dir S) h l (offset + recHeaderLen + r.payload.length) >>= fun p =>
        pure (r.header.encode ++ r.payload ++ p.1, (id, offset) :: p.2)) = _
      rw [hcopy, body_cons, place, map_cons, hkey, PackRecord.size, Nat.add_assoc]
      rfl
    · rw [map_cons, map_cons, hrecs, hr]

theorem length_body_perm {recs recs' : List PackRecord} (hp : recs.Perm recs') :
    (body recs).length = (body recs').length :=
  (hp.flatMap_right _).length_eq

/-- Different records of a list take no more room than the list. -/
theorem length_body_le {recs recs' : List PackRecord} (hn : recs.Nodup) (hsub : recs ⊆ recs') :
    (body recs).length ≤ (body recs').length := by
  obtain ⟨recs'', hperm, hsublist⟩ := subperm_of_subset hn hsub
  rw [← length_body_perm hperm]
  exact (hsublist.flatMap _).length_le

theorem foldl_max_le {l : List Nat} {a n : Nat} (ha : a ≤ n) (hl : ∀ x ∈ l, x ≤ n) :
    l.foldl max a ≤ n := by
  induction l generalizing a with
  | nil => exact ha
  | cons x l ih =>
    exact ih (Nat.max_le.mpr ⟨ha, hl x mem_cons_self⟩)
      fun y hy => hl y (mem_cons_of_mem x hy)

/-- The highest pack number is the active one's. -/
theorem max_seqs (S : IdxSort) (c : PackSet) : (c.dir S).seqs.foldl max 0 = c.activeSeq := by
  rw [PackSet.dir_seqs, foldl_append, foldl_cons, foldl_nil]
  apply Nat.max_eq_right
  apply foldl_max_le (Nat.zero_le _)
  intro x hx
  obtain ⟨p, hp, rfl⟩ := mem_map.mp hx
  exact Nat.le_of_lt (c.seq_lt hp)

/-- One sealed pack of the given records and an empty active one. -/
def PackSet.compacted (seq : Nat) (recs : List PackRecord)
    (hsize : (packBytes recs).length < 2 ^ 64) : PackSet where
  sealed := [⟨seq, recs, true, hsize⟩]
  activeSeq := seq + 1
  active := []
  ordered := by simp

/-- Copying the live records gives the newest record of every chunk, each once. -/
theorem copyLive_live (P : Prims) (S : IdxSort) (hf : Follows c h) :
    ∃ recs, copyLive (c.dir S) h (live h) headerLen = .ok (body recs, entries recs) ∧
      (recs.map PackRecord.id).Nodup ∧ ∀ r, r ∈ recs ↔ c.newest P r.id = some r := by
  have hperm : (live h).Perm h.index.entries := perm_insertionSort _ _
  have hlive : ∀ e ∈ live h, h.index.get e.1 = some e.2 := fun e he =>
    (h.index.mem_entries_iff e.1 e.2).mp (hperm.mem_iff.mp he)
  obtain ⟨recs, hcopy, hrecs⟩ := copyLive_spec (S := S) (P := P) hf hlive headerLen
  refine ⟨recs, hcopy, ?_, ?_⟩
  · have hkeys := congrArg (List.map (Option.map PackRecord.id)) hrecs
    rw [map_map, map_map] at hkeys
    have hleft : (live h).map (Option.map PackRecord.id ∘ fun e => c.newest P e.1)
        = (live h).map (fun e => some e.1) := by
      apply map_congr_left
      intro e he
      obtain ⟨r, hr⟩ := hf.newest_of_get (P := P) (hlive e he)
      have hkey : r.id = e.1 := (Coding.key_newest hr).1
      simp only [Function.comp_apply, hr, Option.map_some, hkey]
    rw [hleft] at hkeys
    have hids : recs.map PackRecord.id = (live h).map Prod.fst := by
      have hinj := congrArg (List.filterMap id) hkeys
      simpa [filterMap_map, Function.comp_def] using hinj.symm
    rw [hids]
    exact (hperm.map Prod.fst).nodup_iff.mpr h.index.nodup
  · intro r
    have hr : r ∈ recs ↔ some r ∈ (live h).map fun e => c.newest P e.1 := by
      rw [hrecs]
      simp
    rw [hr, mem_map]
    constructor
    · rintro ⟨e, -, he⟩
      have hkey : r.id = e.1 := (Coding.key_newest he).1
      rw [hkey, he]
    · intro hnew
      obtain ⟨loc, hget, -⟩ := hf.locate_newest hnew
      exact ⟨(r.id, loc), hperm.mem_iff.mpr ((h.index.mem_entries_iff _ _).mpr hget), hnew⟩

/-- A pack of exactly the newest records has the same newest records. -/
theorem newest_compacted {seq : Nat} {recs : List PackRecord}
    (hsize : (packBytes recs).length < 2 ^ 64) (hnodup : (recs.map PackRecord.id).Nodup)
    (hmem : ∀ r, r ∈ recs ↔ c.newest P r.id = some r) (id : ChunkId) :
    (PackSet.compacted seq recs hsize).newest P id = c.newest P id := by
  apply Option.ext
  intro r
  have hrecords : (PackSet.compacted seq recs hsize).records = recs := by
    simp [PackSet.records, PackSet.compacted]
  have hpairs : ((recs.map fun r => (r.id, r)).map Prod.fst).Nodup := by
    simpa [Function.comp_def] using hnodup
  have hlast : (PackSet.compacted seq recs hsize).newest P id = some r
      ↔ (id, r) ∈ recs.map fun r => (r.id, r) := by
    rw [PackSet.newest, hrecords]
    exact lastOf_iff_mem hpairs
  rw [hlast]
  constructor
  · intro hin
    obtain ⟨r', hr', heq⟩ := mem_map.mp hin
    cases heq
    exact (hmem r).mp hr'
  · intro hnew
    obtain rfl : r.id = id := (Coding.key_newest hnew).1
    exact mem_map_of_mem ((hmem r).mpr hnew)

/-- Removing the old packs leaves the compacted and the fresh one. -/
theorem remove_old (S : IdxSort) (c : PackSet) {recs : List PackRecord}
    (hsize : (packBytes recs).length < 2 ^ 64) :
    Dir.remove (c.dir S
        ++ [⟨c.activeSeq + 1, packBytes recs, some (Idx.write S (entries recs))⟩]
        ++ [⟨c.activeSeq + 1 + 1, fileHeader, none⟩]) (c.dir S).seqs
      = (PackSet.compacted (c.activeSeq + 1) recs hsize).dir S := by
  have hold : (c.dir S).filter (fun f => f.seq ∉ (c.dir S).seqs) = [] := by
    rw [filter_eq_nil_iff]
    intro f hfm
    simp [Dir.seqs, mem_map_of_mem hfm]
  have hnew : ∀ f : PackFile, c.activeSeq < f.seq →
      [f].filter (fun f => f.seq ∉ (c.dir S).seqs) = [f] := by
    intro f hlt
    have hnot : f.seq ∉ (c.dir S).seqs := by
      intro hmem
      obtain ⟨g, hg, heq⟩ := mem_map.mp hmem
      have := c.seq_le S hg
      omega
    rw [filter_cons_of_pos (by simpa using hnot), filter_nil]
  rw [Dir.remove, filter_append, filter_append, hold, hnew _ (Nat.lt_succ_self _),
    hnew _ (Nat.lt_succ_of_lt (Nat.lt_succ_self _))]
  simp [PackSet.dir, PackSet.compacted, SealedPack.file, packBytes]

/-- **Compaction** leaves one sealed pack that holds the newest record of every chunk. -/
theorem compact_spec (P : Prims) (hf : Follows c h)
    (hsize : (packBytes c.records).length < 2 ^ 64) (hseq : c.activeSeq + 2 < 2 ^ 32) :
    ∃ c' h', compact S (c.dir S) h = (c'.dir S, h', .ok ()) ∧ Follows c' h' ∧
      h'.cache = h.cache ∧ c'.active = [] ∧ ∀ id, c'.newest P id = c.newest P id := by
  obtain ⟨recs, hcopy, hnodup, hmem⟩ := copyLive_live P S hf
  have hsize' : (packBytes recs).length < 2 ^ 64 := by
    have hsub : recs ⊆ c.records := fun r hr => (Coding.key_newest ((hmem r).mp hr)).2
    have hle := length_body_le (List.Nodup.of_map _ hnodup) hsub
    rw [length_packBytes] at hsize ⊢
    omega
  have hnext : nextSeq c.activeSeq = c.activeSeq + 1 := Nat.mod_eq_of_lt (by omega)
  have hnext' : nextSeq (c.activeSeq + 1) = c.activeSeq + 1 + 1 := Nat.mod_eq_of_lt (by omega)
  have hlow : ∀ f ∈ c.dir S, f.seq < c.activeSeq + 1 := fun f hfm =>
    Nat.lt_succ_of_le (c.seq_le S hfm)
  have hcreate : (c.dir S).create
      ⟨c.activeSeq + 1, packBytes recs, some (Idx.write S (entries recs))⟩
      = c.dir S ++ [⟨c.activeSeq + 1, packBytes recs, some (Idx.write S (entries recs))⟩] :=
    Dir.create_last hlow
  have hlow' : ∀ f ∈ c.dir S
      ++ [⟨c.activeSeq + 1, packBytes recs, some (Idx.write S (entries recs))⟩],
      f.seq < c.activeSeq + 1 + 1 := by
    intro f hfm
    rcases mem_append.mp hfm with hold | hcomp
    · exact Nat.lt_succ_of_lt (hlow f hold)
    · rw [mem_singleton.mp hcomp]
      exact Nat.lt_succ_self _
  refine ⟨PackSet.compacted (c.activeSeq + 1) recs hsize', { h with
    sealed := [(c.activeSeq + 1, packBytes recs)]
    active := ⟨c.activeSeq + 1 + 1, headerLen, []⟩
    index := FinMap.ofEntries (located (c.activeSeq + 1) (entries recs)) }, ?_, ?_, rfl, rfl,
    newest_compacted hsize' hnodup hmem⟩
  · have hdata : fileHeader ++ body recs = packBytes recs := rfl
    unfold compact
    simp only [max_seqs, hnext, hnext', hcopy, hdata, hcreate, createActive_last hlow',
      remove_old S c hsize']
  · refine ⟨rfl, ?_, ?_⟩
    · simp [PackSet.compacted, packBytes, entries, place]
    · intro id
      rw [FinMap.get_ofEntries]
      simp [PackSet.scanned, PackSet.compacted, entries, place, located]

/-! ### Loading -/

/-- Every altidx in the directory names the last record of every chunk in its pack. -/
def AltidxAgree (d : Dir) : Prop :=
  ∀ f ∈ d.dropLast, ∀ listed recs validLen, Idx.read f.idx = .ok listed →
    scan f.data = .ok (recs, validLen) →
    ∀ id, lastOf listed id = lastOf (recs.map fun q => (q.1.id, q.2)) id

theorem AltidxAgree.loaded (ha : AltidxAgree (c.dir S)) {p : SealedPack} (hp : p ∈ c.sealed)
    (id : ChunkId) : lastOf (p.loaded S) id = lastOf (entries p.recs) id := by
  unfold SealedPack.loaded
  by_cases hidx : p.indexed = true
  · rw [if_pos hidx]
    have hmem : p.file S ∈ (c.dir S).dropLast := by
      rw [PackSet.dir, dropLast_concat]
      exact mem_map_of_mem hp
    have hread : Idx.read (p.file S).idx = .ok (S.sort (entries p.recs)) := by
      rw [SealedPack.file, if_pos hidx]
      exact p.read_idx S
    have hagree := ha _ hmem _ _ _ hread (SealedPack.scan_file p.recs) id
    rw [map_map] at hagree
    exact hagree
  · rw [if_neg hidx]

/-- The index of a loader is the scanned one. -/
theorem AltidxAgree.follows (ha : AltidxAgree (c.dir S)) (opts : Options) (cache : DeltaCache) :
    Follows c { c.state S with opts := opts, cache := cache } := by
  refine ⟨rfl, rfl, ?_⟩
  intro id
  show (FinMap.ofEntries (c.bindings S)).get id = _
  rw [FinMap.get_ofEntries]
  exact PackSet.lastOf_bindings S c (fun p hp => ha.loaded hp) id

theorem follows_reindexed : Follows c.reindexed h ↔ Follows c h := by
  have hsealed : (c.reindexed.sealed.map fun p => (p.seq, packBytes p.recs))
      = c.sealed.map fun p => (p.seq, packBytes p.recs) := by
    simp [PackSet.reindexed]
  have hscanned : c.reindexed.scanned = c.scanned := by
    simp [PackSet.reindexed, PackSet.scanned, flatMap_map]
  constructor
  · rintro ⟨h1, h2, h3⟩
    exact ⟨h1.trans hsealed, h2, hscanned ▸ h3⟩
  · rintro ⟨h1, h2, h3⟩
    exact ⟨h1.trans hsealed.symm, h2, hscanned.symm ▸ h3⟩

theorem groundedAll_reindexed (hg : GroundedAll P right c) : GroundedAll P right c.reindexed := by
  intro n
  have := hg n
  simpa [PackSet.reindexed, PackSet.cut, PackSet.records, flatMap_map] using this

/-! ### Handles that are behind -/

/-- The entries a scan of the bytes finds. -/
def scanEntries (data : Bytes) : Option (List (ChunkId × Nat)) :=
  (scan data).toOption.map fun p => p.1.map fun q => (q.1.id, q.2)

theorem scanEntries_packBytes (recs : List PackRecord) :
    scanEntries (packBytes recs) = some (entries recs) := by
  rw [scanEntries, SealedPack.scan_file]
  show some (List.map _ (List.map _ _)) = _
  rw [map_map]
  rfl

/-- The handle's packs are the packs of the directory. -/
def Current (d : Dir) (h : ChunkStore) : Prop :=
  h.sealed = d.dropLast.map (fun f => (f.seq, f.data)) ∧
  d.getLast?.bind (fun f => (scanEntries f.data).map (Active.mk f.seq f.data.length))
    = some h.active

instance (d : Dir) (h : ChunkStore) : Decidable (Current d h) :=
  inferInstanceAs (Decidable (_ ∧ _))

/-- What a handle's index lists is determined by the packs it holds. -/
theorem Follows.scanned_eq (hf : Follows c h) : c.scanned =
    h.sealed.flatMap (fun p => located p.1 ((scanEntries p.2).getD []))
      ++ located h.active.seq h.active.entries := by
  rw [hf.sealed, hf.active, flatMap_map]
  simp only [scanEntries_packBytes]
  rfl

/-- A handle that holds what the directory holds is in step with it. -/
theorem Follows.of_current (hf : Follows c₀ h) (hcur : Current (c.dir S) h) : Follows c h := by
  obtain ⟨hsealed, hactive⟩ := hcur
  rw [PackSet.dir, dropLast_concat, map_map] at hsealed
  rw [PackSet.dir, getLast?_concat, Option.bind_some, scanEntries_packBytes] at hactive
  have hsealed' : h.sealed = c.sealed.map fun p => (p.seq, packBytes p.recs) := hsealed
  have hactive' : h.active = ⟨c.activeSeq, (packBytes c.active).length, entries c.active⟩ :=
    (Option.some.inj hactive).symm
  refine ⟨hsealed', hactive', ?_⟩
  intro id
  have hscanned : c.scanned = c₀.scanned := by
    rw [hf.scanned_eq, hsealed', hactive', flatMap_map]
    simp only [scanEntries_packBytes]
    rfl
  rw [hscanned]
  exact hf.index id

/-- **Reloading what changed.** A handle ends in step with the disk; if nothing seems to
    have changed it must have been in step already. -/
theorem syncFromDisk_spec (hf : Follows c₀ h)
    (ha : diskChanged (c.dir S) h = .ok true → AltidxAgree (c.dir S))
    (hsame : diskChanged (c.dir S) h = .ok false → Current (c.dir S) h) :
    ∃ c' h' res, syncFromDisk S (c.dir S) h = (c'.dir S, h', res) ∧
      (c' = c ∨ c' = c.reindexed) ∧ h'.cache = h.cache ∧
      ((res = .ok () ∧ Follows c' h') ∨ ((∃ e, res = .error e) ∧ h' = h)) := by
  unfold syncFromDisk
  cases hchanged : diskChanged (c.dir S) h with
  | error e => exact ⟨c, h, .error e, rfl, .inl rfl, rfl, .inr ⟨⟨e, rfl⟩, rfl⟩⟩
  | ok changed =>
    cases changed with
    | false => exact ⟨c, h, .ok (), rfl, .inl rfl, rfl, .inl ⟨rfl, hf.of_current (hsame hchanged)⟩⟩
    | true =>
      simp only [PackSet.load_dir_clean]
      refine ⟨c.reindexed, _, .ok (), rfl, .inr rfl, ?_, .inl ⟨rfl, ?_⟩⟩
      · rfl
      · exact follows_reindexed.mpr ((ha hchanged).follows h.opts h.cache)

/-! ### Rewinding -/

/-- Cutting a pack anywhere behind its header leaves its first records and at most a part
    of the next one. -/
theorem exists_cut_body (recs : List PackRecord) (n : Nat) :
    ∃ k torn, (body recs).take n = body (recs.take k) ++ torn ∧
      ∀ pos, Pack.nextRecord pos torn = .stop := by
  induction recs generalizing n with
  | nil => exact ⟨0, [], by simp, fun pos => nextRecord_short (by simp [recHeaderLen])⟩
  | cons r recs ih =>
    by_cases hn : n < r.size
    · refine ⟨0, r.bytes.take n, ?_, fun pos => Pack.nextRecord_torn pos r hn⟩
      rw [body_cons, take_append_of_le_length (by rw [PackRecord.length_bytes]; omega)]
      rfl
    · obtain ⟨k, torn, htake, hstop⟩ := ih (n - r.size)
      refine ⟨k + 1, torn, ?_, hstop⟩
      rw [body_cons, take_append, PackRecord.length_bytes, htake, take_succ_cons,
        body_cons, take_of_length_le (by rw [PackRecord.length_bytes]; omega),
        append_assoc]

/-- **Rewinding** is refused and changes nothing, or cuts the active pack back to some of
    its records. -/
theorem rewind_spec (hf : Follows c h) (ha : AltidxAgree (c.dir S)) (ckpt : ChunkCheckpoint) :
    (∃ e, rewind S (c.dir S) h ckpt = (c.dir S, h, .error e)) ∨
    ∃ n h', rewind S (c.dir S) h ckpt = ((c.cut n).reindexed.dir S, h', .ok ()) ∧
      Follows (c.cut n).reindexed h' ∧ h'.cache = .new := by
  unfold rewind
  by_cases hseq : ckpt.packSeq ≠ h.active.seq
  · exact .inl ⟨_, by rw [if_pos hseq]⟩
  rw [if_neg hseq]
  by_cases habove : h.active.len < ckpt.packLen
  · exact .inl ⟨_, by rw [if_pos habove]⟩
  rw [if_neg habove]
  by_cases hbelow : ckpt.packLen < headerLen
  · exact .inl ⟨_, by rw [if_pos hbelow]⟩
  rw [if_neg hbelow]
  obtain ⟨k, torn, htake, hstop⟩ := exists_cut_body c.active (ckpt.packLen - headerLen)
  have hcut : setLen (packBytes c.active) ckpt.packLen = packBytes (c.cut k).active ++ torn := by
    have hle : ckpt.packLen ≤ (packBytes c.active).length := by
      rw [hf.active] at habove
      exact Nat.le_of_not_lt habove
    have hheader : fileHeader.take ckpt.packLen = fileHeader :=
      take_of_length_le (by rw [length_fileHeader]; omega)
    rw [setLen_le hle, packBytes, take_append, hheader, length_fileHeader, htake,
      ← append_assoc]
    rfl
  have hagree : AltidxAgree ((c.cut k).dir S) := by
    unfold AltidxAgree at ha ⊢
    rw [PackSet.dir, dropLast_concat] at ha ⊢
    exact ha
  have hload := PackSet.load_dir S (c.cut k) (hstop _)
  refine .inr ⟨k, { h with toPackState := (c.cut k).state S, cache := .new }, ?_, ?_, rfl⟩
  · have hload : load S (c.sealed.map (SealedPack.file S)
        ++ [⟨c.activeSeq, packBytes (c.cut k).active ++ torn, none⟩]) = _ := hload
    simp only [hf.active, PackSet.modify_active, hcut, hload]
  · exact follows_reindexed.mpr (hagree.follows h.opts .new)

end Alt.Store
