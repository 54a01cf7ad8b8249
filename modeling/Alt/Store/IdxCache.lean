import Alt.Store.PackSet

namespace Alt.Store

open Alt.Library Pack ChunkStore List

/-!
# Is the altidx file only a cache?

The altidx of a pack is written sorted by id alone; a loader lets the last entry of an id
win, a scan the last record in file order.

* `agree_iff` — the two agree for every order the sort may give equal ids exactly when no
  id repeats in the pack;
* `altidx_cache_iff` — hence opening a store with or without its altidx files gives the same
  index and the same delta-base graph exactly when no sealed pack holds two records of one
  chunk.
-/

/-! ### Sorts with a chosen order of equal ids -/

/-- A stable sort. -/
def IdxSort.stable : IdxSort where
  sort l := l.mergeSort fun a b => decide (a.1.val ≤ b.1.val)
  sorted l := sortedBy_mergeSort (fun e => e.1.val) l

/-- A sort that orders one list in a given way the contract allows. -/
def IdxSort.ordering (l sorted : List (ChunkId × Nat)) (h : SortedBy (fun e => e.1.val) l sorted) :
    IdxSort where
  sort l' := if l' = l then sorted else IdxSort.stable.sort l'
  sorted l' := by
    by_cases hl : l' = l
    · rw [if_pos hl, hl]
      exact h
    · rw [if_neg hl]
      exact IdxSort.stable.sorted l'

/-! ### One pack -/

/-- The offsets of a pack's records differ. -/
theorem nodup_entries (recs : List PackRecord) : (entries recs).Nodup := by
  have hpair := (place_sorted headerLen recs).1
  rw [entries, List.Nodup, pairwise_map]
  apply hpair.imp
  intro p q hlt heq
  have := congrArg Prod.snd heq
  simp only at this
  omega

/-- The ids of the entries are the ids of the records. -/
theorem map_fst_entries (recs : List PackRecord) :
    (entries recs).map Prod.fst = recs.map PackRecord.id := by
  unfold entries
  generalize headerLen = pos
  induction recs generalizing pos with
  | nil => rfl
  | cons r recs ih => simpa [place] using ih (pos + r.size)

/-- Any entry of an id can be the one a loader ends with. -/
theorem exists_sort_last {es : List (ChunkId × Nat)} {e : ChunkId × Nat} (h : e ∈ es) :
    ∃ S : IdxSort, lastOf (S.sort es) e.1 = some e.2 := by
  obtain ⟨pre, post, hsorted, hpost⟩ := exists_sortedBy_last (fun e : ChunkId × Nat => e.1.val) h
  refine ⟨IdxSort.ordering es _ hsorted, ?_⟩
  have hval : (IdxSort.ordering es _ hsorted).sort es = pre ++ e :: post := if_pos rfl
  rw [hval]
  apply lastOf_eq_some
  intro b hb heq
  exact hpost b hb (congrArg Subtype.val heq)

/-- **When the altidx of a pack is a cache.** Every order the sort may give equal ids lists
    each id's last record last exactly when no id repeats. -/
theorem agree_iff (recs : List PackRecord) :
    (∀ (S : IdxSort) (id : ChunkId),
        lastOf (S.sort (entries recs)) id = lastOf (entries recs) id)
      ↔ (recs.map PackRecord.id).Nodup := by
  rw [← map_fst_entries]
  constructor
  · intro hagree
    apply List.Nodup.map_on _ (nodup_entries recs)
    intro e he e' he' hid
    -- two entries of one id: either can come last, and both must be the last record
    obtain ⟨S, hS⟩ := exists_sort_last he
    obtain ⟨S', hS'⟩ := exists_sort_last he'
    rw [hagree] at hS hS'
    rw [← hid, hS] at hS'
    exact Prod.ext hid (Option.some.inj hS')
  · intro hnodup S id
    exact (lastOf_perm (S.sorted _).perm.symm hnodup id).symm

/-! ### The whole store -/

/-- Two opened stores map every id to the same record and every delta to the same base. -/
def SameStore (d : Dir) (h : ChunkStore) (d' : Dir) (h' : ChunkStore) : Prop :=
  (∀ id, h.index.get id = h'.index.get id) ∧ ∀ id, deltaBase d h id = deltaBase d' h' id

namespace PackSet

/-- The same packs with only some altidx files left. -/
def withIdx (c : PackSet) (present : Nat → Bool) : PackSet :=
  { c with
    sealed := c.sealed.map fun p => { p with indexed := present p.seq }
    ordered := by simpa [Function.comp_def] using c.ordered }

end PackSet

/-- The base of a chunk depends on where the index puts it and on the packs' bytes. -/
theorem deltaBase_congr {d d' : Dir} {h h' : ChunkStore} (id : ChunkId)
    (hindex : h.index.get id = h'.index.get id) (hsealed : h.sealed = h'.sealed)
    (hactive : h.active = h'.active)
    (hdata : (d.find h.active.seq).map PackFile.data = (d'.find h'.active.seq).map PackFile.data) :
    deltaBase d h id = deltaBase d' h' id := by
  have hread : ∀ seq n pos, readAt d h id seq n pos = readAt d' h' id seq n pos := by
    intro seq n pos
    unfold readAt
    rw [hactive, hsealed]
    by_cases hseq : seq = h'.active.seq
    · have hbind : ((d.find seq).bind fun f => readExactAt f.data n pos)
          = (d'.find seq).bind fun f => readExactAt f.data n pos := by
        rw [hactive] at hdata
        subst hseq
        have hmap : ∀ o : Option PackFile, (o.bind fun f => readExactAt f.data n pos)
            = (o.map PackFile.data).bind fun b => readExactAt b n pos := by
          intro o
          cases o <;> rfl
        rw [hmap, hmap, hdata]
      rw [if_pos hseq, if_pos hseq, hbind]
    · rw [if_neg hseq, if_neg hseq]
  simp only [deltaBase, readHeader, readBaseId, hindex, hread]

/-- The altidx files of a store are only a cache, whichever way the standard library sorts
    equal ids: each loads to the entries its pack's scan finds, and the store opens to the
    same index and the same delta-base graph whichever of the files are there. -/
def AltidxIsCache (c : PackSet) : Prop :=
  ∀ S : IdxSort,
    (∀ p ∈ c.sealed, ∃ recs loaded,
      scan (packBytes p.recs) = .ok (recs, (packBytes p.recs).length) ∧
      Idx.read (some (Idx.write S (entries p.recs))) = .ok loaded ∧
      ∀ id, (FinMap.ofEntries loaded).get id
        = (FinMap.ofEntries (recs.map fun q => (q.1.id, q.2))).get id) ∧
    ∀ opts present present', ∃ d h d' h',
      openWith S opts ((c.withIdx present).dir S) = (d, .ok h) ∧
      openWith S opts ((c.withIdx present').dir S) = (d', .ok h') ∧
      SameStore d h d' h'

/-- A cache needs distinct ids in every sealed pack. -/
theorem AltidxIsCache.nodup {c : PackSet} (h : AltidxIsCache c) :
    ∀ p ∈ c.sealed, (p.recs.map PackRecord.id).Nodup := by
  intro p hp
  apply (agree_iff p.recs).mp
  intro S id
  obtain ⟨recs, loaded, hscan, hread, hagree⟩ := (h S).1 p hp
  rw [SealedPack.scan_file] at hscan
  rw [SealedPack.read_idx] at hread
  cases hscan
  cases hread
  have := hagree id
  rw [FinMap.get_ofEntries, FinMap.get_ofEntries, map_map] at this
  exact this

/-- **When the altidx files are only a cache.** Exactly when no sealed pack holds two records
    of one chunk. -/
theorem altidx_cache_iff (c : PackSet) :
    AltidxIsCache c ↔ ∀ p ∈ c.sealed, (p.recs.map PackRecord.id).Nodup := by
  constructor
  · exact AltidxIsCache.nodup
  · intro hnodup S
    have hagree : ∀ p ∈ c.sealed, ∀ id,
        lastOf (S.sort (entries p.recs)) id = lastOf (entries p.recs) id :=
      fun p hp => (agree_iff p.recs).mpr (hnodup p hp) S
    refine ⟨?_, ?_⟩
    · intro p hp
      refine ⟨_, _, SealedPack.scan_file p.recs, p.read_idx S, fun id => ?_⟩
      rw [FinMap.get_ofEntries, FinMap.get_ofEntries, map_map]
      exact hagree p hp id
    · intro opts present present'
      -- either way the loader ends with the index a scan of every pack builds
      have hindex : ∀ present id, lastOf ((c.withIdx present).bindings S) id = lastOf c.scanned id := by
        intro present id
        have hscanned : (c.withIdx present).scanned = c.scanned := by
          simp [PackSet.scanned, PackSet.withIdx, flatMap_map]
        rw [PackSet.lastOf_bindings, hscanned]
        intro p hp id
        obtain ⟨q, hq, rfl⟩ := mem_map.mp hp
        unfold SealedPack.loaded
        split
        · exact hagree q hq id
        · rfl
      have hdir : (c.withIdx present).reindexed = (c.withIdx present').reindexed := by
        simp [PackSet.reindexed, PackSet.withIdx]
      have hget : ∀ id, ((c.withIdx present).state S).index.get id
          = ((c.withIdx present').state S).index.get id := by
        intro id
        simp only [PackSet.state, FinMap.get_ofEntries, hindex]
      refine ⟨_, _, _, _, PackSet.openWith_dir S opts _, PackSet.openWith_dir S opts _, hget, ?_⟩
      intro id
      apply deltaBase_congr id (hget id)
      · simp [PackSet.state, PackSet.withIdx]
      · rfl
      · rw [hdir]
        rfl

/-! ### A re-encoded chunk -/

/-- A chunk, stored in full and then as a delta against another, in one sealed pack. -/
def reencoded : PackSet where
  sealed := [{
    seq := 1
    recs := [
      { header := ⟨.fill 32 7, encRaw, 1, 1⟩, payload := [7], encoding_le := by decide,
        length_payload := rfl },
      { header := ⟨.fill 32 7, encDelta, 1, 32⟩, payload := List.replicate 32 9,
        encoding_le := by decide, length_payload := rfl }]
    indexed := true
    size_lt := by decide }]
  activeSeq := 2
  active := []
  ordered := by decide

/-- The entries of the pack with the older record last, as an unstable sort may leave them. -/
def reencodedOrder : List (ChunkId × Nat) := (entries reencoded.sealed[0].recs).reverse

theorem reencodedOrder_sorted :
    SortedBy (fun e => e.1.val) (entries reencoded.sealed[0].recs) reencodedOrder where
  perm := reverse_perm _
  pairwise := by decide

/-- Such an altidx is no cache: with it the store opens to the full record, without it to
    the delta. -/
theorem reencoded_not_cache : ¬ AltidxIsCache reencoded ∧
    ∃ S opts d h d' h', openWith S opts (reencoded.dir S) = (d, .ok h) ∧
      openWith S opts ((reencoded.withIdx fun _ => false).dir S) = (d', .ok h') ∧
      deltaBase d h (.fill 32 7) = none ∧ deltaBase d' h' (.fill 32 7) = some (.fill 32 9) := by
  constructor
  · intro h
    have hnodup := h.nodup _ (mem_singleton.mpr rfl)
    revert hnodup
    decide
  · refine ⟨.ordering _ _ reencodedOrder_sorted, ⟨2 ^ 30, 3, 64⟩, _, _, _, _,
      PackSet.openWith_dir _ _ _, PackSet.openWith_dir _ _ _, ?_, ?_⟩
    · decide +kernel
    · decide +kernel

end Alt.Store
