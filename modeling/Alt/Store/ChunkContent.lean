import Alt.Store.ChunkBulk
import Alt.Store.ChunkRuns
import Mathlib.Data.List.Dedup
import Mathlib.Algebra.Order.BigOperators.Group.List

namespace Alt.Store

open Alt.Library Pack ChunkStore List

/-!
# A chunk store that is only put into

What such a store holds is a list of byte strings, in the order they were stored, each of
them in one full record (`PackHolds`).  `ChunkShows` says so of a directory and a handle;
storing and reading are then operations on the list (`ChunkShows.put`, `ChunkShows.resolve`).

A `Universe` names the byte strings a run hashes, which must not collide, and the room that
the operation at hand finds for those it may store.
-/

/-- The bytes a chunk takes in a pack, at most. -/
def chunkCost (data : Bytes) : Nat := recHeaderLen + data.length

/-- The strings of a run, and where an operation starts. -/
structure Universe where
  /-- Everything hashed in the run. -/
  strings : List Bytes
  /-- What the operation may store as chunks. -/
  fresh : List Bytes
  /-- Length and number of the active pack before it. -/
  bytes : Nat
  packs : Nat
  /-- The chunks there before it. -/
  count : Nat

namespace Universe

/-- No two strings of the run collide. -/
def Distinct (P : Prims) (u : Universe) : Prop := Set.InjOn P.blake3 {b | b ∈ u.strings}

/-- An operation of a handle that holds the chunks. -/
def before (strings fresh : List Bytes) (h : ChunkStore) (chunks : List Bytes) : Universe :=
  ⟨strings, fresh, h.active.len, h.active.seq, chunks.length⟩

/-- Lengths fit a `u64` and pack numbers a `u32`, whatever the operation stores. -/
structure Fits (u : Universe) : Prop where
  fresh : u.fresh ⊆ u.strings
  bytes : u.bytes + (u.fresh.dedup.map chunkCost).sum < 2 ^ 64
  packs : u.packs + u.fresh.dedup.length + 1 < 2 ^ 32

/-- The chunks stored since the operation started are among those it may store. -/
structure Since (u : Universe) (c : PackSet) (chunks : List Bytes) : Prop where
  count : u.count ≤ chunks.length
  fresh : chunks.drop u.count ⊆ u.fresh
  header : headerLen ≤ u.bytes
  bytes : (packBytes c.active).length ≤ u.bytes + ((chunks.drop u.count).map chunkCost).sum
  packs : c.activeSeq ≤ u.packs + (chunks.drop u.count).length

end Universe

/-- Record `r` is the chunk `data`, stored in full. -/
structure FullRecord (P : Prims) (r : PackRecord) (data : Bytes) : Prop where
  id : r.id = P.blake3 data
  base : (chunkCoding P).base r = none
  decode : (chunkCoding P).decode r none = some data
  size : r.size ≤ chunkCost data

/-- The records of the packs are the chunks of the list. -/
structure PackHolds (P : Prims) (c : PackSet) (chunks : List Bytes) : Prop where
  records : List.Forall₂ (FullRecord P) c.records chunks
  distinct : (chunks.map P.blake3).Nodup

/-- The chunk of an id. -/
def ChunkOf (P : Prims) (chunks : List Bytes) (id : ChunkId) (data : Bytes) : Prop :=
  data ∈ chunks ∧ P.blake3 data = id

variable {P : Prims} {S : IdxSort} {c : PackSet} {h : ChunkStore} {u : Universe}
  {chunks : List Bytes}

variable {data : Bytes}

theorem FullRecord.length_lt {r : PackRecord} (hr : FullRecord P r data) :
    data.length < 2 ^ 32 := by
  have hlen := (chunkCoding_full hr.decode r.id).2.2
  have hlt := r.header.origLen.toNat_lt
  omega

theorem ids_of_records {recs : List PackRecord} (h : List.Forall₂ (FullRecord P) recs chunks) :
    recs.map PackRecord.id = chunks.map P.blake3 := by
  induction h with
  | nil => rfl
  | cons hr _ ih => rw [map_cons, map_cons, hr.id, ih]

/-- A full record decodes without a look at its hash. -/
theorem StandsAt.decodeNoVerify {d : Dir} {id : ChunkId} {loc : Location} {r : PackRecord}
    (hstands : StandsAt d h loc r) (hloc : h.index.get id = some loc)
    (hdec : (chunkCoding P).decode r none = some data) :
    ChunkStore.decodeNoVerify P d h id none = .ok data := by
  obtain ⟨henc, hdecode, -⟩ := chunkCoding_full hdec id
  have hlocate : locate h id = .ok loc := by rw [locate, hloc]
  simp only [ChunkStore.decodeNoVerify, hlocate, hstands.readHeader, hstands.readPayload, bind,
    Except.bind]
  rw [decodeFull] at hdecode
  by_cases hraw : r.header.encoding = encRaw
  · rw [if_pos hraw] at hdecode ⊢
    exact hdecode
  · rw [if_neg hraw] at hdecode ⊢
    rw [if_pos (henc.resolve_left hraw)]
    exact hdecode

namespace PackHolds

variable {data : Bytes}

theorem exists_record (hp : PackHolds P c chunks) (hd : data ∈ chunks) :
    ∃ r ∈ c.records, FullRecord P r data := by
  obtain ⟨i, hi, rfl⟩ := getElem_of_mem hd
  have hlen := hp.records.length_eq
  exact ⟨c.records[i], getElem_mem _, List.Forall₂.get hp.records (by omega) hi⟩

theorem exists_chunk (hp : PackHolds P c chunks) {r : PackRecord} (hr : r ∈ c.records) :
    ∃ data ∈ chunks, FullRecord P r data := by
  obtain ⟨i, hi, rfl⟩ := getElem_of_mem hr
  have hlen := hp.records.length_eq
  exact ⟨chunks[i], getElem_mem _, List.Forall₂.get hp.records hi (by omega)⟩

theorem ids (hp : PackHolds P c chunks) : c.records.map PackRecord.id = chunks.map P.blake3 :=
  ids_of_records hp.records

/-- Every record is the newest of its id. -/
theorem newest_iff (hp : PackHolds P c chunks) {id : ChunkId} {r : PackRecord} :
    c.newest P id = some r ↔ r ∈ c.records ∧ r.id = id := by
  have hkeys : ((c.records.map fun r => (r.id, r)).map Prod.fst).Nodup := by
    rw [map_map]
    exact (hp.ids ▸ hp.distinct : (c.records.map PackRecord.id).Nodup)
  have hlast : c.newest P id = lastOf (c.records.map fun r => (r.id, r)) id := rfl
  rw [hlast, lastOf_iff_mem hkeys, mem_map]
  constructor
  · rintro ⟨r', hr', heq⟩
    cases heq
    exact ⟨hr', rfl⟩
  · rintro ⟨hr, rfl⟩
    exact ⟨r, hr, rfl⟩

/-- A chunk's newest record is its full one. -/
theorem newest (hp : PackHolds P c chunks) (hd : data ∈ chunks) :
    ∃ r, c.newest P (P.blake3 data) = some r ∧ FullRecord P r data := by
  obtain ⟨r, hr, hfull⟩ := hp.exists_record hd
  exact ⟨r, hp.newest_iff.mpr ⟨hr, hfull.id⟩, hfull⟩

theorem resolves (hp : PackHolds P c chunks) (hd : data ∈ chunks) :
    (chunkCoding P).Resolves (c.newest P) (P.blake3 data) [P.blake3 data] data := by
  obtain ⟨r, hr, hfull⟩ := hp.newest hd
  exact .full hr hfull.base hfull.decode

/-- What resolves is a chunk of the list. -/
theorem chunkOf_resolves (hp : PackHolds P c chunks) {id : ChunkId} {path : List ChunkId}
    {v : Bytes} (hres : (chunkCoding P).Resolves (c.newest P) id path v) :
    ChunkOf P chunks id v := by
  obtain ⟨r, hr⟩ := hres.found
  obtain ⟨hmem, rfl⟩ := hp.newest_iff.mp hr
  obtain ⟨data, hd, hfull⟩ := hp.exists_chunk hmem
  obtain ⟨-, rfl⟩ := hres.functional (hfull.id ▸ hp.resolves hd)
  exact ⟨hd, hfull.id.symm⟩

/-- Appending the record of a new chunk. -/
theorem pushed {c' : PackSet} {r : PackRecord} (hu : u.Distinct P) (hp : PackHolds P c chunks)
    (hpushed : Pushed c r c') (hfull : FullRecord P r data) (hsub : chunks ++ [data] ⊆ u.strings)
    (hnodup : (chunks ++ [data]).Nodup) :
    PackHolds P c' (chunks ++ [data]) := by
  have hrecords : c'.records = c.records ++ [r] := by
    cases hpushed with
    | stay => simp [PackSet.push, PackSet.records]
    | roll => simp [PackSet.roll, PackSet.push, PackSet.records]
  refine ⟨?_, ?_⟩
  · rw [hrecords]
    exact rel_append hp.records (.cons hfull .nil)
  · refine List.Nodup.map_on ?_ hnodup
    intro b hb b' hb' heq
    exact hu (hsub hb) (hsub hb') heq

end PackHolds

namespace Pushed

variable {c' : PackSet} {r : PackRecord}

theorem activeSeq_le (h : Pushed c r c') : c'.activeSeq ≤ c.activeSeq + 1 := by
  cases h with
  | stay => exact Nat.le_succ _
  | roll => exact le_rfl

theorem length_active_le (h : Pushed c r c') :
    (packBytes c'.active).length ≤ (packBytes c.active).length + r.size := by
  cases h with
  | stay => exact (length_packBytes_push c r).le
  | roll =>
    rw [PackSet.roll, length_packBytes, length_packBytes]
    simp
    omega

end Pushed

/-- Distinct chunks that may be stored take no more than all that may be stored. -/
theorem Universe.cost_le (hd : chunks.Nodup) (hsub : chunks ⊆ u.fresh) :
    (chunks.map chunkCost).sum ≤ (u.fresh.dedup.map chunkCost).sum ∧
      chunks.length ≤ u.fresh.dedup.length := by
  have hsub' : chunks ⊆ u.fresh.dedup := fun b hb => mem_dedup.mpr (hsub hb)
  have hperm : chunks.Subperm u.fresh.dedup := subperm_of_subset hd hsub'
  obtain ⟨front, hfront, hsublist⟩ := hperm
  constructor
  · rw [← (hfront.map chunkCost).sum_eq]
    exact (hsublist.map chunkCost).sum_le_sum fun _ _ => Nat.zero_le _
  · rw [← hfront.length_eq]
    exact hsublist.length_le

/-- Distinct chunks that may be stored find room. -/
theorem Universe.Fits.sum_le (hu : u.Fits) (hd : chunks.Nodup) (hsub : chunks ⊆ u.fresh) :
    u.bytes + (chunks.map chunkCost).sum < 2 ^ 64 ∧ u.packs + chunks.length + 1 < 2 ^ 32 := by
  obtain ⟨hsum, hlen⟩ := Universe.cost_le hd hsub
  have hbytes := hu.bytes
  have hpacks := hu.packs
  omega

theorem Universe.Fits.length_lt (hu : u.Fits) (hd : data ∈ u.fresh) :
    data.length < 2 ^ 64 := by
  have hsub : [data] ⊆ u.fresh := fun b hb => mem_singleton.mp hb ▸ hd
  have hsum := (hu.sum_le (nodup_singleton data) hsub).1
  rw [map_singleton, sum_singleton, chunkCost] at hsum
  omega

/-! ### A directory and a handle that hold a list of chunks -/

/-- The directory and the handle hold the chunks of the list, all of the universe. -/
def ChunkShows (P : Prims) (S : IdxSort) (u : Universe) (d : Dir) (h : ChunkStore)
    (chunks : List Bytes) : Prop :=
  ∃ c, d = c.dir S ∧ Follows c h ∧ PackHolds P c chunks ∧ chunks ⊆ u.strings ∧
    u.Since c chunks ∧ CacheOk (ChunkOf P chunks) h.cache

theorem content_chunkOf (hu : u.Distinct P) (hsub : chunks ⊆ u.strings) :
    Content P (ChunkOf P chunks) where
  unique := by
    rintro id data data' ⟨hd, hid⟩ ⟨hd', hid'⟩
    exact hu (hsub hd) (hsub hd') (hid.trans hid'.symm)
  hash := fun _ _ hd => hd.2

namespace ChunkShows

variable {d : Dir}

theorem nodup (hs : ChunkShows P S u d h chunks) : chunks.Nodup := by
  obtain ⟨c, -, -, hp, -⟩ := hs
  exact hp.distinct.of_map

theorem subset (hs : ChunkShows P S u d h chunks) : chunks ⊆ u.strings := by
  obtain ⟨c, -, -, -, hsub, -⟩ := hs
  exact hsub

variable {data : Bytes}

theorem length_lt (hs : ChunkShows P S u d h chunks) (hd : data ∈ chunks) :
    data.length < 2 ^ 32 := by
  obtain ⟨c, -, -, hp, -⟩ := hs
  obtain ⟨r, -, hfull⟩ := hp.exists_record hd
  exact hfull.length_lt

/-- How far the active pack can have grown since the operation started. -/
theorem active_le (hs : ChunkShows P S u d h chunks) :
    h.active.len ≤ u.bytes + (u.fresh.dedup.map chunkCost).sum ∧
      h.active.seq ≤ u.packs + u.fresh.dedup.length := by
  have hnodup := hs.nodup.sublist (drop_sublist u.count chunks)
  obtain ⟨c, -, hf, -, -, hsince, -⟩ := hs
  obtain ⟨hsum, hlen⟩ := Universe.cost_le hnodup hsince.fresh
  have hbytes := hsince.bytes
  have hpacks := hsince.packs
  rw [hf.active]
  dsimp only
  omega

/-- The index lists exactly the ids of the chunks. -/
theorem containsKey (hs : ChunkShows P S u d h chunks) {id : ChunkId} :
    h.index.containsKey id = true ↔ ∃ data ∈ chunks, P.blake3 data = id := by
  obtain ⟨c, -, hf, hp, -⟩ := hs
  rw [FinMap.containsKey, Option.isSome_iff_exists]
  constructor
  · rintro ⟨loc, hloc⟩
    obtain ⟨r, hr⟩ := hf.newest_of_get (P := P) hloc
    obtain ⟨hmem, rfl⟩ := hp.newest_iff.mp hr
    obtain ⟨data, hd, hfull⟩ := hp.exists_chunk hmem
    exact ⟨data, hd, hfull.id.symm⟩
  · rintro ⟨data, hd, rfl⟩
    obtain ⟨r, hr, -⟩ := hp.newest hd
    obtain ⟨loc, hloc, -⟩ := hf.locate_newest hr
    exact ⟨loc, hloc⟩

/-- With the universe free of collisions, an indexed id is that of its chunk alone. -/
theorem mem_of_containsKey (hu : u.Distinct P) (hs : ChunkShows P S u d h chunks)
    (hd : data ∈ u.strings) (hc : h.index.containsKey (P.blake3 data) = true) :
    data ∈ chunks := by
  obtain ⟨data', hd', hid⟩ := hs.containsKey.mp hc
  exact hu (hs.subset hd') hd hid ▸ hd'

/-- **Storing a chunk** that may be stored: the list grows at most by it, and has it if the
    store says so.  It says so unless the chunk is too large or does not compress. -/
theorem put (hz : P.ZstdLawful) (hu : u.Distinct P) (hfits : u.Fits)
    (hs : ChunkShows P S u d h chunks) (hd : data ∈ u.fresh) :
    ∃ d' h' res chunks', ChunkStore.put P S d h data = (d', h', res) ∧ chunks <+: chunks' ∧
      ChunkShows P S u d' h' chunks' ∧
      (∀ id, res = .ok id → id = P.blake3 data ∧ data ∈ chunks') ∧
      ∀ e, res = .error e → 2 ^ 32 ≤ data.length ∨ encodePlain P h.opts data = .error e := by
  have hs' := hs
  obtain ⟨c, rfl, hf, hp, hsub, hsince, hcache⟩ := hs'
  by_cases hthere : data ∈ chunks
  · -- the index has it
    have hkey : h.index.containsKey (P.blake3 data) = true :=
      hs.containsKey.mpr ⟨data, hthere, rfl⟩
    refine ⟨c.dir S, h, .ok (P.blake3 data), chunks, ?_, prefix_rfl, hs, ?_, ?_⟩
    · rw [ChunkStore.put, if_pos hkey]
    · rintro id heq
      cases heq
      exact ⟨rfl, hthere⟩
    · intro e heq
      cases heq
  · have hcount := hsince.count
    have hdrop : (chunks ++ [data]).drop u.count = chunks.drop u.count ++ [data] :=
      drop_append_of_le_length hcount
    have hnodup : (chunks ++ [data]).Nodup := by
      rw [nodup_append]
      refine ⟨hs.nodup, nodup_singleton _, ?_⟩
      rintro b hb b' hb' rfl
      exact hthere (mem_singleton.mp hb' ▸ hb)
    have hfresh : (chunks ++ [data]).drop u.count ⊆ u.fresh := by
      rw [hdrop]
      intro b hb
      rcases mem_append.mp hb with hold | hnew
      · exact hsince.fresh hold
      · exact mem_singleton.mp hnew ▸ hd
    have hsub' : chunks ++ [data] ⊆ u.strings := by
      intro b hb
      rcases mem_append.mp hb with hold | hnew
      · exact hsub hold
      · exact hfits.fresh (mem_singleton.mp hnew ▸ hd)
    obtain ⟨hroom, hseqs⟩ := hfits.sum_le (hnodup.sublist (drop_sublist _ _)) hfresh
    have hbytes := hsince.bytes
    have hpacks := hsince.packs
    rw [hdrop, map_append, sum_append, map_singleton, sum_singleton] at hroom
    rw [hdrop, length_append, length_singleton] at hseqs
    have hcost : chunkCost data = recHeaderLen + data.length := rfl
    rcases put_spec (S := S) hz hf data (fun _ => by omega) (by omega) with
      ⟨loc, heq, hloc⟩ | ⟨e, heq, hwhy⟩ |
        ⟨r, c', h', heq, hpushed, hf', hcache', hid, hnew, hb, hdec, hsize⟩
    · have hkey : h.index.containsKey (P.blake3 data) = true := by
        rw [FinMap.containsKey, hloc]
        rfl
      exact absurd (hs.mem_of_containsKey hu (hfits.fresh hd) hkey) hthere
    · refine ⟨_, _, _, chunks, heq, prefix_rfl, hs, ?_, ?_⟩
      · intro id hok
        cases hok
      · intro e' herr
        cases herr
        exact hwhy
    · have hfull : FullRecord P r data := ⟨hid, hb, hdec, hsize⟩
      have hp' : PackHolds P c' (chunks ++ [data]) := hp.pushed hu hpushed hfull hsub' hnodup
      have hsince' : u.Since c' (chunks ++ [data]) := by
        refine ⟨?_, hfresh, hsince.header, ?_, ?_⟩
        · rw [length_append]
          omega
        · rw [hdrop, map_append, sum_append, map_singleton, sum_singleton]
          have hlen := hpushed.length_active_le
          have hheader := hsince.header
          omega
        · rw [hdrop, length_append, length_singleton]
          have hseq := hpushed.activeSeq_le
          omega
      refine ⟨_, _, _, chunks ++ [data], heq, prefix_append _ _,
        ⟨c', rfl, hf', hp', hsub', hsince', ?_⟩, ?_, ?_⟩
      · intro e he
        obtain ⟨hmem, hid⟩ := hcache e (hcache' ▸ he)
        exact ⟨mem_append_left _ hmem, hid⟩
      · rintro id hok
        cases hok
        exact ⟨rfl, mem_append_right _ (mem_singleton.mpr rfl)⟩
      · intro e herr
        cases herr

/-- Another operation starts: what is there may stay anywhere in its universe. -/
theorem rebase (hs : ChunkShows P S u d h chunks) {strings : List Bytes}
    (hsub : chunks ⊆ strings) (fresh : List Bytes) :
    ChunkShows P S (.before strings fresh h chunks) d h chunks := by
  obtain ⟨c, rfl, hf, hp, -, -, hcache⟩ := hs
  have hlen : h.active.len = (packBytes c.active).length := by rw [hf.active]
  have hseq : h.active.seq = c.activeSeq := by rw [hf.active]
  have hnil : chunks.drop chunks.length = [] := drop_length
  refine ⟨c, rfl, hf, hp, hsub, ⟨le_rfl, ?_, ?_, ?_, ?_⟩, hcache⟩
  · simp only [Universe.before, hnil]
    exact nil_subset _
  · simp only [Universe.before, hlen, length_packBytes]
    omega
  · simp only [Universe.before, hlen, hnil]
    simp
  · simp only [Universe.before, hseq, hnil]
    simp

/-- **Reading a chunk**, at any verification level. -/
theorem resolve (hu : u.Distinct P) (hs : ChunkShows P S u d h chunks) (hd : data ∈ chunks)
    (verify : Verify) :
    ∃ cache, ChunkStore.resolve P d h (P.blake3 data) verify = (.ok data, cache) ∧
      ChunkShows P S u d { h with cache := cache } chunks := by
  obtain ⟨c, rfl, hf, hp, hsub, hsince, hcache⟩ := hs
  obtain ⟨cache, hc, heq⟩ := hf.resolve_resolves (S := S) (content_chunkOf hu hsub) hcache
    (hp.resolves hd) (fun x path w hres => hp.chunkOf_resolves hres) verify
  exact ⟨cache, heq, c, rfl, hf.withCache cache, hp, hsub, hsince, hc⟩

end ChunkShows

/-! ### Opening and reconciling -/

/-- With one record for each id every altidx agrees with its pack. -/
theorem PackHolds.altidxAgree (hp : PackHolds P c chunks) : AltidxAgree (c.dir S) := by
  have hids : (c.records.map PackRecord.id).Nodup := hp.ids ▸ hp.distinct
  intro f hf listed recs validLen hread hscan id
  rw [PackSet.dir, dropLast_concat] at hf
  obtain ⟨p, hmem, rfl⟩ := mem_map.mp hf
  rw [SealedPack.file] at hread hscan
  rw [SealedPack.scan_file] at hscan
  cases hscan
  by_cases hidx : p.indexed = true
  · rw [if_pos hidx, p.read_idx S] at hread
    cases hread
    have hentries : (entries p.recs).map Prod.fst = p.recs.map PackRecord.id := by
      have hrecs := congrArg (List.map Prod.fst) (PackSet.placedIn_record p.seq p.recs)
      simp only [map_map, PackSet.placedIn, Function.comp_def] at hrecs
      rw [entries, map_map]
      exact hrecs
    have hsub : (p.recs.map PackRecord.id).Sublist (c.records.map PackRecord.id) := by
      rw [PackSet.records]
      have hpack : p.recs.Sublist (c.sealed.flatMap SealedPack.recs) :=
        sublist_flatten_of_mem (mem_map_of_mem hmem)
      exact (hpack.trans (sublist_append_left _ _)).map _
    have hnodup : ((entries p.recs).map Prod.fst).Nodup := by
      rw [hentries]
      exact hids.sublist hsub
    rw [map_map]
    exact (lastOf_perm (S.sorted (entries p.recs)).perm.symm hnodup id).symm
  · rw [if_neg hidx] at hread
    cases hread

/-- A handle that follows the directory finds nothing changed. -/
theorem Follows.syncFromDisk_eq (hf : Follows c h) :
    ChunkStore.syncFromDisk S (c.dir S) h = (c.dir S, h, .ok ()) := by
  have hknown : (h.sealed.map Prod.fst ++ [h.active.seq]).insertionSort (· ≤ ·)
      = (c.dir S).seqs := by
    have hsorted : (c.sealed.map SealedPack.seq ++ [c.activeSeq]).Pairwise (· ≤ ·) :=
      c.ordered.imp fun hlt => hlt.le
    rw [PackSet.dir_seqs, hf.sealed, hf.active, map_map]
    exact hsorted.insertionSort_eq
  have hsame : diskChanged (c.dir S) h = .ok false := by
    unfold diskChanged
    rw [hknown]
    simp only [ne_eq, not_true_eq_false, if_false, hf.active, PackSet.find_active, decide_false]
  unfold ChunkStore.syncFromDisk
  rw [hsame]

namespace ChunkShows

variable {d : Dir}

/-- A fresh directory holds nothing. -/
theorem openWith_nil (strings : List Bytes) (opts : Options) :
    ∃ d h, ChunkStore.openWith S opts [] = (d, .ok h) ∧
      ChunkShows P S (.before strings [] h []) d h [] := by
  obtain ⟨h, heq, hf, hcache⟩ := Store.openWith_nil S opts
  have hshows : ChunkShows P S ⟨[], [], headerLen, PackSet.first.activeSeq, 0⟩
      (PackSet.first.dir S) h [] :=
    ⟨PackSet.first, rfl, hf, ⟨.nil, nodup_nil⟩, nil_subset _,
      ⟨le_rfl, nil_subset _, le_rfl, by simp [PackSet.first, length_packBytes],
        Nat.le_add_right _ _⟩, hcache ▸ cacheOk_new⟩
  exact ⟨_, h, heq, hshows.rebase (nil_subset _) []⟩

/-- **Reopening** finds the chunks again. -/
theorem openWith (hs : ChunkShows P S u d h chunks) (opts : Options) :
    ∃ d' h', ChunkStore.openWith S opts d = (d', .ok h') ∧ ChunkShows P S u d' h' chunks := by
  obtain ⟨c, rfl, hf, hp, hsub, hsince, -⟩ := hs
  have hp' : PackHolds P c.reindexed chunks := by
    refine ⟨?_, hp.distinct⟩
    have hrecords : c.reindexed.records = c.records := by
      simp [PackSet.reindexed, PackSet.records, flatMap_map]
    rw [hrecords]
    exact hp.records
  have hsince' : u.Since c.reindexed chunks :=
    ⟨hsince.count, hsince.fresh, hsince.header, hsince.bytes, hsince.packs⟩
  exact ⟨_, _, PackSet.openWith_dir S opts c, c.reindexed, rfl,
    follows_reindexed.mpr (hp.altidxAgree.follows opts .new), hp', hsub, hsince', cacheOk_new⟩

/-- Reconciling finds nothing changed. -/
theorem syncFromDisk_eq (hs : ChunkShows P S u d h chunks) :
    ChunkStore.syncFromDisk S d h = (d, h, .ok ()) := by
  obtain ⟨c, rfl, hf, -⟩ := hs
  exact hf.syncFromDisk_eq

/-! ### The bulk read -/

theorem readHeader (hs : ChunkShows P S u d h chunks) {id : ChunkId} {loc : Location}
    (hloc : h.index.get id = some loc) :
    ∃ header data, ChunkStore.readHeader d h id loc = .ok header ∧ data ∈ chunks ∧
      P.blake3 data = id ∧ (header.encoding = encRaw ∨ header.encoding = encZstd) ∧
      ChunkStore.decodeNoVerify P d h id none = .ok data := by
  obtain ⟨c, rfl, hf, hp, -, -⟩ := hs
  obtain ⟨r, hr⟩ := hf.newest_of_get (P := P) hloc
  obtain ⟨hmem, hid⟩ := hp.newest_iff.mp hr
  obtain ⟨data, hd, hfull⟩ := hp.exists_chunk hmem
  obtain ⟨loc', hloc', hplaced⟩ := hf.locate_newest hr
  obtain rfl : loc = loc' := Option.some.inj (hloc.symm.trans hloc')
  have hstands := hf.standsAt (S := S) hplaced
  exact ⟨r.header, data, hstands.readHeader id, hd, hfull.id.symm.trans hid,
    (chunkCoding_full hfull.decode id).1, hstands.decodeNoVerify hloc hfull.decode⟩

theorem decodeChunkUnverified (hu : u.Distinct P) (hs : ChunkShows P S u d h chunks)
    {data : Bytes} (hd : data ∈ chunks) :
    ChunkStore.decodeChunkUnverified P d h (P.blake3 data) = (.ok data, h.cache) := by
  have hkey := hs.containsKey.mpr ⟨data, hd, rfl⟩
  obtain ⟨loc, hloc⟩ := Option.isSome_iff_exists.mp hkey
  obtain ⟨header, data', hheader, hd', hid, henc, hdecode⟩ := hs.readHeader hloc
  obtain rfl : data' = data := hu (hs.subset hd') (hs.subset hd) hid
  have hlocate : locate h (P.blake3 data') = .ok loc := by rw [locate, hloc]
  have hne : header.encoding ≠ encDelta := by
    rcases henc with henc | henc <;> rw [henc] <;> decide
  simp only [ChunkStore.decodeChunkUnverified, hlocate, hheader, bind, Except.bind]
  rw [if_neg hne, hdecode]

end ChunkShows

end Alt.Store
