import Alt.Odb.RoundTrip

namespace Alt.Odb

open Alt.Library Alt.Store List

/-!
# Storage accounting (`alt-odb/src/storage_view.rs`, 89–180)

`storage_stats` goes over the objects in the order they were mapped and counts each blob in its tier
and each chunk once.  One set holds the blobs it has seen, objects and parts alike.

* `StoreReads` — what it reads, `NativeOdb.reads` of an open database;
* `Accounted` — what it has counted in the middle of a run, `storageStats_accounted` — at its end;
* `Exact` — every object in its tier, and every chunk that is reachable once;
* `storage_stats_exact` — the report is exact for just the stores where no object comes after one
  that has it as a part, and where every chunk is one that is counted.
-/

/-! ### What is read -/

inductive Encoding
  | raw
  | zstd
  | delta
  deriving DecidableEq

/-- On-disk accounting for one chunk. -/
structure ChunkStat where
  encoding : Encoding
  origLen : UInt32
  storedLen : UInt32
  deriving DecidableEq

/-- `ChunkStore::stat`. -/
def chunkStat (d : Dir) (h : ChunkStore) (id : ChunkId) : Except StoreError ChunkStat := do
  let loc ← ChunkStore.locate h id
  let header ← ChunkStore.readHeader d h id loc
  if header.encoding = Pack.encRaw then return ⟨.raw, header.origLen, header.storedLen⟩
  else if header.encoding = Pack.encZstd then return ⟨.zstd, header.origLen, header.storedLen⟩
  else if header.encoding = Pack.encDelta then return ⟨.delta, header.origLen, header.storedLen⟩
  else .error (.format "reserved record encoding")

/-- The objects in the order they were mapped, and how their blobs are stored. -/
structure StoreReads where
  entries : List MapEntry
  /-- The record of a blob that is stored in parts. -/
  tier1 : BlobId → Option BlobId
  getUnverified : BlobId → Except OdbError Bytes
  leafChunks : BlobId → Except OdbError (List ChunkId)
  stat : ChunkId → Except OdbError ChunkStat

/-- The value of a read.  A read changes nothing but caches of what was read, so the next one starts
    from the same state. -/
def valueOf {ε σ α : Type} : EStateM.Result ε σ α → Except ε α
  | .ok a _ => .ok a
  | .error e _ => .error e

/-- An open database, as the report reads it. -/
def NativeOdb.reads (P : Prims) (s : OdbDisk × NativeOdb) : StoreReads where
  entries := s.2.map.index.entries
  tier1 := s.2.tier1.index
  getUnverified id := (valueOf (BlobStore.getUnverified P id (s.1.blobs, s.2.blobs))).mapError .store
  leafChunks id := (valueOf (BlobStore.leafChunks P id (s.1.blobs, s.2.blobs))).mapError .store
  stat id := (chunkStat s.1.blobs.packs s.2.blobs.chunks id).mapError .store

/-! ### The report -/

structure PrismStats where
  blobs : Nat
  parts : Nat
  deriving DecidableEq

structure StorageStats where
  objectCount : Nat
  blobs : Nat
  trees : Nat
  commits : Nat
  tags : Nat
  logicalTotal : Nat
  tier0Count : Nat
  tier1Count : Nat
  /-- Of the prisms that accepted a blob; the others have nothing. -/
  prisms : UInt16 → PrismStats
  chunksTotal : Nat
  chunkLogicalTotal : Nat
  storedTotal : Nat
  rawChunks : Nat
  rawStored : Nat
  zstdChunks : Nat
  zstdStored : Nat
  deltaChunks : Nat
  deltaStored : Nat

namespace StorageStats

def empty : StorageStats where
  objectCount := 0
  blobs := 0
  trees := 0
  commits := 0
  tags := 0
  logicalTotal := 0
  tier0Count := 0
  tier1Count := 0
  prisms _ := ⟨0, 0⟩
  chunksTotal := 0
  chunkLogicalTotal := 0
  storedTotal := 0
  rawChunks := 0
  rawStored := 0
  zstdChunks := 0
  zstdStored := 0
  deltaChunks := 0
  deltaStored := 0

def countKind (stats : StorageStats) : ObjectKind → StorageStats
  | .blob => { stats with blobs := stats.blobs + 1 }
  | .tree => { stats with trees := stats.trees + 1 }
  | .commit => { stats with commits := stats.commits + 1 }
  | .tag => { stats with tags := stats.tags + 1 }

def countObject (stats : StorageStats) (entry : MapEntry) : StorageStats :=
  { stats with
    objectCount := stats.objectCount + 1
    logicalTotal := stats.logicalTotal + entry.size.toNat }.countKind entry.kind

def countPrism (stats : StorageStats) (prism : UInt16) (parts : Nat) : StorageStats :=
  { stats with
    prisms := Function.update stats.prisms prism
      ⟨(stats.prisms prism).blobs + 1, (stats.prisms prism).parts + parts⟩ }

def countChunk (stats : StorageStats) (stat : ChunkStat) : StorageStats :=
  let stats := { stats with
    chunksTotal := stats.chunksTotal + 1
    storedTotal := stats.storedTotal + stat.storedLen.toNat
    chunkLogicalTotal := stats.chunkLogicalTotal + stat.origLen.toNat }
  match stat.encoding with
  | .raw => { stats with
      rawChunks := stats.rawChunks + 1, rawStored := stats.rawStored + stat.storedLen.toNat }
  | .zstd => { stats with
      zstdChunks := stats.zstdChunks + 1, zstdStored := stats.zstdStored + stat.storedLen.toNat }
  | .delta => { stats with
      deltaChunks := stats.deltaChunks + 1, deltaStored := stats.deltaStored + stat.storedLen.toNat }

end StorageStats

/-- The report so far, and what it has seen. -/
structure Accounting where
  stats : StorageStats
  seenBlobs : List BlobId
  seenChunks : List ChunkId

namespace StoreReads

variable (reads : StoreReads)

/-- A chunk, unless it was counted. -/
def accumulateChunk (a : Accounting) (chunk : ChunkId) : Except OdbError Accounting :=
  if chunk ∈ a.seenChunks then .ok a
  else (reads.stat chunk).map fun stat =>
    { a with stats := a.stats.countChunk stat, seenChunks := chunk :: a.seenChunks }

def accumulateChunks (blob : BlobId) (a : Accounting) : Except OdbError Accounting :=
  match reads.leafChunks blob with
  | .error e => .error e
  | .ok leaves => leaves.foldlM reads.accumulateChunk a

/-- A part, unless its blob was seen. -/
def accumulatePart (a : Accounting) (part : BlobId) : Except OdbError Accounting :=
  if part ∈ a.seenBlobs then .ok a
  else reads.accumulateChunks part { a with seenBlobs := part :: a.seenBlobs }

/-- A blob stored in parts. -/
def accountTier1 (record : BlobId) (a : Accounting) : Except OdbError Accounting :=
  match reads.getUnverified record with
  | .error e => .error e
  | .ok bytes =>
    match decodeRecord bytes with
    | .error _ => .ok a
    | .ok (prism, _, parts) =>
      match reads.accumulateChunks record { a with stats := a.stats.countPrism prism parts.length } with
      | .error e => .error e
      | .ok a => parts.foldlM reads.accumulatePart a

/-- One turn of the loop. -/
def accountEntry (a : Accounting) (entry : MapEntry) : Except OdbError Accounting :=
  let a := { a with stats := a.stats.countObject entry }
  if entry.alt ∈ a.seenBlobs then .ok a
  else
    let a := { a with seenBlobs := entry.alt :: a.seenBlobs }
    match reads.tier1 entry.alt with
    | some record => reads.accountTier1 record
        { a with stats := { a.stats with tier1Count := a.stats.tier1Count + 1 } }
    | none => reads.accumulateChunks entry.alt
        { a with stats := { a.stats with tier0Count := a.stats.tier0Count + 1 } }

def storageStats : Except OdbError StorageStats :=
  (reads.entries.foldlM reads.accountEntry ⟨.empty, [], []⟩).map Accounting.stats

end StoreReads

/-- `NativeOdb::storage_stats`. -/
def NativeOdb.storageStats (P : Prims) (s : OdbDisk × NativeOdb) : Except OdbError StorageStats :=
  (NativeOdb.reads P s).storageStats

namespace StoreReads

variable (reads : StoreReads)

/-! ### What it is to report -/

/-- The record of a blob and its parts, if the record reads back. -/
def decoded (blob : BlobId) : Option (BlobId × List BlobId) :=
  (reads.tier1 blob).bind fun record =>
    match reads.getUnverified record with
    | .error _ => none
    | .ok bytes =>
      match decodeRecord bytes with
      | .error _ => none
      | .ok (_, _, parts) => some (record, parts)

def partsOf (blob : BlobId) : List BlobId := ((reads.decoded blob).map Prod.snd).getD []

/-- The blobs of the store that hold an object's blob. -/
def holders (blob : BlobId) : List BlobId :=
  match reads.tier1 blob with
  | none => [blob]
  | some record => record :: reads.partsOf blob

def leaves (blob : BlobId) : List ChunkId := (reads.leafChunks blob).toOption.getD []

/-- The blobs of the objects, each once. -/
def storedBlobs : List BlobId := (reads.entries.map MapEntry.alt).dedup

/-- The chunks of the objects, each once. -/
def reachable : List ChunkId := ((reads.storedBlobs.flatMap reads.holders).flatMap reads.leaves).dedup

def statOf (chunk : ChunkId) : ChunkStat := (reads.stat chunk).toOption.getD ⟨.raw, 0, 0⟩

end StoreReads

/-- The counters of chunks. -/
structure ChunkTotals where
  chunks : Nat
  logical : Nat
  stored : Nat
  encoded : Encoding → Nat × Nat

def StorageStats.totals (stats : StorageStats) : ChunkTotals where
  chunks := stats.chunksTotal
  logical := stats.chunkLogicalTotal
  stored := stats.storedTotal
  encoded
    | .raw => (stats.rawChunks, stats.rawStored)
    | .zstd => (stats.zstdChunks, stats.zstdStored)
    | .delta => (stats.deltaChunks, stats.deltaStored)

/-- The sums over some chunks, in all and of each encoding. -/
def totalsOf (infos : List ChunkStat) : ChunkTotals where
  chunks := infos.length
  logical := (infos.map fun i => i.origLen.toNat).sum
  stored := (infos.map fun i => i.storedLen.toNat).sum
  encoded encoding :=
    let infos := infos.filter fun i => i.encoding = encoding
    (infos.length, (infos.map fun i => i.storedLen.toNat).sum)

/-- **An exact report.** Every object's blob is counted in its tier, and the totals are those of the
    chunks that are reachable, each once. -/
structure StoreReads.Exact (reads : StoreReads) (stats : StorageStats) : Prop where
  tier0 : stats.tier0Count = (reads.storedBlobs.filter fun b => (reads.tier1 b).isNone).length
  tier1 : stats.tier1Count = (reads.storedBlobs.filter fun b => (reads.tier1 b).isSome).length
  totals : stats.totals = totalsOf (reads.reachable.map reads.statOf)

/-! ### Counting chunks -/

variable {stats : StorageStats}

theorem totals_countChunk {infos : List ChunkStat} (stat : ChunkStat)
    (h : stats.totals = totalsOf infos) :
    (stats.countChunk stat).totals = totalsOf (stat :: infos) := by
  have hchunks := congrArg ChunkTotals.chunks h
  have hlogical := congrArg ChunkTotals.logical h
  have hstored := congrArg ChunkTotals.stored h
  have hencoded := fun encoding => congrFun (congrArg ChunkTotals.encoded h) encoding
  have hraw := hencoded .raw
  have hzstd := hencoded .zstd
  have hdelta := hencoded .delta
  simp only [StorageStats.totals, totalsOf, Prod.mk.injEq] at hchunks hlogical hstored hraw hzstd hdelta
  obtain ⟨encoding, origLen, storedLen⟩ := stat
  rw [ChunkTotals.mk.injEq]
  refine ⟨?_, ?_, ?_, funext fun e => ?_⟩
  · cases encoding <;> simp [StorageStats.countChunk, StorageStats.totals, totalsOf, hchunks]
  · cases encoding <;> simp [StorageStats.countChunk, StorageStats.totals, totalsOf, hlogical] <;> omega
  · cases encoding <;> simp [StorageStats.countChunk, StorageStats.totals, totalsOf, hstored] <;> omega
  · cases encoding <;> cases e <;>
      simp [StorageStats.countChunk, StorageStats.totals, totalsOf, hraw, hzstd, hdelta] <;> omega

/-- The totals do not depend on the order. -/
theorem totalsOf_perm {infos infos' : List ChunkStat} (h : infos.Perm infos') :
    totalsOf infos = totalsOf infos' := by
  rw [totalsOf, totalsOf, ChunkTotals.mk.injEq]
  refine ⟨h.length_eq, (h.map _).sum_nat, (h.map _).sum_nat, funext fun encoding => ?_⟩
  have hfilter := h.filter fun i => i.encoding = encoding
  exact Prod.ext hfilter.length_eq (hfilter.map _).sum_nat

section Account

variable {reads : StoreReads}

/-- The totals are those of the chunks seen. -/
structure Tallied (reads : StoreReads) (a : Accounting) : Prop where
  totals : a.stats.totals = totalsOf (a.seenChunks.map reads.statOf)
  nodup : a.seenChunks.Nodup

/-- Chunks were counted and nothing else. -/
structure Adds (reads : StoreReads) (new : List ChunkId) (a a' : Accounting) : Prop where
  tallied : Tallied reads a → Tallied reads a'
  chunks : ∀ c, c ∈ a'.seenChunks ↔ c ∈ a.seenChunks ∨ c ∈ new
  tier0 : a'.stats.tier0Count = a.stats.tier0Count
  tier1 : a'.stats.tier1Count = a.stats.tier1Count

theorem Adds.refl (a : Accounting) : Adds reads [] a a :=
  ⟨id, fun c => by simp, rfl, rfl⟩

variable {a a' : Accounting}

theorem Adds.trans {new new' : List ChunkId} {a'' : Accounting} (h : Adds reads new a a')
    (h' : Adds reads new' a' a'') : Adds reads (new ++ new') a a'' where
  tallied := h'.tallied ∘ h.tallied
  chunks c := by rw [h'.chunks, h.chunks, mem_append, or_assoc]
  tier0 := h'.tier0.trans h.tier0
  tier1 := h'.tier1.trans h.tier1

theorem accumulateChunk_spec {chunk : ChunkId} (h : reads.accumulateChunk a chunk = .ok a') :
    Adds reads [chunk] a a' ∧ a'.seenBlobs = a.seenBlobs := by
  rw [StoreReads.accumulateChunk] at h
  split at h
  · rename_i hseen
    cases h
    refine ⟨⟨id, fun c => ?_, rfl, rfl⟩, rfl⟩
    rw [mem_singleton]
    exact ⟨.inl, fun hc => hc.elim id fun heq => heq ▸ hseen⟩
  · rename_i hnew
    obtain ⟨stat, hstat, h⟩ := of_match_ok h
    cases h
    have hstatOf : reads.statOf chunk = stat := by rw [StoreReads.statOf, hstat]; rfl
    refine ⟨⟨fun ht => ⟨?_, nodup_cons.mpr ⟨hnew, ht.nodup⟩⟩, fun c => ?_, ?_, ?_⟩, rfl⟩
    · rw [map_cons, hstatOf]
      exact totals_countChunk stat ht.totals
    · rw [mem_cons, mem_singleton, or_comm]
    · obtain ⟨encoding, origLen, storedLen⟩ := stat
      cases encoding <;> rfl
    · obtain ⟨encoding, origLen, storedLen⟩ := stat
      cases encoding <;> rfl

theorem foldlM_accumulateChunk {chunks : List ChunkId}
    (h : chunks.foldlM reads.accumulateChunk a = .ok a') :
    Adds reads chunks a a' ∧ a'.seenBlobs = a.seenBlobs := by
  induction chunks generalizing a with
  | nil =>
    cases h
    exact ⟨.refl _, rfl⟩
  | cons chunk chunks ih =>
    rw [foldlM_cons] at h
    obtain ⟨a₁, hone, h⟩ := of_match_ok h
    obtain ⟨hadd, hblobs⟩ := accumulateChunk_spec hone
    obtain ⟨hrest, hblobs'⟩ := ih h
    exact ⟨hadd.trans hrest, hblobs'.trans hblobs⟩

/-- **One blob's chunks.** -/
theorem accumulateChunks_spec {blob : BlobId} (h : reads.accumulateChunks blob a = .ok a') :
    Adds reads (reads.leaves blob) a a' ∧ a'.seenBlobs = a.seenBlobs := by
  rw [StoreReads.accumulateChunks] at h
  split at h
  · cases h
  rename_i leaves hleaves
  have hlist : reads.leaves blob = leaves := by rw [StoreReads.leaves, hleaves]; rfl
  rw [hlist]
  exact foldlM_accumulateChunk h

variable {parts : List BlobId}

/-- **The parts** that were not seen before. -/
theorem foldlM_accumulatePart (h : parts.foldlM reads.accumulatePart a = .ok a') :
    (∃ new, Adds reads new a a' ∧
      ∀ c, c ∈ new ↔ ∃ p ∈ parts, p ∉ a.seenBlobs ∧ c ∈ reads.leaves p) ∧
    ∀ x, x ∈ a'.seenBlobs ↔ x ∈ a.seenBlobs ∨ x ∈ parts := by
  induction parts generalizing a with
  | nil =>
    cases h
    exact ⟨⟨[], .refl _, fun c => by simp⟩, fun x => by simp⟩
  | cons part parts ih =>
    rw [foldlM_cons] at h
    obtain ⟨a₁, hone, h⟩ := of_match_ok h
    obtain ⟨⟨new, hrest, hnew⟩, hblobs⟩ := ih h
    rw [StoreReads.accumulatePart] at hone
    split at hone
    · rename_i hseen
      cases hone
      refine ⟨⟨new, hrest, fun c => ?_⟩, fun x => ?_⟩
      · rw [hnew, exists_mem_cons_iff]
        exact ⟨.inr, fun hc => hc.resolve_left fun hp => hp.1 hseen⟩
      · rw [hblobs, mem_cons]
        exact ⟨fun hx => hx.imp_right .inr, fun hx => hx.elim .inl fun hx =>
          hx.elim (fun heq => .inl (heq ▸ hseen)) .inr⟩
    · rename_i hunseen
      obtain ⟨hadd, hsame⟩ := accumulateChunks_spec hone
      have hfront : Adds reads (reads.leaves part) a a₁ :=
        ⟨hadd.tallied ∘ fun ht => ⟨ht.totals, ht.nodup⟩, hadd.chunks, hadd.tier0, hadd.tier1⟩
      refine ⟨⟨_, hfront.trans hrest, fun c => ?_⟩, fun x => ?_⟩
      · rw [mem_append, hnew, exists_mem_cons_iff, hsame]
        constructor
        · rintro (hc | ⟨p, hp, hunseen', hc⟩)
          · exact .inl ⟨hunseen, hc⟩
          · rw [mem_cons, not_or] at hunseen'
            exact .inr ⟨p, hp, hunseen'.2, hc⟩
        · rintro (⟨-, hc⟩ | ⟨p, hp, hunseen', hc⟩)
          · exact .inl hc
          · by_cases heq : p = part
            · exact .inl (heq ▸ hc)
            · exact .inr ⟨p, hp, by rw [mem_cons, not_or]; exact ⟨heq, hunseen'⟩, hc⟩
      · rw [hblobs, hsame, mem_cons, mem_cons, or_assoc, or_left_comm]

/-! ### Counting objects -/

/-- A blob whose chunks are counted with these objects: one stored whole, the record of one in parts,
    or a part that is no object by itself. -/
def CountedWith (reads : StoreReads) (counted : List BlobId) (x : BlobId) : Prop :=
  (x ∈ counted ∧ reads.tier1 x = none) ∨
    ∃ b ∈ counted, ∃ parts record, reads.decoded b = some (record, parts) ∧
      (x = record ∨ (x ∈ parts ∧ x ∉ counted))

/-- **In the middle of a run**: the objects that are counted, and what was seen with them. -/
structure Accounted (reads : StoreReads) (counted : List BlobId) (a : Accounting) : Prop where
  nodup : counted.Nodup
  tallied : Tallied reads a
  seen : ∀ x, x ∈ a.seenBlobs ↔ x ∈ counted ∨ ∃ b ∈ counted, x ∈ reads.partsOf b
  chunks : ∀ c, c ∈ a.seenChunks ↔ ∃ x, CountedWith reads counted x ∧ c ∈ reads.leaves x
  tier0 : a.stats.tier0Count = (counted.filter fun b => (reads.tier1 b).isNone).length
  tier1 : a.stats.tier1Count = (counted.filter fun b => (reads.tier1 b).isSome).length

/-- An object is not counted when it was seen, as an object or as a part. -/
def countedStep (reads : StoreReads) (counted : List BlobId) (b : BlobId) : List BlobId :=
  if b ∈ counted ∨ b ∈ counted.flatMap reads.partsOf then counted else counted ++ [b]

variable {b record : BlobId}

theorem partsOf_of_decoded (h : reads.decoded b = some (record, parts)) :
    reads.partsOf b = parts := by
  rw [StoreReads.partsOf, h]
  rfl

variable {counted : List BlobId}

/-- What is counted with one more object that was not seen. -/
theorem countedWith_concat (hnew : ∀ b' ∈ counted, b ∉ reads.partsOf b') (x : BlobId) :
    CountedWith reads (counted ++ [b]) x ↔ CountedWith reads counted x ∨
      (x = b ∧ reads.tier1 b = none) ∨
      ∃ record parts, reads.decoded b = some (record, parts) ∧
        (x = record ∨ (x ∈ parts ∧ x ∉ counted ++ [b])) := by
  constructor
  · rintro (⟨hx, hwhole⟩ | ⟨b', hb', parts, record, hdecoded, hx⟩)
    · rcases mem_append.mp hx with hx | hx
      · exact .inl (.inl ⟨hx, hwhole⟩)
      · obtain rfl := mem_singleton.mp hx
        exact .inr (.inl ⟨rfl, hwhole⟩)
    · rcases mem_append.mp hb' with hb' | hb'
      · refine .inl (.inr ⟨b', hb', parts, record, hdecoded, hx.imp_right fun hx => ⟨hx.1, ?_⟩⟩)
        exact fun hmem => hx.2 (mem_append_left _ hmem)
      · obtain rfl := mem_singleton.mp hb'
        exact .inr (.inr ⟨record, parts, hdecoded, hx⟩)
  · rintro (hx | ⟨rfl, hwhole⟩ | ⟨record, parts, hdecoded, hx⟩)
    · rcases hx with ⟨hx, hwhole⟩ | ⟨b', hb', parts, record, hdecoded, hx⟩
      · exact .inl ⟨mem_append_left _ hx, hwhole⟩
      · refine .inr ⟨b', mem_append_left _ hb', parts, record, hdecoded,
          hx.imp_right fun hx => ⟨hx.1, fun hmem => ?_⟩⟩
        rcases mem_append.mp hmem with hmem | hmem
        · exact hx.2 hmem
        · rw [mem_singleton] at hmem
          subst hmem
          exact hnew b' hb' (partsOf_of_decoded hdecoded ▸ hx.1)
    · exact .inl ⟨mem_append_right _ mem_cons_self, hwhole⟩
    · exact .inr ⟨b, mem_append_right _ mem_cons_self, parts, record, hdecoded, hx⟩

theorem tiers_countObject (stats : StorageStats) (entry : MapEntry) :
    (stats.countObject entry).tier0Count = stats.tier0Count ∧
      (stats.countObject entry).tier1Count = stats.tier1Count ∧
      (stats.countObject entry).totals = stats.totals := by
  rw [StorageStats.countObject]
  cases entry.kind <;> exact ⟨rfl, rfl, rfl⟩

/-- The blobs whose chunks are gone over with an object. -/
def GoneOver (reads : StoreReads) (seen : List BlobId) (b x : BlobId) : Prop :=
  (x = b ∧ reads.tier1 b = none) ∨
    ∃ record parts, reads.decoded b = some (record, parts) ∧
      (x = record ∨ (x ∈ parts ∧ x ∉ b :: seen))

/-- What one object does, seen from outside. -/
structure AddsObject (reads : StoreReads) (b : BlobId) (a a' : Accounting) : Prop where
  tallied : Tallied reads a → Tallied reads a'
  seen : ∀ x, x ∈ a'.seenBlobs ↔ x ∈ a.seenBlobs ∨ x = b ∨ x ∈ reads.partsOf b
  chunks : ∀ c, c ∈ a'.seenChunks ↔
    c ∈ a.seenChunks ∨ ∃ x, GoneOver reads a.seenBlobs b x ∧ c ∈ reads.leaves x
  tier0 : a'.stats.tier0Count = a.stats.tier0Count + [b].countP fun b => (reads.tier1 b).isNone
  tier1 : a'.stats.tier1Count = a.stats.tier1Count + [b].countP fun b => (reads.tier1 b).isSome

/-- The object's own step keeps the account. -/
theorem Accounted.concat (h : Accounted reads counted a) (hfresh : b ∉ counted)
    (hparts : ∀ b' ∈ counted, b ∉ reads.partsOf b') (hadd : AddsObject reads b a a') :
    Accounted reads (counted ++ [b]) a' where
  nodup := nodup_append.mpr ⟨h.nodup, nodup_singleton _, fun x hx y hy => by
    rw [mem_singleton.mp hy]
    exact fun heq => hfresh (heq ▸ hx)⟩
  tallied := hadd.tallied h.tallied
  seen x := by
    rw [hadd.seen, h.seen, mem_append, mem_singleton]
    constructor
    · rintro ((hx | ⟨b', hb', hx⟩) | rfl | hx)
      · exact .inl (.inl hx)
      · exact .inr ⟨b', mem_append_left _ hb', hx⟩
      · exact .inl (.inr rfl)
      · exact .inr ⟨b, mem_append_right _ mem_cons_self, hx⟩
    · rintro ((hx | rfl) | ⟨b', hb', hx⟩)
      · exact .inl (.inl hx)
      · exact .inr (.inl rfl)
      · rcases mem_append.mp hb' with hb' | hb'
        · exact .inl (.inr ⟨b', hb', hx⟩)
        · rw [mem_singleton.mp hb'] at hx
          exact .inr (.inr hx)
  chunks c := by
    rw [hadd.chunks, h.chunks]
    constructor
    · rintro (⟨x, hx, hc⟩ | ⟨x, hx, hc⟩)
      · exact ⟨x, (countedWith_concat hparts x).mpr (.inl hx), hc⟩
      · refine ⟨x, (countedWith_concat hparts x).mpr (.inr ?_), hc⟩
        refine hx.imp id fun ⟨record, parts, hdecoded, hx⟩ =>
          ⟨record, parts, hdecoded, hx.imp_right fun hx => ⟨hx.1, fun hmem => hx.2 ?_⟩⟩
        rcases mem_append.mp hmem with hmem | hmem
        · exact mem_cons_of_mem _ ((h.seen x).mpr (.inl hmem))
        · exact mem_singleton.mp hmem ▸ mem_cons_self
    · rintro ⟨x, hx, hc⟩
      rcases (countedWith_concat hparts x).mp hx with hx | hx | ⟨record, parts, hdecoded, hx⟩
      · exact .inl ⟨x, hx, hc⟩
      · exact .inr ⟨x, .inl hx, hc⟩
      · rcases hx with hx | ⟨hpart, hother⟩
        · exact .inr ⟨x, .inr ⟨record, parts, hdecoded, .inl hx⟩, hc⟩
        rw [mem_append, not_or, mem_singleton] at hother
        by_cases hseen : x ∈ a.seenBlobs
        · -- A part that was seen is a part of an object counted before.
          obtain ⟨b', hb', hx'⟩ := ((h.seen x).mp hseen).resolve_left hother.1
          cases hdecoded' : reads.decoded b' with
          | none =>
            rw [StoreReads.partsOf, hdecoded'] at hx'
            cases hx'
          | some pair =>
            obtain ⟨record', parts'⟩ := pair
            rw [partsOf_of_decoded hdecoded'] at hx'
            exact .inl ⟨x, .inr ⟨b', hb', parts', record', hdecoded', .inr ⟨hx', hother.1⟩⟩, hc⟩
        · refine .inr ⟨x, .inr ⟨record, parts, hdecoded, .inr ⟨hpart, ?_⟩⟩, hc⟩
          rw [mem_cons, not_or]
          exact ⟨hother.2, hseen⟩
  tier0 := by rw [hadd.tier0, h.tier0, ← countP_eq_length_filter, ← countP_eq_length_filter,
    countP_append]
  tier1 := by rw [hadd.tier1, h.tier1, ← countP_eq_length_filter, ← countP_eq_length_filter,
    countP_append]

/-- What a record that reads back gives. -/
theorem decoded_eq (htier : reads.tier1 b = some record) {bytes : Bytes}
    (hbytes : reads.getUnverified record = .ok bytes) :
    reads.decoded b = ((decodeRecord bytes).toOption.map fun r => (record, r.2.2)) := by
  rw [StoreReads.decoded, htier, Option.bind_some, hbytes]
  dsimp only
  split <;> simp_all [Except.toOption]

/-- **A blob in parts.** -/
theorem accountTier1_spec (htier : reads.tier1 b = some record)
    (hrun : reads.accountTier1 record a = .ok a') :
    (∃ new, Adds reads new a a' ∧ ∀ c, c ∈ new ↔ ∃ x parts, reads.decoded b = some (record, parts) ∧
      (x = record ∨ (x ∈ parts ∧ x ∉ a.seenBlobs)) ∧ c ∈ reads.leaves x) ∧
    ∀ x, x ∈ a'.seenBlobs ↔ x ∈ a.seenBlobs ∨ x ∈ reads.partsOf b := by
  rw [StoreReads.accountTier1] at hrun
  cases hbytes : reads.getUnverified record with
  | error e =>
    rw [hbytes] at hrun
    cases hrun
  | ok bytes =>
  rw [hbytes] at hrun
  dsimp only at hrun
  have hdecoded := decoded_eq htier hbytes
  cases hrecord : decodeRecord bytes with
  | error e =>
    rw [hrecord] at hrun hdecoded
    cases hrun
    have hnone : reads.decoded b = none := hdecoded
    refine ⟨⟨[], .refl _, fun c => ?_⟩, fun x => ?_⟩
    · simp [hnone]
    · rw [StoreReads.partsOf, hnone]
      simp
  | ok decodedRecord =>
  obtain ⟨prism, recipe, parts⟩ := decodedRecord
  rw [hrecord] at hrun hdecoded
  have hsome : reads.decoded b = some (record, parts) := hdecoded
  dsimp only at hrun
  cases hone : reads.accumulateChunks record { a with stats := a.stats.countPrism prism parts.length } with
  | error e =>
    rw [hone] at hrun
    cases hrun
  | ok a₁ =>
  rw [hone] at hrun
  obtain ⟨hadd, hsame⟩ := accumulateChunks_spec hone
  obtain ⟨⟨new, hrest, hnew⟩, hblobs⟩ := foldlM_accumulatePart hrun
  have hfront : Adds reads (reads.leaves record) a a₁ :=
    ⟨hadd.tallied ∘ fun ht => ⟨ht.totals, ht.nodup⟩, hadd.chunks, hadd.tier0, hadd.tier1⟩
  refine ⟨⟨_, hfront.trans hrest, fun c => ?_⟩, fun x => ?_⟩
  · rw [mem_append, hnew, hsame]
    constructor
    · rintro (hc | ⟨p, hp, hunseen, hc⟩)
      · exact ⟨record, parts, hsome, .inl rfl, hc⟩
      · exact ⟨p, parts, hsome, .inr ⟨hp, hunseen⟩, hc⟩
    · rintro ⟨x, parts', hdecoded', hx, hc⟩
      rw [hsome, Option.some.injEq, Prod.mk.injEq] at hdecoded'
      obtain ⟨-, rfl⟩ := hdecoded'
      rcases hx with rfl | ⟨hx, hunseen⟩
      · exact .inl hc
      · exact .inr ⟨x, hx, hunseen, hc⟩
  · rw [hblobs, hsame, partsOf_of_decoded hsome]

/-- **One object.** -/
theorem accountEntry_spec {entry : MapEntry} (h : Accounted reads counted a)
    (hrun : reads.accountEntry a entry = .ok a') :
    Accounted reads (countedStep reads counted entry.alt) a' := by
  obtain ⟨htier0, htier1, htotals⟩ := tiers_countObject a.stats entry
  have hmem : entry.alt ∈ a.seenBlobs ↔
      entry.alt ∈ counted ∨ entry.alt ∈ counted.flatMap reads.partsOf := by
    rw [h.seen, mem_flatMap]
  rw [StoreReads.accountEntry] at hrun
  dsimp only at hrun
  rw [countedStep]
  split at hrun
  · rename_i hseen
    cases hrun
    rw [if_pos (hmem.mp hseen)]
    exact ⟨h.nodup, ⟨htotals.trans h.tallied.totals, h.tallied.nodup⟩, h.seen, h.chunks,
      htier0.trans h.tier0, htier1.trans h.tier1⟩
  rename_i hunseen
  rw [if_neg (mt hmem.mpr hunseen)]
  have hfresh := hunseen
  rw [hmem, not_or, mem_flatMap] at hfresh
  obtain ⟨hfresh, hparts⟩ := hfresh
  push Not at hparts
  refine h.concat hfresh hparts ?_
  split at hrun
  · rename_i record htier
    obtain ⟨⟨new, hadd, hnew⟩, hblobs⟩ := accountTier1_spec htier hrun
    refine ⟨hadd.tallied ∘ fun ht => ⟨htotals.trans ht.totals, ht.nodup⟩, fun x => ?_, fun c => ?_, ?_, ?_⟩
    · rw [hblobs, mem_cons, or_comm (a := x = entry.alt), or_assoc]
    · rw [hadd.chunks, hnew]
      refine or_congr_right ⟨?_, ?_⟩
      · rintro ⟨x, parts, hdecoded, hx, hc⟩
        exact ⟨x, .inr ⟨record, parts, hdecoded, hx⟩, hc⟩
      · rintro ⟨x, ⟨-, hwhole⟩ | ⟨record', parts, hdecoded, hx⟩, hc⟩
        · rw [htier] at hwhole
          cases hwhole
        · have hsame : record' = record := by
            have hbind := hdecoded
            rw [StoreReads.decoded, htier, Option.bind_some] at hbind
            split at hbind
            · cases hbind
            · split at hbind
              · cases hbind
              · cases hbind
                rfl
          subst hsame
          exact ⟨x, parts, hdecoded, hx, hc⟩
    · rw [hadd.tier0]
      simpa [htier] using htier0
    · rw [hadd.tier1]
      simpa [htier] using htier1
  · rename_i htier
    obtain ⟨hadd, hsame⟩ := accumulateChunks_spec hrun
    have hdecoded : reads.decoded entry.alt = none := by
      rw [StoreReads.decoded, htier]
      rfl
    refine ⟨hadd.tallied ∘ fun ht => ⟨htotals.trans ht.totals, ht.nodup⟩, fun x => ?_, fun c => ?_, ?_, ?_⟩
    · rw [hsame, StoreReads.partsOf, hdecoded, mem_cons]
      simp [or_comm]
    · rw [hadd.chunks]
      refine or_congr_right ⟨fun hc => ⟨entry.alt, .inl ⟨rfl, htier⟩, hc⟩, ?_⟩
      rintro ⟨x, ⟨rfl, -⟩ | ⟨record, parts, hdecoded', -⟩, hc⟩
      · exact hc
      · rw [hdecoded] at hdecoded'
        cases hdecoded'
    · rw [hadd.tier0]
      simpa [htier] using htier0
    · rw [hadd.tier1]
      simpa [htier] using htier1

/-! ### The whole report -/

/-- The objects that are counted. -/
def countedOf (reads : StoreReads) : List BlobId :=
  (reads.entries.map MapEntry.alt).foldl (countedStep reads) []

theorem foldlM_accountEntry {entries : List MapEntry} (h : Accounted reads counted a)
    (hrun : entries.foldlM reads.accountEntry a = .ok a') :
    Accounted reads ((entries.map MapEntry.alt).foldl (countedStep reads) counted) a' := by
  induction entries generalizing counted a with
  | nil =>
    cases hrun
    exact h
  | cons entry entries ih =>
    rw [foldlM_cons] at hrun
    obtain ⟨a₁, hone, hrun⟩ := of_match_ok hrun
    exact ih (accountEntry_spec h hone) hrun

/-- **The report** is that of the objects counted. -/
theorem storageStats_accounted {stats : StorageStats} (h : reads.storageStats = .ok stats) :
    ∃ a, a.stats = stats ∧ Accounted reads (countedOf reads) a := by
  rw [StoreReads.storageStats] at h
  obtain ⟨a, hrun, h⟩ := of_match_ok h
  cases h
  have hzero : StorageStats.empty.totals = totalsOf [] :=
    (ChunkTotals.mk.injEq _ _ _ _ _ _ _ _).mpr ⟨rfl, rfl, rfl, funext fun e => by cases e <;> rfl⟩
  have hstart : Accounted reads [] ⟨.empty, [], []⟩ := by
    refine ⟨.nil, ⟨hzero, .nil⟩, fun x => ?_, fun c => ?_, rfl, rfl⟩
    · simp
    · simp [CountedWith]
  exact ⟨a, rfl, foldlM_accountEntry hstart hrun⟩

/-! ### Which objects are counted -/

/-- No object comes after one that has it as a part. -/
def NoneCovered (reads : StoreReads) (alts : List BlobId) : Prop :=
  ∀ front b rest, alts = front ++ b :: rest → b ∉ front → ∀ b' ∈ front, b ∉ reads.partsOf b'

theorem subset_countedStep (counted : List BlobId) (b : BlobId) :
    counted ⊆ countedStep reads counted b := by
  rw [countedStep]
  split
  · exact List.Subset.refl _
  · exact subset_append_left _ _

theorem subset_foldl_countedStep (alts counted : List BlobId) :
    counted ⊆ alts.foldl (countedStep reads) counted := by
  induction alts generalizing counted with
  | nil => exact List.Subset.refl _
  | cons b alts ih => exact List.Subset.trans (subset_countedStep counted b) (ih _)

variable {x : BlobId}

theorem mem_of_mem_countedStep (h : x ∈ countedStep reads counted b) : x ∈ counted ∨ x = b := by
  rw [countedStep] at h
  split at h
  · exact .inl h
  · exact (mem_append.mp h).imp_right mem_singleton.mp

variable {alts : List BlobId}

theorem mem_of_mem_foldl_countedStep (h : x ∈ alts.foldl (countedStep reads) counted) :
    x ∈ counted ∨ x ∈ alts := by
  induction alts generalizing counted with
  | nil => exact .inl h
  | cons b alts ih =>
    rcases ih h with h | h
    · rcases mem_of_mem_countedStep h with h | rfl
      · exact .inl h
      · exact .inr mem_cons_self
    · exact .inr (mem_cons_of_mem _ h)

/-- What was seen and not counted is never counted. -/
theorem not_mem_foldl_countedStep (hx : x ∉ counted) (hseen : x ∈ counted.flatMap reads.partsOf) :
    x ∉ alts.foldl (countedStep reads) counted := by
  induction alts generalizing counted with
  | nil => exact hx
  | cons b alts ih =>
    refine ih (fun hmem => ?_) ?_
    · rcases mem_of_mem_countedStep hmem with h | rfl
      · exact hx h
      · rw [countedStep, if_pos (.inr hseen)] at hmem
        exact hx hmem
    · obtain ⟨b', hb', hpart⟩ := mem_flatMap.mp hseen
      exact mem_flatMap.mpr ⟨b', subset_countedStep counted b hb', hpart⟩

/-- An object that was gone over is counted or a part of one that is. -/
theorem seen_of_mem (hx : x ∈ alts) :
    x ∈ alts.foldl (countedStep reads) counted ∨
      x ∈ (alts.foldl (countedStep reads) counted).flatMap reads.partsOf := by
  induction alts generalizing counted with
  | nil => cases hx
  | cons b alts ih =>
    rcases mem_cons.mp hx with rfl | hx
    · have hsubset : countedStep reads counted x ⊆
          alts.foldl (countedStep reads) (countedStep reads counted x) := subset_foldl_countedStep _ _
      by_cases hseen : x ∈ counted ∨ x ∈ counted.flatMap reads.partsOf
      · have hstep : countedStep reads counted x = counted := if_pos hseen
        rw [hstep] at hsubset
        rw [foldl_cons, hstep]
        refine hseen.imp (fun h => hsubset h) fun h => ?_
        obtain ⟨b', hb', hpart⟩ := mem_flatMap.mp h
        exact mem_flatMap.mpr ⟨b', hsubset hb', hpart⟩
      · have hstep : countedStep reads counted x = counted ++ [x] := if_neg hseen
        refine .inl (hsubset ?_)
        rw [hstep]
        exact mem_append_right _ mem_cons_self
    · exact ih hx

/-- **All objects are counted** just when none comes after one that has it as a part. -/
theorem all_counted_iff (alts : List BlobId) :
    (∀ x ∈ alts, x ∈ alts.foldl (countedStep reads) []) ↔ NoneCovered reads alts := by
  constructor
  · intro hall front b rest halts hfresh b' hb' hpart
    subst halts
    have hrun : (front ++ b :: rest).foldl (countedStep reads) []
        = (b :: rest).foldl (countedStep reads) (front.foldl (countedStep reads) []) :=
      foldl_append
    rw [hrun] at hall
    have hcounted : b' ∈ front.foldl (countedStep reads) [] := by
      by_contra hnot
      have hgone : b' ∈ front.foldl (countedStep reads) [] ∨
          b' ∈ (front.foldl (countedStep reads) []).flatMap reads.partsOf := seen_of_mem hb'
      rcases hgone with h | h
      · exact hnot h
      · exact not_mem_foldl_countedStep hnot h (hall b' (mem_append_left _ hb'))
    have hmissing : b ∉ front.foldl (countedStep reads) [] := fun h =>
      hfresh ((mem_of_mem_foldl_countedStep h).resolve_left not_mem_nil)
    exact not_mem_foldl_countedStep hmissing (mem_flatMap.mpr ⟨b', hcounted, hpart⟩)
      (hall b (mem_append_right _ mem_cons_self))
  · intro hnone
    -- Induction over what was gone over: so far everything is counted.
    suffices hsuffix : ∀ rest front, alts = front ++ rest →
        (∀ x ∈ front, x ∈ front.foldl (countedStep reads) []) →
        ∀ x ∈ front ++ rest, x ∈ (front ++ rest).foldl (countedStep reads) [] from
      hsuffix alts [] rfl fun x hx => by cases hx
    intro rest
    induction rest with
    | nil =>
      intro front halts hfront
      rw [append_nil]
      exact hfront
    | cons b rest ih =>
      intro front halts hfront
      have hshift : front ++ b :: rest = (front ++ [b]) ++ rest := by simp
      rw [hshift]
      refine ih (front ++ [b]) (halts.trans hshift) fun x hx => ?_
      rw [foldl_append, foldl_cons, foldl_nil]
      rcases mem_append.mp hx with hx | hx
      · exact subset_countedStep _ _ (hfront x hx)
      obtain rfl := mem_singleton.mp hx
      by_cases hold : x ∈ front
      · exact subset_countedStep _ _ (hfront x hold)
      have hunseen : ¬(x ∈ front.foldl (countedStep reads) [] ∨
          x ∈ (front.foldl (countedStep reads) []).flatMap reads.partsOf) := by
        rintro (h | h)
        · exact hold ((mem_of_mem_foldl_countedStep h).resolve_left not_mem_nil)
        · obtain ⟨b', hb', hpart⟩ := mem_flatMap.mp h
          have hmem := (mem_of_mem_foldl_countedStep hb').resolve_left not_mem_nil
          exact hnone front x rest halts hold b' hmem hpart
      rw [countedStep, if_neg hunseen]
      exact mem_append_right _ mem_cons_self

/-! ### Which chunks are counted -/

/-- Each chunk of an object is one of a blob whose chunks are counted. -/
def Covered (reads : StoreReads) : Prop :=
  ∀ b ∈ reads.storedBlobs, ∀ x ∈ reads.holders b, ∀ c ∈ reads.leaves x,
    ∃ y, CountedWith reads reads.storedBlobs y ∧ c ∈ reads.leaves y

theorem mem_storedBlobs :
    b ∈ reads.storedBlobs ↔ b ∈ reads.entries.map MapEntry.alt := mem_dedup

theorem mem_reachable {c : ChunkId} :
    c ∈ reads.reachable ↔ ∃ b ∈ reads.storedBlobs, ∃ x ∈ reads.holders b, c ∈ reads.leaves x := by
  rw [StoreReads.reachable, mem_dedup, mem_flatMap]
  constructor
  · rintro ⟨x, hx, hc⟩
    obtain ⟨b, hb, hx⟩ := mem_flatMap.mp hx
    exact ⟨b, hb, x, hx, hc⟩
  · rintro ⟨b, hb, x, hx, hc⟩
    exact ⟨x, mem_flatMap.mpr ⟨b, hb, hx⟩, hc⟩

theorem tier1_of_decoded (h : reads.decoded b = some (record, parts)) :
    reads.tier1 b = some record := by
  rw [StoreReads.decoded] at h
  obtain ⟨record', htier, hrest⟩ := Option.bind_eq_some_iff.mp h
  split at hrest
  · cases hrest
  · split at hrest
    · cases hrest
    · cases hrest
      exact htier

/-- What is counted holds one of the objects. -/
theorem CountedWith.holds (h : CountedWith reads counted x) :
    ∃ b ∈ counted, x ∈ reads.holders b := by
  rcases h with ⟨hx, hwhole⟩ | ⟨b, hb, parts, record, hdecoded, hx⟩
  · refine ⟨x, hx, ?_⟩
    rw [StoreReads.holders, hwhole]
    exact mem_cons_self
  · refine ⟨b, hb, ?_⟩
    rw [StoreReads.holders, tier1_of_decoded hdecoded]
    rcases hx with rfl | ⟨hx, -⟩
    · exact mem_cons_self
    · refine mem_cons_of_mem _ ?_
      rw [partsOf_of_decoded hdecoded]
      exact hx

theorem countedWith_congr {counted' : List BlobId} (h : ∀ x, x ∈ counted ↔ x ∈ counted')
    (x : BlobId) : CountedWith reads counted x ↔ CountedWith reads counted' x := by
  simp only [CountedWith, h]

/-- **Exactly when.** -/
theorem exact_iff (h : Accounted reads (countedOf reads) a) :
    reads.Exact a.stats ↔
      NoneCovered reads (reads.entries.map MapEntry.alt) ∧ Covered reads := by
  have hsubset : countedOf reads ⊆ reads.storedBlobs := fun x hx =>
    mem_storedBlobs.mpr ((mem_of_mem_foldl_countedStep hx).resolve_left not_mem_nil)
  have hnodup : reads.storedBlobs.Nodup := nodup_dedup _
  have hreached : a.seenChunks ⊆ reads.reachable := by
    intro c hc
    obtain ⟨x, hx, hleaf⟩ := (h.chunks c).mp hc
    obtain ⟨b, hb, hholds⟩ := hx.holds
    exact mem_reachable.mpr ⟨b, hsubset hb, x, hholds, hleaf⟩
  have hreachable : reads.reachable.Nodup := nodup_dedup _
  constructor
  · intro hexact
    -- The tiers make up all the objects.
    have hlength : (countedOf reads).length = reads.storedBlobs.length := by
      have hsplit : ∀ l : List BlobId, l.length = (l.filter fun b => (reads.tier1 b).isNone).length +
          (l.filter fun b => (reads.tier1 b).isSome).length := by
        intro l
        have hpart := length_eq_length_filter_add (l := l) fun b => (reads.tier1 b).isNone
        simpa only [Option.not_isNone] using hpart
      rw [hsplit, hsplit reads.storedBlobs, ← h.tier0, ← h.tier1, hexact.tier0, hexact.tier1]
    have hperm : (countedOf reads).Perm reads.storedBlobs :=
      (subperm_of_subset h.nodup hsubset).perm_of_length_le hlength.ge
    have hcount : a.seenChunks.length = reads.reachable.length := by
      have hchunks := congrArg ChunkTotals.chunks (h.tallied.totals.symm.trans hexact.totals)
      simpa [totalsOf] using hchunks
    have hchunks : a.seenChunks.Perm reads.reachable :=
      (subperm_of_subset h.tallied.nodup hreached).perm_of_length_le hcount.ge
    refine ⟨(all_counted_iff _).mp fun x hx => hperm.mem_iff.mpr (mem_storedBlobs.mpr hx), ?_⟩
    intro b hb x hx c hc
    obtain ⟨y, hy, hleaf⟩ :=
      (h.chunks c).mp (hchunks.mem_iff.mpr (mem_reachable.mpr ⟨b, hb, x, hx, hc⟩))
    exact ⟨y, (countedWith_congr (fun z => hperm.mem_iff) y).mp hy, hleaf⟩
  · rintro ⟨hnone, hcovered⟩
    have hall := (all_counted_iff _).mpr hnone
    have hperm : (countedOf reads).Perm reads.storedBlobs :=
      (perm_ext_iff_of_nodup h.nodup hnodup).mpr fun x =>
        ⟨fun hx => hsubset hx, fun hx => hall x (mem_storedBlobs.mp hx)⟩
    have hchunks : a.seenChunks.Perm reads.reachable := by
      refine (perm_ext_iff_of_nodup h.tallied.nodup hreachable).mpr fun c =>
        ⟨fun hc => hreached hc, fun hc => ?_⟩
      obtain ⟨b, hb, x, hx, hleaf⟩ := mem_reachable.mp hc
      obtain ⟨y, hy, hleaf'⟩ := hcovered b hb x hx c hleaf
      exact (h.chunks c).mpr ⟨y, (countedWith_congr (fun z => hperm.mem_iff) y).mpr hy, hleaf'⟩
    exact ⟨h.tier0.trans (hperm.filter _).length_eq, h.tier1.trans (hperm.filter _).length_eq,
      h.tallied.totals.trans (totalsOf_perm (hchunks.map _))⟩

end Account

/-- **The report of an open database** is exact just when no object comes after one that has it as a
    part, and every chunk of an object is one of a blob that is gone over. -/
theorem storage_stats_exact {P : Prims} {s : OdbDisk × NativeOdb} {stats : StorageStats}
    (h : NativeOdb.storageStats P s = .ok stats) :
    (NativeOdb.reads P s).Exact stats ↔
      NoneCovered (NativeOdb.reads P s) ((NativeOdb.reads P s).entries.map MapEntry.alt) ∧
        Covered (NativeOdb.reads P s) := by
  obtain ⟨a, rfl, ha⟩ := storageStats_accounted h
  exact exact_iff ha

/-! ### A stream and its content -/

/-- A prism for streams that are a byte and their content. -/
def streamPrism : PrismCodec where
  decompose input :=
    match input with
    | 0x78 :: data => some ⟨[6], [data]⟩
    | _ => none
  recompose _ parts := some (0x78 :: parts.flatten)
  fits := by
    intro input d h
    split at h
    · cases h
      simp
    · cases h

def content : Bytes := [1, 2, 3]

def stream : Bytes := 0x78 :: content

/-- A new database, after some blobs were put. -/
def afterPuts (payloads : List Bytes) : Option (OdbDisk × NativeOdb) :=
  match NativeOdb.openWith .toy .stable ⟨noPrism, noPrism, streamPrism⟩ defaultBlobOptions .fresh with
  | (_, .error _) => none
  | (disk, .ok h) =>
    let puts : OdbProg Unit := payloads.forM fun data => do
      let _ ← NativeOdb.put .toy .stable (ObjectId.hashObject .toy .sha1 .blob data) .blob data
    match puts (disk, h) with
    | .error _ _ => none
    | .ok _ s => some s

/-- The report after some puts, with what was read. -/
def reportAfter (payloads : List Bytes) : Option (StoreReads × StorageStats) :=
  (afterPuts payloads).bind fun s =>
    (NativeOdb.storageStats .toy s).toOption.map fun stats => (NativeOdb.reads .toy s, stats)

theorem exists_of_reportAfter {payloads : List Bytes} {reads : StoreReads}
    (h : reportAfter payloads = some (reads, stats)) :
    ∃ s, afterPuts payloads = some s ∧ NativeOdb.storageStats .toy s = .ok stats ∧
      NativeOdb.reads .toy s = reads := by
  obtain ⟨s, hs, h⟩ := Option.bind_eq_some_iff.mp h
  obtain ⟨stats', hstats, h⟩ := Option.map_eq_some_iff.mp h
  cases h
  refine ⟨s, hs, ?_, rfl⟩
  cases hrun : NativeOdb.storageStats .toy s with
  | error e =>
    rw [hrun] at hstats
    cases hstats
  | ok stats'' =>
    rw [hrun] at hstats
    cases hstats
    rfl

/-- The counters of an exact report. -/
def countersExact (reads : StoreReads) (stats : StorageStats) : Bool :=
  let chunks := totalsOf (reads.reachable.map reads.statOf)
  stats.tier0Count = (reads.storedBlobs.filter fun b => (reads.tier1 b).isNone).length ∧
    stats.tier1Count = (reads.storedBlobs.filter fun b => (reads.tier1 b).isSome).length ∧
    stats.totals.chunks = chunks.chunks ∧ stats.totals.logical = chunks.logical ∧
    stats.totals.stored = chunks.stored ∧ stats.totals.encoded .raw = chunks.encoded .raw ∧
    stats.totals.encoded .zstd = chunks.encoded .zstd ∧
    stats.totals.encoded .delta = chunks.encoded .delta

theorem countersExact_iff {reads : StoreReads} :
    countersExact reads stats = true ↔ reads.Exact stats := by
  rw [countersExact, decide_eq_true_iff]
  constructor
  · rintro ⟨htier0, htier1, hchunks, hlogical, hstored, hraw, hzstd, hdelta⟩
    refine ⟨htier0, htier1, (ChunkTotals.mk.injEq _ _ _ _ _ _ _ _).mpr
      ⟨hchunks, hlogical, hstored, funext fun e => ?_⟩⟩
    cases e
    · exact hraw
    · exact hzstd
    · exact hdelta
  · rintro ⟨htier0, htier1, htotals⟩
    rw [htotals]
    exact ⟨htier0, htier1, rfl, rfl, rfl, rfl, rfl, rfl⟩

/-- The content before the stream. -/
theorem storage_stats_exact_content_first :
    ∃ s stats, afterPuts [content, stream] = some s ∧ NativeOdb.storageStats .toy s = .ok stats ∧
      (NativeOdb.reads .toy s).Exact stats ∧
      NoneCovered (NativeOdb.reads .toy s) ((NativeOdb.reads .toy s).entries.map MapEntry.alt) ∧
      Covered (NativeOdb.reads .toy s) := by
  have hcheck : (reportAfter [content, stream]).map (fun r => countersExact r.1 r.2) = some true := by
    decide +kernel
  obtain ⟨⟨reads, stats⟩, hreport, hexact⟩ := Option.map_eq_some_iff.mp hcheck
  obtain ⟨s, hs, hstats, rfl⟩ := exists_of_reportAfter hreport
  have hexact := countersExact_iff.mp hexact
  exact ⟨s, stats, hs, hstats, hexact, (storage_stats_exact hstats).mp hexact⟩

/-- The stream before its content: the content is in no tier. -/
theorem storage_stats_stream_first :
    ∃ s stats, afterPuts [stream, content] = some s ∧ NativeOdb.storageStats .toy s = .ok stats ∧
      stats.blobs = 2 ∧ stats.tier0Count = 0 ∧ stats.tier1Count = 1 ∧
      ¬(NativeOdb.reads .toy s).Exact stats := by
  have hcheck : (reportAfter [stream, content]).map (fun r => (r.2.blobs, r.2.tier0Count,
      r.2.tier1Count, countersExact r.1 r.2)) = some (2, 0, 1, false) := by
    decide +kernel
  obtain ⟨⟨reads, stats⟩, hreport, hcounters⟩ := Option.map_eq_some_iff.mp hcheck
  obtain ⟨s, hs, hstats, rfl⟩ := exists_of_reportAfter hreport
  simp only [Prod.mk.injEq] at hcounters
  obtain ⟨hblobs, htier0, htier1, hexact⟩ := hcounters
  refine ⟨s, stats, hs, hstats, hblobs, htier0, htier1, fun h => ?_⟩
  rw [countersExact_iff.mpr h] at hexact
  cases hexact

end Alt.Odb
