import Alt.Library.DeltaLog
import Alt.Store.PackSet

namespace Alt.Store

open Alt.Library Pack ChunkStore List

/-!
# Reading chunks through a handle that is in step with the disk

`Follows c h` says that handle `h` holds in memory what the packs of `c` hold.  Then every
reader gives the newest record of a chunk (`readRecord_newest`), and a chunk whose delta
chain resolves reads back as what it resolves to (`resolve_resolves`), at every
verification level and whatever bases are cached.
-/

/-! ### The records of a pack set, with their locations -/

namespace PackSet

def records (c : PackSet) : List PackRecord :=
  c.sealed.flatMap SealedPack.recs ++ c.active

/-- Every record under its id, with the place it stands at. -/
def placedIn (seq : Nat) (recs : List PackRecord) : List (ChunkId × Location × PackRecord) :=
  (place headerLen recs).map fun q => (q.1.id, ⟨seq, q.2⟩, q.1)

def placed (c : PackSet) : List (ChunkId × Location × PackRecord) :=
  c.sealed.flatMap (fun p => placedIn p.seq p.recs) ++ placedIn c.activeSeq c.active

theorem placedIn_location (seq : Nat) (recs : List PackRecord) :
    (placedIn seq recs).map (fun e => (e.1, e.2.1)) = located seq (entries recs) := by
  simp [placedIn, located, entries, Function.comp_def]

theorem placedIn_record (seq : Nat) (recs : List PackRecord) :
    (placedIn seq recs).map (fun e => (e.1, e.2.2)) = recs.map fun r => (r.id, r) := by
  unfold placedIn
  generalize headerLen = pos
  induction recs generalizing pos with
  | nil => rfl
  | cons r recs ih => simpa [place] using ih (pos + r.size)

theorem placed_location (c : PackSet) : c.placed.map (fun e => (e.1, e.2.1)) = c.scanned := by
  simp only [placed, scanned, map_append, map_flatMap, placedIn_location]

theorem placed_record (c : PackSet) :
    c.placed.map (fun e => (e.1, e.2.2)) = c.records.map fun r => (r.id, r) := by
  simp only [placed, records, map_append, map_flatMap, placedIn_record]

/-- The numbers of the sealed packs are below the active one's. -/
theorem seq_lt (c : PackSet) {p : SealedPack} (hp : p ∈ c.sealed) : p.seq < c.activeSeq := by
  have := (pairwise_append.mp c.ordered).2.2
  exact this p.seq (mem_map_of_mem hp) c.activeSeq (mem_singleton.mpr rfl)

theorem nodup_seqs (c : PackSet) : (c.sealed.map SealedPack.seq).Nodup :=
  (pairwise_append.mp c.ordered).1.imp Nat.ne_of_lt

theorem find_active (S : IdxSort) (c : PackSet) :
    (c.dir S).find c.activeSeq = some ⟨c.activeSeq, packBytes c.active, none⟩ := by
  have hnone : (c.sealed.map (SealedPack.file S)).find? (fun f => f.seq == c.activeSeq) = none := by
    rw [find?_eq_none]
    intro f hf
    obtain ⟨p, hp, rfl⟩ := mem_map.mp hf
    have := c.seq_lt hp
    simp only [SealedPack.file, beq_iff_eq]
    omega
  simp [Dir.find, dir, find?_append, hnone]

end PackSet

/-! ### Where a record stands -/

/-- The bytes a handle reads the records of a pack from. -/
def packOf (d : Dir) (h : ChunkStore) (seq : Nat) : Option Bytes :=
  if seq = h.active.seq then (d.find seq).map PackFile.data else h.sealed.lookup seq

/-- Record `r` stands at `loc`. -/
def StandsAt (d : Dir) (h : ChunkStore) (loc : Location) (r : PackRecord) : Prop :=
  ∃ pre post, packOf d h loc.seq = some (pre ++ (r.bytes ++ post)) ∧ loc.offset = pre.length

section Stands

variable {d : Dir} {h : ChunkStore}

theorem readAt_packOf {seq k n : Nat} {pre mid post : Bytes} (id : ChunkId)
    (hpack : packOf d h seq = some (pre ++ (mid ++ post))) (hkn : k + n ≤ mid.length) :
    readAt d h id seq n (pre.length + k) = .ok ((mid.drop k).take n) := by
  have hread := readExactAt_within pre mid post hkn
  rw [packOf] at hpack
  rw [readAt]
  split
  · rename_i hactive
    rw [if_pos hactive] at hpack
    obtain ⟨f, hfind, hdata⟩ := Option.map_eq_some_iff.mp hpack
    rw [hfind, Option.bind_some, hdata, hread]
  · rename_i hsealed
    rw [if_neg hsealed] at hpack
    rw [hpack]
    simp only [hread]

namespace StandsAt

variable {loc : Location} {r : PackRecord}

/-- A read inside a record gives that part of its bytes. -/
theorem readAt (hr : StandsAt d h loc r) (id : ChunkId) {k n : Nat} (hkn : k + n ≤ r.size) :
    ChunkStore.readAt d h id loc.seq n (loc.offset + k) = .ok ((r.bytes.drop k).take n) := by
  obtain ⟨pre, post, hpack, hoff⟩ := hr
  rw [hoff]
  exact readAt_packOf id hpack (by rw [PackRecord.length_bytes]; exact hkn)

theorem readPayload (hr : StandsAt d h loc r) (id : ChunkId) :
    ChunkStore.readAt d h id loc.seq r.header.storedLen.toNat (loc.offset + recHeaderLen)
      = .ok r.payload := by
  have hread := hr.readAt id (k := recHeaderLen) (n := r.header.storedLen.toNat)
    (by simp [PackRecord.size, r.length_payload])
  have hbytes : (r.bytes.drop recHeaderLen).take r.header.storedLen.toNat = r.payload := by
    rw [PackRecord.bytes, drop_left' r.header.length_encode]
    exact take_of_length_le (by rw [r.length_payload])
  rw [hread, hbytes]

theorem readHeader (hr : StandsAt d h loc r) (id : ChunkId) :
    ChunkStore.readHeader d h id loc = .ok r.header := by
  have hread := hr.readAt id (k := 0) (n := recHeaderLen) (by simp [PackRecord.size])
  have hbytes : r.bytes.take recHeaderLen = r.header.encode := by
    rw [PackRecord.bytes]
    exact take_left' r.header.length_encode
  rw [Nat.add_zero, drop_zero, hbytes] at hread
  rw [ChunkStore.readHeader, hread]
  simp [Except.map]

theorem readRecord (hr : StandsAt d h loc r) (id : ChunkId) :
    ChunkStore.readRecord d h id loc = .ok (r.header, r.payload) := by
  simp only [ChunkStore.readRecord, hr.readHeader, hr.readPayload, bind, Except.bind, pure,
    Except.pure]

/-- The base a delta record names. -/
theorem readBaseId (hr : StandsAt d h loc r) (id : ChunkId) (hlen : 32 ≤ r.payload.length) :
    ChunkStore.readBaseId d h id loc = .ok (.ofSlice 32 (r.payload.take 32)) := by
  have hread := hr.readAt id (k := recHeaderLen) (n := 32)
    (by simp only [PackRecord.size]; omega)
  have hbytes : (r.bytes.drop recHeaderLen).take 32 = r.payload.take 32 := by
    rw [PackRecord.bytes, drop_left' r.header.length_encode]
  rw [hbytes] at hread
  rw [ChunkStore.readBaseId, hread]
  rfl

end StandsAt

end Stands

/-! ### A handle in step with the disk -/

/-- The handle holds what the packs hold. -/
structure Follows (c : PackSet) (h : ChunkStore) : Prop where
  sealed : h.sealed = c.sealed.map fun p => (p.seq, packBytes p.recs)
  active : h.active = ⟨c.activeSeq, (packBytes c.active).length, entries c.active⟩
  index : ∀ id, h.index.get id = lastOf c.scanned id

/-- How chunks are stored: in full, compressed or not, or as a delta. -/
def chunkCoding (P : Prims) : Coding ChunkId PackRecord Bytes where
  key := PackRecord.id
  base r := if r.header.encoding = encDelta then some (.ofSlice 32 (r.payload.take 32)) else none
  decode r base :=
    let out := match base with
      | none =>
        if r.header.encoding = encRaw then some r.payload
        else if r.header.encoding = encZstd then P.decodeAll r.payload
        else none
      | some base =>
        if r.payload.length < 32 then none
        else P.decompressWithBase (r.payload.drop 32) base r.header.origLen.toNat
    out.filter fun data => data.length = r.header.origLen.toNat

variable {P : Prims} {S : IdxSort} {c : PackSet} {h : ChunkStore}

/-- The newest record of every chunk. -/
abbrev PackSet.newest (P : Prims) (c : PackSet) : ChunkId → Option PackRecord :=
  (chunkCoding P).newest c.records

theorem PackSet.newest_eq (P : Prims) (c : PackSet) (id : ChunkId) :
    c.newest P id = (lastOf c.placed id).map Prod.snd := by
  have hmap := lastOf_map_snd (fun e : Location × PackRecord => e.2) c.placed id
  rw [PackSet.placed_record] at hmap
  exact hmap

theorem lastOf_scanned (c : PackSet) (id : ChunkId) :
    lastOf c.scanned id = (lastOf c.placed id).map Prod.fst := by
  have hmap := lastOf_map_snd (fun e : Location × PackRecord => e.1) c.placed id
  rw [PackSet.placed_location] at hmap
  exact hmap

variable {id : ChunkId}

/-- The index finds a chunk exactly where its newest record stands. -/
theorem Follows.locate_newest (hf : Follows c h) {r : PackRecord} (hr : c.newest P id = some r) :
    ∃ loc, h.index.get id = some loc ∧ (id, loc, r) ∈ c.placed := by
  rw [PackSet.newest_eq, Option.map_eq_some_iff] at hr
  obtain ⟨⟨loc, r'⟩, hlast, rfl⟩ := hr
  refine ⟨loc, ?_, ?_⟩
  · rw [hf.index, lastOf_scanned, hlast]
    rfl
  · exact mem_of_lastOf hlast

/-- A chunk is in the index exactly if it has a record. -/
theorem Follows.newest_of_get (hf : Follows c h) {loc : Location}
    (hloc : h.index.get id = some loc) : ∃ r, c.newest P id = some r := by
  rw [hf.index, lastOf_scanned, Option.map_eq_some_iff] at hloc
  obtain ⟨e, he, -⟩ := hloc
  exact ⟨e.2, by rw [PackSet.newest_eq, he]; rfl⟩

theorem Follows.not_indexed (hf : Follows c h) (P : Prims) (hnone : h.index.get id = none) :
    c.newest P id = none := by
  cases hr : c.newest P id with
  | none => rfl
  | some r =>
    obtain ⟨loc, hloc, -⟩ := hf.locate_newest hr
    rw [hnone] at hloc
    cases hloc

/-- Every record stands where it was placed. -/
theorem Follows.standsAt (hf : Follows c h) {loc : Location} {r : PackRecord}
    (hmem : (id, loc, r) ∈ c.placed) : StandsAt (c.dir S) h loc r := by
  -- within one pack's bytes
  have hin : ∀ {seq recs}, (id, loc, r) ∈ PackSet.placedIn seq recs → loc.seq = seq ∧
      ∃ pre post, packBytes recs = pre ++ (r.bytes ++ post) ∧ loc.offset = pre.length := by
    intro seq recs hplaced
    obtain ⟨⟨r', off⟩, hplace, heq⟩ := mem_map.mp hplaced
    cases heq
    obtain ⟨pre, post, rfl, rfl⟩ := mem_place hplace
    refine ⟨rfl, packBytes pre, body post, ?_, (length_packBytes pre).symm⟩
    rw [packBytes_append, body_cons]
  rcases mem_append.mp hmem with hsealed | hactive
  · obtain ⟨p, hp, hplaced⟩ := mem_flatMap.mp hsealed
    obtain ⟨hseq, pre, post, hbytes, hoff⟩ := hin hplaced
    have hne : loc.seq ≠ h.active.seq := by
      have := c.seq_lt hp
      rw [hf.active, hseq]
      exact Nat.ne_of_lt this
    have hlookup : h.sealed.lookup loc.seq = some (packBytes p.recs) := by
      rw [hf.sealed, hseq, lookup_eq_some_of_mem]
      · exact mem_map.mpr ⟨p, hp, rfl⟩
      · simpa [Function.comp_def] using c.nodup_seqs
    exact ⟨pre, post, by rw [packOf, if_neg hne, hlookup, hbytes], hoff⟩
  · obtain ⟨hseq, pre, post, hbytes, hoff⟩ := hin hactive
    have heq : loc.seq = h.active.seq := by rw [hf.active, hseq]
    exact ⟨pre, post, by rw [packOf, if_pos heq, hseq, PackSet.find_active, Option.map_some, hbytes],
      hoff⟩

/-- **Readers give the newest record.** -/
theorem Follows.readRecord_placed (hf : Follows c h) {loc : Location} {r : PackRecord}
    (hmem : (id, loc, r) ∈ c.placed) (id' : ChunkId) :
    readHeader (c.dir S) h id' loc = .ok r.header ∧
    readRecord (c.dir S) h id' loc = .ok (r.header, r.payload) :=
  ⟨(hf.standsAt hmem).readHeader id', (hf.standsAt hmem).readRecord id'⟩

/-- The base a delta record names. -/
theorem Follows.readBaseId_placed (hf : Follows c h) {loc : Location} {r : PackRecord}
    (hmem : (id, loc, r) ∈ c.placed) (id' : ChunkId) (hlen : 32 ≤ r.payload.length) :
    readBaseId (c.dir S) h id' loc = .ok (.ofSlice 32 (r.payload.take 32)) :=
  (hf.standsAt hmem).readBaseId id' hlen

/-! ### Resolving a chunk -/

/-- What a chunk's bytes must be: `right id data`, one value for each id, with its hash. -/
structure Content (P : Prims) (right : ChunkId → Bytes → Prop) : Prop where
  unique : ∀ id data data', right id data → right id data' → data = data'
  hash : ∀ id data, right id data → P.blake3 data = id

/-- Every cached base is right. -/
def CacheOk (right : ChunkId → Bytes → Prop) (cache : DeltaCache) : Prop :=
  ∀ e ∈ cache.bases, right e.1 e.2

variable {right : ChunkId → Bytes → Prop}

theorem cacheOk_new : CacheOk right .new := by
  intro e he
  cases he

theorem CacheOk.get {cache : DeltaCache} (hc : CacheOk right cache) {data : Bytes}
    (hget : cache.get id = some data) : right id data := by
  obtain ⟨l₁, l₂, heq, -⟩ := List.lookup_eq_some_iff.mp hget
  exact hc (id, data) (by rw [heq]; simp)

theorem evict_subset (bases : List (ChunkId × Bytes)) : DeltaCache.evict bases ⊆ bases := by
  induction bases with
  | nil => exact List.Subset.refl _
  | cons e bases ih =>
    unfold DeltaCache.evict
    split
    · exact fun x hx => mem_cons_of_mem e (ih hx)
    · exact List.Subset.refl _

theorem CacheOk.put {cache : DeltaCache} (hc : CacheOk right cache) {data : Bytes}
    (hright : right id data) : CacheOk right (cache.put id data) := by
  unfold DeltaCache.put
  split
  · exact hc
  · intro e he
    rcases mem_append.mp (evict_subset _ he) with hold | hnew
    · exact hc e hold
    · rw [mem_singleton.mp hnew]
      exact hright

/-- The base and the decoding of a delta record. -/
theorem chunkCoding_base {r : PackRecord} {b : ChunkId} (hb : (chunkCoding P).base r = some b) :
    r.header.encoding = encDelta ∧ b = .ofSlice 32 (r.payload.take 32) := by
  simp only [chunkCoding] at hb
  split at hb
  · rename_i henc
    exact ⟨henc, (Option.some.inj hb).symm⟩
  · cases hb

variable {v : Bytes}

theorem chunkCoding_delta {r : PackRecord} {w : Bytes}
    (hd : (chunkCoding P).decode r (some w) = some v) : 32 ≤ r.payload.length ∧
      P.decompressWithBase (r.payload.drop 32) w r.header.origLen.toNat = some v ∧
      v.length = r.header.origLen.toNat := by
  simp only [chunkCoding, Option.filter_eq_some_iff, decide_eq_true_eq] at hd
  obtain ⟨hout, hlen⟩ := hd
  split at hout
  · cases hout
  · exact ⟨by omega, hout, hlen⟩

theorem chunkCoding_full {r : PackRecord} (hd : (chunkCoding P).decode r none = some v)
    (id : ChunkId) : (r.header.encoding = encRaw ∨ r.header.encoding = encZstd) ∧
      decodeFull P id r.header r.payload = .ok v ∧ v.length = r.header.origLen.toNat := by
  simp only [chunkCoding, Option.filter_eq_some_iff, decide_eq_true_eq] at hd
  obtain ⟨hout, hlen⟩ := hd
  split at hout
  · rename_i henc
    cases hout
    refine ⟨.inl henc, ?_, hlen⟩
    rw [decodeFull, if_pos henc, sized, if_neg (fun h => h hlen)]
  · rename_i hraw
    split at hout
    · rename_i henc
      refine ⟨.inr henc, ?_, hlen⟩
      rw [decodeFull, if_neg hraw, hout]
      dsimp only
      rw [sized, if_neg (fun h => h hlen)]
    · cases hout

variable {path : List ChunkId}

/-- A resolving chunk has the length its record says. -/
theorem length_of_resolves {r : PackRecord} (hr : c.newest P id = some r)
    (hres : (chunkCoding P).Resolves (c.newest P) id path v) :
    v.length = r.header.origLen.toNat := by
  cases hres with
  | full hr' _ hd =>
    cases hr.symm.trans hr'
    exact (chunkCoding_full hd id).2.2
  | delta hr' _ _ hd =>
    cases hr.symm.trans hr'
    exact (chunkCoding_delta hd).2.2

/-- One step of the descent at a chunk that is not served from the cache. -/
theorem Follows.descend_step (hf : Follows c h) {r : PackRecord} (hr : c.newest P id = some r)
    {verify : Verify} {frames : List Frame} {fuel : Nat}
    (hmiss : (if verify ≠ .deep ∧ frames ≠ [] then h.cache.get id else none) = none)
    (hframes : ∀ f ∈ frames, f.1 ≠ id) :
    descend P (c.dir S) h verify (fuel + 1) frames id =
      if r.header.encoding = encRaw ∨ r.header.encoding = encZstd then do
        let data ← decodeFull P id r.header r.payload
        checkLayer P verify frames.isEmpty id data
        return (frames, id, data)
      else if r.header.encoding = encDelta then
        if r.payload.length < 32 then .error (.corrupt id "delta payload too short")
        else descend P (c.dir S) h verify fuel ((id, r.header.origLen, r.payload.drop 32) :: frames)
          (.ofSlice 32 (r.payload.take 32))
      else .error (.format "reserved record encoding") := by
  obtain ⟨loc, hloc, hmem⟩ := hf.locate_newest hr
  have hlocate : locate h id = .ok loc := by rw [locate, hloc]
  have hread := (hf.readRecord_placed (S := S) hmem id).2
  have hkey : r.header.id = id := (Coding.key_newest hr).1
  have hany : frames.any (fun f => f.1 == id) = false := by
    rw [any_eq_false]
    intro f hfm
    exact beq_iff_eq.not.mpr (hframes f hfm)
  rw [descend, hmiss]
  simp only [hany, hlocate, Bool.false_eq_true, if_false]
  show (readRecord (c.dir S) h id loc >>= _) = _
  rw [hread]
  show (if r.header.id ≠ id then _ else _) = _
  rw [if_neg (fun hne => hne hkey)]

/-- Descend from a chunk with frames collected above it, then unwind. -/
def resolveFrom (P : Prims) (d : Dir) (h : ChunkStore) (verify : Verify) (fuel : Nat)
    (frames : List Frame) (id : ChunkId) : Except StoreError Bytes × DeltaCache :=
  match descend P d h verify fuel frames id with
  | .error e => (.error e, h.cache)
  | .ok (frames, cur, data) => unwind P verify frames cur data h.cache

theorem sized_ok {origLen : UInt32} (h : v.length = origLen.toNat) :
    sized id v origLen = .ok v := by
  rw [sized, if_neg (fun hne => hne h)]

theorem checkLayer_ok (hv : P.blake3 v = id) (verify : Verify) (isBoundary : Bool) :
    checkLayer P verify isBoundary id v = .ok () := by
  unfold checkLayer
  split
  · rw [checkHash, if_neg (fun hne => hne hv)]
  · rfl

/-- **A resolving chain reads back.** Below any frames, the descent and the unwinding of the
    part of the chain from `id` on come to the bytes the chain resolves to. -/
theorem Follows.resolveFrom_resolves (hf : Follows c h) (hcontent : Content P right)
    (hcache : CacheOk right h.cache) (hres : (chunkCoding P).Resolves (c.newest P) id path v)
    (hright : ∀ x path w, (chunkCoding P).Resolves (c.newest P) x path w → right x w)
    (verify : Verify) {fuel : Nat} {frames : List Frame} (hfuel : path.length ≤ fuel)
    (hframes : ∀ f ∈ frames, f.1 ∉ path) :
    ∃ cache, CacheOk right cache ∧
      resolveFrom P (c.dir S) h verify fuel frames id = unwind P verify frames id v cache := by
  induction hres generalizing fuel frames with
  | @full id r v hr hb hd =>
    have hv := hright _ _ _ (.full hr hb hd)
    obtain ⟨fuel, rfl⟩ := Nat.exists_eq_add_one.mpr hfuel
    refine ⟨h.cache, hcache, ?_⟩
    unfold resolveFrom
    cases hhit : (if verify ≠ .deep ∧ frames ≠ [] then h.cache.get id else none) with
    | some hit =>
      -- a cached base is the value the chain resolves to
      have hget : h.cache.get id = some hit := by
        split at hhit
        · exact hhit
        · cases hhit
      obtain rfl := hcontent.unique id hit v (hcache.get hget) hv
      rw [descend, hhit]
    | none =>
      have hne : ∀ f ∈ frames, f.1 ≠ id := by
        intro f hfm heq
        exact hframes f hfm (heq ▸ mem_singleton.mpr rfl)
      obtain ⟨henc, hdec, -⟩ := chunkCoding_full hd id
      have hret : (do
          let data ← decodeFull P id r.header r.payload
          checkLayer P verify frames.isEmpty id data
          return (frames, id, data)) = Except.ok (frames, id, v) := by
        rw [hdec]
        show (do
          checkLayer P verify frames.isEmpty id v
          return (frames, id, v)) = _
        rw [checkLayer_ok (hcontent.hash id v hv)]
        rfl
      rw [hf.descend_step hr hhit hne, if_pos henc, hret]
  | @delta id b r path w v hr hb hw hd ih =>
    have hv := hright _ _ _ (.delta hr hb hw hd)
    obtain ⟨fuel, rfl⟩ := Nat.exists_eq_add_one.mpr (Nat.lt_of_lt_of_le (Nat.succ_pos _) hfuel)
    cases hhit : (if verify ≠ .deep ∧ frames ≠ [] then h.cache.get id else none) with
    | some hit =>
      have hget : h.cache.get id = some hit := by
        split at hhit
        · exact hhit
        · cases hhit
      obtain rfl := hcontent.unique id hit v (hcache.get hget) hv
      refine ⟨h.cache, hcache, ?_⟩
      rw [resolveFrom, descend, hhit]
    | none =>
      have hne : ∀ f ∈ frames, f.1 ≠ id := by
        intro f hfm heq
        exact hframes f hfm (heq ▸ mem_cons_self)
      obtain ⟨henc, rfl⟩ := chunkCoding_base hb
      obtain ⟨hlen, hdecomp, hsize⟩ := chunkCoding_delta hd
      have hfull : ¬ (r.header.encoding = encRaw ∨ r.header.encoding = encZstd) := by
        rw [henc]
        decide
      -- the descent goes on at the base, below one more frame
      have hstep : resolveFrom P (c.dir S) h verify (fuel + 1) frames id
          = resolveFrom P (c.dir S) h verify fuel
              ((id, r.header.origLen, r.payload.drop 32) :: frames) (.ofSlice 32 (r.payload.take 32)) := by
        rw [resolveFrom, hf.descend_step hr hhit hne, if_neg hfull, if_pos henc,
          if_neg (by omega)]
        rfl
      have hnot := Coding.Resolves.not_mem_base hr hb hw hd
      obtain ⟨cache, hc, hunwind⟩ := @ih fuel ((id, r.header.origLen, r.payload.drop 32) :: frames)
        (by simpa using hfuel) (by
          intro f hfm
          rcases mem_cons.mp hfm with rfl | hfm
          · exact hnot
          · exact fun hmem => hframes f hfm (mem_cons_of_mem _ hmem))
      refine ⟨cache.put (.ofSlice 32 (r.payload.take 32)) w, hc.put (hright _ _ _ hw), ?_⟩
      rw [hstep, hunwind, unwind]
      simp only [hdecomp, sized_ok hsize, checkLayer_ok (hcontent.hash id v hv)]

/-- The keys of a resolving path are indexed, so the number of indexed chunks bounds it. -/
theorem Follows.path_le (hf : Follows c h)
    (hres : (chunkCoding P).Resolves (c.newest P) id path v) :
    path.length ≤ h.index.entries.length := by
  have hsub : path ⊆ h.index.entries.map Prod.fst := by
    intro x hx
    obtain ⟨path', w, hres', -⟩ := hres.suffix x hx
    obtain ⟨r, hr⟩ := hres'.found
    obtain ⟨loc, hloc, -⟩ := hf.locate_newest hr
    exact mem_map.mpr ⟨(x, loc), (h.index.mem_entries_iff x loc).mpr hloc, rfl⟩
  have hle := (subperm_of_subset hres.nodup hsub).length_le
  rwa [length_map] at hle

/-- **Reading a chunk.** A chunk whose chain resolves reads back, at every verification
    level, and only right bases are cached. -/
theorem Follows.resolve_resolves (hf : Follows c h) (hcontent : Content P right)
    (hcache : CacheOk right h.cache) (hres : (chunkCoding P).Resolves (c.newest P) id path v)
    (hright : ∀ x path w, (chunkCoding P).Resolves (c.newest P) x path w → right x w)
    (verify : Verify) :
    ∃ cache, CacheOk right cache ∧ resolve P (c.dir S) h id verify = (.ok v, cache) := by
  have hfuel : path.length ≤ h.index.entries.length + 1 :=
    Nat.le_succ_of_le (hf.path_le hres)
  have hnone : ∀ f ∈ ([] : List Frame), f.1 ∉ path := by
    intro f hf
    cases hf
  exact hf.resolveFrom_resolves hcontent hcache hres hright verify hfuel hnone

end Alt.Store
