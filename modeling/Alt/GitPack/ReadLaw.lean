import Alt.GitPack.IdxRead
import Alt.GitPack.ReadAt

namespace Alt.GitPack

open Alt.Library List

/-!
# Reading from a pack — when a read ends, and what it gives

* `nextAt` — the chain of bases, as far as nothing is cached; `isSome_readAt_iff`: a read ends where
  this chain does;
* `Right`, `Coherent` — what is read and what is cached is what full resolution gives for the entry;
* `readAt_right` — a read keeps the cache coherent, and gives the entry's object.
-/

variable {Z : Flate} {pack : IndexedPack}

/-! ### When a read ends -/

/-- The chain of bases: from a delta that is not cached to where its base is. -/
def nextAt (pack : IndexedPack) (cached : FinMap Nat CacheEntry) (offset : Nat) : Option Nat :=
  if (cached.get offset).isSome then none
  else
    match entryInfo pack.algo pack.map offset with
    | .error _ => none
    | .ok info =>
      match pack.stepOf info.kind with
      | .ok (.base base) => some base
      | _ => none

variable {cache : DeltaBaseCache} {offset : Nat}

theorem DeltaBaseCache.get_of_none (h : cache.map.get offset = none) :
    cache.get offset = (none, { cache with tick := cache.tick + 1 }) := by
  rw [DeltaBaseCache.get, h]

theorem DeltaBaseCache.get_of_some {entry : CacheEntry} (h : cache.map.get offset = some entry) :
    cache.get offset = (some ⟨entry.kind, entry.data⟩,
      { cache with tick := cache.tick + 1, map := cache.map.insert offset { entry with last := cache.tick + 1 } }) := by
  rw [DeltaBaseCache.get, h]

/-- **The walk** goes as far as the chain. -/
theorem isSome_walkDown_iff (fuel : Nat) (frames : List (Nat × EntryInfo)) (cur : Nat) (cache : DeltaBaseCache) :
    (pack.walkDown Z fuel frames cur cache).isSome ↔ along (nextAt pack cache.map) fuel cur = none := by
  induction fuel generalizing frames cur cache with
  | zero => simp [IndexedPack.walkDown, along]
  | succ fuel ih =>
    rw [IndexedPack.walkDown, along]
    cases hcached : cache.map.get cur with
    | some entry =>
      rw [DeltaBaseCache.get_of_some hcached]
      simp [nextAt, hcached]
    | none =>
      rw [DeltaBaseCache.get_of_none hcached]
      dsimp only
      cases hinfo : entryInfo pack.algo pack.map cur with
      | error f => simp [nextAt, hcached, hinfo]
      | ok info =>
        dsimp only
        cases hstep : pack.stepOf info.kind with
        | error f => simp [nextAt, hcached, hinfo, hstep]
        | ok step =>
          cases step with
          | object kind =>
            have hend : nextAt pack cache.map cur = none := by simp [nextAt, hcached, hinfo, hstep]
            rw [hend]
            dsimp only
            cases inflate Z pack.map info.dataAt info.size <;> simp
          | base base =>
            have hnext : nextAt pack cache.map cur = some base := by simp [nextAt, hcached, hinfo, hstep]
            rw [hnext, Option.bind_some]
            exact ih _ _ { cache with tick := cache.tick + 1 }

/-- **A read ends** exactly where the chain of bases does. -/
theorem isSome_readAt_iff (fuel offset : Nat) (cache : DeltaBaseCache) :
    (pack.readAt Z fuel offset cache).isSome ↔ along (nextAt pack cache.map) fuel offset = none := by
  rw [← isSome_walkDown_iff (Z := Z) fuel [] offset cache, IndexedPack.readAt]
  cases pack.walkDown Z fuel [] offset cache with
  | none => rfl
  | some result =>
    obtain ⟨outcome, cache'⟩ := result
    cases outcome <;> rfl

/-- The chain lies within the pack. -/
theorem nextAt_lt {cached : FinMap Nat CacheEntry} {base : Nat}
    (h : nextAt pack cached offset = some base) :
    offset ∈ Finset.range pack.map.length := by
  rw [nextAt] at h
  split at h
  · cases h
  · split at h
    · cases h
    · rename_i info hinfo
      obtain ⟨hlt, hle⟩ := entryInfo_ok hinfo
      exact Finset.mem_range.mpr (Nat.lt_of_lt_of_le hlt hle)

/-- **Termination.** A read ends exactly where the chain of bases does not come back to an offset. -/
theorem exists_readAt_iff (offset : Nat) (cache : DeltaBaseCache) :
    (∃ fuel, (pack.readAt Z fuel offset cache).isSome) ↔ ¬Cyclic (nextAt pack cache.map) offset := by
  rw [← stops_iff_not_cyclic (Finset.range pack.map.length) fun a b => nextAt_lt]
  simp only [isSome_readAt_iff]
  exact Iff.rfl

/-! ### What a read gives -/

/-- The output of a longer stream begins with that of a shorter one. -/
def Streams (Z : Flate) : Prop :=
  ∀ xs ys out n out' n', Z.readToEnd xs = some (out, n) → Z.readToEnd (xs ++ ys) = some (out', n') → out <+: out'

variable {map : Bytes}

/-- Each entry of a scan is read where it is. -/
theorem readEntry_of_scan {algo : HashAlgo} {bodyEnd n pos pos' : Nat} {entries : List RawEntry}
    (h : scan Z algo map bodyEnd n pos = .ok (entries, pos')) :
    ∀ e ∈ entries, readEntry Z algo map bodyEnd e.offset = .ok e := by
  induction n generalizing pos entries with
  | zero =>
    cases h
    exact fun e he => absurd he not_mem_nil
  | succ n ih =>
    rw [scan] at h
    split at h
    · cases h
    · split at h
      · cases h
      · rename_i e hread
        split at h
        · cases h
        · rename_i rest pos'' hrest
          cases h
          refine forall_mem_cons.mpr ⟨?_, ih hrest⟩
          rw [(readEntry_ok hread).1, hread]

theorem inflateExact_ok {input payload : Bytes} {size : UInt64} {n : Nat}
    (h : inflateExact Z input size = .ok (payload, n)) :
    Z.readToEnd input = some (payload, n) ∧ payload.length = size.toNat := by
  rw [inflateExact] at h
  split at h
  · cases h
  · split at h
    · cases h
    · rename_i payload' n' hread
      split at h
      · cases h
      · rename_i hlength
        cases h
        exact ⟨hread, not_not.mp hlength⟩

theorem inflate_ok {data : Bytes} {dataAt : Nat} {size : UInt64}
    (h : inflate Z map dataAt size = .ok data) :
    ∃ n, Z.readToEnd (map.drop dataAt) = some (data, n) ∧ data.length = size.toNat := by
  rw [inflate] at h
  obtain ⟨p, hexact, h⟩ := of_match_ok h
  cases h
  exact ⟨p.2, inflateExact_ok hexact⟩

variable {info : EntryInfo}

/-- What inflates at an entry is its payload: the stream may go on into the checksum, its output does
    not. -/
theorem payload_of_inflate (hstreams : Streams Z) {algo : HashAlgo} {bodyEnd : Nat} {e : RawEntry}
    (h : readEntry Z algo map bodyEnd e.offset = .ok e)
    (hinfo : entryInfo algo map e.offset = .ok info) :
    e.kind = info.kind ∧ ∀ data, inflate Z map info.dataAt info.size = .ok data → data = e.payload := by
  have hinside := (entryInfo_ok hinfo).2
  rw [readEntry, hinfo] at h
  dsimp only at h
  split at h
  · cases h
  · rename_i hwithin
    split at h
    · cases h
    · rename_i payload totalIn hexact
      split at h
      · cases h
      · have he := (Except.ok.inj h).symm
        refine ⟨congrArg RawEntry.kind he, fun data hdata => ?_⟩
        have hpayload : e.payload = payload := congrArg RawEntry.payload he
        obtain ⟨hbody, hlength⟩ := inflateExact_ok hexact
        obtain ⟨n, hall, hlength'⟩ := inflate_ok hdata
        have hsplit : map.drop info.dataAt =
            (map.take bodyEnd).drop info.dataAt ++ map.drop bodyEnd := by
          conv_lhs => rw [← take_append_drop bodyEnd map]
          rw [drop_append_of_le_length (by rw [length_take]; omega)]
        rw [hsplit] at hall
        have hstart := hstreams _ _ _ _ _ _ hbody hall
        rw [hpayload, hstart.eq_of_length (hlength.trans hlength'.symm)]

/-! ### What a read gives -/

variable (P : Prims) (Z : Flate) (pack : IndexedPack) (entries : List RawEntry) (rs : List Resolved)

/-- The index gives the id of a base the offset of an entry with that id. -/
def Honest : Prop :=
  ∀ e ∈ entries, ∀ id, e.kind = .refDelta id → ∀ i offset, pack.idx.lookup id = some i →
    pack.idx.offsetAt i = .ok offset →
      ∃ (j : Nat) (b : RawEntry) (r : Resolved), entries[j]? = some b ∧ b.offset = offset ∧
        rs[j]? = some r ∧ r.oid P id.algo = id

/-- A pack whose entries are resolved, under an honest index. -/
structure Resolution : Prop where
  scanned : ∃ pos, scan Z pack.algo pack.map (pack.map.length - pack.algo.rawLen) (packCount pack.map) 12 =
    .ok (entries, pos)
  resolved : resolveAll P entries = .ok rs
  noCollision : NoCollision P entries
  streams : Streams Z
  honest : Honest P pack entries rs

/-- An object is what full resolution gives for the entry at an offset, if there is one. -/
def Right (offset : Nat) (r : Resolved) : Prop :=
  ∀ (i : Nat) (e : RawEntry), entries[i]? = some e → e.offset = offset → rs[i]? = some r

/-- All that is cached is right. -/
def Coherent (cached : FinMap Nat CacheEntry) : Prop :=
  ∀ offset entry, cached.get offset = some entry → Right entries rs offset ⟨entry.kind, entry.data⟩

variable {P Z pack entries rs}

theorem Resolution.read (h : Resolution P Z pack entries rs) : ∀ e ∈ entries,
    readEntry Z pack.algo pack.map (pack.map.length - pack.algo.rawLen) e.offset = .ok e := by
  obtain ⟨pos, hscan⟩ := h.scanned
  exact readEntry_of_scan hscan

theorem Resolution.offsets (h : Resolution P Z pack entries rs) : (entries.map RawEntry.offset).Nodup := by
  obtain ⟨pos, hscan⟩ := h.scanned
  exact scan_offsets hscan

variable {i : Nat} {r : Resolved}

/-- What full resolution gives is what the entry stands for. -/
theorem Resolution.denotes (h : Resolution P Z pack entries rs) (hr : rs[i]? = some r) :
    Denotes P entries i r :=
  (resolveLoop_ok resolves_plain h.resolved).denotes i r (by rw [getElem?_map, hr, Option.map_some])

theorem Resolution.exists_resolved (h : Resolution P Z pack entries rs) {e : RawEntry}
    (he : entries[i]? = some e) : ∃ r, rs[i]? = some r := by
  have hlength := (resolveLoop_ok resolves_plain h.resolved).length
  rw [length_map] at hlength
  have hlt := (List.getElem?_eq_some_iff.mp he).1
  exact ⟨rs[i], getElem?_eq_getElem (by omega)⟩

/-- A plain entry. -/
theorem Resolution.right_object (h : Resolution P Z pack entries rs) {kind : ObjectKind}
    {data : Bytes} (hinfo : entryInfo pack.algo pack.map offset = .ok info)
    (hstep : pack.stepOf info.kind = .ok (.object kind))
    (hdata : inflate Z pack.map info.dataAt info.size = .ok data) :
    Right entries rs offset ⟨kind, data⟩ := by
  rintro i e he rfl
  obtain ⟨hkind, hpayload⟩ := payload_of_inflate h.streams (h.read e (mem_of_getElem? he)) hinfo
  have hplain : info.kind = .plain kind := by
    cases hk : info.kind with
    | plain kind' =>
      rw [hk, IndexedPack.stepOf] at hstep
      cases hstep
      rfl
    | ofsDelta baseAt =>
      rw [hk, IndexedPack.stepOf] at hstep
      cases hstep
    | refDelta id =>
      rw [hk, IndexedPack.stepOf] at hstep
      split at hstep
      · cases hstep
      · split at hstep <;> cases hstep
  obtain ⟨r, hr⟩ := h.exists_resolved he
  rw [hr, (h.denotes hr).of_plain he (hkind.trans hplain), hpayload data hdata]

/-- **A delta** on the right base. -/
theorem Resolution.right_delta (h : Resolution P Z pack entries rs) {base : Nat}
    {rawDelta out : Bytes} (hinfo : entryInfo pack.algo pack.map offset = .ok info)
    (hstep : pack.stepOf info.kind = .ok (.base base)) (hbase : Right entries rs base r)
    (hdata : inflate Z pack.map info.dataAt info.size = .ok rawDelta)
    (hout : apply r.data rawDelta = .ok out) : Right entries rs offset ⟨r.kind, out⟩ := by
  rintro i e he rfl
  have hmem := mem_of_getElem? he
  obtain ⟨hkind, hpayload⟩ := payload_of_inflate h.streams (h.read e hmem) hinfo
  obtain rfl := hpayload rawDelta hdata
  obtain ⟨s, hs⟩ := h.exists_resolved he
  rw [hs]
  cases hk : info.kind with
  | plain kind =>
    rw [hk, IndexedPack.stepOf] at hstep
    cases hstep
  | ofsDelta baseAt =>
    rw [hk, IndexedPack.stepOf] at hstep
    cases hstep
    obtain ⟨j, b, r', hb, hat, hr', happly, hk'⟩ := (h.denotes hs).of_ofs he (hkind.trans hk)
    obtain rfl := (h.denotes (hbase j b hb hat)).unique h.offsets h.noCollision hr'
    rw [Resolved.eq_of_apply (s := ⟨r.kind, out⟩) happly hout hk' rfl]
  | refDelta id =>
    rw [hk, IndexedPack.stepOf] at hstep
    split at hstep
    · cases hstep
    · rename_i k hlookup
      split at hstep
      · cases hstep
      · rename_i offset' hoffset
        cases hstep
        obtain ⟨j, b, t, hb, hat, ht, hid⟩ := h.honest e hmem id (hkind.trans hk) k base hlookup hoffset
        obtain ⟨j', r', hr', hid', happly, hk'⟩ := (h.denotes hs).of_ref he (hkind.trans hk)
        have hrt := hbase j b hb hat
        obtain rfl : r = t := Option.some.inj (hrt.symm.trans ht)
        obtain rfl := h.noCollision i e id he (hkind.trans hk) j j' r r' (h.denotes ht) hr' hid hid'
        rw [Resolved.eq_of_apply (s := ⟨r.kind, out⟩) happly hout hk' rfl]

/-! ### The cache stays right -/

theorem Coherent.new (budget : Nat) : Coherent entries rs (DeltaBaseCache.new budget).map :=
  fun _ _ h => by cases h

theorem Coherent.insert {cached : FinMap Nat CacheEntry} (h : Coherent entries rs cached)
    {entry : CacheEntry} (hentry : Right entries rs offset ⟨entry.kind, entry.data⟩) :
    Coherent entries rs (cached.insert offset entry) := by
  intro offset' entry' h'
  rw [FinMap.get_insert] at h'
  split at h'
  · rename_i heq
    cases h'
    rw [heq]
    exact hentry
  · exact h offset' entry' h'

theorem Coherent.evictFrom {target : Nat} {byAge : List (Nat × CacheEntry)}
    (h : Coherent entries rs cache.map) :
    Coherent entries rs (DeltaBaseCache.evictFrom target byAge cache).map := by
  induction byAge generalizing cache with
  | nil => exact h
  | cons p byAge ih =>
    obtain ⟨off, entry⟩ := p
    rw [DeltaBaseCache.evictFrom]
    split
    · exact h
    · exact ih fun offset entry' h' => h offset entry' (FinMap.get_of_get_erase h')

theorem Coherent.put (h : Coherent entries rs cache.map) (hr : Right entries rs offset r) :
    Coherent entries rs (cache.put offset r).map := by
  rw [DeltaBaseCache.put]
  split
  · exact h
  · dsimp only
    split
    · exact Coherent.evictFrom (h.insert hr)
    · exact h.insert hr

variable {cache' : DeltaBaseCache}

theorem Coherent.get (h : Coherent entries rs cache.map) {hit : Option Resolved}
    (hget : cache.get offset = (hit, cache')) :
    Coherent entries rs cache'.map ∧ ∀ r, hit = some r → Right entries rs offset r := by
  rw [DeltaBaseCache.get] at hget
  split at hget
  · cases hget
    exact ⟨h, nofun⟩
  · rename_i entry hentry
    cases hget
    refine ⟨h.insert (h offset entry hentry), ?_⟩
    rintro r ⟨⟩
    exact h offset entry hentry

/-! ### What a read keeps -/

variable (pack) in
/-- The deltas on the way from an offset to where the walk is. -/
def Leads : List (Nat × EntryInfo) → Nat → Nat → Prop
  | [], cur, offset => cur = offset
  | (off, info) :: frames, cur, offset =>
    entryInfo pack.algo pack.map off = .ok info ∧ pack.stepOf info.kind = .ok (.base cur) ∧
      Leads frames off offset

/-- **Down the chain.** The walk ends at a right object. -/
theorem Resolution.walkDown (h : Resolution P Z pack entries rs) {fuel cur : Nat}
    {frames : List (Nat × EntryInfo)} {result : Except Fault (List (Nat × EntryInfo) × Resolved)}
    (hcache : Coherent entries rs cache.map) (hleads : Leads pack frames cur offset)
    (hwalk : pack.walkDown Z fuel frames cur cache = some (result, cache')) :
    Coherent entries rs cache'.map ∧ ∀ frames' r, result = .ok (frames', r) →
      ∃ cur', Leads pack frames' cur' offset ∧ Right entries rs cur' r := by
  induction fuel generalizing frames cur cache with
  | zero => cases hwalk
  | succ fuel ih =>
    rw [IndexedPack.walkDown] at hwalk
    split at hwalk
    · rename_i hit cache₁ hget
      cases hwalk
      obtain ⟨hcache₁, hright⟩ := hcache.get hget
      refine ⟨hcache₁, ?_⟩
      rintro frames' r ⟨⟩
      exact ⟨cur, hleads, hright _ rfl⟩
    · rename_i cache₁ hget
      have hcache₁ := (hcache.get hget).1
      split at hwalk
      · cases hwalk
        exact ⟨hcache₁, nofun⟩
      · rename_i info hinfo
        split at hwalk
        · cases hwalk
          exact ⟨hcache₁, nofun⟩
        · rename_i kind hstep
          split at hwalk
          · cases hwalk
            exact ⟨hcache₁, nofun⟩
          · rename_i data hdata
            cases hwalk
            have hright := h.right_object hinfo hstep hdata
            refine ⟨hcache₁.put hright, ?_⟩
            rintro frames' r ⟨⟩
            exact ⟨cur, hleads, hright⟩
        · rename_i base hstep
          have hleads' : Leads pack ((cur, info) :: frames) base offset := ⟨hinfo, hstep, hleads⟩
          exact ih hcache₁ hleads' hwalk

/-- **Up again.** Every result on the way is right. -/
theorem Resolution.applyUp (h : Resolution P Z pack entries rs) {cur : Nat}
    {frames : List (Nat × EntryInfo)} {result : Except Fault Resolved}
    (hcache : Coherent entries rs cache.map) (hleads : Leads pack frames cur offset)
    (hr : Right entries rs cur r) (hup : pack.applyUp Z frames r cache = (result, cache')) :
    Coherent entries rs cache'.map ∧ ∀ obj, result = .ok obj → Right entries rs offset obj := by
  induction frames generalizing cur r cache with
  | nil =>
    cases hup
    cases hleads
    refine ⟨hcache, ?_⟩
    rintro obj ⟨⟩
    exact hr
  | cons p frames ih =>
    obtain ⟨off, info⟩ := p
    obtain ⟨hinfo, hstep, hrest⟩ := hleads
    rw [IndexedPack.applyUp] at hup
    split at hup
    · cases hup
      exact ⟨hcache, nofun⟩
    · rename_i rawDelta hdata
      split at hup
      · cases hup
        exact ⟨hcache, nofun⟩
      · rename_i out hout
        have hright := h.right_delta hinfo hstep hr hdata hout
        exact ih (hcache.put hright) hrest hright hup

/-- **A read** keeps the cache coherent and gives the entry's object. -/
theorem Resolution.readAt (h : Resolution P Z pack entries rs) {fuel : Nat}
    {result : Except Fault Resolved} (hcache : Coherent entries rs cache.map)
    (hread : pack.readAt Z fuel offset cache = some (result, cache')) :
    Coherent entries rs cache'.map ∧ ∀ obj, result = .ok obj → Right entries rs offset obj := by
  have hstart : Leads pack [] offset offset := rfl
  rw [IndexedPack.readAt] at hread
  split at hread
  · cases hread
  · rename_i f cache₁ hwalk
    cases hread
    exact ⟨(h.walkDown hcache hstart hwalk).1, nofun⟩
  · rename_i frames r cache₁ hwalk
    obtain ⟨hcache₁, hright⟩ := h.walkDown hcache hstart hwalk
    obtain ⟨cur, hleads, hr⟩ := hright frames r rfl
    exact h.applyUp hcache₁ hleads hr (Option.some.inj hread)

/-! ### The law -/

variable (Z pack) in
/-- The states of the cache: new, and after any read. -/
inductive Reached : DeltaBaseCache → Prop
  | new (budget : Nat) : Reached (DeltaBaseCache.new budget)
  | read {fuel offset : Nat} {cache cache' : DeltaBaseCache} {result : Except Fault Resolved}
      (hcache : Reached cache) (hread : pack.readAt Z fuel offset cache = some (result, cache')) : Reached cache'

theorem Resolution.coherent (h : Resolution P Z pack entries rs) (hcache : Reached Z pack cache) :
    Coherent entries rs cache.map := by
  induction hcache with
  | new budget => exact Coherent.new budget
  | read _ hread ih => exact (h.readAt ih hread).1

/-- **Reading from a pack.** A read ends exactly where the chain of bases from its offset does not come
    back to an offset; and under an honest index what it returns for an entry is what full resolution
    gives, whatever was read before. -/
theorem read_at_law (P : Prims) (Z : Flate) (pack : IndexedPack) :
    (∀ cache offset, (∃ fuel, (pack.readAt Z fuel offset cache).isSome) ↔
      ¬Cyclic (nextAt pack cache.map) offset) ∧
    ∀ entries rs, Resolution P Z pack entries rs → ∀ cache, Reached Z pack cache →
      ∀ fuel (i : Nat) (e : RawEntry) obj cache', entries[i]? = some e →
        pack.readAt Z fuel e.offset cache = some (.ok obj, cache') → rs[i]? = some obj :=
  ⟨fun cache offset => exists_readAt_iff offset cache, fun _ _ h _ hcache _ i e obj _ he hread =>
    (h.readAt (h.coherent hcache) hread).2 obj rfl i e he rfl⟩

/-! ### A delta against itself, and an index that lies -/

/-- A delta at distance zero, under an empty index. -/
def selfPack : IndexedPack :=
  ⟨onePack Prims.toy [0x60, 0], .sha1, written Prims.toy .sha1 [] (List.replicate 20 0)⟩

/-- Streams that are their length and their output. -/
def storedFlate : Flate where
  readToEnd
    | [] => none
    | n :: rest => if n.toNat ≤ rest.length then some (rest.take n.toNat, n.toNat + 1) else none
  crc _ := 0

def blobId (data : Bytes) : ObjectId := ObjectId.hashObject Prims.toy .sha1 .blob data

/-- Two blobs of one byte, and a delta that copies the first. -/
def copyPack : Bytes :=
  let body := packMagic ++ [0, 0, 0, 2, 0, 0, 0, 3] ++ [0x31, 1, 1] ++ [0x31, 1, 2] ++
    ([0x74] ++ (blobId [1]).asBytes ++ [4, 1, 1, 0x90, 1])
  body ++ digest Prims.toy .sha1 body

/-- The index gives the first blob the offset of the second. -/
def lyingEntries : List PackEntry := [⟨blobId [1], 15, 0⟩]

def lyingPack : IndexedPack :=
  ⟨copyPack, .sha1, written Prims.toy .sha1 lyingEntries (List.replicate 20 0)⟩

def copyEntries : List RawEntry :=
  [⟨12, 15, .plain .blob, [1], 0⟩, ⟨15, 18, .plain .blob, [2], 0⟩,
    ⟨18, 44, .refDelta (blobId [1]), [1, 1, 0x90, 1], 0⟩]

theorem scan_copyPack : scan storedFlate .sha1 copyPack 44 3 12 = .ok (copyEntries, 44) := by
  rfl

theorem lookup_lyingPack : ∃ i, lyingPack.idx.lookup (blobId [1]) = some i ∧
    lyingPack.idx.offsetAt i = .ok 15 := by
  have halgo : ∀ e ∈ lyingEntries, e.oid.algo = .sha1 := by decide
  cases h : lyingPack.idx.lookup (blobId [1]) with
  | none =>
    exact absurd rfl (lookup_written_none halgo (by decide) (pairwise_singleton _ _) h _
      mem_cons_self)
  | some i =>
    obtain ⟨hi, -⟩ := lookup_written_some halgo (by decide) h
    have hzero : i = 0 := by
      have hlength : lyingEntries.length = 1 := rfl
      omega
    subst hzero
    exact ⟨0, rfl, offsetAt_written_of_few halgo (by decide) (by decide) hi⟩

theorem apply_copy (b : UInt8) : apply [b] [1, 1, 0x90, 1] = .ok [b] := by
  have hcopy : runOp [b] 0x90 [1] = .ok ([b], []) := rfl
  have hops : runOps [b] [] [0x90, 1] = .ok [b] := by
    rw [runOps_of_ok hcopy, runOps]
    rfl
  have hsrc : varint 0 0 [1, 1, 0x90, 1] = .ok (1, [1, 0x90, 1]) := rfl
  have htgt : varint 0 0 [1, 0x90, 1] = .ok (1, [0x90, 1]) := rfl
  simp only [apply, hsrc, htgt, hops]
  rfl

theorem resolveAll_copyEntries :
    resolveAll Prims.toy copyEntries = .ok [⟨.blob, [1]⟩, ⟨.blob, [2]⟩, ⟨.blob, [1]⟩] := by
  have hfind : findBase Prims.toy (plainResolved copyEntries) (blobId [1]) = some 0 := by decide +kernel
  have hmove : moveOf Prims.toy copyEntries (plainResolved copyEntries)
      ⟨18, 44, .refDelta (blobId [1]), [1, 1, 0x90, 1], 0⟩ 2 = .ok (.resolves ⟨.blob, [1]⟩) := by
    have hbase : (plainResolved copyEntries)[0]? = some (some ⟨.blob, [1]⟩) := rfl
    have hnone : (plainResolved copyEntries)[2]? = some none := rfl
    simp only [moveOf, hnone, hfind, applyAt, hbase, apply_copy]
  have hwave : runWave Prims.toy copyEntries copyEntries.zipIdx ⟨plainResolved copyEntries, false, false⟩ =
      .ok ⟨[some ⟨.blob, [1]⟩, some ⟨.blob, [2]⟩, some ⟨.blob, [1]⟩], true, false⟩ := by
    have hzip : copyEntries.zipIdx = [(⟨12, 15, .plain .blob, [1], 0⟩, 0), (⟨15, 18, .plain .blob, [2], 0⟩, 1),
        (⟨18, 44, .refDelta (blobId [1]), [1, 1, 0x90, 1], 0⟩, 2)] := rfl
    have hfirst : moveOf Prims.toy copyEntries (plainResolved copyEntries)
        ⟨12, 15, .plain .blob, [1], 0⟩ 0 = .ok .settled := rfl
    have hsecond : moveOf Prims.toy copyEntries (plainResolved copyEntries)
        ⟨15, 18, .plain .blob, [2], 0⟩ 1 = .ok .settled := rfl
    simp only [hzip, runWave, hfirst, hsecond, hmove]
    rfl
  rw [resolveAll, resolveLoop]
  split
  · rename_i f hfail
    cases hfail.symm.trans hwave
  · rename_i w hok
    cases hok.symm.trans hwave
    rfl

theorem readAt_lyingPack : ∃ cache, lyingPack.readAt storedFlate 3 18 (DeltaBaseCache.new 100) =
    some (.ok ⟨.blob, [2]⟩, cache) := by
  obtain ⟨i, hlookup, hoffset⟩ := lookup_lyingPack
  have hdelta : entryInfo .sha1 copyPack 18 = .ok ⟨.refDelta (blobId [1]), 4, 39⟩ := rfl
  have hblob : entryInfo .sha1 copyPack 15 = .ok ⟨.plain .blob, 1, 16⟩ := rfl
  have hscript : inflate storedFlate copyPack 39 4 = .ok [1, 1, 0x90, 1] := rfl
  have hdata : inflate storedFlate copyPack 16 1 = .ok [2] := rfl
  have hmap : lyingPack.map = copyPack := rfl
  have halgo : lyingPack.algo = .sha1 := rfl
  have hstep : lyingPack.stepOf (.refDelta (blobId [1])) = .ok (.base 15) := by
    simp only [IndexedPack.stepOf, hlookup, hoffset]
  have hobject : lyingPack.stepOf (.plain .blob) = .ok (.object .blob) := rfl
  rw [IndexedPack.readAt, IndexedPack.walkDown, DeltaBaseCache.get_of_none rfl]
  simp only [hmap, halgo, hdelta, hstep]
  rw [IndexedPack.walkDown, DeltaBaseCache.get_of_none rfl]
  simp only [hmap, halgo, hblob, hobject, hdata, IndexedPack.applyUp, hscript, apply_copy]
  exact ⟨_, rfl⟩

/-- The same pack under an index that tells the truth. -/
def honestEntries : List PackEntry := [⟨blobId [1], 12, 0⟩]

def honestPack : IndexedPack :=
  ⟨copyPack, .sha1, written Prims.toy .sha1 honestEntries (List.replicate 20 0)⟩

theorem streams_storedFlate : Streams storedFlate := by
  intro xs ys out n out' n' h h'
  cases xs with
  | nil => cases h
  | cons k rest =>
    rw [cons_append] at h'
    simp only [storedFlate] at h h'
    split at h
    · rename_i hle
      cases h
      split at h'
      · cases h'
        rw [take_append_of_le_length hle]
      · cases h'
    · cases h

theorem denotes_copyEntries (h : Denotes Prims.toy copyEntries i r) :
    r = ⟨.blob, [1]⟩ ∨ r = ⟨.blob, [2]⟩ := by
  have hentry : ∀ {i e}, copyEntries[i]? = some e → e ∈ copyEntries := fun h => mem_of_getElem? h
  simp only [copyEntries, mem_cons, not_mem_nil, or_false] at hentry
  induction h with
  | plain he hkind =>
    rcases hentry he with rfl | rfl | rfl <;> cases hkind
    · exact .inl rfl
    · exact .inr rfl
  | ofs he hkind => rcases hentry he with rfl | rfl | rfl <;> cases hkind
  | ref he hkind _ _ hdata ih =>
    rcases hentry he with rfl | rfl | rfl <;> cases hkind
    rcases ih with rfl | rfl
    · cases (apply_copy 1).symm.trans hdata
      exact .inl rfl
    · cases (apply_copy 2).symm.trans hdata
      exact .inr rfl

theorem resolution_honestPack : Resolution Prims.toy storedFlate honestPack copyEntries
    [⟨.blob, [1]⟩, ⟨.blob, [2]⟩, ⟨.blob, [1]⟩] where
  scanned := ⟨44, scan_copyPack⟩
  resolved := resolveAll_copyEntries
  streams := streams_storedFlate
  noCollision := by
    have hone : ∀ r : Resolved, r = ⟨.blob, [1]⟩ ∨ r = ⟨.blob, [2]⟩ → r.oid Prims.toy .sha1 = blobId [1] →
        r = ⟨.blob, [1]⟩ := by
      rintro r (rfl | rfl) hid
      · rfl
      · exact absurd hid (by decide +kernel)
    intro i e id he hkind j k r s hr hs hrid hsid
    have hmem : e ∈ copyEntries := mem_of_getElem? he
    simp only [copyEntries, mem_cons, not_mem_nil, or_false] at hmem
    rcases hmem with rfl | rfl | rfl <;> cases hkind
    rw [hone r (denotes_copyEntries hr) hrid, hone s (denotes_copyEntries hs) hsid]
  honest := by
    have halgo : ∀ e ∈ honestEntries, e.oid.algo = .sha1 := by decide
    intro e he id hkind i offset hlookup hoffset
    simp only [copyEntries, mem_cons, not_mem_nil, or_false] at he
    rcases he with rfl | rfl | rfl <;> cases hkind
    obtain ⟨hi, -⟩ := lookup_written_some halgo (by decide) hlookup
    have hzero : i = 0 := by
      have hlength : honestEntries.length = 1 := rfl
      omega
    subst hzero
    have hread : honestPack.idx.offsetAt 0 = .ok 12 :=
      offsetAt_written_of_few halgo (by decide) (by decide) hi
    cases hread.symm.trans hoffset
    exact ⟨0, ⟨12, 15, .plain .blob, [1], 0⟩, ⟨.blob, [1]⟩, rfl, rfl, rfl, rfl⟩

theorem read_at_law_copy : Resolution Prims.toy storedFlate honestPack copyEntries
      [⟨.blob, [1]⟩, ⟨.blob, [2]⟩, ⟨.blob, [1]⟩] ∧
    ∀ cache, Reached storedFlate honestPack cache → ∀ fuel obj cache',
      honestPack.readAt storedFlate fuel 18 cache = some (.ok obj, cache') → obj = ⟨.blob, [1]⟩ := by
  refine ⟨resolution_honestPack, fun cache hcache fuel obj cache' hread => ?_⟩
  have hright := (read_at_law Prims.toy storedFlate honestPack).2 _ _ resolution_honestPack cache hcache fuel 2
    ⟨18, 44, .refDelta (blobId [1]), [1, 1, 0x90, 1], 0⟩ obj cache' rfl hread
  exact (Option.some.inj hright).symm

/-- **A read that never ends, and one that is wrong.** -/
theorem read_at_fails :
    (PackIndex.parse (writeIdx Prims.toy .sha1 [] (List.replicate 20 0)) .sha1 = .ok selfPack.idx ∧
      entryInfo .sha1 selfPack.map 12 = .ok ⟨.ofsDelta 12, 0, 14⟩ ∧
      ∀ fuel, selfPack.readAt storedFlate fuel 12 (DeltaBaseCache.new 100) = none) ∧
    (PackIndex.parse (writeIdx Prims.toy .sha1 lyingEntries (List.replicate 20 0)) .sha1 = .ok lyingPack.idx ∧
      resolveAll Prims.toy copyEntries = .ok [⟨.blob, [1]⟩, ⟨.blob, [2]⟩, ⟨.blob, [1]⟩] ∧
      scan storedFlate .sha1 lyingPack.map 44 3 12 = .ok (copyEntries, 44) ∧
      ∃ cache, lyingPack.readAt storedFlate 3 18 (DeltaBaseCache.new 100) = some (.ok ⟨.blob, [2]⟩, cache)) := by
  refine ⟨⟨parse_writeIdx (by decide) rfl (by decide), rfl, fun fuel => ?_⟩,
    parse_writeIdx (by decide) rfl (by decide), resolveAll_copyEntries, scan_copyPack, readAt_lyingPack⟩
  have hnext : nextAt selfPack (DeltaBaseCache.new 100).map 12 = some 12 := rfl
  have hgoes : ∀ k, along (nextAt selfPack (DeltaBaseCache.new 100).map) k 12 = some 12 := by
    intro k
    induction k with
    | zero => rfl
    | succ k ih => rw [along, hnext, Option.bind_some, ih]
  have hends : (selfPack.readAt storedFlate fuel 12 (DeltaBaseCache.new 100)).isSome ↔
      along (nextAt selfPack (DeltaBaseCache.new 100).map) fuel 12 = none := isSome_readAt_iff fuel 12 _
  rw [hgoes] at hends
  cases hread : selfPack.readAt storedFlate fuel 12 (DeltaBaseCache.new 100) with
  | none => rfl
  | some result =>
    rw [hread] at hends
    exact absurd (hends.mp rfl) (Option.some_ne_none _)

end Alt.GitPack
