import Alt.Odb.Contents

namespace Alt.Odb

open Alt.Library Alt.Store NativeOdb List

/-!
# Runs of one object database

One `NativeOdb` on a fresh directory: opened and reopened, put into under right and wrong ids,
read and flushed in any order.

`objects_round_trip` is the round trip over all storage tiers.  Its condition `PutFits` is
that an object not yet mapped finds room: a `u32` slot in the object map, and lengths and
pack numbers within their fields.  The slot is what runs out: `slots_wrap` is a run of
2^32 + 1 puts whose last object reads back as the first.
-/

/-- The directory, the handle if the database is open, and (for the statement) the objects
    put under their own id and those of them whose put returned `Ok`. -/
structure OdbState where
  disk : OdbDisk
  odb : Option NativeOdb
  tried : List GitObject
  acked : List GitObject

inductive OdbAction
  /-- Open the directory; a handle that is open is dropped. -/
  | open
  | put (oid : ObjectId) (kind : ObjectKind) (data : Bytes)
  | get (oid : ObjectId)
  | flush

namespace OdbState

/-- The directory and the handle after an operation. -/
def after (s : OdbState) (t : OdbDisk × NativeOdb) : OdbState :=
  { s with disk := t.1, odb := some t.2 }

end OdbState

def odbStep (P : Prims) (S : IdxSort) (X : Prisms) (opts : BlobOptions) (s : OdbState) :
    OdbAction → Option OdbState
  | .open =>
    match NativeOdb.openWith P S X opts s.disk with
    | (disk, .error _) => some { s with disk, odb := none }
    | (disk, .ok h) => some (s.after (disk, h))
  | .put oid kind data => s.odb.map fun h =>
      let o : GitObject := ⟨oid.algo, kind, data⟩
      let s := if o.id P = oid then { s with tried := s.tried ++ [o] } else s
      match NativeOdb.put P S oid kind data (s.disk, h) with
      | .error _ t => s.after t
      | .ok _ t =>
        if o.id P = oid then { s.after t with acked := s.acked ++ [o] } else s.after t
  | .get oid => s.odb.map fun h => s.after (leaves (NativeOdb.get P oid (s.disk, h)))
  | .flush => s.odb.map fun h => s.after (leaves (NativeOdb.flush (s.disk, h)))

/-- The database of a fresh directory. -/
def objectDb (P : Prims) (S : IdxSort) (X : Prisms) (opts : BlobOptions) :
    System OdbState OdbAction where
  init := ⟨.fresh, none, [], []⟩
  step := odbStep P S X opts

/-- Everything hashed when the objects are put. -/
def runStrings (P : Prims) (X : Prisms) (opts : BlobOptions) (os : List GitObject) : List Bytes :=
  os.flatMap fun o => payloadStrings P X opts o.data

/-- No two byte strings hashed in the run collide. -/
structure NoCollisions (P : Prims) (X : Prisms) (opts : BlobOptions) (os : List GitObject) :
    Prop where
  content : Set.InjOn P.blake3 {b | b ∈ runStrings P X opts os}
  ids : DistinctIds P os

/-- An object that is not mapped yet finds a slot in the object map, and room in the packs. -/
def PutFits (P : Prims) (X : Prisms) (opts : BlobOptions) (s : OdbState) : OdbAction → Prop
  | .put oid kind data => ∀ h, s.odb = some h → h.contains oid = false →
      ObjectId.hashObject P oid.algo kind data = oid →
      let strings := (payloadStrings P X opts data).dedup
      h.map.index.entries.length < 2 ^ 32 ∧
        h.blobs.chunks.active.len + (strings.map chunkCost).sum < 2 ^ 64 ∧
        h.blobs.chunks.active.seq + strings.length + 1 < 2 ^ 32
  | _ => True

variable {P : Prims} {S : IdxSort} {X : Prisms} {opts : BlobOptions}

theorem runStrings_mono {os os' : List GitObject} (h : os ⊆ os') :
    runStrings P X opts os ⊆ runStrings P X opts os' := by
  intro b hb
  obtain ⟨o, ho, hb⟩ := mem_flatMap.mp hb
  exact mem_flatMap.mpr ⟨o, h ho, hb⟩

theorem NoCollisions.mono {os os' : List GitObject} (h : NoCollisions P X opts os')
    (hsub : os ⊆ os') : NoCollisions P X opts os := by
  have hcanonical : {b | ∃ o ∈ os, b = ObjectId.canonical o.kind o.data}
      ⊆ {b | ∃ o ∈ os', b = ObjectId.canonical o.kind o.data} := by
    rintro b ⟨o, ho, hb⟩
    exact ⟨o, hsub ho, hb⟩
  exact ⟨h.content.mono fun _ hb => runStrings_mono hsub hb,
    h.ids.sha1.mono hcanonical, h.ids.sha256.mono hcanonical⟩

/-! ### The run invariant -/

/-- The open database holds objects, all of them tried, and among them those acknowledged. -/
structure OdbHolds (P : Prims) (S : IdxSort) (X : Prisms) (opts : BlobOptions) (s : OdbState)
    (h : NativeOdb) (u : Universe) (w : OdbWorld) : Prop where
  shows : OdbShows P S X opts u s.tried (s.disk, h) w
  strings : u.strings = runStrings P X opts s.tried
  acked : s.acked ⊆ w.objects

/-- Nothing was opened yet, or the open database holds what it should. -/
def OdbInv (P : Prims) (S : IdxSort) (X : Prisms) (opts : BlobOptions) (s : OdbState) : Prop :=
  s = ⟨.fresh, none, [], []⟩ ∨ ∃ h u w, s.odb = some h ∧ OdbHolds P S X opts s h u w

variable {s : OdbState} {h : NativeOdb} {w : OdbWorld}

theorem OdbHolds.distinct {u : Universe} (hs : OdbHolds P S X opts s h u w)
    (hc : NoCollisions P X opts s.tried) : u.Distinct P := by
  rw [Universe.Distinct, hs.strings]
  exact hc.content

/-- Opening the database, for the first time or again. -/
theorem odbInv_open (hinv : OdbInv P S X opts s) :
    ∃ disk h u w, NativeOdb.openWith P S X opts s.disk = (disk, .ok h) ∧
      OdbHolds P S X opts (s.after (disk, h)) h u w := by
  rcases hinv with rfl | ⟨h, u, w, -, hs⟩
  · obtain ⟨disk, h, hopen, hshows⟩ :=
      OdbShows.openWith_fresh (P := P) (S := S) X opts [] []
    exact ⟨disk, h, _, .empty, hopen, hshows, rfl, nil_subset _⟩
  · obtain ⟨disk, h', hopen, hshows⟩ := hs.shows.openWith
    exact ⟨disk, h', u, w, hopen, hshows, hs.strings, hs.acked⟩

/-- A put under the object's own id. -/
theorem odbHolds_put (hz : P.ZstdLawful) {u : Universe} (hs : OdbHolds P S X opts s h u w)
    (hh : s.odb = some h) (o : GitObject) (hc : NoCollisions P X opts (s.tried ++ [o]))
    (hfits : PutFits P X opts s (.put (o.id P) o.kind o.data)) :
    ∃ u' w', w ≤ w' ∧ u'.strings = runStrings P X opts (s.tried ++ [o]) ∧
      OdbShows P S X opts u' (s.tried ++ [o])
        (leaves (NativeOdb.put P S (o.id P) o.kind o.data (s.disk, h))) w' ∧
      ∀ alt t, NativeOdb.put P S (o.id P) o.kind o.data (s.disk, h) = .ok alt t →
        o ∈ w'.objects := by
  have ho : o ∈ s.tried ++ [o] := mem_append_right _ (mem_singleton.mpr rfl)
  have hsub : ∀ data, w.payloads.Stores data → data ∈ runStrings P X opts (s.tried ++ [o]) := by
    intro data hd
    have hmem := hs.shows.payloads.stores_mem hd
    rw [hs.strings] at hmem
    exact runStrings_mono (subset_append_left _ _) hmem
  have hfresh : payloadStrings P X opts o.data ⊆ runStrings P X opts (s.tried ++ [o]) :=
    fun b hb => mem_flatMap.mpr ⟨o, ho, hb⟩
  have hshows := hs.shows.rebase _ hsub (subset_append_left s.tried [o])
    (payloadStrings P X opts o.data)
  have hroom : o ∉ w.objects →
      (Universe.before (runStrings P X opts (s.tried ++ [o])) (payloadStrings P X opts o.data)
        h.blobs.chunks w.payloads.blobs.chunks).Fits ∧
      payloadStrings P X opts o.data ⊆ payloadStrings P X opts o.data ∧
      w.objects.length < 2 ^ 32 := by
    intro hnew
    have hmiss : h.contains (o.id P) = false := by
      rw [NativeOdb.contains, ← Bool.not_eq_true, Option.isSome_iff_exists]
      rintro ⟨e, he⟩
      obtain ⟨o', ho', hid, -⟩ := (hshows.find_iff hc.ids).mp he
      exact hnew (hc.ids.injective (hshows.known ho') ho hid ▸ ho')
    have hid : ObjectId.hashObject P (o.id P).algo o.kind o.data = o.id P := by
      rw [o.algo_id]
      rfl
    obtain ⟨hslots, hbytes, hpacks⟩ := hfits h hh hmiss hid
    have hentries := congrArg ObjectMap.Index.entries hs.shows.map.index
    rw [ObjectMap.entries_fold] at hentries
    simp only at hentries
    rw [hentries, length_map] at hslots
    exact ⟨⟨hfresh, hbytes, hpacks⟩, List.Subset.refl _, hslots⟩
  have hdistinct : (Universe.before (runStrings P X opts (s.tried ++ [o]))
      (payloadStrings P X opts o.data) h.blobs.chunks w.payloads.blobs.chunks).Distinct P :=
    hc.content
  obtain ⟨w', hle, hshows', hput⟩ :=
    grows_putObject hz hc.ids hdistinct ho hroom (s.disk, h) hshows
  exact ⟨_, w', hle, rfl, hshows', fun alt t hok => (hput alt t hok).2⟩

/-- **One step keeps the invariant.** -/
theorem odbInv_step (hz : P.ZstdLawful) {s' : OdbState} {a : OdbAction}
    (hinv : OdbInv P S X opts s) (hc : NoCollisions P X opts s'.tried)
    (hfits : PutFits P X opts s a) (hstep : odbStep P S X opts s a = some s') :
    OdbInv P S X opts s' := by
  cases a with
  | «open» =>
    obtain ⟨disk, h, u, w, hopen, hholds⟩ := odbInv_open hinv
    simp only [odbStep, hopen, Option.some.injEq] at hstep
    subst hstep
    exact .inr ⟨h, u, w, rfl, hholds⟩
  | put oid kind data =>
    rcases hinv with rfl | ⟨h, u, w, hh, hs⟩
    · simp [odbStep] at hstep
    simp only [odbStep, hh, Option.map_some, Option.some.injEq] at hstep
    by_cases hid : (⟨oid.algo, kind, data⟩ : GitObject).id P = oid
    · -- under its own id
      generalize ho : (⟨oid.algo, kind, data⟩ : GitObject) = o at hid hstep
      obtain ⟨rfl, rfl⟩ : kind = o.kind ∧ data = o.data := by subst ho; exact ⟨rfl, rfl⟩
      subst hid
      have htried : s'.tried = s.tried ++ [o] := by
        rw [← hstep]
        simp only [if_true]
        split <;> rfl
      rw [htried] at hc
      obtain ⟨u', w', hle, hstrings, hshows, hput⟩ := odbHolds_put hz hs hh o hc hfits
      have hacked : s.acked ⊆ w'.objects := fun x hx => hle.2.subset (hs.acked hx)
      subst hstep
      simp only [if_true] at htried ⊢
      cases hrun : NativeOdb.put P S (o.id P) o.kind o.data (s.disk, h) with
      | error e t =>
        rw [hrun] at hshows
        exact .inr ⟨t.2, u', w', rfl, hshows, hstrings, hacked⟩
      | ok alt t =>
        rw [hrun] at hshows
        refine .inr ⟨t.2, u', w', rfl, hshows, hstrings, fun x hx => ?_⟩
        rcases mem_append.mp hx with hold | hnew
        · exact hacked hold
        · exact mem_singleton.mp hnew ▸ hput alt t hrun
    · -- under another one
      have hleaves := hs.shows.leaves_put_other kind data hid
      simp only [if_neg hid] at hstep
      have hafter : s' = s.after (leaves (NativeOdb.put P S oid kind data (s.disk, h))) := by
        rw [← hstep]
        cases NativeOdb.put P S oid kind data (s.disk, h) <;> rfl
      rw [hafter, hleaves]
      exact .inr ⟨_, u, w, rfl, hs.shows.hold true, hs.strings, hs.acked⟩
  | get oid =>
    rcases hinv with rfl | ⟨h, u, w, hh, hs⟩
    · simp [odbStep] at hstep
    simp only [odbStep, hh, Option.map_some, Option.some.injEq] at hstep
    subst hstep
    exact .inr ⟨_, u, w, rfl, hs.shows.leaves_get hc.ids (hs.distinct hc) oid, hs.strings, hs.acked⟩
  | flush =>
    rcases hinv with rfl | ⟨h, u, w, hh, hs⟩
    · simp [odbStep] at hstep
    simp only [odbStep, hh, Option.map_some, Option.some.injEq] at hstep
    subst hstep
    exact .inr ⟨_, u, w, rfl, ⟨hs.shows.hold false, hs.strings, hs.acked⟩⟩

theorem tried_subset {s' : OdbState} {a : OdbAction} (hstep : odbStep P S X opts s a = some s') :
    s.tried ⊆ s'.tried := by
  cases a with
  | «open» =>
    simp only [odbStep] at hstep
    split at hstep <;> cases hstep <;> exact List.Subset.refl _
  | put oid kind data =>
    obtain ⟨h, -, rfl⟩ := Option.map_eq_some_iff.mp hstep
    by_cases hid : (⟨oid.algo, kind, data⟩ : GitObject).id P = oid
    · simp only [hid, ↓reduceIte]
      split <;> exact subset_append_left _ _
    · simp only [hid, ↓reduceIte]
      split <;> exact List.Subset.refl _
  | get oid =>
    obtain ⟨h, -, rfl⟩ := Option.map_eq_some_iff.mp hstep
    exact List.Subset.refl _
  | flush =>
    obtain ⟨h, -, rfl⟩ := Option.map_eq_some_iff.mp hstep
    exact List.Subset.refl _

/-- **The run invariant**, as long as nothing hashed in the run collides. -/
theorem odbInv_run (hz : P.ZstdLawful)
    (hs : (objectDb P S X opts).ReachableIf (PutFits P X opts) s)
    (hc : NoCollisions P X opts s.tried) : OdbInv P S X opts s := by
  induction hs with
  | init => exact .inl rfl
  | step _ hg hstep ih => exact odbInv_step hz (ih (hc.mono (tried_subset hstep))) hc hg hstep

/-! ### The round trip -/

/-- A get that returns the object. -/
def Reads (P : Prims) (s : OdbDisk × NativeOdb) (o : GitObject) : Prop :=
  ∃ s', NativeOdb.get P (o.id P) s = .ok (some o.raw) s'

/-- **Round trip.** In a run where every object not yet mapped finds room, each object whose
    put under its own id returned `Ok` reads back with its kind and bytes, from the handle and
    from the directory opened again, whatever tiers hold its payload; and a put of an unmapped
    id that does not hash the payload is refused and leaves everything but the lock as it
    was. -/
theorem objects_round_trip (hz : P.ZstdLawful) {s : OdbState}
    (hs : (objectDb P S X opts).ReachableIf (PutFits P X opts) s)
    (hc : NoCollisions P X opts s.tried) {h : NativeOdb} (hh : s.odb = some h) :
    (∀ o ∈ s.acked, Reads P (s.disk, h) o) ∧
    (∃ disk' h', NativeOdb.openWith P S X opts s.disk = (disk', .ok h') ∧
      ∀ o ∈ s.acked, Reads P (disk', h') o) ∧
    ∀ oid kind data, h.contains oid = false → ObjectId.hashObject P oid.algo kind data ≠ oid →
      NativeOdb.put P S oid kind data (s.disk, h)
        = .error (.hashMismatch oid (ObjectId.hashObject P oid.algo kind data))
            (s.disk, { h with held := true }) := by
  rcases odbInv_run hz hs hc with rfl | ⟨h', u, w, hh', hholds⟩
  · cases hh
  obtain rfl : h' = h := Option.some.inj (hh'.symm.trans hh)
  have hdistinct := hholds.distinct hc
  have hreads : ∀ t, OdbShows P S X opts u s.tried t w → ∀ o ∈ s.acked, Reads P t o := by
    intro t ht o ho
    obtain ⟨s', hrun, -⟩ := yields_getObject hc.ids hdistinct (hholds.acked ho) t ht
    exact ⟨s', hrun⟩
  refine ⟨hreads _ hholds.shows, ?_, ?_⟩
  · obtain ⟨disk', h₂, hopen, hshows⟩ := hholds.shows.openWith
    exact ⟨disk', h₂, hopen, hreads _ hshows⟩
  · intro oid kind data hmiss hwrong
    have hnone : h'.map.index.find oid = none := by
      rwa [NativeOdb.contains, ← Bool.not_eq_true, Option.not_isSome_iff_eq_none] at hmiss
    exact hholds.shows.put_mismatch hnone hwrong

/-! ### Where slots run out

The puts of `manyObjects n`, eight objects to a payload: both algorithms and the four kinds.
The digests of `stamped` keep strings this short apart. -/

/-- The length and the bytes behind it, padded. -/
def stamp (n : Nat) (b : Bytes) : ByteArr (n + 1) :=
  ⟨UInt8.ofNat b.length :: (b ++ List.replicate n 0).take n, by simp⟩

variable {n : Nat}

theorem stamp_injective (hn : n < 256) {b b' : Bytes} (h : b.length ≤ n) (h' : b'.length ≤ n)
    (heq : stamp n b = stamp n b') : b = b' := by
  obtain ⟨hhead, htail⟩ := List.cons.inj (Subtype.ext_iff.mp heq)
  have hlen : b.length = b'.length := by
    have hnat := congrArg UInt8.toNat hhead
    rwa [UInt8.toNat_ofNat_of_lt' (by rw [UInt8.size]; omega),
      UInt8.toNat_ofNat_of_lt' (by rw [UInt8.size]; omega)] at hnat
  have htake := congrArg (List.take b.length) htail
  rw [take_take, take_take, Nat.min_eq_left h, take_left] at htake
  rw [hlen, take_left] at htake
  exact htake

/-- Digests that keep short strings apart, and no compression. -/
def stamped : Prims where
  blake3 := stamp 31
  sha1 := stamp 19
  sha256 := stamp 31
  encodeAll data _ := some data
  decodeAll payload := some payload
  compressWithBase _ _ _ := none
  decompressWithBase _ _ _ := none

theorem stamped_zstdLawful : stamped.ZstdLawful where
  decode_encode := by
    intro data level z h
    simpa [stamped, eq_comm] using h
  decompress_compress := by
    intro data base level z h
    cases h

/-- A prism that takes nothing. -/
def noPrism : PrismCodec where
  decompose _ := none
  recompose _ _ := none
  fits := by
    intro input d h
    cases h

def noPrisms : Prisms := ⟨noPrism, noPrism, noPrism⟩

def defaultBlobOptions : BlobOptions where
  chunks := ⟨2 ^ 30, 3, 64⟩
  cdc := Cdc.defaultParams
  fanout := 4096
  fanout_ge := by decide

def nthKind (k : Nat) : ObjectKind :=
  match k % 4 with
  | 0 => .blob
  | 1 => .tree
  | 2 => .commit
  | _ => .tag

def nthObject (k : Nat) : GitObject :=
  ⟨if k % 2 = 0 then .sha1 else .sha256, nthKind (k / 2), leBytes 8 (k / 8)⟩

def manyObjects (n : Nat) : List GitObject := (List.range n).map nthObject

/-- The payloads of the first `n` objects, and more. -/
def manyPayloads (n : Nat) : List Bytes := (List.range (n / 8 + 1)).map (leBytes 8)

variable {k : Nat}

theorem nthKind_injective {j : Nat} (h : nthKind j = nthKind k) : j % 4 = k % 4 := by
  have hsmall : ∀ a < 4, ∀ b < 4, nthKind a = nthKind b → a = b := by decide
  have hmod : ∀ n, nthKind (n % 4) = nthKind n := fun n => by
    rw [nthKind, nthKind, Nat.mod_mod]
  exact hsmall _ (Nat.mod_lt _ (by decide)) _ (Nat.mod_lt _ (by decide))
    ((hmod j).trans (h.trans (hmod k).symm))

theorem nthObject_injective {j : Nat} (hj : j < 2 ^ 64) (hk : k < 2 ^ 64)
    (h : nthObject j = nthObject k) : j = k := by
  simp only [nthObject, GitObject.mk.injEq] at h
  obtain ⟨halgo, hkind, hdata⟩ := h
  have hpayload : j / 8 = k / 8 := by
    have hnat := congrArg leNat hdata
    rwa [leNat_leBytes_of_lt (by omega), leNat_leBytes_of_lt (by omega)] at hnat
  have hparity : j % 2 = k % 2 := by
    split at halgo <;> split at halgo <;> first | omega | cases halgo
  have hquarter := nthKind_injective hkind
  omega

theorem length_nthObject (k : Nat) : (nthObject k).data.length = 8 := length_leBytes 8 _

theorem payloadStrings_short {data : Bytes} (h : data.length = 8) :
    payloadStrings stamped noPrisms defaultBlobOptions data = [data, data] := by
  have hsingle : (Cdc.chunks Cdc.defaultParams data).length ≤ 1 :=
    Cdc.length_chunks_le_one _ (by rw [h]; decide)
  have hblob : blobStrings stamped defaultBlobOptions data = [data] := by
    simp only [blobStrings, defaultBlobOptions, hsingle, ↓reduceIte]
  have hnone : (defaultRegistry noPrisms).decomposeVerified data = none := rfl
  simp only [payloadStrings, hnone, hblob]

theorem noCollisions_many (n : Nat) :
    NoCollisions stamped noPrisms defaultBlobOptions (manyObjects n) := by
  have hcanonical : ∀ b ∈ {b | ∃ o ∈ manyObjects n, b = ObjectId.canonical o.kind o.data},
      b.length ≤ 19 := by
    rintro b ⟨o, ho, rfl⟩
    obtain ⟨k, -, rfl⟩ := mem_map.mp ho
    have hdecimal : (ObjectId.decimal 8).length = 1 := by decide
    have hkind : (nthObject k).kind.asBytes.length ≤ 6 := by cases (nthObject k).kind <;> decide
    simp only [ObjectId.canonical, length_append, length_nthObject, hdecimal,
      length_singleton]
    omega
  refine ⟨?_, ?_, ?_⟩
  · have hshort : ∀ b ∈ runStrings stamped noPrisms defaultBlobOptions (manyObjects n),
        b.length ≤ 31 := by
      intro b hb
      obtain ⟨o, ho, hb⟩ := mem_flatMap.mp hb
      obtain ⟨k, -, rfl⟩ := mem_map.mp ho
      rw [payloadStrings_short (length_nthObject k)] at hb
      obtain rfl : b = (nthObject k).data := by simpa using hb
      rw [length_nthObject]
      decide
    exact fun b hb b' hb' heq => stamp_injective (by decide) (hshort b hb) (hshort b' hb') heq
  · exact fun b hb b' hb' heq =>
      stamp_injective (by decide) (hcanonical b hb) (hcanonical b' hb') heq
  · exact fun b hb b' hb' heq => stamp_injective (by decide)
      ((hcanonical b hb).trans (by decide)) ((hcanonical b' hb').trans (by decide)) heq

theorem plain_short {data : Bytes} (h : data.length = 8) :
    Plain stamped noPrisms defaultBlobOptions data where
  declined := rfl
  single := Cdc.length_chunks_le_one _ (by rw [h]; decide)
  length_lt := by rw [h]; decide
  compresses := by
    intro options e herr
    rw [ChunkStore.encodePlain] at herr
    split at herr <;> cases herr

/-- The universe of the puts, from a freshly opened handle on. -/
def manyUniverse (n : Nat) : Universe := ⟨manyPayloads n, manyPayloads n, 5, 1, 0⟩

theorem cost_many (n : Nat) :
    ((manyPayloads n).dedup.map chunkCost).sum ≤ (n / 8 + 1) * 256 ∧
      (manyPayloads n).dedup.length ≤ n / 8 + 1 := by
  have hlen : (manyPayloads n).dedup.length ≤ n / 8 + 1 := by
    have hle := (dedup_sublist (manyPayloads n)).length_le
    rwa [manyPayloads, length_map, length_range] at hle
  have hsum : ((manyPayloads n).dedup.map chunkCost).sum
      ≤ ((manyPayloads n).dedup.map chunkCost).length * 256 := by
    refine sum_le_card_nsmul _ 256 fun x hx => ?_
    obtain ⟨b, hb, rfl⟩ := mem_map.mp hx
    obtain ⟨k, -, rfl⟩ := mem_map.mp (mem_dedup.mp hb)
    rw [chunkCost, length_leBytes]
    decide
  rw [length_map] at hsum
  exact ⟨hsum.trans (Nat.mul_le_mul_right 256 hlen), hlen⟩

theorem fits_many (hn : n ≤ 2 ^ 34) : (manyUniverse n).Fits := by
  obtain ⟨hsum, hlen⟩ := cost_many n
  refine ⟨List.Subset.refl _, ?_, ?_⟩
  · simp only [manyUniverse]
    omega
  · simp only [manyUniverse]
    omega

theorem distinct_many (n : Nat) : (manyUniverse n).Distinct stamped := by
  have hlen : ∀ b ∈ manyPayloads n, b.length ≤ 31 := by
    intro b hb
    obtain ⟨k, -, rfl⟩ := mem_map.mp hb
    rw [length_leBytes]
    decide
  exact fun b hb b' hb' heq => stamp_injective (by decide) (hlen b hb) (hlen b' hb') heq

theorem strings_many (hk : k ≤ n) :
    payloadStrings stamped noPrisms defaultBlobOptions (nthObject k).data
      ⊆ (manyUniverse n).fresh := by
  rw [payloadStrings_short (length_nthObject k)]
  intro b hb
  obtain rfl : b = (nthObject k).data := by simpa using hb
  exact mem_map_of_mem (mem_range.mpr (by omega))

/-- The database of the counterexample. -/
abbrev plainDb : System OdbState OdbAction :=
  objectDb stamped IdxSort.stable noPrisms defaultBlobOptions

/-- The state behind an acknowledged put. -/
def OdbState.acknowledged (s : OdbState) (t : OdbDisk × NativeOdb) (o : GitObject) : OdbState :=
  { s.after t with tried := s.tried ++ [o], acked := s.acked ++ [o] }

theorem step_put_ok {o : GitObject} {alt : BlobId} {t : OdbDisk × NativeOdb} (hh : s.odb = some h)
    (hput : NativeOdb.put P S (o.id P) o.kind o.data (s.disk, h) = .ok alt t) :
    (objectDb P S X opts).step s (.put (o.id P) o.kind o.data) = some (s.acknowledged t o) := by
  have ho : (⟨(o.id P).algo, o.kind, o.data⟩ : GitObject) = o := by rw [o.algo_id]
  simp only [objectDb, odbStep, hh, Option.map_some, hput, ho, ↓reduceIte]
  rfl

theorem putFits_many {N : Nat} (hN : N ≤ 2 ^ 32) (hn : n < N) (hh : s.odb = some h)
    (hobjects : w.objects = manyObjects n)
    (hshows : OdbShows stamped IdxSort.stable noPrisms defaultBlobOptions (manyUniverse N) (manyObjects (N + 1)) (s.disk, h) w)
    (oid : ObjectId) :
    PutFits stamped noPrisms defaultBlobOptions s
      (.put oid (nthObject n).kind (nthObject n).data) := by
  intro h' hh' _ _
  obtain rfl : h' = h := Option.some.inj (hh'.symm.trans hh)
  obtain ⟨hlen, hseq⟩ := hshows.payloads.blobs.chunks.active_le
  obtain ⟨hsum, hcount⟩ := cost_many N
  simp only [manyUniverse] at hlen hseq
  have hentries := congrArg ObjectMap.Index.entries hshows.map.index
  rw [ObjectMap.entries_fold, hobjects] at hentries
  simp only at hentries
  have hone : ((payloadStrings stamped noPrisms defaultBlobOptions (nthObject n).data).dedup)
      = [(nthObject n).data] := by
    rw [payloadStrings_short (length_nthObject n)]
    simp
  have hcost : chunkCost (nthObject n).data = 49 := by
    rw [chunkCost, length_nthObject]
    rfl
  simp only [hone, map_singleton, sum_singleton, length_singleton, hcost, hentries,
    manyObjects, length_map, length_range]
  omega

/-- One plain object after another is put, as long as there are slots. -/
theorem many_run {N : Nat} (hN : N ≤ 2 ^ 32) (hn : n ≤ N) :
    ∃ s h w, plainDb.ReachableIf (PutFits stamped noPrisms defaultBlobOptions) s ∧ s.odb = some h ∧ s.tried = manyObjects n ∧
      s.acked = manyObjects n ∧ w.objects = manyObjects n ∧
      OdbShows stamped IdxSort.stable noPrisms defaultBlobOptions (manyUniverse N)
        (manyObjects (N + 1)) (s.disk, h) w := by
  induction n with
  | zero =>
    obtain ⟨disk, h, hopen, hshows⟩ := OdbShows.openWith_fresh (P := stamped)
      (S := IdxSort.stable) noPrisms defaultBlobOptions (manyPayloads N) (manyObjects (N + 1))
    have hfresh : (NativeOdb.openWith stamped IdxSort.stable noPrisms defaultBlobOptions
        .fresh).2.toOption.map (fun h => (h.blobs.chunks.active.len, h.blobs.chunks.active.seq))
        = some (5, 1) := by decide
    rw [hopen] at hfresh
    obtain ⟨hlen, hseq⟩ := Prod.mk.inj (Option.some.inj hfresh)
    have hrebased := hshows.rebase (manyPayloads N)
      (fun data hd => by rcases hd with hd | hd | hd <;> cases hd)
      (List.Subset.refl _) (manyPayloads N)
    have huniverse : Universe.before (manyPayloads N) (manyPayloads N) h.blobs.chunks []
        = manyUniverse N := by
      rw [Universe.before, hlen, hseq]
      rfl
    have hstep : plainDb.step plainDb.init .open
        = some (plainDb.init.after (disk, h)) := by
      simp only [objectDb, odbStep, hopen]
    exact ⟨plainDb.init.after (disk, h), h, .empty,
      .step (a := .open) .init trivial hstep, rfl, rfl, rfl, rfl,
      huniverse ▸ hrebased⟩
  | succ n ih =>
    obtain ⟨s, h, w, hs, hh, htried, hacked, hobjects, hshows⟩ := ih (by omega)
    have hids := (noCollisions_many (N + 1)).ids
    have hfits := fits_many (n := N) (by omega)
    have hmem : nthObject n ∈ manyObjects (N + 1) :=
      mem_map_of_mem (mem_range.mpr (by omega))
    have hnew : nthObject n ∉ w.objects := by
      rw [hobjects]
      intro hin
      obtain ⟨j, hj, heq⟩ := mem_map.mp hin
      rw [mem_range] at hj
      have := nthObject_injective (by omega) (by omega) heq
      omega
    have hsub := strings_many (k := n) (n := N) (by omega)
    obtain ⟨t, v, hput, -, -⟩ := hshows.put_plain stamped_zstdLawful hids (distinct_many N) hfits
      hmem hnew (plain_short (length_nthObject n)) hsub
    have hslot : w.objects.length < 2 ^ 32 := by
      rw [hobjects, manyObjects, length_map, length_range]
      omega
    obtain ⟨w', -, hshows', hgrown⟩ := grows_putNew (S := IdxSort.stable) stamped_zstdLawful
      (distinct_many N) hfits hmem hsub hslot hnew _ (hshows.hold true)
    have hputNew := hput
    rw [hshows.put_eq, hshows.find_none hids hmem hnew] at hputNew
    simp only at hputNew
    rw [hputNew] at hshows' hgrown
    have hmany : manyObjects (n + 1) = manyObjects n ++ [nthObject n] := by
      rw [manyObjects, range_succ, map_append]
      rfl
    have hstep : plainDb.step s (.put ((nthObject n).id stamped) (nthObject n).kind
        (nthObject n).data) = some (s.acknowledged _ (nthObject n)) := step_put_ok hh hput
    have hroom := putFits_many hN (by omega) hh hobjects hshows ((nthObject n).id stamped)
    refine ⟨s.acknowledged _ (nthObject n), _, w', .step hs hroom hstep, rfl, ?_, ?_, ?_,
      hshows'⟩
    · rw [hmany, ← htried]
      rfl
    · rw [hmany, ← hacked]
      rfl
    · rw [hmany, ← hobjects]
      exact (hgrown _ _ rfl).2

/-- A run of three puts meets the condition, and all three objects read back. -/
theorem objects_round_trip_three :
    ∃ s h, plainDb.ReachableIf (PutFits stamped noPrisms defaultBlobOptions) s ∧
      s.acked = manyObjects 3 ∧ s.odb = some h ∧ ∀ o ∈ manyObjects 3, Reads stamped (s.disk, h) o := by
  obtain ⟨s, h, w, hs, hh, htried, hacked, -⟩ := many_run (N := 3) (n := 3) (by decide) le_rfl
  refine ⟨s, h, hs, hacked, hh, ?_⟩
  rw [← hacked]
  exact (objects_round_trip stamped_zstdLawful hs (htried ▸ noCollisions_many 3) hh).1

/-- **The round trip fails behind the last slot.** After 2^32 + 1 puts under the right ids,
    all acknowledged and without any collision, the last object reads back as the first. -/
theorem slots_wrap :
    ∃ s h o, plainDb.Reachable s ∧ stamped.ZstdLawful ∧
      NoCollisions stamped noPrisms defaultBlobOptions s.tried ∧ s.odb = some h ∧
      o ∈ s.acked ∧ ¬ Reads stamped (s.disk, h) o := by
  obtain ⟨s, h, w, hs, hh, htried, hacked, hobjects, hshows⟩ :=
    many_run (N := 2 ^ 32) le_rfl le_rfl
  have hids := (noCollisions_many (2 ^ 32 + 1)).ids
  have hmem : nthObject (2 ^ 32) ∈ manyObjects (2 ^ 32 + 1) :=
    mem_map_of_mem (mem_range.mpr (Nat.lt_succ_self _))
  have hnew : nthObject (2 ^ 32) ∉ w.objects := by
    rw [hobjects]
    intro hin
    obtain ⟨j, hj, heq⟩ := mem_map.mp hin
    rw [mem_range] at hj
    have := nthObject_injective (by omega) (by omega) heq
    omega
  have hfull : w.objects.length = 2 ^ 32 := by
    rw [hobjects, manyObjects, length_map, length_range]
  have hfirst : w.objects.head? = some (nthObject 0) := by
    rw [hobjects, manyObjects, head?_map, head?_range]
    rfl
  obtain ⟨alt, t, s', hput, hget⟩ := hshows.put_wrapped stamped_zstdLawful hids
    (distinct_many _) (fits_many (by decide)) hfull hfirst hmem hnew
    (plain_short (length_nthObject _)) (strings_many le_rfl)
  have hmany : manyObjects (2 ^ 32 + 1) = manyObjects (2 ^ 32) ++ [nthObject (2 ^ 32)] := by
    rw [manyObjects, range_succ, map_append]
    rfl
  have hstep : plainDb.step s (.put ((nthObject (2 ^ 32)).id stamped) (nthObject (2 ^ 32)).kind
      (nthObject (2 ^ 32)).data) = some (s.acknowledged t (nthObject (2 ^ 32))) :=
    step_put_ok hh hput
  refine ⟨s.acknowledged t (nthObject (2 ^ 32)), t.2, nthObject (2 ^ 32),
    .step hs.reachable trivial hstep, stamped_zstdLawful, ?_, rfl,
    mem_append_right _ (mem_singleton.mpr rfl), ?_⟩
  · have htried' : (s.acknowledged t (nthObject (2 ^ 32))).tried = manyObjects (2 ^ 32 + 1) := by
      rw [hmany, ← htried]
      rfl
    rw [htried']
    exact noCollisions_many _
  · rintro ⟨s'', hgot⟩
    have hsame := hget.symm.trans hgot
    injection hsame with hraw
    have hdata := congrArg RawObject.data (Option.some.inj hraw)
    exact absurd hdata (by decide)

end Alt.Odb
