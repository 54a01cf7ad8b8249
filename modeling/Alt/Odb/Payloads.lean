import Alt.Odb.NativeOdb
import Alt.Store.BlobContent

namespace Alt.Odb

open Alt.Library Alt.Store List

/-!
# Payloads of an object database that is only put into

A payload is a blob of the store, or is kept decomposed: its parts and its record are blobs,
and the Tier 1 map binds its id to the record's.  What there is of both only grows
(`PayloadWorld`); storing a payload leaves it in one of the tiers, and whatever is in one of
them reads back (`grows_putBlob`, `yields_fetchBlob`).

Nothing here touches the object map, which `PayloadShows` holds fixed.
-/

/-- The payloads: the blob store's, and those kept as parts and a record. -/
structure PayloadWorld where
  blobs : BlobWorld
  tier1 : List Bytes

instance : Preorder PayloadWorld where
  le v v' := v.blobs ≤ v'.blobs ∧ v.tier1 <+: v'.tier1
  le_refl _ := ⟨le_rfl, prefix_rfl⟩
  le_trans _ _ _ h h' := ⟨h.1.trans h'.1, h.2.trans h'.2⟩

/-- A payload is there, in one of the tiers. -/
def PayloadWorld.Stores (v : PayloadWorld) (data : Bytes) : Prop :=
  data ∈ v.tier1 ∨ v.blobs.Holds data

variable {data : Bytes}

theorem PayloadWorld.Stores.mono {v v' : PayloadWorld} (h : v.Stores data) (hle : v ≤ v') :
    v'.Stores data :=
  h.imp (fun ht => hle.2.subset ht) fun hb => hb.mono hle.1

/-- The record stored for a decomposed payload. -/
def recordOf (P : Prims) (t1 : Tier1) : Bytes :=
  encodeRecord t1.prism t1.decomposition.recipe (t1.decomposition.parts.map P.blake3)

/-- The byte strings that storing a payload hashes. -/
def payloadStrings (P : Prims) (X : Prisms) (opts : BlobOptions) (data : Bytes) : List Bytes :=
  data ::
    match (defaultRegistry X).decomposeVerified data with
    | none => blobStrings P opts data
    | some t1 => t1.decomposition.parts.flatMap (blobStrings P opts)
        ++ blobStrings P opts (recordOf P t1)

/-- A Tier 1 record binds a payload to the record of its accepted decomposition, and all of
    that is stored. -/
structure Decomposed (P : Prims) (X : Prisms) (b : BlobWorld) (r : Tier1Entry) (data : Bytes) :
    Prop where
  blob : r.blob = P.blake3 data
  kept : ∃ t1, (defaultRegistry X).decomposeVerified data = some t1 ∧
    r.record = P.blake3 (recordOf P t1) ∧ b.Holds (recordOf P t1) ∧
    ∀ part ∈ t1.decomposition.parts, b.Holds part

variable {r : Tier1Entry}

theorem Decomposed.mono {P : Prims} {X : Prisms} {b b' : BlobWorld} (h : Decomposed P X b r data)
    (hle : b ≤ b') : Decomposed P X b' r data := by
  obtain ⟨hblob, t1, hacc, hrec, hheld, hparts⟩ := h
  exact ⟨hblob, t1, hacc, hrec, hheld.mono hle, fun part hp => (hparts part hp).mono hle⟩

/-- The directory and the handle hold the payloads of the world, and the object map is the
    given one. -/
structure PayloadShows (P : Prims) (S : IdxSort) (X : Prisms) (opts : BlobOptions)
    (u : Universe) (mapFile : Option Bytes) (map : ObjectMap) (s : OdbDisk × NativeOdb)
    (v : PayloadWorld) : Prop where
  registry : s.2.registry = defaultRegistry X
  blobs : BlobShows P S u opts (s.1.blobs, s.2.blobs) v.blobs
  tier1 : ∃ recs, (Tier1Map.format P).InStep Tier1Map.indexing s.1.tier1 s.2.tier1 recs ∧
    List.Forall₂ (Decomposed P X v.blobs) recs v.tier1
  decomposed : v.tier1 ⊆ u.strings
  mapFile : s.1.map = mapFile
  map : s.2.map = map

variable {P : Prims} {S : IdxSort} {X : Prisms} {opts : BlobOptions} {u : Universe}
  {mapFile : Option Bytes} {map : ObjectMap} {v : PayloadWorld}

namespace PayloadShows

variable {s : OdbDisk × NativeOdb}

theorem stores_mem (hs : PayloadShows P S X opts u mapFile map s v) {data : Bytes}
    (h : v.Stores data) : data ∈ u.strings :=
  h.elim (fun ht => hs.decomposed ht) fun hb => hs.blobs.holds_mem hb

/-- What the Tier 1 map says of an id. -/
theorem exists_decomposed (hs : PayloadShows P S X opts u mapFile map s v) {id record : BlobId}
    (h : s.2.tier1.index id = some record) :
    ∃ data ∈ v.tier1, Decomposed P X v.blobs ⟨id, record⟩ data := by
  obtain ⟨recs, hstep, hdec⟩ := hs.tier1
  rw [hstep.index] at h
  obtain ⟨⟨blob, record'⟩, hr, rfl, rfl⟩ := Indexing.exists_of_byKey (K := Tier1Entry.blob)
    (V := Tier1Entry.record) h
  obtain ⟨i, hi, hget⟩ := getElem_of_mem hr
  have hlen := hdec.length_eq
  have hpair := List.Forall₂.get hdec hi (by omega)
  rw [get_eq_getElem, hget] at hpair
  exact ⟨_, getElem_mem _, hpair⟩

theorem isSome_tier1 (hs : PayloadShows P S X opts u mapFile map s v) {id : BlobId} :
    (s.2.tier1.index id).isSome = true ↔ ∃ data ∈ v.tier1, P.blake3 data = id := by
  obtain ⟨recs, hstep, hdec⟩ := hs.tier1
  have hlen := hdec.length_eq
  rw [hstep.index]
  refine (Indexing.isSome_byKey (K := Tier1Entry.blob)).trans ?_
  constructor
  · rintro ⟨r, hr, rfl⟩
    obtain ⟨i, hi, rfl⟩ := getElem_of_mem hr
    have hget := List.Forall₂.get hdec hi (by omega)
    exact ⟨_, getElem_mem _, hget.blob.symm⟩
  · rintro ⟨data, hd, rfl⟩
    obtain ⟨i, hi, rfl⟩ := getElem_of_mem hd
    have hget := List.Forall₂.get hdec (by omega) hi
    exact ⟨recs[i], getElem_mem _, hget.blob⟩

/-- With the universe free of collisions, an id that is there is that of its payload. -/
theorem stores_of_containsBlob (hu : u.Distinct P) (hs : PayloadShows P S X opts u mapFile map s v)
    {data : Bytes} (hd : data ∈ u.strings)
    (hc : s.2.containsBlob (P.blake3 data) = true) : v.Stores data := by
  rw [NativeOdb.containsBlob, Bool.or_eq_true, hs.isSome_tier1] at hc
  rcases hc with ⟨data', hd', hid⟩ | hblob
  · exact .inl (hu (hs.decomposed hd') hd hid ▸ hd')
  · exact .inr (hs.blobs.holds_of_contains hu hd hblob)

end PayloadShows

open NativeOdb

/-! ### Storing -/

theorem grows_withBlobs {α : Type} {m : BlobProg α} {Q : α → BlobWorld → Prop}
    (hm : Grows (BlobShows P S u opts) v.blobs m Q) :
    Grows (PayloadShows P S X opts u mapFile map) v (withBlobs m) fun a v' => Q a v'.blobs := by
  rintro ⟨disk, h⟩ hs
  obtain ⟨b', hle, hshows, hq⟩ := hm (disk.blobs, h.blobs) hs.blobs
  have hgrown : v ≤ ⟨b', v.tier1⟩ := ⟨hle, prefix_rfl⟩
  have hkeep : ∀ blobs store, BlobShows P S u opts (blobs, store) b' →
      PayloadShows P S X opts u mapFile map ({ disk with blobs }, { h with blobs := store })
        ⟨b', v.tier1⟩ := by
    intro blobs store hblobs
    obtain ⟨recs, hstep, hdec⟩ := hs.tier1
    exact ⟨hs.registry, hblobs, ⟨recs, hstep, hdec.imp fun _ _ hd => hd.mono hle⟩, hs.decomposed,
      hs.mapFile, hs.map⟩
  refine ⟨⟨b', v.tier1⟩, hgrown, ?_⟩
  cases hrun : m (disk.blobs, h.blobs) with
  | error e s' =>
    obtain ⟨blobs, store⟩ := s'
    have hlift : withBlobs m (disk, h)
        = .error (.store e) ({ disk with blobs }, { h with blobs := store }) := by
      simp only [withBlobs, hrun]
    rw [hrun] at hshows
    rw [hlift]
    exact ⟨hkeep blobs store hshows, fun a s' herr => by cases herr⟩
  | ok a s' =>
    obtain ⟨blobs, store⟩ := s'
    have hlift : withBlobs m (disk, h)
        = .ok a ({ disk with blobs }, { h with blobs := store }) := by
      simp only [withBlobs, hrun]
    rw [hrun] at hshows
    rw [hlift]
    refine ⟨hkeep blobs store hshows, fun a' s' hok => ?_⟩
    cases hok
    exact hq a _ hrun

theorem grows_appendTier1 (hd : data ∈ u.strings) (hr : Decomposed P X v.blobs r data) :
    Grows (PayloadShows P S X opts u mapFile map) v (appendTier1 P r) fun _ v' =>
      data ∈ v'.tier1 := by
  rintro ⟨disk, h⟩ hs
  obtain ⟨recs, hstep, hdec⟩ := hs.tier1
  have hgrown : v ≤ ⟨v.blobs, v.tier1 ++ [data]⟩ := ⟨le_rfl, prefix_append _ _⟩
  refine ⟨⟨v.blobs, v.tier1 ++ [data]⟩, hgrown, ⟨hs.registry, hs.blobs,
    ⟨recs ++ [r], hstep.append r, rel_append hdec (.cons hr .nil)⟩, ?_, hs.mapFile, hs.map⟩,
    fun _ _ _ => ?_⟩
  · intro b hb
    rcases mem_append.mp hb with hold | hnew
    · exact hs.decomposed hold
    · exact mem_singleton.mp hnew ▸ hd
  · exact mem_append_right _ (mem_singleton.mpr rfl)

/-- The parts, then the record, then the binding. -/
theorem grows_putParts (hz : P.ZstdLawful) (hu : u.Distinct P) (hfits : u.Fits)
    (hd : data ∈ u.strings) {t1 : Tier1}
    (hacc : (defaultRegistry X).decomposeVerified data = some t1)
    (hparts : t1.decomposition.parts.flatMap (blobStrings P opts) ⊆ u.fresh)
    (hrecord : blobStrings P opts (recordOf P t1) ⊆ u.fresh) :
    Grows (PayloadShows P S X opts u mapFile map) v (putParts P S (P.blake3 data) t1)
      fun id v' => id = P.blake3 data ∧ v'.Stores data := by
  refine (Grows.mapM (Q := fun part id v' => id = P.blake3 part ∧ v'.blobs.Holds part)
    ?_ ?_).bind fun ids v₁ _ hids => ?_
  · intro part id v₁ v₂ hle hq
    exact ⟨hq.1, hq.2.mono hle.1⟩
  · intro part hp v' _
    exact grows_withBlobs (grows_put hz hu hfits fun b hb => hparts (mem_flatMap.mpr ⟨part, hp, hb⟩))
  · have heq : t1.decomposition.parts.map P.blake3 = ids := by
      rw [← List.forall₂_eq_eq_eq, List.forall₂_map_left_iff]
      exact hids.imp fun _ _ hq => hq.1.symm
    have hheld : ∀ part ∈ t1.decomposition.parts, v₁.blobs.Holds part := by
      intro part hp
      obtain ⟨i, hi, rfl⟩ := getElem_of_mem hp
      have hlen := hids.length_eq
      exact (List.Forall₂.get hids hi (by omega)).2
    subst heq
    refine (grows_withBlobs (grows_put hz hu hfits hrecord)).bind fun recordId v₂ hle₂ hput => ?_
    obtain ⟨rfl, hrec⟩ := hput
    have hdec : Decomposed P X v₂.blobs ⟨P.blake3 data, P.blake3 (recordOf P t1)⟩ data :=
      ⟨rfl, t1, hacc, rfl, hrec, fun part hp => (hheld part hp).mono hle₂.1⟩
    exact (grows_appendTier1 hd hdec).bind fun _ v₃ _ hmem => Grows.pure ⟨rfl, .inl hmem⟩

/-- **Storing a payload.** It is there afterwards, under its hash, in one of the tiers. -/
theorem grows_putBlob (hz : P.ZstdLawful) (hu : u.Distinct P) (hfits : u.Fits)
    (hsub : payloadStrings P X opts data ⊆ u.fresh) :
    Grows (PayloadShows P S X opts u mapFile map) v (putBlob P S data) fun id v' =>
      id = P.blake3 data ∧ v'.Stores data := by
  have hd : data ∈ u.strings := hfits.fresh (hsub mem_cons_self)
  rintro ⟨disk, h⟩ hs
  by_cases hthere : h.containsBlob (P.blake3 data) = true
  · have hrun : putBlob P S data (disk, h) = .ok (P.blake3 data) (disk, h) := by
      simp only [putBlob, hthere, ↓reduceIte]
    rw [hrun]
    refine ⟨v, le_rfl, hs, fun a s' hok => ?_⟩
    cases hok
    exact ⟨rfl, hs.stores_of_containsBlob hu hd hthere⟩
  · have hregistry : h.registry = defaultRegistry X := hs.registry
    cases hacc : (defaultRegistry X).decomposeVerified data with
    | none =>
      have hrun : putBlob P S data (disk, h) = withBlobs (BlobStore.put P S data) (disk, h) := by
        simp only [putBlob, hthere, hregistry, hacc, ↓reduceIte, Bool.false_eq_true]
      have hstrings : blobStrings P opts data ⊆ u.fresh := by
        intro b hb
        refine hsub (mem_cons_of_mem _ ?_)
        rw [hacc]
        exact hb
      rw [hrun]
      exact ((grows_withBlobs (grows_put hz hu hfits hstrings)).imp
        fun _ _ _ hput => ⟨hput.1, .inr hput.2⟩) (disk, h) hs
    | some t1 =>
      have hrun : putBlob P S data (disk, h) = putParts P S (P.blake3 data) t1 (disk, h) := by
        simp only [putBlob, hthere, hregistry, hacc, ↓reduceIte, Bool.false_eq_true]
      have hstrings : t1.decomposition.parts.flatMap (blobStrings P opts)
          ++ blobStrings P opts (recordOf P t1) ⊆ u.fresh := by
        intro b hb
        refine hsub (mem_cons_of_mem _ ?_)
        rw [hacc]
        exact hb
      rw [hrun]
      exact grows_putParts hz hu hfits hd hacc
        (fun b hb => hstrings (mem_append_left _ hb))
        (fun b hb => hstrings (mem_append_right _ hb)) (disk, h) hs

/-! ### Storing a small payload succeeds -/

/-- A payload no prism accepts, of one chunk that is not too large and does compress. -/
structure Plain (P : Prims) (X : Prisms) (opts : BlobOptions) (data : Bytes) : Prop where
  declined : (defaultRegistry X).decomposeVerified data = none
  single : (Cdc.chunks opts.cdc data).length ≤ 1
  length_lt : data.length < 2 ^ 32
  compresses : ∀ options e, ChunkStore.encodePlain P options data ≠ .error e

theorem putBlob_plain (hz : P.ZstdLawful) (hu : u.Distinct P) (hfits : u.Fits)
    {s : OdbDisk × NativeOdb} (hs : PayloadShows P S X opts u mapFile map s v)
    (hplain : Plain P X opts data) (hd : data ∈ u.fresh) :
    ∃ t, putBlob P S data s = .ok (P.blake3 data) t := by
  obtain ⟨disk, h⟩ := s
  by_cases hthere : h.containsBlob (P.blake3 data) = true
  · exact ⟨(disk, h), by simp only [putBlob, hthere, ↓reduceIte]⟩
  have hregistry : h.registry = defaultRegistry X := hs.registry
  have hblob : h.blobs.contains (P.blake3 data) = false := by
    rw [containsBlob, Bool.or_eq_true, not_or] at hthere
    simpa using hthere.2
  have hopts : h.blobs.opts = opts := hs.blobs.opts
  obtain ⟨d', h', res, chunks', heq, -, -, hok, herr⟩ := hs.blobs.chunks.put hz hu hfits hd
  cases res with
  | error e =>
    rcases herr e rfl with hlong | hfail
    · exact absurd hlong (Nat.not_le.mpr hplain.length_lt)
    · exact absurd hfail (hplain.compresses _ e)
  | ok id =>
    obtain ⟨rfl, -⟩ := hok id rfl
    refine ⟨({ disk with blobs := { disk.blobs with packs := d' } },
      { h with blobs := { h.blobs with chunks := h' } }), ?_⟩
    simp only at heq
    simp only [putBlob, hthere, hregistry, hplain.declined, ↓reduceIte, Bool.false_eq_true,
      withBlobs, BlobStore.put, hblob, hopts, hplain.single, BlobStore.putChunk, heq, bind,
      EStateM.bind, pure, EStateM.pure]

/-! ### Reading -/

theorem yields_withBlobs {α : Type} {m : BlobProg α} {a : α}
    (hm : Yields (BlobShows P S u opts) v.blobs m a) :
    Yields (PayloadShows P S X opts u mapFile map) v (withBlobs m) a := by
  rintro ⟨disk, h⟩ hs
  obtain ⟨⟨blobs, store⟩, hrun, hblobs⟩ := hm (disk.blobs, h.blobs) hs.blobs
  refine ⟨({ disk with blobs }, { h with blobs := store }), ?_, hs.registry, hblobs, hs.tier1,
    hs.decomposed, hs.mapFile, hs.map⟩
  simp only [withBlobs, hrun]

/-- **Rebuilding** a decomposed payload from its record gives its bytes. -/
theorem yields_rebuild (hu : u.Distinct P) (hr : Decomposed P X v.blobs r data) :
    Yields (PayloadShows P S X opts u mapFile map) v (rebuild P r.blob (defaultRegistry X) r.record)
      data := by
  obtain ⟨hblob, t1, hacc, hrec, hheld, hparts⟩ := hr
  have hfits := Registry.fits_accepted hacc
  have hdecode : decodeTier1 r.blob (recordOf P t1) = .ok (t1.prism, t1.decomposition.recipe,
      t1.decomposition.parts.map P.blake3) := by
    rw [decodeTier1, recordOf, decodeRecord_encodeRecord t1.prism hfits.1
      (by rw [length_map]; exact hfits.2)]
  have hrecord : Yields (PayloadShows P S X opts u mapFile map) v (withBlobs (BlobStore.get P r.record))
      (recordOf P t1) := hrec ▸ yields_withBlobs (yields_get hu hheld)
  have hmapM : Yields (PayloadShows P S X opts u mapFile map) v
      ((t1.decomposition.parts.map P.blake3).mapM fun p =>
        withBlobs (BlobStore.getUnverified P p)) t1.decomposition.parts := by
    refine Yields.mapM ?_
    rw [List.forall₂_map_left_iff, List.forall₂_same]
    exact fun part hp => yields_withBlobs (yields_getUnverified hu (hparts part hp))
  refine hrecord.bind ((Yields.lift hdecode).bind (hmapM.bind ?_))
  rw [Registry.recompose_accepted (nodup_defaultRegistry X) hacc]
  dsimp only
  rw [if_neg (fun hne => hne hblob.symm)]
  exact .pure

/-- **Reading a payload**, whatever tier it is in. -/
theorem yields_fetchBlob (hu : u.Distinct P) (hd : v.Stores data) :
    Yields (PayloadShows P S X opts u mapFile map) v (fetchBlob P (P.blake3 data)) data := by
  rintro ⟨disk, h⟩ hs
  have hregistry : h.registry = defaultRegistry X := hs.registry
  cases hrec : h.tier1.index (P.blake3 data) with
  | some record =>
    obtain ⟨data', hd', hr⟩ := hs.exists_decomposed hrec
    obtain rfl : data' = data :=
      hu (hs.decomposed hd') (hs.stores_mem hd) hr.blob.symm
    simp only [fetchBlob, hrec, hregistry]
    exact yields_rebuild hu hr (disk, h) hs
  | none =>
    have hblob : v.blobs.Holds data := by
      refine hd.resolve_left fun ht => ?_
      have hsome := hs.isSome_tier1.mpr ⟨data, ht, rfl⟩
      simp only [hrec] at hsome
      cases hsome
    simp only [fetchBlob, hrec]
    exact yields_withBlobs (yields_get hu hblob) (disk, h) hs

end Alt.Odb
