import Alt.Store.BlobTree
import Alt.Store.ChunkContent

namespace Alt.Store

open Alt.Library

/-!
# A blob store that is only put into

`BlobShows` is `BlobOver` for chunk stores whose directory is a pack set (`ChunkShows`): such
a directory can be opened again, and reconciling with it finds nothing new.
-/

variable {P : Prims} {S : IdxSort} {u : Universe} {opts : BlobOptions} {w : BlobWorld}

/-! ### A directory and a handle that hold a world -/

/-- The directory and the handle hold the chunks and the blobs of the world. -/
structure BlobShows (P : Prims) (S : IdxSort) (u : Universe) (opts : BlobOptions)
    (s : BlobDisk × BlobStore) (w : BlobWorld) : Prop where
  opts : s.2.opts = opts
  chunks : ChunkShows P S u s.1.packs s.2.chunks w.chunks
  map : ∃ recs, (BlobMap.format P).InStep BlobMap.indexing s.1.blobMap s.2.map recs ∧
    List.Forall₂ (Rooted P w.chunks) recs w.blobs
  blobs : w.blobs ⊆ u.strings

theorem blobShows_eq : BlobShows P S u opts = BlobOver P (ChunkShows P S u) u.strings opts := by
  funext s w
  exact propext ⟨fun ⟨hopts, hchunks, hmap, hblobs⟩ => ⟨hopts, hchunks, hmap, hblobs⟩,
    fun ⟨hopts, hchunks, hmap, hblobs⟩ => ⟨hopts, hchunks, hmap, hblobs⟩⟩

/-- With the universe free of collisions, the chunks of a pack set read back. -/
theorem ChunkShows.readLaw (hu : u.Distinct P) : ReadLaw P u.strings (ChunkShows P S u) where
  subset hs := hs.subset
  length_lt hs _ hd := hs.length_lt hd
  containsKey hs _ := hs.containsKey
  resolve hs _ hd verify := hs.resolve hu hd verify
  decode hs _ hd := hs.decodeChunkUnverified hu hd

theorem ChunkShows.putLaw (hz : P.ZstdLawful) (hu : u.Distinct P) (hfits : u.Fits) :
    PutLaw P S u.fresh (ChunkShows P S u) := by
  intro d h chunks data hs hd
  obtain ⟨d', h', res, chunks', heq, hgrown, hshows, hput, -⟩ := hs.put hz hu hfits hd
  exact ⟨d', h', res, chunks', heq, hgrown, hshows, hput⟩

namespace BlobShows

variable {s : BlobDisk × BlobStore}

theorem holds_mem (hs : BlobShows P S u opts s w) {data : Bytes} (h : w.Holds data) :
    data ∈ u.strings :=
  h.elim (fun hc => hs.chunks.subset hc) fun hb => hs.blobs hb

/-- With the universe free of collisions, an id that is there is that of its blob alone. -/
theorem holds_of_contains (hu : u.Distinct P) (hs : BlobShows P S u opts s w) {data : Bytes}
    (hd : data ∈ u.strings) (hc : s.2.contains (P.blake3 data) = true) : w.Holds data := by
  rw [blobShows_eq] at hs
  exact hs.holds_of_contains (ChunkShows.readLaw hu) hu hd hc

end BlobShows

/-! ### Storing and reading -/

/-- **Storing a blob.** It is there afterwards, under its hash, whatever was there before. -/
theorem grows_put (hz : P.ZstdLawful) (hu : u.Distinct P) (hfits : u.Fits) {data : Bytes}
    (hsub : blobStrings P opts data ⊆ u.fresh) :
    Grows (BlobShows P S u opts) w (BlobStore.put P S data) fun id w' =>
      id = P.blake3 data ∧ w'.Holds data := by
  rw [blobShows_eq]
  exact BlobOver.grows_put (ChunkShows.readLaw hu) (ChunkShows.putLaw hz hu hfits) hu hfits.fresh
    (hfits.length_lt (hsub List.mem_cons_self)) hsub

/-- **Reading a blob** that is there gives its bytes. -/
theorem yields_get (hu : u.Distinct P) {data : Bytes} (hd : w.Holds data) :
    Yields (BlobShows P S u opts) w (BlobStore.get P (P.blake3 data)) data := by
  rw [blobShows_eq]
  exact BlobOver.yields_get (ChunkShows.readLaw hu) hu hd

theorem yields_getUnverified (hu : u.Distinct P) {data : Bytes} (hd : w.Holds data) :
    Yields (BlobShows P S u opts) w (BlobStore.getUnverified P (P.blake3 data)) data := by
  rw [blobShows_eq]
  exact BlobOver.yields_getUnverified (ChunkShows.readLaw hu) hu hd

/-! ### Opening and reconciling -/

namespace BlobShows

variable {s : BlobDisk × BlobStore}

/-- Another operation starts: what is there may stay anywhere in its universe. -/
theorem rebase (hs : BlobShows P S u opts s w) {strings : List Bytes}
    (hsub : ∀ data, w.Holds data → data ∈ strings) (fresh : List Bytes) :
    BlobShows P S (.before strings fresh s.2.chunks w.chunks) opts s w :=
  ⟨hs.opts, hs.chunks.rebase (fun data hd => hsub data (.inl hd)) fresh, hs.map,
    fun data hd => hsub data (.inr hd)⟩

/-- A fresh directory holds nothing. -/
theorem openWith_nil (strings : List Bytes) (opts : BlobOptions) :
    ∃ disk h, BlobStore.openWith P S opts ⟨[], none⟩ = (disk, .ok h) ∧
      BlobShows P S (.before strings [] h.chunks []) opts (disk, h) .empty := by
  obtain ⟨packs, chunks, hopen, hshows⟩ :=
    ChunkShows.openWith_nil (P := P) (S := S) strings opts.chunks
  obtain ⟨file, map, hmap, hstep⟩ :=
    RecordFormat.InStep.openLog_none (F := BlobMap.format P) (I := BlobMap.indexing)
  refine ⟨⟨packs, some file⟩, ⟨chunks, map, opts⟩, ?_, rfl, hshows, ⟨[], hstep, .nil⟩,
    List.nil_subset _⟩
  simp only [BlobStore.openWith, hopen, hmap]

/-- **Reopening** finds the same blobs. -/
theorem openWith (hs : BlobShows P S u opts s w) :
    ∃ disk h, BlobStore.openWith P S opts s.1 = (disk, .ok h) ∧
      BlobShows P S u opts (disk, h) w := by
  obtain ⟨disk, h⟩ := s
  obtain ⟨packs, chunks, hopen, hshows⟩ := hs.chunks.openWith opts.chunks
  obtain ⟨recs, hstep, hrooted⟩ := hs.map
  obtain ⟨file, map, hmap, hstep'⟩ := hstep.openLog
  refine ⟨⟨packs, some file⟩, ⟨chunks, map, opts⟩, ?_, rfl, hshows, ⟨recs, hstep', hrooted⟩,
    hs.blobs⟩
  simp only at hopen hmap
  simp only [BlobStore.openWith, hopen, hmap]

/-- Reconciling finds nothing new. -/
theorem syncFromDisk_eq (hs : BlobShows P S u opts s w) :
    BlobStore.syncFromDisk P S s = .ok () s := by
  obtain ⟨disk, h⟩ := s
  obtain ⟨recs, hstep, -⟩ := hs.map
  have hfile : some (disk.blobMap.getD []) = disk.blobMap := by
    have hsome := hstep.file
    simp only at hsome
    rw [hsome, Option.getD_some]
  have hchunks := hs.chunks.syncFromDisk_eq
  simp only at hchunks
  simp only [BlobStore.syncFromDisk, hchunks, hstep.syncFromDisk, hfile]

end BlobShows

end Alt.Store
