import Alt.Cdc.Laws
import Alt.Store.BlobContent
import Alt.Store.ChunkSession

namespace Alt.Store

open Alt.Library BlobStore List

/-!
# Runs of one blob store

One store on a fresh directory: opened, put into and read in any order.

`blob_round_trip` is the round trip.  While a handle is open nothing bounds what it stores.
Opening a directory again reads pack lengths from `u64` fields and relies on `u32` pack
numbers, so a run reopens only what has stayed within them (`ReopensInRange`).

`chunking_laws` is what the store relies on of its chunks.
-/

/-- The directory, the handle if the store is open, and (for the statement) the blobs put,
    those of them whose put returned `Ok`, and whether each found room in the fields of the
    pack files. -/
structure BlobState where
  disk : BlobDisk
  store : Option BlobStore
  tried : List Bytes
  acked : List Bytes
  inRange : Bool

inductive BlobAction
  /-- Open the directory; a handle that is open is dropped. -/
  | open
  | put (data : Bytes)
  | get (id : BlobId)
  | getUnverified (id : BlobId)
  | leafChunks (id : BlobId)

namespace BlobState

/-- The directory and the handle after an operation. -/
def after (s : BlobState) (t : BlobDisk × BlobStore) : BlobState :=
  { s with disk := t.1, store := some t.2 }

end BlobState

/-- Whatever storing the blob adds, pack lengths stay below 2^64 and pack numbers below 2^32. -/
def PutInRange (P : Prims) (opts : BlobOptions) (h : BlobStore) (data : Bytes) : Prop :=
  let strings := (blobStrings P opts data).dedup
  h.chunks.active.len + (strings.map chunkCost).sum < 2 ^ 64 ∧
    h.chunks.active.seq + strings.length + 1 < 2 ^ 32

instance (P : Prims) (opts : BlobOptions) (h : BlobStore) (data : Bytes) :
    Decidable (PutInRange P opts h data) := inferInstanceAs (Decidable (_ ∧ _))

def blobStep (P : Prims) (S : IdxSort) (opts : BlobOptions) (s : BlobState) :
    BlobAction → Option BlobState
  | .open =>
    match BlobStore.openWith P S opts s.disk with
    | (disk, .error _) => some { s with disk, store := none }
    | (disk, .ok h) => some (s.after (disk, h))
  | .put data => s.store.map fun h =>
      let s := { s with
        tried := s.tried ++ [data]
        inRange := s.inRange && decide (PutInRange P opts h data) }
      match BlobStore.put P S data (s.disk, h) with
      | .error _ t => s.after t
      | .ok _ t => { s.after t with acked := s.acked ++ [data] }
  | .get id => s.store.map fun h => s.after (leaves (BlobStore.get P id (s.disk, h)))
  | .getUnverified id => s.store.map fun h =>
      s.after (leaves (BlobStore.getUnverified P id (s.disk, h)))
  | .leafChunks id => s.store.map fun h =>
      s.after (leaves (BlobStore.leafChunks P id (s.disk, h)))

/-- The blob store of a fresh directory. -/
def blobStore (P : Prims) (S : IdxSort) (opts : BlobOptions) : System BlobState BlobAction where
  init := ⟨⟨[], none⟩, none, [], [], true⟩
  step := blobStep P S opts

/-- A byte string in memory has a `usize` length; a directory is opened again as long as its
    packs are within their fields. -/
def ReopensInRange (s : BlobState) : BlobAction → Prop
  | .open => s.inRange = true
  | .put data => data.length < 2 ^ 64
  | _ => True

instance (s : BlobState) (a : BlobAction) : Decidable (ReopensInRange s a) :=
  match a with
  | .open => inferInstanceAs (Decidable (_ = _))
  | .put _ => inferInstanceAs (Decidable (_ < _))
  | .get _ | .getUnverified _ | .leafChunks _ => .isTrue trivial

/-- Everything hashed when the blobs are put. -/
def putStrings (P : Prims) (opts : BlobOptions) (blobs : List Bytes) : List Bytes :=
  blobs.flatMap (blobStrings P opts)

/-- No two byte strings hashed when the blobs are put collide. -/
def NoBlobCollisions (P : Prims) (opts : BlobOptions) (blobs : List Bytes) : Prop :=
  Set.InjOn P.blake3 {b | b ∈ putStrings P opts blobs}

variable {P : Prims} {S : IdxSort} {opts : BlobOptions} {strings : List Bytes}

/-! ### Handles in session -/

/-- The chunks of a handle in session, all of them among the strings of the run. -/
def KeptOf (P : Prims) (strings : List Bytes) (d : Dir) (h : ChunkStore) (chunks : List Bytes) :
    Prop := InSession P d h chunks ∧ chunks ⊆ strings

theorem KeptOf.readLaw (hu : Set.InjOn P.blake3 {b | b ∈ strings}) :
    ReadLaw P strings (KeptOf P strings) where
  subset hs := hs.2
  length_lt hs _ hd := by
    obtain ⟨loc, r, -, hfull, -⟩ := hs.1.exists_record (hu.mono fun _ hb => hs.2 hb) hd
    exact hfull.length_lt
  containsKey hs _ := hs.1.containsKey
  resolve hs _ hd verify :=
    ⟨_, hs.1.resolve (hu.mono fun _ hb => hs.2 hb) hd verify, hs.1.withCache _, hs.2⟩
  decode hs _ hd := hs.1.decodeChunkUnverified (hu.mono fun _ hb => hs.2 hb) hd

theorem KeptOf.putLaw (hz : P.ZstdLawful) (hu : Set.InjOn P.blake3 {b | b ∈ strings}) :
    PutLaw P S strings (KeptOf P strings) := by
  intro d h chunks data hs hd
  obtain ⟨d', h', res, chunks', heq, hgrown, hsub, hs', hput⟩ := hs.1.put (S := S) hz data
  have hsub' : chunks' ⊆ strings := by
    intro b hb
    rcases mem_append.mp (hsub hb) with hold | hnew
    · exact hs.2 hold
    · exact mem_singleton.mp hnew ▸ hd
  refine ⟨d', h', res, chunks', heq, hgrown, ⟨hs', hsub'⟩, fun id hok => ?_⟩
  obtain ⟨rfl, data', hd', hid⟩ := hput id hok
  obtain rfl : data' = data := hu (hsub' hd') hd hid
  exact ⟨rfl, hd'⟩

/-- A handle that holds what a pack set holds is in session. -/
theorem ChunkShows.inSession {u : Universe} {d : Dir} {h : ChunkStore} {chunks : List Bytes}
    (hs : ChunkShows P S u d h chunks) : InSession P d h chunks := by
  have hkeys : ∀ data ∈ chunks, h.index.containsKey (P.blake3 data) = true :=
    fun data hd => hs.containsKey.mpr ⟨data, hd, rfl⟩
  obtain ⟨c, rfl, hf, hp, -, -, -⟩ := hs
  have hnodup : (c.dir S).seqs.Nodup := by
    rw [PackSet.dir_seqs]
    exact c.ordered.imp Nat.ne_of_lt
  refine ⟨hnodup, ?_, ⟨Pack.packBytes c.active, ?_, ?_⟩, ?_, ?_, hkeys⟩
  · rintro seq data ⟨f, hf, -, rfl⟩
    rcases mem_append.mp hf with hsealed | hactive
    · obtain ⟨p, -, rfl⟩ := mem_map.mp hsealed
      exact ⟨p.recs, rfl⟩
    · exact ⟨c.active, by rw [mem_singleton.mp hactive]⟩
  · rw [hf.active]
    exact ⟨_, mem_append_right _ (mem_singleton.mpr rfl), rfl, rfl⟩
  · rw [hf.active]
  · intro seq data _ hlookup
    rw [hf.sealed] at hlookup
    obtain ⟨l₁, l₂, heq, -⟩ := List.lookup_eq_some_iff.mp hlookup
    have hmem : (seq, data) ∈ c.sealed.map fun p => (p.seq, Pack.packBytes p.recs) := by
      rw [heq]
      exact mem_append_right _ mem_cons_self
    obtain ⟨p, hp, hpair⟩ := mem_map.mp hmem
    cases hpair
    exact ⟨p.file S, mem_append_left _ (mem_map_of_mem hp), rfl, rfl⟩
  · intro id loc hloc
    obtain ⟨r, hr⟩ := hf.newest_of_get (P := P) hloc
    obtain ⟨hmem, rfl⟩ := hp.newest_iff.mp hr
    obtain ⟨data, hd, hfull⟩ := hp.exists_chunk hmem
    obtain ⟨loc', hloc', hplaced⟩ := hf.locate_newest hr
    obtain rfl : loc = loc' := Option.some.inj (hloc.symm.trans hloc')
    exact ⟨data, hd, hfull.id.symm, r, hfull, hf.standsAt hplaced⟩

/-! ### The run invariant -/

theorem putStrings_mono {bs bs' : List Bytes} (h : bs ⊆ bs') :
    putStrings P opts bs ⊆ putStrings P opts bs' := by
  intro b hb
  obtain ⟨data, hd, hb⟩ := mem_flatMap.mp hb
  exact mem_flatMap.mpr ⟨data, h hd, hb⟩

variable {data : Bytes}

theorem blobStrings_subset {blobs : List Bytes} (hd : data ∈ blobs) :
    blobStrings P opts data ⊆ putStrings P opts blobs :=
  fun _ hb => mem_flatMap.mpr ⟨data, hd, hb⟩

theorem NoBlobCollisions.mono {bs bs' : List Bytes} (h : NoBlobCollisions P opts bs')
    (hsub : bs ⊆ bs') : NoBlobCollisions P opts bs :=
  Set.InjOn.mono (fun _ hb => putStrings_mono hsub hb) h

/-- The directory and the handle hold the blobs of the run, the handle being in session. -/
def HoldsBlobs (P : Prims) (opts : BlobOptions) (tried acked : List Bytes)
    (t : BlobDisk × BlobStore) : Prop :=
  ∃ w, BlobOver P (KeptOf P (putStrings P opts tried)) (putStrings P opts tried) opts t w ∧
    ∀ data ∈ acked, w.Holds data

/-- They hold them in packs that can be read again. -/
def Reopens (P : Prims) (S : IdxSort) (opts : BlobOptions) (tried acked : List Bytes)
    (t : BlobDisk × BlobStore) : Prop :=
  ∃ u w, u.strings = putStrings P opts tried ∧ BlobShows P S u opts t w ∧
    ∀ data ∈ acked, w.Holds data

/-- Nothing was opened yet, or the open store holds the blobs of the run, in packs that can be
    read again if every put stayed in range. -/
def BlobInv (P : Prims) (S : IdxSort) (opts : BlobOptions) (s : BlobState) : Prop :=
  s = ⟨⟨[], none⟩, none, [], [], true⟩ ∨
    ∃ h, s.store = some h ∧ HoldsBlobs P opts s.tried s.acked (s.disk, h) ∧
      (s.inRange = true → Reopens P S opts s.tried s.acked (s.disk, h))

variable {tried acked : List Bytes} {t : BlobDisk × BlobStore}

theorem Reopens.holdsBlobs (hs : Reopens P S opts tried acked t) :
    HoldsBlobs P opts tried acked t := by
  obtain ⟨u, w, hstrings, hshows, hacked⟩ := hs
  refine ⟨w, ⟨hshows.opts, ⟨hshows.chunks.inSession, ?_⟩, hshows.map, ?_⟩, hacked⟩
  · rw [← hstrings]
    exact hshows.chunks.subset
  · rw [← hstrings]
    exact hshows.blobs

variable {s : BlobState}

/-- Opening the store, for the first time or again. -/
theorem blobInv_open (hinv : BlobInv P S opts s) (hrange : s.inRange = true) :
    ∃ disk h, BlobStore.openWith P S opts s.disk = (disk, .ok h) ∧
      Reopens P S opts s.tried s.acked (disk, h) := by
  rcases hinv with rfl | ⟨h, -, -, hreopens⟩
  · obtain ⟨disk, h, hopen, hshows⟩ := BlobShows.openWith_nil (P := P) (S := S) [] opts
    exact ⟨disk, h, hopen, _, _, rfl, hshows, fun _ hd => (not_mem_nil hd).elim⟩
  · obtain ⟨u, w, hstrings, hshows, hacked⟩ := hreopens hrange
    obtain ⟨disk, h', hopen, hshows'⟩ := hshows.openWith
    exact ⟨disk, h', hopen, u, w, hstrings, hshows', hacked⟩

/-- A put of a handle in session, whatever it stored before. -/
theorem HoldsBlobs.put (hz : P.ZstdLawful) (hs : HoldsBlobs P opts tried acked t)
    (hlong : data.length < 2 ^ 64) (hc : NoBlobCollisions P opts (tried ++ [data])) :
    HoldsBlobs P opts (tried ++ [data]) acked (leaves (BlobStore.put P S data t)) ∧
    ∀ id t', BlobStore.put P S data t = .ok id t' →
      id = P.blake3 data ∧ HoldsBlobs P opts (tried ++ [data]) (acked ++ [data]) t' := by
  obtain ⟨w, hover, hacked⟩ := hs
  have hsub : putStrings P opts tried ⊆ putStrings P opts (tried ++ [data]) :=
    putStrings_mono (subset_append_left _ _)
  have hover' : BlobOver P (KeptOf P (putStrings P opts (tried ++ [data])))
      (putStrings P opts (tried ++ [data])) opts t w :=
    ⟨hover.opts, ⟨hover.chunks.1, fun _ hb => hsub (hover.chunks.2 hb)⟩, hover.map,
      fun _ hb => hsub (hover.blobs hb)⟩
  have hfresh : blobStrings P opts data ⊆ putStrings P opts (tried ++ [data]) :=
    blobStrings_subset (mem_append_right _ (mem_singleton.mpr rfl))
  obtain ⟨w', hle, hleaves, hput⟩ := BlobOver.grows_put (S := S) (KeptOf.readLaw hc)
    (KeptOf.putLaw hz hc) hc (List.Subset.refl _) hlong hfresh t hover'
  have hacked' : ∀ b ∈ acked, w'.Holds b := fun b hb => (hacked b hb).mono hle
  refine ⟨⟨w', hleaves, hacked'⟩, fun id t' hrun => ?_⟩
  obtain ⟨hid, hholds⟩ := hput id t' hrun
  rw [hrun] at hleaves
  refine ⟨hid, w', hleaves, fun b hb => ?_⟩
  rcases mem_append.mp hb with hold | hnew
  · exact hacked' b hold
  · exact mem_singleton.mp hnew ▸ hholds

/-- A put that stays in range leaves packs that can be read again. -/
theorem Reopens.put (hz : P.ZstdLawful) (hs : Reopens P S opts tried acked t)
    (hrange : PutInRange P opts t.2 data) (hc : NoBlobCollisions P opts (tried ++ [data])) :
    Reopens P S opts (tried ++ [data]) acked (leaves (BlobStore.put P S data t)) ∧
    ∀ id t', BlobStore.put P S data t = .ok id t' →
      Reopens P S opts (tried ++ [data]) (acked ++ [data]) t' := by
  obtain ⟨u, w, hstrings, hshows, hacked⟩ := hs
  have hsub : ∀ b, w.Holds b → b ∈ putStrings P opts (tried ++ [data]) := by
    intro b hb
    have hmem := hshows.holds_mem hb
    rw [hstrings] at hmem
    exact putStrings_mono (subset_append_left _ _) hmem
  have hfresh : blobStrings P opts data ⊆ putStrings P opts (tried ++ [data]) :=
    blobStrings_subset (mem_append_right _ (mem_singleton.mpr rfl))
  have hbase := hshows.rebase hsub (blobStrings P opts data)
  have hfits : (Universe.before (putStrings P opts (tried ++ [data])) (blobStrings P opts data)
      t.2.chunks w.chunks).Fits := ⟨hfresh, hrange.1, hrange.2⟩
  have hdistinct : (Universe.before (putStrings P opts (tried ++ [data])) (blobStrings P opts data)
      t.2.chunks w.chunks).Distinct P := hc
  obtain ⟨w', hle, hleaves, hput⟩ := grows_put hz hdistinct hfits (List.Subset.refl _) t hbase
  have hacked' : ∀ b ∈ acked, w'.Holds b := fun b hb => (hacked b hb).mono hle
  refine ⟨⟨_, w', rfl, hleaves, hacked'⟩, fun id t' hrun => ?_⟩
  rw [hrun] at hleaves
  refine ⟨_, w', rfl, hleaves, fun b hb => ?_⟩
  rcases mem_append.mp hb with hold | hnew
  · exact hacked' b hold
  · exact mem_singleton.mp hnew ▸ (hput id t' hrun).2

/-- What a read of the store leaves. -/
inductive BlobRead (P : Prims) : (BlobDisk × BlobStore → BlobDisk × BlobStore) → Prop
  | get (id : BlobId) : BlobRead P fun t => leaves (BlobStore.get P id t)
  | getUnverified (id : BlobId) : BlobRead P fun t => leaves (BlobStore.getUnverified P id t)
  | leafChunks (id : BlobId) : BlobRead P fun t => leaves (BlobStore.leafChunks P id t)

/-- A read leaves what is there. -/
theorem BlobRead.keeps {Keeps : Dir → ChunkStore → List Bytes → Prop}
    {read : BlobDisk × BlobStore → BlobDisk × BlobStore} (hread : BlobRead P read)
    (hk : ReadLaw P strings Keeps) (hu : Set.InjOn P.blake3 {b | b ∈ strings}) {w : BlobWorld}
    (hs : BlobOver P Keeps strings opts t w) :
    BlobOver P Keeps strings opts (read t) w := by
  cases hread with
  | get id => exact hs.materialize_keeps hk hu (by decide) true id
  | getUnverified id => exact hs.materialize_keeps hk hu (by decide) false id
  | leafChunks id => exact hs.leafChunks_keeps hk hu id

theorem HoldsBlobs.read {read : BlobDisk × BlobStore → BlobDisk × BlobStore}
    (hread : BlobRead P read) (hs : HoldsBlobs P opts tried acked t)
    (hc : NoBlobCollisions P opts tried) :
    HoldsBlobs P opts tried acked (read t) := by
  obtain ⟨w, hover, hacked⟩ := hs
  exact ⟨w, hread.keeps (KeptOf.readLaw hc) hc hover, hacked⟩

theorem Reopens.read {read : BlobDisk × BlobStore → BlobDisk × BlobStore}
    (hread : BlobRead P read) (hs : Reopens P S opts tried acked t)
    (hc : NoBlobCollisions P opts tried) :
    Reopens P S opts tried acked (read t) := by
  obtain ⟨u, w, hstrings, hshows, hacked⟩ := hs
  have hu : u.Distinct P := by
    rw [Universe.Distinct, hstrings]
    exact hc
  rw [blobShows_eq] at hshows
  refine ⟨u, w, hstrings, ?_, hacked⟩
  rw [blobShows_eq]
  exact hread.keeps (ChunkShows.readLaw hu) hu hshows

/-- **One step keeps the invariant.** -/
theorem blobInv_step (hz : P.ZstdLawful) {s' : BlobState} {a : BlobAction}
    (hinv : BlobInv P S opts s) (hc : NoBlobCollisions P opts s'.tried) (hg : ReopensInRange s a)
    (hstep : blobStep P S opts s a = some s') : BlobInv P S opts s' := by
  -- a read of an open store
  have hreads : ∀ read, BlobRead P read →
      (s.store.map fun h => s.after (read (s.disk, h))) = some s' → BlobInv P S opts s' := by
    intro read hread hstep
    obtain ⟨h, hh, rfl⟩ := Option.map_eq_some_iff.mp hstep
    rcases hinv with rfl | ⟨h', hh', hholds, hreopens⟩
    · cases hh
    obtain rfl : h' = h := Option.some.inj (hh'.symm.trans hh)
    exact .inr ⟨_, rfl, hholds.read hread hc, fun hrange => (hreopens hrange).read hread hc⟩
  cases a with
  | «open» =>
    obtain ⟨disk, h, hopen, hreopens⟩ := blobInv_open hinv hg
    simp only [blobStep, hopen, Option.some.injEq] at hstep
    subst hstep
    exact .inr ⟨h, rfl, hreopens.holdsBlobs, fun _ => hreopens⟩
  | put data =>
    obtain ⟨h, hh, hs'⟩ := Option.map_eq_some_iff.mp hstep
    rcases hinv with rfl | ⟨h', hh', hholds, hreopens⟩
    · cases hh
    obtain rfl : h' = h := Option.some.inj (hh'.symm.trans hh)
    have htried : s'.tried = s.tried ++ [data] := by
      rw [← hs']
      dsimp only
      split <;> rfl
    rw [htried] at hc
    have hput := hholds.put (S := S) hz hg hc
    have hput' : (s.inRange && decide (PutInRange P opts h' data)) = true → _ := fun hrange =>
      (hreopens (Bool.and_eq_true_iff.mp hrange).1).put hz
        (of_decide_eq_true (Bool.and_eq_true_iff.mp hrange).2) hc
    dsimp only at hs'
    cases hrun : BlobStore.put P S data (s.disk, h') with
    | error e t =>
      rw [hrun] at hs' hput hput'
      subst hs'
      exact .inr ⟨t.2, rfl, hput.1, fun hrange => (hput' hrange).1⟩
    | ok id t =>
      rw [hrun] at hs' hput hput'
      subst hs'
      exact .inr ⟨t.2, rfl, (hput.2 id t rfl).2, fun hrange => (hput' hrange).2 id t rfl⟩
  | get id => exact hreads _ (.get id) hstep
  | getUnverified id => exact hreads _ (.getUnverified id) hstep
  | leafChunks id => exact hreads _ (.leafChunks id) hstep

theorem blob_tried_subset {s' : BlobState} {a : BlobAction}
    (hstep : blobStep P S opts s a = some s') : s.tried ⊆ s'.tried := by
  cases a with
  | «open» =>
    simp only [blobStep] at hstep
    split at hstep <;> cases hstep <;> exact List.Subset.refl _
  | put data =>
    obtain ⟨h, -, rfl⟩ := Option.map_eq_some_iff.mp hstep
    dsimp only
    split <;> exact subset_append_left _ _
  | get id | getUnverified id | leafChunks id =>
    obtain ⟨h, -, rfl⟩ := Option.map_eq_some_iff.mp hstep
    exact List.Subset.refl _

/-- **The run invariant**, as long as nothing hashed in the run collides. -/
theorem blobInv_run (hz : P.ZstdLawful) (hs : (blobStore P S opts).ReachableIf ReopensInRange s)
    (hc : NoBlobCollisions P opts s.tried) : BlobInv P S opts s := by
  induction hs with
  | init => exact .inl rfl
  | step _ hg hstep ih => exact blobInv_step hz (ih (hc.mono (blob_tried_subset hstep))) hc hg hstep

/-! ### The round trip -/

/-- A blob reads back in every way, and the tree of one with a manifest is in order: its
    levels count down to the data chunks, every node spans the sum of what its entries span
    (`Covers`), and the root spans the blob. -/
structure ReadsBack (P : Prims) (t : BlobDisk × BlobStore) (data : Bytes) : Prop where
  get : ∃ t', BlobStore.get P (P.blake3 data) t = .ok data t'
  getUnverified : ∃ t', BlobStore.getUnverified P (P.blake3 data) t = .ok data t'
  leafChunks : ∃ (pieces : List Bytes) (t' : BlobDisk × BlobStore),
    BlobStore.leafChunks P (P.blake3 data) t = .ok (pieces.map P.blake3) t' ∧
    pieces.flatten = data ∧
    ∀ piece ∈ pieces, (ChunkStore.get P t.1.packs t.2.chunks (P.blake3 piece)).1 = .ok piece
  tree : ∀ root totalLen, t.2.map.index (P.blake3 data) = some (root, totalLen) →
    totalLen.toNat = data.length ∧
    ∃ chunks level e, e.id = root ∧ e.span.toNat = data.length ∧ Covers P chunks (level + 1) e data ∧
      ∀ chunk ∈ chunks, (ChunkStore.get P t.1.packs t.2.chunks (P.blake3 chunk)).1 = .ok chunk

theorem HoldsBlobs.readsBack (hs : HoldsBlobs P opts tried acked t)
    (hc : NoBlobCollisions P opts tried) (hd : data ∈ acked) : ReadsBack P t data := by
  obtain ⟨w, hover, hacked⟩ := hs
  have hk := KeptOf.readLaw hc
  have hholds := hacked data hd
  have hchunk : ∀ c ∈ w.chunks,
      (ChunkStore.get P t.1.packs t.2.chunks (P.blake3 c)).1 = .ok c := by
    intro c hmem
    obtain ⟨cache, heq, -⟩ := hk.resolve hover.chunks hmem .boundary
    rw [ChunkStore.get, heq]
  refine ⟨?_, ?_, ?_, ?_⟩
  · obtain ⟨t', hrun, -⟩ := BlobOver.yields_get hk hc hholds t hover
    exact ⟨t', hrun⟩
  · obtain ⟨t', hrun, -⟩ := BlobOver.yields_getUnverified hk hc hholds t hover
    exact ⟨t', hrun⟩
  · obtain ⟨pieces, t', hsub, hflat, hrun, -⟩ := BlobOver.yields_leafChunks hk hc hover hholds
    exact ⟨pieces, t', hrun, hflat, fun piece hp => hchunk piece (hsub hp)⟩
  · intro root totalLen hroot
    rcases BlobOver.root_of_holds hk hc hover hholds with ⟨hnone, -⟩ | ⟨root', len', hsome, hr⟩
    · rw [hroot] at hnone
      cases hnone
    · rw [hroot] at hsome
      cases hsome
      obtain ⟨-, hlen, level, e, hid, hcovers⟩ := hr
      have hlong : data.length < 2 ^ 64 := hlen ▸ totalLen.toNat_lt
      exact ⟨hlen, w.chunks, level, e, hid, hcovers.span hlong, hcovers, hchunk⟩

/-- **Round trip.** Whatever the store holds already, and whatever its parameters: a put that
    returns, returns the hash of the bytes, and from then on the blob reads back. -/
theorem blob_round_trip (hz : P.ZstdLawful) {s : BlobState}
    (hs : (blobStore P S opts).ReachableIf ReopensInRange s) {h : BlobStore}
    (hh : s.store = some h) (hc : NoBlobCollisions P opts s.tried) :
    (∀ data ∈ s.acked, ReadsBack P (s.disk, h) data) ∧
    ∀ data id t, data.length < 2 ^ 64 → NoBlobCollisions P opts (s.tried ++ [data]) →
      BlobStore.put P S data (s.disk, h) = .ok id t →
        id = P.blake3 data ∧ ∀ data' ∈ s.acked ++ [data], ReadsBack P t data' := by
  rcases blobInv_run hz hs hc with rfl | ⟨h', hh', hholds, -⟩
  · cases hh
  obtain rfl : h' = h := Option.some.inj (hh'.symm.trans hh)
  refine ⟨fun data hd => hholds.readsBack hc hd, ?_⟩
  intro data id t hlong hc' hrun
  obtain ⟨hid, hholds'⟩ := (hholds.put (S := S) hz hlong hc').2 id t hrun
  exact ⟨hid, fun data' hd => hholds'.readsBack hc' hd⟩

/-- Small chunks, and two entries to a node. -/
def smallBlobs : BlobOptions where
  chunks := ⟨2 ^ 30, 3, 64⟩
  cdc := ⟨64, 128, 256, by decide, by decide, by decide, by decide⟩
  fanout := 2
  fanout_ge := by decide

/-- A blob of three chunks, the first two the same, under two levels of nodes. -/
def evenBlob : Bytes := List.replicate 600 1

/-- A blob with a manifest, put and read back. -/
theorem blob_round_trip_even :
    ∃ s h, (blobStore .toy .stable smallBlobs).ReachableIf ReopensInRange s ∧ s.store = some h ∧
      h.isMultiChunk (Prims.toy.blake3 evenBlob) = true ∧ ReadsBack .toy (s.disk, h) evenBlob := by
  have hcheck : (((blobStore .toy .stable smallBlobs).runIf ReopensInRange
      (blobStore .toy .stable smallBlobs).init [.open, .put evenBlob]).bind fun s =>
        s.store.map fun h => decide (s.acked = [evenBlob] ∧ s.tried = [evenBlob] ∧
          h.isMultiChunk (Prims.toy.blake3 evenBlob) = true)) = some true := by
    decide +kernel
  rw [Option.bind_eq_some_iff] at hcheck
  obtain ⟨s, hrun, hcheck⟩ := hcheck
  rw [Option.map_eq_some_iff] at hcheck
  obtain ⟨h, hh, hcheck⟩ := hcheck
  obtain ⟨hacked, htried, hmulti⟩ := of_decide_eq_true hcheck
  have hreach := System.ReachableIf.runIf .init hrun
  have hdistinct : ∀ a ∈ putStrings .toy smallBlobs [evenBlob],
      ∀ b ∈ putStrings .toy smallBlobs [evenBlob], Prims.toy.blake3 a = Prims.toy.blake3 b → a = b := by
    decide +kernel
  have hc : NoBlobCollisions .toy smallBlobs s.tried := by
    rw [htried]
    exact fun a ha b hb heq => hdistinct a ha b hb heq
  refine ⟨s, h, hreach, hh, hmulti, (blob_round_trip Prims.toy_zstdLawful hreach hh hc).1 evenBlob ?_⟩
  rw [hacked]
  exact mem_singleton.mpr rfl

/-! ### The chunks of a blob -/

/-- A chunk is stored under its hash. -/
theorem putChunk_id {t' : BlobDisk × BlobStore} {id : ChunkId}
    (hrun : putChunk P S data t = .ok id t') : id = P.blake3 data ∧ t'.2.map = t.2.map := by
  obtain ⟨disk, h⟩ := t
  have hid : ∀ d h' id, ChunkStore.put P S disk.packs h.chunks data = (d, h', .ok id) →
      id = P.blake3 data := by
    intro d h' id hput
    rw [ChunkStore.put] at hput
    dsimp only at hput
    repeat' split at hput
    all_goals cases hput
    all_goals rfl
  rw [putChunk] at hrun
  split at hrun
  · cases hrun
  · rename_i hput
    cases hrun
    exact ⟨hid _ _ _ hput, rfl⟩

/-- **A chunk of a blob, put on its own**, gets no manifest: the blob's id is the chunk's. -/
theorem put_chunk {c : Bytes} (hc : c ∈ Cdc.chunks opts.cdc data) {t' : BlobDisk × BlobStore}
    {id : BlobId} (hopts : t.2.opts = opts) (hrun : BlobStore.put P S c t = .ok id t') :
    id = P.blake3 c ∧ t'.2.map = t.2.map := by
  obtain ⟨disk, h⟩ := t
  have hone : (Cdc.chunks h.opts.cdc c).length ≤ 1 := by
    simp only at hopts
    rw [hopts, Cdc.chunks_chunk data c hc, length_singleton]
  by_cases hthere : h.contains (P.blake3 c) = true
  · simp only [BlobStore.put, hthere, ↓reduceIte] at hrun
    cases hrun
    exact ⟨rfl, rfl⟩
  · simp only [BlobStore.put, hthere, hone, ↓reduceIte, Bool.false_eq_true] at hrun
    cases hput : putChunk P S c (disk, h) with
    | error e t₁ =>
      rw [run_bind_error hput] at hrun
      cases hrun
    | ok id₁ t₁ =>
      rw [run_bind_ok hput] at hrun
      cases hrun
      exact ⟨rfl, (putChunk_id hput).2⟩

/-- **The laws of chunking.** The chunks make up the input; none is empty or longer than the
    maximum, and none but the last is shorter than the minimum; a chunk is one chunk; the cuts
    before a position do not depend on what is `max` bytes behind the last of them; and a
    chunk is stored under its own hash, as part of a blob and as a blob. -/
theorem chunking_laws (P : Prims) (S : IdxSort) (p : Cdc.Params) (data : Bytes) :
    (Cdc.chunks p data).flatten = data ∧
    (∀ c ∈ Cdc.chunks p data, c ≠ [] ∧ c.length ≤ p.max) ∧
    (∀ c ∈ (Cdc.chunks p data).dropLast, p.min ≤ c.length) ∧
    (∀ c ∈ Cdc.chunks p data, Cdc.chunks p c = [c]) ∧
    (∀ n data', data.take ((Cdc.cutsBefore p data n).getLastD 0 + p.max)
        = data'.take ((Cdc.cutsBefore p data n).getLastD 0 + p.max) →
      Cdc.cutsBefore p data' n = Cdc.cutsBefore p data n) ∧
    ∀ c ∈ Cdc.chunks p data,
      (∀ t e t', putPiece P S c t = .ok e t' → e.id = P.blake3 c) ∧
      ∀ t id t', t.2.opts.cdc = p → BlobStore.put P S c t = .ok id t' →
        id = P.blake3 c ∧ t'.2.map = t.2.map := by
  refine ⟨Cdc.flatten_chunks p data, Cdc.chunk_bounds data, Cdc.chunk_min data,
    Cdc.chunks_chunk data, fun n data' h => Cdc.cutsBefore_congr h, fun c hc => ⟨?_, ?_⟩⟩
  · intro t e t' hrun
    cases hput : putChunk P S c t with
    | error e₁ t₁ =>
      rw [putPiece, run_bind_error hput] at hrun
      cases hrun
    | ok id₁ t₁ =>
      rw [putPiece, run_bind_ok hput] at hrun
      cases hrun
      exact (putChunk_id hput).1
  · rintro t id t' rfl hrun
    exact put_chunk hc rfl hrun

end Alt.Store
