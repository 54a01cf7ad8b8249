import Alt.Store.ChunkStore

namespace Alt.Store

open Alt.Library List

/-!
# What a pack directory holds, and what opening it reads

`PackSet` is the record-level view of a pack directory: the records of every sealed pack,
whether its altidx file is there, and the records of the active pack.  `load_dir` says what
opening the directory reads from it.
-/

/-- A sealed pack: its records, a file length that is a file length, and whether its altidx
    file is there. -/
structure SealedPack where
  seq : Nat
  recs : List PackRecord
  indexed : Bool
  size_lt : (Pack.packBytes recs).length < 2 ^ 64

/-- The records of a pack directory, the packs ascending by number. -/
structure PackSet where
  sealed : List SealedPack
  activeSeq : Nat
  active : List PackRecord
  ordered : (sealed.map SealedPack.seq ++ [activeSeq]).Pairwise (· < ·)

open Pack ChunkStore

namespace SealedPack

variable (S : IdxSort)

def file (p : SealedPack) : PackFile :=
  ⟨p.seq, packBytes p.recs, if p.indexed then some (Idx.write S (entries p.recs)) else none⟩

/-- The entries a loader gets for the pack. -/
def loaded (p : SealedPack) : List (ChunkId × Nat) :=
  if p.indexed then S.sort (entries p.recs) else entries p.recs

theorem length_entries (recs : List PackRecord) :
    (entries recs).length ≤ (packBytes recs).length := by
  have hle := (reads_body headerLen recs).length_le
  rw [length_map] at hle
  rw [entries, length_map, length_packBytes]
  omega

theorem entries_lt (recs : List PackRecord) :
    ∀ e ∈ entries recs, e.2 < (packBytes recs).length := by
  intro e he
  obtain ⟨⟨r, off⟩, hplace, rfl⟩ := mem_map.mp he
  obtain ⟨pre, post, rfl, rfl⟩ := mem_place hplace
  have := r.size_pos
  rw [length_packBytes, body_append, body_cons, length_append, length_append,
    PackRecord.length_bytes]
  omega

theorem read_idx (p : SealedPack) :
    Idx.read (some (Idx.write S (entries p.recs))) = .ok (S.sort (entries p.recs)) := by
  have hsize := p.size_lt
  apply Idx.read_write
  · intro e he
    have := entries_lt p.recs e he
    omega
  · have := length_entries p.recs
    omega

theorem scan_file (recs : List PackRecord) :
    scan (packBytes recs)
      = .ok ((place headerLen recs).map (fun p => (p.1.header, p.2)), (packBytes recs).length) := by
  have hstop : Pack.nextRecord (packBytes recs).length [] = .stop :=
    nextRecord_short (by simp [recHeaderLen])
  simpa using scan_packBytes recs hstop

/-- Loading a sealed pack leaves its altidx in place and gives its entries. -/
theorem loadSealed_file (p : SealedPack) :
    loadSealed S (p.file S) = .ok ({ p with indexed := true }.file S, p.loaded S) := by
  have hheader : checkFileHeader (packBytes p.recs) = .ok () := checkFileHeader_fileHeader _
  have hentries : ((place headerLen p.recs).map (fun q => (q.1.header, q.2))).map
      (fun q => (q.1.id, q.2)) = entries p.recs := by
    rw [map_map]
    rfl
  unfold loadSealed
  by_cases hidx : p.indexed = true
  · simp only [file, loaded, hidx, if_true, hheader, read_idx]
    rfl
  · have hread : Idx.read none = .error .io := rfl
    simp only [file, loaded, hidx, Bool.false_eq_true, if_false, if_true, hheader, hread, scan_file]
    show (if _ ≠ _ then _ else Except.ok _) = _
    rw [if_neg (fun h => h rfl), hentries]

end SealedPack

namespace PackSet

variable (S : IdxSort)

def dir (c : PackSet) : Dir :=
  c.sealed.map (SealedPack.file S) ++ [⟨c.activeSeq, packBytes c.active, none⟩]

/-- The directory after every missing altidx was rebuilt. -/
def reindexed (c : PackSet) : PackSet :=
  { c with
    sealed := c.sealed.map fun p => { p with indexed := true }
    ordered := by simpa [Function.comp_def] using c.ordered }

/-- The bindings a loader inserts into its index, in order. -/
def bindings (c : PackSet) : List (ChunkId × Location) :=
  c.sealed.flatMap (fun p => located p.seq (p.loaded S))
    ++ located c.activeSeq (entries c.active)

theorem lastOf_located (seq : Nat) (es : List (ChunkId × Nat)) (id : ChunkId) :
    lastOf (located seq es) id = (lastOf es id).map (Location.mk seq) :=
  lastOf_map_snd (Location.mk seq) es id

/-- The bindings of the records themselves: what a scan of every pack finds. -/
def scanned (c : PackSet) : List (ChunkId × Location) :=
  c.sealed.flatMap (fun p => located p.seq (entries p.recs))
    ++ located c.activeSeq (entries c.active)

/-- A loader's index is the scanned one where every altidx it reads agrees with its pack. -/
theorem lastOf_bindings (S : IdxSort) (c : PackSet)
    (h : ∀ p ∈ c.sealed, ∀ id, lastOf (p.loaded S) id = lastOf (entries p.recs) id)
    (id : ChunkId) : lastOf (c.bindings S) id = lastOf c.scanned id := by
  have hsealed : ∀ ps : List SealedPack, (∀ p ∈ ps, p ∈ c.sealed) →
      lastOf (ps.flatMap fun p => located p.seq (p.loaded S)) id
        = lastOf (ps.flatMap fun p => located p.seq (entries p.recs)) id := by
    intro ps hps
    induction ps with
    | nil => rfl
    | cons p ps ih =>
      have hp := h p (hps p mem_cons_self) id
      have htail := ih fun q hq => hps q (mem_cons_of_mem p hq)
      simp only [flatMap_cons, lastOf_append, lastOf_located, hp]
      rw [htail]
  simp only [bindings, scanned, lastOf_append]
  rw [hsealed c.sealed fun p hp => hp]

/-- What a loader holds in memory. -/
def state (c : PackSet) : PackState where
  sealed := c.sealed.map fun p => (p.seq, packBytes p.recs)
  active := ⟨c.activeSeq, (packBytes c.active).length, entries c.active⟩
  index := FinMap.ofEntries (c.bindings S)

theorem loadSealeds_files (ps : List SealedPack) :
    loadSealeds S (ps.map (SealedPack.file S))
      = ((ps.map fun p => { p with indexed := true }).map (SealedPack.file S),
          .ok (ps.flatMap fun p => located p.seq (p.loaded S))) := by
  induction ps with
  | nil => rfl
  | cons p ps ih =>
    simp only [map_cons, loadSealeds, SealedPack.loadSealed_file, ih]
    rfl

/-- Opening the active pack keeps its records and cuts an incomplete one away. -/
theorem openActive_packBytes (recs : List PackRecord) {torn : Bytes}
    (h : Pack.nextRecord (packBytes recs).length torn = .stop) :
    openActive (packBytes recs ++ torn) = .ok (packBytes recs, entries recs) := by
  have hlen : ¬ (packBytes recs ++ torn).length < headerLen := by
    rw [length_append, length_packBytes]
    omega
  have hcut : setLen (packBytes recs ++ torn) (packBytes recs).length = packBytes recs :=
    setLen_append _ _
  rw [openActive, if_neg hlen, scan_packBytes recs h]
  show Except.ok (setLen _ _, List.map _ (List.map _ _)) = _
  rw [hcut, map_map]
  rfl

/-- **What opening a directory reads.** An incomplete record at the end of the active pack
    is cut away; missing altidx files are rebuilt. -/
theorem load_dir (c : PackSet) {torn : Bytes}
    (h : Pack.nextRecord (packBytes c.active).length torn = .stop) :
    load S (c.sealed.map (SealedPack.file S) ++ [⟨c.activeSeq, packBytes c.active ++ torn, none⟩])
      = (c.reindexed.dir S, .ok (c.state S)) := by
  unfold load
  rw [getLast?_concat]
  simp only [dropLast_concat, loadSealeds_files, openActive_packBytes c.active h]
  simp [dir, reindexed, state, bindings, SealedPack.file, Function.comp_def]

theorem load_dir_clean (c : PackSet) : load S (c.dir S) = (c.reindexed.dir S, .ok (c.state S)) := by
  have hstop : Pack.nextRecord (packBytes c.active).length [] = .stop :=
    nextRecord_short (by simp [recHeaderLen])
  have := load_dir S c hstop
  rwa [append_nil] at this

theorem openWith_dir (opts : Options) (c : PackSet) :
    openWith S opts (c.dir S)
      = (c.reindexed.dir S, .ok { c.state S with opts := opts, cache := .new }) := by
  rw [openWith, load_dir_clean]
  rfl

end PackSet

end Alt.Store
