import Alt.Store.Idx
import Mathlib.Data.List.Sort

namespace Alt.Store

open Alt.Library

/-!
# Chunk store (`alt-store/src/lib.rs`)

The directory of packs as one handle sees and changes it.  A directory is the list of its
packs, ascending by number; the last one is active.  `ChunkStore` is an open handle: the
mapped sealed packs, the active pack's cursor and entries, the id → location index and the
cache of delta bases.  Every operation takes the directory and the handle and returns both.
-/

/-- One pack file and the altidx file beside it, if there is one. -/
structure PackFile where
  seq : Nat
  data : Bytes
  idx : Option Bytes
  deriving DecidableEq

/-- The packs of a directory, ascending by number. -/
abbrev Dir := List PackFile

namespace Dir

/-- `list_pack_seqs`. -/
def seqs (d : Dir) : List Nat := d.map PackFile.seq

def find (d : Dir) (seq : Nat) : Option PackFile := List.find? (fun f => f.seq == seq) d

/-- Change the files of pack `seq`. -/
def modify (d : Dir) (seq : Nat) (g : PackFile → PackFile) : Dir :=
  d.map fun f => if f.seq = seq then g f else f

/-- A new pack file, put where its number belongs. -/
def create (d : Dir) (f : PackFile) : Dir :=
  d.takeWhile (fun f' => f'.seq < f.seq) ++ f :: d.dropWhile (fun f' => f'.seq < f.seq)

/-- Remove the packs with these numbers, and their idx files. -/
def remove (d : Dir) (old : List Nat) : Dir := d.filter fun f => f.seq ∉ old

end Dir

structure Options where
  /-- Roll to a fresh pack once the active one reaches this many bytes. -/
  sealThreshold : Nat
  zstdLevel : Int
  /-- Below this size compression cannot win; store raw. -/
  rawThreshold : Nat
  deriving DecidableEq

structure Location where
  seq : Nat
  offset : Nat
  deriving DecidableEq

structure Active where
  seq : Nat
  /-- The writer's cursor. -/
  len : Nat
  /-- Records of this pack, in file order: the idx at seal. -/
  entries : List (ChunkId × Nat)
  deriving DecidableEq

/-- Bounded, insertion-order cache of resolved delta bases, the oldest first. -/
structure DeltaCache where
  bases : List (ChunkId × Bytes)
  deriving DecidableEq

namespace DeltaCache

/-- Budget for the cached bytes. -/
def budget : Nat := 64 * 2 ^ 20

def new : DeltaCache := ⟨[]⟩

def get (c : DeltaCache) (id : ChunkId) : Option Bytes := c.bases.lookup id

def size (bases : List (ChunkId × Bytes)) : Nat := (bases.map fun e => e.2.length).sum

/-- Drop the oldest bases until the rest fits the budget. -/
def evict : List (ChunkId × Bytes) → List (ChunkId × Bytes)
  | [] => []
  | e :: bases => if budget < size (e :: bases) then evict bases else e :: bases

def put (c : DeltaCache) (id : ChunkId) (data : Bytes) : DeltaCache :=
  if (c.get id).isSome then c else ⟨evict (c.bases ++ [(id, data)])⟩

end DeltaCache

/-- What `load` reads from the directory. -/
structure PackState where
  /-- The mapped sealed packs. -/
  sealed : List (Nat × Bytes)
  active : Active
  index : FinMap ChunkId Location

/-- An open chunk store. -/
structure ChunkStore extends PackState where
  opts : Options
  cache : DeltaCache

/-- A point in time write cursor. -/
structure ChunkCheckpoint where
  packSeq : Nat
  packLen : Nat
  deriving DecidableEq

namespace ChunkStore

open Pack

/-- Write-side cap on lineage-delta chain length. -/
def maxDeltaDepth : Nat := 16

/-- `u32` pack numbers. -/
def nextSeq (seq : Nat) : Nat := (seq + 1) % 2 ^ 32

/-! ### Opening -/

/-- Open the active pack: check the header, scan, cut a torn tail.  Returns the bytes the
    file has then and its entries. -/
def openActive (data : Bytes) : Except StoreError (Bytes × List (ChunkId × Nat)) :=
  if data.length < headerLen then
    -- a crash between create and the header fsync leaves a prefix of the header
    if data.isPrefixOf fileHeader then .ok (fileHeader, [])
    else .error (.format "bad altpack header")
  else do
    let (recs, validLen) ← scan data
    return (setLen data validLen, recs.map fun p => (p.1.id, p.2))

/-- `open_active` with `create`: a file that exists already is opened. -/
def createActive (d : Dir) (seq : Nat) : Dir × Except StoreError Active :=
  match d.find seq with
  | none => (d.create ⟨seq, fileHeader, none⟩, .ok ⟨seq, headerLen, []⟩)
  | some f =>
    match openActive f.data with
    | .error e => (d, .error e)
    | .ok (data, entries) =>
      (d.modify seq fun f => { f with data := data }, .ok ⟨seq, data.length, entries⟩)

/-- The entries of a sealed pack: from its idx, or from a scan that repairs the idx. -/
def loadSealed (S : IdxSort) (f : PackFile) :
    Except StoreError (PackFile × List (ChunkId × Nat)) := do
  checkFileHeader f.data
  match Idx.read f.idx with
  | .ok entries => return (f, entries)
  | .error _ =>
    let (recs, validLen) ← scan f.data
    if validLen ≠ f.data.length then .error (.format "sealed pack truncated")
    else
      let entries := recs.map fun p => (p.1.id, p.2)
      return ({ f with idx := some (Idx.write S entries) }, entries)

/-- The entries of one pack as index bindings. -/
def located (seq : Nat) (entries : List (ChunkId × Nat)) : List (ChunkId × Location) :=
  entries.map fun e => (e.1, ⟨seq, e.2⟩)

/-- The sealed packs in order; an error leaves the idx files repaired so far. -/
def loadSealeds (S : IdxSort) : Dir → Dir × Except StoreError (List (ChunkId × Location))
  | [] => ([], .ok [])
  | f :: fs =>
    match loadSealed S f with
    | .error e => (f :: fs, .error e)
    | .ok (f', entries) =>
      let (fs', rest) := loadSealeds S fs
      (f' :: fs', rest.map (located f.seq entries ++ ·))

/-- Read the pack set from the directory: the highest pack is active. -/
def load (S : IdxSort) (d : Dir) : Dir × Except StoreError PackState :=
  match d.getLast? with
  | none =>
    let (d, active) := createActive d 1
    (d, active.map fun active => ⟨[], active, FinMap.empty⟩)
  | some last =>
    match loadSealeds S d.dropLast with
    | (rest, .error e) => (rest ++ [last], .error e)
    | (rest, .ok bindings) =>
      match openActive last.data with
      | .error e => (rest ++ [last], .error e)
      | .ok (data, entries) =>
        (rest ++ [{ last with data := data }],
          .ok ⟨rest.map fun f => (f.seq, f.data), ⟨last.seq, data.length, entries⟩,
            FinMap.ofEntries (bindings ++ located last.seq entries)⟩)

/-- `open_with`. -/
def openWith (S : IdxSort) (opts : Options) (d : Dir) : Dir × Except StoreError ChunkStore :=
  let (d, state) := load S d
  (d, state.map fun state => { state with opts := opts, cache := .new })

/-- Does the pack set or the active pack's length differ from what we hold? -/
def diskChanged (d : Dir) (h : ChunkStore) : Except StoreError Bool :=
  let known := (h.sealed.map Prod.fst ++ [h.active.seq]).insertionSort (· ≤ ·)
  if d.seqs ≠ known then .ok true
  else
    match d.find h.active.seq with
    | none => .error .io
    | some f => .ok (f.data.length ≠ h.active.len)

/-- Reload when the packs on disk changed. -/
def syncFromDisk (S : IdxSort) (d : Dir) (h : ChunkStore) :
    Dir × ChunkStore × Except StoreError Unit :=
  match diskChanged d h with
  | .error e => (d, h, .error e)
  | .ok false => (d, h, .ok ())
  | .ok true =>
    match load S d with
    | (d, .error e) => (d, h, .error e)
    | (d, .ok state) => (d, { h with toPackState := state }, .ok ())

/-! ### Reading records -/

/-- Read `n` bytes at `pos` of pack `seq`: of the active file, or of a mapped sealed one. -/
def readAt (d : Dir) (h : ChunkStore) (id : ChunkId) (seq n pos : Nat) :
    Except StoreError Bytes :=
  if seq = h.active.seq then
    match (d.find seq).bind fun f => readExactAt f.data n pos with
    | none => .error .io
    | some buf => .ok buf
  else
    match h.sealed.lookup seq with
    | none => .error (.format "unknown pack")
    | some map =>
      match readExactAt map n pos with
      | none => .error (.corrupt id "record out of bounds")
      | some buf => .ok buf

def readHeader (d : Dir) (h : ChunkStore) (id : ChunkId) (loc : Location) :
    Except StoreError RecordHeader :=
  (readAt d h id loc.seq recHeaderLen loc.offset).map RecordHeader.parse

/-- The base named by a delta record (its payload's first 32 bytes). -/
def readBaseId (d : Dir) (h : ChunkStore) (id : ChunkId) (loc : Location) :
    Except StoreError ChunkId :=
  (readAt d h id loc.seq 32 (loc.offset + recHeaderLen)).map (ByteArr.ofSlice 32)

def readRecord (d : Dir) (h : ChunkStore) (id : ChunkId) (loc : Location) :
    Except StoreError (RecordHeader × Bytes) := do
  let header ← readHeader d h id loc
  let payload ← readAt d h id loc.seq header.storedLen.toNat (loc.offset + recHeaderLen)
  return (header, payload)

/-- The base a chunk's record names, if it is a delta. -/
def deltaBase (d : Dir) (h : ChunkStore) (id : ChunkId) : Option ChunkId :=
  match h.index.get id with
  | none => none
  | some loc =>
    match readHeader d h id loc with
    | .error _ => none
    | .ok header =>
      if header.encoding = encDelta then (readBaseId d h id loc).toOption else none

/-- The index entry of a chunk. -/
def locate (h : ChunkStore) (id : ChunkId) : Except StoreError Location :=
  match h.index.get id with
  | none => .error (.notFound id)
  | some loc => .ok loc

/-! ### Resolving a chunk -/

/-- How much a chunk read re-hashes. -/
inductive Verify
  | none
  | boundary
  | deep
  deriving DecidableEq

/-- Whether to hash a layer; `isBoundary` holds for the requested id. -/
def Verify.hashAt (verify : Verify) (isBoundary : Bool) : Bool :=
  verify = .deep ∨ (verify = .boundary ∧ isBoundary)

def sized (id : ChunkId) (data : Bytes) (origLen : UInt32) : Except StoreError Bytes :=
  if data.length ≠ origLen.toNat then .error (.corrupt id "length mismatch") else .ok data

variable (P : Prims)

def checkHash (id : ChunkId) (data : Bytes) : Except StoreError Unit :=
  if P.blake3 data ≠ id then .error (.corrupt id "hash mismatch") else .ok ()

/-- Hash a layer if the verification level asks for it. -/
def checkLayer (verify : Verify) (isBoundary : Bool) (id : ChunkId) (data : Bytes) :
    Except StoreError Unit :=
  if verify.hashAt isBoundary then checkHash P id data else .ok ()

/-- The bytes of a full record. -/
def decodeFull (id : ChunkId) (header : RecordHeader) (payload : Bytes) :
    Except StoreError Bytes :=
  if header.encoding = encRaw then sized id payload header.origLen
  else
    match P.decodeAll payload with
    | none => .error (.corrupt id "zstd decode failed")
    | some raw => sized id raw header.origLen

/-- A delta record on the way down: its id, its original length and its zstd frame. -/
abbrev Frame := ChunkId × UInt32 × Bytes

/-- Collect delta frames until a full record or a cached base.  Every frame is an indexed
    chunk not met before, so the number of indexed chunks bounds the descent. -/
def descend (d : Dir) (h : ChunkStore) (verify : Verify) :
    Nat → List Frame → ChunkId → Except StoreError (List Frame × ChunkId × Bytes)
  | 0, _, cur => .error (.corrupt cur "delta chain cycle")
  | fuel + 1, frames, cur =>
    match (if verify ≠ .deep ∧ frames ≠ [] then h.cache.get cur else none) with
    | some hit => .ok (frames, cur, hit)
    | none =>
      if frames.any (fun f => f.1 == cur) then .error (.corrupt cur "delta chain cycle")
      else do
        let loc ← locate h cur
        let (header, payload) ← readRecord d h cur loc
        if header.id ≠ cur then .error (.corrupt cur "record id mismatch")
        else if header.encoding = encRaw ∨ header.encoding = encZstd then do
          let data ← decodeFull P cur header payload
          checkLayer P verify frames.isEmpty cur data
          return (frames, cur, data)
        else if header.encoding = encDelta then
          if payload.length < 32 then .error (.corrupt cur "delta payload too short")
          else
            descend d h verify fuel ((cur, header.origLen, payload.drop 32) :: frames)
              (.ofSlice 32 (payload.take 32))
        else .error (.format "reserved record encoding")

/-- Apply the frames, the innermost first, keeping every base in the cache. -/
def unwind (verify : Verify) :
    List Frame → ChunkId → Bytes → DeltaCache → Except StoreError Bytes × DeltaCache
  | [], _, data, cache => (.ok data, cache)
  | (fid, origLen, z) :: frames, baseId, data, cache =>
    match P.decompressWithBase z data origLen.toNat with
    | none => (.error (.corrupt fid "delta decode failed"), cache)
    | some out =>
      match sized fid out origLen with
      | .error e => (.error e, cache)
      | .ok out =>
        match checkLayer P verify frames.isEmpty fid out with
        | .error e => (.error e, cache)
        | .ok () => unwind verify frames fid out (cache.put baseId data)

/-- Read a chunk, resolving its delta chain; the cache may change. -/
def resolve (d : Dir) (h : ChunkStore) (id : ChunkId) (verify : Verify) :
    Except StoreError Bytes × DeltaCache :=
  match descend P d h verify (h.index.entries.length + 1) [] id with
  | .error e => (.error e, h.cache)
  | .ok (frames, cur, data) => unwind P verify frames cur data h.cache

def get (d : Dir) (h : ChunkStore) (id : ChunkId) : Except StoreError Bytes × DeltaCache :=
  resolve P d h id .boundary

/-! ### Writing -/

variable (S : IdxSort)

/-- Write the active pack's idx and start a fresh pack. -/
def sealAndRoll (d : Dir) (h : ChunkStore) : Dir × ChunkStore × Except StoreError Unit :=
  let d := d.modify h.active.seq fun f => { f with idx := some (Idx.write S h.active.entries) }
  match d.find h.active.seq with
  | none => (d, h, .error .io)
  | some f =>
    let h := { h with sealed := h.sealed.filter (fun p => p.1 ≠ f.seq) ++ [(f.seq, f.data)] }
    match createActive d (nextSeq h.active.seq) with
    | (d, .error e) => (d, h, .error e)
    | (d, .ok active) => (d, { h with active := active }, .ok ())

/-- Append one record and point the index at it; a re-encode supersedes the previous
    location. -/
def appendRecord (d : Dir) (h : ChunkStore) (header : RecordHeader) (payload : Bytes) :
    Dir × ChunkStore × Except StoreError Unit :=
  let offset := h.active.len
  let d := d.modify h.active.seq fun f =>
    { f with data := writeAt f.data offset (header.encode ++ payload) }
  let h := { h with
    active := { h.active with
      len := offset + recHeaderLen + payload.length
      entries := h.active.entries ++ [(header.id, offset)] }
    index := h.index.insert header.id ⟨h.active.seq, offset⟩ }
  if h.opts.sealThreshold ≤ h.active.len then sealAndRoll S d h else (d, h, .ok ())

/-- The encoding and payload a plain chunk is stored with. -/
def encodePlain (opts : Options) (data : Bytes) : Except StoreError (UInt8 × Bytes) :=
  if data.length < opts.rawThreshold then .ok (encRaw, data)
  else
    match P.encodeAll data opts.zstdLevel with
    | none => .error .io
    | some z => .ok (if z.length < data.length then (encZstd, z) else (encRaw, data))

/-- Store `data`; a chunk already present is not written again. -/
def put (d : Dir) (h : ChunkStore) (data : Bytes) : Dir × ChunkStore × Except StoreError ChunkId :=
  let id := P.blake3 data
  if h.index.containsKey id then (d, h, .ok id)
  else if 2 ^ 32 ≤ data.length then (d, h, .error (.tooLarge data.length))
  else
    match encodePlain P h.opts data with
    | .error e => (d, h, .error e)
    | .ok (encoding, payload) =>
      let header := ⟨id, encoding, .ofNat data.length, .ofNat payload.length⟩
      match appendRecord S d h header payload with
      | (d, h, .error e) => (d, h, .error e)
      | (d, h, .ok ()) => (d, h, .ok id)

/-- Walk a base's chain: may `id` become a delta against it?  Depth cap and cycle guard in
    one pass; `left` counts the hops the cap still allows. -/
def walkBase (d : Dir) (h : ChunkStore) (id : ChunkId) (left : Nat) (node : ChunkId) :
    Except StoreError Bool :=
  if node = id then .ok false -- would close a loop through id
  else do
    let loc ← locate h node
    let header ← readHeader d h node loc
    if header.encoding ≠ encDelta then .ok true
    else
      match left with
      | 0 => .ok false
      | left + 1 => do
        let base ← readBaseId d h node loc
        walkBase d h id left base

/-- May `id` be re-encoded against `base`?  Its present header, if so. -/
def checkReencode (d : Dir) (h : ChunkStore) (id base : ChunkId) :
    Except StoreError (Option RecordHeader) :=
  if id = base then .ok none
  else do
    let idLoc ← locate h id
    let _ ← locate h base
    let current ← readHeader d h id idLoc
    if current.encoding = encDelta then .ok none
    else do
      let free ← walkBase d h id (maxDeltaDepth - 1) base
      return if free then some current else none

/-- Re-encode an existing chunk as a lineage delta against `base`; `false`, and nothing
    written, when the delta does not win. -/
def reencodeAsDelta (d : Dir) (h : ChunkStore) (id base : ChunkId) :
    Dir × ChunkStore × Except StoreError Bool :=
  match checkReencode d h id base with
  | .error e => (d, h, .error e)
  | .ok none => (d, h, .ok false)
  | .ok (some current) =>
    match get P d h id with
    | (.error e, cache) => (d, { h with cache := cache }, .error e)
    | (.ok data, cache) =>
      let h := { h with cache := cache }
      match get P d h base with
      | (.error e, cache) => (d, { h with cache := cache }, .error e)
      | (.ok baseData, cache) =>
        let h := { h with cache := cache }
        match P.compressWithBase data baseData h.opts.zstdLevel with
        | none => (d, h, .ok false)
        | some z =>
          let stored := 32 + z.length
          if current.storedLen.toNat ≤ stored then (d, h, .ok false) -- the delta must win
          else
            let header := ⟨id, encDelta, current.origLen, .ofNat stored⟩
            match appendRecord S d h header (base.val ++ z) with
            | (d, h, .error e) => (d, h, .error e)
            | (d, h, .ok ()) => (d, h, .ok true)

/-- The index entries in ascending (seq, offset) order. -/
def live (h : ChunkStore) : List (ChunkId × Location) :=
  h.index.entries.insertionSort fun a b =>
    a.2.seq < b.2.seq ∨ (a.2.seq = b.2.seq ∧ a.2.offset ≤ b.2.offset)

/-- Copy live records one behind the other: the bytes, and where each record starts. -/
def copyLive (d : Dir) (h : ChunkStore) :
    List (ChunkId × Location) → Nat → Except StoreError (Bytes × List (ChunkId × Nat))
  | [], _ => .ok ([], [])
  | (id, loc) :: rest, offset => do
    let (header, payload) ← readRecord d h id loc
    let (bytes, entries) ← copyLive d h rest (offset + recHeaderLen + payload.length)
    return (header.encode ++ payload ++ bytes, (id, offset) :: entries)

/-- Rewrite every live record into one fresh pack and drop the old packs. -/
def compact (d : Dir) (h : ChunkStore) : Dir × ChunkStore × Except StoreError Unit :=
  let oldSeqs := d.seqs
  let compSeq := nextSeq (oldSeqs.foldl max 0)
  match copyLive d h (live h) headerLen with
  | .error e => (d, h, .error e)
  | .ok (bytes, entries) =>
    let data := fileHeader ++ bytes
    let d := d.create ⟨compSeq, data, some (Idx.write S entries)⟩
    match createActive d (nextSeq compSeq) with
    | (d, .error e) => (d, h, .error e)
    | (d, .ok active) =>
      let d := d.remove oldSeqs
      (d, { h with
        sealed := [(compSeq, data)]
        active := active
        index := FinMap.ofEntries (located compSeq entries) }, .ok ())

/-! ### Checkpoint and rewind -/

def checkpoint (h : ChunkStore) : ChunkCheckpoint := ⟨h.active.seq, h.active.len⟩

/-- Cut the active pack back to the checkpoint and reload. -/
def rewind (d : Dir) (h : ChunkStore) (ckpt : ChunkCheckpoint) :
    Dir × ChunkStore × Except StoreError Unit :=
  if ckpt.packSeq ≠ h.active.seq then
    (d, h, .error (.format "chunk store rolled between checkpoint and rewind"))
  else if h.active.len < ckpt.packLen then
    (d, h, .error (.format "chunk rewind target above active cursor"))
  else if ckpt.packLen < headerLen then
    (d, h, .error (.format "chunk rewind target below header"))
  else
    let d := d.modify h.active.seq fun f => { f with data := setLen f.data ckpt.packLen }
    match load S d with
    | (d, .error e) => (d, h, .error e)
    | (d, .ok state) => (d, { h with toPackState := state, cache := .new }, .ok ())

end ChunkStore

end Alt.Store
