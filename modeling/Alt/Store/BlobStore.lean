import Alt.Cdc.Chunks
import Alt.Library.Prog
import Alt.Store.BlobMap
import Alt.Store.ChunkBulk
import Alt.Store.Manifest
import Mathlib

namespace Alt.Store

open Alt.Library

/-!
# Blob store (`alt-store/src/blob.rs`)

A byte stream is cut into chunks, each stored once; the chunk sequence of a blob of more than
one is recorded in a tree of manifest nodes, and the blob map binds its id to the root.  A
blob of one chunk is that chunk.

Programs run on the directory and an open handle (`BlobProg`); a read may change the
handle's cache of delta bases.
-/

structure BlobOptions where
  chunks : Options
  cdc : Cdc.Params
  /-- Max entries per manifest node. -/
  fanout : Nat
  fanout_ge : 2 ≤ fanout

/-- The directory of a blob store: the packs, and `manifests/blobmap` if it is there. -/
structure BlobDisk where
  packs : Dir
  blobMap : Option Bytes
  deriving DecidableEq

/-- An open blob store. -/
structure BlobStore where
  chunks : ChunkStore
  map : BlobMap
  opts : BlobOptions

abbrev BlobProg := EStateM StoreError (BlobDisk × BlobStore)

/-- How the blob assembler reads each chunk. -/
inductive ChunkRead
  /-- unhashed, the blob is hashed -/
  | fast
  /-- every layer hashed (fsck) -/
  | deep
  /-- no hashing at all -/
  | bulk
  deriving DecidableEq

/-- A list cut into groups of `n`, the last one shorter. -/
def groupsOf {α : Type} (n : Nat) : Nat → List α → List (List α)
  | 0, _ => []
  | _ + 1, [] => []
  | fuel + 1, x :: xs => (x :: xs).take n :: groupsOf n fuel ((x :: xs).drop n)

namespace BlobStore

variable (P : Prims) (S : IdxSort)

/-- `open_with`: the chunks, then the map. -/
def openWith (opts : BlobOptions) (disk : BlobDisk) : BlobDisk × Except StoreError BlobStore :=
  match ChunkStore.openWith S opts.chunks disk.packs with
  | (packs, .error e) => ({ disk with packs }, .error e)
  | (packs, .ok chunks) =>
    match (BlobMap.format P).openLog BlobMap.indexing disk.blobMap with
    | .error e => ({ disk with packs }, .error e)
    | .ok (file, map) => (⟨packs, some file⟩, .ok ⟨chunks, map, opts⟩)

def contains (h : BlobStore) (id : BlobId) : Bool :=
  (h.map.index id).isSome || h.chunks.index.containsKey id

/-- Whether a blob has a manifest. -/
def isMultiChunk (h : BlobStore) (id : BlobId) : Bool := (h.map.index id).isSome

/-- `sync_from_disk`: the chunks, then the map. -/
def syncFromDisk : BlobProg Unit := fun (disk, h) =>
  match ChunkStore.syncFromDisk S disk.packs h.chunks with
  | (packs, chunks, .error e) => .error e ({ disk with packs }, { h with chunks })
  | (packs, chunks, .ok ()) =>
    match (BlobMap.format P).syncFromDisk BlobMap.indexing (disk.blobMap.getD []) h.map with
    | (file, map, some e) => .error e (⟨packs, some file⟩, ⟨chunks, map, h.opts⟩)
    | (file, map, none) => .ok () (⟨packs, some file⟩, ⟨chunks, map, h.opts⟩)

/-! ### Writing -/

def putChunk (data : Bytes) : BlobProg ChunkId := fun (disk, h) =>
  match ChunkStore.put P S disk.packs h.chunks data with
  | (packs, chunks, .error e) => .error e ({ disk with packs }, { h with chunks })
  | (packs, chunks, .ok id) => .ok id ({ disk with packs }, { h with chunks })

def appendRoot (r : BlobMapRecord) : BlobProg Unit := fun (disk, h) =>
  let (file, map) := (BlobMap.format P).append BlobMap.indexing (disk.blobMap.getD []) h.map r
  .ok () ({ disk with blobMap := some file }, { h with map })

/-- One data chunk of a blob, as an entry. -/
def putPiece (piece : Bytes) : BlobProg NodeEntry := do
  let id ← putChunk P S piece
  return ⟨id, .ofNat piece.length⟩

/-- One manifest node over a group of entries, as an entry of the level above. -/
def putNode (depth : Nat) (group : List NodeEntry) : BlobProg NodeEntry := do
  let id ← putChunk P S (Manifest.encodeNode depth group)
  return ⟨id, (group.map NodeEntry.span).sum⟩

/-- Nodes over nodes until one is left.  A level has fewer entries than the one below. -/
def growTree (fanout : Nat) : Nat → Nat → List NodeEntry → BlobProg (List NodeEntry)
  | 0, _, level => return level
  | fuel + 1, depth, level =>
    if level.length ≤ 1 then return level
    else do
      let next ← (groupsOf fanout level.length level).mapM (putNode P S depth)
      if depth = 255 then throw (.format "manifest tree too deep")
      else growTree fanout fuel (depth + 1) next

/-- The chunks and manifest nodes of a blob, and its record in the map. -/
def putPieces (opts : BlobOptions) (id : BlobId) (data : Bytes) (pieces : List Bytes) :
    BlobProg BlobId := do
  let leaves ← pieces.mapM (putPiece P S)
  let level ← growTree P S opts.fanout leaves.length 0 leaves
  match level with
  | [] => throw (.format "no manifest root") -- `level[0]`: never empty
  | root :: _ => do
    appendRoot P ⟨id, root.id, .ofNat data.length⟩
    return id

/-- Store a byte stream; one already stored is not written again. -/
def put (data : Bytes) : BlobProg BlobId := fun (disk, h) =>
  let id := P.blake3 data
  if h.contains id then .ok id (disk, h)
  else
    let pieces := Cdc.chunks h.opts.cdc data
    if pieces.length ≤ 1 then (do let _ ← putChunk P S data; return id) (disk, h)
    else putPieces P S h.opts id data pieces (disk, h)

/-! ### Reading -/

/-- A chunk read, which may cache bases. -/
def cached (read : Dir → ChunkStore → Except StoreError Bytes × DeltaCache) : BlobProg Bytes :=
  fun (disk, h) =>
    let (result, cache) := read disk.packs h.chunks
    let h := { h with chunks := { h.chunks with cache } }
    match result with
    | .error e => .error e (disk, h)
    | .ok data => .ok data (disk, h)

def readChunk (mode : ChunkRead) (id : ChunkId) : BlobProg Bytes :=
  cached fun d h =>
    match mode with
    | .deep => ChunkStore.resolve P d h id .deep
    | .fast => ChunkStore.resolve P d h id .none
    | .bulk => ChunkStore.decodeChunkUnverified P d h id

def readPiece (mode : ChunkRead) (e : NodeEntry) : BlobProg Bytes := do
  let piece ← readChunk P mode e.id
  if piece.length ≠ e.span.toNat then throw (.corrupt e.id "manifest span mismatch")
  else return piece

/-- The node an entry names, which must be at `level`, and the bytes below it. -/
def readNode (mode : ChunkRead) (below : List NodeEntry → BlobProg Bytes) (level : Nat)
    (e : NodeEntry) : BlobProg Bytes := do
  let bytes ← readChunk P mode e.id
  let (level', entries) ← fromExcept (Manifest.parseNode bytes)
  if level' ≠ level then throw (.format "manifest level mismatch")
  else below entries

/-- The bytes below the entries of a node at `level`. -/
def walkEntries (mode : ChunkRead) : Nat → List NodeEntry → BlobProg Bytes
  | 0, entries => do
    let pieces ← entries.mapM (readPiece P mode)
    return pieces.flatten
  | level + 1, entries => do
    let pieces ← entries.mapM (readNode P mode (walkEntries mode level) level)
    return pieces.flatten

/-- The bytes below a node. -/
def walk (mode : ChunkRead) (root : ChunkId) : BlobProg Bytes := do
  let bytes ← readChunk P mode root
  let (level, entries) ← fromExcept (Manifest.parseNode bytes)
  walkEntries P mode level entries

/-- A blob without a manifest: the chunk under the same hash. -/
def readSingle (mode : ChunkRead) (id : BlobId) : BlobProg Bytes := fun s =>
  let read : BlobProg Bytes :=
    match mode with
    | .deep => do
      let _ ← cached fun d h => ChunkStore.resolve P d h id .deep
      return []
    | .fast => cached fun d h => ChunkStore.get P d h id
    | .bulk => cached fun d h => ChunkStore.decodeChunkUnverified P d h id
  match read s with
  | .error (.notFound _) s => .error (.blobNotFound id) s
  | result => result

/-- A blob with a manifest: the tree, and the checks at its boundary. -/
def readTree (mode : ChunkRead) (hashBoundary : Bool) (id : BlobId) (root : ChunkId)
    (totalLen : UInt64) : BlobProg Bytes := do
  let out ← walk P mode root
  if out.length ≠ totalLen.toNat then throw (.corrupt root "manifest span mismatch")
  else if hashBoundary && P.blake3 out ≠ id then throw (.corrupt root "blob hash mismatch")
  else return out

def materialize (id : BlobId) (mode : ChunkRead) (hashBoundary : Bool) : BlobProg Bytes :=
  fun (disk, h) =>
    match h.map.index id with
    | none => readSingle P mode id (disk, h)
    | some (root, totalLen) => readTree P mode hashBoundary id root totalLen (disk, h)

def get (id : BlobId) : BlobProg Bytes := materialize P id .fast true

/-- Deep scrub of a blob. -/
def verify (id : BlobId) : BlobProg Unit := do
  let _ ← materialize P id .deep true
  return ()

def getUnverified (id : BlobId) : BlobProg Bytes := materialize P id .bulk false

/-! ### The leaves of a blob -/

/-- The node an entry names, which must be at `level`, and the leaves below it. -/
def leafNode (below : List NodeEntry → BlobProg (List ChunkId)) (level : Nat) (e : NodeEntry) :
    BlobProg (List ChunkId) := do
  let bytes ← readChunk P .fast e.id
  let (level', entries) ← fromExcept (Manifest.parseNode bytes)
  if level' ≠ level then throw (.format "manifest level mismatch")
  else below entries

/-- The leaves below the entries of a node at `level`. -/
def collectLeaves : Nat → List NodeEntry → BlobProg (List ChunkId)
  | 0, entries => return entries.map NodeEntry.id
  | level + 1, entries => do
    let leaves ← entries.mapM (leafNode P (collectLeaves level) level)
    return leaves.flatten

/-- The leaves below a node. -/
def leavesBelow (root : ChunkId) : BlobProg (List ChunkId) := do
  let bytes ← readChunk P .fast root
  let (level, entries) ← fromExcept (Manifest.parseNode bytes)
  collectLeaves P level entries

/-- The leaf chunks of a blob in stream order; a blob without a manifest is its own leaf. -/
def leafChunks (id : BlobId) : BlobProg (List ChunkId) := fun (disk, h) =>
  match h.map.index id with
  | none => .ok [id] (disk, h)
  | some (root, _) => leavesBelow P root (disk, h)

end BlobStore

end Alt.Store
