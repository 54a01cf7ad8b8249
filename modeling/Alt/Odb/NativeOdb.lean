import Alt.Odb.ObjectMap
import Alt.Odb.Tier1Map
import Alt.Odb.Tier1Record
import Alt.Prism.Registry
import Alt.Store.BlobStore

namespace Alt.Odb

open Alt.Library Alt.Store

/-!
# The native object database (`alt-odb/src/lib.rs`)

The payload of a git object is a blob of the store; the object map binds its git id to the
blob's id, kind and size.  A payload a prism accepts is stored as its parts and a record
instead (Tier 1), and the Tier 1 map binds the blob's id to the record's.

Programs run on the directory and an open handle (`OdbProg`).
-/

/-- The `.alt` directory: `store/`, `map.alt` and the Tier 1 map. -/
structure OdbDisk where
  blobs : BlobDisk
  map : Option Bytes
  tier1 : Option Bytes
  deriving DecidableEq

/-- Nothing there yet. -/
def OdbDisk.fresh : OdbDisk := ⟨⟨[], none⟩, none, none⟩

/-- An open object database.  `held`: this batch owns the write lock. -/
structure NativeOdb where
  blobs : BlobStore
  map : ObjectMap
  tier1 : Tier1Map
  registry : Registry
  held : Bool

abbrev OdbProg := EStateM OdbError (OdbDisk × NativeOdb)

/-- A git object as it is read back. -/
structure RawObject where
  kind : ObjectKind
  data : Bytes
  deriving DecidableEq

namespace ObjectMap

/-- The entry of a git id. -/
def Index.find (m : Index) (oid : ObjectId) : Option MapEntry :=
  (m.byGit oid).bind fun slot => m.entries[slot]?

end ObjectMap

namespace NativeOdb

variable (P : Prims) (S : IdxSort)

/-- `open_with`: blobs, object map, Tier 1 map. -/
def openWith (X : Prisms) (opts : BlobOptions) (disk : OdbDisk) :
    OdbDisk × Except OdbError NativeOdb :=
  match BlobStore.openWith P S opts disk.blobs with
  | (blobs, .error e) => ({ disk with blobs }, .error (.store e))
  | (blobs, .ok store) =>
    match (ObjectMap.format P).openLog ObjectMap.indexing disk.map with
    | .error e => ({ disk with blobs }, .error e)
    | .ok (mapFile, map) =>
      match (Tier1Map.format P).openLog Tier1Map.indexing disk.tier1 with
      | .error e => (⟨blobs, some mapFile, disk.tier1⟩, .error (.store e))
      | .ok (tier1File, tier1) =>
        (⟨blobs, some mapFile, some tier1File⟩, .ok ⟨store, map, tier1, defaultRegistry X, false⟩)

/-- A program of the blob store. -/
def withBlobs {α : Type} (m : BlobProg α) : OdbProg α := fun (disk, h) =>
  match m (disk.blobs, h.blobs) with
  | .ok a (blobs, store) => .ok a ({ disk with blobs }, { h with blobs := store })
  | .error e (blobs, store) => .error (.store e) ({ disk with blobs }, { h with blobs := store })

/-! ### The write lock -/

def syncMap : OdbProg Unit := fun (disk, h) =>
  match (ObjectMap.format P).syncFromDisk ObjectMap.indexing (disk.map.getD []) h.map with
  | (file, map, some e) => .error e ({ disk with map := some file }, { h with map })
  | (file, map, none) => .ok () ({ disk with map := some file }, { h with map })

/-- Take the write lock, if this batch does not hold it, and catch up on other writers. -/
def acquire : OdbProg Unit := fun (disk, h) =>
  if h.held then .ok () (disk, h)
  else (do withBlobs (BlobStore.syncFromDisk P S); syncMap P) (disk, { h with held := true })

def release (h : NativeOdb) : NativeOdb := { h with held := false }

/-- The end of a batch. -/
def flush : OdbProg Unit := fun (disk, h) => .ok () (disk, h.release)

/-! ### Writing -/

def appendTier1 (r : Tier1Entry) : OdbProg Unit := fun (disk, h) =>
  let (file, tier1) := (Tier1Map.format P).append Tier1Map.indexing (disk.tier1.getD []) h.tier1 r
  .ok () ({ disk with tier1 := some file }, { h with tier1 })

def appendEntry (e : MapEntry) : OdbProg Unit := fun (disk, h) =>
  let (file, map) := (ObjectMap.format P).append ObjectMap.indexing (disk.map.getD []) h.map e
  .ok () ({ disk with map := some file }, { h with map })

/-- Whether a blob is stored, in either tier. -/
def containsBlob (h : NativeOdb) (id : BlobId) : Bool :=
  (h.tier1.index id).isSome || h.blobs.contains id

/-- The parts, the record, and its binding. -/
def putParts (id : BlobId) (t1 : Tier1) : OdbProg BlobId := do
  let partIds ← t1.decomposition.parts.mapM fun part => withBlobs (BlobStore.put P S part)
  let recordId ← withBlobs
    (BlobStore.put P S (encodeRecord t1.prism t1.decomposition.recipe partIds))
  appendTier1 P ⟨id, recordId⟩
  return id

/-- A blob through the prisms, or verbatim. -/
def putBlob (data : Bytes) : OdbProg BlobId := fun (disk, h) =>
  let id := P.blake3 data
  if h.containsBlob id then .ok id (disk, h)
  else
    match h.registry.decomposeVerified data with
    | some t1 => putParts P S id t1 (disk, h)
    | none => withBlobs (BlobStore.put P S data) (disk, h)

/-- An object not yet mapped. -/
def putNew (oid : ObjectId) (kind : ObjectKind) (data : Bytes) : OdbProg BlobId :=
  let actual := ObjectId.hashObject P oid.algo kind data
  if actual ≠ oid then throw (.hashMismatch oid actual)
  else do
    let alt ← putBlob P S data
    appendEntry P ⟨oid, alt, kind, .ofNat data.length⟩
    return alt

/-- Store an object under its git id. -/
def put (oid : ObjectId) (kind : ObjectKind) (data : Bytes) : OdbProg BlobId := do
  acquire P S
  fun (disk, h) =>
    match h.map.index.find oid with
    | some entry => .ok entry.alt (disk, h)
    | none => putNew P S oid kind data (disk, h)

/-! ### Reading -/

def decodeTier1 (alt : BlobId) (record : Bytes) : Except OdbError (UInt16 × Bytes × List BlobId) :=
  match decodeRecord record with
  | .error e => .error (.tier1Record alt e.message)
  | .ok decoded => .ok decoded

/-- The bytes a record stands for. -/
def rebuild (alt : BlobId) (registry : Registry) (record : BlobId) : OdbProg Bytes := do
  let record ← withBlobs (BlobStore.get P record)
  let (prism, recipe, partIds) ← fromExcept (decodeTier1 alt record)
  let parts ← partIds.mapM fun p => withBlobs (BlobStore.getUnverified P p)
  match registry.recompose prism recipe parts with
  | none => throw (.tier1Recompose alt)
  | some data => if P.blake3 data ≠ alt then throw (.tier1HashMismatch alt) else return data

def fetchBlob (alt : BlobId) : OdbProg Bytes := fun (disk, h) =>
  match h.tier1.index alt with
  | none => withBlobs (BlobStore.get P alt) (disk, h)
  | some record => rebuild P alt h.registry record (disk, h)

def readEntry (oid : ObjectId) (entry : MapEntry) : OdbProg RawObject := do
  let data ← fetchBlob P entry.alt
  if data.length ≠ entry.size.toNat then throw (.sizeMismatch oid entry.size)
  else return ⟨entry.kind, data⟩

/-- Read an object back by git id. -/
def get (oid : ObjectId) : OdbProg (Option RawObject) := fun (disk, h) =>
  match h.map.index.find oid with
  | none => .ok none (disk, h)
  | some entry => (do let object ← readEntry P oid entry; return some object) (disk, h)

def contains (h : NativeOdb) (oid : ObjectId) : Bool := (h.map.index.find oid).isSome

/-! ### Reading everything -/

end NativeOdb

end Alt.Odb
