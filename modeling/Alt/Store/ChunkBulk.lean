import Alt.Store.ChunkStore

namespace Alt.Store.ChunkStore

open Alt.Library Pack

/-!
# The bulk read path of the chunk store (`alt-store/src/lib.rs`)

`decode_no_verify`, `decode_chunk_unverified` and `for_each_decoded`: chunks decoded without
hashing, every base once.  The index is a hash map, so the order in which the forest is
built is a parameter, and so is the order in which chunks come out.
-/

variable (P : Prims)

/-- A chunk's bytes without hashing; `base` for a delta record, none for a full one. -/
def decodeNoVerify (d : Dir) (h : ChunkStore) (id : ChunkId) (base : Option Bytes) :
    Except StoreError Bytes := do
  let loc ← locate h id
  let header ← readHeader d h id loc
  let payload ← readAt d h id loc.seq header.storedLen.toNat (loc.offset + recHeaderLen)
  match base with
  | none =>
    if header.encoding = encRaw then sized id payload header.origLen
    else if header.encoding = encZstd then
      match P.decodeAll payload with
      | none => .error (.corrupt id "zstd decode failed")
      | some raw => sized id raw header.origLen
    else .error (.format "delta/full encoding mismatch")
  | some base =>
    if header.encoding = encDelta then
      if payload.length < 32 then .error (.corrupt id "delta payload too short")
      else
        match P.decompressWithBase (payload.drop 32) base header.origLen.toNat with
        | none => .error (.corrupt id "delta decode failed")
        | some out => sized id out header.origLen
    else .error (.format "delta/full encoding mismatch")

/-- A single chunk without hashing; a delta falls back to resolving its chain. -/
def decodeChunkUnverified (d : Dir) (h : ChunkStore) (id : ChunkId) :
    Except StoreError Bytes × DeltaCache :=
  match (do let loc ← locate h id; readHeader d h id loc) with
  | .error e => (.error e, h.cache)
  | .ok header =>
    if header.encoding = encDelta then resolve P d h id .none
    else (decodeNoVerify P d h id none, h.cache)

/-- Every delta under the base it names, and the full records as roots. -/
def forest (d : Dir) (h : ChunkStore) :
    List (ChunkId × Location) → Except StoreError (List (ChunkId × ChunkId) × List ChunkId)
  | [] => .ok ([], [])
  | (id, loc) :: rest => do
    let header ← readHeader d h id loc
    if header.encoding = encDelta then do
      let base ← readBaseId d h id loc
      let (deps, roots) ← forest d h rest
      return ((base, id) :: deps, roots)
    else if header.encoding = encRaw ∨ header.encoding = encZstd then do
      let (deps, roots) ← forest d h rest
      return (deps, id :: roots)
    else .error (.format "reserved record encoding")

/-- Decode from the top of the stack; a decoded chunk pushes the deltas that hang off it.
    Returns the visits made, and whether one failed. -/
def decodeForest (d : Dir) (h : ChunkStore) :
    Nat → List (ChunkId × ChunkId) → List (ChunkId × Option Bytes) →
      List (ChunkId × Bytes) × Except StoreError Unit
  | 0, _, _ => ([], .ok ())
  | _ + 1, _, [] => ([], .ok ())
  | fuel + 1, deps, (id, base) :: stack =>
    match decodeNoVerify P d h id base with
    | .error e => ([], .error e)
    | .ok bytes =>
      let (mine, others) := deps.partition fun e => e.1 = id
      let children := mine.map fun e => (e.2, some bytes)
      let (visits, result) := decodeForest d h fuel others (children.reverse ++ stack)
      ((id, bytes) :: visits, result)

/-- Materialize every chunk once, the index walked in `order`.  A chunk is pushed at most
    once, as a root or under its base, which bounds the descent. -/
def forEachDecoded (d : Dir) (h : ChunkStore) (order : List (ChunkId × Location)) :
    List (ChunkId × Bytes) × Except StoreError Unit :=
  match forest d h order with
  | .error e => ([], .error e)
  | .ok (deps, roots) =>
    match decodeForest P d h (order.length + 1) deps (roots.reverse.map fun id => (id, none)) with
    | (visits, .error e) => (visits, .error e)
    | (visits, .ok ()) =>
      if visits.length ≠ order.length then
        (visits, .error (.format "bulk materialize missed chunks"))
      else (visits, .ok ())

end Alt.Store.ChunkStore
