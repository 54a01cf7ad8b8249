import Alt.GitCodec.Oid
import Alt.Library.Table
import Mathlib.Data.List.Perm.Basic
import Mathlib.Data.List.Sort

namespace Alt.GitPack

open Alt.Library

/-!
# Pack indexes (`alt-git-pack/src/idx.rs`, 38–137; `src/write.rs`, 191–232)

An index file of version 2: magic, version, a fan-out table of 256 counts, the ids in order, their
checksums and offsets, and a table of the offsets that take more than 31 bits.

* `writeIdx`, `buildIdx` — writing it;
* `PackIndex.parse`, `PackIndex.lookup`, `PackIndex.offsetAt` — reading it.

The ids are sorted with an unstable sort: `writeIdx` takes them in any sorted order.
-/

inductive PackError
  | io
  | format (reason : String)
  deriving DecidableEq

/-- One object of a pack: its id, where its entry begins, and the checksum of the entry. -/
structure PackEntry where
  oid : ObjectId
  offset : Nat
  crc : UInt32
  deriving DecidableEq

def idxMagic : Bytes := [0xff, 0x74, 0x4f, 0x63]

/-- The words with this bit are numbers in the table of large offsets. -/
def largeOffsetFlag : UInt32 := 0x80000000

/-! ### Writing -/

/-- The first byte of an id. -/
def bucketOf (oid : ObjectId) : Nat := (oid.asBytes.headD 0).toNat

/-- `fanout[oid.as_bytes()[0]] += 1`, for every entry. -/
def bucketCount (entries : List PackEntry) (bucket : Nat) : UInt32 :=
  UInt32.ofNat (entries.countP fun e => bucketOf e.oid = bucket)

/-- The running sums of the fan-out table. -/
def runningSum (acc : UInt32) : List UInt32 → List UInt32
  | [] => []
  | count :: counts => (acc + count) :: runningSum (acc + count) counts

def fanout (entries : List PackEntry) : List UInt32 :=
  runningSum 0 ((List.range 256).map (bucketCount entries))

/-- The offset words; a large offset is its number among the large ones. -/
def offsetWords : Nat → List PackEntry → List UInt32
  | _, [] => []
  | large, e :: entries =>
    if e.offset < 2 ^ 31 then UInt32.ofNat e.offset :: offsetWords large entries
    else (largeOffsetFlag ||| UInt32.ofNat large) :: offsetWords (large + 1) entries

/-- The offsets that take more than 31 bits. -/
def largeOffsets (entries : List PackEntry) : List Nat :=
  (entries.map PackEntry.offset).filter fun offset => 2 ^ 31 ≤ offset

def word (n : UInt32) : Bytes := beBytes 4 n.toNat

/-- The tables, for entries in order. -/
def idxTables (entries : List PackEntry) : Bytes :=
  idxMagic ++ word 2 ++ (fanout entries).flatMap word ++ entries.flatMap (fun e => e.oid.asBytes) ++
    entries.flatMap (fun e => word e.crc) ++ (offsetWords 0 entries).flatMap word ++
    (largeOffsets entries).flatMap (beBytes 8)

/-- The digest of a hash algorithm. -/
def digest (P : Prims) : HashAlgo → Bytes → Bytes
  | .sha1, data => (P.sha1 data).val
  | .sha256, data => (P.sha256 data).val

/-- The index of entries in order, with the pack's checksum and its own. -/
def writeIdx (P : Prims) (algo : HashAlgo) (entries : List PackEntry) (trailer : Bytes) : Bytes :=
  let out := idxTables entries ++ trailer
  out ++ digest P algo out

def byOid (a b : PackEntry) : Prop := (compare a.oid.asBytes b.oid.asBytes).isLE = true

instance : DecidableRel byOid := fun _ _ => inferInstanceAs (Decidable (_ = true))

/-- `build_idx`, with a stable sort. -/
def buildIdx (P : Prims) (algo : HashAlgo) (entries : List PackEntry) (trailer : Bytes) : Bytes :=
  writeIdx P algo (entries.insertionSort byOid) trailer

/-! ### Reading -/

def readU32 (data : Bytes) (at_ : Nat) : UInt32 := UInt32.ofNat (beNat (bytesAt data at_ 4))

/-- A pack index, and where its tables are. -/
structure PackIndex where
  map : Bytes
  algo : HashAlgo
  len : UInt32
  oidsAt : Nat
  offsetsAt : Nat
  largeAt : Nat
  largeCount : Nat

namespace PackIndex

def fanoutAt : Nat := 8

/-- An entry of the fan-out table. -/
def fan (map : Bytes) (bucket : Nat) : UInt32 := readU32 map (fanoutAt + bucket * 4)

/-- The fan-out never goes down. -/
def monotonic (prev : UInt32) : List UInt32 → Bool
  | [] => true
  | v :: rest => !decide (v < prev) && monotonic v rest

def parse (data : Bytes) (algo : HashAlgo) : Except PackError PackIndex :=
  if data.length < 8 + 256 * 4 ∨ data.take 4 ≠ idxMagic then
    .error (.format "not a v2 pack index (bad magic)")
  else if readU32 data 4 ≠ 2 then .error (.format "unsupported pack index version")
  else if !monotonic 0 ((List.range 256).map (fan data)) then
    .error (.format "non-monotonic idx fan-out")
  else
    let len := fan data 255
    let n := len.toNat
    let oidsAt := fanoutAt + 256 * 4
    let crcsAt := oidsAt + n * algo.rawLen
    let offsetsAt := crcsAt + n * 4
    let largeAt := offsetsAt + n * 4
    let trailer := 2 * algo.rawLen
    if data.length < largeAt + trailer then .error (.format "pack index truncated")
    else .ok ⟨data, algo, len, oidsAt, offsetsAt, largeAt, (data.length - trailer - largeAt) / 8⟩

/-- The raw id of an entry. -/
def oidBytes (idx : PackIndex) (i : Nat) : Bytes :=
  bytesAt idx.map (idx.oidsAt + i * idx.algo.rawLen) idx.algo.rawLen

/-- The offset of an entry. -/
def offsetAt (idx : PackIndex) (i : Nat) : Except PackError Nat :=
  let w := readU32 idx.map (idx.offsetsAt + i * 4)
  if w &&& largeOffsetFlag = 0 then .ok w.toNat
  else
    let large := (w &&& ~~~largeOffsetFlag).toNat
    if idx.largeCount ≤ large then .error (.format "large-offset index out of range")
    else .ok (beNat (bytesAt idx.map (idx.largeAt + large * 8) 8))

/-- Looks for an id between the counts of its first byte. -/
def lookup (idx : PackIndex) (oid : ObjectId) : Option Nat :=
  let bucket := bucketOf oid
  let lo := if bucket = 0 then 0 else (fan idx.map (bucket - 1)).toNat
  search (fun i => compare (idx.oidBytes i) oid.asBytes) lo (fan idx.map bucket).toNat

end PackIndex

end Alt.GitPack
