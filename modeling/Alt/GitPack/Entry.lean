import Alt.GitPack.Delta

namespace Alt.GitPack

open Alt.Library

/-!
# Entries of a pack (`alt-git-pack/src/pack.rs`, 66–150; `src/index_pack.rs`, 165–272)

An entry is a header (its type, the size of what it inflates to, the base of a delta) and a zlib
stream.  `entryInfo` and `readEntry` read the same header; the position in it is the rest of the pack.

A run may panic: an overflow in checked arithmetic, a slice out of range, a capacity beyond `isize`.
zlib and the checksum are the parameter `Flate`.
-/

/-- How a run ends without a result. -/
inductive Fault
  | failed (e : PackError)
  | panicked
  deriving DecidableEq

/-- zlib and CRC-32. -/
structure Flate where
  /-- All that `read_to_end` gives, and `total_in`. -/
  readToEnd : Bytes → Option (Bytes × Nat)
  crc : Bytes → UInt32

inductive EntryKind
  | plain (kind : ObjectKind)
  | ofsDelta (baseAt : Nat)
  | refDelta (base : ObjectId)
  deriving DecidableEq

structure EntryInfo where
  kind : EntryKind
  size : UInt64
  dataAt : Nat

/-! ### Headers -/

def format {α : Type} (reason : String) : Except Fault α := .error (.failed (.format reason))

/-- The size field after its first byte; the shift is checked. -/
def sizeField (shift : Nat) (size : UInt64) : Bytes → Except Fault (UInt64 × Bytes)
  | [] => format "truncated entry size"
  | byte :: rest =>
    if 64 ≤ shift then .error .panicked
    else
      let size := size ||| payloadBits byte <<< UInt64.ofNat shift
      if continues byte then sizeField (shift + 7) size rest else .ok (size, rest)

/-- A distance and one byte more of it. -/
def distNext (dist : UInt64) (byte : UInt8) : UInt64 := ((dist + 1) <<< 7) ||| payloadBits byte

/-- The distance field after its first byte; `dist + 1` is checked. -/
def distField (dist : UInt64) : Bytes → Except Fault (UInt64 × Bytes)
  | [] => format "truncated ofs-delta"
  | byte :: rest =>
    if dist + 1 = 0 then .error .panicked
    else if continues byte then distField (distNext dist byte) rest
    else .ok (distNext dist byte, rest)

/-- The base of a delta against an offset. -/
def ofsBase (offset : Nat) : Bytes → Except Fault (EntryKind × Bytes)
  | [] => format "truncated ofs-delta"
  | byte :: rest =>
    match if continues byte then distField (payloadBits byte) rest else .ok (payloadBits byte, rest) with
    | .error f => .error f
    | .ok (dist, rest) =>
      if offset < dist.toNat then format "ofs-delta points before pack start"
      else .ok (.ofsDelta (offset - dist.toNat), rest)

/-- The base of a delta against an id. -/
def refBase (algo : HashAlgo) (rest : Bytes) : Except Fault (EntryKind × Bytes) :=
  if rest.length < algo.rawLen then format "truncated ref-delta base id"
  else
    match ObjectId.fromBytes algo (rest.take algo.rawLen) with
    | none => .error .panicked
    | some base => .ok (.refDelta base, rest.drop algo.rawLen)

/-- The kind of an entry, and its base. -/
def entryKind (algo : HashAlgo) (offset : Nat) (typeId : UInt8) (rest : Bytes) :
    Except Fault (EntryKind × Bytes) :=
  if typeId = 1 then .ok (.plain .commit, rest)
  else if typeId = 2 then .ok (.plain .tree, rest)
  else if typeId = 3 then .ok (.plain .blob, rest)
  else if typeId = 4 then .ok (.plain .tag, rest)
  else if typeId = 6 then ofsBase offset rest
  else if typeId = 7 then refBase algo rest
  else format "invalid pack entry type"

def typeOf (byte : UInt8) : UInt8 := (byte >>> 4) &&& 0b111

/-- The size in the header at a byte. -/
def entrySize (byte : UInt8) (rest : Bytes) : Except Fault (UInt64 × Bytes) :=
  let size := (byte &&& 0b1111).toUInt64
  if continues byte then sizeField 4 size rest else .ok (size, rest)

/-- Parses the entry header at `offset`. -/
def entryInfo (algo : HashAlgo) (map : Bytes) (offset : Nat) : Except Fault EntryInfo :=
  match map.drop offset with
  | [] => format "entry offset out of range"
  | byte :: rest =>
    match entrySize byte rest with
    | .error f => .error f
    | .ok (size, rest) =>
      match entryKind algo offset (typeOf byte) rest with
      | .error f => .error f
      | .ok (kind, rest) => .ok ⟨kind, size, map.length - rest.length⟩

/-! ### Entries -/

/-- What inflates to `size` bytes; `Vec::with_capacity` takes at most `isize::MAX`. -/
def inflateExact (Z : Flate) (input : Bytes) (size : UInt64) : Except Fault (Bytes × Nat) :=
  if 2 ^ 63 ≤ size.toNat then .error .panicked
  else
    match Z.readToEnd input with
    | none => .error (.failed .io)
    | some (payload, totalIn) =>
      if payload.length ≠ size.toNat then format "inflated size does not match entry header"
      else .ok (payload, totalIn)

/-- `Pack::inflate`. -/
def inflate (Z : Flate) (map : Bytes) (dataAt : Nat) (size : UInt64) : Except Fault Bytes :=
  (inflateExact Z (map.drop dataAt) size).map Prod.fst

/-- A pack entry as found on disk, with enough to resolve it later. -/
structure RawEntry where
  offset : Nat
  nextOffset : Nat
  kind : EntryKind
  payload : Bytes
  crc32 : UInt32
  deriving DecidableEq

/-- Reads the entry at `offset`, in the pack's body. -/
def readEntry (Z : Flate) (algo : HashAlgo) (map : Bytes) (bodyEnd offset : Nat) : Except Fault RawEntry :=
  match entryInfo algo map offset with
  | .error f => .error f
  | .ok info =>
    if bodyEnd < info.dataAt then .error .panicked
    else
      match inflateExact Z ((map.take bodyEnd).drop info.dataAt) info.size with
      | .error f => .error f
      | .ok (payload, totalIn) =>
        let nextOffset := info.dataAt + totalIn
        if bodyEnd < nextOffset then format "entry runs past pack body"
        else .ok ⟨offset, nextOffset, info.kind, payload, Z.crc ((map.take nextOffset).drop offset)⟩

end Alt.GitPack
