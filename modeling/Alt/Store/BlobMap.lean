import Alt.Library.RecordLog
import Alt.Store.Error

namespace Alt.Store

open Alt.Library List

/-!
# Blob map (`alt-store/src/blobmap.rs`)

The append-only record of blob id → manifest root.  It is truth, not cache, so each
record carries its own checksum.
-/

/-- One blob map record. -/
structure BlobMapRecord where
  blob : BlobId
  root : ChunkId
  totalLen : UInt64
  deriving DecidableEq

namespace BlobMap

/-- Record: blob id 32 + manifest root 32 + total_len u64 + checksum 8. -/
def recLen : Nat := 80

def checkedLen : Nat := recLen - 8

def checkedBytes (r : BlobMapRecord) : Bytes :=
  r.blob.val ++ r.root.val ++ leBytes 8 r.totalLen.toNat

theorem length_checkedBytes (r : BlobMapRecord) : (checkedBytes r).length = checkedLen := by
  simp [checkedBytes, r.blob.2, r.root.2, checkedLen, recLen]

def parse (record : Bytes) : BlobMapRecord where
  blob := .ofSlice 32 (record.take 32)
  root := .ofSlice 32 ((record.drop 32).take 32)
  totalLen := .ofNat (leNat ((record.drop 64).take 8))

theorem parse_checkedBytes (r : BlobMapRecord) (check : Bytes) :
    parse (checkedBytes r ++ check) = r := by
  obtain ⟨⟨blob, hb⟩, ⟨root, hr⟩, totalLen⟩ := r
  have h64 : (blob ++ root).length = 64 := by simp [hb, hr]
  have e1 : (blob ++ root ++ leBytes 8 totalLen.toNat ++ check).take 32 = blob := by
    rw [append_assoc, append_assoc, ← hb, take_left]
  have e2 : ((blob ++ root ++ leBytes 8 totalLen.toNat ++ check).drop 32).take 32 = root := by
    rw [append_assoc, append_assoc, ← hb, drop_left, hb, ← hr, take_left]
  have e3 : ((blob ++ root ++ leBytes 8 totalLen.toNat ++ check).drop 64).take 8
      = leBytes 8 totalLen.toNat := by
    rw [append_assoc, ← h64, drop_left]
    exact take_left' (length_leBytes 8 _)
  have hlt : totalLen.toNat < 256 ^ 8 := totalLen.toNat_lt
  simp only [parse, checkedBytes, e1, e2, e3, leNat_leBytes_of_lt hlt, UInt64.ofNat_toNat]
  rw [show ByteArr.ofSlice 32 blob = ⟨blob, hb⟩ from ByteArr.ofSlice_val ⟨blob, hb⟩,
    show ByteArr.ofSlice 32 root = ⟨root, hr⟩ from ByteArr.ofSlice_val ⟨root, hr⟩]

/-- The blob map file format. -/
def format (P : Prims) : RecordFormat BlobMapRecord StoreError where
  magic := [0x41, 0x4c, 0x54, 0x42] -- b"ALTB"
  version := 1
  recLen := recLen
  recLen_pos := by decide
  encode r := checkedBytes r ++ P.checksum (checkedBytes r)
  length_encode r := by simp [length_checkedBytes, checkedLen, recLen]
  checkOk := P.checksumOk checkedLen
  checkOk_encode r := P.checksumOk_seal (length_checkedBytes r)
  parse record := .ok (parse record)
  parse_encode r := by rw [parse_checkedBytes]
  badHeader := .format "bad blobmap header"
  badVersion := .format "unsupported blobmap version"
  corrupt := .format "blobmap record corrupt"

/-- The in-memory map. -/
abbrev Index := BlobId → Option (ChunkId × UInt64)

/-- Records are folded in by insertion, the last one winning. -/
def indexing : Indexing BlobMapRecord Index where
  empty := fun _ => none
  insert m r := Function.update m r.blob (some (r.root, r.totalLen))

end BlobMap

/-- An open blob map. -/
abbrev BlobMap := LogHandle BlobMap.Index

end Alt.Store
