import Alt.Library.RecordLog
import Alt.Store.Error

namespace Alt.Odb

open Alt.Library Alt.Store List

/-!
# Tier 1 map (`alt-odb/src/tier1.rs`)

The append-only map of a decomposed blob to the blob holding its recipe record.  It has
the shape of the blob map with one difference: there is no catch-up on other writers, and
the file handle is opened for writing only.
-/

/-- One Tier 1 map record. -/
structure Tier1Entry where
  blob : BlobId
  record : BlobId
  deriving DecidableEq

namespace Tier1Map

/-- Record: blob id 32 + record blob id 32 + checksum 8. -/
def recLen : Nat := 72

def checkedLen : Nat := recLen - 8

def checkedBytes (r : Tier1Entry) : Bytes := r.blob.val ++ r.record.val

theorem length_checkedBytes (r : Tier1Entry) : (checkedBytes r).length = checkedLen := by
  simp [checkedBytes, r.blob.2, r.record.2, checkedLen, recLen]

def parse (record : Bytes) : Tier1Entry where
  blob := .ofSlice 32 (record.take 32)
  record := .ofSlice 32 ((record.drop 32).take 32)

theorem parse_checkedBytes (r : Tier1Entry) (check : Bytes) :
    parse (checkedBytes r ++ check) = r := by
  obtain ⟨⟨blob, hb⟩, ⟨record, hr⟩⟩ := r
  have e1 : (blob ++ record ++ check).take 32 = blob := by
    rw [append_assoc, ← hb, take_left]
  have e2 : ((blob ++ record ++ check).drop 32).take 32 = record := by
    rw [append_assoc, ← hb, drop_left, hb, ← hr, take_left]
  simp only [parse, checkedBytes, e1, e2]
  rw [show ByteArr.ofSlice 32 blob = ⟨blob, hb⟩ from ByteArr.ofSlice_val ⟨blob, hb⟩,
    show ByteArr.ofSlice 32 record = ⟨record, hr⟩ from ByteArr.ofSlice_val ⟨record, hr⟩]

/-- The Tier 1 map file format. -/
def format (P : Prims) : RecordFormat Tier1Entry StoreError where
  magic := [0x41, 0x4c, 0x54, 0x31] -- b"ALT1"
  version := 1
  recLen := recLen
  recLen_pos := by decide
  encode r := checkedBytes r ++ P.checksum (checkedBytes r)
  length_encode r := by simp [length_checkedBytes, checkedLen, recLen]
  checkOk := P.checksumOk checkedLen
  checkOk_encode r := P.checksumOk_seal (length_checkedBytes r)
  parse record := .ok (parse record)
  parse_encode r := by rw [parse_checkedBytes]
  badHeader := .format "bad tier1 header"
  badVersion := .format "unsupported tier1 version"
  corrupt := .format "tier1 record corrupt"

/-- The in-memory map. -/
abbrev Index := BlobId → Option BlobId

def indexing : Indexing Tier1Entry Index where
  empty := fun _ => none
  insert m r := Function.update m r.blob (some r.record)

end Tier1Map

/-- An open Tier 1 map. -/
abbrev Tier1Map := LogHandle Tier1Map.Index

end Alt.Odb
