import Alt.Library.Bytes

namespace Alt

open Alt.Library

/-!
# Third-party primitives — digests and zstd

The repository calls BLAKE3, SHA-1, SHA-256 and zstd from other crates.  The model takes
them as one parameter `Prims`; what a result relies on is a named hypothesis about it:

* `Prims.ZstdLawful` — decompression inverts compression, with and without a base;
* `Set.InjOn P.blake3 S` — no two of the byte strings in `S` collide.  Stated on a set,
  since no function into 32 bytes is injective on all byte strings.

`Prims.toy` is a small computable instance for evaluating concrete runs.
-/

/-- A BLAKE3 output. -/
abbrev Digest := ByteArr 32

/-- The address of a chunk: BLAKE3 of its original bytes. -/
abbrev ChunkId := Digest

/-- The address of a blob: BLAKE3 of its full content. -/
abbrev BlobId := Digest

/-- The third-party functions the code calls. -/
structure Prims where
  blake3 : Bytes → Digest
  sha1 : Bytes → ByteArr 20
  sha256 : Bytes → ByteArr 32
  /-- `zstd::encode_all(data, level)`. -/
  encodeAll : Bytes → Int → Option Bytes
  /-- `zstd::decode_all(payload)`. -/
  decodeAll : Bytes → Option Bytes
  /-- zstd with the base as reference prefix (`delta::compress_with_base`). -/
  compressWithBase : Bytes → Bytes → Int → Option Bytes
  /-- The inverse, bounded by the original length (`delta::decompress_with_base`). -/
  decompressWithBase : Bytes → Bytes → Nat → Option Bytes

namespace Prims

/-- zstd decompression inverts compression. -/
structure ZstdLawful (P : Prims) : Prop where
  decode_encode : ∀ data level z, P.encodeAll data level = some z → P.decodeAll z = some data
  decompress_compress : ∀ data base level z, P.compressWithBase data base level = some z →
    P.decompressWithBase z base data.length = some data

/-- The record checksum every log format uses: the first eight bytes of BLAKE3. -/
def checksum (P : Prims) (checked : Bytes) : Bytes := (P.blake3 checked).val.take 8

@[simp] theorem length_checksum (P : Prims) (checked : Bytes) :
    (P.checksum checked).length = 8 := by
  simp [checksum, (P.blake3 checked).2]

/-- Does a record of `checkedLen` checked bytes carry their checksum behind them? -/
def checksumOk (P : Prims) (checkedLen : Nat) (record : Bytes) : Bool :=
  P.checksum (record.take checkedLen) == record.drop checkedLen

/-- A record sealed with its own checksum passes the check. -/
theorem checksumOk_seal (P : Prims) {n : Nat} {checked : Bytes} (h : checked.length = n) :
    P.checksumOk n (checked ++ P.checksum checked) = true := by
  subst h
  simp [checksumOk]

/-- A computable stand-in: a 256-bit multiplicative hash, no compression. -/
def toy : Prims where
  blake3 b := ⟨leBytes 32 (b.foldl (fun h x => (h * 1099511628211 + x.toNat + 1) % 2 ^ 256)
    14695981039346656037), by simp⟩
  sha1 b := ⟨leBytes 20 (b.foldl (fun h x => (h * 1099511628211 + x.toNat + 1) % 2 ^ 160)
    14695981039346656037), by simp⟩
  sha256 b := ⟨leBytes 32 (b.foldl (fun h x => (h * 6364136223846793005 + x.toNat + 1) % 2 ^ 256)
    1442695040888963407), by simp⟩
  encodeAll data _ := some data
  decodeAll payload := some payload
  compressWithBase _ _ _ := none
  decompressWithBase payload _ _ := some payload

theorem toy_zstdLawful : toy.ZstdLawful where
  decode_encode := by
    intro data level z h
    simpa [toy, eq_comm] using h
  decompress_compress := by
    intro data base level z h
    simp [toy] at h

end Prims

end Alt
