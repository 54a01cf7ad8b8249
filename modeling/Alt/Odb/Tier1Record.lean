import Alt.Primitives

namespace Alt.Odb

open Alt.Library List

/-!
# Tier 1 records (`alt-odb/src/tier1.rs`)

The record of a decomposed blob, itself stored as a blob: prism, recipe, and the ids of the
parts.
-/

inductive RecordError
  | truncated
  | trailingBytes
  deriving DecidableEq

def RecordError.message : RecordError → String
  | .truncated => "tier1 record truncated"
  | .trailingBytes => "tier1 record has trailing bytes"

/-- `[prism u16][recipe_len u32][recipe][part_count u32][part ids 32 each]`. -/
def encodeRecord (prism : UInt16) (recipe : Bytes) (parts : List BlobId) : Bytes :=
  leBytes 2 prism.toNat ++ leBytes 4 recipe.length ++ recipe ++ leBytes 4 parts.length
    ++ parts.flatMap fun p => p.val

/-- The next `n` bytes. -/
def need (n : Nat) (rest : Bytes) : Except RecordError (Bytes × Bytes) :=
  match takeN n rest with
  | none => .error .truncated
  | some cut => .ok cut

/-- The next `count` part ids. -/
def decodeParts : Nat → Bytes → Except RecordError (List BlobId × Bytes)
  | 0, rest => .ok ([], rest)
  | count + 1, rest => do
    let (bytes, rest) ← need 32 rest
    let (parts, rest) ← decodeParts count rest
    .ok (.ofSlice 32 bytes :: parts, rest)

def decodeRecord (record : Bytes) : Except RecordError (UInt16 × Bytes × List BlobId) := do
  let (prism, rest) ← need 2 record
  let (recipeLen, rest) ← need 4 rest
  let (recipe, rest) ← need (leNat recipeLen) rest
  let (count, rest) ← need 4 rest
  let (parts, rest) ← decodeParts (leNat count) rest
  if rest ≠ [] then .error .trailingBytes
  else .ok (.ofNat (leNat prism), recipe, parts)

theorem need_append {n : Nat} {b : Bytes} (h : b.length = n) (rest : Bytes) :
    need n (b ++ rest) = .ok (b, rest) := by
  rw [need, takeN_append' b rest h]

theorem decodeParts_flatMap (parts : List BlobId) (rest : Bytes) :
    decodeParts parts.length (parts.flatMap (fun p => p.val) ++ rest) = .ok (parts, rest) := by
  induction parts with
  | nil => rfl
  | cons p parts ih =>
    have hid : ByteArr.ofSlice 32 p.val = p := ByteArr.ofSlice_val p
    rw [length_cons, flatMap_cons, append_assoc, decodeParts, need_append p.2]
    simp only [bind, Except.bind, ih, hid]

/-- **Records read back**, when recipe and parts fit their length fields. -/
theorem decodeRecord_encodeRecord (prism : UInt16) {recipe : Bytes} {parts : List BlobId}
    (hrecipe : recipe.length < 2 ^ 32) (hparts : parts.length < 2 ^ 32) :
    decodeRecord (encodeRecord prism recipe parts) = .ok (prism, recipe, parts) := by
  have hprism : UInt16.ofNat (leNat (leBytes 2 prism.toNat)) = prism := by
    rw [leNat_leBytes_of_lt prism.toNat_lt, UInt16.ofNat_toNat]
  have hlen : leNat (leBytes 4 recipe.length) = recipe.length := leNat_leBytes_of_lt hrecipe
  have hcount : leNat (leBytes 4 parts.length) = parts.length := leNat_leBytes_of_lt hparts
  have hids := decodeParts_flatMap parts []
  rw [append_nil] at hids
  have hshape : encodeRecord prism recipe parts = leBytes 2 prism.toNat ++
      (leBytes 4 recipe.length ++ (recipe ++ (leBytes 4 parts.length
        ++ parts.flatMap fun p => p.val))) := by
    simp only [encodeRecord, append_assoc]
  rw [hshape, decodeRecord, need_append (length_leBytes 2 _)]
  simp only [bind, Except.bind]
  rw [need_append (length_leBytes 4 _)]
  simp only [hlen]
  rw [need_append rfl]
  simp only []
  rw [need_append (length_leBytes 4 _)]
  simp only [hcount, hids, hprism]
  rfl

end Alt.Odb
