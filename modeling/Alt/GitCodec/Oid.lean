import Alt.Primitives

namespace Alt

open Alt.Library

/-!
# Git object ids

`alt_git_codec`: the four object kinds, the two hash algorithms, and an object id as the
hash of the canonical header `"<kind> <size>\0"` followed by the payload.
-/

/-- Git's object kinds. -/
inductive ObjectKind
  | blob | tree | commit | tag
  deriving DecidableEq, Repr

/-- The type name in an object header. -/
def ObjectKind.asBytes : ObjectKind → Bytes
  | .blob => [0x62, 0x6c, 0x6f, 0x62]
  | .tree => [0x74, 0x72, 0x65, 0x65]
  | .commit => [0x63, 0x6f, 0x6d, 0x6d, 0x69, 0x74]
  | .tag => [0x74, 0x61, 0x67]

/-- Hash algorithms git can use for object ids. -/
inductive HashAlgo
  | sha1 | sha256
  deriving DecidableEq, Repr

/-- Bytes in a raw id. -/
def HashAlgo.rawLen : HashAlgo → Nat
  | .sha1 => 20
  | .sha256 => 32

/-- A git object id. -/
inductive ObjectId
  | sha1 (b : ByteArr 20)
  | sha256 (b : ByteArr 32)
  deriving DecidableEq

namespace ObjectId

def algo : ObjectId → HashAlgo
  | .sha1 _ => .sha1
  | .sha256 _ => .sha256

def asBytes : ObjectId → Bytes
  | .sha1 b => b.val
  | .sha256 b => b.val

@[simp] theorem length_asBytes (id : ObjectId) : id.asBytes.length = id.algo.rawLen := by
  cases id with
  | sha1 b => exact b.2
  | sha256 b => exact b.2

/-- Build an id from raw hash bytes; the length must match `algo`. -/
def fromBytes (algo : HashAlgo) (bytes : Bytes) : Option ObjectId :=
  match algo with
  | .sha1 => if h : bytes.length = 20 then some (.sha1 ⟨bytes, h⟩) else none
  | .sha256 => if h : bytes.length = 32 then some (.sha256 ⟨bytes, h⟩) else none

/-- An id's own bytes build it back. -/
@[simp] theorem fromBytes_asBytes (id : ObjectId) : fromBytes id.algo id.asBytes = some id := by
  cases id with
  | sha1 b => simp [fromBytes, algo, asBytes, b.2]
  | sha256 b => simp [fromBytes, algo, asBytes, b.2]

/-- Ids of equal bytes are equal: the length tells the algorithm. -/
theorem asBytes_injective {a b : ObjectId} (h : a.asBytes = b.asBytes) : a = b := by
  have hlength := congrArg List.length h
  rw [length_asBytes, length_asBytes] at hlength
  cases a with
  | sha1 a =>
    cases b with
    | sha1 b => exact congrArg ObjectId.sha1 (Subtype.ext h)
    | sha256 b => cases hlength
  | sha256 a =>
    cases b with
    | sha1 b => cases hlength
    | sha256 b => exact congrArg ObjectId.sha256 (Subtype.ext h)

/-- An id built for a hash algorithm is an id of that algorithm. -/
theorem algo_of_fromBytes {algo : HashAlgo} {bytes : Bytes} {id : ObjectId}
    (h : fromBytes algo bytes = some id) : id.algo = algo := by
  cases algo <;> simp only [fromBytes] at h <;> split at h <;> cases h <;> rfl

/-- The decimal digits of a size, as ASCII. -/
def decimal (n : Nat) : Bytes := (Nat.toDigits 10 n).map fun c => UInt8.ofNat c.toNat

/-- The bytes whose hash identifies an object: header, NUL, payload. -/
def canonical (kind : ObjectKind) (data : Bytes) : Bytes :=
  kind.asBytes ++ [0x20] ++ decimal data.length ++ [0] ++ data

theorem zero_not_mem_decimal (n : Nat) : (0 : UInt8) ∉ decimal n := by
  intro h
  obtain ⟨c, hc, hzero⟩ := List.mem_map.mp h
  have hdigit := Nat.isDigit_of_mem_toDigits (by decide) (by decide) hc
  have hrange : 48 ≤ c.toNat ∧ c.toNat ≤ 57 := by
    simp only [Char.isDigit, Bool.and_eq_true, decide_eq_true_eq] at hdigit
    exact hdigit
  have hnat := congrArg UInt8.toNat hzero
  have hsize : UInt8.size = 256 := rfl
  rw [UInt8.toNat_ofNat_of_lt' (by omega)] at hnat
  have hzero' : (0 : UInt8).toNat = 0 := rfl
  omega

/-- The hashed bytes determine the object. -/
theorem canonical_injective {kind kind' : ObjectKind} {data data' : Bytes}
    (h : canonical kind data = canonical kind' data') : kind = kind' ∧ data = data' := by
  have hkind : kind = kind' := by
    cases kind <;> cases kind' <;> first | rfl | simp [canonical, ObjectKind.asBytes] at h
  subst hkind
  have hsep : ∀ d : Bytes, canonical kind d
      = kind.asBytes ++ [0x20] ++ (decimal d.length ++ 0 :: d) := by
    intro d
    simp [canonical]
  rw [hsep, hsep] at h
  have hrest := List.append_cancel_left h
  exact ⟨rfl, (append_cons_inj (zero_not_mem_decimal _) (zero_not_mem_decimal _) hrest).2⟩
/-- The object id of `data` as an object of type `kind`. -/
def hashObject (P : Prims) (algo : HashAlgo) (kind : ObjectKind) (data : Bytes) : ObjectId :=
  match algo with
  | .sha1 => .sha1 (P.sha1 (canonical kind data))
  | .sha256 => .sha256 (P.sha256 (canonical kind data))

end ObjectId

end Alt
