import Alt.Library.RecordLog
import Alt.GitCodec.Oid
import Alt.Store.Error

namespace Alt.Odb

open Alt.Library Alt.Store List

/-!
# Object map (`alt-odb/src/map.rs`)

`map.alt`: the record of git id ↔ content address ↔ (kind, size), truth and not cache.
Entries are kept in append order; slot numbers in the two indices are `u32`.
-/

/-- What an object database operation can fail with (`alt_odb::OdbError`). -/
inductive OdbError
  | io
  | store (e : StoreError)
  | format (message : String)
  | hashMismatch (claimed actual : ObjectId)
  | sizeMismatch (oid : ObjectId) (size : UInt64)
  | tier1Record (id : BlobId) (message : String)
  | tier1Recompose (id : BlobId)
  | tier1HashMismatch (id : BlobId)
  deriving DecidableEq

/-- One object's identities and what its canonical header is rebuilt from. -/
structure MapEntry where
  git : ObjectId
  alt : BlobId
  kind : ObjectKind
  size : UInt64
  deriving DecidableEq

namespace ObjectMap

/-- Record: algo u8 + git oid 32 (sha1 zero-padded) + blake3 32 + kind u8 + size u64 +
    checksum 8. -/
def recLen : Nat := 82

def checkedLen : Nat := recLen - 8

def algoByte : HashAlgo → UInt8
  | .sha1 => 1
  | .sha256 => 2

def kindByte : ObjectKind → UInt8
  | .blob => 0
  | .tree => 1
  | .commit => 2
  | .tag => 3

def parseKind (byte : UInt8) : Except OdbError ObjectKind :=
  if byte = 0 then .ok .blob
  else if byte = 1 then .ok .tree
  else if byte = 2 then .ok .commit
  else if byte = 3 then .ok .tag
  else .error (.format "bad object kind in map.alt")

@[simp] theorem parseKind_kindByte (k : ObjectKind) : parseKind (kindByte k) = .ok k := by
  cases k <;> rfl

/-- The git id field: the raw bytes, zero-padded to 32. -/
def oidField (id : ObjectId) : Bytes :=
  id.asBytes ++ List.replicate (32 - id.algo.rawLen) 0

@[simp] theorem length_oidField (id : ObjectId) : (oidField id).length = 32 := by
  cases id <;> simp [oidField, ObjectId.algo, HashAlgo.rawLen]

def checkedBytes (e : MapEntry) : Bytes :=
  [algoByte e.git.algo] ++ oidField e.git ++ e.alt.val ++ [kindByte e.kind]
    ++ leBytes 8 e.size.toNat

theorem length_checkedBytes (e : MapEntry) : (checkedBytes e).length = checkedLen := by
  simp [checkedBytes, e.alt.2, checkedLen, recLen]

def parseAlgo (byte : UInt8) : Except OdbError HashAlgo :=
  if byte = 1 then .ok .sha1
  else if byte = 2 then .ok .sha256
  else .error (.format "bad hash algo in map.alt")

@[simp] theorem parseAlgo_algoByte (a : HashAlgo) : parseAlgo (algoByte a) = .ok a := by
  cases a <;> rfl

def parseGit (algo : HashAlgo) (raw : Bytes) : Except OdbError ObjectId :=
  match ObjectId.fromBytes algo raw with
  | some git => .ok git
  | none => .error (.format "bad git oid in map.alt")

def parse (record : Bytes) : Except OdbError MapEntry := do
  let algo ← parseAlgo (record[0]?.getD 0)
  let git ← parseGit algo ((record.drop 1).take algo.rawLen)
  let kind ← parseKind (record[65]?.getD 0)
  .ok
    { git
      alt := .ofSlice 32 ((record.drop 33).take 32)
      kind
      size := .ofNat (leNat ((record.drop 66).take 8)) }

theorem parse_checkedBytes (e : MapEntry) (check : Bytes) :
    parse (checkedBytes e ++ check) = .ok e := by
  obtain ⟨git, ⟨alt, ha⟩, kind, size⟩ := e
  have hrec : checkedBytes ⟨git, ⟨alt, ha⟩, kind, size⟩ ++ check
      = algoByte git.algo :: (oidField git ++ (alt ++ (kindByte kind ::
        (leBytes 8 size.toNat ++ check)))) := by
    simp [checkedBytes]
  have hlen1 := length_oidField git
  have hgit : ((algoByte git.algo :: (oidField git ++ (alt ++ (kindByte kind ::
      (leBytes 8 size.toNat ++ check))))).drop 1).take git.algo.rawLen = git.asBytes := by
    rw [drop_succ_cons, drop_zero, oidField, append_assoc, ← ObjectId.length_asBytes, take_left]
  have hdrop33 : (algoByte git.algo :: (oidField git ++ (alt ++ (kindByte kind ::
      (leBytes 8 size.toNat ++ check))))).drop 33
      = alt ++ (kindByte kind :: (leBytes 8 size.toNat ++ check)) := by
    rw [drop_succ_cons, ← hlen1, drop_left]
  have hdrop65 : (algoByte git.algo :: (oidField git ++ (alt ++ (kindByte kind ::
      (leBytes 8 size.toNat ++ check))))).drop 65
      = kindByte kind :: (leBytes 8 size.toNat ++ check) := by
    rw [show (65 : Nat) = 33 + 32 from rfl, ← drop_drop, hdrop33, ← ha, drop_left]
  have hkind : (algoByte git.algo :: (oidField git ++ (alt ++ (kindByte kind ::
      (leBytes 8 size.toNat ++ check)))))[65]?.getD 0 = kindByte kind := by
    rw [← head?_drop, hdrop65]
    rfl
  have hsize : ((algoByte git.algo :: (oidField git ++ (alt ++ (kindByte kind ::
      (leBytes 8 size.toNat ++ check))))).drop 66).take 8 = leBytes 8 size.toNat := by
    rw [show (66 : Nat) = 65 + 1 from rfl, ← drop_drop, hdrop65, drop_succ_cons,
      drop_zero]
    exact take_left' (length_leBytes 8 _)
  have halt : ByteArr.ofSlice 32 ((alt ++ (kindByte kind ::
      (leBytes 8 size.toNat ++ check))).take 32) = ⟨alt, ha⟩ := by
    rw [take_left' ha]
    exact ByteArr.ofSlice_val ⟨alt, ha⟩
  have hlt : size.toNat < 256 ^ 8 := size.toNat_lt
  rw [hrec]
  simp only [parse, hkind, hsize, hdrop33, halt, getElem?_cons_zero, Option.getD_some,
    parseAlgo_algoByte, bind, Except.bind, hgit, parseGit, ObjectId.fromBytes_asBytes,
    parseKind_kindByte, leNat_leBytes_of_lt hlt,
    UInt64.ofNat_toNat]

/-- The object map file format. -/
def format (P : Prims) : RecordFormat MapEntry OdbError where
  magic := [0x41, 0x4c, 0x54, 0x47] -- b"ALTG"
  version := 1
  recLen := recLen
  recLen_pos := by decide
  encode e := checkedBytes e ++ P.checksum (checkedBytes e)
  length_encode e := by simp [length_checkedBytes, checkedLen, recLen]
  checkOk := P.checksumOk checkedLen
  checkOk_encode e := P.checksumOk_seal (length_checkedBytes e)
  parse := parse
  parse_encode e := parse_checkedBytes e _
  badHeader := .format "bad map.alt header"
  badVersion := .format "unsupported map.alt version"
  corrupt := .format "map.alt record corrupt"

/-- The in-memory indices: the entries in append order and the slots by either identity. -/
structure Index where
  entries : List MapEntry
  byGit : ObjectId → Option Nat
  byAlt : BlobId → Option (List Nat)

/-- Slots are stored as `u32`. -/
def slot (n : Nat) : Nat := n % 2 ^ 32

def Index.insert (m : Index) (e : MapEntry) : Index where
  entries := m.entries ++ [e]
  byGit := Function.update m.byGit e.git (some (slot m.entries.length))
  byAlt := Function.update m.byAlt e.alt
    (some ((m.byAlt e.alt).getD [] ++ [slot m.entries.length]))

def indexing : Indexing MapEntry Index where
  empty := ⟨[], fun _ => none, fun _ => none⟩
  insert := Index.insert

theorem entries_foldl (m : Index) (es : List MapEntry) :
    (es.foldl Index.insert m).entries = m.entries ++ es := by
  induction es generalizing m with
  | nil => simp
  | cons e es ih => rw [foldl_cons, ih]; simp [Index.insert]

/-- The entries are exactly the records folded in. -/
@[simp] theorem entries_fold (es : List MapEntry) : (indexing.fold es).entries = es := by
  rw [Indexing.fold]
  exact entries_foldl _ es

end ObjectMap

/-- An open object map. -/
abbrev ObjectMap := LogHandle ObjectMap.Index

end Alt.Odb
