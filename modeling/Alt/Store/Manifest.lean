import Alt.Store.Error

namespace Alt.Store

open Alt.Library List

/-!
# Manifest nodes (`alt-store/src/blob.rs`)

A blob of several chunks is a tree of nodes; a node is a chunk that lists the chunks below
it.  A node at level 0 lists data chunks.
-/

structure NodeEntry where
  id : ChunkId
  /-- Bytes covered: chunk length at level 0, subtree total above. -/
  span : UInt64
  deriving DecidableEq

namespace Manifest

def nodeMagic : Bytes := [0x41, 0x4c, 0x54, 0x4d] -- b"ALTM"

def nodeVersion : UInt8 := 1

/-- Node header: magic + version + level u8 + count u32. -/
def nodeHeaderLen : Nat := 10

/-- Entry: chunk id 32 + span u64. -/
def nodeEntryLen : Nat := 40

def encodeEntry (e : NodeEntry) : Bytes := e.id.val ++ leBytes 8 e.span.toNat

def encodeNode (level : Nat) (entries : List NodeEntry) : Bytes :=
  nodeMagic ++ [nodeVersion, UInt8.ofNat level] ++ leBytes 4 entries.length
    ++ entries.flatMap encodeEntry

def parseEntry (raw : Bytes) : NodeEntry where
  id := .ofSlice 32 (raw.take 32)
  span := .ofNat (leNat (raw.drop 32))

def parseEntries : Nat → Bytes → List NodeEntry
  | 0, _ => []
  | count + 1, raw => parseEntry (raw.take nodeEntryLen) :: parseEntries count (raw.drop nodeEntryLen)

def parseNode (data : Bytes) : Except StoreError (Nat × List NodeEntry) :=
  if data.length < nodeHeaderLen ∨ data.take 4 ≠ nodeMagic then
    .error (.format "bad manifest node header")
  else if data[4]? ≠ some nodeVersion then
    .error (.format "unsupported manifest node version")
  else
    let level := (data[5]?.getD 0).toNat
    let count := leNat ((data.drop 6).take 4)
    if count * nodeEntryLen + nodeHeaderLen ≠ data.length then
      .error (.format "manifest node length mismatch")
    else .ok (level, parseEntries count (data.drop nodeHeaderLen))

theorem length_encodeEntry (e : NodeEntry) : (encodeEntry e).length = nodeEntryLen := by
  simp [encodeEntry, e.id.2, nodeEntryLen]

theorem length_encodeNode (level : Nat) (entries : List NodeEntry) :
    (encodeNode level entries).length = nodeHeaderLen + entries.length * nodeEntryLen := by
  have hentries : (entries.flatMap encodeEntry).length = entries.length * nodeEntryLen := by
    induction entries with
    | nil => rfl
    | cons e entries ih =>
      rw [flatMap_cons, length_append, length_encodeEntry, ih, length_cons]
      ring
  rw [encodeNode, length_append, hentries, length_append, length_leBytes]
  rfl

theorem parseEntry_encodeEntry (e : NodeEntry) : parseEntry (encodeEntry e) = e := by
  obtain ⟨⟨id, hid⟩, span⟩ := e
  have hlt : span.toNat < 256 ^ 8 := span.toNat_lt
  have htake : (id ++ leBytes 8 span.toNat).take 32 = id := take_left' hid
  have hdrop : (id ++ leBytes 8 span.toNat).drop 32 = leBytes 8 span.toNat := drop_left' hid
  simp only [parseEntry, encodeEntry, htake, hdrop, leNat_leBytes_of_lt hlt, UInt64.ofNat_toNat]
  rw [show ByteArr.ofSlice 32 id = ⟨id, hid⟩ from ByteArr.ofSlice_val ⟨id, hid⟩]

theorem parseEntries_encode (entries : List NodeEntry) :
    parseEntries entries.length (entries.flatMap encodeEntry) = entries := by
  induction entries with
  | nil => rfl
  | cons e entries ih =>
    have hlen := length_encodeEntry e
    rw [flatMap_cons, length_cons, parseEntries, take_left' hlen,
      drop_left' hlen, parseEntry_encodeEntry, ih]

/-- **Nodes read back**, as long as level and count fit their fields. -/
theorem parseNode_encodeNode {level : Nat} {entries : List NodeEntry} (hlevel : level < 256)
    (hcount : entries.length < 2 ^ 32) :
    parseNode (encodeNode level entries) = .ok (level, entries) := by
  have hlen := length_encodeNode level entries
  have hshape : encodeNode level entries = 0x41 :: 0x4c :: 0x54 :: 0x4d :: nodeVersion ::
      UInt8.ofNat level :: (leBytes 4 entries.length ++ entries.flatMap encodeEntry) := by
    rw [encodeNode]
    rfl
  have hmagic : (encodeNode level entries).take 4 = nodeMagic := by rw [hshape]; rfl
  have hversion : (encodeNode level entries)[4]? = some nodeVersion := by rw [hshape]; rfl
  have hfive : (encodeNode level entries)[5]? = some (UInt8.ofNat level) := by rw [hshape]; rfl
  have hcount' : leNat (((encodeNode level entries).drop 6).take 4) = entries.length := by
    have hdrop : (encodeNode level entries).drop 6
        = leBytes 4 entries.length ++ entries.flatMap encodeEntry := by rw [hshape]; rfl
    rw [hdrop, take_left' (length_leBytes 4 _)]
    exact leNat_leBytes_of_lt hcount
  have hbody : (encodeNode level entries).drop nodeHeaderLen = entries.flatMap encodeEntry := by
    rw [encodeNode]
    exact drop_left' (by rw [length_append, length_leBytes]; rfl)
  rw [parseNode, if_neg, if_neg]
  · have hbyte : (UInt8.ofNat level).toNat = level := UInt8.toNat_ofNat_of_lt' hlevel
    simp only [hcount', hfive, Option.getD_some, hbyte, hbody, parseEntries_encode]
    rw [if_neg (by rw [hlen]; omega)]
  · rw [hversion]
    exact fun h => h rfl
  · rintro (hshort | hbad)
    · rw [hlen] at hshort
      omega
    · exact hbad hmagic

end Manifest

end Alt.Store
