import Alt.Library.File
import Alt.Library.Framing
import Alt.Store.Error

namespace Alt.Store

open Alt.Library List

/-!
# altpack (`alt-store/src/pack.rs`)

The file header, the record encoding, and the sequential scan that doubles as crash
recovery.  `PackRecord` is a record that fits the format; `packBytes recs` is the file that
holds exactly `recs`, and `scan_packBytes` says that the scan finds them, at their offsets,
whatever incomplete record follows.
-/

namespace Pack

def magic : Bytes := [0x41, 0x4c, 0x54, 0x50] -- b"ALTP"

def version : UInt8 := 1

/-- File header: magic + version byte. -/
def headerLen : Nat := 5

/-- Record header: blake3 id, encoding byte, orig_len, stored_len. -/
def recHeaderLen : Nat := 32 + 1 + 4 + 4

def encRaw : UInt8 := 0
def encZstd : UInt8 := 1

/-- Lineage delta: payload = base chunk id (32 bytes) + zstd ref-prefix frame. -/
def encDelta : UInt8 := 2

/-- Encoding 3 stays reserved. -/
def encReservedMax : UInt8 := 3

def fileHeader : Bytes := magic ++ [version]

end Pack

open Pack

structure RecordHeader where
  id : ChunkId
  encoding : UInt8
  origLen : UInt32
  storedLen : UInt32
  deriving DecidableEq

namespace RecordHeader

def encode (h : RecordHeader) : Bytes :=
  h.id.val ++ [h.encoding] ++ leBytes 4 h.origLen.toNat ++ leBytes 4 h.storedLen.toNat

def parse (buf : Bytes) : RecordHeader where
  id := .ofSlice 32 (buf.take 32)
  encoding := buf.getD 32 0
  origLen := .ofNat (leNat ((buf.drop 33).take 4))
  storedLen := .ofNat (leNat ((buf.drop 37).take 4))

@[simp] theorem length_encode (h : RecordHeader) : h.encode.length = recHeaderLen := by
  simp [encode, h.id.2, recHeaderLen]

/-- A header survives the trip to disk. -/
@[simp] theorem parse_encode (h : RecordHeader) : parse h.encode = h := by
  obtain ⟨⟨id, hid⟩, encoding, origLen, storedLen⟩ := h
  have horig : origLen.toNat < 256 ^ 4 := origLen.toNat_lt
  have hstored : storedLen.toNat < 256 ^ 4 := storedLen.toNat_lt
  have e1 : (id ++ [encoding] ++ leBytes 4 origLen.toNat ++ leBytes 4 storedLen.toNat).take 32
      = id := by
    rw [append_assoc, append_assoc, ← hid, take_left]
  have e2 : (id ++ [encoding] ++ leBytes 4 origLen.toNat
      ++ leBytes 4 storedLen.toNat).getD 32 0 = encoding := by
    rw [append_assoc, append_assoc, getD_eq_getElem?_getD,
      getElem?_append_right (by rw [hid]), hid]
    rfl
  have h33 : (id ++ [encoding]).length = 33 := by simp [hid]
  have e3 : ((id ++ [encoding] ++ leBytes 4 origLen.toNat
      ++ leBytes 4 storedLen.toNat).drop 33).take 4 = leBytes 4 origLen.toNat := by
    rw [append_assoc (id ++ [encoding]), ← h33, drop_left]
    exact take_left' (length_leBytes 4 _)
  have h37 : (id ++ [encoding] ++ leBytes 4 origLen.toNat).length = 37 := by simp [hid]
  have e4 : ((id ++ [encoding] ++ leBytes 4 origLen.toNat
      ++ leBytes 4 storedLen.toNat).drop 37).take 4 = leBytes 4 storedLen.toNat := by
    rw [← h37, drop_left]
    exact take_of_length_le (by simp)
  simp only [parse, encode, e1, e2, e3, e4, leNat_leBytes_of_lt horig, leNat_leBytes_of_lt hstored,
    UInt32.ofNat_toNat]
  rw [show ByteArr.ofSlice 32 id = ⟨id, hid⟩ from ByteArr.ofSlice_val ⟨id, hid⟩]

end RecordHeader

/-- A record that fits the format: a known encoding, and a payload of the length its header
    says. -/
structure PackRecord where
  header : RecordHeader
  payload : Bytes
  encoding_le : header.encoding ≤ encReservedMax
  length_payload : payload.length = header.storedLen.toNat

namespace PackRecord

def id (r : PackRecord) : ChunkId := r.header.id

def bytes (r : PackRecord) : Bytes := r.header.encode ++ r.payload

def size (r : PackRecord) : Nat := recHeaderLen + r.payload.length

variable (r : PackRecord)

@[simp] theorem length_bytes : r.bytes.length = r.size := by
  simp [bytes, size]

theorem size_pos : 0 < r.size := by
  unfold size recHeaderLen
  omega

theorem bytes_ne_nil : r.bytes ≠ [] := by
  have := r.size_pos
  rw [← r.length_bytes] at this
  exact length_pos_iff.mp this

end PackRecord

namespace Pack

def checkFileHeader (data : Bytes) : Except StoreError Unit :=
  if data.length < headerLen ∨ data.take 4 ≠ magic then .error (.format "bad altpack header")
  else if data[4]? ≠ some version then .error (.format "unsupported altpack version")
  else .ok ()

theorem checkFileHeader_fileHeader (rest : Bytes) :
    checkFileHeader (fileHeader ++ rest) = .ok () := by
  have h1 : ¬ ((fileHeader ++ rest).length < headerLen ∨ (fileHeader ++ rest).take 4 ≠ magic) := by
    simp [fileHeader, magic, headerLen]
  have h2 : ¬ (fileHeader ++ rest)[4]? ≠ some version := by
    simp [fileHeader, magic]
  rw [checkFileHeader, if_neg h1, if_neg h2]

/-- One round of the scan, at offset `pos`: a record cut short, or an unknown encoding,
    ends the walk. -/
def nextRecord (pos : Nat) (data : Bytes) : Next Nat (RecordHeader × Nat) StoreError :=
  match takeN recHeaderLen data with
  | none => .stop
  | some (hdrBytes, rest) =>
    let hdr := RecordHeader.parse hdrBytes
    if encReservedMax < hdr.encoding then .stop
    else
      match takeN hdr.storedLen.toNat rest with
      | none => .stop
      | some (_, rest') => .record (hdr, pos) (pos + recHeaderLen + hdr.storedLen.toNat) rest'

/-- A record that is there is a nonempty prefix, whatever follows it. -/
theorem nextRecord_local {pos pos' : Nat} {data rest : Bytes} {r : RecordHeader × Nat}
    (h : nextRecord pos data = .record r pos' rest) :
    ∃ b, data = b ++ rest ∧ b ≠ [] ∧
      ∀ rest', nextRecord pos (b ++ rest') = .record r pos' rest' := by
  unfold nextRecord at h
  split at h
  · cases h
  · rename_i hdrBytes tail htake
    obtain ⟨rfl, hlen⟩ := takeN_eq_some.mp htake
    dsimp only at h
    split at h
    · cases h
    · rename_i henc
      split at h
      · cases h
      · rename_i payload rest'' hpay
        obtain ⟨rfl, hplen⟩ := takeN_eq_some.mp hpay
        cases h
        refine ⟨hdrBytes ++ payload, by rw [append_assoc], ?_, ?_⟩
        · intro hnil
          have := congrArg List.length hnil
          simp [hlen, recHeaderLen] at this
        · intro rest'
          unfold nextRecord
          rw [append_assoc, takeN_append' _ _ hlen]
          dsimp only
          rw [if_neg henc, takeN_append' _ _ hplen]

/-- The records of a pack; the walk's state is the file offset. -/
def framing : Framing Nat (RecordHeader × Nat) StoreError where
  next := nextRecord
  local_record := nextRecord_local

/-- Every structurally complete record, with its offset, and the length of the valid
    prefix. -/
def scan (data : Bytes) : Except StoreError (List (RecordHeader × Nat) × Nat) := do
  checkFileHeader data
  let found := framing.walk headerLen (data.drop headerLen)
  return (found.records, headerLen + found.valid)

/-! ### The file that holds given records -/

def body (recs : List PackRecord) : Bytes := recs.flatMap PackRecord.bytes

def packBytes (recs : List PackRecord) : Bytes := fileHeader ++ body recs

/-- The records with their offsets, the first one at `pos`. -/
def place : Nat → List PackRecord → List (PackRecord × Nat)
  | _, [] => []
  | pos, r :: recs => (r, pos) :: place (pos + r.size) recs

/-- What an index of the pack lists: every record's id and offset, in file order. -/
def entries (recs : List PackRecord) : List (ChunkId × Nat) :=
  (place headerLen recs).map fun p => (p.1.id, p.2)

@[simp] theorem body_nil : body [] = [] := rfl

@[simp] theorem body_cons (r : PackRecord) (recs : List PackRecord) :
    body (r :: recs) = r.bytes ++ body recs := rfl

variable (recs : List PackRecord)

@[simp] theorem body_append (recs' : List PackRecord) :
    body (recs ++ recs') = body recs ++ body recs' := flatMap_append

@[simp] theorem length_fileHeader : fileHeader.length = headerLen := rfl

theorem length_packBytes :
    (packBytes recs).length = headerLen + (body recs).length := by
  simp [packBytes]

theorem packBytes_append (recs' : List PackRecord) :
    packBytes (recs ++ recs') = packBytes recs ++ body recs' := by
  simp [packBytes]

variable (pos : Nat)

theorem place_append (recs recs' : List PackRecord) :
    place pos (recs ++ recs') = place pos recs ++ place (pos + (body recs).length) recs' := by
  induction recs generalizing pos with
  | nil => rfl
  | cons r recs ih => simp [place, ih, Nat.add_assoc]

theorem entries_append (r : PackRecord) :
    entries (recs ++ [r]) = entries recs ++ [(r.id, (packBytes recs).length)] := by
  simp [entries, place_append, place, length_packBytes]

/-- A placed record stands behind the records before it. -/
theorem mem_place {pos off : Nat} {recs : List PackRecord} {r : PackRecord}
    (h : (r, off) ∈ place pos recs) :
    ∃ pre post, recs = pre ++ r :: post ∧ off = pos + (body pre).length := by
  induction recs generalizing pos with
  | nil => cases h
  | cons r' recs ih =>
    rcases mem_cons.mp h with heq | htail
    · obtain ⟨rfl, rfl⟩ := Prod.mk.inj heq
      exact ⟨[], recs, rfl, rfl⟩
    · obtain ⟨pre, post, rfl, rfl⟩ := ih htail
      exact ⟨r' :: pre, post, rfl, by simp [Nat.add_assoc]⟩

/-- Offsets ascend strictly. -/
theorem place_sorted (recs : List PackRecord) :
    (place pos recs).Pairwise (fun p q => p.2 < q.2) ∧ ∀ p ∈ place pos recs, pos ≤ p.2 := by
  induction recs generalizing pos with
  | nil => exact ⟨.nil, by simp [place]⟩
  | cons r recs ih =>
    obtain ⟨hpair, hle⟩ := ih (pos + r.size)
    have hpos := r.size_pos
    refine ⟨pairwise_cons.mpr ⟨?_, hpair⟩, ?_⟩
    · intro p hp
      have := hle p hp
      show pos < p.2
      omega
    · intro p hp
      rcases mem_cons.mp hp with rfl | hp
      · exact le_rfl
      · have := hle p hp
        omega

/-! ### What the scan finds -/

theorem nextRecord_bytes (r : PackRecord) (rest : Bytes) :
    nextRecord pos (r.bytes ++ rest) = .record (r.header, pos) (pos + r.size) rest := by
  have henc : ¬ encReservedMax < r.header.encoding := by
    have := r.encoding_le
    simpa using this
  unfold nextRecord
  rw [PackRecord.bytes, append_assoc, takeN_append' _ _ r.header.length_encode]
  dsimp only
  rw [RecordHeader.parse_encode, if_neg henc, takeN_append' _ _ r.length_payload]
  simp only [PackRecord.size, r.length_payload, Nat.add_assoc]

theorem reads_body (recs : List PackRecord) :
    framing.Reads pos (body recs) ((place pos recs).map fun p => (p.1.header, p.2))
      (pos + (body recs).length) := by
  induction recs generalizing pos with
  | nil => exact .nil _
  | cons r recs ih =>
    have htail := ih (pos + r.size)
    rw [body_cons, place, map_cons, length_append, PackRecord.length_bytes,
      ← Nat.add_assoc]
    exact .cons r.bytes_ne_nil (fun rest => nextRecord_bytes pos r rest) htail

/-- **The scan finds the records**, and stops at what is not a complete record. -/
theorem scan_packBytes {torn : Bytes} (h : nextRecord (packBytes recs).length torn = .stop) :
    scan (packBytes recs ++ torn)
      = .ok ((place headerLen recs).map (fun p => (p.1.header, p.2)), (packBytes recs).length) := by
  have hheader : checkFileHeader (packBytes recs ++ torn) = .ok () := by
    rw [packBytes, append_assoc]
    exact checkFileHeader_fileHeader _
  have hbody : (packBytes recs ++ torn).drop headerLen = body recs ++ torn := by
    rw [packBytes, append_assoc, ← length_fileHeader, drop_left]
  rw [length_packBytes] at h
  have hwalk := Framing.walk_reads_stop (reads_body headerLen recs) h
  simp only [scan, hheader, hbody, hwalk, length_packBytes]
  rfl

/-- Fewer bytes than a record header are no record. -/
theorem nextRecord_short {pos : Nat} {data : Bytes} (h : data.length < recHeaderLen) :
    nextRecord pos data = .stop := by
  unfold nextRecord
  rw [takeN_eq_none.mpr h]

/-- A record cut short is no record. -/
theorem nextRecord_torn (r : PackRecord) {n : Nat} (h : n < r.size) :
    nextRecord pos (r.bytes.take n) = .stop := by
  by_cases hn : n < recHeaderLen
  · apply nextRecord_short
    rw [length_take]
    omega
  · have htake : r.bytes.take n = r.header.encode ++ r.payload.take (n - recHeaderLen) := by
      rw [PackRecord.bytes, take_append, r.header.length_encode,
        take_of_length_le (by rw [r.header.length_encode]; omega)]
    have hshort : (r.payload.take (n - recHeaderLen)).length < r.header.storedLen.toNat := by
      have := r.length_payload
      unfold PackRecord.size at h
      rw [length_take]
      omega
    unfold nextRecord
    rw [htake, takeN_append' _ _ r.header.length_encode]
    dsimp only
    rw [RecordHeader.parse_encode, takeN_eq_none.mpr hshort]
    split <;> rfl

end Pack

end Alt.Store
