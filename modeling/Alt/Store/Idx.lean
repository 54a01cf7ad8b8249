import Alt.Library.FinMap
import Alt.Store.Pack

namespace Alt.Store

open Alt.Library List

/-!
# altidx (`alt-store/src/idx.rs`)

The index file of a sealed pack: every record's id and offset, sorted by id.  The sort is
unstable and looks at the id alone, so it is a parameter `IdxSort` that carries what the
standard library promises of it and nothing about the order of equal ids.
-/

/-- `sort_unstable_by_key(|entry| entry.0.0)`. -/
structure IdxSort where
  sort : List (ChunkId × Nat) → List (ChunkId × Nat)
  sorted : ∀ l, SortedBy (fun e => e.1.val) l (sort l)

namespace Idx

def magic : Bytes := [0x41, 0x4c, 0x54, 0x49] -- b"ALTI"

def version : UInt8 := 1

/-- File header: magic + version + entry count u64. -/
def headerLen : Nat := 13

/-- Entry: blake3 id + record offset u64. -/
def entryLen : Nat := 40

def encodeEntry (e : ChunkId × Nat) : Bytes := e.1.val ++ leBytes 8 e.2

def parseEntry (chunk : Bytes) : ChunkId × Nat :=
  (.ofSlice 32 (chunk.take 32), leNat ((chunk.drop 32).take 8))

/-- The bytes `write` puts into the file. -/
def write (S : IdxSort) (entries : List (ChunkId × Nat)) : Bytes :=
  let sorted := S.sort entries
  magic ++ [version] ++ leBytes 8 sorted.length ++ sorted.flatMap encodeEntry

/-- The first `count` entries of the table. -/
def parseEntries : Nat → Bytes → List (ChunkId × Nat)
  | 0, _ => []
  | count + 1, data => parseEntry (data.take entryLen) :: parseEntries count (data.drop entryLen)

/-- Read an idx file; `none` is a file that is not there. -/
def read (file : Option Bytes) : Except StoreError (List (ChunkId × Nat)) :=
  match file with
  | none => .error .io
  | some data =>
    if data.length < headerLen ∨ data.take 4 ≠ magic then .error (.format "bad altidx header")
    else if data[4]? ≠ some version then .error (.format "unsupported altidx version")
    else
      let count := leNat ((data.drop 5).take 8)
      if count * entryLen + headerLen ≠ data.length then .error (.format "altidx length mismatch")
      else .ok (parseEntries count (data.drop headerLen))

@[simp] theorem length_encodeEntry (e : ChunkId × Nat) : (encodeEntry e).length = entryLen := by
  simp [encodeEntry, e.1.2, entryLen]

/-- An entry whose offset fits its field survives the trip to disk. -/
theorem parseEntry_encodeEntry {e : ChunkId × Nat} (h : e.2 < 2 ^ 64) :
    parseEntry (encodeEntry e) = e := by
  obtain ⟨⟨id, hid⟩, off⟩ := e
  have hoff : off < 256 ^ 8 := h
  have e1 : (id ++ leBytes 8 off).take 32 = id := by rw [← hid, take_left]
  have e2 : ((id ++ leBytes 8 off).drop 32).take 8 = leBytes 8 off := by
    rw [← hid, drop_left]
    exact take_of_length_le (by simp)
  simp only [parseEntry, encodeEntry, e1, e2, leNat_leBytes_of_lt hoff]
  rw [show ByteArr.ofSlice 32 id = ⟨id, hid⟩ from ByteArr.ofSlice_val ⟨id, hid⟩]

theorem parseEntries_flatMap {l : List (ChunkId × Nat)} (h : ∀ e ∈ l, e.2 < 2 ^ 64) :
    parseEntries l.length (l.flatMap encodeEntry) = l := by
  induction l with
  | nil => rfl
  | cons e l ih =>
    have htake : (encodeEntry e ++ l.flatMap encodeEntry).take entryLen = encodeEntry e :=
      take_left' (length_encodeEntry e)
    have hdrop : (encodeEntry e ++ l.flatMap encodeEntry).drop entryLen = l.flatMap encodeEntry :=
      drop_left' (length_encodeEntry e)
    rw [length_cons, parseEntries, flatMap_cons, htake, hdrop,
      parseEntry_encodeEntry (h e mem_cons_self),
      ih fun e' he' => h e' (mem_cons_of_mem e he')]

/-- **Index round trip.** Reading back what `write` wrote gives the entries in the order the
    sort left them. -/
theorem read_write (S : IdxSort) {entries : List (ChunkId × Nat)}
    (hoff : ∀ e ∈ entries, e.2 < 2 ^ 64) (hlen : entries.length < 2 ^ 64) :
    read (some (write S entries)) = .ok (S.sort entries) := by
  have hperm := (S.sorted entries).perm
  have hlen' : (S.sort entries).length < 256 ^ 8 := by
    rw [hperm.length_eq]
    exact hlen
  have hsize : ((S.sort entries).flatMap encodeEntry).length
      = (S.sort entries).length * entryLen := by
    rw [length_flatMap, map_congr_left (g := fun _ => entryLen)
      (fun e _ => length_encodeEntry e)]
    simp
  have hhead : ¬ ((write S entries).length < headerLen ∨ (write S entries).take 4 ≠ magic) := by
    simp [write, magic, headerLen]
  have hver : ¬ (write S entries)[4]? ≠ some version := by
    simp [write, magic]
  have hcount : leNat (((write S entries).drop 5).take 8) = (S.sort entries).length := by
    have hfield : ((write S entries).drop 5).take 8 = leBytes 8 (S.sort entries).length := by
      have h5 : (magic ++ [version]).length = 5 := rfl
      rw [write, append_assoc, ← h5, drop_left]
      exact take_left' (length_leBytes 8 _)
    rw [hfield, leNat_leBytes_of_lt hlen']
  have htable : (write S entries).drop headerLen = (S.sort entries).flatMap encodeEntry := by
    rw [write]
    exact drop_left' (by simp [magic, headerLen])
  have htotal : (write S entries).length = (S.sort entries).length * entryLen + headerLen := by
    rw [write, length_append, hsize]
    simp [magic, headerLen, Nat.add_comm]
  have hcheck : ¬ (leNat (((write S entries).drop 5).take 8) * entryLen + headerLen
      ≠ (write S entries).length) := by
    rw [hcount, htotal]
    exact fun h => h rfl
  unfold read
  dsimp only
  rw [if_neg hhead, if_neg hver, if_neg hcheck, hcount, htable,
    parseEntries_flatMap fun e he => hoff e (hperm.mem_iff.mp he)]

end Idx

end Alt.Store
