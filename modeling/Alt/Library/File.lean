import Alt.Library.Bytes

namespace Alt.Library

open List

/-!
# Library — the contents of a file under positioned writes and truncation

A file is its bytes.  `writeAt` is a positioned write (a gap before it reads as zeros, a
write of nothing leaves the file alone) and `setLen` truncates or zero-extends.  The
lemmas say what the two do at the end of the file, where a log lives.  `FileHeader` is the
magic and version byte a log starts with, and how an opener checks them.
-/

/-- Write `b` at offset `pos`. -/
def writeAt (f : Bytes) (pos : Nat) (b : Bytes) : Bytes :=
  if b = [] then f
  else (f ++ List.replicate (pos - f.length) 0).take pos ++ b ++ f.drop (pos + b.length)

/-- Truncate to `n` bytes, or extend with zeros. -/
def setLen (f : Bytes) (n : Nat) : Bytes :=
  (f ++ List.replicate (n - f.length) 0).take n

@[simp] theorem writeAt_nil (f : Bytes) (pos : Nat) : writeAt f pos [] = f := by
  simp [writeAt]

/-- A write at the end of the file appends. -/
@[simp] theorem writeAt_length (f b : Bytes) : writeAt f f.length b = f ++ b := by
  unfold writeAt
  split
  · rename_i h
    simp [h]
  · simp

/-- `writeAt_length` with the position as a side condition. -/
theorem writeAt_end {f : Bytes} {pos : Nat} (b : Bytes) (h : pos = f.length) :
    writeAt f pos b = f ++ b := by
  rw [h, writeAt_length]

/-- Truncating below the file's length keeps a prefix. -/
theorem setLen_le {f : Bytes} {n : Nat} (h : n ≤ f.length) : setLen f n = f.take n := by
  have hz : n - f.length = 0 := by omega
  rw [setLen, hz, replicate_zero, append_nil]

@[simp] theorem setLen_length (f : Bytes) : setLen f f.length = f := by
  rw [setLen_le le_rfl, take_length]

@[simp] theorem length_setLen (f : Bytes) (n : Nat) : (setLen f n).length = n := by
  simp only [setLen, length_take, length_append, length_replicate]
  omega

/-- Truncating an appended tail away restores the file. -/
theorem setLen_append (f b : Bytes) : setLen (f ++ b) f.length = f := by
  rw [setLen_le (by simp), take_left]

/-- Read exactly `n` bytes at offset `pos`; `none` when the file ends before. -/
def readExactAt (f : Bytes) (n pos : Nat) : Option Bytes :=
  if pos + n ≤ f.length then some ((f.drop pos).take n) else none

/-- A read inside a field gives that part of the field. -/
theorem readExactAt_within {k n : Nat} (a b c : Bytes) (h : k + n ≤ b.length) :
    readExactAt (a ++ (b ++ c)) n (a.length + k) = some ((b.drop k).take n) := by
  have hle : a.length + k + n ≤ (a ++ (b ++ c)).length := by
    simp only [length_append]
    omega
  have hdrop : (a ++ (b ++ c)).drop (a.length + k) = b.drop k ++ c := by
    rw [← drop_drop, drop_left, drop_append_of_le_length (by omega)]
  rw [readExactAt, if_pos hle, hdrop, take_append_of_le_length (by rw [length_drop]; omega)]

/-! ### File headers -/

/-- A magic and a version byte, and the errors for a file that starts otherwise. -/
structure FileHeader (ε : Type) where
  magic : Bytes
  version : UInt8
  badHeader : ε
  badVersion : ε

namespace FileHeader

variable {ε : Type} (H : FileHeader ε)

def header : Bytes := H.magic ++ [H.version]

def headerLen : Nat := H.magic.length + 1

@[simp] theorem length_header : H.header.length = H.headerLen := by
  simp [header, headerLen]

theorem headerLen_pos : 0 < H.headerLen := Nat.succ_pos _

/-- A short file must be a prefix of the header (a crash between create and the header
    write); a longer one must carry the magic and the version. -/
def checkHeader (data : Bytes) : Except ε Unit :=
  if data.length < H.headerLen then
    if data.isPrefixOf H.header then .ok () else .error H.badHeader
  else if data.take H.magic.length ≠ H.magic then .error H.badHeader
  else if data[H.magic.length]? ≠ some H.version then .error H.badVersion
  else .ok ()

variable {H}

theorem checkHeader_header (rest : Bytes) : H.checkHeader (H.header ++ rest) = .ok () := by
  have hlen : ¬ (H.header ++ rest).length < H.headerLen := by simp
  have hm : (H.header ++ rest).take H.magic.length = H.magic := by
    simp [header]
  have hv : (H.header ++ rest)[H.magic.length]? = some H.version := by
    simp [header]
  rw [checkHeader, if_neg hlen, if_neg (by simp [hm]), if_neg (by simp [hv])]

/-- A file the check accepts starts with the header, if it is long enough. -/
theorem take_header_of_checkHeader {data : Bytes} (h : H.checkHeader data = .ok ())
    (hlen : H.headerLen ≤ data.length) : data.take H.headerLen = H.header := by
  rw [checkHeader, if_neg (by omega)] at h
  split at h
  · cases h
  · rename_i hm
    split at h
    · cases h
    · rename_i hv
      rw [not_not] at hm hv
      have hlt : H.magic.length < data.length := by rw [headerLen] at hlen; omega
      rw [headerLen, take_add_one, hm, hv]
      rfl

end FileHeader

end Alt.Library
