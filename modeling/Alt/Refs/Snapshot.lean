import Alt.Refs.Tx

namespace Alt.Refs

open Alt.Library List

/-!
# Ref snapshots (`alt-refs/src/snapshot.rs`)

The full ref map as of one op id, behind a checksum.  A snapshot only speeds replay up: any
structural problem reads as `none`, never as an error.

The entries use the layout of `tx.rs` without the absent target; their count is cut to four
bytes and their strings to two-byte lengths.
-/

/-- The ref map (`BTreeMap<String, RefTarget>`). -/
abbrev RefMap := Std.ExtTreeMap String RefTarget compare

namespace Snapshot

/-- Magic `ALTS`, version 1. -/
def fileHeader : Bytes := [0x41, 0x4c, 0x54, 0x53, 1]

def encodeEntry (e : String × RefTarget) : Bytes := encodeStr e.1 ++ encodeTarget (some e.2)

/-- Everything the checksum covers. -/
def encodeBody (atOp : OpId) (refs : RefMap) : Bytes :=
  fileHeader ++ atOp.val ++ leBytes 4 refs.size ++ refs.toList.flatMap encodeEntry

/-- The bytes of the snapshot file. -/
def write (P : Prims) (atOp : OpId) (refs : RefMap) : Bytes :=
  encodeBody atOp refs ++ P.checksum (encodeBody atOp refs)

def parseEntryTarget : Bytes → Option (RefTarget × Bytes)
  | [] => none
  | tag :: data =>
    if tag = targetOid then (parseOid data).toOption.map fun p => (.oid p.1, p.2)
    else if tag = targetSymbolic then
      (parseStr truncated data).toOption.map fun p => (.symbolic p.1, p.2)
    else none

def parseEntry (data : Bytes) : Option ((String × RefTarget) × Bytes) := do
  let (name, data) ← (parseStr truncated data).toOption
  let (target, data) ← parseEntryTarget data
  return ((name, target), data)

def parseEntries : Nat → RefMap → Bytes → Option (RefMap × Bytes)
  | 0, refs, data => some (refs, data)
  | count + 1, refs, data => do
    let (e, data) ← parseEntry data
    parseEntries count (refs.insert e.1 e.2) data

/-- Reads a snapshot file (`none`: missing). -/
def read (P : Prims) (file : Option Bytes) : Option (OpId × RefMap) := do
  let data ← file
  if data.length < 5 + 32 + 4 + 8 ∨ data.take 5 ≠ fileHeader then none
  let body := data.take (data.length - 8)
  let check := data.drop (data.length - 8)
  if P.checksum body ≠ check then none
  let atOp : OpId := .ofSlice 32 ((body.drop 5).take 32)
  let count := leNat ((body.drop 37).take 4)
  let (refs, rest) ← parseEntries count ∅ (body.drop 41)
  if rest ≠ [] then none
  return (atOp, refs)

/-! ### The codec -/

/-- Every name and symref target in the map fits its length field. -/
def Fits (refs : RefMap) : Prop :=
  ∀ name target, refs[name]? = some target → StrFits name ∧ TargetFits (some target)

theorem parseEntry_encodeEntry {e : String × RefTarget}
    (h : StrFits e.1 ∧ TargetFits (some e.2)) (rest : Bytes) :
    parseEntry (encodeEntry e ++ rest) = some (e, rest) := by
  obtain ⟨name, target⟩ := e
  have hname := parseStr_encodeStr h.1 truncated (encodeTarget (some target) ++ rest)
  have htarget : parseEntryTarget (encodeTarget (some target) ++ rest) = some (target, rest) := by
    match target, h.2 with
    | .oid id, _ =>
      simp only [encodeTarget, cons_append, parseEntryTarget, parseOid_encode]
      rfl
    | .symbolic sym, h =>
      have hsym := parseStr_encodeStr (show StrFits sym from h) truncated rest
      simp only [encodeTarget, cons_append, parseEntryTarget, hsym]
      rfl
  simp only [parseEntry, encodeEntry, append_assoc, hname, htarget, Except.toOption, bind,
    Option.bind, pure]

/-- Reading `count` of the encoded entries inserts them and leaves the others. -/
theorem parseEntries_encode {es : List (String × RefTarget)}
    (h : ∀ e ∈ es, StrFits e.1 ∧ TargetFits (some e.2)) {count : Nat} (hc : count ≤ es.length)
    (refs : RefMap) (rest : Bytes) :
    parseEntries count refs (es.flatMap encodeEntry ++ rest)
      = some ((es.take count).foldl (fun m e => m.insert e.1 e.2) refs,
          (es.drop count).flatMap encodeEntry ++ rest) := by
  induction es generalizing count refs with
  | nil =>
    obtain rfl : count = 0 := Nat.le_zero.mp hc
    rfl
  | cons e es ih =>
    cases count with
    | zero => rfl
    | succ count =>
      have hhead := parseEntry_encodeEntry (h e mem_cons_self)
        (es.flatMap encodeEntry ++ rest)
      have htail := ih (fun e' he' => h e' (mem_cons_of_mem _ he'))
        (Nat.le_of_succ_le_succ hc) (refs.insert e.1 e.2)
      rw [flatMap_cons, append_assoc, parseEntries]
      simp only [hhead, bind, Option.bind, htail]
      rfl

/-- Inserting a map's own entries builds the map. -/
theorem foldl_insert_toList (refs : RefMap) :
    refs.toList.foldl (fun m e => m.insert e.1 e.2) (∅ : RefMap) = refs := by
  rw [← Std.ExtTreeMap.ofList_eq_foldl]
  refine Std.ExtTreeMap.ext_getElem? fun name => ?_
  cases hget : refs[name]? with
  | some target =>
    exact Std.ExtTreeMap.getElem?_ofList_of_mem (Std.ReflCmp.compare_self)
      Std.ExtTreeMap.distinct_keys_toList (Std.ExtTreeMap.mem_toList_iff_getElem?_eq_some.mpr hget)
  | none =>
    refine Std.ExtTreeMap.getElem?_ofList_of_contains_eq_false ?_
    rw [← Bool.not_eq_true, contains_iff_mem, mem_map]
    rintro ⟨⟨name', target⟩, hmem, rfl⟩
    rw [Std.ExtTreeMap.mem_toList_iff_getElem?_eq_some.mp hmem] at hget
    cases hget

theorem length_encodeBody_fixed (atOp : OpId) (count : Nat) :
    (fileHeader ++ atOp.val ++ leBytes 4 count).length = 41 := by
  simp only [length_append, length_leBytes, atOp.2]
  rfl

/-- The checks in front of the entries pass on what `write` wrote. -/
theorem read_write_eq (P : Prims) (atOp : OpId) (refs : RefMap) :
    read P (some (write P atOp refs))
      = (parseEntries (refs.size % 2 ^ 32) ∅ (refs.toList.flatMap encodeEntry)).bind
          fun p => if p.2 ≠ [] then none else some (atOp, p.1) := by
  have hbody : encodeBody atOp refs = fileHeader ++ (atOp.val ++ (leBytes 4 refs.size
      ++ refs.toList.flatMap encodeEntry)) := by
    simp only [encodeBody, append_assoc]
  have hcheck := P.length_checksum (encodeBody atOp refs)
  have h5 : fileHeader.length = 5 := rfl
  have hlen : 41 ≤ (encodeBody atOp refs).length := by
    rw [encodeBody, length_append, length_encodeBody_fixed]
    omega
  have hcut : (write P atOp refs).length - 8 = (encodeBody atOp refs).length := by
    rw [write, length_append, hcheck, Nat.add_sub_cancel]
  have htake : (write P atOp refs).take (encodeBody atOp refs).length = encodeBody atOp refs :=
    take_left
  have hdrop : (write P atOp refs).drop (encodeBody atOp refs).length
      = P.checksum (encodeBody atOp refs) := drop_left
  have hmagic : (write P atOp refs).take 5 = fileHeader := by
    rw [write, hbody, append_assoc, ← h5, take_left]
  have hshort : ¬ ((write P atOp refs).length < 5 + 32 + 4 + 8 ∨
      (write P atOp refs).take 5 ≠ fileHeader) := by
    rw [hmagic, write, length_append, hcheck]
    simp
    omega
  have d5 : (encodeBody atOp refs).drop 5 = atOp.val ++ (leBytes 4 refs.size
      ++ refs.toList.flatMap encodeEntry) := by
    rw [hbody, ← h5, drop_left]
  have d37 : (encodeBody atOp refs).drop 37 = leBytes 4 refs.size
      ++ refs.toList.flatMap encodeEntry := by
    rw [show (37 : Nat) = 5 + 32 from rfl, ← drop_drop, d5]
    exact drop_left' atOp.2
  have d41 : (encodeBody atOp refs).drop 41 = refs.toList.flatMap encodeEntry := by
    rw [show (41 : Nat) = 37 + 4 from rfl, ← drop_drop, d37]
    exact drop_left' (length_leBytes 4 _)
  have hid : ((encodeBody atOp refs).drop 5).take 32 = atOp.val := by
    rw [d5]
    exact take_left' atOp.2
  have hcount : leNat (((encodeBody atOp refs).drop 37).take 4) = refs.size % 2 ^ 32 := by
    rw [d37, take_left' (length_leBytes 4 _), leNat_leBytes]
    rfl
  simp only [read, bind, Option.bind, hshort, ↓reduceIte, hcut, htake, hdrop, ne_eq,
    not_true_eq_false, hid, hcount, d41, ByteArr.ofSlice_val, pure]

/-- **Snapshot round trip**, for a map whose size fits the count. -/
theorem read_write (P : Prims) (atOp : OpId) {refs : RefMap} (h : Fits refs)
    (hsize : refs.size < 2 ^ 32) : read P (some (write P atOp refs)) = some (atOp, refs) := by
  have hentries : ∀ e ∈ refs.toList, StrFits e.1 ∧ TargetFits (some e.2) := fun e he =>
    h e.1 e.2 (Std.ExtTreeMap.mem_toList_iff_getElem?_eq_some.mp he)
  have hlen : refs.toList.length = refs.size := Std.ExtTreeMap.length_toList
  have hparse := parseEntries_encode hentries (le_refl refs.toList.length) ∅ []
  rw [append_nil, take_length, drop_length, foldl_insert_toList, hlen] at hparse
  rw [read_write_eq, Nat.mod_eq_of_lt hsize, hparse]
  rfl

/-- A map too large for the count reads as no snapshot at all. -/
theorem read_write_large (P : Prims) (atOp : OpId) {refs : RefMap} (h : Fits refs)
    (hsize : 2 ^ 32 ≤ refs.size) : read P (some (write P atOp refs)) = none := by
  have hentries : ∀ e ∈ refs.toList, StrFits e.1 ∧ TargetFits (some e.2) := fun e he =>
    h e.1 e.2 (Std.ExtTreeMap.mem_toList_iff_getElem?_eq_some.mp he)
  have hlen : refs.toList.length = refs.size := Std.ExtTreeMap.length_toList
  have hlt : refs.size % 2 ^ 32 < refs.toList.length := by
    have := Nat.mod_lt refs.size (by decide : 0 < 2 ^ 32)
    omega
  have hparse := parseEntries_encode hentries hlt.le ∅ []
  have hleft : (refs.toList.drop (refs.size % 2 ^ 32)).flatMap encodeEntry ++ [] ≠ [] := by
    have hpos : 0 < (refs.toList.drop (refs.size % 2 ^ 32)).length := by
      rw [length_drop]; omega
    obtain ⟨e, es, he⟩ := exists_cons_of_ne_nil (ne_nil_of_length_pos hpos)
    rw [he, append_nil, flatMap_cons, encodeEntry, encodeStr, ← length_pos_iff]
    simp only [length_append, length_leBytes]
    omega
  rw [append_nil] at hparse
  rw [read_write_eq, hparse, Option.bind_some, if_pos (by simpa using hleft)]

end Snapshot

end Alt.Refs
