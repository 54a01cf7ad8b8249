import Alt.GitCodec.Headers

namespace Alt

open Alt.Library List

/-!
# Tree objects (`alt-git-codec/src/tree.rs`)

A tree is a sequence of entries `<mode> SP <name> NUL <raw id>`.

* `EntryMode` — a mode keeps the octal digits it was written with;
* `Tree.serialize_of_parse` — the bytes come back, whatever the modes look like;
* `Tree.parse_serialize_iff` — a tree comes back exactly when no name holds a NUL and every
  id is of the algorithm it is read with.

`objects_keep_identity` puts the three object types together.
-/

/-- A mode as its original octal ASCII digits. -/
structure EntryMode where
  bytes : Bytes
  ne_nil : bytes ≠ []
  length_le : bytes.length ≤ 6
  octal : bytes.all (fun b => 0x30 ≤ b ∧ b ≤ 0x37) = true
  deriving DecidableEq

namespace EntryMode

/-- Accepts 1–6 octal digits. -/
def fromBytes (mode : Bytes) : Except ObjectParseError EntryMode :=
  if hlen : mode = [] ∨ 6 < mode.length then
    .error (.tree "entry mode must be 1-6 octal digits")
  else if hoct : mode.all (fun b => 0x30 ≤ b ∧ b ≤ 0x37) = true then
    .ok ⟨mode, fun h => hlen (.inl h), Nat.le_of_not_lt fun h => hlen (.inr h), hoct⟩
  else .error (.tree "entry mode has non-octal digit")

@[simp] theorem fromBytes_bytes (mode : EntryMode) : fromBytes mode.bytes = .ok mode := by
  have hlen : ¬ (mode.bytes = [] ∨ 6 < mode.bytes.length) := by
    rintro (h | h)
    · exact mode.ne_nil h
    · exact Nat.not_lt.mpr mode.length_le h
  rw [fromBytes, dif_neg hlen, dif_pos mode.octal]

theorem bytes_of_fromBytes {bytes : Bytes} {mode : EntryMode} (h : fromBytes bytes = .ok mode) :
    mode.bytes = bytes := by
  rw [fromBytes] at h
  split at h
  · cases h
  · split at h
    · cases h
      rfl
    · cases h

/-- A space is not an octal digit. -/
theorem sp_not_mem (mode : EntryMode) : (0x20 : UInt8) ∉ mode.bytes := by
  intro h
  have hdigit := all_eq_true.mp mode.octal _ h
  revert hdigit
  decide

/-- The numeric mode value (parsed octal). -/
def value (mode : EntryMode) : UInt32 :=
  mode.bytes.foldl (fun acc b => (acc <<< 3) ||| (b - 0x30).toUInt32) 0

def isTree (mode : EntryMode) : Bool := mode.value &&& 0o170000 = 0o040000

def isGitlink (mode : EntryMode) : Bool := mode.value &&& 0o170000 = 0o160000

/-- The object kind an entry of this mode points at. -/
def objectKind (mode : EntryMode) : ObjectKind :=
  if mode.value &&& 0o170000 = 0o040000 then .tree
  else if mode.value &&& 0o170000 = 0o160000 then .commit
  else .blob

end EntryMode

/-- One entry; the name is arbitrary bytes. -/
structure TreeEntry where
  mode : EntryMode
  name : Bytes
  oid : ObjectId
  deriving DecidableEq

structure Tree where
  entries : List TreeEntry
  deriving DecidableEq

namespace Tree

/-- The loop of `parse`: the entries read so far, and the rest of the input. -/
def parseFrom (algo : HashAlgo) (entries : List TreeEntry) (rest : Bytes) :
    Except ObjectParseError Tree :=
  if rest = [] then .ok ⟨entries⟩
  else
    match h1 : splitFirst 0x20 rest with
    | none => .error (.tree "entry without space after mode")
    | some (modeBytes, rest1) =>
      match EntryMode.fromBytes modeBytes with
      | .error e => .error e
      | .ok mode =>
        match h2 : splitFirst 0 rest1 with
        | none => .error (.tree "entry name not NUL-terminated")
        | some (name, rest2) =>
          match h3 : takeN algo.rawLen rest2 with
          | none => .error (.tree "truncated entry oid")
          | some (raw, rest3) =>
            match ObjectId.fromBytes algo raw with
            | none => .error (.tree "truncated entry oid") -- the slice has the right length
            | some oid => parseFrom algo (entries ++ [⟨mode, name, oid⟩]) rest3
termination_by rest.length
decreasing_by
  have hlen1 := congrArg List.length (splitFirst_eq_some.mp h1).1
  have hlen2 := congrArg List.length (splitFirst_eq_some.mp h2).1
  have hlen3 := congrArg List.length (takeN_eq_some.mp h3).1
  simp only [length_append, length_cons] at hlen1 hlen2 hlen3
  omega

/-- Parses tree data; `algo` determines the raw id width. -/
def parse (data : Bytes) (algo : HashAlgo) : Except ObjectParseError Tree := parseFrom algo [] data

def serializeEntry (entry : TreeEntry) : Bytes :=
  entry.mode.bytes ++ 0x20 :: entry.name ++ 0 :: entry.oid.asBytes

def serialize (tree : Tree) : Bytes := tree.entries.flatMap serializeEntry

/-- What an entry read with `algo` is like. -/
structure Readable (algo : HashAlgo) (entry : TreeEntry) : Prop where
  name : (0 : UInt8) ∉ entry.name
  oid : entry.oid.algo = algo

/-! ### The bytes come back -/

variable {algo : HashAlgo}

theorem asBytes_of_fromBytes {raw : Bytes} {oid : ObjectId}
    (h : ObjectId.fromBytes algo raw = some oid) : oid.asBytes = raw := by
  cases algo <;> rw [ObjectId.fromBytes] at h <;> split at h <;> cases h <;> rfl

/-- **Loop invariant.** What was read and what is left are the input, and what was read is
    readable. -/
theorem parseFrom_sound {entries : List TreeEntry} {rest : Bytes} {tree : Tree}
    (h : parseFrom algo entries rest = .ok tree) (hread : ∀ e ∈ entries, Readable algo e) :
    tree.serialize = entries.flatMap serializeEntry ++ rest ∧
      ∀ e ∈ tree.entries, Readable algo e := by
  fun_induction parseFrom algo entries rest with
  | case1 entries =>
    cases h
    exact ⟨(append_nil _).symm, hread⟩
  | case2 => cases h
  | case3 => cases h
  | case4 => cases h
  | case5 => cases h
  | case6 => cases h
  | case7 entries rest hne modeBytes rest1 h1 mode hmode name rest2 h2 raw rest3 h3 oid hoid ih =>
    obtain ⟨rfl, -⟩ := splitFirst_eq_some.mp h1
    obtain ⟨rfl, hname⟩ := splitFirst_eq_some.mp h2
    obtain ⟨rfl, -⟩ := takeN_eq_some.mp h3
    obtain ⟨hserialize, hall⟩ := ih h fun e he => by
      rcases mem_append.mp he with hold | hnew
      · exact hread e hold
      · rw [mem_singleton.mp hnew]
        exact ⟨hname, ObjectId.algo_of_fromBytes hoid⟩
    refine ⟨?_, hall⟩
    rw [hserialize, flatMap_append, flatMap_singleton, serializeEntry,
      EntryMode.bytes_of_fromBytes hmode, asBytes_of_fromBytes hoid]
    simp

/-- **The bytes come back.** -/
theorem serialize_of_parse {data : Bytes} {tree : Tree} (h : parse data algo = .ok tree) :
    tree.serialize = data :=
  (parseFrom_sound h (by simp)).1

/-! ### The tree comes back -/

/-- One entry. -/
theorem parseFrom_entry (entries : List TreeEntry) {entry : TreeEntry} (h : Readable algo entry)
    (rest : Bytes) :
    parseFrom algo entries (serializeEntry entry ++ rest)
      = parseFrom algo (entries ++ [entry]) rest := by
  have h1 := splitFirst_append entry.mode.sp_not_mem (entry.name ++ 0 :: (entry.oid.asBytes ++ rest))
  have h2 := splitFirst_append h.name (entry.oid.asBytes ++ rest)
  have h3 := takeN_append' entry.oid.asBytes rest (h.oid ▸ entry.oid.length_asBytes)
  have hoid := h.oid ▸ entry.oid.fromBytes_asBytes
  have hdata : serializeEntry entry ++ rest
      = entry.mode.bytes ++ 0x20 :: (entry.name ++ 0 :: (entry.oid.asBytes ++ rest)) := by
    simp [serializeEntry]
  rw [hdata, parseFrom, if_neg (by simp)]
  split
  · rename_i hnone
    rw [h1] at hnone
    cases hnone
  · rename_i hsome
    rw [h1] at hsome
    cases hsome
    rw [EntryMode.fromBytes_bytes]
    dsimp only
    split
    · rename_i hnone
      rw [h2] at hnone
      cases hnone
    · rename_i hsome
      rw [h2] at hsome
      cases hsome
      split
      · rename_i hnone
        rw [h3] at hnone
        cases hnone
      · rename_i hsome
        rw [h3] at hsome
        cases hsome
        rw [hoid]

theorem parseFrom_entries (entries : List TreeEntry) {more : List TreeEntry}
    (h : ∀ e ∈ more, Readable algo e) :
    parseFrom algo entries (more.flatMap serializeEntry) = .ok ⟨entries ++ more⟩ := by
  induction more generalizing entries with
  | nil =>
    rw [flatMap_nil, parseFrom, if_pos rfl, append_nil]
  | cons entry more ih =>
    rw [flatMap_cons, parseFrom_entry _ (h entry mem_cons_self),
      ih _ fun e he => h e (mem_cons_of_mem _ he), append_assoc]
    rfl

/-- **The tree comes back** exactly when its entries can be read with the algorithm. -/
theorem parse_serialize_iff (tree : Tree) (algo : HashAlgo) :
    parse tree.serialize algo = .ok tree ↔ ∀ e ∈ tree.entries, Readable algo e :=
  ⟨fun h => (parseFrom_sound h (by simp)).2, fun h => parseFrom_entries [] h⟩

end Tree

/-! ### Identity of commits, tags and trees -/

/-- **Objects keep their identity.** What is parsed is serialized to the bytes it came from.
    A commit or a tag is parsed back from its bytes; a tree is, exactly when no name holds a
    NUL and every id is of the algorithm the tree is read with. -/
theorem objects_keep_identity :
    (∀ data commit, Commit.parse data = .ok commit → commit.serialize = data) ∧
    (∀ data tag, Tag.parse data = .ok tag → tag.serialize = data) ∧
    (∀ data algo tree, Tree.parse data algo = .ok tree → tree.serialize = data) ∧
    (∀ commit : Commit, Commit.parse commit.serialize = .ok commit) ∧
    (∀ tag : Tag, Tag.parse tag.serialize = .ok tag) ∧
    ∀ (tree : Tree) (algo : HashAlgo), Tree.parse tree.serialize algo = .ok tree ↔
      ∀ e ∈ tree.entries, (0 : UInt8) ∉ e.name ∧ e.oid.algo = algo := by
  refine ⟨fun data commit h => ?_, fun data tag h => ?_, fun data algo tree h => ?_,
    fun commit => ?_, fun tag => ?_, fun tree algo => ?_⟩
  · exact HeaderBlock.serialize_of_parse (Commit.parse_eq_ok.mp h)
  · exact HeaderBlock.serialize_of_parse (Tag.parse_eq_ok.mp h)
  · exact Tree.serialize_of_parse h
  · exact Commit.parse_eq_ok.mpr ((HeaderBlock.parse_serialize_iff _).mpr commit.wellFormed)
  · exact Tag.parse_eq_ok.mpr ((HeaderBlock.parse_serialize_iff _).mpr tag.wellFormed)
  · rw [Tree.parse_serialize_iff]
    exact ⟨fun h e he => ⟨(h e he).name, (h e he).oid⟩, fun h e he => ⟨(h e he).1, (h e he).2⟩⟩

/-- A tree with one file whose name holds a NUL. -/
def nulNamedTree : Tree :=
  ⟨[⟨⟨[0x31, 0x30, 0x30, 0x36, 0x34, 0x34], by decide, by decide, by decide⟩, [0x61, 0, 0x62],
    .sha1 (.fill 20 0)⟩]⟩

/-- The name is cut at the NUL, the rest of it is read as the id. -/
theorem nulNamedTree_lost : ¬ ∀ tree : Tree, ∃ algo, Tree.parse tree.serialize algo = .ok tree := by
  intro h
  obtain ⟨algo, hparse⟩ := h nulNamedTree
  have hread := (Tree.parse_serialize_iff _ _).mp hparse _ mem_cons_self
  exact hread.name (by decide)

end Alt
