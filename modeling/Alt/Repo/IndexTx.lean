import Alt.GitCodec.Oid

namespace Alt.Repo

open Alt.Library List

/-!
# Index transactions (`index_tx.rs`)

How `add` records in the op log what it did to the index, so that `undo` can take it back: for
each path its entry before and after, stage 0 only.

* `decode_encode` — what is recorded reads back, as long as paths fit their two-byte lengths and
  ids are of the repository's algorithm.
-/

/-- Payload kind byte for index transactions. -/
def payloadIndexTx : UInt8 := 2

def indexTxVersion : UInt8 := 1

/-- An entry without its path. -/
abbrev Side := Option (ObjectId × UInt32)

/-- One path's transition. -/
structure IndexChange where
  path : Bytes
  old : Side
  new : Side
  deriving DecidableEq

inductive IndexTxError
  | notIndexTx
  | unsupportedVersion (version : UInt8)
  | unknownAlgo (byte : UInt8)
  | truncated
  | oid
  deriving DecidableEq

def indexAlgoByte : HashAlgo → UInt8
  | .sha1 => 0
  | .sha256 => 1

def algoFromByte (byte : UInt8) : Except IndexTxError HashAlgo :=
  if byte = 0 then .ok .sha1 else if byte = 1 then .ok .sha256 else .error (.unknownAlgo byte)

def encodeSide : Side → Bytes
  | some (oid, mode) => 1 :: (oid.asBytes ++ leBytes 4 mode.toNat)
  | none => [0]

def encodeIndexChange (change : IndexChange) : Bytes :=
  leBytes 2 change.path.length ++ change.path ++ encodeSide change.old ++ encodeSide change.new

def encodeIndexTx (changes : List IndexChange) (algo : HashAlgo) : Bytes :=
  [payloadIndexTx, indexTxVersion, indexAlgoByte algo] ++ leBytes 4 changes.length ++
    changes.flatMap encodeIndexChange

/-- An id and a mode. -/
def readEntry (algo : HashAlgo) (data : Bytes) : Except IndexTxError ((ObjectId × UInt32) × Bytes) :=
  match takeN algo.rawLen data with
  | none => .error .truncated
  | some (raw, data) =>
    match readLE 4 data with
    | none => .error .truncated
    | some (mode, data) =>
      match ObjectId.fromBytes algo raw with
      | none => .error .oid
      | some oid => .ok ((oid, UInt32.ofNat mode), data)

def readSide (algo : HashAlgo) : Bytes → Except IndexTxError (Side × Bytes)
  | [] => .error .truncated
  | flag :: data =>
    if flag = 0 then .ok (none, data)
    else (readEntry algo data).map fun p => (some p.1, p.2)

def readChange (algo : HashAlgo) (data : Bytes) : Except IndexTxError (IndexChange × Bytes) :=
  match readLE 2 data with
  | none => .error .truncated
  | some (length, data) =>
    match takeN length data with
    | none => .error .truncated
    | some (path, data) =>
      match readSide algo data with
      | .error e => .error e
      | .ok (old, data) => (readSide algo data).map fun p => (⟨path, old, p.1⟩, p.2)

def readChanges (algo : HashAlgo) : Nat → Bytes → Except IndexTxError (List IndexChange)
  | 0, _ => .ok []
  | count + 1, data =>
    match readChange algo data with
    | .error e => .error e
    | .ok (change, data) => (readChanges algo count data).map (change :: ·)

/-- Parses a payload back into its changes; bytes behind them are not looked at. -/
def decodeIndexTx (payload : Bytes) : Except IndexTxError (List IndexChange) :=
  match payload with
  | [] => .error .notIndexTx
  | kind :: data =>
    if kind ≠ payloadIndexTx then .error .notIndexTx
    else
      match data with
      | [] => .error .truncated
      | version :: data =>
        if version ≠ indexTxVersion then .error (.unsupportedVersion version)
        else
          match data with
          | [] => .error .truncated
          | byte :: data =>
            match algoFromByte byte with
            | .error e => .error e
            | .ok algo =>
              match readLE 4 data with
              | none => .error .truncated
              | some (count, data) => readChanges algo count data

/-! ### Round trip -/

/-- The ids of a change are of this algorithm. -/
def SideOf (algo : HashAlgo) (side : Side) : Prop := ∀ p ∈ side, p.1.algo = algo

structure IndexChange.Fits (algo : HashAlgo) (change : IndexChange) : Prop where
  path : change.path.length < 2 ^ 16
  old : SideOf algo change.old
  new : SideOf algo change.new

section

variable {algo : HashAlgo}

theorem readSide_encodeSide {side : Side} (h : SideOf algo side) (rest : Bytes) :
    readSide algo (encodeSide side ++ rest) = .ok (side, rest) := by
  cases side with
  | none => rfl
  | some p =>
    obtain ⟨oid, mode⟩ := p
    obtain rfl : oid.algo = algo := h _ rfl
    have htake : takeN oid.algo.rawLen (oid.asBytes ++ (leBytes 4 mode.toNat ++ rest)) =
        some (oid.asBytes, leBytes 4 mode.toNat ++ rest) := takeN_append' _ _ oid.length_asBytes
    have hmode : readLE 4 (leBytes 4 mode.toNat ++ rest) = some (mode.toNat, rest) :=
      readLE_append_of_lt rest mode.toNat_lt
    simp only [encodeSide, cons_append, append_assoc, readSide, readEntry, htake, hmode,
      ObjectId.fromBytes_asBytes, UInt32.ofNat_toNat, Except.map, if_neg (by decide : ¬(1 : UInt8) = 0)]

theorem readChange_encode {change : IndexChange} (h : change.Fits algo) (rest : Bytes) :
    readChange algo (encodeIndexChange change ++ rest) = .ok (change, rest) := by
  have hlength : readLE 2 (encodeIndexChange change ++ rest) = some (change.path.length,
      change.path ++ (encodeSide change.old ++ (encodeSide change.new ++ rest))) := by
    simp only [encodeIndexChange, append_assoc]
    exact readLE_append_of_lt _ h.path
  simp only [readChange, hlength, takeN_append, readSide_encodeSide h.old,
    readSide_encodeSide h.new, Except.map]

theorem readChanges_encode {changes : List IndexChange} (h : ∀ c ∈ changes, c.Fits algo)
    (rest : Bytes) :
    readChanges algo changes.length (changes.flatMap encodeIndexChange ++ rest) = .ok changes := by
  induction changes with
  | nil => rfl
  | cons change changes ih =>
    have hhead := readChange_encode (h change mem_cons_self)
      (changes.flatMap encodeIndexChange ++ rest)
    have htail := ih fun c hc => h c (mem_cons_of_mem _ hc)
    rw [flatMap_cons, append_assoc, length_cons, readChanges]
    simp only [hhead, htail, Except.map]

/-- **What is recorded reads back.** -/
theorem decode_encode {changes : List IndexChange} (h : ∀ c ∈ changes, c.Fits algo)
    (hcount : changes.length < 2 ^ 32) :
    decodeIndexTx (encodeIndexTx changes algo) = .ok changes := by
  have halgo : algoFromByte (indexAlgoByte algo) = .ok algo := by cases algo <;> rfl
  have hread : readLE 4 (leBytes 4 changes.length ++ changes.flatMap encodeIndexChange) =
      some (changes.length, changes.flatMap encodeIndexChange) := readLE_append_of_lt _ hcount
  have hchanges := readChanges_encode h []
  rw [append_nil] at hchanges
  simp only [encodeIndexTx, cons_append, nil_append, decodeIndexTx, halgo, hread,
    hchanges, ne_eq, not_true_eq_false, ↓reduceIte]

end

end Alt.Repo
