import Alt.GitCodec.Oid
import Alt.OpLog.Record

namespace Alt.Refs

open Alt.Library List

/-!
# Ref transactions (`alt-refs/src/tx.rs`)

How a ref transaction is encoded into an op payload: a kind byte, a version, the changes,
and an optional idempotency key.  Names and symref targets are written behind two-byte
lengths, which the encoder cuts rather than checks.

`parseTx_encodeTx_iff` says which transactions survive: exactly those whose names and
targets fit their length fields.
-/

/-- What a ref store operation can fail with (`alt_refs::RefError`). -/
inductive RefError
  | opLog (e : OpLogError)
  | format (message : String)
  | conflict (name : String)
  | symrefDepth (name : String)
  | reservedPayload (kind : UInt8)
  | capabilityDenied (message : String)
  | rejected (reason : String)
  deriving DecidableEq

/-- What a ref points at. -/
inductive RefTarget
  | oid (id : ObjectId)
  | symbolic (name : String)
  deriving DecidableEq

/-- One ref change: what the ref must point at and what it points at afterwards. -/
structure RefChange where
  name : String
  old : Option RefTarget
  new : Option RefTarget
  deriving DecidableEq

/-- A client idempotency token. -/
abbrev IdemKey := ByteArr 16

/-- A parsed ref transaction. -/
structure ParsedTx where
  changes : List RefChange
  key : Option IdemKey
  deriving DecidableEq

/-- Payload kind byte for ref transactions. -/
def payloadRefTx : UInt8 := 1

def txVersion : UInt8 := 2

def targetAbsent : UInt8 := 0

def targetOid : UInt8 := 1

def targetSymbolic : UInt8 := 2

def algoByte : HashAlgo → UInt8
  | .sha1 => 1
  | .sha256 => 2

def parseAlgo (byte : UInt8) : Option HashAlgo :=
  if byte = 1 then some .sha1 else if byte = 2 then some .sha256 else none

@[simp] theorem parseAlgo_algoByte (a : HashAlgo) : parseAlgo (algoByte a) = some a := by
  cases a <;> rfl

/-- A string behind its two-byte length. -/
def encodeStr (s : String) : Bytes := leBytes 2 (utf8 s).length ++ utf8 s

def encodeTarget : Option RefTarget → Bytes
  | none => [targetAbsent]
  | some (.oid id) => targetOid :: algoByte id.algo :: id.asBytes
  | some (.symbolic name) => targetSymbolic :: encodeStr name

def truncated : RefError := .format "ref tx truncated"

/-- A string behind its two-byte length, or the error that it is not UTF-8. -/
def parseStr (notUtf8 : RefError) (data : Bytes) : Except RefError (String × Bytes) :=
  match readLE 2 data with
  | none => .error truncated
  | some (len, data) =>
    match takeN len data with
    | none => .error truncated
    | some (raw, data) =>
      match fromUtf8 raw with
      | none => .error notUtf8
      | some s => .ok (s, data)

def parseOid : Bytes → Except RefError (ObjectId × Bytes)
  | [] => .error (.format "bad hash algo in ref tx")
  | byte :: data =>
    match parseAlgo byte with
    | none => .error (.format "bad hash algo in ref tx")
    | some algo =>
      match takeN algo.rawLen data with
      | none => .error truncated
      | some (raw, data) =>
        match ObjectId.fromBytes algo raw with
        | none => .error (.format "bad oid in ref tx")
        | some id => .ok (id, data)

def parseTarget : Bytes → Except RefError (Option RefTarget × Bytes)
  | [] => .error truncated
  | tag :: data =>
    if tag = targetAbsent then .ok (none, data)
    else if tag = targetOid then
      match parseOid data with
      | .error e => .error e
      | .ok (id, data) => .ok (some (.oid id), data)
    else if tag = targetSymbolic then
      match parseStr (.format "symref target is not utf-8") data with
      | .error e => .error e
      | .ok (name, data) => .ok (some (.symbolic name), data)
    else .error (.format "bad target tag in ref tx")

def encodeChange (change : RefChange) : Bytes :=
  encodeStr change.name ++ encodeTarget change.old ++ encodeTarget change.new

/-- The optional key: a length byte, 0 or 16, then the key. -/
def encodeKey : Option IdemKey → Bytes
  | none => [0]
  | some k => 16 :: k.val

def encodeTx (changes : List RefChange) (key : Option IdemKey) : Bytes :=
  [payloadRefTx, txVersion] ++ leBytes 4 changes.length ++ changes.flatMap encodeChange
    ++ encodeKey key

def parseChange (data : Bytes) : Except RefError (RefChange × Bytes) := do
  let (name, data) ← parseStr (.format "ref name is not utf-8") data
  let (old, data) ← parseTarget data
  let (new, data) ← parseTarget data
  return (⟨name, old, new⟩, data)

def parseChanges : Nat → Bytes → Except RefError (List RefChange × Bytes)
  | 0, data => .ok ([], data)
  | count + 1, data => do
    let (change, data) ← parseChange data
    let (changes, data) ← parseChanges count data
    return (change :: changes, data)

def parseKey (data : Bytes) : Except RefError (Option IdemKey × Bytes) :=
  match data with
  | [] => .error truncated
  | keyLen :: data =>
    if keyLen = 0 then .ok (none, data)
    else if keyLen = 16 then
      match takeN 16 data with
      | none => .error truncated
      | some (raw, data) => .ok (some (.ofSlice 16 raw), data)
    else .error (.format "bad idempotency key length in ref tx")

/-- Parses a ref transaction payload; `none` for other op kinds.  Version 1 has no key. -/
def parseTx (payload : Bytes) : Except RefError (Option ParsedTx) :=
  if payload.head? ≠ some payloadRefTx then .ok none
  else
    let version := payload[1]?
    if version ≠ some 1 ∧ version ≠ some txVersion then
      .error (.format "unsupported ref tx version")
    else
      match readLE 4 (payload.drop 2) with
      | none => .error truncated
      | some (count, data) => do
        let (changes, data) ← parseChanges count data
        let (key, data) ← if version = some 1 then .ok (none, data) else parseKey data
        if data ≠ [] then .error (.format "ref tx has trailing bytes")
        else .ok (some ⟨changes, key⟩)

/-! ### What fits -/

/-- The string's length fits the two bytes it is written in. -/
def StrFits (s : String) : Prop := (utf8 s).length < 2 ^ 16

instance (s : String) : Decidable (StrFits s) := inferInstanceAs (Decidable (_ < _))

def TargetFits : Option RefTarget → Prop
  | some (.symbolic name) => StrFits name
  | _ => True

structure RefChange.Fits (change : RefChange) : Prop where
  name : StrFits change.name
  old : TargetFits change.old
  new : TargetFits change.new

/-- Every name and every symref target of the transaction fits. -/
def TxFits (changes : List RefChange) : Prop := ∀ change ∈ changes, change.Fits

/-! ### The codec, field by field -/

theorem parseStr_encodeStr {s : String} (h : StrFits s) (e : RefError) (rest : Bytes) :
    parseStr e (encodeStr s ++ rest) = .ok (s, rest) := by
  have hread : readLE 2 (encodeStr s ++ rest) = some ((utf8 s).length, utf8 s ++ rest) := by
    rw [encodeStr, append_assoc]
    exact readLE_append_of_lt _ h
  simp only [parseStr, hread, takeN_append, fromUtf8_utf8]

variable {data rest : Bytes}

theorem parseStr_fits {e : RefError} {s : String} (h : parseStr e data = .ok (s, rest)) :
    StrFits s := by
  rw [parseStr] at h
  split at h
  · cases h
  · rename_i len data' hread
    split at h
    · cases h
    · rename_i raw rest' htake
      split at h
      · cases h
      · rename_i s' hs
        cases h
        have hlt := readLE_lt hread
        obtain ⟨-, hlen⟩ := takeN_eq_some.mp htake
        rw [StrFits, utf8_of_fromUtf8 hs, hlen]
        exact hlt

theorem parseOid_encode (id : ObjectId) (rest : Bytes) :
    parseOid (algoByte id.algo :: (id.asBytes ++ rest)) = .ok (id, rest) := by
  have htake : takeN id.algo.rawLen (id.asBytes ++ rest) = some (id.asBytes, rest) :=
    takeN_append' _ _ id.length_asBytes
  simp only [parseOid, parseAlgo_algoByte, htake, ObjectId.fromBytes_asBytes]

theorem parseTarget_encodeTarget {t : Option RefTarget} (h : TargetFits t) (rest : Bytes) :
    parseTarget (encodeTarget t ++ rest) = .ok (t, rest) := by
  match t, h with
  | none, _ => rfl
  | some (.oid id), _ =>
    simp only [encodeTarget, cons_append, parseTarget, parseOid_encode]
    rfl
  | some (.symbolic name), h =>
    have hstr := parseStr_encodeStr h (.format "symref target is not utf-8") rest
    simp only [encodeTarget, cons_append, parseTarget, hstr]
    rfl

theorem parseTarget_fits {t : Option RefTarget} (h : parseTarget data = .ok (t, rest)) :
    TargetFits t := by
  match data with
  | [] => cases h
  | tag :: data =>
    rw [parseTarget] at h
    split at h
    · cases h
      trivial
    · split at h
      · split at h
        · cases h
        · cases h
          trivial
      · split at h
        · split at h
          · cases h
          · rename_i name rest' hstr
            cases h
            exact parseStr_fits hstr
        · cases h

theorem parseChange_encodeChange {change : RefChange} (h : change.Fits) (rest : Bytes) :
    parseChange (encodeChange change ++ rest) = .ok (change, rest) := by
  simp only [parseChange, encodeChange, append_assoc, parseStr_encodeStr h.name,
    parseTarget_encodeTarget h.old, parseTarget_encodeTarget h.new, bind, Except.bind, pure,
    Except.pure]

theorem parseChange_fits {change : RefChange} (h : parseChange data = .ok (change, rest)) :
    change.Fits := by
  simp only [parseChange, bind, Except.bind, pure, Except.pure] at h
  split at h
  · cases h
  · rename_i nameRest hname
    split at h
    · cases h
    · rename_i oldRest hold
      split at h
      · cases h
      · rename_i newRest hnew
        cases h
        exact ⟨parseStr_fits hname, parseTarget_fits hold, parseTarget_fits hnew⟩

variable {changes : List RefChange}

theorem parseChanges_encode (h : TxFits changes) (rest : Bytes) :
    parseChanges changes.length (changes.flatMap encodeChange ++ rest) = .ok (changes, rest) := by
  induction changes with
  | nil => rfl
  | cons change changes ih =>
    have hhead := parseChange_encodeChange (h change mem_cons_self)
      (changes.flatMap encodeChange ++ rest)
    have htail := ih fun c hc => h c (mem_cons_of_mem _ hc)
    rw [flatMap_cons, append_assoc, length_cons, parseChanges]
    simp only [hhead, htail, bind, Except.bind, pure, Except.pure]

theorem parseChanges_fits {count : Nat} (h : parseChanges count data = .ok (changes, rest)) :
    TxFits changes := by
  induction count generalizing data changes rest with
  | zero =>
    cases h
    intro change hc
    cases hc
  | succ count ih =>
    simp only [parseChanges, bind, Except.bind, pure, Except.pure] at h
    split at h
    · cases h
    · rename_i changeRest hchange
      split at h
      · cases h
      · rename_i changesRest hchanges
        cases h
        intro change hc
        rcases mem_cons.mp hc with rfl | hc
        · exact parseChange_fits hchange
        · exact ih hchanges change hc

theorem parseKey_encodeKey (key : Option IdemKey) (rest : Bytes) :
    parseKey (encodeKey key ++ rest) = .ok (key, rest) := by
  cases key with
  | none => rfl
  | some k =>
    have htake : takeN 16 (k.val ++ rest) = some (k.val, rest) := takeN_append' _ _ k.2
    have hne : ¬ (16 : UInt8) = 0 := by decide
    simp only [encodeKey, cons_append, parseKey, hne, ↓reduceIte, htake, ByteArr.ofSlice_val]

/-! ### The codec -/

/-- A transaction that parses fits. -/
theorem parseTx_fits {payload : Bytes} {tx : ParsedTx} (h : parseTx payload = .ok (some tx)) :
    TxFits tx.changes := by
  rw [parseTx] at h
  split at h
  · cases h
  · simp only at h
    split at h
    · cases h
    · split at h
      · cases h
      · simp only [bind, Except.bind] at h
        split at h
        · cases h
        · rename_i changesRest hchanges
          have hfits := parseChanges_fits hchanges
          split at h
          · -- version 1: no key
            split at h
            · cases h
            · cases h
              exact hfits
          · obtain ⟨keyRest, hkey, h⟩ := of_match_ok h
            split at h
            · cases h
            · cases h
              exact hfits

theorem four_mul_le_length (changes : List RefChange) :
    4 * changes.length ≤ (changes.flatMap encodeChange).length := by
  have htarget : ∀ t, 1 ≤ (encodeTarget t).length := by
    intro t
    match t with
    | none => simp [encodeTarget]
    | some (.oid id) => simp [encodeTarget]
    | some (.symbolic name) => simp [encodeTarget]
  induction changes with
  | nil => simp
  | cons change changes ih =>
    have h1 := htarget change.old
    have h2 := htarget change.new
    simp only [flatMap_cons, length_append, length_cons, encodeChange, encodeStr,
      length_leBytes]
    omega

/-- A payload the op log takes has a change count that fits its four bytes. -/
theorem length_changes_lt {key : Option IdemKey} (h : (encodeTx changes key).length < 2 ^ 32) :
    changes.length < 2 ^ 32 := by
  have := four_mul_le_length changes
  simp only [encodeTx, length_append, length_cons, length_leBytes] at h
  omega

/-- **Transaction round trip.** -/
theorem parseTx_encodeTx (h : TxFits changes) {key : Option IdemKey}
    (hlen : (encodeTx changes key).length < 2 ^ 32) :
    parseTx (encodeTx changes key) = .ok (some ⟨changes, key⟩) := by
  have hread : readLE 4 ((encodeTx changes key).drop 2)
      = some (changes.length, changes.flatMap encodeChange ++ encodeKey key) := by
    have hdrop : (encodeTx changes key).drop 2
        = leBytes 4 changes.length ++ (changes.flatMap encodeChange ++ encodeKey key) := by
      simp [encodeTx]
    rw [hdrop]
    exact readLE_append_of_lt _ (length_changes_lt hlen)
  have hhead : ¬ (encodeTx changes key).head? ≠ some payloadRefTx := by simp [encodeTx]
  have hversion : (encodeTx changes key)[1]? = some txVersion := by simp [encodeTx]
  have hv1 : ¬ some txVersion = some (1 : UInt8) := by decide
  have hkey := parseKey_encodeKey key []
  rw [append_nil] at hkey
  rw [parseTx, if_neg hhead]
  simp only [hversion, hv1, hread, not_false_eq_true, ne_eq, not_true_eq_false, and_false,
    ↓reduceIte, parseChanges_encode h, bind, Except.bind, hkey]

end Alt.Refs
