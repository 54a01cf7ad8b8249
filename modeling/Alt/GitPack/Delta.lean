import Alt.GitPack.Idx

namespace Alt.GitPack

open Alt.Library

/-!
# Deltas (`alt-git-pack/src/delta.rs`, 10–89)

`<source size><target size><copy or insert …>`: `apply` runs a delta over its base.  The position in
the delta is the rest of it.
-/

/-- Does another byte of the field follow? -/
def continues (byte : UInt8) : Bool := byte &&& 0x80 != 0

/-- The seven bits a byte of a field holds. -/
def payloadBits (byte : UInt8) : UInt64 := (byte &&& 0x7f).toUInt64

/-- A size field, from the byte that is shifted by `shift`. -/
def varint (shift : Nat) (v : UInt64) : Bytes → Except PackError (UInt64 × Bytes)
  | [] => .error (.format "truncated delta size varint")
  | b :: rest =>
    if 64 ≤ shift then .error (.format "delta size varint too long")
    else
      let v := v ||| payloadBits b <<< UInt64.ofNat shift
      if continues b then varint (shift + 7) v rest else .ok (v, rest)

def next : Bytes → Except PackError (UInt8 × Bytes)
  | [] => .error (.format "truncated delta copy operands")
  | b :: rest => .ok (b, rest)

/-- The operand bytes of a copy that are there, `bits` telling which. -/
def operands (op : UInt8) : List UInt8 → Nat → UInt64 → Bytes → Except PackError (UInt64 × Bytes)
  | [], _, v, rest => .ok (v, rest)
  | bit :: bits, i, v, rest =>
    if op &&& bit != 0 then
      match next rest with
      | .error e => .error e
      | .ok (b, rest) => operands op bits (i + 1) (v ||| b.toUInt64 <<< UInt64.ofNat (8 * i)) rest
    else operands op bits (i + 1) v rest

/-- The bytes of the base a copy takes. -/
def copyChunk (base : Bytes) (off len : UInt64) : Except PackError Bytes :=
  let len := if len = 0 then 0x10000 else len
  if base.length < (off + len).toNat then .error (.format "delta copy out of base bounds")
  else .ok ((base.drop off.toNat).take len.toNat)

/-- What an instruction appends, and the instructions after it. -/
def runOp (base : Bytes) (op : UInt8) (rest : Bytes) : Except PackError (Bytes × Bytes) :=
  if continues op then
    match operands op [0x01, 0x02, 0x04, 0x08] 0 0 rest with
    | .error e => .error e
    | .ok (off, rest) =>
      match operands op [0x10, 0x20, 0x40] 0 0 rest with
      | .error e => .error e
      | .ok (len, rest) => (copyChunk base off len).map fun chunk => (chunk, rest)
  else if op ≠ 0 then
    if rest.length < op.toNat then .error (.format "truncated delta insert")
    else .ok (rest.take op.toNat, rest.drop op.toNat)
  else .error (.format "reserved delta opcode 0")

theorem length_operands {op : UInt8} {bits : List UInt8} {i : Nat} {v v' : UInt64} {rest rest' : Bytes}
    (h : operands op bits i v rest = .ok (v', rest')) : rest'.length ≤ rest.length := by
  induction bits generalizing i v rest with
  | nil =>
    cases h
    exact Nat.le_refl _
  | cons bit bits ih =>
    rw [operands] at h
    split at h
    · cases rest with
      | nil => cases h
      | cons b rest => exact Nat.le_succ_of_le (ih h)
    · exact ih h

theorem length_runOp {base rest chunk rest' : Bytes} {op : UInt8}
    (h : runOp base op rest = .ok (chunk, rest')) : rest'.length ≤ rest.length := by
  rw [runOp] at h
  split at h
  · split at h
    · cases h
    · rename_i off rest₁ hoff
      split at h
      · cases h
      · rename_i len rest₂ hlen
        obtain ⟨chunk', hcopy, h⟩ := of_match_ok h
        cases h
        exact Nat.le_trans (length_operands hlen) (length_operands hoff)
  · split at h
    · split at h
      · cases h
      · cases h
        rw [List.length_drop]
        exact Nat.sub_le _ _
    · cases h

/-- The instructions, one after another. -/
def runOps (base out : Bytes) : Bytes → Except PackError Bytes
  | [] => .ok out
  | op :: rest =>
    match _h : runOp base op rest with
    | .error e => .error e
    | .ok (chunk, rest') => runOps base (out ++ chunk) rest'
termination_by delta => delta.length
decreasing_by exact Nat.lt_succ_of_le (length_runOp ‹_›)

theorem runOps_of_ok {base out rest chunk rest' : Bytes} {op : UInt8}
    (h : runOp base op rest = .ok (chunk, rest')) :
    runOps base out (op :: rest) = runOps base (out ++ chunk) rest' := by
  rw [runOps]
  split
  · rename_i e h'
    cases h.symm.trans h'
  · rename_i h'
    cases h.symm.trans h'
    rfl

/-- Applies a delta to its base. -/
def apply (base delta : Bytes) : Except PackError Bytes :=
  match varint 0 0 delta with
  | .error e => .error e
  | .ok (srcSize, rest) =>
    if srcSize.toNat ≠ base.length then .error (.format "delta source size mismatch")
    else
      match varint 0 0 rest with
      | .error e => .error e
      | .ok (tgtSize, rest) =>
        match runOps base [] rest with
        | .error e => .error e
        | .ok out =>
          if out.length ≠ tgtSize.toNat then .error (.format "delta target size mismatch") else .ok out

end Alt.GitPack
