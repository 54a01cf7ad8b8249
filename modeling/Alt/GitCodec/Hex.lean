import Alt.GitCodec.Oid
import Alt.Library.Hex

namespace Alt

open Alt.Library

/-!
# Object ids as text (`alt-git-codec/src/oid.rs`)

An id is displayed as lower-case hex and parsed from hex of either case, the algorithm told
from the length.
-/

def HashAlgo.hexLen (algo : HashAlgo) : Nat := algo.rawLen * 2

namespace ObjectId

/-- The text of an id (`Display`). -/
def hexText (id : ObjectId) : List Char := hexChars id.asBytes

/-- Parses a hex object id. -/
def fromHex (hex : Bytes) : Option ObjectId :=
  if hex.length = 40 then (decodeHex hex).bind (fromBytes .sha1)
  else if hex.length = 64 then (decodeHex hex).bind (fromBytes .sha256)
  else none

/-- The all-zero id. -/
def zeroOid : HashAlgo → ObjectId
  | .sha1 => .sha1 (.fill 20 0)
  | .sha256 => .sha256 (.fill 32 0)

@[simp] theorem algo_zeroOid (algo : HashAlgo) : (zeroOid algo).algo = algo := by
  cases algo <;> rfl

@[simp] theorem length_hexText (id : ObjectId) : id.hexText.length = id.algo.hexLen := by
  rw [hexText, length_hexChars, length_asBytes, HashAlgo.hexLen, Nat.mul_comm]

theorem length_utf8_hexText (id : ObjectId) :
    (utf8 (String.ofList id.hexText)).length = id.algo.hexLen := by
  rw [hexText, length_utf8_hexChars, length_asBytes, HashAlgo.hexLen, Nat.mul_comm]

/-- **Round trip.** -/
@[simp] theorem fromHex_hexText (id : ObjectId) :
    fromHex (utf8 (String.ofList id.hexText)) = some id := by
  have hlen := length_utf8_hexText id
  have hdecode : decodeHex (utf8 (String.ofList id.hexText)) = some id.asBytes :=
    decodeHex_hexChars id.asBytes
  have hbytes := fromBytes_asBytes id
  rw [fromHex, hdecode, hlen]
  cases id with
  | sha1 b => exact hbytes
  | sha256 b => exact hbytes

theorem hexText_injective {a b : ObjectId} (h : a.hexText = b.hexText) : a = b := by
  have ha := fromHex_hexText a
  rw [h, fromHex_hexText] at ha
  exact (Option.some.inj ha).symm

end ObjectId

end Alt
