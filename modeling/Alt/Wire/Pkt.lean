import Alt.Library.Hex

namespace Alt.Wire

open Alt.Library List

/-!
# pkt-line framing (`alt-wire/src/pkt.rs`)

Every line is four hex digits that give the total length, then the payload.  The lengths 0,
1 and 2 are the flush, delimiter and response-end packets.  `writeData` asserts that its
payload fits a line: `none` stands for the panic.
-/

/-- One pkt-line frame. -/
inductive Frame
  | data (payload : Bytes)
  | flush
  | delim
  | responseEnd
  deriving DecidableEq

inductive PktError
  | io
  | badLength (hdr : Bytes)
  | lengthOutOfBounds (len : Nat)
  | truncated (claimed : Nat) (got : Nat)
  deriving DecidableEq

/-- Maximum pkt-line length, header and payload. -/
def maxLineLen : Nat := 0xfff0

/-- The longest payload a line takes. -/
def maxPayload : Nat := maxLineLen - 4

def parseHexLen (hdr : Bytes) : Option Nat :=
  hdr.foldl (fun acc b => acc.bind fun v => (nibble b).map fun d => 16 * v + d) (some 0)

/-- Reads one pkt-line; the frame and what is behind it. -/
def readFrame (r : Bytes) : Except PktError (Frame × Bytes) :=
  match takeN 4 r with
  | none => .error .io
  | some (hdr, rest) =>
    match parseHexLen hdr with
    | none => .error (.badLength hdr)
    | some len =>
      if len = 0 then .ok (.flush, rest)
      else if len = 1 then .ok (.delim, rest)
      else if len = 2 then .ok (.responseEnd, rest)
      else if len = 3 then .error (.lengthOutOfBounds 3)
      else if maxLineLen < len then .error (.lengthOutOfBounds len)
      else
        match takeN (len - 4) rest with
        | none => .error (.truncated (len - 4) 0)
        | some (payload, rest) => .ok (.data payload, rest)

/-- Four lower-case hex digits of a value below 2¹⁶. -/
def hex4 (v : Nat) : Bytes := [12, 8, 4, 0].map fun s => UInt8.ofNat (hexDigit (v / 2 ^ s % 16)).toNat

/-- Writes one data pkt-line; `none` is the assertion on the payload's length. -/
def writeData (w payload : Bytes) : Option Bytes :=
  if payload.length ≤ maxPayload then some (w ++ hex4 (payload.length + 4) ++ payload) else none

/-- Writes a flush packet. -/
def writeFlush (w : Bytes) : Bytes := w ++ [0x30, 0x30, 0x30, 0x30]

/-- Writes lines one after the other. -/
def writeLines (w : Bytes) (lines : List Bytes) : Option Bytes := lines.foldlM writeData w

/-! ### Reading what was written -/

theorem length_hex4 (v : Nat) : (hex4 v).length = 4 := rfl

theorem nibble_hexDigit {n : Nat} (h : n < 16) :
    nibble (UInt8.ofNat (hexDigit n).toNat) = some n := (utf8EncodeChar_hexDigit n h).2

theorem parseHexLen_hex4 {v : Nat} (h : v < 2 ^ 16) : parseHexLen (hex4 v) = some v := by
  have hmod : ∀ s, v / 2 ^ s % 16 < 16 := fun s => Nat.mod_lt _ (by omega)
  simp only [parseHexLen, hex4, map_cons, map_nil, foldl_cons, foldl_nil,
    Option.bind_some, nibble_hexDigit (hmod _), Option.map_some, Option.some.injEq]
  omega

/-- **Round trip.** A line that was written is read back. -/
theorem readFrame_data {payload : Bytes} (h : payload.length ≤ maxPayload) (rest : Bytes) :
    readFrame (hex4 (payload.length + 4) ++ payload ++ rest) = .ok (.data payload, rest) := by
  have hmax : payload.length + 4 ≤ maxLineLen := by
    rw [maxPayload, maxLineLen] at h
    rw [maxLineLen]
    omega
  have hlt : payload.length + 4 < 2 ^ 16 := Nat.lt_of_le_of_lt hmax (by decide)
  have htake : takeN 4 (hex4 (payload.length + 4) ++ payload ++ rest)
      = some (hex4 (payload.length + 4), payload ++ rest) := by
    rw [append_assoc]
    exact takeN_append' _ _ rfl
  have hsub : payload.length + 4 - 4 = payload.length := by omega
  simp only [readFrame, htake, parseHexLen_hex4 hlt, hsub, takeN_append]
  rw [if_neg (by omega), if_neg (by omega), if_neg (by omega), if_neg (by omega),
    if_neg (by omega)]

theorem readFrame_flush (rest : Bytes) : readFrame (writeFlush [] ++ rest) = .ok (.flush, rest) :=
  rfl

/-- A data line takes at least its header and fits a line. -/
theorem readFrame_ok {r rest payload : Bytes} (h : readFrame r = .ok (.data payload, rest)) :
    rest.length < r.length ∧ payload.length ≤ maxPayload := by
  unfold readFrame at h
  split at h
  · cases h
  · rename_i hdr rest' htake
    obtain ⟨rfl, hhdr⟩ := takeN_eq_some.mp htake
    split at h
    · cases h
    · rename_i len _
      split at h
      · cases h
      · split at h
        · cases h
        · split at h
          · cases h
          · split at h
            · cases h
            · split at h
              · cases h
              · rename_i hmax
                split at h
                · cases h
                · rename_i payload' rest'' hpayload
                  obtain ⟨rfl, hlen⟩ := takeN_eq_some.mp hpayload
                  cases h
                  rw [maxPayload]
                  simp only [length_append]
                  omega

/-- Lines are written as long as each fits. -/
theorem writeLines_isSome {w : Bytes} {lines : List Bytes} :
    (writeLines w lines).isSome ↔ ∀ line ∈ lines, line.length ≤ maxPayload := by
  induction lines generalizing w with
  | nil => simp [writeLines]
  | cons line lines ih =>
    have hcons : writeLines w (line :: lines)
        = (writeData w line).bind fun w => writeLines w lines := rfl
    rw [hcons, forall_mem_cons, ← ih (w := w ++ hex4 (line.length + 4) ++ line)]
    by_cases hfit : line.length ≤ maxPayload
    · rw [writeData, if_pos hfit, Option.bind_some]
      simp [hfit]
    · rw [writeData, if_neg hfit]
      simp [hfit]

end Alt.Wire
