import Alt.Library.Binary64
import Alt.Library.Hex
import Alt.StructDiff.Value

namespace Alt.StructDiff

open Alt.Library Attempt TextScan Binary64

/-!
# Structured diff — the JSON parser (`Parser` and `parse_json` of `alt-diff/src/structured.rs`)

A recursive descent over the bytes, each step with the position it stops at.  The loops and the recursion
have fuel, and run out of it as they would panic.

* `canonicalNumber` — a number as it is kept, by way of its binary64 value;
* `parseString`, `parseNumber`, `parseValue` — the readers;
* `parseJson` — a whole document.
-/

/-! ### Numbers -/

/-- `{}`, of an `i64`. -/
def intText (n : Int) : Text := (if n < 0 then ['-'] else []) ++ Nat.toDigits 10 n.natAbs

/-- The text kept of a binary64 value: the integer that it is, or all of it. -/
def keptText : Binary64.Value → Text
  | .finite v => if v.den = 1 ∧ |v| < 10 ^ 16 then intText v.num else (Binary64.Value.finite v).display
  | .infinite negative => (Binary64.Value.infinite negative).display

/-- The text kept of a number. -/
def canonicalNumber (raw : Text) : Option Text := (parseDecimal raw).map fun d => keptText (nearest d.value)

/-! ### The parser -/

section Parser

variable (bytes : Bytes)

def isSpace (b : UInt8) : Bool := b == 0x20 || b == 0x09 || b == 0x0a || b == 0x0d

def skipWhitespace (i : Nat) : Attempt Nat := skipBytes isSpace bytes (bytes.length + 1) i

def expect (c : UInt8) (i : Nat) : Attempt Nat := if bytes[i]? = some c then .ok (i + 1) else .error .declined

/-- `bytes.get(i..j)`. -/
def getSlice (i j : Nat) : Option Bytes := if i ≤ j ∧ j ≤ bytes.length then some (slice bytes i j) else none

def parseLiteral (lit : Bytes) (out : Value) (i : Nat) : Attempt (Value × Nat) :=
  if getSlice bytes i (i + lit.length) = some lit then .ok (out, i + lit.length) else .error .declined

/-- `u32::from_str_radix(_, 16)`, of at most eight bytes. -/
def fromStrRadix16 : Bytes → Option Nat
  | [] => none
  | [0x2b] => none
  | 0x2b :: digits => digits.foldlM (fun n b => (nibble b).map (16 * n + ·)) 0
  | digits => digits.foldlM (fun n b => (nibble b).map (16 * n + ·)) 0

/-- `char::from_u32(cp).unwrap_or('\u{FFFD}')`. -/
def charOrReplacement (cp : Nat) : Char := if cp.isValidChar then Char.ofNat cp else '\uFFFD'

/-- The escapes of one character. -/
def simpleEscape (b : UInt8) : Option Char :=
  if b = 0x22 then some '"'
  else if b = 0x5c then some '\\'
  else if b = 0x2f then some '/'
  else if b = 0x6e then some '\n'
  else if b = 0x74 then some '\t'
  else if b = 0x72 then some '\r'
  else if b = 0x62 then some '\x08'
  else if b = 0x66 then some '\x0c'
  else none

def isPlain (b : UInt8) : Bool := b != 0x22 && b != 0x5c

/-- The loop of `parse_string`, behind the opening quote. -/
def stringLoop : Nat → Text → Nat → Attempt (Text × Nat)
  | 0, _, _ => .error .panicked
  | fuel + 1, out, i =>
    match bytes[i]? with
    | none => .error .declined
    | some b =>
      if b = 0x22 then .ok (out, i + 1)
      else if b = 0x5c then
        match bytes[i + 1]? with
        | none => .error .declined
        | some e =>
          if e = 0x75 then do
            let hexBytes ← orDecline (getSlice bytes (i + 2) (i + 6))
            let _ ← orDecline (fromUtf8 hexBytes)
            let cp ← orDecline (fromStrRadix16 hexBytes)
            stringLoop fuel (out ++ [charOrReplacement cp]) (i + 6)
          else do
            let c ← orDecline (simpleEscape e)
            stringLoop fuel (out ++ [c]) (i + 2)
      else do
        let stop ← skipBytes isPlain bytes (bytes.length + 1) i
        let chunk ← cut bytes i stop
        let text ← orDecline (fromUtf8 chunk)
        stringLoop fuel (out ++ text.toList) stop

def parseString (i : Nat) : Attempt (Text × Nat) := do
  let i ← expect bytes 0x22 i
  stringLoop bytes (bytes.length + 1) [] i

def isNumberByte (b : UInt8) : Bool :=
  (0x30 ≤ b && b ≤ 0x39) || b == 0x2e || b == 0x65 || b == 0x45 || b == 0x2b || b == 0x2d

def parseNumber (start : Nat) : Attempt (Value × Nat) := do
  let i := if bytes[start]? = some 0x2d then start + 1 else start
  let stop ← skipBytes isNumberByte bytes (bytes.length + 1) i
  let piece ← cut bytes start stop
  let raw ← orDecline (fromUtf8 piece)
  let canonical ← orDecline (canonicalNumber raw.toList)
  return (.number canonical, stop)

mutual

def parseValue : Nat → Nat → Attempt (Value × Nat)
  | 0, _ => .error .panicked
  | fuel + 1, i => do
    let i ← skipWhitespace bytes i
    let b ← orDecline bytes[i]?
    if b = 0x6e then parseLiteral bytes (utf8 "null") .null i
    else if b = 0x74 then parseLiteral bytes (utf8 "true") (.bool true) i
    else if b = 0x66 then parseLiteral bytes (utf8 "false") (.bool false) i
    else if b = 0x22 then do
      let (s, i) ← parseString bytes i
      return (.string s, i)
    else if b = 0x7b then parseObject fuel i
    else if b = 0x5b then parseArray fuel i
    else if b = 0x2d ∨ (0x30 ≤ b ∧ b ≤ 0x39) then parseNumber bytes i
    else .error .declined

def parseObject : Nat → Nat → Attempt (Value × Nat)
  | 0, _ => .error .panicked
  | fuel + 1, i => do
    let i ← expect bytes 0x7b i
    let i ← skipWhitespace bytes i
    if bytes[i]? = some 0x7d then return (.object [], i + 1)
    else objectLoop fuel [] i

/-- The loop of `parse_object`. -/
def objectLoop : Nat → List (Text × Value) → Nat → Attempt (Value × Nat)
  | 0, _, _ => .error .panicked
  | fuel + 1, entries, i => do
    let i ← skipWhitespace bytes i
    let (key, i) ← parseString bytes i
    let i ← skipWhitespace bytes i
    let i ← expect bytes 0x3a i
    let (val, i) ← parseValue fuel i
    let i ← skipWhitespace bytes i
    let b ← orDecline bytes[i]?
    if b = 0x2c then objectLoop fuel (entries ++ [(key, val)]) (i + 1)
    else if b = 0x7d then return (.object (entries ++ [(key, val)]), i + 1)
    else .error .declined

def parseArray : Nat → Nat → Attempt (Value × Nat)
  | 0, _ => .error .panicked
  | fuel + 1, i => do
    let i ← expect bytes 0x5b i
    let i ← skipWhitespace bytes i
    if bytes[i]? = some 0x5d then return (.array [], i + 1)
    else arrayLoop fuel [] i

/-- The loop of `parse_array`. -/
def arrayLoop : Nat → List Value → Nat → Attempt (Value × Nat)
  | 0, _, _ => .error .panicked
  | fuel + 1, items, i => do
    let (v, i) ← parseValue fuel i
    let i ← skipWhitespace bytes i
    let b ← orDecline bytes[i]?
    if b = 0x2c then arrayLoop fuel (items ++ [v]) (i + 1)
    else if b = 0x5d then return (.array (items ++ [v]), i + 1)
    else .error .declined

end

def parseJson : Attempt Value := do
  let i ← skipWhitespace bytes 0
  let (v, i) ← parseValue bytes (4 * bytes.length + 4) i
  let i ← skipWhitespace bytes i
  declineIf (i ≠ bytes.length)
  return v

end Parser

end Alt.StructDiff
