import Alt.Prism.Recipe
import Alt.Prism.Registry

namespace Alt.ZipPrism

open Alt.Library Attempt Alt.Prism

/-!
# The ZIP prism (`alt-prism-zip`)

An archive is cut into the bodies of its members, in the order they lie in, and an envelope that keeps
everything else.  A stored body is a part as it is; a deflated one is inflated, when the library
reproduces it at one of four levels.  Every slice and every product is checked here as it is in Rust:
one out of range is a panic.  Offsets into a slice are under `2^63`, so adding 32-bit fields to them
does not overflow.
-/

def lfhSig : Bytes := [0x50, 0x4b, 0x03, 0x04]

def cdSig : Bytes := [0x50, 0x4b, 0x01, 0x02]

def eocdSig : Bytes := [0x50, 0x4b, 0x05, 0x06]

/-- `ALTZIP01`. -/
def recipeMagic : Bytes := [0x41, 0x4c, 0x54, 0x5a, 0x49, 0x50, 0x30, 0x31]

def maxMemberInflated : Nat := 2 ^ 28

def maxArchive : Nat := 2 ^ 31

def levelGrid : List Nat := [6, 8, 9, 1]

/-! ### The central directory -/

/-- What the central directory says of a member. -/
structure CentralEntry where
  lfhOff : Nat
  method : UInt16
  compSize : Nat
  deriving DecidableEq, Repr

/-- The last of the positions `start`, …, `start + n - 1` at which an end-of-directory record begins. -/
def scanBack (data : Bytes) (start : Nat) : Nat → Attempt Nat
  | 0 => .error .declined
  | n + 1 => do
    let sig ← cut data (start + n) (start + n + 4)
    if sig = eocdSig then return start + n
    else scanBack data start n

/-- A comment of up to 65535 bytes stands behind the record. -/
def findEocd (data : Bytes) : Attempt Nat :=
  let start := data.length - min 65557 data.length
  scanBack data start (data.length - 4 + 1 - start)

/-- One record, and the length of the fields behind its fixed part. -/
def readCentral (cd : Bytes) (at_ : Nat) : Attempt (CentralEntry × Nat) := do
  let flags ← u16At cd (at_ + 8)
  declineIf (flags &&& 0b1000 ≠ 0)
  declineIf (flags &&& 0b1 ≠ 0)
  let method ← u16At cd (at_ + 10)
  let compSize ← u32At cd (at_ + 20)
  let uncompSize ← u32At cd (at_ + 24)
  let nameLen ← u16At cd (at_ + 28)
  let extraLen ← u16At cd (at_ + 30)
  let commentLen ← u16At cd (at_ + 32)
  let lfhOff ← u32At cd (at_ + 42)
  declineIf (compSize = 0xffffffff ∨ uncompSize = 0xffffffff ∨ lfhOff = 0xffffffff)
  return (⟨lfhOff.toNat, method, compSize.toNat⟩, nameLen.toNat + extraLen.toNat + commentLen.toNat)

/-- The records from `at_` on. -/
def readCentrals (cd : Bytes) (at_ : Nat) : Attempt (List CentralEntry) :=
  if at_ + 46 ≤ cd.length then do
    let sig ← cut cd at_ (at_ + 4)
    if sig ≠ cdSig then return []
    else
      let (c, skip) ← readCentral cd at_
      let rest ← readCentrals cd (at_ + 46 + skip)
      return c :: rest
  else .ok []
termination_by cd.length - at_

/-- Members whose local headers overlap. -/
def overlapping (centrals : List CentralEntry) : Bool :=
  (centrals.zip centrals.tail).any fun w => w.2.lfhOff < w.1.lfhOff + 30

/-- The members in the order they lie in. -/
def centrals (input : Bytes) : Attempt (List CentralEntry) := do
  declineIf (input.length < 22 ∨ maxArchive < input.length)
  declineIf (¬lfhSig <+: input)
  let eocd ← findEocd input
  declineIf (input.length < eocd + 22)
  let cdSize ← u32At input (eocd + 12)
  let cdOff ← u32At input (eocd + 16)
  let cdEnd ← checkedAdd cdOff.toNat cdSize.toNat
  declineIf (input.length < cdEnd)
  let totalEntries ← u16At input (eocd + 10)
  declineIf (totalEntries = 0xffff)
  let cd ← cut input cdOff.toNat cdEnd
  let centrals ← readCentrals cd 0
  declineIf (centrals.length ≠ totalEntries.toNat)
  let centrals := centrals.insertionSort (·.lfhOff ≤ ·.lfhOff)
  declineIf (overlapping centrals)
  return centrals

/-! ### The members -/

/-- What the recipe keeps of a member. -/
structure EntryMeta where
  method : UInt16
  level : UInt8
  segBeforeLen : UInt32
  bodyLen : UInt32
  deriving DecidableEq, Repr

/-- Where a member's body lies. -/
def locate (input : Bytes) (c : CentralEntry) : Attempt Range := do
  declineIf (input.length < c.lfhOff + 30)
  let sig ← cut input c.lfhOff (c.lfhOff + 4)
  declineIf (sig ≠ lfhSig)
  let nameLen ← u16At input (c.lfhOff + 26)
  let extraLen ← u16At input (c.lfhOff + 28)
  let afterFixed ← checkedAdd c.lfhOff 30
  let afterName ← checkedAdd afterFixed nameLen.toNat
  let bodyStart ← checkedAdd afterName extraLen.toNat
  let bodyEnd ← checkedAdd bodyStart c.compSize
  declineIf (input.length < bodyEnd)
  return ⟨bodyStart, bodyEnd⟩

/-- The level and the part of a body. -/
def partOf (Z : Zlib) (method : UInt16) (body : Bytes) : Option (UInt8 × Bytes) :=
  if method = 0 then some (0xff, body)
  else if method = 8 then do
    let inflated ← rawInflate Z body maxMemberInflated
    let level ← matchedLevel (rawDeflate Z inflated) body levelGrid
    return (level, inflated)
  else none

/-- What the members come to. -/
structure Members where
  entries : List EntryMeta
  parts : List Bytes
  envelope : Bytes
  lastEnd : Nat

/-- Cut the members out, one after another. -/
def cutMembers (Z : Zlib) (input : Bytes) : Nat → List CentralEntry → Attempt Members
  | lastEnd, [] => .ok ⟨[], [], [], lastEnd⟩
  | lastEnd, c :: cs => do
    let body ← locate input c
    let segBefore ← cut input lastEnd body.start
    let bytes ← cut input body.start body.stop
    let (level, part) ← orDecline (partOf Z c.method bytes)
    let rest ← cutMembers Z input body.stop cs
    return ⟨⟨c.method, level, UInt32.ofNat segBefore.length, UInt32.ofNat c.compSize⟩ :: rest.entries,
      part :: rest.parts, segBefore ++ rest.envelope, rest.lastEnd⟩

/-! ### Recipes -/

/-- Eleven bytes for each member. -/
def encodeEntry (e : EntryMeta) : Bytes :=
  leBytes 2 e.method.toNat ++ (e.level :: (leBytes 4 e.segBeforeLen.toNat ++ leBytes 4 e.bodyLen.toNat))

def encodeRecipe (entries : List EntryMeta) (segAfterLen : UInt32) (envelope : Bytes) : Bytes :=
  recipeMagic ++ (leBytes 4 entries.length ++ (entries.flatMap encodeEntry ++ encodeTail segAfterLen envelope))

def readEntry (recipe : Bytes) (at_ : Nat) : Attempt EntryMeta := do
  let method ← u16At recipe at_
  let level ← byteAt recipe (at_ + 2)
  let segBeforeLen ← u32At recipe (at_ + 3)
  let bodyLen ← u32At recipe (at_ + 7)
  return ⟨method, level, segBeforeLen, bodyLen⟩

def decodeRecipe (recipe : Bytes) : Attempt (List EntryMeta × UInt32 × Bytes) := do
  declineIf (recipe.length < 8 + 4)
  let magic ← cut recipe 0 8
  declineIf (magic ≠ recipeMagic)
  let n ← u32At recipe 8
  let entries ← readRows recipe 11 (readEntry recipe) n.toNat 12
  let tail ← decodeTail recipe (12 + 11 * n.toNat)
  return (entries, tail)

/-! ### The prism -/

def decompose (Z : Zlib) (input : Bytes) : Attempt Decomposition := do
  let centrals ← centrals input
  let members ← cutMembers Z input 0 centrals
  let trailing ← cut input members.lastEnd input.length
  let recipe := encodeRecipe members.entries (UInt32.ofNat trailing.length) (members.envelope ++ trailing)
  return ⟨recipe, members.parts⟩

/-- The body of a member, from its part. -/
def bodyOf (Z : Zlib) (entry : EntryMeta) (part : Bytes) : Option Bytes :=
  if entry.method = 0 then if UInt32.ofNat part.length ≠ entry.bodyLen then none else some part
  else if entry.method = 8 then
    if entry.level = 0xff then none
    else (rawDeflate Z part entry.level.toNat).filter fun reco => UInt32.ofNat reco.length = entry.bodyLen
  else none

/-- Segments of the envelope and bodies in turn; the output, and how far the envelope is used up. -/
def splice (Z : Zlib) (envelope : Bytes) : Nat → List (EntryMeta × Bytes) → Attempt (Bytes × Nat)
  | cursor, [] => .ok ([], cursor)
  | cursor, (entry, part) :: rest => do
    let next ← checkedAdd cursor entry.segBeforeLen.toNat
    declineIf (envelope.length < next)
    let seg ← cut envelope cursor next
    let body ← orDecline (bodyOf Z entry part)
    let (out, cursor) ← splice Z envelope next rest
    return (seg ++ (body ++ out), cursor)

def recompose (Z : Zlib) (recipe : Bytes) (parts : List Bytes) : Attempt Bytes := do
  let (entries, segAfterLen, envelope) ← decodeRecipe recipe
  declineIf (entries.length ≠ parts.length)
  let totalBodyLen ← sum (entries.map fun e => e.bodyLen.toNat)
  let envelopeTotal ← sum (entries.map (fun e => e.segBeforeLen.toNat) ++ [segAfterLen.toNat])
  declineIf (envelope.length ≠ envelopeTotal)
  withCapacity (envelope.length + totalBodyLen)
  let (out, cursor) ← splice Z envelope 0 (entries.zip parts)
  let finalEnd ← checkedAdd cursor segAfterLen.toNat
  declineIf (finalEnd ≠ envelope.length)
  let last ← cut envelope cursor finalEnd
  return out ++ last

end Alt.ZipPrism
