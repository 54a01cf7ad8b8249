import Alt.Prism.PngFilter
import Alt.Prism.Recipe
import Alt.Prism.Registry

namespace Alt.PngPrism

open Alt.Library Attempt Alt.Prism

/-!
# The PNG prism (`alt-prism-png`)

An image is cut into the data of its IDAT chunks and an envelope that keeps everything else.  The data is
one zlib stream; the part is what it inflates to (mode A), or the pixels of the image with the row filters
taken off (mode B).  As in the ZIP prism, slices and products are checked; vectors as large as byte strings
already held are not asked about.
-/

def pngSignature : Bytes := [0x89, 0x50, 0x4e, 0x47, 0x0d, 0x0a, 0x1a, 0x0a]

/-- `ALTPNG01`. -/
def recipeMagicV1 : Bytes := [0x41, 0x4c, 0x54, 0x50, 0x4e, 0x47, 0x30, 0x31]

/-- `ALTPNG02`. -/
def recipeMagicV2 : Bytes := [0x41, 0x4c, 0x54, 0x50, 0x4e, 0x47, 0x30, 0x32]

def ihdrType : Bytes := [0x49, 0x48, 0x44, 0x52]

def idatType : Bytes := [0x49, 0x44, 0x41, 0x54]

def iendType : Bytes := [0x49, 0x45, 0x4e, 0x44]

def levelGrid : List Nat := [6, 9, 8, 1]

def maxInflated : Nat := 2 ^ 29

def maxPng : Nat := 2 ^ 31

/-! ### Chunks -/

structure Ihdr where
  width : UInt32
  height : UInt32
  bitDepth : UInt8
  colorType : UInt8
  interlace : UInt8
  deriving DecidableEq, Repr

/-- What the walk over the chunks has found. -/
structure Chunks where
  idatSpans : List Range
  sawIend : Bool
  ihdr : Option Ihdr

def readIhdr (d : Bytes) : Attempt Ihdr := do
  let width ← u32BeAt d 0
  let height ← u32BeAt d 4
  let bitDepth ← byteAt d 8
  let colorType ← byteAt d 9
  let interlace ← byteAt d 12
  return ⟨width, height, bitDepth, colorType, interlace⟩

/-- The first IHDR of the right length is the image's. -/
def noteIhdr (input ty : Bytes) (data : Range) (ihdr : Option Ihdr) : Attempt (Option Ihdr) :=
  if ty = ihdrType ∧ ihdr = none ∧ data.len = 13 then do
    let d ← cut input data.start data.stop
    let i ← readIhdr d
    return some i
  else .ok ihdr

/-- One chunk after another, while there is room for one. -/
def walkChunks (input : Bytes) (at_ : Nat) (chunks : Chunks) : Attempt (Chunks × Nat) :=
  if at_ + 12 ≤ input.length then do
    let length ← u32BeAt input at_
    let ty ← cut input (at_ + 4) (at_ + 8)
    declineIf (input.length < at_ + 8 + length.toNat + 4)
    let data : Range := ⟨at_ + 8, at_ + 8 + length.toNat⟩
    let ihdr ← noteIhdr input ty data chunks.ihdr
    let idatSpans := if ty = idatType then chunks.idatSpans ++ [data] else chunks.idatSpans
    walkChunks input (at_ + 8 + length.toNat + 4) ⟨idatSpans, chunks.sawIend || decide (ty = iendType), ihdr⟩
  else .ok (chunks, at_)
termination_by input.length - at_

/-- The bytes of the spans, joined. -/
def concatSpans (input : Bytes) : List Range → Attempt Bytes
  | [] => .ok []
  | span :: spans => do
    let data ← cut input span.start span.stop
    let rest ← concatSpans input spans
    return data ++ rest

/-- An image that a prism can make something of. -/
structure ParsedPng where
  idatSpans : List Range
  inflated : Bytes
  level : UInt8
  ihdr : Ihdr

def parsePng (Z : Zlib) (input : Bytes) : Attempt ParsedPng := do
  declineIf (input.length < 8 + 12 ∨ maxPng < input.length)
  let signature ← cut input 0 8
  declineIf (signature ≠ pngSignature)
  let (chunks, at_) ← walkChunks input 8 ⟨[], false, none⟩
  declineIf (chunks.sawIend = false ∨ chunks.idatSpans = [])
  declineIf (at_ ≠ input.length)
  let ihdr ← orDecline chunks.ihdr
  let zlibStream ← concatSpans input chunks.idatSpans
  let inflated ← orDecline (zlibInflate Z zlibStream maxInflated)
  let level ← orDecline (matchedLevel (zlibDeflate Z inflated) zlibStream levelGrid)
  return ⟨chunks.idatSpans, inflated, level, ihdr⟩

/-! ### The envelope -/

/-- What the recipe keeps of a span. -/
structure SpanMeta where
  segBeforeLen : UInt32
  dataLen : UInt32
  deriving DecidableEq, Repr

/-- What stands before the spans, what is kept of them, and where the last one ends. -/
def cutSpans (input : Bytes) : Nat → List Range → Attempt (Bytes × List SpanMeta × Nat)
  | cursor, [] => .ok ([], [], cursor)
  | cursor, span :: spans => do
    let segBefore ← cut input cursor span.start
    let dataLen ← sub span.stop span.start
    let (envelope, metas, cursor) ← cutSpans input span.stop spans
    return (segBefore ++ envelope, ⟨UInt32.ofNat segBefore.length, UInt32.ofNat dataLen⟩ :: metas, cursor)

def buildEnvelope (input : Bytes) (idatSpans : List Range) : Attempt (Bytes × List SpanMeta × UInt32) := do
  let (envelope, metas, cursor) ← cutSpans input 0 idatSpans
  let trailing ← cut input cursor input.length
  return (envelope ++ trailing, metas, UInt32.ofNat trailing.length)

/-! ### Recipes -/

def encodeSpan (s : SpanMeta) : Bytes := leBytes 4 s.segBeforeLen.toNat ++ leBytes 4 s.dataLen.toNat

/-- The end of both kinds of recipe: the spans, the last segment's length, the envelope. -/
def encodeSpans (spans : List SpanMeta) (segAfterLen : UInt32) (envelope : Bytes) : Bytes :=
  leBytes 4 spans.length ++ (spans.flatMap encodeSpan ++ encodeTail segAfterLen envelope)

def encodeRecipeV1 (level : UInt8) (spans : List SpanMeta) (segAfterLen : UInt32) (envelope : Bytes) : Bytes :=
  recipeMagicV1 ++ (level :: encodeSpans spans segAfterLen envelope)

def encodeIhdr (ihdr : Ihdr) : Bytes :=
  leBytes 4 ihdr.width.toNat ++ (leBytes 4 ihdr.height.toNat ++ [ihdr.bitDepth, ihdr.colorType, ihdr.interlace])

def encodeRecipeV2 (level : UInt8) (ihdr : Ihdr) (filters : Bytes) (spans : List SpanMeta) (segAfterLen : UInt32)
    (envelope : Bytes) : Bytes :=
  recipeMagicV2 ++ (level :: (encodeIhdr ihdr ++ (leBytes 4 filters.length ++ (filters ++
    encodeSpans spans segAfterLen envelope))))

def readSpan (recipe : Bytes) (at_ : Nat) : Attempt SpanMeta := do
  let segBeforeLen ← u32At recipe at_
  let dataLen ← u32At recipe (at_ + 4)
  return ⟨segBeforeLen, dataLen⟩

def decodeSpans (recipe : Bytes) (at_ : Nat) : Attempt (List SpanMeta × UInt32 × Bytes) := do
  declineIf (recipe.length < at_ + 4)
  let n ← u32At recipe at_
  let spans ← readRows recipe 8 (readSpan recipe) n.toNat (at_ + 4)
  let tail ← decodeTail recipe (at_ + 4 + 8 * n.toNat)
  return (spans, tail)

def decodeRecipeV1 (recipe : Bytes) : Attempt (UInt8 × List SpanMeta × UInt32 × Bytes) := do
  declineIf (recipe.length < 8 + 1 + 4)
  let magic ← cut recipe 0 8
  declineIf (magic ≠ recipeMagicV1)
  let level ← byteAt recipe 8
  let spans ← decodeSpans recipe 9
  return (level, spans)

def decodeIhdr (recipe : Bytes) (at_ : Nat) : Attempt Ihdr := do
  let width ← u32At recipe at_
  let height ← u32At recipe (at_ + 4)
  let bitDepth ← byteAt recipe (at_ + 8)
  let colorType ← byteAt recipe (at_ + 9)
  let interlace ← byteAt recipe (at_ + 10)
  return ⟨width, height, bitDepth, colorType, interlace⟩

def decodeRecipeV2 (recipe : Bytes) : Attempt (UInt8 × Ihdr × Bytes × List SpanMeta × UInt32 × Bytes) := do
  declineIf (recipe.length < 8 + 1 + 11 + 4)
  let magic ← cut recipe 0 8
  declineIf (magic ≠ recipeMagicV2)
  let level ← byteAt recipe 8
  let ihdr ← decodeIhdr recipe 9
  let fcount ← u32At recipe 20
  declineIf (recipe.length < 24 + fcount.toNat)
  let filters ← cut recipe 24 (24 + fcount.toNat)
  let spans ← decodeSpans recipe (24 + fcount.toNat)
  return (level, ihdr, filters, spans)

/-! ### Decomposition -/

/-- Mode B knows images of eight bits a sample that are not interlaced. -/
def bytesPerPixel (ihdr : Ihdr) : Option Nat :=
  if ihdr.bitDepth ≠ 8 ∨ ihdr.interlace ≠ 0 then none
  else if ihdr.colorType = 0 then some 1
  else if ihdr.colorType = 2 then some 3
  else if ihdr.colorType = 4 then some 2
  else if ihdr.colorType = 6 then some 4
  else none

def decomposeModeA (input : Bytes) (parsed : ParsedPng) : Attempt Decomposition := do
  let (envelope, spans, segAfterLen) ← buildEnvelope input parsed.idatSpans
  return ⟨encodeRecipeV1 parsed.level spans segAfterLen envelope, [parsed.inflated]⟩

/-- Rows `r`, …, `r + n - 1`: the filter types and the pixels. -/
def unfilterRows (inflated : Bytes) (stride bpp : Nat) : Nat → Nat → Bytes → Attempt (Bytes × Bytes)
  | 0, _, _ => .ok ([], [])
  | n + 1, r, prevRaw => do
    let off ← mul r stride
    let filterType ← byteAt inflated off
    let filtered ← cut inflated (off + 1) (off + stride)
    let decoded ← unfilterRow filterType filtered prevRaw bpp
    let (filters, raw) ← unfilterRows inflated stride bpp n (r + 1) decoded
    return (filterType :: filters, decoded ++ raw)

def decomposeModeB (input : Bytes) (parsed : ParsedPng) : Attempt Decomposition := do
  let bpp ← orDecline (bytesPerPixel parsed.ihdr)
  let h := parsed.ihdr.height.toNat
  let rowData ← checkedMul parsed.ihdr.width.toNat bpp
  let stride ← checkedAdd rowData 1
  let expected ← checkedMul stride h
  declineIf (parsed.inflated.length ≠ expected)
  let size ← mul rowData h
  withCapacity size
  let (filters, raw) ← unfilterRows parsed.inflated stride bpp h 0 (List.replicate rowData 0)
  let (envelope, spans, segAfterLen) ← buildEnvelope input parsed.idatSpans
  return ⟨encodeRecipeV2 parsed.level parsed.ihdr filters spans segAfterLen envelope, [raw]⟩

/-- Mode B, and mode A where it declines. -/
def decompose (Z : Zlib) (input : Bytes) : Attempt Decomposition := do
  let parsed ← parsePng Z input
  match decomposeModeB input parsed with
  | .error .declined => decomposeModeA input parsed
  | attempt => attempt

/-! ### Recomposition -/

/-- Segments of the envelope and pieces of the stream in turn; the output, and how far the envelope is
    used up. -/
def spliceSpans (envelope zlibStream : Bytes) : Nat → Nat → List SpanMeta → Attempt (Bytes × Nat)
  | envCursor, _, [] => .ok ([], envCursor)
  | envCursor, streamCursor, span :: spans => do
    let next ← checkedAdd envCursor span.segBeforeLen.toNat
    declineIf (envelope.length < next)
    let seg ← cut envelope envCursor next
    let streamNext ← checkedAdd streamCursor span.dataLen.toNat
    declineIf (zlibStream.length < streamNext)
    let data ← cut zlibStream streamCursor streamNext
    let (out, envCursor) ← spliceSpans envelope zlibStream next streamNext spans
    return (seg ++ (data ++ out), envCursor)

def spliceZlib (Z : Zlib) (envelope : Bytes) (spans : List SpanMeta) (segAfterLen : UInt32) (inflated : Bytes)
    (level : UInt8) : Attempt Bytes := do
  let zlibStream ← orDecline (zlibDeflate Z inflated level.toNat)
  let totalData ← sum (spans.map fun s => s.dataLen.toNat)
  declineIf (zlibStream.length ≠ totalData)
  let envelopeTotal ← sum (spans.map (fun s => s.segBeforeLen.toNat) ++ [segAfterLen.toNat])
  declineIf (envelope.length ≠ envelopeTotal)
  let (out, cursor) ← spliceSpans envelope zlibStream 0 0 spans
  let finalEnd ← checkedAdd cursor segAfterLen.toNat
  declineIf (finalEnd ≠ envelope.length)
  let last ← cut envelope cursor finalEnd
  return out ++ last

/-- `let [part] = parts else { return None }`. -/
def onlyPart : List Bytes → Option Bytes
  | [part] => some part
  | _ => none

def recomposeModeA (Z : Zlib) (recipe : Bytes) (parts : List Bytes) : Attempt Bytes := do
  let (level, spans, segAfterLen, envelope) ← decodeRecipeV1 recipe
  let inflated ← orDecline (onlyPart parts)
  spliceZlib Z envelope spans segAfterLen inflated level

/-- Rows `r`, …, `r + n - 1`, filtered again. -/
def filterRows (raw filters : Bytes) (rowData bpp : Nat) : Nat → Nat → Bytes → Attempt Bytes
  | 0, _, _ => .ok []
  | n + 1, r, prevRaw => do
    let rowStart ← mul r rowData
    let rowEnd ← mul (r + 1) rowData
    let row ← cut raw rowStart rowEnd
    let filter ← byteAt filters r
    let filtered ← filterRow filter row prevRaw bpp
    let rest ← filterRows raw filters rowData bpp n (r + 1) row
    return filter :: (filtered ++ rest)

def recomposeModeB (Z : Zlib) (recipe : Bytes) (parts : List Bytes) : Attempt Bytes := do
  let (level, ihdr, filters, spans, segAfterLen, envelope) ← decodeRecipeV2 recipe
  let raw ← orDecline (onlyPart parts)
  let bpp ← orDecline (bytesPerPixel ihdr)
  let h := ihdr.height.toNat
  let rowData ← checkedMul ihdr.width.toNat bpp
  let size ← mul rowData h
  declineIf (raw.length ≠ size ∨ filters.length ≠ h)
  let inflated ← filterRows raw filters rowData bpp h 0 []
  spliceZlib Z envelope spans segAfterLen inflated level

def recompose (Z : Zlib) (recipe : Bytes) (parts : List Bytes) : Attempt Bytes := do
  declineIf (recipe.length < 8)
  let magic ← cut recipe 0 8
  if magic = recipeMagicV1 then recomposeModeA Z recipe parts
  else if magic = recipeMagicV2 then recomposeModeB Z recipe parts
  else .error .declined

end Alt.PngPrism
