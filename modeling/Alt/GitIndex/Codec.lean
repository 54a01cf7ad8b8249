import Alt.GitPack.Idx

namespace Alt.GitIndex

open Alt.Library Alt.GitPack

/-!
# The git index file (`alt-git-index/src/lib.rs`, 12–271)

A header with the number of entries, the entries, extensions as they are, and the hash of all that.
An entry says how long its path is, in twelve bits; a longer path ends at its first NUL.  Entries are
padded to eight bytes.  What is left of the file is handed on, so positions are how much is left.

* `Index.parse` — reading versions 2 to 4;
* `Index.serialize` — writing version 2, or 3 where an entry has extended flags.
-/

/-! ### Entries and extensions -/

structure IndexEntry where
  ctime : UInt32 × UInt32
  mtime : UInt32 × UInt32
  dev : UInt32
  ino : UInt32
  mode : UInt32
  uid : UInt32
  gid : UInt32
  size : UInt32
  oid : ObjectId
  /-- The stage and the control bits, above the length of the path. -/
  flags : UInt16
  /-- There when the extended bit is set. -/
  extendedFlags : Option UInt16
  path : Bytes
  deriving DecidableEq

/-- 0 for a merged path, 1 to 3 for the sides of a conflict. -/
def IndexEntry.stage (e : IndexEntry) : UInt16 := (e.flags >>> 12) &&& 3

/-- The words an entry begins with. -/
def IndexEntry.words (e : IndexEntry) : List UInt32 :=
  [e.ctime.1, e.ctime.2, e.mtime.1, e.mtime.2, e.dev, e.ino, e.mode, e.uid, e.gid, e.size]

/-- An extension chunk, kept as it is. -/
structure Extension where
  signature : ByteArr 4
  data : Bytes
  deriving DecidableEq

structure Index where
  version : UInt32
  entries : List IndexEntry
  extensions : List Extension
  deriving DecidableEq

inductive IndexError
  | format (what : String)
  deriving DecidableEq

def magic : Bytes := [0x44, 0x49, 0x52, 0x43]

def half (n : UInt16) : Bytes := beBytes 2 n.toNat

def readU16 (data : Bytes) (at_ : Nat) : UInt16 := UInt16.ofNat (beNat (bytesAt data at_ 2))

/-- The flag of an entry with extended flags. -/
def extendedBit : UInt16 := 0x4000

/-- The bits of the length of the path. -/
def nameMask : UInt16 := 0x0fff

/-- 1 to 8 NULs, to a multiple of eight bytes. -/
def padding (len : Nat) : Nat := 8 - len % 8

/-! ### Reading -/

/-- A varint in which each byte that follows counts from one. -/
def chainedTail (v : UInt64) : Bytes → Except IndexError (UInt64 × Bytes)
  | [] => .error (.format "truncated varint")
  | b :: rest =>
    if v + 1 = 0 then .error (.format "varint overflow")
    else
      let v := (v + 1) <<< 7 ||| (b &&& 0x7f).toUInt64
      if b &&& 0x80 ≠ 0 then chainedTail v rest else .ok (v, rest)

def chainedVarint : Bytes → Except IndexError (UInt64 × Bytes)
  | [] => .error (.format "truncated varint")
  | b :: rest =>
    let v := (b &&& 0x7f).toUInt64
    if b &&& 0x80 ≠ 0 then chainedTail v rest else .ok (v, rest)

/-- The extended flags, if there are any. -/
def parseExtended (version : UInt32) (flags : UInt16) (rest : Bytes) :
    Except IndexError (Option UInt16 × Bytes) :=
  if flags &&& extendedBit = 0 then .ok (none, rest)
  else if version < 3 then .error (.format "extended flag in a v2 index")
  else
    match takeN 2 rest with
    | none => .error (.format "truncated extended flags")
    | some (ext, rest) => .ok (some (readU16 ext 0), rest)

/-- A path of version 4: how much of the previous path goes, and what comes instead. -/
def parsePrefixed (prev rest : Bytes) : Except IndexError (Bytes × Bytes) :=
  match chainedVarint rest with
  | .error e => .error e
  | .ok (strip, rest) =>
    match splitFirst 0 rest with
    | none => .error (.format "unterminated v4 path")
    | some (suffix, rest) =>
      if prev.length < strip.toNat then .error (.format "v4 prefix strip exceeds previous path")
      else .ok (prev.take (prev.length - strip.toNat) ++ suffix, rest)

def parseName (nameLen : Nat) (rest : Bytes) : Except IndexError Bytes :=
  if nameLen = 0xfff then
    match splitFirst 0 rest with
    | none => .error (.format "unterminated long path")
    | some (name, _) => .ok name
  else
    match takeN nameLen rest with
    | none => .error (.format "truncated entry path")
    | some (name, _) => .ok name

/-- A path behind `read` bytes of its entry, and the padding. -/
def parsePadded (nameLen read : Nat) (rest : Bytes) : Except IndexError (Bytes × Bytes) :=
  match parseName nameLen rest with
  | .error e => .error e
  | .ok name =>
    match takeN (padding (read + name.length)) (rest.drop name.length) with
    | none => .error (.format "bad entry padding")
    | some (pad, rest) =>
      if pad.any (· ≠ 0) then .error (.format "bad entry padding") else .ok (name, rest)

/-- How many bytes the extended flags take. -/
def extendedLen (ext : Option UInt16) : Nat := if ext.isSome then 2 else 0

def parsePath (version : UInt32) (flags : UInt16) (read : Nat) (prev rest : Bytes) :
    Except IndexError (Bytes × Bytes) :=
  if version = 4 then parsePrefixed prev rest
  else parsePadded (flags &&& nameMask).toNat read rest

def fixedLen (algo : HashAlgo) : Nat := 40 + algo.rawLen + 2

/-- The id of bytes that are as long as one. -/
def rawId (algo : HashAlgo) (raw : Bytes) : ObjectId :=
  match algo with
  | .sha1 => .sha1 (.ofSlice 20 raw)
  | .sha256 => .sha256 (.ofSlice 32 raw)

/-- An entry of its fixed part, its extended flags and its path. -/
def entryOf (algo : HashAlgo) (fixed : Bytes) (ext : Option UInt16) (path : Bytes) : IndexEntry where
  ctime := (readU32 fixed 0, readU32 fixed 4)
  mtime := (readU32 fixed 8, readU32 fixed 12)
  dev := readU32 fixed 16
  ino := readU32 fixed 20
  mode := readU32 fixed 24
  uid := readU32 fixed 28
  gid := readU32 fixed 32
  size := readU32 fixed 36
  oid := rawId algo (bytesAt fixed 40 algo.rawLen)
  flags := readU16 fixed (40 + algo.rawLen)
  extendedFlags := ext
  path := path

def parseEntry (version : UInt32) (algo : HashAlgo) (prev rest : Bytes) :
    Except IndexError (IndexEntry × Bytes) :=
  match takeN (fixedLen algo) rest with
  | none => .error (.format "truncated index entry")
  | some (fixed, rest) =>
    let flags := readU16 fixed (40 + algo.rawLen)
    match parseExtended version flags rest with
    | .error e => .error e
    | .ok (ext, rest) =>
      match parsePath version flags (fixedLen algo + extendedLen ext) prev rest with
      | .error e => .error e
      | .ok (path, rest) => .ok (entryOf algo fixed ext path, rest)

/-- The loop over the entries; only version 4 looks at the path before. -/
def parseEntries (version : UInt32) (algo : HashAlgo) :
    Nat → Bytes → Bytes → Except IndexError (List IndexEntry × Bytes)
  | 0, _, rest => .ok ([], rest)
  | count + 1, prev, rest =>
    match parseEntry version algo prev rest with
    | .error e => .error e
    | .ok (entry, rest) =>
      match parseEntries version algo count entry.path rest with
      | .error e => .error e
      | .ok (entries, rest) => .ok (entry :: entries, rest)

/-- The loop over the extensions, up to the checksum, and what is left then.  The header of an extension
    has to be before the checksum; its payload may go on to the end of the file. -/
def parseExtensions (raw : Nat) (rest : Bytes) : Except IndexError (List Extension × Bytes) :=
  if rest.length ≤ raw then .ok ([], rest)
  else if rest.length < 8 + raw then .error (.format "truncated extension header")
  else
    match h : takeN (readU32 rest 4).toNat (rest.drop 8) with
    | none => .error (.format "extension payload overruns file")
    | some (payload, rest') =>
      match parseExtensions raw rest' with
      | .error e => .error e
      | .ok (extensions, left) => .ok (⟨.ofSlice 4 (bytesAt rest 0 4), payload⟩ :: extensions, left)
termination_by rest.length
decreasing_by
  have hlen := congrArg List.length (takeN_eq_some.mp h).1
  rw [List.length_append, List.length_drop] at hlen
  omega

section

variable (P : Prims) (algo : HashAlgo)

/-- An index, and what is left behind its last entry and extension. -/
def parseAll (data : Bytes) : Except IndexError (Index × Bytes) :=
  if data.length < 12 + algo.rawLen ∨ data.take 4 ≠ magic then
    .error (.format "not an index file (bad magic)")
  else
    let version := readU32 data 4
    if ¬(2 ≤ version ∧ version ≤ 4) then .error (.format "unsupported index version")
    else
      let contentEnd := data.length - algo.rawLen
      if data.drop contentEnd ≠ digest P algo (data.take contentEnd) then
        .error (.format "index checksum mismatch")
      else
        match parseEntries version algo (readU32 data 8).toNat [] (data.drop 12) with
        | .error e => .error e
        | .ok (entries, rest) =>
          match parseExtensions algo.rawLen rest with
          | .error e => .error e
          | .ok (extensions, left) => .ok (⟨version, entries, extensions⟩, left)

def Index.parse (data : Bytes) : Except IndexError Index := (parseAll P algo data).map Prod.fst

/-! ### Writing -/

/-- The flags as they are written: the control bits, the length of the path, and the extended bit where
    there are extended flags. -/
def rebuildFlags (e : IndexEntry) : UInt16 :=
  let flags := (e.flags &&& 0xf000) ||| UInt16.ofNat (min e.path.length 0xfff)
  match e.extendedFlags with
  | some _ => flags ||| extendedBit
  | none => flags &&& ~~~extendedBit

/-- An entry with the flags it is written with. -/
def rebuilt (e : IndexEntry) : IndexEntry := { e with flags := rebuildFlags e }

def extendedBytes : Option UInt16 → Bytes
  | some ext => half ext
  | none => []

/-- The part of an entry that has one length. -/
def fixedBytes (e : IndexEntry) : Bytes := e.words.flatMap word ++ e.oid.asBytes ++ half e.flags

/-- The bytes of an entry in front of the padding. -/
def entryBody (e : IndexEntry) : Bytes := fixedBytes e ++ extendedBytes e.extendedFlags ++ e.path

def entryBytes (e : IndexEntry) : Bytes :=
  entryBody e ++ List.replicate (padding (entryBody e).length) 0

def extensionBytes (x : Extension) : Bytes :=
  x.signature.val ++ word (UInt32.ofNat x.data.length) ++ x.data

/-- What entries are sorted by: path and stage. -/
def byPathStage (a b : IndexEntry) : Bool :=
  ((compare a.path b.path).then (compare a.stage b.stage)).isLE

/-- The version that is needed. -/
def minimalVersion (entries : List IndexEntry) : UInt32 :=
  if entries.any fun e => e.extendedFlags.isSome then 3 else 2

/-- What the checksum is of. -/
def content (i : Index) : Bytes :=
  magic ++ word (minimalVersion i.entries) ++ word (UInt32.ofNat i.entries.length) ++
    (i.entries.insertionSort (byPathStage · ·)).flatMap (fun e => entryBytes (rebuilt e)) ++
    i.extensions.flatMap extensionBytes

def Index.serialize (i : Index) : Bytes := content i ++ digest P algo (content i)

end

end Alt.GitIndex
