import Alt.GitCodec.Tree
import Alt.Library.FileTree
import Alt.Refs.Tx
import Alt.Repo.IndexTx
import Alt.Repo.Objects

namespace Alt.Repo

open Alt.Library Alt.Odb Alt.Refs

/-!
# Trees, the index and status (`alt-worktree/src/lib.rs`, `alt-git-index/src/lib.rs`)

The three views of a repository's files — the tree of a commit, the index, the working tree —
are lists of `WorkEntry`s.  `flattenTree` reads a stored tree as such a list, `writeTree` stores
one, `status` compares the three.

A command may fail with any of `CliError`s; reading loops carry the fuel they are given, and say
which of them ran out of it.
-/

/-! ### Errors -/

/-- The loops that have no bound of their own. -/
inductive Loop
  | history | tree | bases
  deriving DecidableEq

/-- What a command can fail with. -/
inductive CliError
  | message (text : String)
  /-- "untracked working tree file '…' would be overwritten by switch". -/
  | untracked (path : Bytes)
  /-- "capability denied: path '…' is not in path_allow". -/
  | notAllowed (path : Bytes)
  /-- "pathspec '…' did not match any files". -/
  | noMatch (given : Bytes)
  /-- "unknown op kind … — nothing to undo". -/
  | unknownOp (kind : UInt8)
  | indexTx (e : IndexTxError)
  | object (e : ObjectParseError)
  | notATree (id : ObjectId)
  | hash (e : HashMismatch)
  | refs (e : RefError)
  | io (e : IoError)
  | panic
  | unbounded (loop : Loop)

abbrev Res := Except CliError

/-- A program on the object database. -/
abbrev OdbM := EStateM CliError Objects

/-! ### Entries -/

/-- One path's identity: its id and mode. -/
structure WorkEntry where
  path : Bytes
  oid : ObjectId
  mode : UInt32
  deriving DecidableEq

/-- The order of paths. -/
def byPath (a b : WorkEntry) : Bool := (compare a.path b.path).isLE

def gitlink : UInt32 := 0o160000

def symlinkMode : UInt32 := 0o120000

def executable : UInt32 := 0o100755

def regular : UInt32 := 0o100644

def directory : UInt32 := 0o040000

/-- One line of the index; the stat of the file is left out. -/
structure IndexEntry where
  mode : UInt32
  oid : ObjectId
  flags : UInt16
  path : Bytes
  deriving DecidableEq

/-- 0 for a merged path, 1 to 3 for the sides of a conflict. -/
def IndexEntry.stage (e : IndexEntry) : Nat := (e.flags.toNat >>> 12) % 4

def IndexEntry.entry (e : IndexEntry) : WorkEntry := ⟨e.path, e.oid, e.mode⟩

/-- The entries as the index file holds them, by path and stage. -/
abbrev Index := List IndexEntry

/-- The flags of an entry: its stage above the length of its path. -/
def stageFlags (stage : Nat) (path : Bytes) : UInt16 :=
  UInt16.ofNat ((stage <<< 12) ||| min path.length 0x0fff)

/-- An unmerged entry. -/
def stageEntry (w : WorkEntry) (stage : Nat) : IndexEntry :=
  ⟨w.mode, w.oid, stageFlags stage w.path, w.path⟩

theorem stage_stageEntry {w : WorkEntry} : (stageEntry w 0).stage = 0 := by
  have hlength : min w.path.length 4095 < 4096 := by omega
  have hflags : (stageFlags 0 w.path).toNat = min w.path.length 4095 := by
    rw [stageFlags, Nat.zero_shiftLeft, Nat.zero_or, UInt16.toNat_ofNat']
    exact Nat.mod_eq_of_lt (by omega)
  rw [IndexEntry.stage, stageEntry, hflags, Nat.shiftRight_eq_div_pow]
  omega

/-- What the entries of a written index are sorted by. -/
def byPathStage (a b : IndexEntry) : Bool :=
  ((compare a.path b.path).then (compare a.stage b.stage)).isLE

/-- The index's tracked entries, stage 0 only. -/
def indexEntries (index : Index) : List WorkEntry :=
  ((index.filter fun e => e.stage = 0).map IndexEntry.entry).insertionSort (byPath · ·)

/-- Whether some path is unmerged. -/
def unmerged (index : Index) : Bool := index.any fun e => 0 < e.stage

/-! ### Flattening a tree -/

/-- A name behind its directory. -/
def under (front name : Bytes) : Bytes := if front = [] then name else front ++ slash :: name

section Flatten

variable (objects : Objects) (algo : HashAlgo)

/-- The entries below a tree, with full paths. -/
def flattenInto : Nat → ObjectId → Bytes → Res (List WorkEntry)
  | 0, _, _ => .error (.unbounded .tree)
  | fuel + 1, tree, front =>
    match objects tree with
    | none => .error (.notATree tree)
    | some obj =>
      if obj.kind ≠ .tree then .error (.notATree tree)
      else
        match Tree.parse obj.data algo with
        | .error e => .error (.object e)
        | .ok parsed => do
          let parts ← parsed.entries.mapM fun e =>
            if e.mode.objectKind = .tree then
              flattenInto fuel e.oid (under front e.name)
            else .ok [⟨under front e.name, e.oid, e.mode.value⟩]
          return parts.flatten

/-- A stored tree as entries in path order. -/
def flattenTree (fuel : Nat) (tree : ObjectId) : Res (List WorkEntry) := do
  let entries ← flattenInto objects algo fuel tree []
  return entries.insertionSort (byPath · ·)

end Flatten

/-! ### Writing a tree -/

/-- Stores an object under the id it hashes to. -/
def store (P : Prims) (algo : HashAlgo) (kind : ObjectKind) (data : Bytes) : OdbM ObjectId :=
  fun objects =>
    let id := ObjectId.hashObject P algo kind data
    match objects.put P id kind data with
    | .ok objects => .ok id objects
    | .error e => .error (.hash e) objects

/-- A path below the tree that is written, its id and mode. -/
abbrev Flat := Bytes × ObjectId × UInt32

def WorkEntry.flat (e : WorkEntry) : Flat := (e.path, e.oid, e.mode)

/-- Whether two paths lie under one directory. -/
def sameDir (a b : Flat) : Bool :=
  match splitFirst slash a.1, splitFirst slash b.1 with
  | some (x, _), some (y, _) => x == y
  | _, _ => false

/-- The octal digits of a mode, as ASCII. -/
def octal (mode : UInt32) : Bytes := (Nat.toDigits 8 mode.toNat).map fun c => UInt8.ofNat c.toNat

/-- Git compares names with a slash appended for directories. -/
def treeKey (e : Flat) : Bytes := if e.2.2 = directory then e.1 ++ [slash] else e.1

def byTreeKey (a b : Flat) : Bool := (compare (treeKey a) (treeKey b)).isLE

/-- The bytes of one level. -/
def levelBytes (level : List Flat) : Bytes :=
  level.flatMap fun e => octal e.2.2 ++ 0x20 :: e.1 ++ 0 :: e.2.1.asBytes

section Write

variable (P : Prims) (algo : HashAlgo)

/-- Writes the tree of entries in path order; those under one directory are one run. -/
def writeSubtree : Nat → List Flat → OdbM ObjectId
  | 0, _ => throw (.unbounded .tree)
  | fuel + 1, entries => do
    let level ← (entries.splitBy sameDir).mapM fun group =>
      match group with
      | [] => throw .panic -- no run is empty
      | first :: _ =>
        match splitFirst slash first.1 with
        | none => pure first
        | some (dir, _) => do
          let sub ← writeSubtree fuel (group.map fun e => (e.1.drop (dir.length + 1), e.2))
          pure (dir, sub, directory)
    store P algo .tree (levelBytes (level.insertionSort (byTreeKey · ·)))

/-- Builds the tree hierarchy for `entries`; every level strips at least one byte. -/
def writeTree (entries : List WorkEntry) : OdbM ObjectId :=
  writeSubtree P algo ((entries.map fun e => e.path.length).foldr max 0 + 1)
    ((entries.insertionSort (byPath · ·)).map WorkEntry.flat)

/-! ### Writing a commit -/

/-- An author or committer line. -/
structure Sig where
  name : String
  email : String
  when_ : Int
  tz : String

def Sig.line (s : Sig) : String :=
  s.name ++ " <" ++ s.email ++ "> " ++ toString s.when_ ++ " " ++ s.tz

/-- The bytes of a commit. -/
def buildCommitBytes (tree : ObjectId) (parents : List ObjectId) (author committer : Sig)
    (message : String) : Bytes :=
  utf8 ("tree " ++ String.ofList tree.hexText ++ "\n" ++
    String.join (parents.map fun p => "parent " ++ String.ofList p.hexText ++ "\n") ++
    "author " ++ author.line ++ "\n" ++
    "committer " ++ committer.line ++ "\n\n" ++ message)

def writeCommit (tree : ObjectId) (parents : List ObjectId) (author committer : Sig)
    (message : String) : OdbM ObjectId :=
  store P algo .commit (buildCommitBytes tree parents author committer message)

end Write

/-! ### Status -/

inductive ChangeKind
  | added | modified | deleted
  deriving DecidableEq

/-- One step of the comparison: the entry `old` against the entries that are left. -/
def diffEntry (old : WorkEntry) (rest : List WorkEntry → List (Bytes × ChangeKind)) :
    List WorkEntry → List (Bytes × ChangeKind)
  | [] => (old.path, .deleted) :: rest []
  | new :: news =>
    match compare old.path new.path with
    | .lt => (old.path, .deleted) :: rest (new :: news)
    | .gt => (new.path, .added) :: diffEntry old rest news
    | .eq =>
      if old.oid ≠ new.oid ∨ old.mode ≠ new.mode then (new.path, .modified) :: rest news
      else rest news

/-- Compares two lists in path order. -/
def diff : List WorkEntry → List WorkEntry → List (Bytes × ChangeKind)
  | [], news => news.map fun e => (e.path, .added)
  | old :: olds, news => diffEntry old (diff olds) news

/-- Index against HEAD, working tree against index, and files the index lacks. -/
structure Status where
  staged : List (Bytes × ChangeKind)
  unstaged : List (Bytes × ChangeKind)
  untracked : List Bytes

/-- A submodule that is not checked out does not count as deleted. -/
def status (head index worktree : List WorkEntry) : Status where
  staged := diff head index
  unstaged := (diff index worktree).filter fun c =>
    match c.2 with
    | .added => false
    | .deleted => !(index.any fun e => e.mode == gitlink && e.path == c.1)
    | .modified => true
  untracked := ((diff index worktree).filter fun c => c.2 = .added).map (·.1)

end Alt.Repo
