import Alt.Repo.Workspace

namespace Alt.Repo

open Alt.Library Alt.Odb Alt.Refs

/-!
# The working tree (`native.rs`, 1052–1092, 1941–2067; `native/merge.rs`, 270–317; `alt-worktree/src/lib.rs`, 240–350)

How a command reads the working tree and the index, and how it writes them: `checkout` puts a
tree in the place of another, `writeConflicted` leaves a conflict behind.

Paths of entries are joined to the root as they are: an absolute one replaces it, and `..` goes
up.
-/

/-! ### Paths -/

/-- Where an entry's path leads: behind the root, or wherever it says if it is absolute. -/
def abs (root : Place) (rel : Bytes) : List Bytes :=
  if isAbsolute rel then splitPath rel else root ++ splitPath rel

/-- The path of a place below the root. -/
def joinPath (names : List Bytes) : Bytes := [slash].intercalate names

def altDir : Bytes := [0x2e, 0x61, 0x6c, 0x74]

def gitDir : Bytes := [0x2e, 0x67, 0x69, 0x74]

def gitignore : Bytes := [0x2e, 0x67, 0x69, 0x74, 0x69, 0x67, 0x6e, 0x6f, 0x72, 0x65]

section

variable (env : Env)

/-! ### The index -/

def control : Cmd Control := fun r => .ok (r.controls env.workspace) r

def setControl (f : Control → Control) : Cmd Unit := fun r =>
  .ok () { r with controls :=
    Function.update r.controls env.workspace (f (r.controls env.workspace)) }

/-- Writes the index, in path and stage order. -/
def saveIndex (entries : Index) : Cmd Unit :=
  setControl env fun c => { c with index := entries.insertionSort (byPathStage · ·) }

/-- The index line of a file that is there; a submodule needs none. -/
def makeEntry (w : WorkEntry) : Cmd IndexEntry := fun r =>
  if w.mode = gitlink then .ok (stageEntry w 0) r
  else
    match r.fs.lstat (abs env.root w.path) with
    | .error e => .error (.io e) r
    | .ok _ => .ok (stageEntry w 0) r

/-! ### Scanning -/

/-- Whether the index has the path, or something below it. -/
def tracked (index : Index) (path : Bytes) (isDir : Bool) : Bool :=
  index.any fun e => if isDir then (path ++ [slash]).isPrefixOf e.path else path == e.path

/-- Goes down from the root to a file or a directory, and says whether an ignore rule hides it;
    control directories, submodules, and what is hidden and not tracked are not entered. -/
def descend (fs : FileTree) (index : Index) : List Bytes → Bool → List Bytes → Option Bool
  | _, hidden, [] => some hidden
  | done, hidden, name :: rest =>
    let rel := done ++ [name]
    let isDir := decide (fs.get (env.root ++ rel) = some .dir)
    let hidden := hidden || env.ignored fs (joinPath rel) isDir
    if name = altDir ∨ name = gitDir then none
    else if hidden && !tracked index (joinPath rel) isDir then none
    else if isDir && fs.lexists (env.root ++ rel ++ [gitDir]) then none
    else descend fs index rel hidden rest

/-- A file as an entry. -/
def workFile (filter : Bytes → Bytes → Bytes) (path : Bytes) : Node → Option WorkEntry
  | .dir => none
  | .symlink target =>
    some ⟨path, ObjectId.hashObject env.P env.algo .blob target, symlinkMode⟩
  | .file content exec =>
    some ⟨path, ObjectId.hashObject env.P env.algo .blob (filter path content),
      if exec then executable else regular⟩

/-- What is below the root, by names. -/
def below (fs : FileTree) : List (List Bytes) :=
  (fs.nodes.keys.filter fun p => env.root.isPrefixOf p).map (·.drop env.root.length)

/-- The error of an ignore file that cannot be read, in the directories that are entered. -/
def ignoreError (fs : FileTree) (index : Index) : Option IoError :=
  (below env fs).findSome? fun rel =>
    if fs.get (env.root ++ rel) = some .dir ∧ (descend env fs index [] false rel).isSome then
      match fs.read (env.root ++ rel ++ [gitignore]) with
      | .ok _ | .error .notFound => none
      | .error e => some e
    else none

/-- The working tree's files, tracked or not. -/
def scanTree (fs : FileTree) (index : Index) : Res (List WorkEntry) :=
  match env.filter fs with
  | .error e => .error e
  | .ok filter =>
    match ignoreError env fs index with
    | some e => .error (.io e)
    | none =>
      .ok (((below env fs).filterMap fun rel =>
        if rel ≠ [] ∧ (descend env fs index [] false rel).isSome then
          (fs.get (env.root ++ rel)).bind (workFile env filter (joinPath rel))
        else none).insertionSort (byPath · ·))

/-- The HEAD commit's tree; nothing before the first commit. -/
def headEntries (r : NativeRepo) : Res (List WorkEntry) := do
  match ← headCommit env r.refs with
  | some c => commitEntries r.objects env.algo env.fuel.tree c
  | none => .ok []

/-- HEAD, the index and the working tree compared. -/
def statusOf (r : NativeRepo) : Res Status := do
  let index := (r.controls env.workspace).index
  let head ← headEntries env r
  let worktree ← scanTree env r.fs index
  return status head (indexEntries index) worktree

/-- Refuses while a tracked file has staged or unstaged changes. -/
def ensureClean (action : String) : Cmd Unit := fun r =>
  match statusOf env r with
  | .error e => .error e r
  | .ok st =>
    if st.staged ≠ [] ∨ st.unstaged ≠ [] then
      .error (.message ("your local changes would be overwritten by " ++ action ++
        "; commit them first")) r
    else .ok () r

/-! ### Writing -/

/-- `create_dir_all`: what was created stays if it fails. -/
def createDirAll (path : List Bytes) : Cmd Unit := fun r =>
  match r.fs.createDirAll path with
  | (fs, .ok ()) => .ok () { r with fs }
  | (fs, .error e) => .error (.io e) { r with fs }

/-- Takes away whatever file is at a path. -/
def clearPath (path : List Bytes) : Cmd Unit := do
  let r ← get
  if r.fs.lexists path then onFiles fun fs => fs.removeFile path

/-- Takes away a file, and the directories that are empty without it. -/
def removeTracked (path : List Bytes) : Cmd Unit := do
  let r ← get
  if r.fs.lexists path then
    onFiles fun fs => fs.removeFile path
    modify fun r =>
      { r with fs := r.fs.pruneEmptyDirs env.root (path.length + 1) (FileTree.parentPath path) }

/-- Takes away what is no directory where the directory of a submodule goes. -/
def clearForDir (path : List Bytes) : Cmd Unit := do
  let r ← get
  match r.fs.lstat path with
  | .ok .dir | .error _ => pure ()
  | .ok _ => onFiles fun fs => fs.removeFile path

/-- Writes a file or a symbolic link where nothing is. -/
def writeBlob (w : WorkEntry) (path : List Bytes) (data : Bytes) : Cmd Unit :=
  if w.mode = symlinkMode then onFiles fun fs => fs.symlink data path
  else do
    let content ← fromExcept (env.smudge data)
    onFiles fun fs => fs.write path (content.getD data)
    onFiles fun fs => fs.setExec path (w.mode == executable)

/-- Writes one entry to the working tree, in the place of whatever file was there. -/
def materialize (w : WorkEntry) : Cmd Unit :=
  let path := abs env.root w.path
  if w.mode = gitlink then do
    clearForDir path
    createDirAll path
  else do
    createDirAll (FileTree.parentPath path)
    clearPath path
    match (← get).objects w.oid with
    | none => fail "blob missing from store"
    | some obj => writeBlob env w path obj.data

/-- An untracked file in the way of a target file. -/
def collision (fs : FileTree) (old target : List WorkEntry) : Option WorkEntry :=
  target.find? fun t =>
    t.mode != gitlink && !(old.any fun o => o.path == t.path) && fs.lexists (abs env.root t.path)

/-- Materializes `target`, removes what only `old` has, and writes the index of `target`. -/
def checkout (old target : List WorkEntry) : Cmd Unit := do
  match collision env (← get).fs old target with
  | some t => throw (.untracked t.path)
  | none =>
    old.forM fun o =>
      -- the directory of a submodule is left alone
      if (target.any fun t => t.path == o.path) || o.mode == gitlink then pure ()
      else removeTracked env (abs env.root o.path)
    let entries ← target.mapM fun t => do
      materialize env t
      makeEntry env t
    saveIndex env entries

/-- Writes what one path was resolved to. -/
def writeResolved (r : Resolved) : Cmd Unit :=
  let path := abs env.root r.path
  match r.worktree with
  | some bytes => do
    createDirAll (FileTree.parentPath path)
    clearPath path
    onFiles fun fs => fs.write path bytes
  | none =>
    match r.entry with
    | some e => materialize env e
    | none => removeTracked env path

/-- The index lines of what one path was resolved to. -/
def resolvedEntries (r : Resolved) : Cmd (List IndexEntry) :=
  if r.conflicted then pure (r.stages.map fun s => stageEntry s.2 s.1)
  else
    match r.entry with
    | some e => do
      let line ← makeEntry env e
      return [line]
    | none => pure []

/-- Writes a conflicted merge to the working tree and the index. -/
def writeConflicted (resolved : List Resolved) : Cmd Unit := do
  resolved.forM (writeResolved env)
  let entries ← resolved.mapM (resolvedEntries env)
  saveIndex env entries.flatten

end

end Alt.Repo
