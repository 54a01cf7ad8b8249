import Alt.Repo.MergeBase
import Alt.Server.ReceivePack

namespace Alt.Repo

open Alt.Library Alt.Odb Alt.Refs

/-!
# A workspace of a repository (`native.rs`, 190–300, 718–905, 1052–1182, 1941–2080)

The state the native commands work on, and the steps they share: moving refs through the one
gate of `commit_refs`, reading the index and the working tree, checking that a tree is clean, and
checking a tree out.

Every workspace has a working tree of its own in the one file system, a HEAD of its own among
the refs, and its own index and state files, which are kept here as values (`Control`).  A
command that fails leaves what it has done so far.
-/

/-! ### State -/

/-- What a stopped revert sequence remembers. -/
structure RevertState where
  /-- The commit whose revert stopped on a conflict. -/
  current : Option ObjectId
  /-- Commits still to revert, in order. -/
  todo : List ObjectId
  mainline : Option Nat
  /-- Where the branch stood before the sequence. -/
  orig : ObjectId
  deriving DecidableEq

/-- One step of a rebase. -/
inductive Action
  | pick | reword | squash | fixup | drop
  deriving DecidableEq

/-- What a stopped or running rebase remembers. -/
structure RebaseState where
  branch : String
  /-- Where the branch pointed before the rebase. -/
  orig : ObjectId
  onto : ObjectId
  /-- The step that stopped on a conflict, not yet committed. -/
  current : Option (Action × ObjectId)
  todo : List (Action × ObjectId)
  deriving DecidableEq

/-- What a bisect session knows so far. -/
structure BisectState where
  branch : String
  bad : Option ObjectId
  good : List ObjectId
  skip : List ObjectId
  deriving DecidableEq

/-- The files next to a workspace's index, and the index. -/
structure Control where
  index : Index
  mergeHead : Option ObjectId
  revert : Option RevertState
  rebase : Option RebaseState
  bisect : Option BisectState
  deriving DecidableEq

/-- A repository with its workspaces. -/
structure NativeRepo where
  objects : Objects
  refs : RefMap
  /-- The payloads of the op log. -/
  ops : List Bytes
  fs : FileTree
  controls : String → Control

/-- Who calls, from which workspace, and what lies outside the repository. -/
structure Env where
  P : Prims
  algo : HashAlgo
  root : Place
  workspace : String
  headRef : String
  caps : Server.Capabilities
  allowsPath : Bytes → Bool
  /-- `ALT_PROTECTED_OVERRIDE` is set. -/
  protectedOverride : Bool
  fuel : Fuel
  /-- The caller's name and the time. -/
  me : Sig
  /-- The ignore rules of the working tree: of a path, and whether it is a directory. -/
  ignored : FileTree → Bytes → Bool → Bool
  /-- The clean filter: of a path and its bytes, the bytes to store. -/
  filter : FileTree → Res (Bytes → Bytes → Bytes)
  /-- The content behind a pointer. -/
  smudge : Bytes → Res (Option Bytes)
  /-- Whether the op log takes a transaction behind these ops. -/
  logged : List Bytes → Except RefError Unit
  /-- The objects of the note on a commit, and the notes tip they make. -/
  note : Objects → RefMap → ObjectId → Res (List (ObjectKind × Bytes) × ObjectId)
  /-- The commit as it is stored: with a signature, where the policy asks for one. -/
  signed : Bytes → Res Bytes
  /-- The pre-commit checks, of HEAD's entries and the index's. -/
  precommit : Objects → List WorkEntry → List WorkEntry → Res Unit
  /-- A commit's author line, if it has one that is text. -/
  authorLine : Commit → Res String
  /-- An identity line, taken apart. -/
  parseSig : String → Res Sig
  /-- A commit's message, if it is text. -/
  text : Commit → Res String
  /-- The first line of a commit's message. -/
  subject : Commit → String
  /-- The seconds of a commit's committer line. -/
  date : Commit → Int
  /-- What the editor makes of a message. -/
  edit : String → Res String

/-- A command, or a part of one. -/
abbrev Cmd := EStateM CliError NativeRepo

def fail {α : Type} (text : String) : Cmd α := throw (.message text)

/-- Fails with `text` unless `c`. -/
def demand (c : Bool) (text : String) : Cmd Unit := if c then pure () else fail text

def whenever (c : Bool) (m : Cmd Unit) : Cmd Unit := if c then m else pure ()

/-- A computation on the object database. -/
def onObjects {α : Type} (m : OdbM α) : Cmd α := fun r =>
  match m r.objects with
  | .ok a objects => .ok a { r with objects }
  | .error e objects => .error e { r with objects }

/-- An operation on files. -/
def onFiles (f : FileTree → Except IoError FileTree) : Cmd Unit := fun r =>
  match f r.fs with
  | .ok fs => .ok () { r with fs }
  | .error e => .error (.io e) r

/-- A lookup of a ref. -/
def onRefs {α : Type} (x : Except RefError α) : Cmd α := fromExcept (x.mapError .refs)

/-! ### Refs -/

/-- Follows symbolic refs. -/
def resolveFrom (refs : RefMap) (name : String) : Nat → String → Except RefError (Option ObjectId)
  | 0, _ => .error (.symrefDepth name)
  | hops + 1, current =>
    match refs[current]? with
    | some (.oid id) => .ok (some id)
    | some (.symbolic next) => resolveFrom refs name hops next
    | none => .ok none

def resolve (refs : RefMap) (name : String) : Except RefError (Option ObjectId) :=
  resolveFrom refs name (maxSymrefDepth + 1) name

/-- A name without what stands in front of it. -/
def stripPrefix (front s : String) : String :=
  if s.startsWith front then String.ofList (s.toList.drop front.toList.length) else s

def isWorkspaceHead (name : String) : Bool :=
  name == "HEAD" || (name.startsWith "workspaces/" && name.endsWith "/HEAD")

/-- The workspace a HEAD belongs to. -/
def workspaceOf (head : String) : String :=
  let name := (head.toList.drop "workspaces/".toList.length).take
    (head.toList.length - "workspaces/".toList.length - "/HEAD".toList.length)
  if head.startsWith "workspaces/" then String.ofList name else "default"

/-- The branch a change moves or checks out, and the HEAD that may be on it. -/
def branchOf (ownHead : String) (c : RefChange) : Option (String × String) :=
  if c.name.startsWith "refs/heads/" then some (c.name, ownHead)
  else if isWorkspaceHead c.name then
    match c.new with
    | some (.symbolic b) => some (b, c.name)
    | _ => none
  else none

/-- The HEAD of another workspace that holds the branch of a change. -/
def heldBy (ownHead : String) (refs : RefMap) (changes : List RefChange) (c : RefChange) :
    Option (String × String) :=
  match branchOf ownHead c with
  | none => none
  | some (branch, holder) =>
    (refs.toList.find? fun e => e.1 != holder && isWorkspaceHead e.1 &&
        decide (e.2 = .symbolic branch) &&
        -- unless that workspace lets go of the branch in this same transaction
        !changes.any fun o => o.name == e.1 && decide (o.new ≠ some e.2)).map
      fun e => (branch, e.1)

/-- No branch is checked out in two workspaces. -/
def oneWorkspacePerBranch (ownHead : String) (refs : RefMap) (changes : List RefChange) :
    Except String Unit :=
  match changes.findSome? (heldBy ownHead refs changes) with
  | some (branch, head) =>
    .error ("branch '" ++ stripPrefix "refs/heads/" branch ++ "' is checked out in workspace '" ++
      workspaceOf head ++ "'")
  | none => .ok ()

/-- Walks the ancestors of a commit for `old`. -/
def findAncestor (objects : Objects) (old : ObjectId) : Nat → List ObjectId → List ObjectId → Res Bool
  | _, [], _ => .ok false
  | 0, _ :: _, _ => .error (.unbounded .history)
  | fuel + 1, c :: stack, seen =>
    if c ∈ seen then findAncestor objects old fuel stack seen
    else if c = old then .ok true
    else
      match objects c with
      | none => .error (.message ("missing commit " ++ String.ofList c.hexText))
      | some obj =>
        match Commit.parse obj.data with
        | .error e => .error (.object e)
        | .ok commit => findAncestor objects old fuel (commit.parents.reverse ++ stack) (c :: seen)

def isAncestor (objects : Objects) (fuel : Nat) (old new : ObjectId) : Res Bool :=
  if old = new then .ok true else findAncestor objects old fuel [new] []

section Refs

variable (env : Env)

def ensureWritable (verb : String) : Cmd Unit :=
  demand (!env.caps.readOnly) ("capability denied: principal cannot " ++ verb ++ " (read-only)")

/-- Whether a change is a deletion or not a fast-forward. -/
def isForce (objects : Objects) (c : RefChange) : Res Bool :=
  match c.old, c.new with
  | some _, none => .ok true
  | none, _ => .ok false
  | some (.symbolic _), _ => .ok false
  | _, some (.symbolic _) => .ok false
  | some (.oid old), some (.oid new) => do
    let ancestor ← isAncestor objects env.fuel.history old new
    return !ancestor

def ensureNoForce (objects : Objects) : List RefChange → Res Unit
  | [] => .ok ()
  | c :: changes =>
    match isForce env objects c with
    | .error e => .error e
    | .ok true =>
      .error (.message ("capability denied: forbid_force is set and " ++ c.name ++
        " would not be a fast-forward"))
    | .ok false => ensureNoForce objects changes

/-- What the ref store asks of a transaction. -/
def workspacePolicy : RefPolicy :=
  { Server.refPolicy env.caps with stateCheck := some (oneWorkspacePerBranch env.headRef) }

/-- What a transaction makes of the refs, if every gate lets it through. -/
def refTx (r : NativeRepo) (verb : String) (changes : List RefChange) : Res RefMap :=
  if env.caps.readOnly then
    .error (.message ("capability denied: principal cannot " ++ verb ++ " (read-only)"))
  else
    match if env.caps.forbidForce then ensureNoForce env r.objects changes else .ok () with
    | .error e => .error e
    | .ok () =>
      match Server.commitRefs (some (workspacePolicy env)) r.refs changes with
      | .error e => .error (.refs e)
      | .ok refs =>
        match env.logged r.ops with
        | .error e => .error (.refs e)
        | .ok () => .ok refs

/-- The single gate every change of refs goes through. -/
def commitRefs (verb : String) (changes : List RefChange) : Cmd Unit := fun r =>
  match refTx env r verb changes with
  | .error e => .error e r
  | .ok refs => .ok () { r with refs, ops := r.ops ++ [encodeTx changes none] }

/-- The branch HEAD is on. -/
def headBranch (refs : RefMap) : Res String :=
  match refs[env.headRef]? with
  | some (.symbolic b) => .ok b
  | some (.oid _) => .error (.message "detached HEAD is not supported yet")
  | none => .ok "refs/heads/main"

/-- The commit HEAD is on. -/
def headCommit (refs : RefMap) : Res (Option ObjectId) := do
  let branch ← headBranch env refs
  (resolve refs branch).mapError .refs

/-- Moves HEAD's symbolic target. -/
def moveHead (source target : String) : Cmd Unit := do
  let r ← get
  commitRefs env "switch" [⟨env.headRef, some ((r.refs[env.headRef]?).getD (.symbolic source)),
    some (.symbolic target)⟩]

def advanceBranch (branch : String) (old new : ObjectId) : Cmd Unit :=
  commitRefs env "merge" [⟨branch, some (.oid old), some (.oid new)⟩]

end Refs

/-! ### A toy workspace -/

/-- Every gate is open, and nothing is ignored, filtered, signed or noted. -/
def Env.toy : Env where
  P := .toy
  algo := .sha1
  root := []
  workspace := "default"
  headRef := "HEAD"
  caps := .full
  allowsPath _ := true
  protectedOverride := true
  fuel := ⟨12, 4, 4⟩
  me := ⟨"me", "m", 0, "+0000"⟩
  ignored _ _ _ := false
  filter _ := .ok fun _ data => data
  smudge _ := .ok none
  logged _ := .ok ()
  note _ _ c := .ok ([], c)
  signed := .ok
  precommit _ _ _ := .ok ()
  authorLine _ := .ok ""
  parseSig _ := .ok ⟨"", "", 0, ""⟩
  text _ := .ok ""
  subject _ := ""
  date _ := 0
  edit := .ok

def toyId (kind : ObjectKind) (data : Bytes) : ObjectId := ObjectId.hashObject .toy .sha1 kind data

/-- These objects, by their ids. -/
def toyObjects (objects : List (ObjectKind × Bytes)) : Objects := fun id =>
  (objects.find? fun o => toyId o.1 o.2 = id).map fun o => ⟨o.1, o.2⟩

/-- A file of a toy tree. -/
def toyEntry (path data : Bytes) : WorkEntry := ⟨path, toyId .blob data, regular⟩

def toyTree (files : List (Bytes × Bytes)) : Bytes :=
  levelBytes (files.map fun f => (toyEntry f.1 f.2).flat)

def toyCommit (files : List (Bytes × Bytes)) (parents : List ObjectId) : Bytes :=
  buildCommitBytes (toyId .tree (toyTree files)) parents Env.toy.me Env.toy.me "\n"

def toyRefs (refs : List (String × RefTarget)) : RefMap := Std.ExtTreeMap.ofList refs

def toyFiles (files : List (Bytes × Bytes)) : FileTree :=
  files.foldl (fun fs f =>
    (fs.put (splitPath f.1) (.file f.2 false) .isADirectory).toOption.getD fs) .empty

end Alt.Repo
