import Alt.Library.Bytes
import Mathlib.Data.List.DropRight
import Std.Data.ExtTreeMap.Lemmas

namespace Alt.Library

open List

/-!
# Library — a file system

A `FileTree` says what is at each place; a place is the list of directory names from the top.
Whatever exists has directories above it (`FileTree.parents`), so a tree with a file below a
file cannot be built.  Paths are walked as a POSIX system walks them: `.` and empty names stay,
`..` goes up, and symbolic links are followed, at most `maxLinks` of them.

* `lstat`, `removeFile`, `removeDir`, `makeDir`, `createDirAll`, `write`, `symlink`, `setExec`,
  `read` — the operations, each with the error that leaves the tree as it was;
* `Direct` — a place whose every directory is a real one: the path of a direct place leads to
  it and nowhere else (`locate_direct`).
-/

/-! ### Trees -/

/-- The directory names from the top. -/
abbrev Place := List Bytes

instance transOrd_place : Std.TransOrd Place := inferInstance

/-- What can be at a place. -/
inductive Node
  | dir
  | file (content : Bytes) (exec : Bool)
  | symlink (target : Bytes)
  deriving DecidableEq

inductive IoError
  | notFound | notADirectory | isADirectory | alreadyExists | directoryNotEmpty | tooManyLinks
  | invalidInput
  deriving DecidableEq

/-- What is at each place. -/
structure FileTree where
  nodes : Std.ExtTreeMap Place Node compare
  top : nodes[([] : Place)]? = some Node.dir
  parents : ∀ (p : Place) (c : Bytes), nodes[p ++ [c]]? ≠ none → nodes[p]? = some Node.dir

namespace FileTree

/-- What is at `p`. -/
def get (fs : FileTree) (p : Place) : Option Node := fs.nodes[p]?

variable {fs : FileTree}

@[ext] theorem ext {fs' : FileTree} (h : ∀ p, fs.get p = fs'.get p) : fs = fs' := by
  have hnodes : fs.nodes = fs'.nodes := Std.ExtTreeMap.ext_getElem? h
  cases fs
  cases fs'
  cases hnodes
  rfl

@[simp] theorem get_top (fs : FileTree) : fs.get [] = some .dir := fs.top

variable {p : Place}

/-- What exists has a directory above it. -/
theorem get_parent {c : Bytes} (h : fs.get (p ++ [c]) ≠ none) :
    fs.get p = some .dir := fs.parents p c h

/-- Every place above an existing one is a directory. -/
theorem get_above {rest : Place} (hrest : rest ≠ []) (h : fs.get (p ++ rest) ≠ none) :
    fs.get p = some .dir := by
  induction rest using List.reverseRecOn generalizing p with
  | nil => exact absurd rfl hrest
  | append_singleton rest c ih =>
    rw [← append_assoc] at h
    have hdir := get_parent h
    by_cases hnil : rest = []
    · rwa [hnil, append_nil] at hdir
    · exact ih hnil (by simp [hdir])

/-- Puts `node` where there is no directory, into an existing one. -/
def insert (fs : FileTree) (p : Place) (node : Node) (hne : p ≠ [])
    (hdir : fs.get p.dropLast = some .dir) (hfree : fs.get p ≠ some .dir) : FileTree where
  nodes := fs.nodes.insert p node
  top := by
    rw [Std.ExtTreeMap.getElem?_insert, if_neg (by simpa using hne)]
    exact fs.top
  parents := by
    intro q c hq
    rw [Std.ExtTreeMap.getElem?_insert] at hq ⊢
    by_cases hqc : p = q ++ [c]
    · have hpq : p ≠ q := fun heq => by simpa using congrArg List.length (heq.symm.trans hqc)
      rw [if_neg (by simpa using hpq)]
      rwa [hqc, dropLast_concat] at hdir
    · rw [if_neg (by simpa using hqc)] at hq
      have hq' := fs.parents q c hq
      rw [if_neg]
      · exact hq'
      · rw [Std.LawfulEqOrd.compare_eq_iff_eq]
        rintro rfl
        exact hfree hq'

@[simp] theorem get_insert {node : Node} {hne hdir hfree} (q : Place) :
    (fs.insert p node hne hdir hfree).get q = if p = q then some node else fs.get q := by
  simp only [get, insert, Std.ExtTreeMap.getElem?_insert, Std.LawfulEqOrd.compare_eq_iff_eq]

/-- Whether nothing is below `p`. -/
def isLeaf (fs : FileTree) (p : Place) : Bool :=
  fs.nodes.keys.all fun q => decide (q = [] ∨ q.dropLast ≠ p)

theorem isLeaf_iff :
    fs.isLeaf p = true ↔ ∀ c, fs.get (p ++ [c]) = none := by
  rw [isLeaf, all_eq_true]
  constructor
  · intro h c
    by_contra hc
    have hmem : p ++ [c] ∈ fs.nodes.keys := by
      rw [Std.ExtTreeMap.mem_keys, Std.ExtTreeMap.mem_iff_isSome_getElem?]
      exact Option.isSome_iff_ne_none.mpr hc
    simpa using h _ hmem
  · intro h q hq
    rw [decide_eq_true_iff, or_iff_not_imp_left]
    rintro hne rfl
    have hnone := h (q.getLast hne)
    rw [dropLast_append_getLast hne] at hnone
    rw [Std.ExtTreeMap.mem_keys, Std.ExtTreeMap.mem_iff_isSome_getElem?] at hq
    rw [get] at hnone
    rw [hnone] at hq
    cases hq

/-- A place that is no directory has nothing below it. -/
theorem isLeaf_of_not_dir (h : fs.get p ≠ some .dir) :
    fs.isLeaf p = true := by
  rw [isLeaf_iff]
  intro c
  by_contra hc
  exact h (get_parent hc)

/-- Takes away what is at a place with nothing below it. -/
def erase (fs : FileTree) (p : Place) (hne : p ≠ []) (hleaf : fs.isLeaf p = true) : FileTree where
  nodes := fs.nodes.erase p
  top := by
    rw [Std.ExtTreeMap.getElem?_erase, if_neg (by simpa using hne)]
    exact fs.top
  parents := by
    intro q c hq
    rw [Std.ExtTreeMap.getElem?_erase] at hq ⊢
    have hqc : fs.nodes[q ++ [c]]? ≠ none := by
      intro hnone
      rw [hnone, ite_self] at hq
      exact hq rfl
    rw [if_neg]
    · exact fs.parents q c hqc
    · rw [Std.LawfulEqOrd.compare_eq_iff_eq]
      rintro rfl
      exact hqc (isLeaf_iff.mp hleaf c)

@[simp] theorem get_erase {hne hleaf} (q : Place) :
    (fs.erase p hne hleaf).get q = if p = q then none else fs.get q := by
  simp only [get, erase, Std.ExtTreeMap.getElem?_erase, Std.LawfulEqOrd.compare_eq_iff_eq]

/-- Nothing but the top. -/
def empty : FileTree where
  nodes := (∅ : Std.ExtTreeMap Place Node compare).insert [] .dir
  top := by simp
  parents := by
    intro p c h
    simp at h

/-- Takes away what is no directory. -/
def dropFile (fs : FileTree) (p : Place) (h : fs.get p ≠ some .dir) : FileTree :=
  fs.erase p (fun hnil => h (hnil ▸ fs.get_top)) (isLeaf_of_not_dir h)

@[simp] theorem get_dropFile {h : fs.get p ≠ some .dir} (q : Place) :
    (fs.dropFile p h).get q = if p = q then none else fs.get q := get_erase q

end FileTree

/-! ### Paths -/

def slash : UInt8 := 0x2f

def dot : Bytes := [0x2e]

def dotdot : Bytes := [0x2e, 0x2e]

/-- The names between the slashes. -/
def splitPath (path : Bytes) : List Bytes := path.splitOn slash

def isAbsolute (path : Bytes) : Bool := path.head? == some slash

/-- A name that leads to no entry of its own. -/
def Special (c : Bytes) : Prop := c = [] ∨ c = dot ∨ c = dotdot

instance (c : Bytes) : Decidable (Special c) := inferInstanceAs (Decidable (_ ∨ _ ∨ _))

/-- How many symbolic links a path may go through. -/
def maxLinks : Nat := 40

namespace FileTree

/-- Walks names from a directory; `follow` goes on behind a symbolic link. -/
def walkWith (fs : FileTree) (follow : Place → List Bytes → Except IoError Place) :
    Place → List Bytes → Except IoError Place
  | cur, [] => .ok cur
  | cur, c :: rest =>
    if fs.get cur ≠ some .dir then .error .notADirectory
    else if c = [] ∨ c = dot then walkWith fs follow cur rest
    else if c = dotdot then walkWith fs follow cur.dropLast rest
    else
      match fs.get (cur ++ [c]) with
      | none => .error .notFound
      | some (.symlink target) =>
        follow (if isAbsolute target then [] else cur) (splitPath target ++ rest)
      | some _ => walkWith fs follow (cur ++ [c]) rest

/-- Walks names from a directory, through at most so many symbolic links. -/
def walk (fs : FileTree) : Nat → Place → List Bytes → Except IoError Place
  | 0 => fs.walkWith fun _ _ => .error .tooManyLinks
  | links + 1 => fs.walkWith (fs.walk links)

/-- The place a path names; its last name is not followed and may not exist. -/
def locateFrom (fs : FileTree) (cur : Place) (path : List Bytes) : Except IoError Place :=
  match path.getLast? with
  | none => .ok cur
  | some last =>
    if Special last then fs.walk maxLinks cur path
    else
      match fs.walk maxLinks cur path.dropLast with
      | .error e => .error e
      | .ok d => if fs.get d = some .dir then .ok (d ++ [last]) else .error .notADirectory

/-- The place an absolute path names. -/
def locate (fs : FileTree) (path : List Bytes) : Except IoError Place := fs.locateFrom [] path

/-- The place a path leads to behind the symbolic links at its end. -/
def followFrom (fs : FileTree) : Nat → Place → List Bytes → Except IoError Place
  | links, cur, path =>
    match fs.locateFrom cur path with
    | .error e => .error e
    | .ok p =>
      match fs.get p, links with
      | some (.symlink _), 0 => .error .tooManyLinks
      | some (.symlink target), links + 1 =>
        fs.followFrom links (if isAbsolute target then [] else p.dropLast) (splitPath target)
      | _, _ => .ok p

def follow (fs : FileTree) (path : List Bytes) : Except IoError Place :=
  fs.followFrom maxLinks [] path

/-! ### Operations -/

/-- What a walk led to. -/
theorem of_located {β : Type} {b : β} {x : Except IoError Place} {k : Place → Except IoError β}
    (h : (match x with
      | .error e => .error e
      | .ok p => k p) = (.ok b : Except IoError β)) : ∃ p, x = .ok p ∧ k p = .ok b := by
  cases x with
  | error e => cases h
  | ok p => exact ⟨p, rfl, h⟩

/-- `symlink_metadata`. -/
def lstat (fs : FileTree) (path : List Bytes) : Except IoError Node :=
  match fs.locate path with
  | .error e => .error e
  | .ok p => (fs.get p).elim (.error .notFound) .ok

/-- Whether `symlink_metadata` succeeds. -/
def lexists (fs : FileTree) (path : List Bytes) : Bool := (fs.lstat path).toOption.isSome

/-- `is_dir`, which follows links. -/
def isDir (fs : FileTree) (path : List Bytes) : Bool :=
  match fs.follow path with
  | .error _ => false
  | .ok p => decide (fs.get p = some .dir)

/-- `read`, which follows links. -/
def read (fs : FileTree) (path : List Bytes) : Except IoError Bytes :=
  match fs.follow path with
  | .error e => .error e
  | .ok p =>
    match fs.get p with
    | some (.file content _) => .ok content
    | none => .error .notFound
    | _ => .error .isADirectory

/-- `remove_file`. -/
def removeFile (fs : FileTree) (path : List Bytes) : Except IoError FileTree :=
  match fs.locate path with
  | .error e => .error e
  | .ok p =>
    if fs.get p = none then .error .notFound
    else if h : fs.get p = some .dir then .error .isADirectory
    else .ok (fs.dropFile p h)

/-- `remove_dir`. -/
def removeDir (fs : FileTree) (path : List Bytes) : Except IoError FileTree :=
  match fs.locate path with
  | .error e => .error e
  | .ok p =>
    if fs.get p = none then .error .notFound
    else if fs.get p ≠ some .dir then .error .notADirectory
    else if h : p ≠ [] ∧ fs.isLeaf p = true then .ok (fs.erase p h.1 h.2)
    else .error .directoryNotEmpty

/-- Puts a node at a place whose directory exists; a directory stays. -/
def put (fs : FileTree) (p : Place) (node : Node) (taken : IoError) : Except IoError FileTree :=
  if h : p ≠ [] ∧ fs.get p.dropLast = some .dir ∧ fs.get p ≠ some .dir then
    .ok (fs.insert p node h.1 h.2.1 h.2.2)
  else .error taken

/-- `mkdir`; slashes at the end of the path do not matter. -/
def makeDir (fs : FileTree) (path : List Bytes) : Except IoError FileTree :=
  match fs.locate (path.rdropWhile (· = [])) with
  | .error e => .error e
  | .ok p => if fs.get p ≠ none then .error .alreadyExists else fs.put p .dir .alreadyExists

/-- The parent of a path; names that stay do not count. -/
def parentPath (path : List Bytes) : List Bytes :=
  (path.filter fun c => ¬(c = [] ∨ c = dot)).dropLast

/-- `create_dir_all`: the directory, once those above it are there. -/
def createDirAllFrom : Nat → FileTree → List Bytes → FileTree × Except IoError Unit
  | 0, fs, _ => (fs, .error .notFound)
  | fuel + 1, fs, path =>
    let again (fs : FileTree) : FileTree × Except IoError Unit :=
      match fs.makeDir path with
      | .ok fs => (fs, .ok ())
      | .error e => if fs.isDir path then (fs, .ok ()) else (fs, .error e)
    match fs.makeDir path with
    | .error .notFound =>
      match createDirAllFrom fuel fs (parentPath path) with
      | (fs, .error e) => (fs, .error e)
      | (fs, .ok ()) => again fs
    | _ => again fs

def createDirAll (fs : FileTree) (path : List Bytes) : FileTree × Except IoError Unit :=
  createDirAllFrom (path.length + 1) fs path

/-- `write`: the file, created or replaced; links at the end are followed. -/
def write (fs : FileTree) (path : List Bytes) (content : Bytes) : Except IoError FileTree :=
  match fs.follow path with
  | .error e => .error e
  | .ok p =>
    let exec := match fs.get p with
      | some (.file _ exec) => exec
      | _ => false
    fs.put p (.file content exec) .isADirectory

/-- `symlink`. -/
def symlink (fs : FileTree) (target : Bytes) (path : List Bytes) : Except IoError FileTree :=
  if target = [] then .error .notFound
  else if 0 ∈ target then .error .invalidInput
  else
    match fs.locate path with
    | .error e => .error e
    | .ok p =>
      if fs.get p ≠ none then .error .alreadyExists
      else fs.put p (.symlink target) .alreadyExists

/-- `set_permissions`, as far as files are executable; links are followed. -/
def setExec (fs : FileTree) (path : List Bytes) (exec : Bool) : Except IoError FileTree :=
  match fs.follow path with
  | .error e => .error e
  | .ok p =>
    match fs.get p with
    | none => .error .notFound
    | some (.file content _) => fs.put p (.file content exec) .isADirectory
    | some _ => .ok fs

/-- Removes directories that are empty, upwards from `dir` and below `root`. -/
def pruneEmptyDirs (root : Place) : Nat → FileTree → List Bytes → FileTree
  | 0, fs, _ => fs
  | fuel + 1, fs, dir =>
    if dir = root then fs
    else
      match fs.removeDir dir with
      | .error _ => fs
      | .ok fs => pruneEmptyDirs root fuel fs (parentPath dir)

/-! ### Direct places -/

/-- A place with plain names only, in a directory that is there. -/
structure Direct (fs : FileTree) (p : Place) : Prop where
  plain : ∀ c ∈ p, ¬Special c
  dir : p ≠ [] → fs.get p.dropLast = some .dir

variable {fs : FileTree} {p : Place}

/-- A walk along plain names to something that is no link ends there. -/
theorem walkWith_direct {follow : Place → List Bytes → Except IoError Place} {cur : Place}
    (hplain : ∀ c ∈ p, ¬Special c)
    (hp : p ≠ [] → ∃ node, fs.get (cur ++ p) = some node ∧ ∀ target, node ≠ .symlink target) :
    fs.walkWith follow cur p = .ok (cur ++ p) := by
  induction p generalizing cur with
  | nil => rw [walkWith, append_nil]
  | cons c rest ih =>
    obtain ⟨node, hnode, hlink⟩ := hp (cons_ne_nil c rest)
    have hdir : fs.get cur = some .dir :=
      get_above (cons_ne_nil c rest) (by rw [hnode]; simp)
    have hc := hplain c mem_cons_self
    simp only [Special, not_or] at hc
    rw [walkWith, if_neg (by simp [hdir]), if_neg (by simp [hc.1, hc.2.1]), if_neg hc.2.2]
    have hassoc : cur ++ c :: rest = (cur ++ [c]) ++ rest := by simp
    rw [hassoc] at hnode ⊢
    have hrest := @ih (cur ++ [c]) (fun d hd => hplain d (mem_cons_of_mem c hd))
      fun _ => ⟨node, hnode, hlink⟩
    by_cases hnil : rest = []
    · rw [hnil, append_nil] at hnode
      rw [hnode]
      cases node with
      | symlink target => exact absurd rfl (hlink target)
      | dir => exact hrest
      | file => exact hrest
    · have hnext : fs.get (cur ++ [c]) = some .dir := get_above hnil (by rw [hnode]; simp)
      rw [hnext]
      exact hrest

theorem walk_direct {cur : Place} (links : Nat) (hplain : ∀ c ∈ p, ¬Special c)
    (hp : p ≠ [] → ∃ node, fs.get (cur ++ p) = some node ∧ ∀ target, node ≠ .symlink target) :
    fs.walk links cur p = .ok (cur ++ p) := by
  cases links <;> exact walkWith_direct hplain hp

/-- **The path of a direct place names it.** -/
theorem locate_direct (h : fs.Direct p) : fs.locate p = .ok p := by
  rw [locate, locateFrom]
  rcases eq_nil_or_concat p with rfl | ⟨front, last, rfl⟩
  · rfl
  · rw [concat_eq_append] at h ⊢
    have hdir := h.dir (by simp)
    rw [dropLast_concat] at hdir
    have hlast : ¬Special last := h.plain last (by simp)
    have hwalk : fs.walk maxLinks [] front = .ok front :=
      walk_direct maxLinks (fun c hc => h.plain c (mem_append_left _ hc)) fun _ =>
        ⟨.dir, hdir, fun _ heq => by cases heq⟩
    simp only [getLast?_append_cons, getLast?_singleton, dropLast_concat, hwalk,
      if_neg hlast, if_pos hdir]

theorem lstat_direct (h : fs.Direct p) :
    fs.lstat p = (fs.get p).elim (.error .notFound) .ok := by
  rw [lstat, locate_direct h]

theorem lexists_direct (h : fs.Direct p) :
    fs.lexists p = (fs.get p).isSome := by
  rw [lexists, lstat_direct h]
  cases fs.get p <;> rfl

theorem follow_direct (h : fs.Direct p) (hlink : ∀ target, fs.get p ≠ some (.symlink target)) :
    fs.follow p = .ok p := by
  have hlocate := locate_direct h
  rw [locate] at hlocate
  rw [follow, followFrom.eq_def]
  simp only [hlocate]
  cases hp : fs.get p with
  | none => rfl
  | some node =>
    cases node with
    | symlink target => exact absurd hp (hlink target)
    | dir => rfl
    | file => rfl

end FileTree

end Alt.Library
