import Alt.Repo.Checkout

namespace Alt.StatCache

open Alt.Library Alt.Odb Alt.Refs Alt.Repo

/-!
# The stat cache (`alt-worktree/src/lib.rs`, 82–196, 262–380; `native.rs`, 4692–4785)

An index line carries the stat its file had when it was staged.  A scan that finds the file with
that stat takes the id from the line and does not read the file.

* `statMatches` — the comparison;
* `scanWithIndex`, `scanIndexedPaths` — the two scans that reuse ids;
* `Vouches` — a line whose stat only the content it was staged with has;
* `scanWithIndex_eq`, `scanIndexedPaths_eq` — where every line vouches, a scan that reuses ids is
  one that reads every file.

Which paths the ignore rules hide, and what the clean filter makes of a file, are parameters of
`Env`.
-/

/-! ### Stats -/

/-- Seconds and nanoseconds, as a file system keeps them. -/
abbrev FileTime := Int ×ₗ Nat

/-- Seconds and nanoseconds, as the index keeps them. -/
abbrev Stamp := UInt32 × UInt32

/-- What the system says about a file, beside its kind and size. -/
structure Stat where
  mtime : FileTime
  ctime : FileTime
  dev : Nat
  ino : Nat
  deriving DecidableEq

/-- `as u32`. -/
def stampOf (t : FileTime) : Stamp := (UInt32.ofInt (ofLex t).1, UInt32.ofNat (ofLex t).2)

/-- `as i64`. -/
def timeOf (s : Stamp) : FileTime := toLex ((s.1.toNat : Int), s.2.toNat)

/-- What a line without a stat has for its times. -/
def epoch : FileTime := toLex (0, 0)

/-- The mode of a file in a tree. -/
def wtMode : Node → Option UInt32
  | .dir => none
  | .symlink _ => some symlinkMode
  | .file _ exec => some (if exec then executable else regular)

def sizeOf : Node → Nat
  | .dir => 0
  | .symlink target => target.length
  | .file content _ => content.length

/-! ### Index lines -/

/-- A line of the index with the stat of its file. -/
structure StatEntry where
  line : IndexEntry
  ctime : Stamp
  mtime : Stamp
  dev : UInt32
  ino : UInt32
  size : UInt32
  deriving DecidableEq

def StatEntry.entry (e : StatEntry) : WorkEntry := e.line.entry

/-- The line of a file that was looked at. -/
def statEntry (node : Node) (stat : Stat) (w : WorkEntry) : StatEntry where
  line := stageEntry w 0
  ctime := stampOf stat.ctime
  mtime := stampOf stat.mtime
  dev := UInt32.ofNat stat.dev
  ino := UInt32.ofNat stat.ino
  size := UInt32.ofNat (sizeOf node)

/-- The line of a submodule, of one side of a conflict, or of a path that `undo` puts back. -/
def zeroEntry (line : IndexEntry) : StatEntry := ⟨line, (0, 0), (0, 0), 0, 0, 0⟩

/-- Whether the file is as it was when its line was written. -/
def statMatches (idx : StatEntry) (node : Node) (stat : Stat) : Bool :=
  decide (wtMode node = some idx.line.mode) &&
    decide (idx.size.toNat = sizeOf node) &&
    decide (timeOf idx.mtime = stat.mtime) &&
    decide (timeOf idx.ctime = stat.ctime) &&
    decide (idx.dev = UInt32.ofNat stat.dev) &&
    decide (idx.ino = UInt32.ofNat stat.ino)

theorem wtMode_of_statMatches {idx : StatEntry} {node : Node} {stat : Stat}
    (h : statMatches idx node stat = true) : wtMode node = some idx.line.mode := by
  simp only [statMatches, Bool.and_eq_true, decide_eq_true_eq] at h
  exact h.1.1.1.1.1

theorem mtime_of_statMatches {idx : StatEntry} {node : Node} {stat : Stat}
    (h : statMatches idx node stat = true) : timeOf idx.mtime = stat.mtime := by
  simp only [statMatches, Bool.and_eq_true, decide_eq_true_eq] at h
  exact h.1.1.1.2

/-- The times of the lines that are not older than the index file are taken away: their files may
    be written again without a new time. -/
def smudge (stamp : Stamp) (entries : List StatEntry) : List StatEntry :=
  entries.map fun e => if timeOf stamp ≤ timeOf e.mtime then { e with mtime := (0, 0) } else e

/-! ### Scanning -/

section Scan

variable (env : Env)

/-- The last stage-0 line of a path. -/
def cached (index : List StatEntry) (path : Bytes) : Option StatEntry :=
  index.reverse.find? fun e => e.line.stage = 0 ∧ e.line.path = path

/-- One file of a scan: its line's id while the stat is the line's, the id of what it holds
    otherwise. -/
def scanFile (filter : Bytes → Bytes → Bytes) (cache : Option StatEntry) (path : Bytes)
    (node : Node) (stat : Stat) : Option WorkEntry :=
  match cache.filter fun idx => statMatches idx node stat with
  | some idx => some ⟨path, idx.line.oid, idx.line.mode⟩
  | none => workFile env filter path node

/-- The working tree's files; ids of lines whose stat is right are reused. -/
def scanWithIndex (fs : FileTree) (stats : Place → Stat) (index : List StatEntry) :
    Res (List WorkEntry) :=
  match env.filter fs with
  | .error e => .error e
  | .ok filter =>
    match ignoreError env fs (index.map StatEntry.line) with
    | some e => .error (.io e)
    | none =>
      .ok (((below env fs).filterMap fun rel =>
        if rel ≠ [] ∧ (descend env fs (index.map StatEntry.line) [] false rel).isSome then
          (fs.get (env.root ++ rel)).bind fun node =>
            scanFile env filter (cached index (joinPath rel)) (joinPath rel) node
              (stats (env.root ++ rel))
        else none).insertionSort (byPath · ·))

/-- One path of the index, if its file is there; the system takes no path with a NUL. -/
def scanIndexed (fs : FileTree) (stats : Place → Stat) (filter : Bytes → Bytes → Bytes)
    (reuse : Bool) (idx : StatEntry) : Res (Option WorkEntry) :=
  if 0 ∈ idx.line.path then .error (.io .invalidInput)
  else
    match fs.locate (abs env.root idx.line.path) with
    | .error .notFound => .ok none
    | .error e => .error (.io e)
    | .ok p =>
      .ok ((fs.get p).bind fun node =>
        scanFile env filter (if reuse then some idx else none) idx.line.path node (stats p))

/-- The files of the index's paths only. -/
def scanIndexedPaths (fs : FileTree) (stats : Place → Stat) (reuse : Bool) (index : List StatEntry) :
    Res (List WorkEntry) :=
  match env.filter fs with
  | .error e => .error e
  | .ok filter => do
    let found ← (index.filter fun e => e.line.stage = 0).mapM (scanIndexed env fs stats filter reuse)
    return (found.filterMap id).insertionSort (byPath · ·)

end Scan

/-! ### Lines that vouch for their file -/

section Vouch

variable {env : Env} {fs : FileTree} {stats : Place → Stat} {filter : Bytes → Bytes → Bytes}

/-- The places an entry's path leads to: the one a walk of the tree calls by that path, and the one
    the system finds there. -/
def Leads (env : Env) (fs : FileTree) (path : Bytes) (p : Place) : Prop :=
  (∃ rel, joinPath rel = path ∧ p = env.root ++ rel) ∨ fs.locate (abs env.root path) = .ok p

/-- A file that has the stat of the line has the content of its id. -/
def Vouches (env : Env) (fs : FileTree) (stats : Place → Stat) (e : StatEntry) : Prop :=
  ∀ p node filter, Leads env fs e.line.path p → fs.get p = some node →
    statMatches e node (stats p) = true → env.filter fs = .ok filter →
      workFile env filter e.line.path node = some e.entry

variable {path : Bytes}

/-- What lies below a line that vouches is seen as it is, whether or not its id is reused. -/
theorem scanFile_eq {cache : Option StatEntry} {p : Place} {node : Node}
    (hpath : ∀ e ∈ cache, e.line.path = path) (hvouch : ∀ e ∈ cache, Vouches env fs stats e)
    (hleads : Leads env fs path p) (hnode : fs.get p = some node)
    (hfilter : env.filter fs = .ok filter) :
    scanFile env filter cache path node (stats p) = workFile env filter path node := by
  cases cache with
  | none => rfl
  | some e =>
    have hp := hpath e rfl
    rw [scanFile, Option.filter_some]
    split
    case h_1 idx heq =>
      split at heq
      case isTrue hmatch =>
        obtain rfl := Option.some.inj heq
        have hseen := hvouch e rfl p node filter (hp ▸ hleads) hnode hmatch hfilter
        rw [hp] at hseen
        rw [hseen, StatEntry.entry, IndexEntry.entry, hp]
      case isFalse => cases heq
    case h_2 => rfl

theorem workFile_path {node : Node} {t : WorkEntry} (h : workFile env filter path node = some t) :
    t.path = path := by
  cases node with
  | dir => cases h
  | symlink target =>
    obtain rfl := Option.some.inj h
    rfl
  | file content exec =>
    obtain rfl := Option.some.inj h
    rfl

variable {index : List StatEntry}

theorem cached_mem {e : StatEntry} (h : e ∈ cached index path) :
    e ∈ index ∧ e.line.stage = 0 ∧ e.line.path = path := by
  have hmem := List.mem_of_find?_eq_some h
  have hpred := List.find?_some h
  exact ⟨List.mem_reverse.mp hmem, by simpa using hpred⟩

/-- **The scan of the tree.** Where every line vouches for its file, reusing their ids changes
    nothing. -/
theorem scanWithIndex_eq (h : ∀ e ∈ index, e.line.stage = 0 → Vouches env fs stats e) :
    scanWithIndex env fs stats index = scanTree env fs (index.map StatEntry.line) := by
  rw [scanWithIndex, scanTree]
  cases hfilter : env.filter fs with
  | error e => rfl
  | ok filter =>
    have hfile : ∀ rel, (fs.get (env.root ++ rel)).bind (fun node =>
        scanFile env filter (cached index (joinPath rel)) (joinPath rel) node (stats (env.root ++ rel))) =
          (fs.get (env.root ++ rel)).bind (workFile env filter (joinPath rel)) := by
      intro rel
      cases hnode : fs.get (env.root ++ rel) with
      | none => rfl
      | some node =>
        exact scanFile_eq (fun e he => (cached_mem he).2.2)
          (fun e he => h e (cached_mem he).1 (cached_mem he).2.1) (.inl ⟨rel, rfl, rfl⟩) hnode hfilter
    cases ignoreError env fs (index.map StatEntry.line) with
    | some e => rfl
    | none => simp only [hfile]

/-- **The scan of the index's paths**, likewise. -/
theorem scanIndexedPaths_eq (h : ∀ e ∈ index, e.line.stage = 0 → Vouches env fs stats e) :
    scanIndexedPaths env fs stats true index = scanIndexedPaths env fs stats false index := by
  rw [scanIndexedPaths, scanIndexedPaths]
  cases hfilter : env.filter fs with
  | error e => rfl
  | ok filter =>
    have hline : ∀ e ∈ index.filter (fun e => e.line.stage = 0),
        scanIndexed env fs stats filter true e = scanIndexed env fs stats filter false e := by
      intro e he
      obtain ⟨hmem, hstage⟩ := List.mem_filter.mp he
      rw [scanIndexed, scanIndexed]
      refine if_congr Iff.rfl rfl ?_
      cases hplace : fs.locate (abs env.root e.line.path) with
      | error err => cases err <;> rfl
      | ok p =>
        cases hnode : fs.get p with
        | none => simp only [hnode, Option.bind_none]
        | some node =>
          have hseen : scanFile env filter (some e) e.line.path node (stats p) =
              workFile env filter e.line.path node :=
            scanFile_eq (fun _ heq => by rw [← Option.some.inj heq])
              (fun _ heq => by
                rw [← Option.some.inj heq]
                exact h e hmem (by simpa using hstage))
              (.inr hplace) hnode hfilter
          simp only [hnode, Option.bind_some, if_true, hseen]
          rfl
    have hmap := mapM_congr hline
    simp only [hmap]

end Vouch

end Alt.StatCache
