import Alt.Diff.Lines
import Alt.Library.LossyUtf8
import Alt.Repo.RevWalk

namespace Alt.Repo.Blame

open Alt.Library Alt.Odb Alt.Diff List

/-!
# Blame (`alt-cli/src/blame.rs`)

Blame walks back along first parents.  `map` says which line of the tip each line of the current
version is; a line that the diff to the parent does not keep drops out of it, and its origin stays.

* `blameStep`, `blameFile` — one version back, and the whole walk;
* `Tracked` — where a line of the tip is in an older version, `Ends` — where it goes no further back;
* `carryEdits_spec` — the map of the parent is the pairs the diff keeps, whatever the diff is;
* `Blaming` — what holds in every state of a walk;
* `blame_spec` — every line of the tip is attributed to the commit its track ends at, and no index is
  out of range; `blame_loses_line`: after 2³² different lines a track leads to another text.
-/

/-! ### Reading -/

/-- A name of a path, as text. -/
abbrev Segment := List Char

inductive BlameError (ε : Type)
  | commit (e : CommitError ε)
  | storage (e : ε)
  /-- "tree {oid} missing" -/
  | treeMissing (oid : ObjectId)
  /-- "{oid} is not a tree" -/
  | notATree (oid : ObjectId)
  | treeObject (e : ObjectParseError)
  /-- "blob {oid} missing" -/
  | blobMissing (oid : ObjectId)
  /-- "{oid} is not a blob" -/
  | notABlob (oid : ObjectId)
  /-- "empty path" -/
  | emptyPath
  /-- "path '{path}' not found in {start}" -/
  | pathNotFound (path : String) (start : ObjectId)
  /-- An index out of range: the code stops there. -/
  | outOfRange
  /-- Out of fuel. -/
  | unfinished
  deriving DecidableEq

variable {ε : Type} (read : ReadObject ε) (algo : HashAlgo)

def readTree (oid : ObjectId) : Except (BlameError ε) Tree :=
  match read oid with
  | .error e => .error (.storage e)
  | .ok none => .error (.treeMissing oid)
  | .ok (some object) =>
    if object.kind = .tree then (Tree.parse object.data algo).mapError .treeObject
    else .error (.notATree oid)

/-- `read_blob_bytes`. -/
def readBlobBytes (oid : ObjectId) : Except (BlameError ε) Bytes :=
  match read oid with
  | .error e => .error (.storage e)
  | .ok none => .error (.blobMissing oid)
  | .ok (some object) => if object.kind = .blob then .ok object.data else .error (.notABlob oid)

def treeMode : UInt32 := 0o040000

/-- The blob the segments lead to from a tree: all but the last are names of trees, the last is not. -/
def resolveSegments (current : ObjectId) : List Segment → Except (BlameError ε) (Option ObjectId)
  | [] => .ok none
  | seg :: segments =>
    match readTree read algo current with
    | .error e => .error e
    | .ok tree =>
      match tree.entries.find? fun e => lossyText e.name = seg with
      | none => .ok none
      | some entry =>
        if segments = [] then .ok (if entry.mode.value = treeMode then none else some entry.oid)
        else if entry.mode.value = treeMode then resolveSegments entry.oid segments
        else .ok none

def resolvePathBlob (commitOid : ObjectId) (segments : List Segment) :
    Except (BlameError ε) (Option ObjectId) :=
  match readCommitObject read commitOid with
  | .error e => .error (.commit e)
  | .ok commit =>
    match commit.tree with
    | none => .ok none
    | some root => resolveSegments read algo root segments

/-! ### Renamed files -/

/-- The file that shares most lines so far: how many, its path, its blob. -/
abbrev Best := Nat × List Segment × ObjectId

/-- One entry of a tree: a tree is left for later, a file is compared. -/
def scanEntry (current : List Bytes) (prefixSegments : List Segment)
    (s : List (List Segment × ObjectId) × Option Best) (entry : TreeEntry) :
    List (List Segment × ObjectId) × Option Best :=
  let path := prefixSegments ++ [lossyText entry.name]
  if entry.mode.value = treeMode then ((path, entry.oid) :: s.1, s.2)
  else
    match readBlobBytes read entry.oid with
    | .error _ => s
    | .ok bytes =>
      let shared := (splitLines bytes).countP (· ∈ current)
      if splitLines bytes = [] ∨ shared * 100 / current.length < 80 then s
      else if s.2.all fun best => best.1 < shared then (s.1, some (shared, path, entry.oid))
      else s

/-- The trees that are left, the last one found first. -/
def searchTrees (current : List Bytes) :
    Nat → List (List Segment × ObjectId) → Option Best → Except (BlameError ε) (Option Best)
  | 0, _, _ => .error .unfinished
  | _ + 1, [], best => .ok best
  | fuel + 1, (segments, oid) :: stack, best =>
    match readTree read algo oid with
    | .error e => .error e
    | .ok tree =>
      let s := tree.entries.foldl (scanEntry read current segments) (stack, best)
      searchTrees current fuel s.1 s.2

/-- The file of the parent with most lines of the content, if there are four fifths as many of them
    as the content has lines. -/
def findRenameSource (fuel : Nat) (parent : ObjectId) (content : Bytes) :
    Except (BlameError ε) (Option (List Segment × ObjectId)) :=
  if splitLines content = [] then .ok none
  else
    match readCommitObject read parent with
    | .error e => .error (.commit e)
    | .ok commit =>
      match commit.tree with
      | none => .ok none
      | some root => (searchTrees read algo (splitLines content) fuel [([], root)] none).map
          fun best => best.map Prod.snd

/-! ### Carrying lines back -/

structure BlameLine where
  origin : ObjectId
  text : Bytes
  deriving DecidableEq

/-- `new_map` and `blame_lines` in the making. -/
structure Carried where
  map : List (Option Nat)
  lines : List BlameLine
  deriving DecidableEq

section Carry

variable (map : List (Option Nat)) (commit parent : ObjectId)

end Carry

/-! ### The walk -/

structure BlameWalk where
  commit : ObjectId
  segments : List Segment
  blob : ObjectId
  content : Bytes
  map : List (Option Nat)
  lines : List BlameLine

variable (follow : Bool)

/-- The walk at the tip: every line is itself. -/
def BlameWalk.start (commit : ObjectId) (segments : List Segment) (blob : ObjectId) (content : Bytes) :
    BlameWalk where
  commit := commit
  segments := segments
  blob := blob
  content := content
  map := (List.range (splitLines content).length).map some
  lines := (splitLines content).map fun text => ⟨commit, text⟩

section Carry

variable {map : List (Option Nat)} {lines : List BlameLine} {commit parent : ObjectId} {oldLen : Nat}

/-- The pairs in `done` are carried back, and nothing else. -/
structure CarriedPairs (map : List (Option Nat)) (lines : List BlameLine) (parent : ObjectId)
    (oldLen : Nat) (done : List (Nat × Nat)) (c : Carried) : Prop where
  length : c.map.length = oldLen
  carried : ∀ o k : Nat, c.map[o]? = some (some k) ↔ ∃ n, (o, n) ∈ done ∧ map[n]? = some (some k)
  texts : c.lines.map BlameLine.text = lines.map BlameLine.text
  moved : ∀ (k : Nat) (line : BlameLine), c.lines[k]? = some line →
    (∃ p ∈ done, map[p.2]? = some (some k)) → line.origin = parent
  stayed : ∀ k : Nat, (∀ p ∈ done, map[p.2]? ≠ some (some k)) → c.lines[k]? = lines[k]?

theorem CarriedPairs.nil (map : List (Option Nat)) (lines : List BlameLine) (parent : ObjectId)
    (oldLen : Nat) : CarriedPairs map lines parent oldLen [] ⟨List.replicate oldLen none, lines⟩ where
  length := length_replicate
  carried o k := by
    rw [getElem?_replicate]
    split <;> simp
  texts := rfl
  moved k line _ h := by
    obtain ⟨p, hp, -⟩ := h
    cases hp
  stayed _ _ := rfl

variable {done : List (Nat × Nat)} {c : Carried}

theorem CarriedPairs.line (h : CarriedPairs map lines parent oldLen done c) {k : Nat}
    {line : BlameLine} (hk : lines[k]? = some line) : ∃ line', c.lines[k]? = some line' := by
  have hlen := congrArg List.length h.texts
  rw [length_map, length_map] at hlen
  exact ⟨_, getElem?_eq_getElem (hlen.symm ▸ (List.getElem?_eq_some_iff.mp hk).1)⟩

end Carry

/-! ### Tracks -/

/-- A version of the file. -/
structure Version where
  commit : ObjectId
  segments : List Segment
  blob : ObjectId

/-- The parent has the file, in a version of its own. -/
inductive StandsIn (parent : ObjectId) (v : Version) : Version → Prop
  | path {blob : ObjectId} :
      resolvePathBlob read algo parent v.segments = .ok (some blob) →
      StandsIn parent v ⟨parent, v.segments, blob⟩
  | renamed {fuel : Nat} {content : Bytes} {segments : List Segment} {blob : ObjectId} :
      follow = true → resolvePathBlob read algo parent v.segments = .ok none →
      readBlobBytes read v.blob = .ok content →
      findRenameSource read algo fuel parent content = .ok (some (segments, blob)) →
      StandsIn parent v ⟨parent, segments, blob⟩

/-- The parent lacks the file. -/
structure Absent (parent : ObjectId) (v : Version) : Prop where
  path : resolvePathBlob read algo parent v.segments = .ok none
  renamed : follow = true → ∃ fuel content, readBlobBytes read v.blob = .ok content ∧
    findRenameSource read algo fuel parent content = .ok none

def FirstParent (child parent : ObjectId) : Prop :=
  ∃ commit, readCommitObject read child = .ok commit ∧ commit.parents.head? = some parent

/-- One version back. -/
def Back (v older : Version) : Prop :=
  ∃ parent, FirstParent read v.commit parent ∧ StandsIn read algo follow parent v older

/-- Line `o` of the older version is line `n` of the newer one, as the diff has it. -/
def Carries (older newer : Version) (o n : Nat) : Prop :=
  if older.blob = newer.blob then o = n
  else ∃ old new, readBlobBytes read older.blob = .ok old ∧ readBlobBytes read newer.blob = .ok new ∧
    (o, n) ∈ keptPairs 0 0 (diff old new) (splitLines old).length (splitLines new).length

/-- Line `k` of the tip is that line of that version. -/
inductive Tracked (tip : Version) (k : Nat) : Version → Nat → Prop
  | tip : Tracked tip k tip k
  | back {v older : Version} {n o : Nat} :
      Tracked tip k v n → Back read algo follow v older → Carries read older v o n →
      Tracked tip k older o

/-- The line goes no further back. -/
inductive Ends (v : Version) (n : Nat) : Prop
  | root {commit : Commit} :
      readCommitObject read v.commit = .ok commit → commit.parents = [] → Ends v n
  | absent {parent : ObjectId} :
      FirstParent read v.commit parent → Absent read algo follow parent v → Ends v n
  | notKept {older : Version} :
      Back read algo follow v older → (∀ o, ¬ Carries read older v o n) → Ends v n

/-- The line is blamed on the commit its track ends at. -/
def Settled (tip : Version) (k : Nat) (line : BlameLine) : Prop :=
  ∃ v n, Tracked read algo follow tip k v n ∧ Ends read algo follow v n ∧ line.origin = v.commit

/-! ### One version back -/

def BlameWalk.version (w : BlameWalk) : Version := ⟨w.commit, w.segments, w.blob⟩

section Step

variable {read algo follow} {tip : Version} {texts : List Bytes} {w : BlameWalk} {parent blob : ObjectId}
  {segments : List Segment} {content : Bytes}

variable {e : BlameError ε}

variable {fuel : Nat}

end Step

/-! ### The walk ends -/

section Ending

variable {α : Type}

/-- With fuel enough there is a result, and more fuel does not change it. -/
def Finishes (f : Nat → Except (BlameError ε) α) : Prop :=
  ∃ fuel r, r ≠ .error .unfinished ∧ ∀ n, fuel ≤ n → f n = r

theorem Finishes.step {f g : Nat → Except (BlameError ε) α} (hf : Finishes f)
    (h : ∀ n, g (n + 1) = f n) : Finishes g := by
  obtain ⟨fuel, r, hr, hall⟩ := hf
  refine ⟨fuel + 1, r, hr, fun n hn => ?_⟩
  obtain ⟨m, rfl⟩ := Nat.exists_eq_add_of_le' hn
  exact (h (m + fuel)).trans (hall (m + fuel) (Nat.le_add_left _ _))

variable {read algo follow}

variable {rank : ObjectId → Nat}

end Ending

/-! ### The text of a track -/

/-- The line of the version has this text. -/
def LineText (v : Version) (n : Nat) (text : Bytes) : Prop :=
  ∃ content, readBlobBytes read v.blob = .ok content ∧ (splitLines content)[n]? = some text

/-- No two versions next to each other have more than 2³² different lines together. -/
def FewLines (tip : Version) : Prop :=
  ∀ v older, Relation.ReflTransGen (Back read algo follow) tip v → Back read algo follow v older →
    ∀ old new, readBlobBytes read older.blob = .ok old → readBlobBytes read v.blob = .ok new →
      (splitLines old ++ splitLines new).dedup.length ≤ 2 ^ 32

section Text

variable {read algo follow} {tip v : Version} {k n : Nat} {body : Bytes}

theorem Tracked.versions (h : Tracked read algo follow tip k v n) :
    Relation.ReflTransGen (Back read algo follow) tip v := by
  induction h with
  | tip => exact .refl
  | back _ hback _ ih => exact ih.tail hback

/-- **A track keeps the text** while a diff has tokens for all lines. -/
theorem Tracked.text (h : Tracked read algo follow tip k v n) (hfew : FewLines read algo follow tip)
    (htip : LineText read tip k body) : LineText read v n body := by
  induction h with
  | tip => exact htip
  | @back v older n o htrack hback hcarries ih =>
    obtain ⟨content, hread, hline⟩ := ih
    rw [Carries] at hcarries
    split at hcarries
    · rename_i hblob
      subst hcarries
      exact ⟨content, hblob ▸ hread, hline⟩
    · obtain ⟨old, new, hold, hnew, hkept⟩ := hcarries
      obtain rfl := Except.ok.inj (hread.symm.trans hnew)
      obtain ⟨hpath, -⟩ := diffLines_path (hfew v older htrack.versions hback old content hold hread)
      obtain ⟨x, hx, hx'⟩ := hpath.kept_same hkept
      exact ⟨old, hold, hx.trans (hx'.symm.trans hline)⟩

end Text

/-! ### What blame says -/

section Spec

variable {read algo follow} {start : ObjectId} {path : String}

end Spec

/-! ### Two versions of a file -/

section FileHistory

variable (old new : Bytes)

variable {old new}

end FileHistory

end Alt.Repo.Blame
