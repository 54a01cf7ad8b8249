import Alt.Library.Lockstep
import Alt.Notes.Tree
import Alt.Repo.Workspace

namespace Alt.Repo

open Alt.Library Alt.Odb List

/-!
# The changes between two trees (`alt-cli/src/log_cmd.rs`, 138–319)

`treeDiff` walks two trees in lockstep and skips subtrees with one id.  It compares names as they
are, while git sorts a directory as if its name ended in a slash; so the walk can pass a name that
both trees have on one side first, and on the other later.

* `treeDiff` — the walk;
* `flattenSide`, `fileAt`, `plainAt` — the changes of the flattened trees;
* `Aligned` — where the walk meets what both trees have;
* `walkSpec`, `tree_diff_exact_iff` — the changes are those of the flattened trees just if the trees
  are aligned;
* `unchanged_file_is_reported` — which two trees in git's order need not be.
-/

/-! ### The walk -/

/-- A file as the patch sees it. -/
structure TreeFile where
  oid : ObjectId
  mode : UInt32
  deriving DecidableEq

/-- A path, and the file there before and after. -/
abbrev TreeChange := Bytes × Option TreeFile × Option TreeFile

def treeFile (e : TreeEntry) : TreeFile := ⟨e.oid, e.mode.value⟩

def isTree (e : TreeEntry) : Bool := e.mode.objectKind = .tree

section

variable (objects : Objects) (algo : HashAlgo)

/-- The entries of a tree, if there is one. -/
def readEntries : Option ObjectId → Res (List TreeEntry)
  | none => .ok []
  | some tree =>
    match objects tree with
    | none => .error (.message ("tree " ++ String.ofList tree.hexText ++ " missing"))
    | some obj =>
      if obj.kind ≠ .tree then .error (.message (String.ofList tree.hexText ++ " is not a tree"))
      else
        match Tree.parse obj.data algo with
        | .error e => .error (.object e)
        | .ok tree => .ok tree.entries

/-- The walk of two trees, below a path. -/
abbrev Walk := Option ObjectId → Option ObjectId → Bytes → Res (List TreeChange)

/-- An entry of one side alone: its leaves. -/
def handleSide (walk : Walk) (path : Bytes) (entry : TreeEntry) (deleted : Bool) :
    Res (List TreeChange) :=
  if isTree entry then
    if deleted then walk (some entry.oid) none path else walk none (some entry.oid) path
  else if deleted then .ok [(path, some (treeFile entry), none)]
  else .ok [(path, none, some (treeFile entry))]

/-- One step of the walk. -/
def handlePass (walk : Walk) (front : Bytes) : Pass TreeEntry → Res (List TreeChange)
  | .left o => handleSide walk (under front o.name) o true
  | .right n => handleSide walk (under front n.name) n false
  | .both o n =>
    if o.oid = n.oid ∧ o.mode = n.mode then .ok []
    else
      let path := under front n.name
      if isTree o && isTree n then walk (some o.oid) (some n.oid) path
      else if isTree o then do
        let gone ← walk (some o.oid) none path
        return gone ++ [(path, none, some (treeFile n))]
      else if isTree n then do
        let come ← walk none (some n.oid) path
        return (path, some (treeFile o), none) :: come
      else .ok [(path, some (treeFile o), some (treeFile n))]

/-- The changed leaves of two trees; what has one id is skipped. -/
def treeDiff : Nat → Walk
  | 0, old, new, _ => if old = new then .ok [] else .error (.unbounded .tree)
  | fuel + 1, old, new, front =>
    if old = new then .ok []
    else do
      let olds ← readEntries objects algo old
      let news ← readEntries objects algo new
      let parts ← (lockstep TreeEntry.name olds news).mapM (handlePass (treeDiff fuel) front)
      return parts.flatten

/-! ### The flattened trees -/

/-- The leaves of an entry. -/
def flattenEntry (fuel : Nat) (front : Bytes) (e : TreeEntry) : Res (List WorkEntry) :=
  if e.mode.objectKind = .tree then flattenInto objects algo fuel e.oid (under front e.name)
  else .ok [⟨under front e.name, e.oid, e.mode.value⟩]

/-- The leaves of a tree, if there is one. -/
def flattenSide (fuel : Nat) : Option ObjectId → Bytes → Res (List WorkEntry)
  | none, _ => .ok []
  | some tree, front => flattenInto objects algo fuel tree front

end

/-- The file at a path. -/
def fileAt (entries : List WorkEntry) (path : Bytes) : Option TreeFile :=
  (entries.find? fun w => w.path = path).map fun w => ⟨w.oid, w.mode⟩

/-- What changed at a path. -/
def plainAt (old new : List WorkEntry) (path : Bytes) : List TreeChange :=
  if fileAt old path = fileAt new path then [] else [(path, fileAt old path, fileAt new path)]

/-- What a list of changes says of a path. -/
def changesAt (changes : List TreeChange) (path : Bytes) : List TreeChange :=
  changes.filter fun c => c.1 = path

/-! ### Reading a tree -/

/-- What a computation of a list returns. -/
def listOf {ε α : Type} : Except ε (List α) → List α
  | .ok xs => xs
  | .error _ => []

section

variable {objects : Objects} {algo : HashAlgo} {fuel : Nat}

theorem listOf_of_mapM {ε α β : Type} {f : α → Except ε (List β)} {xs : List α} {parts : List (List β)}
    (h : xs.mapM f = .ok parts) :
    (∀ x ∈ xs, f x = .ok (listOf (f x))) ∧ parts = xs.map fun x => listOf (f x) := by
  have hall := forall₂_of_mapM_ok h
  clear h
  induction hall with
  | nil => exact ⟨nofun, rfl⟩
  | cons hxy _ ih =>
    refine ⟨fun x hx => ?_, ?_⟩
    · rcases mem_cons.mp hx with rfl | hx
      · rw [hxy, listOf]
      · exact ih.1 x hx
    · rw [map_cons, hxy, listOf, ← ih.2]

/-- Flattening a tree flattens its entries. -/
theorem flattenSide_succ {side : Option ObjectId} {front : Bytes} {ws : List WorkEntry}
    (h : flattenSide objects algo (fuel + 1) side front = .ok ws) :
    ∃ es, readEntries objects algo side = .ok es ∧
      (∀ e ∈ es, flattenEntry objects algo fuel front e =
        .ok (listOf (flattenEntry objects algo fuel front e))) ∧
      ws = es.flatMap fun e => listOf (flattenEntry objects algo fuel front e) := by
  cases side with
  | none =>
    cases h
    exact ⟨[], rfl, nofun, rfl⟩
  | some tree =>
    rw [flattenSide, flattenInto] at h
    rw [readEntries]
    cases hobject : objects tree with
    | none =>
      rw [hobject] at h
      cases h
    | some obj =>
      rw [hobject] at h
      dsimp only at h ⊢
      by_cases hkind : obj.kind ≠ .tree
      · rw [if_pos hkind] at h
        cases h
      · rw [if_neg hkind] at h ⊢
        cases hparse : Tree.parse obj.data algo with
        | error e =>
          rw [hparse] at h
          cases h
        | ok parsed =>
          rw [hparse] at h
          change (parsed.entries.mapM (flattenEntry objects algo fuel front) >>= fun parts =>
            pure parts.flatten) = .ok ws at h
          obtain ⟨parts, hparts, h⟩ := of_match_ok h
          cases h
          obtain ⟨hall, rfl⟩ := listOf_of_mapM hparts
          exact ⟨parsed.entries, rfl, hall, (flatMap_def ..).symm⟩

/-! ### Paths -/

/-- A path, or one below it. -/
def AtOrBelow (place path : Bytes) : Prop := path = place ∨ place ++ [slash] <+: path

/-- The name that a path goes on with after `front`. -/
def nameAfter (front path : Bytes) : Bytes :=
  (if front = [] then path else path.drop (front.length + 1)).takeWhile (· != slash)

theorem nameAfter_eq {front name path : Bytes} (hname : slash ∉ name)
    (h : AtOrBelow (under front name) path) : nameAfter front path = name := by
  have hkept : ∀ b ∈ name, (b != slash) = true := by
    intro b hb
    rw [bne_iff_ne]
    rintro rfl
    exact hname hb
  have hwhole : name.takeWhile (· != slash) = name := takeWhile_eq_self_iff.mpr hkept
  have hcut : ∀ rest : Bytes, (name ++ slash :: rest).takeWhile (· != slash) = name := by
    intro rest
    rw [takeWhile_append_of_pos hkept, takeWhile_cons_of_neg (by simp), append_nil]
  rw [nameAfter]
  rw [under] at h
  by_cases hfront : front = []
  · rw [if_pos hfront] at h ⊢
    rcases h with rfl | ⟨rest, rfl⟩
    · exact hwhole
    · rw [append_assoc]
      exact hcut rest
  · rw [if_neg hfront] at h ⊢
    have hdrop : ∀ rest : Bytes, (front ++ slash :: rest).drop (front.length + 1) = rest := by
      intro rest
      rw [← drop_drop, drop_left, drop_succ_cons, drop_zero]
    rcases h with rfl | ⟨rest, rfl⟩
    · rw [hdrop]
      exact hwhole
    · rw [append_assoc, append_assoc, cons_append, hdrop]
      exact hcut rest

theorem under_ne_nil {front name : Bytes} (h : name ≠ []) : under front name ≠ [] := by
  rw [under]
  split
  · exact h
  · simp

/-- What is below a name below `place` is below `place`. -/
theorem below_of_atOrBelow {place name path : Bytes} (hplace : place ≠ [])
    (h : AtOrBelow (under place name) path) : place ++ [slash] <+: path := by
  have hfront : place ++ [slash] <+: under place name := by
    rw [under, if_neg hplace]
    exact ⟨name, by rw [append_assoc]; rfl⟩
  rcases h with rfl | h
  · exact hfront
  · exact (hfront.trans (prefix_append _ _)).trans h

/-- Every name is one: not empty, without slashes, and not twice in one directory. -/
def WellNamed (objects : Objects) (algo : HashAlgo) : Nat → Option ObjectId → Prop
  | 0, _ => True
  | fuel + 1, side => ∀ es, readEntries objects algo side = .ok es →
      (es.map TreeEntry.name).Nodup ∧ ∀ e ∈ es, (e.name ≠ [] ∧ slash ∉ e.name) ∧
        (isTree e = true → WellNamed objects algo fuel (some e.oid))

theorem path_of_flattenSide {side : Option ObjectId} {front : Bytes} {ws : List WorkEntry}
    (hnamed : WellNamed objects algo fuel side) (hfront : front ≠ [])
    (h : flattenSide objects algo fuel side front = .ok ws) : ∀ w ∈ ws, front ++ [slash] <+: w.path := by
  induction fuel generalizing side front ws with
  | zero =>
    cases side with
    | none =>
      cases h
      nofun
    | some tree => cases h
  | succ fuel ih =>
    obtain ⟨es, hread, hall, rfl⟩ := flattenSide_succ h
    obtain ⟨-, hes⟩ := hnamed es hread
    intro w hw
    obtain ⟨e, he, hw⟩ := mem_flatMap.mp hw
    obtain ⟨⟨hne, -⟩, hsub⟩ := hes e he
    have hentry := hall e he
    have hsubtree : ∀ {sub}, isTree e = true →
        flattenSide objects algo fuel (some e.oid) (under front e.name) = .ok sub →
        ∀ w ∈ sub, under front e.name ++ [slash] <+: w.path :=
      fun htree => ih (hsub htree) (under_ne_nil hne)
    have hat : AtOrBelow (under front e.name) w.path → front ++ [slash] <+: w.path :=
      below_of_atOrBelow hfront
    rw [flattenEntry] at hentry hw
    by_cases htree : e.mode.objectKind = .tree
    · rw [if_pos htree] at hentry hw
      exact hat (.inr (hsubtree (decide_eq_true htree) hentry w hw))
    · rw [if_neg htree] at hw
      exact hat (.inl (by rw [mem_singleton.mp hw]))

section

variable {front : Bytes} {e : TreeEntry} {ws : List WorkEntry}

theorem flattenEntry_of_tree (htree : isTree e = true) :
    flattenEntry objects algo fuel front e =
      flattenSide objects algo fuel (some e.oid) (under front e.name) := by
  rw [flattenEntry, if_pos (of_decide_eq_true htree)]
  rfl

theorem flattenEntry_of_file (htree : isTree e = false) :
    flattenEntry objects algo fuel front e = .ok [⟨under front e.name, e.oid, e.mode.value⟩] := by
  rw [flattenEntry, if_neg (of_decide_eq_false htree)]

/-- The leaves of an entry are at its path, or below it if it is a directory. -/
theorem path_of_flattenEntry (hne : e.name ≠ [])
    (hnamed : isTree e = true → WellNamed objects algo fuel (some e.oid))
    (h : flattenEntry objects algo fuel front e = .ok ws) :
    ∀ w ∈ ws, AtOrBelow (under front e.name) w.path := by
  cases htree : isTree e with
  | true =>
    rw [flattenEntry_of_tree htree] at h
    exact fun w hw => .inr (path_of_flattenSide (hnamed htree) (under_ne_nil hne) h w hw)
  | false =>
    rw [flattenEntry_of_file htree] at h
    cases h
    intro w hw
    rw [mem_singleton.mp hw]
    exact .inl rfl

end

/-- No path comes twice. -/
theorem nodup_of_flattenSide {side : Option ObjectId} {front : Bytes} {ws : List WorkEntry}
    (hnamed : WellNamed objects algo fuel side)
    (h : flattenSide objects algo fuel side front = .ok ws) : (ws.map WorkEntry.path).Nodup := by
  induction fuel generalizing side front ws with
  | zero =>
    cases side with
    | none =>
      cases h
      exact nodup_nil
    | some tree => cases h
  | succ fuel ih =>
    obtain ⟨es, hread, hall, rfl⟩ := flattenSide_succ h
    obtain ⟨hnames, hes⟩ := hnamed es hread
    rw [map_flatMap, nodup_flatMap]
    constructor
    · intro e he
      have hentry := hall e he
      cases htree : isTree e with
      | true =>
        rw [flattenEntry_of_tree htree] at hentry
        rw [flattenEntry_of_tree htree]
        exact ih ((hes e he).2 htree) hentry
      | false =>
        rw [flattenEntry_of_file htree, listOf]
        exact nodup_singleton _
    · refine (pairwise_map.mp hnames).imp_of_mem fun {e e'} he he' hne => ?_
      intro path hpath hpath'
      obtain ⟨w, hw, rfl⟩ := mem_map.mp hpath
      obtain ⟨w', hw', heq⟩ := mem_map.mp hpath'
      have hat := path_of_flattenEntry (hes e he).1.1 (hes e he).2 (hall e he) w hw
      have hat' := path_of_flattenEntry (hes e' he').1.1 (hes e' he').2 (hall e' he') w' hw'
      rw [heq] at hat'
      exact hne ((nameAfter_eq (hes e he).1.2 hat).symm.trans (nameAfter_eq (hes e' he').1.2 hat'))

/-! ### One side alone -/

/-- The change of a leaf that one side has. -/
def leafChange (deleted : Bool) (w : WorkEntry) : TreeChange :=
  if deleted then (w.path, some ⟨w.oid, w.mode⟩, none) else (w.path, none, some ⟨w.oid, w.mode⟩)

/-- The walk of one side alone. -/
def walkSide (walk : Walk) (deleted : Bool) (tree : ObjectId) (path : Bytes) : Res (List TreeChange) :=
  if deleted then walk (some tree) none path else walk none (some tree) path

theorem handleSide_eq {walk : Walk} {front : Bytes} {e : TreeEntry} {deleted : Bool} {ws : List WorkEntry}
    (hwalk : ∀ {tree path ws}, flattenSide objects algo fuel (some tree) path = .ok ws →
      walkSide walk deleted tree path = .ok (ws.map (leafChange deleted)))
    (h : flattenEntry objects algo fuel front e = .ok ws) :
    handleSide walk (under front e.name) e deleted = .ok (ws.map (leafChange deleted)) := by
  rw [handleSide]
  cases htree : isTree e with
  | true =>
    rw [flattenEntry_of_tree htree] at h
    rw [if_pos rfl]
    exact hwalk h
  | false =>
    rw [flattenEntry_of_file htree] at h
    cases h
    cases deleted <;> rfl

/-- **One side alone** changes in all its leaves. -/
theorem treeDiff_side {deleted : Bool} {tree : ObjectId} {front : Bytes} {ws : List WorkEntry}
    (h : flattenSide objects algo fuel (some tree) front = .ok ws) :
    walkSide (treeDiff objects algo fuel) deleted tree front = .ok (ws.map (leafChange deleted)) := by
  induction fuel generalizing tree front ws with
  | zero => cases h
  | succ fuel ih =>
    obtain ⟨es, hread, hall, rfl⟩ := flattenSide_succ h
    have hparts : ∀ e ∈ es, handleSide (treeDiff objects algo fuel) (under front e.name) e deleted =
        .ok ((listOf (flattenEntry objects algo fuel front e)).map (leafChange deleted)) :=
      fun e he => handleSide_eq ih (hall e he)
    rw [map_flatMap, flatMap_def]
    cases deleted with
    | true =>
      rw [walkSide, if_pos rfl, treeDiff, if_neg (fun h => by cases h), hread, readEntries]
      dsimp only [bind, Except.bind]
      rw [lockstep_nil_right, mapM_map,
        mapM_eq_ok (f := handlePass (treeDiff objects algo fuel) front ∘ .left) hparts]
      rfl
    | false =>
      rw [walkSide, if_neg Bool.false_ne_true, treeDiff, if_neg (fun h => by cases h), hread, readEntries]
      dsimp only [bind, Except.bind]
      rw [lockstep_nil_left, mapM_map,
        mapM_eq_ok (f := handlePass (treeDiff objects algo fuel) front ∘ .right) hparts]
      rfl

end

/-! ### What happens at one path -/

section

variable {ws os ns : List WorkEntry} {path : Bytes}

theorem fileAt_eq_none (h : ∀ w ∈ ws, w.path ≠ path) : fileAt ws path = none := by
  rw [fileAt, find?_eq_none.mpr fun w hw => by simpa using h w hw]
  rfl

theorem fileAt_eq_some (hnodup : (ws.map WorkEntry.path).Nodup) {w : WorkEntry} (hw : w ∈ ws) :
    fileAt ws w.path = some ⟨w.oid, w.mode⟩ := by
  induction ws with
  | nil => cases hw
  | cons v ws ih =>
    rw [map_cons, nodup_cons] at hnodup
    rw [fileAt, find?_cons]
    rcases mem_cons.mp hw with rfl | hw
    · rw [decide_eq_true rfl]
      rfl
    · have hne : v.path ≠ w.path := fun heq => hnodup.1 (heq ▸ mem_map_of_mem hw)
      rw [decide_eq_false hne]
      exact ih hnodup.2 hw

theorem fileAt_append_right (h : ∀ w ∈ os, w.path ≠ path) : fileAt (os ++ ns) path = fileAt ns path := by
  rw [fileAt, find?_append, find?_eq_none.mpr fun w hw => by simpa using h w hw]
  rfl

theorem fileAt_append_left (h : ∀ w ∈ ns, w.path ≠ path) : fileAt (os ++ ns) path = fileAt os path := by
  have hnone : ns.find? (fun w => w.path = path) = none :=
    find?_eq_none.mpr fun w hw => by simpa using h w hw
  rw [fileAt, find?_append, hnone, Option.or_none]
  rfl

theorem changesAt_eq_nil {changes : List TreeChange} (h : ∀ c ∈ changes, c.1 ≠ path) :
    changesAt changes path = [] := by
  rw [changesAt, filter_eq_nil_iff]
  exact fun c hc => by simpa using h c hc

theorem path_leafChange (deleted : Bool) (w : WorkEntry) : (leafChange deleted w).1 = w.path := by
  cases deleted <;> rfl

/-- Each leaf of one side is a change at its path. -/
theorem changesAt_map_leafChange {deleted : Bool} (hnodup : (ws.map WorkEntry.path).Nodup) :
    changesAt (ws.map (leafChange deleted)) path = (fileAt ws path).toList.map fun f =>
      if deleted then (path, some f, none) else (path, none, some f) := by
  induction ws with
  | nil => rfl
  | cons w ws ih =>
    rw [map_cons, nodup_cons] at hnodup
    rw [map_cons, changesAt, fileAt, find?_cons]
    by_cases hpath : w.path = path
    · have hrest : changesAt (ws.map (leafChange deleted)) path = [] := by
        refine changesAt_eq_nil fun c hc heq => ?_
        obtain ⟨v, hv, rfl⟩ := mem_map.mp hc
        rw [path_leafChange] at heq
        exact hnodup.1 (hpath.trans heq.symm ▸ mem_map_of_mem hv)
      rw [filter_cons_of_pos (by simpa [path_leafChange] using hpath), decide_eq_true hpath,
        ← changesAt, hrest]
      cases deleted <;> simp [leafChange, hpath]
    · rw [filter_cons_of_neg (by simpa [path_leafChange] using hpath), decide_eq_false hpath]
      exact ih hnodup.2

/-- Nothing is there in one of the trees: the plain change is the other's leaf. -/
theorem plainAt_of_none_right (h : fileAt ns path = none) :
    plainAt os ns path = (fileAt os path).toList.map fun f => (path, some f, none) := by
  rw [plainAt, h]
  cases fileAt os path <;> rfl

theorem plainAt_of_none_left (h : fileAt os path = none) :
    plainAt os ns path = (fileAt ns path).toList.map fun f => (path, none, some f) := by
  rw [plainAt, h]
  cases fileAt ns path <;> rfl

theorem length_plainAt_le (os ns : List WorkEntry) (path : Bytes) : (plainAt os ns path).length ≤ 1 := by
  rw [plainAt]
  split
  · exact Nat.zero_le 1
  · exact Nat.le_refl 1

/-- **Two sides without a common path**: one after the other, in either order, they are what changed. -/
theorem changesAt_sides (hos : (os.map WorkEntry.path).Nodup) (hns : (ns.map WorkEntry.path).Nodup) :
    (∀ path, changesAt (os.map (leafChange true)) path ++ changesAt (ns.map (leafChange false)) path =
        plainAt os ns path) ↔ ∀ o ∈ os, ∀ n ∈ ns, o.path ≠ n.path := by
  constructor
  · intro h o ho n hn heq
    have hlength := length_plainAt_le os ns o.path
    rw [← h o.path, changesAt_map_leafChange hos, changesAt_map_leafChange hns, fileAt_eq_some hos ho,
      heq, fileAt_eq_some hns hn] at hlength
    exact absurd hlength (by simp)
  · intro h path
    rw [changesAt_map_leafChange hos, changesAt_map_leafChange hns]
    by_cases hat : ∃ o ∈ os, o.path = path
    · obtain ⟨o, ho, rfl⟩ := hat
      have hnone : fileAt ns o.path = none := fileAt_eq_none fun n hn heq => h o ho n hn heq.symm
      rw [plainAt_of_none_right hnone, hnone]
      simp
    · have hnone : fileAt os path = none := fileAt_eq_none fun o ho heq => hat ⟨o, ho, heq⟩
      rw [plainAt_of_none_left hnone, hnone]
      simp

theorem changesAt_sides_comm (hos : (os.map WorkEntry.path).Nodup) (hns : (ns.map WorkEntry.path).Nodup) :
    changesAt (ns.map (leafChange false)) path ++ changesAt (os.map (leafChange true)) path =
        plainAt os ns path ↔
      changesAt (os.map (leafChange true)) path ++ changesAt (ns.map (leafChange false)) path =
        plainAt os ns path := by
  have hlength := length_plainAt_le os ns path
  rw [changesAt_map_leafChange hos, changesAt_map_leafChange hns]
  cases fileAt os path with
  | none => simp
  | some f =>
    cases fileAt ns path with
    | none => simp
    | some f' =>
      constructor
      all_goals
        intro heq
        rw [← heq] at hlength
        exact absurd hlength (by simp)

end

/-! ### Where the walk meets what both have -/

/-- The names before a name. -/
def namesBefore (es : List TreeEntry) (name : Bytes) : List Bytes :=
  (es.map TreeEntry.name).takeWhile (· != name)

/-- The same names overtake `name` in both directories: names that come before it, though they sort
    after it and after all that is between. -/
def Met (olds news : List TreeEntry) (name : Bytes) : Prop :=
  overtaking (namesBefore olds name) name = overtaking (namesBefore news name) name

/-- Two entries that are met: they are the same, or directories that are aligned, or not both files,
    or files that differ in more than how the mode is written. -/
def EntriesAlign (aligned : Option ObjectId → Option ObjectId → Bytes → Prop) (front : Bytes)
    (o n : TreeEntry) : Prop :=
  (o.oid = n.oid ∧ o.mode = n.mode) ∨
    if isTree o && isTree n then aligned (some o.oid) (some n.oid) (under front n.name)
    else isTree o = true ∨ isTree n = true ∨ treeFile o ≠ treeFile n

section

variable (objects : Objects) (algo : HashAlgo)

/-- The leaves of an entry that can be flattened. -/
def leavesOf (fuel : Nat) (front : Bytes) (e : TreeEntry) : List WorkEntry :=
  listOf (flattenEntry objects algo fuel front e)

/-- **Aligned trees.** In every two directories that are compared, what both have is met, or has no
    path in common. -/
def Aligned : Nat → Option ObjectId → Option ObjectId → Bytes → Prop
  | 0, _, _, _ => True
  | fuel + 1, old, new, front => old = new ∨
      ∀ olds news, readEntries objects algo old = .ok olds → readEntries objects algo new = .ok news →
        ∀ o ∈ olds, ∀ n ∈ news, o.name = n.name →
          (Met olds news o.name → EntriesAlign (Aligned fuel) front o n) ∧
          (¬Met olds news o.name → ∀ a ∈ leavesOf objects algo fuel front o,
            ∀ b ∈ leavesOf objects algo fuel front n, a.path ≠ b.path)

/-- A directory that can be flattened, with names that are names. -/
structure Level (fuel : Nat) (front : Bytes) (es : List TreeEntry) : Prop where
  names : (es.map TreeEntry.name).Nodup
  named : ∀ e ∈ es, e.name ≠ [] ∧ slash ∉ e.name
  below : ∀ e ∈ es, isTree e = true → WellNamed objects algo fuel (some e.oid)
  flat : ∀ e ∈ es, flattenEntry objects algo fuel front e = .ok (leavesOf objects algo fuel front e)

end

section

variable {objects : Objects} {algo : HashAlgo} {fuel : Nat} {front path : Bytes} {es : List TreeEntry}
  {e : TreeEntry}

theorem Level.of_flattenSide {side : Option ObjectId} {ws : List WorkEntry}
    (hnamed : WellNamed objects algo (fuel + 1) side)
    (h : flattenSide objects algo (fuel + 1) side front = .ok ws) :
    ∃ es, readEntries objects algo side = .ok es ∧ Level objects algo fuel front es ∧
      ws = es.flatMap (leavesOf objects algo fuel front) := by
  obtain ⟨es, hread, hall, rfl⟩ := flattenSide_succ h
  obtain ⟨hnames, hes⟩ := hnamed es hread
  exact ⟨es, hread, ⟨hnames, fun e he => (hes e he).1, fun e he => (hes e he).2, hall⟩, rfl⟩

variable (h : Level objects algo fuel front es)

include h

theorem Level.atOrBelow (he : e ∈ es) :
    ∀ w ∈ leavesOf objects algo fuel front e, AtOrBelow (under front e.name) w.path :=
  path_of_flattenEntry (h.named e he).1 (h.below e he) (h.flat e he)

theorem Level.nodup_leavesOf (he : e ∈ es) :
    ((leavesOf objects algo fuel front e).map WorkEntry.path).Nodup := by
  have hflat := h.flat e he
  cases htree : isTree e with
  | true =>
    rw [flattenEntry_of_tree htree] at hflat
    exact nodup_of_flattenSide (h.below e he htree) hflat
  | false =>
    rw [leavesOf, flattenEntry_of_file htree, listOf]
    exact nodup_singleton _

/-- What is under another name has another path. -/
theorem Level.path_ne {name : Bytes} (hname : slash ∉ name) (hpath : AtOrBelow (under front name) path)
    (he : e ∈ es) (hne : e.name ≠ name) : ∀ w ∈ leavesOf objects algo fuel front e, w.path ≠ path := by
  rintro w hw rfl
  have hat := h.atOrBelow he w hw
  exact hne ((nameAfter_eq (h.named e he).2 hat).symm.trans (nameAfter_eq hname hpath))

theorem Level.fileAt_eq (he : e ∈ es) (hpath : AtOrBelow (under front e.name) path) :
    fileAt (es.flatMap (leavesOf objects algo fuel front)) path =
      fileAt (leavesOf objects algo fuel front e) path := by
  have hname := (h.named e he).2
  have hother : ∀ d ∈ es, d.name ≠ e.name → ∀ w ∈ leavesOf objects algo fuel front d, w.path ≠ path :=
    fun d hd hne => h.path_ne hname hpath hd hne
  have hnames := h.names
  obtain ⟨before, after, rfl⟩ := append_of_mem he
  rw [map_append, map_cons, nodup_middle, nodup_cons, mem_append] at hnames
  have hrest : ∀ part : List TreeEntry, (∀ d ∈ part, d ∈ before ++ e :: after) →
      e.name ∉ part.map TreeEntry.name →
      ∀ w ∈ part.flatMap (leavesOf objects algo fuel front), w.path ≠ path := by
    intro part hpart hnot w hw
    obtain ⟨d, hd, hw⟩ := mem_flatMap.mp hw
    exact hother d (hpart d hd) (fun heq => hnot (heq ▸ mem_map_of_mem hd)) w hw
  rw [flatMap_append, flatMap_cons,
    fileAt_append_right (hrest before (fun d hd => mem_append_left _ hd) fun hmem => hnames.1 (.inl hmem)),
    fileAt_append_left (hrest after
      (fun d hd => mem_append_right _ (mem_cons_of_mem e hd)) fun hmem => hnames.1 (.inr hmem))]

theorem Level.fileAt_eq_none {name : Bytes} (hname : slash ∉ name)
    (hpath : AtOrBelow (under front name) path) (hnone : ∀ e ∈ es, e.name ≠ name) :
    fileAt (es.flatMap (leavesOf objects algo fuel front)) path = none := by
  refine Repo.fileAt_eq_none fun w hw => ?_
  obtain ⟨e, he, hw⟩ := mem_flatMap.mp hw
  exact h.path_ne hname hpath he (hnone e he) w hw

end

/-! ### The walk is exact where trees are aligned -/

/-- The changes are those between two lists of leaves. -/
def Exactly (changes : List TreeChange) (os ns : List WorkEntry) : Prop :=
  ∀ path, changesAt changes path = plainAt os ns path

/-- Every change is at the path of a leaf. -/
def AtLeaves (changes : List TreeChange) (os ns : List WorkEntry) : Prop :=
  ∀ c ∈ changes, (∃ o ∈ os, o.path = c.1) ∨ ∃ n ∈ ns, n.path = c.1

/-- What is to be shown of the walk with this much fuel. -/
def WalkSpec (objects : Objects) (algo : HashAlgo) (fuel : Nat) : Prop :=
  ∀ {old new : Option ObjectId} {front : Bytes} {os ns : List WorkEntry},
    WellNamed objects algo fuel old → WellNamed objects algo fuel new →
    flattenSide objects algo fuel old front = .ok os →
    flattenSide objects algo fuel new front = .ok ns →
    ∃ changes, treeDiff objects algo fuel old new front = .ok changes ∧ AtLeaves changes os ns ∧
      (Exactly changes os ns ↔ Aligned objects algo fuel old new front)

section

variable {os ns : List WorkEntry}

theorem changesAt_append (cs ds : List TreeChange) (path : Bytes) :
    changesAt (cs ++ ds) path = changesAt cs path ++ changesAt ds path :=
  filter_append ..

theorem atLeaves_sides : AtLeaves (os.map (leafChange true) ++ ns.map (leafChange false)) os ns := by
  intro c hc
  rcases mem_append.mp hc with hc | hc
  · obtain ⟨o, ho, rfl⟩ := mem_map.mp hc
    exact .inl ⟨o, ho, (path_leafChange true o).symm⟩
  · obtain ⟨n, hn, rfl⟩ := mem_map.mp hc
    exact .inr ⟨n, hn, (path_leafChange false n).symm⟩

/-- One side after the other is exact just if they have no path in common. -/
theorem exactly_sides_iff (hos : (os.map WorkEntry.path).Nodup) (hns : (ns.map WorkEntry.path).Nodup) :
    Exactly (os.map (leafChange true) ++ ns.map (leafChange false)) os ns ↔
      ∀ o ∈ os, ∀ n ∈ ns, o.path ≠ n.path := by
  rw [← changesAt_sides hos hns]
  exact forall_congr' fun path => by rw [changesAt_append]

theorem exactly_nil (os : List WorkEntry) : Exactly [] os os :=
  fun _ => (if_pos rfl).symm

end

section

variable {objects : Objects} {algo : HashAlgo} {fuel : Nat} {front : Bytes} {olds news : List TreeEntry}
  {o n : TreeEntry}

/-- The file of one path against another file there. -/
theorem exactly_file_iff {place : Bytes} :
    Exactly [(place, some (treeFile o), some (treeFile n))] [⟨place, o.oid, o.mode.value⟩]
      [⟨place, n.oid, n.mode.value⟩] ↔ treeFile o ≠ treeFile n := by
  constructor
  · intro h heq
    have hat := h place
    rw [plainAt, fileAt, fileAt] at hat
    simp only [treeFile, TreeFile.mk.injEq] at heq
    simp [changesAt, heq] at hat
  · intro hne path
    rw [plainAt, fileAt, fileAt]
    by_cases hpath : place = path
    · simpa [changesAt, hpath, treeFile] using hne
    · simp [changesAt, hpath]

/-- A directory that has become a file, or a file that has become one: no path in common. -/
theorem path_ne_of_isTree_ne (hold : Level objects algo fuel front olds)
    (hnew : Level objects algo fuel front news) (ho : o ∈ olds) (hn : n ∈ news) (hname : o.name = n.name)
    (hkind : isTree o ≠ isTree n) : ∀ a ∈ leavesOf objects algo fuel front o,
      ∀ b ∈ leavesOf objects algo fuel front n, a.path ≠ b.path := by
  have hbelow : ∀ {es : List TreeEntry} {e : TreeEntry}, Level objects algo fuel front es → e ∈ es →
      isTree e = true → ∀ w ∈ leavesOf objects algo fuel front e, w.path ≠ under front e.name := by
    intro es e h he htree w hw heq
    have hflat := h.flat e he
    rw [flattenEntry_of_tree htree] at hflat
    have hpath := path_of_flattenSide (h.below e he htree) (under_ne_nil (h.named e he).1) hflat w hw
    have hlength := hpath.length_le
    rw [heq, length_append] at hlength
    exact absurd hlength (by simp)
  have hat : ∀ {e : TreeEntry}, isTree e = false → ∀ w ∈ leavesOf objects algo fuel front e,
      w.path = under front e.name := by
    intro e htree w hw
    rw [leavesOf, flattenEntry_of_file htree, listOf, mem_singleton] at hw
    rw [hw]
  intro a ha b hb heq
  cases htree : isTree o with
  | true =>
    have hfile : isTree n = false := by
      rw [htree] at hkind
      exact Bool.eq_false_iff.mpr hkind.symm
    exact hbelow hold ho htree a ha (by rw [heq, hat hfile b hb, hname])
  | false =>
    have hdir : isTree n = true := by
      rw [htree] at hkind
      exact Bool.ne_false_iff.mp hkind.symm
    exact hbelow hnew hn hdir b hb (by rw [← heq, hat htree a ha, hname])

/-- **What is met** is handled exactly just if it is aligned. -/
theorem handlePass_both (hspec : WalkSpec objects algo fuel) (hold : Level objects algo fuel front olds)
    (hnew : Level objects algo fuel front news) (ho : o ∈ olds) (hn : n ∈ news) (hname : o.name = n.name) :
    ∃ changes, handlePass (treeDiff objects algo fuel) front (.both o n) = .ok changes ∧
      AtLeaves changes (leavesOf objects algo fuel front o) (leavesOf objects algo fuel front n) ∧
      (Exactly changes (leavesOf objects algo fuel front o) (leavesOf objects algo fuel front n) ↔
        EntriesAlign (Aligned objects algo fuel) front o n) := by
  have hflat := hold.flat o ho
  have hflat' := hnew.flat n hn
  rw [handlePass, EntriesAlign]
  by_cases hsame : o.oid = n.oid ∧ o.mode = n.mode
  · have heq : o = n := by
      cases o
      cases n
      simp only at hsame hname
      rw [hsame.1, hsame.2, hname]
    subst heq
    rw [if_pos hsame]
    exact ⟨[], rfl, nofun, iff_of_true (exactly_nil _) (.inl hsame)⟩
  · rw [if_neg hsame, or_iff_right hsame]
    dsimp only
    have hapart : isTree o ≠ isTree n →
        Exactly ((leavesOf objects algo fuel front o).map (leafChange true) ++
            (leavesOf objects algo fuel front n).map (leafChange false))
          (leavesOf objects algo fuel front o) (leavesOf objects algo fuel front n) := fun hkind =>
      (exactly_sides_iff (hold.nodup_leavesOf ho) (hnew.nodup_leavesOf hn)).mpr
        (path_ne_of_isTree_ne hold hnew ho hn hname hkind)
    cases htree : isTree o with
    | true =>
      rw [flattenEntry_of_tree htree, hname] at hflat
      cases htree' : isTree n with
      | true =>
        rw [flattenEntry_of_tree htree'] at hflat'
        exact hspec (hold.below o ho htree) (hnew.below n hn htree') hflat hflat'
      | false =>
        have hwalk : walkSide _ true _ _ = _ := treeDiff_side hflat
        rw [walkSide, if_pos rfl] at hwalk
        have hfile : leavesOf objects algo fuel front n = [⟨under front n.name, n.oid, n.mode.value⟩] := by
          rw [leavesOf, flattenEntry_of_file htree', listOf]
        refine ⟨_, ?_, atLeaves_sides, iff_of_true (hapart (by rw [htree, htree']; nofun)) (.inl rfl)⟩
        rw [Bool.and_false, if_neg Bool.false_ne_true, if_pos rfl, hwalk, hfile]
        rfl
    | false =>
      rw [flattenEntry_of_file htree] at hflat
      have hfile : leavesOf objects algo fuel front o = [⟨under front n.name, o.oid, o.mode.value⟩] := by
        rw [leavesOf, flattenEntry_of_file htree, listOf, hname]
      cases htree' : isTree n with
      | true =>
        rw [flattenEntry_of_tree htree'] at hflat'
        have hwalk : walkSide _ false _ _ = _ := treeDiff_side hflat'
        rw [walkSide, if_neg Bool.false_ne_true] at hwalk
        refine ⟨_, ?_, atLeaves_sides,
          iff_of_true (hapart (by rw [htree, htree']; nofun)) (.inr (.inl rfl))⟩
        rw [Bool.false_and, if_neg Bool.false_ne_true, if_neg Bool.false_ne_true, if_pos rfl, hwalk, hfile]
        rfl
      | false =>
        have hfile' : leavesOf objects algo fuel front n = [⟨under front n.name, n.oid, n.mode.value⟩] := by
          rw [leavesOf, flattenEntry_of_file htree', listOf]
        refine ⟨[(under front n.name, some (treeFile o), some (treeFile n))], rfl, ?_, ?_⟩
        · intro c hc
          rw [mem_singleton.mp hc, hfile]
          exact .inl ⟨_, mem_singleton_self _, rfl⟩
        · rw [hfile, hfile', exactly_file_iff]
          simp

/-- The changes of a step that is handled. -/
def passChanges (objects : Objects) (algo : HashAlgo) (fuel : Nat) (front : Bytes) (s : Pass TreeEntry) :
    List TreeChange :=
  listOf (handlePass (treeDiff objects algo fuel) front s)

theorem handlePass_left (hold : Level objects algo fuel front olds) (ho : o ∈ olds) :
    handlePass (treeDiff objects algo fuel) front (.left o) =
      .ok ((leavesOf objects algo fuel front o).map (leafChange true)) :=
  handleSide_eq treeDiff_side (hold.flat o ho)

theorem handlePass_right (hnew : Level objects algo fuel front news) (hn : n ∈ news) :
    handlePass (treeDiff objects algo fuel) front (.right n) =
      .ok ((leavesOf objects algo fuel front n).map (leafChange false)) :=
  handleSide_eq treeDiff_side (hnew.flat n hn)

theorem passChanges_of_ok {s : Pass TreeEntry} {changes : List TreeChange}
    (h : handlePass (treeDiff objects algo fuel) front s = .ok changes) :
    passChanges objects algo fuel front s = changes := by
  rw [passChanges, h, listOf]

/-- The leaves that a step is about. -/
structure PassHandled (objects : Objects) (algo : HashAlgo) (fuel : Nat) (front : Bytes)
    (olds news : List TreeEntry) (s : Pass TreeEntry) : Prop where
  ok : handlePass (treeDiff objects algo fuel) front s = .ok (passChanges objects algo fuel front s)
  below : ∀ c ∈ passChanges objects algo fuel front s, AtOrBelow (under front (s.key TreeEntry.name)) c.1
  leaves : AtLeaves (passChanges objects algo fuel front s)
    (olds.flatMap (leavesOf objects algo fuel front)) (news.flatMap (leavesOf objects algo fuel front))

theorem passHandled (hspec : WalkSpec objects algo fuel) (hold : Level objects algo fuel front olds)
    (hnew : Level objects algo fuel front news) {s : Pass TreeEntry}
    (hs : s ∈ lockstep TreeEntry.name olds news) : PassHandled objects algo fuel front olds news s := by
  have hleft : ∀ {o}, o ∈ olds → ∀ w ∈ leavesOf objects algo fuel front o,
      w ∈ olds.flatMap (leavesOf objects algo fuel front) :=
    fun ho w hw => mem_flatMap.mpr ⟨_, ho, hw⟩
  have hright : ∀ {n}, n ∈ news → ∀ w ∈ leavesOf objects algo fuel front n,
      w ∈ news.flatMap (leavesOf objects algo fuel front) :=
    fun hn w hw => mem_flatMap.mpr ⟨_, hn, hw⟩
  cases s with
  | left o =>
    have ho := mem_left_of_lockstep hs rfl
    have hrun := handlePass_left hold ho
    refine ⟨by rw [passChanges_of_ok hrun, hrun], ?_, ?_⟩ <;> rw [passChanges_of_ok hrun] <;> intro c hc <;>
      obtain ⟨w, hw, rfl⟩ := mem_map.mp hc <;> rw [path_leafChange]
    · exact hold.atOrBelow ho w hw
    · exact .inl ⟨w, hleft ho w hw, rfl⟩
  | right n =>
    have hn := mem_right_of_lockstep hs rfl
    have hrun := handlePass_right hnew hn
    refine ⟨by rw [passChanges_of_ok hrun, hrun], ?_, ?_⟩ <;> rw [passChanges_of_ok hrun] <;> intro c hc <;>
      obtain ⟨w, hw, rfl⟩ := mem_map.mp hc <;> rw [path_leafChange]
    · exact hnew.atOrBelow hn w hw
    · exact .inr ⟨w, hright hn w hw, rfl⟩
  | both o n =>
    have ho := mem_left_of_lockstep hs rfl
    have hn := mem_right_of_lockstep hs rfl
    have hname : o.name = n.name := key_of_both hs
    obtain ⟨changes, hrun, hat, -⟩ := handlePass_both hspec hold hnew ho hn hname
    refine ⟨by rw [passChanges_of_ok hrun, hrun], ?_, ?_⟩ <;> rw [passChanges_of_ok hrun] <;> intro c hc
    · rcases hat c hc with ⟨w, hw, heq⟩ | ⟨w, hw, heq⟩
      · rw [Pass.key, ← heq, ← hname]
        exact hold.atOrBelow ho w hw
      · rw [Pass.key, ← heq]
        exact hnew.atOrBelow hn w hw
    · rcases hat c hc with ⟨w, hw, heq⟩ | ⟨w, hw, heq⟩
      · exact .inl ⟨w, hleft ho w hw, heq⟩
      · exact .inr ⟨w, hright hn w hw, heq⟩

/-- At a path below a name, the changes are those of the steps with the name. -/
theorem changesAt_flatMap {steps : List (Pass TreeEntry)} {name path : Bytes} (hname : slash ∉ name)
    (hnames : ∀ s ∈ steps, slash ∉ s.key TreeEntry.name)
    (hbelow : ∀ s ∈ steps, ∀ c ∈ passChanges objects algo fuel front s,
      AtOrBelow (under front (s.key TreeEntry.name)) c.1)
    (hpath : AtOrBelow (under front name) path) :
    changesAt (steps.flatMap (passChanges objects algo fuel front)) path =
      (steps.filter fun s => s.key TreeEntry.name = name).flatMap fun s =>
        changesAt (passChanges objects algo fuel front s) path := by
  induction steps with
  | nil => rfl
  | cons s steps ih =>
    rw [flatMap_cons, changesAt_append, ih (fun t ht => hnames t (mem_cons_of_mem s ht))
      (fun t ht => hbelow t (mem_cons_of_mem s ht))]
    by_cases hkey : s.key TreeEntry.name = name
    · rw [filter_cons_of_pos (by simpa using hkey), flatMap_cons]
    · rw [filter_cons_of_neg (by simpa using hkey), changesAt_eq_nil, nil_append]
      rintro c hc rfl
      have hat := nameAfter_eq (hnames s mem_cons_self) (hbelow s mem_cons_self c hc)
      exact hkey (hat.symm.trans (nameAfter_eq hname hpath))

/-- What is met is what the walk passes on both sides at once. -/
theorem met_iff (hold : (olds.map TreeEntry.name).Nodup) (hnew : (news.map TreeEntry.name).Nodup)
    (ho : o ∈ olds) (hn : n ∈ news) (hname : o.name = n.name) :
    Met olds news o.name ↔ Pass.both o n ∈ lockstep TreeEntry.name olds news := by
  have hbefore : ∀ {before after : List TreeEntry} {e : TreeEntry},
      ((before ++ e :: after).map TreeEntry.name).Nodup →
      namesBefore (before ++ e :: after) e.name = before.map TreeEntry.name := by
    intro before after e hnodup
    rw [map_append, map_cons, nodup_middle, nodup_cons, mem_append] at hnodup
    rw [namesBefore, map_append, map_cons, takeWhile_append_of_pos,
      takeWhile_cons_of_neg (by simp), append_nil]
    intro name hmem
    rw [bne_iff_ne]
    rintro rfl
    exact hnodup.1 (.inl hmem)
  obtain ⟨front, back, rfl⟩ := append_of_mem ho
  obtain ⟨front', back', rfl⟩ := append_of_mem hn
  rw [both_mem_lockstep_iff hname hold hnew, Met, hbefore hold]
  nth_rewrite 2 [hname]
  rw [hbefore hnew]

/-- Changes at leaves are exact if they are so below the name of the leaves. -/
theorem exactly_iff_below {changes : List TreeChange} {os ns : List WorkEntry} {place : Bytes}
    (hat : AtLeaves changes os ns) (hos : ∀ w ∈ os, AtOrBelow place w.path)
    (hns : ∀ w ∈ ns, AtOrBelow place w.path) :
    Exactly changes os ns ↔
      ∀ path, AtOrBelow place path → changesAt changes path = plainAt os ns path := by
  refine ⟨fun h path _ => h path, fun h path => ?_⟩
  by_cases hpath : AtOrBelow place path
  · exact h path hpath
  · have hos' : fileAt os path = none := fileAt_eq_none fun w hw heq => hpath (heq ▸ hos w hw)
    have hns' : fileAt ns path = none := fileAt_eq_none fun w hw heq => hpath (heq ▸ hns w hw)
    rw [plainAt, hos', hns', if_pos rfl]
    refine changesAt_eq_nil ?_
    rintro c hc rfl
    rcases hat c hc with ⟨w, hw, heq⟩ | ⟨w, hw, heq⟩
    · exact hpath (heq ▸ hos w hw)
    · exact hpath (heq ▸ hns w hw)

/-- The changes and the leaves of a level. -/
abbrev levelChanges (objects : Objects) (algo : HashAlgo) (fuel : Nat) (front : Bytes)
    (olds news : List TreeEntry) : List TreeChange :=
  (lockstep TreeEntry.name olds news).flatMap (passChanges objects algo fuel front)

/-- **One name in both directories** is handled exactly just if it is aligned where it is met, and
    has no path in common where it is not. -/
theorem level_pair_iff (hspec : WalkSpec objects algo fuel) (hold : Level objects algo fuel front olds)
    (hnew : Level objects algo fuel front news) (ho : o ∈ olds) (hn : n ∈ news) (hname : o.name = n.name)
    (hat : ∀ path, AtOrBelow (under front o.name) path →
      changesAt (levelChanges objects algo fuel front olds news) path =
        ((lockstep TreeEntry.name olds news).filter fun s => s.key TreeEntry.name = o.name).flatMap
          fun s => changesAt (passChanges objects algo fuel front s) path) :
    (∀ path, AtOrBelow (under front o.name) path →
        changesAt (levelChanges objects algo fuel front olds news) path =
          plainAt (olds.flatMap (leavesOf objects algo fuel front))
            (news.flatMap (leavesOf objects algo fuel front)) path) ↔
      (Met olds news o.name → EntriesAlign (Aligned objects algo fuel) front o n) ∧
      (¬Met olds news o.name → ∀ a ∈ leavesOf objects algo fuel front o,
        ∀ b ∈ leavesOf objects algo fuel front n, a.path ≠ b.path) := by
  have hplain : ∀ path, AtOrBelow (under front o.name) path →
      plainAt (olds.flatMap (leavesOf objects algo fuel front))
          (news.flatMap (leavesOf objects algo fuel front)) path =
        plainAt (leavesOf objects algo fuel front o) (leavesOf objects algo fuel front n) path := by
    intro path hpath
    rw [plainAt, hold.fileAt_eq ho hpath, hnew.fileAt_eq hn (hname ▸ hpath)]
    rfl
  have hos : ∀ w ∈ leavesOf objects algo fuel front o, AtOrBelow (under front o.name) w.path :=
    hold.atOrBelow ho
  have hns : ∀ w ∈ leavesOf objects algo fuel front n, AtOrBelow (under front o.name) w.path := by
    rw [hname]
    exact hnew.atOrBelow hn
  have hsides := exactly_sides_iff (hold.nodup_leavesOf ho) (hnew.nodup_leavesOf hn)
  rw [exactly_iff_below atLeaves_sides hos hns] at hsides
  have hmet := met_iff hold.names hnew.names ho hn hname
  have hleft := filterMap_left_filter_key TreeEntry.name olds news o.name
  have hright := filterMap_right_filter_key TreeEntry.name olds news o.name
  rw [filter_key_eq_singleton hold.names ho] at hleft
  rw [hname, filter_key_eq_singleton hnew.names hn, ← hname] at hright
  have hboth : Pass.both o n ∈ lockstep TreeEntry.name olds news ↔
      Pass.both o n ∈ (lockstep TreeEntry.name olds news).filter fun s => s.key TreeEntry.name = o.name := by
    rw [mem_filter, Pass.key, hname]
    simp
  rcases passes_cases hleft hright with hS | hS | hS
  · obtain ⟨changes, hrun, hleaves, hiff⟩ := handlePass_both hspec hold hnew ho hn hname
    have hmet' : Met olds news o.name := by
      rw [hmet, hboth, hS]
      exact mem_singleton_self _
    rw [exactly_iff_below hleaves hos hns] at hiff
    rw [forall_prop_of_true hmet', forall_prop_of_false (not_not.mpr hmet'), and_true, ← hiff]
    refine forall_congr' fun path => forall_congr' fun hpath => ?_
    rw [hat path hpath, hS, flatMap_singleton, passChanges_of_ok hrun, hplain path hpath]
  · have hmet' : ¬Met olds news o.name := by
      rw [hmet, hboth, hS]
      simp
    rw [forall_prop_of_false hmet', forall_prop_of_true hmet', true_and, ← hsides]
    refine forall_congr' fun path => forall_congr' fun hpath => ?_
    rw [hat path hpath, hS, flatMap_cons, flatMap_singleton,
      passChanges_of_ok (handlePass_left hold ho), passChanges_of_ok (handlePass_right hnew hn),
      hplain path hpath, changesAt_append]
  · have hmet' : ¬Met olds news o.name := by
      rw [hmet, hboth, hS]
      simp
    rw [forall_prop_of_false hmet', forall_prop_of_true hmet', true_and, ← hsides]
    refine forall_congr' fun path => forall_congr' fun hpath => ?_
    rw [hat path hpath, hS, flatMap_cons, flatMap_singleton,
      passChanges_of_ok (handlePass_left hold ho), passChanges_of_ok (handlePass_right hnew hn),
      hplain path hpath, changesAt_append,
      changesAt_sides_comm (hold.nodup_leavesOf ho) (hnew.nodup_leavesOf hn)]

theorem filter_name_eq_nil {es : List TreeEntry} {name : Bytes} (h : ∀ e ∈ es, e.name ≠ name) :
    es.filter (fun e => e.name = name) = [] := by
  rw [filter_eq_nil_iff]
  exact fun e he => by simpa using h e he

/-- **One level is exact** just if all that both directories have is. -/
theorem level_exactly_iff (hspec : WalkSpec objects algo fuel) (hold : Level objects algo fuel front olds)
    (hnew : Level objects algo fuel front news) :
    Exactly (levelChanges objects algo fuel front olds news)
        (olds.flatMap (leavesOf objects algo fuel front))
        (news.flatMap (leavesOf objects algo fuel front)) ↔
      ∀ o ∈ olds, ∀ n ∈ news, o.name = n.name →
        (Met olds news o.name → EntriesAlign (Aligned objects algo fuel) front o n) ∧
        (¬Met olds news o.name → ∀ a ∈ leavesOf objects algo fuel front o,
          ∀ b ∈ leavesOf objects algo fuel front n, a.path ≠ b.path) := by
  have hhandled := fun {s} => passHandled (s := s) hspec hold hnew
  have hkey : ∀ s ∈ lockstep TreeEntry.name olds news, slash ∉ s.key TreeEntry.name := by
    intro s hs
    cases s with
    | left o => exact (hold.named o (mem_left_of_lockstep hs rfl)).2
    | right n => exact (hnew.named n (mem_right_of_lockstep hs rfl)).2
    | both o n => exact (hnew.named n (mem_right_of_lockstep hs rfl)).2
  have hat : ∀ {name : Bytes}, slash ∉ name → ∀ path, AtOrBelow (under front name) path →
      changesAt (levelChanges objects algo fuel front olds news) path =
        ((lockstep TreeEntry.name olds news).filter fun s => s.key TreeEntry.name = name).flatMap
          fun s => changesAt (passChanges objects algo fuel front s) path :=
    fun hname path hpath => changesAt_flatMap hname hkey (fun s hs => (hhandled hs).below) hpath
  constructor
  · intro h o ho n hn hname
    exact (level_pair_iff hspec hold hnew ho hn hname (hat (hold.named o ho).2)).mp fun path _ => h path
  · intro h path
    by_cases hleft : ∃ o ∈ olds, AtOrBelow (under front o.name) path
    · obtain ⟨o, ho, hpath⟩ := hleft
      by_cases hboth : ∃ n ∈ news, o.name = n.name
      · obtain ⟨n, hn, hname⟩ := hboth
        exact (level_pair_iff hspec hold hnew ho hn hname (hat (hold.named o ho).2)).mpr
          (h o ho n hn hname) path hpath
      · have hnone : ∀ n ∈ news, n.name ≠ o.name := fun n hn heq => hboth ⟨n, hn, heq.symm⟩
        have hS := passes_eq_left
          ((filterMap_left_filter_key TreeEntry.name olds news o.name).trans
            (filter_key_eq_singleton hold.names ho))
          ((filterMap_right_filter_key TreeEntry.name olds news o.name).trans
            (filter_name_eq_nil hnone))
        rw [hat (hold.named o ho).2 path hpath, hS, flatMap_singleton,
          passChanges_of_ok (handlePass_left hold ho), changesAt_map_leafChange (hold.nodup_leavesOf ho),
          plainAt_of_none_right (hnew.fileAt_eq_none (hold.named o ho).2 hpath hnone),
          hold.fileAt_eq ho hpath]
        rfl
    · by_cases hright : ∃ n ∈ news, AtOrBelow (under front n.name) path
      · obtain ⟨n, hn, hpath⟩ := hright
        have hnone : ∀ o ∈ olds, o.name ≠ n.name := fun o ho heq => hleft ⟨o, ho, heq ▸ hpath⟩
        have hS := passes_eq_right
          ((filterMap_left_filter_key TreeEntry.name olds news n.name).trans
            (filter_name_eq_nil hnone))
          ((filterMap_right_filter_key TreeEntry.name olds news n.name).trans
            (filter_key_eq_singleton hnew.names hn))
        rw [hat (hnew.named n hn).2 path hpath, hS, flatMap_singleton,
          passChanges_of_ok (handlePass_right hnew hn), changesAt_map_leafChange (hnew.nodup_leavesOf hn),
          plainAt_of_none_left (hold.fileAt_eq_none (hnew.named n hn).2 hpath hnone),
          hnew.fileAt_eq hn hpath]
        rfl
      · -- the path is below no name of either directory
        have hos : ∀ w ∈ olds.flatMap (leavesOf objects algo fuel front), w.path ≠ path := by
          rintro w hw rfl
          obtain ⟨o, ho, hw⟩ := mem_flatMap.mp hw
          exact hleft ⟨o, ho, hold.atOrBelow ho w hw⟩
        have hns : ∀ w ∈ news.flatMap (leavesOf objects algo fuel front), w.path ≠ path := by
          rintro w hw rfl
          obtain ⟨n, hn, hw⟩ := mem_flatMap.mp hw
          exact hright ⟨n, hn, hnew.atOrBelow hn w hw⟩
        rw [plainAt, fileAt_eq_none hos, fileAt_eq_none hns, if_pos rfl]
        refine changesAt_eq_nil fun c hc => ?_
        obtain ⟨s, hs, hc⟩ := mem_flatMap.mp hc
        rintro rfl
        rcases (hhandled hs).leaves c hc with ⟨w, hw, heq⟩ | ⟨w, hw, heq⟩
        · exact hos w hw heq
        · exact hns w hw heq

/-- The run rule: by induction on the depth, every walk is exact just if the trees are aligned. -/
theorem walkSpec (objects : Objects) (algo : HashAlgo) (fuel : Nat) : WalkSpec objects algo fuel := by
  induction fuel with
  | zero =>
    intro old new front os ns _ _ hos hns
    cases old with
    | some tree => cases hos
    | none =>
      cases new with
      | some tree => cases hns
      | none =>
        cases hos
        cases hns
        exact ⟨[], rfl, nofun, iff_of_true (exactly_nil _) trivial⟩
  | succ fuel hspec =>
    intro old new front os ns hnamed hnamed' hos hns
    rw [treeDiff, Aligned]
    by_cases hsame : old = new
    · subst hsame
      rw [hos] at hns
      cases hns
      rw [if_pos rfl]
      exact ⟨[], rfl, nofun, iff_of_true (exactly_nil _) (.inl rfl)⟩
    · obtain ⟨olds, hread, hold, rfl⟩ := Level.of_flattenSide hnamed hos
      obtain ⟨news, hread', hnew, rfl⟩ := Level.of_flattenSide hnamed' hns
      have hhandled := fun {s} => passHandled (s := s) hspec hold hnew
      refine ⟨levelChanges objects algo fuel front olds news, ?_, ?_, ?_⟩
      · rw [if_neg hsame, hread, hread']
        dsimp only [bind, Except.bind]
        rw [mapM_eq_ok fun s hs => (hhandled hs).ok]
        rfl
      · intro c hc
        obtain ⟨s, hs, hc⟩ := mem_flatMap.mp hc
        exact (hhandled hs).leaves c hc
      · rw [level_exactly_iff hspec hold hnew, or_iff_right hsame]
        constructor
        · intro h olds' news' holds' hnews'
          rw [hread] at holds'
          rw [hread'] at hnews'
          cases holds'
          cases hnews'
          exact h
        · exact fun h => h olds news hread hread'

end

/-! ### The two trees of a commit -/

/-- A tree as entries in path order, if there is one. -/
def flattened (objects : Objects) (algo : HashAlgo) (fuel : Nat) : Option ObjectId → Res (List WorkEntry)
  | none => .ok []
  | some tree => flattenTree objects algo fuel tree

/-- Git's order of the entries of a directory. -/
def GitOrdered (es : List TreeEntry) : Prop :=
  (es.map fun e => ((e.name, e.oid, e.mode.value) : Flat)).Pairwise fun a b =>
    compare (treeKey a) (treeKey b) = .lt

instance (es : List TreeEntry) : Decidable (GitOrdered es) :=
  inferInstanceAs (Decidable (List.Pairwise _ _))

section

variable {objects : Objects} {algo : HashAlgo} {fuel : Nat} {old new : Option ObjectId}
  {os ns : List WorkEntry}

/-- Sorting the leaves leaves the file at each path. -/
theorem fileAt_insertionSort {ws : List WorkEntry} (h : (ws.map WorkEntry.path).Nodup) (path : Bytes) :
    fileAt (ws.insertionSort (byPath · ·)) path = fileAt ws path := by
  have hperm := perm_insertionSort (byPath · ·) ws
  by_cases hat : ∃ w ∈ ws, w.path = path
  · obtain ⟨w, hw, rfl⟩ := hat
    rw [fileAt_eq_some h hw, fileAt_eq_some ((hperm.map _).nodup_iff.mpr h) (hperm.mem_iff.mpr hw)]
  · rw [fileAt_eq_none fun w hw heq => hat ⟨w, hw, heq⟩,
      fileAt_eq_none fun w hw heq => hat ⟨w, hperm.mem_iff.mp hw, heq⟩]

theorem flattened_eq_ok (hnamed : WellNamed objects algo fuel old)
    (h : flattened objects algo fuel old = .ok os) :
    ∃ ws, flattenSide objects algo fuel old [] = .ok ws ∧ ∀ path, fileAt os path = fileAt ws path := by
  cases old with
  | none =>
    cases h
    exact ⟨[], rfl, fun _ => rfl⟩
  | some tree =>
    rw [flattened, flattenTree] at h
    obtain ⟨ws, hflat, h⟩ := of_match_ok h
    cases h
    have hside : flattenSide objects algo fuel (some tree) [] = .ok ws := hflat
    exact ⟨ws, hside, fileAt_insertionSort (nodup_of_flattenSide hnamed hside)⟩

/-- **The changes between two trees** are those of the flattened trees just if the trees are
    aligned. -/
theorem tree_diff_exact_iff (hold : WellNamed objects algo fuel old)
    (hnew : WellNamed objects algo fuel new) (hos : flattened objects algo fuel old = .ok os)
    (hns : flattened objects algo fuel new = .ok ns) :
    ∃ changes, treeDiff objects algo fuel old new [] = .ok changes ∧
      ((∀ path, changesAt changes path = plainAt os ns path) ↔ Aligned objects algo fuel old new []) := by
  obtain ⟨ws, hside, hfile⟩ := flattened_eq_ok hold hos
  obtain ⟨ws', hside', hfile'⟩ := flattened_eq_ok hnew hns
  obtain ⟨changes, hrun, -, hiff⟩ := walkSpec objects algo fuel hold hnew hside hside'
  refine ⟨changes, hrun, ?_⟩
  rw [← hiff]
  refine forall_congr' fun path => ?_
  rw [plainAt, plainAt, hfile, hfile']

end

/-! ### A name that overtakes a directory -/

/-- A directory `a` with a file `x`, with the file `a.b` next to it, and without. -/
def subTree : Bytes := toyTree [([0x78], [1])]

def dotTree : Bytes :=
  levelBytes [([0x61, 0x2e, 0x62], toyId .blob [2], regular), ([0x61], toyId .tree subTree, directory)]

def plainTree : Bytes := levelBytes [([0x61], toyId .tree subTree, directory)]

def dotObjects : Objects := toyObjects [(.tree, subTree), (.tree, dotTree), (.tree, plainTree)]

/-- The modes `100644` and `40000`, as they are written. -/
def fileMode : EntryMode := Notes.fileMode

def dirMode : EntryMode := Notes.dirMode

def dotEntries : List TreeEntry :=
  [⟨fileMode, [0x61, 0x2e, 0x62], toyId .blob [2]⟩, ⟨dirMode, [0x61], toyId .tree subTree⟩]

def plainEntries : List TreeEntry := [⟨dirMode, [0x61], toyId .tree subTree⟩]

def subEntries : List TreeEntry := [⟨fileMode, [0x78], toyId .blob [1]⟩]

theorem read_dotObjects :
    readEntries dotObjects .sha1 (some (toyId .tree dotTree)) = .ok dotEntries ∧
      readEntries dotObjects .sha1 (some (toyId .tree plainTree)) = .ok plainEntries ∧
      readEntries dotObjects .sha1 (some (toyId .tree subTree)) = .ok subEntries :=
  ⟨ok_of_toOption (by decide +kernel), ok_of_toOption (by decide +kernel),
    ok_of_toOption (by decide +kernel)⟩

theorem wellNamed_dotObjects :
    WellNamed dotObjects .sha1 2 (some (toyId .tree dotTree)) ∧
      WellNamed dotObjects .sha1 2 (some (toyId .tree plainTree)) := by
  obtain ⟨hdot, hplain, hsub⟩ := read_dotObjects
  have hbelow : WellNamed dotObjects .sha1 1 (some (toyId .tree subTree)) := by
    intro es hread
    rw [hsub] at hread
    cases hread
    refine ⟨by decide, fun e he => ?_⟩
    obtain rfl := mem_singleton.mp he
    exact ⟨by decide, fun htree => absurd htree (by decide)⟩
  constructor
  · intro es hread
    rw [hdot] at hread
    cases hread
    refine ⟨by decide, fun e he => ?_⟩
    rcases mem_cons.mp he with rfl | he
    · exact ⟨by decide, fun htree => absurd htree (by decide)⟩
    · obtain rfl := mem_singleton.mp he
      exact ⟨by decide, fun _ => hbelow⟩
  · intro es hread
    rw [hplain] at hread
    cases hread
    refine ⟨by decide, fun e he => ?_⟩
    obtain rfl := mem_singleton.mp he
    exact ⟨by decide, fun _ => hbelow⟩

/-- The leaves of both, and of the one alone. -/
def dotLeaves : List WorkEntry :=
  [toyEntry [0x61, 0x2e, 0x62] [2], toyEntry [0x61, 0x2f, 0x78] [1]]

def plainLeaves : List WorkEntry := [toyEntry [0x61, 0x2f, 0x78] [1]]

theorem flattened_dotObjects :
    flattened dotObjects .sha1 2 (some (toyId .tree dotTree)) = .ok dotLeaves ∧
      flattened dotObjects .sha1 2 (some (toyId .tree plainTree)) = .ok plainLeaves :=
  ⟨ok_of_toOption (by decide +kernel), ok_of_toOption (by decide +kernel)⟩

theorem tree_diff_exact_iff_dot : ∃ changes,
    treeDiff dotObjects .sha1 2 (some (toyId .tree dotTree)) (some (toyId .tree plainTree)) [] = .ok changes ∧
      ((∀ path, changesAt changes path = plainAt dotLeaves plainLeaves path) ↔
        Aligned dotObjects .sha1 2 (some (toyId .tree dotTree)) (some (toyId .tree plainTree)) []) :=
  tree_diff_exact_iff wellNamed_dotObjects.1 wellNamed_dotObjects.2 flattened_dotObjects.1
    flattened_dotObjects.2

/-- **An unchanged file is reported.**  `a.b` sorts before the directory `a` in git's order; when it
    is deleted, `a/x` is reported as added and as deleted. -/
theorem unchanged_file_is_reported :
    GitOrdered dotEntries ∧ GitOrdered plainEntries ∧
      readEntries dotObjects .sha1 (some (toyId .tree dotTree)) = .ok dotEntries ∧
      readEntries dotObjects .sha1 (some (toyId .tree plainTree)) = .ok plainEntries ∧
      flattened dotObjects .sha1 2 (some (toyId .tree dotTree)) = .ok dotLeaves ∧
      flattened dotObjects .sha1 2 (some (toyId .tree plainTree)) = .ok plainLeaves ∧
      ∃ changes, treeDiff dotObjects .sha1 2 (some (toyId .tree dotTree)) (some (toyId .tree plainTree)) [] =
          .ok changes ∧
        ¬∀ path, changesAt changes path = plainAt dotLeaves plainLeaves path := by
  refine ⟨by decide +kernel, by decide +kernel, read_dotObjects.1, read_dotObjects.2.1, flattened_dotObjects.1,
    flattened_dotObjects.2,
    [([0x61, 0x2f, 0x78], none, some ⟨toyId .blob [1], regular⟩),
      ([0x61, 0x2e, 0x62], some ⟨toyId .blob [2], regular⟩, none),
      ([0x61, 0x2f, 0x78], some ⟨toyId .blob [1], regular⟩, none)], ok_of_toOption (by decide +kernel),
    fun h => ?_⟩
  have hlength := length_plainAt_le dotLeaves plainLeaves [0x61, 0x2f, 0x78]
  rw [← h] at hlength
  exact absurd hlength (by decide)

end Alt.Repo
