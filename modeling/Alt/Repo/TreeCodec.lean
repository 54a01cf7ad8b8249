import Alt.Repo.TreeDiff
import Alt.Repo.TreeRuns

namespace Alt.Repo

open Alt.Library Alt.Odb List

/-!
# Writing a tree and flattening it (`alt-worktree/src/lib.rs`, `write_tree`, `flatten_tree`)

What `writeSubtree` stores does not depend on the database: `builtLevel` is the level it writes and
`builtTrees` are the trees, those below first.

* `writeSubtree_eq` — it stores these trees, and returns the id of the last one;
* `flatten_built` — in a database that has them, the tree flattens to its paths;
* `canonical_builtTrees` — each is in git's order, and none is empty but for the root of nothing.
-/

section

variable (P : Prims) (algo : HashAlgo)

/-- The id of a tree. -/
def treeId (data : Bytes) : ObjectId := ObjectId.hashObject P algo .tree data

/-- The id of a tree with these entries. -/
def levelId (level : List Flat) : ObjectId := treeId P algo (levelBytes level)

/-- The level that is written for these paths. -/
def builtLevel : Nat → List Flat → List Flat
  | 0, _ => []
  | fuel + 1, entries =>
    ((entries.splitBy sameDir).filterMap
      (runEntry fun sub => levelId P algo (builtLevel fuel sub))).insertionSort (byTreeKey · ·)

/-- The trees that are written for what is inside a run. -/
def runTrees (treesOf : List Flat → List Bytes) : List Flat → List Bytes
  | [] => []
  | first :: rest =>
    match splitFirst slash first.1 with
    | none => []
    | some (dir, _) => treesOf (inside dir (first :: rest))

/-- The trees that are written for these paths. -/
def builtTrees : Nat → List Flat → List Bytes
  | 0, _ => []
  | fuel + 1, entries =>
    (entries.splitBy sameDir).flatMap (runTrees (builtTrees fuel)) ++
      [levelBytes (builtLevel P algo (fuel + 1) entries)]

/-- A tree put under its id. -/
def putTree (objects : Objects) (data : Bytes) : Objects :=
  if (objects (treeId P algo data)).isSome then objects
  else Function.update objects (treeId P algo data) (some ⟨.tree, data⟩)

end

variable {P : Prims} {algo : HashAlgo}

/-! ### What is written -/

theorem algo_treeId (data : Bytes) : (treeId P algo data).algo = algo := by
  cases algo <;> rfl

theorem store_tree (objects : Objects) (data : Bytes) :
    store P algo .tree data objects = .ok (treeId P algo data) (putTree P algo objects data) := by
  have hput : objects.put P (ObjectId.hashObject P algo .tree data) .tree data
      = .ok (putTree P algo objects data) := by
    have halgo : (ObjectId.hashObject P algo .tree data).algo = algo := algo_treeId data
    rw [Objects.put, putTree, treeId, halgo]
    split
    · rfl
    · exact if_neg fun hne => hne rfl
  simp only [store, hput]
  rfl

/-- How one run is written, by what writes the tree of a directory. -/
def writeRun (write : List Flat → OdbM ObjectId) : List Flat → OdbM Flat
  | [] => throw .panic
  | first :: rest =>
    match splitFirst slash first.1 with
    | none => pure first
    | some (dir, _) => do
      let sub ← write (inside dir (first :: rest))
      pure (dir, sub, directory)

theorem writeSubtree_succ (fuel : Nat) (entries : List Flat) :
    writeSubtree P algo (fuel + 1) entries =
      ((entries.splitBy sameDir).mapM (writeRun (writeSubtree P algo fuel)) >>= fun level =>
        store P algo .tree (levelBytes (level.insertionSort (byTreeKey · ·)))) := by
  rw [writeSubtree]
  refine congrArg (fun run : List Flat → OdbM Flat => (entries.splitBy sameDir).mapM run >>= fun level =>
    store P algo .tree (levelBytes (level.insertionSort (byTreeKey · ·)))) (funext fun group => ?_)
  cases group with
  | nil => rfl
  | cons first rest =>
    rw [writeRun]
    rfl

/-- One run after another, the trees of each put in front of the next. -/
theorem mapM_writeRun {write : List Flat → OdbM ObjectId} {idOf : List Flat → ObjectId}
    {treesOf : List Flat → List Bytes} {groups : List (List Flat)} (objects : Objects)
    (h : ∀ g ∈ groups, ∃ f, runEntry idOf g = some f ∧
      ∀ s, writeRun write g s = .ok f ((runTrees treesOf g).foldl (putTree P algo) s)) :
    groups.mapM (writeRun write) objects = .ok (groups.filterMap (runEntry idOf))
      ((groups.flatMap (runTrees treesOf)).foldl (putTree P algo) objects) := by
  induction groups generalizing objects with
  | nil => rfl
  | cons g groups ih =>
    obtain ⟨f, hf, hrun⟩ := h g mem_cons_self
    have hrest := ih ((runTrees treesOf g).foldl (putTree P algo) objects)
      fun g' hg' => h g' (mem_cons_of_mem g hg')
    rw [mapM_cons, filterMap_cons, hf, flatMap_cons, foldl_append]
    rw [run_bind_ok (hrun objects), run_bind_ok hrest]
    rfl

variable {fuel : Nat} {entries : List Flat}

/-- **What `writeSubtree` does**: it puts the built trees, and returns the id of the level. -/
theorem writeSubtree_eq (objects : Objects) (hfuel : ∀ e ∈ entries, e.1.length < fuel)
    (hpos : 0 < fuel) :
    writeSubtree P algo fuel entries objects = .ok (levelId P algo (builtLevel P algo fuel entries))
      ((builtTrees P algo fuel entries).foldl (putTree P algo) objects) := by
  induction fuel generalizing entries objects with
  | zero => cases hpos
  | succ fuel ih =>
    have hruns : (entries.splitBy sameDir).mapM (writeRun (writeSubtree P algo fuel)) objects
        = .ok ((entries.splitBy sameDir).filterMap
            (runEntry fun sub => levelId P algo (builtLevel P algo fuel sub)))
          (((entries.splitBy sameDir).flatMap (runTrees (builtTrees P algo fuel))).foldl
            (putTree P algo) objects) := by
      refine mapM_writeRun objects fun g hg => ?_
      cases g with
      | nil => exact absurd hg (nil_notMem_splitBy sameDir entries)
      | cons first rest =>
        have hsub : first :: rest ⊆ entries := by
          intro e he
          rw [← flatten_splitBy sameDir entries]
          exact mem_flatten.mpr ⟨_, hg, he⟩
        rw [runEntry, runTrees, writeRun]
        cases hsplit : splitFirst slash first.1 with
        | none => exact ⟨first, rfl, fun s => rfl⟩
        | some parts =>
          obtain ⟨dir, tail⟩ := parts
          refine ⟨_, rfl, fun s => ?_⟩
          have hlen := congrArg List.length (splitFirst_eq_some.mp hsplit).1
          rw [length_append, length_cons] at hlen
          have hfirst := hfuel first (hsub mem_cons_self)
          have hinside : ∀ e ∈ inside dir (first :: rest), e.1.length < fuel := by
            intro e he
            obtain ⟨e', he', rfl⟩ := mem_map.mp he
            have hlt := hfuel e' (hsub he')
            rw [length_drop]
            omega
          have hrun := @ih (inside dir (first :: rest)) s hinside (by omega)
          exact run_bind_ok hrun
    rw [writeSubtree_succ, builtTrees, foldl_append]
    rw [run_bind_ok hruns, store_tree]
    rfl

/-! ### What is stored -/

/-- No two of the trees have one id, and nothing else is stored under it. -/
structure TreesApart (P : Prims) (algo : HashAlgo) (objects : Objects) (trees : List Bytes) : Prop where
  inj : ∀ t ∈ trees, ∀ t' ∈ trees, treeId P algo t = treeId P algo t' → t = t'
  stored : ∀ t ∈ trees, ∀ object, objects (treeId P algo t) = some object → object = ⟨.tree, t⟩

theorem within_putTree (objects : Objects) (data : Bytes) :
    Within objects (putTree P algo objects data) := by
  intro id object hid
  rw [putTree]
  split
  · exact hid
  · rename_i habsent
    have hne : id ≠ treeId P algo data := by
      rintro rfl
      rw [hid] at habsent
      exact habsent rfl
    rwa [Function.update_of_ne hne]

theorem within_putTrees (objects : Objects) (trees : List Bytes) :
    Within objects (trees.foldl (putTree P algo) objects) := by
  induction trees generalizing objects with
  | nil => exact .refl objects
  | cons t trees ih => exact (within_putTree objects t).trans (ih _)

variable {objects : Objects} {data : Bytes}

/-- What is under the id of a tree that was put. -/
theorem putTree_self
    (h : ∀ object, objects (treeId P algo data) = some object → object = ⟨.tree, data⟩) :
    putTree P algo objects data (treeId P algo data) = some ⟨.tree, data⟩ := by
  rw [putTree]
  split
  · rename_i hstored
    obtain ⟨object, hobject⟩ := Option.isSome_iff_exists.mp hstored
    rw [hobject, h object hobject]
  · exact Function.update_self ..

theorem TreesApart.tail {t : Bytes} {trees : List Bytes}
    (h : TreesApart P algo objects (t :: trees)) :
    TreesApart P algo (putTree P algo objects t) trees where
  inj a ha b hb := h.inj a (mem_cons_of_mem t ha) b (mem_cons_of_mem t hb)
  stored a ha object hobject := by
    by_cases hid : treeId P algo a = treeId P algo t
    · obtain rfl := h.inj a (mem_cons_of_mem t ha) t mem_cons_self hid
      rw [putTree_self (h.stored a mem_cons_self)] at hobject
      exact (Option.some.inj hobject).symm
    · rw [putTree] at hobject
      split at hobject
      · exact h.stored a (mem_cons_of_mem t ha) object hobject
      · rw [Function.update_of_ne hid] at hobject
        exact h.stored a (mem_cons_of_mem t ha) object hobject

/-- Trees that are apart are all there once they were put. -/
theorem TreesApart.putTrees {trees : List Bytes} (h : TreesApart P algo objects trees) :
    ∀ t ∈ trees, trees.foldl (putTree P algo) objects (treeId P algo t) = some ⟨.tree, t⟩ := by
  induction trees generalizing objects with
  | nil => nofun
  | cons t trees ih =>
    intro a ha
    rcases mem_cons.mp ha with rfl | ha
    · exact within_putTrees _ trees (putTree_self (h.stored a mem_cons_self))
    · exact ih h.tail a ha

/-! ### Canonical trees -/

/-- An entry as it is written. -/
def flatEntry (e : TreeEntry) : Flat := (e.name, e.oid, e.mode.value)

/-- A tree as git writes it: in git's order, each name once and a name, each mode in its octal digits,
    and directories of one mode. -/
structure CanonicalTree (es : List TreeEntry) : Prop where
  ordered : GitOrdered es
  names : (es.map TreeEntry.name).Nodup
  named : ∀ e ∈ es, e.name ≠ [] ∧ slash ∉ e.name
  octal : ∀ e ∈ es, e.mode.bytes = octal e.mode.value
  dirs : ∀ e ∈ es, isTree e = true → e.mode.value = directory

variable {es : List TreeEntry}

theorem serialize_canonical (h : ∀ e ∈ es, e.mode.bytes = octal e.mode.value) :
    (Tree.mk es).serialize = levelBytes (es.map flatEntry) := by
  rw [Tree.serialize, levelBytes, flatMap_map]
  refine flatMap_congr fun e he => ?_
  rw [Tree.serializeEntry, h e he]
  rfl

/-! ### What is built is canonical -/

/-- The modes of an entry that is not a directory. -/
def fileModes : List UInt32 := [regular, executable, symlinkMode, gitlink]

/-- Components that are not empty, without NUL. -/
def PathOk (path : Bytes) : Prop := ∀ c ∈ path.splitOn slash, c ≠ [] ∧ (0 : UInt8) ∉ c

theorem pathOk_file {path : Bytes} (hslash : slash ∉ path) (h : PathOk path) :
    path ≠ [] ∧ (0 : UInt8) ∉ path := by
  rw [PathOk, splitOn_eq_singleton hslash] at h
  exact h path (mem_singleton.mpr rfl)

variable {dir : Bytes}

theorem pathOk_below {tail : Bytes} (hslash : slash ∉ dir) :
    PathOk (dir ++ slash :: tail) ↔ (dir ≠ [] ∧ (0 : UInt8) ∉ dir) ∧ PathOk tail := by
  rw [PathOk, splitOn_append_cons_self_of_not_mem hslash, forall_mem_cons]
  rfl

/-- Paths that a tree can be built of: in order, none a directory of another, each with components, a
    mode and an id that a tree can hold. -/
structure Tidy (algo : HashAlgo) (entries : List Flat) : Prop where
  ascending : Ascending entries
  prefixFree : PrefixFree entries
  paths : ∀ e ∈ entries, PathOk e.1
  modes : ∀ e ∈ entries, e.2.2 ∈ fileModes
  ids : ∀ e ∈ entries, e.2.1.algo = algo

theorem Tidy.inside (h : Tidy algo entries) {d : Bytes} (hdir : DirRun entries d) :
    Tidy algo (inside d (runOf entries d)) := by
  obtain ⟨hasc, hfree⟩ := inside_runOf h.ascending h.prefixFree hdir
  refine ⟨hasc, hfree, fun e he => ?_, fun e he => ?_, fun e he => ?_⟩
  · obtain ⟨e', he', hpath, -⟩ := mem_inside hdir he
    have hok := h.paths e' (mem_runOf.mp he').1
    rw [hpath, pathOk_below hdir.name] at hok
    exact hok.2
  · obtain ⟨e', he', -, heq⟩ := mem_inside hdir he
    exact heq ▸ h.modes e' (mem_runOf.mp he').1
  · obtain ⟨e', he', -, heq⟩ := mem_inside hdir he
    exact heq ▸ h.ids e' (mem_runOf.mp he').1

/-- A directory has a name. -/
theorem Tidy.dir_ok (h : Tidy algo entries) {d : Bytes} (hdir : DirRun entries d) :
    d ≠ [] ∧ (0 : UInt8) ∉ d := by
  obtain ⟨e, he⟩ := exists_mem_of_ne_nil _ hdir.ne_nil
  have hok := h.paths e (mem_runOf.mp he).1
  rw [hdir.below e he, pathOk_below hdir.name] at hok
  exact hok.1

theorem exists_mode {mode : UInt32} (h : mode ∈ directory :: fileModes) :
    ∃ m : EntryMode, m.bytes = octal mode ∧ m.value = mode := by
  have hall : ∀ mode ∈ directory :: fileModes, ∃ m : EntryMode, EntryMode.fromBytes (octal mode) = .ok m ∧
      m.value = mode := by
    intro mode h
    simp only [fileModes, mem_cons, not_mem_nil, or_false] at h
    rcases h with rfl | rfl | rfl | rfl | rfl
    · exact ⟨⟨octal directory, by decide, by decide, by decide⟩, by decide, by decide⟩
    · exact ⟨⟨octal regular, by decide, by decide, by decide⟩, by decide, by decide⟩
    · exact ⟨⟨octal executable, by decide, by decide, by decide⟩, by decide, by decide⟩
    · exact ⟨⟨octal symlinkMode, by decide, by decide, by decide⟩, by decide, by decide⟩
    · exact ⟨⟨octal gitlink, by decide, by decide, by decide⟩, by decide, by decide⟩
  obtain ⟨m, hm, hvalue⟩ := hall mode h
  exact ⟨m, EntryMode.bytes_of_fromBytes hm, hvalue⟩

/-- Only the mode of a directory is a tree's. -/
theorem kind_of_mode {m : EntryMode} (h : m.value ∈ directory :: fileModes) :
    m.objectKind = .tree ↔ m.value = directory := by
  rw [EntryMode.objectKind]
  simp only [fileModes, mem_cons, not_mem_nil, or_false] at h
  rcases h with h | h | h | h | h
  all_goals
    rw [h]
    decide

/-- What an entry of a level is written with. -/
structure EntryOk (algo : HashAlgo) (f : Flat) : Prop where
  named : f.1 ≠ [] ∧ slash ∉ f.1
  nul : (0 : UInt8) ∉ f.1
  mode : f.2.2 ∈ directory :: fileModes
  id : f.2.1.algo = algo

theorem Stands.entryOk {idOf : List Flat → ObjectId} {f : Flat} (h : Tidy algo entries)
    (hid : ∀ sub, (idOf sub).algo = algo) (hf : Stands idOf entries f) :
    EntryOk algo f := by
  cases hf with
  | file hrun hslash =>
    have hmem := (mem_runOf.mp (hrun ▸ mem_singleton.mpr rfl : f ∈ runOf entries f.1)).1
    obtain ⟨hne, hnul⟩ := pathOk_file hslash (h.paths f hmem)
    exact ⟨⟨hne, hslash⟩, hnul, mem_cons_of_mem _ (h.modes f hmem), h.ids f hmem⟩
  | @dir d hdir =>
    obtain ⟨hne, hnul⟩ := h.dir_ok hdir
    exact ⟨⟨hne, hdir.name⟩, hnul, mem_cons_self, hid _⟩

/-- Two entries with different names have different keys. -/
theorem treeKey_inj {a b : Flat} (ha : slash ∉ a.1) (hb : slash ∉ b.1) (h : treeKey a = treeKey b) :
    a.1 = b.1 := by
  have hmem : slash ∈ treeKey a ↔ slash ∈ treeKey b := by rw [h]
  rw [treeKey, treeKey] at h hmem
  split at h
  · split at h
    · exact append_cancel_right h
    · rw [if_pos ‹_›, if_neg ‹_›] at hmem
      exact absurd (hmem.mp (by simp)) hb
  · split at h
    · rw [if_neg ‹_›, if_pos ‹_›] at hmem
      exact absurd (hmem.mpr (by simp)) ha
    · exact h

instance : Std.Total fun a b : Flat => byTreeKey a b = true where
  total a b := by
    have hswap : compare (treeKey b) (treeKey a) = (compare (treeKey a) (treeKey b)).swap :=
      Std.OrientedCmp.eq_swap
    rw [byTreeKey, byTreeKey, hswap]
    cases compare (treeKey a) (treeKey b)
    · exact .inl rfl
    · exact .inl rfl
    · exact .inr rfl

instance : IsTrans Flat fun a b => byTreeKey a b = true where
  trans _ _ _ h h' := Std.TransCmp.isLE_trans h h'

/-- Sorting distinct names puts them in git's order. -/
theorem sorted_level {level : List Flat} (hnames : (level.map Prod.fst).Nodup)
    (hslash : ∀ f ∈ level, slash ∉ f.1) : (level.insertionSort (byTreeKey · ·)).Pairwise
      fun a b => compare (treeKey a) (treeKey b) = .lt := by
  have hperm := perm_insertionSort (byTreeKey · ·) level
  have hsorted : (level.insertionSort (byTreeKey · ·)).Pairwise (byTreeKey · ·) :=
    pairwise_insertionSort _ level
  have hdistinct : (level.insertionSort (byTreeKey · ·)).Pairwise fun a b => a.1 ≠ b.1 :=
    pairwise_map.mp ((hperm.map Prod.fst).nodup_iff.mpr hnames)
  refine (hsorted.and hdistinct).imp_of_mem fun {a b} ha hb ⟨hle, hne⟩ => ?_
  rw [byTreeKey] at hle
  cases hcompare : compare (treeKey a) (treeKey b) with
  | lt => rfl
  | eq =>
    have hkey := Std.LawfulEqCmp.eq_of_compare hcompare
    exact absurd (treeKey_inj (hslash a (hperm.subset ha)) (hslash b (hperm.subset hb)) hkey) hne
  | gt =>
    rw [hcompare] at hle
    cases hle

/-- A level of writable entries is a list of tree entries. -/
theorem exists_entries {level : List Flat} (h : ∀ f ∈ level, EntryOk algo f) :
    ∃ es : List TreeEntry, es.map flatEntry = level ∧ (∀ e ∈ es, Tree.Readable algo e) ∧
      ∀ e ∈ es, e.mode.bytes = octal e.mode.value := by
  induction level with
  | nil => exact ⟨[], rfl, nofun, nofun⟩
  | cons f level ih =>
    obtain ⟨es, hes, hread, hoctal⟩ := ih fun f' hf' => h f' (mem_cons_of_mem f hf')
    have hf := h f mem_cons_self
    obtain ⟨m, hbytes, hvalue⟩ := exists_mode hf.mode
    refine ⟨⟨m, f.1, f.2.1⟩ :: es, ?_, ?_, ?_⟩
    · rw [map_cons, hes, flatEntry, hvalue]
    · exact forall_mem_cons.mpr ⟨⟨hf.nul, hf.id⟩, hread⟩
    · refine forall_mem_cons.mpr ⟨?_, hoctal⟩
      rw [hvalue, hbytes]

/-- The tree of a level: what is written for it, and what its entries stand for. -/
structure LevelTree (P : Prims) (algo : HashAlgo) (fuel : Nat) (entries : List Flat)
    (es : List TreeEntry) : Prop where
  level : builtLevel P algo (fuel + 1) entries = es.map flatEntry
  readable : ∀ e ∈ es, Tree.Readable algo e
  canonical : CanonicalTree es
  stands : ∀ e ∈ es, Stands (fun sub => levelId P algo (builtLevel P algo fuel sub)) entries (flatEntry e)
  runs : entries.Perm ((es.map TreeEntry.name).flatMap (runOf entries))

theorem exists_levelTree (h : Tidy algo entries) (fuel : Nat) :
    ∃ es, LevelTree P algo fuel entries es := by
  let idOf : List Flat → ObjectId := fun sub => levelId P algo (builtLevel P algo fuel sub)
  obtain ⟨hnames, -, hruns, hstands⟩ := level_spec h.ascending h.prefixFree idOf rfl
  have hperm := perm_insertionSort (byTreeKey · ·) ((entries.splitBy sameDir).filterMap (runEntry idOf))
  have hok : ∀ f ∈ builtLevel P algo (fuel + 1) entries, EntryOk algo f := by
    intro f hf
    exact (hstands f (hperm.subset hf)).entryOk h fun sub => algo_treeId _
  obtain ⟨es, hes, hread, hoctal⟩ := exists_entries hok
  have hflat : ∀ e ∈ es, flatEntry e ∈ builtLevel P algo (fuel + 1) entries :=
    fun e he => hes ▸ mem_map_of_mem he
  have hnameOf : es.map TreeEntry.name = (builtLevel P algo (fuel + 1) entries).map Prod.fst := by
    rw [← hes, map_map]
    rfl
  refine ⟨es, hes.symm, hread, ⟨?_, ?_, ?_, hoctal, ?_⟩, fun e he => hstands _ (hperm.subset (hflat e he)), ?_⟩
  · have hsorted := sorted_level hnames fun f hf =>
      ((hstands f hf).entryOk h fun sub => algo_treeId _).named.2
    rw [GitOrdered]
    change (es.map flatEntry).Pairwise _
    rw [hes]
    exact hsorted
  · rw [hnameOf]
    exact (hperm.map Prod.fst).nodup_iff.mpr hnames
  · exact fun e he => (hok _ (hflat e he)).named
  · intro e he htree
    exact (kind_of_mode (hok _ (hflat e he)).mode).mp (of_decide_eq_true htree)
  · have hjoin : (((entries.splitBy sameDir).filterMap (runEntry idOf)).map Prod.fst).flatMap (runOf entries)
        = entries := by
      rw [flatMap_def, ← hruns, flatten_splitBy]
    rw [hnameOf]
    refine List.Perm.trans ?_ ((hperm.map Prod.fst).flatMap_right (runOf entries)).symm
    rw [hjoin]

/-- The trees that are built: those of each directory, and the level. -/
theorem mem_builtTrees (h : Tidy algo entries) :
    data ∈ builtTrees P algo (fuel + 1) entries ↔
      (∃ d, DirRun entries d ∧ data ∈ builtTrees P algo fuel (inside d (runOf entries d))) ∨
        data = levelBytes (builtLevel P algo (fuel + 1) entries) := by
  obtain ⟨-, hmem, hruns, -⟩ := level_spec h.ascending h.prefixFree (fun _ => treeId P algo []) rfl
  rw [builtTrees, mem_append, mem_singleton, hruns, mem_flatMap]
  refine or_congr_left ⟨?_, ?_⟩
  · rintro ⟨run, hrun, hdata⟩
    obtain ⟨d, hd, rfl⟩ := mem_map.mp hrun
    rcases runOf_cases h.ascending h.prefixFree ((hmem d).mp hd) with ⟨f, hone, -, hfile⟩ | hdir
    · rw [hone, runTrees, splitFirst_eq_none.mpr hfile] at hdata
      cases hdata
    · refine ⟨d, hdir, ?_⟩
      cases hcut : runOf entries d with
      | nil => exact absurd hcut hdir.ne_nil
      | cons first rest =>
        have hfirst := hdir.below first (hcut ▸ mem_cons_self)
        rwa [hcut, runTrees, splitFirst_eq_some.mpr ⟨hfirst, hdir.name⟩] at hdata
  · rintro ⟨d, hdir, hdata⟩
    cases hcut : runOf entries d with
    | nil => exact absurd hcut hdir.ne_nil
    | cons first rest =>
      have hin : first ∈ runOf entries d := hcut ▸ mem_cons_self
      have hd := (hmem d).mpr ⟨first, (mem_runOf.mp hin).1, (mem_runOf.mp hin).2⟩
      refine ⟨runOf entries d, mem_map_of_mem hd, ?_⟩
      rw [hcut, runTrees, splitFirst_eq_some.mpr ⟨hdir.below first hin, hdir.name⟩]
      rwa [hcut] at hdata

/-- **Every tree that is built is canonical**, and empty only where there is nothing. -/
theorem canonical_builtTrees (h : Tidy algo entries)
    (hdata : data ∈ builtTrees P algo fuel entries) : ∃ es, CanonicalTree es ∧
      Tree.parse data algo = .ok ⟨es⟩ ∧ (entries ≠ [] → es ≠ []) := by
  induction fuel generalizing entries with
  | zero => cases hdata
  | succ fuel ih =>
    rcases (mem_builtTrees h).mp hdata with ⟨d, hdir, hsub⟩ | rfl
    · obtain ⟨es, hcanonical, hparse, hne⟩ := ih (h.inside hdir) hsub
      exact ⟨es, hcanonical, hparse, fun _ => hne (inside_ne_nil hdir)⟩
    · obtain ⟨es, hes⟩ := exists_levelTree (P := P) h fuel
      refine ⟨es, hes.canonical, ?_, ?_⟩
      · rw [hes.level, ← serialize_canonical hes.canonical.octal]
        exact (Tree.parse_serialize_iff ⟨es⟩ algo).mpr hes.readable
      · rintro hne rfl
        exact hne (perm_nil.mp hes.runs)

/-! ### Flattening what is built -/

/-- A path seen from `front`. -/
def placed (front : Bytes) (f : Flat) : WorkEntry := ⟨under front f.1, f.2.1, f.2.2⟩

theorem under_under {front : Bytes} (hdir : dir ≠ []) (name : Bytes) :
    under (under front dir) name = under front (under dir name) := by
  rw [under, if_neg (under_ne_nil hdir)]
  rw [under, under, under, if_neg hdir]
  split
  · rfl
  · rw [append_assoc]
    rfl

theorem map_placed_under (hdir : dir ≠ []) (front : Bytes) (fs : List Flat) :
    fs.map (placed (under front dir)) = (fs.map fun f => (under dir f.1, f.2)).map (placed front) := by
  rw [map_map]
  refine map_congr_left fun f _ => ?_
  rw [Function.comp_apply, placed, placed, under_under hdir]

/-- Flattening a tree that can be read flattens its entries. -/
theorem flattenInto_succ {tree : ObjectId} {front : Bytes} {leaves : TreeEntry → List WorkEntry}
    (hread : readEntries objects algo (some tree) = .ok es)
    (h : ∀ e ∈ es, flattenEntry objects algo fuel front e = .ok (leaves e)) :
    flattenInto objects algo (fuel + 1) tree front = .ok (es.flatMap leaves) := by
  have hparts : es.mapM (flattenEntry objects algo fuel front) = .ok (es.map leaves) := mapM_eq_ok h
  rw [readEntries] at hread
  rw [flattenInto]
  cases hobject : objects tree with
  | none =>
    rw [hobject] at hread
    cases hread
  | some obj =>
    rw [hobject] at hread
    dsimp only at hread ⊢
    by_cases hkind : obj.kind ≠ .tree
    · rw [if_pos hkind] at hread
      cases hread
    · rw [if_neg hkind] at hread ⊢
      cases hparse : Tree.parse obj.data algo with
      | error e =>
        rw [hparse] at hread
        cases hread
      | ok parsed =>
        rw [hparse] at hread
        cases hread
        change (parsed.entries.mapM (flattenEntry objects algo fuel front) >>= fun parts =>
          pure parts.flatten) = _
        rw [hparts, flatMap_def]
        rfl

theorem readEntries_of_parse {tree : ObjectId} (hobject : objects tree = some ⟨.tree, data⟩)
    (hparse : Tree.parse data algo = .ok ⟨es⟩) :
    readEntries objects algo (some tree) = .ok es := by
  rw [readEntries, hobject]
  dsimp only
  rw [if_neg (not_not.mpr rfl), hparse]

/-- The trees that are built for these paths are stored. -/
def HoldsBuilt (P : Prims) (algo : HashAlgo) (objects : Objects) (fuel : Nat) (entries : List Flat) : Prop :=
  ∀ t ∈ builtTrees P algo fuel entries, objects (treeId P algo t) = some ⟨.tree, t⟩

/-- **What is built flattens to its paths**, wherever it is put. -/
theorem flatten_built {depth : Nat} (h : Tidy algo entries)
    (hfuel : ∀ e ∈ entries, e.1.length < fuel) (hpos : 0 < fuel) (hdepth : fuel ≤ depth)
    (hholds : HoldsBuilt P algo objects fuel entries) (front : Bytes) :
    ∃ ws, flattenInto objects algo depth (levelId P algo (builtLevel P algo fuel entries)) front = .ok ws ∧
      ws.Perm (entries.map (placed front)) := by
  induction fuel generalizing depth entries front with
  | zero => cases hpos
  | succ fuel ih =>
    obtain ⟨depth, rfl⟩ : ∃ n, depth = n + 1 := ⟨depth - 1, by omega⟩
    obtain ⟨es, hes⟩ := exists_levelTree (P := P) h fuel
    have hleaves : ∀ e ∈ es, flattenEntry objects algo depth front e
          = .ok (leavesOf objects algo depth front e) ∧
        (leavesOf objects algo depth front e).Perm ((runOf entries e.name).map (placed front)) := by
      intro e he
      have hstands := hes.stands e he
      generalize hf : flatEntry e = f at hstands
      cases hstands with
      | file hrun hslash =>
        subst hf
        have hmode : e.mode.value ∈ fileModes := by
          have hmem := mem_runOf.mp (hrun ▸ mem_singleton.mpr rfl : flatEntry e ∈ _)
          exact h.modes _ hmem.1
        have hkind : isTree e = false := by
          rw [isTree, decide_eq_false_iff_not, kind_of_mode (mem_cons_of_mem _ hmode)]
          intro heq
          rw [heq] at hmode
          exact absurd hmode (by decide)
        rw [leavesOf, flattenEntry_of_file hkind]
        refine ⟨rfl, ?_⟩
        have hrun' : runOf entries e.name = [flatEntry e] := hrun
        rw [hrun']
        exact .refl _
      | @dir d hdir =>
        obtain ⟨rfl, hoid, hmode⟩ : e.name = d ∧
            e.oid = levelId P algo (builtLevel P algo fuel (inside d (runOf entries d))) ∧
            e.mode.value = directory := by
          simpa only [flatEntry, Prod.mk.injEq] using hf
        have hname := (h.dir_ok hdir).1
        have hkind : isTree e = true := by
          rw [isTree, decide_eq_true_eq, kind_of_mode (hmode ▸ mem_cons_self)]
          exact hmode
        obtain ⟨hshort, hfuel'⟩ := length_inside hdir hfuel
        obtain ⟨ws, hws, hperm⟩ := ih (h.inside hdir) hshort hfuel' (by omega : fuel ≤ depth)
          (fun t ht => hholds t ((mem_builtTrees h).mpr (.inl ⟨_, hdir, ht⟩))) (under front e.name)
        rw [leavesOf, flattenEntry_of_tree hkind, flattenSide, hoid, hws]
        refine ⟨rfl, hperm.trans ?_⟩
        rw [map_placed_under hname, map_inside hname hdir]
    have hroot := hholds _ ((mem_builtTrees h).mpr (.inr rfl))
    have hparse : Tree.parse (levelBytes (builtLevel P algo (fuel + 1) entries)) algo = .ok ⟨es⟩ := by
      rw [hes.level, ← serialize_canonical hes.canonical.octal]
      exact (Tree.parse_serialize_iff ⟨es⟩ algo).mpr hes.readable
    refine ⟨es.flatMap (leavesOf objects algo depth front), ?_, ?_⟩
    · exact flattenInto_succ (readEntries_of_parse hroot hparse) fun e he => (hleaves e he).1
    · have hperm : (es.flatMap (leavesOf objects algo depth front)).Perm
          (es.flatMap fun e => (runOf entries e.name).map (placed front)) :=
        List.Perm.flatMap_left es fun e he => (hleaves e he).2
      refine hperm.trans ?_
      have hmap : (es.flatMap fun e => (runOf entries e.name).map (placed front))
          = ((es.map TreeEntry.name).flatMap (runOf entries)).map (placed front) := by
        rw [map_flatMap, flatMap_map]
      rw [hmap]
      exact (hes.runs.map (placed front)).symm

end Alt.Repo
