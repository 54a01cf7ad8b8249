import Alt.Repo.TreeCodec

namespace Alt.Repo

open Alt.Library Alt.Odb List

/-!
# Flattening and writing back (`alt-worktree/src/lib.rs`, `write_tree`, `flatten_tree`)

A tree that is in git's order, without empty subtrees, is the only one with its paths; so writing
them back gives its id.

* `builtLevel_pathsUnder` — a canonical tree is the level that is built of its paths;
* `flattens_of_canonical` — so is every tree below it;
* `tree_round_trip` — `writeTree` and `flattenTree` are inverse, both ways.
-/

variable {P : Prims} {algo : HashAlgo}

/-! ### Writing back what was flattened -/

/-- Objects are stored under what they hash to. -/
def Hashed (P : Prims) (objects : Objects) : Prop :=
  ∀ id object, objects id = some object → ObjectId.hashObject P id.algo object.kind object.data = id

/-- A tree and its subtrees are canonical, and no subtree is empty. -/
def CanonicalBelow (objects : Objects) (algo : HashAlgo) : Nat → ObjectId → Prop
  | 0, _ => True
  | fuel + 1, tree => ∀ es, readEntries objects algo (some tree) = .ok es → CanonicalTree es ∧
      ∀ e ∈ es, isTree e = true →
        readEntries objects algo (some e.oid) ≠ .ok [] ∧ CanonicalBelow objects algo fuel e.oid

variable {objects : Objects} {fuel : Nat} {tree : ObjectId}

theorem CanonicalBelow.wellNamed (h : CanonicalBelow objects algo fuel tree) :
    WellNamed objects algo fuel (some tree) := by
  induction fuel generalizing tree with
  | zero => trivial
  | succ fuel ih =>
    intro es hread
    obtain ⟨hcanonical, hsub⟩ := h es hread
    exact ⟨hcanonical.names, fun e he =>
      ⟨hcanonical.named e he, fun htree => ih (hsub e he htree).2⟩⟩

/-- The entries of a tree that is stored under its hash. -/
theorem readEntries_hashed {es : List TreeEntry} (hhashed : Hashed P objects)
    (halgo : tree.algo = algo) (h : readEntries objects algo (some tree) = .ok es) :
    treeId P algo (Tree.mk es).serialize = tree ∧ ∀ e ∈ es, e.oid.algo = algo := by
  rw [readEntries] at h
  split at h
  · cases h
  rename_i obj hobject
  by_cases hkind : obj.kind ≠ .tree
  · rw [if_pos hkind] at h
    cases h
  · rw [if_neg hkind] at h
    split at h
    · cases h
    rename_i parsed hparse
    cases h
    have hid := hhashed tree obj hobject
    have hserialize := Tree.serialize_of_parse hparse
    refine ⟨?_, fun e he => ((Tree.parse_serialize_iff parsed algo).mp ?_ e he).oid⟩
    · rw [treeId, hserialize, ← halgo, ← not_not.mp hkind]
      exact hid
    · rw [hserialize, hparse]

/-- The paths of what flattens to something, seen from where it is. -/
structure Flattens (P : Prims) (objects : Objects) (algo : HashAlgo) (fuel : Nat) (tree : ObjectId)
    (fs : List Flat) : Prop where
  flat : ∀ front, flattenInto objects algo fuel tree front = .ok (fs.map (placed front))
  prefixFree : PrefixFree fs
  ne_nil : readEntries objects algo (some tree) ≠ .ok [] → fs ≠ []
  built : ∀ sorted : List Flat, sorted.Perm fs → Ascending sorted → ∀ n, 0 < n →
    (∀ f ∈ sorted, f.1.length < n) → levelId P algo (builtLevel P algo n sorted) = tree

/-- The paths of an entry. -/
def pathsUnder (below : ObjectId → List Flat) (e : TreeEntry) : List Flat :=
  if isTree e then (below e.oid).map fun f => (under e.name f.1, f.2) else [flatEntry e]

section

variable {below : ObjectId → List Flat} {e : TreeEntry} {es : List TreeEntry}

theorem component_pathsUnder (hname : e.name ≠ [] ∧ slash ∉ e.name) {f : Flat}
    (hf : f ∈ pathsUnder below e) : component f.1 = e.name := by
  rw [pathsUnder] at hf
  split at hf
  · obtain ⟨x, -, rfl⟩ := mem_map.mp hf
    rw [under, if_neg hname.1]
    exact component_of_below hname.2 x.1
  · rw [mem_singleton.mp hf]
    exact component_of_file hname.2

theorem pathsUnder_ne_nil (h : isTree e = true → below e.oid ≠ []) : pathsUnder below e ≠ [] := by
  rw [pathsUnder]
  split
  · rename_i htree
    rw [Ne, map_eq_nil_iff]
    exact h htree
  · exact cons_ne_nil _ _

/-- The paths that start with the name of an entry are those of the entry. -/
theorem runOf_pathsUnder (h : CanonicalTree es) (he : e ∈ es) :
    runOf (es.flatMap (pathsUnder below)) e.name = pathsUnder below e := by
  have hown : runOf (pathsUnder below e) e.name = pathsUnder below e :=
    filter_eq_self.mpr fun f hf => decide_eq_true (component_pathsUnder (h.named e he) hf)
  have hother : ∀ part : List TreeEntry, (∀ d ∈ part, d ∈ es) → e.name ∉ part.map TreeEntry.name →
      runOf (part.flatMap (pathsUnder below)) e.name = [] := by
    intro part hpart hnot
    refine filter_eq_nil_iff.mpr fun f hf hcomp => ?_
    obtain ⟨d, hd, hf⟩ := mem_flatMap.mp hf
    have hname := component_pathsUnder (h.named d (hpart d hd)) hf
    exact hnot (hname.symm.trans (of_decide_eq_true hcomp) ▸ mem_map_of_mem hd)
  have hnames := h.names
  obtain ⟨before, after, rfl⟩ := append_of_mem he
  rw [map_append, map_cons, nodup_middle, nodup_cons, mem_append] at hnames
  have hbefore := hother before (fun d hd => mem_append_left _ hd) fun hmem => hnames.1 (.inl hmem)
  have hafter := hother after (fun d hd => mem_append_right _ (mem_cons_of_mem e hd))
    fun hmem => hnames.1 (.inr hmem)
  rw [runOf] at hbefore hafter hown
  rw [runOf, flatMap_append, flatMap_cons, filter_append, filter_append, hbefore, hown,
    hafter, nil_append, append_nil]

theorem inside_under {d : Bytes} (hd : d ≠ []) (fs : List Flat) :
    inside d (fs.map fun f => (under d f.1, f.2)) = fs := by
  rw [inside, map_map]
  have hsame : ∀ f ∈ fs, ((fun e : Flat => (e.1.drop (d.length + 1), e.2)) ∘
      fun f => (under d f.1, f.2)) f = f := by
    intro f _
    have hdrop : (under d f.1).drop (d.length + 1) = f.1 := by
      rw [under, if_neg hd, ← drop_drop, drop_left, drop_succ_cons, drop_zero]
    exact Prod.ext hdrop rfl
  exact (map_congr_left hsame).trans (map_id' _)

/-- No path of a tree is a directory of another, if so in its subtrees. -/
theorem prefixFree_pathsUnder (h : CanonicalTree es)
    (hbelow : ∀ e ∈ es, isTree e = true → PrefixFree (below e.oid)) :
    PrefixFree (es.flatMap (pathsUnder below)) := by
  intro a ha b hb hpre
  obtain ⟨e, he, ha⟩ := mem_flatMap.mp ha
  obtain ⟨e', he', hb⟩ := mem_flatMap.mp hb
  have hcompa := component_pathsUnder (h.named e he) ha
  have hcompb := component_pathsUnder (h.named e' he') hb
  have hcomp : component b.1 = component a.1 := by
    obtain ⟨tail, htail⟩ := hpre
    rw [append_assoc] at htail
    rcases component_cases a.1 with ⟨hfile, -⟩ | ⟨rest, hrest⟩
    · rw [← htail, component_of_file hfile]
      exact component_of_below hfile tail
    · rw [← htail, hrest, append_assoc, cons_append, component_of_below (slash_not_mem_component _),
        component_of_below (slash_not_mem_component _)]
  obtain rfl : e' = e :=
    inj_on_of_nodup_map h.names he' he (hcompb.symm.trans (hcomp.trans hcompa))
  have hname := h.named e' he
  cases htree : isTree e' with
  | true =>
    rw [pathsUnder, if_pos htree] at ha hb
    obtain ⟨x, hx, rfl⟩ := mem_map.mp ha
    obtain ⟨y, hy, rfl⟩ := mem_map.mp hb
    simp only [under, if_neg hname.1] at hpre
    rw [append_assoc, prefix_append_right_inj, cons_append, cons_prefix_cons] at hpre
    exact hbelow e' he htree x hx y hy hpre.2
  | false =>
    rw [pathsUnder, if_neg (by simp [htree]), mem_singleton] at ha hb
    rw [ha, hb] at hpre
    exact hname.2 (hpre.subset (by simp))

/-- An entry of the level with the name of an entry of the tree is that entry. -/
theorem Stands.eq_flatEntry {idOf : List Flat → ObjectId} {sorted : List Flat} {f : Flat}
    (h : CanonicalTree es) (he : e ∈ es) (hrun : (runOf sorted e.name).Perm (pathsUnder below e))
    (hid : isTree e = true → DirRun sorted e.name → idOf (inside e.name (runOf sorted e.name)) = e.oid)
    (hname : f.1 = e.name) (hf : Stands idOf sorted f) : f = flatEntry e := by
  have hnamed := h.named e he
  cases hf with
  | file hone hslash =>
    rw [hname] at hone
    rw [hone, pathsUnder] at hrun
    have hmem := hrun.subset (mem_singleton.mpr rfl)
    split at hmem
    · obtain ⟨x, -, rfl⟩ := mem_map.mp hmem
      rw [under, if_neg hnamed.1] at hslash
      exact absurd (by simp) hslash
    · exact mem_singleton.mp hmem
  | @dir d hdir =>
    obtain rfl : d = e.name := hname
    cases htree : isTree e with
    | true => rw [hid htree hdir, flatEntry, h.dirs e he htree]
    | false =>
      rw [pathsUnder, if_neg (by simp [htree])] at hrun
      have hbelow := hdir.below (flatEntry e) (hrun.symm.subset (mem_singleton.mpr rfl))
      have hmem : slash ∈ e.name := by
        rw [show e.name = (flatEntry e).1 from rfl, hbelow]
        simp
      exact absurd hmem hnamed.2

/-- **A canonical tree is the level that is built of its paths**, if so are its subtrees. -/
theorem builtLevel_pathsUnder {sorted : List Flat} {fuel : Nat} (h : CanonicalTree es)
    (hasc : Ascending sorted) (hfree : PrefixFree sorted)
    (hperm : sorted.Perm (es.flatMap (pathsUnder below)))
    (hne : ∀ e ∈ es, isTree e = true → below e.oid ≠ [])
    (hid : ∀ e ∈ es, isTree e = true → DirRun sorted e.name →
      levelId P algo (builtLevel P algo fuel (inside e.name (runOf sorted e.name))) = e.oid) :
    builtLevel P algo (fuel + 1) sorted = es.map flatEntry := by
  let idOf : List Flat → ObjectId := fun sub => levelId P algo (builtLevel P algo fuel sub)
  let level := (sorted.splitBy sameDir).filterMap (runEntry idOf)
  obtain ⟨hnames, hmem, -, hstands⟩ := @level_spec sorted hasc hfree idOf level rfl
  have hrun : ∀ e ∈ es, (runOf sorted e.name).Perm (pathsUnder below e) := by
    intro e he
    rw [← runOf_pathsUnder h he]
    exact hperm.filter _
  have heq : ∀ e ∈ es, ∀ f ∈ level, f.1 = e.name → f = flatEntry e :=
    fun e he f hf hname => (hstands f hf).eq_flatEntry h he (hrun e he) (hid e he) hname
  have hiff : ∀ f, f ∈ level ↔ f ∈ es.map flatEntry := by
    intro f
    constructor
    · intro hf
      obtain ⟨x, hx, hcomp⟩ := (hmem f.1).mp (mem_map_of_mem hf)
      obtain ⟨e, he, hx⟩ := mem_flatMap.mp (hperm.subset hx)
      have hname : f.1 = e.name := hcomp.symm.trans (component_pathsUnder (h.named e he) hx)
      rw [heq e he f hf hname]
      exact mem_map_of_mem he
    · intro hf
      obtain ⟨e, he, rfl⟩ := mem_map.mp hf
      obtain ⟨x, hx⟩ := exists_mem_of_ne_nil _ (pathsUnder_ne_nil (hne e he))
      have hin := hperm.symm.subset (mem_flatMap.mpr ⟨e, he, hx⟩)
      have hname := (hmem e.name).mpr ⟨x, hin, component_pathsUnder (h.named e he) hx⟩
      obtain ⟨f, hf, hfname⟩ := mem_map.mp hname
      rwa [← heq e he f hf hfname]
  have hordered : (es.map flatEntry).Pairwise fun a b => compare (treeKey a) (treeKey b) = .lt := h.ordered
  have hnodup : (es.map flatEntry).Nodup := hordered.imp fun {a b} hlt heq => by
    subst heq
    exact ne_of_lt hlt rfl
  have hsame : level.Perm (es.map flatEntry) := (perm_ext_iff_of_nodup hnames.of_map hnodup).mpr hiff
  have hsorted : (level.insertionSort (byTreeKey · ·)).Pairwise (byTreeKey · ·) :=
    pairwise_insertionSort _ level
  have hlevel : builtLevel P algo (fuel + 1) sorted = level.insertionSort (byTreeKey · ·) := rfl
  rw [hlevel]
  refine List.Perm.eq_of_pairwise ?_ hsorted (hordered.imp fun {a b} hlt => ?_)
    ((perm_insertionSort _ level).trans hsame)
  · intro a b ha hb hab hba
    have ha' : a ∈ es.map flatEntry := (hiff a).mp ((perm_insertionSort _ level).subset ha)
    have hkey : treeKey a = treeKey b := by
      rw [byTreeKey] at hab hba
      exact Std.LawfulEqCmp.eq_of_compare (Std.OrientedCmp.isLE_antisymm hab hba)
    obtain ⟨e, he, rfl⟩ := mem_map.mp ha'
    obtain ⟨e', he', rfl⟩ := mem_map.mp hb
    have hname := treeKey_inj (a := flatEntry e) (b := flatEntry e') (h.named e he).2 (h.named e' he').2 hkey
    rw [inj_on_of_nodup_map h.names he he' hname]
  · rw [byTreeKey, hlt]
    rfl

end

/-- **What flattens is built of its paths**, if it is canonical. -/
theorem flattens_of_canonical {front : Bytes} {ws : List WorkEntry} (hhashed : Hashed P objects)
    (halgo : tree.algo = algo) (h : CanonicalBelow objects algo fuel tree)
    (hflat : flattenInto objects algo fuel tree front = .ok ws) :
    ∃ fs, Flattens P objects algo fuel tree fs := by
  induction fuel generalizing tree front ws with
  | zero => cases hflat
  | succ fuel ih =>
    have hside : flattenSide objects algo (fuel + 1) (some tree) front = .ok ws := hflat
    obtain ⟨es, hread, hall, -⟩ := flattenSide_succ hside
    obtain ⟨hcanonical, hsub⟩ := h es hread
    obtain ⟨hid, hids⟩ := readEntries_hashed hhashed halgo hread
    have hexists : ∀ id, ∃ fs, (∃ e ∈ es, isTree e = true ∧ e.oid = id) → Flattens P objects algo fuel id fs := by
      intro id
      by_cases he : ∃ e ∈ es, isTree e = true ∧ e.oid = id
      · obtain ⟨e, he, htree, rfl⟩ := he
        have hentry := hall e he
        rw [flattenEntry_of_tree htree] at hentry
        obtain ⟨fs, hfs⟩ := ih (hids e he) (hsub e he htree).2 hentry
        exact ⟨fs, fun _ => hfs⟩
      · exact ⟨[], fun h => absurd h he⟩
    choose below hbelow using hexists
    have hbelow' : ∀ e ∈ es, isTree e = true → Flattens P objects algo fuel e.oid (below e.oid) :=
      fun e he htree => hbelow e.oid ⟨e, he, htree, rfl⟩
    have hne : ∀ e ∈ es, isTree e = true → below e.oid ≠ [] :=
      fun e he htree => (hbelow' e he htree).ne_nil (hsub e he htree).1
    have hfree := prefixFree_pathsUnder hcanonical fun e he htree => (hbelow' e he htree).prefixFree
    refine ⟨es.flatMap (pathsUnder below), fun front => ?_, hfree, ?_, ?_⟩
    · have hentries : ∀ e ∈ es, flattenEntry objects algo fuel front e
          = .ok ((pathsUnder below e).map (placed front)) := by
        intro e he
        cases htree : isTree e with
        | true =>
          rw [flattenEntry_of_tree htree, flattenSide, (hbelow' e he htree).flat, pathsUnder, if_pos htree,
            map_placed_under (hcanonical.named e he).1]
        | false =>
          rw [flattenEntry_of_file htree, pathsUnder, if_neg (by simp [htree])]
          rfl
      rw [flattenInto_succ hread hentries, map_flatMap]
    · intro hentries hnil
      cases es with
      | nil => exact hentries hread
      | cons e es =>
        rw [flatMap_cons, append_eq_nil_iff] at hnil
        exact pathsUnder_ne_nil (hne e mem_cons_self) hnil.1
    · intro sorted hperm hasc n hpos hlen
      obtain ⟨n, rfl⟩ : ∃ k, n = k + 1 := ⟨n - 1, by omega⟩
      have hfree' : PrefixFree sorted := hfree.mono hperm.subset
      have hbuilt : ∀ e ∈ es, isTree e = true → DirRun sorted e.name →
          levelId P algo (builtLevel P algo n (inside e.name (runOf sorted e.name))) = e.oid := by
        intro e he htree hdir
        have hname := (hcanonical.named e he).1
        have hrun : (runOf sorted e.name).Perm (pathsUnder below e) := by
          rw [← runOf_pathsUnder hcanonical he]
          exact hperm.filter _
        have hinside : (inside e.name (runOf sorted e.name)).Perm (below e.oid) := by
          rw [← inside_under hname (below e.oid)]
          rw [pathsUnder, if_pos htree] at hrun
          exact hrun.map _
        obtain ⟨hshort, hn⟩ := length_inside hdir hlen
        exact (hbelow' e he htree).built _ hinside (inside_runOf hasc hfree' hdir).1 n hn hshort
      rw [levelId, builtLevel_pathsUnder hcanonical hasc hfree' hperm hne hbuilt,
        ← serialize_canonical hcanonical.octal]
      exact hid

/-! ### Both ways -/

/-- Entries that a tree can be written of: distinct paths of components that are not empty and hold no
    NUL, none a directory of another, with the modes of files, symbolic links and submodules. -/
structure Writeable (algo : HashAlgo) (entries : List WorkEntry) : Prop where
  nodup : (entries.map WorkEntry.path).Nodup
  prefixFree : ∀ a ∈ entries, ∀ b ∈ entries, ¬a.path ++ [slash] <+: b.path
  paths : ∀ e ∈ entries, PathOk e.path
  modes : ∀ e ∈ entries, e.mode ∈ fileModes
  ids : ∀ e ∈ entries, e.oid.algo = algo

/-- A bound of the lengths of the paths. -/
def pathBound (entries : List WorkEntry) : Nat := (entries.map fun e => e.path.length).foldr max 0 + 1

/-- The trees that `writeTree` puts. -/
def treesOf (P : Prims) (algo : HashAlgo) (entries : List WorkEntry) : List Bytes :=
  builtTrees P algo (pathBound entries) ((entries.insertionSort (byPath · ·)).map WorkEntry.flat)

variable {entries : List WorkEntry}

theorem length_lt_pathBound {e : WorkEntry} (he : e ∈ entries) :
    e.path.length < pathBound entries := by
  have hle : e.path.length ≤ (entries.map fun e => e.path.length).foldr max 0 := by
    induction entries with
    | nil => cases he
    | cons x entries ih =>
      rw [map_cons, foldr_cons]
      rcases mem_cons.mp he with rfl | he
      · exact Nat.le_max_left ..
      · exact (ih he).trans (Nat.le_max_right ..)
  exact Nat.lt_succ_of_le hle

theorem ascending_sort (h : (entries.map WorkEntry.path).Nodup) :
    Ascending ((entries.insertionSort (byPath · ·)).map WorkEntry.flat) :=
  pairwise_map.mpr (ordered_sort h)

theorem length_sort :
    ∀ f ∈ (entries.insertionSort (byPath · ·)).map WorkEntry.flat, f.1.length < pathBound entries := by
  intro f hf
  obtain ⟨e, he, rfl⟩ := mem_map.mp hf
  exact length_lt_pathBound ((perm_insertionSort (byPath · ·) entries).subset he)

theorem Writeable.tidy (h : Writeable algo entries) :
    Tidy algo ((entries.insertionSort (byPath · ·)).map WorkEntry.flat) := by
  have hmem : ∀ f ∈ (entries.insertionSort (byPath · ·)).map WorkEntry.flat,
      ∃ e ∈ entries, e.flat = f := by
    intro f hf
    obtain ⟨e, he, rfl⟩ := mem_map.mp hf
    exact ⟨e, (perm_insertionSort (byPath · ·) entries).subset he, rfl⟩
  refine ⟨ascending_sort h.nodup, fun a ha b hb => ?_, fun f hf => ?_, fun f hf => ?_, fun f hf => ?_⟩
  · obtain ⟨x, hx, rfl⟩ := hmem a ha
    obtain ⟨y, hy, rfl⟩ := hmem b hb
    exact h.prefixFree x hx y hy
  · obtain ⟨e, he, rfl⟩ := hmem f hf
    exact h.paths e he
  · obtain ⟨e, he, rfl⟩ := hmem f hf
    exact h.modes e he
  · obtain ⟨e, he, rfl⟩ := hmem f hf
    exact h.ids e he

/-- `writeTree` puts the trees. -/
theorem writeTree_eq (entries : List WorkEntry) (objects : Objects) :
    writeTree P algo entries objects =
      .ok (levelId P algo (builtLevel P algo (pathBound entries)
        ((entries.insertionSort (byPath · ·)).map WorkEntry.flat)))
        ((treesOf P algo entries).foldl (putTree P algo) objects) :=
  writeSubtree_eq objects length_sort (Nat.succ_pos _)

/-- Flattening where the trees of the entries are. -/
theorem flatten_held {depth : Nat} (h : Writeable algo entries) (hdepth : pathBound entries ≤ depth)
    (hholds : ∀ t ∈ treesOf P algo entries, objects (treeId P algo t) = some ⟨.tree, t⟩) :
    flattenTree objects algo depth (levelId P algo (builtLevel P algo (pathBound entries)
      ((entries.insertionSort (byPath · ·)).map WorkEntry.flat))) = .ok (entries.insertionSort (byPath · ·)) := by
  obtain ⟨ws, hws, hperm⟩ := flatten_built h.tidy length_sort (Nat.succ_pos _) hdepth hholds []
  have hplaced : ((entries.insertionSort (byPath · ·)).map WorkEntry.flat).map (placed [])
      = entries.insertionSort (byPath · ·) := by
    rw [map_map]
    exact map_id' _
  rw [hplaced] at hperm
  have hsame : ws.insertionSort (byPath · ·) = entries.insertionSort (byPath · ·) := by
    have hperm' := hperm.trans (perm_insertionSort (byPath · ·) entries)
    refine Ordered.eq_of_perm (ordered_sort ((hperm'.map WorkEntry.path).nodup_iff.mpr h.nodup))
      (ordered_sort h.nodup) ?_
    exact ((perm_insertionSort (byPath · ·) ws).trans hperm)
  rw [flattenTree, hws]
  change Except.ok (ws.insertionSort (byPath · ·)) = _
  rw [hsame]

/-- Writing and flattening. -/
theorem flatten_writeTree {depth : Nat} (h : Writeable algo entries)
    (hapart : TreesApart P algo objects (treesOf P algo entries))
    (hdepth : pathBound entries ≤ depth) {objects' : Objects}
    (hwrite : writeTree P algo entries objects = .ok tree objects') :
    flattenTree objects' algo depth tree = .ok (entries.insertionSort (byPath · ·)) := by
  rw [writeTree_eq] at hwrite
  obtain ⟨rfl, rfl⟩ := EStateM.Result.ok.inj hwrite
  exact flatten_held h hdepth hapart.putTrees

/-- Flattening and writing back. -/
theorem writeTree_flatten {ws : List WorkEntry} (hhashed : Hashed P objects)
    (halgo : tree.algo = algo) (h : CanonicalBelow objects algo fuel tree)
    (hflat : flattenTree objects algo fuel tree = .ok ws) (objects' : Objects) :
    ∃ objects'', writeTree P algo ws objects' = .ok tree objects'' := by
  rw [flattenTree] at hflat
  obtain ⟨leaves, hinto, hflat⟩ := of_match_ok hflat
  obtain rfl : leaves.insertionSort (byPath · ·) = ws := Except.ok.inj hflat
  have hside : flattenSide objects algo fuel (some tree) [] = .ok leaves := hinto
  have hnodup := nodup_of_flattenSide h.wellNamed hside
  obtain ⟨fs, hfs⟩ := flattens_of_canonical hhashed halgo h hinto
  have hleaves : fs.map (placed []) = leaves := by
    have hsame := (hfs.flat []).symm.trans hinto
    exact Except.ok.inj hsame
  have hback : leaves.map WorkEntry.flat = fs := by
    rw [← hleaves, map_map]
    exact map_id' _
  have hsort : (leaves.insertionSort (byPath · ·)).Perm leaves := perm_insertionSort _ _
  have hnodup' : ((leaves.insertionSort (byPath · ·)).map WorkEntry.path).Nodup :=
    (hsort.map WorkEntry.path).nodup_iff.mpr hnodup
  have htwice : ((leaves.insertionSort (byPath · ·)).insertionSort (byPath · ·)).Perm leaves :=
    (perm_insertionSort _ _).trans hsort
  have hperm := htwice.map WorkEntry.flat
  rw [hback] at hperm
  have hid := hfs.built _ hperm (ascending_sort hnodup') (pathBound (leaves.insertionSort (byPath · ·)))
    (Nat.succ_pos _) length_sort
  rw [writeTree_eq, hid]
  exact ⟨_, rfl⟩

/-- **The round trip of trees.**  Entries that a tree can be written of are written as canonical trees,
    none of them empty unless there are no entries, and the tree flattens to the entries in order; and
    a tree that flattens, canonical with all its subtrees, is what writing its entries gives. -/
theorem tree_round_trip (P : Prims) (algo : HashAlgo) :
    (∀ (entries : List WorkEntry) (objects : Objects), Writeable algo entries →
      TreesApart P algo objects (treesOf P algo entries) →
      ∃ tree objects', writeTree P algo entries objects = .ok tree objects' ∧
        objects' = (treesOf P algo entries).foldl (putTree P algo) objects ∧
        (∀ depth, pathBound entries ≤ depth →
          flattenTree objects' algo depth tree = .ok (entries.insertionSort (byPath · ·))) ∧
        ∀ data ∈ treesOf P algo entries, ∃ es, CanonicalTree es ∧ Tree.parse data algo = .ok ⟨es⟩ ∧
          (entries ≠ [] → es ≠ [])) ∧
    ∀ (objects : Objects) (fuel : Nat) (tree : ObjectId) (ws : List WorkEntry), Hashed P objects →
      tree.algo = algo → CanonicalBelow objects algo fuel tree →
      flattenTree objects algo fuel tree = .ok ws →
      ∀ objects', ∃ objects'', writeTree P algo ws objects' = .ok tree objects'' := by
  refine ⟨fun entries objects h hapart => ?_, fun objects fuel tree ws hhashed halgo h hflat =>
    writeTree_flatten hhashed halgo h hflat⟩
  have hwrite := @writeTree_eq P algo entries objects
  refine ⟨_, _, hwrite, rfl, fun depth hdepth => flatten_writeTree h hapart hdepth hwrite, ?_⟩
  intro data hdata
  obtain ⟨es, hcanonical, hparse, hne⟩ := canonical_builtTrees h.tidy hdata
  refine ⟨es, hcanonical, hparse, fun hentries => hne fun hnil => hentries ?_⟩
  rw [map_eq_nil_iff] at hnil
  exact nil_perm.mp (hnil ▸ perm_insertionSort (byPath · ·) entries)

theorem writeable_dotLeaves : Writeable .sha1 dotLeaves where
  nodup := by decide
  prefixFree := by decide
  paths := by
    unfold PathOk
    decide
  modes := by decide
  ids := by decide

theorem apart_dotLeaves : TreesApart .toy .sha1 (fun _ => none) (treesOf .toy .sha1 dotLeaves) where
  inj := by decide +kernel
  stored := nofun

theorem hashed_toyObjects (contents : List (ObjectKind × Bytes)) : Hashed .toy (toyObjects contents) := by
  intro id object hobject
  obtain ⟨o, ho, rfl⟩ := Option.map_eq_some_iff.mp hobject
  have hid := find?_some ho
  rw [decide_eq_true_eq] at hid
  rw [← hid]
  rfl

theorem canonicalBelow_dotObjects : CanonicalBelow dotObjects .sha1 2 (toyId .tree dotTree) := by
  obtain ⟨hdot, -, hsub⟩ := read_dotObjects
  have hbelow : CanonicalBelow dotObjects .sha1 1 (toyId .tree subTree) := by
    intro es hread
    rw [hsub] at hread
    cases hread
    exact ⟨⟨by decide +kernel, by decide, by decide, by decide, by decide⟩, fun e he htree => by
      obtain rfl := mem_singleton.mp he
      exact absurd htree (by decide)⟩
  intro es hread
  rw [hdot] at hread
  cases hread
  refine ⟨⟨by decide +kernel, by decide, by decide, by decide, by decide⟩, fun e he htree => ?_⟩
  rcases mem_cons.mp he with rfl | he
  · exact absurd htree (by decide)
  · obtain rfl := mem_singleton.mp he
    refine ⟨?_, hbelow⟩
    rw [hsub]
    nofun

theorem tree_round_trip_dot :
    (∃ tree objects', writeTree .toy .sha1 dotLeaves (fun _ => none) = .ok tree objects' ∧
      flattenTree objects' .sha1 4 tree = .ok (dotLeaves.insertionSort (byPath · ·))) ∧
    ∃ objects'', writeTree .toy .sha1 dotLeaves dotObjects = .ok (toyId .tree dotTree) objects'' := by
  constructor
  · obtain ⟨tree, objects', hwrite, -, hflat, -⟩ :=
      (tree_round_trip .toy .sha1).1 dotLeaves _ writeable_dotLeaves apart_dotLeaves
    exact ⟨tree, objects', hwrite, hflat 4 (by decide)⟩
  · exact (tree_round_trip .toy .sha1).2 dotObjects 2 _ dotLeaves (hashed_toyObjects _) rfl
      canonicalBelow_dotObjects flattened_dotObjects.1 dotObjects

/-- **The tree of no entries is written**, and it is empty. -/
theorem empty_tree_is_written : Writeable .sha1 [] ∧
    ¬∀ data ∈ treesOf .toy .sha1 [], ∃ es, Tree.parse data .sha1 = .ok ⟨es⟩ ∧ es ≠ [] := by
  refine ⟨⟨by decide, by decide, nofun, by decide, by decide⟩, fun h => ?_⟩
  obtain ⟨es, hparse, hne⟩ := h [] (by decide)
  rw [Tree.parse, Tree.parseFrom, if_pos rfl] at hparse
  cases hparse
  exact hne rfl

end Alt.Repo
