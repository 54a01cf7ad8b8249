import Alt.Repo.CheckoutExact

namespace Alt.Repo

open Alt.Library Alt.Library.FileTree Alt.Odb Alt.Refs List

/-!
# When a status is clean (`alt-worktree/src/lib.rs`, 240–410, 625–725)

`status` merges sorted lists; the working tree's comes from a scan that skips control directories,
submodules and what is ignored.

* `diff_eq_nil_iff`, `differs_of_mem_diff` — what the comparison of two lists reports;
* `mem_scanTree`, `scanTree_ordered` — what a scan finds, each path once;
* `unstaged_eq_nil` — a working tree with the files of the index has no unstaged changes.
-/

/-! ### Comparing lists -/

section

variable {old new : List WorkEntry}

/-- Sorted by path, each path once. -/
def Ordered (entries : List WorkEntry) : Prop :=
  entries.Pairwise fun a b => compare a.path b.path = .lt

/-- What a change at a path means. -/
def Differs (old new : List WorkEntry) (path : Bytes) : ChangeKind → Prop
  | .added => ∃ n ∈ new, n.path = path
  | .deleted => (∃ o ∈ old, o.path = path) ∧ ∀ n ∈ new, n.path ≠ path
  | .modified => ∃ o ∈ old, ∃ n ∈ new, o.path = path ∧ n.path = path ∧ ¬(o.oid = n.oid ∧ o.mode = n.mode)

theorem diff_self (entries : List WorkEntry) : diff entries entries = [] := by
  induction entries with
  | nil => rfl
  | cons e entries ih =>
    have hsame : compare e.path e.path = .eq := Std.ReflCmp.compare_self
    rw [diff, diffEntry, hsame]
    simpa using ih

theorem ne_of_lt {a b : Bytes} (h : compare a b = .lt) : a ≠ b := by
  rintro rfl
  have hsame : compare a a = .eq := Std.ReflCmp.compare_self
  rw [hsame] at h
  cases h

variable {path : Bytes}

theorem Ordered.lt_of_mem {e : WorkEntry} {entries : List WorkEntry} (h : Ordered (e :: entries))
    (hpath : compare path e.path = .lt) : ∀ n ∈ e :: entries, compare path n.path = .lt := by
  intro n hn
  rcases mem_cons.mp hn with rfl | hn
  · exact hpath
  · exact Std.TransCmp.lt_trans hpath (rel_of_pairwise_cons h hn)

variable {kind : ChangeKind}

theorem Differs.cons_old {o : WorkEntry} (h : Differs old new path kind) :
    Differs (o :: old) new path kind := by
  cases kind with
  | added => exact h
  | deleted =>
    obtain ⟨⟨o', ho', hpath⟩, hmissing⟩ := h
    exact ⟨⟨o', mem_cons_of_mem _ ho', hpath⟩, hmissing⟩
  | modified =>
    obtain ⟨o', ho', hrest⟩ := h
    exact ⟨o', mem_cons_of_mem _ ho', hrest⟩

theorem Differs.cons_new {n : WorkEntry} (h : Differs old new path kind)
    (hapart : ∀ o ∈ old, n.path ≠ o.path) :
    Differs old (n :: new) path kind := by
  cases kind with
  | added =>
    obtain ⟨n', hn', hpath⟩ := h
    exact ⟨n', mem_cons_of_mem _ hn', hpath⟩
  | deleted =>
    obtain ⟨⟨o, ho, rfl⟩, hmissing⟩ := h
    refine ⟨⟨o, ho, rfl⟩, fun n' hn' => ?_⟩
    rcases mem_cons.mp hn' with rfl | hn'
    · exact hapart o ho
    · exact hmissing n' hn'
  | modified =>
    obtain ⟨o, ho, n', hn', hrest⟩ := h
    exact ⟨o, ho, n', mem_cons_of_mem _ hn', hrest⟩

/-- What one entry's step reports, given what the steps after it do. -/
theorem differs_of_mem_diffEntry {o : WorkEntry}
    {rest : List WorkEntry → List (Bytes × ChangeKind)}
    (hrest : ∀ new path kind, Ordered new → (path, kind) ∈ rest new → Differs old new path kind)
    (hold : Ordered (o :: old)) (hnew : Ordered new) (h : (path, kind) ∈ diffEntry o rest new) :
    Differs (o :: old) new path kind := by
  induction new with
  | nil =>
    rw [diffEntry] at h
    rcases mem_cons.mp h with heq | hmem
    · cases heq
      exact ⟨⟨o, mem_cons_self, rfl⟩, nofun⟩
    · exact (hrest [] path kind hnew hmem).cons_old
  | cons n new ih =>
    rw [diffEntry] at h
    cases hcompare : compare o.path n.path with
    | lt =>
      rw [hcompare] at h
      rcases mem_cons.mp h with heq | hmem
      · cases heq
        exact ⟨⟨o, mem_cons_self, rfl⟩, fun n' hn' heq =>
          ne_of_lt (hnew.lt_of_mem hcompare n' hn') heq.symm⟩
      · exact (hrest _ path kind hnew hmem).cons_old
    | gt =>
      rw [hcompare] at h
      rcases mem_cons.mp h with heq | hmem
      · cases heq
        exact ⟨n, mem_cons_self, rfl⟩
      · have hbefore : compare n.path o.path = .lt := Std.OrientedCmp.lt_of_gt hcompare
        exact (ih hnew.tail hmem).cons_new fun o' ho' => ne_of_lt (hold.lt_of_mem hbefore o' ho')
    | eq =>
      rw [hcompare] at h
      have hpath : o.path = n.path := Std.LawfulEqCmp.eq_of_compare hcompare
      have hafter : ∀ {path kind}, Differs old new path kind → Differs (o :: old) (n :: new) path kind := by
        intro path kind hdiffers
        refine (hdiffers.cons_new fun o' ho' => ?_).cons_old
        rw [← hpath]
        exact ne_of_lt (rel_of_pairwise_cons hold ho')
      dsimp only at h
      split at h
      · rename_i hdiff
        rcases mem_cons.mp h with heq | hmem
        · cases heq
          refine ⟨o, mem_cons_self, n, mem_cons_self, hpath, rfl, fun hsame => ?_⟩
          exact hdiff.elim (· hsame.1) (· hsame.2)
        · exact hafter (hrest new path kind hnew.tail hmem)
      · exact hafter (hrest new path kind hnew.tail h)

/-- **What is reported is so.** -/
theorem differs_of_mem_diff (hold : Ordered old) (hnew : Ordered new)
    (h : (path, kind) ∈ diff old new) : Differs old new path kind := by
  induction old generalizing new path kind with
  | nil =>
    rw [diff] at h
    obtain ⟨n, hn, heq⟩ := mem_map.mp h
    cases heq
    exact ⟨n, hn, rfl⟩
  | cons o old ih =>
    rw [diff] at h
    exact differs_of_mem_diffEntry (fun new path kind hnew hmem => ih hold.tail hnew hmem) hold hnew h

end

/-! ### Scanning -/

section

variable {env : Env} {fs : FileTree} {index : Index}

/-- Names of a file system: no special ones, and without slashes. -/
def Named (fs : FileTree) : Prop := ∀ p, fs.get p ≠ none → ∀ c ∈ p, ¬Special c ∧ slash ∉ c

variable {names : Place}

theorem splitPath_joinPath (hne : names ≠ []) (h : ∀ c ∈ names, slash ∉ c) :
    splitPath (joinPath names) = names :=
  splitOn_intercalate slash h hne

theorem mem_below {rel : Place} : rel ∈ below env fs ↔ fs.get (env.root ++ rel) ≠ none := by
  rw [below, mem_map]
  constructor
  · rintro ⟨p, hp, rfl⟩
    obtain ⟨hkey, hpre⟩ := mem_filter.mp hp
    rw [Std.ExtTreeMap.mem_keys, Std.ExtTreeMap.mem_iff_isSome_getElem?] at hkey
    obtain ⟨rest, rfl⟩ := isPrefixOf_iff_prefix.mp hpre
    rw [drop_left]
    exact Option.isSome_iff_ne_none.mp hkey
  · intro h
    refine ⟨env.root ++ rel, mem_filter.mpr ⟨?_, ?_⟩, drop_left⟩
    · rw [Std.ExtTreeMap.mem_keys, Std.ExtTreeMap.mem_iff_isSome_getElem?]
      exact Option.isSome_iff_ne_none.mpr h
    · exact isPrefixOf_iff_prefix.mpr (prefix_append _ _)

theorem nodup_below : (below env fs).Nodup := by
  rw [below]
  refine List.Nodup.map_on ?_ (List.Nodup.filter _ Std.ExtTreeMap.nodup_keys)
  intro p hp q hq heq
  obtain ⟨rest, rfl⟩ := isPrefixOf_iff_prefix.mp (mem_filter.mp hp).2
  obtain ⟨rest', rfl⟩ := isPrefixOf_iff_prefix.mp (mem_filter.mp hq).2
  rw [drop_left, drop_left] at heq
  rw [heq]

/-- The file at names below the root, as the scan finds it. -/
def scanned (env : Env) (filter : Bytes → Bytes → Bytes) (fs : FileTree) (index : Index) (rel : Place) :
    Option WorkEntry :=
  if rel ≠ [] ∧ (descend env fs index [] false rel).isSome then
    (fs.get (env.root ++ rel)).bind (workFile env filter (joinPath rel))
  else none

variable {filter : Bytes → Bytes → Bytes}

theorem scanTree_eq (hfilter : env.filter fs = .ok filter)
    (hignore : ignoreError env fs index = none) :
    scanTree env fs index =
      .ok (((below env fs).filterMap (scanned env filter fs index)).insertionSort (byPath · ·)) := by
  rw [scanTree, hfilter, hignore]
  rfl

variable {path : Bytes} {w : WorkEntry}

theorem path_of_workFile {node : Node} (h : workFile env filter path node = some w) :
    w.path = path := by
  cases node with
  | dir => cases h
  | file content exec =>
    cases h
    rfl
  | symlink target =>
    cases h
    rfl

theorem scanned_spec {rel : Place} (h : scanned env filter fs index rel = some w) :
    rel ≠ [] ∧ w.path = joinPath rel ∧
      ∃ node, fs.get (env.root ++ rel) = some node ∧ workFile env filter (joinPath rel) node = some w := by
  rw [scanned] at h
  split at h
  · rename_i hrel
    obtain ⟨node, hnode, hfile⟩ := Option.bind_eq_some_iff.mp h
    exact ⟨hrel.1, path_of_workFile hfile, node, hnode, hfile⟩
  · cases h

theorem mem_scan :
    w ∈ ((below env fs).filterMap (scanned env filter fs index)).insertionSort (byPath · ·) ↔
      ∃ rel, scanned env filter fs index rel = some w := by
  rw [mem_insertionSort, mem_filterMap]
  refine ⟨fun ⟨rel, _, h⟩ => ⟨rel, h⟩, fun ⟨rel, h⟩ => ⟨rel, ?_, h⟩⟩
  obtain ⟨-, -, node, hnode, -⟩ := scanned_spec h
  exact mem_below.mpr (by rw [hnode]; exact Option.some_ne_none _)

instance : Std.Total fun a b : WorkEntry => byPath a b = true where
  total a b := by
    have hswap : compare b.path a.path = (compare a.path b.path).swap := Std.OrientedCmp.eq_swap
    rw [byPath, byPath, hswap]
    cases compare a.path b.path
    · exact .inl rfl
    · exact .inl rfl
    · exact .inr rfl

instance : IsTrans WorkEntry fun a b => byPath a b = true where
  trans _ _ _ h h' := Std.TransCmp.isLE_trans h h'

variable {entries : List WorkEntry}

theorem ordered_sort (h : (entries.map WorkEntry.path).Nodup) :
    Ordered (entries.insertionSort (byPath · ·)) := by
  have hsorted : (entries.insertionSort (byPath · ·)).Pairwise (byPath · ·) :=
    pairwise_insertionSort _ entries
  have hnodup : (entries.insertionSort (byPath · ·)).Pairwise fun a b => a.path ≠ b.path := by
    have hperm : ((entries.insertionSort (byPath · ·)).map WorkEntry.path).Nodup :=
      ((perm_insertionSort _ _).map _).nodup_iff.mpr h
    exact pairwise_map.mp hperm
  refine (hsorted.and hnodup).imp fun {a b} ⟨hle, hne⟩ => ?_
  rw [byPath] at hle
  cases hcompare : compare a.path b.path with
  | lt => rfl
  | eq => exact absurd (Std.LawfulEqCmp.eq_of_compare hcompare) hne
  | gt =>
    rw [hcompare] at hle
    cases hle

theorem Ordered.eq_of_perm {a b : List WorkEntry} (ha : Ordered a) (hb : Ordered b) (hperm : a.Perm b) :
    a = b := by
  refine hperm.eq_of_pairwise (fun x y _ _ hlt hgt => ?_) ha hb
  have hsame : compare x.path x.path = .lt := Std.TransCmp.lt_trans hlt hgt
  exact absurd rfl (ne_of_lt hsame)

/-- The entries of an index that was just written. -/
theorem indexEntries_staged (h : Ordered entries) :
    indexEntries ((entries.map (stageEntry · 0)).insertionSort (byPathStage · ·)) = entries := by
  have hperm : ((entries.map (stageEntry · 0)).insertionSort (byPathStage · ·)).Perm
      (entries.map (stageEntry · 0)) := perm_insertionSort _ _
  have hstage : ((entries.map (stageEntry · 0)).insertionSort (byPathStage · ·)).filter
      (fun e => e.stage = 0) = (entries.map (stageEntry · 0)).insertionSort (byPathStage · ·) := by
    rw [filter_eq_self]
    intro e he
    obtain ⟨w, -, rfl⟩ := mem_map.mp (hperm.mem_iff.mp he)
    simpa using stage_stageEntry
  have hentries : (((entries.map (stageEntry · 0)).insertionSort (byPathStage · ·)).map
      IndexEntry.entry).Perm entries := by
    have hid : (entries.map (stageEntry · 0)).map IndexEntry.entry = entries := by
      rw [map_map]
      exact map_id entries
    have hmap := hperm.map IndexEntry.entry
    rwa [hid] at hmap
  rw [indexEntries, hstage]
  have hpaths : (entries.map WorkEntry.path).Nodup := pairwise_map.mpr (h.imp ne_of_lt)
  refine Ordered.eq_of_perm (ordered_sort ((hentries.map _).nodup_iff.mpr hpaths)) h ?_
  exact (perm_insertionSort _ _).trans hentries

/-- **A scan finds each path once.** -/
theorem ordered_scan (hnamed : Named fs) :
    Ordered (((below env fs).filterMap (scanned env filter fs index)).insertionSort (byPath · ·)) := by
  refine ordered_sort ?_
  rw [List.Nodup, pairwise_map, pairwise_filterMap]
  refine nodup_below.imp fun {rel rel'} hne w hw w' hw' heq => hne ?_
  obtain ⟨hrel, hpath, node, hnode, -⟩ := scanned_spec hw
  obtain ⟨hrel', hpath', node', hnode', -⟩ := scanned_spec hw'
  rw [hpath, hpath'] at heq
  have hclean : ∀ c ∈ rel, slash ∉ c := fun c hc =>
    (hnamed (env.root ++ rel) (by rw [hnode]; exact Option.some_ne_none _) c (mem_append_right _ hc)).2
  have hclean' : ∀ c ∈ rel', slash ∉ c := fun c hc =>
    (hnamed (env.root ++ rel') (by rw [hnode']; exact Option.some_ne_none _) c (mem_append_right _ hc)).2
  rw [← splitPath_joinPath hrel hclean, heq, splitPath_joinPath hrel' hclean']

/-- Ignore files that are files can be read. -/
theorem ignoreError_eq_none (hnamed : Named fs)
    (h : ∀ q, fs.get (q ++ [gitignore]) = none ∨ ∃ content exec, fs.get (q ++ [gitignore]) = some (.file content exec)) :
    ignoreError env fs index = none := by
  rw [ignoreError, findSome?_eq_none_iff]
  intro rel hrel
  split
  · rename_i hdir
    have hplain : Plain (env.root ++ rel ++ [gitignore]) := by
      intro c hc
      rcases mem_append.mp hc with hmem | hmem
      · exact (hnamed _ (mem_below.mp hrel) c hmem).1
      · rw [mem_singleton.mp hmem]
        decide
    have hfollow : fs.follow (env.root ++ rel ++ [gitignore]) = .ok (env.root ++ rel ++ [gitignore]) := by
      refine follow_direct ⟨hplain, fun _ => by rw [dropLast_concat]; exact hdir.1⟩ fun target hlink => ?_
      rcases h (env.root ++ rel) with hnone | ⟨content, exec, hfile⟩
      · rw [hnone] at hlink
        cases hlink
      · rw [hfile] at hlink
        cases hlink
    rw [FileTree.read, hfollow]
    rcases h (env.root ++ rel) with hnone | ⟨content, exec, hfile⟩
    · simp only [hnone]
    · simp only [hfile]
  · rfl

/-! ### Files the scan comes to -/

theorem joinPath_append {rest : Place} (hne : names ≠ []) (hrest : rest ≠ []) :
    joinPath (names ++ rest) = joinPath names ++ [slash] ++ joinPath rest := by
  induction names with
  | nil => exact absurd rfl hne
  | cons name names ih =>
    cases names with
    | nil =>
      rw [singleton_append, joinPath, joinPath, joinPath, intercalate_cons_of_ne_nil hrest,
        intercalate_singleton]
    | cons next names =>
      have hnames : next :: names ≠ [] := cons_ne_nil _ _
      have hlater := ih hnames
      rw [cons_append, joinPath, joinPath, intercalate_cons_of_ne_nil (by simp),
        intercalate_cons_of_ne_nil hnames]
      rw [joinPath, joinPath] at hlater
      rw [hlater]
      simp

/-- Nothing on the way to a path keeps the scan from it: no control directory, no other repository. -/
structure Reached (env : Env) (fs : FileTree) (path : Bytes) : Prop where
  control : ∀ c ∈ splitPath path, c ≠ altDir ∧ c ≠ gitDir
  repos : ∀ q, env.root <+: q → q ≠ env.root → q <+: placeOf env.root path → q ≠ placeOf env.root path →
    fs.lexists (q ++ [gitDir]) = false

theorem tracked_file (h : ∃ e ∈ index, e.path = path) : tracked index path false = true := by
  obtain ⟨e, he, rfl⟩ := h
  rw [tracked, any_eq_true]
  exact ⟨e, he, by simp⟩

theorem tracked_dir {rest : Place} (hne : names ≠ []) (hrest : rest ≠ [])
    (h : ∃ e ∈ index, e.path = joinPath (names ++ rest)) :
    tracked index (joinPath names) true = true := by
  obtain ⟨e, he, hpath⟩ := h
  rw [tracked, any_eq_true]
  refine ⟨e, he, ?_⟩
  rw [if_pos rfl, hpath, joinPath_append hne hrest, isPrefixOf_iff_prefix]
  exact prefix_append _ _

/-- **A tracked file is come to**, also where an ignore rule hides it. -/
theorem descend_tracked {node : Node} (htracked : ∃ e ∈ index, e.path = path)
    (hreached : Reached env fs path) (hnode : fs.get (placeOf env.root path) = some node)
    (hfile : node ≠ .dir) :
    ∀ rest done hidden, splitPath path = done ++ rest → (descend env fs index done hidden rest).isSome := by
  intro rest
  induction rest with
  | nil =>
    intro done hidden hpath
    rw [descend]
    rfl
  | cons name rest ih =>
    intro done hidden hpath
    have hassoc : splitPath path = (done ++ [name]) ++ rest := by rw [hpath]; simp
    have hcontrol := hreached.control name (by rw [hpath]; simp)
    have hnext := fun hidden => ih (done ++ [name]) hidden hassoc
    have hpathEq : path = joinPath ((done ++ [name]) ++ rest) := by rw [← hassoc, joinPath_splitPath]
    have hrel : done ++ [name] ≠ [] := by simp
    rw [descend, if_neg (by simp [hcontrol.1, hcontrol.2])]
    by_cases hlast : rest = []
    · have hget : fs.get (env.root ++ (done ++ [name])) = some node := by
        rw [← hnode, placeOf, hassoc, hlast, append_nil]
      have hdir : decide (fs.get (env.root ++ (done ++ [name])) = some .dir) = false := by
        rw [hget]
        simpa using hfile
      have hknown : tracked index (joinPath (done ++ [name])) false = true :=
        tracked_file (by rwa [hpathEq, hlast, append_nil] at htracked)
      rw [hdir, hknown, if_neg (by simp), if_neg (by simp)]
      exact hnext _
    · have hget : fs.get (env.root ++ (done ++ [name])) = some .dir := by
        have hsome : fs.get (env.root ++ (done ++ [name]) ++ rest) ≠ none := by
          rw [append_assoc, ← hassoc]
          rw [placeOf] at hnode
          rw [hnode]
          exact Option.some_ne_none _
        exact get_above hlast hsome
      have hdir : decide (fs.get (env.root ++ (done ++ [name])) = some .dir) = true := by
        rw [hget]
        rfl
      have hknown : tracked index (joinPath (done ++ [name])) true = true :=
        tracked_dir hrel hlast (hpathEq ▸ htracked)
      have hrepo : fs.lexists (env.root ++ (done ++ [name]) ++ [gitDir]) = false := by
        refine hreached.repos _ (prefix_append _ _) (by simp) ?_ fun heq => hlast ?_
        · rw [placeOf, hassoc]
          exact (prefix_append_right_inj _).mpr (prefix_append _ _)
        · rw [placeOf, hassoc, append_cancel_left_eq] at heq
          simpa using heq
      rw [hdir, hknown, hrepo, if_neg (by simp), if_neg (by simp)]
      exact hnext _

/-- **No unstaged changes**: the files of the index are in the working tree. -/
theorem unstaged_eq_nil {index : Index} (hnamed : Named fs) (hentries : Ordered entries)
    (htracked : ∀ t ∈ entries, ∃ e ∈ index, e.path = t.path)
    (hlink : ∀ t ∈ entries, t.mode = gitlink → fs.get (placeOf env.root t.path) = some .dir)
    (hfile : ∀ t ∈ entries, t.mode ≠ gitlink → Reached env fs t.path ∧ ∃ node, fs.get (placeOf env.root t.path) = some node ∧ workFile env filter t.path node = some t)
    {head : List WorkEntry} :
    (status head entries (((below env fs).filterMap (scanned env filter fs index)).insertionSort
      (byPath · ·))).unstaged = [] := by
  rw [status, filter_eq_nil_iff]
  rintro ⟨path, kind⟩ hmem hkept
  have hdiffers := differs_of_mem_diff hentries (ordered_scan hnamed) hmem
  cases kind with
  | added => cases hkept
  | deleted =>
    obtain ⟨⟨t, ht, rfl⟩, hmissing⟩ := hdiffers
    by_cases hmode : t.mode = gitlink
    · have hany : (entries.any fun e => e.mode == gitlink && e.path == t.path) = true := by
        rw [any_eq_true]
        exact ⟨t, ht, by simp [hmode]⟩
      simp [hany] at hkept
    · obtain ⟨hreached, node, hnode, hwork⟩ := hfile t ht hmode
      have hdir : node ≠ .dir := by
        rintro rfl
        cases hwork
      refine hmissing t (mem_scan.mpr ⟨splitPath t.path, ?_⟩) rfl
      rw [scanned, if_pos ⟨splitPath_ne_nil, descend_tracked (htracked t ht) hreached hnode hdir _ [] false rfl⟩,
        joinPath_splitPath]
      rw [placeOf] at hnode
      rw [hnode]
      exact hwork
  | modified =>
    obtain ⟨t, ht, w, hw, rfl, hpath, hdiff⟩ := hdiffers
    obtain ⟨rel, hscanned⟩ := mem_scan.mp hw
    obtain ⟨hrel, hjoin, node, hnode, hwork⟩ := scanned_spec hscanned
    have hclean : ∀ c ∈ rel, slash ∉ c := fun c hc =>
      (hnamed (env.root ++ rel) (by rw [hnode]; exact Option.some_ne_none _) c (mem_append_right _ hc)).2
    have hplace : splitPath t.path = rel := by
      rw [← hpath, hjoin, splitPath_joinPath hrel hclean]
    by_cases hmode : t.mode = gitlink
    · have hdir := hlink t ht hmode
      rw [placeOf, hplace, hnode] at hdir
      cases hdir
      cases hwork
    · obtain ⟨-, node', hnode', hwork'⟩ := hfile t ht hmode
      rw [placeOf, hplace, hnode] at hnode'
      cases hnode'
      rw [← hjoin, hpath, hwork'] at hwork
      cases hwork
      exact hdiff ⟨rfl, rfl⟩

end

end Alt.Repo
