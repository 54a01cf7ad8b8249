import Alt.Repo.CleanStatus
import Alt.Repo.StatCache

namespace Alt.StatCache

open Alt.Library Alt.Library.FileTree Alt.Odb Alt.Refs Alt.Repo List

/-!
# The sparse scan against the full one (`alt-worktree/src/lib.rs`, 91–196, 262–355)

`diff` looks at the index's paths alone, and takes each where the system leads it; `status` goes down
the working tree, into real directories only and past other repositories.

* `There` — a file the full scan comes to; `there_of_descend` is the converse of `descend_tracked`;
* `Blank` — a path at which the sparse scan sees nothing;
* `scanIndexedPaths_exact` — the sparse scan finds what the full one found of the index's paths, just if
  each path is one or the other, and no path that is there comes twice;
* `parent_is_a_file` — which a path below a file is not.
-/

variable {env : Env} {fs : FileTree} {stats : Place → Stat} {index : List StatEntry}
  {filter : Bytes → Bytes → Bytes}

/-! ### What the full scan comes to -/

/-- A file below real directories, none of which is a control directory or another repository. -/
structure There (env : Env) (fs : FileTree) (path : Bytes) : Prop where
  reached : Reached env fs path
  file : ∃ node, fs.get (placeOf env.root path) = some node ∧ node ≠ .dir

/-- What is come to has nothing on the way that keeps a scan from it. -/
theorem clear_of_descend {lines : Index} {rest done : List Bytes} {hidden : Bool}
    (h : (descend env fs lines done hidden rest).isSome)
    (hnode : fs.get (env.root ++ (done ++ rest)) ≠ none) :
    (∀ name ∈ rest, name ≠ altDir ∧ name ≠ gitDir) ∧ ∀ front back, front ≠ [] → back ≠ [] →
      rest = front ++ back → fs.lexists (env.root ++ (done ++ front) ++ [gitDir]) = false := by
  induction rest generalizing done hidden with
  | nil =>
    refine ⟨nofun, fun front back hfront _ hrest => ?_⟩
    exact absurd (append_eq_nil_iff.mp hrest.symm).1 hfront
  | cons name rest ih =>
    rw [descend] at h
    split at h
    · cases h
    · rename_i hcontrol
      rw [not_or] at hcontrol
      split at h
      · cases h
      · split at h
        · cases h
        · rename_i hrepo
          have hassoc : done ++ name :: rest = (done ++ [name]) ++ rest := by simp
          obtain ⟨hnames, hrepos⟩ := ih h (by rwa [← hassoc])
          refine ⟨forall_mem_cons.mpr ⟨hcontrol, hnames⟩, fun front back hfront hback hrest => ?_⟩
          cases front with
          | nil => exact absurd rfl hfront
          | cons first front =>
            obtain ⟨rfl, rfl⟩ := List.cons.inj hrest
            by_cases hlast : front = []
            · subst hlast
              have hdir : fs.get (env.root ++ (done ++ [name])) = some .dir := by
                exact get_above hback (by simpa using hnode)
              rw [hdir] at hrepo
              simpa using hrepo
            · have hfar := hrepos front back hlast hback rfl
              rwa [append_assoc done] at hfar

variable {path : Bytes} {node : Node}

theorem there_of_descend {lines : Index}
    (h : (descend env fs lines [] false (splitPath path)).isSome)
    (hnode : fs.get (placeOf env.root path) = some node) (hfile : node ≠ .dir) :
    There env fs path := by
  have hsome : fs.get (env.root ++ ([] ++ splitPath path)) ≠ none := by
    rw [nil_append, ← placeOf, hnode]
    exact Option.some_ne_none _
  obtain ⟨hnames, hrepos⟩ := clear_of_descend h hsome
  refine ⟨⟨hnames, fun q hroot hne hpre hlast => ?_⟩, node, hnode, hfile⟩
  obtain ⟨front, rfl⟩ := hroot
  obtain ⟨back, hback⟩ := hpre
  rw [placeOf, append_assoc] at hback
  refine hrepos front back (fun hnil => hne (by rw [hnil, append_nil])) (fun hnil => hlast ?_)
    (append_cancel_left hback).symm
  rw [placeOf, ← hback, hnil, append_nil]

/-- The file at names below the root, as the scan with the index finds it. -/
def scannedWith (env : Env) (fs : FileTree) (stats : Place → Stat) (filter : Bytes → Bytes → Bytes)
    (index : List StatEntry) (rel : Place) : Option WorkEntry :=
  if rel ≠ [] ∧ (descend env fs (index.map StatEntry.line) [] false rel).isSome then
    (fs.get (env.root ++ rel)).bind fun node =>
      scanFile env filter (cached index (joinPath rel)) (joinPath rel) node (stats (env.root ++ rel))
  else none

variable {w : WorkEntry}

theorem path_of_scanFile {cache : Option StatEntry} {stat : Stat}
    (h : scanFile env filter cache path node stat = some w) : w.path = path := by
  rw [scanFile] at h
  split at h
  · cases h
    rfl
  · exact path_of_workFile h

/-- Every file is scanned, and no directory is. -/
theorem scanFile_isSome {cache : Option StatEntry} {stat : Stat} :
    (scanFile env filter cache path node stat).isSome = true ↔ node ≠ .dir := by
  rw [scanFile]
  cases node with
  | dir =>
    have hnone : cache.filter (fun idx => statMatches idx .dir stat) = none := by
      rw [Option.filter_eq_none_iff]
      intro idx _ hmatch
      exact absurd (wtMode_of_statMatches hmatch) (fun h => by cases h)
    rw [hnone]
    exact iff_of_false (fun h => by cases h) fun hne => hne rfl
  | file content exec =>
    refine iff_of_true ?_ fun h => by cases h
    split <;> rfl
  | symlink target =>
    refine iff_of_true ?_ fun h => by cases h
    split <;> rfl

variable {rel : Place}

theorem scannedWith_spec (h : scannedWith env fs stats filter index rel = some w) :
    rel ≠ [] ∧ w.path = joinPath rel ∧ (descend env fs (index.map StatEntry.line) [] false rel).isSome ∧
      ∃ node, fs.get (env.root ++ rel) = some node ∧ node ≠ .dir ∧
        scanFile env filter (cached index (joinPath rel)) (joinPath rel) node (stats (env.root ++ rel)) =
          some w := by
  rw [scannedWith] at h
  split at h
  · rename_i hrel
    obtain ⟨node, hnode, hfile⟩ := Option.bind_eq_some_iff.mp h
    refine ⟨hrel.1, path_of_scanFile hfile, hrel.2, node, hnode, ?_, hfile⟩
    exact scanFile_isSome.mp (by rw [hfile]; rfl)
  · cases h

variable {ws : List WorkEntry}

/-- What the full scan found. -/
theorem mem_of_scanWithIndex (hfilter : env.filter fs = .ok filter)
    (hfull : scanWithIndex env fs stats index = .ok ws) (w : WorkEntry) :
    w ∈ ws ↔ ∃ rel, scannedWith env fs stats filter index rel = some w := by
  rw [scanWithIndex, hfilter] at hfull
  dsimp only at hfull
  split at hfull
  · cases hfull
  · cases hfull
    change w ∈ ((below env fs).filterMap (scannedWith env fs stats filter index)).insertionSort (byPath · ·) ↔ _
    rw [mem_insertionSort, mem_filterMap]
    constructor
    · rintro ⟨rel, -, h⟩
      exact ⟨rel, h⟩
    · rintro ⟨rel, h⟩
      obtain ⟨-, -, -, node, hnode, -⟩ := scannedWith_spec h
      exact ⟨rel, mem_below.mpr (by rw [hnode]; exact Option.some_ne_none _), h⟩

/-- Names below the root that are there are what their path splits into. -/
theorem splitPath_of_there (hnamed : Named fs) (hrel : rel ≠ [])
    (h : fs.get (env.root ++ rel) ≠ none) : splitPath (joinPath rel) = rel :=
  splitPath_joinPath hrel fun c hc => (hnamed _ h c (mem_append_right _ hc)).2

theorem ordered_scanWithIndex (hnamed : Named fs) (hfull : scanWithIndex env fs stats index = .ok ws) :
    Ordered ws := by
  rw [scanWithIndex] at hfull
  split at hfull
  · cases hfull
  · rename_i filter _
    split at hfull
    · cases hfull
    · cases hfull
      change Ordered (((below env fs).filterMap
        (scannedWith env fs stats filter index)).insertionSort (byPath · ·))
      refine ordered_sort ?_
      rw [List.Nodup, pairwise_map, pairwise_filterMap]
      refine nodup_below.imp fun {rel rel'} hne w hw w' hw' heq => hne ?_
      obtain ⟨hrel, hpath, -, node, hnode, -⟩ := scannedWith_spec hw
      obtain ⟨hrel', hpath', -, node', hnode', -⟩ := scannedWith_spec hw'
      have hsplit := splitPath_of_there hnamed hrel (by rw [hnode]; exact Option.some_ne_none _)
      have hsplit' := splitPath_of_there hnamed hrel' (by rw [hnode']; exact Option.some_ne_none _)
      rw [← hsplit, ← hsplit', ← hpath, ← hpath', heq]

/-- A file the full scan found is there. -/
theorem there_of_scannedWith (hnamed : Named fs)
    (h : scannedWith env fs stats filter index rel = some w) :
    There env fs w.path ∧ rel = splitPath w.path := by
  obtain ⟨hrel, hpath, hdescend, node, hnode, hfile, -⟩ := scannedWith_spec h
  have hsplit := splitPath_of_there hnamed hrel (by rw [hnode]; exact Option.some_ne_none _)
  rw [← hpath] at hsplit
  refine ⟨there_of_descend (hsplit ▸ hdescend) ?_ hfile, hsplit.symm⟩
  rw [placeOf, hsplit]
  exact hnode

/-! ### What the sparse scan sees -/

/-- A path that the system takes, at which there is nothing, or a directory. -/
def Blank (env : Env) (fs : FileTree) (path : Bytes) : Prop :=
  0 ∉ path ∧ (fs.locate (abs env.root path) = .error .notFound ∨
    ∃ p, fs.locate (abs env.root path) = .ok p ∧ (fs.get p = none ∨ fs.get p = some .dir))

/-- The system leads to what is there. -/
theorem locate_there (hnamed : Named fs) (h : There env fs path) :
    fs.locate (abs env.root path) = .ok (placeOf env.root path) := by
  obtain ⟨-, node, hnode, -⟩ := h
  have hsome : fs.get (placeOf env.root path) ≠ none := by
    rw [hnode]
    exact Option.some_ne_none _
  have hplain : Plain (splitPath path) :=
    fun c hc => (hnamed _ hsome c (mem_append_right _ hc)).1
  rw [abs_of_plain hplain]
  refine locate_direct ⟨fun c hc => (hnamed _ hsome c hc).1, fun _ => ?_⟩
  have hne : placeOf env.root path ≠ [] := by
    rw [placeOf]
    simp [splitPath_ne_nil]
  rw [← dropLast_append_getLast hne] at hsome
  exact get_parent hsome

theorem not_blank_of_there (hnamed : Named fs) (h : There env fs path) :
    ¬Blank env fs path := by
  rintro ⟨-, hblank⟩
  obtain ⟨node, hnode, hfile⟩ := h.file
  rw [locate_there hnamed h] at hblank
  rcases hblank with herror | ⟨p, hp, hnone | hdir⟩
  · cases herror
  · obtain rfl := Except.ok.inj hp
    rw [hnode] at hnone
    cases hnone
  · obtain rfl := Except.ok.inj hp
    rw [hnode] at hdir
    exact hfile (Option.some.inj hdir)

variable {e : StatEntry}

theorem scanIndexed_there (hnamed : Named fs) (hnul : 0 ∉ e.line.path)
    (h : There env fs e.line.path) : scanIndexed env fs stats filter true e =
      .ok ((fs.get (placeOf env.root e.line.path)).bind fun node =>
        scanFile env filter (some e) e.line.path node (stats (placeOf env.root e.line.path))) := by
  rw [scanIndexed, if_neg hnul, locate_there hnamed h]
  rfl

theorem scanIndexed_blank (h : Blank env fs e.line.path) :
    scanIndexed env fs stats filter true e = .ok none := by
  obtain ⟨hnul, hblank⟩ := h
  rw [scanIndexed, if_neg hnul]
  rcases hblank with hmissing | ⟨p, hp, hnone | hdir⟩
  · rw [hmissing]
  · rw [hp]
    dsimp only
    rw [hnone]
    rfl
  · rw [hp]
    dsimp only
    rw [hdir, Option.bind_some]
    refine congrArg Except.ok (Option.not_isSome_iff_eq_none.mp fun hsome => ?_)
    exact scanFile_isSome.mp hsome rfl

/-- A path that is seen without an error is blank, or a file is found there. -/
theorem blank_or_found {found : Option WorkEntry}
    (h : scanIndexed env fs stats filter true e = .ok found) :
    0 ∉ e.line.path ∧ (Blank env fs e.line.path ∨ ∃ w, found = some w ∧ w.path = e.line.path) := by
  rw [scanIndexed] at h
  split at h
  · cases h
  · rename_i hnul
    refine ⟨hnul, ?_⟩
    split at h
    · rename_i hmissing
      exact .inl ⟨hnul, .inl hmissing⟩
    · cases h
    · rename_i p hp
      cases hnode : fs.get p with
      | none => exact .inl ⟨hnul, .inr ⟨p, hp, .inl hnode⟩⟩
      | some node =>
        rw [hnode, Option.bind_some] at h
        by_cases hdir : node = .dir
        · exact .inl ⟨hnul, .inr ⟨p, hp, .inr (by rw [hnode, hdir])⟩⟩
        · obtain ⟨w, hw⟩ := Option.isSome_iff_exists.mp (scanFile_isSome.mpr hdir)
          rw [hw] at h
          cases h
          exact .inr ⟨w, rfl, path_of_scanFile hw⟩

/-! ### The two scans -/

/-- Each path of the index is there, or blank; and no path that is there comes twice. -/
structure Agreeing (env : Env) (fs : FileTree) (index : List StatEntry) : Prop where
  each : ∀ e ∈ index, e.line.stage = 0 →
    (0 ∉ e.line.path ∧ There env fs e.line.path) ∨ Blank env fs e.line.path
  once : (index.filter fun e => e.line.stage = 0).Pairwise fun a b =>
    There env fs a.line.path → a.line.path ≠ b.line.path

/-- What the sparse scan finds for a line. -/
def foundAt (env : Env) (fs : FileTree) (stats : Place → Stat) (filter : Bytes → Bytes → Bytes)
    (e : StatEntry) : Option WorkEntry :=
  match scanIndexed env fs stats filter true e with
  | .ok found => found
  | .error _ => none

theorem foundAt_of_mapM {lines : List StatEntry} {found : List (Option WorkEntry)}
    (h : lines.mapM (scanIndexed env fs stats filter true) = .ok found) :
    (∀ e ∈ lines, scanIndexed env fs stats filter true e = .ok (foundAt env fs stats filter e)) ∧
      found = lines.map (foundAt env fs stats filter) := by
  have hall := forall₂_of_mapM_ok h
  clear h
  induction hall with
  | nil => exact ⟨nofun, rfl⟩
  | @cons e r lines found hr _ ih =>
    have he : foundAt env fs stats filter e = r := by
      rw [foundAt, hr]
    refine ⟨forall_mem_cons.mpr ⟨?_, ih.1⟩, ?_⟩
    · rw [he]
      exact hr
    · rw [map_cons, he, ← ih.2]

/-- The line that is reused for a path is the only one with it. -/
theorem cached_eq_some (h : Agreeing env fs index) (he : e ∈ index) (hstage : e.line.stage = 0)
    (hthere : There env fs e.line.path) :
    cached index e.line.path = some e := by
  have hsome : (cached index e.line.path).isSome := by
    rw [cached, find?_isSome]
    exact ⟨e, mem_reverse.mpr he, decide_eq_true ⟨hstage, rfl⟩⟩
  obtain ⟨e', he'⟩ := Option.isSome_iff_exists.mp hsome
  obtain ⟨hmem, hstage', hpath⟩ := cached_mem he'
  have hsymm : Std.Symm fun a b : StatEntry => There env fs a.line.path → a.line.path ≠ b.line.path :=
    ⟨fun a b hab hb heq => hab (heq ▸ hb) heq.symm⟩
  have hall := h.once.forall
  by_cases heq : e = e'
  · rw [he', ← heq]
  · have hline : e ∈ index.filter fun e => e.line.stage = 0 :=
      mem_filter.mpr ⟨he, decide_eq_true hstage⟩
    have hline' : e' ∈ index.filter fun e => e.line.stage = 0 :=
      mem_filter.mpr ⟨hmem, decide_eq_true hstage'⟩
    exact absurd hpath.symm (hall hline hline' heq hthere)

section

variable (hnamed : Named fs) (hfilter : env.filter fs = .ok filter)

include hnamed hfilter

/-- What is found for a line whose path is there is in the full scan. -/
theorem mem_of_foundAt (h : Agreeing env fs index) (hfull : scanWithIndex env fs stats index = .ok ws)
    {e : StatEntry} (he : e ∈ index) (hstage : e.line.stage = 0) {w : WorkEntry}
    (hfound : foundAt env fs stats filter e = some w) :
    w ∈ ws ∧ w.path = e.line.path ∧ There env fs e.line.path := by
  rcases h.each e he hstage with ⟨hnul, hthere⟩ | hblank
  · rw [foundAt, scanIndexed_there hnamed hnul hthere] at hfound
    obtain ⟨node, hnode, hscan⟩ := Option.bind_eq_some_iff.mp hfound
    refine ⟨(mem_of_scanWithIndex hfilter hfull w).mpr ⟨splitPath e.line.path, ?_⟩,
      path_of_scanFile hscan, hthere⟩
    have htracked : ∃ l ∈ index.map StatEntry.line, l.path = e.line.path :=
      ⟨e.line, mem_map_of_mem he, rfl⟩
    have hfile : node ≠ .dir := scanFile_isSome.mp (by rw [hscan]; rfl)
    rw [scannedWith, if_pos ⟨splitPath_ne_nil,
      descend_tracked htracked hthere.reached hnode hfile _ [] false rfl⟩, joinPath_splitPath,
      cached_eq_some h he hstage hthere]
    rw [placeOf] at hnode hscan
    rw [hnode]
    exact hscan
  · rw [foundAt, scanIndexed_blank hblank] at hfound
    cases hfound

/-- A file of the full scan at a path of the index is found for its line. -/
theorem foundAt_of_mem (h : Agreeing env fs index) (hfull : scanWithIndex env fs stats index = .ok ws)
    {e : StatEntry} (he : e ∈ index) (hstage : e.line.stage = 0) {w : WorkEntry} (hw : w ∈ ws)
    (hpath : e.line.path = w.path) : foundAt env fs stats filter e = some w := by
  obtain ⟨rel, hscanned⟩ := (mem_of_scanWithIndex hfilter hfull w).mp hw
  obtain ⟨hthere, hrel⟩ := there_of_scannedWith hnamed hscanned
  obtain ⟨-, hjoin, -, node, hnode, -, hscan⟩ := scannedWith_spec hscanned
  rw [← hpath] at hthere
  have hnul : 0 ∉ e.line.path := by
    rcases h.each e he hstage with hclear | hblank
    · exact hclear.1
    · exact hblank.1
  have hplace : placeOf env.root e.line.path = env.root ++ rel := by
    rw [placeOf, hpath, hrel]
  rw [foundAt, scanIndexed_there hnamed hnul hthere, hplace, hnode, Option.bind_some]
  rw [← hjoin, ← hpath, cached_eq_some h he hstage hthere] at hscan
  exact hscan

/-- Paths that agree are scanned alike. -/
theorem sparse_of_agreeing (h : Agreeing env fs index)
    (hfull : scanWithIndex env fs stats index = .ok ws) :
    scanIndexedPaths env fs stats true index =
      .ok (ws.filter fun w => ∃ e ∈ index, e.line.stage = 0 ∧ e.line.path = w.path) := by
  let lines := index.filter fun e => e.line.stage = 0
  have hline : ∀ e, e ∈ lines ↔ e ∈ index ∧ e.line.stage = 0 := by
    intro e
    rw [mem_filter, decide_eq_true_eq]
  have hall : ∀ e ∈ lines, scanIndexed env fs stats filter true e = .ok (foundAt env fs stats filter e) := by
    intro e he
    obtain ⟨hmem, hstage⟩ := (hline e).mp he
    rw [foundAt]
    rcases h.each e hmem hstage with ⟨hnul, hthere⟩ | hblank
    · rw [scanIndexed_there hnamed hnul hthere]
    · rw [scanIndexed_blank hblank]
  have hmap : lines.mapM (scanIndexed env fs stats filter true)
      = .ok (lines.map (foundAt env fs stats filter)) := mapM_eq_ok hall
  have hfound : (lines.map (foundAt env fs stats filter)).filterMap id
      = lines.filterMap (foundAt env fs stats filter) := by
    rw [filterMap_map]
    rfl
  have hpaths : (lines.filterMap (foundAt env fs stats filter)).Pairwise fun a b => a.path ≠ b.path := by
    rw [pairwise_filterMap]
    refine h.once.imp_of_mem fun {a b} ha hb hne w hw w' hw' => ?_
    obtain ⟨ha, hstage⟩ := (hline a).mp ha
    obtain ⟨hb, hstage'⟩ := (hline b).mp hb
    obtain ⟨-, hpath, hthere⟩ := mem_of_foundAt hnamed hfilter h hfull ha hstage hw
    obtain ⟨-, hpath', -⟩ := mem_of_foundAt hnamed hfilter h hfull hb hstage' hw'
    rw [hpath, hpath']
    exact hne hthere
  have hmem : ∀ w, w ∈ lines.filterMap (foundAt env fs stats filter) ↔
      w ∈ ws.filter fun w => ∃ e ∈ index, e.line.stage = 0 ∧ e.line.path = w.path := by
    intro w
    rw [mem_filterMap, mem_filter, decide_eq_true_eq]
    constructor
    · rintro ⟨e, he, hw⟩
      obtain ⟨he, hstage⟩ := (hline e).mp he
      obtain ⟨hws, hpath, -⟩ := mem_of_foundAt hnamed hfilter h hfull he hstage hw
      exact ⟨hws, e, he, hstage, hpath.symm⟩
    · rintro ⟨hws, e, he, hstage, hpath⟩
      exact ⟨e, (hline e).mpr ⟨he, hstage⟩, foundAt_of_mem hnamed hfilter h hfull he hstage hws hpath⟩
  have hordered := ordered_scanWithIndex hnamed hfull
  have hsorted : Ordered ((lines.filterMap (foundAt env fs stats filter)).insertionSort (byPath · ·)) :=
    ordered_sort (pairwise_map.mpr hpaths)
  have hnodup : (lines.filterMap (foundAt env fs stats filter)).Nodup :=
    hpaths.imp fun {a b} hne heq => hne (congrArg WorkEntry.path heq)
  have hnodup' : (ws.filter fun w => ∃ e ∈ index, e.line.stage = 0 ∧ e.line.path = w.path).Nodup :=
    (hordered.imp fun {a b} hlt heq => ne_of_lt hlt (congrArg WorkEntry.path heq)).filter _
  have hperm := (perm_insertionSort (byPath · ·) _).trans
    ((perm_ext_iff_of_nodup hnodup hnodup').mpr hmem)
  rw [scanIndexedPaths, hfilter]
  dsimp only [bind, Except.bind]
  rw [hmap]
  dsimp only [pure, Except.pure]
  rw [hfound, hsorted.eq_of_perm (hordered.filter _) hperm]

/-- Scans that are alike have paths that agree. -/
theorem agreeing_of_sparse (hfull : scanWithIndex env fs stats index = .ok ws)
    (h : scanIndexedPaths env fs stats true index =
      .ok (ws.filter fun w => ∃ e ∈ index, e.line.stage = 0 ∧ e.line.path = w.path)) :
    Agreeing env fs index := by
  let lines := index.filter fun e => e.line.stage = 0
  rw [scanIndexedPaths, hfilter] at h
  obtain ⟨found, hmap, hsort⟩ := bind_eq_ok h
  have hsort' : (found.filterMap id).insertionSort (byPath · ·)
      = ws.filter fun w => ∃ e ∈ index, e.line.stage = 0 ∧ e.line.path = w.path := Except.ok.inj hsort
  obtain ⟨hfound, hlist⟩ := foundAt_of_mapM hmap
  have hthere : ∀ e ∈ lines, ∀ w, foundAt env fs stats filter e = some w → There env fs e.line.path := by
    intro e he w hw
    have hmem : w ∈ (found.filterMap id).insertionSort (byPath · ·) := by
      rw [mem_insertionSort, hlist, filterMap_map]
      exact mem_filterMap.mpr ⟨e, he, hw⟩
    rw [hsort', mem_filter] at hmem
    obtain ⟨rel, hscanned⟩ := (mem_of_scanWithIndex hfilter hfull w).mp hmem.1
    have hpath : w.path = e.line.path := by
      have hok := hfound e he
      rw [hw] at hok
      rcases (blank_or_found hok).2 with hblank | ⟨w', hsome, hpath⟩
      · rw [scanIndexed_blank hblank] at hok
        cases hok
      · rw [Option.some.inj hsome]
        exact hpath
    rw [← hpath]
    exact (there_of_scannedWith hnamed hscanned).1
  constructor
  · intro e he hstage
    have hline : e ∈ lines := mem_filter.mpr ⟨he, decide_eq_true hstage⟩
    obtain ⟨hnul, hseen⟩ := blank_or_found (hfound e hline)
    rcases hseen with hblank | ⟨w, hw, -⟩
    · exact .inr hblank
    · exact .inl ⟨hnul, hthere e hline w hw⟩
  · have hordered : Ordered ((found.filterMap id).insertionSort (byPath · ·)) := by
      rw [hsort']
      exact (ordered_scanWithIndex hnamed hfull).filter _
    have hnodup : ((found.filterMap id).map WorkEntry.path).Nodup := by
      refine (((perm_insertionSort (byPath · ·) _).map WorkEntry.path).nodup_iff).mp ?_
      exact pairwise_map.mpr (hordered.imp ne_of_lt)
    rw [hlist, filterMap_map, List.Nodup, pairwise_map, pairwise_filterMap] at hnodup
    refine hnodup.imp_of_mem fun {a b} ha hb hne hclear heq => ?_
    have hsome : ∀ e ∈ lines, There env fs e.line.path →
        ∃ w, foundAt env fs stats filter e = some w ∧ w.path = e.line.path := by
      intro e he hclear
      rcases (blank_or_found (hfound e he)).2 with hblank | hw
      · exact absurd hblank (not_blank_of_there hnamed hclear)
      · exact hw
    obtain ⟨w, hw, hpath⟩ := hsome a ha hclear
    obtain ⟨w', hw', hpath'⟩ := hsome b hb (heq ▸ hclear)
    exact hne w hw w' hw' (by rw [hpath, hpath', heq])

end

/-- **The sparse scan against the full one.**  When the full scan succeeds, the sparse scan gives what
    it found of the index's paths, just if each path of the index is there or blank, and no path that
    is there comes twice. -/
theorem scanIndexedPaths_exact (hnamed : Named fs) (hfull : scanWithIndex env fs stats index = .ok ws) :
    scanIndexedPaths env fs stats true index =
        .ok (ws.filter fun w => ∃ e ∈ index, e.line.stage = 0 ∧ e.line.path = w.path) ↔
      Agreeing env fs index := by
  cases hfilter : env.filter fs with
  | error e =>
    rw [scanWithIndex, hfilter] at hfull
    cases hfull
  | ok filter =>
    exact ⟨agreeing_of_sparse hnamed hfilter hfull, fun h => sparse_of_agreeing hnamed hfilter h hfull⟩

/-- Every name of a finite tree can be looked at. -/
theorem named_of_keys (h : ∀ p ∈ fs.nodes.keys, ∀ c ∈ p, ¬Special c ∧ slash ∉ c) : Named fs := by
  intro p hp
  refine h p ?_
  rw [Std.ExtTreeMap.mem_keys, Std.ExtTreeMap.mem_iff_isSome_getElem?]
  exact Option.isSome_iff_ne_none.mpr hp

/-- A file `a`. -/
def fileA : FileTree := toyFiles [([0x61], [1])]

def noStat (_ : Place) : Stat := ⟨toLex (1, 0), toLex (1, 0), 1, 1⟩

/-- A line that was never looked at. -/
def lineAt (path : Bytes) : StatEntry := zeroEntry (stageEntry (toyEntry path [1]) 0)

theorem named_fileA : Named fileA := named_of_keys (by decide +kernel)

theorem scan_fileA (path : Bytes) (h : path = [0x61] ∨ path = [0x61, 0x2f, 0x62]) :
    scanWithIndex Env.toy fileA noStat [lineAt path] = .ok [toyEntry [0x61] [1]] := by
  rcases h with rfl | rfl
  · exact ok_of_toOption (by decide +kernel)
  · exact ok_of_toOption (by decide +kernel)

theorem scanIndexedPaths_exact_a :
    scanIndexedPaths Env.toy fileA noStat true [lineAt [0x61]] = .ok [toyEntry [0x61] [1]] ↔
      Agreeing Env.toy fileA [lineAt [0x61]] :=
  scanIndexedPaths_exact named_fileA (scan_fileA [0x61] (.inl rfl))

/-- **A tracked file whose directory became a file.**  The full scan goes on without it; the sparse one
    fails. -/
theorem parent_is_a_file :
    scanWithIndex Env.toy fileA noStat [lineAt [0x61, 0x2f, 0x62]] = .ok [toyEntry [0x61] [1]] ∧
      ∀ ws, scanIndexedPaths Env.toy fileA noStat true [lineAt [0x61, 0x2f, 0x62]] ≠ .ok ws := by
  refine ⟨scan_fileA _ (.inr rfl), fun ws hws => ?_⟩
  have hfails : (scanIndexedPaths Env.toy fileA noStat true [lineAt [0x61, 0x2f, 0x62]]).toOption = none := by
    decide +kernel
  rw [hws] at hfails
  cases hfails

end Alt.StatCache
