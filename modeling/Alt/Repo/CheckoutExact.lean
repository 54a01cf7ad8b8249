import Alt.Library.FileWrites
import Alt.Repo.Contained

namespace Alt.Repo

open Alt.Library Alt.Library.FileTree Alt.Odb Alt.Refs List

/-!
# What a checkout leaves (`native.rs`, 1956–2067)

The other half of `Contained`: where nothing is in the way, a checkout goes through and every entry
of the target is in the working tree afterwards.

* `nodeFor` — what an entry looks like in the working tree;
* `removeTracked_runs`, `materialize_runs` — one entry taken away, one entry written;
* `Fits` — nothing is in the way of a checkout;
* `checkout_runs` — the checkout goes through, and `Replaces` says what it leaves.
-/

/-- What an entry looks like in the working tree, if it can be written at all. -/
def nodeFor (env : Env) (objects : Objects) (w : WorkEntry) : Option Node :=
  if w.mode = gitlink then some .dir
  else (objects w.oid).bind fun obj =>
    if w.mode = symlinkMode then
      if obj.data = [] ∨ 0 ∈ obj.data then none else some (.symlink obj.data)
    else (env.smudge obj.data).toOption.map fun content =>
      .file (content.getD obj.data) (w.mode == executable)

/-! ### One entry -/

section

variable {env : Env} {r : NativeRepo} {p : Place}

/-- A path is the slashes between its names. -/
theorem joinPath_splitPath (path : Bytes) : joinPath (splitPath path) = path :=
  intercalate_splitOn slash

/-- No name of a path has a slash. -/
theorem slash_not_mem_splitPath {path name : Bytes} (h : name ∈ splitPath path) : slash ∉ name := by
  induction path generalizing name with
  | nil =>
    obtain rfl : name = [] := mem_singleton.mp h
    exact not_mem_nil
  | cons b rest ih =>
    rw [splitPath, splitOn_cons_eq_if_modifyHead] at h
    split at h
    · rcases mem_cons.mp h with rfl | hmem
      · exact not_mem_nil
      · exact ih hmem
    · rename_i hb
      cases hrest : splitPath rest with
      | nil => exact absurd hrest (splitOn_ne_nil _ _)
      | cons first others =>
        rw [splitPath] at hrest
        rw [hrest, modifyHead_cons] at h
        rcases mem_cons.mp h with rfl | hmem
        · rw [mem_cons, not_or]
          refine ⟨fun heq => hb (by rw [← heq]; exact beq_self_eq_true _), ih ?_⟩
          rw [splitPath, hrest]
          exact mem_cons_self
        · refine ih ?_
          rw [splitPath, hrest]
          exact mem_cons_of_mem _ hmem

theorem splitPath_inj {path path' : Bytes} (h : splitPath path = splitPath path') : path = path' := by
  rw [← joinPath_splitPath path, h, joinPath_splitPath]

theorem run_onFiles {g : FileTree → Except IoError FileTree} {fs : FileTree} (h : g r.fs = .ok fs) :
    onFiles g r = .ok () { r with fs } := by
  rw [onFiles, h]

/-- Directories on the way to `p`, below the root. -/
def wayTo (env : Env) (p q : Place) : Prop := env.root <+: q ∧ q ≠ env.root ∧ q <+: p

theorem admits_self (links : Place → Prop) (hplain : Plain p) (hbelow : env.root <+: p)
    (hne : p ≠ env.root) (hclear : r.fs.Clear p) (hlinks : ∀ q, q <+: p → q ≠ p → ¬links q) :
    Admits env (· = p) (wayTo env p) links r.fs p where
  plain := hplain
  below := hbelow
  ne := hne
  file := rfl
  dirs _ hq hnq hpre := ⟨hq, hnq, hpre⟩
  clear := hclear
  links := hlinks

/-- **Taking an entry away** leaves nothing at its place. -/
theorem removeTracked_runs (hplain : Plain p) (hbelow : env.root <+: p) (hne : p ≠ env.root)
    (hclear : r.fs.Clear p) (hdir : r.fs.get p ≠ some .dir) :
    ∃ fs, removeTracked env p r = .ok () { r with fs } ∧ Shrinks r.fs fs ∧ fs.get p = none ∧
      Touches (· = p) (wayTo env p) nowhere r.fs fs := by
  have htriple := triple_removeTracked (admits_self nowhere hplain hbelow hne hclear fun _ _ _ h => h) id r (.refl _)
  by_cases hthere : r.fs.lexists p = true
  · obtain ⟨node, hnode⟩ := Option.ne_none_iff_exists'.mp ((lexists_iff hplain hclear).mp hthere)
    obtain ⟨fs₁, hremove⟩ := removeFile_ok hplain hnode fun heq => hdir (heq ▸ hnode)
    obtain ⟨-, hgone⟩ := removeFile_touches hplain hclear hremove
    have hprune := pruneEmptyDirs_shrinks env.root (p.length + 1) fs₁ (parentPath p)
    have hrun : removeTracked env p r =
        .ok () { r with fs := fs₁.pruneEmptyDirs env.root (p.length + 1) (parentPath p) } := by
      rw [removeTracked, run_get, if_pos hthere, run_bind_ok (run_onFiles hremove)]
      rfl
    rw [hrun] at htriple
    exact ⟨_, hrun, (removeFile_shrinks hremove).trans hprune, hprune.get_eq_none hgone, htriple.1⟩
  · have hrun : removeTracked env p r = .ok () r := by
      rw [removeTracked, run_get, if_neg hthere]
      rfl
    exact ⟨r.fs, hrun, .refl _, get_of_not_lexists hplain (Bool.eq_false_of_not_eq_true hthere), .refl _⟩

/-- What is no directory can be taken away, or is not there. -/
theorem clearPath_runs (hplain : Plain p) (hclear : r.fs.Clear p) (hdir : r.fs.get p ≠ some .dir) :
    ∃ fs, clearPath p r = .ok () { r with fs } ∧ fs.get p = none ∧ Touches (· = p) nowhere nowhere r.fs fs := by
  by_cases hthere : r.fs.lexists p = true
  · obtain ⟨node, hnode⟩ := Option.ne_none_iff_exists'.mp ((lexists_iff hplain hclear).mp hthere)
    obtain ⟨fs, hremove⟩ := removeFile_ok hplain hnode fun heq => hdir (heq ▸ hnode)
    obtain ⟨htouch, hgone⟩ := removeFile_touches hplain hclear hremove
    refine ⟨fs, ?_, hgone, htouch⟩
    rw [clearPath, run_get, if_pos hthere, run_onFiles hremove]
  · refine ⟨r.fs, ?_, get_of_not_lexists hplain (Bool.eq_false_of_not_eq_true hthere), .refl _⟩
    rw [clearPath, run_get, if_neg hthere]
    rfl

theorem clearForDir_runs (hplain : Plain p) (hclear : r.fs.Clear p) :
    ∃ fs, clearForDir p r = .ok () { r with fs } ∧ Hollow (fs.get p) ∧ Touches (· = p) nowhere nowhere r.fs fs := by
  have hnode : ∀ node, r.fs.lstat p = .ok node → node ≠ .dir →
      ∃ fs, onFiles (fun fs => fs.removeFile p) r = .ok () { r with fs } ∧ Hollow (fs.get p) ∧
        Touches (· = p) nowhere nowhere r.fs fs := by
    intro node hstat hne
    obtain ⟨fs, hremove⟩ := removeFile_ok hplain (get_of_lstat hplain hclear hstat) hne
    obtain ⟨htouch, hgone⟩ := removeFile_touches hplain hclear hremove
    exact ⟨fs, run_onFiles hremove, .inl hgone, htouch⟩
  rw [clearForDir, run_get]
  cases hstat : r.fs.lstat p with
  | error e =>
    refine ⟨r.fs, rfl, .inl ?_, .refl _⟩
    by_contra hsome
    obtain ⟨node, hget⟩ := Option.ne_none_iff_exists'.mp hsome
    rw [lstat_of_get hplain hget] at hstat
    cases hstat
  | ok node =>
    cases node with
    | dir => exact ⟨r.fs, rfl, .inr (get_of_lstat hplain hclear hstat), .refl _⟩
    | file content exec => exact hnode _ hstat nofun
    | symlink target => exact hnode _ hstat nofun

theorem createDirAll_runs (hplain : Plain p) (hopen : r.fs.Open p) :
    ∃ fs, createDirAll p r = .ok () { r with fs } ∧ fs.get p = some .dir ∧
      Touches nowhere (fun q => q <+: p ∧ r.fs.get q = none) nowhere r.fs fs := by
  have htouch := createDirAll_touches hplain hopen.clear
  obtain ⟨fs, hrun, hdir⟩ := createDirAll_open hplain hopen
  rw [hrun] at htouch
  refine ⟨fs, ?_, hdir, htouch⟩
  rw [createDirAll, hrun]

/-- Writing where nothing is, into a directory that is there. -/
theorem writeBlob_runs {w : WorkEntry} {obj : RawObject} {node : Node} (hplain : Plain p) (hne : p ≠ [])
    (hdir : r.fs.get p.dropLast = some .dir) (hnone : r.fs.get p = none) (hmode : w.mode ≠ gitlink)
    (hobj : r.objects w.oid = some obj) (hnode : nodeFor env r.objects w = some node) :
    ∃ fs, writeBlob env w p obj.data r = .ok () { r with fs } ∧ fs.get p = some node := by
  rw [nodeFor, if_neg hmode, hobj, Option.bind_some] at hnode
  rw [writeBlob]
  by_cases hlink : w.mode = symlinkMode
  · rw [if_pos hlink] at hnode ⊢
    split at hnode
    · cases hnode
    · rename_i hdata
      rw [not_or] at hdata
      cases hnode
      obtain ⟨fs, hrun, hget⟩ := symlink_ok hplain hne hdir hnone hdata.1 hdata.2
      exact ⟨fs, run_onFiles hrun, hget⟩
  · rw [if_neg hlink] at hnode ⊢
    cases hsmudge : env.smudge obj.data with
    | error e =>
      rw [hsmudge] at hnode
      cases hnode
    | ok content =>
      rw [hsmudge] at hnode
      cases hnode
      obtain ⟨fs₁, hwrite, hfile⟩ := write_ok hplain hne hdir hnone
      obtain ⟨fs, hexec, hget⟩ := setExec_ok (w.mode == executable) hplain hfile
      refine ⟨fs, ?_, hget⟩
      rw [run_lift, run_bind_ok (run_onFiles hwrite), run_onFiles hexec]

/-- **Writing an entry** leaves it at its place. -/
theorem materialize_runs {w : WorkEntry} {node : Node} (hw : abs env.root w.path = p) (hplain : Plain p)
    (hbelow : env.root <+: p) (hne : p ≠ env.root) (hroot : r.fs.get env.root = some .dir)
    (hway : ∀ q, q <+: p → q ≠ p → Hollow (r.fs.get q))
    (hplace : w.mode ≠ gitlink → r.fs.get p ≠ some .dir) (hnode : nodeFor env r.objects w = some node) :
    ∃ fs, materialize env w r = .ok () { r with fs } ∧ fs.get p = some node ∧
      Touches (· = p) (wayTo env p) (fun q => q = p ∧ w.mode = symlinkMode) r.fs fs := by
  have hclear : r.fs.Clear p := fun q hq hnq => Hollow.noLink (hway q hq hnq)
  have htriple := triple_materialize hw (admits_self (fun q => q = p ∧ w.mode = symlinkMode) hplain hbelow
    hne hclear fun q _ hnq h => hnq h.1) hroot ⟨fun h => hne h.symm, fun h => h.2.1 rfl⟩
    (fun hmode => ⟨rfl, hmode⟩) r (.refl _)
  have hnil : p ≠ [] := fun h => hne (h ▸ (prefix_nil.mp (h ▸ hbelow)).symm)
  suffices hrun : ∃ fs, materialize env w r = .ok () { r with fs } ∧ fs.get p = some node by
    obtain ⟨fs, hrun, hget⟩ := hrun
    rw [hrun] at htriple
    exact ⟨fs, hrun, hget, htriple⟩
  rw [materialize, hw]
  by_cases hmode : w.mode = gitlink
  · have hdir : node = .dir := by
      rw [nodeFor, if_pos hmode] at hnode
      exact (Option.some.inj hnode).symm
    obtain ⟨fs₁, hclearRun, hhollow, htouch⟩ := clearForDir_runs hplain hclear
    have hopen : fs₁.Open p := by
      intro q hq
      by_cases heq : q = p
      · rwa [heq]
      · rw [htouch.get_eq_of_not_dirs heq id]
        exact hway q hq heq
    obtain ⟨fs, hmake, hget, -⟩ := createDirAll_runs (r := { r with fs := fs₁ }) hplain hopen
    refine ⟨fs, ?_, hdir ▸ hget⟩
    rw [if_pos hmode, run_bind_ok hclearRun, hmake]
  · have hpre : p.dropLast <+: p := dropLast_prefix p
    have hshort : ∀ q, q <+: p.dropLast → q ≠ p := by
      rintro q hq rfl
      have hlength := hq.length_le
      rw [length_dropLast] at hlength
      have := length_pos_iff.mpr hnil
      omega
    obtain ⟨fs₁, hmake, hdir₁, htouch₁⟩ := createDirAll_runs (hplain.of_le hpre)
      (fun q hq => hway q (hq.trans hpre) (hshort q hq))
    have hplace₁ : fs₁.get p = r.fs.get p := htouch₁.get_eq_of_not_dirs id fun h => hshort p h.1 rfl
    have hclear₁ : fs₁.Clear p := htouch₁.clear hclear fun _ _ _ h => h
    obtain ⟨fs₂, hclearRun, hnone, htouch₂⟩ := clearPath_runs (r := { r with fs := fs₁ }) hplain hclear₁
      (hplace₁ ▸ hplace hmode)
    have hdir₂ : fs₂.get p.dropLast = some .dir := by
      rw [htouch₂.get_eq_of_not_dirs (hshort _ prefix_rfl) id]
      exact hdir₁
    cases hobj : r.objects w.oid with
    | none =>
      rw [nodeFor, if_neg hmode, hobj] at hnode
      cases hnode
    | some obj =>
      obtain ⟨fs, hwrite, hget⟩ := writeBlob_runs (r := { r with fs := fs₂ }) hplain hnil
        hdir₂ hnone hmode hobj hnode
      refine ⟨fs, ?_, hget⟩
      rw [if_neg hmode, parentPath_plain hplain, run_bind_ok hmake, run_bind_ok hclearRun, run_get]
      simp only [hobj, hwrite]

theorem makeEntry_runs {w : WorkEntry} {node : Node} (hw : abs env.root w.path = p) (hplain : Plain p)
    (h : r.fs.get p = some node) : makeEntry env w r = .ok (stageEntry w 0) r := by
  rw [makeEntry]
  by_cases hmode : w.mode = gitlink
  · rw [if_pos hmode]
  · rw [if_neg hmode, hw, lstat_of_get hplain h]

end

/-! ### A checkout -/

section

variable {env : Env} {old target : List WorkEntry} {r : NativeRepo}

/-- Nothing is in the way of a checkout, and every entry of the target can be written. -/
structure Fits (env : Env) (objects : Objects) (fs : FileTree) (old target : List WorkEntry) : Prop where
  plain : ∀ e ∈ old ++ target, e ∈ target ∨ Gone target e → Plain (splitPath e.path)
  apart : target.Pairwise fun t u => ¬placeOf env.root t.path <+: placeOf env.root u.path ∧
    ¬placeOf env.root u.path <+: placeOf env.root t.path
  taken : ∀ o ∈ old, Gone target o →
    fs.Clear (placeOf env.root o.path) ∧ fs.get (placeOf env.root o.path) ≠ some .dir
  way : ∀ t ∈ target, ∀ q, q <+: placeOf env.root t.path → q ≠ placeOf env.root t.path →
    Hollow (fs.get q) ∨ ∃ o ∈ old, Gone target o ∧ q = placeOf env.root o.path
  place : ∀ t ∈ target, t.mode ≠ gitlink → fs.get (placeOf env.root t.path) ≠ some .dir
  free : ∀ t ∈ target, t.mode ≠ gitlink → (∀ o ∈ old, o.path ≠ t.path) →
    fs.lexists (placeOf env.root t.path) = false
  writes : ∀ t ∈ target, nodeFor env objects t ≠ none

/-- The places a checkout takes away from or writes to. -/
def replaced (env : Env) (old target : List WorkEntry) (p : Place) : Prop :=
  (∃ o ∈ old, Gone target o ∧ p = placeOf env.root o.path) ∨ placesOf env target p

/-- The files of `target` are where those of `old` were. -/
structure Replaces (env : Env) (objects : Objects) (old target : List WorkEntry) (fs fs' : FileTree) :
    Prop where
  written : ∀ t ∈ target, fs'.get (placeOf env.root t.path) = nodeFor env objects t
  removed : ∀ o ∈ old, Gone target o → Hollow (fs'.get (placeOf env.root o.path))
  touches : Touches (replaced env old target) (fun q => ∃ p, replaced env old target p ∧ wayTo env p q)
    (symlinksOf env target) fs fs'

theorem gone_iff {o : WorkEntry} :
    ((target.any fun t => t.path == o.path) || o.mode == gitlink) = false ↔ Gone target o := by
  rw [Bool.or_eq_false_iff, any_eq_false]
  simp only [Gone, beq_iff_eq, beq_eq_false_iff_ne, ne_eq]

theorem Rooted.placeOf {fs : FileTree} (hroot : Rooted env fs) {path : Bytes}
    (hplain : Plain (splitPath path)) : Plain (placeOf env.root path) := by
  intro c hc
  rcases mem_append.mp hc with h | h
  · exact hroot.plain c h
  · exact hplain c h

/-- What the tree is once these old entries are gone. -/
structure Cleared (env : Env) (old target done : List WorkEntry) (fs fs' : FileTree) : Prop where
  shrinks : Shrinks fs fs'
  gone : ∀ o ∈ done, Gone target o → fs'.get (placeOf env.root o.path) = none
  touches : Touches (replaced env old target) (fun q => ∃ p, replaced env old target p ∧ wayTo env p q)
    nowhere fs fs'

/-- **Taking the old entries away** goes through. -/
theorem removeOld_runs (hroot : Rooted env r.fs) (h : Fits env r.objects r.fs old target) :
    ∃ fs, old.forM (fun o =>
        if (target.any fun t => t.path == o.path) || o.mode == gitlink then pure ()
        else removeTracked env (abs env.root o.path)) r = .ok () { r with fs } ∧
      Cleared env old target old r.fs fs := by
  obtain ⟨s, hrun, hs, hcleared⟩ := run_forM
    (f := fun o : WorkEntry =>
      if (target.any fun t => t.path == o.path) || o.mode == gitlink then (pure () : Cmd Unit)
      else removeTracked env (abs env.root o.path)) (s := r) old
    (fun done s => s = { r with fs := s.fs } ∧ Cleared env old target done r.fs s.fs)
    (fun done o rest s hold ⟨hs, hcleared⟩ => by
      have ho : o ∈ old := by simp [hold]
      by_cases hgone : Gone target o
      · rw [gone_iff.mpr hgone]
        have hplain := h.plain o (mem_append_left _ ho) (.inr hgone)
        have hdir : s.fs.get (placeOf env.root o.path) ≠ some .dir :=
          hcleared.shrinks.ne_dir (h.taken o ho hgone).2
        obtain ⟨fs, hremove, hshrinks, hnone, htouch⟩ := removeTracked_runs (r := s)
          (hroot.placeOf hplain) (prefix_append _ _) placeOf_ne_root
          (fun q hq hne => hcleared.shrinks.noLink ((h.taken o ho hgone).1 q hq hne)) hdir
        refine ⟨{ s with fs }, ?_, ?_, hcleared.shrinks.trans hshrinks, fun o' ho' hgone' => ?_, ?_⟩
        · rw [abs_of_plain hplain]
          exact hremove
        · rw [hs]
        · rcases mem_append.mp ho' with hdone | hlast
          · exact hshrinks.get_eq_none (hcleared.gone o' hdone hgone')
          · rw [mem_singleton.mp hlast]
            exact hnone
        · exact hcleared.touches.trans (htouch.mono (fun q hq => .inl ⟨o, ho, hgone, hq⟩)
            (fun q hq => ⟨_, .inl ⟨o, ho, hgone, rfl⟩, hq⟩) fun _ => id)
      · rw [if_pos (Bool.eq_true_of_not_eq_false fun hfalse => hgone (gone_iff.mp hfalse))]
        refine ⟨s, rfl, hs, hcleared.shrinks, fun o' ho' hgone' => ?_, hcleared.touches⟩
        rcases mem_append.mp ho' with hdone | hlast
        · exact hcleared.gone o' hdone hgone'
        · exact absurd (mem_singleton.mp hlast ▸ hgone') hgone)
    ⟨rfl, .refl _, nofun, .refl _⟩
  refine ⟨s.fs, ?_, hcleared⟩
  rw [hrun, ← hs]

/-- What the tree is once these entries are written. -/
structure Written (env : Env) (objects : Objects) (target done : List WorkEntry) (fs fs' : FileTree) :
    Prop where
  written : ∀ t ∈ done, fs'.get (placeOf env.root t.path) = nodeFor env objects t
  touches : Touches (placesOf env done) (fun q => ∃ p, placesOf env done p ∧ wayTo env p q)
    (symlinksOf env target) fs fs'

/-- **Writing the target** goes through. -/
theorem writeTarget_runs {fs : FileTree} (hroot : Rooted env fs) (h : Fits env r.objects fs old target)
    (hcleared : Cleared env old target old fs r.fs) :
    ∃ fs', (target.mapM fun t => do
        materialize env t
        makeEntry env t : Cmd Index) r = .ok (target.map (stageEntry · 0)) { r with fs := fs' } ∧
      Written env r.objects target target r.fs fs' := by
  have hroot₁ : r.fs.get env.root = some .dir := by
    rw [hcleared.touches.get_eq_of_not_dirs]
    · exact hroot.dir
    · rintro (⟨o, -, -, heq⟩ | ⟨t, -, heq⟩) <;> exact placeOf_ne_root heq.symm
    · rintro ⟨p, -, hway⟩
      exact hway.2.1 rfl
  obtain ⟨s, hrun, hs, hwritten⟩ := run_mapM (g := (stageEntry · 0))
    (f := fun t => do
      materialize env t
      makeEntry env t) (s := r) target
    (fun done s => s = { r with fs := s.fs } ∧ Written env r.objects target done r.fs s.fs)
    (fun done t rest s htarget ⟨hs, hwritten⟩ => by
      have ht : t ∈ target := by simp [htarget]
      have hplain := h.plain t (mem_append_right _ ht) (.inl ht)
      have hplace : abs env.root t.path = placeOf env.root t.path := abs_of_plain hplain
      have hapart : ∀ u ∈ done, ¬placeOf env.root u.path <+: placeOf env.root t.path ∧
          ¬placeOf env.root t.path <+: placeOf env.root u.path := by
        intro u hu
        have hpairs := h.apart
        rw [htarget, pairwise_append] at hpairs
        exact hpairs.2.2 u hu t mem_cons_self
      have hdone : ∀ q, ¬placesOf env done q → (¬∃ p, placesOf env done p ∧ wayTo env p q) →
          s.fs.get q = r.fs.get q := fun q hfile hdir => hwritten.touches.get_eq_of_not_dirs hfile hdir
      have hway : ∀ q, q <+: placeOf env.root t.path → q ≠ placeOf env.root t.path →
          Hollow (s.fs.get q) := by
        intro q hq hne
        by_cases hsame : s.fs.get q = r.fs.get q
        · rw [hsame]
          rcases h.way t ht q hq hne with hhollow | ⟨o, ho, hgone, rfl⟩
          · exact hcleared.shrinks.hollow hhollow
          · exact .inl (hcleared.gone o ho hgone)
        · rcases hwritten.touches.only q hsame with ⟨u, hu, rfl⟩ | ⟨-, -, hafter⟩
          · exact absurd hq (hapart u hu).1
          · exact hafter
      have hfree : t.mode ≠ gitlink → s.fs.get (placeOf env.root t.path) ≠ some .dir := by
        intro hmode
        rw [hdone]
        · exact hcleared.shrinks.ne_dir (h.place t ht hmode)
        · rintro ⟨u, hu, heq⟩
          exact (hapart u hu).1 (heq ▸ prefix_rfl)
        · rintro ⟨p, ⟨u, hu, rfl⟩, hpre⟩
          exact (hapart u hu).2 hpre.2.2
      have hroot_s : s.fs.get env.root = some .dir := by
        rw [hdone]
        · exact hroot₁
        · rintro ⟨u, -, heq⟩
          exact placeOf_ne_root heq.symm
        · rintro ⟨p, -, hpre⟩
          exact hpre.2.1 rfl
      obtain ⟨node, hnode⟩ := Option.ne_none_iff_exists'.mp (h.writes t ht)
      have hobjects : s.objects = r.objects := by rw [hs]
      obtain ⟨fs', hrun, hget, htouch⟩ := materialize_runs (r := s) hplace (hroot.placeOf hplain)
        (prefix_append _ _) placeOf_ne_root hroot_s hway hfree (hobjects ▸ hnode)
      refine ⟨{ s with fs := fs' }, ?_, ?_, fun u hu => ?_, ?_⟩
      · rw [run_bind_ok hrun, makeEntry_runs hplace (hroot.placeOf hplain) hget]
      · rw [hs]
      · rcases mem_append.mp hu with hmem | hlast
        · rw [← hwritten.written u hmem]
          refine htouch.get_eq_of_not_dirs (fun heq => ?_) fun hpre => ?_
          · exact (hapart u hmem).1 (heq ▸ prefix_rfl)
          · exact (hapart u hmem).1 hpre.2.2
        · rw [mem_singleton.mp hlast, hnode]
          exact hget
      · refine (hwritten.touches.mono ?_ ?_ fun _ => id).trans (htouch.mono ?_ ?_ ?_)
        · exact fun q ⟨u, hu, hq⟩ => ⟨u, mem_append_left _ hu, hq⟩
        · exact fun q ⟨p, ⟨u, hu, hp⟩, hq⟩ => ⟨p, ⟨u, mem_append_left _ hu, hp⟩, hq⟩
        · exact fun q hq => ⟨t, mem_append_right _ mem_cons_self, hq⟩
        · exact fun q hq => ⟨_, ⟨t, mem_append_right _ mem_cons_self, rfl⟩, hq⟩
        · exact fun q ⟨hq, hmode⟩ => ⟨t, ht, hmode, hq⟩)
    ⟨rfl, nofun, .refl _⟩
  refine ⟨s.fs, ?_, hwritten⟩
  rw [hrun, ← hs]

/-- The state files after a checkout. -/
def Control.checkedOut (c : Control) (target : List WorkEntry) : Control :=
  { c with index := (target.map (stageEntry · 0)).insertionSort (byPathStage · ·) }

theorem collision_eq_none (h : Fits env r.objects r.fs old target) : collision env r.fs old target = none := by
  rw [collision, find?_eq_none]
  intro t ht hcollides
  simp only [Bool.and_eq_true, bne_iff_ne, ne_eq, Bool.not_eq_true', any_eq_false, beq_iff_eq] at hcollides
  obtain ⟨⟨hmode, hold⟩, hthere⟩ := hcollides
  rw [abs_of_plain (h.plain t (mem_append_right _ ht) (.inl ht)), h.free t ht hmode hold] at hthere
  cases hthere

/-- **A checkout goes through** where nothing is in the way, and leaves the target. -/
theorem checkout_runs (hroot : Rooted env r.fs) (h : Fits env r.objects r.fs old target) :
    ∃ fs, checkout env old target r = .ok () { r with
        fs, controls := Function.update r.controls env.workspace
          ((r.controls env.workspace).checkedOut target) } ∧
      Replaces env r.objects old target r.fs fs := by
  obtain ⟨fs₁, hremove, hcleared⟩ := removeOld_runs hroot h
  obtain ⟨fs, hwrite, hwritten⟩ := writeTarget_runs (r := { r with fs := fs₁ }) hroot h hcleared
  refine ⟨fs, ?_, hwritten.written, fun o ho hgone => ?_, ?_⟩
  · rw [checkout, run_get, collision_eq_none h]
    dsimp only
    rw [run_bind_ok hremove, run_bind_ok hwrite]
    rfl
  · by_cases hsame : fs.get (placeOf env.root o.path) = fs₁.get (placeOf env.root o.path)
    · rw [hsame]
      exact .inl (hcleared.gone o ho hgone)
    · rcases hwritten.touches.only _ hsame with ⟨t, ht, heq⟩ | ⟨-, -, hafter⟩
      · exact absurd (splitPath_inj (append_cancel_left heq)).symm (hgone.1 t ht)
      · exact hafter
  · refine (hcleared.touches.mono (fun _ => id) (fun _ => id) fun _ => False.elim).trans
      (hwritten.touches.mono (fun q hq => .inr hq) ?_ fun _ => id)
    exact fun q ⟨p, hp, hq⟩ => ⟨p, .inr hp, hq⟩

end

end Alt.Repo
