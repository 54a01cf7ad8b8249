import Alt.Library.FileFrame
import Alt.Repo.Checkout

namespace Alt.Repo

open Alt.Library Alt.Library.FileTree Alt.Odb Alt.Refs List

/-!
# Where a checkout writes (`native.rs`, 1956–2067)

Nothing between the object store and the file system looks at the names in a tree.  What a checkout
touches is therefore only known for entries whose paths are plain and not behind symbolic links.

* `triple_removeTracked`, `triple_materialize` — what taking away and writing one entry touch;
* `triple_checkout` — what a whole checkout touches, wherever it stops;
* `checkout_contained` — for plain paths, only the entries' own places below the root and
  directories on the way to them, and none below a control directory.
-/

/-! ### Places -/

/-- The place a plain path spells. -/
def placeOf (root : Place) (path : Bytes) : Place := root ++ splitPath path

/-- A path of plain names, the first of which is no control directory. -/
structure Stays (path : Bytes) : Prop where
  plain : Plain (splitPath path)
  control : (splitPath path).head? ≠ some altDir ∧ (splitPath path).head? ≠ some gitDir

theorem splitPath_ne_nil {path : Bytes} : splitPath path ≠ [] := splitOn_ne_nil _ _

theorem abs_of_plain {root : Place} {path : Bytes} (h : Plain (splitPath path)) :
    abs root path = placeOf root path := by
  have hrelative : isAbsolute path = false := by
    cases path with
    | nil => rfl
    | cons b rest =>
      rw [isAbsolute, head?_cons]
      by_contra habsolute
      have hb : b = slash := by simpa using habsolute
      have hfirst : splitPath (b :: rest) = [] :: splitPath rest := by
        rw [splitPath, hb, splitOn_cons_eq_if_modifyHead, if_pos (beq_self_eq_true slash)]
        rfl
      exact h [] (by rw [hfirst]; exact mem_cons_self) (.inl rfl)
  rw [abs, hrelative]
  rfl

/-! ### One entry -/

section

variable {env : Env} {files dirs links : Place → Prop} {fs₀ : FileTree} {p : Place}

/-- A place that may be written: it and the directories on the way to it are among those that may be
    touched, and no link is on the way or will be. -/
structure Admits (env : Env) (files dirs links : Place → Prop) (fs₀ : FileTree) (p : Place) : Prop where
  plain : Plain p
  below : env.root <+: p
  ne : p ≠ env.root
  file : files p
  dirs : ∀ q, env.root <+: q → q ≠ env.root → q <+: p → dirs q
  clear : fs₀.Clear p
  links : ∀ q, q <+: p → q ≠ p → ¬links q

theorem Admits.clear_of (h : Admits env files dirs links fs₀ p) {fs : FileTree}
    (ht : Touches files dirs links fs₀ fs) : fs.Clear p :=
  ht.clear h.clear h.links

theorem Admits.parent (h : Admits env files dirs links fs₀ p) : env.root <+: p.dropLast := by
  obtain ⟨names, rfl⟩ := h.below
  have hnames : names ≠ [] := fun hnil => h.ne (by rw [hnil, append_nil])
  rw [dropLast_append_of_ne_nil hnames]
  exact prefix_append _ _

theorem triple_onFiles {g : FileTree → Except IoError FileTree} {P Q E : FileTree → Prop}
    (hok : ∀ fs fs', P fs → g fs = .ok fs' → Q fs') (herr : ∀ fs, P fs → E fs) :
    Triple (P ·.fs) (onFiles g) (fun _ s => Q s.fs) (fun _ s => E s.fs) := by
  intro s hs
  rw [onFiles]
  cases hg : g s.fs with
  | ok fs => exact hok s.fs fs hs hg
  | error e => exact herr s.fs hs

theorem triple_clearPath (h : Admits env files dirs links fs₀ p) :
    Triple (Touches files dirs links fs₀ ·.fs) (clearPath p)
      (fun _ s => Touches files dirs links fs₀ s.fs ∧ s.fs.get p = none)
      (fun _ s => Touches files dirs links fs₀ s.fs) := by
  refine .get fun s hs => .ite (fun hthere => ?_) fun hnot => .pure fun s' hs' => ?_
  · refine (triple_onFiles (P := Touches files dirs links fs₀)
      (Q := fun fs => Touches files dirs links fs₀ fs ∧ fs.get p = none)
      (E := Touches files dirs links fs₀) (fun fs fs' ht hremove => ?_) fun _ ht => ht).imp
      (fun s' hs' => by rw [hs']; exact hs) (fun _ _ h => h) fun _ _ h => h
    obtain ⟨htouch, hgone⟩ := removeFile_touches h.plain (h.clear_of ht) hremove
    exact ⟨ht.trans (htouch.mono (fun q hq => hq ▸ h.file) (fun _ => False.elim)
      fun _ => False.elim), hgone⟩
  · subst hs'
    exact ⟨hs, get_of_not_lexists h.plain (Bool.eq_false_of_not_eq_true hnot)⟩

theorem triple_createDirAll (h : Admits env files dirs links fs₀ p) (hroot : fs₀.get env.root = some .dir)
    (hkeep : ¬files env.root ∧ ¬dirs env.root) {q : Place} (hq : q <+: p) (hbelow : env.root <+: q) :
    Triple (Touches files dirs links fs₀ ·.fs) (createDirAll q)
      (fun _ s => Touches files dirs links fs₀ s.fs) (fun _ s => Touches files dirs links fs₀ s.fs) := by
  intro s hs
  have htouch := createDirAll_touches (h.plain.of_le hq) ((h.clear_of hs).of_le hq)
  have hdir : s.fs.get env.root = some .dir := (hs.get_eq_of_not_dirs hkeep.1 hkeep.2).trans hroot
  have hadmit : Touches files dirs links s.fs (s.fs.createDirAll q).1 := by
    refine htouch.mono (fun _ => False.elim) (fun d hd => ?_) fun _ => False.elim
    -- the root and what is above it are there already
    rcases prefix_or_prefix_of_prefix hd.1 hbelow with habove | hunder
    · obtain ⟨rest, hrest⟩ := habove
      have hsome : s.fs.get (d ++ rest) ≠ none := by
        rw [hrest, hdir]
        exact Option.some_ne_none _
      by_cases hnil : rest = []
      · rw [hnil, append_nil] at hsome
        exact absurd hd.2 hsome
      · have hup := get_above hnil hsome
        rw [hd.2] at hup
        cases hup
    · refine h.dirs d hunder (fun heq => ?_) (hd.1.trans hq)
      have hnone := hd.2
      rw [heq, hdir] at hnone
      cases hnone
  rw [createDirAll]
  revert hadmit
  rcases s.fs.createDirAll q with ⟨fs, result⟩
  intro hadmit
  cases result with
  | ok u => exact hs.trans hadmit
  | error e => exact hs.trans hadmit

/-- Taking an entry away touches it and the directories it leaves empty; no link is left there. -/
theorem triple_removeTracked (h : Admits env files dirs links fs₀ p) (hno : ¬links p) :
    Triple (Touches files dirs links fs₀ ·.fs) (removeTracked env p)
      (fun _ s => Touches files dirs links fs₀ s.fs ∧ s.fs.NoLink p)
      (fun _ s => Touches files dirs links fs₀ s.fs) := by
  refine .get fun s hs => .ite (fun hthere => ?_) fun hnot => .pure fun s' hs' => ?_
  · have hremove : Triple (Touches files dirs links fs₀ ·.fs) (onFiles fun fs => fs.removeFile p)
        (fun _ s => Touches files dirs links fs₀ s.fs ∧ s.fs.get p = none)
        (fun _ s => Touches files dirs links fs₀ s.fs) := by
      refine triple_onFiles (P := Touches files dirs links fs₀)
        (Q := fun fs => Touches files dirs links fs₀ fs ∧ fs.get p = none) (E := Touches files dirs links fs₀) (fun fs fs' ht hremove => ?_) fun _ ht => ht
      obtain ⟨htouch, hgone⟩ := removeFile_touches h.plain (h.clear_of ht) hremove
      exact ⟨ht.trans (htouch.mono (fun q hq => hq ▸ h.file) (fun _ => False.elim)
        fun _ => False.elim), hgone⟩
    refine (hremove.imp (fun s' hs' => by rw [hs']; exact hs) (fun _ _ h => h) fun _ _ h => h).bind fun _ =>
      .modify fun s' ⟨ht, hgone⟩ => ?_
    obtain ⟨names, rfl⟩ := h.below
    have hnames : names ≠ [] := fun hnil => h.ne (by rw [hnil, append_nil])
    have hparent : parentPath (env.root ++ names) = env.root ++ names.dropLast := by
      rw [parentPath_plain h.plain, dropLast_append_of_ne_nil hnames]
    have hpre : env.root ++ names.dropLast <+: env.root ++ names :=
      (prefix_append_right_inj _).mpr (List.dropLast_prefix names)
    have hprune := pruneEmptyDirs_touches ((env.root ++ names).length + 1)
      (h.plain.of_le hpre) ((h.clear_of ht).of_le hpre)
    rw [← hparent] at hprune
    have hadmit : Touches files dirs links _ _ := hprune.mono (fun _ => False.elim) (fun q ⟨hunder, hne, hin⟩ => h.dirs q hunder hne ((hparent ▸ hin).trans hpre))
      fun _ => False.elim
    refine ⟨ht.trans hadmit, hadmit.noLink (fun target hlink => ?_) hno⟩
    rw [hgone] at hlink
    cases hlink
  · subst hs'
    refine ⟨hs, fun target hlink => ?_⟩
    rw [get_of_not_lexists h.plain (Bool.eq_false_of_not_eq_true hnot)] at hlink
    cases hlink

theorem triple_clearForDir (h : Admits env files dirs links fs₀ p) :
    Triple (Touches files dirs links fs₀ ·.fs) (clearForDir p)
      (fun _ s => Touches files dirs links fs₀ s.fs) (fun _ s => Touches files dirs links fs₀ s.fs) := by
  refine .get fun s hs => ?_
  split
  · exact .pure fun s' hs' => by rw [hs']; exact hs
  · exact .pure fun s' hs' => by rw [hs']; exact hs
  · refine (triple_onFiles (P := Touches files dirs links fs₀) (Q := Touches files dirs links fs₀)
      (E := Touches files dirs links fs₀) (fun fs fs' ht hremove => ?_) fun _ ht => ht).imp
      (fun s' hs' => by rw [hs']; exact hs) (fun _ _ h => h) fun _ _ h => h
    obtain ⟨htouch, -⟩ := removeFile_touches h.plain (h.clear_of ht) hremove
    exact ht.trans (htouch.mono (fun q hq => hq ▸ h.file) (fun _ => False.elim) fun _ => False.elim)

/-- Writing a file or a link where nothing is. -/
theorem triple_writeBlob {w : WorkEntry} {data : Bytes} (h : Admits env files dirs links fs₀ p)
    (hlink : w.mode = symlinkMode → links p) :
    Triple (fun s => Touches files dirs links fs₀ s.fs ∧ s.fs.get p = none) (writeBlob env w p data)
      (fun _ s => Touches files dirs links fs₀ s.fs) (fun _ s => Touches files dirs links fs₀ s.fs) := by
  rw [writeBlob]
  refine .ite (fun hmode => ?_) fun _ => ?_
  · refine triple_onFiles (P := fun fs => Touches files dirs links fs₀ fs ∧ fs.get p = none)
      (Q := Touches files dirs links fs₀) (E := Touches files dirs links fs₀)
      (fun fs fs' ⟨ht, hnone⟩ hwrite => ?_) fun _ ht => ht.1
    exact ht.trans ((symlink_touches h.plain (h.clear_of ht) hwrite).mono (fun q hq => hq ▸ h.file)
      (fun _ => False.elim) fun q hq => hq ▸ hlink hmode)
  · refine Triple.bind (Q := fun _ s => Touches files dirs links fs₀ s.fs ∧ s.fs.get p = none)
      (.lift (fun _ _ s hs => hs) fun _ _ s hs => hs.1) fun content => ?_
    refine (triple_onFiles (P := fun fs => Touches files dirs links fs₀ fs ∧ fs.get p = none)
      (Q := fun fs => Touches files dirs links fs₀ fs ∧ fs.NoLink p)
      (E := Touches files dirs links fs₀) (fun fs fs' ⟨ht, hnone⟩ hwrite => ?_)
      fun _ ht => ht.1).bind fun _ => triple_onFiles
      (P := fun fs => Touches files dirs links fs₀ fs ∧ fs.NoLink p)
      (Q := Touches files dirs links fs₀) (E := Touches files dirs links fs₀)
      (fun fs fs' ⟨ht, hno⟩ hexec => ?_) fun _ ht => ht.1
    · have hno : fs.NoLink p := fun target hlink => by
        rw [hnone] at hlink
        cases hlink
      obtain ⟨htouch, exec, hfile⟩ := write_touches h.plain (h.clear_of ht) hno hwrite
      refine ⟨ht.trans (htouch.mono (fun q hq => hq ▸ h.file) (fun _ => False.elim)
        fun _ => False.elim), fun target hlink => ?_⟩
      rw [hfile] at hlink
      cases hlink
    · exact ht.trans ((setExec_touches h.plain (h.clear_of ht) hno hexec).mono
        (fun q hq => hq ▸ h.file) (fun _ => False.elim) fun _ => False.elim)

/-- **Writing an entry** touches its place and the directories on the way. -/
theorem triple_materialize {w : WorkEntry} (hw : abs env.root w.path = p)
    (h : Admits env files dirs links fs₀ p) (hroot : fs₀.get env.root = some .dir)
    (hkeep : ¬files env.root ∧ ¬dirs env.root) (hlink : w.mode = symlinkMode → links p) :
    Triple (Touches files dirs links fs₀ ·.fs) (materialize env w)
      (fun _ s => Touches files dirs links fs₀ s.fs) (fun _ s => Touches files dirs links fs₀ s.fs) := by
  rw [materialize, hw]
  refine .ite (fun _ => ?_) fun _ => ?_
  · exact (triple_clearForDir h).bind fun _ => triple_createDirAll h hroot hkeep prefix_rfl h.below
  · rw [parentPath_plain h.plain]
    refine (triple_createDirAll h hroot hkeep (List.dropLast_prefix p) h.parent).bind fun _ =>
      (triple_clearPath h).bind fun _ => .get fun s hs => ?_
    split
    · exact .throw fun s' hs' => by rw [hs']; exact hs.1
    · exact (triple_writeBlob h hlink).imp (fun s' hs' => by rw [hs']; exact hs) (fun _ _ h => h) fun _ _ h => h

theorem triple_makeEntry {w : WorkEntry} {P : FileTree → Prop} :
    Triple (P ·.fs) (makeEntry env w) (fun _ s => P s.fs) (fun _ s => P s.fs) := by
  intro s hs
  rw [makeEntry]
  by_cases hmode : w.mode = gitlink
  · rw [if_pos hmode]
    exact hs
  · rw [if_neg hmode]
    cases s.fs.lstat (abs env.root w.path) <;> exact hs

end

/-! ### A checkout -/

section

variable {env : Env} {old target : List WorkEntry} {fs₀ : FileTree}

/-- A checkout takes this entry away. -/
def Gone (target : List WorkEntry) (o : WorkEntry) : Prop :=
  (∀ t ∈ target, t.path ≠ o.path) ∧ o.mode ≠ gitlink

/-- The places of entries. -/
def placesOf (env : Env) (entries : List WorkEntry) (p : Place) : Prop :=
  ∃ e ∈ entries, p = placeOf env.root e.path

/-- Places below the root on the way to entries. -/
def onWayTo (env : Env) (entries : List WorkEntry) (p : Place) : Prop :=
  env.root <+: p ∧ p ≠ env.root ∧ ∃ e ∈ entries, p <+: placeOf env.root e.path

def symlinksOf (env : Env) (target : List WorkEntry) (p : Place) : Prop :=
  ∃ t ∈ target, t.mode = symlinkMode ∧ p = placeOf env.root t.path

/-- The root of the workspace is a directory under its real name. -/
structure Rooted (env : Env) (fs : FileTree) : Prop where
  plain : Plain env.root
  dir : fs.get env.root = some .dir

/-- What a checkout needs to stay inside: plain paths, and no symbolic link on the way to any of
    them, neither one that stays in the working tree nor one of the target. -/
structure Tame (env : Env) (fs : FileTree) (old target : List WorkEntry) : Prop where
  stays : ∀ e ∈ old ++ target, Stays e.path
  taken : ∀ o ∈ old, Gone target o → fs.Clear (placeOf env.root o.path)
  written : ∀ t ∈ target, ∀ q, q <+: placeOf env.root t.path → q ≠ placeOf env.root t.path →
    fs.NoLink q ∨ ∃ o ∈ old, Gone target o ∧ q = placeOf env.root o.path
  links : ∀ t ∈ target, ∀ l ∈ target, l.mode = symlinkMode →
    placeOf env.root l.path <+: placeOf env.root t.path → placeOf env.root l.path = placeOf env.root t.path

theorem placeOf_ne_root {path : Bytes} : placeOf env.root path ≠ env.root := by
  rw [placeOf, ne_eq, append_right_eq_self]
  exact splitPath_ne_nil

theorem root_not_touched {entries : List WorkEntry} :
    ¬placesOf env entries env.root ∧ ¬onWayTo env entries env.root :=
  ⟨fun ⟨_, _, h⟩ => placeOf_ne_root h.symm, fun h => h.2.1 rfl⟩

theorem Rooted.admits (hroot : Rooted env fs₀) {entries : List WorkEntry} {e : WorkEntry}
    {links : Place → Prop} (he : e ∈ entries) (hplain : Plain (splitPath e.path))
    (hclear : fs₀.Clear (placeOf env.root e.path))
    (hlinks : ∀ q, q <+: placeOf env.root e.path → q ≠ placeOf env.root e.path → ¬links q) :
    Admits env (placesOf env entries) (onWayTo env entries) links fs₀ (placeOf env.root e.path) where
  plain := by
    intro c hc
    rcases mem_append.mp hc with h | h
    · exact hroot.plain c h
    · exact hplain c h
  below := prefix_append _ _
  ne := placeOf_ne_root
  file := ⟨e, he, rfl⟩
  dirs q hbelow hne hq := ⟨hbelow, hne, e, he, hq⟩
  clear := hclear
  links := hlinks

/-- What taking the old entries away comes to: nothing that is gone leaves a link behind. -/
theorem triple_removeOld (hroot : Rooted env fs₀) (h : Tame env fs₀ old target) :
    Triple (Touches (placesOf env (old ++ target)) (onWayTo env (old ++ target)) nowhere fs₀ ·.fs)
      (old.forM fun o =>
        if (target.any fun t => t.path == o.path) || o.mode == gitlink then pure ()
        else removeTracked env (abs env.root o.path))
      (fun _ s => Touches (placesOf env (old ++ target)) (onWayTo env (old ++ target)) nowhere fs₀ s.fs ∧
        ∀ o ∈ old, Gone target o → s.fs.NoLink (placeOf env.root o.path))
      (fun _ s => Touches (placesOf env (old ++ target)) (onWayTo env (old ++ target)) nowhere fs₀
        s.fs) := by
  refine (Triple.forM (fun done s =>
    Touches (placesOf env (old ++ target)) (onWayTo env (old ++ target)) nowhere fs₀ s.fs ∧
      ∀ o ∈ done, Gone target o → s.fs.NoLink (placeOf env.root o.path)) ?_).imp
    (fun s hs => ⟨hs, nofun⟩) (fun _ _ hs => hs) fun _ _ hs => hs
  intro done o rest hold
  have ho : o ∈ old := by simp [hold]
  refine .ite (fun hstays => .pure fun s hs => ⟨hs.1, fun o' ho' hgone => ?_⟩) fun hgone => ?_
  · rcases mem_append.mp ho' with hmem | hmem
    · exact hs.2 o' hmem hgone
    · obtain rfl := mem_singleton.mp hmem
      rcases Bool.or_eq_true_iff.mp hstays with hany | hmode
      · obtain ⟨t, ht, hpath⟩ := any_eq_true.mp hany
        exact absurd (eq_of_beq hpath) (hgone.1 t ht)
      · exact absurd (eq_of_beq hmode) hgone.2
  · have hgone : Gone target o := by
      rw [Bool.or_eq_true_iff, not_or] at hgone
      refine ⟨fun t ht hpath => hgone.1 (any_eq_true.mpr ⟨t, ht, ?_⟩), fun hmode => hgone.2 ?_⟩
      · rw [hpath]
        exact beq_self_eq_true _
      · rw [hmode]
        exact beq_self_eq_true _
    have hmem : o ∈ old ++ target := mem_append_left _ ho
    have hplain := (h.stays o hmem).plain
    rw [abs_of_plain hplain]
    have hadmit : Admits env (placesOf env (old ++ target)) (onWayTo env (old ++ target)) nowhere fs₀
        (placeOf env.root o.path) :=
      hroot.admits hmem hplain (h.taken o ho hgone) fun _ _ _ h => h
    refine Triple.frozen fun s hs => ?_
    intro s' hs'
    subst hs'
    -- what was gone before stays gone: nothing makes links here
    have hadmit : Admits env (placesOf env (old ++ target)) (onWayTo env (old ++ target)) nowhere
        s'.fs (placeOf env.root o.path) := { hadmit with clear := hadmit.clear_of hs.1 }
    have hstep := triple_removeTracked hadmit id s' (.refl _)
    cases hrun : removeTracked env (placeOf env.root o.path) s' with
    | error e s =>
      rw [hrun] at hstep
      exact hs.1.trans hstep
    | ok u s =>
      rw [hrun] at hstep
      refine ⟨hs.1.trans hstep.1, fun o' ho' hgone' => ?_⟩
      rcases mem_append.mp ho' with hdone | hlast
      · exact hstep.1.noLink (hs.2 o' hdone hgone') id
      · rw [mem_singleton.mp hlast]
        exact hstep.2

/-- **What a checkout touches**, wherever it stops. -/
theorem triple_checkout (hroot : Rooted env fs₀) (h : Tame env fs₀ old target) :
    Triple (·.fs = fs₀) (checkout env old target)
      (fun _ s => Touches (placesOf env (old ++ target)) (onWayTo env (old ++ target))
        (symlinksOf env target) fs₀ s.fs)
      (fun _ s => Touches (placesOf env (old ++ target)) (onWayTo env (old ++ target))
        (symlinksOf env target) fs₀ s.fs) := by
  refine .get fun s hs => ?_
  split
  · exact .throw fun s' hs' => by rw [hs', hs]
  · refine ((triple_removeOld hroot h).imp (fun s' (hs' : s' = s) => by rw [hs', hs])
      (fun _ _ h => h) fun _ _ ht => ht.mono (fun _ h => h) (fun _ h => h) fun _ => False.elim).bind
      fun _ => .frozen fun s₁ hs₁ => ?_
    have hfirst : Touches (placesOf env (old ++ target)) (onWayTo env (old ++ target))
        (symlinksOf env target) fs₀ s₁.fs :=
      hs₁.1.mono (fun _ h => h) (fun _ h => h) fun _ => False.elim
    have hroot₁ : Rooted env s₁.fs := by
      refine ⟨hroot.plain, ?_⟩
      rw [hs₁.1.get_eq_of_not_dirs root_not_touched.1 root_not_touched.2]
      exact hroot.dir
    have hwrite : Triple (Touches (placesOf env (old ++ target)) (onWayTo env (old ++ target))
        (symlinksOf env target) s₁.fs ·.fs)
        (target.mapM fun t => do
          materialize env t
          makeEntry env t)
        (fun _ s => Touches (placesOf env (old ++ target)) (onWayTo env (old ++ target))
          (symlinksOf env target) s₁.fs s.fs)
        (fun _ s => Touches (placesOf env (old ++ target)) (onWayTo env (old ++ target))
          (symlinksOf env target) s₁.fs s.fs) := by
      refine Triple.mapM (fun _ _ (s : NativeRepo) => Touches (placesOf env (old ++ target))
        (onWayTo env (old ++ target)) (symlinksOf env target) s₁.fs s.fs) ?_
      intro done ys t rest htarget
      have ht : t ∈ target := by simp [htarget]
      have hmem : t ∈ old ++ target := mem_append_right _ ht
      have hplain := (h.stays t hmem).plain
      have hclear : s₁.fs.Clear (placeOf env.root t.path) := by
        intro q hq hne
        rcases h.written t ht q hq hne with hno | ⟨o, ho, hgone, rfl⟩
        · exact hs₁.1.noLink hno id
        · exact hs₁.2 o ho hgone
      have hadmit : Admits env (placesOf env (old ++ target)) (onWayTo env (old ++ target))
          (symlinksOf env target) s₁.fs (placeOf env.root t.path) := hroot₁.admits hmem hplain hclear
        fun q hq hne ⟨l, hl, hmode, hlq⟩ => hne (hlq.trans (h.links t ht l hl hmode (hlq ▸ hq)))
      exact (triple_materialize (abs_of_plain hplain) hadmit hroot₁.dir root_not_touched
        fun hmode => ⟨t, ht, hmode, rfl⟩).bind fun _ => triple_makeEntry
    refine (hwrite.imp (fun s' (hs' : s' = s₁) => by rw [hs']) (fun _ _ ht => hfirst.trans ht)
      fun _ _ ht => hfirst.trans ht).bind fun entries => ?_
    exact fun s' hs' => hs'

/-- The change of a place is inside the working tree: below the root, not in a control directory, and
    at the place that an entry's path spells, or on the way there. -/
structure Inside (env : Env) (entries : List WorkEntry) (p : Place) : Prop where
  below : ∃ names, p = env.root ++ names ∧ names ≠ [] ∧ names.head? ≠ some altDir ∧
    names.head? ≠ some gitDir ∧ ∃ e ∈ entries, names <+: splitPath e.path

/-- **A checkout stays inside.** From plain entries with no links on the way, whatever a checkout
    changes is inside the working tree, also when it fails. -/
theorem checkout_contained {r : NativeRepo} (hroot : Rooted env r.fs) (h : Tame env r.fs old target) :
    ∀ p, (leaves (checkout env old target r)).fs.get p ≠ r.fs.get p →
      Inside env (old ++ target) p := by
  intro p hne
  have htouch : Touches (placesOf env (old ++ target)) (onWayTo env (old ++ target))
      (symlinksOf env target) r.fs (leaves (checkout env old target r)).fs := by
    have htriple := triple_checkout hroot h r rfl
    cases hrun : checkout env old target r with
    | ok u s =>
      rw [hrun] at htriple
      exact htriple
    | error e s =>
      rw [hrun] at htriple
      exact htriple
  have hway : env.root <+: p ∧ p ≠ env.root ∧ ∃ e ∈ old ++ target, p <+: placeOf env.root e.path := by
    rcases htouch.only p hne with ⟨e, he, rfl⟩ | hdir
    · exact ⟨prefix_append _ _, placeOf_ne_root, e, he, prefix_rfl⟩
    · exact hdir.1
  obtain ⟨⟨names, rfl⟩, hnot, e, he, hpre⟩ := hway
  have hnames : names ≠ [] := fun hnil => hnot (by rw [hnil, append_nil])
  have hpre : names <+: splitPath e.path := (prefix_append_right_inj _).mp hpre
  have hhead : names.head? = (splitPath e.path).head? := by
    obtain ⟨rest, hrest⟩ := hpre
    rw [← hrest, head?_append_of_ne_nil _ hnames]
  have hcontrol := (h.stays e he).control
  exact ⟨names, rfl, hnames, hhead ▸ hcontrol.1, hhead ▸ hcontrol.2, e, he, hpre⟩

end

/-! ### One file, and one outside -/

theorem tame_file {fs : FileTree} : Tame Env.toy fs [toyEntry [0x66] [1]] [toyEntry [0x66] [2]] := by
  have hpath : ∀ e ∈ [toyEntry [0x66] [1]] ++ [toyEntry [0x66] [2]], e.path = [0x66] := by
    intro e he
    rcases mem_cons.mp he with rfl | he
    · rfl
    · rw [mem_singleton.mp he]
      rfl
  have hplace : placeOf Env.toy.root [0x66] = [[0x66]] := by decide
  have htop : ∀ q, q <+: placeOf Env.toy.root [0x66] → q ≠ placeOf Env.toy.root [0x66] → fs.NoLink q := by
    intro q hq hne target hlink
    rw [hplace] at hq hne
    rcases prefix_cons_iff.mp hq with rfl | ⟨rest, rfl, hrest⟩
    · rw [get_top] at hlink
      cases hlink
    · rw [prefix_nil.mp hrest] at hne
      exact hne rfl
  refine ⟨fun e he => ?_, fun o ho _ => ?_, fun t ht q hq hne => .inl ?_, fun t ht l hl _ _ => ?_⟩
  · rw [hpath e he]
    exact ⟨by decide, by decide⟩
  · rw [hpath o (mem_append_left _ ho)]
    exact htop
  · rw [hpath t (mem_append_right _ ht)] at hq hne
    exact htop q hq hne
  · rw [hpath t (mem_append_right _ ht), hpath l (mem_append_right _ hl)]

/-- A workspace with one file. -/
def oneFile : NativeRepo where
  objects := toyObjects [(.blob, [1]), (.blob, [2])]
  refs := toyRefs []
  ops := []
  fs := toyFiles [([0x66], [1])]
  controls _ := ⟨[stageEntry (toyEntry [0x66] [1]) 0], none, none, none, none⟩

theorem checkout_contained_file :
    (leaves (checkout Env.toy [toyEntry [0x66] [1]] [toyEntry [0x66] [2]] oneFile)).fs.get [[0x66]] ≠
        oneFile.fs.get [[0x66]] ∧
      Inside Env.toy ([toyEntry [0x66] [1]] ++ [toyEntry [0x66] [2]]) [[0x66]] := by
  have hchanged : (leaves (checkout Env.toy [toyEntry [0x66] [1]] [toyEntry [0x66] [2]]
      oneFile)).fs.get [[0x66]] ≠ oneFile.fs.get [[0x66]] := by decide +kernel
  exact ⟨hchanged, checkout_contained ⟨by decide, get_top _⟩ tame_file _ hchanged⟩

/-- A workspace below the top of the file system. -/
def innerEnv : Env := { Env.toy with root := [[0x77]] }

/-- A tree whose only entry is called `../x`. -/
def upTree : Bytes := toyTree [([0x2e, 0x2e, 0x2f, 0x78], [1])]

def upRepo : NativeRepo where
  objects := toyObjects [(.blob, [1]), (.tree, upTree)]
  refs := toyRefs []
  ops := []
  fs := (FileTree.empty.makeDir [[0x77]]).toOption.getD .empty
  controls _ := ⟨[], none, none, none, none⟩

/-- **A tree can lead out of the working tree.** Its entry `../x` is written next to the root. -/
theorem checkout_escapes : ∃ target,
    flattenTree upRepo.objects innerEnv.algo innerEnv.fuel.tree (toyId .tree upTree) = .ok target ∧
      ∃ p, (leaves (checkout innerEnv [] target upRepo)).fs.get p ≠ upRepo.fs.get p ∧
        ¬Inside innerEnv ([] ++ target) p := by
  refine ⟨[toyEntry [0x2e, 0x2e, 0x2f, 0x78] [1]], ok_of_toOption (by decide +kernel), [[0x78]],
    by decide +kernel, ?_⟩
  rintro ⟨names, hp, -⟩
  cases hp

end Alt.Repo
