import Alt.Repo.MergeTrees

namespace Alt.Repo

open Alt.Library Alt.Odb Alt.Merge List

/-!
# The tree merge law (`native/merge.rs`, 107–209)

What a merge of three trees should be: every path of the three once, a path that one side left
alone as the other side has it, and every other path merged as text or left in conflict; without
a conflict, a tree again.

* `merge_trees_law` — when `merge_trees` keeps that law: no submodule is read that is not stored,
  only regular files are merged as texts without a conflict, and no surviving path is a
  directory of another.

Paths are resolved one by one, so a file on one side and a directory of its name on the other
are both taken (`file_and_directory`).
-/

/-! ### The law -/

/-- The entry is a submodule. -/
def IsLink (e : WorkEntry) : Prop := e.mode &&& 0o170000 = gitlink

/-- The entry is a regular file. -/
def IsRegular (e : WorkEntry) : Prop := e.mode &&& 0o170000 = 0o100000

instance (e : WorkEntry) : Decidable (IsLink e) := inferInstanceAs (Decidable (_ = _))

instance (e : WorkEntry) : Decidable (IsRegular e) := inferInstanceAs (Decidable (_ = _))

/-- All blobs are present: whatever is not a submodule is stored, and whatever names a blob. -/
def BlobsPresent (P : Prims) (algo : HashAlgo) (objects : Objects) (es : List WorkEntry) : Prop :=
  ∀ e ∈ es, (¬IsLink e ∨ ∃ data, e.oid = ObjectId.hashObject P algo .blob data) →
    (objects e.oid).isSome

/-- Two regular files, and the result is the clean merge of their texts. -/
def ContentMerged (P : Prims) (algo : HashAlgo) (objects : Objects) (theirLabel : String)
    (path : Bytes) (bo ao tho : Option WorkEntry) (r : Resolved) : Prop :=
  ∃ a t m, ao = some a ∧ tho = some t ∧ IsRegular a ∧ IsRegular t ∧
    textMerge objects theirLabel bo a t = some m ∧ m.isClean = true ∧
    r = .clean path (some ⟨path, ObjectId.hashObject P algo .blob m.content, a.mode⟩)

/-- What the resolution of one path should be. -/
structure PathLaw (P : Prims) (algo : HashAlgo) (objects : Objects) (theirLabel : String)
    (path : Bytes) (bo ao tho : Option WorkEntry) (r : Resolved) : Prop where
  agreed : ao = tho → r = .clean path ao
  theirs : ao = bo → r = .clean path tho
  ours : tho = bo → r = .clean path ao
  diverged : ao ≠ tho → ao ≠ bo → tho ≠ bo →
    r.conflicted = true ∨ ContentMerged P algo objects theirLabel path bo ao tho r

/-- No path of the entries is a directory of another's. -/
def ValidTree (es : List WorkEntry) : Prop :=
  ∀ e ∈ es, ∀ f ∈ es, ¬(e.path ++ [slash]) <+: f.path

instance (es : List WorkEntry) : Decidable (ValidTree es) :=
  inferInstanceAs (Decidable (∀ e ∈ es, _))

/-- **The merge law** of what three trees are resolved to. -/
structure TreeMergeLaw (P : Prims) (algo : HashAlgo) (objects : Objects) (theirLabel : String)
    (base ours theirs : List WorkEntry) (resolved : List Resolved) : Prop where
  once : (resolved.map Resolved.path).Nodup
  paths : ∀ path, path ∈ resolved.map Resolved.path ↔
    path ∈ (base ++ ours ++ theirs).map WorkEntry.path
  each : ∀ r ∈ resolved, PathLaw P algo objects theirLabel r.path (entryAt base r.path)
    (entryAt ours r.path) (entryAt theirs r.path) r
  valid : (∀ r ∈ resolved, r.conflicted = false) → ValidTree (resolved.filterMap Resolved.entry)

/-! ### When it holds -/

/-- The sides are left in conflict. -/
def Conflicts (objects : Objects) (theirLabel : String) (bo ao tho : Option WorkEntry) : Prop :=
  Diverged bo ao tho ∧ ∀ a t, ao = some a → tho = some t → TextMerged objects bo a t →
    ∀ m, textMerge objects theirLabel bo a t = some m → m.isClean = false

/-- The path is in the result, unless it is left in conflict. -/
def Survives (bo ao tho : Option WorkEntry) : Prop :=
  if same ao tho ∨ same tho bo then ao.isSome
  else if same ao bo then tho.isSome
  else True

/-- **When three trees are merged as they should be.** -/
structure MergeConditions (objects : Objects) (theirLabel : String)
    (base ours theirs : List WorkEntry) : Prop where
  /-- The submodules that are read happen to be stored here. -/
  links : ∀ path, ∀ e ∈ readsOf (entryAt base path) (entryAt ours path) (entryAt theirs path),
    IsLink e → (objects e.oid).isSome
  /-- Texts merge, and without a conflict only those of regular files. -/
  files : ∀ path a t, entryAt ours path = some a → entryAt theirs path = some t →
    TextMerged objects (entryAt base path) a t →
    ∃ m, textMerge objects theirLabel (entryAt base path) a t = some m ∧
      (m.isClean = true → IsRegular a)
  /-- Without a conflict, no path that survives is a directory of another. -/
  apart : (∀ path, ¬Conflicts objects theirLabel (entryAt base path) (entryAt ours path)
      (entryAt theirs path)) →
    ∀ p q, Survives (entryAt base p) (entryAt ours p) (entryAt theirs p) →
      Survives (entryAt base q) (entryAt ours q) (entryAt theirs q) → ¬(p ++ [slash]) <+: q

section

variable {P : Prims} {algo : HashAlgo} {objects objects' : Objects} {theirLabel : String}
  {base ours theirs : List WorkEntry}

theorem same_iff {es fs : List WorkEntry} {path : Bytes} :
    same (entryAt es path) (entryAt fs path) = true ↔ entryAt es path = entryAt fs path := by
  cases he : entryAt es path with
  | none => cases entryAt fs path <;> simp [same]
  | some e =>
    cases hf : entryAt fs path with
    | none => simp [same]
    | some f =>
      have hpath : e.path = f.path := (mem_of_entryAt he).2.trans (mem_of_entryAt hf).2.symm
      obtain ⟨_, oid, mode⟩ := e
      obtain ⟨_, oid', mode'⟩ := f
      obtain rfl := hpath
      simp [same]

theorem mem_pathsOf {path : Bytes} :
    path ∈ pathsOf base ours theirs ↔ path ∈ (base ++ ours ++ theirs).map WorkEntry.path := by
  rw [pathsOf, (perm_insertionSort _ _).mem_iff, mem_dedup]

theorem nodup_pathsOf : (pathsOf base ours theirs).Nodup :=
  (perm_insertionSort _ _).nodup_iff.mpr (nodup_dedup _)

/-- A path that is in no tree is agreed on. -/
theorem entryAt_eq_none {es : List WorkEntry} {path : Bytes}
    (h : path ∉ es.map WorkEntry.path) : entryAt es path = none := by
  rw [entryAt, getLast?_eq_none_iff, filter_eq_nil_iff]
  intro e he
  rw [decide_eq_true_eq]
  rintro rfl
  exact h (mem_map_of_mem he)

/-- Nothing happens at a path that is in no tree. -/
theorem absent_of_not_mem {path : Bytes} (h : path ∉ pathsOf base ours theirs) :
    ¬Diverged (entryAt base path) (entryAt ours path) (entryAt theirs path) ∧
      ¬Survives (entryAt base path) (entryAt ours path) (entryAt theirs path) := by
  rw [mem_pathsOf, map_append, map_append, mem_append, mem_append, not_or,
    not_or] at h
  obtain ⟨⟨-, hours⟩, htheirs⟩ := h
  rw [entryAt_eq_none hours, entryAt_eq_none htheirs]
  constructor
  · rintro ⟨hagree, -, -⟩
    cases hagree
  · simp [Survives, same]

/-- Under the conditions the engine has what it needs. -/
theorem mergeable_of_conditions (hblobs : BlobsPresent P algo objects (base ++ ours ++ theirs))
    (h : MergeConditions objects theirLabel base ours theirs) (path : Bytes) :
    Mergeable objects theirLabel (entryAt base path) (entryAt ours path) (entryAt theirs path) := by
  constructor
  · intro e he
    by_cases hlink : IsLink e
    · exact h.links path e he hlink
    · exact hblobs e (mem_of_readsOf he) (.inl hlink)
  · intro a t ha ht htext hnone
    obtain ⟨m, hm, -⟩ := h.files path a t ha ht htext
    rw [hm] at hnone
    cases hnone

theorem apart_of_blobsPresent (hblobs : BlobsPresent P algo objects (base ++ ours ++ theirs)) :
    Apart P algo objects (base ++ ours ++ theirs) := by
  intro e he
  by_cases hblob : ∃ data, e.oid = ObjectId.hashObject P algo .blob data
  · exact .inl (hblobs e he (.inr hblob))
  · exact .inr fun data heq => hblob ⟨data, heq⟩

/-! ### What a resolved path says -/

variable {path : Bytes} {bo ao tho : Option WorkEntry} {r : Resolved}

theorem Resolves.path_eq (h : Resolves P algo objects theirLabel path bo ao tho r) :
    r.path = path := by
  cases h <;> rfl

/-- A path is in conflict as `Conflicts` says. -/
theorem Resolves.conflicted_iff (h : Resolves P algo objects theirLabel path bo ao tho r) :
    r.conflicted = true ↔ Conflicts objects theirLabel bo ao tho := by
  cases h with
  | agreed hagree => exact ⟨fun hc => (by cases hc), fun hc => by simp [hc.1.1] at hagree⟩
  | theirs _ hours => exact ⟨fun hc => (by cases hc), fun hc => by simp [hc.1.2.1] at hours⟩
  | ours _ _ htheirs => exact ⟨fun hc => (by cases hc), fun hc => by simp [hc.1.2.2] at htheirs⟩
  | merged a t m ha ht htext hm hclean =>
    refine ⟨fun hc => (by cases hc), fun hc => ?_⟩
    have hnot := hc.2 a t ha ht htext m hm
    rw [hclean] at hnot
    cases hnot
  | conflict hdiverged hnot =>
    refine ⟨fun _ => ⟨hdiverged, fun a t ha ht htext m hm => ?_⟩, fun _ => rfl⟩
    obtain ⟨m', hm', hclean⟩ := hnot a t ha ht htext
    rw [hm] at hm'
    cases hm'
    exact hclean

/-- A path without a conflict is kept as `Survives` says. -/
theorem Resolves.entry_isSome_iff (h : Resolves P algo objects theirLabel path bo ao tho r)
    (hclean : r.conflicted = false) : r.entry.isSome ↔ Survives bo ao tho := by
  cases h with
  | agreed hagree => simp [Survives, hagree, Resolved.clean]
  | theirs hagree hours =>
    by_cases htheirs : same tho bo = true
    · -- both sides left it alone, so they agree
      cases ao <;> cases tho <;> cases bo <;> simp_all [same]
    · simp [Survives, hagree, hours, htheirs, Resolved.clean]
  | ours _ _ htheirs => simp [Survives, htheirs, Resolved.clean]
  | merged a t m ha ht htext =>
    obtain ⟨⟨hagree, hours, htheirs⟩, -⟩ := htext
    rw [ha, ht, Survives, if_neg (by simp [hagree, htheirs]), if_neg (by simp [hours])]
    simp [Resolved.clean]
  | conflict => cases hclean

end

section

variable {P : Prims} {algo : HashAlgo} {objects objects' : Objects} {theirLabel : String}
  {base ours theirs : List WorkEntry} {path : Bytes} {r : Resolved}

/-- What a path resolves to keeps the law, if only regular files merge as texts cleanly. -/
theorem pathLaw_of_resolves
    (h : Resolves P algo objects theirLabel path (entryAt base path) (entryAt ours path)
      (entryAt theirs path) r)
    (hfiles : ∀ a t, entryAt ours path = some a → entryAt theirs path = some t →
      TextMerged objects (entryAt base path) a t →
      ∀ m, textMerge objects theirLabel (entryAt base path) a t = some m → m.isClean = true →
        IsRegular a) :
    PathLaw P algo objects theirLabel path (entryAt base path) (entryAt ours path)
      (entryAt theirs path) r := by
  cases h with
  | agreed hagree =>
    rw [same_iff] at hagree
    exact ⟨fun _ => rfl, fun _ => by rw [hagree], fun _ => rfl, fun hne => absurd hagree hne⟩
  | theirs hagree hours =>
    rw [same_iff] at hours
    have hne : entryAt ours path ≠ entryAt theirs path := fun heq => by
      rw [same_iff.mpr heq] at hagree
      cases hagree
    exact ⟨fun heq => absurd heq hne, fun _ => rfl, fun heq => absurd (hours.trans heq.symm) hne,
      fun _ hne' => absurd hours hne'⟩
  | ours hagree hours htheirs =>
    rw [same_iff] at htheirs
    have hne : entryAt ours path ≠ entryAt base path := fun heq => by
      rw [same_iff.mpr heq] at hours
      cases hours
    exact ⟨fun _ => rfl, fun heq => absurd heq hne, fun _ => rfl,
      fun _ _ hne' => absurd htheirs hne'⟩
  | merged a t m ha ht htext hm hclean =>
    obtain ⟨⟨hagree, hours, htheirs⟩, hun⟩ := htext
    rw [← ha, ← ht] at hagree
    rw [← ha] at hours
    rw [← ht] at htheirs
    refine ⟨fun heq => ?_, fun heq => ?_, fun heq => ?_, fun _ _ _ => .inr ?_⟩
    · rw [same_iff.mpr heq] at hagree
      cases hagree
    · rw [same_iff.mpr heq] at hours
      cases hours
    · rw [same_iff.mpr heq] at htheirs
      cases htheirs
    · have hregular := hfiles a t ha ht ⟨⟨ha ▸ ht ▸ hagree, ha ▸ hours, ht ▸ htheirs⟩, hun⟩ m hm
        hclean
      have hmode : a.mode = t.mode := by
        simp only [unmergeable, Bool.or_eq_false_iff, bne_eq_false_iff_eq] at hun
        exact hun.1.1.1
      refine ⟨a, t, m, ha, ht, hregular, ?_, hm, hclean, rfl⟩
      rwa [IsRegular, ← hmode]
  | conflict hdiverged =>
    obtain ⟨hagree, hours, htheirs⟩ := hdiverged
    refine ⟨fun heq => ?_, fun heq => ?_, fun heq => ?_, fun _ _ _ => .inl rfl⟩
    · rw [same_iff.mpr heq] at hagree
      cases hagree
    · rw [same_iff.mpr heq] at hours
      cases hours
    · rw [same_iff.mpr heq] at htheirs
      cases htheirs

/-- A resolved entry is at the path it was resolved at. -/
theorem Resolves.path_of_mem_entry
    (h : Resolves P algo objects theirLabel path (entryAt base path) (entryAt ours path)
      (entryAt theirs path) r) {e : WorkEntry} (he : e ∈ r.entry) : e.path = path := by
  cases h with
  | agreed => exact (mem_of_entryAt he).2
  | theirs => exact (mem_of_entryAt he).2
  | ours => exact (mem_of_entryAt he).2
  | merged =>
    obtain rfl := Option.some.inj he
    rfl
  | conflict => cases he

variable {paths : List Bytes} {resolved : List Resolved}

variable (h : AllResolve P algo objects theirLabel base ours theirs paths resolved)
include h

theorem AllResolve.map_path : resolved.map Resolved.path = paths := by
  induction h with
  | nil => rfl
  | cons hr _ ih => rw [map_cons, ih, hr.path_eq]

theorem AllResolve.of_mem (hr : r ∈ resolved) : Resolves P algo objects theirLabel r.path
      (entryAt base r.path) (entryAt ours r.path) (entryAt theirs r.path) r := by
  induction h with
  | nil => cases hr
  | cons hfirst _ ih =>
    rcases mem_cons.mp hr with rfl | hmem
    · have hpath := hfirst.path_eq
      rwa [hpath]
    · exact ih hmem

theorem AllResolve.exists_at (hpath : path ∈ paths) : ∃ r ∈ resolved, r.path = path := by
  rw [← h.map_path] at hpath
  exact mem_map.mp hpath

omit h

/-- No path is in conflict exactly when no resolution is. -/
theorem no_conflict_iff
    (h : AllResolve P algo objects theirLabel base ours theirs (pathsOf base ours theirs)
      resolved) :
    (∀ r ∈ resolved, r.conflicted = false) ↔ ∀ path, ¬Conflicts objects theirLabel
      (entryAt base path) (entryAt ours path) (entryAt theirs path) := by
  constructor
  · intro hclean path hconflict
    by_cases hpath : path ∈ pathsOf base ours theirs
    · obtain ⟨r, hr, rfl⟩ := h.exists_at hpath
      have hc := (h.of_mem hr).conflicted_iff.mpr hconflict
      rw [hclean r hr] at hc
      cases hc
    · exact (absent_of_not_mem hpath).1 hconflict.1
  · intro hnone r hr
    rw [Bool.eq_false_iff]
    exact fun hc => hnone r.path ((h.of_mem hr).conflicted_iff.mp hc)

/-- The result of a merge without conflicts is a tree exactly when the surviving paths are
    apart. -/
theorem validTree_iff
    (h : AllResolve P algo objects theirLabel base ours theirs (pathsOf base ours theirs)
      resolved) (hclean : ∀ r ∈ resolved, r.conflicted = false) :
    ValidTree (resolved.filterMap Resolved.entry) ↔
      ∀ p q, Survives (entryAt base p) (entryAt ours p) (entryAt theirs p) →
        Survives (entryAt base q) (entryAt ours q) (entryAt theirs q) →
        ¬(p ++ [slash]) <+: q := by
  have hsurvivor : ∀ p, Survives (entryAt base p) (entryAt ours p) (entryAt theirs p) →
      ∃ e ∈ resolved.filterMap Resolved.entry, e.path = p := by
    intro p hp
    by_cases hpath : p ∈ pathsOf base ours theirs
    · obtain ⟨r, hr, rfl⟩ := h.exists_at hpath
      have hresolves := h.of_mem hr
      obtain ⟨e, he⟩ := Option.isSome_iff_exists.mp
        ((hresolves.entry_isSome_iff (hclean r hr)).mpr hp)
      exact ⟨e, mem_filterMap.mpr ⟨r, hr, he⟩, hresolves.path_of_mem_entry he⟩
    · exact absurd hp (absent_of_not_mem hpath).2
  have hentry : ∀ e ∈ resolved.filterMap Resolved.entry,
      Survives (entryAt base e.path) (entryAt ours e.path) (entryAt theirs e.path) := by
    intro e he
    obtain ⟨r, hr, hre⟩ := mem_filterMap.mp he
    have hresolves := h.of_mem hr
    rw [hresolves.path_of_mem_entry hre]
    exact (hresolves.entry_isSome_iff (hclean r hr)).mp (by simp [hre])
  constructor
  · intro hvalid p q hp hq
    obtain ⟨e, he, rfl⟩ := hsurvivor p hp
    obtain ⟨f, hf, rfl⟩ := hsurvivor q hq
    exact hvalid e he f hf
  · intro hapart e he f hf
    exact hapart e.path f.path (hentry e he) (hentry f hf)

/-- **The tree merge law.** With all blobs present, three trees are merged as they should be
    exactly under `MergeConditions`. -/
theorem merge_trees_law (hblobs : BlobsPresent P algo objects (base ++ ours ++ theirs)) :
    (∃ resolved objects', mergeTrees P algo theirLabel base ours theirs objects =
        .ok resolved objects' ∧
      TreeMergeLaw P algo objects theirLabel base ours theirs resolved) ↔
    MergeConditions objects theirLabel base ours theirs := by
  constructor
  · rintro ⟨resolved, objects', hrun, hlaw⟩
    have hneeds := mergeable_of_ok (apart_of_blobsPresent hblobs) hrun
    have hmergeable : ∀ path, Mergeable objects theirLabel (entryAt base path)
        (entryAt ours path) (entryAt theirs path) := by
      intro path
      by_cases hpath : path ∈ pathsOf base ours theirs
      · exact hneeds path hpath
      · have hnot := (absent_of_not_mem hpath).1
        refine ⟨fun e he => ?_, fun a t ha ht htext => ?_⟩
        · rw [readsOf, if_neg hnot] at he
          cases he
        · rw [ha, ht] at hnot
          exact absurd htext.1 hnot
    obtain ⟨resolved', objects'', hrun', -, hall⟩ := @mergeTrees_spec P algo objects theirLabel
      base ours theirs hmergeable
    rw [hrun] at hrun'
    cases hrun'
    refine ⟨fun path e he _ => (hmergeable path).stored e he, ?_, ?_⟩
    · intro path a t ha ht htext
      obtain ⟨m, hm⟩ := Option.ne_none_iff_exists'.mp ((hmergeable path).returns a t ha ht htext)
      refine ⟨m, hm, fun hclean => ?_⟩
      have hdiverged : Diverged (entryAt base path) (entryAt ours path) (entryAt theirs path) := by
        rw [ha, ht]
        exact htext.1
      have hpath : path ∈ pathsOf base ours theirs := by
        by_contra hnot
        exact (absent_of_not_mem hnot).1 hdiverged
      obtain ⟨r, hr, rfl⟩ := hall.exists_at hpath
      have hnot : r.conflicted = false := by
        rw [Bool.eq_false_iff]
        intro hc
        have hunclean := ((hall.of_mem hr).conflicted_iff.mp hc).2 a t ha ht htext m hm
        rw [hclean] at hunclean
        cases hunclean
      have hmerged := (hlaw.each r hr).diverged
        (fun heq => absurd hdiverged.1 (by simp [same_iff.mpr heq]))
        (fun heq => absurd hdiverged.2.1 (by simp [same_iff.mpr heq]))
        (fun heq => absurd hdiverged.2.2 (by simp [same_iff.mpr heq]))
      rcases hmerged with hc | ⟨a', t', m', ha', -, hregular, -⟩
      · rw [hnot] at hc
        cases hc
      · rw [ha] at ha'
        cases ha'
        exact hregular
    · intro hnone
      have hclean := (no_conflict_iff hall).mpr hnone
      exact (validTree_iff hall hclean).mp (hlaw.valid hclean)
  · intro hconditions
    obtain ⟨resolved, objects', hrun, -, hall⟩ := @mergeTrees_spec P algo objects theirLabel
      base ours theirs (mergeable_of_conditions hblobs hconditions)
    refine ⟨resolved, objects', hrun, ?_, ?_, ?_, ?_⟩
    · rw [hall.map_path]
      exact nodup_pathsOf
    · intro path
      rw [hall.map_path, mem_pathsOf]
    · intro r hr
      refine pathLaw_of_resolves (hall.of_mem hr) fun a t ha ht htext m hm hclean => ?_
      obtain ⟨m', hm', hregular⟩ := hconditions.files r.path a t ha ht htext
      rw [hm] at hm'
      cases hm'
      exact hregular hclean
    · intro hclean
      exact (validTree_iff hall hclean).mpr
        (hconditions.apart ((no_conflict_iff hall).mp hclean))

end

/-- A store that holds the empty file. -/
def emptyFile : Objects := fun id =>
  if id = ObjectId.hashObject .toy .sha1 .blob [] then some ⟨.blob, []⟩ else none

/-- The empty file under a name. -/
def touched (path : Bytes) : WorkEntry :=
  ⟨path, ObjectId.hashObject .toy .sha1 .blob [], regular⟩

theorem blobsPresent_touched (paths : List Bytes) :
    BlobsPresent .toy .sha1 emptyFile (paths.map touched) := by
  intro e he _
  obtain ⟨path, -, rfl⟩ := mem_map.mp he
  simp [emptyFile, touched]

theorem merge_trees_law_touched :
    BlobsPresent .toy .sha1 emptyFile ([] ++ [touched [97]] ++ [touched [98]]) ∧
      ((∃ resolved objects', mergeTrees .toy .sha1 "theirs" [] [touched [97]] [touched [98]]
          emptyFile = .ok resolved objects' ∧
        TreeMergeLaw .toy .sha1 emptyFile "theirs" [] [touched [97]] [touched [98]] resolved) ↔
      MergeConditions emptyFile "theirs" [] [touched [97]] [touched [98]]) :=
  ⟨blobsPresent_touched [[97], [98]], merge_trees_law (blobsPresent_touched [[97], [98]])⟩

/-- One side adds a file, the other a directory of its name: both are taken. -/
theorem file_and_directory :
    ValidTree [touched [97]] ∧ ValidTree [touched [97, slash, 98]] ∧
      BlobsPresent .toy .sha1 emptyFile ([] ++ [touched [97]] ++ [touched [97, slash, 98]]) ∧
      ¬∃ resolved objects', mergeTrees .toy .sha1 "theirs" [] [touched [97]]
          [touched [97, slash, 98]] emptyFile = .ok resolved objects' ∧
        TreeMergeLaw .toy .sha1 emptyFile "theirs" [] [touched [97]] [touched [97, slash, 98]]
          resolved := by
  refine ⟨by decide, by decide, blobsPresent_touched [[97], [97, slash, 98]], ?_⟩
  rintro ⟨resolved, objects', hrun, hlaw⟩
  have hresolved : mergeTrees .toy .sha1 "theirs" [] [touched [97]] [touched [97, slash, 98]]
      emptyFile = .ok [.clean [97] (some (touched [97])),
        .clean [97, slash, 98] (some (touched [97, slash, 98]))] emptyFile := by
    have hpaths : pathsOf [] [touched [97]] [touched [97, slash, 98]] =
        [[97], [97, slash, 98]] := by decide +kernel
    rw [mergeTrees, hpaths]
    rfl
  rw [hresolved] at hrun
  cases hrun
  exact absurd (hlaw.valid (by simp [Resolved.clean])) (by decide)

end Alt.Repo
