import Alt.Library.LossyUtf8
import Alt.Repo.AddFrame
import Alt.Server.Globs

namespace Alt.Repo.PathGate

open Alt.Library Alt.Odb Alt.Server List

/-!
# Path restrictions of an add (`native/add.rs`; `ensure_path_allowed`; `policy.rs`, 122–138)

A policy can name the paths a principal may stage.  `add` asks it for each file it stages, right
before it stores the file's blob, and looks at the path as text: at the empty text if it is none.

* `add_staged`, `add_stopped` — what a whole `add` makes of each path, and what a refusal leaves;
* `Covers`, `StoredBefore` — that nothing gets past the gate, and that nothing is stored before it;
* `add_gate` — the paths an `add` changes are allowed exactly if the gate was asked for all of them,
  and a refusal leaves the object store as it was exactly if nothing had been stored;
* `gate_passed_by` — a removal is staged outside the paths that are allowed, and a refused `add`
  leaves a blob.
-/

/-! ### The gate -/

/-- `allows_path_name`: the globs work on bytes. -/
def pathAllowed (allow : List (List Part)) (path : Bytes) : Bool :=
  allow.isEmpty || allow.any fun parts => matchPartsOf parts path

/-- `path.to_str().unwrap_or("")`. -/
def pathStr (path : Bytes) : Bytes := if lossy path = path then path else []

/-- A caller with a path allow-list. -/
def restricted (env : Env) (allow : List (List Part)) : Env :=
  { env with allowsPath := fun path => pathAllowed allow (pathStr path) }

/-- The file that is staged for a path. -/
def fileAt (scan : List WorkEntry) (path : Bytes) : Option WorkEntry :=
  scan.find? fun w => w.path == path

/-- The entries of a path, in every stage. -/
def entriesAt (index : Index) (path : Bytes) : Index := index.filter fun e => e.path == path

/-- The entries of the path are not what they were. -/
def Changed (env : Env) (r r' : NativeRepo) (path : Bytes) : Prop :=
  ¬ SameEntries (entriesAt (r.controls env.workspace).index path)
    (entriesAt (r'.controls env.workspace).index path)

/-- What `add` need not ask the gate for, or asks it for: the entries it drops are of paths that are
    allowed, and so is every path that is no text and gets another entry. -/
structure Covers (allow : List (List Part)) (paths : List Bytes) (scan : List WorkEntry)
    (index : Index) : Prop where
  unmerged : ∀ e ∈ index, e.stage ≠ 0 → pathAllowed allow e.path = true
  vanished : ∀ e ∈ index, covered paths e.path = true → fileAt scan e.path = none →
    pathAllowed allow e.path = true
  noText : ∀ path w, covered paths path = true → fileAt scan path = some w → pathStr path ≠ path →
    ¬ SameEntries (entriesAt index path) [stageEntry w 0] → pathAllowed allow path = true

/-- The target is a file the gate refuses. -/
def refused (env : Env) (scan : List WorkEntry) (path : Bytes) : Bool :=
  (fileAt scan path).isSome && !env.allowsPath path

/-- The files in front of the first one that is refused. -/
def inFront (env : Env) (scan : List WorkEntry) (targets : List Bytes) : List Bytes :=
  targets.takeWhile fun p => !refused env scan p

/-- The blobs of all files in front of the first one refused are stored. -/
def StoredBefore (env : Env) (paths : List Bytes) (r : NativeRepo) : Prop :=
  ∀ scan targets, scanTree env r.fs (r.controls env.workspace).index = .ok scan →
    addTargets scan (settledPart (r.controls env.workspace).index) paths = .ok targets →
    ∀ path ∈ inFront env scan targets, ∀ w, fileAt scan path = some w → (r.objects w.oid).isSome

/-! ### Staging, path by path -/

section Staging

variable {env : Env} {r : NativeRepo} {scan : List WorkEntry} {start entries : Index}
  {targets done : List Bytes} {path : Bytes}

/-- The line of a path whose file is staged; none if there is no file. -/
def stagedLine (scan : List WorkEntry) (path : Bytes) : Index :=
  ((fileAt scan path).map fun w => stageEntry w 0).toList

/-- The targets in `done` are staged, and the gate let their files pass. -/
structure Through (env : Env) (scan : List WorkEntry) (start : Index) (done : List Bytes)
    (entries : Index) : Prop where
  lines : ∀ p, entriesAt entries p = if p ∈ done then stagedLine scan p else entriesAt start p
  passed : ∀ p ∈ done, refused env scan p = false

/-- Nothing but the blobs of the files in `done` was stored. -/
structure Stored (env : Env) (r : NativeRepo) (scan : List WorkEntry) (done : List Bytes)
    (s : NativeRepo) : Prop where
  kept : staged env s = staged env r
  fs : s.fs = r.fs
  within : Within r.objects s.objects
  present : ∀ p ∈ done, ∀ w, fileAt scan p = some w → (s.objects w.oid).isSome
  same : (∀ p ∈ done, ∀ w, fileAt scan p = some w → (r.objects w.oid).isSome) →
    s.objects = r.objects

theorem path_of_fileAt {w : WorkEntry} (h : fileAt scan path = some w) : w.path = path := by
  simpa using find?_some h

theorem Stored.refl : Stored env r scan [] r where
  kept := rfl
  fs := rfl
  within := Within.refl _
  present _ hp := absurd hp not_mem_nil
  same _ := rfl

/-- The object store is as it was exactly if every blob was there. -/
theorem Stored.objects_iff {s : NativeRepo} (h : Stored env r scan done s) :
    s.objects = r.objects ↔
      ∀ p ∈ done, ∀ w, fileAt scan p = some w → (r.objects w.oid).isSome :=
  ⟨fun heq p hp w hw => heq ▸ h.present p hp w hw, h.same⟩

theorem Stored.absent {s : NativeRepo} (h : Stored env r scan done s) (hfile : fileAt scan path = none) :
    Stored env r scan (done ++ [path]) s where
  kept := h.kept
  fs := h.fs
  within := h.within
  present p hp w hw := by
    rcases mem_append.mp hp with hp | hp
    · exact h.present p hp w hw
    · rw [mem_singleton.mp hp, hfile] at hw
      cases hw
  same hall := h.same fun p hp => hall p (mem_append_left _ hp)

theorem Stored.put {s : NativeRepo} {w : WorkEntry} {bytes : Bytes} {objects : Objects}
    (h : Stored env r scan done s) (hfile : fileAt scan path = some w)
    (hput : s.objects.put env.P w.oid .blob bytes = .ok objects) :
    Stored env r scan (done ++ [path]) { s with objects } where
  kept := h.kept
  fs := h.fs
  within := h.within.trans (Objects.within_put hput)
  present p hp w' hw' := by
    rcases mem_append.mp hp with hp | hp
    · exact Within.isSome (Objects.within_put hput) (h.present p hp w' hw')
    · rw [mem_singleton.mp hp, hfile] at hw'
      obtain rfl := Option.some.inj hw'
      rw [Objects.put] at hput
      split at hput
      · cases hput
        assumption
      · split at hput
        · cases hput
        · cases hput
          dsimp only
          rw [Function.update_self]
          rfl
  same hall := by
    have hbefore := h.same fun p hp => hall p (mem_append_left _ hp)
    have hthere := hall path (mem_append_right _ mem_cons_self) w hfile
    rw [Objects.put, if_pos (hbefore ▸ hthere)] at hput
    cases hput
    exact hbefore

/-- The entries of each path, when one is staged. -/
theorem Through.step (h : Through env scan start done entries)
    (hpassed : refused env scan path = false) :
    Through env scan start (done ++ [path])
      ((entries.filter fun e => e.path != path) ++ stagedLine scan path) where
  lines p := by
    have hkept : entriesAt (entries.filter fun e => e.path != path) p =
        if p = path then [] else entriesAt entries p := by
      rw [entriesAt, filter_filter]
      split
      · rename_i hp
        subst hp
        exact filter_eq_nil_iff.mpr fun e _ => by simp
      · rename_i hp
        refine filter_congr fun e _ => ?_
        by_cases he : e.path = p
        · simp [he, hp]
        · simp [he]
    have hline : entriesAt (stagedLine scan path) p = if p = path then stagedLine scan path else [] := by
      rw [stagedLine]
      cases hfile : fileAt scan path with
      | none => simp [entriesAt]
      | some w =>
        have hw : (stageEntry w 0).path = path := path_of_fileAt hfile
        split
        · rename_i hp
          simp [entriesAt, hw, hp]
        · rename_i hp
          simp [entriesAt, hw, Ne.symm hp]
    rw [entriesAt, filter_append, ← entriesAt, ← entriesAt, hkept, hline]
    by_cases hp : p = path
    · subst hp
      rw [if_pos rfl, if_pos rfl, if_pos (mem_append_right _ mem_cons_self), nil_append]
    · rw [if_neg hp, if_neg hp, append_nil, h.lines p]
      simp [hp]
  passed p hp := by
    rcases mem_append.mp hp with hp | hp
    · exact h.passed p hp
    · rw [mem_singleton.mp hp]
      exact hpassed

/-- What a refusal leaves: the blobs of the files in front of it. -/
def StoppedAt (env : Env) (r : NativeRepo) (scan : List WorkEntry) (targets : List Bytes) (e : CliError)
    (s : NativeRepo) : Prop :=
  ∀ q, e = .notAllowed q → Stored env r scan (inFront env scan targets) s

/-- **Staging one target**, with the gate in front of its blob. -/
theorem triple_gate {filter : Bytes → Bytes → Bytes} {rest : List Bytes}
    (hfilter : env.filter r.fs = .ok filter) (htargets : targets = done ++ path :: rest)
    (h : Through env scan start done entries) :
    Triple (Stored env r scan done) (stagePath env scan entries path)
      (fun entries' s => Through env scan start (done ++ [path]) entries' ∧
        Stored env r scan (done ++ [path]) s)
      (StoppedAt env r scan targets) := by
  rw [stagePath.eq_def]
  cases hfile : fileAt scan path with
  | none =>
    have hpassed : refused env scan path = false := by rw [refused, hfile]; rfl
    have hstep := h.step hpassed
    rw [stagedLine, hfile] at hstep
    rw [fileAt] at hfile
    rw [hfile]
    exact .pure fun s hs => ⟨by simpa using hstep, hs.absent hfile⟩
  | some w =>
    have hfind := hfile
    rw [fileAt] at hfind
    rw [hfind]
    dsimp only
    refine .ite (fun hgate => .throw fun s hs q _ => ?_) fun hgate => ?_
    · -- the targets before were let pass
      have hstop : inFront env scan targets = done := by
        rw [inFront, htargets, takeWhile_append_of_pos fun p hp => by simp [h.passed p hp],
          takeWhile_cons_of_neg, append_nil]
        rw [refused, hfile, hgate]
        simp
      rw [hstop]
      exact hs
    · have hpassed : refused env scan path = false := by
        rw [refused, hfile]
        simpa using hgate
      have hstep := h.step hpassed
      rw [stagedLine, hfile] at hstep
      refine .get fun s hs => ?_
      have hbytes : Triple (· = s) (fromExcept (stagedBytes env s.fs w) : Cmd Bytes)
          (fun _ => Stored env r scan done) (StoppedAt env r scan targets) := by
        refine .lift (fun _ _ s' hs' => hs' ▸ hs) fun e he s' _ q hq => ?_
        rw [stagedBytes, hs.fs, hfilter] at he
        subst hq
        split at he
        · cases he
        · split at he <;> cases he
      have hputs : ∀ bytes (put : OdbM Unit),
          (∀ objects objects', objects.put env.P w.oid .blob bytes = .ok objects' →
            put objects = .ok () objects') →
          (∀ objects e, objects.put env.P w.oid .blob bytes = .error e →
            put objects = .error (.hash e) objects) →
          Triple (Stored env r scan done) (onObjects put)
            (fun _ => Stored env r scan (done ++ [path])) (StoppedAt env r scan targets) := by
        intro bytes put hok herror s hs
        cases hput : s.objects.put env.P w.oid .blob bytes with
        | error e =>
          simp only [onObjects, herror _ _ hput]
          exact fun q hq => by cases hq
        | ok objects =>
          simp only [onObjects, hok _ _ hput]
          exact hs.put hfile hput
      have hentry : Triple (Stored env r scan (done ++ [path])) (makeEntry env w)
          (fun line s => line = stageEntry w 0 ∧ Stored env r scan (done ++ [path]) s)
          (StoppedAt env r scan targets) := by
        intro s hs
        rw [makeEntry]
        by_cases hmode : w.mode = gitlink
        · rw [if_pos hmode]
          exact ⟨rfl, hs⟩
        · rw [if_neg hmode]
          cases s.fs.lstat (abs env.root w.path) with
          | error e => exact fun q hq => by cases hq
          | ok node => exact ⟨rfl, hs⟩
      refine hbytes.bind fun bytes => (hputs bytes _ (fun _ _ h => by rw [h]) fun _ _ h => by rw [h]).bind fun _ => hentry.bind fun line =>
        .pre fun hline => .pure fun s hs => ⟨?_, hs⟩
      rw [hline]
      exact hstep

/-- **Staging all targets.** -/
theorem triple_targets {filter : Bytes → Bytes → Bytes} (hfilter : env.filter r.fs = .ok filter) :
    Triple (· = r) (targets.foldlM (stagePath env scan) start)
      (fun entries s => Through env scan start targets entries ∧ Stored env r scan targets s)
      (StoppedAt env r scan targets) :=
  (Triple.foldlM (fun done entries s => Through env scan start done entries ∧ Stored env r scan done s)
    fun done path rest entries hsplit => .pre fun h => triple_gate hfilter hsplit h).imp
    (fun s hs => ⟨⟨fun p => by simp, fun p hp => absurd hp not_mem_nil⟩, hs ▸ .refl⟩)
    (fun _ _ h => h) fun _ _ h => h

end Staging

/-! ### The whole command -/

section Add

variable {env : Env} {r : NativeRepo} {paths : List Bytes} {scan : List WorkEntry} {index prior : Index}
  {targets : List Bytes} {allow : List (List Part)}

theorem fileAt_eq_none {path : Bytes} (h : path ∉ scan.map WorkEntry.path) : fileAt scan path = none :=
  find?_eq_none.mpr fun w hw heq => h (mem_map.mpr ⟨w, hw, by simpa using heq⟩)

theorem entriesAt_eq_nil {path : Bytes} (h : path ∉ index.map IndexEntry.path) :
    entriesAt index path = [] :=
  filter_eq_nil_iff.mpr fun e he heq => h (mem_map.mpr ⟨e, he, by simpa using heq⟩)

/-- What an argument stands for is staged, if it is there or was. -/
theorem mem_addTargets (h : addTargets scan prior paths = .ok targets)
    (hall : paths.any (fun p => pathspec p == []) = false) {path : Bytes}
    (hcovered : covered paths path = true)
    (hpath : path ∈ scan.map WorkEntry.path ++ prior.map IndexEntry.path) : path ∈ targets := by
  rw [addTargets, hall] at h
  obtain ⟨matched, hmapM, h⟩ := of_match_ok h
  cases h
  obtain ⟨given, hgiven, hunder⟩ := any_eq_true.mp hcovered
  have hspec : (pathspec given == []) = false := by
    have hall := any_eq_false.mp hall given hgiven
    simpa using hall
  rw [hspec, Bool.false_or] at hunder
  rw [mem_sortPaths, mem_flatten]
  have hparts := List.Forall₂.flip (forall₂_of_mapM_ok hmapM)
  obtain ⟨part, hpart, hmatch⟩ := exists_of_mem_forall₂ hparts hgiven
  change matchSpec scan prior given = .ok part at hmatch
  rw [matchSpec] at hmatch
  split at hmatch
  · cases hmatch
  · cases hmatch
    exact ⟨_, hpart, mem_filter.mpr ⟨hpath, hunder⟩⟩

/-- The entries of a path after `add`. -/
def addedAt (paths : List Bytes) (scan : List WorkEntry) (index : Index) (path : Bytes) : Index :=
  if covered paths path = true then stagedLine scan path else entriesAt (settledPart index) path

theorem Through.added {entries : Index} (htargets : addTargets scan (settledPart index) paths = .ok targets)
    (h : Through env scan (if paths.any (fun p => pathspec p == []) then [] else settledPart index)
      targets entries) :
    (∀ p, entriesAt entries p = addedAt paths scan index p) ∧
      ∀ p, covered paths p = true → refused env scan p = false := by
  generalize hstart : (if paths.any (fun p => pathspec p == []) then [] else settledPart index) = start at h
  -- what is not staged has no file and, where everything else is kept, no entry
  have hnone : ∀ p, covered paths p = true → p ∉ targets →
      fileAt scan p = none ∧ entriesAt start p = [] := by
    intro p hcovered hp
    cases hall : paths.any fun p => pathspec p == [] with
    | true =>
      rw [hall, if_pos rfl] at hstart
      subst hstart
      rw [addTargets, if_pos hall] at htargets
      cases htargets
      exact ⟨fileAt_eq_none hp, rfl⟩
    | false =>
      rw [hall, if_neg (by decide)] at hstart
      subst hstart
      have hnot : p ∉ scan.map WorkEntry.path ++ (settledPart index).map IndexEntry.path :=
        fun hpath => hp (mem_addTargets htargets hall hcovered hpath)
      rw [mem_append, not_or] at hnot
      exact ⟨fileAt_eq_none hnot.1, entriesAt_eq_nil hnot.2⟩
  refine ⟨fun p => ?_, fun p hcovered => ?_⟩
  · rw [h.lines p, addedAt]
    by_cases hcovered : covered paths p = true
    · rw [if_pos hcovered]
      split
      · rfl
      · rename_i hp
        obtain ⟨hfile, hentries⟩ := hnone p hcovered hp
        rw [hentries, stagedLine, hfile]
        rfl
    · have hp : p ∉ targets := fun hp => hcovered (covered_of_addTargets htargets p hp)
      have hall : paths.any (fun p => pathspec p == []) = false := by
        by_contra hall
        rw [Bool.not_eq_false, any_eq_true] at hall
        obtain ⟨given, hgiven, hspec⟩ := hall
        exact hcovered (any_eq_true.mpr ⟨given, hgiven, by rw [hspec, Bool.true_or]⟩)
      rw [hall, if_neg (by decide)] at hstart
      rw [if_neg hp, if_neg hcovered, hstart]
  · by_cases hp : p ∈ targets
    · exact h.passed p hp
    · rw [refused, (hnone p hcovered hp).1]
      rfl

/-- Recording leaves the index alone, and no gate is in its way. -/
theorem triple_record (c : Bool) (payload : Bytes) (index : Index) :
    Triple (fun s => (s.controls env.workspace).index = index) (whenever c (recordOp env payload))
      (fun _ s => (s.controls env.workspace).index = index) (fun e _ => ∀ q, e ≠ .notAllowed q) := by
  intro s hs
  rw [whenever]
  cases c with
  | false => exact hs
  | true =>
    rw [if_pos rfl, recordOp]
    split
    · rename_i hrun
      split at hrun
      · cases hrun
      · split at hrun
        · cases hrun
        · cases hrun
          exact hs
    · rename_i hrun
      split at hrun
      · cases hrun
        exact fun q hq => by cases hq
      · split at hrun
        · cases hrun
          exact fun q hq => by cases hq
        · cases hrun

/-- **What an `add` does.** A success leaves each path what its file makes of it, and the gate let all
    files pass; a refusal leaves nothing but the blobs in front of it. -/
theorem add_runs : Triple (· = r) (add env paths)
    (fun _ s => ∃ scan, scanTree env r.fs (r.controls env.workspace).index = .ok scan ∧
      (∀ p, covered paths p = true → refused env scan p = false) ∧
      ∀ p, SameEntries (entriesAt (s.controls env.workspace).index p)
        (addedAt paths scan (r.controls env.workspace).index p))
    (fun e s => ∀ q, e = .notAllowed q →
      staged env s = staged env r ∧ (s.objects = r.objects ↔ StoredBefore env paths r)) := by
  have hwritable : Triple (· = r) (ensureWritable env "add") (fun _ s => s = r)
      (fun e s => ∀ q, e = .notAllowed q →
        staged env s = staged env r ∧ (s.objects = r.objects ↔ StoredBefore env paths r)) := by
    rintro s rfl
    rw [ensureWritable, demand]
    cases env.caps.readOnly with
    | false => rfl
    | true => exact fun q hq => by cases hq
  refine hwritable.bind fun _ => ?_
  refine Triple.bind (Q := fun c s => c = r.controls env.workspace ∧ s = r)
    (fun s hs => ⟨by rw [hs], hs⟩) fun c => .pre fun hc => .get fun s hs => ?_
  subst hc hs
  refine Triple.bind (Q := fun scan s' => scanTree env s.fs (s.controls env.workspace).index = .ok scan ∧
    s' = s) (.lift (fun _ hscan _ hs' => ⟨hscan, hs'⟩) fun e hscan s' hs' _ _ => ?_) fun scan =>
    .pre fun hscan => ?_
  · subst hs'
    refine ⟨rfl, iff_of_true rfl fun scan targets hok => ?_⟩
    rw [hscan] at hok
    cases hok
  obtain ⟨filter, hfilter⟩ : ∃ filter, env.filter s.fs = .ok filter := by
    rw [scanTree] at hscan
    cases hfilter : env.filter s.fs with
    | error e => rw [hfilter] at hscan; cases hscan
    | ok filter => exact ⟨filter, rfl⟩
  refine Triple.bind (Q := fun targets s' =>
    addTargets scan (settledPart (s.controls env.workspace).index) paths = .ok targets ∧ s' = s)
    (.lift (fun _ htargets _ hs' => ⟨htargets, hs'⟩) fun e htargets s' hs' _ _ => ?_) fun targets =>
    .pre fun htargets => ?_
  · subst hs'
    refine ⟨rfl, iff_of_true rfl fun scan' targets hok htok => ?_⟩
    rw [hscan] at hok
    cases hok
    change addTargets scan (settledPart _) paths = _ at htargets
    rw [htargets] at htok
    cases htok
  have hstopped : ∀ e s', StoppedAt env s scan targets e s' → ∀ q, e = .notAllowed q →
      staged env s' = staged env s ∧ (s'.objects = s.objects ↔ StoredBefore env paths s) := by
    intro e s' hstop q hq
    have hstored := hstop q hq
    refine ⟨hstored.kept, hstored.objects_iff.trans ⟨fun hall scan' targets' hok htok => ?_,
      fun hall => hall scan targets hscan htargets⟩⟩
    rw [hscan] at hok
    cases hok
    rw [htargets] at htok
    cases htok
    exact hall
  refine ((triple_targets hfilter).imp (fun _ hs => hs) (fun _ _ h => h) hstopped).bind
    fun entries => .pre fun hthrough => ?_
  obtain ⟨hlines, hpassed⟩ := hthrough.added htargets
  -- the rest is written and recorded, and no gate is in its way
  have hsave : Triple (Stored env s scan targets) (saveIndex env entries)
      (fun _ s' => (s'.controls env.workspace).index = entries.insertionSort (byPathStage · ·))
      (fun e s' => ∀ q, e = .notAllowed q →
        staged env s' = staged env s ∧ (s'.objects = s.objects ↔ StoredBefore env paths s)) := by
    intro s' _
    change (Function.update s'.controls env.workspace _ env.workspace).index = _
    rw [Function.update_self]
  have hdone : ∀ s₁ : NativeRepo, (s₁.controls env.workspace).index =
      entries.insertionSort (byPathStage · ·) →
      ∃ scan, scanTree env s.fs (s.controls env.workspace).index = .ok scan ∧
        (∀ p, covered paths p = true → refused env scan p = false) ∧
        ∀ p, SameEntries (entriesAt (s₁.controls env.workspace).index p)
          (addedAt paths scan (s.controls env.workspace).index p) := by
    intro s₁ hs₁
    refine ⟨scan, hscan, hpassed, fun p => ?_⟩
    rw [hs₁, ← hlines p]
    exact ((perm_insertionSort _ _).filter _).map _
  exact hsave.bind fun _ => (triple_record _ _ _).imp (fun _ h => h) (fun _ s₁ h => hdone s₁ h)
    fun e _ he q hq => absurd hq (he q)

theorem stage_addedAt {path : Bytes} {e : IndexEntry} (he : e ∈ addedAt paths scan index path) :
    e.stage = 0 := by
  rw [addedAt] at he
  split at he
  · rw [stagedLine] at he
    cases hfile : fileAt scan path with
    | none =>
      rw [hfile] at he
      cases he
    | some w =>
      rw [hfile] at he
      rw [mem_singleton.mp he, stage_stageEntry]
  · simpa using (mem_filter.mp (mem_of_mem_filter he)).2

/-- **What gets past the gate.** With all files let pass, the paths an `add` changes are allowed
    exactly if the gate covers them. -/
theorem changed_allowed_iff
    (hpassed : ∀ p, covered paths p = true → refused (restricted env allow) scan p = false) :
    (∀ p, ¬ SameEntries (entriesAt index p) (addedAt paths scan index p) →
        pathAllowed allow p = true) ↔
      Covers allow paths scan index := by
  have hhere : ∀ e ∈ index, e ∈ entriesAt index e.path := fun e he =>
    mem_filter.mpr ⟨he, beq_self_eq_true _⟩
  constructor
  · intro hall
    refine ⟨fun e he hstage => hall e.path fun hsame => hstage ?_,
      fun e he hcovered hfile => hall e.path fun hsame => ?_,
      fun path w hcovered hfile _ hnew => hall path ?_⟩
    · -- what is staged is in stage 0
      have hfacts := hsame.mem_iff.mp (mem_map.mpr ⟨e, hhere e he, rfl⟩)
      obtain ⟨e', he', heq⟩ := mem_map.mp hfacts
      have hstage' : e'.stage = e.stage := congrArg (fun facts => facts.2.1) heq
      rw [← hstage', stage_addedAt he']
    · rw [addedAt, if_pos hcovered, stagedLine, hfile] at hsame
      have hnone := map_eq_nil_iff.mp hsame.eq_nil
      exact absurd (hhere e he) (hnone ▸ not_mem_nil)
    · rw [addedAt, if_pos hcovered, stagedLine, hfile]
      exact hnew
  · intro hcovers p hchanged
    rw [addedAt] at hchanged
    by_cases hcovered : covered paths p = true
    · rw [if_pos hcovered, stagedLine] at hchanged
      cases hfile : fileAt scan p with
      | none =>
        rw [hfile] at hchanged
        have hsome : entriesAt index p ≠ [] := fun hnil => hchanged (hnil ▸ List.Perm.refl _)
        obtain ⟨e, he⟩ := exists_mem_of_ne_nil _ hsome
        obtain ⟨hmem, hpath⟩ := mem_filter.mp he
        have hpath : e.path = p := by simpa using hpath
        exact hpath ▸ hcovers.vanished e hmem (hpath ▸ hcovered) (hpath ▸ hfile)
      | some w =>
        rw [hfile] at hchanged
        by_cases htext : pathStr p = p
        · -- the gate was asked for this very path
          have hgate := hpassed p hcovered
          rw [refused, hfile] at hgate
          have hallows : (restricted env allow).allowsPath p = true := by simpa using hgate
          change pathAllowed allow (pathStr p) = true at hallows
          rwa [htext] at hallows
        · exact hcovers.noText p w hcovered hfile htext hchanged
    · rw [if_neg hcovered] at hchanged
      by_cases hstages : ∀ e ∈ entriesAt index p, e.stage = 0
      · have hsame : entriesAt (settledPart index) p = entriesAt index p := by
          rw [entriesAt, entriesAt, settledPart, filter_filter]
          refine filter_congr fun e he => ?_
          by_cases hp : e.path = p
          · have hstage := hstages e (mem_filter.mpr ⟨he, by simpa using hp⟩)
            simp [hp, hstage]
          · simp [hp]
        rw [hsame] at hchanged
        exact absurd (List.Perm.refl _) hchanged
      · push Not at hstages
        obtain ⟨e, he, hstage⟩ := hstages
        obtain ⟨hmem, hpath⟩ := mem_filter.mp he
        have hpath : e.path = p := by simpa using hpath
        exact hpath ▸ hcovers.unmerged e hmem hstage

/-- **Path restrictions of an add.** After a success, the paths whose entries it changed are allowed
    exactly if the gate covers what it drops and what is no text.  After a refusal the index and the
    op log are as they were, and the object store is exactly if nothing in front of the file that is
    refused had to be stored.  A read-only principal changes nothing. -/
theorem add_gate (env : Env) (allow : List (List Part)) (paths : List Bytes) (r : NativeRepo) :
    (∀ r', add (restricted env allow) paths r = .ok () r' →
      ∃ scan, scanTree (restricted env allow) r.fs (r.controls env.workspace).index = .ok scan ∧
        ((∀ p, Changed env r r' p → pathAllowed allow p = true) ↔
          Covers allow paths scan (r.controls env.workspace).index)) ∧
    (∀ q r', add (restricted env allow) paths r = .error (.notAllowed q) r' →
      (r'.controls env.workspace).index = (r.controls env.workspace).index ∧ r'.ops = r.ops ∧
        (r'.objects = r.objects ↔ StoredBefore (restricted env allow) paths r)) ∧
    (env.caps.readOnly = true → ∃ e, add (restricted env allow) paths r = .error e r) := by
  have hruns := @add_runs (restricted env allow) r paths
  refine ⟨fun r' hrun => ?_, fun q r' hrun => ?_, fun hread => ?_⟩
  · obtain ⟨scan, hscan, hpassed, hentries⟩ := hruns.ok rfl hrun
    refine ⟨scan, hscan, ?_⟩
    rw [← @changed_allowed_iff env paths scan _ allow hpassed]
    refine forall_congr' fun p => imp_congr (not_congr ?_) Iff.rfl
    exact ⟨fun hsame => hsame.trans (hentries p), fun hsame => hsame.trans (hentries p).symm⟩
  · obtain ⟨hkept, hobjects⟩ := hruns.error rfl hrun q rfl
    exact ⟨congrArg Prod.fst hkept, congrArg Prod.snd hkept, hobjects⟩
  · have hdenied : ensureWritable (restricted env allow) "add" r =
        .error (.message ("capability denied: principal cannot " ++ "add" ++ " (read-only)")) r := by
      rw [ensureWritable, demand]
      have hcaps : (restricted env allow).caps.readOnly = true := hread
      rw [hcaps]
      rfl
    refine ⟨.message ("capability denied: principal cannot " ++ "add" ++ " (read-only)"), ?_⟩
    change (ensureWritable (restricted env allow) "add" >>= _) r = _
    simp only [bind, EStateM.bind, hdenied]

end Add

/-! ### Past the gate -/

/-- The principal may stage the file `a`. -/
def onlyA : Env := restricted Env.toy [[.lit [0x61]]]

/-- The file `f` is in the index, and gone. -/
def goneFile : NativeRepo where
  objects := oneFile.objects
  refs := oneFile.refs
  ops := []
  fs := toyFiles []
  controls _ := ⟨[stageEntry (toyEntry pathF [1]) 0], none, none, none, none⟩

/-- Two new files, `a` and `f`. -/
def twoFiles : NativeRepo where
  objects _ := none
  refs := oneFile.refs
  ops := []
  fs := toyFiles [([0x61], [1]), (pathF, [2])]
  controls _ := ⟨[], none, none, none, none⟩

/-- **The gate is passed by**: who may stage `a` only stages the removal of `f`; and an `add` of both
    files is refused at `f`, with the blob of `a` stored. -/
theorem gate_passed_by :
    (pathAllowed [[.lit [0x61]]] pathF = false ∧
      (add onlyA [pathF] goneFile matches .ok _ _) = true ∧
      Changed Env.toy goneFile (leaves (add onlyA [pathF] goneFile)) pathF) ∧
    (add onlyA [dot] twoFiles matches .error (.notAllowed [0x66]) _) = true ∧
      twoFiles.objects (toyEntry [0x61] [1]).oid = none ∧
      ((leaves (add onlyA [dot] twoFiles)).objects (toyEntry [0x61] [1]).oid).isSome = true := by
  have hallowed : pathAllowed [[.lit [0x61]]] = fun path =>
      [[Part.lit [0x61]]].any (matchParts · path false) := by
    funext path
    rw [pathAllowed]
    simp only [matchPartsOf_eq]
    rfl
  have hgate : onlyA = { Env.toy with
      allowsPath := fun path => ([[Part.lit [0x61]]].any (matchParts · (pathStr path) false)) } := by
    rw [onlyA, restricted, hallowed]
  rw [hallowed, hgate]
  refine ⟨⟨by decide +kernel, by decide +kernel, ?_⟩, by decide +kernel, rfl, by decide +kernel⟩
  rw [Changed, SameEntries]
  decide +kernel

end Alt.Repo.PathGate
