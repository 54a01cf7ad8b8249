import Alt.Repo.UndoRefs

namespace Alt.Repo

open Alt.Library Alt.Odb Alt.Refs List

/-!
# Undoing an add, and undo as a whole (`native/add.rs`, 60–127; `native.rs`, 2684–2802)

An index transaction keeps the stage-0 side of every touched path, before and after, and nothing
says in which workspace it was made.

* `Settled` — an index without unmerged paths; it is what its sides say (`same_iff_sides`);
* `add_spec` — what `add` makes of the index and what it records;
* `add_undo_restores_iff` — `undo` brings the index back exactly if it runs in the same workspace
  and the index had no unmerged path;
* `undo_inverts` — both kinds of ops, and what another workspace sees of it.
-/

/-! ### Entries and sides -/

/-- What an entry says of its path and stage. -/
def IndexEntry.facts (e : IndexEntry) : Bytes × Nat × ObjectId × UInt32 :=
  (e.path, e.stage, e.oid, e.mode)

/-- The same entries, in any order. -/
def SameEntries (a b : Index) : Prop := (a.map IndexEntry.facts).Perm (b.map IndexEntry.facts)

/-- No unmerged path, and one entry a path. -/
structure Settled (entries : Index) : Prop where
  stage : ∀ e ∈ entries, e.stage = 0
  paths : (entries.map IndexEntry.path).Nodup

section

variable {a b entries prior : Index} {path : Bytes}

theorem Settled.perm (h : Settled a) (hperm : a.Perm b) : Settled b where
  stage e he := h.stage e (hperm.mem_iff.mpr he)
  paths := (hperm.map _).nodup_iff.mp h.paths

/-- The only entry at a path. -/
theorem Settled.eq_of_path (h : Settled entries) {e e' : IndexEntry} (he : e ∈ entries)
    (he' : e' ∈ entries) (hpath : e.path = e'.path) : e = e' :=
  inj_on_of_nodup_map h.paths he he' hpath

theorem exists_of_sideAt {side : ObjectId × UInt32} (h : sideAt entries path = some side) :
    ∃ e ∈ entries, e.path = path ∧ (e.oid, e.mode) = side := by
  obtain ⟨e, he, hside⟩ := Option.map_eq_some_iff.mp h
  have hmem := mem_filter.mp (mem_of_getLast? he)
  exact ⟨e, hmem.1, eq_of_beq hmem.2, hside⟩

theorem Settled.sideAt_eq (h : Settled entries) {e : IndexEntry} (he : e ∈ entries) :
    sideAt entries e.path = some (e.oid, e.mode) := by
  have hmem : e ∈ entries.filter fun x => x.path == e.path :=
    mem_filter.mpr ⟨he, beq_self_eq_true _⟩
  have hne : (entries.filter fun x => x.path == e.path) ≠ [] := ne_nil_of_mem hmem
  have hlast := getLast_mem hne
  have hsame : (entries.filter fun x => x.path == e.path).getLast hne = e := by
    have hfound := mem_filter.mp hlast
    exact h.eq_of_path hfound.1 he (eq_of_beq hfound.2)
  rw [sideAt, getLast?_eq_getLast_of_ne_nil hne, hsame]
  rfl

theorem sideAt_eq_none (h : ∀ e ∈ entries, e.path ≠ path) : sideAt entries path = none := by
  rw [sideAt, filter_eq_nil_iff.mpr fun e he => by simpa using h e he]
  rfl

theorem Settled.facts_nodup (h : Settled entries) : (entries.map IndexEntry.facts).Nodup := by
  refine List.Nodup.of_map Prod.fst ?_
  rw [map_map]
  exact h.paths

/-- An entry's facts are its path and its side. -/
theorem Settled.mem_facts (h : Settled entries) {stage : Nat} {oid : ObjectId} {mode : UInt32} :
    (path, stage, oid, mode) ∈ entries.map IndexEntry.facts ↔
      stage = 0 ∧ sideAt entries path = some (oid, mode) := by
  constructor
  · intro hmem
    obtain ⟨e, he, hfacts⟩ := mem_map.mp hmem
    cases hfacts
    exact ⟨h.stage e he, h.sideAt_eq he⟩
  · rintro ⟨rfl, hside⟩
    obtain ⟨e, he, rfl, heq⟩ := exists_of_sideAt hside
    cases heq
    exact mem_map.mpr ⟨e, he, by rw [IndexEntry.facts, h.stage e he]⟩

/-- **A settled index is what its sides say.** -/
theorem Settled.same_iff_sides (ha : Settled a) (hb : Settled b) :
    SameEntries a b ↔ ∀ path, sideAt a path = sideAt b path := by
  rw [SameEntries, perm_ext_iff_of_nodup ha.facts_nodup hb.facts_nodup]
  constructor
  · intro h path
    refine Option.ext fun side => ?_
    have hmem := h (path, 0, side.1, side.2)
    rw [ha.mem_facts, hb.mem_facts] at hmem
    simpa using hmem
  · rintro h ⟨path, stage, oid, mode⟩
    rw [ha.mem_facts, hb.mem_facts, h path]

theorem sameEntries_sort : SameEntries (entries.insertionSort (byPathStage · ·)) entries :=
  (perm_insertionSort _ _).map _

theorem Settled.sort (h : Settled entries) : Settled (entries.insertionSort (byPathStage · ·)) :=
  h.perm (perm_insertionSort _ _).symm

theorem Settled.sideAt_sort (h : Settled entries) (path : Bytes) :
    sideAt (entries.insertionSort (byPathStage · ·)) path = sideAt entries path :=
  (h.sort.same_iff_sides h).mp sameEntries_sort path

/-! ### Taking a path back -/

/-- The entries without a path, and one in its place. -/
theorem Settled.replace (h : Settled entries) {added : Index}
    (hadded : added = [] ∨ ∃ w : WorkEntry, w.path = path ∧ added = [stageEntry w 0]) :
    Settled ((entries.filter fun e => e.path != path) ++ added) := by
  have hkept : Settled (entries.filter fun e => e.path != path) :=
    ⟨fun e he => h.stage e (mem_of_mem_filter he), h.paths.sublist (filter_sublist.map _)⟩
  rcases hadded with rfl | ⟨w, rfl, rfl⟩
  · rwa [append_nil]
  · refine ⟨fun e he => ?_, ?_⟩
    · rcases mem_append.mp he with he | he
      · exact hkept.stage e he
      · rw [mem_singleton.mp he, stage_stageEntry]
    · rw [map_append, nodup_append]
      refine ⟨hkept.paths, nodup_singleton _, fun p hp q hq => ?_⟩
      obtain ⟨e, he, rfl⟩ := mem_map.mp hp
      obtain rfl : q = w.path := mem_singleton.mp hq
      simpa using (mem_filter.mp he).2

theorem sideAt_replace {added : Index} (hadded : ∀ e ∈ added, e.path = path) (p : Bytes) :
    sideAt ((entries.filter fun e => e.path != path) ++ added) p =
      if p = path then sideAt added path else sideAt entries p := by
  rw [sideAt, filter_append, filter_filter]
  by_cases hp : p = path
  · subst hp
    have hnone : (entries.filter fun e => e.path == p && e.path != p) = [] := by
      rw [filter_eq_nil_iff]
      intro e he
      simp
    rw [if_pos rfl, hnone, nil_append, sideAt]
  · have hsame : (entries.filter fun e => e.path == p && e.path != path) =
        entries.filter fun e => e.path == p := by
      refine filter_congr fun e he => ?_
      by_cases hep : e.path = p
      · simp [hep, hp]
      · simp [hep]
    have hadded : (added.filter fun e => e.path == p) = [] := by
      rw [filter_eq_nil_iff]
      intro e he
      simpa [hadded e he] using Ne.symm hp
    rw [if_neg hp, hsame, hadded, append_nil, sideAt]

theorem Settled.undoChange (h : Settled entries) (c : IndexChange) :
    Settled (undoChange entries c) := by
  refine h.replace ?_
  cases c.old with
  | none => exact .inl rfl
  | some side => exact .inr ⟨⟨c.path, side.1, side.2⟩, rfl, rfl⟩

theorem sideAt_undoChange (c : IndexChange) (p : Bytes) :
    sideAt (undoChange entries c) p = if p = c.path then c.old else sideAt entries p := by
  rw [Repo.undoChange, sideAt_replace]
  · cases hold : c.old with
    | none => rfl
    | some side => simp [sideAt, stageEntry]
  · intro e he
    cases hold : c.old with
    | none => simp [hold] at he
    | some side =>
      rw [hold] at he
      obtain rfl : e = stageEntry ⟨c.path, side.1, side.2⟩ 0 := by simpa using he
      rfl

/-- Taking changes back, each to what its path was before. -/
theorem settled_undoChanges {changes : List IndexChange} (h : Settled entries)
    (hold : ∀ c ∈ changes, c.old = sideAt prior c.path) :
    Settled (changes.foldl undoChange entries) ∧
      ∀ p, sideAt (changes.foldl undoChange entries) p =
        if ∃ c ∈ changes, c.path = p then sideAt prior p else sideAt entries p := by
  induction changes generalizing entries with
  | nil => exact ⟨h, fun p => by simp⟩
  | cons c changes ih =>
    obtain ⟨hsettled, hsides⟩ := ih (h.undoChange c) fun c' hc' => hold c' (mem_cons_of_mem c hc')
    refine ⟨hsettled, fun p => ?_⟩
    rw [foldl_cons, hsides, sideAt_undoChange]
    by_cases hrest : ∃ c' ∈ changes, c'.path = p
    · obtain ⟨c', hc', hpath⟩ := hrest
      rw [if_pos ⟨c', hc', hpath⟩, if_pos ⟨c', mem_cons_of_mem c hc', hpath⟩]
    · rw [if_neg hrest]
      by_cases hp : p = c.path
      · rw [if_pos hp, if_pos ⟨c, mem_cons_self, hp.symm⟩, hold c mem_cons_self, hp]
      · rw [if_neg hp, if_neg]
        rintro ⟨c', hc', hpath⟩
        rcases mem_cons.mp hc' with rfl | hc'
        · exact hp hpath.symm
        · exact hrest ⟨c', hc', hpath⟩

end

/-! ### What `add` does -/

section

variable {env : Env} {r r' : NativeRepo} {index : Index}

/-- The stage-0 entries of an index. -/
def settledPart (index : Index) : Index := index.filter fun e => e.stage = 0

/-- The paths `add` has not come to keep their side. -/
structure Staging (start : Index) (done : List Bytes) (entries : Index) : Prop where
  settled : Settled entries
  other : ∀ p ∉ done, sideAt entries p = sideAt start p

theorem triple_makeLine {f : NativeRepo → Index × List Bytes} {v : Index × List Bytes}
    {w : WorkEntry} :
    Triple (f · = v) (makeEntry env w) (fun line s => line = stageEntry w 0 ∧ f s = v)
      (fun _ s => f s = v) := by
  intro s hs
  rw [makeEntry]
  by_cases hmode : w.mode = gitlink
  · rw [if_pos hmode]
    exact ⟨rfl, hs⟩
  · rw [if_neg hmode]
    cases s.fs.lstat (abs env.root w.path) with
    | error e => exact hs
    | ok node => exact ⟨rfl, hs⟩

/-- What `add` looks at: the index, and what was recorded. -/
def staged (env : Env) (r : NativeRepo) : Index × List Bytes :=
  ((r.controls env.workspace).index, r.ops)

theorem staged_onObjects {α : Type} {x : OdbM α} : Keeps (staged env) (onObjects x) :=
  keeps_onObjects fun _ _ => rfl

/-- Staging one path. -/
theorem triple_stagePath {v : Index × List Bytes} {scan : List WorkEntry} {start entries : Index}
    {done : List Bytes} {path : Bytes} (h : Staging start done entries) :
    Triple (staged env · = v) (stagePath env scan entries path)
      (fun entries' s => Staging start (done ++ [path]) entries' ∧ staged env s = v)
      (fun _ s => staged env s = v) := by
  have hother : ∀ added : Index, (∀ e ∈ added, e.path = path) → ∀ p ∉ done ++ [path],
      sideAt ((entries.filter fun e => e.path != path) ++ added) p = sideAt start p := by
    intro added hadded p hp
    rw [mem_append, not_or, mem_singleton] at hp
    rw [sideAt_replace hadded, if_neg hp.2]
    exact h.other p hp.1
  rw [stagePath.eq_def]
  cases hfind : scan.find? fun w => w.path == path with
  | none =>
    refine .pure fun s hs => ⟨⟨?_, ?_⟩, hs⟩
    · simpa using h.settled.replace (.inl rfl : ([] : Index) = [] ∨ _)
    · simpa using hother [] fun e he => by cases he
  | some w =>
    have hpath : w.path = path := by simpa using find?_some hfind
    dsimp only
    refine .ite (fun _ => .throw fun s hs => hs) fun _ => .get fun s hs => ?_
    have hlift : Triple (· = s) (fromExcept (stagedBytes env s.fs w) : Cmd Bytes)
        (fun _ s' => staged env s' = v) (fun _ s' => staged env s' = v) :=
      .lift (fun _ _ s' hs' => by rw [hs']; exact hs) fun _ _ s' hs' => by rw [hs']; exact hs
    refine hlift.bind fun bytes => staged_onObjects.triple.bind fun _ =>
      triple_makeLine.bind fun line => .pre fun hline => ?_
    subst hline
    refine .pure fun s hs => ⟨⟨h.settled.replace (.inr ⟨w, hpath, rfl⟩), ?_⟩, hs⟩
    refine hother [stageEntry w 0] fun e he => ?_
    rw [mem_singleton.mp he]
    exact hpath

/-- What a successful `add` leaves: staged entries, and a record of what they changed. -/
structure Added (env : Env) (r r' : NativeRepo) (entries : Index) (touched : List Bytes) : Prop where
  settled : Settled entries
  other : ∀ p ∉ touched, sideAt entries p =
    sideAt (settledPart (r.controls env.workspace).index) p
  index : (r'.controls env.workspace).index = entries.insertionSort (byPathStage · ·)
  ops : r'.ops = r.ops ++
    if indexChanges (settledPart (r.controls env.workspace).index) entries touched = [] then []
    else [encodeIndexTx
      (indexChanges (settledPart (r.controls env.workspace).index) entries touched) env.algo]

theorem mem_sortPaths {paths : List Bytes} {p : Bytes} : p ∈ sortPaths paths ↔ p ∈ paths := by
  rw [sortPaths, mem_insertionSort, mem_dedup]

/-- `add` up to its targets. -/
theorem triple_targets {paths : List Bytes} {β : Type} {Q : β → NativeRepo → Prop}
    {k : Control → List WorkEntry → List Bytes → Cmd β}
    (hk : ∀ c scan targets, c.index = (r.controls env.workspace).index →
      addTargets scan (settledPart c.index) paths = .ok targets →
      Triple (staged env · = staged env r) (k c scan targets) Q fun _ _ => True) :
    Triple (· = r) (do
      ensureWritable env "add"
      let c ← control env
      let s ← get
      let scan ← fromExcept (scanTree env s.fs c.index)
      let targets ← fromExcept (addTargets scan (settledPart c.index) paths)
      k c scan targets) Q (fun _ _ => True) := by
  have hkeep : Triple (· = r) (ensureWritable env "add") (fun _ s => staged env s = staged env r)
      (fun _ _ => True) :=
    keeps_ensureWritable.triple.imp (fun s hs => by rw [hs]) (fun _ _ hs => hs) fun _ _ _ => trivial
  have hcontrol : Triple (staged env · = staged env r) (control env)
      (fun c s => c.index = (r.controls env.workspace).index ∧ staged env s = staged env r)
      (fun _ _ => True) := fun s hs => ⟨congrArg Prod.fst hs, hs⟩
  have hlift {α : Type} {x : Res α} {s : NativeRepo} (hs : staged env s = staged env r) :
      Triple (· = s) (fromExcept x : Cmd α)
        (fun a s' => x = .ok a ∧ staged env s' = staged env r) (fun _ _ => True) :=
    .lift (fun a ha s' hs' => ⟨ha, by rw [hs']; exact hs⟩) fun _ _ _ _ => trivial
  refine hkeep.bind fun _ => hcontrol.bind fun c => .pre fun hc => .get fun s hs =>
    (hlift hs).bind fun scan => .pre fun _ => ?_
  have htargets : Triple (staged env · = staged env r)
      (fromExcept (addTargets scan (settledPart c.index) paths) : Cmd _)
      (fun targets s => addTargets scan (settledPart c.index) paths = .ok targets ∧
        staged env s = staged env r) (fun _ _ => True) :=
    .lift (fun targets ht s hs => ⟨ht, hs⟩) fun _ _ _ _ => trivial
  exact htargets.bind fun targets => .pre fun htargets => hk c scan targets hc htargets

/-- **`add`**, with one stage-0 entry a path before it. -/
theorem add_spec {paths : List Bytes}
    (hprior : ((settledPart (r.controls env.workspace).index).map IndexEntry.path).Nodup) :
    Triple (· = r) (add env paths) (fun _ s => ∃ entries touched, Added env r s entries touched)
      (fun _ _ => True) := by
  refine triple_targets fun c scan targets hc htargets => ?_
  rw [hc] at htargets ⊢
  have hsettled : Settled (settledPart (r.controls env.workspace).index) :=
    ⟨fun e he => by simpa using (mem_filter.mp he).2, hprior⟩
  have hfold : ∀ start : Index, Settled start → Triple (staged env · = staged env r)
      (targets.foldlM (stagePath env scan) start)
      (fun entries s => Staging start targets entries ∧ staged env s = staged env r)
      (fun _ _ => True) := by
    intro start hstart
    refine (Triple.foldlM (fun done entries s => Staging start done entries ∧
      staged env s = staged env r) fun done path rest entries _ => .pre fun h =>
      (triple_stagePath h).imp (fun _ hs => hs) (fun _ _ hs => hs) fun _ _ _ => trivial).imp
      (fun s hs => ⟨⟨hstart, fun _ _ => rfl⟩, hs⟩) (fun _ _ hs => hs) fun _ _ hs => hs
  -- what is recorded and written of the entries that were staged
  have hfinish : ∀ (entries : Index) (touched : List Bytes), Settled entries →
      (∀ p ∉ touched, sideAt entries p =
        sideAt (settledPart (r.controls env.workspace).index) p) →
      Triple (staged env · = staged env r) (do
        saveIndex env entries
        whenever (indexChanges (settledPart (r.controls env.workspace).index) entries touched != [])
          (recordOp env (encodeIndexTx
            (indexChanges (settledPart (r.controls env.workspace).index) entries touched) env.algo)))
        (fun _ s => ∃ entries touched, Added env r s entries touched) (fun _ _ => True) := by
    intro entries touched hentries hother
    have hsave : Triple (staged env · = staged env r) (saveIndex env entries)
        (fun _ s => staged env s = (entries.insertionSort (byPathStage · ·), r.ops))
        (fun _ _ => True) := by
      intro s hs
      have hown : (Function.update s.controls env.workspace
          ({ s.controls env.workspace with index := entries.insertionSort (byPathStage · ·) }))
          env.workspace = { s.controls env.workspace with
            index := entries.insertionSort (byPathStage · ·) } := Function.update_self ..
      have hops : s.ops = r.ops := congrArg Prod.snd hs
      exact Prod.ext (congrArg Control.index hown) hops
    refine hsave.bind fun _ s hs => ?_
    rw [whenever]
    by_cases hnone : indexChanges (settledPart (r.controls env.workspace).index) entries touched = []
    · rw [if_neg (by simp [hnone])]
      refine ⟨entries, touched, hentries, hother, congrArg Prod.fst hs, ?_⟩
      rw [if_pos hnone, append_nil]
      exact congrArg Prod.snd hs
    · rw [if_pos (by simpa using hnone), recordOp, if_neg (by simp [encodeIndexTx]; decide)]
      cases env.logged s.ops with
      | error e => trivial
      | ok u =>
        refine ⟨entries, touched, hentries, hother, congrArg Prod.fst hs, ?_⟩
        rw [if_neg hnone]
        exact congrArg (· ++ _) (congrArg Prod.snd hs)
  have hnil : Settled ([] : Index) := ⟨fun e he => (by cases he), nodup_nil⟩
  cases hall : paths.any fun p => pathspec p == [] with
  | true =>
    refine (hfold [] hnil).bind fun entries => .pre fun hst => hfinish entries _ hst.settled fun p hp => ?_
    rw [if_pos rfl, mem_sortPaths, mem_append, not_or] at hp
    have hscan : targets = scan.map WorkEntry.path := by
      rw [addTargets, if_pos hall] at htargets
      cases htargets
      rfl
    rw [hst.other p (hscan ▸ hp.2)]
    exact (sideAt_eq_none fun e he heq => hp.1 (mem_map.mpr ⟨e, he, heq⟩)).symm
  | false =>
    refine (hfold _ hsettled).bind fun entries => .pre fun hst =>
      hfinish entries targets hst.settled fun p hp => hst.other p hp

end

/-! ### Undoing it -/

section

variable {env env₁ env₂ : Env} {r₀ r₁ : NativeRepo} {entries prior : Index} {touched : List Bytes}

theorem mem_indexChanges {c : IndexChange} : c ∈ indexChanges prior entries touched ↔
    c.path ∈ touched ∧ c.old = sideAt prior c.path ∧ c.new = sideAt entries c.path ∧ c.old ≠ c.new := by
  rw [indexChanges, mem_filter]
  constructor
  · rintro ⟨hc, hne⟩
    obtain ⟨p, hp, rfl⟩ := mem_map.mp hc
    exact ⟨hp, rfl, rfl, by simpa using hne⟩
  · rintro ⟨hp, hold, hnew, hne⟩
    refine ⟨mem_map.mpr ⟨c.path, hp, ?_⟩, by simpa using hne⟩
    rw [← hold, ← hnew]

/-- An entry the log has room for. -/
structure IndexEntry.Fits (algo : HashAlgo) (e : IndexEntry) : Prop where
  path : e.path.length < 2 ^ 16
  algo : e.oid.algo = algo

theorem sideOf_sideAt {algo : HashAlgo} {path : Bytes} (h : ∀ e ∈ entries, e.Fits algo) :
    SideOf algo (sideAt entries path) := by
  intro side hside
  obtain ⟨e, he, -, rfl⟩ := exists_of_sideAt hside
  exact (h e he).algo

/-- What `add` records has room in the log. -/
theorem fits_indexChanges {algo : HashAlgo} (hprior : ∀ e ∈ prior, e.Fits algo)
    (hentries : ∀ e ∈ entries, e.Fits algo) : ∀ c ∈ indexChanges prior entries touched, c.Fits algo := by
  intro c hc
  obtain ⟨-, hold, hnew, hne⟩ := mem_indexChanges.mp hc
  refine ⟨?_, hold ▸ sideOf_sideAt hprior, hnew ▸ sideOf_sideAt hentries⟩
  cases hside : c.old with
  | some side =>
    obtain ⟨e, he, hpath, -⟩ := exists_of_sideAt (hold.symm.trans hside)
    exact hpath ▸ (hprior e he).path
  | none =>
    cases hside' : c.new with
    | none => exact absurd (hside.trans hside'.symm) hne
    | some side =>
      obtain ⟨e, he, hpath, -⟩ := exists_of_sideAt (hnew.symm.trans hside')
      exact hpath ▸ (hentries e he).path

theorem length_changes_le {changes : List IndexChange} {algo : HashAlgo} :
    changes.length ≤ (encodeIndexTx changes algo).length := by
  have hall : changes.length ≤ (changes.flatMap encodeIndexChange).length := by
    induction changes with
    | nil => exact le_rfl
    | cons c changes ih =>
      rw [flatMap_cons, length_append, length_cons]
      simp only [encodeIndexChange, length_append, length_leBytes]
      omega
  rw [encodeIndexTx, length_append]
  omega

/-- What undoing changes makes of an index. -/
def undoneIndex (changes : List IndexChange) (index : Index) : Index :=
  (changes.foldl undoChange (settledPart index)).insertionSort (byPathStage · ·)

/-- What undoing an index transaction makes of the repository. -/
theorem undo_indexTx {changes : List IndexChange} {payload : Bytes}
    (hlast : r₁.ops.getLast? = some payload) (hkind : payload.head? = some payloadIndexTx)
    (hdecode : decodeIndexTx payload = .ok changes) :
    ∃ ops, leaves (undo env r₁) = { withControl env r₁ { r₁.controls env.workspace with
      index := undoneIndex changes (r₁.controls env.workspace).index } with ops } := by
  have hcontrol : control env r₁ = .ok (r₁.controls env.workspace) r₁ := rfl
  have hsave : saveIndex env (changes.foldl undoChange (settledPart (r₁.controls env.workspace).index))
      r₁ = .ok () (withControl env r₁ { r₁.controls env.workspace with
        index := undoneIndex changes (r₁.controls env.workspace).index }) := rfl
  have hrun : undo env r₁ = recordOp env (encodeIndexTx (inverseIndex changes) env.algo)
      (withControl env r₁ { r₁.controls env.workspace with
        index := undoneIndex changes (r₁.controls env.workspace).index }) := by
    rw [undo, run_get, hlast]
    dsimp only
    rw [hkind]
    dsimp only
    rw [if_neg (by decide), if_pos rfl, undoIndexTx, hdecode]
    dsimp only
    rw [run_bind_ok hcontrol]
    exact run_bind_ok hsave
  rw [hrun, recordOp]
  split
  · exact ⟨_, rfl⟩
  · split <;> exact ⟨_, rfl⟩

/-- The op that an `add` records, and that it reads back. -/
theorem Added.recorded {algo : HashAlgo} (h : Added env₁ r₀ r₁ entries touched)
    (halgo : env₁.algo = algo) (hrecorded : r₁.ops ≠ r₀.ops)
    (hprior : ∀ e ∈ (r₀.controls env₁.workspace).index, e.Fits algo)
    (hafter : ∀ e ∈ (r₁.controls env₁.workspace).index, e.Fits algo)
    (hlength : ∀ op ∈ r₁.ops, op.length < 2 ^ 32) :
    let changes := indexChanges (settledPart (r₀.controls env₁.workspace).index) entries touched
    changes ≠ [] ∧ r₁.ops.getLast? = some (encodeIndexTx changes algo) ∧
      decodeIndexTx (encodeIndexTx changes algo) = .ok changes := by
  intro changes
  subst halgo
  have hops := h.ops
  by_cases hnone : changes = []
  · rw [if_pos hnone, append_nil] at hops
    exact absurd hops hrecorded
  · rw [if_neg hnone] at hops
    have hlast : r₁.ops.getLast? = some (encodeIndexTx changes env₁.algo) := by
      rw [hops, getLast?_concat]
    have hentries : ∀ e ∈ entries, e.Fits env₁.algo := by
      intro e he
      refine hafter e ?_
      rw [h.index, mem_insertionSort]
      exact he
    have hpriorPart : ∀ e ∈ settledPart (r₀.controls env₁.workspace).index, e.Fits env₁.algo :=
      fun e he => hprior e (mem_of_mem_filter he)
    refine ⟨hnone, hlast, decode_encode (fits_indexChanges hpriorPart hentries) ?_⟩
    exact length_changes_le.trans_lt (hlength _ (mem_of_getLast? hlast))

theorem unmerged_eq_false {index : Index} : unmerged index = false ↔ ∀ e ∈ index, e.stage = 0 := by
  rw [unmerged, any_eq_false]
  simp

/-- In the workspace of the `add`, every side is what it was. -/
theorem Added.undone (h : Added env₁ r₀ r₁ entries touched) :
    let prior := settledPart (r₀.controls env₁.workspace).index
    let undone := undoneIndex (indexChanges prior entries touched) (r₁.controls env₁.workspace).index
    Settled undone ∧ ∀ p, sideAt undone p = sideAt prior p := by
  intro prior undone
  have hpart : settledPart (r₁.controls env₁.workspace).index =
      entries.insertionSort (byPathStage · ·) := by
    rw [h.index]
    exact filter_eq_self.mpr fun e he => by simpa using h.settled.sort.stage e he
  have hold : ∀ c ∈ indexChanges prior entries touched, c.old = sideAt prior c.path :=
    fun c hc => (mem_indexChanges.mp hc).2.1
  obtain ⟨hsettled, hsides⟩ := settled_undoChanges h.settled.sort hold
  have hundone : undone = ((indexChanges prior entries touched).foldl undoChange
      (entries.insertionSort (byPathStage · ·))).insertionSort (byPathStage · ·) := by
    rw [← hpart]
    rfl
  rw [hundone]
  refine ⟨hsettled.sort, fun p => ?_⟩
  rw [hsettled.sideAt_sort, hsides]
  split
  · rfl
  · rename_i hnot
    rw [h.settled.sideAt_sort]
    by_cases hp : p ∈ touched
    · by_contra hne
      exact hnot ⟨⟨p, _, _⟩, mem_indexChanges.mpr ⟨hp, rfl, rfl, Ne.symm hne⟩, rfl⟩
    · exact h.other p hp

/-- Only merged paths are the same as merged paths. -/
theorem Settled.merged_of_same {index : Index} (h : Settled entries) (hsame : SameEntries entries index) :
    unmerged index = false := by
  refine unmerged_eq_false.mpr fun e he => ?_
  have hmem : e.facts ∈ entries.map IndexEntry.facts :=
    (hsame.mem_iff).mpr (mem_map_of_mem he)
  exact (h.mem_facts.mp hmem).1

theorem settledPart_eq {index : Index} (h : unmerged index = false) : settledPart index = index :=
  filter_eq_self.mpr fun e he => by simpa using unmerged_eq_false.mp h e he

/-- **Index after `add` and `undo`.** The entries are as they were exactly if `undo` runs in the same
    workspace and no path was unmerged. -/
theorem add_undo_restores_iff {paths : List Bytes}
    (hpaths : ((settledPart (r₀.controls env₁.workspace).index).map IndexEntry.path).Nodup)
    (hadd : add env₁ paths r₀ = .ok () r₁) (hrecorded : r₁.ops ≠ r₀.ops)
    (hprior : ∀ e ∈ (r₀.controls env₁.workspace).index, e.Fits env₁.algo)
    (hafter : ∀ e ∈ (r₁.controls env₁.workspace).index, e.Fits env₁.algo)
    (hlength : ∀ op ∈ r₁.ops, op.length < 2 ^ 32) :
    SameEntries ((leaves (undo env₂ r₁)).controls env₁.workspace).index
        (r₀.controls env₁.workspace).index ↔
      env₂.workspace = env₁.workspace ∧ unmerged (r₀.controls env₁.workspace).index = false := by
  obtain ⟨entries, touched, h⟩ := (add_spec hpaths).ok rfl hadd
  obtain ⟨hchanges, hlast, hdecode⟩ := h.recorded rfl hrecorded hprior hafter hlength
  obtain ⟨ops, hundo⟩ : ∃ ops, leaves (undo env₂ r₁) = _ := undo_indexTx hlast rfl hdecode
  have hsettled : Settled (settledPart (r₀.controls env₁.workspace).index) :=
    ⟨fun e he => by simpa using (mem_filter.mp he).2, hpaths⟩
  rw [hundo]
  by_cases hsame : env₂.workspace = env₁.workspace
  · have hown : (Function.update r₁.controls env₂.workspace { r₁.controls env₂.workspace with
        index := undoneIndex (indexChanges (settledPart (r₀.controls env₁.workspace).index) entries
          touched) (r₁.controls env₂.workspace).index }) env₁.workspace =
        { r₁.controls env₁.workspace with
          index := undoneIndex (indexChanges (settledPart (r₀.controls env₁.workspace).index) entries
            touched) (r₁.controls env₁.workspace).index } := by
      rw [hsame, Function.update_self]
    obtain ⟨hundone, hsides⟩ := h.undone
    dsimp only [withControl]
    rw [hown]
    constructor
    · exact fun hsameEntries => ⟨hsame, hundone.merged_of_same hsameEntries⟩
    · intro hmerged
      rw [settledPart_eq hmerged.2] at hsettled hsides hundone ⊢
      exact (hundone.same_iff_sides hsettled).mpr hsides
  · have hown : (Function.update r₁.controls env₂.workspace { r₁.controls env₂.workspace with
        index := undoneIndex (indexChanges (settledPart (r₀.controls env₁.workspace).index) entries
          touched) (r₁.controls env₂.workspace).index }) env₁.workspace =
        r₁.controls env₁.workspace := Function.update_of_ne (Ne.symm hsame) _ _
    dsimp only [withControl]
    rw [hown, h.index]
    refine ⟨fun hsameEntries => ?_, fun hboth => absurd hboth.1 hsame⟩
    have hmerged := h.settled.sort.merged_of_same hsameEntries
    rw [settledPart_eq hmerged] at hsettled hchanges
    have hsides := (h.settled.sort.same_iff_sides hsettled).mp hsameEntries
    obtain ⟨c, hc⟩ := exists_mem_of_ne_nil _ hchanges
    obtain ⟨-, hold, hnew, hne⟩ := mem_indexChanges.mp hc
    rw [hold, hnew, ← h.settled.sideAt_sort, hsides] at hne
    exact absurd rfl hne

/-- **`undo` right after a command.**  The command ran in the workspace of `env₁`, `undo` in that of
    `env₂`.  A ref transaction is taken back exactly if nothing stands in the way, whoever's refs it
    moved, and only below the root of the second workspace are files touched.  An index transaction is
    taken back exactly if the workspaces are the same and no path was unmerged; whichever index the
    second workspace has, it is applied to that one.  The state of any other workspace stays. -/
theorem undo_inverts (env₁ env₂ : Env) (r₀ : NativeRepo) {r₁ : NativeRepo} (hlength : ∀ op ∈ r₁.ops, op.length < 2 ^ 32) :
    (∀ changes, MovedRefs r₀ r₁ changes →
      ((leaves (undo env₂ r₁)).refs = r₀.refs ↔ Undoes env₂ r₁ changes ∨ r₁.refs = r₀.refs) ∧
      (∀ name : String, (leaves (undo env₂ r₁)).refs[name]? = r₁.refs[name]? ↔
        ¬Undoes env₂ r₁ changes ∨ r₀.refs[name]? = r₁.refs[name]?) ∧
      (Rooted env₂ r₁.fs → (∀ target, headEntries env₂ (undone r₀ r₁ changes) = .ok target →
          Tame env₂ r₁.fs (indexEntries (r₁.controls env₂.workspace).index) target) →
        ∀ p, ¬env₂.root <+: p → (leaves (undo env₂ r₁)).fs.get p = r₁.fs.get p)) ∧
    (∀ paths, ((settledPart (r₀.controls env₁.workspace).index).map IndexEntry.path).Nodup →
      add env₁ paths r₀ = .ok () r₁ → r₁.ops ≠ r₀.ops →
      (∀ e ∈ (r₀.controls env₁.workspace).index, e.Fits env₁.algo) →
      (∀ e ∈ (r₁.controls env₁.workspace).index, e.Fits env₁.algo) →
      (SameEntries ((leaves (undo env₂ r₁)).controls env₁.workspace).index
          (r₀.controls env₁.workspace).index ↔
        env₂.workspace = env₁.workspace ∧ unmerged (r₀.controls env₁.workspace).index = false) ∧
      (leaves (undo env₂ r₁)).refs = r₁.refs ∧ (leaves (undo env₂ r₁)).fs = r₁.fs ∧
      ∃ changes, r₁.ops.getLast? = some (encodeIndexTx changes env₁.algo) ∧
        ((leaves (undo env₂ r₁)).controls env₂.workspace).index =
          undoneIndex changes (r₁.controls env₂.workspace).index) ∧
    ∀ workspace, workspace ≠ env₂.workspace →
      (leaves (undo env₂ r₁)).controls workspace = r₁.controls workspace := by
  refine ⟨fun changes h => ⟨h.undo_restores_iff, h.undo_keeps_iff, fun hroot htame p hp =>
    h.undo_files hroot htame hp⟩, ?_, fun workspace hne => (blind_elsewhere hne).keeps_undo r₁⟩
  intro paths hpaths hadd hrecorded hprior hafter
  refine ⟨add_undo_restores_iff hpaths hadd hrecorded hprior hafter hlength, ?_⟩
  obtain ⟨entries, touched, h⟩ := (add_spec hpaths).ok rfl hadd
  obtain ⟨-, hlast, hdecode⟩ := h.recorded rfl hrecorded hprior hafter hlength
  obtain ⟨ops, hundo⟩ : ∃ ops, leaves (undo env₂ r₁) = _ := undo_indexTx hlast rfl hdecode
  rw [hundo]
  refine ⟨rfl, rfl, _, hlast, ?_⟩
  dsimp only [withControl]
  rw [Function.update_self]

end

/-! ### A file that has changed -/

/-- The file has changed since it was added; another workspace has nothing in its index. -/
def changedFile : NativeRepo where
  objects := oneFile.objects
  refs := oneFile.refs
  ops := []
  fs := toyFiles [(pathF, [2])]
  controls workspace :=
    ⟨if workspace = "default" then [stageEntry (toyEntry pathF [1]) 0] else [], none, none, none, none⟩

/-- A conflict on the file is waiting. -/
def conflictedFile : NativeRepo where
  objects := oneFile.objects
  refs := oneFile.refs
  ops := []
  fs := toyFiles [(pathF, [2])]
  controls _ := ⟨[stageEntry (toyEntry pathF [1]) 1, stageEntry (toyEntry pathF [2]) 2], none, none,
    none, none⟩

theorem ok_leaves {m : Cmd Unit} {r : NativeRepo} (h : (m r matches .ok _ _) = true) :
    m r = .ok () (leaves (m r)) := by
  cases hrun : m r with
  | ok u s => rfl
  | error e s =>
    rw [hrun] at h
    cases h

instance (algo : HashAlgo) (e : IndexEntry) : Decidable (e.Fits algo) :=
  decidable_of_iff (e.path.length < 2 ^ 16 ∧ e.oid.algo = algo)
    ⟨fun h => ⟨h.1, h.2⟩, fun h => ⟨h.path, h.algo⟩⟩

instance (a b : Index) : Decidable (SameEntries a b) := inferInstanceAs (Decidable (List.Perm _ _))

theorem undo_inverts_file : SameEntries ((leaves (undo Env.toy (leaves (add Env.toy [pathF]
    changedFile)))).controls "default").index (changedFile.controls "default").index :=
  ((undo_inverts Env.toy Env.toy changedFile (by decide +kernel)).2.1 [pathF] (by decide +kernel)
    (ok_leaves (by decide +kernel)) (by decide +kernel) (by decide +kernel) (by decide +kernel)).1.mpr
    ⟨rfl, by decide +kernel⟩

/-- **An unmerged index does not come back**, and another workspace's index is changed instead of the
    one the command changed. -/
theorem undo_loses : ¬SameEntries ((leaves (undo Env.toy (leaves (add Env.toy [pathF]
      conflictedFile)))).controls "default").index (conflictedFile.controls "default").index ∧
    ¬SameEntries ((leaves (undo { Env.toy with workspace := "other" } (leaves (add Env.toy [pathF]
      changedFile)))).controls "other").index (changedFile.controls "other").index := by
  decide +kernel

end Alt.Repo
