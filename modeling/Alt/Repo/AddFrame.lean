import Alt.Repo.UndoIndex

namespace Alt.Repo

open Alt.Library Alt.Odb Alt.Refs List

/-!
# What adding some paths leaves alone (`native/add.rs`, 8–127)

`add` starts from the stage-0 entries of the whole index, whatever it is asked to add.

* `Covered` — a path is in one of the arguments;
* `add_frame` — after a success the entries that are not covered are those of stage 0 before it;
* `add_frame_iff` — the others are all as they were just if no conflict is among them.
-/

/-- The arguments stand for this path. -/
def covered (paths : List Bytes) (path : Bytes) : Bool :=
  paths.any fun given => pathspec given == [] || underSpec (pathspec given) path

/-- The entries of other paths. -/
def uncovered (paths : List Bytes) (index : Index) : Index :=
  index.filter fun e => !covered paths e.path

section

variable {env : Env} {r r' : NativeRepo} {paths : List Bytes}

/-- What staging one path makes of the entries: those of other paths stay. -/
theorem triple_stagePath_frame {v : Index × List Bytes} {scan : List WorkEntry} {entries : Index}
    {path : Bytes} (hpath : covered paths path = true) :
    Triple (staged env · = v) (stagePath env scan entries path)
      (fun entries' s => uncovered paths entries' = uncovered paths entries ∧ staged env s = v)
      (fun _ _ => True) := by
  have hrest : uncovered paths (entries.filter fun e => e.path != path) = uncovered paths entries := by
    rw [uncovered, uncovered, filter_filter]
    refine filter_congr fun e _ => ?_
    by_cases heq : e.path = path
    · rw [heq, hpath]
      rfl
    · rw [bne_iff_ne.mpr heq, Bool.and_true]
  rw [stagePath.eq_def]
  cases hfind : scan.find? fun w => w.path == path with
  | none => exact .pure fun s hs => ⟨hrest, hs⟩
  | some w =>
    have hw : w.path = path := by simpa using find?_some hfind
    dsimp only
    refine .ite (fun _ => .throw fun _ _ => trivial) fun _ => .get fun s hs => ?_
    have hlift : Triple (· = s) (fromExcept (stagedBytes env s.fs w) : Cmd Bytes)
        (fun _ s' => staged env s' = v) (fun _ _ => True) :=
      .lift (fun _ _ s' hs' => by rw [hs']; exact hs) fun _ _ _ _ => trivial
    refine hlift.bind fun bytes => ((staged_onObjects.triple).imp (fun _ h => h) (fun _ _ h => h)
      fun _ _ _ => trivial).bind fun _ => (triple_makeLine.imp (fun _ h => h) (fun _ _ h => h)
      fun _ _ _ => trivial).bind fun line => .pre fun hline => ?_
    subst hline
    refine .pure fun s hs => ⟨?_, hs⟩
    have hline : uncovered paths [stageEntry w 0] = [] := by
      rw [uncovered, filter_singleton, stageEntry, hw, hpath]
      rfl
    rw [uncovered] at hline hrest ⊢
    rw [filter_append, hline, append_nil, hrest]

theorem covered_of_addTargets {scan : List WorkEntry} {prior : Index} {targets : List Bytes}
    (h : addTargets scan prior paths = .ok targets) : ∀ p ∈ targets, covered paths p = true := by
  intro p hp
  rw [covered, any_eq_true]
  rw [addTargets] at h
  split at h
  · rename_i hall
    obtain ⟨given, hgiven, hspec⟩ := any_eq_true.mp hall
    exact ⟨given, hgiven, by rw [hspec, Bool.true_or]⟩
  · obtain ⟨matched, hmapM, h⟩ := of_match_ok h
    cases h
    rw [mem_sortPaths, mem_flatten] at hp
    obtain ⟨part, hpart, hp⟩ := hp
    obtain ⟨given, hgiven, hmatch⟩ := exists_of_mem_forall₂ (forall₂_of_mapM_ok hmapM) hpart
    refine ⟨given, hgiven, ?_⟩
    rw [matchSpec] at hmatch
    split at hmatch
    · cases hmatch
    · cases hmatch
      rw [(mem_filter.mp hp).2, Bool.or_true]

/-- **What `add` leaves of other paths**: their stage-0 entries. -/
theorem add_frame :
    Triple (· = r) (add env paths) (fun _ s =>
      (uncovered paths (s.controls env.workspace).index).Perm
        (uncovered paths (settledPart (r.controls env.workspace).index))) (fun _ _ => True) := by
  refine triple_targets fun c scan targets hc htargets => ?_
  rw [hc] at htargets ⊢
  have hfold : ∀ start : Index, Triple (staged env · = staged env r)
      (targets.foldlM (stagePath env scan) start)
      (fun entries s => uncovered paths entries = uncovered paths start ∧ staged env s = staged env r)
      (fun _ _ => True) := by
    intro start
    refine (Triple.foldlM (fun _ entries s => uncovered paths entries = uncovered paths start ∧
      staged env s = staged env r) fun done path rest entries hsplit => .pre fun hentries =>
      (triple_stagePath_frame ?_).imp (fun _ hs => hs) (fun _ _ hs => ⟨hs.1.trans hentries, hs.2⟩)
        fun _ _ h => h).imp (fun s hs => ⟨rfl, hs⟩) (fun _ _ hs => hs) fun _ _ hs => hs
    exact covered_of_addTargets htargets path (by rw [hsplit]; simp)
  -- what is written of the entries that were staged
  have hfinish : ∀ (entries : Index) (c : Bool) (payload : Bytes), Triple (staged env · = staged env r)
      (do
        saveIndex env entries
        whenever c (recordOp env payload))
      (fun _ s => (s.controls env.workspace).index.Perm entries) (fun _ _ => True) := by
    intro entries c payload
    have hsave : Triple (staged env · = staged env r) (saveIndex env entries)
        (fun _ s => (s.controls env.workspace).index = entries.insertionSort (byPathStage · ·))
        (fun _ _ => True) := by
      intro s _
      change (Function.update s.controls env.workspace _ env.workspace).index = _
      rw [Function.update_self]
    have hrecord : Keeps (fun s : NativeRepo => (s.controls env.workspace).index) (recordOp env payload) := by
      intro s
      rw [recordOp]
      split
      · rfl
      · cases env.logged s.ops <;> rfl
    refine hsave.bind fun _ => ((keeps_whenever hrecord).triple.imp (fun _ hs => hs)
      (fun _ s hs => ?_) fun _ _ _ => trivial)
    rw [hs]
    exact perm_insertionSort _ _
  have hframe : ∀ start : Index, uncovered paths start =
        uncovered paths (settledPart (r.controls env.workspace).index) →
      ∀ {entries index : Index}, uncovered paths entries = uncovered paths start → index.Perm entries →
        (uncovered paths index).Perm (uncovered paths (settledPart (r.controls env.workspace).index)) := by
    intro start hstart entries index hentries hperm
    rw [← hstart, ← hentries]
    exact hperm.filter _
  cases hall : paths.any fun p => pathspec p == [] with
  | true =>
    have hnone : ∀ index : Index, uncovered paths index = [] := by
      intro index
      obtain ⟨given, hgiven, hspec⟩ := any_eq_true.mp hall
      rw [uncovered, filter_eq_nil_iff]
      intro e _
      have hcovered : covered paths e.path = true :=
        any_eq_true.mpr ⟨given, hgiven, by rw [hspec, Bool.true_or]⟩
      rw [hcovered]
      decide
    refine (hfold []).bind fun entries => .pre fun hentries => (hfinish entries _ _).imp (fun _ hs => hs)
      (fun _ s hs => hframe [] ?_ hentries hs) fun _ _ h => h
    rw [hnone, hnone]
  | false =>
    exact (hfold _).bind fun entries => .pre fun hentries => (hfinish entries _ _).imp (fun _ hs => hs)
      (fun _ s hs => hframe _ rfl hentries hs) fun _ _ h => h

/-- **The rest of the index is as it was** just if no conflict is in it. -/
theorem add_frame_iff (h : add env paths r = .ok () r') :
    (uncovered paths (r'.controls env.workspace).index).Perm
        (uncovered paths (r.controls env.workspace).index) ↔
      ∀ e ∈ (r.controls env.workspace).index, covered paths e.path = false → e.stage = 0 := by
  have hperm := add_frame.ok rfl h
  have hpart : uncovered paths (settledPart (r.controls env.workspace).index) =
      (uncovered paths (r.controls env.workspace).index).filter fun e => e.stage = 0 := by
    rw [uncovered, uncovered, settledPart, filter_filter, filter_filter]
    exact filter_congr fun e _ => Bool.and_comm _ _
  rw [hpart] at hperm
  constructor
  · intro hsame e he hcovered
    have hlength := (hperm.symm.trans hsame).length_eq
    have hall := length_filter_eq_length_iff.mp hlength e
      (mem_filter.mpr ⟨he, by rw [hcovered]; rfl⟩)
    simpa using hall
  · intro hall
    refine hperm.trans (.of_eq (filter_eq_self.mpr fun e he => ?_))
    obtain ⟨hmem, hcovered⟩ := mem_filter.mp he
    simpa using hall e hmem (by simpa using hcovered)

end

/-! ### Two conflicts -/

/-- A conflict on the file and one on another path are waiting. -/
def twoConflicts : NativeRepo where
  objects := oneFile.objects
  refs := oneFile.refs
  ops := []
  fs := toyFiles [(pathF, [2])]
  controls _ := ⟨[stageEntry (toyEntry pathF [1]) 1, stageEntry (toyEntry pathF [2]) 2,
    stageEntry (toyEntry [0x67] [1]) 1, stageEntry (toyEntry [0x67] [2]) 2], none, none, none, none⟩

/-- The other path is no conflict. -/
def oneConflict : NativeRepo where
  objects := oneFile.objects
  refs := oneFile.refs
  ops := []
  fs := toyFiles [(pathF, [2])]
  controls _ := ⟨[stageEntry (toyEntry pathF [1]) 1, stageEntry (toyEntry pathF [2]) 2,
    stageEntry (toyEntry [0x67] [1]) 0], none, none, none, none⟩

theorem add_frame_file : (uncovered [pathF] ((leaves (add Env.toy [pathF] oneConflict)).controls
      "default").index).Perm (uncovered [pathF] (oneConflict.controls "default").index) := by
  have hadd : add Env.toy [pathF] oneConflict = .ok () (leaves (add Env.toy [pathF] oneConflict)) :=
    ok_leaves (by decide +kernel)
  exact (add_frame_iff hadd).mpr (by decide +kernel)

/-- **The other conflict is lost.** -/
theorem add_loses_conflict : (add Env.toy [pathF] twoConflicts matches .ok _ _) = true ∧
    ¬(uncovered [pathF] ((leaves (add Env.toy [pathF] twoConflicts)).controls "default").index).Perm
      (uncovered [pathF] (twoConflicts.controls "default").index) := by
  decide +kernel

end Alt.Repo
