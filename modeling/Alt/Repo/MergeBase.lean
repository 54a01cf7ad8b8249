import Alt.Repo.MergeTrees

namespace Alt.Repo

open Alt.Library Alt.Odb

/-!
# Merging two commits (`native/merge.rs`, 55–105; `native.rs`, 2199–2249)

The base of a merge: one merge base's tree, or the trees of several merged into one.  `computeMerge`
is the engine that `merge` and `flow finish` share.

* `compute_merge_spec` — merge bases are the best common ancestors, each once; when a merge is up
  to date or a fast-forward; merging bases of bases always comes to an end;
* `merge_bases_keep` — merge bases are the same from either side.
-/

/-! ### The base -/

/-- Bounds for the loops that have none of their own. -/
structure Fuel where
  history : Nat
  bases : Nat
  tree : Nat

/-- What a merge comes to. -/
inductive MergeOutcome
  | upToDate
  | fastForward (commit : ObjectId)
  | merged (commit : ObjectId) (entries : List WorkEntry)
  | conflicted (resolved : List Resolved)

section Engine

variable (P : Prims) (algo : HashAlgo) (fuel : Fuel)

/-- A conflicted path keeps its working-tree bytes as its content. -/
def virtualEntry (r : Resolved) : OdbM (Option WorkEntry) :=
  if r.conflicted = false then pure r.entry
  else
    match (r.stages.find? fun s => s.1 = 2).or (r.stages.find? fun s => s.1 = 3) with
    | none => throw (.message "conflict without either side")
    | some (_, side) =>
      match r.worktree with
      | none => throw (.message "conflict without content")
      | some bytes => do
        let oid ← store P algo .blob bytes
        return some ⟨r.path, oid, side.mode⟩

/-- Flattens a merge result into a tree. -/
def virtualTree (resolved : List Resolved) : OdbM (List WorkEntry) := do
  let out ← resolved.mapM (virtualEntry P algo)
  return out.reduceOption

/-- The tree a merge is resolved against: several bases are merged into each other in turn, each
    pair against its own merge bases. -/
def baseEntries : Nat → List ObjectId → OdbM (List WorkEntry)
  | _, [] => pure []
  | 0, _ :: _ => throw (.unbounded .bases)
  | depth + 1, first :: rest => do
    let acc ← fromExcept (commitEntries (← get) algo fuel.tree first)
    let out ← rest.foldlM (fun (merged, acc) next => do
      let innerBases ← fromExcept (mergeBases (← get) fuel.history merged [next])
      let innerBase ← baseEntries depth innerBases
      let theirs ← fromExcept (commitEntries (← get) algo fuel.tree next)
      let resolved ← mergeTrees P algo "Temporary merge branch 2" innerBase acc theirs
      let acc ← virtualTree P algo resolved
      return (merged ++ [next], acc)) ([first], acc)
    return out.2

/-- Resolves the trees of two commits over the tree of their merge bases. -/
def mergeCommits (sig : Sig) (ours theirs : ObjectId) (label : String) (bases : List ObjectId) :
    OdbM MergeOutcome := do
  let base ← baseEntries P algo fuel fuel.bases bases
  let oursEntries ← fromExcept (commitEntries (← get) algo fuel.tree ours)
  let theirsEntries ← fromExcept (commitEntries (← get) algo fuel.tree theirs)
  let resolved ← mergeTrees P algo label base oursEntries theirsEntries
  if resolved.any Resolved.conflicted then return .conflicted resolved
  else
    let entries := resolved.filterMap Resolved.entry
    let tree ← writeTree P algo entries
    let commit ← writeCommit P algo tree [ours, theirs] sig sig ("Merge branch '" ++ label ++ "'\n")
    return .merged commit entries

/-- How merging `theirs` into `ours` resolves; only objects are written. -/
def computeMerge (sig : Sig) (ours theirs : ObjectId) (label : String) : OdbM MergeOutcome := do
  let bases ← fromExcept (mergeBases (← get) fuel.history [ours] [theirs])
  if bases = [theirs] then return .upToDate
  else if bases = [ours] then return .fastForward theirs
  else mergeCommits P algo fuel sig ours theirs label bases

end Engine

/-! ### What the engine's parts keep -/

/-- A failure that is not a loop over commits without an end. -/
def CliError.Returns (e : CliError) : Prop := e ≠ .unbounded .history ∧ e ≠ .unbounded .bases

/-- The program only adds objects, and its loops over commits come to an end. -/
abbrev Adds {α : Type} (objects : Objects) (m : OdbM α) : Prop :=
  Triple (Within objects) m (fun _ => Within objects) fun e _ => e.Returns

section Adds

variable {P : Prims} {algo : HashAlgo} {fuel : Fuel} {objects : Objects}

variable {α : Type}

theorem Adds.pure {a : α} : Adds objects (Pure.pure a) := Triple.pure fun _ h => h

variable {e : CliError}

theorem Adds.throw (he : e.Returns) :
    Adds objects (MonadExcept.throw e : OdbM α) := Triple.throw fun _ _ => he

theorem Adds.bind {β : Type} {m : OdbM α} {f : α → OdbM β} (hm : Adds objects m)
    (hf : ∀ a, Adds objects (f a)) : Adds objects (m >>= f) := Triple.bind hm hf

/-- Reading the objects: whatever was added, those there before still are. -/
theorem Adds.get {f : Objects → OdbM α} (h : ∀ o, Within objects o → Adds objects (f o)) :
    Adds objects (MonadState.get >>= f) :=
  Triple.get fun o ho => (h o ho).imp (fun _ hs => hs ▸ ho) (fun _ _ h => h) fun _ _ h => h

theorem Adds.lift {x : Res α} (h : ∀ e, x = .error e → e.Returns) :
    Adds objects (fromExcept x : OdbM α) :=
  Triple.lift (fun _ _ _ hs => hs) fun e he _ _ => h e he

theorem Adds.mapM {β : Type} {f : α → OdbM β} {xs : List α} (h : ∀ x ∈ xs, Adds objects (f x)) :
    Adds objects (xs.mapM f) :=
  Triple.mapM (fun _ _ => Within objects) fun done _ x _ hxs =>
    h x (hxs ▸ List.mem_append_right done List.mem_cons_self)

theorem adds_store {kind : ObjectKind} {data : Bytes} : Adds objects (store P algo kind data) := by
  intro s hs
  obtain ⟨s', hrun, hwithin, -⟩ := @store_eq P algo s kind data
  rw [hrun]
  exact hs.trans hwithin

variable {o : Objects}

theorem returns_blobBytes {id : ObjectId} (h : blobBytes o id = .error e) : e.Returns := by
  rw [blobBytes] at h
  cases ho : o id <;> rw [ho] at h <;> cases h
  exact ⟨fun h => (by cases h), fun h => by cases h⟩

variable {theirLabel : String}

theorem adds_mergeFiles {path : Bytes} {bo : Option WorkEntry} {a t : WorkEntry} :
    Adds objects (mergeFiles P algo theirLabel path bo a t) := by
  refine .get fun o _ => ?_
  refine .bind (.lift fun e he => ?_) fun base => ?_
  · cases bo with
    | none => cases he
    | some b => exact returns_blobBytes he
  refine .bind (.lift fun e => returns_blobBytes) fun ours => ?_
  refine .bind (.lift fun e => returns_blobBytes) fun theirs => ?_
  split
  · exact .pure
  · split
    · exact .throw ⟨nofun, nofun⟩
    · split
      · exact .bind adds_store fun _ => .pure
      · exact .pure

theorem adds_resolvePath {path : Bytes} {bo ao tho : Option WorkEntry} :
    Adds objects (resolvePath P algo theirLabel path bo ao tho) := by
  rw [resolvePath.eq_def]
  split
  · exact .pure
  split
  · exact .pure
  split
  · exact .pure
  split
  · exact adds_mergeFiles
  · exact .get fun o _ => .bind (.lift fun e => returns_blobBytes) fun _ => .pure
  · exact .get fun o _ => .bind (.lift fun e => returns_blobBytes) fun _ => .pure
  · exact .throw ⟨fun h => (by cases h), fun h => by cases h⟩

theorem adds_mergeTrees {base ours theirs : List WorkEntry} :
    Adds objects (mergeTrees P algo theirLabel base ours theirs) :=
  .mapM fun _ _ => adds_resolvePath

theorem adds_virtualTree {resolved : List Resolved} : Adds objects (virtualTree P algo resolved) := by
  refine .bind (.mapM fun r _ => ?_) fun _ => .pure
  rw [virtualEntry]
  split
  · exact .pure
  · split
    · exact .throw ⟨nofun, nofun⟩
    · split
      · exact .throw ⟨nofun, nofun⟩
      · exact .bind adds_store fun _ => .pure

theorem adds_writeSubtree {depth : Nat} {entries : List Flat} :
    Adds objects (writeSubtree P algo depth entries) := by
  induction depth generalizing entries with
  | zero => exact .throw ⟨nofun, nofun⟩
  | succ depth ih =>
    refine .bind (.mapM fun group _ => ?_) fun _ => adds_store
    split
    · exact .throw ⟨nofun, nofun⟩
    · split
      · exact .pure
      · exact .bind ih fun _ => .pure

theorem returns_flattenInto {depth : Nat} {tree : ObjectId} {front : Bytes}
    (h : flattenInto o algo depth tree front = .error e) : e.Returns := by
  induction depth generalizing tree front e with
  | zero =>
    cases h
    exact ⟨nofun, nofun⟩
  | succ depth ih =>
    rw [flattenInto] at h
    split at h
    · cases h
      exact ⟨nofun, nofun⟩
    split at h
    · cases h
      exact ⟨nofun, nofun⟩
    split at h
    · cases h
      exact ⟨nofun, nofun⟩
    rename_i parsed _
    cases hparts : parsed.entries.mapM fun entry =>
        if entry.mode.objectKind = .tree then
          flattenInto o algo depth entry.oid (under front entry.name)
        else .ok [⟨under front entry.name, entry.oid, entry.mode.value⟩] with
    | ok parts =>
      rw [hparts] at h
      cases h
    | error e' =>
      rw [hparts] at h
      cases h
      obtain ⟨entry, -, hentry⟩ := exists_of_mapM_error hparts
      split at hentry
      · exact ih hentry
      · cases hentry

theorem returns_readCommit {c : ObjectId} (h : readCommit o c = .error e) : e.Returns := by
  rw [readCommit] at h
  split at h
  · cases h
    exact ⟨fun h => (by cases h), fun h => by cases h⟩
  · rename_i obj _
    cases hparse : Commit.parse obj.data with
    | error e' =>
      rw [hparse] at h
      cases h
      exact ⟨fun h => (by cases h), fun h => by cases h⟩
    | ok commit =>
      rw [hparse] at h
      cases h

theorem returns_commitEntries {c : ObjectId} (h : commitEntries o algo fuel.tree c = .error e) :
    e.Returns := by
  rw [commitEntries] at h
  split at h
  · rename_i e' hread
    cases h
    exact returns_readCommit hread
  · split at h
    · cases h
      exact ⟨fun h => (by cases h), fun h => by cases h⟩
    · rename_i tree _
      rw [flattenTree] at h
      cases hflat : flattenInto o algo fuel.tree tree [] with
      | error e' =>
        rw [hflat] at h
        cases h
        exact returns_flattenInto hflat
      | ok entries =>
        rw [hflat] at h
        cases h

end Adds

/-! ### Bases of bases -/

/-- A finite set of stored commits, closed under parents, none of them its own ancestor. -/
structure Dag (objects : Objects) (V : Finset ObjectId) : Prop where
  closed : Closed (commitParents objects) V
  acyclic : ∀ c ∈ V, ¬Below (commitParents objects) c c

/-- Fuel that is enough for the commits of a graph. -/
structure Fuel.Enough (fuel : Fuel) (objects : Objects) (V : Finset ObjectId) : Prop where
  history : V.card + 2 + 2 * exploreBound (commitParents objects) V ≤ fuel.history
  bases : V.card < fuel.bases

section Terminates

variable {P : Prims} {algo : HashAlgo} {fuel : Fuel} {objects : Objects} {V : Finset ObjectId}

/-- The commits of a graph keep their parents as objects are added. -/
theorem Dag.agree (h : Dag objects V) {objects' : Objects} (hw : Within objects objects') :
    ∀ c ∈ V, commitParents objects' c = commitParents objects c := by
  intro c hc
  obtain ⟨next, hread, -⟩ := h.closed c hc
  rw [hread]
  exact commitParents_within hw hread

/-- Merge bases are found, whatever was added. -/
theorem Dag.mergeBases (h : Dag objects V) {objects' : Objects} (hw : Within objects objects')
    (hfuel : fuel.Enough objects V) {a b : List ObjectId} (ha : ∀ c ∈ a, c ∈ V)
    (hb : ∀ c ∈ b, c ∈ V) (hlength : a.length + b.length ≤ V.card + 2) :
    ∃ bases, mergeBases objects' fuel.history a b = .ok bases ∧ bases.Nodup ∧
      ∀ c, c ∈ bases ↔ Best (commitParents objects) a b c := by
  have hagree := h.agree hw
  have hbound := exploreBound_congr hagree
  have hhistory := hfuel.history
  obtain ⟨bases, hbases⟩ : ∃ bases, Repo.mergeBases objects' fuel.history a b = .ok bases :=
    mergeBases_total (h.closed.congr hagree) ha hb (by omega)
  obtain ⟨hnodup, hmem⟩ := mergeBases_best hbases
  exact ⟨bases, hbases, hnodup, fun c => (hmem c).trans (best_congr h.closed hagree ha hb)⟩

/-- Commits none of which is an ancestor of another. -/
structure Unrelated (objects : Objects) (V : Finset ObjectId) (bases : List ObjectId) : Prop where
  nodup : bases.Nodup
  mem : ∀ c ∈ bases, c ∈ V
  apart : ∀ c ∈ bases, ∀ d ∈ bases, ¬Below (commitParents objects) c d

variable {bases : List ObjectId}

/-- Merge bases are unrelated. -/
theorem Dag.unrelated (h : Dag objects V) {a b : List ObjectId} (ha : ∀ c ∈ a, c ∈ V)
    (hnodup : bases.Nodup) (hmem : ∀ c, c ∈ bases ↔ Best (commitParents objects) a b c) :
    Unrelated objects V bases := by
  refine ⟨hnodup, fun c hc => ?_, fun c hc d hd => ?_⟩
  · obtain ⟨s, hs, hreach⟩ := ((hmem c).mp hc).1.1
    exact h.closed.reach (ha s hs) hreach
  · exact ((hmem c).mp hc).not_below ((hmem d).mp hd)

/-- **Merging several bases into one comes to an end**: the bases of two bases lie below one of
    them, so what they reach shrinks. -/
theorem adds_baseEntries (h : Dag objects V) (hfuel : fuel.Enough objects V) {depth : Nat}
    (hbases : Unrelated objects V bases)
    (hdepth : (reached (commitParents objects) V bases).card < depth + 1) :
    Adds objects (baseEntries P algo fuel depth bases) := by
  induction depth generalizing bases with
  | zero =>
    cases bases with
    | nil => exact .pure
    | cons first rest =>
      have hmem : first ∈ reached (commitParents objects) V (first :: rest) :=
        mem_reached.mpr ⟨hbases.mem first List.mem_cons_self, first, List.mem_cons_self, .refl⟩
      have hpos := Finset.card_pos.mpr ⟨first, hmem⟩
      omega
  | succ depth ih =>
    cases bases with
    | nil => exact .pure
    | cons first rest =>
      refine .get fun o _ => .bind (.lift fun e => returns_commitEntries) fun acc => ?_
      refine .bind ?_ fun out => .pure
      -- the invariant: what was merged so far are the bases done
      refine (Triple.foldlM (fun done acc s => acc.1 = first :: done ∧ Within objects s) ?_).imp
        (fun s hs => ⟨rfl, hs⟩) (fun _ _ hs => hs.2) (fun _ _ he => he)
      rintro done next todo ⟨merged, acc⟩ hrest
      have hsplit : first :: rest = (first :: done) ++ next :: todo := by rw [hrest]; rfl
      have hnext : next ∈ first :: rest := by rw [hsplit]; simp
      have hdone : ∀ c ∈ first :: done, c ∈ first :: rest := fun c hc => by
        rw [hsplit]
        exact List.mem_append_left _ hc
      have hnew : next ∉ first :: done := by
        have hnodup := hbases.nodup
        rw [hsplit, List.nodup_append] at hnodup
        exact fun hmem => hnodup.2.2 next hmem next List.mem_cons_self rfl
      refine .pre fun hmerged => ?_
      obtain rfl : merged = first :: done := hmerged
      have hV : ∀ c ∈ first :: done, c ∈ V := fun c hc => hbases.mem c (hdone c hc)
      have hnextV : ∀ c ∈ [next], c ∈ V := fun c hc => List.mem_singleton.mp hc ▸ hbases.mem _ hnext
      have hlength : (first :: done).length + [next].length ≤ V.card + 2 := by
        have hle := List.toFinset_card_of_nodup (hbases.nodup.sublist
          (show List.Sublist (first :: done) _ from hsplit ▸ List.sublist_append_left _ _))
        have hsub := Finset.card_le_card (s := (first :: done).toFinset) (t := V)
          fun c hc => hV c (List.mem_toFinset.mp hc)
        simp only [List.length_singleton]
        omega
      refine Triple.bind (Q := fun inner s => (Unrelated objects V inner ∧
        (reached (commitParents objects) V inner).card < depth + 1) ∧ Within objects s) ?_
        fun inner => .pre fun hinner => ?_
      · refine Triple.get fun o ho => Triple.lift (fun inner hinner s hs => ?_) fun e he s hs => ?_
        · obtain ⟨inner', hok, hnodup, hmem⟩ := h.mergeBases ho hfuel hV hnextV hlength
          rw [hok] at hinner
          cases hinner
          refine ⟨⟨h.unrelated hV hnodup hmem, ?_⟩, hs ▸ ho⟩
          have hshrinks := shrinks_of_below (hbases.mem next hnext) hnext
            (h.acyclic next (hbases.mem next hnext))
            fun c hc => Best.below (fun m hm => hbases.apart m (hdone m hm) next hnext) hnew
              ((hmem c).mp hc)
          omega
        · obtain ⟨inner', hok, -⟩ := h.mergeBases ho hfuel hV hnextV hlength
          rw [hok] at he
          cases he
      · refine Triple.bind (ih hinner.1 hinner.2) fun innerBase => ?_
        refine Triple.get fun o ho => Triple.imp (P := Within objects) ?_ (fun _ hs => hs ▸ ho)
          (fun _ _ hs => hs) fun _ _ he => he
        refine Triple.bind (Adds.lift fun e => returns_commitEntries) fun theirs => ?_
        refine Triple.bind adds_mergeTrees fun resolved => ?_
        refine Triple.bind adds_virtualTree fun acc => ?_
        exact Triple.pure fun s hs => ⟨rfl, hs⟩

/-- A list without duplicates that holds one thing. -/
theorem eq_singleton_iff {α : Type} {xs : List α} (hnodup : xs.Nodup) {x : α} :
    xs = [x] ↔ ∀ y, y ∈ xs ↔ y = x := by
  constructor
  · rintro rfl y
    exact List.mem_singleton
  · intro h
    have hperm : xs.Perm [x] := (List.perm_ext_iff_of_nodup hnodup (List.nodup_singleton x)).mpr
      fun y => (h y).trans List.mem_singleton.symm
    exact List.perm_singleton.mp hperm

variable {sig : Sig} {ours theirs : ObjectId} {label : String}

/-- A merge commit, or a conflict. -/
def MergeOutcome.Real (outcome : MergeOutcome) : Prop :=
  (∃ commit entries, outcome = .merged commit entries) ∨ ∃ resolved, outcome = .conflicted resolved

/-- Resolving two commits comes to an end, with a commit or a conflict. -/
theorem mergeCommits_spec (h : Dag objects V) (hfuel : fuel.Enough objects V)
    (hbases : Unrelated objects V bases) :
    Triple (Within objects) (mergeCommits P algo fuel sig ours theirs label bases)
      (fun outcome _ => outcome.Real) fun e _ => e.Returns := by
  have hdepth : (reached (commitParents objects) V bases).card < fuel.bases + 1 := by
    have hle := Finset.card_le_card (s := reached (commitParents objects) V bases) (t := V)
      fun c hc => (mem_reached.mp hc).1
    have hbound := hfuel.bases
    omega
  refine Triple.bind (adds_baseEntries h hfuel hbases hdepth) fun base => ?_
  refine Triple.get fun o ho => Triple.imp (P := Within objects) ?_ (fun _ hs => hs ▸ ho)
    (fun _ _ hs => hs) fun _ _ he => he
  refine Triple.bind (Adds.lift fun e => returns_commitEntries) fun oursEntries => ?_
  refine Triple.get fun o ho => Triple.imp (P := Within objects) ?_ (fun _ hs => hs ▸ ho)
    (fun _ _ hs => hs) fun _ _ he => he
  refine Triple.bind (Adds.lift fun e => returns_commitEntries) fun theirsEntries => ?_
  refine Triple.bind adds_mergeTrees fun resolved => Triple.ite (fun _ => ?_) fun _ => ?_
  · exact Triple.pure fun _ _ => .inr ⟨resolved, rfl⟩
  · refine Triple.bind adds_writeSubtree fun tree => ?_
    refine Triple.bind adds_store fun commit => ?_
    exact Triple.pure fun _ _ => .inl ⟨commit, _, rfl⟩

/-- **Merging two commits of a finite graph.** Their merge bases are the common ancestors that no
    other common ancestor descends from, each once; the merge is up to date exactly when `theirs`
    is an ancestor of `ours` or `ours` itself, a fast-forward exactly when `ours` is a proper
    ancestor of `theirs`; and merging bases of bases comes to an end. -/
theorem compute_merge_spec (h : Dag objects V) (hours : ours ∈ V) (htheirs : theirs ∈ V)
    (hfuel : fuel.Enough objects V) :
    (∃ bases, mergeBases objects fuel.history [ours] [theirs] = .ok bases ∧ bases.Nodup ∧
      ∀ c, c ∈ bases ↔ Best (commitParents objects) [ours] [theirs] c) ∧
    ((∃ objects', computeMerge P algo fuel sig ours theirs label objects = .ok .upToDate objects') ↔
      Reach (commitParents objects) ours theirs) ∧
    ((∃ c objects', computeMerge P algo fuel sig ours theirs label objects =
        .ok (.fastForward c) objects') ↔ Below (commitParents objects) theirs ours) ∧
    (∀ c objects', computeMerge P algo fuel sig ours theirs label objects =
      .ok (.fastForward c) objects' → c = theirs) ∧
    ∀ e objects', computeMerge P algo fuel sig ours theirs label objects = .error e objects' →
      e ≠ .unbounded .history ∧ e ≠ .unbounded .bases := by
  have ha : ∀ c ∈ [ours], c ∈ V := fun c hc => List.mem_singleton.mp hc ▸ hours
  have hb : ∀ c ∈ [theirs], c ∈ V := fun c hc => List.mem_singleton.mp hc ▸ htheirs
  obtain ⟨bases, hbases, hnodup, hmem⟩ := h.mergeBases (.refl objects) hfuel ha hb (by simp)
  have hupToDate : bases = [theirs] ↔ Reach (commitParents objects) ours theirs := by
    rw [eq_singleton_iff hnodup, ← best_eq_iff (h.acyclic theirs htheirs)]
    exact forall_congr' fun c => by rw [hmem]
  have hforward : bases = [ours] ↔ Reach (commitParents objects) theirs ours := by
    rw [eq_singleton_iff hnodup, ← best_eq_iff (h.acyclic ours hours)]
    exact forall_congr' fun c => by rw [hmem, best_comm]
  have hbelow : Below (commitParents objects) theirs ours ↔
      bases = [ours] ∧ bases ≠ [theirs] := by
    rw [hforward, ne_eq, hupToDate]
    constructor
    · intro hlt
      exact ⟨hlt.to_reflTransGen,
        fun hreach => h.acyclic ours hours (Relation.TransGen.trans_right hreach hlt)⟩
    · rintro ⟨hreach, hnot⟩
      rcases Relation.reflTransGen_iff_eq_or_transGen.mp hreach with rfl | hlt
      · exact absurd .refl hnot
      · exact hlt
  have hrun : computeMerge P algo fuel sig ours theirs label objects =
      if bases = [theirs] then .ok .upToDate objects
      else if bases = [ours] then .ok (.fastForward theirs) objects
      else mergeCommits P algo fuel sig ours theirs label bases objects := by
    simp only [computeMerge, bind, EStateM.bind, get, getThe, MonadStateOf.get, EStateM.get,
      hbases, fromExcept]
    split
    · rfl
    · split <;> rfl
  have hreal : ∀ outcome objects', mergeCommits P algo fuel sig ours theirs label bases objects =
      .ok outcome objects' → outcome.Real := fun _ _ hok =>
    (mergeCommits_spec h hfuel (h.unrelated ha hnodup hmem)).ok (.refl objects) hok
  refine ⟨⟨bases, hbases, hnodup, hmem⟩, ?_, ?_, ?_, ?_⟩
  · rw [← hupToDate, hrun]
    constructor
    · rintro ⟨objects', hok⟩
      by_contra hne
      rw [if_neg hne] at hok
      split at hok
      · cases hok
      · rcases hreal _ _ hok with ⟨_, _, heq⟩ | ⟨_, heq⟩ <;> cases heq
    · intro heq
      exact ⟨objects, if_pos heq⟩
  · rw [hbelow, hrun]
    constructor
    · rintro ⟨c, objects', hok⟩
      split at hok
      · cases hok
      · rename_i hne
        split at hok
        · exact ⟨‹_›, hne⟩
        · rcases hreal _ _ hok with ⟨_, _, heq⟩ | ⟨_, heq⟩ <;> cases heq
    · rintro ⟨heq, hne⟩
      exact ⟨theirs, objects, by rw [if_neg hne, if_pos heq]⟩
  · intro c objects' hok
    rw [hrun] at hok
    split at hok
    · cases hok
    · split at hok
      · cases hok
        rfl
      · rcases hreal _ _ hok with ⟨_, _, heq⟩ | ⟨_, heq⟩ <;> cases heq
  · intro e objects' herr
    rw [hrun] at herr
    split at herr
    · cases herr
    · split at herr
      · cases herr
      · exact (mergeCommits_spec h hfuel (h.unrelated ha hnodup hmem)).error (.refl objects) herr

abbrev oidOrder := compareLex (compareOn fun id : ObjectId => id.algo.rawLen) (compareOn ObjectId.asBytes)

theorem sorted_mergeBases {n : Nat} {a b : List ObjectId} (h : mergeBases objects n a b = .ok bases) :
    bases.Pairwise (byOid · ·) := by
  have htotal : Std.Total fun a b : ObjectId => byOid a b = true := ⟨fun a b => by
    show (oidOrder a b).isLE ∨ (oidOrder b a).isLE
    rw [show oidOrder b a = (oidOrder a b).swap from Std.OrientedCmp.eq_swap]
    cases oidOrder a b <;> decide⟩
  have htrans : IsTrans ObjectId fun a b => byOid a b = true :=
    ⟨fun a b c (hab : (oidOrder a b).isLE) (hbc : (oidOrder b c).isLE) =>
      show (oidOrder a c).isLE from Std.TransCmp.isLE_trans hab hbc⟩
  simp only [mergeBases, bind, Except.bind, pure, Except.pure] at h
  obtain ⟨_, _, h⟩ := of_match_ok h
  obtain ⟨_, _, h⟩ := of_match_ok h
  obtain ⟨_, _, h⟩ := of_match_ok h
  cases h
  exact List.pairwise_insertionSort _ _

/-- **Merge bases** depend on neither the side a commit is on nor what was stored since. -/
theorem merge_bases_keep {objects' : Objects} {a b : List ObjectId} (h : Dag objects V)
    (hw : Within objects objects') (hfuel : fuel.Enough objects V) (ha : ∀ c ∈ a, c ∈ V)
    (hb : ∀ c ∈ b, c ∈ V) (hlength : a.length + b.length ≤ V.card + 2) :
    ∃ bases, mergeBases objects fuel.history a b = .ok bases ∧
      mergeBases objects' fuel.history b a = .ok bases := by
  obtain ⟨bases, hbases, hnodup, hmem⟩ := h.mergeBases (.refl objects) hfuel ha hb hlength
  obtain ⟨bases', hbases', hnodup', hmem'⟩ := h.mergeBases hw hfuel hb ha (by omega)
  have hperm : bases.Perm bases' := (List.perm_ext_iff_of_nodup hnodup hnodup').mpr fun c => by
    rw [hmem, hmem', Best, Best]
    simp only [Common, and_comm]
  have heq : bases = bases' := hperm.eq_of_pairwise (fun c d _ _ hcd hdc => by
    have hsame : oidOrder c d = .eq := Std.OrientedCmp.isLE_antisymm hcd hdc
    exact ObjectId.asBytes_injective (Std.LawfulEqOrd.eq_of_compare (Ordering.then_eq_eq.mp hsame).2))
    (sorted_mergeBases hbases) (sorted_mergeBases hbases')
  exact ⟨bases, hbases, heq ▸ hbases'⟩

end Terminates

/-! ### A history of two commits -/

def firstCommit : ObjectId := ObjectId.hashObject .toy .sha1 .commit []

def secondBytes : Bytes := utf8 ("parent " ++ String.ofList firstCommit.hexText ++ "\n")

def secondCommit : ObjectId := ObjectId.hashObject .toy .sha1 .commit secondBytes

/-- Two commits, the second on the first. -/
def twoCommits : Objects := fun id =>
  if id = firstCommit then some ⟨.commit, []⟩
  else if id = secondCommit then some ⟨.commit, secondBytes⟩
  else none

theorem parents_first : commitParents twoCommits firstCommit = .ok [] :=
  ok_of_toOption (by decide +kernel)

theorem parents_second : commitParents twoCommits secondCommit = .ok [firstCommit] :=
  ok_of_toOption (by decide +kernel)

theorem dag_twoCommits : Dag twoCommits {firstCommit, secondCommit} := by
  have hfirst : ∀ c, ¬Below (commitParents twoCommits) firstCommit c := by
    intro c hbelow
    obtain ⟨next, hread, p, hp, -⟩ := below_iff.mp hbelow
    rw [parents_first] at hread
    cases hread
    cases hp
  refine ⟨fun c hc => ?_, fun c hc hbelow => ?_⟩
  · rcases Finset.mem_insert.mp hc with rfl | hc
    · exact ⟨[], parents_first, nofun⟩
    · obtain rfl := Finset.mem_singleton.mp hc
      refine ⟨[firstCommit], parents_second, fun d hd => ?_⟩
      exact Finset.mem_insert.mpr (.inl (List.mem_singleton.mp hd))
  · rcases Finset.mem_insert.mp hc with rfl | hc
    · exact hfirst _ hbelow
    · obtain rfl := Finset.mem_singleton.mp hc
      obtain ⟨next, hread, p, hp, hreach⟩ := below_iff.mp hbelow
      rw [parents_second] at hread
      cases hread
      obtain rfl := List.mem_singleton.mp hp
      rcases Relation.reflTransGen_iff_eq_or_transGen.mp hreach with heq | hlt
      · exact absurd heq (by decide +kernel)
      · exact hfirst _ hlt

theorem enough_twoCommits :
    Fuel.Enough ⟨6, 3, 0⟩ twoCommits {firstCommit, secondCommit} := by
  have hne : firstCommit ≠ secondCommit := by decide +kernel
  constructor
  · rw [Finset.card_pair hne, exploreBound, Finset.sum_pair hne, degree, degree, parents_first,
      parents_second]
    decide
  · rw [Finset.card_pair hne]
    decide

theorem compute_merge_spec_two :
    Dag twoCommits {firstCommit, secondCommit} ∧
      ((∃ c objects', computeMerge .toy .sha1 ⟨6, 3, 0⟩ ⟨"", "", 0, ""⟩ firstCommit secondCommit
          "theirs" twoCommits = .ok (.fastForward c) objects') ↔
        Below (commitParents twoCommits) secondCommit firstCommit) :=
  ⟨dag_twoCommits, (compute_merge_spec dag_twoCommits (by simp) (by simp) enough_twoCommits).2.2.1⟩

theorem merge_bases_keep_two :
    ∃ bases, mergeBases twoCommits 6 [firstCommit] [secondCommit] = .ok bases ∧
      mergeBases twoCommits 6 [secondCommit] [firstCommit] = .ok bases :=
  merge_bases_keep dag_twoCommits (.refl _) enough_twoCommits (by simp) (by simp) (by simp)

end Alt.Repo
