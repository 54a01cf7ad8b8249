import Alt.Repo.CleanStatus

namespace Alt.Repo

open Alt.Library Alt.Library.FileTree Alt.Odb Alt.Refs List

/-!
# Checking out one tree after another (`native.rs`, 1956–2063; `alt-worktree/src/lib.rs`, 240–410)

From a working tree that matches `old`, with no untracked file in the way, a checkout of `target`
should leave exactly `target`.  It does so where the two trees suit each other: a directory that is in
the way of a file is refused, also when `old` alone filled it, and so on for each field of `Suits`.

* `Matches`, `NothingUntracked`, `Stored` — what a checkout starts from;
* `Suits` — where the code does what it is for;
* `checkout_exact` — then the checkout goes through, leaves the target, and the status is clean.
-/

section

variable {env : Env} {r : NativeRepo} {old target : List WorkEntry}

/-- The working tree has the files of `old`, as they are there. -/
structure Matches (env : Env) (fs : FileTree) (old : List WorkEntry) : Prop where
  files : ∀ o ∈ old, o.mode ≠ gitlink → ∃ filter node, env.filter fs = .ok filter ∧
    fs.get (placeOf env.root o.path) = some node ∧ workFile env filter o.path node = some o
  links : ∀ o ∈ old, o.mode = gitlink → Hollow (fs.get (placeOf env.root o.path))

/-- No untracked file is at a path of `target`, or at a parent of one. -/
def NothingUntracked (env : Env) (fs : FileTree) (old target : List WorkEntry) : Prop :=
  ∀ t ∈ target, ∀ q, env.root <+: q → q <+: placeOf env.root t.path → ¬Hollow (fs.get q) →
    ∃ o ∈ old, q = placeOf env.root o.path

/-- The store has the blobs of `target` under their ids, and none of them is a pointer. -/
def Stored (env : Env) (objects : Objects) (target : List WorkEntry) : Prop :=
  ∀ t ∈ target, t.mode ≠ gitlink → ∃ data, objects t.oid = some ⟨.blob, data⟩ ∧
    ObjectId.hashObject env.P env.algo .blob data = t.oid ∧ env.smudge data = .ok none

/-- The index a checkout writes. -/
def checkedOutIndex (target : List WorkEntry) : Index :=
  (target.map (stageEntry · 0)).insertionSort (byPathStage · ·)

/-- **What the code asks of two trees.**  Each field is a way to miss the target. -/
structure Suits (env : Env) (r : NativeRepo) (old target : List WorkEntry) : Prop where
  /-- Names that lead elsewhere, or to a control directory the scan skips. -/
  names : ∀ t ∈ target, ∀ c ∈ splitPath t.path, ¬Special c ∧ c ≠ altDir ∧ c ≠ gitDir
  /-- One path twice, or a file and a directory of one name. -/
  apart : target.Pairwise fun t u => ¬placeOf env.root t.path <+: placeOf env.root u.path ∧
    ¬placeOf env.root u.path <+: placeOf env.root t.path
  /-- A directory of `old`, or an empty one, where `target` has a file. -/
  room : collision env r.fs old target = none
  /-- The directory of a submodule where `target` has a file. -/
  submodules : ∀ t ∈ target, t.mode ≠ gitlink → r.fs.get (placeOf env.root t.path) ≠ some .dir
  /-- Modes that a file in the working tree does not have. -/
  modes : ∀ t ∈ target, t.mode ∈ [regular, executable, symlinkMode, gitlink]
  /-- What no link can have for its target. -/
  links : ∀ t ∈ target, t.mode = symlinkMode → ∀ obj, r.objects t.oid = some obj →
    obj.data ≠ [] ∧ 0 ∉ obj.data
  /-- A repository of its own on the way. -/
  repos : ∀ t ∈ target, ∀ q, env.root <+: q → q ≠ env.root → q <+: placeOf env.root t.path →
    q ≠ placeOf env.root t.path → r.fs.get (q ++ [gitDir]) = none
  /-- An ignore file that cannot be read, or a filter that changes a file. -/
  readable : ∀ fs', Replaces env r.objects old target r.fs fs' →
    ignoreError env fs' (checkedOutIndex target) = none ∧ ∃ filter, env.filter fs' = .ok filter ∧
      ∀ t ∈ target, ∀ content exec, nodeFor env r.objects t = some (.file content exec) →
        filter t.path content = content

/-! ### Room for the target -/

theorem Matches.get_of_gone (h : Matches env r.fs old) {o : WorkEntry} (ho : o ∈ old)
    (hmode : o.mode ≠ gitlink) : ∃ node, r.fs.get (placeOf env.root o.path) = some node ∧ node ≠ .dir := by
  obtain ⟨filter, node, -, hnode, hwork⟩ := h.files o ho hmode
  refine ⟨node, hnode, ?_⟩
  rintro rfl
  cases hwork

theorem nodeFor_of_stored (hstored : Stored env r.objects target) (h : Suits env r old target)
    {t : WorkEntry} (ht : t ∈ target) : ∃ node, nodeFor env r.objects t = some node ∧
      (t.mode ≠ gitlink → ∀ filter, (∀ content exec, node = .file content exec → filter t.path content = content) →
        workFile env filter t.path node = some t) := by
  by_cases hmode : t.mode = gitlink
  · exact ⟨.dir, by rw [nodeFor, if_pos hmode], fun hne => absurd hmode hne⟩
  · obtain ⟨data, hobj, hhash, hsmudge⟩ := hstored t ht hmode
    by_cases hlink : t.mode = symlinkMode
    · obtain ⟨hne, hzero⟩ := h.links t ht hlink _ hobj
      refine ⟨.symlink data, ?_, fun _ filter _ => ?_⟩
      · rw [nodeFor, if_neg hmode, hobj, Option.bind_some, if_pos hlink, if_neg (by simp [hne, hzero])]
      · rw [workFile, hhash, ← hlink]
    · refine ⟨.file data (t.mode == executable), ?_, fun _ filter hfilter => ?_⟩
      · rw [nodeFor, if_neg hmode, hobj, Option.bind_some, if_neg hlink, hsmudge]
        rfl
      · have hexec : (if (t.mode == executable) = true then executable else regular) = t.mode := by
          have hmodes := h.modes t ht
          simp only [mem_cons, not_mem_nil, or_false] at hmodes
          rcases hmodes with hm | hm | hm | hm
          · rw [hm]
            rfl
          · rw [hm]
            rfl
          · exact absurd hm hlink
          · exact absurd hm hmode
        rw [workFile, hfilter data _ rfl, hhash, hexec]

theorem Suits.apart_of_ne (h : Suits env r old target) {t u : WorkEntry} (ht : t ∈ target) (hu : u ∈ target)
    (hne : t ≠ u) : ¬placeOf env.root t.path <+: placeOf env.root u.path := by
  have hsymm : Std.Symm fun t u : WorkEntry => ¬placeOf env.root t.path <+: placeOf env.root u.path ∧
      ¬placeOf env.root u.path <+: placeOf env.root t.path := ⟨fun _ _ hpair => hpair.symm⟩
  exact (h.apart.forall ht hu hne).1

theorem fits_of_suits (hroot : Rooted env r.fs) (hnamed : Named r.fs) (hmatch : Matches env r.fs old)
    (hfree : NothingUntracked env r.fs old target) (hstored : Stored env r.objects target)
    (h : Suits env r old target) : Fits env r.objects r.fs old target where
  plain e he hkind := by
    rcases hkind with ht | hgone
    · exact fun c hc => (h.names e ht c hc).1
    · have hold : e ∈ old := by
        rcases mem_append.mp he with hold | ht
        · exact hold
        · exact absurd rfl (hgone.1 e ht)
      obtain ⟨node, hnode, -⟩ := hmatch.get_of_gone hold hgone.2
      exact fun c hc => (hnamed (placeOf env.root e.path) (by rw [hnode]; exact Option.some_ne_none _) c
        (mem_append_right _ hc)).1
  apart := h.apart
  taken o ho hgone := by
    obtain ⟨node, hnode, hdir⟩ := hmatch.get_of_gone ho hgone.2
    refine ⟨fun q ⟨rest, hrest⟩ hne target hlink => ?_, by rw [hnode]; exact fun heq => hdir (Option.some.inj heq)⟩
    have hsome : r.fs.get (q ++ rest) ≠ none := by
      rw [hrest, hnode]
      exact Option.some_ne_none _
    have hnil : rest ≠ [] := fun hnil => hne (by rw [← hrest, hnil, append_nil])
    rw [get_above hnil hsome] at hlink
    cases hlink
  way t ht q hq hne := by
    by_cases hhollow : Hollow (r.fs.get q)
    · exact .inl hhollow
    · rcases prefix_or_prefix_of_prefix hq (prefix_append env.root (splitPath t.path)) with habove | hbelow
      · obtain ⟨rest, hrest⟩ := habove
        refine absurd (.inr ?_) hhollow
        by_cases hnil : rest = []
        · rw [hnil, append_nil] at hrest
          rw [hrest]
          exact hroot.dir
        · refine get_above hnil ?_
          rw [hrest, hroot.dir]
          exact Option.some_ne_none _
      · obtain ⟨o, ho, rfl⟩ := hfree t ht q hbelow hq hhollow
        refine .inr ⟨o, ho, ⟨fun u hu hpath => ?_, fun hmode => hhollow (hmatch.links o ho hmode)⟩, rfl⟩
        rw [← hpath] at hq hne
        -- the entry on the way would be one of the target's own
        exact (h.apart_of_ne hu ht fun heq => hne (by rw [heq])) hq
  place := h.submodules
  free t ht hmode hold := by
    have hroom := h.room
    rw [collision, find?_eq_none] at hroom
    have hplain : Plain (splitPath t.path) := fun c hc => (h.names t ht c hc).1
    have hnot := hroom t ht
    rw [abs_of_plain hplain] at hnot
    by_contra hthere
    refine hnot ?_
    rw [Bool.and_eq_true, Bool.and_eq_true, bne_iff_ne, Bool.not_eq_true', any_eq_false]
    exact ⟨⟨hmode, fun o ho => by simpa using hold o ho⟩, Bool.eq_true_of_not_eq_false hthere⟩
  writes t ht := by
    obtain ⟨node, hnode, -⟩ := nodeFor_of_stored hstored h ht
    rw [hnode]
    exact Option.some_ne_none _

/-! ### The status afterwards -/

/-- A place that was not there comes with an entry of the target. -/
theorem Replaces.target_of_new {fs' : FileTree} (hmatch : Matches env r.fs old)
    (h : Replaces env r.objects old target r.fs fs') {p : Place} (hp : r.fs.get p = none)
    (hp' : fs'.get p ≠ none) : ∃ t ∈ target, p <+: placeOf env.root t.path := by
  have hplace : ∀ q, replaced env old target q → p <+: q → ∃ t ∈ target, p <+: placeOf env.root t.path := by
    rintro q (⟨o, ho, hgone, rfl⟩ | ⟨t, ht, rfl⟩) ⟨rest, hrest⟩
    · obtain ⟨node, hnode, -⟩ := hmatch.get_of_gone ho hgone.2
      have hsome : r.fs.get (p ++ rest) ≠ none := by
        rw [hrest, hnode]
        exact Option.some_ne_none _
      by_cases hnil : rest = []
      · rw [hnil, append_nil] at hsome
        exact absurd hp hsome
      · rw [get_above hnil hsome] at hp
        cases hp
    · exact ⟨t, ht, rest, hrest⟩
  rcases h.touches.only p (fun hsame => hp' (hsame.trans hp)) with hfile | ⟨⟨q, hq, hway⟩, -⟩
  · exact hplace p hfile prefix_rfl
  · exact hplace q hq hway.2.2

theorem Replaces.named {fs' : FileTree} (hroot : Rooted env r.fs) (hnamed : Named r.fs)
    (hmatch : Matches env r.fs old) (hsuits : Suits env r old target)
    (h : Replaces env r.objects old target r.fs fs') : Named fs' := by
  intro p hp' c hc
  by_cases hp : r.fs.get p = none
  · obtain ⟨t, ht, hpre⟩ := h.target_of_new hmatch hp hp'
    rcases mem_append.mp (hpre.subset hc) with hmem | hmem
    · exact hnamed env.root (by rw [hroot.dir]; exact Option.some_ne_none _) c hmem
    · exact ⟨(hsuits.names t ht c hmem).1, slash_not_mem_splitPath hmem⟩
  · exact hnamed p hp c hc

theorem Replaces.reached {fs' : FileTree} (hroot : Rooted env r.fs) (hmatch : Matches env r.fs old)
    (hsuits : Suits env r old target) (h : Replaces env r.objects old target r.fs fs') {t : WorkEntry}
    (ht : t ∈ target) {node : Node} (hnode : fs'.get (placeOf env.root t.path) = some node) :
    Reached env fs' t.path where
  control c hc := (hsuits.names t ht c hc).2
  repos q hbelow hne hq hqne := by
    have hplain : Plain (q ++ [gitDir]) := by
      intro c hc
      rcases mem_append.mp hc with hmem | hmem
      · rcases mem_append.mp (hq.subset hmem) with hroot' | hpath
        · exact hroot.plain c hroot'
        · exact (hsuits.names t ht c hpath).1
      · rw [mem_singleton.mp hmem]
        decide
    have hgone : fs'.get (q ++ [gitDir]) = none := by
      by_contra hthere
      obtain ⟨u, hu, hpre⟩ := h.target_of_new hmatch (hsuits.repos t ht q hbelow hne hq hqne) hthere
      obtain ⟨names, rfl⟩ := hbelow
      rw [append_assoc, placeOf] at hpre
      have hmem : gitDir ∈ splitPath u.path :=
        ((prefix_append_right_inj _).mp hpre).subset (by simp)
      exact (hsuits.names u hu gitDir hmem).2.2 rfl
    have hdir : fs'.get q = some .dir := by
      obtain ⟨rest, hrest⟩ := hq
      have hsome : fs'.get (q ++ rest) ≠ none := by
        rw [hrest, hnode]
        exact Option.some_ne_none _
      exact get_above (fun hnil => hqne (by rw [← hrest, hnil, append_nil])) hsome
    rw [lexists_direct ⟨hplain, fun _ => by rwa [dropLast_concat]⟩, hgone]
    rfl

theorem Suits.nodup (h : Suits env r old target) : (target.map WorkEntry.path).Nodup := by
  rw [List.Nodup, pairwise_map]
  refine h.apart.imp fun {t u} hpair heq => hpair.1 ?_
  rw [heq]

theorem ordered_of_flattenTree {objects : Objects} {algo : HashAlgo} {fuel : Nat} {tree : ObjectId}
    {entries : List WorkEntry} (h : flattenTree objects algo fuel tree = .ok entries)
    (hpaths : (entries.map WorkEntry.path).Nodup) : Ordered entries := by
  rw [flattenTree] at h
  obtain ⟨parts, hflat, h⟩ := of_match_ok h
  cases h
  exact ordered_sort (((perm_insertionSort _ parts).map _).nodup_iff.mp hpaths)

/-- The status of every repository with these files and this index, whose HEAD is at `target`. -/
def CleanAt (env : Env) (r : NativeRepo) (target : List WorkEntry) : Prop :=
  ∀ s : NativeRepo, s.fs = r.fs → s.controls env.workspace = r.controls env.workspace →
    headEntries env s = .ok target → ∃ st, statusOf env s = .ok st ∧ st.staged = [] ∧ st.unstaged = []

theorem cleanAt_of_replaces {s : NativeRepo} (hroot : Rooted env r.fs) (hnamed : Named r.fs)
    (hmatch : Matches env r.fs old) (hstored : Stored env r.objects target) (h : Suits env r old target)
    (hordered : Ordered target) (hreplaces : Replaces env r.objects old target r.fs s.fs)
    (hindex : (s.controls env.workspace).index = checkedOutIndex target) : CleanAt env s target := by
  intro s' hfs hcontrol hhead
  obtain ⟨hignore, filter, hfilter, hsame⟩ := h.readable s.fs hreplaces
  have hentries : indexEntries (checkedOutIndex target) = target := indexEntries_staged hordered
  refine ⟨status target target (((below env s.fs).filterMap (scanned env filter s.fs
    (checkedOutIndex target))).insertionSort (byPath · ·)), ?_, ?_, ?_⟩
  · rw [statusOf, hcontrol, hindex, hhead, hfs, scanTree_eq hfilter hignore, hentries]
    rfl
  · exact diff_self target
  · refine unstaged_eq_nil (hreplaces.named hroot hnamed hmatch h) hordered (fun t ht => ?_)
      (fun t ht hmode => ?_) fun t ht hmode => ?_
    · refine ⟨stageEntry t 0, ?_, rfl⟩
      rw [checkedOutIndex, mem_insertionSort]
      exact mem_map_of_mem ht
    · rw [hreplaces.written t ht, nodeFor, if_pos hmode]
    · obtain ⟨node, hnode, hwork⟩ := nodeFor_of_stored hstored h ht
      have hget : s.fs.get (placeOf env.root t.path) = some node := by rw [hreplaces.written t ht, hnode]
      refine ⟨hreplaces.reached hroot hmatch h ht hget, node, hget, hwork hmode filter ?_⟩
      rintro content exec rfl
      exact hsame t ht content exec hnode

/-- **Checkout is exact** for two trees that suit each other. -/
theorem checkout_exact {tree : ObjectId} (hroot : Rooted env r.fs) (hnamed : Named r.fs)
    (htarget : flattenTree r.objects env.algo env.fuel.tree tree = .ok target)
    (hmatch : Matches env r.fs old) (hfree : NothingUntracked env r.fs old target)
    (hstored : Stored env r.objects target) (h : Suits env r old target) :
    ∃ s, checkout env old target r = .ok () s ∧ Replaces env r.objects old target r.fs s.fs ∧
      indexEntries (s.controls env.workspace).index = target ∧ CleanAt env s target := by
  obtain ⟨fs, hrun, hreplaces⟩ := checkout_runs hroot (fits_of_suits hroot hnamed hmatch hfree hstored h)
  have hordered := ordered_of_flattenTree htarget h.nodup
  have hindex : ((Function.update r.controls env.workspace
      ((r.controls env.workspace).checkedOut target)) env.workspace).index = checkedOutIndex target := by
    rw [Function.update_self]
    rfl
  refine ⟨_, hrun, hreplaces, ?_, cleanAt_of_replaces hroot hnamed hmatch hstored h hordered hreplaces hindex⟩
  dsimp only
  rw [hindex]
  exact indexEntries_staged hordered

end

/-! ### A file that changes, and a directory that becomes a file -/

/-- A workspace with one file, and two trees to check out. -/
def twoTrees : NativeRepo where
  objects := toyObjects [(.blob, [1]), (.blob, [2]), (.tree, toyTree [([0x66], [1])]),
    (.tree, toyTree [([0x66], [2])])]
  refs := toyRefs []
  ops := []
  fs := toyFiles [([0x66], [1])]
  controls _ := ⟨[stageEntry (toyEntry [0x66] [1]) 0], none, none, none, none⟩

theorem get_twoTrees {p : Place} (h : twoTrees.fs.get p ≠ none) : p = [] ∨ p = [[0x66]] := by
  have hkeys : twoTrees.fs.nodes.keys = [[], [[0x66]]] := by decide +kernel
  have hmem : p ∈ twoTrees.fs.nodes.keys := by
    rw [Std.ExtTreeMap.mem_keys, Std.ExtTreeMap.mem_iff_isSome_getElem?]
    exact Option.isSome_iff_ne_none.mpr h
  rw [hkeys] at hmem
  simpa using hmem

theorem matches_file : Matches Env.toy twoTrees.fs [toyEntry [0x66] [1]] where
  files o ho _ := by
    obtain rfl := mem_singleton.mp ho
    exact ⟨fun _ data => data, .file [1] false, rfl, by decide +kernel, by decide +kernel⟩
  links o ho hmode := by
    obtain rfl := mem_singleton.mp ho
    exact absurd hmode (by decide)

theorem suits_file : Suits Env.toy twoTrees [toyEntry [0x66] [1]] [toyEntry [0x66] [2]] where
  names := by decide
  apart := pairwise_singleton _ _
  room := by decide +kernel
  submodules t ht _ := by
    rw [mem_singleton.mp ht]
    decide +kernel
  modes := by decide
  links := by decide
  repos t ht q _ hne hq hqne := by
    rw [mem_singleton.mp ht] at hq hqne
    have hplace : placeOf Env.toy.root (toyEntry [0x66] [2]).path = [[0x66]] := by decide
    rw [hplace] at hq hqne
    rcases prefix_cons_iff.mp hq with rfl | ⟨rest, rfl, hrest⟩
    · exact absurd rfl hne
    · rw [prefix_nil.mp hrest] at hqne
      exact absurd rfl hqne
  readable fs' hreplaces := by
    have hplace : placeOf Env.toy.root (toyEntry [0x66] [2]).path = [[0x66]] := by decide
    have honly : ∀ p, fs'.get p ≠ none → p = [] ∨ p = [[0x66]] := by
      intro p hp'
      by_cases hp : twoTrees.fs.get p = none
      · obtain ⟨t, ht, hpre⟩ := hreplaces.target_of_new matches_file hp hp'
        rw [mem_singleton.mp ht, hplace] at hpre
        rcases prefix_cons_iff.mp hpre with rfl | ⟨rest, rfl, hrest⟩
        · exact .inl rfl
        · rw [prefix_nil.mp hrest]
          exact .inr rfl
      · exact get_twoTrees hp
    refine ⟨ignoreError_eq_none (fun p hp c hc => ?_) fun q => .inl ?_, fun _ data => data, rfl, fun _ _ _ _ _ => rfl⟩
    · rcases honly p hp with rfl | rfl
      · cases hc
      · rw [mem_singleton.mp hc]
        decide
    · by_contra hthere
      rcases honly _ hthere with h | h
      · simp at h
      · cases q with
        | nil => exact absurd h (by decide)
        | cons c q => simp at h

theorem checkout_exact_file : ∃ s,
    checkout Env.toy [toyEntry [0x66] [1]] [toyEntry [0x66] [2]] twoTrees = .ok () s ∧
      Replaces Env.toy twoTrees.objects [toyEntry [0x66] [1]] [toyEntry [0x66] [2]] twoTrees.fs s.fs ∧
      indexEntries (s.controls Env.toy.workspace).index = [toyEntry [0x66] [2]] ∧
      CleanAt Env.toy s [toyEntry [0x66] [2]] := by
  have hplace : placeOf Env.toy.root [0x66] = [[0x66]] := by decide
  have htarget : flattenTree twoTrees.objects Env.toy.algo Env.toy.fuel.tree
      (toyId .tree (toyTree [([0x66], [2])])) = .ok [toyEntry [0x66] [2]] :=
    ok_of_toOption (by decide +kernel)
  refine checkout_exact ⟨by decide, get_top _⟩ ?_ htarget matches_file ?_ ?_ suits_file
  · intro p hp c hc
    rcases get_twoTrees hp with rfl | rfl
    · cases hc
    · rw [mem_singleton.mp hc]
      decide
  · intro t ht q hbelow hq hnot
    obtain rfl := mem_singleton.mp ht
    have hq : q <+: [[0x66]] := hplace ▸ hq
    rcases prefix_cons_iff.mp hq with rfl | ⟨rest, rfl, hrest⟩
    · exact absurd (.inr (get_top _)) hnot
    · rw [prefix_nil.mp hrest]
      exact ⟨_, mem_cons_self, hplace.symm⟩
  · intro t ht _
    obtain rfl := mem_singleton.mp ht
    exact ⟨[2], by decide +kernel, rfl, rfl⟩

/-- A workspace with a file in a directory, and a tree whose file has the directory's name. -/
def dirRepo : NativeRepo where
  objects := toyObjects [(.blob, [1]), (.blob, [2]), (.tree, toyTree [([0x78], [1])]),
    (.tree, levelBytes [([0x64], toyId .tree (toyTree [([0x78], [1])]), directory)]),
    (.tree, toyTree [([0x64], [2])])]
  refs := toyRefs []
  ops := []
  fs := ((FileTree.empty.createDirAll [[0x64]]).1.write [[0x64], [0x78]] [1]).toOption.getD .empty
  controls _ := ⟨[stageEntry (toyEntry [0x64, 0x2f, 0x78] [1]) 0], none, none, none, none⟩

/-- **A directory of `old` cannot become a file.**  Its files are all tracked, and the checkout is
    refused for an untracked file. -/
theorem directory_becomes_file : ∃ tree tree' old target,
    flattenTree dirRepo.objects Env.toy.algo Env.toy.fuel.tree tree = .ok old ∧
      flattenTree dirRepo.objects Env.toy.algo Env.toy.fuel.tree tree' = .ok target ∧
      Matches Env.toy dirRepo.fs old ∧ NothingUntracked Env.toy dirRepo.fs old target ∧
      Stored Env.toy dirRepo.objects target ∧
      ¬∃ s, checkout Env.toy old target dirRepo = .ok () s := by
  have hdir : dirRepo.fs.get [[0x64]] = some .dir := by decide +kernel
  refine ⟨toyId .tree (levelBytes [([0x64], toyId .tree (toyTree [([0x78], [1])]), directory)]),
    toyId .tree (toyTree [([0x64], [2])]), [toyEntry [0x64, 0x2f, 0x78] [1]], [toyEntry [0x64] [2]],
    ok_of_toOption (by decide +kernel), ok_of_toOption (by decide +kernel),
    ⟨fun o ho _ => ?_, fun o ho hmode => ?_⟩, fun t ht q _ hq hnot => ?_, fun t ht _ => ?_, ?_⟩
  · obtain rfl := mem_singleton.mp ho
    exact ⟨fun _ data => data, .file [1] false, rfl, by decide +kernel, by decide +kernel⟩
  · obtain rfl := mem_singleton.mp ho
    exact absurd hmode (by decide)
  · obtain rfl := mem_singleton.mp ht
    have hplace : placeOf Env.toy.root (toyEntry [0x64] [2]).path = [[0x64]] := by decide
    rw [hplace] at hq
    rcases prefix_cons_iff.mp hq with rfl | ⟨rest, rfl, hrest⟩
    · exact absurd (.inr (get_top _)) hnot
    · rw [prefix_nil.mp hrest] at hnot
      exact absurd (.inr hdir) hnot
  · obtain rfl := mem_singleton.mp ht
    exact ⟨[2], by decide +kernel, rfl, rfl⟩
  · rintro ⟨s, hrun⟩
    have hfails : (checkout Env.toy [toyEntry [0x64, 0x2f, 0x78] [1]] [toyEntry [0x64] [2]] dirRepo
      matches .ok _ _) = false := by decide +kernel
    rw [hrun] at hfails
    cases hfails

end Alt.Repo
