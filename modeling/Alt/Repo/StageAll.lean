import Alt.Repo.PathGate
import Alt.Repo.SparseScan

namespace Alt.Repo.StageAll

open Alt.Library Alt.Odb Alt.Refs Alt.StatCache List

/-!
# Staging everything (`native/add.rs`, 8–127; `native.rs`, 1076–1117, 4692–4785)

`add` with the stats that index lines carry.  With `.` it starts from no lines and stages each file of
the scan, so what the scan does not find is gone from the index.

* `add` — the command; `statusOf` — what a status makes of the lines it leaves;
* `descend_isSome_iff` — which names the scan comes to, and what that has to do with the index;
* `scanWithIndex_staged` — a scan with the lines it made finds what it found;
* `StagedAll` — the files' entries and the submodules that are there, a clean status, and no further
  op;
* `add_all_exact` — that is so just when no submodule was there and no line named content that its file
  does not have; `submodule_dropped` — a submodule that is.
-/

/-! ### The command -/

section

variable (env : Env) (stats : Place → Stat)

/-- A command on the repository and an index with stats. -/
abbrev StatCmd := EStateM CliError (NativeRepo × List StatEntry)

def onRepo {α : Type} (m : Cmd α) : StatCmd α := fun (r, index) =>
  match m r with
  | .ok a r => .ok a (r, index)
  | .error e r => .error e (r, index)

/-- `make_entry`: a submodule needs no file. -/
def makeEntry (w : WorkEntry) : Cmd StatEntry := fun r =>
  if w.mode = gitlink then .ok (zeroEntry (stageEntry w 0)) r
  else
    match r.fs.locate (abs env.root w.path) with
    | .error e => .error (.io e) r
    | .ok p =>
      match r.fs.get p with
      | none => .error (.io .notFound) r
      | some node => .ok (statEntry node (stats p) w) r

/-- Stages one path: its file, or its removal. -/
def stagePath (scan : List WorkEntry) (entries : List StatEntry) (path : Bytes) : Cmd (List StatEntry) := do
  let rest := entries.filter fun e => e.line.path != path
  match scan.find? fun w => w.path == path with
  | none => pure rest
  | some w =>
    if !env.allowsPath path then
      throw (.notAllowed path)
    else
      let bytes ← fromExcept (stagedBytes env (← get).fs w)
      onObjects fun objects =>
        match objects.put env.P w.oid .blob bytes with
        | .ok objects => .ok () objects
        | .error e => .error (.hash e) objects
      let line ← makeEntry env stats w
      return rest ++ [line]

/-- `save_index`, with the time `index.tmp` was `written`. -/
def saveIndex (written : FileTime) (entries : List StatEntry) : StatCmd Unit := fun (r, _) =>
  .ok () (r, smudge (stampOf written) (entries.insertionSort (byPathStage ·.line ·.line)))

/-- `alt add`. -/
def add (written : FileTime) (paths : List Bytes) : StatCmd Unit := do
  onRepo (ensureWritable env "add")
  let (r, index) ← get
  let scan ← fromExcept (scanWithIndex env r.fs stats index)
  let prior := index.filter fun e => e.line.stage = 0
  let stagingAll := paths.any fun p => pathspec p == []
  let targets ← fromExcept (addTargets scan (prior.map StatEntry.line) paths)
  let touched :=
    if stagingAll then
      sortPaths ((prior.map StatEntry.line).map IndexEntry.path ++ scan.map WorkEntry.path)
    else targets
  let entries ← onRepo (targets.foldlM (stagePath env stats scan) (if stagingAll then [] else prior))
  saveIndex written entries
  let changes := indexChanges (prior.map StatEntry.line) (entries.map StatEntry.line) touched
  onRepo (whenever (changes != []) (recordOp env (encodeIndexTx changes env.algo)))

/-- HEAD, the index and the working tree compared. -/
def statusOf (s : NativeRepo × List StatEntry) : Res Status := do
  let head ← headEntries env s.1
  let worktree ← scanWithIndex env s.1.fs stats s.2
  return status head (indexEntries (s.2.map StatEntry.line)) worktree

end

/-! ### What it is to leave -/

/-- The stage-0 submodules whose directory is there. -/
def submodules (env : Env) (fs : FileTree) (index : List StatEntry) : Index :=
  (settledPart (index.map StatEntry.line)).filter fun e =>
    e.mode = gitlink ∧ fs.get (placeOf env.root e.path) = some .dir

/-- A line whose file has the stat of the line names the content of the file. -/
def Honest (env : Env) (fs : FileTree) (stats : Place → Stat) (index : List StatEntry) : Prop :=
  ∀ filter, env.filter fs = .ok filter → ∀ rel node e, rel ≠ [] →
    (descend env fs (index.map StatEntry.line) [] false rel).isSome → fs.get (env.root ++ rel) = some node →
    cached index (joinPath rel) = some e → statMatches e node (stats (env.root ++ rel)) = true →
      workFile env filter (joinPath rel) node = some ⟨joinPath rel, e.line.oid, e.line.mode⟩

/-- **Everything is staged**: the stage-0 entries are the files with their contents' ids and modes and
    the submodules that were there, a status right after it has nothing unstaged, and once more
    records no further op. -/
structure StagedAll (env : Env) (stats : Place → Stat) (paths : List Bytes) (r : NativeRepo)
    (index : List StatEntry) (s : NativeRepo × List StatEntry) : Prop where
  entries : ∃ files, scanTree env r.fs (index.map StatEntry.line) = .ok files ∧
    SameEntries (settledPart (s.2.map StatEntry.line))
      (files.map (stageEntry · 0) ++ submodules env r.fs index)
  status : ∀ st, statusOf env stats s = .ok st → st.unstaged = []
  again : ∀ written s', add env stats written paths s = .ok () s' → s'.1.ops = s.1.ops

/-! ### The names a scan comes to -/

section Descend

variable {env : Env} {fs : FileTree}

/-- Whether an ignore rule hides what the names lead to, or a directory above it. -/
def hiddenOn (env : Env) (fs : FileTree) : List Bytes → Bool → List Bytes → Bool
  | _, hidden, [] => hidden
  | done, hidden, name :: rest =>
    let rel := done ++ [name]
    hiddenOn env fs rel
      (hidden || env.ignored fs (joinPath rel) (decide (fs.get (env.root ++ rel) = some .dir))) rest

/-- Nothing keeps the scan from these names: no control directory, no ignore rule for what is not
    tracked, no other repository. -/
structure Admits (env : Env) (fs : FileTree) (lines : Index) (rel : List Bytes) (name : Bytes)
    (hidden : Bool) : Prop where
  control : name ≠ altDir ∧ name ≠ gitDir
  known : hidden = true →
    tracked lines (joinPath rel) (decide (fs.get (env.root ++ rel) = some .dir)) = true
  repo : fs.get (env.root ++ rel) = some .dir → fs.lexists (env.root ++ rel ++ [gitDir]) = false

/-- **What the scan comes to.** Only what is hidden depends on the index. -/
theorem descend_isSome_iff {lines : Index} {rest done : List Bytes} {hidden : Bool} :
    (descend env fs lines done hidden rest).isSome ↔ ∀ mid name tail, rest = mid ++ name :: tail →
      Admits env fs lines (done ++ mid ++ [name]) name (hiddenOn env fs done hidden (mid ++ [name])) := by
  induction rest generalizing done hidden with
  | nil =>
    refine iff_of_true rfl fun mid name tail hrest => ?_
    simp at hrest
  | cons first rest ih =>
    rw [descend]
    have hlater : ∀ hidden', (∀ mid name tail, rest = mid ++ name :: tail →
        Admits env fs lines (done ++ [first] ++ mid ++ [name]) name
          (hiddenOn env fs (done ++ [first]) hidden' (mid ++ [name]))) ↔
        (descend env fs lines (done ++ [first]) hidden' rest).isSome := fun _ => ih.symm
    constructor
    · intro h mid name tail hrest
      split at h
      · cases h
      rename_i hcontrol
      split at h
      · cases h
      rename_i hknown
      split at h
      · cases h
      rename_i hrepo
      cases mid with
      | nil =>
        obtain ⟨rfl, rfl⟩ := List.cons.inj hrest
        rw [append_nil]
        refine ⟨by rwa [not_or] at hcontrol, fun hhidden => ?_, fun hdir => ?_⟩
        · rw [nil_append, hiddenOn, hiddenOn] at hhidden
          rw [hhidden] at hknown
          simpa using hknown
        · simpa [hdir] using hrepo
      | cons next mid =>
        obtain ⟨rfl, rfl⟩ := List.cons.inj hrest
        have hone := (hlater _).mpr h mid name tail rfl
        have hassoc : done ++ first :: mid ++ [name] = done ++ [first] ++ mid ++ [name] := by simp
        rw [hassoc]
        exact hone
    · intro h
      have hfirst := h [] first rest rfl
      rw [append_nil] at hfirst
      have hhidden := hfirst.known
      rw [nil_append, hiddenOn, hiddenOn] at hhidden
      rw [if_neg (by simp [hfirst.control.1, hfirst.control.2]), if_neg (by simpa using hhidden),
        if_neg (by simpa using hfirst.repo)]
      refine (hlater _).mp fun mid name tail hrest => ?_
      have hone := h (first :: mid) name tail (by rw [hrest]; rfl)
      have hassoc : done ++ first :: mid ++ [name] = done ++ [first] ++ mid ++ [name] := by simp
      rw [hassoc] at hone
      exact hone

end Descend

/-! ### Scanning with the lines of a scan -/

section Rescan

variable {env : Env} {fs : FileTree} {stats : Place → Stat} {index : List StatEntry}
  {filter : Bytes → Bytes → Bytes} {ws : List WorkEntry} {lines : Index}

/-- Where no line lies, the scan finds what is there. -/
theorem scannedWith_eq_scanned (hfilter : env.filter fs = .ok filter) (h : Honest env fs stats index)
    (rel : Place) :
    scannedWith env fs stats filter index rel = scanned env filter fs (index.map StatEntry.line) rel := by
  rw [scannedWith, scanned]
  split
  · rename_i hrel
    cases hnode : fs.get (env.root ++ rel) with
    | none => rfl
    | some node =>
      rw [Option.bind_some, Option.bind_some, scanFile]
      split
      · rename_i e hcached
        rw [Option.filter_eq_some_iff] at hcached
        exact (h filter hfilter rel node e hrel.1 hrel.2 hnode hcached.1 hcached.2).symm
      · rfl
  · rfl

/-- The lines are of the files that were found. -/
structure LinesOf (ws : List WorkEntry) (lines : Index) : Prop where
  lines : lines.Perm (ws.map (stageEntry · 0))

theorem LinesOf.exists_line (h : LinesOf ws lines) {w : WorkEntry} (hw : w ∈ ws) :
    ∃ e ∈ lines, e.path = w.path :=
  ⟨stageEntry w 0, h.lines.mem_iff.mpr (mem_map_of_mem hw), rfl⟩

theorem LinesOf.exists_file (h : LinesOf ws lines) {e : IndexEntry} (he : e ∈ lines) :
    ∃ w ∈ ws, e = stageEntry w 0 := by
  obtain ⟨w, hw, rfl⟩ := mem_map.mp (h.lines.mem_iff.mp he)
  exact ⟨w, hw, rfl⟩

/-- What is below a directory goes through it. -/
theorem through_of_isPrefixOf {names names' : Place} (hne : names ≠ []) (hne' : names' ≠ [])
    (hslash : ∀ c ∈ names, slash ∉ c) (hslash' : ∀ c ∈ names', slash ∉ c)
    (h : (joinPath names ++ [slash]).isPrefixOf (joinPath names') = true) :
    ∃ name rest, names' = names ++ name :: rest := by
  obtain ⟨rest, hrest⟩ := isPrefixOf_iff_prefix.mp h
  have hsplit := splitPath_joinPath hne' hslash'
  rw [← hrest, append_assoc, singleton_append, splitPath, splitOn_append_cons_self,
    ← splitPath, ← splitPath, splitPath_joinPath hne hslash] at hsplit
  obtain ⟨name, tail, htail⟩ := exists_cons_of_ne_nil (splitPath_ne_nil : splitPath rest ≠ [])
  exact ⟨name, tail, by rw [← hsplit, htail]⟩

theorem slash_free (hnamed : Named fs) {rel : Place} (h : fs.get (env.root ++ rel) ≠ none) :
    ∀ c ∈ rel, slash ∉ c := fun c hc => (hnamed _ h c (mem_append_right _ hc)).2

/-- **The new lines lead the scan nowhere else.** -/
theorem descend_of_staged (hnamed : Named fs) (hfilter : env.filter fs = .ok filter)
    (hscan : scanWithIndex env fs stats index = .ok ws) (hlines : LinesOf ws lines) {rel : Place}
    (hthere : fs.get (env.root ++ rel) ≠ none) (h : (descend env fs lines [] false rel).isSome) :
    (descend env fs (index.map StatEntry.line) [] false rel).isSome := by
  rw [descend_isSome_iff] at h ⊢
  intro mid name tail hrel
  have hnew := h mid name tail hrel
  refine ⟨hnew.control, fun hhidden => ?_, hnew.repo⟩
  have hslash : ∀ c ∈ mid ++ [name], slash ∉ c := fun c hc => slash_free hnamed hthere c (by
    rw [hrel, append_cons]
    exact mem_append_left _ hc)
  have hne : mid ++ [name] ≠ [] := by simp
  have hknown := hnew.known hhidden
  rw [nil_append] at hknown ⊢
  obtain ⟨e, he, htracked⟩ := any_eq_true.mp hknown
  obtain ⟨w, hw, rfl⟩ := hlines.exists_file he
  obtain ⟨rel', hscanned⟩ := (mem_of_scanWithIndex hfilter hscan w).mp hw
  obtain ⟨hne', hpath, hdescend, node, hnode, -⟩ := scannedWith_spec hscanned
  have hthere' : fs.get (env.root ++ rel') ≠ none := by
    rw [hnode]
    exact Option.some_ne_none _
  have hslash' : ∀ c ∈ rel', slash ∉ c := slash_free hnamed hthere'
  -- The file that is tracked was come to, so its directories were entered.
  have hfront : ∃ tail', rel' = mid ++ name :: tail' := by
    change (if _ then _ else _) = true at htracked
    split at htracked
    · rw [show (stageEntry w 0).path = joinPath rel' from hpath] at htracked
      obtain ⟨next, rest, hrest⟩ := through_of_isPrefixOf hne hne' hslash hslash' htracked
      exact ⟨next :: rest, by rw [hrest]; simp⟩
    · have heq : joinPath (mid ++ [name]) = joinPath rel' := by
        rw [← hpath]
        exact eq_of_beq htracked
      have hsame := congrArg splitPath heq
      rw [splitPath_joinPath hne hslash, splitPath_joinPath hne' hslash'] at hsame
      exact ⟨[], hsame.symm⟩
  obtain ⟨tail', rfl⟩ := hfront
  have hold := descend_isSome_iff.mp hdescend mid name tail' rfl
  exact hold.known hhidden

/-- What was found is found again. -/
theorem descend_of_found (hnamed : Named fs) (hlines : LinesOf ws lines) {rel : Place} {w : WorkEntry}
    (hw : w ∈ ws) (hscanned : scannedWith env fs stats filter index rel = some w) :
    (descend env fs lines [] false rel).isSome := by
  obtain ⟨hthere, hrel⟩ := there_of_scannedWith hnamed hscanned
  obtain ⟨node, hnode, hfile⟩ := hthere.file
  rw [hrel]
  exact descend_tracked (hlines.exists_line hw) hthere.reached hnode hfile _ [] false rfl

/-- The line of a file that was found. -/
theorem cached_staged (hnamed : Named fs) (hscan : scanWithIndex env fs stats index = .ok ws)
    {staged : List StatEntry} (hlines : LinesOf ws (staged.map StatEntry.line)) {w : WorkEntry}
    (hw : w ∈ ws) {e : StatEntry} (he : cached staged w.path = some e) : e.line = stageEntry w 0 := by
  obtain ⟨hmem, -, hpath⟩ := cached_mem he
  obtain ⟨w', hw', hline⟩ := hlines.exists_file (mem_map_of_mem hmem)
  have hpaths : (ws.map WorkEntry.path).Nodup :=
    pairwise_map.mpr ((ordered_scanWithIndex hnamed hscan).imp ne_of_lt)
  rw [hline] at hpath ⊢
  rw [inj_on_of_nodup_map hpaths hw' hw hpath]

/-- **A scan with the lines it made** finds what it found. -/
theorem scanWithIndex_staged (hnamed : Named fs) (hscan : scanWithIndex env fs stats index = .ok ws)
    (hhonest : Honest env fs stats index) {staged : List StatEntry}
    (hlines : LinesOf ws (staged.map StatEntry.line)) : scanWithIndex env fs stats staged = .ok ws := by
  cases hfilter : env.filter fs with
  | error e =>
    rw [scanWithIndex, hfilter] at hscan
    cases hscan
  | ok filter =>
  have hfound := mem_of_scanWithIndex hfilter hscan
  have hback := @descend_of_staged env fs stats index filter ws _ hnamed hfilter hscan hlines
  have hsame : ∀ rel ∈ below env fs,
      scannedWith env fs stats filter staged rel = scannedWith env fs stats filter index rel := by
    intro rel hrel
    have hthere := mem_below.mp hrel
    cases hold : scannedWith env fs stats filter index rel with
    | some w =>
      have hw := (hfound w).mpr ⟨rel, hold⟩
      have hdescend := descend_of_found hnamed hlines hw hold
      have hplain := hold
      rw [scannedWith_eq_scanned hfilter hhonest] at hplain
      obtain ⟨hne, hpath, node, hnode, hfile⟩ := scanned_spec hplain
      rw [scannedWith, if_pos ⟨hne, hdescend⟩, hnode, Option.bind_some, scanFile]
      split
      · rename_i e hcached
        rw [Option.filter_eq_some_iff, ← hpath] at hcached
        rw [cached_staged hnamed hscan hlines hw hcached.1, ← hpath]
        rfl
      · exact hfile
    | none =>
      rw [scannedWith] at hold ⊢
      split
      · rename_i hnew
        rw [if_pos ⟨hnew.1, hback hthere hnew.2⟩] at hold
        obtain ⟨node, hnode⟩ := Option.ne_none_iff_exists'.mp hthere
        rw [hnode, Option.bind_some] at hold ⊢
        have hdir : node = .dir := by
          by_contra hfile
          have hsome : (scanFile env filter (cached index (joinPath rel)) (joinPath rel) node
              (stats (env.root ++ rel))).isSome = true := scanFile_isSome.mpr hfile
          rw [hold] at hsome
          cases hsome
        subst hdir
        refine Option.not_isSome_iff_eq_none.mp fun hsome => ?_
        exact scanFile_isSome.mp hsome rfl
      · rfl
  rw [scanWithIndex, hfilter] at hscan ⊢
  dsimp only at hscan ⊢
  split at hscan
  · cases hscan
  rename_i hignore
  have hnone : ignoreError env fs (staged.map StatEntry.line) = none := by
    rw [ignoreError, findSome?_eq_none_iff] at hignore ⊢
    intro rel hrel
    have hrule := hignore rel hrel
    split
    · rename_i hdir
      rwa [if_pos ⟨hdir.1, hback (mem_below.mp hrel) hdir.2⟩] at hrule
    · rfl
  rw [hnone, ← hscan]
  change Except.ok (((below env fs).filterMap (scannedWith env fs stats filter staged)).insertionSort _) =
    Except.ok (((below env fs).filterMap (scannedWith env fs stats filter index)).insertionSort _)
  rw [filterMap_congr hsame]

end Rescan

/-! ### What the command does -/

section Runs

variable {env : Env} {stats : Place → Stat} {r : NativeRepo} {index : List StatEntry}
  {ws : List WorkEntry}

theorem triple_onRepo {α : Type} {m : Cmd α} {P : NativeRepo → Prop} {Q : α → NativeRepo → Prop}
    {E : CliError → NativeRepo → Prop} (h : Triple P m Q E) {lines : List StatEntry} :
    Triple (fun s => P s.1 ∧ s.2 = lines) (onRepo m) (fun a s => Q a s.1 ∧ s.2 = lines)
      (fun _ _ => True) := by
  rintro ⟨s, _⟩ ⟨hs, rfl⟩
  have hm := h s hs
  rw [onRepo]
  cases hrun : m s with
  | ok a s' =>
    rw [hrun] at hm
    exact ⟨hm, rfl⟩
  | error e s' => trivial

/-- What staging leaves alone: the files and the log. -/
def untouched (s : NativeRepo) : FileTree × List Bytes := (s.fs, s.ops)

theorem triple_makeEntry {w : WorkEntry} {v : FileTree × List Bytes} :
    Triple (untouched · = v) (makeEntry env stats w)
      (fun line s => line.line = stageEntry w 0 ∧ untouched s = v) (fun _ _ => True) := by
  intro s hs
  rw [makeEntry]
  by_cases hmode : w.mode = gitlink
  · rw [if_pos hmode]
    exact ⟨rfl, hs⟩
  · rw [if_neg hmode]
    cases s.fs.locate (abs env.root w.path) with
    | error e => trivial
    | ok p =>
      dsimp only
      cases s.fs.get p with
      | none => trivial
      | some node => exact ⟨rfl, hs⟩

/-- **Staging the next file.** -/
theorem triple_stagePath {v : FileTree × List Bytes} {done rest : List WorkEntry} {w : WorkEntry}
    {entries : List StatEntry} (hws : ws = done ++ w :: rest) (hpaths : (ws.map WorkEntry.path).Nodup)
    (hentries : entries.map StatEntry.line = done.map (stageEntry · 0)) :
    Triple (untouched · = v) (stagePath env stats ws entries w.path)
      (fun entries' s => entries'.map StatEntry.line = (done ++ [w]).map (stageEntry · 0) ∧
        untouched s = v) (fun _ _ => True) := by
  have hw : w ∈ ws := by rw [hws]; simp
  have hfind : ws.find? (fun x => x.path == w.path) = some w := by
    cases hfound : ws.find? fun x => x.path == w.path with
    | none => exact absurd (find?_eq_none.mp hfound w hw) (by simp)
    | some x =>
      have hpath := find?_some hfound
      rw [inj_on_of_nodup_map hpaths (mem_of_find?_eq_some hfound) hw (eq_of_beq hpath)]
  have hkept : (entries.filter fun e => e.line.path != w.path) = entries := by
    refine filter_eq_self.mpr fun e he => ?_
    have hmem := mem_map_of_mem (f := StatEntry.line) he
    rw [hentries] at hmem
    obtain ⟨x, hx, hline⟩ := mem_map.mp hmem
    rw [← hline, bne_iff_ne]
    rw [hws, map_append, map_cons, nodup_append] at hpaths
    exact hpaths.2.2 _ (mem_map_of_mem hx) _ mem_cons_self
  rw [stagePath, hfind, hkept]
  dsimp only
  refine .ite (fun _ => .throw fun _ _ => trivial) fun _ => .get fun s hs => ?_
  have hbytes : Triple (· = s) (fromExcept (stagedBytes env s.fs w) : Cmd Bytes)
      (fun _ s' => untouched s' = v) (fun _ _ => True) :=
    .lift (fun _ _ s' hs' => hs' ▸ hs) fun _ _ _ _ => trivial
  have hputs : ∀ bytes, Triple (untouched · = v) (onObjects fun objects =>
      match objects.put env.P w.oid .blob bytes with
      | .ok objects => .ok () objects
      | .error e => .error (.hash e) objects)
      (fun _ s' => untouched s' = v) (fun _ _ => True) := fun bytes =>
    (keeps_onObjects fun _ _ => rfl).triple.imp (fun _ h => h) (fun _ _ h => h) fun _ _ _ => trivial
  refine hbytes.bind fun bytes => (hputs bytes).bind fun _ => triple_makeEntry.bind fun line =>
    .pre fun hline => .pure fun s hs => ⟨?_, hs⟩
  rw [map_append, map_append, hentries, map_singleton, map_singleton, hline]

/-- **Staging all files of a scan**, in its order. -/
theorem triple_stageAll {v : FileTree × List Bytes} (hpaths : (ws.map WorkEntry.path).Nodup)
    {rest done : List WorkEntry} {entries : List StatEntry} (hws : ws = done ++ rest)
    (hentries : entries.map StatEntry.line = done.map (stageEntry · 0)) :
    Triple (untouched · = v) ((rest.map WorkEntry.path).foldlM (stagePath env stats ws) entries)
      (fun entries' s => entries'.map StatEntry.line = ws.map (stageEntry · 0) ∧ untouched s = v)
      (fun _ _ => True) := by
  induction rest generalizing done entries with
  | nil =>
    refine .pure fun s hs => ⟨?_, hs⟩
    rw [hentries, hws, append_nil]
  | cons w rest ih =>
    rw [map_cons, foldlM_cons]
    refine (triple_stagePath hws hpaths hentries).bind fun entries' => .pre fun hentries' => ?_
    exact ih (by rw [hws]; simp) hentries'

/-- What is recorded of lines that were settled. -/
def recorded (prior : Index) (ws : List WorkEntry) (algo : HashAlgo) : List Bytes :=
  let changes := indexChanges prior (ws.map (stageEntry · 0))
    (sortPaths (prior.map IndexEntry.path ++ ws.map WorkEntry.path))
  if changes = [] then [] else [encodeIndexTx changes algo]

theorem settledPart_lines : (index.filter fun e => e.line.stage = 0).map StatEntry.line =
    settledPart (index.map StatEntry.line) := by
  rw [settledPart, filter_map]
  rfl

theorem map_line_smudge (stamp : Stamp) (entries : List StatEntry) :
    (smudge stamp entries).map StatEntry.line = entries.map StatEntry.line := by
  rw [smudge, map_map]
  refine map_congr_left fun e _ => ?_
  rw [Function.comp_apply]
  split <;> rfl

/-- **What `add .` does.** -/
theorem add_all_runs {written : FileTime} {paths : List Bytes} (hnamed : Named r.fs)
    (hall : paths.any (fun p => pathspec p == []) = true) :
    Triple (· = (r, index)) (add env stats written paths)
      (fun _ s => ∃ ws, scanWithIndex env r.fs stats index = .ok ws ∧ s.1.fs = r.fs ∧
        LinesOf ws (s.2.map StatEntry.line) ∧
        s.1.ops = r.ops ++ recorded (settledPart (index.map StatEntry.line)) ws env.algo)
      (fun _ _ => True) := by
  have hwritable : Triple (· = (r, index)) (onRepo (ensureWritable env "add"))
      (fun _ s => s = (r, index)) (fun _ _ => True) := by
    rintro s rfl
    rw [onRepo, ensureWritable, demand]
    cases env.caps.readOnly with
    | false => rfl
    | true => trivial
  refine hwritable.bind fun _ => .get fun s hs => ?_
  subst hs
  dsimp only
  have hlift : Triple (· = (r, index)) (fromExcept (scanWithIndex env r.fs stats index) : StatCmd _)
      (fun ws s => scanWithIndex env r.fs stats index = .ok ws ∧ s = (r, index)) (fun _ _ => True) :=
    .lift (fun ws hws s hs => ⟨hws, hs⟩) fun _ _ _ _ => trivial
  refine hlift.bind fun ws => .pre fun hscan => ?_
  have htargets : Triple (· = (r, index)) (fromExcept (addTargets ws
      ((index.filter fun e => e.line.stage = 0).map StatEntry.line) paths) : StatCmd _)
      (fun targets s => targets = ws.map WorkEntry.path ∧ s = (r, index)) (fun _ _ => True) := by
    rw [addTargets, if_pos hall]
    exact fun s hs => ⟨rfl, hs⟩
  refine htargets.bind fun targets => .pre fun htargets => ?_
  subst htargets
  rw [if_pos hall, if_pos hall, settledPart_lines]
  have hpaths : (ws.map WorkEntry.path).Nodup :=
    pairwise_map.mpr ((ordered_scanWithIndex hnamed hscan).imp ne_of_lt)
  have hstage : Triple (· = (r, index))
      (onRepo ((ws.map WorkEntry.path).foldlM (stagePath env stats ws) []))
      (fun entries s => (entries.map StatEntry.line = ws.map (stageEntry · 0) ∧
        untouched s.1 = untouched r) ∧ s.2 = index) (fun _ _ => True) :=
    (triple_onRepo (triple_stageAll hpaths (nil_append ws).symm rfl)).imp
      (fun s hs => by rw [hs]; exact ⟨rfl, rfl⟩) (fun _ _ h => h) fun _ _ h => h
  refine hstage.bind fun entries => ?_
  rintro s ⟨⟨hentries, hkept⟩, -⟩
  -- The lines are saved, and the change is recorded if there is one.
  have hfs : s.1.fs = r.fs := congrArg Prod.fst hkept
  have hops : s.1.ops = r.ops := congrArg Prod.snd hkept
  have hlines : LinesOf ws ((smudge (stampOf written)
      (entries.insertionSort (byPathStage ·.line ·.line))).map StatEntry.line) := by
    refine ⟨?_⟩
    rw [map_line_smudge, ← hentries]
    exact (perm_insertionSort _ _).map _
  rw [hentries]
  simp only [saveIndex, bind, EStateM.bind, onRepo, whenever]
  by_cases hnone : indexChanges (settledPart (index.map StatEntry.line)) (ws.map (stageEntry · 0))
      (sortPaths ((settledPart (index.map StatEntry.line)).map IndexEntry.path ++
        ws.map WorkEntry.path)) = []
  · rw [if_neg (by simp [hnone])]
    refine ⟨ws, hscan, hfs, hlines, ?_⟩
    rw [recorded, if_pos hnone, append_nil]
    exact hops
  · rw [if_pos (by simpa using hnone), recordOp, if_neg (by simp [encodeIndexTx]; decide)]
    cases env.logged s.1.ops with
    | error e => trivial
    | ok u =>
      refine ⟨ws, hscan, hfs, hlines, ?_⟩
      rw [recorded, if_neg hnone, ← hops]

end Runs

/-! ### Exactly when -/

section Exact

variable {env : Env} {stats : Place → Stat} {r : NativeRepo} {index : List StatEntry} {fs : FileTree}
  {ws : List WorkEntry} {lines : Index} {paths : List Bytes}

theorem LinesOf.settled (h : LinesOf ws lines) (hws : Ordered ws) : Settled lines := by
  refine Settled.perm ⟨fun e he => ?_, ?_⟩ h.lines.symm
  · obtain ⟨w, -, rfl⟩ := mem_map.mp he
    exact stage_stageEntry
  · rw [map_map]
    exact pairwise_map.mpr (hws.imp ne_of_lt)

theorem LinesOf.settledPart_eq (h : LinesOf ws lines) : settledPart lines = lines :=
  filter_eq_self.mpr fun e he => by
    obtain ⟨w, -, rfl⟩ := h.exists_file he
    exact decide_eq_true stage_stageEntry

theorem LinesOf.indexEntries_eq (h : LinesOf ws lines) (hws : Ordered ws) : indexEntries lines = ws := by
  have hentries : (lines.map IndexEntry.entry).Perm ws := by
    have hmap := h.lines.map IndexEntry.entry
    rw [map_map] at hmap
    have hid : ws.map (IndexEntry.entry ∘ (stageEntry · 0)) = ws := map_id ws
    rwa [hid] at hmap
  have hpaths : (ws.map WorkEntry.path).Nodup := pairwise_map.mpr (hws.imp ne_of_lt)
  rw [indexEntries]
  change (((settledPart lines).map IndexEntry.entry).insertionSort _) = ws
  rw [h.settledPart_eq]
  refine Ordered.eq_of_perm (ordered_sort ((hentries.map _).nodup_iff.mpr hpaths)) hws ?_
  exact (perm_insertionSort _ _).trans hentries

/-- The same files once more are no change. -/
theorem LinesOf.recorded_eq_nil (h : LinesOf ws lines) (hws : Ordered ws) (algo : HashAlgo) :
    recorded (settledPart lines) ws algo = [] := by
  have hother : LinesOf ws (ws.map (stageEntry · 0)) := ⟨List.Perm.refl _⟩
  have hsides := ((h.settled hws).same_iff_sides (hother.settled hws)).mp (h.lines.map _)
  rw [recorded, h.settledPart_eq, if_pos]
  refine filter_eq_nil_iff.mpr fun c hc => ?_
  obtain ⟨p, -, rfl⟩ := mem_map.mp hc
  simpa using hsides p

theorem fileModes : symlinkMode ≠ gitlink ∧ executable ≠ gitlink ∧ regular ≠ gitlink := by decide

/-- What is scanned is no submodule. -/
theorem mode_scanFile {filter : Bytes → Bytes → Bytes} {cache : Option StatEntry} {path : Bytes}
    {node : Node} {stat : Stat} {w : WorkEntry} (h : scanFile env filter cache path node stat = some w) :
    w.mode ≠ gitlink := by
  obtain ⟨hlink, hexec, hplain⟩ := fileModes
  rw [scanFile] at h
  split at h
  · rename_i e hcached
    cases h
    have hmode := wtMode_of_statMatches (Option.filter_eq_some_iff.mp hcached).2
    cases node with
    | dir => cases hmode
    | symlink target => exact fun heq => hlink ((Option.some.inj hmode).trans heq)
    | file content exec =>
      cases exec
      · exact fun heq => hplain ((Option.some.inj hmode).trans heq)
      · exact fun heq => hexec ((Option.some.inj hmode).trans heq)
  · cases node with
    | dir => cases h
    | symlink target =>
      cases h
      exact hlink
    | file content exec =>
      cases h
      cases exec
      · exact hplain
      · exact hexec

theorem scanTree_of_honest (hscan : scanWithIndex env fs stats index = .ok ws)
    (h : Honest env fs stats index) : scanTree env fs (index.map StatEntry.line) = .ok ws := by
  rw [scanWithIndex] at hscan
  split at hscan
  · cases hscan
  rename_i filter hfilter
  split at hscan
  · cases hscan
  · rename_i hignore
    rw [scanTree_eq hfilter hignore, ← hscan]
    have hsame : scanned env filter fs (index.map StatEntry.line) =
        scannedWith env fs stats filter index :=
      funext fun rel => (scannedWith_eq_scanned hfilter h rel).symm
    rw [hsame]
    rfl

/-- **Honest lines**, from the ids of the files alone. -/
theorem honest_of_scanTree (hnamed : Named fs) (hscan : scanWithIndex env fs stats index = .ok ws)
    {files : List WorkEntry} (hfiles : scanTree env fs (index.map StatEntry.line) = .ok files)
    (hsubset : ws ⊆ files) : Honest env fs stats index := by
  intro filter hfilter rel node e hne hdescend hnode hcached hmatch
  have hignore : ignoreError env fs (index.map StatEntry.line) = none := by
    rw [scanWithIndex, hfilter] at hscan
    dsimp only at hscan
    split at hscan
    · cases hscan
    · assumption
  rw [scanTree_eq hfilter hignore, Except.ok.injEq] at hfiles
  have hscanned : scannedWith env fs stats filter index rel =
      some ⟨joinPath rel, e.line.oid, e.line.mode⟩ := by
    rw [scannedWith, if_pos ⟨hne, hdescend⟩, hnode, Option.bind_some, scanFile, hcached,
      Option.filter_some, if_pos hmatch]
  have hmem := hsubset ((mem_of_scanWithIndex hfilter hscan _).mpr ⟨rel, hscanned⟩)
  rw [← hfiles] at hmem
  obtain ⟨rel', hfound⟩ := mem_scan.mp hmem
  obtain ⟨hne', hpath, node', hnode', hfile⟩ := scanned_spec hfound
  have hsplit := splitPath_of_there hnamed hne (by rw [hnode]; exact Option.some_ne_none _)
  have hsplit' := splitPath_of_there hnamed hne' (by rw [hnode']; exact Option.some_ne_none _)
  dsimp only at hpath
  obtain rfl : rel' = rel := by rw [← hsplit, hpath, hsplit']
  rw [hnode, Option.some.injEq] at hnode'
  rw [hnode']
  exact hfile

/-- **Staging everything.** After a successful `add .` the stage-0 entries are the files and the
    submodules that are there, a status right after it is clean, and once more records no op, just if
    no submodule was there and no line with the stat of its file named other content. -/
theorem add_all_exact {written : FileTime} {s : NativeRepo × List StatEntry} (hnamed : Named r.fs)
    (hall : paths.any (fun p => pathspec p == []) = true)
    (hrun : add env stats written paths (r, index) = .ok () s) :
    StagedAll env stats paths r index s ↔
      submodules env r.fs index = [] ∧ Honest env r.fs stats index := by
  obtain ⟨ws, hscan, hfs, hlines, hops⟩ := (add_all_runs hnamed hall).ok rfl hrun
  have hws : Ordered ws := ordered_scanWithIndex hnamed hscan
  constructor
  · rintro ⟨⟨files, hfiles, hsame⟩, -, -⟩
    rw [hlines.settledPart_eq] at hsame
    have hperm := ((hlines.lines.map IndexEntry.facts).symm.trans hsame)
    have hfacts : ∀ w ∈ ws, (stageEntry w 0).facts ∈
        ((files.map (stageEntry · 0)) ++ submodules env r.fs index).map IndexEntry.facts := fun w hw =>
      hperm.mem_iff.mp (mem_map_of_mem (mem_map_of_mem hw))
    have hmodes : ∀ w ∈ ws, w.mode ≠ gitlink := by
      intro w hw
      cases hfilter : env.filter r.fs with
      | error e =>
        rw [scanWithIndex, hfilter] at hscan
        cases hscan
      | ok filter =>
        obtain ⟨rel, hscanned⟩ := (mem_of_scanWithIndex hfilter hscan w).mp hw
        obtain ⟨-, -, -, node, -, -, hfile⟩ := scannedWith_spec hscanned
        exact mode_scanFile hfile
    have hlink : ∀ e ∈ submodules env r.fs index, e.mode = gitlink := fun e he => by
      simpa using (of_decide_eq_true (mem_filter.mp he).2).1
    refine ⟨eq_nil_iff_forall_not_mem.mpr fun e he => ?_,
      honest_of_scanTree hnamed hscan hfiles fun w hw => ?_⟩
    · have hmem := hperm.mem_iff.mpr (mem_map_of_mem (mem_append_right _ he))
      obtain ⟨line, hline, heq⟩ := mem_map.mp hmem
      obtain ⟨w, hw, rfl⟩ := mem_map.mp hline
      have hmode : w.mode = e.mode := congrArg (fun facts => facts.2.2.2) heq
      exact hmodes w hw (hmode.trans (hlink e he))
    · obtain ⟨line, hline, heq⟩ := mem_map.mp (hfacts w hw)
      rcases mem_append.mp hline with hline | hline
      · obtain ⟨f, hf, rfl⟩ := mem_map.mp hline
        have hpath : f.path = w.path := congrArg (fun facts => facts.1) heq
        have hoid : f.oid = w.oid := congrArg (fun facts => facts.2.2.1) heq
        have hmode : f.mode = w.mode := congrArg (fun facts => facts.2.2.2) heq
        have hsame : f = w := by
          cases f
          cases w
          simp only at hpath hoid hmode
          rw [hpath, hoid, hmode]
        exact hsame ▸ hf
      · have hmode : line.mode = w.mode := congrArg (fun facts => facts.2.2.2) heq
        exact absurd (hmode.symm.trans (hlink line hline)) (hmodes w hw)
  · rintro ⟨hnone, hhonest⟩
    have hagain : scanWithIndex env s.1.fs stats s.2 = .ok ws := by
      rw [hfs]
      exact scanWithIndex_staged hnamed hscan hhonest hlines
    refine ⟨⟨ws, scanTree_of_honest hscan hhonest, ?_⟩, fun st hst => ?_, fun written' s' hrun' => ?_⟩
    · rw [hnone, append_nil, hlines.settledPart_eq]
      exact hlines.lines.map _
    · rw [statusOf, hagain, hlines.indexEntries_eq hws] at hst
      obtain ⟨head, hhead, hst⟩ := of_match_ok hst
      cases hst
      rw [status, diff_self]
      rfl
    · have hnamed' : Named s.1.fs := by rwa [hfs]
      obtain ⟨ws', hscan', -, -, hops'⟩ := (add_all_runs hnamed' hall).ok rfl hrun'
      rw [hagain, Except.ok.injEq] at hscan'
      rw [hops', ← hscan', hlines.recorded_eq_nil hws, append_nil]

end Exact

/-! ### A file and a submodule -/

/-- A repository with these files, nothing committed. -/
def plainRepo (fs : FileTree) : NativeRepo where
  objects _ := none
  refs := toyRefs []
  ops := []
  fs := fs
  controls _ := ⟨[], none, none, none, none⟩

def fileF : FileTree := toyFiles [(pathF, [1])]

/-- The index after an `add .`, if it succeeds. -/
def linesAfter (fs : FileTree) (index : List StatEntry) : Option (List StatEntry) :=
  match add Env.toy noStat (toLex (2, 0)) [dot] (plainRepo fs, index) with
  | .ok _ s => some s.2
  | .error _ _ => none

theorem exists_of_linesAfter {fs : FileTree} {index lines : List StatEntry}
    (h : linesAfter fs index = some lines) :
    ∃ s, add Env.toy noStat (toLex (2, 0)) [dot] (plainRepo fs, index) = .ok () s ∧ s.2 = lines := by
  rw [linesAfter] at h
  split at h
  · rename_i s hrun
    exact ⟨s, hrun, Option.some.inj h⟩
  · cases h

/-- A new file, staged with its stat. -/
theorem add_all_exact_file :
    ∃ s, add Env.toy noStat (toLex (2, 0)) [dot] (plainRepo fileF, []) = .ok () s ∧
      s.2 = [statEntry (.file [1] false) (noStat [[0x66]]) (toyEntry pathF [1])] ∧
      StagedAll Env.toy noStat [dot] (plainRepo fileF) [] s := by
  obtain ⟨s, hrun, hlines⟩ := exists_of_linesAfter (show linesAfter fileF [] =
    some [statEntry (.file [1] false) (noStat [[0x66]]) (toyEntry pathF [1])] by decide +kernel)
  have hnamed : Named (plainRepo fileF).fs := named_of_keys (by decide +kernel)
  have hall : [dot].any (fun p => pathspec p == []) = true := by decide +kernel
  refine ⟨s, hrun, hlines, (add_all_exact hnamed hall hrun).mpr ⟨rfl, ?_⟩⟩
  intro filter _ rel node e _ _ _ hcached
  cases hcached

/-- The directory `m` with another repository in it, and the file `f`. -/
def withSubmodule : FileTree :=
  let fs := (((FileTree.empty.createDirAll [[0x6d]]).1.write [[0x6d], gitDir] [0x67]).toOption.getD .empty)
  (fs.write [[0x66]] [1]).toOption.getD .empty

/-- The line of the submodule `m`. -/
def submoduleLine : StatEntry := zeroEntry (stageEntry ⟨[0x6d], toyId .commit [], gitlink⟩ 0)

/-- **A submodule is dropped**, though its directory is there. -/
theorem submodule_dropped :
    ∃ s, add Env.toy noStat (toLex (2, 0)) [dot] (plainRepo withSubmodule, [submoduleLine]) = .ok () s ∧
      withSubmodule.get [[0x6d]] = some .dir ∧
      s.2.map StatEntry.line = [stageEntry (toyEntry pathF [1]) 0] ∧
      ¬StagedAll Env.toy noStat [dot] (plainRepo withSubmodule) [submoduleLine] s := by
  have hrun : (linesAfter withSubmodule [submoduleLine]).map (·.map StatEntry.line) =
      some [stageEntry (toyEntry pathF [1]) 0] := by decide +kernel
  obtain ⟨lines, hlines, hline⟩ := Option.map_eq_some_iff.mp hrun
  obtain ⟨s, hs, rfl⟩ := exists_of_linesAfter hlines
  refine ⟨s, hs, by decide +kernel, hline, fun h => ?_⟩
  obtain ⟨files, hfiles, hsame⟩ := h.entries
  have hscan : scanTree Env.toy (plainRepo withSubmodule).fs ([submoduleLine].map StatEntry.line) =
      .ok [toyEntry pathF [1]] := ok_of_toOption (by decide +kernel)
  rw [hscan, Except.ok.injEq] at hfiles
  have hsub : (submodules Env.toy (plainRepo withSubmodule).fs [submoduleLine]).length = 1 := by
    decide +kernel
  have hlength := hsame.length_eq
  rw [← hfiles, hline, length_map, length_map, length_append, hsub] at hlength
  revert hlength
  decide

end Alt.Repo.StageAll
