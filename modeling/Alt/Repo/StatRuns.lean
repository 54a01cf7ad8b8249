import Alt.Repo.StatCache

namespace Alt.StatCache

open Alt.Library Alt.Odb Alt.Refs Alt.Repo List

/-!
# Staging beside other processes (`native/add.rs`, 10–100; `native.rs`, 1999–2052, 4692–4714)

Commands look at files, take their stats and save the index, one step at a time; between any two
steps another process may change files, and the file clock may stand still or go on.

* `Action`, `step` — the steps of the commands, of the other processes and of the clock;
* `Undisturbed`, `Meets` — what the other processes leave alone;
* `stat_cache_honest` — in every run whose steps meet the condition every line vouches for its
  file, so a scan that reuses ids is one that reads every file;
* `change_hidden` — a run in which a file is written between the moment it is hashed and the
  moment its stat is taken.
-/

/-! ### Steps -/

/-- How far a command has come with saving its index. -/
inductive Saving
  | idle
  /-- `index.tmp` is written, its time not yet looked at. -/
  | wrote
  /-- The racy lines are smudged. -/
  | stamped
  deriving DecidableEq

/-- One running command: the index it has read, the files it has hashed or written, with what it
    saw there, and the lines of the index it is about to save. -/
structure Session where
  index : List StatEntry
  hashed : List (WorkEntry × Node)
  entries : List StatEntry
  saving : Saving

/-- The files, their stats, and the index on disk. -/
structure World where
  clock : FileTime
  repo : NativeRepo
  stats : Place → Stat
  index : List StatEntry
  /-- `index.tmp`, and when it was written. -/
  tmp : Option (List StatEntry × FileTime)
  sessions : Nat → Session

inductive Action
  | tick (now : FileTime)
  /-- Any process changes files. -/
  | change (repo : NativeRepo) (stats : Place → Stat)
  /-- A command reads the index; the lines it keeps are its first. -/
  | load (i : Nat)
  | keep (i : Nat) (keeps : StatEntry → Bool)
  /-- A scan comes to a file. -/
  | hash (i : Nat) (rel : List Bytes)
  /-- `materialize`, with the stats its files have then. -/
  | materialize (i : Nat) (t : WorkEntry) (stats : Place → Stat)
  /-- `make_entry`. -/
  | record (i : Nat) (t : WorkEntry)
  /-- A line without a stat. -/
  | unstatted (i : Nat) (line : IndexEntry)
  /-- The three parts of `save_index`. -/
  | beginSave (i : Nat)
  | stampSave (i : Nat)
  | publish (i : Nat)

def World.setSession (w : World) (i : Nat) (s : Session) : World :=
  { w with sessions := Function.update w.sessions i s }

/-- A file that lies somewhere after a move or a `chmod`, as it was before. -/
def carried (clock : FileTime) (node node' : Node) (stat stat' : Stat) : Bool :=
  (match node, node' with
    | .file content _, .file content' _ => decide (content = content')
    | .symlink target, .symlink target' => decide (target = target')
    | _, _ => false) &&
  decide (stat'.mtime = stat.mtime ∧ stat'.dev = stat.dev ∧ stat'.ino = stat.ino ∧
    (stat'.ctime = stat.ctime ∨ stat'.ctime = clock))

/-- The file clock: what is written has its time, what is only moved keeps the one it had. -/
def clocked (w : World) (fs : FileTree) (stats : Place → Stat) : Bool :=
  fs.nodes.keys.all fun p =>
    match fs.get p with
    | none | some .dir => true
    | some node =>
      decide ((stats p).mtime = w.clock ∧ (stats p).ctime = w.clock) ||
        w.repo.fs.nodes.keys.any fun q =>
          match w.repo.fs.get q with
          | none => false
          | some node' => carried w.clock node' node (w.stats q) (stats p)

section Step

variable (env : Env)

/-- A command that is not saving its index does something. -/
def World.working (w : World) (i : Nat) (f : Session → Option Session) : Option World :=
  if (w.sessions i).saving = .idle then (f (w.sessions i)).map (w.setSession i) else none

def step (w : World) : Action → Option World
  | .tick now => if w.clock ≤ now then some { w with clock := now } else none
  | .change repo stats =>
    if clocked w repo.fs stats then some { w with repo, stats } else none
  | .load i => w.working i fun _ => some ⟨w.index, [], w.index, .idle⟩
  | .keep i keeps => w.working i fun s => some { s with entries := s.entries.filter keeps }
  | .hash i rel => w.working i fun s =>
    match env.filter w.repo.fs, w.repo.fs.get (env.root ++ rel) with
    | .ok filter, some node =>
      (scanFile env filter (cached s.index (joinPath rel)) (joinPath rel) node
        (w.stats (env.root ++ rel))).map fun t => { s with hashed := (t, node) :: s.hashed }
    | _, _ => none
  | .materialize i t stats =>
    match materialize env t w.repo with
    | .error _ _ => none
    | .ok () repo =>
      if clocked w repo.fs stats then
        World.working { w with repo, stats } i fun s =>
          match repo.fs.locate (abs env.root t.path) with
          | .error _ => none
          | .ok p => (repo.fs.get p).map fun node => { s with hashed := (t, node) :: s.hashed }
      else none
  | .record i t => w.working i fun s =>
    if t.mode = gitlink then some { s with entries := s.entries ++ [zeroEntry (stageEntry t 0)] }
    else if s.hashed.any (fun seen => seen.1 = t) then
      match w.repo.fs.locate (abs env.root t.path) with
      | .error _ => none
      | .ok p => (w.repo.fs.get p).map fun node =>
        { s with entries := s.entries ++ [statEntry node (w.stats p) t] }
    else none
  | .unstatted i line => w.working i fun s => some { s with entries := s.entries ++ [zeroEntry line] }
  | .beginSave i =>
    let s := w.sessions i
    if s.saving = .idle then
      some { w.setSession i { s with saving := .wrote } with tmp := some (s.entries, w.clock) }
    else none
  | .stampSave i =>
    let s := w.sessions i
    match s.saving, w.tmp with
    | .wrote, some (written, time) =>
      let done := w.setSession i ⟨s.index, [], [], .stamped⟩
      if s.entries.any fun e => timeOf (stampOf time) ≤ timeOf e.mtime then
        some { done with tmp := some (smudge (stampOf time) s.entries, w.clock) }
      else some { done with tmp := some (written, time) }
    | _, _ => none
  | .publish i =>
    let s := w.sessions i
    match s.saving, w.tmp with
    | .stamped, some (written, _) =>
      some { w.setSession i { s with saving := .idle } with index := written, tmp := none }
    | _, _ => none

/-- The runs from `w₀`. -/
def system (w₀ : World) : System World Action := ⟨w₀, step env⟩

end Step

/-- A repository without an index, at a time after the one of lines without a stat. -/
structure Start (w : World) : Prop where
  clock : epoch < w.clock
  files : ∀ p node, w.repo.fs.get p = some node → node ≠ .dir → (w.stats p).mtime ≠ epoch
  index : w.index = []
  tmp : w.tmp = none
  sessions : ∀ i, w.sessions i = ⟨[], [], [], .idle⟩

/-! ### What other processes leave alone -/

/-- A line that has been saved: the index's own, or one that a command has read or is about to
    put in its place. -/
def World.Saved (w : World) (e : StatEntry) : Prop :=
  e ∈ w.index ∨ (∃ i, e ∈ (w.sessions i).index) ∨
    ∃ i written time, (w.sessions i).saving = .stamped ∧ w.tmp = some (written, time) ∧ e ∈ written

/-- A line that a command has made and not saved. -/
def World.Pending (w : World) (e : StatEntry) : Prop := ∃ i, e ∈ (w.sessions i).entries

section Conditions

variable (env : Env)

/-- The path leads to this file, which has this stat. -/
structure FoundAt (fs : FileTree) (stats : Place → Stat) (path : Bytes) (p : Place) (node : Node)
    (stat : Stat) : Prop where
  leads : Leads env fs path p
  node : fs.get p = some node
  stat : stats p = stat

/-- The files that the lines and the commands know of. -/
def World.Known (w : World) (path : Bytes) (node : Node) : Prop :=
  (∃ e p, (w.Saved e ∨ w.Pending e) ∧ e.line.path = path ∧
    FoundAt env w.repo.fs w.stats path p node (w.stats p) ∧ statMatches e node (w.stats p) = true) ∨
  ∃ i t, (t, node) ∈ (w.sessions i).hashed ∧ t.path = path

/-- No file is moved to where it has the stat of a saved line; none is written so that it has the
    stat of a line that is not yet saved; and the clean filter makes the same of known files. -/
structure Undisturbed (w : World) (fs : FileTree) (stats : Place → Stat) : Prop where
  moved : ∀ e p node, w.Saved e → FoundAt env fs stats e.line.path p node (stats p) →
    statMatches e node (stats p) = true →
      (stats p).mtime = w.clock ∨ FoundAt env w.repo.fs w.stats e.line.path p node (stats p)
  racy : ∀ e p node, w.Pending e → FoundAt env fs stats e.line.path p node (stats p) →
    statMatches e node (stats p) = true → FoundAt env w.repo.fs w.stats e.line.path p node (stats p)
  filter : ∀ filter', env.filter fs = .ok filter' → ∃ filter, env.filter w.repo.fs = .ok filter ∧
    ∀ path node, w.Known env path node →
      workFile env filter' path node = workFile env filter path node

/-- The condition on a step: files change undisturbed, what is written for an entry is cleaned back
    to it, a file still is what was hashed when its stat is taken, and one command saves at a time. -/
def Meets (w : World) : Action → Prop
  | .change repo stats => Undisturbed env w repo.fs stats
  | .materialize _ t stats => ∀ repo, materialize env t w.repo = .ok () repo →
    Undisturbed env w repo.fs stats ∧
      ∀ p node filter, repo.fs.locate (abs env.root t.path) = .ok p → repo.fs.get p = some node →
        wtMode node = some t.mode → env.filter repo.fs = .ok filter →
          workFile env filter t.path node = some t
  | .record i t => t.mode ≠ gitlink → ∃ seen, (t, seen) ∈ (w.sessions i).hashed ∧
    ∀ p node, FoundAt env w.repo.fs w.stats t.path p node (w.stats p) → wtMode node = some t.mode →
      node = seen
  | .beginSave i => ∀ j, j ≠ i → (w.sessions j).saving = .idle
  | _ => True

end Conditions

/-! ### Times -/

/-- The index's clock is never ahead of the file's. -/
theorem timeOf_stampOf_le {t : FileTime} (h : epoch ≤ t) : timeOf (stampOf t) ≤ t := by
  obtain ⟨sec, nsec⟩ := t
  have hsec : 0 ≤ sec := by
    rcases Prod.Lex.toLex_le_toLex.mp h with hlt | ⟨heq, _⟩
    · exact le_of_lt hlt
    · exact le_of_eq heq
  have hfst : ((UInt32.ofInt sec).toNat : Int) ≤ sec := by
    have hval : ((UInt32.ofInt sec).toNat : Int) = max (sec % 4294967296) 0 % 4294967296 := by
      simp [UInt32.ofInt]
    omega
  have hsnd : (UInt32.ofNat nsec).toNat ≤ nsec := by
    rw [UInt32.toNat_ofNat']
    exact Nat.mod_le _ _
  refine Prod.Lex.toLex_le_toLex.mpr ?_
  rcases lt_or_eq_of_le hfst with hlt | heq
  · exact .inl hlt
  · exact .inr ⟨heq, hsnd⟩

/-- A line after smudging is older than the stamp, or has no time. -/
theorem smudge_mem {stamp : Stamp} {entries : List StatEntry} {e : StatEntry}
    (h : e ∈ smudge stamp entries) :
    (e ∈ entries ∧ timeOf e.mtime < timeOf stamp) ∨ timeOf e.mtime = epoch := by
  obtain ⟨e₀, he₀, rfl⟩ := mem_map.mp h
  split
  case isTrue => exact .inr rfl
  case isFalse hnot => exact .inl ⟨he₀, not_le.mp hnot⟩

/-! ### The invariant -/

section Invariant

variable (env : Env)

/-- Saved lines are older than the clock or have no time; no file has the time of those; every line
    vouches for its file, and what was hashed is what the file holds that was seen. -/
structure Inv (w : World) : Prop where
  clock : epoch < w.clock
  files : ∀ p node, w.repo.fs.get p = some node → node ≠ .dir → (w.stats p).mtime ≠ epoch
  old : ∀ e, w.Saved e → timeOf e.mtime < w.clock ∨ timeOf e.mtime = epoch
  vouches : ∀ e, w.Saved e ∨ w.Pending e → Vouches env w.repo.fs w.stats e
  hashed : ∀ i t seen filter, (t, seen) ∈ (w.sessions i).hashed → wtMode seen = some t.mode →
    env.filter w.repo.fs = .ok filter → workFile env filter t.path seen = some t
  saver : ∀ i j, (w.sessions i).saving ≠ .idle → (w.sessions j).saving ≠ .idle → i = j
  wrote : ∀ i, (w.sessions i).saving = .wrote →
    ∃ time, w.tmp = some ((w.sessions i).entries, time) ∧ epoch < time ∧ time ≤ w.clock

variable {env} {w w' : World}

variable {stats : Place → Stat}

/-- A line without a time vouches for whatever is there. -/
theorem vouches_of_epoch {fs : FileTree} {e : StatEntry}
    (hfiles : ∀ p node, fs.get p = some node → node ≠ .dir → (stats p).mtime ≠ epoch)
    (h : timeOf e.mtime = epoch) : Vouches env fs stats e := by
  intro p node filter _ hnode hmatch _
  have hmode := wtMode_of_statMatches hmatch
  have hdir : node ≠ .dir := by
    rintro rfl
    cases hmode
  exact absurd ((mtime_of_statMatches hmatch).symm.trans h) (hfiles p node hnode hdir)

theorem inv_start (h : Start w) : Inv env w where
  clock := h.clock
  files := h.files
  old := by
    intro e he
    simp only [World.Saved, h.index, h.sessions, h.tmp] at he
    simp at he
  vouches := by
    intro e he
    simp only [World.Saved, World.Pending, h.index, h.sessions, h.tmp] at he
    simp at he
  hashed := by
    intro i t seen filter hmem
    rw [h.sessions i] at hmem
    cases hmem
  saver := by
    intro i j hi
    rw [h.sessions i] at hi
    exact absurd rfl hi
  wrote := by
    intro i hi
    rw [h.sessions i] at hi
    cases hi

/-! ### Changes of files -/

theorem clocked_file {fs : FileTree} (h : clocked w fs stats = true) {p : Place} {node : Node}
    (hnode : fs.get p = some node) (hdir : node ≠ .dir) :
    (stats p).mtime = w.clock ∨
      ∃ q node', w.repo.fs.get q = some node' ∧ node' ≠ .dir ∧ (stats p).mtime = (w.stats q).mtime := by
  have hmem : p ∈ fs.nodes.keys := by
    rw [Std.ExtTreeMap.mem_keys, Std.ExtTreeMap.mem_iff_isSome_getElem?]
    exact Option.isSome_iff_exists.mpr ⟨node, hnode⟩
  have hp := all_eq_true.mp h p hmem
  rw [hnode] at hp
  cases node with
  | dir => exact absurd rfl hdir
  | file content exec =>
    simp only [Bool.or_eq_true, decide_eq_true_eq, any_eq_true] at hp
    rcases hp with hnow | ⟨q, _, hq⟩
    · exact .inl hnow.1
    · right
      split at hq
      case h_1 => cases hq
      case h_2 node' hnode' =>
        simp only [carried, Bool.and_eq_true, decide_eq_true_eq] at hq
        refine ⟨q, node', hnode', ?_, hq.2.1⟩
        rintro rfl
        cases hq.1
  | symlink target =>
    simp only [Bool.or_eq_true, decide_eq_true_eq, any_eq_true] at hp
    rcases hp with hnow | ⟨q, _, hq⟩
    · exact .inl hnow.1
    · right
      split at hq
      case h_1 => cases hq
      case h_2 node' hnode' =>
        simp only [carried, Bool.and_eq_true, decide_eq_true_eq] at hq
        refine ⟨q, node', hnode', ?_, hq.2.1⟩
        rintro rfl
        cases hq.1

/-- **Files change.** What is written has a time no saved line has. -/
theorem inv_change {repo : NativeRepo} (h : Inv env w) (hclocked : clocked w repo.fs stats = true)
    (hkept : Undisturbed env w repo.fs stats) :
    Inv env { w with repo, stats } where
  clock := h.clock
  files := by
    intro p node hnode hdir
    rcases clocked_file hclocked hnode hdir with hnow | ⟨q, node', hq, hdir', htime⟩
    · exact fun hzero => absurd (hnow.symm.trans hzero) (ne_of_gt h.clock)
    · exact fun hzero => h.files q node' hq hdir' (htime.symm.trans hzero)
  old := h.old
  vouches := by
    intro e he p node filter' hleads hnode hmatch hfilter'
    have hthere : FoundAt env repo.fs stats e.line.path p node (stats p) := ⟨hleads, hnode, rfl⟩
    have hbefore : FoundAt env w.repo.fs w.stats e.line.path p node (stats p) := by
      rcases he with hsaved | hpending
      · rcases hkept.moved e p node hsaved hthere hmatch with hnow | hbefore
        · exfalso
          have htime := (mtime_of_statMatches hmatch).trans hnow
          rcases h.old e hsaved with hlt | hzero
          · exact absurd htime (ne_of_lt hlt)
          · exact absurd (htime.symm.trans hzero) (ne_of_gt h.clock)
        · exact hbefore
      · exact hkept.racy e p node hpending hthere hmatch
    obtain ⟨filter, hfilter, hsame⟩ := hkept.filter filter' hfilter'
    have hmatch : statMatches e node (w.stats p) = true := by
      rw [hbefore.stat]
      exact hmatch
    rw [hsame e.line.path node (.inl ⟨e, p, he, rfl, ⟨hbefore.leads, hbefore.node, rfl⟩, hmatch⟩)]
    exact h.vouches e he p node filter hbefore.leads hbefore.node hmatch hfilter
  hashed := by
    intro i t seen filter' hmem hmode hfilter'
    obtain ⟨filter, hfilter, hsame⟩ := hkept.filter filter' hfilter'
    rw [hsame t.path seen (.inr ⟨i, t, hmem, rfl⟩)]
    exact h.hashed i t seen filter hmem hmode hfilter
  saver := h.saver
  wrote := h.wrote

/-! ### Steps of a command -/

/-- What a command does to its own lines. -/
structure SessionStep (env : Env) (w : World) (s s' : Session) : Prop where
  index : ∀ e ∈ s'.index, e ∈ s.index ∨ w.Saved e
  entries : ∀ e ∈ s'.entries, e ∈ s.entries ∨ w.Saved e ∨ Vouches env w.repo.fs w.stats e
  hashed : ∀ t seen, (t, seen) ∈ s'.hashed → (t, seen) ∈ s.hashed ∨
    ∀ filter, wtMode seen = some t.mode → env.filter w.repo.fs = .ok filter →
      workFile env filter t.path seen = some t
  saving : s'.saving = .idle

variable {i : Nat}

theorem inv_session {s' : Session} (h : Inv env w) (hs : SessionStep env w (w.sessions i) s') :
    Inv env (w.setSession i s') := by
  have hsaved : ∀ e, (w.setSession i s').Saved e → w.Saved e := by
    rintro e (he | ⟨j, he⟩ | ⟨j, written, time, hj, htmp, he⟩)
    · exact .inl he
    · simp only [World.setSession, Function.update_apply] at he
      split at he
      · rcases hs.index e he with hmem | hmem
        · exact .inr (.inl ⟨i, hmem⟩)
        · exact hmem
      · exact .inr (.inl ⟨j, he⟩)
    · simp only [World.setSession, Function.update_apply] at hj
      split at hj
      · rw [hs.saving] at hj
        cases hj
      · exact .inr (.inr ⟨j, written, time, hj, htmp, he⟩)
  refine ⟨h.clock, h.files, fun e he => h.old e (hsaved e he), ?_, ?_, ?_, ?_⟩
  · rintro e (he | ⟨j, he⟩)
    · exact h.vouches e (.inl (hsaved e he))
    · simp only [World.setSession, Function.update_apply] at he
      split at he
      · rcases hs.entries e he with hmem | hmem | hvouches
        · exact h.vouches e (.inr ⟨i, hmem⟩)
        · exact h.vouches e (.inl hmem)
        · exact hvouches
      · exact h.vouches e (.inr ⟨j, he⟩)
  · intro j t seen filter hmem hmode hfilter
    simp only [World.setSession, Function.update_apply] at hmem
    split at hmem
    · rcases hs.hashed t seen hmem with hold | hnew
      · exact h.hashed i t seen filter hold hmode hfilter
      · exact hnew filter hmode hfilter
    · exact h.hashed j t seen filter hmem hmode hfilter
  · intro j k hj hk
    simp only [World.setSession, Function.update_apply] at hj hk
    split at hj
    · exact absurd hs.saving hj
    · split at hk
      · exact absurd hs.saving hk
      · exact h.saver j k hj hk
  · intro j hj
    simp only [World.setSession, Function.update_apply] at hj ⊢
    split at hj
    · rw [hs.saving] at hj
      cases hj
    · next hne =>
      rw [if_neg hne]
      exact h.wrote j hj

/-- A command that is not saving its index. -/
theorem working_eq_some {f : Session → Option Session} :
    w.working i f = some w' ↔ (w.sessions i).saving = .idle ∧
      ∃ s', f (w.sessions i) = some s' ∧ w' = w.setSession i s' := by
  rw [World.working]
  split
  case isTrue hidle =>
    simp only [Option.map_eq_some_iff, hidle, true_and]
    exact ⟨fun ⟨s', hs', heq⟩ => ⟨s', hs', heq.symm⟩, fun ⟨s', hs', heq⟩ => ⟨s', hs', heq.symm⟩⟩
  case isFalse hidle => simp [hidle]

/-! ### Saving the index -/

theorem inv_tick {now : FileTime} (h : Inv env w) (hle : w.clock ≤ now) :
    Inv env { w with clock := now } where
  clock := lt_of_lt_of_le h.clock hle
  files := h.files
  old := fun e he => (h.old e he).imp (fun hlt => lt_of_lt_of_le hlt hle) id
  vouches := h.vouches
  hashed := h.hashed
  saver := h.saver
  wrote := fun i hi =>
    have ⟨time, htmp, hpos, hbefore⟩ := h.wrote i hi
    ⟨time, htmp, hpos, le_trans hbefore hle⟩

theorem inv_beginSave (h : Inv env w) (hothers : ∀ j, j ≠ i → (w.sessions j).saving = .idle) :
    Inv env { w.setSession i { w.sessions i with saving := .wrote } with
      tmp := some ((w.sessions i).entries, w.clock) } := by
  have hsession : ∀ j, ((w.setSession i { w.sessions i with saving := .wrote }).sessions j).saving ≠ .idle →
      j = i := by
    intro j hj
    by_contra hne
    simp only [World.setSession, Function.update_apply, if_neg hne] at hj
    exact hj (hothers j hne)
  have hsame : ∀ j, ((w.setSession i { w.sessions i with saving := .wrote }).sessions j).index =
      (w.sessions j).index ∧
      ((w.setSession i { w.sessions i with saving := .wrote }).sessions j).entries =
        (w.sessions j).entries ∧
      ((w.setSession i { w.sessions i with saving := .wrote }).sessions j).hashed =
        (w.sessions j).hashed := by
    intro j
    simp only [World.setSession, Function.update_apply]
    split
    case isTrue heq => exact ⟨by rw [heq], by rw [heq], by rw [heq]⟩
    case isFalse => exact ⟨rfl, rfl, rfl⟩
  have hsaved : ∀ e, World.Saved { w.setSession i { w.sessions i with saving := .wrote } with
      tmp := some ((w.sessions i).entries, w.clock) } e → w.Saved e := by
    rintro e (he | ⟨j, he⟩ | ⟨j, written, time, hj, _⟩)
    · exact .inl he
    · exact .inr (.inl ⟨j, (hsame j).1 ▸ he⟩)
    · obtain rfl := hsession j (by rw [hj]; simp)
      simp only [World.setSession, Function.update_self] at hj
      cases hj
  refine ⟨h.clock, h.files, fun e he => h.old e (hsaved e he), ?_, ?_, ?_, ?_⟩
  · rintro e (he | ⟨j, he⟩)
    · exact h.vouches e (.inl (hsaved e he))
    · exact h.vouches e (.inr ⟨j, (hsame j).2.1 ▸ he⟩)
  · intro j t seen filter hmem
    exact h.hashed j t seen filter ((hsame j).2.2 ▸ hmem)
  · intro j k hj hk
    exact (hsession j hj).trans (hsession k hk).symm
  · intro j hj
    obtain rfl := hsession j (by rw [hj]; simp)
    exact ⟨w.clock, by rw [(hsame j).2.1], h.clock, le_refl _⟩

/-- **The index is stamped.** A line that keeps its time is older than the stamp. -/
theorem inv_stampSave {written : List StatEntry} {now : FileTime} (h : Inv env w)
    (hsaving : (w.sessions i).saving = .wrote)
    (hwritten : ∀ e ∈ written, (e ∈ (w.sessions i).entries ∧ timeOf e.mtime < w.clock) ∨ timeOf e.mtime = epoch) :
    Inv env { w.setSession i ⟨(w.sessions i).index, [], [], .stamped⟩ with
      tmp := some (written, now) } := by
  have hsession : ∀ j, j ≠ i →
      ((w.setSession i ⟨(w.sessions i).index, [], [], .stamped⟩).sessions j) = w.sessions j :=
    fun j hne => Function.update_of_ne hne _ _
  have hself : (w.setSession i ⟨(w.sessions i).index, [], [], .stamped⟩).sessions i =
      ⟨(w.sessions i).index, [], [], .stamped⟩ := Function.update_self _ _ _
  have hbusy : (w.sessions i).saving ≠ .idle := by simp [hsaving]
  have hsaved : ∀ e, World.Saved { w.setSession i ⟨(w.sessions i).index, [], [], .stamped⟩ with
      tmp := some (written, now) } e → w.Saved e ∨ e ∈ written := by
    rintro e (he | ⟨j, he⟩ | ⟨j, written', time', _, htmp, he⟩)
    · exact .inl (.inl he)
    · by_cases hj : j = i
      · rw [hj] at he
        rw [show World.sessions _ i = _ from hself] at he
        exact .inl (.inr (.inl ⟨i, he⟩))
      · rw [show World.sessions _ j = _ from hsession j hj] at he
        exact .inl (.inr (.inl ⟨j, he⟩))
    · cases htmp
      exact .inr he
  refine ⟨h.clock, h.files, ?_, ?_, ?_, ?_, ?_⟩
  · intro e he
    rcases hsaved e he with hold | hnew
    · exact h.old e hold
    · exact (hwritten e hnew).imp And.right id
  · rintro e (he | ⟨j, he⟩)
    · rcases hsaved e he with hold | hnew
      · exact h.vouches e (.inl hold)
      · rcases hwritten e hnew with ⟨hpending, _⟩ | hzero
        · exact h.vouches e (.inr ⟨i, hpending⟩)
        · exact vouches_of_epoch h.files hzero
    · by_cases hj : j = i
      · rw [hj, show World.sessions _ i = _ from hself] at he
        cases he
      · rw [show World.sessions _ j = _ from hsession j hj] at he
        exact h.vouches e (.inr ⟨j, he⟩)
  · intro j t seen filter hmem
    by_cases hj : j = i
    · rw [hj, show World.sessions _ i = _ from hself] at hmem
      cases hmem
    · rw [show World.sessions _ j = _ from hsession j hj] at hmem
      exact h.hashed j t seen filter hmem
  · intro j k hj hk
    have hone : ∀ l, (World.sessions { w.setSession i ⟨(w.sessions i).index, [], [], .stamped⟩ with
        tmp := some (written, now) } l).saving ≠ .idle → l = i := by
      intro l hl
      by_contra hne
      rw [show World.sessions _ l = _ from hsession l hne] at hl
      exact hne (h.saver l i hl hbusy)
    rw [hone j hj, hone k hk]
  · intro j hj
    by_cases hne : j = i
    · rw [hne, show World.sessions _ i = _ from hself] at hj
      cases hj
    · rw [show World.sessions _ j = _ from hsession j hne] at hj
      exact absurd (h.saver j i (by simp [hj]) hbusy) hne

theorem inv_publish {written : List StatEntry} {time : FileTime} (h : Inv env w)
    (hsaving : (w.sessions i).saving = .stamped) (htmp : w.tmp = some (written, time)) :
    Inv env { w.setSession i { w.sessions i with saving := .idle } with
      index := written, tmp := none } := by
  have hbusy : (w.sessions i).saving ≠ .idle := by simp [hsaving]
  have hidle : ∀ j, ((w.setSession i { w.sessions i with saving := .idle }).sessions j).saving = .idle := by
    intro j
    simp only [World.setSession, Function.update_apply]
    split
    case isTrue => rfl
    case isFalse hne =>
      by_contra hj
      exact hne (h.saver j i hj hbusy)
  have hsame : ∀ j, ((w.setSession i { w.sessions i with saving := .idle }).sessions j).index =
      (w.sessions j).index ∧
      ((w.setSession i { w.sessions i with saving := .idle }).sessions j).entries =
        (w.sessions j).entries ∧
      ((w.setSession i { w.sessions i with saving := .idle }).sessions j).hashed =
        (w.sessions j).hashed := by
    intro j
    simp only [World.setSession, Function.update_apply]
    split
    case isTrue heq => exact ⟨by rw [heq], by rw [heq], by rw [heq]⟩
    case isFalse => exact ⟨rfl, rfl, rfl⟩
  have hsaved : ∀ e, World.Saved { w.setSession i { w.sessions i with saving := .idle } with
      index := written, tmp := none } e → w.Saved e := by
    rintro e (he | ⟨j, he⟩ | ⟨j, _, _, _, hnone, _⟩)
    · exact .inr (.inr ⟨i, written, time, hsaving, htmp, he⟩)
    · exact .inr (.inl ⟨j, (hsame j).1 ▸ he⟩)
    · cases hnone
  refine ⟨h.clock, h.files, fun e he => h.old e (hsaved e he), ?_, ?_, ?_, ?_⟩
  · rintro e (he | ⟨j, he⟩)
    · exact h.vouches e (.inl (hsaved e he))
    · exact h.vouches e (.inr ⟨j, (hsame j).2.1 ▸ he⟩)
  · intro j t seen filter hmem
    exact h.hashed j t seen filter ((hsame j).2.2 ▸ hmem)
  · intro j k hj
    exact absurd (hidle j) hj
  · intro j hj
    have hj' := hidle j
    rw [show (World.sessions _ j).saving = _ from hj'] at hj
    cases hj

/-! ### Every step -/

/-- A file's new line vouches for it while it holds what was hashed. -/
theorem vouches_statEntry {t : WorkEntry} {node : Node} {stat : Stat} (h : Inv env w)
    (hseen : ∃ seen, (t, seen) ∈ (w.sessions i).hashed ∧ ∀ p node, FoundAt env w.repo.fs w.stats t.path p node (w.stats p) → wtMode node = some t.mode → node = seen) :
    Vouches env w.repo.fs w.stats (statEntry node stat t) := by
  obtain ⟨seen, hmem, hsame⟩ := hseen
  intro p node' filter hleads hnode hmatch hfilter
  have hmode : wtMode node' = some t.mode := wtMode_of_statMatches hmatch
  obtain rfl := hsame p node' ⟨hleads, hnode, rfl⟩ hmode
  exact h.hashed i t node' filter hmem hmode hfilter

/-- **Step lemma.** A step that meets the condition keeps the invariant. -/
theorem inv_step {a : Action} (h : Inv env w) (hmeets : Meets env w a)
    (hstep : step env w a = some w') : Inv env w' := by
  cases a with
  | tick now =>
    simp only [step, Option.ite_none_right_eq_some, Option.some.injEq] at hstep
    obtain ⟨hle, rfl⟩ := hstep
    exact inv_tick h hle
  | change repo stats =>
    simp only [step, Option.ite_none_right_eq_some, Option.some.injEq] at hstep
    obtain ⟨hclocked, rfl⟩ := hstep
    exact inv_change h hclocked hmeets
  | load i =>
    rw [step] at hstep
    obtain ⟨hidle, s', hs', rfl⟩ := working_eq_some.mp hstep
    obtain rfl := Option.some.inj hs'
    exact inv_session h
      ⟨fun e he => .inr (.inl he), fun e he => .inr (.inl (.inl he)), fun _ _ hmem => absurd hmem not_mem_nil, rfl⟩
  | keep i keeps =>
    rw [step] at hstep
    obtain ⟨hidle, s', hs', rfl⟩ := working_eq_some.mp hstep
    obtain rfl := Option.some.inj hs'
    exact inv_session h ⟨fun e he => .inl he, fun e he => .inl (mem_of_mem_filter he),
      fun t seen hmem => .inl hmem, hidle⟩
  | hash i rel =>
    rw [step] at hstep
    obtain ⟨hidle, s', hs', rfl⟩ := working_eq_some.mp hstep
    split at hs'
    case h_2 => cases hs'
    case h_1 filter node hfilter hnode =>
      obtain ⟨t, ht, rfl⟩ := Option.map_eq_some_iff.mp hs'
      have hseen : workFile env filter (joinPath rel) node = some t := by
        rw [← ht]
        exact (scanFile_eq (fun e he => (cached_mem he).2.2)
          (fun e he => h.vouches e (.inl (.inr (.inl ⟨i, (cached_mem he).1⟩))))
          (.inl ⟨rel, rfl, rfl⟩) hnode hfilter).symm
      refine inv_session h ⟨fun e he => .inl he, fun e he => .inl he, ?_, hidle⟩
      intro t' seen hmem
      rcases mem_cons.mp hmem with heq | hmem
      · cases heq
        refine .inr fun filter' _ hfilter' => ?_
        obtain rfl := Except.ok.inj (hfilter.symm.trans hfilter')
        have hpath : t.path = joinPath rel := workFile_path hseen
        rw [hpath]
        exact hseen
      · exact .inl hmem
  | materialize i t stats =>
    simp only [step] at hstep
    split at hstep
    case h_1 => cases hstep
    case h_2 repo hrepo =>
      obtain ⟨hkept, hback⟩ := hmeets repo hrepo
      split at hstep
      case isFalse => cases hstep
      case isTrue hclocked =>
        obtain ⟨hidle, s', hs', rfl⟩ := working_eq_some.mp hstep
        have hinv := inv_change h hclocked hkept
        split at hs'
        case h_1 => cases hs'
        case h_2 p hplace =>
          obtain ⟨node, hnode, rfl⟩ := Option.map_eq_some_iff.mp hs'
          refine inv_session hinv ⟨fun e he => .inl he, fun e he => .inl he, ?_, hidle⟩
          intro t' seen hmem
          rcases mem_cons.mp hmem with heq | hmem
          · cases heq
            exact .inr fun filter hmode hfilter => hback p node filter hplace hnode hmode hfilter
          · exact .inl hmem
  | record i t =>
    rw [step] at hstep
    obtain ⟨hidle, s', hs', rfl⟩ := working_eq_some.mp hstep
    by_cases hlink : t.mode = gitlink
    · rw [if_pos hlink] at hs'
      obtain rfl := Option.some.inj hs'
      refine inv_session h ⟨fun e he => .inl he, ?_, fun t seen hmem => .inl hmem, hidle⟩
      intro e he
      rcases mem_append.mp he with he | he
      · exact .inl he
      · obtain rfl := mem_singleton.mp he
        exact .inr (.inr (vouches_of_epoch h.files rfl))
    · rw [if_neg hlink] at hs'
      split at hs'
      case isFalse => cases hs'
      case isTrue =>
        split at hs'
        case h_1 => cases hs'
        case h_2 p hplace =>
          obtain ⟨node, hnode, rfl⟩ := Option.map_eq_some_iff.mp hs'
          refine inv_session h ⟨fun e he => .inl he, ?_, fun t seen hmem => .inl hmem, hidle⟩
          intro e he
          rcases mem_append.mp he with he | he
          · exact .inl he
          · obtain rfl := mem_singleton.mp he
            exact .inr (.inr (vouches_statEntry h (hmeets hlink)))
  | unstatted i line =>
    rw [step] at hstep
    obtain ⟨hidle, s', hs', rfl⟩ := working_eq_some.mp hstep
    obtain rfl := Option.some.inj hs'
    refine inv_session h ⟨fun e he => .inl he, ?_, fun t seen hmem => .inl hmem, hidle⟩
    intro e he
    rcases mem_append.mp he with he | he
    · exact .inl he
    · obtain rfl := mem_singleton.mp he
      exact .inr (.inr (vouches_of_epoch h.files rfl))
  | beginSave i =>
    simp only [step, Option.ite_none_right_eq_some, Option.some.injEq] at hstep
    obtain ⟨_, rfl⟩ := hstep
    exact inv_beginSave h hmeets
  | stampSave i =>
    simp only [step] at hstep
    split at hstep
    case h_2 => cases hstep
    case h_1 written time hsaving htmp =>
      obtain ⟨time', htmp', hpos, hle⟩ := h.wrote i hsaving
      rw [htmp] at htmp'
      cases htmp'
      have hstamp : timeOf (stampOf time) ≤ w.clock :=
        le_trans (timeOf_stampOf_le (le_of_lt hpos)) hle
      split at hstep
      case isTrue =>
        obtain rfl := Option.some.inj hstep
        refine inv_stampSave h hsaving fun e he => ?_
        exact (smudge_mem he).imp (fun hold => ⟨hold.1, lt_of_lt_of_le hold.2 hstamp⟩) id
      case isFalse hracy =>
        obtain rfl := Option.some.inj hstep
        refine inv_stampSave h hsaving fun e he => .inl ⟨he, ?_⟩
        simp only [any_eq_true, decide_eq_true_eq, not_exists, not_and, not_le] at hracy
        exact lt_of_lt_of_le (hracy e he) hstamp
  | publish i =>
    simp only [step] at hstep
    split at hstep
    case h_2 => cases hstep
    case h_1 written time hsaving htmp =>
      obtain rfl := Option.some.inj hstep
      exact inv_publish h hsaving htmp

/-- **The stat cache hides no change.** In every run whose steps meet the condition, whatever index
    is on disk or has been read by a command: a file with the stat of its line has, cleaned, the id
    and the mode of the line, and the scans that reuse ids find what reading every file finds. -/
theorem stat_cache_honest {w₀ : World} (hstart : Start w₀)
    (hrun : (system env w₀).ReachableIf (Meets env) w) {index : List StatEntry}
    (hindex : index = w.index ∨ ∃ i, index = (w.sessions i).index) :
    (∀ e ∈ index, Vouches env w.repo.fs w.stats e) ∧
      scanWithIndex env w.repo.fs w.stats index =
        scanTree env w.repo.fs (index.map StatEntry.line) ∧
      scanIndexedPaths env w.repo.fs w.stats true index =
        scanIndexedPaths env w.repo.fs w.stats false index := by
  have hinv : Inv env w := System.invariant_if (S := system env w₀) (I := Inv env) (inv_start hstart)
    (fun s a s' hi hmeets hstep => inv_step hi hmeets hstep) w hrun
  have hvouches : ∀ e ∈ index, Vouches env w.repo.fs w.stats e := by
    intro e he
    rcases hindex with rfl | ⟨i, rfl⟩
    · exact hinv.vouches e (.inl (.inl he))
    · exact hinv.vouches e (.inl (.inr (.inl ⟨i, he⟩)))
  exact ⟨hvouches, scanWithIndex_eq fun e he _ => hvouches e he,
    scanIndexedPaths_eq fun e he _ => hvouches e he⟩

end Invariant

/-! ### Runs -/

/-- One file, written when the clock stood at one. -/
def oneFile : World where
  clock := toLex (1, 0)
  repo := ⟨toyObjects [], toyRefs [], [], toyFiles [([0x66], [1])], fun _ => ⟨[], none, none, none, none⟩⟩
  stats _ := ⟨toLex (1, 0), toLex (1, 0), 1, 1⟩
  index := []
  tmp := none
  sessions _ := ⟨[], [], [], .idle⟩

theorem start_oneFile : Start oneFile := by
  have hclock : epoch < oneFile.clock := by decide +kernel
  exact ⟨hclock, fun p node _ _ => (ne_of_gt hclock : oneFile.clock ≠ epoch), rfl, rfl, fun _ => rfl⟩

theorem joinPath_single {rel : List Bytes} (h : joinPath rel = [0x66]) : rel = [[0x66]] := by
  match rel with
  | [] => cases h
  | [name] => rw [← h, joinPath, intercalate_singleton]
  | a :: b :: rest =>
    exfalso
    have hslash : slash ∈ joinPath (a :: b :: rest) := by
      rw [joinPath, List.intercalate_cons_cons]
      simp
    rw [h] at hslash
    revert hslash
    decide

/-- What a command has seen of the file, and the line it makes of it. -/
def oneSession (hashed : List (WorkEntry × Node)) (entries : List StatEntry) (saving : Saving) :
    Session := ⟨[], hashed, entries, saving⟩

def oneLine : StatEntry :=
  statEntry (.file [1] false) ⟨toLex (1, 0), toLex (1, 0), 1, 1⟩ (toyEntry [0x66] [1])

theorem get_oneFile : oneFile.repo.fs.get [[0x66]] = some (.file [1] false) := by decide +kernel

theorem locate_oneFile :
    oneFile.repo.fs.locate (abs Env.toy.root [0x66]) = .ok [[0x66]] := by decide +kernel

/-- **A run that meets the condition.** The file is hashed, its stat is taken and, the clock having
    gone on, the index is saved. -/
theorem stat_cache_honest_oneFile : ∃ w,
    (system Env.toy oneFile).run oneFile [.load 0, .hash 0 [[0x66]], .record 0 (toyEntry [0x66] [1]),
      .tick (toLex (2, 0)), .beginSave 0, .stampSave 0, .publish 0] = some w ∧
    w.index = [oneLine] ∧
    (∀ e ∈ w.index, Vouches Env.toy w.repo.fs w.stats e) ∧
      scanWithIndex Env.toy w.repo.fs w.stats w.index =
        scanTree Env.toy w.repo.fs (w.index.map StatEntry.line) ∧
      scanIndexedPaths Env.toy w.repo.fs w.stats true w.index =
        scanIndexedPaths Env.toy w.repo.fs w.stats false w.index := by
  let hashed := [(toyEntry [0x66] [1], Node.file [1] false)]
  let w₁ := oneFile.setSession 0 (oneSession [] [] .idle)
  let w₂ := w₁.setSession 0 (oneSession hashed [] .idle)
  let w₃ := w₂.setSession 0 (oneSession hashed [oneLine] .idle)
  let w₄ : World := { w₃ with clock := toLex (2, 0) }
  let w₅ : World := { w₄.setSession 0 (oneSession hashed [oneLine] .wrote) with
    tmp := some ([oneLine], toLex (2, 0)) }
  let w₆ : World := { w₅.setSession 0 (oneSession [] [] .stamped) with
    tmp := some ([oneLine], toLex (2, 0)) }
  let w₇ : World := { w₆.setSession 0 (oneSession [] [] .idle) with index := [oneLine], tmp := none }
  have h₁ : step Env.toy oneFile (.load 0) = some w₁ := rfl
  have h₂ : step Env.toy w₁ (.hash 0 [[0x66]]) = some w₂ := by
    rw [step]
    refine working_eq_some.mpr ⟨rfl, oneSession hashed [] .idle, ?_, rfl⟩
    rw [show w₁.repo.fs.get (Env.toy.root ++ [[0x66]]) = some (.file [1] false) from get_oneFile]
    rfl
  have h₃ : step Env.toy w₂ (.record 0 (toyEntry [0x66] [1])) = some w₃ := by
    rw [step]
    refine working_eq_some.mpr ⟨rfl, oneSession hashed [oneLine] .idle, ?_, rfl⟩
    rw [if_neg (by decide), if_pos (by decide +kernel),
      show w₂.repo.fs.locate (abs Env.toy.root (toyEntry [0x66] [1]).path) = .ok [[0x66]] from
        locate_oneFile]
    simp only [show w₂.repo.fs.get [[0x66]] = some (.file [1] false) from get_oneFile]
    rfl
  have h₄ : step Env.toy w₃ (.tick (toLex (2, 0))) = some w₄ := by
    have hlater : w₃.clock ≤ toLex (2, 0) := by decide +kernel
    rw [step, if_pos hlater]
  have h₅ : step Env.toy w₄ (.beginSave 0) = some w₅ := rfl
  have h₆ : step Env.toy w₅ (.stampSave 0) = some w₆ := by
    have hracy : ([oneLine].any fun e =>
        decide (timeOf (stampOf (toLex (2, 0))) ≤ timeOf e.mtime)) = false := by decide +kernel
    show (if ([oneLine].any fun e =>
        decide (timeOf (stampOf (toLex (2, 0))) ≤ timeOf e.mtime)) = true then
        some { w₅.setSession 0 (oneSession [] [] .stamped) with
          tmp := some (smudge (stampOf (toLex (2, 0))) [oneLine], toLex (2, 0)) }
      else some w₆) = some w₆
    rw [hracy, if_neg Bool.false_ne_true]
  have h₇ : step Env.toy w₆ (.publish 0) = some w₇ := rfl
  have hrecord : Meets Env.toy w₂ (.record 0 (toyEntry [0x66] [1])) := by
    refine fun _ => ⟨.file [1] false, mem_singleton_self _, ?_⟩
    rintro p node ⟨⟨rel, hrel, rfl⟩ | hplace, hnode, _⟩ _
    · obtain rfl := joinPath_single hrel
      exact Option.some.inj (hnode.symm.trans get_oneFile)
    · obtain rfl := Except.ok.inj (hplace.symm.trans locate_oneFile)
      exact Option.some.inj (hnode.symm.trans get_oneFile)
  have hbegin : Meets Env.toy w₄ (.beginSave 0) := by
    intro j hj
    simp only [w₄, w₃, w₂, w₁, World.setSession, Function.update_of_ne hj]
    rfl
  have hload : Meets Env.toy oneFile (.load 0) := trivial
  have hhash : Meets Env.toy w₁ (.hash 0 [[0x66]]) := trivial
  have htick : Meets Env.toy w₃ (.tick (toLex (2, 0))) := trivial
  have hstamp : Meets Env.toy w₅ (.stampSave 0) := trivial
  have hpublish : Meets Env.toy w₆ (.publish 0) := trivial
  have hrun : (system Env.toy oneFile).ReachableIf (Meets Env.toy) w₇ :=
    .step (.step (.step (.step (.step (.step (.step .init hload h₁) hhash h₂) hrecord h₃) htick h₄)
      hbegin h₅) hstamp h₆) hpublish h₇
  refine ⟨w₇, ?_, rfl, stat_cache_honest start_oneFile hrun (.inl rfl)⟩
  simp only [System.run, system, h₁, h₂, h₃, h₄, h₅, h₆, h₇, Option.bind_some]

/-! ### A change that is not seen -/

/-- What another process does between the moment the file is hashed and the moment its stat is
    taken, two ticks later. -/
def hiddenChange : Action :=
  .change ⟨toyObjects [], toyRefs [], [], toyFiles [([0x66], [2])], fun _ => ⟨[], none, none, none, none⟩⟩
    fun _ => ⟨toLex (2, 0), toLex (2, 0), 1, 1⟩

/-- **A change that stays hidden.** The file is written after it is hashed and before its stat is
    taken; the index then vouches for the old content, and a scan that trusts it misses the new. -/
theorem change_hidden : Start oneFile ∧ ∃ w,
    (system Env.toy oneFile).run oneFile [.load 0, .hash 0 [[0x66]], .tick (toLex (2, 0)), hiddenChange,
      .record 0 (toyEntry [0x66] [1]), .tick (toLex (3, 0)), .beginSave 0, .stampSave 0,
      .publish 0] = some w ∧
    (∃ e ∈ w.index, e.line.stage = 0 ∧ e.line.path = [0x66] ∧
      w.repo.fs.get [[0x66]] = some (.file [2] false) ∧
      statMatches e (.file [2] false) (w.stats [[0x66]]) = true ∧
      e.line.oid ≠ ObjectId.hashObject Env.toy.P Env.toy.algo .blob [2]) ∧
    (scanWithIndex Env.toy w.repo.fs w.stats w.index).toOption ≠
      (scanTree Env.toy w.repo.fs (w.index.map StatEntry.line)).toOption := by
  refine ⟨start_oneFile, ?_⟩
  have hrun : ((system Env.toy oneFile).run oneFile [.load 0, .hash 0 [[0x66]], .tick (toLex (2, 0)),
      hiddenChange, .record 0 (toyEntry [0x66] [1]), .tick (toLex (3, 0)), .beginSave 0, .stampSave 0,
      .publish 0]).any (fun w => decide ((∃ e ∈ w.index, e.line.stage = 0 ∧ e.line.path = [0x66] ∧
        w.repo.fs.get [[0x66]] = some (.file [2] false) ∧
        statMatches e (.file [2] false) (w.stats [[0x66]]) = true ∧
        e.line.oid ≠ ObjectId.hashObject Env.toy.P Env.toy.algo .blob [2]) ∧
      (scanWithIndex Env.toy w.repo.fs w.stats w.index).toOption ≠
        (scanTree Env.toy w.repo.fs (w.index.map StatEntry.line)).toOption)) = true := by
    decide +kernel
  obtain ⟨w, hw, hp⟩ := (Option.any_eq_true _ _).mp hrun
  exact ⟨w, hw, of_decide_eq_true hp⟩

end Alt.StatCache
