import Alt.Notes.Tree
import Alt.Repo.UndoRefs

namespace Alt.Notes

open Alt.Library Alt.Refs List
open Alt.Repo (Objects Within notesRef resolve get_foldl_applyChange)

/-!
# Notes of several processes (`alt-cli/src/native/notes.rs`, 82–130)

A process that records a commit reads the notes tip, writes its note on top of it, and moves its branch
and the notes ref in one ref transaction.  If the notes ref was moved in between it starts over; any
other error ends it.  In between, other processes store objects and move other refs.

* `Built` — the notes that `store` can build;
* `note_map_iff` — what `store` does to the notes as a map;
* `processes` — the processes, step by step, and `Kept` — what holds in every state of theirs;
* `notes_kept_iff` — the two together.
-/

/-! ### One note -/

/-- Notes that were written one on top of the other, by whoever and with whatever else in between. -/
inductive Built (P : Prims) (algo : HashAlgo) : Objects → Option ObjectId → Prop
  | empty (objects : Objects) : Built P algo objects none
  | onTop {objects grown written : Objects} {parent : Option ObjectId} {target tip : ObjectId} {note : Meta}
      {signature : Text} {news : List NewObject} (built : Built P algo objects parent)
      (grow : Within objects grown) (hstore : store P algo grown parent target note signature = .ok news)
      (apart : Apart P algo grown news) (write : writeAll P algo grown news = .ok written)
      (htip : tipOf P algo news = some tip) : Built P algo written (some tip)

section

variable {P : Prims} {algo : HashAlgo} {objects grown written : Objects} {parent : Option ObjectId}
variable {target tip : ObjectId} {note : Meta} {signature : Text} {news : List NewObject}

/-- The tip was stored. -/
theorem Built.stored (h : Built P algo objects parent) : ∀ p ∈ parent, ∃ object, objects p = some object := by
  cases h with
  | empty => exact fun p hp => absurd hp (by simp)
  | onTop built grow hstore apart write htip =>
    obtain ⟨new, hnew, rfl⟩ := Option.map_eq_some_iff.mp htip
    intro p hp
    obtain rfl := Option.some.inj hp
    exact ⟨⟨new.1, new.2⟩, stored_of_writeAll _ (List.Subset.refl _) apart write new (mem_of_getLast? hnew)⟩

/-- A stored commit is not read otherwise later. -/
theorem commitTree_before {root : ObjectId} (hstored : ∃ object, objects tip = some object)
    (grow : Within objects grown) (h : commitTree grown tip = .ok root) : commitTree objects tip = .ok root := by
  obtain ⟨object, hobject⟩ := hstored
  rw [commitTree, readOr, grow hobject] at h
  rw [commitTree, readOr, hobject]
  exact h

/-- Where a note is written, the notes commit below was read. -/
theorem notesAt_of_store (hstored : ∀ p ∈ parent, ∃ object, objects p = some object)
    (hread : ∀ p ∈ parent, ∀ root, commitTree objects p = .ok root → NotesAt objects algo p)
    (grow : Within objects grown) (hstore : store P algo grown parent target note signature = .ok news) :
    ∀ p ∈ parent, NotesAt grown algo p := by
  intro p hp
  obtain rfl := Option.mem_def.mp hp
  obtain ⟨top, -, htop, -⟩ := store_eq_ok hstore
  obtain ⟨id, hid, -⟩ := bind_eq_ok htop
  exact (hread p rfl id (commitTree_before (hstored p rfl) grow hid)).grown grow

/-- **The notes that can be built can be looked up**, as long as their tip can be read. -/
theorem Built.notesAt {tip : Option ObjectId} (h : Built P algo objects tip) :
    ∀ p ∈ tip, ∀ root, commitTree objects p = .ok root → NotesAt objects algo p := by
  induction h with
  | empty objects => exact fun p hp => absurd hp (by simp)
  | onTop built grow hstore apart write htip ih =>
    intro p hp root hroot
    obtain rfl := Option.some.inj hp
    have hparent := notesAt_of_store built.stored ih grow hstore
    have hsig := not_imp_not.mpr (commitTree_store_ne hparent hstore apart write htip · root) (not_not_intro hroot)
    exact (find_store hparent hstore apart write htip (not_not.mp hsig)).1

/-- So can those that a note was written on top of. -/
theorem Built.notesAt_parent (built : Built P algo objects parent) (grow : Within objects grown)
    (hstore : store P algo grown parent target note signature = .ok news) :
    ∀ p ∈ parent, NotesAt grown algo p :=
  notesAt_of_store built.stored built.notesAt grow hstore

/-- **The notes as a map.** The note is found and the others are as they were, exactly if the note's text
stands for it and the signature's lines can be read. -/
theorem note_map_iff (built : Built P algo objects parent) (grow : Within objects grown)
    (hstore : store P algo grown parent target note signature = .ok news) (hapart : Apart P algo grown news)
    (hwrite : writeAll P algo grown news = .ok written) (htip : tipOf P algo news = some tip) :
    (find written algo tip target = .ok (some note) ∧
      ∀ other ≠ target, find written algo tip other = readMeta grown algo parent other) ↔
      note.Plain ∧ SigReads signature := by
  have hparent := built.notesAt_parent grow hstore
  by_cases hsig : SigReads signature
  · obtain ⟨-, hself, hothers⟩ := find_store hparent hstore hapart hwrite htip hsig
    rw [hself, Except.ok.injEq, Option.some.injEq, Meta.parse_render_iff]
    exact ⟨fun h => ⟨h.1, hsig⟩, fun h => ⟨h.1, hothers⟩⟩
  · refine iff_of_false (fun h => ?_) fun h => hsig h.2
    obtain ⟨root, hroot, -⟩ := bind_eq_ok h.1
    exact commitTree_store_ne hparent hstore hapart hwrite htip hsig root hroot

end

/-! ### Processes -/

/-- What a process is asked to record: a note, and other refs to move with the notes ref. -/
structure Job where
  changes : List RefChange
  target : ObjectId
  note : Meta

/-- How far a process is. -/
inductive Stage
  | start
  /-- It has read the notes tip. -/
  | read (tip : Option ObjectId)
  /-- It has built its objects on that tip. -/
  | built (tip : Option ObjectId) (news : List NewObject)
  /-- They are stored; the last is the new notes commit. -/
  | flushed (tip : Option ObjectId) (new : ObjectId)
  | done
  | failed

structure World where
  objects : Objects
  refs : RefMap
  stage : Nat → Stage
  /-- The processes that are done, the last first. -/
  published : List Nat

inductive Action
  | readTip (pid : Nat)
  | build (pid : Nat) (signature : Text)
  | flush (pid : Nat)
  | publish (pid : Nat)
  /-- An error that is not the lost race for the notes ref. -/
  | refuse (pid : Nat)
  /-- Someone else stores an object. -/
  | put (kind : ObjectKind) (data : Bytes)
  /-- Someone else moves other refs. -/
  | move (changes : List RefChange)

/-- Where the processes begin: with no notes, or on notes that were built and can be read. -/
structure Start (P : Prims) (algo : HashAlgo) where
  objects : Objects
  refs : RefMap
  tip : Option ObjectId
  notes : refs[notesRef]? = tip.map .oid
  built : Built P algo objects tip
  reads : ∀ p ∈ tip, ∃ root, commitTree objects p = .ok root

section

variable (P : Prims) (algo : HashAlgo) (jobs : Nat → Job)

def World.setStage (w : World) (pid : Nat) (stage : Stage) : World :=
  { w with stage := Function.update w.stage pid stage }

@[simp] theorem World.stage_setStage_self {w : World} {pid : Nat} {stage : Stage} :
    (w.setStage pid stage).stage pid = stage := Function.update_self ..

theorem World.stage_setStage_ne {w : World} {pid pid' : Nat} {stage : Stage} (h : pid' ≠ pid) :
    (w.setStage pid stage).stage pid' = w.stage pid' := Function.update_of_ne h ..

/-- The changes of the transaction, that of the notes ref last. -/
def Job.transaction (job : Job) (tip : Option ObjectId) (new : ObjectId) : List RefChange :=
  job.changes ++ [⟨notesRef, tip.map .oid, some (.oid new)⟩]

def step (w : World) : Action → Option World
  | .readTip pid =>
    match w.stage pid with
    | .start =>
      match resolve w.refs notesRef with
      | .ok tip => some (w.setStage pid (.read tip))
      | .error _ => some (w.setStage pid .failed)
    | _ => none
  | .build pid signature =>
    match w.stage pid with
    | .read tip =>
      match store P algo w.objects tip (jobs pid).target (jobs pid).note signature with
      | .ok news => some (w.setStage pid (.built tip news))
      | .error _ => some (w.setStage pid .failed)
    | _ => none
  | .flush pid =>
    match w.stage pid with
    | .built tip news =>
      match writeAll P algo w.objects news, tipOf P algo news with
      | .ok objects, some new => some ({ w with objects }.setStage pid (.flushed tip new))
      | _, _ => some (w.setStage pid .failed)
    | _ => none
  | .publish pid =>
    match w.stage pid with
    | .flushed tip new =>
      match applyChanges w.refs ((jobs pid).transaction tip new) false with
      | .ok refs => some ({ w with refs, published := pid :: w.published }.setStage pid .done)
      | .error e => some (w.setStage pid (if e = .conflict notesRef then .start else .failed))
    | _ => none
  | .refuse pid =>
    match w.stage pid with
    | .done => none
    | _ => some (w.setStage pid .failed)
  | .put kind data =>
    match w.objects.put P (ObjectId.hashObject P algo kind data) kind data with
    | .ok objects => some { w with objects }
    | .error _ => none
  | .move changes =>
    if changes.any fun c => c.name = notesRef then none
    else
      match applyChanges w.refs changes false with
      | .ok refs => some { w with refs }
      | .error _ => none

def processes (start : Start P algo) : System World Action where
  init := ⟨start.objects, start.refs, fun _ => .start, []⟩
  step := step P algo jobs

/-- What a process has built can be stored. -/
def ApartAt (objects : Objects) : Stage → Prop
  | .built _ news => Apart P algo objects news
  | _ => True

/-- Notes are built that their text stands for, with a signature that can be read, and stored where no
other object has the id of one of theirs. -/
def Sound (w : World) : Action → Prop
  | .build pid signature => (jobs pid).note.Plain ∧ SigReads signature
  | .flush pid => ApartAt P algo w.objects (w.stage pid)
  | _ => True

instance (note : Meta) : Decidable note.Plain := decidable_of_iff _ Meta.parse_render_iff

instance (signature : Text) : Decidable (SigReads signature) :=
  match h : HeaderBlock.parse (signatureLines signature) with
  | .ok block => .isTrue ⟨block, h⟩
  | .error _ => .isFalse fun ⟨block, hblock⟩ => by rw [h] at hblock; cases hblock

instance (objects : Objects) (news : List NewObject) : Decidable (Apart P algo objects news) :=
  decidable_of_iff ((∀ new ∈ news, ∀ object ∈ objects (idOf P algo new), object = ⟨new.1, new.2⟩) ∧
    ∀ a ∈ news, ∀ b ∈ news, idOf P algo a = idOf P algo b → a = b)
    ⟨fun h => ⟨h.1, h.2⟩, fun h => ⟨h.stored, h.new⟩⟩

instance (objects : Objects) : ∀ stage, Decidable (ApartAt P algo objects stage)
  | .built _ news => inferInstanceAs (Decidable (Apart P algo objects news))
  | .start | .read _ | .flushed _ _ | .done | .failed => .isTrue trivial

instance (w : World) : ∀ a, Decidable (Sound P algo jobs w a)
  | .build _ _ => inferInstanceAs (Decidable (_ ∧ _))
  | .flush _ => inferInstanceAs (Decidable (ApartAt P algo w.objects _))
  | .readTip _ | .publish _ | .refuse _ | .put _ _ | .move _ => .isTrue trivial

end

/-! ### What holds in every state -/

section

variable {P : Prims} {algo : HashAlgo} {jobs : Nat → Job}

/-- The note that was published last for a commit. -/
def lastNote (jobs : Nat → Job) (published : List Nat) (target : ObjectId) : Option Meta :=
  (published.find? fun pid => (jobs pid).target = target).map fun pid => (jobs pid).note

/-- The notes of `published` on top of those of the start. -/
def Shows (start : Start P algo) (jobs : Nat → Job) (objects : Objects) (tip : Option ObjectId)
    (published : List Nat) : Prop :=
  ∀ target, readMeta objects algo tip target =
    match lastNote jobs published target with
    | some note => .ok (some note)
    | none => readMeta start.objects algo start.tip target

/-- Notes that can be looked up. -/
def Reads (algo : HashAlgo) (objects : Objects) (tip : Option ObjectId) : Prop :=
  ∀ p ∈ tip, NotesAt objects algo p

/-- What a process has done so far. -/
def StageAt (P : Prims) (algo : HashAlgo) (objects : Objects) (job : Job) : Stage → Prop
  | .read tip => Reads algo objects tip
  | .built tip news => Reads algo objects tip ∧ job.note.Plain ∧
    ∃ signature, SigReads signature ∧ store P algo objects tip job.target job.note signature = .ok news
  | .flushed tip new => Reads algo objects tip ∧ NotesAt objects algo new ∧
    find objects algo new job.target = .ok (some job.note) ∧
    ∀ other ≠ job.target, find objects algo new other = readMeta objects algo tip other
  | _ => True

/-- The notes ref shows the notes of all that are done. -/
structure Kept (start : Start P algo) (jobs : Nat → Job) (w : World) : Prop where
  tip : ∃ tip, w.refs[notesRef]? = tip.map .oid ∧ Reads algo w.objects tip ∧
    Shows start jobs w.objects tip w.published
  stage : ∀ pid, StageAt P algo w.objects (jobs pid) (w.stage pid)
  done : ∀ pid, w.stage pid = .done ↔ pid ∈ w.published

variable {start : Start P algo} {objects objects' : Objects} {tip : Option ObjectId} {w : World}

theorem Reads.grown (h : Reads algo objects tip) (hgrow : Within objects objects') : Reads algo objects' tip :=
  fun p hp => (h p hp).grown hgrow

theorem Reads.exists_readMeta (h : Reads algo objects tip) (target : ObjectId) :
    ∃ note, readMeta objects algo tip target = .ok note := by
  cases tip with
  | none => exact ⟨none, rfl⟩
  | some p => exact (h p rfl).find target

theorem Reads.readMeta_grown (h : Reads algo objects tip) (hgrow : Within objects objects') (target : ObjectId) :
    readMeta objects' algo tip target = readMeta objects algo tip target := by
  obtain ⟨note, hnote⟩ := h.exists_readMeta target
  rw [hnote]
  exact Notes.readMeta_grown hgrow hnote

theorem store_grown {target : ObjectId} {note : Meta} {signature : Text} {news : List NewObject}
    (h : store P algo objects tip target note signature = .ok news) (hgrow : Within objects objects') :
    store P algo objects' tip target note signature = .ok news := by
  obtain ⟨root, hroot, h⟩ := bind_eq_ok h
  obtain ⟨sub, hsub, h⟩ := bind_eq_ok h
  have hsub' : subTree objects' algo (retain root (hexName target)) (fanName target) = .ok sub :=
    subTree_grown hgrow hsub
  rw [store, parentTree_grown hgrow hroot]
  dsimp only [bind, Except.bind]
  rw [hsub']
  exact h

theorem StageAt.grown {job : Job} {stage : Stage} (h : StageAt P algo objects job stage)
    (hgrow : Within objects objects') : StageAt P algo objects' job stage := by
  cases stage with
  | start => trivial
  | read tip => exact Reads.grown h hgrow
  | built tip news =>
    obtain ⟨hreads, hplain, signature, hsig, hstore⟩ := h
    exact ⟨hreads.grown hgrow, hplain, signature, hsig, store_grown hstore hgrow⟩
  | flushed tip new =>
    obtain ⟨hreads, hnew, hself, hothers⟩ := h
    refine ⟨hreads.grown hgrow, hnew.grown hgrow, find_grown hgrow hself, fun other hne => ?_⟩
    obtain ⟨note, hnote⟩ := hnew.find other
    rw [hreads.readMeta_grown hgrow, ← hothers other hne, hnote]
    exact find_grown hgrow hnote
  | done => trivial
  | failed => trivial

/-- More objects change nothing. -/
theorem Kept.grown (h : Kept start jobs w) (hgrow : Within w.objects objects) :
    Kept start jobs { w with objects } where
  tip := by
    obtain ⟨tip, href, hreads, hshows⟩ := h.tip
    refine ⟨tip, href, hreads.grown hgrow, fun target => ?_⟩
    rw [hreads.readMeta_grown hgrow]
    exact hshows target
  stage pid := (h.stage pid).grown hgrow
  done := h.done

/-- A process that is not done goes on. -/
theorem Kept.setStage (h : Kept start jobs w) {pid : Nat} {stage : Stage}
    (hstage : StageAt P algo w.objects (jobs pid) stage) (hold : w.stage pid ≠ .done) (hnew : stage ≠ .done) :
    Kept start jobs (w.setStage pid stage) where
  tip := h.tip
  stage pid' := by
    by_cases heq : pid' = pid
    · rw [heq, World.stage_setStage_self]
      exact hstage
    · rw [World.stage_setStage_ne heq]
      exact h.stage pid'
  done pid' := by
    by_cases heq : pid' = pid
    · rw [heq, World.stage_setStage_self]
      exact iff_of_false hnew fun hmem => hold ((h.done pid).mpr hmem)
    · rw [World.stage_setStage_ne heq]
      exact h.done pid'

/-- The transaction goes through only on the tip that the note was built on. -/
theorem Kept.publish (h : Kept start jobs w) {pid : Nat} {new : ObjectId} {refs : RefMap}
    (hstage : w.stage pid = .flushed tip new)
    (happly : applyChanges w.refs ((jobs pid).transaction tip new) false = .ok refs) :
    Kept start jobs ({ w with refs, published := pid :: w.published }.setStage pid .done) where
  tip := by
    obtain ⟨tip', href, hreads, hshows⟩ := h.tip
    have hat := h.stage pid
    rw [hstage] at hat
    obtain ⟨-, hnew, hself, hothers⟩ := hat
    have hold : w.refs[notesRef]? = tip.map .oid :=
      old_of_applyChanges happly ⟨notesRef, tip.map .oid, some (.oid new)⟩
        (mem_append_right _ (mem_singleton_self _))
    have htip : tip = tip' := by
      rw [href] at hold
      exact (Option.map_injective (fun a b hab => RefTarget.oid.inj hab) hold).symm
    subst htip
    refine ⟨some new, ?_, fun p hp => Option.some.inj hp ▸ hnew, fun target => ?_⟩
    · dsimp only [World.setStage]
      rw [applyChanges_ok happly, Job.transaction, foldl_append, foldl_cons, foldl_nil,
        Repo.get_applyChange, if_pos rfl]
      rfl
    · dsimp only [World.setStage]
      rw [lastNote, find?_cons]
      by_cases heq : (jobs pid).target = target
      · rw [decide_eq_true heq]
        exact heq ▸ hself
      · rw [decide_eq_false heq]
        exact (hothers target (Ne.symm heq)).trans (hshows target)
  stage pid' := by
    by_cases heq : pid' = pid
    · rw [heq, World.stage_setStage_self]
      trivial
    · rw [World.stage_setStage_ne heq]
      exact h.stage pid'
  done pid' := by
    by_cases heq : pid' = pid
    · rw [heq, World.stage_setStage_self]
      exact iff_of_true rfl mem_cons_self
    · rw [World.stage_setStage_ne heq]
      exact (h.done pid').trans
        ⟨mem_cons_of_mem pid, fun hmem => (mem_cons.mp hmem).resolve_left heq⟩

theorem Kept.init : Kept start jobs (processes P algo jobs start).init where
  tip := by
    refine ⟨start.tip, start.notes, fun p hp => ?_, fun target => rfl⟩
    obtain ⟨root, hroot⟩ := start.reads p hp
    exact start.built.notesAt p hp root hroot
  stage pid := trivial
  done pid := iff_of_false (by exact nofun) not_mem_nil

theorem resolve_direct {refs : RefMap} {name : String} (h : refs[name]? = tip.map .oid) :
    resolve refs name = .ok tip := by
  rw [resolve, Repo.resolveFrom, h]
  cases tip <;> rfl

/-- **Step lemma.** -/
theorem Kept.step {a : Action} {w' : World} (h : Kept start jobs w) (hsound : Sound P algo jobs w a)
    (hstep : step P algo jobs w a = some w') : Kept start jobs w' := by
  cases a with
  | readTip pid =>
    rw [Notes.step] at hstep
    split at hstep
    case h_2 => cases hstep
    case h_1 hstage =>
      have hold : w.stage pid ≠ .done := by rw [hstage]; exact nofun
      obtain ⟨tip, href, hreads, -⟩ := h.tip
      rw [resolve_direct href] at hstep
      cases hstep
      exact h.setStage hreads hold nofun
  | build pid signature =>
    rw [Notes.step] at hstep
    split at hstep
    case h_2 => cases hstep
    case h_1 tip hstage =>
      have hold : w.stage pid ≠ .done := by rw [hstage]; exact nofun
      have hreads := h.stage pid
      rw [hstage] at hreads
      split at hstep
      case h_1 news hstore =>
        cases hstep
        exact h.setStage ⟨hreads, hsound.1, signature, hsound.2, hstore⟩ hold nofun
      case h_2 =>
        cases hstep
        exact h.setStage trivial hold nofun
  | flush pid =>
    rw [Notes.step] at hstep
    split at hstep
    case h_2 => cases hstep
    case h_1 tip news hstage =>
      have hold : w.stage pid ≠ .done := by rw [hstage]; exact nofun
      have hat := h.stage pid
      rw [hstage] at hat
      obtain ⟨hreads, hplain, signature, hsig, hstore⟩ := hat
      split at hstep
      case h_1 objects new hwrite htip =>
        cases hstep
        have hgrow := writeAll_within hwrite
        rw [Sound, hstage] at hsound
        obtain ⟨hnew, hself, hothers⟩ := find_store hreads hstore hsound hwrite htip hsig
        rw [Meta.parse_render_iff.mpr hplain] at hself
        have hothers' : ∀ other ≠ (jobs pid).target,
            find objects algo new other = readMeta objects algo tip other := by
          intro other hne
          rw [hothers other hne, hreads.readMeta_grown hgrow]
        exact (h.grown hgrow).setStage ⟨hreads.grown hgrow, hnew, hself, hothers'⟩ hold nofun
      case h_2 =>
        cases hstep
        exact h.setStage trivial hold nofun
  | publish pid =>
    rw [Notes.step] at hstep
    split at hstep
    case h_2 => cases hstep
    case h_1 tip new hstage =>
      have hold : w.stage pid ≠ .done := by rw [hstage]; exact nofun
      split at hstep
      case h_1 refs happly =>
        cases hstep
        exact h.publish hstage happly
      case h_2 e herror =>
        cases hstep
        split
        · exact h.setStage trivial hold nofun
        · exact h.setStage trivial hold nofun
  | refuse pid =>
    rw [Notes.step] at hstep
    split at hstep
    case h_1 => cases hstep
    case h_2 hold =>
      cases hstep
      exact h.setStage trivial hold nofun
  | put kind data =>
    rw [Notes.step] at hstep
    split at hstep
    case h_1 objects hput =>
      cases hstep
      exact h.grown (Repo.Objects.within_put hput)
    case h_2 => cases hstep
  | move changes =>
    rw [Notes.step] at hstep
    split at hstep
    · cases hstep
    · rename_i hapart
      split at hstep
      case h_1 refs happly =>
        cases hstep
        have hnames : ∀ c ∈ changes, c.name ≠ notesRef := by simpa using hapart
        obtain ⟨tip, href, hrest⟩ := h.tip
        refine ⟨⟨tip, ?_, hrest⟩, h.stage, h.done⟩
        dsimp only
        rw [applyChanges_ok happly, get_foldl_applyChange hnames, href]
      case h_2 => cases hstep

/-- **Run lemma.** -/
theorem kept_of_reachable (h : (processes P algo jobs start).ReachableIf (Sound P algo jobs) w) :
    Kept start jobs w :=
  System.invariant_if Kept.init (fun _ _ _ hi hs hst => hi.step hs hst) w h

/-- A process that is done, and the last one that was done for its commit. -/
theorem lastNote_of_mem {published : List Nat} {pid : Nat} (h : pid ∈ published) :
    ∃ later ∈ published, (jobs later).target = (jobs pid).target ∧
      lastNote jobs published (jobs pid).target = some (jobs later).note := by
  have hsome : (published.find? fun p => (jobs p).target = (jobs pid).target).isSome := by
    rw [find?_isSome]
    exact ⟨pid, h, by simp⟩
  obtain ⟨later, hlater⟩ := Option.isSome_iff_exists.mp hsome
  refine ⟨later, mem_of_find?_eq_some hlater, by simpa using find?_some hlater, ?_⟩
  rw [lastNote, hlater]
  rfl

end

/-! ### The two together -/

/-- **The notes are a faithful map, and none is lost.** A note that is stored is found and the others are
as they were, exactly if its text stands for it and the signature can be read.  In every run of
processes whose notes and signatures are so, the notes ref shows the last note of each commit. -/
theorem notes_kept_iff (P : Prims) (algo : HashAlgo) :
    (∀ {objects grown written : Objects} {parent : Option ObjectId} {target tip : ObjectId} {note : Meta}
      {signature : Text} {news : List NewObject}, Built P algo objects parent → Within objects grown →
      store P algo grown parent target note signature = .ok news → Apart P algo grown news →
      writeAll P algo grown news = .ok written → tipOf P algo news = some tip →
      ((find written algo tip target = .ok (some note) ∧
        ∀ other ≠ target, find written algo tip other = readMeta grown algo parent other) ↔
        note.Plain ∧ SigReads signature)) ∧
    ∀ (jobs : Nat → Job) (start : Start P algo) (w : World),
      (processes P algo jobs start).ReachableIf (Sound P algo jobs) w →
      ∃ tip, resolve w.refs notesRef = .ok tip ∧ Shows start jobs w.objects tip w.published ∧
        ∀ pid, w.stage pid = .done → ∃ later, w.stage later = .done ∧
          (jobs later).target = (jobs pid).target ∧
          readMeta w.objects algo tip (jobs pid).target = .ok (some (jobs later).note) := by
  refine ⟨note_map_iff, fun jobs start w hw => ?_⟩
  have hkept := kept_of_reachable hw
  obtain ⟨tip, href, hreads, hshows⟩ := hkept.tip
  refine ⟨tip, resolve_direct href, hshows, fun pid hdone => ?_⟩
  obtain ⟨later, hmem, htarget, hlast⟩ := lastNote_of_mem ((hkept.done pid).mp hdone)
  refine ⟨later, (hkept.done later).mpr hmem, htarget, ?_⟩
  rw [hshows, hlast]

/-! ### Two processes -/

def sampleTarget (b : UInt8) : ObjectId := .sha1 (.fill 20 b)

def sampleSignature : Text := "a <a@b> 0 +0000".toList

def sampleNote (touched : String) : Meta := ⟨[("touched".toList, touched.toList)], none⟩

/-- The objects of a first note, and the repository with them. -/
def sampleNews (touched : String) : List NewObject :=
  noteObjects Prims.toy .sha1 ⟨[]⟩ ⟨[]⟩ none (sampleTarget 1) (sampleNote touched) sampleSignature

def sampleJobs (pid : Nat) : Job :=
  ⟨[⟨"refs/heads/topic", none, some (.oid (sampleTarget 7))⟩].take pid, sampleTarget (UInt8.ofNat pid),
    sampleNote "a"⟩

def sampleStart : Start Prims.toy .sha1 where
  objects _ := none
  refs := ∅
  tip := none
  notes := rfl
  built := .empty _
  reads p hp := by cases hp

/-- Both read the tip before either moves it; the second starts over. -/
def sampleRun : List Action :=
  [.readTip 0, .readTip 1, .build 0 sampleSignature, .build 1 sampleSignature, .flush 0, .flush 1, .publish 0,
    .publish 1, .readTip 1, .build 1 sampleSignature, .flush 1, .publish 1]

theorem store_sampleNews (touched : String) :
    store Prims.toy .sha1 (fun _ => none) none (sampleTarget 1) (sampleNote touched) sampleSignature =
      .ok (sampleNews touched) := rfl

theorem notes_kept_iff_sample :
    (∃ written tip, writeAll Prims.toy .sha1 (fun _ => none) (sampleNews "a") = .ok written ∧
      find written .sha1 tip (sampleTarget 1) = .ok (some (sampleNote "a"))) ∧
    ∃ w, (processes Prims.toy .sha1 sampleJobs sampleStart).runIf (Sound Prims.toy .sha1 sampleJobs)
        (processes Prims.toy .sha1 sampleJobs sampleStart).init sampleRun = some w ∧
      w.published = [1, 0] ∧ ∃ tip, resolve w.refs notesRef = .ok tip ∧
        Shows sampleStart sampleJobs w.objects tip w.published := by
  obtain ⟨hmap, hruns⟩ := notes_kept_iff Prims.toy .sha1
  constructor
  · have hsome : (writeAll Prims.toy .sha1 (fun _ => none) (sampleNews "a")).toOption.isSome = true := by
      decide +kernel
    cases hwrite : writeAll Prims.toy .sha1 (fun _ => none) (sampleNews "a") with
    | error e =>
      rw [hwrite] at hsome
      cases hsome
    | ok written =>
      have hapart : Apart Prims.toy .sha1 (fun _ => none) (sampleNews "a") := by decide +kernel
      have hlaw := hmap (.empty _) (Within.refl _) (store_sampleNews "a") hapart hwrite rfl
      exact ⟨written, _, rfl, (hlaw.mpr ⟨by decide +kernel, by decide +kernel⟩).1⟩
  · have heval : ((processes Prims.toy .sha1 sampleJobs sampleStart).runIf (Sound Prims.toy .sha1 sampleJobs)
        (processes Prims.toy .sha1 sampleJobs sampleStart).init sampleRun).map (·.published) = some [1, 0] := by
      decide +kernel
    obtain ⟨w, hrun, hpublished⟩ := Option.map_eq_some_iff.mp heval
    obtain ⟨tip, href, hshows, -⟩ := hruns sampleJobs sampleStart w (System.ReachableIf.runIf .init hrun)
    exact ⟨w, hrun, hpublished, tip, href, hshows⟩

/-- A path with a line feed in it ends the field there. -/
theorem note_is_cut :
    ∃ written tip, store Prims.toy .sha1 (fun _ => none) none (sampleTarget 1) (sampleNote "a\nb") sampleSignature =
        .ok (sampleNews "a\nb") ∧
      Apart Prims.toy .sha1 (fun _ => none) (sampleNews "a\nb") ∧
      writeAll Prims.toy .sha1 (fun _ => none) (sampleNews "a\nb") = .ok written ∧
      tipOf Prims.toy .sha1 (sampleNews "a\nb") = some tip ∧
      find written .sha1 tip (sampleTarget 1) = .ok (some (sampleNote "a")) ∧
      sampleNote "a" ≠ sampleNote "a\nb" := by
  have heval : ((writeAll Prims.toy .sha1 (fun _ => none) (sampleNews "a\nb")).toOption.bind fun written =>
      (tipOf Prims.toy .sha1 (sampleNews "a\nb")).map fun tip =>
        decide (find written .sha1 tip (sampleTarget 1) = .ok (some (sampleNote "a")))) = some true := by
    decide +kernel
  cases hwrite : writeAll Prims.toy .sha1 (fun _ => none) (sampleNews "a\nb") with
  | error e =>
    rw [hwrite] at heval
    cases heval
  | ok written =>
    rw [hwrite, Except.toOption, Option.bind_some] at heval
    obtain ⟨tip, htip, hfind⟩ := Option.map_eq_some_iff.mp heval
    exact ⟨written, tip, rfl, by decide +kernel, rfl, htip, of_decide_eq_true hfind, by decide +kernel⟩

end Alt.Notes
