import Alt.Notes.Derive
import Alt.Repo.Workspace

namespace Alt.Notes

open Alt.Library List
open Alt.Repo (WorkEntry)
open Alt.Server (Identity)

/-!
# Notes that are derived, carried over and set

The notes of a repository as it is worked on: commits are recorded, some of them in the place of
others, and their notes are set.  Each note is made from what is read of the ones there before.

* `noteOf`, `noteTexts` — the note of one event, and the texts that a list of events leaves;
* `Standing` — every text reads as a note that it stands for;
* `notes_survive_iff` — when every note that is written is read back.
-/

/-! ### Events -/

section

variable {κ : Type} [DecidableEq κ]

inductive NoteEvent (κ : Type)
  /-- A commit is recorded; `carryFrom` is the one it replaces. -/
  | commit (target : κ) (id : Identity) (message : Text) (before after : List WorkEntry)
      (decisions : List Text) (extra : List (Text × Text)) (carryFrom : Option κ)
  /-- `alt meta set`. -/
  | set (target : κ) (message : Option Text) (decisions : List Text) (extra : List (Text × Text))

def NoteEvent.target : NoteEvent κ → κ
  | .commit target .. => target
  | .set target .. => target

/-- The text of the note on each commit. -/
abbrev NoteTexts (κ : Type) := κ → Option Text

/-- The note an event writes. -/
def noteOf (notes : NoteTexts κ) : NoteEvent κ → Except MetaError Meta
  | .commit _ id message before after decisions extra carryFrom =>
    metaFor id message before after decisions extra ((carryFrom.bind notes).map Meta.parse)
  | .set target message decisions extra =>
    metaSet ((notes target).map Meta.parse) message decisions extra

/-- An event that is refused writes nothing. -/
def writeNote (notes : NoteTexts κ) (e : NoteEvent κ) : NoteTexts κ :=
  match noteOf notes e with
  | .ok note => Function.update notes e.target (some note.render)
  | .error _ => notes

/-- The texts that are there after some events. -/
def noteTexts (events : List (NoteEvent κ)) : NoteTexts κ := events.foldl writeNote fun _ => none

/-- What the strings of an event have to be like, where these notes are there. -/
def EventFits (notes : NoteTexts κ) : NoteEvent κ → Prop
  | .commit _ id message before after decisions extra carryFrom =>
    CommitFits message (factsOf id before after) decisions extra
      ((carryFrom.bind notes).map Meta.parse)
  | .set target message decisions extra =>
    SetFits ((notes target).map Meta.parse) message decisions extra

/-- Every text reads as a note that it stands for. -/
def Standing (notes : NoteTexts κ) : Prop := ∀ c, ∀ text ∈ notes c, (Meta.parse text).Plain

/-! ### One event -/

variable {notes : NoteTexts κ} {e : NoteEvent κ} {note : Meta}

omit [DecidableEq κ] in
theorem noteOf_plain_iff (hstands : Standing notes) (h : noteOf notes e = .ok note) :
    note.Plain ↔ EventFits notes e := by
  cases e with
  | commit target id message before after decisions extra carryFrom =>
    refine metaFor_plain_iff (fun source hsource => ?_) h
    obtain ⟨text, htext, rfl⟩ := Option.map_eq_some_iff.mp hsource
    obtain ⟨c, -, hc⟩ := Option.bind_eq_some_iff.mp htext
    exact hstands c text hc
  | set target message decisions extra =>
    refine metaSet_plain_iff (fun source hsource => ?_) h
    obtain ⟨text, htext, rfl⟩ := Option.map_eq_some_iff.mp hsource
    exact hstands target text htext

/-- Writing a note that its text stands for. -/
theorem Standing.write (hstands : Standing notes) (h : ∀ note, noteOf notes e = .ok note → note.Plain) :
    Standing (writeNote notes e) := by
  rw [writeNote]
  cases hnote : noteOf notes e with
  | error err => exact hstands
  | ok note =>
    intro c text htext
    dsimp only at htext
    by_cases hc : c = e.target
    · rw [hc, Function.update_self] at htext
      obtain rfl := Option.some.inj htext
      have hplain := h note hnote
      rwa [Meta.parse_render_iff.mpr hplain]
    · rw [Function.update_of_ne hc] at htext
      exact hstands c text htext

/-! ### Lists of events -/

/-- What one event keeps, a list of them keeps. -/
theorem standing_noteTexts {events : List (NoteEvent κ)}
    (h : ∀ front e back, events = front ++ e :: back → Standing (noteTexts front) →
      ∀ note, noteOf (noteTexts front) e = .ok note → note.Plain) : Standing (noteTexts events) := by
  induction events using List.reverseRecOn with
  | nil => exact fun c text htext => by cases htext
  | append_singleton events e ih =>
    have hstands : Standing (noteTexts events) := ih fun front e' back heq =>
      h front e' (back ++ [e]) (by rw [heq, append_assoc, cons_append])
    have htexts : noteTexts (events ++ [e]) = writeNote (noteTexts events) e := by
      rw [noteTexts, foldl_append]
      rfl
    rw [htexts]
    exact hstands.write (h events e [] rfl hstands)

/-- **When every note survives.** However commits are recorded, replaced and noted, each note that is
    written is read back as it was written exactly if the strings of each event fit. -/
theorem notes_survive_iff (events : List (NoteEvent κ)) :
    (∀ front e back, events = front ++ e :: back → ∀ note, noteOf (noteTexts front) e = .ok note →
      Meta.parse note.render = note) ↔
    ∀ front e back, events = front ++ e :: back → (noteOf (noteTexts front) e).isOk = true →
      EventFits (noteTexts front) e := by
  constructor
  · intro hsurvive front e back heq hok
    have hstands : Standing (noteTexts front) := standing_noteTexts fun front' e' back' heq' _ note hnote =>
      Meta.parse_render_iff.mp (hsurvive front' e' (back' ++ e :: back)
        (by rw [heq, heq', append_assoc, cons_append]) note hnote)
    cases hnote : noteOf (noteTexts front) e with
    | error err =>
      rw [hnote] at hok
      cases hok
    | ok note =>
      exact (noteOf_plain_iff hstands hnote).mp
        (Meta.parse_render_iff.mp (hsurvive front e back heq note hnote))
  · intro hfits front e back heq note hnote
    have hstep : ∀ front e back, events = front ++ e :: back → Standing (noteTexts front) →
        ∀ note, noteOf (noteTexts front) e = .ok note → note.Plain := by
      intro front e back heq hstands note hnote
      exact (noteOf_plain_iff hstands hnote).mpr (hfits front e back heq (by rw [hnote]; rfl))
    have hstands : Standing (noteTexts front) := standing_noteTexts fun front' e' back' heq' =>
      hstep front' e' (back' ++ e :: back) (by rw [heq, heq', append_assoc, cons_append])
    exact Meta.parse_render_iff.mpr (hstep front e back heq hstands note hnote)

end

/-! ### A path of two lines -/

/-- A file whose name holds a line end. -/
def twoLines : WorkEntry := ⟨utf8 "a\ndecision: forged", Repo.toyId .blob [], 0o100644⟩

/-- A commit that adds it. -/
def addsTwoLines : NoteEvent Nat :=
  .commit 0 (Identity.fromLookup fun _ => none) (text "add a file\n") [] [twoLines] [] [] none

/-- Whether the note has the forged decision, whether what is read of it has, and whether the two are
    one. -/
def forgery (note : Meta) : Bool × Bool × Bool :=
  let field := (text "decision", text "forged")
  (note.fields.contains field, (Meta.parse note.render).fields.contains field,
    decide (Meta.parse note.render = note))

/-- **A path forges a field.** -/
theorem path_forges_decision :
    (noteOf (noteTexts []) addsTwoLines).toOption.map forgery = some (false, true, false) ∧
    ¬∀ front e back, [addsTwoLines] = front ++ e :: back → ∀ note,
      noteOf (noteTexts front) e = .ok note → Meta.parse note.render = note := by
  have hforged : (noteOf (noteTexts []) addsTwoLines).toOption.map forgery =
      some (false, true, false) := by decide +kernel
  refine ⟨hforged, fun hsurvive => ?_⟩
  cases hnote : noteOf (noteTexts []) addsTwoLines with
  | error e =>
    rw [hnote] at hforged
    cases hforged
  | ok note =>
    rw [hnote] at hforged
    have hne : decide (Meta.parse note.render = note) = false :=
      congrArg (fun r => r.2.2) (Option.some.inj hforged)
    exact of_decide_eq_false hne (hsurvive [] addsTwoLines [] rfl note hnote)

end Alt.Notes
