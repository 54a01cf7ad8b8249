import Alt.Library.Bytes
import Mathlib.Data.List.Nodup

namespace Alt

open Alt.Library List

/-!
# Prisms (`alt-prism`)

A prism cuts a file of its format into parts and a recipe that puts them together again.  A
decomposition is accepted only when it recomposes to the very input (`decomposeVerified`),
so nothing here depends on what a prism does: the three of the repository are parameters
(`Prisms`), and `recompose_accepted` holds for any.
-/

/-- The parts of a file, and how they are put together. -/
structure Decomposition where
  recipe : Bytes
  parts : List Bytes
  deriving DecidableEq

/-- What a prism does.  Recipe and parts fit the `u32` fields of a Tier 1 record: the prisms
    decline inputs over 2 GiB, or have one part and one byte of recipe. -/
structure PrismCodec where
  decompose : Bytes → Option Decomposition
  recompose : Bytes → List Bytes → Option Bytes
  fits : ∀ input d, decompose input = some d → d.recipe.length < 2 ^ 32 ∧ d.parts.length < 2 ^ 32

/-- A prism under its stable id. -/
structure Prism where
  id : UInt16
  codec : PrismCodec

/-- The prisms tried at ingest, in priority order. -/
abbrev Registry := List Prism

/-- An accepted decomposition. -/
structure Tier1 where
  prism : UInt16
  decomposition : Decomposition
  deriving DecidableEq

namespace Registry

/-- The first prism whose decomposition recomposes to the input. -/
def decomposeVerified : Registry → Bytes → Option Tier1
  | [], _ => none
  | prism :: prisms, input =>
    match prism.codec.decompose input with
    | none => decomposeVerified prisms input
    | some decomposition =>
      if prism.codec.recompose decomposition.recipe decomposition.parts = some input then
        some ⟨prism.id, decomposition⟩
      else decomposeVerified prisms input

/-- Look the prism up and rebuild the bytes. -/
def recompose (prisms : Registry) (prism : UInt16) (recipe : Bytes) (parts : List Bytes) :
    Option Bytes :=
  (prisms.find? fun p => p.id = prism).bind fun p => p.codec.recompose recipe parts

variable {prisms : Registry} {input : Bytes} {t1 : Tier1}

theorem exists_of_accepted (h : decomposeVerified prisms input = some t1) :
    ∃ p ∈ prisms, p.id = t1.prism ∧ p.codec.decompose input = some t1.decomposition ∧
      p.codec.recompose t1.decomposition.recipe t1.decomposition.parts = some input := by
  induction prisms with
  | nil => cases h
  | cons prism prisms ih =>
    have hrest : decomposeVerified prisms input = some t1 →
        ∃ p ∈ prism :: prisms, p.id = t1.prism ∧ p.codec.decompose input = some t1.decomposition ∧
          p.codec.recompose t1.decomposition.recipe t1.decomposition.parts = some input := by
      intro h
      obtain ⟨p, hp, hfacts⟩ := ih h
      exact ⟨p, mem_cons_of_mem _ hp, hfacts⟩
    rw [decomposeVerified] at h
    cases hdec : prism.codec.decompose input with
    | none => exact hrest (by rw [hdec] at h; exact h)
    | some decomposition =>
      rw [hdec] at h
      dsimp only at h
      split at h
      · rename_i hround
        cases h
        exact ⟨prism, mem_cons_self, rfl, hdec, hround⟩
      · exact hrest h

theorem find_of_mem (hids : (prisms.map Prism.id).Nodup) {p : Prism} (hp : p ∈ prisms) :
    (prisms.find? fun q => q.id = p.id) = some p := by
  induction prisms with
  | nil => cases hp
  | cons q prisms ih =>
    rw [map_cons, nodup_cons] at hids
    rcases mem_cons.mp hp with rfl | hp
    · exact find?_cons_of_pos (decide_eq_true rfl)
    · have hne : q.id ≠ p.id := fun heq => hids.1 (heq ▸ mem_map_of_mem hp)
      rw [find?_cons_of_neg (by simpa using hne)]
      exact ih hids.2 hp

/-- **What was accepted is rebuilt**, when no two prisms share an id. -/
theorem recompose_accepted (hids : (prisms.map Prism.id).Nodup)
    (h : decomposeVerified prisms input = some t1) :
    recompose prisms t1.prism t1.decomposition.recipe t1.decomposition.parts = some input := by
  obtain ⟨p, hp, hid, -, hround⟩ := exists_of_accepted h
  rw [recompose, ← hid, find_of_mem hids hp, Option.bind_some]
  exact hround

theorem fits_accepted (h : decomposeVerified prisms input = some t1) :
    t1.decomposition.recipe.length < 2 ^ 32 ∧ t1.decomposition.parts.length < 2 ^ 32 := by
  obtain ⟨p, -, -, hdec, -⟩ := exists_of_accepted h
  exact p.codec.fits input t1.decomposition hdec

end Registry

/-- The repository's prisms. -/
structure Prisms where
  zip : PrismCodec
  png : PrismCodec
  deflate : PrismCodec

/-- The production set, hot formats first (`alt_odb::default_registry`). -/
def defaultRegistry (X : Prisms) : Registry := [⟨2, X.zip⟩, ⟨3, X.png⟩, ⟨1, X.deflate⟩]

theorem nodup_defaultRegistry (X : Prisms) : ((defaultRegistry X).map Prism.id).Nodup := by
  have hids : (defaultRegistry X).map Prism.id = [2, 3, 1] := rfl
  rw [hids]
  decide

end Alt
