import Alt.Library.Attempt

namespace Alt.Prism

open Alt.Library Attempt List

/-!
# What the container prisms share (`alt-prism-zip`, `alt-prism-png`)

Both cut their file into an envelope and compressed bodies, look for the level at which the library
reproduces a body, and end their recipe with the envelope.  The deflate library is a parameter.
-/

/-- The deflate library: flate2 reads, C libz writes. -/
structure Zlib where
  /-- `DeflateDecoder::new(input).take(limit).read_to_end`; nothing on a malformed stream. -/
  readDeflate : Bytes → Nat → Option Bytes
  /-- `ZlibDecoder::new(input).take(limit).read_to_end`. -/
  readZlib : Bytes → Nat → Option Bytes
  /-- `deflateInit2_` with a window of −15, then `deflate` to its end. -/
  deflateRaw : Bytes → Nat → Option Bytes
  compress2 : Bytes → Nat → Option Bytes

/-- A library that compresses nothing, for evaluating concrete runs. -/
def Zlib.toy : Zlib where
  readDeflate input limit := some (input.take limit)
  readZlib input limit := some (input.take limit)
  deflateRaw data _ := some data
  compress2 data _ := some data

/-- What is read, unless there is more than `max` of it. -/
def bounded (read : Bytes → Nat → Option Bytes) (input : Bytes) (max : Nat) : Option Bytes :=
  (read input (max + 1)).filter fun out => out.length ≤ max

/-- `raw_inflate`: no bytes are inflated to none. -/
def rawInflate (Z : Zlib) (input : Bytes) (max : Nat) : Option Bytes :=
  if input = [] then some [] else bounded Z.readDeflate input max

/-- `zlib_inflate`: a zlib stream is never empty. -/
def zlibInflate (Z : Zlib) (input : Bytes) (max : Nat) : Option Bytes :=
  if input = [] then none else bounded Z.readZlib input max

def rawDeflate (Z : Zlib) (data : Bytes) (level : Nat) : Option Bytes :=
  if 9 < level then none else Z.deflateRaw data level

def zlibDeflate (Z : Zlib) (data : Bytes) (level : Nat) : Option Bytes :=
  if 9 < level then none else Z.compress2 data level

/-- The first level of the grid that reproduces the body. -/
def matchedLevel (deflate : Nat → Option Bytes) (body : Bytes) (grid : List Nat) : Option UInt8 :=
  (grid.find? fun level => deflate level = some body).map UInt8.ofNat

theorem length_of_bounded {read : Bytes → Nat → Option Bytes} {input out : Bytes} {max : Nat}
    (h : bounded read input max = some out) : out.length ≤ max := by
  obtain ⟨-, hle⟩ := Option.filter_eq_some_iff.mp h
  exact of_decide_eq_true hle

/-- The matched level reproduces the body. -/
theorem deflate_matchedLevel {deflate : Nat → Option Bytes} {body : Bytes} {grid : List Nat} {level : UInt8}
    (hgrid : ∀ l ∈ grid, l < 256) (h : matchedLevel deflate body grid = some level) :
    level.toNat ∈ grid ∧ deflate level.toNat = some body := by
  obtain ⟨l, hfind, hlevel⟩ := Option.map_eq_some_iff.mp h
  have hmem := mem_of_find?_eq_some hfind
  have hnat : level.toNat = l := by
    rw [← hlevel, UInt8.toNat_ofNat', Nat.mod_eq_of_lt (hgrid l hmem)]
  have hsome := find?_some hfind
  rw [hnat]
  exact ⟨hmem, of_decide_eq_true hsome⟩

/-! ### The end of a recipe -/

/-- The length of the last segment, the length of the envelope, the envelope. -/
def encodeTail (segAfterLen : UInt32) (envelope : Bytes) : Bytes :=
  leBytes 4 segAfterLen.toNat ++ (leBytes 4 envelope.length ++ envelope)

def decodeTail (recipe : Bytes) (at_ : Nat) : Attempt (UInt32 × Bytes) := do
  declineIf (recipe.length < at_ + 8)
  let segAfterLen ← u32At recipe at_
  let envLen ← u32At recipe (at_ + 4)
  declineIf (at_ + 8 + envLen.toNat ≠ recipe.length)
  let envelope ← cut recipe (at_ + 8) (at_ + 8 + envLen.toNat)
  return (segAfterLen, envelope)

theorem decodeTail_append {p envelope : Bytes} (segAfterLen : UInt32) {i : Nat} (hi : p.length = i)
    (henvelope : envelope.length < 2 ^ 32) :
    decodeTail (p ++ encodeTail segAfterLen envelope) i = .ok (segAfterLen, envelope) := by
  have henv : (UInt32.ofNat envelope.length).toNat = envelope.length := by
    rw [UInt32.toNat_ofNat', Nat.mod_eq_of_lt henvelope]
  have hlength : (p ++ encodeTail segAfterLen envelope).length = i + 8 + envelope.length := by
    simp only [encodeTail, length_append, length_leBytes]
    omega
  have hseg : u32At (p ++ encodeTail segAfterLen envelope) i = .ok segAfterLen :=
    u32At_append segAfterLen hi
  have henvLen : u32At (p ++ encodeTail segAfterLen envelope) (i + 4) =
      .ok (UInt32.ofNat envelope.length) := by
    have hfield := u32At_append (p := p ++ leBytes 4 segAfterLen.toNat) (q := envelope)
      (i := i + 4) (UInt32.ofNat envelope.length) (by rw [length_append, length_leBytes, hi])
    rwa [henv, append_assoc] at hfield
  have hcut : cut (p ++ encodeTail segAfterLen envelope) (i + 8) (i + 8 + envelope.length) =
      .ok envelope := by
    have hmiddle := cut_append (q := ([] : Bytes)) (m := envelope) (j := i + 8 + envelope.length)
      (p := p ++ (leBytes 4 segAfterLen.toNat ++ leBytes 4 envelope.length)) (i := i + 8)
      (by simp only [length_append, length_leBytes]; omega) rfl
    simpa only [encodeTail, append_nil, append_assoc] using hmiddle
  rw [decodeTail, declineIf_of_not (by omega), ok_bind, hseg, ok_bind, henvLen, ok_bind, henv,
    declineIf_of_not (by omega), ok_bind, hcut]
  rfl

end Alt.Prism
