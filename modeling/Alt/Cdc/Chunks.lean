import Alt.Library.Bytes

namespace Alt.Cdc

open Alt.Library List

/-!
# Content-defined chunking (`alt-cdc`)

FastCDC: a gear hash rolls over the bytes behind the minimum size, and a chunk is cut where
its high bits are zero, tested with a stricter mask before the average size than behind it.

What the stores rely on is that the chunks are the data, cut into pieces (`flatten_chunks`).
-/

/-- Chunking bounds, as `validate` asserts them. -/
structure Params where
  min : Nat
  avg : Nat
  max : Nat
  min_ge : 64 ≤ min
  min_lt : min < avg
  avg_lt : avg < max
  avg_pow : 2 ^ Nat.log2 avg = avg
  deriving DecidableEq

def defaultParams : Params where
  min := 16 * 1024
  avg := 64 * 1024
  max := 256 * 1024
  min_ge := by decide
  min_lt := by decide
  avg_lt := by decide
  avg_pow := by decide

namespace Params

/-- Mask with `bits` high bits set; from 65 on the shift wraps around. -/
def mask (bits : Nat) : UInt64 := UInt64.ofNat (2 ^ 64 - 1) <<< (64 - UInt64.ofNat bits)

/-- The trailing zeros of a power of two. -/
def avgBits (p : Params) : Nat := Nat.log2 p.avg

/-- Stricter mask before the average point. -/
def maskStrict (p : Params) : UInt64 := mask (p.avgBits + 2)

/-- Laxer mask after the average point. -/
def maskLax (p : Params) : UInt64 := mask (p.avgBits - 2)

end Params

def gearSeed : UInt64 := 0x616c745f63646331

/-- The gear table: splitmix64 from the frozen seed. -/
def gear (b : UInt8) : UInt64 :=
  let z := gearSeed + (UInt64.ofNat b.toNat + 1) * 0x9e3779b97f4a7c15
  let z := (z ^^^ (z >>> 30)) * 0xbf58476d1ce4e5b9
  let z := (z ^^^ (z >>> 27)) * 0x94d049bb133111eb
  z ^^^ (z >>> 31)

/-- Roll the hash over `window`, which starts at `i`, to the first byte behind which `mask`
    cuts; without a cut, the hash at the end. -/
def roll (mask : UInt64) : UInt64 → Nat → Bytes → Nat ⊕ UInt64
  | fp, _, [] => .inr fp
  | fp, i, b :: window =>
    let fp := (fp <<< 1) + gear b
    if fp &&& mask = 0 then .inl (i + 1) else roll mask fp (i + 1) window

/-- The length of the next chunk at the start of `data`. -/
def nextCut (p : Params) (data : Bytes) : Nat :=
  if data.length ≤ p.min then data.length
  else
    let cap := Nat.min data.length p.max
    let normal := Nat.min p.avg cap
    match roll p.maskStrict 0 p.min ((data.take normal).drop p.min) with
    | .inl cut => cut
    | .inr fp =>
      match roll p.maskLax fp normal ((data.take cap).drop normal) with
      | .inl cut => cut
      | .inr _ => cap

/-- Cut until nothing is left; every cut takes at least one byte. -/
def cutAll (p : Params) : Nat → Bytes → List Bytes
  | 0, _ => []
  | _ + 1, [] => []
  | fuel + 1, b :: rest =>
    let cut := nextCut p (b :: rest)
    (b :: rest).take cut :: cutAll p fuel ((b :: rest).drop cut)

/-- The chunk slices of `data`. -/
def chunks (p : Params) (data : Bytes) : List Bytes := cutAll p data.length data

theorem roll_bounds {mask fp : UInt64} {i cut : Nat} {window : Bytes}
    (h : roll mask fp i window = .inl cut) : i < cut ∧ cut ≤ i + window.length := by
  induction window generalizing fp i with
  | nil => cases h
  | cons b window ih =>
    rw [roll] at h
    split at h
    · cases h
      exact ⟨Nat.lt_succ_self i, by rw [length_cons]; omega⟩
    · obtain ⟨hlt, hle⟩ := ih h
      exact ⟨by omega, by rw [length_cons]; omega⟩

variable (p : Params) {data : Bytes}

/-- A cut is behind the first byte and within the data. -/
theorem nextCut_bounds (h : data ≠ []) :
    0 < nextCut p data ∧ nextCut p data ≤ data.length := by
  have hpos : 0 < data.length := length_pos_iff.mpr h
  have hmin := p.min_ge
  have hlt := p.min_lt
  have hlt' := p.avg_lt
  unfold nextCut
  split
  · exact ⟨hpos, le_rfl⟩
  · rename_i hlong
    dsimp only
    have hcap : p.min < Nat.min data.length p.max := Nat.lt_min.mpr ⟨by omega, by omega⟩
    have hcap' : Nat.min data.length p.max ≤ data.length := Nat.min_le_left _ _
    have hnormal : Nat.min p.avg (Nat.min data.length p.max) ≤ Nat.min data.length p.max :=
      Nat.min_le_right _ _
    generalize Nat.min data.length p.max = cap at hcap hcap' hnormal ⊢
    have hle : p.min < Nat.min p.avg cap := Nat.lt_min.mpr ⟨hlt, hcap⟩
    generalize Nat.min p.avg cap = normal at hnormal hle ⊢
    split
    · rename_i cut hroll
      obtain ⟨hbelow, habove⟩ := roll_bounds hroll
      rw [length_drop, length_take_of_le (hnormal.trans hcap')] at habove
      omega
    · split
      · rename_i cut hroll
        obtain ⟨hbelow, habove⟩ := roll_bounds hroll
        rw [length_drop, length_take_of_le hcap'] at habove
        omega
      · omega

/-- Data up to the minimum size is one chunk, or none when there is none. -/
theorem length_chunks_le_one (h : data.length ≤ p.min) :
    (chunks p data).length ≤ 1 := by
  cases data with
  | nil => exact Nat.zero_le _
  | cons b rest =>
    have hcut : nextCut p (b :: rest) = (b :: rest).length := if_pos h
    have hnil : ∀ fuel, cutAll p fuel [] = [] := fun fuel => by cases fuel <;> rfl
    rw [chunks, length_cons, cutAll, hcut, drop_length, hnil]
    exact le_rfl

theorem flatten_cutAll {fuel : Nat} (h : data.length ≤ fuel) :
    (cutAll p fuel data).flatten = data := by
  induction fuel generalizing data with
  | zero =>
    rw [length_eq_zero_iff.mp (Nat.le_zero.mp h)]
    rfl
  | succ fuel ih =>
    cases data with
    | nil => rfl
    | cons b rest =>
      have hcut := nextCut_bounds p (cons_ne_nil b rest)
      have hrest : ((b :: rest).drop (nextCut p (b :: rest))).length ≤ fuel := by
        rw [length_drop]
        omega
      rw [cutAll, flatten_cons, ih hrest, take_append_drop]

/-- **Chunking loses nothing.** The chunks of the data, put together, are the data. -/
theorem flatten_chunks (data : Bytes) : (chunks p data).flatten = data :=
  flatten_cutAll p le_rfl

end Alt.Cdc
