import Mathlib.Data.Int.Log
import Mathlib.Data.Nat.Prime.Basic
import Mathlib.Data.Rat.Floor

namespace Alt.Library.Binary64

open List

/-!
# Library — decimal numbers and binary64

A number is written in decimal and kept as the nearest binary64 value, ties to the even one; it is printed
with as few digits as still name that value.

* `Decimal`, `parseDecimal` — the decimal that a text writes;
* `nearest` — the value kept of a number;
* `shortest`, `Decimal.plain` — the digits that are printed, and how;
* `nearest_of_nearest` — a value is kept as it is; `parseDecimal_plain`, `nearest_shortest` — what is printed
  of it names it.
-/

/-! ### Decimals -/

/-- Digits as one number, and a power of ten. -/
structure Decimal where
  negative : Bool
  digits : Nat
  exponent : Int
  deriving DecidableEq, Repr

/-- The number it writes. -/
def Decimal.value (d : Decimal) : ℚ := (if d.negative then -1 else 1) * d.digits * (10 : ℚ) ^ d.exponent

/-- The number that digits write. -/
def natOf (s : List Char) : Nat := Nat.ofDigitChars 10 s 0

def splitSign : List Char → Bool × List Char
  | '-' :: s => (true, s)
  | '+' :: s => (false, s)
  | s => (false, s)

/-- `e` or `E`, a sign and digits, or nothing. -/
def parseExponent : List Char → Option Int
  | [] => some 0
  | c :: s =>
    let (negative, digits) := splitSign s
    if (c = 'e' ∨ c = 'E') ∧ digits ≠ [] ∧ digits.all Char.isDigit then
      some (if negative then -(natOf digits : Int) else natOf digits)
    else none

/-- A sign, digits with at most one point among or around them, and an exponent. -/
def parseDecimal (s : List Char) : Option Decimal :=
  let (negative, body) := splitSign s
  let whole := body.takeWhile Char.isDigit
  let rest := body.dropWhile Char.isDigit
  let (fraction, rest) :=
    match rest with
    | '.' :: rest => (rest.takeWhile Char.isDigit, rest.dropWhile Char.isDigit)
    | rest => ([], rest)
  if whole = [] ∧ fraction = [] then none
  else
    (parseExponent rest).map fun e => ⟨negative, natOf (whole ++ fraction), e - fraction.length⟩

/-! ### Values -/

/-- A binary64 value that is a number or an infinity. -/
inductive Value where
  | finite (v : ℚ)
  | infinite (negative : Bool)
  deriving DecidableEq, Repr

/-- The nearest integer, of two the even one. -/
def roundEven (q : ℚ) : Int :=
  if q - ⌊q⌋ < 1 / 2 then ⌊q⌋
  else if 1 / 2 < q - ⌊q⌋ then ⌊q⌋ + 1
  else if ⌊q⌋ % 2 = 0 then ⌊q⌋
  else ⌊q⌋ + 1

/-- The power of two that the value nearest to a number is a multiple of. -/
def quantum (q : ℚ) : Int := max (Int.log 2 |q| - 52) (-1074)

/-- The value kept of a number. -/
def nearest (q : ℚ) : Value :=
  let v := roundEven (q / (2 : ℚ) ^ quantum q) * (2 : ℚ) ^ quantum q
  if |v| < 2 ^ 1024 then .finite v else .infinite (decide (q < 0))

/-! ### Printing -/

/-- The decimals of `n` digits next to a number. -/
def neighbours (q : ℚ) (n : Nat) : List Decimal :=
  let e := Int.log 10 |q| + 1 - n
  let low := ⌊|q| / (10 : ℚ) ^ e⌋.toNat
  let below : Decimal := ⟨decide (q < 0), low, e⟩
  let above : Decimal := ⟨decide (q < 0), low + 1, e⟩
  if |above.value - q| ≤ |q - below.value| then [above, below] else [below, above]

/-- A number of which the denominator is a power of two, as a decimal. -/
def exact (q : ℚ) : Decimal :=
  let e := Nat.log2 q.den
  ⟨decide (q < 0), q.num.natAbs * 5 ^ e, -e⟩

/-- The shortest decimal that names a value, of those the nearest. -/
def shortest (v : ℚ) : Decimal :=
  (((List.range 17).flatMap fun n => neighbours v (n + 1)).find? fun d =>
    decide (nearest d.value = .finite v)).getD (exact v)

/-- A point and digits, or nothing. -/
def fractionText : Option (List Char) → List Char
  | none => []
  | some digits => '.' :: digits

/-- The digits of a decimal before and behind the point. -/
def Decimal.parts (d : Decimal) : List Char × Option (List Char) :=
  let digits := Nat.toDigits 10 d.digits
  let p := (-d.exponent).toNat
  if 0 ≤ d.exponent then (digits ++ List.replicate d.exponent.toNat '0', none)
  else if p < digits.length then (digits.take (digits.length - p), some (digits.drop (digits.length - p)))
  else (['0'], some (List.replicate (p - digits.length) '0' ++ digits))

/-- A decimal without an exponent. -/
def Decimal.plain (d : Decimal) : List Char :=
  (if d.negative then ['-'] else []) ++ (d.parts.1 ++ fractionText d.parts.2)

/-- `{}`, of a binary64 value. -/
def Value.display : Value → List Char
  | .finite v => (shortest v).plain
  | .infinite negative => (if negative then ['-'] else []) ++ ['i', 'n', 'f']

/-! ### Values are kept -/

theorem roundEven_intCast (n : Int) : roundEven (n : ℚ) = n := by
  rw [roundEven, Int.floor_intCast, sub_self, if_pos (by norm_num)]

theorem floor_le_roundEven (q : ℚ) : ⌊q⌋ ≤ roundEven q := by
  rw [roundEven]
  split_ifs <;> omega

variable {q : ℚ}

theorem roundEven_le {n : Int} (h : q ≤ n) : roundEven q ≤ n := by
  rcases h.eq_or_lt with rfl | hlt
  · rw [roundEven_intCast]
  · have hfloor : ⌊q⌋ < n := Int.floor_lt.mpr hlt
    rw [roundEven]
    split_ifs <;> omega

theorem le_roundEven {n : Int} (h : (n : ℚ) ≤ q) : n ≤ roundEven q :=
  (Int.le_floor.mpr h).trans (floor_le_roundEven q)

/-- A number is less than `2^53` of its quanta. -/
theorem abs_lt_quantum (q : ℚ) : |q| < 2 ^ 53 * (2 : ℚ) ^ quantum q := by
  have hlog : |q| < (2 : ℚ) ^ (Int.log 2 |q| + 1) := by
    exact_mod_cast Int.lt_zpow_succ_log_self (b := 2) (by decide) |q|
  have hle : Int.log 2 |q| + 1 ≤ 53 + quantum q := by
    rw [quantum]
    omega
  calc |q| < (2 : ℚ) ^ (Int.log 2 |q| + 1) := hlog
    _ ≤ (2 : ℚ) ^ (53 + quantum q) := zpow_le_zpow_right₀ (by norm_num) hle
    _ = 2 ^ 53 * (2 : ℚ) ^ quantum q := by
      rw [zpow_add₀ (by norm_num)]
      norm_num

/-- The multiples of a quantum that are kept. -/
def Representable (v : ℚ) : Prop :=
  ∃ m k : Int, v = m * (2 : ℚ) ^ k ∧ |m| ≤ 2 ^ 53 ∧ -1074 ≤ k ∧ |v| < 2 ^ 1024

variable {v : ℚ}

theorem representable_of_nearest (h : nearest q = .finite v) : Representable v := by
  rw [nearest] at h
  split at h
  · rename_i hlt
    cases h
    refine ⟨roundEven (q / (2 : ℚ) ^ quantum q), quantum q, rfl, ?_, le_max_right _ _, hlt⟩
    have hpos : (0 : ℚ) < (2 : ℚ) ^ quantum q := zpow_pos (by norm_num) _
    have hquot : |q / (2 : ℚ) ^ quantum q| ≤ 2 ^ 53 := by
      rw [abs_div, abs_of_pos hpos, div_le_iff₀ hpos]
      exact (abs_lt_quantum q).le
    obtain ⟨hlow, hhigh⟩ := abs_le.mp hquot
    rw [abs_le]
    exact ⟨le_roundEven (by push_cast; exact hlow), roundEven_le (by push_cast; exact hhigh)⟩
  · cases h

/-- A multiple of a quantum is one of its own. -/
theorem exists_quanta (h : Representable v) : ∃ m : Int, v / (2 : ℚ) ^ quantum v = m := by
  obtain ⟨m, k, hv, hm, hk, -⟩ := h
  have hpos : (0 : ℚ) < (2 : ℚ) ^ k := zpow_pos (by norm_num) k
  have habs : |v| = |m| * (2 : ℚ) ^ k := by rw [hv, abs_mul, abs_of_pos hpos, Int.cast_abs]
  by_cases hle : quantum v ≤ k
  · -- the quantum is no larger: the multiple is multiplied by the power of two between them
    obtain ⟨e, he⟩ : ∃ e : Nat, k = quantum v + e := ⟨(k - quantum v).toNat, by omega⟩
    refine ⟨m * 2 ^ e, ?_⟩
    have hne : (2 : ℚ) ^ quantum v ≠ 0 := zpow_ne_zero _ (by norm_num)
    rw [div_eq_iff hne]
    conv_lhs => rw [hv, he, zpow_add₀ (by norm_num), zpow_natCast]
    push_cast
    ring
  · -- the quantum is larger: the multiple is the largest, `2^53`
    by_cases hzero : v = 0
    · exact ⟨0, by rw [hzero, zero_div, Int.cast_zero]⟩
    have hlog : (2 : ℚ) ^ Int.log 2 |v| ≤ |v| := by
      exact_mod_cast Int.zpow_log_le_self (b := 2) (by decide) (abs_pos.mpr hzero)
    have hm' : ((|m| : Int) : ℚ) ≤ 2 ^ 53 := by exact_mod_cast hm
    have hup : |v| ≤ (2 : ℚ) ^ (53 + k) := by
      rw [habs, zpow_add₀ (by norm_num)]
      exact mul_le_mul_of_nonneg_right hm' hpos.le
    have hlogle : Int.log 2 |v| ≤ 53 + k := (zpow_le_zpow_iff_right₀ (by norm_num)).mp (hlog.trans hup)
    have hquantum : quantum v = k + 1 := by
      rw [quantum] at hle ⊢
      omega
    have hlogeq : Int.log 2 |v| = 53 + k := by
      rw [quantum] at hle
      omega
    have hge : (2 : ℚ) ^ 53 ≤ ((|m| : Int) : ℚ) := by
      rw [hlogeq, habs, zpow_add₀ (by norm_num)] at hlog
      exact le_of_mul_le_mul_right hlog hpos
    have hmax : |m| = 2 ^ 53 := le_antisymm hm (by exact_mod_cast hge)
    have hhalf : ∃ n : Int, m = 2 * n := by
      rcases abs_eq (by norm_num : (0 : Int) ≤ 2 ^ 53) |>.mp hmax with h | h
      · exact ⟨2 ^ 52, by rw [h]; norm_num⟩
      · exact ⟨-2 ^ 52, by rw [h]; norm_num⟩
    obtain ⟨n, hn⟩ := hhalf
    refine ⟨n, ?_⟩
    rw [hquantum, div_eq_iff (zpow_ne_zero _ (by norm_num)), hv, hn, zpow_add_one₀ (by norm_num)]
    push_cast
    ring

/-- **A value** is kept as it is. -/
theorem nearest_of_representable (h : Representable v) : nearest v = .finite v := by
  obtain ⟨m, hm⟩ := exists_quanta h
  have hv : (roundEven (v / (2 : ℚ) ^ quantum v) : ℚ) * (2 : ℚ) ^ quantum v = v := by
    rw [hm, roundEven_intCast, ← hm, div_mul_cancel₀ _ (zpow_ne_zero _ (by norm_num))]
  rw [nearest, hv]
  exact if_pos h.choose_spec.choose_spec.2.2.2

theorem nearest_of_nearest (h : nearest q = .finite v) : nearest v = .finite v :=
  nearest_of_representable (representable_of_nearest h)

/-! ### What is printed names the value -/

theorem exists_den (h : Representable v) : ∃ e, v.den = 2 ^ e := by
  obtain ⟨m, k, hv, -⟩ := h
  have hquot : v = ((m * 2 ^ k.toNat : Int) : ℚ) / ((2 ^ (-k).toNat : Int) : ℚ) := by
    have hk : k = k.toNat - (-k).toNat := by omega
    rw [hv]
    conv_lhs => rw [hk]
    rw [zpow_sub₀ (by norm_num), zpow_natCast, zpow_natCast]
    push_cast
    ring
  have hdvd : (v.den : Int) ∣ 2 ^ (-k).toNat := by
    rw [hquot, ← Rat.divInt_eq_div]
    exact Rat.den_dvd _ _
  have hdvd : v.den ∣ 2 ^ (-k).toNat := by exact_mod_cast hdvd
  obtain ⟨e, -, he⟩ := (Nat.dvd_prime_pow Nat.prime_two).mp hdvd
  exact ⟨e, he⟩

theorem sign_mul_natAbs (n : Int) : (if decide (n < 0) then (-1 : ℚ) else 1) * n.natAbs = n := by
  rw [Nat.cast_natAbs, Int.cast_abs]
  by_cases hn : n < 0
  · have hneg : (n : ℚ) < 0 := by exact_mod_cast hn
    simp only [hn, decide_true, if_true, abs_of_neg hneg, neg_mul_neg, one_mul]
  · have hnonneg : (0 : ℚ) ≤ n := by exact_mod_cast not_lt.mp hn
    simp only [hn, decide_false, Bool.false_eq_true, if_false, abs_of_nonneg hnonneg, one_mul]

theorem value_exact (h : Representable v) : (exact v).value = v := by
  obtain ⟨e, he⟩ := exists_den h
  have hsign : decide (v < 0) = decide (v.num < 0) := by rw [decide_eq_decide, Rat.num_neg]
  have hden : (v.den : ℚ) = 2 ^ e := by exact_mod_cast he
  have hten : (10 : ℚ) ^ (-(e : Int)) = (5 ^ e * 2 ^ e)⁻¹ := by
    rw [zpow_neg, zpow_natCast, ← mul_pow]
    norm_num
  have hfive : (5 : ℚ) ^ e ≠ 0 := pow_ne_zero e (by norm_num)
  have htwo : (2 : ℚ) ^ e ≠ 0 := pow_ne_zero e (by norm_num)
  rw [exact, he, Nat.log2_two_pow, Decimal.value, hsign]
  push_cast
  rw [hten, ← mul_assoc, sign_mul_natAbs]
  calc (v.num : ℚ) * 5 ^ e * (5 ^ e * 2 ^ e)⁻¹ = v.num / 2 ^ e := by field_simp
    _ = v := by rw [← hden, Rat.num_div_den]

/-- What is printed of a value is kept as that value. -/
theorem nearest_shortest (h : Representable v) : nearest (shortest v).value = .finite v := by
  rw [shortest]
  cases hfind : ((List.range 17).flatMap fun n => neighbours v (n + 1)).find? fun d =>
      decide (nearest d.value = .finite v) with
  | none => rw [Option.getD_none, value_exact h, nearest_of_representable h]
  | some d => simpa using find?_some hfind

/-! ### What is printed can be read -/

theorem span_digits {digits rest : List Char} (h : ∀ c ∈ digits, c.isDigit = true)
    (hrest : ∀ c ∈ rest.head?, c.isDigit = false) :
    (digits ++ rest).takeWhile Char.isDigit = digits ∧ (digits ++ rest).dropWhile Char.isDigit = rest := by
  induction digits with
  | nil =>
    cases rest with
    | nil => exact ⟨rfl, rfl⟩
    | cons c rest =>
      have hc := hrest c rfl
      exact ⟨takeWhile_cons_of_neg (by simp [hc]), dropWhile_cons_of_neg (by simp [hc])⟩
  | cons c digits ih =>
    have hc := h c mem_cons_self
    obtain ⟨htake, hdrop⟩ := ih fun d hd => h d (mem_cons_of_mem c hd)
    rw [cons_append, takeWhile_cons_of_pos hc, dropWhile_cons_of_pos hc, htake, hdrop]
    exact ⟨rfl, rfl⟩

theorem splitSign_digit {c : Char} (h : c.isDigit = true) (s : List Char) : splitSign (c :: s) = (false, c :: s) := by
  have hminus : c ≠ '-' := fun heq => by rw [heq] at h; exact absurd h (by decide)
  have hplus : c ≠ '+' := fun heq => by rw [heq] at h; exact absurd h (by decide)
  rw [splitSign]
  · exact fun _ heq => hminus (List.cons.inj heq).1
  · exact fun _ heq => hplus (List.cons.inj heq).1

/-- **A decimal** is read part by part. -/
theorem parseDecimal_parts (negative : Bool) {whole tail : List Char} (fraction : Option (List Char)) {e : Int}
    (hne : whole ≠ []) (hwhole : ∀ c ∈ whole, c.isDigit = true)
    (hfraction : ∀ digits ∈ fraction, ∀ c ∈ digits, c.isDigit = true)
    (htail : ∀ c ∈ tail.head?, c.isDigit = false ∧ c ≠ '.') (hexponent : parseExponent tail = some e) :
    parseDecimal ((if negative then ['-'] else []) ++ (whole ++ (fractionText fraction ++ tail)))
      = some ⟨negative, natOf (whole ++ fraction.getD []), e - (fraction.getD []).length⟩ := by
  have hsign : splitSign ((if negative then ['-'] else []) ++ (whole ++ (fractionText fraction ++ tail)))
      = (negative, whole ++ (fractionText fraction ++ tail)) := by
    cases negative with
    | true => rfl
    | false =>
      cases whole with
      | nil => exact absurd rfl hne
      | cons c whole => exact splitSign_digit (hwhole c mem_cons_self) _
  have hpoint : ('.' : Char).isDigit = false := by decide
  rw [parseDecimal, hsign]
  cases fraction with
  | none =>
    obtain ⟨htake, hdrop⟩ := span_digits hwhole fun c hc => (htail c hc).1
    have hmatch : (match tail with
        | '.' :: rest => (rest.takeWhile Char.isDigit, rest.dropWhile Char.isDigit)
        | rest => ([], rest)) = ([], tail) := by
      split
      · exact absurd rfl (htail '.' rfl).2
      · rfl
    simp only [fractionText, nil_append, htake, hdrop, hmatch, hne, false_and, if_false, hexponent,
      Option.map_some, Option.getD_none, append_nil]
  | some digits =>
    obtain ⟨htake, hdrop⟩ := @span_digits _ ('.' :: (digits ++ tail)) hwhole fun c hc => by
      cases hc
      exact hpoint
    obtain ⟨htake', hdrop'⟩ := span_digits (hfraction digits rfl) fun c hc => (htail c hc).1
    simp only [fractionText, cons_append, htake, hdrop, htake', hdrop', hne, false_and, if_false, hexponent,
      Option.map_some, Option.getD_some]

theorem isDigit_of_mem_toDigits {n : Nat} : ∀ c ∈ Nat.toDigits 10 n, c.isDigit = true := fun _ hc =>
  Nat.isDigit_of_mem_toDigits (by decide) (by decide) hc

theorem natOf_append (s t : List Char) : natOf (s ++ t) = 10 ^ t.length * natOf s + natOf t := by
  rw [natOf, Nat.ofDigitChars_append, Nat.ofDigitChars_eq_ofDigitChars_zero]
  rfl

variable (n : Nat)

@[simp] theorem natOf_zeros : natOf (List.replicate n '0') = 0 := by
  rw [natOf, Nat.ofDigitChars_replicate_zero, Nat.mul_zero]

@[simp] theorem natOf_toDigits : natOf (Nat.toDigits 10 n) = n := Nat.ofDigitChars_ten_toDigits

/-- Whatever its exponent, the digits stand for the decimal. -/
structure Parts (d : Decimal) (whole : List Char) (fraction : Option (List Char)) : Prop where
  nonempty : whole ≠ []
  isWhole : ∀ c ∈ whole, c.isDigit = true
  isFraction : ∀ digits ∈ fraction, ∀ c ∈ digits, c.isDigit = true
  value : (natOf (whole ++ fraction.getD []) : ℚ) * (10 : ℚ) ^ (-((fraction.getD []).length : Int))
    = d.digits * (10 : ℚ) ^ d.exponent

theorem isDigit_zeros : ∀ c ∈ List.replicate n '0', c.isDigit = true := fun c hc => by
  rw [eq_of_mem_replicate hc]
  decide

theorem parts_parts (d : Decimal) : Parts d d.parts.1 d.parts.2 := by
  have hdigits := isDigit_of_mem_toDigits (n := d.digits)
  rw [Decimal.parts]
  by_cases hexp : 0 ≤ d.exponent
  · simp only [if_pos hexp]
    refine ⟨fun h => Nat.toDigits_ne_nil (append_eq_nil_iff.mp h).1,
      fun c hc => (mem_append.mp hc).elim (hdigits c) (isDigit_zeros _ c), (fun _ h => by cases h), ?_⟩
    obtain ⟨k, hk⟩ : ∃ k : Nat, d.exponent = k := ⟨d.exponent.toNat, by omega⟩
    rw [hk, Int.toNat_natCast, Option.getD_none, append_nil, natOf_append, natOf_toDigits, natOf_zeros,
      length_replicate, zpow_natCast]
    push_cast
    simp
    ring
  · simp only [if_neg hexp]
    obtain ⟨p, hp⟩ : ∃ p : Nat, d.exponent = -p := ⟨(-d.exponent).toNat, by omega⟩
    rw [hp, neg_neg, Int.toNat_natCast]
    by_cases hlt : p < (Nat.toDigits 10 d.digits).length
    · simp only [if_pos hlt]
      refine ⟨fun h => ?_, fun c hc => hdigits c (mem_of_mem_take hc), fun _ h c hc => ?_, ?_⟩
      · rcases take_eq_nil_iff.mp h with h | h
        · omega
        · exact Nat.toDigits_ne_nil h
      · cases h
        exact hdigits c (mem_of_mem_drop hc)
      · rw [Option.getD_some, take_append_drop, natOf_toDigits, length_drop]
        congr 3
        omega
    · simp only [if_neg hlt]
      refine ⟨by simp, fun c hc => by rw [mem_singleton.mp hc]; decide, fun _ h c hc => ?_, ?_⟩
      · cases h
        exact (mem_append.mp hc).elim (isDigit_zeros _ c) (hdigits c)
      · have hzero : natOf ['0'] = 0 := rfl
        rw [Option.getD_some, natOf_append, hzero, Nat.mul_zero, Nat.zero_add, natOf_append, natOf_zeros,
          Nat.mul_zero, Nat.zero_add, natOf_toDigits, length_append, length_replicate,
          Nat.sub_add_cancel (not_lt.mp hlt), hp]

/-- **What is printed** of a decimal is read as the same number. -/
theorem parseDecimal_plain (d : Decimal) : ∃ d', parseDecimal d.plain = some d' ∧ d'.value = d.value := by
  obtain ⟨hne, hwhole, hfraction, hvalue⟩ := parts_parts d
  have hread := @parseDecimal_parts d.negative _ [] d.parts.2 0 hne hwhole hfraction (fun c hc => by cases hc) rfl
  rw [append_nil] at hread
  refine ⟨_, hread, ?_⟩
  rw [Decimal.value, Decimal.value, zero_sub, mul_assoc, hvalue, ← mul_assoc]

end Alt.Library.Binary64
