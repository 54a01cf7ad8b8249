import Mathlib.Data.List.TakeWhile
import Mathlib.Tactic.Linarith
import Mathlib.Tactic.Ring

namespace Alt.Library

open List

/-!
# Library — byte strings, little-endian fields and bounded readers

Everything a binary format needs from its byte strings, with no format in sight:

* `leBytes w n` — the `w`-byte little-endian field of `n`.  A value too large for the
  field is *cut* to its low bytes, as a narrowing integer cast does;
* `leNat` — the value of a little-endian field, with `leNat_leBytes` as the round trip;
* `takeN n bs` — split off the next `n` bytes, or report that they are not there;
* `ByteArr n` — a byte string carrying the proof that it is `n` bytes long;
* `utf8 s` / `fromUtf8 b` — a string's bytes and the decoder that accepts exactly them.
-/

/-- Byte strings. -/
abbrev Bytes := List UInt8

/-! ### Little-endian fields -/

/-- The `w` low bytes of `n`, least significant first. -/
def leBytes : Nat → Nat → Bytes
  | 0, _ => []
  | w + 1, n => UInt8.ofNat (n % 256) :: leBytes w (n / 256)

/-- The value of a little-endian field. -/
def leNat : Bytes → Nat
  | [] => 0
  | b :: bs => b.toNat + 256 * leNat bs

@[simp] theorem length_leBytes (w n : Nat) : (leBytes w n).length = w := by
  induction w generalizing n with
  | zero => rfl
  | succ w ih => simp [leBytes, ih]

/-- **Field round trip.** Reading a field back gives the value cut to the field's width. -/
@[simp] theorem leNat_leBytes (w n : Nat) : leNat (leBytes w n) = n % 256 ^ w := by
  induction w generalizing n with
  | zero => simp [leBytes, leNat, Nat.mod_one]
  | succ w ih =>
    have hb : (UInt8.ofNat (n % 256)).toNat = n % 256 := by
      simp
    simp only [leBytes, leNat, ih, hb]
    rw [Nat.pow_succ, Nat.mul_comm (256 ^ w), Nat.mod_mul]

variable {w n : Nat}

/-- A value that fits its field survives the round trip. -/
theorem leNat_leBytes_of_lt (h : n < 256 ^ w) : leNat (leBytes w n) = n := by
  rw [leNat_leBytes, Nat.mod_eq_of_lt h]

/-- A `w`-byte field holds a value below `256 ^ w`. -/
theorem leNat_lt (bs : Bytes) : leNat bs < 256 ^ bs.length := by
  induction bs with
  | nil => simp [leNat]
  | cons b bs ih =>
    have hb := b.toNat_lt
    simp only [leNat, length_cons, Nat.pow_succ]
    omega

/-- Every `w`-byte string is the field of its own value. -/
theorem leBytes_leNat (bs : Bytes) : leBytes bs.length (leNat bs) = bs := by
  induction bs with
  | nil => rfl
  | cons b bs ih =>
    have hb := b.toNat_lt
    have h1 : (b.toNat + 256 * leNat bs) % 256 = b.toNat := by omega
    have h2 : (b.toNat + 256 * leNat bs) / 256 = leNat bs := by omega
    simp only [length_cons, leBytes, leNat, h1, h2, ih, UInt8.ofNat_toNat]

/-! ### Bounded readers -/

/-- Split off the next `n` bytes; `none` when fewer are left. -/
def takeN (n : Nat) (bs : Bytes) : Option (Bytes × Bytes) :=
  if n ≤ bs.length then some (bs.take n, bs.drop n) else none

/-- Reading `a.length` bytes of `a ++ b` gives `a` and leaves `b`. -/
theorem takeN_append (a b : Bytes) : takeN a.length (a ++ b) = some (a, b) := by
  simp [takeN]

/-- `takeN_append` with the length as a side condition. -/
theorem takeN_append' (a b : Bytes) (h : a.length = n) :
    takeN n (a ++ b) = some (a, b) := by
  rw [← h, takeN_append]

variable {bs : Bytes}

/-- A read succeeds exactly on inputs that start with the bytes it returns. -/
theorem takeN_eq_some {a b : Bytes} :
    takeN n bs = some (a, b) ↔ bs = a ++ b ∧ a.length = n := by
  constructor
  · intro h
    unfold takeN at h
    split at h
    · rename_i hn
      simp only [Option.some.injEq, Prod.mk.injEq] at h
      obtain ⟨rfl, rfl⟩ := h
      exact ⟨(take_append_drop n bs).symm, by simp [hn]⟩
    · cases h
  · rintro ⟨rfl, rfl⟩
    exact takeN_append a b

theorem takeN_eq_none : takeN n bs = none ↔ bs.length < n := by
  unfold takeN
  split <;> simp <;> omega

/-- Read a `w`-byte little-endian field. -/
def readLE (w : Nat) (bs : Bytes) : Option (Nat × Bytes) :=
  (takeN w bs).map fun p => (leNat p.1, p.2)

theorem readLE_append (w n : Nat) (rest : Bytes) :
    readLE w (leBytes w n ++ rest) = some (n % 256 ^ w, rest) := by
  simp [readLE, takeN_append' _ _ (length_leBytes w n)]

theorem readLE_append_of_lt (rest : Bytes) (h : n < 256 ^ w) :
    readLE w (leBytes w n ++ rest) = some (n, rest) := by
  rw [readLE_append, Nat.mod_eq_of_lt h]

/-- The value a field reader returns fits the field. -/
theorem readLE_lt {rest : Bytes} (h : readLE w bs = some (n, rest)) :
    n < 256 ^ w := by
  simp only [readLE, Option.map_eq_some_iff, Prod.mk.injEq] at h
  obtain ⟨⟨a, b⟩, hab, rfl, rfl⟩ := h
  obtain ⟨-, rfl⟩ := takeN_eq_some.mp hab
  exact leNat_lt a

/-! ### Fixed-width arrays -/

/-- A byte string of exactly `n` bytes. -/
abbrev ByteArr (n : Nat) := { b : Bytes // b.length = n }

/-- The first `n` bytes of a slice as an array, zero-filled when the slice is short.
    Callers pass exactly `n` bytes. -/
def ByteArr.ofSlice (n : Nat) (b : Bytes) : ByteArr n :=
  ⟨(b ++ List.replicate n 0).take n, by simp⟩

@[simp] theorem ByteArr.ofSlice_val (a : ByteArr n) : ByteArr.ofSlice n a.val = a := by
  apply Subtype.ext
  simp only [ByteArr.ofSlice]
  rw [take_append_of_le_length (by rw [a.2]), take_of_length_le (by rw [a.2])]

/-- On a slice of the right length nothing is filled in. -/
theorem ByteArr.val_ofSlice {b : Bytes} (h : b.length = n) :
    (ByteArr.ofSlice n b).val = b := by
  have := ByteArr.ofSlice_val ⟨b, h⟩
  exact congrArg Subtype.val this

/-- The array of `n` equal bytes. -/
def ByteArr.fill (n : Nat) (x : UInt8) : ByteArr n := ⟨List.replicate n x, by simp⟩

/-! ### All bytes -/

/-! ### UTF-8 -/

/-- The UTF-8 bytes of a string. -/
def utf8 (s : String) : Bytes := s.toByteArray.data.toList

/-- The string a byte string encodes; `none` when it is not valid UTF-8. -/
def fromUtf8 (b : Bytes) : Option String := String.fromUTF8? ⟨b.toArray⟩

theorem toNat_ofNat_byte (b : UInt8) : (Char.ofNat b.toNat).toNat = b.toNat := by
  have hvalid : b.toNat.isValidChar := Or.inl (b.toNat_lt.trans (by decide))
  rw [Char.ofNat, dif_pos hvalid]
  rfl

variable {b : UInt8}

/-- A byte of ASCII is its own encoding. -/
theorem utf8EncodeChar_ascii (h : b < 0x80) :
    String.utf8EncodeChar (Char.ofNat b.toNat) = [b] := by
  have hle : b.toNat ≤ 0x7f := Nat.le_of_lt_succ (UInt8.lt_iff_toNat_lt.mp h)
  simp [String.utf8EncodeChar, toNat_ofNat_byte, hle]

/-- Any other byte is encoded in two, and neither is in ASCII. -/
theorem utf8EncodeChar_high (h : ¬b < 0x80) : ∃ c d : UInt8,
    String.utf8EncodeChar (Char.ofNat b.toNat) = [c, d] ∧ ¬c < 0x80 ∧ ¬d < 0x80 := by
  have hlt := b.toNat_lt
  have hge : ¬b.toNat ≤ 0x7f := fun hle => h (UInt8.lt_iff_toNat_lt.mpr (Nat.lt_succ_of_le hle))
  have hle : b.toNat ≤ 0x7ff := by omega
  refine ⟨UInt8.ofNat (b.toNat / 64 % 32) + 0xc0, UInt8.ofNat (b.toNat % 64) + 0x80, ?_, ?_, ?_⟩
  · simp [String.utf8EncodeChar, toNat_ofNat_byte, hge, hle]
  · rw [UInt8.lt_iff_toNat_lt, UInt8.toNat_add, UInt8.toNat_ofNat']
    simp
    omega
  · rw [UInt8.lt_iff_toNat_lt, UInt8.toNat_add, UInt8.toNat_ofNat']
    simp
    omega

theorem utf8_ofList (l : List Char) : utf8 (String.ofList l) = l.flatMap String.utf8EncodeChar := by
  rw [utf8, String.toByteArray_ofList, List.utf8Encode]
  simp

/-- A byte of ASCII stands for itself only. -/
theorem eq_of_mem_utf8EncodeChar (hb : b < 0x80) {c : Char} (h : b ∈ String.utf8EncodeChar c) :
    c.toNat = b.toNat := by
  have hlt : b.toNat < 128 := UInt8.lt_iff_toNat_lt.mp hb
  have hval : c.val.toNat = c.toNat := rfl
  have hhigh : ∀ n, 0x80 ≤ n → n < 256 → b ≠ UInt8.ofNat n := by
    rintro n hn hn' rfl
    rw [UInt8.toNat_ofNat'] at hlt
    omega
  simp only [String.utf8EncodeChar] at h
  split at h
  · rename_i hle
    rw [mem_singleton.mp h, UInt8.toNat_ofNat']
    omega
  · exfalso
    split at h
    · simp only [mem_cons, not_mem_nil, or_false] at h
      rcases h with h | h
      · exact hhigh _ (by omega) (by omega) h
      · exact hhigh _ (by omega) (by omega) h
    · split at h
      · simp only [mem_cons, not_mem_nil, or_false] at h
        rcases h with h | h | h
        · exact hhigh _ (by omega) (by omega) h
        · exact hhigh _ (by omega) (by omega) h
        · exact hhigh _ (by omega) (by omega) h
      · simp only [mem_cons, not_mem_nil, or_false] at h
        rcases h with h | h | h | h
        · exact hhigh _ (by omega) (by omega) h
        · exact hhigh _ (by omega) (by omega) h
        · exact hhigh _ (by omega) (by omega) h
        · exact hhigh _ (by omega) (by omega) h

variable {s : String}

theorem mem_utf8_ascii (hb : b < 0x80) :
    b ∈ utf8 s ↔ Char.ofNat b.toNat ∈ s.toList := by
  have hs : utf8 s = s.toList.flatMap String.utf8EncodeChar := by
    rw [← utf8_ofList, String.ofList_toList]
  rw [hs, mem_flatMap]
  constructor
  · rintro ⟨c, hc, hmem⟩
    rw [← eq_of_mem_utf8EncodeChar hb hmem]
    simpa using hc
  · intro hc
    refine ⟨_, hc, ?_⟩
    rw [utf8EncodeChar_ascii hb]
    exact mem_singleton_self b

@[simp] theorem fromUtf8_utf8 (s : String) : fromUtf8 (utf8 s) = some s := by
  have hb : (⟨(utf8 s).toArray⟩ : ByteArray) = s.toByteArray := rfl
  rw [fromUtf8, hb, String.fromUTF8?, dif_pos s.isValidUTF8]
  rfl

/-- A byte string that decodes is the encoding of what it decodes to. -/
theorem utf8_of_fromUtf8 {b : Bytes} (h : fromUtf8 b = some s) : utf8 s = b := by
  rw [fromUtf8, String.fromUTF8?] at h
  split at h
  · cases h
    rfl
  · cases h

theorem utf8_injective {t : String} (h : utf8 s = utf8 t) : s = t := by
  have hs := fromUtf8_utf8 s
  rw [h, fromUtf8_utf8] at hs
  exact (Option.some.inj hs).symm

/-- Two lists cut at the first separator. -/
theorem append_cons_inj {α : Type} {x : α} {pre pre' post post' : List α} (h : x ∉ pre)
    (h' : x ∉ pre') (heq : pre ++ x :: post = pre' ++ x :: post') : pre = pre' ∧ post = post' := by
  induction pre generalizing pre' with
  | nil =>
    cases pre' with
    | nil => exact ⟨rfl, (List.cons.inj heq).2⟩
    | cons y pre' =>
      obtain ⟨rfl, -⟩ := List.cons.inj heq
      exact absurd mem_cons_self h'
  | cons y pre ih =>
    cases pre' with
    | nil =>
      obtain ⟨rfl, -⟩ := List.cons.inj heq
      exact absurd mem_cons_self h
    | cons z pre' =>
      obtain ⟨rfl, hrest⟩ := List.cons.inj heq
      obtain ⟨rfl, hpost⟩ := ih (fun hm => h (mem_cons_of_mem _ hm))
        (fun hm => h' (mem_cons_of_mem _ hm)) hrest
      exact ⟨rfl, hpost⟩

/-! ### Separators -/

section Separators

variable {α : Type} [DecidableEq α]

/-- What stands before the first `x`, and what stands behind it. -/
def splitFirst (x : α) (b : List α) : Option (List α × List α) :=
  match b.dropWhile (· ≠ x) with
  | [] => none
  | _ :: rest => some (b.takeWhile (· ≠ x), rest)

variable {x : α}

/-- Splitting what a separator was put into. -/
theorem splitFirst_append {pre : List α} (h : x ∉ pre) (post : List α) :
    splitFirst x (pre ++ x :: post) = some (pre, post) := by
  have hne : ∀ y ∈ pre, decide (y ≠ x) = true := fun y hy => by
    rw [decide_eq_true_eq]
    exact fun heq => h (heq ▸ hy)
  have hdrop : (pre ++ x :: post).dropWhile (· ≠ x) = x :: post := by
    rw [dropWhile_append_of_pos hne, dropWhile_cons_of_neg (by simp)]
  have htake : (pre ++ x :: post).takeWhile (· ≠ x) = pre := by
    rw [takeWhile_append_of_pos hne, takeWhile_cons_of_neg (by simp), append_nil]
  rw [splitFirst, hdrop, htake]

theorem splitFirst_eq_none {b : List α} : splitFirst x b = none ↔ x ∉ b := by
  constructor
  · intro h hx
    obtain ⟨pre, post, rfl, hpre⟩ := eq_append_cons_of_mem hx
    rw [splitFirst_append hpre] at h
    cases h
  · intro h
    have hdrop : b.dropWhile (· ≠ x) = [] := by
      rw [dropWhile_eq_nil_iff]
      intro y hy
      rw [decide_eq_true_eq]
      exact fun heq => h (heq ▸ hy)
    rw [splitFirst, hdrop]

/-- A split finds the first separator. -/
theorem splitFirst_eq_some {b pre post : List α} :
    splitFirst x b = some (pre, post) ↔ b = pre ++ x :: post ∧ x ∉ pre := by
  constructor
  · intro h
    by_cases hx : x ∈ b
    · obtain ⟨pre', post', rfl, hpre⟩ := eq_append_cons_of_mem hx
      rw [splitFirst_append hpre] at h
      cases h
      exact ⟨rfl, hpre⟩
    · rw [splitFirst_eq_none.mpr hx] at h
      cases h
  · rintro ⟨rfl, hpre⟩
    exact splitFirst_append hpre post

end Separators

/-! ### First steps that may fail -/

section FirstSteps

variable {ε ε' α β : Type} {b : β}

theorem of_match_ok {x : Except ε α} {g : ε → ε'} {k : α → Except ε' β}
    (h : (match x with
      | .error e => .error (g e)
      | .ok a => k a) = (.ok b : Except ε' β)) : ∃ a, x = .ok a ∧ k a = .ok b := by
  cases x with
  | error e => cases h
  | ok a => exact ⟨a, rfl, h⟩

end FirstSteps

end Alt.Library
