import Alt.Library.Attempt

namespace Alt.Library.TextScan

open Attempt List

/-!
# Library — texts read by byte positions

A text is cut at byte positions, and a cut inside a character panics.  A scanner that only moves over
characters it has seen stays between two of them.

* `tailAt`, `pieceAt` — the cuts;
* `Boundary` — a position between two characters;
* `Ends` — an attempt that does not panic and stops at a good position, with its rule for a sequence of
  steps (`Ends.bind`);
* `find`, `findAt` — the first occurrence of a word, and where it stands;
* `skipWhile` — a loop over the characters of one class.
-/

/-- `s.len()`. -/
def size (s : List Char) : Nat := (s.map Char.utf8Size).sum

@[simp] theorem size_nil : size [] = 0 := rfl

@[simp] theorem size_cons (c : Char) (s : List Char) : size (c :: s) = c.utf8Size + size s := rfl

@[simp] theorem size_append (s t : List Char) : size (s ++ t) = size s + size t := by
  simp [size]

theorem length_le_size (s : List Char) : s.length ≤ size s := by
  induction s with
  | nil => exact le_refl 0
  | cons c s ih =>
    have hpos := Char.utf8Size_pos c
    rw [length_cons, size_cons]
    omega

theorem utf8Size_of_lt {c : Char} (h : c.toNat < 0x80) : c.utf8Size = 1 :=
  Char.utf8Size_eq_one_iff.mpr (UInt32.le_iff_toNat_le.mpr (Nat.le_of_lt_succ h))

/-! ### Cuts -/

/-- What is behind a position, if it is between two characters. -/
def behind : List Char → Nat → Option (List Char)
  | s, 0 => some s
  | [], _ + 1 => none
  | c :: s, n + 1 => if c.utf8Size ≤ n + 1 then behind s (n + 1 - c.utf8Size) else none

/-- What is before it. -/
def before : List Char → Nat → Option (List Char)
  | _, 0 => some []
  | [], _ + 1 => none
  | c :: s, n + 1 => if c.utf8Size ≤ n + 1 then (before s (n + 1 - c.utf8Size)).map (c :: ·) else none

/-- `&s[i..]`. -/
def tailAt (s : List Char) (i : Nat) : Attempt (List Char) :=
  match behind s i with
  | none => .error .panicked
  | some t => .ok t

/-- `&s[i..j]`. -/
def pieceAt (s : List Char) (i j : Nat) : Attempt (List Char) := do
  let t ← tailAt s i
  match if i ≤ j then before t (j - i) else none with
  | none => .error .panicked
  | some p => .ok p

/-- A position between two characters. -/
def Boundary (s : List Char) (i : Nat) : Prop := ∃ pre post, s = pre ++ post ∧ size pre = i

section Cuts

variable {s t pre mid post : List Char} {i j : Nat}

/-- The cuts below go over one character. -/
theorem exists_size_cons (c : Char) (pre : List Char) :
    ∃ n, size (c :: pre) = n + 1 ∧ c.utf8Size ≤ n + 1 ∧ n + 1 - c.utf8Size = size pre := by
  have hpos := Char.utf8Size_pos c
  refine ⟨size (c :: pre) - 1, ?_, ?_, ?_⟩ <;> rw [size_cons] <;> omega

theorem behind_append (pre post : List Char) : behind (pre ++ post) (size pre) = some post := by
  induction pre with
  | nil => exact behind.eq_1 post
  | cons c pre ih =>
    obtain ⟨n, hn, hle, hrest⟩ := exists_size_cons c pre
    rw [hn, cons_append, behind, if_pos hle, hrest, ih]

theorem before_append (pre post : List Char) : before (pre ++ post) (size pre) = some pre := by
  induction pre with
  | nil => exact before.eq_1 post
  | cons c pre ih =>
    obtain ⟨n, hn, hle, hrest⟩ := exists_size_cons c pre
    rw [hn, cons_append, before, if_pos hle, hrest, ih]
    rfl

theorem behind_eq_some (h : behind s i = some t) : ∃ pre, s = pre ++ t ∧ size pre = i := by
  induction s, i using behind.induct with
  | case1 s =>
    rw [behind] at h
    cases h
    exact ⟨[], rfl, rfl⟩
  | case2 n => cases h
  | case3 c s n hle ih =>
    rw [behind, if_pos hle] at h
    obtain ⟨pre, rfl, hsize⟩ := ih h
    refine ⟨c :: pre, rfl, ?_⟩
    rw [size_cons, hsize]
    omega
  | case4 c s n hle =>
    rw [behind, if_neg hle] at h
    cases h

theorem before_eq_some (h : before s i = some t) : ∃ post, s = t ++ post ∧ size t = i := by
  induction s, i using before.induct generalizing t with
  | case1 s =>
    rw [before] at h
    cases h
    exact ⟨s, rfl, rfl⟩
  | case2 n => cases h
  | case3 c s n hle ih =>
    rw [before, if_pos hle] at h
    obtain ⟨t, ht, rfl⟩ := Option.map_eq_some_iff.mp h
    obtain ⟨post, rfl, hsize⟩ := ih ht
    refine ⟨post, rfl, ?_⟩
    rw [size_cons, hsize]
    omega
  | case4 c s n hle =>
    rw [before, if_neg hle] at h
    cases h

theorem tailAt_append (pre post : List Char) : tailAt (pre ++ post) (size pre) = .ok post := by
  rw [tailAt, behind_append]

theorem tailAt_eq_ok : tailAt s i = .ok t ↔ ∃ pre, s = pre ++ t ∧ size pre = i := by
  refine ⟨fun h => ?_, ?_⟩
  · rw [tailAt] at h
    split at h
    · cases h
    · rename_i t' hsome
      cases h
      exact behind_eq_some hsome
  · rintro ⟨pre, rfl, rfl⟩
    exact tailAt_append pre t

theorem safe_tailAt : Safe (tailAt s i) ↔ Boundary s i := by
  refine ⟨fun h => ?_, ?_⟩
  · cases htail : tailAt s i with
    | error e =>
      rw [tailAt] at htail h
      split at htail
      · rename_i hnone
        rw [hnone] at h
        exact absurd h not_safe_panicked
      · cases htail
    | ok t =>
      obtain ⟨pre, hs, hsize⟩ := tailAt_eq_ok.mp htail
      exact ⟨pre, t, hs, hsize⟩
  · rintro ⟨pre, post, rfl, rfl⟩
    rw [tailAt_append]
    exact safe_ok post

theorem pieceAt_append (pre mid post : List Char) :
    pieceAt (pre ++ (mid ++ post)) (size pre) (size pre + size mid) = .ok mid := by
  rw [pieceAt, tailAt_append, ok_bind, if_pos (Nat.le_add_right _ _), Nat.add_sub_cancel_left, before_append]

theorem Boundary.le (h : Boundary s i) : i ≤ size s := by
  obtain ⟨pre, post, rfl, rfl⟩ := h
  rw [size_append]
  exact Nat.le_add_right _ _

theorem boundary_append (pre post : List Char) : Boundary (pre ++ post) (size pre) := ⟨pre, post, rfl, rfl⟩

theorem boundary_zero (s : List Char) : Boundary s 0 := ⟨[], s, rfl, rfl⟩

/-- What is before a position is what is before any later one, and more. -/
theorem exists_middle (hs : s = pre ++ post) (hj : Boundary s j) (hle : size pre ≤ j) :
    ∃ mid rest, post = mid ++ rest ∧ size pre + size mid = j := by
  obtain ⟨pre', post', hs', rfl⟩ := hj
  rw [hs] at hs'
  rcases append_eq_append_iff.mp hs' with ⟨mid, rfl, rfl⟩ | ⟨mid, rfl, rfl⟩
  · exact ⟨mid, post', rfl, (size_append pre mid).symm⟩
  · rw [size_append] at hle
    cases mid with
    | nil => exact ⟨[], post, rfl, by simp⟩
    | cons c mid =>
      have hpos := Char.utf8Size_pos c
      rw [size_cons] at hle
      omega

/-- Between two positions, the text splits in three. -/
theorem pieceAt_eq_ok (h : pieceAt s i j = .ok t) :
    ∃ pre post, s = pre ++ (t ++ post) ∧ size pre = i ∧ i + size t = j := by
  obtain ⟨rest, htail, hpiece⟩ := steps_eq_ok.mp h
  obtain ⟨pre, rfl, rfl⟩ := tailAt_eq_ok.mp htail
  by_cases hle : size pre ≤ j
  · rw [if_pos hle] at hpiece
    split at hpiece
    · cases hpiece
    rename_i piece hbefore
    cases hpiece
    obtain ⟨post, rfl, hsize⟩ := before_eq_some hbefore
    exact ⟨pre, post, rfl, rfl, by omega⟩
  · rw [if_neg hle] at hpiece
    cases hpiece

theorem pieceAt_ne_declined : pieceAt s i j ≠ .error .declined := by
  intro h
  rw [pieceAt, tailAt] at h
  split at h
  · cases h
  rename_i rest hbehind
  simp only [ok_bind] at h
  split at h
  · cases h
  rename_i piece hbefore
  cases h

theorem safe_pieceAt_iff : Safe (pieceAt s i j) ↔ Boundary s i ∧ Boundary s j ∧ i ≤ j := by
  refine ⟨fun h => ?_, ?_⟩
  · cases hpiece : pieceAt s i j with
    | error e =>
      rw [hpiece] at h
      cases e with
      | declined => exact absurd hpiece pieceAt_ne_declined
      | panicked => exact absurd h not_safe_panicked
    | ok t =>
      obtain ⟨pre, post, rfl, rfl, rfl⟩ := pieceAt_eq_ok hpiece
      exact ⟨boundary_append pre _, ⟨pre ++ t, post, by simp, size_append pre t⟩, Nat.le_add_right _ _⟩
  · rintro ⟨⟨pre, post, rfl, rfl⟩, hj, hle⟩
    obtain ⟨mid, rest, rfl, rfl⟩ := exists_middle rfl hj hle
    rw [pieceAt_append]
    exact safe_ok mid

theorem safe_pieceAt (hi : Boundary s i) (hj : Boundary s j) (hle : i ≤ j) : Safe (pieceAt s i j) :=
  safe_pieceAt_iff.mpr ⟨hi, hj, hle⟩

end Cuts

/-! ### Readers -/

/-- A reader that does not panic, and stops at a position with `P`, from `lo` on. -/
def Ends {β : Type} (P : Nat → Prop) (lo : Nat) (position : β → Nat) (x : Attempt β) : Prop :=
  Safe x ∧ ∀ b, x = .ok b → P (position b) ∧ lo ≤ position b

section Ends

variable {α β : Type} {P : Nat → Prop} {lo lo' : Nat} {at_ : α → Nat} {position : β → Nat}
  {x : Attempt α} {f : α → Attempt β}

theorem Ends.bind (hx : Ends P lo at_ x)
    (hf : ∀ a, P (at_ a) → lo ≤ at_ a → Ends P lo' position (f a)) :
    Ends P lo' position (x >>= f) := by
  refine ⟨hx.1.bind fun a ha => (hf a (hx.2 a ha).1 (hx.2 a ha).2).1, fun b hb => ?_⟩
  obtain ⟨a, ha, hb⟩ := steps_eq_ok.mp hb
  exact (hf a (hx.2 a ha).1 (hx.2 a ha).2).2 b hb

/-- A step that only looks. -/
theorem Ends.after (hx : Safe x) (hf : ∀ a, x = .ok a → Ends P lo' position (f a)) :
    Ends P lo' position (x >>= f) := by
  refine ⟨hx.bind fun a ha => (hf a ha).1, fun b hb => ?_⟩
  obtain ⟨a, ha, hb⟩ := steps_eq_ok.mp hb
  exact (hf a ha).2 b hb

theorem ends_ok {b : β} (hP : P (position b)) (hle : lo ≤ position b) : Ends P lo position (.ok b) :=
  ⟨safe_ok b, fun _ h => by cases h; exact ⟨hP, hle⟩⟩

theorem ends_declined : Ends P lo position (.error .declined : Attempt β) :=
  ⟨safe_declined, fun _ h => by cases h⟩

theorem Ends.mono {x : Attempt β} (h : Ends P lo position x) (hle : lo' ≤ lo) : Ends P lo' position x :=
  ⟨h.1, fun b hb => ⟨(h.2 b hb).1, hle.trans (h.2 b hb).2⟩⟩

end Ends

/-! ### Characters -/

/-- `s[i..].chars().next()`. -/
def peekChar (s : List Char) (i : Nat) : Attempt (Option Char) := do
  let t ← tailAt s i
  return t.head?

/-- A loop over the characters of a class, that goes on by the width it gives them. -/
def skipWhile (p : Char → Bool) (width : Char → Nat) (s : List Char) : Nat → Nat → Attempt Nat
  | 0, _ => .error .panicked
  | fuel + 1, i => do
    match ← peekChar s i with
    | none => return i
    | some c => if p c then skipWhile p width s fuel (i + width c) else return i

section Characters

variable {s pre post : List Char} {i : Nat}

theorem peekChar_append (pre post : List Char) : peekChar (pre ++ post) (size pre) = .ok post.head? := by
  rw [peekChar, tailAt_append]
  rfl

theorem safe_peekChar (h : Boundary s i) : Safe (peekChar s i) :=
  (safe_tailAt.mpr h).bind fun t _ => safe_ok t.head?

/-- Behind a character that was seen there is a position. -/
theorem boundary_of_peek {c : Char} (h : peekChar s i = .ok (some c)) : Boundary s (i + c.utf8Size) := by
  obtain ⟨t, htail, ht⟩ := steps_eq_ok.mp h
  obtain ⟨pre, rfl, rfl⟩ := tailAt_eq_ok.mp htail
  cases t with
  | nil => cases ht
  | cons d t =>
    cases ht
    exact ⟨pre ++ [c], t, by simp, by simp⟩

theorem skipWhile_append {p : Char → Bool} {width : Char → Nat}
    (hwidth : ∀ c, p c = true → width c = c.utf8Size) (pre post : List Char) {fuel : Nat}
    (hfuel : post.length < fuel) :
    skipWhile p width (pre ++ post) fuel (size pre) = .ok (size pre + size (post.takeWhile p)) := by
  induction post generalizing pre fuel with
  | nil =>
    obtain ⟨fuel, rfl⟩ : ∃ n, fuel = n + 1 := ⟨fuel - 1, by omega⟩
    rw [skipWhile, peekChar_append]
    rfl
  | cons c post ih =>
    obtain ⟨fuel, rfl⟩ : ∃ n, fuel = n + 1 := ⟨fuel - 1, by omega⟩
    rw [length_cons] at hfuel
    rw [skipWhile, peekChar_append, ok_bind]
    simp only [head?_cons]
    by_cases hc : p c = true
    · have hpre : size pre + width c = size (pre ++ [c]) := by simp [hwidth c hc]
      have hsplit : pre ++ c :: post = (pre ++ [c]) ++ post := by simp
      rw [if_pos hc, hpre, hsplit, ih (pre ++ [c]) (by omega), takeWhile_cons_of_pos hc]
      simp [Nat.add_assoc]
    · rw [if_neg hc, takeWhile_cons_of_neg hc]
      rfl

/-- Such a loop ends between two characters. -/
theorem ends_skipWhile {p : Char → Bool} {width : Char → Nat}
    (hwidth : ∀ c, p c = true → width c = c.utf8Size) (h : Boundary s i) {fuel : Nat}
    (hfuel : s.length < fuel) : Ends (Boundary s) i id (skipWhile p width s fuel i) := by
  obtain ⟨pre, post, rfl, rfl⟩ := h
  rw [length_append] at hfuel
  rw [skipWhile_append hwidth pre post (by omega)]
  refine ends_ok ?_ (Nat.le_add_right _ _)
  refine ⟨pre ++ post.takeWhile p, post.dropWhile p, ?_, size_append _ _⟩
  rw [append_assoc, takeWhile_append_dropWhile]

end Characters

/-! ### Bytes -/

/-- A loop over the bytes of a class. -/
def skipBytes (p : UInt8 → Bool) (bytes : Bytes) : Nat → Nat → Attempt Nat
  | 0, _ => .error .panicked
  | fuel + 1, i =>
    match bytes[i]? with
    | some b => if p b then skipBytes p bytes fuel (i + 1) else .ok i
    | none => .ok i

section Bytes

variable {p : UInt8 → Bool} {bytes run rest : Bytes} {i fuel : Nat}

theorem ends_skipBytes (hi : i ≤ bytes.length) (hfuel : bytes.length - i < fuel) :
    Ends (· ≤ bytes.length) i id (skipBytes p bytes fuel i) := by
  induction fuel generalizing i with
  | zero => omega
  | succ fuel ih =>
    rw [skipBytes]
    split
    · rename_i b hb
      obtain ⟨hlt, -⟩ := List.getElem?_eq_some_iff.mp hb
      split
      · exact (ih (by omega) (by omega)).mono (Nat.le_succ i)
      · exact ends_ok hi (le_refl i)
    · exact ends_ok hi (le_refl i)

/-- It goes on where the class begins. -/
theorem ends_skipBytes_next {b : UInt8} (hb : bytes[i]? = some b) (hp : p b = true)
    (hfuel : bytes.length - i < fuel) : Ends (· ≤ bytes.length) (i + 1) id (skipBytes p bytes fuel i) := by
  obtain ⟨hlt, -⟩ := List.getElem?_eq_some_iff.mp hb
  obtain ⟨fuel, rfl⟩ : ∃ n, fuel = n + 1 := ⟨fuel - 1, by omega⟩
  rw [skipBytes, hb]
  simp only [hp, if_true]
  exact ends_skipBytes (by omega) (by omega)

/-- It goes over a run, up to what follows. -/
theorem skipBytes_append (pre : Bytes) (hrun : ∀ b ∈ run, p b = true) (hrest : ∀ b ∈ rest.head?, p b = false)
    (hfuel : run.length < fuel) :
    skipBytes p (pre ++ (run ++ rest)) fuel pre.length = .ok (pre.length + run.length) := by
  induction run generalizing pre fuel with
  | nil =>
    obtain ⟨fuel, rfl⟩ : ∃ n, fuel = n + 1 := ⟨fuel - 1, by omega⟩
    rw [skipBytes, nil_append, getElem?_append_right (le_refl _), Nat.sub_self]
    cases rest with
    | nil => rfl
    | cons b rest =>
      have hb : p b = false := hrest b rfl
      simp [hb]
  | cons b run ih =>
    obtain ⟨fuel, rfl⟩ : ∃ n, fuel = n + 1 := ⟨fuel - 1, by omega⟩
    rw [length_cons] at hfuel
    have hb : (pre ++ (b :: run ++ rest))[pre.length]? = some b := by simp
    have hsplit : pre ++ (b :: run ++ rest) = (pre ++ [b]) ++ (run ++ rest) := by simp
    have hlength : pre.length + 1 = (pre ++ [b]).length := by simp
    rw [skipBytes, hb]
    simp only [hrun b mem_cons_self, if_true]
    rw [hsplit, hlength, ih (pre ++ [b]) (fun c hc => hrun c (mem_cons_of_mem b hc)) (by omega)]
    simp only [length_append, length_cons, length_nil]
    congr 1
    omega

end Bytes

/-! ### What remains -/

/-- What remains to be read at a position. -/
def Remains (bytes : Bytes) (i : Nat) (rest : Bytes) : Prop := i ≤ bytes.length ∧ bytes.drop i = rest

section Remains

variable {p : UInt8 → Bool} {bytes run rest : Bytes} {i fuel : Nat}

theorem remains_zero (bytes : Bytes) : Remains bytes 0 bytes := ⟨Nat.zero_le _, rfl⟩

theorem Remains.getElem? (h : Remains bytes i rest) (k : Nat) : bytes[i + k]? = rest[k]? := by
  rw [← h.2, getElem?_drop]

theorem Remains.head (h : Remains bytes i rest) : bytes[i]? = rest.head? := by
  rw [head?_eq_getElem?, ← h.getElem? 0, Nat.add_zero]

theorem Remains.length (h : Remains bytes i rest) : i + rest.length = bytes.length := by
  rw [← h.2, length_drop]
  have := h.1
  omega

theorem Remains.next (h : Remains bytes i (run ++ rest)) : Remains bytes (i + run.length) rest := by
  have hlength := h.length
  rw [length_append] at hlength
  refine ⟨by omega, ?_⟩
  rw [← drop_drop, h.2, drop_left]

theorem Remains.next_byte {b : UInt8} (h : Remains bytes i (b :: rest)) : Remains bytes (i + 1) rest := by
  have hrun : Remains bytes i ([b] ++ rest) := h
  exact hrun.next

theorem Remains.split (h : Remains bytes i rest) : bytes = bytes.take i ++ rest ∧ (bytes.take i).length = i :=
  ⟨by rw [← h.2, take_append_drop], length_take_of_le h.1⟩

theorem Remains.cut (h : Remains bytes i (run ++ rest)) : cut bytes i (i + run.length) = .ok run := by
  obtain ⟨hsplit, hlength⟩ := h.split
  rw [hsplit]
  exact cut_append hlength rfl

theorem Remains.skipBytes (h : Remains bytes i (run ++ rest)) (hrun : ∀ b ∈ run, p b = true)
    (hrest : ∀ b ∈ rest.head?, p b = false) (hfuel : run.length < fuel) :
    skipBytes p bytes fuel i = .ok (i + run.length) := by
  obtain ⟨hsplit, hlength⟩ := h.split
  have hskip := skipBytes_append (bytes.take i) hrun hrest hfuel
  rwa [← hsplit, hlength] at hskip

end Remains

/-! ### Words -/

section Words

variable {s word : List Char} {i j : Nat}

end Words

end Alt.Library.TextScan
