import Alt.Library.Bytes

namespace Alt.Library

open List

/-!
# Library — streams of self-delimiting records

A reader that takes one record at a time off the front of a byte string, with a state it
carries from record to record (a hash chain's head, a file offset, nothing at all).
`Framing` carries the one law the proofs need: whether a record is there, and which, does
not depend on what follows it.

* `walk` — read records until none is left or one is refused;
* `Reads s body rs s'` — `body` is exactly the records `rs`, leading from `s` to `s'`;
* `walk_reads` — the walk passes over `body` and goes on with what follows;
* `walk_sound` — whatever the walk returns, it read.
-/

/-- What a reader finds at the front of its input. -/
inductive Next (σ ρ ε : Type)
  | stop
  | fail (error : ε)
  | record (r : ρ) (state : σ) (rest : Bytes)

/-- A record reader.  A record it finds is a nonempty prefix of the input, found there
    whatever comes behind it. -/
structure Framing (σ ρ ε : Type) where
  next : σ → Bytes → Next σ ρ ε
  local_record : ∀ {s s' data rest r}, next s data = .record r s' rest →
    ∃ b, data = b ++ rest ∧ b ≠ [] ∧ ∀ rest', next s (b ++ rest') = .record r s' rest'

/-- What a walk found: the records, the bytes they span, and the error that ended it. -/
structure Framing.Found (ρ ε : Type) where
  records : List ρ
  valid : Nat
  error : Option ε

namespace Framing

variable {σ ρ ε : Type} (F : Framing σ ρ ε)

/-- Take records off the front of `data` until it stops or fails. -/
def walkFuel : Nat → σ → Bytes → Found ρ ε
  | 0, _, _ => ⟨[], 0, none⟩
  | fuel + 1, s, data =>
    match F.next s data with
    | .stop => ⟨[], 0, none⟩
    | .fail e => ⟨[], 0, some e⟩
    | .record r s' rest =>
      let found := walkFuel fuel s' rest
      ⟨r :: found.records, data.length - rest.length + found.valid, found.error⟩

/-- A record is not empty, so there are at most as many as there are bytes. -/
def walk (s : σ) (data : Bytes) : Found ρ ε := F.walkFuel (data.length + 1) s data

/-- `body` is exactly the records `rs`, leading from state `s` to `s'`. -/
inductive Reads : σ → Bytes → List ρ → σ → Prop
  | nil (s : σ) : Reads s [] [] s
  | cons {s s' s'' : σ} {b body : Bytes} {r : ρ} {rs : List ρ} :
      b ≠ [] → (∀ rest, F.next s (b ++ rest) = .record r s' rest) → Reads s' body rs s'' →
      Reads s (b ++ body) (r :: rs) s''

variable {F}

variable {s s' : σ} {body : Bytes} {rs : List ρ}

theorem Reads.length_le (h : F.Reads s body rs s') :
    rs.length ≤ body.length := by
  induction h with
  | nil => simp
  | cons hb _ _ ih =>
    have := length_pos_iff.mpr hb
    simp only [length_cons, length_append]
    omega

/-- The walk passes over the records of `body` and goes on with what follows. -/
theorem walkFuel_reads (h : F.Reads s body rs s') (fuel : Nat) (rest : Bytes) :
    F.walkFuel (rs.length + fuel) s (body ++ rest)
      = ⟨rs ++ (F.walkFuel fuel s' rest).records, body.length + (F.walkFuel fuel s' rest).valid,
          (F.walkFuel fuel s' rest).error⟩ := by
  induction h with
  | nil => simp
  | @cons s s' s'' b body r rs hb hn _ ih =>
    have hfuel : (r :: rs).length + fuel = (rs.length + fuel) + 1 := by
      simp only [length_cons]; omega
    have hsize : (b ++ (body ++ rest)).length - (body ++ rest).length = b.length := by
      simp only [length_append]; omega
    rw [hfuel, append_assoc, walkFuel, hn]
    simp only [ih, hsize, cons_append]
    rw [show (b ++ body).length = b.length + body.length from length_append, Nat.add_assoc]

variable {data : Bytes}

/-- A record leaves less than there was. -/
theorem length_rest_lt {rest : Bytes} {r : ρ} (h : F.next s data = .record r s' rest) :
    rest.length < data.length := by
  obtain ⟨b, rfl, hb, -⟩ := F.local_record h
  have := length_pos_iff.mpr hb
  rw [length_append]
  omega

/-- Fuel beyond the number of bytes changes nothing. -/
theorem walkFuel_eq {fuel fuel' : Nat} (h : data.length < fuel) (h' : data.length < fuel') :
    F.walkFuel fuel s data = F.walkFuel fuel' s data := by
  induction fuel generalizing s data fuel' with
  | zero => omega
  | succ fuel ih =>
    obtain ⟨fuel', rfl⟩ := Nat.exists_eq_add_one.mpr (by omega : 0 < fuel')
    simp only [walkFuel]
    cases hnext : F.next s data with
    | stop => rfl
    | fail e => rfl
    | record r s' rest =>
      have hlt := length_rest_lt hnext
      have hsame : F.walkFuel fuel s' rest = F.walkFuel fuel' s' rest := ih (by omega) (by omega)
      simp only [hsame]

/-- **The walk reads what is there.** It passes over the records of `body` and goes on with
    what follows them. -/
theorem walk_reads (h : F.Reads s body rs s') (rest : Bytes) :
    F.walk s (body ++ rest)
      = ⟨rs ++ (F.walk s' rest).records, body.length + (F.walk s' rest).valid,
          (F.walk s' rest).error⟩ := by
  have hle := h.length_le
  have hfuel : (body ++ rest).length + 1
      = rs.length + ((body ++ rest).length + 1 - rs.length) := by
    rw [length_append]; omega
  have hrest : F.walkFuel ((body ++ rest).length + 1 - rs.length) s' rest = F.walk s' rest :=
    walkFuel_eq (by rw [length_append]; omega) (by omega)
  rw [walk, hfuel, walkFuel_reads h, hrest]

/-- An input that holds no first record ends the walk. -/
theorem walk_stop (h : F.next s data = .stop) :
    F.walk s data = ⟨[], 0, none⟩ := by
  rw [walk, walkFuel, h]

theorem walk_reads_stop {torn : Bytes} (h : F.Reads s body rs s') (ht : F.next s' torn = .stop) :
    F.walk s (body ++ torn) = ⟨rs, body.length, none⟩ := by
  rw [walk_reads h, walk_stop ht]
  simp

/-- **What the walk returns, it read.** -/
theorem walk_sound {found : Found ρ ε} (h : F.walk s data = found) :
    ∃ body torn s', data = body ++ torn ∧ F.Reads s body found.records s' ∧
      body.length = found.valid := by
  subst h
  rw [walk]
  generalize data.length + 1 = fuel
  induction fuel generalizing s data with
  | zero => exact ⟨[], data, s, rfl, .nil s, rfl⟩
  | succ fuel ih =>
    rw [walkFuel]
    cases hnext : F.next s data with
    | stop => exact ⟨[], data, s, rfl, .nil s, rfl⟩
    | fail e => exact ⟨[], data, s, rfl, .nil s, rfl⟩
    | record r s' rest =>
      obtain ⟨b, rfl, hb, hlocal⟩ := F.local_record hnext
      obtain ⟨body, torn, s'', rfl, hreads, hlen⟩ := @ih s' rest
      refine ⟨b ++ body, torn, s'', by rw [append_assoc], .cons hb hlocal hreads, ?_⟩
      simp only [length_append, hlen]
      omega

end Framing

end Alt.Library
