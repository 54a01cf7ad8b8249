import Alt.StructDiff.Json

namespace Alt.StructDiff

open Alt.Library Attempt TextScan

/-!
# Structured diff — the JSON parser reads any bytes

No reader looks behind the end, and each round of a loop leaves a byte behind.

* `ends_parseString`, `ends_parseNumber` — strings and numbers;
* `safe_parseJson` — whole documents.
-/

variable {bytes : Bytes} {i fuel : Nat}

theorem lt_of_getElem? {b : UInt8} (h : bytes[i]? = some b) : i < bytes.length :=
  (List.getElem?_eq_some_iff.mp h).1

theorem ends_skipWhitespace (hi : i ≤ bytes.length) :
    Ends (· ≤ bytes.length) i id (skipWhitespace bytes i) :=
  ends_skipBytes hi (by omega)

theorem ends_expect (c : UInt8) (i : Nat) : Ends (· ≤ bytes.length) (i + 1) id (expect bytes c i) := by
  rw [expect]
  split
  · rename_i h
    exact ends_ok (lt_of_getElem? h) (le_refl _)
  · exact ends_declined

theorem ends_parseLiteral (lit : Bytes) (out : Value) (i : Nat) :
    Ends (· ≤ bytes.length) i Prod.snd (parseLiteral bytes lit out i) := by
  rw [parseLiteral]
  split
  · rename_i h
    rw [getSlice] at h
    split at h
    · rename_i hfits
      exact ends_ok hfits.2 hfits.1
    · cases h
  · exact ends_declined

theorem ends_stringLoop {out : Text} (hi : i ≤ bytes.length) (hfuel : bytes.length - i < fuel) :
    Ends (· ≤ bytes.length) i Prod.snd (stringLoop bytes fuel out i) := by
  induction fuel generalizing i out with
  | zero => omega
  | succ fuel ih =>
    rw [stringLoop]
    split
    · exact ends_declined
    · rename_i b hb
      have hlt := lt_of_getElem? hb
      split
      · exact ends_ok hlt (Nat.le_succ i)
      · split
        · split
          · exact ends_declined
          · rename_i e he
            have hlt' := lt_of_getElem? he
            split
            · refine Ends.after (safe_orDecline _) fun hex hhex => ?_
              refine Ends.after (safe_orDecline _) fun _ _ => Ends.after (safe_orDecline _) fun cp _ => ?_
              have hhex := orDecline_eq_ok.mp hhex
              rw [getSlice] at hhex
              split at hhex
              · rename_i hfits
                exact (ih hfits.2 (by omega)).mono (Nat.le_add_right i 6)
              · cases hhex
            · exact Ends.after (safe_orDecline _) fun c _ => (ih hlt' (by omega)).mono (Nat.le_add_right i 2)
        · rename_i hquote hescape
          have hplain : isPlain b = true := by simp [isPlain, hquote, hescape]
          refine Ends.bind (ends_skipBytes_next hb hplain (by omega)) fun stop hstop hnext => ?_
          dsimp only [id] at hstop hnext
          refine Ends.after (safe_cut.mpr ⟨by omega, hstop⟩) fun chunk _ => ?_
          exact Ends.after (safe_orDecline _) fun text _ => (ih hstop (by omega)).mono (by omega)

theorem ends_parseString : Ends (· ≤ bytes.length) (i + 1) Prod.snd (parseString bytes i) := by
  refine Ends.bind (ends_expect 0x22 i) fun j hj hij => ?_
  exact (ends_stringLoop hj (by dsimp only [id] at *; omega)).mono hij

theorem ends_parseNumber (hi : i ≤ bytes.length) : Ends (· ≤ bytes.length) i Prod.snd (parseNumber bytes i) := by
  have hfirst : i ≤ (if bytes[i]? = some 0x2d then i + 1 else i) ∧
      (if bytes[i]? = some 0x2d then i + 1 else i) ≤ bytes.length := by
    split
    · rename_i h
      exact ⟨Nat.le_succ i, lt_of_getElem? h⟩
    · exact ⟨le_refl i, hi⟩
  refine Ends.bind (ends_skipBytes hfirst.2 (by omega)) fun stop hstop hle => ?_
  refine Ends.after (safe_cut.mpr ⟨hfirst.1.trans hle, hstop⟩) fun piece _ => ?_
  refine Ends.after (safe_orDecline _) fun raw _ => Ends.after (safe_orDecline _) fun canonical _ => ?_
  exact ends_ok hstop (hfirst.1.trans hle)

/-- The readers of values, with fuel for four calls a byte. -/
theorem ends_jsonValues (fuel : Nat) :
    (∀ i ≤ bytes.length, 4 * (bytes.length - i) + 3 ≤ fuel →
      Ends (· ≤ bytes.length) i Prod.snd (parseValue bytes fuel i)) ∧
    (∀ i ≤ bytes.length, 4 * (bytes.length - i) + 2 ≤ fuel →
      Ends (· ≤ bytes.length) i Prod.snd (parseObject bytes fuel i)) ∧
    (∀ i ≤ bytes.length, ∀ entries, 4 * (bytes.length - i) + 4 ≤ fuel →
      Ends (· ≤ bytes.length) i Prod.snd (objectLoop bytes fuel entries i)) ∧
    (∀ i ≤ bytes.length, 4 * (bytes.length - i) + 2 ≤ fuel →
      Ends (· ≤ bytes.length) i Prod.snd (parseArray bytes fuel i)) ∧
    ∀ i ≤ bytes.length, ∀ items, 4 * (bytes.length - i) + 4 ≤ fuel →
      Ends (· ≤ bytes.length) i Prod.snd (arrayLoop bytes fuel items i) := by
  induction fuel with
  | zero =>
    exact ⟨fun i _ h => by omega, fun i _ h => by omega, fun i _ _ h => by omega, fun i _ h => by omega,
      fun i _ _ h => by omega⟩
  | succ fuel ih =>
    obtain ⟨ihvalue, ihobject, ihentries, iharray, ihitems⟩ := ih
    refine ⟨fun i hi hfuel => ?_, fun i hi hfuel => ?_, fun i hi entries hfuel => ?_, fun i hi hfuel => ?_,
      fun i hi items hfuel => ?_⟩
    · rw [parseValue]
      refine Ends.bind (ends_skipWhitespace hi) fun j hj hij => Ends.after (safe_orDecline _) fun b _ => ?_
      dsimp only [id] at hj hij
      split
      · exact (ends_parseLiteral _ _ j).mono hij
      · split
        · exact (ends_parseLiteral _ _ j).mono hij
        · split
          · exact (ends_parseLiteral _ _ j).mono hij
          · split
            · exact Ends.bind ends_parseString fun p hp hjp => ends_ok hp (by dsimp only at *; omega)
            · split
              · exact (ihobject j hj (by omega)).mono hij
              · split
                · exact (iharray j hj (by omega)).mono hij
                · split
                  · exact (ends_parseNumber hj).mono hij
                  · exact ends_declined
    · rw [parseObject]
      refine Ends.bind (ends_expect 0x7b i) fun j hj hij => Ends.bind (ends_skipWhitespace hj) fun k hk hjk => ?_
      dsimp only [id] at *
      split
      · rename_i hclose
        exact ends_ok (lt_of_getElem? hclose) (by dsimp only; omega)
      · exact (ihentries k hk [] (by omega)).mono (by omega)
    · rw [objectLoop]
      refine Ends.bind (ends_skipWhitespace hi) fun j hj hij => ?_
      refine Ends.bind ends_parseString fun p hk hjk => ?_
      obtain ⟨key, k⟩ := p
      refine Ends.bind (ends_skipWhitespace hk) fun l hl hkl => ?_
      refine Ends.bind (ends_expect 0x3a l) fun m hm hlm => ?_
      dsimp only [id] at *
      refine Ends.bind (ihvalue m hm (by omega)) fun p hn hmn => ?_
      obtain ⟨v, n⟩ := p
      refine Ends.bind (ends_skipWhitespace hn) fun o ho hno => ?_
      refine Ends.after (safe_orDecline _) fun b hb => ?_
      have hlt := lt_of_getElem? (orDecline_eq_ok.mp hb)
      dsimp only [id] at *
      split
      · exact (ihentries (o + 1) hlt _ (by omega)).mono (by omega)
      · split
        · exact ends_ok hlt (by dsimp only; omega)
        · exact ends_declined
    · rw [parseArray]
      refine Ends.bind (ends_expect 0x5b i) fun j hj hij => Ends.bind (ends_skipWhitespace hj) fun k hk hjk => ?_
      dsimp only [id] at *
      split
      · rename_i hclose
        exact ends_ok (lt_of_getElem? hclose) (by dsimp only; omega)
      · exact (ihitems k hk [] (by omega)).mono (by omega)
    · rw [arrayLoop]
      refine Ends.bind (ihvalue i hi (by omega)) fun p hj hij => ?_
      obtain ⟨v, j⟩ := p
      refine Ends.bind (ends_skipWhitespace hj) fun k hk hjk => Ends.after (safe_orDecline _) fun b hb => ?_
      have hlt := lt_of_getElem? (orDecline_eq_ok.mp hb)
      dsimp only [id] at *
      split
      · exact (ihitems (k + 1) hlt _ (by omega)).mono (by omega)
      · split
        · exact ends_ok hlt (by dsimp only; omega)
        · exact ends_declined

/-- **A JSON document** is read or refused. -/
theorem safe_parseJson (bytes : Bytes) : Safe (parseJson bytes) := by
  obtain ⟨hsafe, hends⟩ := @ends_skipWhitespace bytes _ (Nat.zero_le _)
  refine hsafe.bind fun i hi => ?_
  obtain ⟨hle, -⟩ := hends i hi
  dsimp only [id] at hle
  obtain ⟨hsafe, hends⟩ := (@ends_jsonValues bytes (4 * bytes.length + 4)).1 i hle (by omega)
  refine hsafe.bind fun ⟨v, j⟩ hv => ?_
  obtain ⟨hle, -⟩ := hends _ hv
  exact (ends_skipWhitespace hle).1.bind fun k _ => safe_declineIf.bind fun _ _ => safe_ok v

end Alt.StructDiff
