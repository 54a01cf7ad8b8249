import Alt.StructDiff.JsonTotal
import Alt.StructDiff.TomlTotal

namespace Alt.StructDiff

open Alt.Library Attempt TextScan List

/-!
# Structured diff — where it panics (`summary_for_path` of `alt-diff/src/structured.rs`)

Both parsers read every input; what they build and what is shown of it do not always go well.  A TOML
statement may lead through something that is no table, and a string that is shown is cut after 64 bytes,
which may be inside a character.

* `summaryForPath` — the summary of a file's two versions;
* `Shown` — the values that are shown: those at which two documents first differ;
* `summaryForPath_safe_iff` — when there is no panic.
-/

/-! ### Summaries -/

/-- `looks_like_json`. -/
def looksLikeJson (data : Bytes) : Bool :=
  match data.dropWhile isSpace with
  | [] => false
  | b :: _ =>
    b == 0x7b || b == 0x5b || b == 0x22 || b == 0x74 || b == 0x66 || b == 0x6e || b == 0x2d || (0x30 ≤ b && b ≤ 0x39)

def jsonSummary (old new : Bytes) : Attempt Summary := do
  let oldVal ← parseJson old
  let newVal ← parseJson new
  let paths ← diffValues ['$'] oldVal newVal
  return ⟨.json, paths⟩

def summary (old new : Bytes) : Attempt Summary :=
  if looksLikeJson old && looksLikeJson new then jsonSummary old new else .error .declined

def tomlSummary (old new : Bytes) : Attempt Summary := do
  let oldVal ← parseToml old
  let newVal ← parseToml new
  let paths ← diffValues ['$'] oldVal newVal
  return ⟨.toml, paths⟩

/-- The file's name ends so, in either case. -/
def hasSuffix (suffix : String) (path : Text) : Bool := suffix.toList.isSuffixOf (path.map Char.toLower)

def summaryForPath (path : Text) (old new : Bytes) : Attempt Summary :=
  if hasSuffix ".toml" path then tomlSummary old new
  else if hasSuffix ".json" path || (looksLikeJson old && looksLikeJson new) then jsonSummary old new
  else .error .declined

/-! ### What is shown -/

/-- A value that can be shown: a string of at most 64 bytes, or with a character's end there. -/
def Value.Cuttable (v : Value) : Prop := ∀ s, v = .string s → 64 < size s → Boundary s 64

theorem safe_shortRepr_iff (v : Value) : Safe v.shortRepr ↔ v.Cuttable := by
  cases v with
  | string s =>
    rw [Value.shortRepr, Value.writeRepr]
    by_cases hsize : size s ≤ 64
    · rw [if_pos hsize]
      refine iff_of_true (safe_ok _) fun t ht hlt => ?_
      cases ht
      omega
    · rw [if_neg hsize]
      simp only [pure_eq_ok, safe_return, safe_pieceAt_iff]
      refine ⟨fun h t ht _ => ?_, fun h => ⟨boundary_zero s, h s rfl (by omega), Nat.zero_le 64⟩⟩
      cases ht
      exact h.2.1
  | bool b => cases b <;> exact iff_of_true (safe_ok _) fun s hs => by cases hs
  | _ => exact iff_of_true (safe_ok _) fun s hs => by cases hs

theorem shortRepr_ne_declined (v : Value) : v.shortRepr ≠ .error .declined := by
  cases v with
  | string s =>
    rw [Value.shortRepr, Value.writeRepr]
    split
    · exact fun h => by cases h
    · intro h
      cases hpiece : pieceAt s 0 64 with
      | error e =>
        rw [hpiece] at h
        cases h
        exact pieceAt_ne_declined hpiece
      | ok t =>
        rw [hpiece] at h
        cases h
  | bool b => cases b <;> exact fun h => by cases h
  | _ => exact fun h => by cases h

/-- Two objects, or two arrays. -/
def Alike : Value → Value → Prop
  | .object _, .object _ => True
  | .array _, .array _ => True
  | _, _ => False

/-- The values at which two documents first differ. -/
inductive Shown : Value → Value → Value → Prop where
  | old {a b} : ¬Alike a b → a ≠ b → Shown a b a
  | new {a b} : ¬Alike a b → a ≠ b → Shown a b b
  | key {o n k a b v} : lookup o k = some a → lookup n k = some b → Shown a b v → Shown (.object o) (.object n) v
  | keyAdded {o n k b} : lookup o k = none → lookup n k = some b → Shown (.object o) (.object n) b
  | keyRemoved {o n k a} : lookup o k = some a → lookup n k = none → Shown (.object o) (.object n) a
  | item {o n : List Value} {i : Nat} {a b v} : o[i]? = some a → n[i]? = some b → Shown a b v → Shown (.array o) (.array n) v
  | itemAdded {o n : List Value} {i : Nat} {b} : o[i]? = none → n[i]? = some b → Shown (.array o) (.array n) b
  | itemRemoved {o n : List Value} {i : Nat} {a} : o[i]? = some a → n[i]? = none → Shown (.array o) (.array n) a

/-! ### Loops that only show -/

/-- An attempt that never declines. -/
def Definite {α : Type} (x : Attempt α) : Prop := x ≠ .error .declined

section Loops

variable {α β γ : Type} {f : α → Attempt β} {l : List α}

theorem definite_ok (a : α) : Definite (.ok a : Attempt α) := fun h => by cases h

variable {x : Attempt α}

theorem Definite.exists_ok (hx : Definite x) (hsafe : Safe x) : ∃ a, x = .ok a := by
  cases x with
  | ok a => exact ⟨a, rfl⟩
  | error e =>
    cases e with
    | declined => exact absurd rfl hx
    | panicked => exact absurd hsafe not_safe_panicked

theorem Definite.bind (hx : Definite x) (hf : ∀ a, x = .ok a → Definite (f a)) :
    Definite (x >>= f) := by
  cases x with
  | ok a => exact hf a rfl
  | error e => exact fun h => hx (by cases h; rfl)

theorem definite_mapM (h : ∀ x ∈ l, Definite (f x)) : Definite (l.mapM f) := by
  induction l with
  | nil => exact definite_ok []
  | cons x l ih =>
    rw [mapM_cons]
    refine (h x mem_cons_self).bind fun b _ => ?_
    exact (ih fun y hy => h y (mem_cons_of_mem x hy)).bind fun bs _ => definite_ok _

/-- A definite step is safe on its own, where the next does not depend on it. -/
theorem safe_then_iff {P : Prop} (hx : Definite x) (hf : ∀ a, Safe (f a) ↔ P) :
    Safe (x >>= f) ↔ Safe x ∧ P := by
  cases x with
  | ok a => simpa using hf a
  | error e =>
    cases e with
    | declined => exact absurd rfl hx
    | panicked => exact iff_of_false not_safe_panicked fun h => not_safe_panicked h.1

/-- A loop of definite rounds is safe where each round is. -/
theorem safe_mapM_iff (h : ∀ x ∈ l, Definite (f x)) : Safe (l.mapM f) ↔ ∀ x ∈ l, Safe (f x) := by
  induction l with
  | nil => exact iff_of_true (safe_ok []) fun x hx => by cases hx
  | cons x l ih =>
    have ih := ih fun y hy => h y (mem_cons_of_mem x hy)
    rw [mapM_cons, forall_mem_cons]
    cases hx : f x with
    | ok b => simpa only [ok_bind, pure_eq_ok, safe_return, safe_ok, true_and] using ih
    | error e =>
      cases e with
      | declined => exact absurd hx (h x mem_cons_self)
      | panicked => exact iff_of_false not_safe_panicked fun hall => not_safe_panicked hall.1

end Loops

/-! ### When the differences can be shown -/

variable (path : Text) (entry : Value × Nat)

theorem definite_added : Definite (addedItem path entry) :=
  Definite.bind (shortRepr_ne_declined _) fun _ _ => definite_ok _

theorem definite_removed : Definite (removedItem path entry) :=
  Definite.bind (shortRepr_ne_declined _) fun _ _ => definite_ok _

theorem definite_diffKey {path : Text} {o n : List (Text × Value)} {k : Text}
    (h : ∀ a b, lookup o k = some a → Definite (diffValues (keyPath path k) a b)) :
    Definite (diffKey path o n k) := by
  rw [diffKey]
  split
  · rename_i a b ha hb
    exact h a b ha
  · exact Definite.bind (shortRepr_ne_declined _) fun _ _ => definite_ok _
  · exact Definite.bind (shortRepr_ne_declined _) fun _ _ => definite_ok _
  · exact definite_ok _

theorem definite_diffItem {path : Text} {o n : List Value} {i : Nat}
    (h : ∀ a b, o[i]? = some a → Definite (diffValues (indexPath path i) a b)) :
    Definite (diffItem path o n i) := by
  rw [diffItem]
  split
  · rename_i a b ha hb
    exact h a b ha
  · exact fun h => by cases h

theorem definite_diffValues (old new : Value) : Definite (diffValues path old new) := by
  induction path, old, new using diffValues.induct with
  | case1 path o n ih =>
    rw [diffValues_object]
    refine (definite_mapM fun k _ => definite_diffKey fun a b ha => ?_).bind fun _ _ => definite_ok _
    exact ih k a b ha
  | case2 path o n ih =>
    rw [diffValues_array]
    refine (definite_mapM fun i _ => definite_diffItem fun a b ha => ih i a b ha).bind fun _ _ => ?_
    refine (definite_mapM fun entry _ => definite_added path entry).bind fun _ _ => ?_
    exact (definite_mapM fun entry _ => definite_removed path entry).bind fun _ _ => definite_ok _
  | case3 path b hobj harr =>
    rw [diffValues.eq_3 path b b hobj harr, if_pos rfl]
    exact definite_ok []
  | case4 path a b hobj harr hne =>
    rw [diffValues.eq_3 path a b hobj harr, if_neg hne]
    refine Definite.bind (shortRepr_ne_declined a) fun _ _ => ?_
    exact Definite.bind (shortRepr_ne_declined b) fun _ _ => definite_ok _

theorem not_alike {a b : Value} (hobj : ∀ o n, a = .object o → b = .object n → False)
    (harr : ∀ o n, a = .array o → b = .array n → False) : ¬Alike a b := by
  intro h
  cases a <;> cases b <;> first | exact h | exact hobj _ _ rfl rfl | exact harr _ _ rfl rfl

theorem safe_diffKey_iff {path : Text} {o n : List (Text × Value)} {k : Text}
    (ih : ∀ a b, lookup o k = some a →
      (Safe (diffValues (keyPath path k) a b) ↔ ∀ v, Shown a b v → v.Cuttable)) :
    Safe (diffKey path o n k) ↔
      (∀ a b, lookup o k = some a → lookup n k = some b → ∀ v, Shown a b v → v.Cuttable) ∧
      (∀ b, lookup o k = none → lookup n k = some b → b.Cuttable) ∧
      ∀ a, lookup o k = some a → lookup n k = none → a.Cuttable := by
  rw [diffKey]
  cases ho : lookup o k with
  | none =>
    cases hn : lookup n k with
    | none => simp
    | some b => simp [safe_return, safe_shortRepr_iff]
  | some a =>
    cases hn : lookup n k with
    | none => simp [safe_return, safe_shortRepr_iff]
    | some b => simpa using ih a b ho

theorem safe_added_iff :
    Safe (addedItem path entry) ↔ entry.1.Cuttable := by
  rw [addedItem]
  simp only [pure_eq_ok, safe_return, safe_shortRepr_iff]

theorem safe_removed_iff :
    Safe (removedItem path entry) ↔ entry.1.Cuttable := by
  rw [removedItem]
  simp only [pure_eq_ok, safe_return, safe_shortRepr_iff]

theorem shown_iff_of_not_alike {a b v : Value} (h : ¬Alike a b) : Shown a b v ↔ a ≠ b ∧ (v = a ∨ v = b) := by
  constructor
  · intro hv
    cases hv with
    | old _ hne => exact ⟨hne, .inl rfl⟩
    | new _ hne => exact ⟨hne, .inr rfl⟩
    | _ => exact absurd trivial h
  · rintro ⟨hne, rfl | rfl⟩
    · exact .old h hne
    · exact .new h hne

/-- The differences can be shown exactly when each value at which they begin can. -/
theorem safe_diffValues_iff (old new : Value) :
    Safe (diffValues path old new) ↔ ∀ v, Shown old new v → v.Cuttable := by
  induction path, old, new using diffValues.induct with
  | case1 path o n ih =>
    rw [diffValues_object]
    simp only [pure_eq_ok, safe_return]
    rw [safe_mapM_iff fun k _ => definite_diffKey fun a b _ => definite_diffValues _ a b]
    constructor
    · intro hall v hv
      cases hv with
      | @key _ _ k a b _ ha hb hshown =>
        have hk := hall k (mem_keysOf.mpr (.inl (by rw [ha]; rfl)))
        exact ((safe_diffKey_iff fun a b ha => ih k a b ha).mp hk).1 a b ha hb v hshown
      | @keyAdded _ _ k _ ha hb =>
        have hk := hall k (mem_keysOf.mpr (.inr (by rw [hb]; rfl)))
        exact ((safe_diffKey_iff fun a b ha => ih k a b ha).mp hk).2.1 v ha hb
      | @keyRemoved _ _ k _ ha hb =>
        have hk := hall k (mem_keysOf.mpr (.inl (by rw [ha]; rfl)))
        exact ((safe_diffKey_iff fun a b ha => ih k a b ha).mp hk).2.2 v ha hb
      | old halike => exact absurd trivial halike
      | new halike => exact absurd trivial halike
    · intro hall k _
      refine (safe_diffKey_iff fun a b ha => ih k a b ha).mpr ⟨?_, ?_, ?_⟩
      · exact fun a b ha hb v hv => hall v (.key ha hb hv)
      · exact fun b ha hb => hall b (.keyAdded ha hb)
      · exact fun a ha hb => hall a (.keyRemoved ha hb)
  | case2 path o n ih =>
    have hparts := safe_mapM_iff (l := List.range (min o.length n.length)) (f := diffItem path o n)
      fun i _ => definite_diffItem fun a b _ => definite_diffValues _ a b
    have hadded := safe_mapM_iff (l := n.zipIdx.drop (min o.length n.length)) (f := addedItem path)
      fun entry _ => definite_added path entry
    have hremoved := safe_mapM_iff (l := o.zipIdx.drop (min o.length n.length)) (f := removedItem path)
      fun entry _ => definite_removed path entry
    rw [diffValues_array]
    simp only [pure_eq_ok]
    rw [safe_then_iff (definite_mapM fun i _ => definite_diffItem fun a b _ => definite_diffValues _ a b)
      fun _ => safe_then_iff (definite_mapM fun entry _ => definite_added path entry)
        fun _ => safe_return]
    rw [hparts, hadded, hremoved]
    simp only [safe_added_iff, safe_removed_iff, Prod.forall, mem_drop_zipIdx, mem_range, lt_min_iff]
    constructor
    · rintro ⟨hboth, hnew, hold⟩ v hv
      cases hv with
      | @item _ _ i a b _ ha hb hshown =>
        have hround := hboth i ⟨(List.getElem?_eq_some_iff.mp ha).1, (List.getElem?_eq_some_iff.mp hb).1⟩
        rw [diffItem, ha, hb] at hround
        exact (ih i a b ha).mp hround v hshown
      | @itemAdded _ _ i _ ha hb =>
        have hlength := List.getElem?_eq_none_iff.mp ha
        exact hnew v i ⟨by omega, hb⟩
      | @itemRemoved _ _ i _ ha hb =>
        have hlength := List.getElem?_eq_none_iff.mp hb
        exact hold v i ⟨by omega, ha⟩
      | old halike => exact absurd trivial halike
      | new halike => exact absurd trivial halike
    · intro hall
      refine ⟨fun i hi => ?_, fun v i hv => ?_, fun v i hv => ?_⟩
      · have ha := getElem?_eq_getElem hi.1
        have hb := getElem?_eq_getElem hi.2
        rw [diffItem, ha, hb]
        exact (ih i _ _ ha).mpr fun v hv => hall v (.item ha hb hv)
      · have hlt := (List.getElem?_eq_some_iff.mp hv.2).1
        exact hall v (.itemAdded (List.getElem?_eq_none_iff.mpr (by omega)) hv.2)
      · have hlt := (List.getElem?_eq_some_iff.mp hv.2).1
        exact hall v (.itemRemoved hv.2 (List.getElem?_eq_none_iff.mpr (by omega)))
  | case3 path b hobj harr =>
    rw [diffValues.eq_3 path b b hobj harr, if_pos rfl]
    refine iff_of_true (safe_ok _) fun v hv => ?_
    exact absurd rfl ((shown_iff_of_not_alike (not_alike hobj harr)).mp hv).1
  | case4 path a b hobj harr hne =>
    rw [diffValues.eq_3 path a b hobj harr, if_neg hne]
    simp only [pure_eq_ok]
    rw [safe_then_iff (shortRepr_ne_declined a) fun _ => safe_return, safe_shortRepr_iff, safe_shortRepr_iff]
    simp [shown_iff_of_not_alike (not_alike hobj harr), hne]

/-! ### When there is a summary -/

/-- A TOML document of which every statement goes through tables only. -/
def Builds (data : Bytes) : Prop := ∀ s, fromUtf8 data = some s → Consistent [] [] (statements s.toList)

/-- The values that are shown of two documents can be. -/
def ShowsWell (old new : Value) : Prop := ∀ v, Shown old new v → v.Cuttable

/-- **The summary of two versions** does not panic exactly when each TOML statement goes through tables only,
and no shown string has a character across its 64th byte. -/
theorem summaryForPath_safe_iff (path : Text) (old new : Bytes) :
    Safe (summaryForPath path old new) ↔
      if hasSuffix ".toml" path then
        Builds old ∧ ∀ o, parseToml old = .ok o →
          Builds new ∧ ∀ n, parseToml new = .ok n → ShowsWell o n
      else (hasSuffix ".json" path || (looksLikeJson old && looksLikeJson new)) = true →
        ∀ o n, parseJson old = .ok o → parseJson new = .ok n → ShowsWell o n := by
  rw [summaryForPath]
  by_cases htoml : hasSuffix ".toml" path = true
  · rw [if_pos htoml, if_pos htoml, tomlSummary]
    simp only [safe_bind, pure_eq_ok, safe_ok, implies_true, and_true, safe_parseToml_iff,
      safe_diffValues_iff]
    rfl
  · rw [if_neg htoml, if_neg htoml]
    by_cases hjson : (hasSuffix ".json" path || (looksLikeJson old && looksLikeJson new)) = true
    · rw [if_pos hjson, jsonSummary]
      simp only [safe_bind, pure_eq_ok, safe_ok, implies_true, and_true, safe_parseJson, true_and,
        safe_diffValues_iff]
      exact ⟨fun h _ o n ho hn => h o ho n hn, fun h o ho n hn => h hjson o n ho hn⟩
    · rw [if_neg hjson]
      exact iff_of_true safe_declined fun h => absurd h hjson

/-- An empty array, and a key under it. -/
theorem key_under_empty_array : ¬Safe (summaryForPath "a.toml".toList (utf8 "a = []\na.b = 'x'\n") []) := by
  have hrun : summaryForPath "a.toml".toList (utf8 "a = []\na.b = 'x'\n") [] = .error .panicked := by
    decide +kernel
  exact fun h => h hrun

end Alt.StructDiff
