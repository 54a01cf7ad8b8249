import Alt.Library.TextScan

namespace Alt.StructDiff

open Alt.Library Attempt TextScan List

/-!
# Structured diff — values and what differs between them (`alt-diff/src/structured.rs`)

* `Value` — a parsed document; `Value.shortRepr` — how one is shown, cut after 64 bytes;
* `diffValues` — the places at which two of them first differ, each with what is shown there.
-/

abbrev Text := List Char

inductive StructKind where
  | json
  | toml
  deriving DecidableEq, Repr

inductive PathChange where
  | changed (oldRepr newRepr : Text)
  | added (newRepr : Text)
  | removed (oldRepr : Text)
  deriving DecidableEq, Repr

structure Summary where
  kind : StructKind
  paths : List (Text × PathChange)
  deriving DecidableEq, Repr

def Summary.semanticallyUnchanged (s : Summary) : Bool := s.paths.isEmpty

inductive Value where
  | null
  | bool (b : Bool)
  | number (text : Text)
  | string (s : Text)
  | array (items : List Value)
  | object (entries : List (Text × Value))

/-! ### Equality of values -/

mutual

def Value.same : Value → Value → Bool
  | .null, .null => true
  | .bool a, .bool b => a == b
  | .number a, .number b => a == b
  | .string a, .string b => a == b
  | .array a, .array b => sameItems a b
  | .object a, .object b => sameEntries a b
  | _, _ => false

def sameItems : List Value → List Value → Bool
  | [], [] => true
  | a :: as, b :: bs => a.same b && sameItems as bs
  | _, _ => false

def sameEntries : List (Text × Value) → List (Text × Value) → Bool
  | [], [] => true
  | (j, a) :: as, (k, b) :: bs => j == k && a.same b && sameEntries as bs
  | _, _ => false

end

mutual

theorem Value.same_iff : ∀ a b : Value, a.same b = true ↔ a = b
  | .null, b => by cases b <;> simp [Value.same]
  | .bool _, b => by cases b <;> simp [Value.same]
  | .number _, b => by cases b <;> simp [Value.same]
  | .string _, b => by cases b <;> simp [Value.same]
  | .array a, b => by cases b <;> simp [Value.same, sameItems_iff a]
  | .object a, b => by cases b <;> simp [Value.same, sameEntries_iff a]

theorem sameItems_iff : ∀ as bs : List Value, sameItems as bs = true ↔ as = bs
  | [], bs => by cases bs <;> simp [sameItems]
  | a :: as, bs => by cases bs <;> simp [sameItems, Value.same_iff a, sameItems_iff as]

theorem sameEntries_iff : ∀ as bs : List (Text × Value), sameEntries as bs = true ↔ as = bs
  | [], bs => by cases bs <;> simp [sameEntries]
  | (j, a) :: as, bs => by
    cases bs <;> simp [sameEntries, Value.same_iff a, sameEntries_iff as, Prod.ext_iff]

end

instance : DecidableEq Value := fun a b => decidable_of_iff _ (Value.same_iff a b)

/-! ### What is shown of a value -/

/-- `write_repr`. -/
def Value.writeRepr (budget : Nat) : Value → Attempt Text
  | .null => .ok "null".toList
  | .bool true => .ok "true".toList
  | .bool false => .ok "false".toList
  | .number n => .ok n
  | .string s =>
    if size s ≤ budget then .ok ('"' :: s ++ ['"'])
    else do
      let head ← pieceAt s 0 budget
      return '"' :: head ++ "...\"".toList
  | .array _ => .ok "[…]".toList
  | .object _ => .ok "{…}".toList

/-- `short_repr`. -/
def Value.shortRepr (v : Value) : Attempt Text := v.writeRepr 64

/-! ### What differs -/

/-- `lookup`. -/
def lookup (obj : List (Text × Value)) (key : Text) : Option Value :=
  (obj.find? fun entry => entry.1 = key).map (·.2)

/-- The keys of two objects, in order, each once. -/
def keysOf (o n : List (Text × Value)) : List Text :=
  ((o.map (·.1) ++ n.map (·.1)).mergeSort fun a b => decide (a ≤ b)).dedup

def keyPath (path key : Text) : Text := path ++ '.' :: key

def indexPath (path : Text) (i : Nat) : Text := path ++ '[' :: (Nat.toDigits 10 i ++ [']'])

theorem mem_map_iff_lookup {o : List (Text × Value)} {k : Text} :
    k ∈ o.map (·.1) ↔ (lookup o k).isSome := by
  rw [lookup, Option.isSome_map, find?_isSome]
  simp

theorem mem_keysOf {o n : List (Text × Value)} {k : Text} :
    k ∈ keysOf o n ↔ (lookup o k).isSome ∨ (lookup n k).isSome := by
  rw [keysOf, mem_dedup, mem_mergeSort, mem_append, mem_map_iff_lookup, mem_map_iff_lookup]

theorem mem_drop_zipIdx {α : Type} {l : List α} {k i : Nat} {x : α} :
    (x, i) ∈ l.zipIdx.drop k ↔ k ≤ i ∧ l[i]? = some x := by
  constructor
  · intro h
    obtain ⟨m, hm⟩ := mem_iff_getElem?.mp h
    rw [getElem?_drop, getElem?_zipIdx] at hm
    obtain ⟨y, hy, hpair⟩ := Option.map_eq_some_iff.mp hm
    cases hpair
    exact ⟨by omega, by simpa using hy⟩
  · rintro ⟨hle, hx⟩
    refine mem_iff_getElem?.mpr ⟨i - k, ?_⟩
    rw [getElem?_drop, Nat.add_sub_cancel' hle, getElem?_zipIdx, hx]
    simp

/-- What an entry that was found holds is smaller than the entries. -/
theorem sizeOf_found {κ α : Type} [SizeOf κ] [SizeOf α] {entries : List (κ × α)} {p : κ × α → Bool} {v : α}
    (h : (entries.find? p).map Prod.snd = some v) : sizeOf v < sizeOf entries := by
  obtain ⟨⟨k, w⟩, hfind, rfl⟩ := Option.map_eq_some_iff.mp h
  have hmem := sizeOf_lt_of_mem (mem_of_find?_eq_some hfind)
  rw [Prod.mk.sizeOf_spec] at hmem
  dsimp only
  omega

theorem sizeOf_item {items : List Value} {i : Nat} {v : Value} (h : items[i]? = some v) :
    sizeOf v < sizeOf items :=
  sizeOf_lt_of_mem (mem_of_getElem? h)

/-- `diff_values`, with what it pushes to `out`. -/
def diffValues (path : Text) (old new : Value) : Attempt (List (Text × PathChange)) :=
  match old, new with
  | .object o, .object n => do
    let parts ← (keysOf o n).mapM fun k =>
      let childPath := keyPath path k
      match ho : lookup o k, lookup n k with
      | some a, some b => diffValues childPath a b
      | none, some b => do return [(childPath, .added (← b.shortRepr))]
      | some a, none => do return [(childPath, .removed (← a.shortRepr))]
      | none, none => .ok []
    return parts.flatten
  | .array o, .array n => do
    let common := min o.length n.length
    let parts ← (List.range common).mapM fun i =>
      match ho : o[i]?, n[i]? with
      | some a, some b => diffValues (indexPath path i) a b
      | _, _ => .error .panicked
    let added ← (n.zipIdx.drop common).mapM fun (v, i) => do
      return (indexPath path i, .added (← v.shortRepr))
    let removed ← (o.zipIdx.drop common).mapM fun (v, i) => do
      return (indexPath path i, .removed (← v.shortRepr))
    return parts.flatten ++ added ++ removed
  | a, b =>
    if a = b then .ok []
    else do return [(path, .changed (← a.shortRepr) (← b.shortRepr))]
termination_by sizeOf old
decreasing_by
  · have h := sizeOf_found ho
    rw [Value.object.sizeOf_spec]
    omega
  · have h := sizeOf_item ho
    rw [Value.array.sizeOf_spec]
    omega

/-! ### One round of a loop -/

section Rounds

variable (path : Text)

/-- What is pushed for a key. -/
def diffKey (o n : List (Text × Value)) (k : Text) : Attempt (List (Text × PathChange)) :=
  match lookup o k, lookup n k with
  | some a, some b => diffValues (keyPath path k) a b
  | none, some b => do return [(keyPath path k, .added (← b.shortRepr))]
  | some a, none => do return [(keyPath path k, .removed (← a.shortRepr))]
  | none, none => .ok []

/-- What is pushed for an index of both arrays. -/
def diffItem (o n : List Value) (i : Nat) : Attempt (List (Text × PathChange)) :=
  match o[i]?, n[i]? with
  | some a, some b => diffValues (indexPath path i) a b
  | _, _ => .error .panicked

def addedItem (entry : Value × Nat) : Attempt (Text × PathChange) := do
  return (indexPath path entry.2, .added (← entry.1.shortRepr))

def removedItem (entry : Value × Nat) : Attempt (Text × PathChange) := do
  return (indexPath path entry.2, .removed (← entry.1.shortRepr))

theorem diffValues_object (o n : List (Text × Value)) :
    diffValues path (.object o) (.object n) = (do
      let parts ← (keysOf o n).mapM (diffKey path o n)
      return parts.flatten) := by
  rw [diffValues]
  congr 1
  congr 1
  funext k
  rw [diffKey]
  split <;> simp_all

theorem diffValues_array (o n : List Value) :
    diffValues path (.array o) (.array n) = (do
      let parts ← (List.range (min o.length n.length)).mapM (diffItem path o n)
      let added ← (n.zipIdx.drop (min o.length n.length)).mapM (addedItem path)
      let removed ← (o.zipIdx.drop (min o.length n.length)).mapM (removedItem path)
      return parts.flatten ++ added ++ removed) := by
  rw [diffValues]
  congr 1
  congr 1
  funext i
  rw [diffItem]
  split <;> simp_all

end Rounds

end Alt.StructDiff
