import Alt.StructDiff.Value

namespace Alt.StructDiff

open Alt.Library Attempt List

/-!
# Structured diff — the points at which two documents first differ

* `Tree` — a document over any numbers and strings; `Equal` — equal with objects as maps;
* `FirstDiff` — the points at which two of them first differ; `equal_iff` — equal ones have none;
* `diffValues_points` — what is reported are these points, each once.
-/

/-- A document, over numbers `ν` and strings `σ`. -/
inductive Tree (ν σ : Type) where
  | null
  | bool (b : Bool)
  | number (n : ν)
  | string (s : σ)
  | array (items : List (Tree ν σ))
  | object (entries : List (σ × Tree ν σ))

/-- A step into a document. -/
inductive Step (σ : Type) where
  | key (k : σ)
  | index (i : Nat)
  deriving DecidableEq

namespace Tree

variable {ν σ : Type}

/-- Two objects, or two arrays. -/
def Alike : Tree ν σ → Tree ν σ → Prop
  | .object _, .object _ => True
  | .array _, .array _ => True
  | _, _ => False

variable [DecidableEq σ]

/-- What an object has under a key. -/
def find (entries : List (σ × Tree ν σ)) (k : σ) : Option (Tree ν σ) :=
  (entries.find? fun entry => entry.1 = k).map (·.2)

/-- Equal documents, objects as maps. -/
inductive Equal : Tree ν σ → Tree ν σ → Prop where
  | null : Equal .null .null
  | bool (b : Bool) : Equal (.bool b) (.bool b)
  | number (n : ν) : Equal (.number n) (.number n)
  | string (s : σ) : Equal (.string s) (.string s)
  | array {o n : List (Tree ν σ)} : (∀ i : Nat, o[i]?.isSome = n[i]?.isSome) →
      (∀ (i : Nat) a b, o[i]? = some a → n[i]? = some b → Equal a b) → Equal (.array o) (.array n)
  | object {o n : List (σ × Tree ν σ)} : (∀ k, (find o k).isSome = (find n k).isSome) →
      (∀ k a b, find o k = some a → find n k = some b → Equal a b) → Equal (.object o) (.object n)

/-- The points at which two documents first differ. -/
inductive FirstDiff : Tree ν σ → Tree ν σ → List (Step σ) → Prop where
  | here {a b : Tree ν σ} : ¬Alike a b → a ≠ b → FirstDiff a b []
  | key {o n : List (σ × Tree ν σ)} {k a b p} : find o k = some a → find n k = some b → FirstDiff a b p →
      FirstDiff (.object o) (.object n) (.key k :: p)
  | keyOnly {o n : List (σ × Tree ν σ)} {k} : (find o k).isSome ≠ (find n k).isSome →
      FirstDiff (.object o) (.object n) [.key k]
  | item {o n : List (Tree ν σ)} {i : Nat} {a b p} : o[i]? = some a → n[i]? = some b → FirstDiff a b p →
      FirstDiff (.array o) (.array n) (.index i :: p)
  | itemOnly {o n : List (Tree ν σ)} {i : Nat} : o[i]?.isSome ≠ n[i]?.isSome →
      FirstDiff (.array o) (.array n) [.index i]

theorem Equal.not_firstDiff {a b : Tree ν σ} (h : Equal a b) : ∀ p, ¬FirstDiff a b p := by
  induction h with
  | array hsome hitems ih =>
    intro p hp
    cases hp with
    | here halike => exact halike trivial
    | item ha hb hp => exact ih _ _ _ ha hb _ hp
    | itemOnly hne => exact hne (hsome _)
  | object hsome hentries ih =>
    intro p hp
    cases hp with
    | here halike => exact halike trivial
    | key ha hb hp => exact ih _ _ _ ha hb _ hp
    | keyOnly hne => exact hne (hsome _)
  | _ =>
    intro p hp
    cases hp with
    | here _ hne => exact hne rfl

theorem equal_of_not_firstDiff (a b : Tree ν σ) (h : ∀ p, ¬FirstDiff a b p) : Equal a b := by
  by_cases halike : Alike a b
  · match a, b, halike with
    | .object o, .object n, _ =>
      refine .object (fun k => ?_) fun k a b ha hb => ?_
      · by_contra hne
        exact h _ (.keyOnly hne)
      · have := sizeOf_found ha
        exact equal_of_not_firstDiff a b fun p hp => h _ (.key ha hb hp)
    | .array o, .array n, _ =>
      refine .array (fun i => ?_) fun i a b ha hb => ?_
      · by_contra hne
        exact h _ (.itemOnly hne)
      · have := sizeOf_lt_of_mem (mem_of_getElem? ha)
        exact equal_of_not_firstDiff a b fun p hp => h _ (.item ha hb hp)
  · have heq : a = b := by
      by_contra hne
      exact h _ (.here halike hne)
    subst heq
    cases a with
    | null => exact .null
    | bool b => exact .bool b
    | number n => exact .number n
    | string s => exact .string s
    | _ => exact absurd trivial halike
termination_by sizeOf a

/-- **Two documents are equal** exactly when there is no point at which they first differ. -/
theorem equal_iff {a b : Tree ν σ} : Equal a b ↔ ∀ p, ¬FirstDiff a b p :=
  ⟨Equal.not_firstDiff, equal_of_not_firstDiff a b⟩

end Tree

/-! ### Values as documents -/

mutual

def Value.tree : Value → Tree Text Text
  | .null => .null
  | .bool b => .bool b
  | .number n => .number n
  | .string s => .string s
  | .array items => .array (treeItems items)
  | .object entries => .object (treeEntries entries)

def treeItems : List Value → List (Tree Text Text)
  | [] => []
  | v :: vs => v.tree :: treeItems vs

def treeEntries : List (Text × Value) → List (Text × Tree Text Text)
  | [] => []
  | (k, v) :: entries => (k, v.tree) :: treeEntries entries

end

theorem getElem?_treeItems (items : List Value) (i : Nat) : (treeItems items)[i]? = items[i]?.map Value.tree := by
  induction items generalizing i with
  | nil => rfl
  | cons v items ih =>
    cases i with
    | zero => rfl
    | succ i => exact ih i

theorem find_treeEntries (entries : List (Text × Value)) (k : Text) :
    Tree.find (treeEntries entries) k = (lookup entries k).map Value.tree := by
  induction entries with
  | nil => rfl
  | cons entry entries ih =>
    obtain ⟨j, v⟩ := entry
    rw [treeEntries]
    by_cases hj : j = k
    · simp [Tree.find, lookup, hj]
    · simpa [Tree.find, lookup, hj] using ih

mutual

theorem Value.tree_inj : ∀ {a b : Value}, a.tree = b.tree → a = b
  | .null, b, h => by cases b <;> cases h; rfl
  | .bool _, b, h => by cases b <;> cases h; rfl
  | .number _, b, h => by cases b <;> cases h; rfl
  | .string _, b, h => by cases b <;> cases h; rfl
  | .array a, b, h => by
    cases b <;> simp only [Value.tree, reduceCtorEq, Tree.array.injEq] at h
    rw [treeItems_inj h]
  | .object a, b, h => by
    cases b <;> simp only [Value.tree, reduceCtorEq, Tree.object.injEq] at h
    rw [treeEntries_inj h]

theorem treeItems_inj : ∀ {as bs : List Value}, treeItems as = treeItems bs → as = bs
  | [], bs, h => by cases bs <;> cases h; rfl
  | a :: as, bs, h => by
    cases bs <;> simp only [treeItems, reduceCtorEq, List.cons.injEq] at h
    rw [Value.tree_inj h.1, treeItems_inj h.2]

theorem treeEntries_inj : ∀ {as bs : List (Text × Value)}, treeEntries as = treeEntries bs → as = bs
  | [], bs, h => by cases bs <;> cases h; rfl
  | (j, a) :: as, bs, h => by
    cases bs <;> simp only [treeEntries, reduceCtorEq, List.cons.injEq, Prod.mk.injEq] at h
    obtain ⟨⟨rfl, h⟩, hrest⟩ := h
    rw [Value.tree_inj h, treeEntries_inj hrest]

end

/-! ### What is reported -/

/-- The path that is reported for a point. -/
def renderFrom {σ : Type} (name : σ → Text) (path : Text) : List (Step σ) → Text
  | [] => path
  | .key k :: p => renderFrom name (keyPath path (name k)) p
  | .index i :: p => renderFrom name (indexPath path i) p

/-- The points with `Q` are what is reported, each once. -/
def Reports (path : Text) (out : List (Text × PathChange)) (Q : List (Step Text) → Prop) : Prop :=
  ∃ points : List (List (Step Text)), points.Nodup ∧ (∀ p, p ∈ points ↔ Q p) ∧
    out.map (·.1) = points.map (renderFrom id path)

section Reports

variable {α : Type} {path : Text} {out out' : List (Text × PathChange)} {Q R : List (Step Text) → Prop}

theorem Reports.congr (h : Reports path out Q) (hQR : ∀ p, Q p ↔ R p) : Reports path out R := by
  obtain ⟨points, hnodup, hmem, hout⟩ := h
  exact ⟨points, hnodup, fun p => (hmem p).trans (hQR p), hout⟩

theorem reports_nil (h : ∀ p, ¬Q p) : Reports path [] Q :=
  ⟨[], nodup_nil, fun p => iff_of_false (not_mem_nil) (h p), rfl⟩

theorem reports_one {p : List (Step Text)} {entry : Text × PathChange} (hentry : entry.1 = renderFrom id path p) :
    Reports path [entry] (· = p) :=
  ⟨[p], nodup_singleton p, fun _ => mem_singleton, by rw [map_singleton, map_singleton, hentry]⟩

theorem Reports.append (h : Reports path out Q) (h' : Reports path out' R) (hdisjoint : ∀ p, Q p → ¬R p) :
    Reports path (out ++ out') fun p => Q p ∨ R p := by
  obtain ⟨points, hnodup, hmem, hout⟩ := h
  obtain ⟨points', hnodup', hmem', hout'⟩ := h'
  refine ⟨points ++ points', List.Nodup.append hnodup hnodup' fun p hp hp' => ?_, fun p => ?_, ?_⟩
  · exact hdisjoint p ((hmem p).mp hp) ((hmem' p).mp hp')
  · rw [mem_append, hmem, hmem']
  · rw [map_append, map_append, hout, hout']

/-- Behind a step. -/
theorem Reports.behind {s : Step Text} {path' : Text} (hpath : ∀ p, renderFrom id path (s :: p) = renderFrom id path' p)
    (h : Reports path' out Q) : Reports path out fun p => ∃ q, p = s :: q ∧ Q q := by
  obtain ⟨points, hnodup, hmem, hout⟩ := h
  refine ⟨points.map (s :: ·), hnodup.map fun a b h => (List.cons.inj h).2, fun p => ?_, ?_⟩
  · rw [mem_map]
    constructor
    · rintro ⟨q, hq, rfl⟩
      exact ⟨q, rfl, (hmem q).mp hq⟩
    · rintro ⟨q, rfl, hq⟩
      exact ⟨q, (hmem q).mpr hq, rfl⟩
  · rw [hout, map_map]
    exact map_congr_left fun p _ => (hpath p).symm

/-- The rounds of a loop report the points of each. -/
theorem reports_mapM {f : α → Attempt (List (Text × PathChange))} {l : List α} {parts}
    {Q : α → List (Step Text) → Prop} (h : l.mapM f = .ok parts) (hnodup : l.Nodup)
    (hf : ∀ x ∈ l, ∀ out, f x = .ok out → Reports path out (Q x))
    (hdisjoint : ∀ x ∈ l, ∀ y ∈ l, ∀ p, Q x p → Q y p → x = y) :
    Reports path parts.flatten fun p => ∃ x ∈ l, Q x p := by
  induction l generalizing parts with
  | nil =>
    cases h
    exact reports_nil fun p ⟨x, hx, _⟩ => by cases hx
  | cons x l ih =>
    rw [mapM_cons] at h
    obtain ⟨out, hout, h⟩ := steps_eq_ok.mp h
    obtain ⟨rest, hrest, h⟩ := steps_eq_ok.mp h
    cases h
    obtain ⟨hx, hnodup⟩ := nodup_cons.mp hnodup
    have hhead := hf x mem_cons_self out hout
    have htail := ih hrest hnodup (fun y hy => hf y (mem_cons_of_mem x hy))
      fun y hy z hz => hdisjoint y (mem_cons_of_mem x hy) z (mem_cons_of_mem x hz)
    rw [flatten_cons]
    refine (hhead.append htail ?_).congr fun p => by simp
    rintro p hp ⟨y, hy, hyp⟩
    exact hx ((hdisjoint x mem_cons_self y (mem_cons_of_mem x hy) p hp hyp) ▸ hy)

/-- The rounds of a loop that report one point each. -/
theorem reports_mapM_one {f : α → Attempt (Text × PathChange)} {l : List α} {entries} {point : α → List (Step Text)}
    (h : l.mapM f = .ok entries) (hnodup : l.Nodup)
    (hf : ∀ x ∈ l, ∀ entry, f x = .ok entry → entry.1 = renderFrom id path (point x))
    (hinj : ∀ x ∈ l, ∀ y ∈ l, point x = point y → x = y) :
    Reports path entries fun p => ∃ x ∈ l, p = point x := by
  induction l generalizing entries with
  | nil =>
    cases h
    exact reports_nil fun p ⟨x, hx, _⟩ => by cases hx
  | cons x l ih =>
    rw [mapM_cons] at h
    obtain ⟨entry, hentry, h⟩ := steps_eq_ok.mp h
    obtain ⟨rest, hrest, h⟩ := steps_eq_ok.mp h
    cases h
    obtain ⟨hx, hnodup⟩ := nodup_cons.mp hnodup
    have hhead : Reports path [entry] (· = point x) := reports_one (hf x mem_cons_self entry hentry)
    have htail := ih hrest hnodup (fun y hy => hf y (mem_cons_of_mem x hy))
      fun y hy z hz => hinj y (mem_cons_of_mem x hy) z (mem_cons_of_mem x hz)
    have hall := (hhead.append htail ?_).congr (R := fun p => ∃ y ∈ x :: l, p = point y) fun p => by simp
    · exact hall
    · rintro p rfl ⟨y, hy, hpoint⟩
      exact hx ((hinj x mem_cons_self y (mem_cons_of_mem x hy) hpoint) ▸ hy)

end Reports

namespace Tree

variable {ν σ : Type} [DecidableEq σ]

variable {p : List (Step σ)}

theorem firstDiff_key_iff {o n : List (σ × Tree ν σ)} {k : σ} :
    FirstDiff (.object o) (.object n) (.key k :: p) ↔
      (∃ a b, find o k = some a ∧ find n k = some b ∧ FirstDiff a b p) ∨
        ((find o k).isSome ≠ (find n k).isSome ∧ p = []) := by
  constructor
  · intro h
    cases h with
    | key ha hb hp => exact .inl ⟨_, _, ha, hb, hp⟩
    | keyOnly hne => exact .inr ⟨hne, rfl⟩
  · rintro (⟨a, b, ha, hb, hp⟩ | ⟨hne, rfl⟩)
    · exact .key ha hb hp
    · exact .keyOnly hne

theorem firstDiff_index_iff {o n : List (Tree ν σ)} {i : Nat} :
    FirstDiff (.array o) (.array n) (.index i :: p) ↔
      (∃ a b, o[i]? = some a ∧ n[i]? = some b ∧ FirstDiff a b p) ∨ (o[i]?.isSome ≠ n[i]?.isSome ∧ p = []) := by
  constructor
  · intro h
    cases h with
    | item ha hb hp => exact .inl ⟨_, _, ha, hb, hp⟩
    | itemOnly hne => exact .inr ⟨hne, rfl⟩
  · rintro (⟨a, b, ha, hb, hp⟩ | ⟨hne, rfl⟩)
    · exact .item ha hb hp
    · exact .itemOnly hne

/-- A point of two objects is behind a key. -/
theorem exists_key {o n : List (σ × Tree ν σ)} (h : FirstDiff (.object o) (.object n) p) :
    ∃ k q, p = .key k :: q ∧ ((find o k).isSome ∨ (find n k).isSome) := by
  cases h with
  | here halike => exact absurd trivial halike
  | key ha hb hp => exact ⟨_, _, rfl, .inl (by rw [ha]; rfl)⟩
  | @keyOnly _ _ k hne =>
    refine ⟨_, _, rfl, ?_⟩
    by_contra hboth
    rw [not_or, Bool.not_eq_true, Bool.not_eq_true] at hboth
    exact hne (hboth.1.trans hboth.2.symm)

/-- A point of two arrays is behind an index. -/
theorem exists_index {o n : List (Tree ν σ)} (h : FirstDiff (.array o) (.array n) p) :
    ∃ i q, p = .index i :: q := by
  cases h with
  | here halike => exact absurd trivial halike
  | item => exact ⟨_, _, rfl⟩
  | itemOnly => exact ⟨_, _, rfl⟩

theorem firstDiff_iff_of_not_alike {a b : Tree ν σ} (h : ¬Alike a b) :
    FirstDiff a b p ↔ p = [] ∧ a ≠ b := by
  constructor
  · intro hp
    cases hp with
    | here _ hne => exact ⟨rfl, hne⟩
    | _ => exact absurd trivial h
  · rintro ⟨rfl, hne⟩
    exact .here h hne

end Tree

section Rounds

variable {path : Text}

/-- What is pushed for a key are the points behind it. -/
theorem reports_diffKey {o n : List (Text × Value)} {k : Text} {out : List (Text × PathChange)}
    (h : diffKey path o n k = .ok out)
    (ih : ∀ a b, lookup o k = some a → ∀ {out}, diffValues (keyPath path k) a b = .ok out →
      Reports (keyPath path k) out (Tree.FirstDiff a.tree b.tree)) :
    Reports path out fun p => ∃ q, p = .key k :: q ∧
      Tree.FirstDiff (.object (treeEntries o)) (.object (treeEntries n)) (.key k :: q) := by
  have hpoint : ∀ q, Tree.FirstDiff (.object (treeEntries o)) (.object (treeEntries n)) (.key k :: q) ↔
      (∃ a b, lookup o k = some a ∧ lookup n k = some b ∧ Tree.FirstDiff a.tree b.tree q) ∨
        ((lookup o k).isSome ≠ (lookup n k).isSome ∧ q = []) := by
    intro q
    rw [Tree.firstDiff_key_iff, find_treeEntries, find_treeEntries, Option.isSome_map, Option.isSome_map]
    simp only [Option.map_eq_some_iff]
    constructor
    · rintro (⟨_, _, ⟨a, ha, rfl⟩, ⟨b, hb, rfl⟩, hq⟩ | hne)
      · exact .inl ⟨a, b, ha, hb, hq⟩
      · exact .inr hne
    · rintro (⟨a, b, ha, hb, hq⟩ | hne)
      · exact .inl ⟨_, _, ⟨a, ha, rfl⟩, ⟨b, hb, rfl⟩, hq⟩
      · exact .inr hne
  rw [diffKey] at h
  cases ho : lookup o k with
  | none =>
    cases hn : lookup n k with
    | none =>
      simp only [ho, hn] at h
      cases h
      refine reports_nil ?_
      rintro p ⟨q, -, hq⟩
      simpa [ho, hn] using (hpoint q).mp hq
    | some b =>
      simp only [ho, hn] at h
      obtain ⟨repr, -, h⟩ := steps_eq_ok.mp h
      cases h
      refine (reports_one (p := [.key k]) rfl).congr fun p => ?_
      simp [hpoint, ho, hn]
  | some a =>
    cases hn : lookup n k with
    | none =>
      simp only [ho, hn] at h
      obtain ⟨repr, -, h⟩ := steps_eq_ok.mp h
      cases h
      refine (reports_one (p := [.key k]) rfl).congr fun p => ?_
      simp [hpoint, ho, hn]
    | some b =>
      simp only [ho, hn] at h
      refine ((ih a b ho h).behind (s := .key k) fun p => rfl).congr fun p => ?_
      simp [hpoint, ho, hn]

/-- What is pushed for an index of both arrays are the points behind it. -/
theorem reports_diffItem {o n : List Value} {i : Nat} {out : List (Text × PathChange)}
    (h : diffItem path o n i = .ok out)
    (ih : ∀ a b, o[i]? = some a → ∀ {out}, diffValues (indexPath path i) a b = .ok out →
      Reports (indexPath path i) out (Tree.FirstDiff a.tree b.tree)) :
    Reports path out fun p => ∃ q, p = .index i :: q ∧
      Tree.FirstDiff (.array (treeItems o)) (.array (treeItems n)) (.index i :: q) := by
  rw [diffItem] at h
  cases ho : o[i]? with
  | none =>
    simp only [ho] at h
    cases h
  | some a =>
    cases hn : n[i]? with
    | none =>
      simp only [ho, hn] at h
      cases h
    | some b =>
      simp only [ho, hn] at h
      refine ((ih a b ho h).behind (s := .index i) fun p => rfl).congr fun p => ?_
      simp [Tree.firstDiff_index_iff, getElem?_treeItems, ho, hn]

theorem nodup_drop_zipIdx {α : Type} (l : List α) (k : Nat) : (l.zipIdx.drop k).Nodup := by
  have hsnd : (l.zipIdx.map Prod.snd).Nodup := by
    rw [zipIdx_map_snd]
    exact nodup_range'
  exact hsnd.of_map.sublist (drop_sublist k _)

/-- The items of one array only, one point each. -/
theorem reports_tail {f : Value × Nat → Attempt (Text × PathChange)} {l : List Value} {k : Nat} {entries}
    (h : (l.zipIdx.drop k).mapM f = .ok entries)
    (hf : ∀ entry c, f entry = .ok c → c.1 = indexPath path entry.2) :
    Reports path entries fun p => ∃ i, (k ≤ i ∧ l[i]?.isSome) ∧ p = [.index i] := by
  have hinj : ∀ x ∈ l.zipIdx.drop k, ∀ y ∈ l.zipIdx.drop k, ([.index x.2] : List (Step Text)) = [.index y.2] → x = y := by
    rintro ⟨v, i⟩ hv ⟨w, j⟩ hw heq
    have hij : i = j := by simpa using heq
    subst hij
    have hv := (mem_drop_zipIdx.mp hv).2
    rw [(mem_drop_zipIdx.mp hw).2] at hv
    cases hv
    rfl
  have hreports : Reports path entries fun p => ∃ x ∈ l.zipIdx.drop k, p = [.index x.2] :=
    reports_mapM_one h (nodup_drop_zipIdx l k) (fun entry _ c hc => hf entry c hc) hinj
  refine hreports.congr fun p => ?_
  constructor
  · rintro ⟨⟨v, i⟩, hv, rfl⟩
    obtain ⟨hle, hv⟩ := mem_drop_zipIdx.mp hv
    exact ⟨i, ⟨hle, by rw [hv]; rfl⟩, rfl⟩
  · rintro ⟨i, ⟨hle, hsome⟩, rfl⟩
    obtain ⟨v, hv⟩ := Option.isSome_iff_exists.mp hsome
    exact ⟨(v, i), mem_drop_zipIdx.mpr ⟨hle, hv⟩, rfl⟩

theorem fst_addedItem {entry : Value × Nat} {c : Text × PathChange} (h : addedItem path entry = .ok c) :
    c.1 = indexPath path entry.2 := by
  obtain ⟨repr, -, h⟩ := steps_eq_ok.mp h
  cases h
  rfl

theorem fst_removedItem {entry : Value × Nat} {c : Text × PathChange} (h : removedItem path entry = .ok c) :
    c.1 = indexPath path entry.2 := by
  obtain ⟨repr, -, h⟩ := steps_eq_ok.mp h
  cases h
  rfl

end Rounds

theorem not_alike_tree {a b : Value} (hobj : ∀ o n, a = .object o → b = .object n → False)
    (harr : ∀ o n, a = .array o → b = .array n → False) : ¬Tree.Alike a.tree b.tree := by
  intro h
  cases a <;> cases b <;> first | exact h | exact hobj _ _ rfl rfl | exact harr _ _ rfl rfl

/-- **What is reported** of two documents are the points at which they first differ, each once. -/
theorem diffValues_points (path : Text) (old new : Value) {out : List (Text × PathChange)}
    (h : diffValues path old new = .ok out) : Reports path out (Tree.FirstDiff old.tree new.tree) := by
  induction path, old, new using diffValues.induct generalizing out with
  | case1 path o n ih =>
    rw [diffValues_object] at h
    obtain ⟨parts, hparts, h⟩ := steps_eq_ok.mp h
    cases h
    refine (reports_mapM hparts (nodup_dedup _) (fun k _ out hout => reports_diffKey hout
      fun a b ha out hout => ih k a b ha hout) ?_).congr fun p => ?_
    · rintro j - k - p ⟨q, rfl, -⟩ ⟨r, hr, -⟩
      cases hr
      rfl
    · constructor
      · rintro ⟨k, -, q, rfl, hq⟩
        exact hq
      · intro hp
        obtain ⟨k, q, rfl, hsome⟩ := Tree.exists_key hp
        rw [find_treeEntries, find_treeEntries, Option.isSome_map, Option.isSome_map] at hsome
        exact ⟨k, mem_keysOf.mpr hsome, q, rfl, hp⟩
  | case2 path o n ih =>
    rw [diffValues_array] at h
    obtain ⟨parts, hparts, h⟩ := steps_eq_ok.mp h
    obtain ⟨added, hadded, h⟩ := steps_eq_ok.mp h
    obtain ⟨removed, hremoved, h⟩ := steps_eq_ok.mp h
    cases h
    have hboth := reports_mapM hparts nodup_range
      (fun i _ out hout => reports_diffItem hout fun a b ha out hout => ih i a b ha hout) (by
        rintro j - k - p ⟨q, rfl, -⟩ ⟨r, hr, -⟩
        cases hr
        rfl)
    have hnew : Reports path added _ := reports_tail hadded fun entry c => fst_addedItem
    have hold : Reports path removed _ := reports_tail hremoved fun entry c => fst_removedItem
    have hlength : ∀ (l : List Value) (i : Nat), l[i]?.isSome ↔ i < l.length := fun l i => by simp
    have hsome : ∀ i, (treeItems o)[i]?.isSome ≠ (treeItems n)[i]?.isSome ↔ ¬(i < o.length ↔ i < n.length) := by
      intro i
      rw [getElem?_treeItems, getElem?_treeItems, Option.isSome_map, Option.isSome_map, Ne, Bool.eq_iff_iff, hlength,
        hlength]
    simp only [hlength] at hnew hold
    refine ((hboth.append hnew ?_).append hold ?_).congr fun p => ?_
    · rintro p ⟨i, hi, q, rfl, -⟩ ⟨j, ⟨hj, -⟩, hp⟩
      cases hp
      exact absurd (mem_range.mp hi) (not_lt.mpr hj)
    · rintro p (⟨i, hi, q, rfl, -⟩ | ⟨i, ⟨-, hi⟩, rfl⟩) ⟨j, ⟨hj, hjo⟩, hp⟩
      · cases hp
        exact absurd (mem_range.mp hi) (not_lt.mpr hj)
      · cases hp
        omega
    · constructor
      · rintro ((⟨i, -, q, rfl, hq⟩ | ⟨i, ⟨hle, hlt⟩, rfl⟩) | ⟨i, ⟨hle, hlt⟩, rfl⟩)
        · exact hq
        · exact .itemOnly ((hsome i).mpr (by omega))
        · exact .itemOnly ((hsome i).mpr (by omega))
      · intro hp
        obtain ⟨i, q, rfl⟩ := Tree.exists_index hp
        by_cases hi : i < min o.length n.length
        · exact .inl (.inl ⟨i, mem_range.mpr hi, q, rfl, hp⟩)
        rcases Tree.firstDiff_index_iff.mp hp with ⟨a, b, ha, hb, -⟩ | ⟨hne, rfl⟩
        · rw [getElem?_treeItems, Option.map_eq_some_iff] at ha hb
          obtain ⟨a, ha, -⟩ := ha
          obtain ⟨b, hb, -⟩ := hb
          have hao := (List.getElem?_eq_some_iff.mp ha).1
          have hbn := (List.getElem?_eq_some_iff.mp hb).1
          omega
        · have hlengths := (hsome i).mp hne
          by_cases hn : i < n.length
          · exact .inl (.inr ⟨i, ⟨by omega, hn⟩, rfl⟩)
          · exact .inr ⟨i, ⟨by omega, by omega⟩, rfl⟩
  | case3 path b hobj harr =>
    rw [diffValues.eq_3 path b b hobj harr, if_pos rfl] at h
    cases h
    exact reports_nil fun p hp => ((Tree.firstDiff_iff_of_not_alike (not_alike_tree hobj harr)).mp hp).2 rfl
  | case4 path a b hobj harr hne =>
    rw [diffValues.eq_3 path a b hobj harr, if_neg hne] at h
    obtain ⟨oldRepr, -, h⟩ := steps_eq_ok.mp h
    obtain ⟨newRepr, -, h⟩ := steps_eq_ok.mp h
    cases h
    refine (reports_one (p := []) rfl).congr fun p => ?_
    rw [Tree.firstDiff_iff_of_not_alike (not_alike_tree hobj harr)]
    exact ⟨fun hp => ⟨hp, fun heq => hne (Value.tree_inj heq)⟩, fun hp => hp.1⟩

end Alt.StructDiff
