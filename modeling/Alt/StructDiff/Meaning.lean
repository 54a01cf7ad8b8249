import Alt.StructDiff.Documents
import Alt.StructDiff.Points
import Alt.StructDiff.Summary

namespace Alt.StructDiff

open Alt.Library Attempt TextScan Binary64 List

/-!
# Structured diff — what the summary hides

A document is compared by what is kept of its numbers and strings.  The summary is right where that tells
them apart as the numbers and strings themselves do.

* `Doc.denote` — what a document says; `Doc.kept` — what is kept of it, both of the same tokens (`Tree.map`);
* `Meets` — the values that are compared; `firstDiff_map_iff` — where they are told apart, the points are the same;
* `summary_right` — when the summary hides nothing.
-/

/-! ### Documents under another reading -/

namespace Tree

variable {ν σ ν' σ' : Type} (f : ν → ν') (g : σ → σ')

mutual

/-- A document with its numbers and strings read otherwise. -/
def map : Tree ν σ → Tree ν' σ'
  | .null => .null
  | .bool b => .bool b
  | .number n => .number (f n)
  | .string s => .string (g s)
  | .array items => .array (mapItems items)
  | .object entries => .object (mapEntries entries)

def mapItems : List (Tree ν σ) → List (Tree ν' σ')
  | [] => []
  | t :: ts => t.map :: mapItems ts

def mapEntries : List (σ × Tree ν σ) → List (σ' × Tree ν' σ')
  | [] => []
  | (k, t) :: entries => (g k, t.map) :: mapEntries entries

end

mutual

/-- The keys in a document, at any depth. -/
def keys : Tree ν σ → List σ
  | .array items => keysItems items
  | .object entries => keysEntries entries
  | _ => []

def keysItems : List (Tree ν σ) → List σ
  | [] => []
  | t :: ts => t.keys ++ keysItems ts

def keysEntries : List (σ × Tree ν σ) → List σ
  | [] => []
  | (k, t) :: entries => k :: (t.keys ++ keysEntries entries)

end

variable [DecidableEq σ']

/-- What an object has under the keys that are read as `κ`. -/
def under (entries : List (σ × Tree ν σ)) (κ : σ') : Option (Tree ν σ) :=
  (entries.find? fun entry => g entry.1 = κ).map (·.2)

/-- The values of two documents that are at the same place. -/
inductive Meets : Tree ν σ → Tree ν σ → Tree ν σ → Tree ν σ → Prop where
  | here {a b : Tree ν σ} : Meets a b a b
  | key {o n : List (σ × Tree ν σ)} {κ a b u v} : under g o κ = some a → under g n κ = some b → Meets a b u v →
      Meets (.object o) (.object n) u v
  | item {o n : List (Tree ν σ)} {i : Nat} {a b u v} : o[i]? = some a → n[i]? = some b → Meets a b u v →
      Meets (.array o) (.array n) u v

theorem getElem?_mapItems (items : List (Tree ν σ)) (i : Nat) : (mapItems f g items)[i]? = items[i]?.map (map f g) := by
  induction items generalizing i with
  | nil => rfl
  | cons t items ih =>
    cases i with
    | zero => rfl
    | succ i => exact ih i

theorem find_mapEntries (entries : List (σ × Tree ν σ)) (κ : σ') :
    find (mapEntries f g entries) κ = (under g entries κ).map (map f g) := by
  induction entries with
  | nil => rfl
  | cons entry entries ih =>
    obtain ⟨k, t⟩ := entry
    rw [mapEntries]
    by_cases hk : g k = κ
    · simp [find, under, hk]
    · simpa [find, under, hk] using ih

theorem mem_keysEntries {entries : List (σ × Tree ν σ)} {entry : σ × Tree ν σ} (h : entry ∈ entries) {k : σ}
    (hk : k = entry.1 ∨ k ∈ entry.2.keys) : k ∈ keysEntries entries := by
  induction entries with
  | nil => cases h
  | cons e entries ih =>
    obtain ⟨j, t⟩ := e
    rw [keysEntries]
    rcases mem_cons.mp h with rfl | h
    · rcases hk with rfl | hk
      · exact mem_cons_self
      · exact mem_cons_of_mem _ (mem_append_left _ hk)
    · exact mem_cons_of_mem _ (mem_append_right _ (ih h))

theorem mem_keysItems {items : List (Tree ν σ)} {t : Tree ν σ} (h : t ∈ items) {k : σ} (hk : k ∈ t.keys) :
    k ∈ keysItems items := by
  induction items with
  | nil => cases h
  | cons u items ih =>
    rw [keysItems]
    rcases mem_cons.mp h with rfl | h
    · exact mem_append_left _ hk
    · exact mem_append_right _ (ih h)

/-! ### Where two readings agree -/

section Readings

variable {ν₁ σ₁ ν₂ σ₂ : Type} [DecidableEq σ₁] [DecidableEq σ₂]
  {f₁ : ν → ν₁} {g₁ : σ → σ₁} {f₂ : ν → ν₂} {g₂ : σ → σ₂} {h : σ₂ → σ₁}

/-- Two readings tell the same of the numbers and of the strings apart that are at the same place. -/
def Told (f₁ : ν → ν₁) (g₁ : σ → σ₁) (f₂ : ν → ν₂) (g₂ : σ → σ₂) (a b : Tree ν σ) : Prop :=
  ∀ u v, Meets g₁ a b u v →
    (∀ m n, u = .number m → v = .number n → (f₁ m = f₁ n ↔ f₂ m = f₂ n)) ∧
      ∀ s t, u = .string s → v = .string t → (g₁ s = g₁ t ↔ g₂ s = g₂ t)

variable {entries : List (σ × Tree ν σ)}

theorem under_eq (hinj : Function.Injective h)
    (hkeys : ∀ entry ∈ entries, g₁ entry.1 = h (g₂ entry.1)) (κ : σ₂) :
    under g₁ entries (h κ) = under g₂ entries κ := by
  induction entries with
  | nil => rfl
  | cons entry entries ih =>
    have hentry := hkeys entry mem_cons_self
    have ih := ih fun e he => hkeys e (mem_cons_of_mem entry he)
    by_cases hκ : g₂ entry.1 = κ
    · have h₁ : g₁ entry.1 = h κ := by rw [hentry, hκ]
      simp [under, hκ, h₁]
    · have h₁ : ¬g₁ entry.1 = h κ := fun heq => hκ (hinj (hentry ▸ heq))
      simpa [under, hκ, h₁] using ih

theorem exists_of_under {κ : σ₁} (hsome : (under g₁ entries κ).isSome) :
    ∃ entry ∈ entries, g₁ entry.1 = κ := by
  rw [under, Option.isSome_map, find?_isSome] at hsome
  obtain ⟨entry, hmem, hκ⟩ := hsome
  exact ⟨entry, hmem, by simpa using hκ⟩

theorem mem_of_under {κ : σ₁} {t : Tree ν σ} (ht : under g₁ entries κ = some t) :
    ∃ k, (k, t) ∈ entries := by
  obtain ⟨entry, hfind, rfl⟩ := Option.map_eq_some_iff.mp ht
  exact ⟨entry.1, mem_of_find?_eq_some hfind⟩

theorem alike_map_iff (a b : Tree ν σ) : Alike (a.map f₁ g₁) (b.map f₁ g₁) ↔ Alike a b := by
  cases a <;> cases b <;> exact Iff.rfl

/-- Values that are neither two objects nor two arrays are told apart alike. -/
theorem map_eq_iff {a b : Tree ν σ} (halike : ¬Alike a b) (htold : Told f₁ g₁ f₂ g₂ a b) :
    a.map f₁ g₁ = b.map f₁ g₁ ↔ a.map f₂ g₂ = b.map f₂ g₂ := by
  obtain ⟨hnumbers, hstrings⟩ := htold a b .here
  cases a <;> cases b <;> simp only [map, reduceCtorEq, Tree.bool.injEq, Tree.number.injEq, Tree.string.injEq]
  · exact hnumbers _ _ rfl rfl
  · exact hstrings _ _ rfl rfl
  · exact absurd trivial halike
  · exact absurd trivial halike

end Readings

end Tree

def Step.map {σ σ' : Type} (h : σ → σ') : Step σ → Step σ'
  | .key k => .key (h k)
  | .index i => .index i

namespace Tree

section Readings

variable {ν σ ν₁ σ₁ ν₂ σ₂ : Type} [DecidableEq σ₁] [DecidableEq σ₂]
  {f₁ : ν → ν₁} {g₁ : σ → σ₁} {f₂ : ν → ν₂} {g₂ : σ → σ₂} {h : σ₂ → σ₁}

/-- Below one step, with what the two readings find there. -/
theorem behind_map_iff {X Y : Option (Tree ν σ)}
    (hsub : ∀ x y, X = some x → Y = some y → ∀ q, FirstDiff (x.map f₁ g₁) (y.map f₁ g₁) q ↔
      ∃ p, q = p.map (Step.map h) ∧ FirstDiff (x.map f₂ g₂) (y.map f₂ g₂) p) (q : List (Step σ₁)) :
    ((∃ a b, X.map (map f₁ g₁) = some a ∧ Y.map (map f₁ g₁) = some b ∧ FirstDiff a b q) ∨
        (X.isSome ≠ Y.isSome ∧ q = [])) ↔
      ∃ p, q = p.map (Step.map h) ∧
        ((∃ a b, X.map (map f₂ g₂) = some a ∧ Y.map (map f₂ g₂) = some b ∧ FirstDiff a b p) ∨
          (X.isSome ≠ Y.isSome ∧ p = [])) := by
  simp only [Option.map_eq_some_iff]
  constructor
  · rintro (⟨_, _, ⟨x, hx, rfl⟩, ⟨y, hy, rfl⟩, hq⟩ | ⟨hne, rfl⟩)
    · obtain ⟨p, rfl, hp⟩ := (hsub x y hx hy q).mp hq
      exact ⟨p, rfl, .inl ⟨_, _, ⟨x, hx, rfl⟩, ⟨y, hy, rfl⟩, hp⟩⟩
    · exact ⟨[], rfl, .inr ⟨hne, rfl⟩⟩
  · rintro ⟨p, rfl, ⟨_, _, ⟨x, hx, rfl⟩, ⟨y, hy, rfl⟩, hp⟩ | ⟨hne, rfl⟩⟩
    · exact .inl ⟨_, _, ⟨x, hx, rfl⟩, ⟨y, hy, rfl⟩, (hsub x y hx hy _).mpr ⟨p, rfl, hp⟩⟩
    · exact .inr ⟨hne, rfl⟩

/-- **Where two readings tell the same apart**, they find the same points. -/
theorem firstDiff_map_iff (hinj : Function.Injective h) (a b : Tree ν σ)
    (hkeys : ∀ k ∈ a.keys ++ b.keys, g₁ k = h (g₂ k)) (htold : Told f₁ g₁ f₂ g₂ a b) (q : List (Step σ₁)) :
    FirstDiff (a.map f₁ g₁) (b.map f₁ g₁) q ↔
      ∃ p, q = p.map (Step.map h) ∧ FirstDiff (a.map f₂ g₂) (b.map f₂ g₂) p := by
  by_cases halike : Alike a b
  · match a, b, halike with
    | .object o, .object n, _ =>
      have ho : ∀ entry ∈ o, g₁ entry.1 = h (g₂ entry.1) := fun entry hmem =>
        hkeys _ (mem_append_left _ (mem_keysEntries hmem (.inl rfl)))
      have hn : ∀ entry ∈ n, g₁ entry.1 = h (g₂ entry.1) := fun entry hmem =>
        hkeys _ (mem_append_right _ (mem_keysEntries hmem (.inl rfl)))
      have hbehind : ∀ κ q, FirstDiff (.object (mapEntries f₁ g₁ o)) (.object (mapEntries f₁ g₁ n)) (.key (h κ) :: q) ↔
          ∃ p, q = p.map (Step.map h) ∧
            FirstDiff (.object (mapEntries f₂ g₂ o)) (.object (mapEntries f₂ g₂ n)) (.key κ :: p) := by
        intro κ q
        simp only [firstDiff_key_iff, find_mapEntries, under_eq hinj ho, under_eq hinj hn, Option.isSome_map]
        refine behind_map_iff (fun x y hx hy => ?_) q
        have hdec := sizeOf_found hx
        obtain ⟨j, hj⟩ := mem_of_under hx
        obtain ⟨k, hk⟩ := mem_of_under hy
        refine firstDiff_map_iff hinj x y (fun l hl => hkeys l ?_) fun u v hmeets => htold u v ?_
        · rcases mem_append.mp hl with hl | hl
          · exact mem_append_left _ (mem_keysEntries hj (.inr hl))
          · exact mem_append_right _ (mem_keysEntries hk (.inr hl))
        · exact .key ((under_eq hinj ho κ).trans hx) ((under_eq hinj hn κ).trans hy) hmeets
      constructor
      · intro hq
        obtain ⟨κ, q, rfl, hsome⟩ := exists_key hq
        rw [find_mapEntries, find_mapEntries, Option.isSome_map, Option.isSome_map] at hsome
        have hκ : ∃ entry : σ × Tree ν σ, κ = h (g₂ entry.1) := by
          rcases hsome with hsome | hsome
          · obtain ⟨entry, hmem, rfl⟩ := exists_of_under hsome
            exact ⟨entry, ho entry hmem⟩
          · obtain ⟨entry, hmem, rfl⟩ := exists_of_under hsome
            exact ⟨entry, hn entry hmem⟩
        obtain ⟨entry, rfl⟩ := hκ
        obtain ⟨p, rfl, hp⟩ := (hbehind (g₂ entry.1) q).mp hq
        exact ⟨.key (g₂ entry.1) :: p, rfl, hp⟩
      · rintro ⟨p, rfl, hp⟩
        obtain ⟨κ, p, rfl, -⟩ := exists_key hp
        exact (hbehind κ _).mpr ⟨p, rfl, hp⟩
    | .array o, .array n, _ =>
      have hbehind : ∀ i q, FirstDiff (.array (mapItems f₁ g₁ o)) (.array (mapItems f₁ g₁ n)) (.index i :: q) ↔
          ∃ p, q = p.map (Step.map h) ∧
            FirstDiff (.array (mapItems f₂ g₂ o)) (.array (mapItems f₂ g₂ n)) (.index i :: p) := by
        intro i q
        simp only [firstDiff_index_iff, getElem?_mapItems, Option.isSome_map]
        refine behind_map_iff (fun x y hx hy => ?_) q
        have hdec := sizeOf_lt_of_mem (mem_of_getElem? hx)
        refine firstDiff_map_iff hinj x y (fun l hl => hkeys l ?_) fun u v hmeets => htold u v (.item hx hy hmeets)
        rcases mem_append.mp hl with hl | hl
        · exact mem_append_left _ (mem_keysItems (mem_of_getElem? hx) hl)
        · exact mem_append_right _ (mem_keysItems (mem_of_getElem? hy) hl)
      constructor
      · intro hq
        obtain ⟨i, q, rfl⟩ := exists_index hq
        obtain ⟨p, rfl, hp⟩ := (hbehind i q).mp hq
        exact ⟨.index i :: p, rfl, hp⟩
      · rintro ⟨p, rfl, hp⟩
        obtain ⟨i, p, rfl⟩ := exists_index hp
        exact (hbehind i _).mpr ⟨p, rfl, hp⟩
  · rw [firstDiff_iff_of_not_alike ((alike_map_iff a b).not.mpr halike), Ne, map_eq_iff halike htold]
    simp only [firstDiff_iff_of_not_alike ((alike_map_iff a b).not.mpr halike)]
    constructor
    · rintro ⟨rfl, hne⟩
      exact ⟨[], rfl, rfl, hne⟩
    · rintro ⟨p, rfl, rfl, hne⟩
      exact ⟨rfl, hne⟩
termination_by sizeOf a

theorem firstDiff_behind_key {o n : List (σ₁ × Tree ν σ₁)} {k : σ₁} {a b : Tree ν σ₁} (ha : find o k = some a)
    (hb : find n k = some b) {p : List (Step σ₁)} :
    FirstDiff (.object o) (.object n) (.key k :: p) ↔ FirstDiff a b p := by
  rw [firstDiff_key_iff, ha, hb]
  constructor
  · rintro (⟨_, _, ⟨⟩, ⟨⟩, hp⟩ | ⟨hne, -⟩)
    · exact hp
    · exact absurd rfl hne
  · exact fun hp => .inl ⟨a, b, rfl, rfl, hp⟩

theorem firstDiff_behind_index {o n : List (Tree ν σ₁)} {i : Nat} {a b : Tree ν σ₁} (ha : o[i]? = some a)
    (hb : n[i]? = some b) {p : List (Step σ₁)} :
    FirstDiff (.array o) (.array n) (.index i :: p) ↔ FirstDiff a b p := by
  rw [firstDiff_index_iff, ha, hb]
  constructor
  · rintro (⟨_, _, ⟨⟩, ⟨⟩, hp⟩ | ⟨hne, -⟩)
    · exact hp
    · exact absurd rfl hne
  · exact fun hp => .inl ⟨a, b, rfl, rfl, hp⟩

/-- Readings that find the same points find the same behind each place. -/
theorem firstDiff_meets {g₂ : σ → σ₁} {a b u v : Tree ν σ} (hkeys : ∀ k ∈ a.keys ++ b.keys, g₁ k = g₂ k)
    (hmeets : Meets g₁ a b u v)
    (hsame : ∀ q, FirstDiff (a.map f₁ g₁) (b.map f₁ g₁) q ↔ FirstDiff (a.map f₂ g₂) (b.map f₂ g₂) q) :
    ∀ q, FirstDiff (u.map f₁ g₁) (v.map f₁ g₁) q ↔ FirstDiff (u.map f₂ g₂) (v.map f₂ g₂) q := by
  induction hmeets with
  | here => exact hsame
  | @key o n κ a b u v ha hb hmeets ih =>
    obtain ⟨j, hj⟩ := mem_of_under ha
    obtain ⟨k, hk⟩ := mem_of_under hb
    have ho : under g₂ o κ = some a := (under_eq Function.injective_id (fun entry hmem =>
      hkeys _ (mem_append_left _ (mem_keysEntries hmem (.inl rfl)))) κ).symm.trans ha
    have hn : under g₂ n κ = some b := (under_eq Function.injective_id (fun entry hmem =>
      hkeys _ (mem_append_right _ (mem_keysEntries hmem (.inl rfl)))) κ).symm.trans hb
    refine ih (fun l hl => hkeys l ?_) fun q => ?_
    · rcases mem_append.mp hl with hl | hl
      · exact mem_append_left _ (mem_keysEntries hj (.inr hl))
      · exact mem_append_right _ (mem_keysEntries hk (.inr hl))
    · have hq := hsame (.key κ :: q)
      rwa [map, map, map, map, firstDiff_behind_key (by rw [find_mapEntries, ha]; rfl) (by rw [find_mapEntries, hb]; rfl),
        firstDiff_behind_key (by rw [find_mapEntries, ho]; rfl) (by rw [find_mapEntries, hn]; rfl)] at hq
  | @item o n i a b u v ha hb hmeets ih =>
    refine ih (fun l hl => hkeys l ?_) fun q => ?_
    · rcases mem_append.mp hl with hl | hl
      · exact mem_append_left _ (mem_keysItems (mem_of_getElem? ha) hl)
      · exact mem_append_right _ (mem_keysItems (mem_of_getElem? hb) hl)
    · have hq := hsame (.index i :: q)
      rwa [map, map, map, map, firstDiff_behind_index (by rw [getElem?_mapItems, ha]; rfl)
        (by rw [getElem?_mapItems, hb]; rfl), firstDiff_behind_index (by rw [getElem?_mapItems, ha]; rfl)
        (by rw [getElem?_mapItems, hb]; rfl)] at hq

/-- **Readings that find the same points** tell the same apart. -/
theorem told_of_firstDiff {g₂ : σ → σ₁} {a b : Tree ν σ} (hkeys : ∀ k ∈ a.keys ++ b.keys, g₁ k = g₂ k)
    (hsame : ∀ q, FirstDiff (a.map f₁ g₁) (b.map f₁ g₁) q ↔ FirstDiff (a.map f₂ g₂) (b.map f₂ g₂) q) :
    Told f₁ g₁ f₂ g₂ a b := by
  intro u v hmeets
  have hhere := firstDiff_meets hkeys hmeets hsame []
  constructor
  · rintro m n rfl rfl
    rw [firstDiff_iff_of_not_alike (by exact id), firstDiff_iff_of_not_alike (by exact id)] at hhere
    simpa [map, not_iff_not] using hhere
  · rintro s t rfl rfl
    rw [firstDiff_iff_of_not_alike (by exact id), firstDiff_iff_of_not_alike (by exact id)] at hhere
    simpa [map, not_iff_not] using hhere

end Readings

end Tree

/-! ### What a document says -/

mutual

/-- A document, by its tokens. -/
def Doc.tokens : Doc → Tree NumberToken (List Piece)
  | .null => .null
  | .bool b => .bool b
  | .number t => .number t
  | .string s => .string s
  | .emptyArray _ => .array []
  | .array _ items => .array items.tokens
  | .emptyObject _ => .object []
  | .object _ members => .object members.tokens

def Items.tokens : Items → List (Tree NumberToken (List Piece))
  | .last d _ => [d.tokens]
  | .more d _ _ rest => d.tokens :: rest.tokens

def Members.tokens : Members → List (List Piece × Tree NumberToken (List Piece))
  | .last key _ _ d _ => [(key, d.tokens)]
  | .more key _ _ d _ _ rest => (key, d.tokens) :: rest.tokens

end

/-- **What a document says**: its numbers exactly, its strings in code points. -/
def Doc.denote (d : Doc) : Tree ℚ (List Nat) := d.tokens.map NumberToken.value codePoints

/-- What is kept of it, with its strings in code points. -/
def Doc.read (d : Doc) : Tree Text (List Nat) :=
  d.tokens.map NumberToken.kept fun s => (keptString s).map Char.toNat

mutual

theorem Doc.tree_kept : ∀ d : Doc, d.kept.tree = d.tokens.map NumberToken.kept keptString
  | .null => rfl
  | .bool _ => rfl
  | .number _ => rfl
  | .string _ => rfl
  | .emptyArray _ => rfl
  | .array _ items => congrArg Tree.array items.tree_kept
  | .emptyObject _ => rfl
  | .object _ members => congrArg Tree.object members.tree_kept

theorem Items.tree_kept : ∀ items : Items,
    treeItems items.kept = Tree.mapItems NumberToken.kept keptString items.tokens
  | .last d _ => by rw [Items.kept, Items.tokens, treeItems, treeItems, Tree.mapItems, Tree.mapItems, d.tree_kept]
  | .more d _ _ rest => by rw [Items.kept, Items.tokens, treeItems, Tree.mapItems, d.tree_kept, rest.tree_kept]

theorem Members.tree_kept : ∀ members : Members,
    treeEntries members.kept = Tree.mapEntries NumberToken.kept keptString members.tokens
  | .last key _ _ d _ => by
    rw [Members.kept, Members.tokens, treeEntries, treeEntries, Tree.mapEntries, Tree.mapEntries, d.tree_kept]
  | .more key _ _ d _ _ rest => by
    rw [Members.kept, Members.tokens, treeEntries, Tree.mapEntries, d.tree_kept, rest.tree_kept]

end

/-! ### Strings without surrogates -/

/-- A string in which no escape is a surrogate. -/
def Plain (s : List Piece) : Prop := ∀ p ∈ s, p.isCode = true → ¬(0xd800 ≤ p.unit ∧ p.unit < 0xe000)

theorem hexDigit_lt (d : HexDigit) : d.value < 16 := by
  obtain ⟨b, h⟩ := d
  have hsome : nibble b = some (HexDigit.value ⟨b, h⟩) := (Option.some_get h).symm
  generalize HexDigit.value ⟨b, h⟩ = v at hsome
  rw [nibble] at hsome
  split_ifs at hsome <;> (cases hsome; omega)

theorem charOrReplacement_toNat (c : Char) : charOrReplacement c.toNat = c := by
  rw [charOrReplacement, if_pos (show c.toNat.isValidChar from c.valid), Char.ofNat_toNat]

/-- A code unit that is no surrogate is a character. -/
theorem unit_plain {p : Piece} (h : p.isCode = true → ¬(0xd800 ≤ p.unit ∧ p.unit < 0xe000)) :
    p.kept.toNat = p.unit := by
  cases p with
  | code a b c d =>
    have hplain := h rfl
    have ha := hexDigit_lt a
    have hb := hexDigit_lt b
    have hc := hexDigit_lt c
    have hd := hexDigit_lt d
    have hvalid : (codeValue a b c d).isValidChar := by
      simp only [Piece.unit, codeValue] at hplain ⊢
      rw [Nat.isValidChar]
      omega
    rw [Piece.kept, Piece.unit, charOrReplacement, if_pos hvalid, Char.ofNat, dif_pos hvalid]
    rfl
  | _ => rfl

/-- Of a string without surrogates, what it says is kept. -/
theorem codePoints_plain {s : List Piece} (h : Plain s) : codePoints s = (keptString s).map Char.toNat := by
  fun_induction codePoints s with
  | case1 => rfl
  | case2 p => simp [keptString, unit_plain (h p mem_cons_self)]
  | case3 p q rest hpair ih =>
    simp only [Bool.and_eq_true, isHigh, decide_eq_true_eq] at hpair
    have hplain := h p mem_cons_self hpair.1.1.1
    exact absurd ⟨hpair.1.2.1, by omega⟩ hplain
  | case4 p q rest hpair ih =>
    rw [ih fun r hr => h r (mem_cons_of_mem p hr), ← unit_plain (h p mem_cons_self)]
    rfl

/-! ### Where the summary is right -/

/-- The keys of a document are without surrogates. -/
def Doc.PlainKeys (d : Doc) : Prop := ∀ k ∈ d.tokens.keys, Plain k

/-- **Two documents are told apart** where what is kept of the numbers and strings at the same place differs
exactly when they do. -/
def ToldApart (old new : Doc) : Prop :=
  ∀ u v, Tree.Meets codePoints old.tokens new.tokens u v →
    (∀ m n, u = .number m → v = .number n → nearest m.value = nearest n.value → m.value = n.value) ∧
      ∀ s t, u = .string s → v = .string t → (keptString s = keptString t ↔ codePoints s = codePoints t)

/-- The text of a key in a path. -/
def keyText (k : List Nat) : Text := k.map charOrReplacement

/-- The path that stands for a point. -/
def pathText (p : List (Step (List Nat))) : Text := renderFrom keyText ['$'] p

/-- Points at which two documents, or what is kept of them, first differ have different paths. -/
def PathsApart (old new : Doc) : Prop :=
  ∀ p q, (Tree.FirstDiff old.denote new.denote p ∨ Tree.FirstDiff old.read new.read p) →
    (Tree.FirstDiff old.denote new.denote q ∨ Tree.FirstDiff old.read new.read q) → pathText p = pathText q → p = q

/-- **The summary hides nothing**: it says unchanged exactly of equal documents, and its paths are the points at
which they first differ, each once. -/
def Right (old new : Document) : Prop :=
  ∃ s, summary old.bytes new.bytes = .ok s ∧
    (s.semanticallyUnchanged = true ↔ Tree.Equal old.value.denote new.value.denote) ∧
    ∃ points : List (List (Step (List Nat))), points.Nodup ∧
      (∀ p, p ∈ points ↔ Tree.FirstDiff old.value.denote new.value.denote p) ∧
      s.paths.map (·.1) = points.map pathText

section Right

variable {old new : Doc}

theorem nearest_eq_iff {m n : NumberToken} (h : nearest m.value = nearest n.value → m.value = n.value) :
    m.value = n.value ↔ m.kept = n.kept := by
  constructor
  · intro heq
    rw [NumberToken.kept, NumberToken.kept, heq]
  · exact fun heq => h (keptText_injective heq)

theorem toNats_injective : Function.Injective (List.map Char.toNat) :=
  map_injective_iff.mpr fun _ _ => Char.toNat_inj.mp

theorem plainKeys_agree (hold : old.PlainKeys) (hnew : new.PlainKeys) :
    ∀ k ∈ old.tokens.keys ++ new.tokens.keys, codePoints k = (keptString k).map Char.toNat := by
  intro k hk
  rcases mem_append.mp hk with hk | hk
  · exact codePoints_plain (hold k hk)
  · exact codePoints_plain (hnew k hk)

theorem told_iff : Tree.Told NumberToken.value codePoints NumberToken.kept (fun s => (keptString s).map Char.toNat)
    old.tokens new.tokens ↔ ToldApart old new := by
  refine forall₃_congr fun u v _ => and_congr ?_ ?_
  · refine forall₄_congr fun m n _ _ => ⟨fun h heq => ?_, nearest_eq_iff⟩
    exact h.mpr (congrArg keptText heq)
  · refine forall₄_congr fun s t _ _ => ?_
    rw [toNats_injective.eq_iff]
    exact Iff.comm

/-- Where documents are told apart, so is what is kept of them. -/
theorem firstDiff_read (hold : old.PlainKeys) (hnew : new.PlainKeys) :
    (∀ p, Tree.FirstDiff old.denote new.denote p ↔ Tree.FirstDiff old.read new.read p) ↔ ToldApart old new := by
  have hkeys := plainKeys_agree hold hnew
  rw [← told_iff]
  constructor
  · exact Tree.told_of_firstDiff hkeys
  · intro htold p
    have hmap : (Step.map id : Step (List Nat) → Step (List Nat)) = id := by
      funext s
      cases s <;> rfl
    have hiff := Tree.firstDiff_map_iff Function.injective_id old.tokens new.tokens hkeys htold p
    rw [hmap] at hiff
    simpa [Doc.denote, Doc.read] using hiff

/-- The kept documents first differ where what is kept of them, in code points, does. -/
theorem firstDiff_kept (q : List (Step (List Nat))) :
    Tree.FirstDiff old.read new.read q ↔
      ∃ p, q = p.map (Step.map (List.map Char.toNat)) ∧ Tree.FirstDiff old.kept.tree new.kept.tree p := by
  rw [Doc.tree_kept, Doc.tree_kept]
  refine Tree.firstDiff_map_iff toNats_injective old.tokens new.tokens (fun _ _ => rfl) (fun u v _ => ?_) q
  exact ⟨fun m n _ _ => Iff.rfl, fun s t _ _ => toNats_injective.eq_iff⟩

theorem renderFrom_toNats (path : Text) (p : List (Step Text)) :
    renderFrom keyText path (p.map (Step.map (List.map Char.toNat))) = renderFrom id path p := by
  induction p generalizing path with
  | nil => rfl
  | cons s p ih =>
    cases s with
    | key k =>
      have hkey : keyText (k.map Char.toNat) = k := by
        rw [keyText, map_map]
        exact (map_congr_left fun c _ => charOrReplacement_toNat c).trans (map_id k)
      simp only [map_cons, Step.map, renderFrom, hkey, id, ih]
    | index i => simp only [map_cons, Step.map, renderFrom, ih]

theorem stepMap_injective : Function.Injective (Step.map (List.map Char.toNat)) := by
  intro s t h
  cases s <;> cases t <;> simp only [Step.map, reduceCtorEq, Step.key.injEq, Step.index.injEq] at h
  · rw [toNats_injective h]
  · rw [h]

/-- What is reported of the kept documents, as points of what is kept. -/
theorem diffValues_read {out : List (Text × PathChange)} (h : diffValues ['$'] old.kept new.kept = .ok out) :
    ∃ points : List (List (Step (List Nat))), points.Nodup ∧
      (∀ p, p ∈ points ↔ Tree.FirstDiff old.read new.read p) ∧ out.map (·.1) = points.map pathText := by
  obtain ⟨points, hnodup, hmem, hout⟩ := diffValues_points ['$'] old.kept new.kept h
  refine ⟨points.map (List.map (Step.map (List.map Char.toNat))), ?_, fun q => ?_, ?_⟩
  · exact hnodup.map (map_injective_iff.mpr stepMap_injective)
  · rw [firstDiff_kept, mem_map]
    constructor
    · rintro ⟨p, hp, rfl⟩
      exact ⟨p, rfl, (hmem p).mp hp⟩
    · rintro ⟨p, rfl, hp⟩
      exact ⟨p, (hmem p).mpr hp, rfl⟩
  · rw [hout, map_map]
    exact map_congr_left fun p _ => (renderFrom_toNats ['$'] p).symm

end Right

/-! ### The summary of two documents -/

/-- A document looks like JSON. -/
theorem looksLikeJson_document (d : Document) : looksLikeJson d.bytes = true := by
  have hhead : ∃ b tail, d.value.bytes = b :: tail ∧ isSpace b = false ∧ looksLikeJson (b :: tail) = true := by
    cases d.value with
    | null => exact ⟨0x6e, _, rfl, rfl, rfl⟩
    | bool b => cases b <;> exact ⟨_, _, rfl, rfl, rfl⟩
    | number t =>
      obtain ⟨b, tail, hbytes, hb, hspace, -⟩ := head_number t
      refine ⟨b, tail, hbytes, hspace, ?_⟩
      rw [looksLikeJson, dropWhile_cons_of_neg (by simp [hspace])]
      rcases hb with rfl | ⟨hlow, hhigh⟩
      · rfl
      · simp [hlow, hhigh]
    | string s => exact ⟨_, _, rfl, rfl, rfl⟩
    | emptyArray ws => exact ⟨_, _, rfl, rfl, rfl⟩
    | array before items => exact ⟨_, _, rfl, rfl, rfl⟩
    | emptyObject ws => exact ⟨_, _, rfl, rfl, rfl⟩
    | object before members => exact ⟨_, _, rfl, rfl, rfl⟩
  obtain ⟨b, tail, hbytes, hspace, hlooks⟩ := hhead
  rw [looksLikeJson, dropWhile_cons_of_neg (by simp [hspace])] at hlooks
  have hdrop : d.bytes.dropWhile isSpace = b :: (tail ++ d.after.val) := by
    rw [Document.bytes, dropWhile_append_of_pos d.before.2, hbytes, cons_append,
      dropWhile_cons_of_neg (by simp [hspace])]
  rw [looksLikeJson, hdrop]
  exact hlooks

theorem summary_document (old new : Document) :
    summary old.bytes new.bytes = (do
      let paths ← diffValues ['$'] old.value.kept new.value.kept
      return ⟨.json, paths⟩) := by
  rw [summary, looksLikeJson_document, looksLikeJson_document, jsonSummary, parseJson_document, parseJson_document]
  rfl

theorem unchanged_iff {kind : StructKind} {out : List (Text × PathChange)} {points : List (List (Step (List Nat)))}
    {a b : Tree ℚ (List Nat)} (hmem : ∀ p, p ∈ points ↔ Tree.FirstDiff a b p)
    (hout : out.map (·.1) = points.map pathText) :
    (Summary.mk kind out).semanticallyUnchanged = true ↔ Tree.Equal a b := by
  have hempty : out = [] ↔ points = [] := by rw [← map_eq_nil_iff, hout, map_eq_nil_iff]
  rw [Summary.semanticallyUnchanged, List.isEmpty_iff, hempty, Tree.equal_iff, eq_nil_iff_forall_not_mem]
  exact forall_congr' fun p => not_congr (hmem p)

/-- **When the summary hides nothing**: where the two documents are told apart and what is shown of them can be,
their keys being without surrogates.  Where no two points share a path, only then. -/
theorem summary_right (old new : Document) (hold : old.value.PlainKeys) (hnew : new.value.PlainKeys) :
    (ToldApart old.value new.value ∧ ShowsWell old.value.kept new.value.kept → Right old new) ∧
      (PathsApart old.value new.value → Right old new →
        ToldApart old.value new.value ∧ ShowsWell old.value.kept new.value.kept) := by
  constructor
  · rintro ⟨htold, hshows⟩
    have hsafe := (safe_diffValues_iff ['$'] _ _).mpr hshows
    obtain ⟨out, hout⟩ := (definite_diffValues ['$'] _ _).exists_ok hsafe
    obtain ⟨points, hnodup, hmem, hpaths⟩ := diffValues_read hout
    have hmem := fun p => (hmem p).trans ((firstDiff_read hold hnew).mpr htold p).symm
    refine ⟨⟨.json, out⟩, ?_, unchanged_iff hmem hpaths, points, hnodup, hmem, hpaths⟩
    rw [summary_document, hout]
    rfl
  · rintro hapart ⟨s, hsummary, -, points, -, hmem, hpaths⟩
    rw [summary_document] at hsummary
    obtain ⟨out, hout, hs⟩ := steps_eq_ok.mp hsummary
    cases hs
    obtain ⟨kept, -, hkept, hkeptPaths⟩ := diffValues_read hout
    have hlists : points.map pathText = kept.map pathText := hpaths.symm.trans hkeptPaths
    refine ⟨(firstDiff_read hold hnew).mp fun p => ?_, (safe_diffValues_iff ['$'] _ _).mp fun h => ?_⟩
    · constructor
      · intro hp
        obtain ⟨q, hq, heq⟩ := mem_map.mp (hlists ▸ mem_map_of_mem ((hmem p).mpr hp))
        exact hapart q p (.inr ((hkept q).mp hq)) (.inl hp) heq ▸ (hkept q).mp hq
      · intro hp
        obtain ⟨q, hq, heq⟩ := mem_map.mp (hlists ▸ mem_map_of_mem ((hkept p).mpr hp))
        exact hapart q p (.inl ((hmem q).mp hq)) (.inr hp) heq ▸ (hmem q).mp hq
    · rw [hout] at h
      cases h

/-! ### Documents that are told apart, and documents that are not -/

/-- `{"a": n}` for one digit that is not zero. -/
def memberOf (n : Char) (h : n.isDigit = true ∧ n ≠ '0') : Document where
  before := noBlanks
  value := .object noBlanks (.last [.plain 'a' (by decide)] noBlanks noBlanks
    (.number ⟨false, ⟨[n], by simp [h.1]⟩, by simp [h.2], none, none⟩) noBlanks)
  after := noBlanks

def memberOne : Document := memberOf '1' (by decide)

def memberTwo : Document := memberOf '2' (by decide)

theorem plainKeys_memberOf (n : Char) (h : n.isDigit = true ∧ n ≠ '0') : (memberOf n h).value.PlainKeys := by
  intro k hk p hp hcode
  cases mem_singleton.mp hk
  cases mem_singleton.mp hp
  cases hcode

theorem toldApart_members : ToldApart memberOne.value memberTwo.value := by
  intro u v hmeets
  cases hmeets with
  | here => exact ⟨(fun _ _ h => by cases h), fun _ _ h => by cases h⟩
  | @key _ _ κ a b _ _ ha hb hmeets =>
    obtain ⟨_, ha⟩ := Tree.mem_of_under ha
    obtain ⟨_, hb⟩ := Tree.mem_of_under hb
    cases mem_singleton.mp ha
    cases mem_singleton.mp hb
    cases hmeets with
    | here =>
      refine ⟨fun m n hm hn hnearest => ?_, fun _ _ h => by cases h⟩
      cases hm
      cases hn
      exact absurd hnearest (by decide +kernel)

theorem showsWell_members : ShowsWell memberOne.value.kept memberTwo.value.kept := by
  have hnumber : ∀ (entries : List (Text × Value)) (x : Text), entries = [(['a'], .number x)] → ∀ k v,
      lookup entries k = some v → v = .number x := by
    rintro entries x rfl k v hv
    obtain ⟨entry, hfind, rfl⟩ := Option.map_eq_some_iff.mp hv
    rw [mem_singleton.mp (mem_of_find?_eq_some hfind)]
  rintro v hv s rfl
  cases hv with
  | key ha hb hshown =>
    cases hnumber _ _ rfl _ _ ha
    cases hnumber _ _ rfl _ _ hb
    rcases ((shown_iff_of_not_alike (by exact id)).mp hshown).2 with h | h <;> cases h
  | keyAdded _ hb => cases hnumber _ _ rfl _ _ hb
  | keyRemoved ha => cases hnumber _ _ rfl _ _ ha

theorem summary_right_members : Right memberOne memberTwo :=
  (summary_right memberOne memberTwo (plainKeys_memberOf '1' (by decide)) (plainKeys_memberOf '2' (by decide))).1
    ⟨toldApart_members, showsWell_members⟩

/-- A string of one face, in two escapes. -/
def face (last : HexDigit) : Document where
  before := noBlanks
  value := .string [.code ⟨0x64, rfl⟩ ⟨0x38, rfl⟩ ⟨0x33, rfl⟩ ⟨0x64, rfl⟩,
    .code ⟨0x64, rfl⟩ ⟨0x65, rfl⟩ ⟨0x30, rfl⟩ last]
  after := noBlanks

/-- Of two faces the same is kept. -/
theorem faces_look_alike : ¬Right (face ⟨0x30, rfl⟩) (face ⟨0x31, rfl⟩) := by
  rintro ⟨s, hsummary, hunchanged, -⟩
  have hkept : (face ⟨0x30, rfl⟩).value.kept = (face ⟨0x31, rfl⟩).value.kept := by decide
  rw [summary_document, hkept, diffValues.eq_3 _ _ _ (fun _ _ h => by cases h) (fun _ _ h => by cases h), if_pos rfl]
    at hsummary
  cases hsummary
  have hstring : ∀ {x y : List Nat}, Tree.Equal (.string x : Tree ℚ (List Nat)) (.string y) → x = y := by
    intro x y h
    cases h
    rfl
  exact absurd (hstring (hunchanged.mp rfl)) (by decide)

end Alt.StructDiff
