import Mathlib.Data.List.Nodup
import Mathlib.Data.List.Perm.Basic
import Mathlib.Order.Defs.LinearOrder

namespace Alt.Library

open List

/-!
# Library — finite maps, and lists of bindings in which the last one wins

* `FinMap κ υ` — a hash map as the list of its bindings, one for each key;
* `lastOf l k` — the last binding of `k` in a list of bindings;
* `FinMap.ofEntries l` — the map that inserts the bindings of `l` one after another: the
  last one wins (`get_ofEntries`);
* `lastOf_perm` — with distinct keys the order of the bindings does not matter;
* `SortedBy key` — what a sort by key promises.  It leaves the order of equal keys open:
  any one of them can come last (`exists_sortedBy_last`).
-/

/-- A finite map as the list of its bindings, the latest insertion first. -/
structure FinMap (κ υ : Type) where
  entries : List (κ × υ)
  nodup : (entries.map Prod.fst).Nodup

namespace FinMap

variable {κ υ : Type}

def empty : FinMap κ υ := ⟨[], nodup_nil⟩

variable [DecidableEq κ]

def get (m : FinMap κ υ) (k : κ) : Option υ := m.entries.lookup k

def containsKey (m : FinMap κ υ) (k : κ) : Bool := (m.get k).isSome

/-- Bind `k` to `v`, whatever it was bound to before. -/
def insert (m : FinMap κ υ) (k : κ) (v : υ) : FinMap κ υ where
  entries := (k, v) :: m.entries.filter (fun e => e.1 ≠ k)
  nodup := by
    have hsub : ((m.entries.filter (fun e => e.1 ≠ k)).map Prod.fst).Sublist
        (m.entries.map Prod.fst) := filter_sublist.map _
    simp only [map_cons, nodup_cons]
    exact ⟨by simp, m.nodup.sublist hsub⟩

/-- Drop the binding of `k`. -/
def erase (m : FinMap κ υ) (k : κ) : FinMap κ υ where
  entries := m.entries.filter (fun e => e.1 ≠ k)
  nodup := m.nodup.sublist (filter_sublist.map _)

/-- The bindings of `l`, inserted one after another. -/
def ofEntries (l : List (κ × υ)) : FinMap κ υ := l.foldl (fun m e => m.insert e.1 e.2) empty

variable {k k' : κ}

/-- Dropping the bindings of another key. -/
theorem lookup_filter_of_ne (l : List (κ × υ)) (h : k' ≠ k) :
    (l.filter (fun e => e.1 ≠ k)).lookup k' = l.lookup k' := by
  induction l with
  | nil => rfl
  | cons e l ih =>
    obtain ⟨k'', v⟩ := e
    by_cases he : k'' = k
    · have hne : (k' == k'') = false := by simpa [he] using h
      rw [filter_cons_of_neg (by simpa using he), ih, List.lookup_cons, hne]
    · rw [filter_cons_of_pos (by simpa using he), List.lookup_cons, List.lookup_cons, ih]

/-- A binding put at the end in place of those of its key. -/
theorem lookup_replace (l : List (κ × υ)) (k k' : κ) (v : υ) :
    (l.filter (fun e => e.1 ≠ k) ++ [(k, v)]).lookup k' = if k' = k then some v else l.lookup k' := by
  rw [lookup_append]
  split
  · rename_i heq
    have hnone : (l.filter (fun e => e.1 ≠ k)).lookup k = none := by
      rw [lookup_eq_none_iff]
      intro e he
      have hne : e.1 ≠ k := of_decide_eq_true (mem_filter.mp he).2
      exact bne_iff_ne.mpr hne.symm
    rw [heq, hnone, Option.none_or, lookup_cons_self]
  · rename_i hne
    have hbeq : (k' == k) = false := by simpa using hne
    rw [lookup_filter_of_ne l hne, List.lookup_cons, hbeq, lookup_nil, Option.or_none]

@[simp] theorem get_empty (k : κ) : (empty : FinMap κ υ).get k = none := rfl

variable (m : FinMap κ υ)

@[simp] theorem get_insert_self (k : κ) (v : υ) :
    (m.insert k v).get k = some v := by
  simp [get, insert]

@[simp] theorem get_insert_of_ne (v : υ) (h : k' ≠ k) :
    (m.insert k v).get k' = m.get k' := by
  have hne : (k' == k) = false := by simpa using h
  simp only [get, insert, List.lookup_cons, hne]
  exact lookup_filter_of_ne m.entries h

theorem get_insert (k k' : κ) (v : υ) :
    (m.insert k v).get k' = if k' = k then some v else m.get k' := by
  by_cases h : k' = k
  · rw [if_pos h, h, get_insert_self]
  · rw [if_neg h, get_insert_of_ne m v h]

/-- A binding of the list is what `get` returns: keys do not repeat. -/
theorem mem_entries_iff (k : κ) (v : υ) :
    (k, v) ∈ m.entries ↔ m.get k = some v := by
  obtain ⟨l, hl⟩ := m
  simp only [get]
  induction l with
  | nil => simp
  | cons e l ih =>
    obtain ⟨k', v'⟩ := e
    simp only [map_cons, nodup_cons] at hl
    rw [List.lookup_cons]
    by_cases hk : k = k'
    · subst hk
      have hnot : (k, v) ∉ l := fun h => hl.1 (mem_map_of_mem (f := Prod.fst) h)
      simp [hnot, eq_comm]
    · have hne : (k == k') = false := by simpa using hk
      simp only [hne, mem_cons, Prod.mk.injEq, hk, false_and, false_or, ih hl.2]

theorem mem_keys_iff (k : κ) :
    k ∈ m.entries.map Prod.fst ↔ m.containsKey k = true := by
  rw [containsKey, Option.isSome_iff_exists, mem_map]
  constructor
  · rintro ⟨⟨k', v⟩, he, rfl⟩
    exact ⟨v, (m.mem_entries_iff _ v).mp he⟩
  · rintro ⟨v, hv⟩
    exact ⟨(k, v), (m.mem_entries_iff k v).mpr hv, rfl⟩

/-- What is bound after `erase` was bound before. -/
theorem get_of_get_erase {m : FinMap κ υ} {v : υ} (h : (m.erase k).get k' = some v) :
    m.get k' = some v := by
  rw [← mem_entries_iff] at h ⊢
  exact (mem_filter.mp h).1

theorem get_foldl_insert (l : List (κ × υ)) (m : FinMap κ υ) (k : κ) :
    (l.foldl (fun m e => m.insert e.1 e.2) m).get k = (l.reverse.lookup k).or (m.get k) := by
  induction l generalizing m with
  | nil => simp
  | cons e l ih =>
    obtain ⟨k', v'⟩ := e
    rw [foldl_cons, ih, get_insert, reverse_cons, lookup_append, Option.or_assoc,
      List.lookup_cons, lookup_nil]
    by_cases hk : k = k'
    · simp [hk]
    · have hne : (k == k') = false := by simpa using hk
      simp [hk, hne]

end FinMap

/-! ### Lists of bindings -/

variable {κ υ : Type} [DecidableEq κ]

/-- The last binding of `k`. -/
def lastOf (l : List (κ × υ)) (k : κ) : Option υ := l.reverse.lookup k

/-- A later list of bindings overrides an earlier one. -/
theorem lastOf_append (l l' : List (κ × υ)) (k : κ) :
    lastOf (l ++ l') k = (lastOf l' k).or (lastOf l k) := by
  rw [lastOf, reverse_append, lookup_append]
  rfl

theorem lastOf_concat (l : List (κ × υ)) (k k' : κ) (v : υ) :
    lastOf (l ++ [(k, v)]) k' = if k' = k then some v else lastOf l k' := by
  rw [lastOf, reverse_append, reverse_singleton, singleton_append, List.lookup_cons]
  by_cases h : k' = k
  · simp [h]
  · have hne : (k' == k) = false := by simpa using h
    rw [hne, if_neg h]
    rfl

/-- **The last binding wins.** -/
@[simp] theorem FinMap.get_ofEntries (l : List (κ × υ)) (k : κ) :
    (FinMap.ofEntries l).get k = lastOf l k := by
  rw [FinMap.ofEntries, FinMap.get_foldl_insert, FinMap.get_empty, Option.or_none, lastOf]

variable {l : List (κ × υ)} {k : κ} {v : υ}

theorem lookup_eq_some_of_mem (h : (l.map Prod.fst).Nodup) :
    l.lookup k = some v ↔ (k, v) ∈ l :=
  (FinMap.mem_entries_iff ⟨l, h⟩ k v).symm

theorem mem_of_lastOf (h : lastOf l k = some v) :
    (k, v) ∈ l := by
  obtain ⟨l₁, l₂, heq, -⟩ := List.lookup_eq_some_iff.mp h
  rw [← mem_reverse, heq]
  simp

/-- With distinct keys every binding is the last of its key. -/
theorem lastOf_iff_mem (h : (l.map Prod.fst).Nodup) :
    lastOf l k = some v ↔ (k, v) ∈ l := by
  have hrev : (l.reverse.map Prod.fst).Nodup := by
    rw [map_reverse]
    exact nodup_reverse.mpr h
  rw [lastOf, lookup_eq_some_of_mem hrev, mem_reverse]

/-- With distinct keys the order of the bindings does not matter. -/
theorem lastOf_perm {l' : List (κ × υ)} (hp : l.Perm l') (h : (l.map Prod.fst).Nodup) (k : κ) :
    lastOf l k = lastOf l' k := by
  have h' : (l'.map Prod.fst).Nodup := (hp.map Prod.fst).nodup_iff.mp h
  apply Option.ext
  intro v
  rw [lastOf_iff_mem h, lastOf_iff_mem h', hp.mem_iff]

/-- A lookup through a map on the bound values. -/
theorem lastOf_map_snd {υ' : Type} (f : υ → υ') (l : List (κ × υ)) (k : κ) :
    lastOf (l.map fun e => (e.1, f e.2)) k = (lastOf l k).map f := by
  unfold lastOf
  rw [← map_reverse]
  induction l.reverse with
  | nil => rfl
  | cons e l ih =>
    obtain ⟨k', v⟩ := e
    rw [map_cons, List.lookup_cons, List.lookup_cons, ih]
    cases k == k' <;> rfl

/-- A binding with no later one of its key is the last one. -/
theorem lastOf_eq_some {pre post : List (κ × υ)} (h : ∀ e ∈ post, e.1 ≠ k) :
    lastOf (pre ++ (k, v) :: post) k = some v := by
  have hnone : post.reverse.lookup k = none := by
    rw [lookup_eq_none_iff]
    intro e he
    exact bne_iff_ne.mpr (h e (mem_reverse.mp he)).symm
  rw [lastOf, reverse_append, reverse_cons, lookup_append, lookup_append, hnone]
  simp

/-- What a sort by key promises: the same elements, keys ascending.  Nothing is said about
    the order of elements with one key. -/
structure SortedBy {α ω : Type} [LE ω] (key : α → ω) (l sorted : List α) : Prop where
  perm : sorted.Perm l
  pairwise : sorted.Pairwise (fun a b => key a ≤ key b)

section Sorting

variable {α ω : Type} [LE ω] [Std.IsLinearOrder ω] [DecidableLE ω] (key : α → ω)

/-- Merge sort is such a sort. -/
theorem sortedBy_mergeSort (l : List α) :
    SortedBy key l (l.mergeSort fun a b => decide (key a ≤ key b)) where
  perm := mergeSort_perm l _
  pairwise := by
    have htrans : ∀ a b c : α, decide (key a ≤ key b) = true → decide (key b ≤ key c) = true →
        decide (key a ≤ key c) = true := by
      intro a b c hab hbc
      simp only [decide_eq_true_eq] at *
      exact Std.le_trans hab hbc
    have htotal : ∀ a b : α, (decide (key a ≤ key b) || decide (key b ≤ key a)) = true := by
      intro a b
      simpa using Std.le_total
    exact (pairwise_mergeSort htrans htotal l).imp (by simp)

/-- Any element of the list can be the last of its key in a sorted order. -/
theorem exists_sortedBy_last {l : List α} {a : α} (h : a ∈ l) :
    ∃ pre post, SortedBy key l (pre ++ a :: post) ∧ ∀ b ∈ post, key b ≠ key a := by
  obtain ⟨l₁, l₂, rfl⟩ := append_of_mem h
  obtain ⟨s, hperm, hpair⟩ : ∃ s, SortedBy key (l₁ ++ l₂) s := ⟨_, sortedBy_mergeSort key _⟩
  -- cut the sorted rest where the keys exceed the key of `a`
  refine ⟨s.filter (fun b => key b ≤ key a), s.filter (fun b => ¬ key b ≤ key a), ⟨?_, ?_⟩, ?_⟩
  · have hcut : (s.filter (fun b => key b ≤ key a) ++ s.filter (fun b => ¬ key b ≤ key a)).Perm s := by
      simpa using filter_append_perm (fun b => decide (key b ≤ key a)) s
    exact perm_middle.trans (((hcut.trans hperm).cons a).trans perm_middle.symm)
  · rw [pairwise_append, pairwise_cons]
    have habove : ∀ b ∈ s.filter (fun b => ¬ key b ≤ key a), key a ≤ key b := by
      intro b hb
      have hnle : ¬ key b ≤ key a := by simpa using (mem_filter.mp hb).2
      exact (Std.le_total (a := key a) (b := key b)).resolve_right hnle
    have hbelow : ∀ b ∈ s.filter (fun b => key b ≤ key a), key b ≤ key a := by
      intro b hb
      simpa using (mem_filter.mp hb).2
    refine ⟨hpair.filter _, ⟨habove, hpair.filter _⟩, ?_⟩
    intro b hb c hc
    rcases mem_cons.mp hc with rfl | hc
    · exact hbelow b hb
    · exact Std.le_trans (hbelow b hb) (habove c hc)
  · intro b hb heq
    have hnle : ¬ key b ≤ key a := by simpa using (mem_filter.mp hb).2
    exact hnle (heq ▸ Std.le_refl _)

end Sorting

end Alt.Library
