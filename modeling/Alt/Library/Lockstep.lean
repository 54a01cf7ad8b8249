import Mathlib.Data.List.Nodup

namespace Alt.Library

open List

/-!
# Library — walking two lists in lockstep

The walk of a merge: the smaller of the two heads is passed alone, equal heads are passed together.
It is run here on lists that need not be sorted by the keys it compares.

* `lockstep` — the walk, as the list of what it passes;
* `filterMap_left_lockstep`, `filterMap_right_lockstep` — it passes both lists, each in its order;
* `overtaking before k` — the keys before `k` that are larger than `k` and than all between;
* `both_mem_lockstep_iff` — two elements with one key are passed together exactly if the same keys
  overtake it in both lists;
* `passes_cases` — otherwise one is passed before the other.
-/

/-- What one step of the walk passes. -/
inductive Pass (α : Type*)
  | left (a : α)
  | right (b : α)
  | both (a b : α)
  deriving DecidableEq

def Pass.left? {α : Type*} : Pass α → Option α
  | .left a => some a
  | .right _ => none
  | .both a _ => some a

def Pass.right? {α : Type*} : Pass α → Option α
  | .left _ => none
  | .right b => some b
  | .both _ b => some b

def Pass.key {α κ : Type*} (key : α → κ) : Pass α → κ
  | .left a => key a
  | .right b => key b
  | .both _ b => key b

section

variable {α κ : Type*} [Ord κ] (key : α → κ)

/-- The steps up to where the left head is passed. -/
def lockstepOne (a : α) (rest : List α → List (Pass α)) : List α → List (Pass α)
  | [] => .left a :: rest []
  | b :: bs =>
    match compare (key a) (key b) with
    | .lt => .left a :: rest (b :: bs)
    | .gt => .right b :: lockstepOne a rest bs
    | .eq => .both a b :: rest bs

/-- Passes two lists, by the keys of their heads. -/
def lockstep : List α → List α → List (Pass α)
  | [], bs => bs.map .right
  | a :: as, bs => lockstepOne key a (lockstep as) bs

variable {key}

theorem lockstep_cons (a : α) (as bs : List α) :
    lockstep key (a :: as) bs = lockstepOne key a (lockstep key as) bs := rfl

theorem lockstepOne_nil (a : α) (rest : List α → List (Pass α)) :
    lockstepOne key a rest [] = .left a :: rest [] := rfl

theorem lockstepOne_cons (a : α) (rest : List α → List (Pass α)) (b : α) (bs : List α) :
    lockstepOne key a rest (b :: bs) = match compare (key a) (key b) with
      | .lt => .left a :: rest (b :: bs)
      | .gt => .right b :: lockstepOne key a rest bs
      | .eq => .both a b :: rest bs := rfl

@[simp] theorem lockstep_nil_left (bs : List α) : lockstep key [] bs = bs.map .right := rfl

@[simp] theorem lockstep_nil_right (as : List α) : lockstep key as [] = as.map .left := by
  induction as with
  | nil => rfl
  | cons a as ih => rw [lockstep_cons, lockstepOne_nil, ih, map_cons]

theorem lockstep_of_lt {a b : α} (as bs : List α) (h : compare (key a) (key b) = .lt) :
    lockstep key (a :: as) (b :: bs) = .left a :: lockstep key as (b :: bs) := by
  rw [lockstep_cons, lockstepOne_cons, h]

theorem lockstep_of_gt {a b : α} (as bs : List α) (h : compare (key a) (key b) = .gt) :
    lockstep key (a :: as) (b :: bs) = .right b :: lockstep key (a :: as) bs := by
  rw [lockstep_cons, lockstepOne_cons, h, lockstep_cons]

theorem lockstep_of_eq {a b : α} (as bs : List α) (h : compare (key a) (key b) = .eq) :
    lockstep key (a :: as) (b :: bs) = .both a b :: lockstep key as bs := by
  rw [lockstep_cons, lockstepOne_cons, h]

/-! ### What is passed -/

/-- **The left list is passed** in its order. -/
theorem filterMap_left_lockstep (key : α → κ) (as bs : List α) :
    (lockstep key as bs).filterMap Pass.left? = as := by
  induction as generalizing bs with
  | nil => simp [filterMap_map, Function.comp_def, Pass.left?]
  | cons a as ih =>
    induction bs with
    | nil => rw [lockstep_cons, lockstepOne_nil, filterMap_cons, Pass.left?, ih]
    | cons b bs ihb =>
      cases hcompare : compare (key a) (key b) with
      | lt => rw [lockstep_of_lt as bs hcompare, filterMap_cons, Pass.left?, ih]
      | gt => rw [lockstep_of_gt as bs hcompare, filterMap_cons, Pass.left?, ihb]
      | eq => rw [lockstep_of_eq as bs hcompare, filterMap_cons, Pass.left?, ih]

/-- **The right list is passed** in its order. -/
theorem filterMap_right_lockstep (key : α → κ) (as bs : List α) :
    (lockstep key as bs).filterMap Pass.right? = bs := by
  induction as generalizing bs with
  | nil => simp [filterMap_map, Function.comp_def, Pass.right?]
  | cons a as ih =>
    induction bs with
    | nil => rw [lockstep_cons, lockstepOne_nil, filterMap_cons, Pass.right?, ih]
    | cons b bs ihb =>
      cases hcompare : compare (key a) (key b) with
      | lt => rw [lockstep_of_lt as bs hcompare, filterMap_cons, Pass.right?, ih]
      | gt => rw [lockstep_of_gt as bs hcompare, filterMap_cons, Pass.right?, ihb]
      | eq => rw [lockstep_of_eq as bs hcompare, filterMap_cons, Pass.right?, ih]

theorem mem_left_of_lockstep {as bs : List α} {s : Pass α} {a : α} (hs : s ∈ lockstep key as bs)
    (ha : s.left? = some a) : a ∈ as := by
  rw [← filterMap_left_lockstep key as bs]
  exact mem_filterMap.mpr ⟨s, hs, ha⟩

theorem mem_right_of_lockstep {as bs : List α} {s : Pass α} {b : α} (hs : s ∈ lockstep key as bs)
    (hb : s.right? = some b) : b ∈ bs := by
  rw [← filterMap_right_lockstep key as bs]
  exact mem_filterMap.mpr ⟨s, hs, hb⟩

/-! ### Who overtakes -/

/-- The keys before `k` that are larger than `k` and than all keys between. -/
def overtaking : List κ → κ → List κ
  | [], _ => []
  | y :: ys, k =>
    if compare k y = .lt ∧ ∀ z ∈ ys, compare z y = .lt then y :: overtaking ys k else overtaking ys k

theorem overtaking_cons (y : κ) (ys : List κ) (k : κ) : overtaking (y :: ys) k =
    if compare k y = .lt ∧ ∀ z ∈ ys, compare z y = .lt then y :: overtaking ys k else overtaking ys k := rfl

theorem mem_of_overtaking {ys : List κ} {k m : κ} (h : m ∈ overtaking ys k) : m ∈ ys := by
  induction ys with
  | nil => cases h
  | cons y ys ih =>
    rw [overtaking_cons] at h
    split at h
    · rcases mem_cons.mp h with rfl | h
      · exact mem_cons_self
      · exact mem_cons_of_mem y (ih h)
    · exact mem_cons_of_mem y (ih h)

theorem overtaking_cons_of_lt [Std.OrientedOrd κ] {ys : List κ} {k y : κ} (h : compare y k = .lt) :
    overtaking (y :: ys) k = overtaking ys k := by
  rw [overtaking_cons, if_neg]
  rintro ⟨hk, -⟩
  rw [Std.OrientedCmp.gt_of_lt h] at hk
  cases hk

theorem key_of_both [Std.LawfulEqOrd κ] {as bs : List α} {a b : α} (h : Pass.both a b ∈ lockstep key as bs) :
    key a = key b := by
  induction as generalizing bs with
  | nil => simp at h
  | cons c as ih =>
    induction bs with
    | nil => simp at h
    | cons d bs ihb =>
      cases hcompare : compare (key c) (key d) with
      | lt =>
        rw [lockstep_of_lt as bs hcompare] at h
        exact ih (by simpa using h)
      | gt =>
        rw [lockstep_of_gt as bs hcompare] at h
        exact ihb (by simpa using h)
      | eq =>
        rw [lockstep_of_eq as bs hcompare] at h
        rcases mem_cons.mp h with heq | h
        · cases heq
          exact Std.LawfulEqCmp.eq_of_compare hcompare
        · exact ih h

end

section

variable {α κ : Type*} [Ord κ] [Std.TransOrd κ] [Std.LawfulEqOrd κ] {key : α → κ}

/-- A larger key before `k` is overtaking, or one that is larger still is. -/
theorem exists_overtaking {ys : List κ} {k y : κ} (hy : y ∈ ys) (hk : compare k y = .lt) :
    ∃ m ∈ overtaking ys k, (compare y m).isLE := by
  induction ys generalizing y with
  | nil => cases hy
  | cons z ys ih =>
    rw [overtaking_cons]
    rcases mem_cons.mp hy with rfl | hy
    · split
      · exact ⟨y, mem_cons_self, Std.ReflCmp.isLE_rfl⟩
      · rename_i hnot
        have hlarger : ∃ w ∈ ys, (compare y w).isLE := by
          by_contra hnone
          refine hnot ⟨hk, fun w hw => ?_⟩
          by_contra hge
          refine hnone ⟨w, hw, ?_⟩
          cases hcompare : compare y w with
          | lt => rfl
          | eq => rfl
          | gt => exact absurd (Std.OrientedCmp.lt_of_gt hcompare) hge
        obtain ⟨w, hw, hle⟩ := hlarger
        obtain ⟨m, hm, hwm⟩ := ih hw (Std.TransCmp.lt_of_lt_of_isLE hk hle)
        exact ⟨m, hm, Std.TransCmp.isLE_trans hle hwm⟩
    · obtain ⟨m, hm, hle⟩ := ih hy hk
      split
      · exact ⟨m, mem_cons_of_mem z hm, hle⟩
      · exact ⟨m, hm, hle⟩

/-- Where something larger than all of `ms` comes before `k`, other keys overtake it. -/
theorem ne_overtaking_of_larger {ms ys : List κ} {k y : κ} (hms : ∀ m ∈ ms, compare m y = .lt)
    (hy : y ∈ ys) (hk : compare k y = .lt) : ms ≠ overtaking ys k := by
  rintro rfl
  obtain ⟨m, hm, hle⟩ := exists_overtaking hy hk
  have hsame : compare m m = .eq := Std.ReflCmp.compare_self
  rw [Std.TransCmp.lt_of_lt_of_isLE (hms m hm) hle] at hsame
  cases hsame

/-- One more key in front, smaller than one of the other list: it makes no difference. -/
theorem overtaking_cons_eq_iff {ys zs : List κ} {k y z : κ} (hz : z ∈ zs) (h : compare y z = .lt) :
    overtaking (y :: ys) k = overtaking zs k ↔ overtaking ys k = overtaking zs k := by
  rw [overtaking_cons]
  split
  · rename_i hlarge
    have hk : compare k z = .lt := Std.TransCmp.lt_trans hlarge.1 h
    have hys : ∀ m ∈ overtaking ys k, compare m z = .lt := fun m hm =>
      Std.TransCmp.lt_trans (hlarge.2 m (mem_of_overtaking hm)) h
    have hcons : ∀ m ∈ y :: overtaking ys k, compare m z = .lt := by
      intro m hm
      rcases mem_cons.mp hm with rfl | hm
      · exact h
      · exact hys m hm
    exact iff_of_false (ne_overtaking_of_larger hcons hz hk) (ne_overtaking_of_larger hys hz hk)
  · exact Iff.rfl

/-- The same key in front of both. -/
theorem overtaking_cons_cons_iff {ys zs : List κ} {k y : κ} (hys : y ∉ ys) (hzs : y ∉ zs) :
    overtaking (y :: ys) k = overtaking (y :: zs) k ↔ overtaking ys k = overtaking zs k := by
  -- a key of `ws` that keeps `y` from overtaking is larger
  have hlarger : ∀ {ws : List κ}, y ∉ ws → ¬(∀ z ∈ ws, compare z y = .lt) →
      ∃ z ∈ ws, compare y z = .lt := by
    intro ws hne hnot
    by_contra hnone
    refine hnot fun z hz => ?_
    cases hcompare : compare z y with
    | lt => rfl
    | eq => exact absurd (Std.LawfulEqCmp.eq_of_compare hcompare ▸ hz) hne
    | gt => exact absurd ⟨z, hz, Std.OrientedCmp.lt_of_gt hcompare⟩ hnone
  by_cases hk : compare k y = .lt
  · by_cases hys' : ∀ z ∈ ys, compare z y = .lt
    · by_cases hzs' : ∀ z ∈ zs, compare z y = .lt
      · rw [overtaking_cons, overtaking_cons, if_pos ⟨hk, hys'⟩, if_pos ⟨hk, hzs'⟩, List.cons.injEq]
        exact and_iff_right rfl
      · obtain ⟨z, hz, hlt⟩ := hlarger hzs hzs'
        rw [overtaking_cons y zs, if_neg fun h => hzs' h.2]
        exact overtaking_cons_eq_iff hz hlt
    · obtain ⟨w, hw, hlt⟩ := hlarger hys hys'
      rw [overtaking_cons y ys, if_neg fun h => hys' h.2, eq_comm, overtaking_cons_eq_iff hw hlt,
        eq_comm]
  · rw [overtaking_cons, overtaking_cons, if_neg fun h => hk h.1, if_neg fun h => hk h.1]

/-! ### Who is met -/

/-- **Who is met.** Two elements with one key are passed together exactly if the same keys overtake
    it in both lists. -/
theorem both_mem_lockstep_iff {front back front' back' : List α} {a b : α} (hkey : key a = key b)
    (hleft : ((front ++ a :: back).map key).Nodup) (hright : ((front' ++ b :: back').map key).Nodup) :
    Pass.both a b ∈ lockstep key (front ++ a :: back) (front' ++ b :: back') ↔
      overtaking (front.map key) (key a) = overtaking (front'.map key) (key a) := by
  have hgone : ∀ {as bs : List α}, key a ∉ as.map key → Pass.both a b ∉ lockstep key as bs :=
    fun hnot hmem => hnot (mem_map_of_mem (mem_left_of_lockstep hmem rfl))
  have hgone' : ∀ {as bs : List α}, key a ∉ bs.map key → Pass.both a b ∉ lockstep key as bs :=
    fun hnot hmem => hnot (hkey ▸ mem_map_of_mem (mem_right_of_lockstep hmem rfl))
  induction front generalizing front' with
  | nil =>
    induction front' with
    | nil =>
      have hsame : compare (key a) (key b) = .eq := hkey ▸ Std.ReflCmp.compare_self
      rw [nil_append, nil_append, lockstep_of_eq _ _ hsame]
      exact iff_of_true mem_cons_self rfl
    | cons z front' ih =>
      rw [cons_append, map_cons, nodup_cons] at hright
      rw [nil_append, cons_append]
      cases hcompare : compare (key a) (key z) with
      | lt =>
        rw [lockstep_of_lt _ _ hcompare]
        refine iff_of_false ?_ (ne_overtaking_of_larger nofun mem_cons_self hcompare)
        have hnot : key a ∉ back.map key := by
          rw [nil_append, map_cons, nodup_cons] at hleft
          exact hleft.1
        simpa using hgone hnot
      | gt =>
        rw [lockstep_of_gt _ _ hcompare, mem_cons, map_cons,
          overtaking_cons_of_lt (Std.OrientedCmp.lt_of_gt hcompare)]
        simpa using ih hright.2
      | eq =>
        refine absurd ?_ hright.1
        rw [← Std.LawfulEqCmp.eq_of_compare hcompare, hkey]
        exact mem_map_of_mem (mem_append_right _ mem_cons_self)
  | cons y front ih =>
    rw [cons_append, map_cons, nodup_cons] at hleft
    induction front' with
    | nil =>
      rw [nil_append, cons_append]
      cases hcompare : compare (key y) (key b) with
      | lt =>
        rw [lockstep_of_lt _ _ hcompare, mem_cons, map_cons,
          overtaking_cons_of_lt (by rwa [hkey])]
        have hiff : Pass.both a b ∈ lockstep key (front ++ a :: back) ([] ++ b :: back') ↔
            overtaking (front.map key) (key a) = overtaking (List.map key []) (key a) := ih hleft.2 hright
        rw [nil_append] at hiff
        simpa using hiff
      | gt =>
        rw [lockstep_of_gt _ _ hcompare]
        refine iff_of_false ?_ fun heq => ?_
        · have hnot : key a ∉ back'.map key := by
            rw [nil_append, map_cons, nodup_cons] at hright
            rw [hkey]
            exact hright.1
          simpa using hgone' hnot
        · have hlarger : compare (key a) (key y) = .lt := by
            rw [hkey]
            exact Std.OrientedCmp.lt_of_gt hcompare
          have hsome : [] ≠ overtaking (key y :: front.map key) (key a) :=
            ne_overtaking_of_larger nofun mem_cons_self hlarger
          exact hsome heq.symm
      | eq =>
        refine absurd ?_ hleft.1
        rw [Std.LawfulEqCmp.eq_of_compare hcompare, ← hkey]
        exact mem_map_of_mem (mem_append_right _ mem_cons_self)
    | cons z front' ihr =>
      rw [cons_append, map_cons, nodup_cons] at hright
      rw [cons_append, cons_append, map_cons, map_cons]
      cases hcompare : compare (key y) (key z) with
      | lt =>
        rw [lockstep_of_lt _ _ hcompare, mem_cons, overtaking_cons_eq_iff mem_cons_self hcompare,
          ← map_cons]
        have hnodup : ((z :: front' ++ b :: back').map key).Nodup := by
          rw [cons_append, map_cons, nodup_cons]
          exact hright
        simpa using ih hleft.2 hnodup
      | gt =>
        have hlt := Std.OrientedCmp.lt_of_gt hcompare
        have hiff : overtaking (key z :: front'.map key) (key a) =
              overtaking (key y :: front.map key) (key a) ↔
            overtaking (front'.map key) (key a) = overtaking (key y :: front.map key) (key a) :=
          overtaking_cons_eq_iff mem_cons_self hlt
        rw [lockstep_of_gt _ _ hcompare, mem_cons, eq_comm (a := overtaking _ _), hiff,
          eq_comm (a := overtaking _ _)]
        simpa using ihr hright.2
      | eq =>
        have hsame := Std.LawfulEqCmp.eq_of_compare hcompare
        have hne : Pass.both a b ≠ Pass.both y z := by
          rintro heq
          cases heq
          exact hleft.1 (mem_map_of_mem (mem_append_right _ mem_cons_self))
        have hy : key y ∉ front.map key := fun hmem => hleft.1 (by simp [hmem])
        have hz : key y ∉ front'.map key := fun hmem => hright.1 (by simp [← hsame, hmem])
        rw [lockstep_of_eq _ _ hcompare, mem_cons, ← hsame, overtaking_cons_cons_iff hy hz,
          or_iff_right hne]
        exact ih hleft.2 hright.2

end

/-! ### One key -/

section

variable {α κ : Type*} {key : α → κ}

theorem filter_key_eq_singleton [DecidableEq κ] {as : List α} {a : α} (h : (as.map key).Nodup)
    (ha : a ∈ as) : as.filter (fun x => key x = key a) = [a] := by
  obtain ⟨front, back, rfl⟩ := append_of_mem ha
  rw [map_append, map_cons, nodup_middle, nodup_cons, mem_append] at h
  have hnone : ∀ xs : List α, key a ∉ xs.map key → xs.filter (fun x => key x = key a) = [] := by
    intro xs hxs
    rw [filter_eq_nil_iff]
    intro x hx heq
    exact hxs (mem_map.mpr ⟨x, hx, of_decide_eq_true heq⟩)
  rw [filter_append, hnone front fun hmem => h.1 (.inl hmem), nil_append,
    filter_cons_of_pos (by simp), hnone back fun hmem => h.1 (.inr hmem)]

theorem filterMap_left_filter_key [Ord κ] [Std.LawfulEqOrd κ] [DecidableEq κ] (key : α → κ) (as bs : List α) (k : κ) :
    ((lockstep key as bs).filter fun s => s.key key = k).filterMap Pass.left? =
      as.filter fun a => key a = k := by
  nth_rewrite 2 [← filterMap_left_lockstep key as bs]
  rw [filterMap_filter, filter_filterMap]
  refine filterMap_congr fun s hs => ?_
  cases s with
  | left a => by_cases hk : key a = k <;> simp [Pass.key, Pass.left?, Option.filter, hk]
  | right b => by_cases hk : key b = k <;> simp [Pass.key, Pass.left?, Option.filter, hk]
  | both a b =>
    have hsame := key_of_both hs
    by_cases hk : key b = k <;> simp [Pass.key, Pass.left?, Option.filter, hsame, hk]

theorem filterMap_right_filter_key [Ord κ] [DecidableEq κ] (key : α → κ) (as bs : List α) (k : κ) :
    ((lockstep key as bs).filter fun s => s.key key = k).filterMap Pass.right? =
      bs.filter fun b => key b = k := by
  nth_rewrite 2 [← filterMap_right_lockstep key as bs]
  rw [filterMap_filter, filter_filterMap]
  refine filterMap_congr fun s hs => ?_
  cases s with
  | left a => by_cases hk : key a = k <;> simp [Pass.key, Pass.right?, Option.filter, hk]
  | right b => by_cases hk : key b = k <;> simp [Pass.key, Pass.right?, Option.filter, hk]
  | both a b => by_cases hk : key b = k <;> simp [Pass.key, Pass.right?, Option.filter, hk]

end

/-! ### Three shapes -/

section

variable {α : Type*} {S : List (Pass α)} {a b : α}

theorem passes_eq_nil (hleft : S.filterMap Pass.left? = []) (hright : S.filterMap Pass.right? = []) :
    S = [] := by
  cases S with
  | nil => rfl
  | cons s S => cases s <;> simp [Pass.left?, Pass.right?] at hleft hright

theorem passes_eq_left (hleft : S.filterMap Pass.left? = [a])
    (hright : S.filterMap Pass.right? = []) : S = [.left a] := by
  cases S with
  | nil => cases hleft
  | cons s S =>
    cases s with
    | left c =>
      simp only [filterMap_cons, Pass.left?, Pass.right?, List.cons.injEq] at hleft hright
      rw [hleft.1, passes_eq_nil hleft.2 hright]
    | right c => simp [Pass.right?] at hright
    | both c d => simp [Pass.right?] at hright

theorem passes_eq_right (hleft : S.filterMap Pass.left? = [])
    (hright : S.filterMap Pass.right? = [b]) : S = [.right b] := by
  cases S with
  | nil => cases hright
  | cons s S =>
    cases s with
    | left c => simp [Pass.left?] at hleft
    | right c =>
      simp only [filterMap_cons, Pass.left?, Pass.right?, List.cons.injEq] at hleft hright
      rw [hright.1, passes_eq_nil hleft hright.2]
    | both c d => simp [Pass.left?] at hleft

/-- How two elements can be passed: together, or one before the other. -/
theorem passes_cases (hleft : S.filterMap Pass.left? = [a]) (hright : S.filterMap Pass.right? = [b]) :
    S = [.both a b] ∨ S = [.left a, .right b] ∨ S = [.right b, .left a] := by
  cases S with
  | nil => cases hleft
  | cons s S =>
    cases s with
    | left c =>
      simp only [filterMap_cons, Pass.left?, Pass.right?, List.cons.injEq] at hleft hright
      rw [hleft.1, passes_eq_right hleft.2 hright]
      exact .inr (.inl rfl)
    | right c =>
      simp only [filterMap_cons, Pass.left?, Pass.right?, List.cons.injEq] at hleft hright
      rw [hright.1, passes_eq_left hleft hright.2]
      exact .inr (.inr rfl)
    | both c d =>
      simp only [filterMap_cons, Pass.left?, Pass.right?, List.cons.injEq] at hleft hright
      rw [hleft.1, hright.1, passes_eq_nil hleft.2 hright.2]
      exact .inl rfl

end

end Alt.Library
