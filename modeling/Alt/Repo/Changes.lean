import Alt.Repo.CleanStatus

namespace Alt.Repo

open Alt.Library List

/-!
# The changes between two entry lists (`alt-worktree/src/lib.rs`, 610–667)

`changes` merges two lists sorted by path, as `diff` does (`diff_eq`), and keeps both sides.

* `filter_changes` — at every path it compares the entries of the two lists one by one;
* `applyAll_perm` — put in place of the old entries, the changes give the new ones;
* `changes_exact` — both, and what they say of lists that repeat no path.
-/

/-- One path that differs; a side the path is absent from is `none`. -/
structure Change where
  path : Bytes
  old : Option WorkEntry
  new : Option WorkEntry
  deriving DecidableEq

namespace Change

def removed (o : WorkEntry) : Change := ⟨o.path, some o, none⟩

def added (n : WorkEntry) : Change := ⟨n.path, none, some n⟩

/-- What `diff` reports of a change. -/
def report (c : Change) : Bytes × ChangeKind :=
  (c.path,
    match c.old, c.new with
    | none, _ => .added
    | some _, none => .deleted
    | some _, some _ => .modified)

/-- The new side in place of the old one, in a list sorted by path. -/
def apply (entries : List WorkEntry) (c : Change) : List WorkEntry :=
  let kept := c.old.elim entries entries.erase
  c.new.elim kept fun n => kept.orderedInsert (byPath · ·) n

end Change

/-- Two entries of one path; equal ones are dropped. -/
def compareEntry (o n : WorkEntry) : List Change :=
  if o.oid ≠ n.oid ∨ o.mode ≠ n.mode then [⟨n.path, some o, some n⟩] else []

/-- One step of the merge: the entry `old` against the entries that are left. -/
def changesEntry (old : WorkEntry) (rest : List WorkEntry → List Change) :
    List WorkEntry → List Change
  | [] => .removed old :: rest []
  | new :: news =>
    match compare old.path new.path with
    | .lt => .removed old :: rest (new :: news)
    | .gt => .added new :: changesEntry old rest news
    | .eq => compareEntry old new ++ rest news

/-- The differing paths of two lists in path order. -/
def changes : List WorkEntry → List WorkEntry → List Change
  | [], news => news.map .added
  | old :: olds, news => changesEntry old (changes olds) news

/-- All changes put in place, one after another. -/
def applyAll (old : List WorkEntry) (cs : List Change) : List WorkEntry := cs.foldl Change.apply old

/-- Sorted by path. -/
def SortedByPath (entries : List WorkEntry) : Prop := entries.Pairwise (byPath · ·)

/-- The entries of one path. -/
def entriesOn (entries : List WorkEntry) (path : Bytes) : List WorkEntry :=
  entries.filter fun e => e.path = path

/-- The entries of one path in two lists, compared one by one. -/
def paired : List WorkEntry → List WorkEntry → List Change
  | [], news => news.map .added
  | old :: olds, [] => .removed old :: paired olds []
  | old :: olds, new :: news => compareEntry old new ++ paired olds news

variable {o n : WorkEntry} {old new : List WorkEntry}

/-! ### The merge, step by step -/

theorem changes_nil_right : changes (o :: old) [] = .removed o :: changes old [] := rfl

theorem changes_lt (h : compare o.path n.path = .lt) :
    changes (o :: old) (n :: new) = .removed o :: changes old (n :: new) := by
  rw [changes, changesEntry, h]

theorem changes_gt (h : compare o.path n.path = .gt) :
    changes (o :: old) (n :: new) = .added n :: changes (o :: old) new := by
  rw [changes, changesEntry, h]
  rfl

theorem changes_eq (h : compare o.path n.path = .eq) :
    changes (o :: old) (n :: new) = compareEntry o n ++ changes old new := by
  rw [changes, changesEntry, h]

/-- **Induction along the merge.** -/
theorem merge_induction {motive : List WorkEntry → List WorkEntry → Prop}
    (nil_left : ∀ new, motive [] new)
    (nil_right : ∀ o old, motive old [] → motive (o :: old) [])
    (lt : ∀ o old n new, compare o.path n.path = .lt → motive old (n :: new) →
      motive (o :: old) (n :: new))
    (gt : ∀ o old n new, compare o.path n.path = .gt → motive (o :: old) new →
      motive (o :: old) (n :: new))
    (eq : ∀ o old n new, compare o.path n.path = .eq → motive old new →
      motive (o :: old) (n :: new)) (old new : List WorkEntry) : motive old new := by
  induction old generalizing new with
  | nil => exact nil_left new
  | cons o old ih =>
    induction new with
    | nil => exact nil_right o old (ih [])
    | cons n new ihnew =>
      cases h : compare o.path n.path with
      | lt => exact lt o old n new h (ih _)
      | gt => exact gt o old n new h ihnew
      | eq => exact eq o old n new h (ih new)

/-- **`diff` reports the changes.** -/
theorem diff_eq (old new : List WorkEntry) : diff old new = (changes old new).map Change.report := by
  induction old, new using merge_induction with
  | nil_left new =>
    rw [diff, changes, map_map]
    rfl
  | nil_right o old ih =>
    rw [changes_nil_right, map_cons, ← ih]
    rfl
  | lt o old n new h ih =>
    rw [changes_lt h, map_cons, ← ih, diff, diffEntry, h]
    rfl
  | gt o old n new h ih =>
    rw [changes_gt h, map_cons, ← ih, diff, diffEntry, h]
    rfl
  | eq o old n new h ih =>
    rw [changes_eq h, map_append, ← ih, diff, diffEntry, h, compareEntry]
    dsimp only
    split <;> rfl

/-! ### At one path -/

variable {e : WorkEntry} {entries : List WorkEntry}

theorem SortedByPath.ge_of_mem (h : SortedByPath (e :: entries)) :
    ∀ e' ∈ e :: entries, byPath e e' = true := by
  intro e' he'
  rcases mem_cons.mp he' with rfl | he'
  · exact Std.ReflCmp.isLE_rfl
  · exact rel_of_pairwise_cons h he'

variable {path : Bytes}

/-- Nothing of a path stands behind a later one. -/
theorem SortedByPath.entriesOn_eq_nil (h : SortedByPath (e :: entries))
    (hlt : compare path e.path = .lt) :
    entriesOn (e :: entries) path = [] := by
  refine filter_eq_nil_iff.mpr fun e' he' hpath => ?_
  have hle := h.ge_of_mem e' he'
  have hafter : compare path e'.path = .lt := Std.TransCmp.lt_of_lt_of_isLE hlt hle
  exact ne_of_lt hafter (of_decide_eq_true hpath).symm

theorem path_of_mem_compareEntry {c : Change} (h : c ∈ compareEntry o n) : c.path = n.path := by
  rw [compareEntry] at h
  split at h
  · rw [mem_singleton.mp h]
  · cases h

/-- Two entries of a path that is not asked for drop out of a comparison. -/
theorem filter_compareEntry (hpath : o.path = n.path) :
    (compareEntry o n).filter (fun c => c.path = path)
      = if n.path = path then compareEntry o n else [] := by
  split
  · rename_i heq
    exact filter_eq_self.mpr fun c hc => decide_eq_true ((path_of_mem_compareEntry hc).trans heq)
  · rename_i hne
    exact filter_eq_nil_iff.mpr fun c hc hpath' =>
      hne ((path_of_mem_compareEntry hc).symm.trans (of_decide_eq_true hpath'))

theorem entriesOn_cons (e : WorkEntry) (entries : List WorkEntry) (path : Bytes) :
    entriesOn (e :: entries) path
      = if e.path = path then e :: entriesOn entries path else entriesOn entries path := by
  rw [entriesOn, filter_cons]
  simp only [decide_eq_true_eq]
  rfl

/-- A change in front of others, seen from one path. -/
theorem filter_cons_change (c : Change) (cs : List Change) (path : Bytes) :
    (c :: cs).filter (fun c => c.path = path)
      = if c.path = path then c :: cs.filter (fun c => c.path = path)
        else cs.filter (fun c => c.path = path) := by
  rw [filter_cons]
  simp only [decide_eq_true_eq]

/-- **What the merge says of one path.** It compares the entries of the two lists one by one. -/
theorem filter_changes (hold : SortedByPath old) (hnew : SortedByPath new) (path : Bytes) :
    (changes old new).filter (fun c => c.path = path)
      = paired (entriesOn old path) (entriesOn new path) := by
  induction old, new using merge_induction with
  | nil_left new =>
    rw [changes, filter_map]
    rfl
  | nil_right o old ih =>
    rw [changes_nil_right, filter_cons_change, ih hold.tail hnew, entriesOn_cons]
    split
    · rename_i heq
      rw [if_pos (show o.path = path from heq)]
      rfl
    · rename_i hne
      rw [if_neg (show o.path ≠ path from hne)]
  | lt o old n new h ih =>
    rw [changes_lt h, filter_cons_change, ih hold.tail hnew, entriesOn_cons o]
    split
    · rename_i heq
      have heq : o.path = path := heq
      rw [if_pos heq, hnew.entriesOn_eq_nil (heq ▸ h)]
      rfl
    · rename_i hne
      rw [if_neg (show o.path ≠ path from hne)]
  | gt o old n new h ih =>
    rw [changes_gt h, filter_cons_change, ih hold hnew.tail, entriesOn_cons n]
    split
    · rename_i heq
      have heq : n.path = path := heq
      have hbefore : compare path o.path = .lt := heq ▸ Std.OrientedCmp.lt_of_gt h
      rw [if_pos heq, hold.entriesOn_eq_nil hbefore]
      rfl
    · rename_i hne
      rw [if_neg (show n.path ≠ path from hne)]
  | eq o old n new h ih =>
    have hpath : o.path = n.path := Std.LawfulEqCmp.eq_of_compare h
    rw [changes_eq h, filter_append, ih hold.tail hnew.tail, filter_compareEntry hpath,
      entriesOn_cons o, entriesOn_cons n, hpath]
    split
    · rfl
    · rfl

/-! ### In path order -/

theorem mem_sides {c : Change} (h : c ∈ changes old new) :
    (∃ o ∈ old, c.path = o.path) ∨ ∃ n ∈ new, c.path = n.path := by
  induction old, new using merge_induction with
  | nil_left new =>
    obtain ⟨n, hn, rfl⟩ := mem_map.mp h
    exact .inr ⟨n, hn, rfl⟩
  | nil_right o old ih =>
    rw [changes_nil_right] at h
    rcases mem_cons.mp h with rfl | h
    · exact .inl ⟨o, mem_cons_self, rfl⟩
    · exact (ih h).imp (fun ⟨o', ho', hp⟩ => ⟨o', mem_cons_of_mem _ ho', hp⟩) id
  | lt o old n new hcompare ih =>
    rw [changes_lt hcompare] at h
    rcases mem_cons.mp h with rfl | h
    · exact .inl ⟨o, mem_cons_self, rfl⟩
    · exact (ih h).imp (fun ⟨o', ho', hp⟩ => ⟨o', mem_cons_of_mem _ ho', hp⟩) id
  | gt o old n new hcompare ih =>
    rw [changes_gt hcompare] at h
    rcases mem_cons.mp h with rfl | h
    · exact .inr ⟨n, mem_cons_self, rfl⟩
    · exact (ih h).imp id fun ⟨n', hn', hp⟩ => ⟨n', mem_cons_of_mem _ hn', hp⟩
  | eq o old n new hcompare ih =>
    rw [changes_eq hcompare] at h
    rcases mem_append.mp h with h | h
    · exact .inr ⟨n, mem_cons_self, path_of_mem_compareEntry h⟩
    · exact (ih h).imp (fun ⟨o', ho', hp⟩ => ⟨o', mem_cons_of_mem _ ho', hp⟩)
        fun ⟨n', hn', hp⟩ => ⟨n', mem_cons_of_mem _ hn', hp⟩

/-- A path no later than every entry is no later than every change. -/
theorem le_of_mem_changes (hold : ∀ o ∈ old, (compare path o.path).isLE)
    (hnew : ∀ n ∈ new, (compare path n.path).isLE) :
    ∀ c ∈ changes old new, (compare path c.path).isLE := by
  intro c hc
  rcases mem_sides hc with ⟨o, ho, hp⟩ | ⟨n, hn, hp⟩
  · rw [hp]
    exact hold o ho
  · rw [hp]
    exact hnew n hn

/-- **The changes are in path order.** -/
theorem changes_sorted (hold : SortedByPath old) (hnew : SortedByPath new) :
    (changes old new).Pairwise fun c d => (compare c.path d.path).isLE := by
  induction old, new using merge_induction with
  | nil_left new => exact pairwise_map.mpr hnew
  | nil_right o old ih =>
    rw [changes_nil_right]
    refine pairwise_cons.mpr ⟨?_, ih hold.tail hnew⟩
    exact le_of_mem_changes (fun o' ho' => rel_of_pairwise_cons hold ho') fun n hn => nomatch hn
  | lt o old n new h ih =>
    rw [changes_lt h]
    refine pairwise_cons.mpr ⟨?_, ih hold.tail hnew⟩
    refine le_of_mem_changes (fun o' ho' => rel_of_pairwise_cons hold ho') fun n' hn' => ?_
    exact Std.TransCmp.isLE_trans (Ordering.isLE_of_eq_lt h) (hnew.ge_of_mem n' hn')
  | gt o old n new h ih =>
    rw [changes_gt h]
    refine pairwise_cons.mpr ⟨?_, ih hold hnew.tail⟩
    refine le_of_mem_changes (fun o' ho' => ?_) fun n' hn' => rel_of_pairwise_cons hnew hn'
    exact Std.TransCmp.isLE_trans (Ordering.isLE_of_eq_lt (Std.OrientedCmp.lt_of_gt h))
      (hold.ge_of_mem o' ho')
  | eq o old n new h ih =>
    have hpath : o.path = n.path := Std.LawfulEqCmp.eq_of_compare h
    rw [changes_eq h]
    refine pairwise_append.mpr ⟨?_, ih hold.tail hnew.tail, fun c hc => ?_⟩
    · rw [compareEntry]
      split
      · exact pairwise_singleton _ _
      · exact .nil
    · rw [path_of_mem_compareEntry hc]
      refine le_of_mem_changes (fun o' ho' => ?_) fun n' hn' => rel_of_pairwise_cons hnew hn'
      rw [← hpath]
      exact rel_of_pairwise_cons hold ho'

/-! ### Putting the changes in place -/

variable {done : List WorkEntry}

theorem perm_apply_removed (h : entries.Perm (done ++ o :: old)) :
    (Change.apply entries (.removed o)).Perm (done ++ old) := by
  have hperm := (h.trans perm_middle).erase o
  rwa [erase_cons_head] at hperm

theorem perm_apply_added :
    (Change.apply entries (.added n)).Perm (n :: entries) :=
  perm_orderedInsert _ n entries

theorem perm_apply_modified (h : entries.Perm (done ++ o :: old)) :
    (Change.apply entries ⟨path, some o, some n⟩).Perm (n :: (done ++ old)) :=
  perm_apply_added.trans ((perm_apply_removed h).cons n)

/-- Two entries that are not told apart are the same. -/
theorem eq_of_compareEntry (hpath : o.path = n.path) (h : ¬(o.oid ≠ n.oid ∨ o.mode ≠ n.mode)) :
    o = n := by
  rw [not_or, not_not, not_not] at h
  cases o
  cases n
  simp only at hpath h
  rw [hpath, h.1, h.2]

/-- Entries that are done with stay while the changes behind them are put in place. -/
theorem applyAll_perm_append (h : entries.Perm (done ++ old)) :
    (applyAll entries (changes old new)).Perm (done ++ new) := by
  induction old, new using merge_induction generalizing done entries with
  | nil_left new =>
    rw [changes]
    induction new generalizing entries done with
    | nil => exact h
    | cons n new ih =>
      have hdone : (Change.apply entries (.added n)).Perm ((n :: done) ++ []) :=
        perm_apply_added.trans (h.cons n)
      exact (ih hdone).trans perm_middle.symm
  | nil_right o old ih =>
    rw [changes_nil_right]
    exact ih (perm_apply_removed h)
  | lt o old n new hcompare ih =>
    rw [changes_lt hcompare]
    exact ih (perm_apply_removed h)
  | gt o old n new hcompare ih =>
    rw [changes_gt hcompare]
    have hdone : (Change.apply entries (.added n)).Perm ((n :: done) ++ o :: old) :=
      perm_apply_added.trans (h.cons n)
    exact (ih hdone).trans perm_middle.symm
  | eq o old n new hcompare ih =>
    rw [changes_eq hcompare, compareEntry]
    split
    · have hdone : (Change.apply entries ⟨n.path, some o, some n⟩).Perm ((n :: done) ++ old) :=
        perm_apply_modified h
      exact (ih hdone).trans perm_middle.symm
    · rename_i hsame
      have heq : o = n := eq_of_compareEntry (Std.LawfulEqCmp.eq_of_compare hcompare) hsame
      have hdone : entries.Perm ((n :: done) ++ old) := heq ▸ h.trans perm_middle
      exact (ih hdone).trans perm_middle.symm

/-- **The changes, put in place of the old entries, give the new ones.** -/
theorem applyAll_perm (old new : List WorkEntry) :
    (applyAll old (changes old new)).Perm new := by
  have hnone : old.Perm ([] ++ old) := List.Perm.refl _
  exact applyAll_perm_append hnone

theorem sorted_apply (h : SortedByPath entries) (c : Change) :
    SortedByPath (Change.apply entries c) := by
  have hkept : SortedByPath (c.old.elim entries entries.erase) := by
    cases c.old with
    | none => exact h
    | some o => exact h.sublist (erase_sublist)
  rw [Change.apply]
  cases c.new with
  | none => exact hkept
  | some n => exact hkept.orderedInsert n _

theorem sorted_applyAll (hold : SortedByPath old) (cs : List Change) :
    SortedByPath (applyAll old cs) := by
  induction cs generalizing old with
  | nil => exact hold
  | cons c cs ih => exact ih (sorted_apply hold c)

/-! ### Lists that repeat no path -/

theorem Ordered.sorted (h : Ordered old) : SortedByPath old :=
  h.imp fun hlt => Ordering.isLE_of_eq_lt hlt

/-- What a list that repeats no path has of one. -/
theorem Ordered.entriesOn_eq (h : Ordered old) (path : Bytes) :
    entriesOn old path = (entryAt old path).toList := by
  have hlast : entryAt old path = (entriesOn old path).getLast? := rfl
  rw [hlast]
  clear hlast
  induction old with
  | nil => rfl
  | cons e entries ih =>
    rw [entriesOn_cons]
    split
    · rename_i heq
      have hnone : entriesOn entries path = [] := by
        refine filter_eq_nil_iff.mpr fun e' he' hpath => ?_
        exact ne_of_lt (rel_of_pairwise_cons h he') (heq.trans (of_decide_eq_true hpath).symm)
      rw [hnone]
      rfl
    · exact ih h.tail

theorem path_of_entryAt (h : entryAt old path = some e) :
    e.path = path := of_decide_eq_true (mem_filter.mp (mem_of_getLast? h)).2

/-- **Each path that differs is there once, and no other.** -/
theorem filter_changes_of_ordered (hold : Ordered old) (hnew : Ordered new) (path : Bytes) :
    (changes old new).filter (fun c => c.path = path)
      = if entryAt old path = entryAt new path then []
        else [⟨path, entryAt old path, entryAt new path⟩] := by
  rw [filter_changes hold.sorted hnew.sorted, hold.entriesOn_eq, hnew.entriesOn_eq]
  cases hfind : entryAt old path with
  | none =>
    cases hfind' : entryAt new path with
    | none => rfl
    | some n => rw [if_neg nofun, ← path_of_entryAt hfind']; rfl
  | some o =>
    have ho := path_of_entryAt hfind
    cases hfind' : entryAt new path with
    | none => rw [if_neg nofun, ← ho]; rfl
    | some n =>
      have hn := path_of_entryAt hfind'
      show compareEntry o n ++ [] = _
      rw [append_nil, compareEntry, ← hn]
      by_cases hsame : o = n
      · rw [if_pos (congrArg some hsame), hsame]
        simp
      · rw [if_neg fun h => hsame (Option.some.inj h), if_pos]
        by_contra hnot
        exact hsame (eq_of_compareEntry (ho.trans hn.symm) hnot)

theorem changes_ordered (hold : Ordered old) (hnew : Ordered new) :
    (changes old new).Pairwise fun c d => compare c.path d.path = .lt := by
  have hsorted := changes_sorted hold.sorted hnew.sorted
  -- of two changes of one path, the filter for it would find both
  have hnodup : (changes old new).Pairwise fun c d => c.path ≠ d.path := by
    rw [pairwise_iff_forall_sublist]
    intro c d hsub heq
    have hboth := hsub.filter (fun e => e.path = c.path)
    have hlen := hboth.length_le
    rw [filter_changes_of_ordered hold hnew] at hlen
    rw [filter_cons_change, filter_cons_change, if_pos rfl, if_pos heq.symm] at hlen
    split at hlen
    · exact absurd hlen (by simp)
    · exact absurd hlen (by simp)
  refine (hsorted.and hnodup).imp fun {c d} ⟨hle, hne⟩ => ?_
  cases hcompare : compare c.path d.path with
  | lt => rfl
  | eq => exact absurd (Std.LawfulEqCmp.eq_of_compare hcompare) hne
  | gt =>
    rw [hcompare] at hle
    cases hle

theorem applyAll_eq (hold : Ordered old) (hnew : Ordered new) :
    applyAll old (changes old new) = new := by
  have hperm := applyAll_perm old new
  have hsorted := sorted_applyAll hold.sorted (changes old new)
  refine hperm.eq_of_pairwise (fun a b ha hb hle hlt => ?_) hsorted hnew.sorted
  -- two entries of one path are the same in a list that repeats none
  have hpath : a.path = b.path :=
    Std.LawfulEqCmp.eq_of_compare (Std.OrientedCmp.isLE_antisymm hle hlt)
  have hpaths : (new.map WorkEntry.path).Nodup := pairwise_map.mpr (hnew.imp ne_of_lt)
  exact inj_on_of_nodup_map hpaths (hperm.mem_iff.mp ha) hb hpath

/-- **The merge is exact.** For lists sorted by path the changes are in path order, compare at
    every path the entries of the two lists one by one, and put in place of the old entries
    give the new ones, sorted; `diff` reports the same.  For lists that repeat no path, each
    path whose entries differ is there exactly once, with both its sides, and no other. -/
theorem changes_exact (hold : SortedByPath old) (hnew : SortedByPath new) :
    ((changes old new).Pairwise fun c d => (compare c.path d.path).isLE) ∧
    (∀ path, (changes old new).filter (fun c => c.path = path)
      = paired (entriesOn old path) (entriesOn new path)) ∧
    (applyAll old (changes old new)).Perm new ∧
    SortedByPath (applyAll old (changes old new)) ∧
    diff old new = (changes old new).map Change.report ∧
    (Ordered old → Ordered new →
      ((changes old new).Pairwise fun c d => compare c.path d.path = .lt) ∧
      (∀ path, (changes old new).filter (fun c => c.path = path)
        = if entryAt old path = entryAt new path then []
          else [⟨path, entryAt old path, entryAt new path⟩]) ∧
      applyAll old (changes old new) = new) :=
  ⟨changes_sorted hold hnew, filter_changes hold hnew, applyAll_perm old new,
    sorted_applyAll hold _, diff_eq old new, fun hold hnew => ⟨changes_ordered hold hnew,
      filter_changes_of_ordered hold hnew, applyAll_eq hold hnew⟩⟩

def entryOf (path : Bytes) (content : UInt8) : WorkEntry := ⟨path, .sha1 (.fill 20 content), regular⟩

/-- One file modified, one removed, one added. -/
theorem changes_exact_three :
    SortedByPath [entryOf [0x61] 1, entryOf [0x62] 1] ∧ SortedByPath [entryOf [0x61] 2, entryOf [0x63] 1] ∧
    (changes [entryOf [0x61] 1, entryOf [0x62] 1] [entryOf [0x61] 2, entryOf [0x63] 1]).map Change.report
      = [([0x61], .modified), ([0x62], .deleted), ([0x63], .added)] ∧
    applyAll [entryOf [0x61] 1, entryOf [0x62] 1]
      (changes [entryOf [0x61] 1, entryOf [0x62] 1] [entryOf [0x61] 2, entryOf [0x63] 1])
        = [entryOf [0x61] 2, entryOf [0x63] 1] := by
  have hold : Ordered [entryOf [0x61] 1, entryOf [0x62] 1] := by
    refine pairwise_cons.mpr ⟨?_, pairwise_singleton _ _⟩
    decide
  have hnew : Ordered [entryOf [0x61] 2, entryOf [0x63] 1] := by
    refine pairwise_cons.mpr ⟨?_, pairwise_singleton _ _⟩
    decide
  have hexact := changes_exact hold.sorted hnew.sorted
  exact ⟨hold.sorted, hnew.sorted, by decide, (hexact.2.2.2.2.2 hold hnew).2.2⟩

/-- Lists that repeat a path: it is reported twice. -/
theorem changes_repeat :
    SortedByPath [entryOf [0x61] 1, entryOf [0x61] 1] ∧ SortedByPath [entryOf [0x61] 2, entryOf [0x61] 2] ∧
    ((changes [entryOf [0x61] 1, entryOf [0x61] 1] [entryOf [0x61] 2, entryOf [0x61] 2]).filter
      fun c => c.path = [0x61]).length = 2 := by
  have hsorted : ∀ content, SortedByPath [entryOf [0x61] content, entryOf [0x61] content] := by
    intro content
    refine pairwise_cons.mpr ⟨fun e he => ?_, pairwise_singleton _ _⟩
    rw [mem_singleton.mp he]
    exact Std.ReflCmp.isLE_rfl
  exact ⟨hsorted 1, hsorted 2, by decide⟩

end Alt.Repo
