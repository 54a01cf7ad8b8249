import Alt.Library.Graph
import Alt.Repo.WorkTree

namespace Alt.Repo

open Alt.Library Alt.Odb List

/-!
# Commits and their merge bases (`native/merge.rs`, 10–53)

Reading a commit from the object database, the ancestry of a set of commits, and their merge
bases.

* `mergeBases_best` — what `merge_bases` returns: the best common ancestors, each once;
* `mergeBases_total` — it returns, on any finite set of stored commits closed under parents.
-/

/-! ### Reading commits -/

section Read

variable (objects : Objects)

def readCommit (c : ObjectId) : Res Commit :=
  match objects c with
  | none => .error (.message "commit missing from store")
  | some obj => (Commit.parse obj.data).mapError .object

def commitParents (c : ObjectId) : Res (List ObjectId) := (readCommit objects c).map Commit.parents

def commitTree (c : ObjectId) : Res ObjectId :=
  match readCommit objects c with
  | .error e => .error e
  | .ok commit => commit.tree.elim (.error (.message "commit without a tree")) .ok

/-- A commit's tree flattened to path-sorted entries. -/
def commitEntries (algo : HashAlgo) (fuel : Nat) (c : ObjectId) : Res (List WorkEntry) :=
  match readCommit objects c with
  | .error e => .error e
  | .ok commit =>
    match commit.tree with
    | none => .error (.message "commit has no tree")
    | some tree => flattenTree objects algo fuel tree

def blobBytes (id : ObjectId) : Res Bytes :=
  (objects id).elim (.error (.message "object missing from store")) fun obj => .ok obj.data

end Read

/-- What is stored stays readable as objects are added. -/
theorem commitParents_within {objects objects' : Objects} (h : Within objects objects')
    {c : ObjectId} {parents : List ObjectId} (hc : commitParents objects c = .ok parents) :
    commitParents objects' c = .ok parents := by
  simp only [commitParents, readCommit] at hc ⊢
  split at hc
  · cases hc
  rename_i object hobject
  rw [h hobject]
  exact hc

/-! ### Ancestry and merge bases -/

/-- Every commit reachable from `starts`, each with its parents. -/
def ancestry (objects : Objects) (fuel : Nat) (starts : List ObjectId) :
    Res (List (ObjectId × List ObjectId)) :=
  explore (.unbounded .history) (commitParents objects) fuel starts.reverse []

/-- The order of ids: by algorithm, then by bytes. -/
def byOid (a b : ObjectId) : Bool :=
  ((compare a.algo.rawLen b.algo.rawLen).then (compare a.asBytes b.asBytes)).isLE

/-- The best common ancestors of two commit sets, in id order. -/
def mergeBases (objects : Objects) (fuel : Nat) (a b : List ObjectId) : Res (List ObjectId) := do
  let fromA ← ancestry objects fuel a
  let fromB ← ancestry objects fuel b
  let common := fromA.filter fun e => e.1 ∈ fromB.map Prod.fst
  -- a common commit is only a best one if it is not below any common commit's parents
  let dominated ← ancestry objects fuel (common.flatMap (·.2))
  return ((common.map Prod.fst).filter (· ∉ dominated.map Prod.fst)).insertionSort (byOid · ·)

section

variable {objects : Objects} {fuel : Nat}

theorem explored_of_ancestry {starts : List ObjectId} {seen : List (ObjectId × List ObjectId)}
    (h : ancestry objects fuel starts = .ok seen) :
    Explored (commitParents objects) starts seen := by
  obtain ⟨hnodup, hread, hmem⟩ := explored_of_explore h
  refine ⟨hnodup, hread, fun c => ?_⟩
  rw [hmem]
  simp only [mem_reverse]

variable {a b bases : List ObjectId}

/-- **Merge bases.** What is returned are the common ancestors that no other common ancestor
    descends from, each once. -/
theorem mergeBases_best (h : mergeBases objects fuel a b = .ok bases) :
    bases.Nodup ∧ ∀ c, c ∈ bases ↔ Best (commitParents objects) a b c := by
  simp only [mergeBases, bind, Except.bind, pure, Except.pure] at h
  obtain ⟨fromA, hA, h⟩ := of_match_ok h
  obtain ⟨fromB, hB, h⟩ := of_match_ok h
  cases hD : ancestry objects fuel
      ((fromA.filter fun e => e.1 ∈ fromB.map Prod.fst).flatMap (·.2)) with
  | error e =>
    rw [hD] at h
    cases h
  | ok dominated =>
    rw [hD] at h
    cases h
    have hexA := explored_of_ancestry hA
    have hexB := explored_of_ancestry hB
    have hexD := explored_of_ancestry hD
    have hcommon : ∀ c, c ∈ (fromA.filter fun e => e.1 ∈ fromB.map Prod.fst).map Prod.fst ↔
        Common (commitParents objects) a b c := by
      intro c
      rw [Common, ← hexA.mem_iff, ← hexB.mem_iff]
      simp only [mem_map, mem_filter, decide_eq_true_eq]
      constructor
      · rintro ⟨e, ⟨he, hb⟩, rfl⟩
        exact ⟨⟨e, he, rfl⟩, hb⟩
      · rintro ⟨⟨e, he, rfl⟩, hb⟩
        exact ⟨e, ⟨he, hb⟩, rfl⟩
    refine ⟨?_, fun c => ?_⟩
    · refine (perm_insertionSort _ _).nodup_iff.mpr (List.Nodup.filter _ ?_)
      exact hexA.nodup.sublist (filter_sublist.map _)
    · rw [(perm_insertionSort _ _).mem_iff, mem_filter, hcommon, Best,
        decide_eq_true_iff, hexD.mem_iff, and_congr_right_iff]
      intro _
      -- what is dominated is what lies below a common commit
      constructor
      · intro hnot d hd hbelow
        obtain ⟨next, hread, p, hp, hreach⟩ := below_iff.mp hbelow
        obtain ⟨e, he, rfl⟩ := mem_map.mp ((hcommon d).mpr hd)
        have hnext : e.2 = next := by
          have hok := hexA.read e (mem_filter.mp he).1
          rw [hread] at hok
          exact (Except.ok.inj hok).symm
        exact hnot ⟨p, mem_flatMap.mpr ⟨e, he, hnext ▸ hp⟩, hreach⟩
      · rintro hbest ⟨p, hp, hreach⟩
        obtain ⟨e, he, hpe⟩ := mem_flatMap.mp hp
        have hd := (hcommon e.1).mp (mem_map_of_mem he)
        exact hbest e.1 hd (below_iff.mpr
          ⟨e.2, hexA.read e (mem_filter.mp he).1, p, hpe, hreach⟩)

theorem ancestry_total {V : Finset ObjectId} (hclosed : Closed (commitParents objects) V)
    {starts : List ObjectId} (hstarts : ∀ s ∈ starts, s ∈ V)
    (hfuel : starts.length + exploreBound (commitParents objects) V ≤ fuel) :
    ∃ seen, ancestry objects fuel starts = .ok seen :=
  explore_total hclosed (fun s hs => hstarts s (mem_reverse.mp hs))
    (by rwa [length_reverse])

/-- The parents of explored commits are not more than the edges of the graph. -/
theorem length_parents_le {V : Finset ObjectId} {seen : List (ObjectId × List ObjectId)}
    (hnodup : (seen.map Prod.fst).Nodup) (hV : ∀ e ∈ seen, e.1 ∈ V)
    (hread : ∀ e ∈ seen, commitParents objects e.1 = .ok e.2) :
    (seen.flatMap (·.2)).length ≤ exploreBound (commitParents objects) V := by
  have hlength : (seen.flatMap (·.2)).length =
      ((seen.map Prod.fst).map (degree (commitParents objects))).sum := by
    rw [length_flatMap, map_map]
    refine congrArg List.sum (map_congr_left fun e he => ?_)
    rw [Function.comp_apply, degree, hread e he]
  rw [hlength, ← sum_toFinset _ hnodup]
  refine Finset.sum_le_sum_of_subset fun c hc => ?_
  obtain ⟨e, he, rfl⟩ := mem_map.mp (mem_toFinset.mp hc)
  exact hV e he

/-- **Merge bases are found**, with fuel for the commits asked for and twice the edges of the
    graph. -/
theorem mergeBases_total {V : Finset ObjectId} (hclosed : Closed (commitParents objects) V)
    (ha : ∀ c ∈ a, c ∈ V) (hb : ∀ c ∈ b, c ∈ V)
    (hfuel : a.length + b.length + 2 * exploreBound (commitParents objects) V ≤ fuel) :
    ∃ bases, mergeBases objects fuel a b = .ok bases := by
  obtain ⟨fromA, hA⟩ := @ancestry_total objects fuel V hclosed a ha (by omega)
  obtain ⟨fromB, hB⟩ := @ancestry_total objects fuel V hclosed b hb (by omega)
  have hexA := explored_of_ancestry hA
  have hV : ∀ e ∈ fromA.filter fun e => e.1 ∈ fromB.map Prod.fst, e.1 ∈ V := by
    intro e he
    obtain ⟨s, hs, hreach⟩ := (hexA.mem_iff e.1).mp (mem_map_of_mem (mem_filter.mp he).1)
    exact hclosed.reach (ha s hs) hreach
  have hread : ∀ e ∈ fromA.filter fun e => e.1 ∈ fromB.map Prod.fst,
      commitParents objects e.1 = .ok e.2 := fun e he => hexA.read e (mem_filter.mp he).1
  have hle := length_parents_le (hexA.nodup.sublist (filter_sublist.map _)) hV hread
  have hbelow : ∀ p ∈ (fromA.filter fun e => e.1 ∈ fromB.map Prod.fst).flatMap (·.2), p ∈ V := by
    intro p hp
    obtain ⟨e, he, hpe⟩ := mem_flatMap.mp hp
    obtain ⟨next, hok, hall⟩ := hclosed e.1 (hV e he)
    rw [hread e he] at hok
    cases hok
    exact hall p hpe
  obtain ⟨dominated, hD⟩ := @ancestry_total objects fuel V hclosed _ hbelow (by omega)
  simp only [mergeBases, bind, Except.bind, hA, hB, hD]
  exact ⟨_, rfl⟩

end

end Alt.Repo
