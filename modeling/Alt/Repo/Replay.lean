import Alt.Repo.Sequences

namespace Alt.Repo

open Alt.Library Alt.Odb List

/-!
# The commits a rebase replays (`native/rebase.rs`, 299–330)

`commits_to_replay` picks, round after round, one of the commits whose parents are all done.

* `Replaying` — the commits of one branch that the other lacks: what leads from one of them to
  another goes through them alone;
* `exists_readyCommit` — while one is left, one is ready, so `ready[0]` is there;
* `commitsToReplay_complete` — each commit once, after its ancestors, merges left out.
-/

section

variable {env : Env} {objects : Objects} {orig onto : ObjectId}

/-- The commits of `orig` that `onto` lacks, each with its parents. -/
structure Replaying (objects : Objects) (orig onto : ObjectId)
    (mine : List (ObjectId × List ObjectId)) : Prop where
  nodup : (mine.map Prod.fst).Nodup
  read : ∀ e ∈ mine, commitParents objects e.1 = .ok e.2
  mem_iff : ∀ c, c ∈ mine.map Prod.fst ↔
    Reach (commitParents objects) orig c ∧ ¬Reach (commitParents objects) onto c

/-- What was done has its ancestors done. -/
def DoneBelow (objects : Objects) (mine : List (ObjectId × List ObjectId)) (done : List ObjectId) :
    Prop :=
  ∀ c ∈ done, ∀ d ∈ mine.map Prod.fst, Below (commitParents objects) c d → d ∈ done

variable {mine : List (ObjectId × List ObjectId)} {done : List ObjectId}

theorem Replaying.of_ancestry {fromOrig fromOnto : List (ObjectId × List ObjectId)} {fuel : Nat}
    (horig : ancestry objects fuel [orig] = .ok fromOrig)
    (honto : ancestry objects fuel [onto] = .ok fromOnto) :
    Replaying objects orig onto (fromOrig.filter fun e => e.1 ∉ fromOnto.map Prod.fst) := by
  have hexOrig := explored_of_ancestry horig
  have hexOnto := explored_of_ancestry honto
  refine ⟨hexOrig.nodup.sublist (filter_sublist.map _),
    fun e he => hexOrig.read e (mem_filter.mp he).1, fun c => ?_⟩
  have hfrom : c ∈ fromOrig.map Prod.fst ↔ Reach (commitParents objects) orig c := by
    rw [hexOrig.mem_iff]
    simp
  have hnot : c ∈ fromOnto.map Prod.fst ↔ Reach (commitParents objects) onto c := by
    rw [hexOnto.mem_iff]
    simp
  rw [← hfrom, ← hnot]
  constructor
  · intro hc
    obtain ⟨e, he, rfl⟩ := mem_map.mp hc
    obtain ⟨hmem, hout⟩ := mem_filter.mp he
    exact ⟨mem_map_of_mem hmem, of_decide_eq_true hout⟩
  · rintro ⟨hc, hout⟩
    obtain ⟨e, he, rfl⟩ := mem_map.mp hc
    exact mem_map_of_mem (mem_filter.mpr ⟨he, decide_eq_true hout⟩)

/-- What leads from one of the commits to another goes through them alone. -/
theorem Replaying.parent (h : Replaying objects orig onto mine) {c d : ObjectId}
    (hc : c ∈ mine.map Prod.fst) (hd : d ∈ mine.map Prod.fst)
    (hbelow : Below (commitParents objects) c d) :
    ∃ e ∈ mine, e.1 = c ∧ ∃ p ∈ e.2, p ∈ mine.map Prod.fst ∧ Reach (commitParents objects) p d := by
  obtain ⟨e, he, rfl⟩ := mem_map.mp hc
  obtain ⟨parents, hread, p, hp, hreach⟩ := below_iff.mp hbelow
  have hok := h.read e he
  rw [hread] at hok
  cases hok
  refine ⟨e, he, rfl, p, hp, (h.mem_iff p).mpr ⟨?_, fun honto => ?_⟩, hreach⟩
  · exact ((h.mem_iff e.1).mp hc).1.tail ⟨_, hread, hp⟩
  · exact ((h.mem_iff d).mp hd).2 (honto.trans hreach)

theorem mem_readyCommits {c : ObjectId} : c ∈ readyCommits mine done ↔
    c ∉ done ∧ ∃ e ∈ mine, e.1 = c ∧ ∀ p ∈ e.2, p ∈ mine.map Prod.fst → p ∈ done := by
  simp only [readyCommits, mem_map, mem_filter, decide_eq_true_eq]
  constructor
  · rintro ⟨e, ⟨he, hdone, hparents⟩, rfl⟩
    exact ⟨hdone, e, he, rfl, fun p hp hmine => (hparents p hp).resolve_left (absurd hmine)⟩
  · rintro ⟨hdone, e, he, rfl, hparents⟩
    exact ⟨e, ⟨he, hdone, fun p hp => (em _).symm.imp id (hparents p hp)⟩, rfl⟩

/-- **Some commit is ready**, while one is left: one without an ancestor among those left. -/
theorem exists_readyCommit (h : Replaying objects orig onto mine)
    (hacyclic : ∀ c ∈ mine.map Prod.fst, ¬Below (commitParents objects) c c)
    {c : ObjectId} (hc : c ∈ mine.map Prod.fst) (hleft : c ∉ done) :
    ∃ d, d ∈ readyCommits mine done := by
  have hleft : ((mine.map Prod.fst).filter (· ∉ done)).toFinset.Nonempty :=
    ⟨c, mem_toFinset.mpr (mem_filter.mpr ⟨hc, decide_eq_true hleft⟩)⟩
  obtain ⟨d, hd, hlowest⟩ := exists_lowest hleft fun c hc =>
    hacyclic c (mem_filter.mp (mem_toFinset.mp hc)).1
  obtain ⟨hmine, hout⟩ := mem_filter.mp (mem_toFinset.mp hd)
  obtain ⟨e, he, rfl⟩ := mem_map.mp hmine
  refine ⟨e.1, mem_readyCommits.mpr ⟨of_decide_eq_true hout, e, he, rfl, fun p hp hpmine => ?_⟩⟩
  by_contra hpdone
  refine hlowest p (mem_toFinset.mpr (mem_filter.mpr ⟨hpmine, decide_eq_true hpdone⟩)) ?_
  exact .single ⟨e.2, h.read e he, hp⟩

/-- A commit that is ready has its ancestors done. -/
theorem DoneBelow.ready (hdone : DoneBelow objects mine done)
    (h : Replaying objects orig onto mine) {next : ObjectId} (hnext : next ∈ readyCommits mine done)
    {d : ObjectId} (hd : d ∈ mine.map Prod.fst) (hbelow : Below (commitParents objects) next d) :
    d ∈ done := by
  obtain ⟨-, e, he, rfl, hparents⟩ := mem_readyCommits.mp hnext
  obtain ⟨e', he', heq, p, hp, hpmine, hreach⟩ := h.parent (mem_map_of_mem he) hd hbelow
  have hsame : e'.2 = e.2 := by
    have hok := h.read e he
    rw [← heq, h.read e' he'] at hok
    exact Except.ok.inj hok
  have hpdone := hparents p (hsame ▸ hp) hpmine
  rcases Relation.reflTransGen_iff_eq_or_transGen.mp hreach with rfl | hpd
  · exact hpdone
  · exact hdone p hpdone d hd hpd

theorem DoneBelow.cons (hdone : DoneBelow objects mine done)
    (h : Replaying objects orig onto mine) {next : ObjectId} (hnext : next ∈ readyCommits mine done) :
    DoneBelow objects mine (next :: done) := by
  intro c hc d hd hbelow
  rcases mem_cons.mp hc with rfl | hc
  · exact mem_cons_of_mem _ (hdone.ready h hnext hd hbelow)
  · exact mem_cons_of_mem _ (hdone c hc d hd hbelow)

/-- A commit with no more than one parent. -/
def Replays (objects : Objects) (c : ObjectId) : Prop :=
  ∃ parents, commitParents objects c = .ok parents ∧ parents.length < 2

/-- The dates of the commits that are ready can be read. -/
theorem dated_eq_ok (h : Replaying objects orig onto mine) :
    ∃ dated : List (Int × ObjectId), ((readyCommits mine done).mapM fun c => do
        let commit ← readCommit objects c
        return (env.date commit, c)) = (.ok dated : Res _) ∧
      dated.map Prod.snd = readyCommits mine done := by
  have hread : ∀ c ∈ readyCommits mine done, ∃ commit, readCommit objects c = .ok commit := by
    intro c hc
    obtain ⟨-, e, he, rfl, -⟩ := mem_readyCommits.mp hc
    have hok := h.read e he
    rw [commitParents] at hok
    cases hcommit : readCommit objects e.1 with
    | ok commit => exact ⟨commit, rfl⟩
    | error err =>
      rw [hcommit] at hok
      cases hok
  generalize readyCommits mine done = ready at hread
  induction ready with
  | nil => exact ⟨[], rfl, rfl⟩
  | cons c ready ih =>
    obtain ⟨commit, hcommit⟩ := hread c mem_cons_self
    obtain ⟨dated, hdated, hmap⟩ := ih fun d hd => hread d (mem_cons_of_mem c hd)
    refine ⟨(env.date commit, c) :: dated, ?_, by rw [map_cons, hmap]⟩
    rw [mapM_cons, hcommit]
    simp only [bind, Except.bind, pure, Except.pure] at hdated ⊢
    rw [hdated]

/-- What the rounds that are left make of it. -/
structure Replayed (objects : Objects) (mine : List (ObjectId × List ObjectId))
    (done order : List ObjectId) : Prop where
  nodup : order.Nodup
  mem_iff : ∀ c, c ∈ order ↔ c ∈ mine.map Prod.fst ∧ c ∉ done ∧ Replays objects c
  ordered : order.Pairwise fun a b => ¬Below (commitParents objects) a b

theorem replayOrder_spec (h : Replaying objects orig onto mine)
    (hacyclic : ∀ c ∈ mine.map Prod.fst, ¬Below (commitParents objects) c c)
    {rounds : Nat} (hdone : DoneBelow objects mine done) (hnodup : done.Nodup)
    (hsub : ∀ c ∈ done, c ∈ mine.map Prod.fst) (hrounds : rounds + done.length = mine.length) :
    ∃ order, replayOrder env mine objects rounds done = .ok order ∧
      Replayed objects mine done order := by
  induction rounds generalizing done with
  | zero =>
    -- everything is done
    have hall : ∀ c ∈ mine.map Prod.fst, c ∈ done := by
      have hperm := hnodup.subperm hsub |>.perm_of_length_le (by simp; omega)
      exact fun c hc => hperm.mem_iff.mpr hc
    refine ⟨[], rfl, nodup_nil, fun c => ?_, List.Pairwise.nil⟩
    exact iff_of_false not_mem_nil fun hc => hc.2.1 (hall c hc.1)
  | succ rounds ih =>
    obtain ⟨dated, hdated, hsnd⟩ := @dated_eq_ok env objects orig onto mine done h
    have hleft : ∃ c ∈ mine.map Prod.fst, c ∉ done := by
      by_contra hnone
      push Not at hnone
      have hle := (h.nodup.subperm hnone).length_le
      rw [length_map] at hle
      omega
    obtain ⟨c, hc, hcleft⟩ := hleft
    obtain ⟨d, hd⟩ := exists_readyCommit h hacyclic hc hcleft
    have hne : dated.insertionSort (byDate · ·) ≠ [] := by
      intro hnil
      have hlen := (perm_insertionSort (byDate · ·) dated).length_eq
      rw [hnil, length_nil] at hlen
      rw [← hsnd, length_eq_zero_iff.mp hlen.symm] at hd
      exact absurd hd not_mem_nil
    obtain ⟨first, others, hsorted⟩ := exists_cons_of_ne_nil hne
    have hnext : first.2 ∈ readyCommits mine done := by
      rw [← hsnd]
      refine mem_map_of_mem ((perm_insertionSort (byDate · ·) dated).mem_iff.mp ?_)
      rw [hsorted]
      exact mem_cons_self
    obtain ⟨hnew, e, he, heq, -⟩ := mem_readyCommits.mp hnext
    have hmine : first.2 ∈ mine.map Prod.fst := heq ▸ mem_map_of_mem he
    obtain ⟨rest, hrest, hreplayed⟩ := ih (hdone.cons h hnext) (nodup_cons.mpr ⟨hnew, hnodup⟩)
      (forall_mem_cons.mpr ⟨hmine, hsub⟩) (by rw [length_cons]; omega)
    have hlookup : mine.lookup first.2 = some e.2 := by
      rw [← heq]
      exact (lookup_eq_some_of_mem h.nodup).mpr he
    have hparents : commitParents objects first.2 = .ok e.2 := heq ▸ h.read e he
    have hrun : replayOrder env mine objects (rounds + 1) done =
        .ok (if e.2.length < 2 then first.2 :: rest else rest) := by
      rw [replayOrder]
      simp only [bind, Except.bind, pure, Except.pure] at hdated ⊢
      rw [hdated]
      simp only [hsorted, hrest, hlookup, Option.getD_some]
    refine ⟨_, hrun, ?_⟩
    have hmem : ∀ c, c ∈ mine.map Prod.fst ∧ c ∉ done ∧ Replays objects c ↔
        c = first.2 ∧ e.2.length < 2 ∨ c ∈ rest := by
      intro c
      rw [hreplayed.mem_iff, mem_cons, not_or]
      constructor
      · rintro ⟨hcmine, hcdone, hone⟩
        by_cases hcf : c = first.2
        · obtain ⟨parents, hok, hlt⟩ := hone
          rw [hcf, hparents] at hok
          cases hok
          exact .inl ⟨hcf, hlt⟩
        · exact .inr ⟨hcmine, ⟨hcf, hcdone⟩, hone⟩
      · rintro (⟨rfl, hlt⟩ | ⟨hcmine, ⟨-, hcdone⟩, hone⟩)
        · exact ⟨hmine, hnew, e.2, hparents, hlt⟩
        · exact ⟨hcmine, hcdone, hone⟩
    split
    case isTrue hlt =>
      refine ⟨nodup_cons.mpr ⟨fun hin => ?_, hreplayed.nodup⟩, fun c => ?_,
        pairwise_cons.mpr ⟨fun b hb hbelow => ?_, hreplayed.ordered⟩⟩
      · exact ((hreplayed.mem_iff _).mp hin).2.1 mem_cons_self
      · rw [hmem, mem_cons, and_iff_left hlt]
      · obtain ⟨hbmine, hbdone, -⟩ := (hreplayed.mem_iff b).mp hb
        exact hbdone (mem_cons_of_mem _ (hdone.ready h hnext hbmine hbelow))
    case isFalse hlt =>
      refine ⟨hreplayed.nodup, fun c => ?_, hreplayed.ordered⟩
      rw [hmem, or_iff_right fun hc => hlt hc.2]

theorem ancestry_ne_panic {fuel : Nat} {starts : List ObjectId} :
    ancestry objects fuel starts ≠ .error .panic := by
  intro h
  rcases explore_error h with h | ⟨c, hc⟩
  · cases h
  · rw [commitParents, readCommit] at hc
    split at hc
    · cases hc
    rename_i obj hobject
    cases hparse : Commit.parse obj.data <;> rw [hparse] at hc <;> cases hc

/-- **The replay list is complete and in order.** Of an acyclic history, it has each commit of
    `orig` that `onto` lacks, merges aside, once and behind its ancestors; the list is found
    wherever the history can be read, and `ready[0]` is always there. -/
theorem commitsToReplay_complete
    (hacyclic : ∀ c, Reach (commitParents objects) orig c → ¬Below (commitParents objects) c c) :
    commitsToReplay env objects orig onto ≠ .error .panic ∧
    (∀ order, commitsToReplay env objects orig onto = .ok order →
      order.Nodup ∧
      (∀ c, c ∈ order ↔ Reach (commitParents objects) orig c ∧
        ¬Reach (commitParents objects) onto c ∧ Replays objects c) ∧
      order.Pairwise fun a b => ¬Below (commitParents objects) a b) ∧
    ∀ V : Finset ObjectId, Closed (commitParents objects) V → orig ∈ V → onto ∈ V →
      1 + exploreBound (commitParents objects) V ≤ env.fuel.history →
      ∃ order, commitsToReplay env objects orig onto = .ok order := by
  have hfound : ∀ {fromOrig fromOnto : List (ObjectId × List ObjectId)},
      ancestry objects env.fuel.history [orig] = .ok fromOrig →
      ancestry objects env.fuel.history [onto] = .ok fromOnto →
      ∃ order, commitsToReplay env objects orig onto = .ok order ∧
        Replayed objects (fromOrig.filter fun e => e.1 ∉ fromOnto.map Prod.fst) [] order := by
    intro fromOrig fromOnto horig honto
    have h := Replaying.of_ancestry horig honto
    have hnone : DoneBelow objects (fromOrig.filter fun e => e.1 ∉ fromOnto.map Prod.fst) [] :=
      fun c hc => absurd hc not_mem_nil
    obtain ⟨order, horder, hreplayed⟩ := @replayOrder_spec env objects orig onto _ _ h
      (fun c hc => hacyclic c ((h.mem_iff c).mp hc).1) _ hnone nodup_nil
      (fun c hc => absurd hc not_mem_nil) (by rw [length_nil, Nat.add_zero])
    refine ⟨order, ?_, hreplayed⟩
    simp only [commitsToReplay, bind, Except.bind, horig, honto]
    exact horder
  refine ⟨fun hpanic => ?_, fun order horder => ?_, fun V hclosed horigV hontoV hfuel => ?_⟩
  · cases horig : ancestry objects env.fuel.history [orig] with
    | error e =>
      simp only [commitsToReplay, bind, Except.bind, horig] at hpanic
      cases hpanic
      exact ancestry_ne_panic horig
    | ok fromOrig =>
      cases honto : ancestry objects env.fuel.history [onto] with
      | error e =>
        simp only [commitsToReplay, bind, Except.bind, horig, honto] at hpanic
        cases hpanic
        exact ancestry_ne_panic honto
      | ok fromOnto =>
        obtain ⟨order, horder, -⟩ := hfound horig honto
        rw [horder] at hpanic
        cases hpanic
  · cases horig : ancestry objects env.fuel.history [orig] with
    | error e =>
      simp only [commitsToReplay, bind, Except.bind, horig] at horder
      cases horder
    | ok fromOrig =>
      cases honto : ancestry objects env.fuel.history [onto] with
      | error e =>
        simp only [commitsToReplay, bind, Except.bind, horig, honto] at horder
        cases horder
      | ok fromOnto =>
        obtain ⟨order', horder', hreplayed⟩ := hfound horig honto
        rw [horder'] at horder
        cases horder
        refine ⟨hreplayed.nodup, fun c => ?_, hreplayed.ordered⟩
        rw [hreplayed.mem_iff, (Replaying.of_ancestry horig honto).mem_iff]
        simp [and_assoc]
  · obtain ⟨fromOrig, horig⟩ := @ancestry_total objects env.fuel.history V hclosed [orig]
      (by simpa using horigV) (by simpa using hfuel)
    obtain ⟨fromOnto, honto⟩ := @ancestry_total objects env.fuel.history V hclosed [onto]
      (by simpa using hontoV) (by simpa using hfuel)
    obtain ⟨order, horder, -⟩ := hfound horig honto
    exact ⟨order, horder⟩

end

/-- The second of two commits, onto the first. -/
theorem commitsToReplay_two :
    commitsToReplay Env.toy twoCommits secondCommit firstCommit ≠ .error .panic ∧
      ∃ order, commitsToReplay Env.toy twoCommits secondCommit firstCommit = .ok order ∧
        order.Nodup ∧ secondCommit ∈ order := by
  have hsecond : secondCommit ∈ ({firstCommit, secondCommit} : Finset ObjectId) := by simp
  obtain ⟨hpanic, hlist, htotal⟩ := @commitsToReplay_complete Env.toy twoCommits secondCommit
    firstCommit fun c hc => dag_twoCommits.acyclic c (dag_twoCommits.closed.reach hsecond hc)
  have hfuel : 1 + exploreBound (commitParents twoCommits) {firstCommit, secondCommit} ≤ 12 := by
    have henough : _ ≤ 6 := enough_twoCommits.history
    omega
  obtain ⟨order, horder⟩ := htotal {firstCommit, secondCommit} dag_twoCommits.closed hsecond
    (by simp) hfuel
  obtain ⟨hnodup, hmem, -⟩ := hlist order horder
  refine ⟨hpanic, order, horder, hnodup, (hmem _).mpr ⟨.refl, fun hreach => ?_, ?_⟩⟩
  · -- a root commit reaches itself alone
    rcases Relation.reflTransGen_iff_eq_or_transGen.mp hreach with heq | hbelow
    · exact absurd heq (by decide +kernel)
    · obtain ⟨next, hread, p, hp, -⟩ := below_iff.mp hbelow
      rw [parents_first] at hread
      cases hread
      cases hp
  · exact ⟨[firstCommit], parents_second, by decide⟩

end Alt.Repo
