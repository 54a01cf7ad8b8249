import Alt.Repo.CleanStatus

namespace Alt.Repo

open Alt.Library Alt.Odb List

/-!
# The runs of a level (`alt-worktree/src/lib.rs`, `write_subtree`)

`writeSubtree` takes the paths in order and cuts them into runs: what lies under one directory, and
single files.  Byte order puts `a.b` before `a/c`, so runs of a directory are not where git's order
puts the directory; what they need is to be whole.

* `prefix_between` — what stands between two paths under a directory is under it too;
* `splitBy_sameDir` — the runs are the paths by their first component, each component once;
* `level_spec` — the entries of a level: a file, or a directory with all that is under it.
-/

/-! ### Order and prefixes -/

/-- In byte order, what stands between two extensions of `p` extends `p`. -/
theorem prefix_between {p x h z : Bytes} (hx : p <+: x) (hz : p <+: z) (hxh : compare x h = .lt)
    (hhz : compare h z = .lt) : p <+: h := by
  induction p generalizing x h z with
  | nil => exact nil_prefix
  | cons b p ih =>
    obtain ⟨x, rfl⟩ := hx
    obtain ⟨z, rfl⟩ := hz
    cases h with
    | nil => cases hxh
    | cons c h =>
      rw [cons_append, List.compare_cons_cons, Ordering.then_eq_lt] at hxh hhz
      obtain rfl : b = c := by
        rcases hxh with hbc | ⟨hbc, -⟩
        · rcases hhz with hcb | ⟨hcb, -⟩
          · have hgt := Std.OrientedCmp.gt_of_lt hcb
            rw [hbc] at hgt
            cases hgt
          · exact (Std.LawfulEqCmp.eq_of_compare hcb).symm
        · exact Std.LawfulEqCmp.eq_of_compare hbc
      have hself : compare b b = .eq := Std.ReflCmp.compare_self
      rw [hself] at hxh hhz
      have hnext := ih (prefix_append p x) (prefix_append p z)
        (hxh.resolve_left (by decide)).2 (hhz.resolve_left (by decide)).2
      exact cons_prefix_cons.mpr ⟨rfl, hnext⟩

theorem compare_append_left (p x y : Bytes) : compare (p ++ x) (p ++ y) = compare x y := by
  induction p with
  | nil => rfl
  | cons b p ih =>
    have hself : compare b b = .eq := Std.ReflCmp.compare_self
    rw [cons_append, cons_append, List.compare_cons_cons, hself, ih]
    rfl

/-! ### First components -/

/-- What a path starts with, up to its first slash. -/
def component (path : Bytes) : Bytes := path.takeWhile (· != slash)

theorem slash_not_mem_component (path : Bytes) : slash ∉ component path := by
  intro hmem
  have hne := mem_takeWhile_imp hmem
  simp at hne

theorem component_of_file {path : Bytes} (h : slash ∉ path) : component path = path := by
  refine takeWhile_eq_self_iff.mpr fun b hb => ?_
  rw [bne_iff_ne]
  rintro rfl
  exact h hb

theorem component_of_below {dir : Bytes} (h : slash ∉ dir) (tail : Bytes) :
    component (dir ++ slash :: tail) = dir := by
  rw [component, takeWhile_append_of_pos, takeWhile_cons_of_neg (by simp), append_nil]
  intro b hb
  rw [bne_iff_ne]
  rintro rfl
  exact h hb

/-- A path is its first component, or goes on below it. -/
theorem component_cases (path : Bytes) : (slash ∉ path ∧ path = component path) ∨
    ∃ tail, path = component path ++ slash :: tail := by
  cases hsplit : splitFirst slash path with
  | none =>
    have hfile := splitFirst_eq_none.mp hsplit
    exact .inl ⟨hfile, (component_of_file hfile).symm⟩
  | some parts =>
    obtain ⟨dir, tail⟩ := parts
    obtain ⟨rfl, hdir⟩ := splitFirst_eq_some.mp hsplit
    exact .inr ⟨tail, by rw [component_of_below hdir]⟩

/-- Paths in strictly increasing order. -/
def Ascending (entries : List Flat) : Prop := entries.Pairwise fun a b => compare a.1 b.1 = .lt

/-- No path is a directory of another. -/
def PrefixFree (entries : List Flat) : Prop :=
  ∀ a ∈ entries, ∀ b ∈ entries, ¬a.1 ++ [slash] <+: b.1

theorem PrefixFree.mono {entries entries' : List Flat} (h : PrefixFree entries)
    (hsub : entries' ⊆ entries) : PrefixFree entries' :=
  fun a ha b hb => h a (hsub ha) b (hsub hb)

/-- Two paths with one first component are both below it. -/
theorem below_of_component {a b : Flat} (hab : ¬a.1 ++ [slash] <+: b.1) (hba : ¬b.1 ++ [slash] <+: a.1)
    (hne : a.1 ≠ b.1) (hsame : component a.1 = component b.1) :
    component a.1 ++ [slash] <+: a.1 ∧ component a.1 ++ [slash] <+: b.1 := by
  have hbelow : ∀ {path tail : Bytes}, path = component path ++ slash :: tail →
      component path ++ [slash] <+: path :=
    fun {path tail} hpath => ⟨tail, by rw [append_assoc]; exact hpath.symm⟩
  rcases component_cases a.1 with ⟨-, ha⟩ | ⟨tail, ha⟩
  · rcases component_cases b.1 with ⟨-, hb⟩ | ⟨tail', hb⟩
    · exact absurd (ha.trans (hsame.trans hb.symm)) hne
    · exact absurd (by rw [ha, hsame]; exact hbelow hb) hab
  · rcases component_cases b.1 with ⟨-, hb⟩ | ⟨tail', hb⟩
    · exact absurd (by rw [hb, ← hsame]; exact hbelow ha) hba
    · exact ⟨hbelow ha, by rw [hsame]; exact hbelow hb⟩

theorem sameDir_iff {a b : Flat} : sameDir a b = true ↔ component a.1 = component b.1 ∧
    component a.1 ++ [slash] <+: a.1 ∧ component b.1 ++ [slash] <+: b.1 := by
  have hnone : ∀ {path : Bytes}, splitFirst slash path = none → ¬component path ++ [slash] <+: path := by
    intro path hsplit hpre
    have hfile := splitFirst_eq_none.mp hsplit
    exact hfile (hpre.subset (by simp))
  have hsome : ∀ {path dir tail : Bytes}, splitFirst slash path = some (dir, tail) →
      component path = dir ∧ component path ++ [slash] <+: path := by
    intro path dir tail hsplit
    obtain ⟨rfl, hdir⟩ := splitFirst_eq_some.mp hsplit
    rw [component_of_below hdir]
    exact ⟨rfl, tail, by rw [append_assoc]; rfl⟩
  rw [sameDir]
  cases ha : splitFirst slash a.1 with
  | none => exact iff_of_false (by simp) fun h => hnone ha h.2.1
  | some parts =>
    cases hb : splitFirst slash b.1 with
    | none => exact iff_of_false (by simp) fun h => hnone hb h.2.2
    | some parts' =>
      obtain ⟨ha, ha'⟩ := hsome ha
      obtain ⟨hb, hb'⟩ := hsome hb
      simp only [beq_iff_eq, ha, hb]
      exact ⟨fun heq => ⟨heq, ha ▸ ha', hb ▸ hb'⟩, fun h => h.1⟩

/-! ### The runs -/

variable {entries : List Flat}

/-- Behind a path of another component the first component does not come back. -/
theorem component_gone {a h x : Flat} {d : Bytes} (hfree : PrefixFree [a, h, x])
    (hah : compare a.1 h.1 = .lt) (hhx : compare h.1 x.1 = .lt) (ha : component a.1 = d)
    (hh : component h.1 ≠ d) : component x.1 ≠ d := by
  rintro rfl
  have hax : compare a.1 x.1 = .lt := Std.TransCmp.lt_trans hah hhx
  obtain ⟨hpa, hpx⟩ := below_of_component (hfree a (by simp) x (by simp)) (hfree x (by simp) a (by simp))
    (ne_of_lt hax) ha
  obtain ⟨tail, htail⟩ := prefix_between hpa hpx hah hhx
  have hcomp : component h.1 = component a.1 := by
    rw [← htail, append_assoc]
    exact component_of_below (slash_not_mem_component _) tail
  exact hh (hcomp.trans ha)

/-- **The runs are the paths by their first component**, each component once. -/
theorem splitBy_sameDir (hasc : Ascending entries) (hfree : PrefixFree entries) :
    ∃ names : List Bytes, names.Nodup ∧ (∀ d, d ∈ names ↔ ∃ e ∈ entries, component e.1 = d) ∧
      entries.splitBy sameDir = names.map fun d => entries.filter fun e => component e.1 = d := by
  induction hn : entries.length using Nat.strong_induction_on generalizing entries with
  | _ n ih =>
    cases entries with
    | nil => exact ⟨[], .nil, fun d => by simp, rfl⟩
    | cons a entries =>
      let same : Flat → Bool := fun e => component e.1 = component a.1
      have hsplit : entries.takeWhile same ++ entries.dropWhile same = entries :=
        takeWhile_append_dropWhile
      have hrun : ∀ x ∈ a :: entries.takeWhile same, component x.1 = component a.1 := by
        intro x hx
        rcases mem_cons.mp hx with rfl | hx
        · rfl
        · have hsame : same x = true := mem_takeWhile_imp hx
          exact of_decide_eq_true hsame
      have hsub : a :: entries.takeWhile same ⊆ a :: entries :=
        cons_subset_cons a (takeWhile_sublist _).subset
      have hsub' : entries.dropWhile same ⊆ a :: entries :=
        fun x hx => mem_cons_of_mem a ((dropWhile_sublist _).subset hx)
      have hrest : ∀ x ∈ entries.dropWhile same, component x.1 ≠ component a.1 := by
        intro x hx
        cases hdrop : entries.dropWhile same with
        | nil =>
          rw [hdrop] at hx
          cases hx
        | cons h rest =>
          have hh : component h.1 ≠ component a.1 := by
            have hne : entries.dropWhile same ≠ [] := by
              rw [hdrop]
              exact cons_ne_nil h rest
            have hnot := head_dropWhile_not same hne
            simp only [hdrop, head_cons] at hnot
            exact of_decide_eq_false hnot
          rw [hdrop] at hx
          rcases mem_cons.mp hx with rfl | hx
          · exact hh
          · have hmem : h ∈ entries := (dropWhile_sublist same).subset (hdrop ▸ mem_cons_self)
            have htail : (h :: rest).Pairwise fun a b => compare a.1 b.1 = .lt :=
              hdrop ▸ (pairwise_cons.mp hasc).2.sublist (dropWhile_sublist same)
            refine component_gone (hfree.mono fun y hy => ?_) ((pairwise_cons.mp hasc).1 h hmem)
              ((pairwise_cons.mp htail).1 x hx) rfl hh
            rcases mem_cons.mp hy with rfl | hy
            · exact mem_cons_self
            · rcases mem_cons.mp hy with rfl | hy
              · exact mem_cons_of_mem _ hmem
              · rw [mem_singleton.mp hy]
                exact hsub' (hdrop ▸ mem_cons_of_mem h hx)
      have hchain : (a :: entries.takeWhile same).IsChain fun x y => sameDir x y = true := by
        have hpair : (a :: entries.takeWhile same).Pairwise fun x y => compare x.1 y.1 = .lt :=
          hasc.sublist ((takeWhile_sublist same).cons_cons a)
        refine (hpair.imp_of_mem fun {x y} hx hy hlt => ?_).isChain
        have heq := (hrun x hx).trans (hrun y hy).symm
        obtain ⟨hbx, hby⟩ := below_of_component (hfree x (hsub hx) y (hsub hy))
          (hfree y (hsub hy) x (hsub hx)) (ne_of_lt hlt) heq
        exact sameDir_iff.mpr ⟨heq, hbx, heq ▸ hby⟩
      have hcut : (a :: entries).splitBy sameDir
          = (a :: entries.takeWhile same) :: (entries.dropWhile same).splitBy sameDir := by
        have hwhole : a :: entries = (a :: entries.takeWhile same) ++ entries.dropWhile same := by
          rw [cons_append, hsplit]
        rw [hwhole, splitBy_append, splitBy_of_isChain (cons_ne_nil _ _) hchain]
        · rfl
        · intro x hx y hy
          rw [← Bool.not_eq_true]
          intro hsame
          exact hrest y (mem_of_mem_head? hy)
            ((sameDir_iff.mp hsame).1.symm.trans (hrun x (mem_of_getLast? hx)))
      have hlen : (entries.dropWhile same).length < n := by
        have hle := (dropWhile_sublist same (l := entries)).length_le
        rw [length_cons] at hn
        omega
      obtain ⟨names, hnodup, hmem, hruns⟩ := ih _ hlen
        ((pairwise_cons.mp hasc).2.sublist (dropWhile_sublist same)) (hfree.mono hsub') rfl
      have hnew : ∀ d ∈ names, d ≠ component a.1 := by
        rintro d hd rfl
        obtain ⟨x, hx, heq⟩ := (hmem _).mp hd
        exact hrest x hx heq
      have hfilter : ∀ d, (a :: entries).filter (fun e => component e.1 = d)
          = (a :: entries.takeWhile same).filter (fun e => component e.1 = d) ++
            (entries.dropWhile same).filter fun e => component e.1 = d := by
        intro d
        rw [← filter_append, cons_append, hsplit]
      refine ⟨component a.1 :: names, nodup_cons.mpr ⟨fun hd => hnew _ hd rfl, hnodup⟩, ?_, ?_⟩
      · intro d
        rw [mem_cons, hmem]
        constructor
        · rintro (rfl | ⟨x, hx, heq⟩)
          · exact ⟨a, mem_cons_self, rfl⟩
          · exact ⟨x, hsub' hx, heq⟩
        · rintro ⟨x, hx, rfl⟩
          rw [← hsplit, ← cons_append, mem_append] at hx
          rcases hx with hx | hx
          · exact .inl (hrun x hx)
          · exact .inr ⟨x, hx, rfl⟩
      · rw [hcut, hruns, map_cons, hfilter]
        have hall : (a :: entries.takeWhile same).filter (fun e => component e.1 = component a.1)
            = a :: entries.takeWhile same :=
          filter_eq_self.mpr fun x hx => decide_eq_true (hrun x hx)
        have hnone : (entries.dropWhile same).filter (fun e => component e.1 = component a.1) = [] :=
          filter_eq_nil_iff.mpr fun x hx heq => hrest x hx (of_decide_eq_true heq)
        rw [hall, hnone, append_nil]
        refine congrArg _ (map_congr_left fun d hd => ?_)
        have hother : (a :: entries.takeWhile same).filter (fun e => component e.1 = d) = [] :=
          filter_eq_nil_iff.mpr fun x hx heq =>
            hnew d hd ((of_decide_eq_true heq).symm.trans (hrun x hx))
        rw [hfilter, hother, nil_append]

/-! ### The entries of a level -/

/-- The paths below `dir`, seen from there. -/
def inside (dir : Bytes) (group : List Flat) : List Flat :=
  group.map fun e => (e.1.drop (dir.length + 1), e.2)

/-- The entry a run is written as: a file as it is, a directory with the id of what is inside. -/
def runEntry (idOf : List Flat → ObjectId) : List Flat → Option Flat
  | [] => none
  | first :: rest =>
    match splitFirst slash first.1 with
    | none => some first
    | some (dir, _) => some (dir, idOf (inside dir (first :: rest)), directory)

/-- The paths with one first component. -/
def runOf (entries : List Flat) (d : Bytes) : List Flat :=
  entries.filter fun e => component e.1 = d

theorem mem_runOf {d : Bytes} {e : Flat} : e ∈ runOf entries d ↔ e ∈ entries ∧ component e.1 = d := by
  rw [runOf, mem_filter, decide_eq_true_eq]

/-- What lies below the directory `d`, and there is something. -/
structure DirRun (entries : List Flat) (d : Bytes) : Prop where
  name : slash ∉ d
  ne_nil : runOf entries d ≠ []
  below : ∀ e ∈ runOf entries d, e.1 = d ++ slash :: e.1.drop (d.length + 1)

/-- A run is one file, or all below one directory. -/
theorem runOf_cases (hasc : Ascending entries) (hfree : PrefixFree entries) {d : Bytes}
    (hd : ∃ e ∈ entries, component e.1 = d) :
    (∃ f, runOf entries d = [f] ∧ f.1 = d ∧ slash ∉ f.1) ∨ DirRun entries d := by
  obtain ⟨e, he, hcomp⟩ := hd
  have hslash : slash ∉ d := hcomp ▸ slash_not_mem_component e.1
  have hmem : e ∈ runOf entries d := mem_runOf.mpr ⟨he, hcomp⟩
  have hpair : (runOf entries d).Pairwise fun a b => compare a.1 b.1 = .lt :=
    hasc.sublist filter_sublist
  have hin : ∀ {x}, x ∈ runOf entries d → x ∈ entries ∧ component x.1 = d := mem_runOf.mp
  cases hrun : runOf entries d with
  | nil =>
    rw [hrun] at hmem
    cases hmem
  | cons x rest =>
    have hx := hin (hrun ▸ mem_cons_self : x ∈ runOf entries d)
    have hother : ∀ y ∈ rest, d ++ [slash] <+: x.1 ∧ d ++ [slash] <+: y.1 := by
      intro y hy
      have hyin := hin (hrun ▸ mem_cons_of_mem x hy : y ∈ runOf entries d)
      rw [hrun] at hpair
      have hlt := (pairwise_cons.mp hpair).1 y hy
      have hboth := below_of_component (hfree x hx.1 y hyin.1) (hfree y hyin.1 x hx.1)
        (ne_of_lt hlt) (hx.2.trans hyin.2.symm)
      rwa [hx.2] at hboth
    rcases component_cases x.1 with ⟨hfile, hpath⟩ | ⟨tail, hpath⟩
    · refine .inl ⟨x, ?_, hpath.trans hx.2, hfile⟩
      cases rest with
      | nil => rfl
      | cons y rest => exact absurd ((hother y mem_cons_self).1.subset (by simp)) hfile
    · refine .inr ⟨hslash, by rw [hrun]; exact cons_ne_nil x rest, fun y hy => ?_⟩
      rw [hrun] at hy
      have hcut : ∀ {path tail : Bytes}, path = d ++ slash :: tail →
          path = d ++ slash :: path.drop (d.length + 1) := by
        rintro path tail rfl
        rw [← drop_drop, drop_left, drop_succ_cons, drop_zero]
      rcases mem_cons.mp hy with rfl | hy
      · rw [hx.2] at hpath
        exact hcut hpath
      · obtain ⟨tail', htail⟩ := (hother y hy).2
        rw [append_assoc] at htail
        exact hcut htail.symm

/-- What an entry of a level stands for. -/
inductive Stands (idOf : List Flat → ObjectId) (entries : List Flat) : Flat → Prop
  | file {f : Flat} : runOf entries f.1 = [f] → slash ∉ f.1 → Stands idOf entries f
  | dir {d : Bytes} : DirRun entries d →
      Stands idOf entries (d, idOf (inside d (runOf entries d)), directory)

theorem runEntry_runOf (hasc : Ascending entries) (hfree : PrefixFree entries)
    (idOf : List Flat → ObjectId) {d : Bytes} (hd : ∃ e ∈ entries, component e.1 = d) :
    ∃ f, runEntry idOf (runOf entries d) = some f ∧ f.1 = d ∧ Stands idOf entries f := by
  rcases runOf_cases hasc hfree hd with ⟨f, hrun, hname, hfile⟩ | hdir
  · refine ⟨f, ?_, hname, .file (hname.symm ▸ hrun) hfile⟩
    rw [hrun, runEntry, splitFirst_eq_none.mpr hfile]
  · refine ⟨_, ?_, rfl, .dir hdir⟩
    cases hrun : runOf entries d with
    | nil => exact absurd hrun hdir.ne_nil
    | cons first rest =>
      have hfirst := hdir.below first (hrun ▸ mem_cons_self)
      rw [runEntry, splitFirst_eq_some.mpr ⟨hfirst, hdir.name⟩]

/-- **The entries of a level**: one for each first component, and each stands for all paths that
    start with it. -/
theorem level_spec (hasc : Ascending entries) (hfree : PrefixFree entries)
    (idOf : List Flat → ObjectId) {level : List Flat}
    (hlevel : (entries.splitBy sameDir).filterMap (runEntry idOf) = level) :
    (level.map Prod.fst).Nodup ∧ (∀ d, d ∈ level.map Prod.fst ↔ ∃ e ∈ entries, component e.1 = d) ∧
      entries.splitBy sameDir = (level.map Prod.fst).map (runOf entries) ∧
      ∀ f ∈ level, Stands idOf entries f := by
  obtain ⟨names, hnodup, hmem, hruns⟩ := splitBy_sameDir hasc hfree
  have hruns' : entries.splitBy sameDir = names.map (runOf entries) := hruns
  rw [hruns', filterMap_map] at hlevel
  have hentry : ∀ d ∈ names, ∃ f, (runEntry idOf ∘ runOf entries) d = some f ∧ f.1 = d ∧
      Stands idOf entries f := fun d hd => runEntry_runOf hasc hfree idOf ((hmem d).mp hd)
  have hnames : level.map Prod.fst = names := by
    clear hnodup hmem hruns hruns'
    induction names generalizing level with
    | nil =>
      subst hlevel
      rfl
    | cons d names ih =>
      obtain ⟨f, hf, hname, -⟩ := hentry d mem_cons_self
      rw [filterMap_cons, hf] at hlevel
      subst hlevel
      rw [map_cons, hname, ih rfl fun d hd => hentry d (mem_cons_of_mem _ hd)]
  rw [hnames]
  refine ⟨hnodup, hmem, hruns', fun f hf => ?_⟩
  rw [← hlevel, mem_filterMap] at hf
  obtain ⟨d, hd, heq⟩ := hf
  obtain ⟨f', hf', -, hstands⟩ := hentry d hd
  rw [heq] at hf'
  cases hf'
  exact hstands

/-! ### Inside a directory -/

variable {d : Bytes}

/-- What is inside is again in order, and no path is a directory of another. -/
theorem inside_runOf (hasc : Ascending entries) (hfree : PrefixFree entries) (h : DirRun entries d) :
    Ascending (inside d (runOf entries d)) ∧ PrefixFree (inside d (runOf entries d)) := by
  constructor
  · have hpair : (runOf entries d).Pairwise fun a b => compare a.1 b.1 = .lt :=
      hasc.sublist filter_sublist
    refine pairwise_map.mpr (hpair.imp_of_mem fun {a b} ha hb hlt => ?_)
    rw [h.below a ha, h.below b hb, compare_append_left, List.compare_cons_cons] at hlt
    have hself : compare slash slash = .eq := Std.ReflCmp.compare_self
    rwa [hself] at hlt
  · intro x hx y hy hpre
    obtain ⟨a, ha, rfl⟩ := mem_map.mp hx
    obtain ⟨b, hb, rfl⟩ := mem_map.mp hy
    refine hfree a (mem_runOf.mp ha).1 b (mem_runOf.mp hb).1 ?_
    rw [h.below a ha, h.below b hb, append_assoc, cons_append]
    exact (prefix_append_right_inj d).mpr (cons_prefix_cons.mpr ⟨rfl, hpre⟩)

/-- Looking from inside and back. -/
theorem map_inside (hd : d ≠ []) (h : DirRun entries d) :
    (inside d (runOf entries d)).map (fun e => (under d e.1, e.2)) = runOf entries d := by
  rw [inside, map_map]
  have hsame : ∀ e ∈ runOf entries d,
      ((fun e : Flat => (under d e.1, e.2)) ∘ fun e => (e.1.drop (d.length + 1), e.2)) e = e := by
    intro e he
    have hpath : under d (e.1.drop (d.length + 1)) = e.1 := by
      rw [under, if_neg hd]
      exact (h.below e he).symm
    exact Prod.ext hpath rfl
  exact (map_congr_left hsame).trans (map_id' _)

theorem mem_inside {e : Flat} (h : DirRun entries d) (he : e ∈ inside d (runOf entries d)) :
    ∃ e' ∈ runOf entries d, e'.1 = d ++ slash :: e.1 ∧ e'.2 = e.2 := by
  obtain ⟨e', he', rfl⟩ := mem_map.mp he
  exact ⟨e', he', h.below e' he', rfl⟩

theorem inside_ne_nil (h : DirRun entries d) : inside d (runOf entries d) ≠ [] := by
  rw [inside, Ne, map_eq_nil_iff]
  exact h.ne_nil

/-- A path inside is shorter, by a byte at least. -/
theorem length_inside {fuel : Nat} (h : DirRun entries d) (hfuel : ∀ e ∈ entries, e.1.length < fuel + 1) :
    (∀ e ∈ inside d (runOf entries d), e.1.length < fuel) ∧ 0 < fuel := by
  have hlt : ∀ e ∈ inside d (runOf entries d), e.1.length < fuel := by
    intro e he
    obtain ⟨e', he', hpath, -⟩ := mem_inside h he
    have hlen := hfuel e' (mem_runOf.mp he').1
    rw [hpath, length_append, length_cons] at hlen
    omega
  obtain ⟨e, he⟩ := exists_mem_of_ne_nil _ (inside_ne_nil h)
  exact ⟨hlt, Nat.zero_lt_of_lt (hlt e he)⟩

end Alt.Repo
