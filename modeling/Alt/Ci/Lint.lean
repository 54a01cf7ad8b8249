import Alt.Ci.Workflow
import Alt.Library.ColourSearch

namespace Alt.Ci

open Alt.Library ColourSearch List

/-!
# CI — what is wrong with a whole workflow (`lint` of `alt-cli/src/ci.rs`)

* `lint` — the steps of one name, the needs that no step meets, and the cycles of needs;
* `lint_error_iff` — it returns, and reports an error exactly if there is one of these.
-/

/-! ### The three checks -/

def duplicateName (step : Step) : WfDiag :=
  ⟨⟨0⟩, .error, "duplicate step name \"" ++ step.name ++ "\""⟩

def undefinedNeed (step : Step) (need : String) : WfDiag :=
  ⟨⟨0⟩, .error, "step \"" ++ step.name ++ "\" needs undefined step \"" ++ need ++ "\""⟩

def stepCycle (name need : String) : WfDiag :=
  ⟨⟨0⟩, .error, "step cycle detected: \"" ++ name ++ "\" reaches \"" ++ need ++ "\""⟩

/-- The steps whose name was seen before. -/
def duplicateNames (seen : List String) : List Step → List WfDiag
  | [] => []
  | step :: steps =>
    if step.name ∈ seen then duplicateName step :: duplicateNames seen steps
    else duplicateNames (step.name :: seen) steps

def undefinedNeeds (wf : Workflow) : List WfDiag :=
  wf.steps.flatMap fun step =>
    (step.needs.filter fun need => need ∉ wf.steps.map (·.name)).map (undefinedNeed step)

/-- `by_name`: of steps of one name the last. -/
def byName (wf : Workflow) : FinMap String Step := FinMap.ofEntries (wf.steps.map fun step => (step.name, step))

/-- The keys of `by_name`, in order. -/
def namesOf (wf : Workflow) : List String :=
  ((byName wf).entries.map Prod.fst).mergeSort fun a b => decide (a ≤ b)

/-- The needs of the step of that name. -/
def needsOf (wf : Workflow) (name : String) : Option (List String) := ((byName wf).get name).map (·.needs)

/-- `dfs`. -/
def dfs (wf : Workflow) (fuel : Nat) (name : String) (s : Search String WfDiag) : Option (Search String WfDiag) :=
  visit (needsOf wf) stepCycle fuel name s

/-- All nodes are white. -/
def uncoloured (wf : Workflow) : Search String WfDiag :=
  ⟨fun name => if name ∈ namesOf wf then some .white else none, []⟩

/-- `none` out of fuel. -/
def lint (wf : Workflow) : Option (List WfDiag) := do
  let searched ← (namesOf wf).foldlM (fun s name => dfs wf ((namesOf wf).length + 1) name s) (uncoloured wf)
  return duplicateNames [] wf.steps ++ undefinedNeeds wf ++ searched.found

/-! ### What they find -/

/-- Some step of that name needs the other. -/
def Needs (wf : Workflow) (a b : String) : Prop := ∃ step ∈ wf.steps, step.name = a ∧ b ∈ step.needs

theorem duplicateNames_eq_nil_iff (seen : List String) (steps : List Step) :
    duplicateNames seen steps = [] ↔ (∀ step ∈ steps, step.name ∉ seen) ∧ (steps.map (·.name)).Nodup := by
  induction steps generalizing seen with
  | nil => simp [duplicateNames]
  | cons step steps ih =>
    rw [duplicateNames]
    by_cases hmem : step.name ∈ seen
    · simp [hmem]
    · rw [if_neg hmem, ih, map_cons, nodup_cons, forall_mem_cons]
      simp only [mem_cons, not_or, mem_map, not_exists, not_and]
      constructor
      · rintro ⟨hseen, hnodup⟩
        exact ⟨⟨hmem, fun s hs => (hseen s hs).2⟩, fun s hs => (hseen s hs).1, hnodup⟩
      · rintro ⟨⟨-, hseen⟩, hname, hnodup⟩
        exact ⟨fun s hs => ⟨hname s hs, hseen s hs⟩, hnodup⟩

theorem undefinedNeeds_eq_nil_iff (wf : Workflow) :
    undefinedNeeds wf = [] ↔ ∀ step ∈ wf.steps, ∀ need ∈ step.needs, need ∈ wf.steps.map (·.name) := by
  simp [undefinedNeeds, flatMap_eq_nil_iff]

theorem severity_duplicateNames {seen : List String} {steps : List Step} :
    ∀ d ∈ duplicateNames seen steps, d.severity = .error := by
  induction steps generalizing seen with
  | nil => exact fun d hd => by cases hd
  | cons step steps ih =>
    rw [duplicateNames]
    split
    · exact forall_mem_cons.mpr ⟨rfl, ih⟩
    · exact ih

theorem severity_undefinedNeeds (wf : Workflow) : ∀ d ∈ undefinedNeeds wf, d.severity = .error := by
  intro d hd
  obtain ⟨step, -, hd⟩ := mem_flatMap.mp hd
  obtain ⟨need, -, rfl⟩ := mem_map.mp hd
  rfl

theorem mem_namesOf {wf : Workflow} {name : String} : name ∈ namesOf wf ↔ needsOf wf name ≠ none := by
  rw [namesOf, mem_mergeSort, FinMap.mem_keys_iff, FinMap.containsKey, needsOf, Option.isSome_iff_ne_none]
  exact (Option.map_eq_none_iff.not).symm

/-- Where the names of the steps differ, the needs are the steps of the search. -/
theorem edge_iff {wf : Workflow} (hnodup : (wf.steps.map (·.name)).Nodup) (a b : String) :
    Edge (needsOf wf) a b ↔ Needs wf a b := by
  have hkeys : ((wf.steps.map fun step => (step.name, step)).map Prod.fst).Nodup := by
    rw [map_map]
    exact hnodup
  have hget : ∀ step : Step, (byName wf).get a = some step ↔ step ∈ wf.steps ∧ step.name = a := by
    intro step
    rw [byName, FinMap.get_ofEntries, lastOf_iff_mem hkeys, mem_map]
    constructor
    · rintro ⟨s, hs, heq⟩
      cases heq
      exact ⟨hs, rfl⟩
    · rintro ⟨hs, rfl⟩
      exact ⟨step, hs, rfl⟩
  constructor
  · rintro ⟨next, hnext, hb⟩
    obtain ⟨step, hstep, rfl⟩ := Option.map_eq_some_iff.mp hnext
    obtain ⟨hmem, hname⟩ := (hget step).mp hstep
    exact ⟨step, hmem, hname, hb⟩
  · rintro ⟨step, hmem, hname, hb⟩
    refine ⟨step.needs, ?_, hb⟩
    rw [needsOf, (hget step).mpr ⟨hmem, hname⟩]
    rfl

theorem hasCycle_iff {wf : Workflow} (hnodup : (wf.steps.map (·.name)).Nodup) :
    HasCycle (needsOf wf) ↔ ∃ name, Relation.TransGen (Needs wf) name name := by
  have hsame : Edge (needsOf wf) = Needs wf := funext fun a => funext fun b => propext (edge_iff hnodup a b)
  rw [HasCycle, hsame]

/-- **Lint is sound and complete**: it returns, and reports an error exactly if two steps share a name, a step
needs a name that no step has, or the needs go round in a cycle. -/
theorem lint_error_iff (wf : Workflow) :
    ∃ diags, lint wf = some diags ∧
      ((∃ d ∈ diags, d.severity = .error) ↔
        ¬(wf.steps.map (·.name)).Nodup ∨
          (∃ step ∈ wf.steps, ∃ need ∈ step.needs, need ∉ wf.steps.map (·.name)) ∨
          ∃ name, Relation.TransGen (Needs wf) name name) := by
  obtain ⟨searched, hsearched, hfound, hreports⟩ := @visitAll_spec _ _ _ (needsOf wf) stepCycle (namesOf wf)
    (fun name h => mem_namesOf.mpr h) _ (Nat.lt_succ_self _)
  refine ⟨duplicateNames [] wf.steps ++ undefinedNeeds wf ++ searched.found, ?_, ?_⟩
  · have hloop : (namesOf wf).foldlM (fun s name => dfs wf ((namesOf wf).length + 1) name s) (uncoloured wf)
        = some searched := hsearched
    rw [lint, hloop]
    rfl
  · have hsevere : ∀ d ∈ duplicateNames [] wf.steps ++ undefinedNeeds wf ++ searched.found, d.severity = .error := by
      intro d hd
      rcases mem_append.mp hd with hd | hd
      · exact (mem_append.mp hd).elim (severity_duplicateNames d) (severity_undefinedNeeds wf d)
      · obtain ⟨a, b, rfl⟩ := hreports d hd
        rfl
    have hsome : (∃ d ∈ duplicateNames [] wf.steps ++ undefinedNeeds wf ++ searched.found, d.severity = .error) ↔
        ¬(duplicateNames [] wf.steps ++ undefinedNeeds wf ++ searched.found = []) := by
      rw [eq_nil_iff_forall_not_mem, not_forall_not]
      exact exists_congr fun d => and_iff_left_of_imp (hsevere d)
    rw [hsome, append_eq_nil_iff, append_eq_nil_iff, duplicateNames_eq_nil_iff, undefinedNeeds_eq_nil_iff]
    have hcycle : searched.found = [] ↔ ¬HasCycle (needsOf wf) := (not_iff_comm.mp hfound).symm
    simp only [not_mem_nil, not_false_eq_true, implies_true, true_and, hcycle]
    by_cases hnodup : (wf.steps.map (·.name)).Nodup
    · simp [hnodup, hasCycle_iff hnodup, or_iff_not_imp_left]
    · simp [hnodup]

end Alt.Ci
