import Alt.Repo.Commands

namespace Alt.Repo

open Alt.Library Alt.Odb Alt.Refs

/-!
# Flow (`native.rs`, 2253–2680; `alt-flow/src/lib.rs`)

The git-flow commands: topic branches are started off a long-lived branch and finished back into
one or two of them, each in a single ref transaction.
-/

/-! ### The branches of a flow -/

/-- One flow's branches: the topic, where it starts, and where it is finished. -/
structure Flow where
  branch : String
  base : String
  target : String

inductive FlowKind
  | feature | release | hotfix
  deriving DecidableEq

/-- A topic name that will not do. -/
def badTopic (name : String) : Bool :=
  let cs := name.toList
  cs.isEmpty || cs.head? == some '.' || cs.contains '/' ||
    (cs.tails.any fun rest => ['.', '.'].isPrefixOf rest) ||
    cs.any fun c => c.toNat ≤ 0x20 || c.toNat == 0x7f

def flowOf (model : BranchModel) (kind : FlowKind) (name : String) : Res Flow :=
  if badTopic name then .error (.message ("invalid flow topic name '" ++ name ++ "'"))
  else
    match kind with
    | .feature => .ok ⟨"feature/" ++ name, model.develop, model.develop⟩
    | .release => .ok ⟨"release/" ++ name, model.develop, model.main⟩
    | .hotfix => .ok ⟨"hotfix/" ++ name, model.main, model.main⟩

def FlowKind.verb : FlowKind → String
  | .feature => "feature"
  | .release => "release"
  | .hotfix => "hotfix"

def branchRef (short : String) : String := "refs/heads/" ++ short

section

variable (env : Env)

/-! ### Starting -/

/-- The commit flow is set up at: the production branch's, or the current one's. -/
def flowBase (main : Option ObjectId) : Cmd ObjectId :=
  match main with
  | some c => pure c
  | none => do
    let branch ← currentBranch env
    resolveOr branch "create an initial commit before 'alt flow init'"

/-- `alt flow init`. -/
def flowInit : Cmd Unit := do
  let refs := (← get).refs
  let devRef := branchRef (flowModel refs).develop
  if (refs[devRef]?).isSome then pure ()
  else
    let main ← onRefs (resolve refs (branchRef (flowModel refs).main))
    let start ← flowBase env main
    commitRefs env "flow" [⟨devRef, none, some (.oid start)⟩,
      ⟨env.headRef, refs[env.headRef]?, some (.symbolic devRef)⟩]

/-- `alt flow … start`: the same for every kind, but for the words when the base is missing. -/
def flowStart (kind : FlowKind) (name : String) : Cmd Unit := do
  let flow ← fromExcept (flowOf (flowModel (← get).refs) kind name)
  let topicRef := branchRef flow.branch
  demand ((← get).refs[topicRef]?).isNone ("a branch named '" ++ flow.branch ++ "' already exists")
  let base ← resolveOr (branchRef flow.base)
    (if kind = .feature then "develop branch missing; run 'alt flow init' first"
    else "base branch '" ++ flow.base ++ "' missing; run 'alt flow init' first")
  ensureClean env "flow start"
  let target ← entriesOf env base
  let old ← indexedEntries env
  checkout env old target
  let head := (← get).refs[env.headRef]?
  commitRefs env "flow" [⟨topicRef, none, some (.oid base)⟩,
    ⟨env.headRef, head, some (.symbolic topicRef)⟩]

/-! ### Finishing -/

/-- A merge without a working tree: the new commit and its entries. -/
def mergeFor (ours theirs : ObjectId) (label conflict : String) :
    Cmd (ObjectId × List WorkEntry) := do
  match ← onObjects (computeMerge env.P env.algo env.fuel env.me ours theirs label) with
  | .upToDate => return (ours, ← entriesOf env ours)
  | .fastForward c => return (c, ← entriesOf env c)
  | .merged c entries => return (c, entries)
  | .conflicted _ => fail conflict

/-- `alt flow feature finish`. -/
def flowFeatureFinish (name : String) : Cmd Unit := do
  let flow ← fromExcept (flowOf (flowModel (← get).refs) .feature name)
  let featRef := branchRef flow.branch
  let devRef := branchRef flow.target
  let feat ← resolveOr featRef ("no such feature branch '" ++ flow.branch ++ "'")
  let dev ← resolveOr devRef "develop branch missing; run 'alt flow init' first"
  ensureClean env "flow finish"
  let (new, entries) ← mergeFor env dev feat flow.branch
    ("merge of '" ++ flow.branch ++ "' into '" ++ flow.target ++ "' has conflicts; " ++
      "run 'alt merge' on '" ++ flow.target ++ "' and resolve manually")
  let head := (← get).refs[env.headRef]?
  commitRefs env "flow" [⟨devRef, some (.oid dev), some (.oid new)⟩,
    ⟨featRef, some (.oid feat), none⟩, ⟨env.headRef, head, some (.symbolic devRef)⟩]
  let old ← indexedEntries env
  checkout env old entries

/-- The merge back into `develop`, unless it is where the target went. -/
def backMerge (back newTarget : ObjectId) (entries : List WorkEntry) (label conflict : String) :
    Cmd (ObjectId × List WorkEntry) :=
  if newTarget = back then pure (back, entries) else mergeFor env back newTarget label conflict

/-- `alt flow release finish` and `alt flow hotfix finish`: into the target, and back. -/
def flowTopicFinish (kind : FlowKind) (name : String) : Cmd Unit := do
  let model := flowModel (← get).refs
  let flow ← fromExcept (flowOf model kind name)
  let topicRef := branchRef flow.branch
  let targetRef := branchRef flow.target
  let backRef := branchRef model.develop
  let topic ← resolveOr topicRef ("no such " ++ kind.verb ++ " branch '" ++ flow.branch ++ "'")
  let target ← resolveOr targetRef (flow.target ++ " branch missing")
  let back ← resolveOr backRef (backRef ++ " missing; run 'alt flow init' first")
  ensureClean env "flow finish"
  let (newTarget, targetEntries) ← mergeFor env target topic flow.branch
    ("merge of '" ++ flow.branch ++ "' into '" ++ flow.target ++ "' has conflicts; " ++
      "resolve manually before retrying the " ++ kind.verb ++ " finish")
  let (newBack, entries) ← backMerge env back newTarget targetEntries flow.target
    ("back-merge of '" ++ flow.target ++ "' into '" ++ backRef ++ "' has conflicts; " ++
      "resolve manually before retrying the " ++ kind.verb ++ " finish")
  let head := (← get).refs[env.headRef]?
  commitRefs env "flow" ([⟨targetRef, some (.oid target), some (.oid newTarget)⟩,
    ⟨topicRef, some (.oid topic), none⟩, ⟨env.headRef, head, some (.symbolic backRef)⟩] ++
    if newBack ≠ back then [⟨backRef, some (.oid back), some (.oid newBack)⟩] else [])
  let old ← indexedEntries env
  checkout env old entries

end

end Alt.Repo
