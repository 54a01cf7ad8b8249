import Alt.Library.FinMap

namespace Alt.Ci

open Alt.Library

/-!
# CI — workflows and what is said about them (`alt-cli/src/ci.rs`)
-/

structure Trigger where
  refPattern : Option String
  on : List String
  deriving DecidableEq

structure Step where
  name : String
  script : String
  agent : Option String
  needs : List String
  env : FinMap String String

structure Workflow where
  trigger : Trigger
  steps : List Step
  artifacts : FinMap String String

inductive Severity where
  | error
  | warning
  deriving DecidableEq, Repr

/-- A place in the source, in bytes. -/
structure Position where
  byte : Nat
  deriving DecidableEq, Repr

structure WfDiag where
  position : Position
  severity : Severity
  message : String
  deriving DecidableEq, Repr

end Alt.Ci
