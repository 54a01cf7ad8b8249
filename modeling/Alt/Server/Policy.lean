import Alt.Library.Bytes

namespace Alt.Server

open Alt.Library

/-!
# The capability policy (`alt-cli/src/policy.rs`)

A repository's policy is a list of rules, principal glob to capabilities; the first that
matches a principal decides (`Policy.lookup`).  Ref namespace and read-only are gates of the
ref store, the signature axes are gates of the push path, `forbid_force` is read by the local
commands only.

* `globMatches` — the names a glob stands for;
* `Capabilities.allowsBranchName` — the names the allow and deny lists accept.
-/

inductive PrincipalKind
  | human
  | agent
  deriving DecidableEq

structure Principal where
  kind : PrincipalKind
  id : String
  session : Option String
  deriving DecidableEq

/-- A compiled glob, as the strings it matches. -/
abbrev Glob := String → Bool

/-- What a principal may do; an empty list does not constrain its axis. -/
structure Capabilities where
  readOnly : Bool
  branchAllow : List Glob
  branchDeny : List Glob
  forbidForce : Bool
  requireSigned : Bool
  requireSignedCommits : Bool

/-- No constraint anywhere. -/
def Capabilities.full : Capabilities := ⟨false, [], [], false, false, false⟩

structure Rule where
  principal : Glob
  caps : Capabilities

structure Policy where
  rules : List Rule

def PrincipalKind.word : PrincipalKind → String
  | .human => "human"
  | .agent => "agent"

def principalTarget (p : Principal) : String := p.kind.word ++ ":" ++ p.id

/-- The first matching rule wins; a principal without one may do everything. -/
def Policy.lookup (policy : Policy) (principal : Principal) : Capabilities :=
  match policy.rules.find? fun r => r.principal (principalTarget principal) with
  | some r => r.caps
  | none => .full

/-- The allow and deny lists alone; a deny wins. -/
def Capabilities.allowsBranchName (caps : Capabilities) (name : String) : Bool :=
  (caps.branchAllow.isEmpty || caps.branchAllow.any fun g => g name) &&
    !caps.branchDeny.any fun g => g name

/-! ### Globs -/

inductive Part
  | lit (s : Bytes)
  /-- `*` -/
  | anySegment
  /-- `**` -/
  | anyChars

/-- A literal part, if there is one. -/
def litPart (buf : Bytes) : List Part := if buf = [] then [] else [.lit buf]

/-- The parts of a pattern, behind the literal `buf`; `**` takes in the slashes beside it. -/
def globFrom (buf : Bytes) : Bytes → List Part
  | [] => litPart buf
  | 0x2a :: 0x2a :: 0x2f :: rest =>
    litPart (if buf.getLast? = some 0x2f then buf.dropLast else buf) ++ .anyChars :: globFrom [] rest
  | 0x2a :: 0x2a :: rest =>
    litPart (if buf.getLast? = some 0x2f then buf.dropLast else buf) ++ .anyChars :: globFrom [] rest
  | 0x2a :: rest => litPart buf ++ .anySegment :: globFrom [] rest
  | b :: rest => globFrom (buf ++ String.utf8EncodeChar (Char.ofNat b.toNat)) rest

/-- Tries a match at each place of the input; `miss` is what a mismatch goes on with. -/
def tryEach (attempt : Bytes → Bool → Bool) : Bytes → Bool
  | [] => attempt [] false
  | b :: input => attempt (b :: input) (tryEach attempt input)

/-- Whether the parts match the whole input.  A mismatch goes back to the last `**`, if no `*` was
    begun since; a `*` that does not match ends the attempt. -/
def matchParts : List Part → Bytes → Bool → Bool
  | [], input, miss => input.isEmpty || miss
  | .lit s :: parts, input, miss =>
    if s.isPrefixOf input then matchParts parts (input.drop s.length) miss else miss
  | .anySegment :: parts, input, _ =>
    -- at least one byte, and no slash
    (List.range (input.takeWhile (· != 0x2f)).length).any fun n =>
      matchParts parts (input.drop (n + 1)) false
  | .anyChars :: parts, input, _ => tryEach (matchParts parts) input

/-- `Glob::new` and `Glob::matches`. -/
def globMatches (pattern : String) : Glob := fun input =>
  matchParts (globFrom [] (utf8 pattern)) (utf8 input) false

example : globMatches "refs/heads/*" "refs/heads/main" = true := by decide +kernel

example : globMatches "refs/heads/*" "refs/heads/feature/x" = false := by decide +kernel

example : globMatches "src/**/lib.rs" "src/a/b/c/lib.rs" = true := by decide +kernel

end Alt.Server
