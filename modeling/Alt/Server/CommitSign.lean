import Alt.Repo.Objects
import Alt.Server.Replies

namespace Alt.Server

open Alt.Library Alt.Repo

/-!
# Signed commits (`alt-cli/src/commit_sign.rs`, the check in `altd_server.rs`)

A signed commit carries the header line `alt-sig <principal> <signature>`; the signature is
over the commit without that line (`extractAltSig`).  Keys and signatures are ed25519 ones
in a text form (`Signing`).

`requireSignedCommitsBlock` is the server's check of the commits a pack brought: it stops at
the first one that is not signed by a trusted principal, and fails on one whose header line
it cannot read.
-/

/-- Keys and signatures. -/
structure Signing where
  Key : Type
  Sig : Type
  sigFromText : String → Except String Sig
  verify : Key → Bytes → Sig → Except String Unit

/-- Failure to read a commit's `alt-sig` header. -/
inductive AltSigError
  | notACommit
  | malformed
  deriving DecidableEq

/-- What an `alt-sig` header claims: who signed, with what, and which bytes. -/
structure AltSig (S : Signing) where
  principal : String
  sig : S.Sig
  canonical : Bytes

/-- The place of the newline that is the first blank line. -/
def findSeparator : Bytes → Option Nat
  | a :: b :: rest =>
    if a = 10 ∧ b = 10 then some 1 else (findSeparator (b :: rest)).map (· + 1)
  | _ => none

/-- The lines of a block, each with its newline. -/
def linesOf : Bytes → List Bytes
  | [] => []
  | b :: rest =>
    if b = 10 then [b] :: linesOf rest
    else
      match linesOf rest with
      | [] => [[b]]
      | line :: lines => (b :: line) :: lines

/-- The first line that is an `alt-sig` header, with what stands before and behind it. -/
def locateAltSigLine : List Bytes → Option (Bytes × Bytes × Bytes)
  | [] => none
  | line :: lines =>
    if (utf8 "alt-sig ").isPrefixOf line then some ([], line, lines.flatten)
    else (locateAltSigLine lines).map fun (before, found, behind) => (line ++ before, found, behind)

/-- Reads what stands behind `alt-sig ` in a header line. -/
def parseAltSig (S : Signing) (rest : Bytes) : Except AltSigError (String × S.Sig) :=
  match splitFirst 0x20 rest with
  | none => .error .malformed
  | some (principalBytes, sigTextBytes) =>
    match fromUtf8 principalBytes, fromUtf8 sigTextBytes with
    | some principal, some sigText =>
      match S.sigFromText sigText with
      | .error _ => .error .malformed
      | .ok sig => .ok (principal, sig)
    | _, _ => .error .malformed

/-- Finds and reads the `alt-sig` header of a commit; `none` when it has none. -/
def extractAltSig (S : Signing) (bytes : Bytes) : Except AltSigError (Option (AltSig S)) :=
  match findSeparator bytes with
  | none => .error .notACommit
  | some separator =>
    match locateAltSigLine (linesOf (bytes.take separator)) with
    | none => .ok none
    | some (before, found, behind) =>
      let line := if found.getLast? = some 10 then found.dropLast else found
      match line.dropPrefix? (utf8 "alt-sig ") with
      | none => .error .malformed
      | some rest =>
        match parseAltSig S rest with
        | .error e => .error e
        | .ok (principal, sig) =>
          .ok (some ⟨principal, sig, before ++ behind ++ bytes.drop separator⟩)

/-! ### The server's check -/

variable {S : Signing}

/-- The key a principal is trusted with. -/
def trustedKey (trust : List (String × S.Key)) (principal : String) : Option S.Key :=
  (trust.find? fun entry => entry.1 = principal).map (·.2)

/-- What is wrong with one new commit. -/
def commitFault (trust : List (String × S.Key)) (objects : Objects) (oid : ObjectId) :
    Except AltSigError (Option CommitFault) :=
  match objects oid with
  | none => .ok (some (.missing oid))
  | some raw =>
    match extractAltSig S raw.data with
    | .error e => .error e
    | .ok none => .ok (some (.unsigned oid))
    | .ok (some parsed) =>
      match trustedKey trust parsed.principal with
      | none => .ok (some (.untrusted oid parsed.principal))
      | some key =>
        match S.verify key parsed.canonical parsed.sig with
        | .error _ => .ok (some (.badSig oid parsed.principal))
        | .ok () => .ok none

/-- What is wrong with the first new commit that does not pass. -/
def requireSignedCommitsBlock (trust : List (String × S.Key)) (objects : Objects) :
    List ObjectId → Except AltSigError (Option CommitFault)
  | [] => .ok none
  | oid :: newCommits =>
    match commitFault trust objects oid with
    | .error e => .error e
    | .ok (some fault) => .ok (some fault)
    | .ok none => requireSignedCommitsBlock trust objects newCommits

/-- The stored commit carries a signature that verifies against a trusted key. -/
def Verified (trust : List (String × S.Key)) (objects : Objects) (oid : ObjectId) : Prop :=
  ∃ raw parsed key, objects oid = some raw ∧ extractAltSig S raw.data = .ok (some parsed) ∧
    trustedKey trust parsed.principal = some key ∧
    S.verify key parsed.canonical parsed.sig = .ok ()

theorem commitFault_eq_none {trust : List (String × S.Key)} {objects : Objects}
    {oid : ObjectId} : commitFault trust objects oid = .ok none ↔ Verified trust objects oid := by
  constructor
  · intro h
    rw [commitFault] at h
    split at h
    · cases h
    · rename_i raw hraw
      split at h
      · cases h
      · cases h
      · rename_i parsed hparsed
        split at h
        · cases h
        · rename_i key hkey
          split at h
          · cases h
          · rename_i hverify
            exact ⟨raw, parsed, key, hraw, hparsed, hkey, hverify⟩
  · rintro ⟨raw, parsed, key, hraw, hparsed, hkey, hverify⟩
    simp only [commitFault, hraw, hparsed, hkey, hverify]

/-- The check passes when every new commit is signed by a trusted principal. -/
theorem requireSignedCommitsBlock_eq_none {trust : List (String × S.Key)} {objects : Objects}
    {newCommits : List ObjectId} :
    requireSignedCommitsBlock trust objects newCommits = .ok none ↔
      ∀ oid ∈ newCommits, Verified trust objects oid := by
  induction newCommits with
  | nil => simp [requireSignedCommitsBlock]
  | cons oid newCommits ih =>
    rw [List.forall_mem_cons, ← ih, ← commitFault_eq_none, requireSignedCommitsBlock]
    split
    · rename_i e h
      simp [h]
    · rename_i fault h
      simp [h]
    · rename_i h
      simp [h]

end Alt.Server
