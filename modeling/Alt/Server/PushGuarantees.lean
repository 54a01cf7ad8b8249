import Alt.Server.ReceivePack

namespace Alt.Server

open Alt.Library Alt.Odb Alt.Refs Alt.Repo Alt.Wire

/-!
# What pushes keep

Three laws over runs of pushes, each with the condition under which the handler keeps it:

* `refs_stored` — refs point at stored objects.  The handler does not look: a ref dangles
  exactly when an accepted push pointed it at an id that nobody had sent;
* `signed_commits` — under `require-signed-commits`, what an accepted push newly reaches is
  signed.  The check looks at the commits of the pack, so it misses what an earlier push
  left in the store (`unsigned_push`);
* `fast_forward` — under `forbid-force`, branches move forward only.  Nothing on this path
  reads that capability (`forced_push`).
-/

variable {S : Signing} {P : Prims}

/-! ### Runs of pushes -/

/-- A signature scheme in which every signature reads and verifies. -/
def laxSigning : Signing := ⟨Unit, Unit, fun _ => .ok (), fun _ _ _ => .ok ()⟩

/-- An empty repository whose policy gives everybody `caps`. -/
def emptyStore (caps : Capabilities) : Store laxSigning :=
  ⟨fun _ => none, ∅, ⟨[⟨fun _ => true, caps⟩]⟩, [("alice", ())], []⟩

/-- The log takes the op, the flush succeeds, a rewind goes through. -/
def smooth : Conditions := ⟨.ok (), .ok (), fun _ => false⟩

/-- A commit whose `alt-sig` header line is `line`. -/
def commitData (line : String) : Bytes :=
  utf8 ("author a <a> 0 +0000\ncommitter a <a> 0 +0000\n" ++ line ++ "\n\nhi\n")

def commitId (line : String) : ObjectId :=
  ObjectId.hashObject Prims.toy .sha1 .commit (commitData line)

/-- A push of that commit alone, with these commands. -/
def pushCommit (line : String) (updates : List RefUpdate) : Request × Conditions :=
  (⟨none, ⟨updates, []⟩, .body (some [.ok ⟨commitId line, .commit, commitData line⟩])⟩, smooth)

/-- A push of commands alone. -/
def pushRefs (updates : List RefUpdate) : Request × Conditions :=
  (⟨none, ⟨updates, []⟩, .empty⟩, smooth)

/-- The commands that create and delete `main` at that commit. -/
def createMain (line : String) : RefUpdate := ⟨none, some (commitId line), "refs/heads/main"⟩

def deleteMain (line : String) : RefUpdate := ⟨some (commitId line), none, "refs/heads/main"⟩

/-- What a run of pushes leads to. -/
def pushAll (caps : Capabilities) (requests : List (Request × Conditions)) : Served laxSigning :=
  requests.foldl (fun s a => (servePush Prims.toy s a).getD s) ⟨emptyStore caps, []⟩

theorem reachable_pushAll (caps : Capabilities) (requests : List (Request × Conditions)) :
    (served Prims.toy (emptyStore caps)).Reachable (pushAll caps requests) := by
  have hrun : ∀ s : Served laxSigning, (served Prims.toy (emptyStore caps)).run s requests
      = some (requests.foldl (fun s a => (servePush Prims.toy s a).getD s) s) := by
    induction requests with
    | nil => exact fun _ => rfl
    | cons a requests ih =>
      intro s
      rw [System.run, List.foldl_cons, ← ih]
      rfl
  exact System.reachable_of_run (hrun _)

theorem reachableIf_pushAll {caps : Capabilities}
    {G : Served laxSigning → Request × Conditions → Prop} {a : Request × Conditions}
    (h : G ⟨emptyStore caps, []⟩ a) :
    (served Prims.toy (emptyStore caps)).ReachableIf G (pushAll caps [a]) :=
  .step .init h rfl

/-! ### Refs point at stored objects -/

/-- Nothing is stored, and no ref names an object. -/
structure Store.Empty (s : Store S) : Prop where
  objects : ∀ id, s.objects id = none
  refs : ∀ (name : String) id, s.refs[name]? ≠ some (RefTarget.oid id)

variable {s s' : Store S} {req : Request} {on : Conditions}

theorem Accepted.within (h : Accepted P s req on s') : Within s.objects s'.objects := by
  rw [h.objects]
  exact within_ingest P s.objects req.pack

/-- A stored commit that some ref reaches. -/
def RefReaches (objects : Objects) (refs : RefMap) (c : ObjectId) : Prop :=
  ∃ (name : String) (id : ObjectId), refs[name]? = some (RefTarget.oid id) ∧ ReachesCommit objects id c

/-- A commit that refs reach after the push and did not reach before it. -/
def Push.NewlyReaches (push : Push S) (c : ObjectId) : Prop :=
  RefReaches push.after.objects push.after.refs c ∧
    ¬RefReaches push.before.objects push.before.refs c

/-- What `require-signed-commits` promises of a push. -/
def Push.Signed (push : Push S) : Prop :=
  (push.before.policy.lookup push.principal).requireSignedCommits = true →
    ∀ c, push.NewlyReaches c → Verified push.before.trust push.after.objects c

/-- The commits of a request's pack. -/
def packCommits (P : Prims) (s : Store S) (req : Request) : List ObjectId :=
  match (ingest P s.objects req.pack).2 with
  | .ok newCommits => newCommits
  | .error _ => []

/-- Where the updates of a request put the refs. -/
def movedRefs (s : Store S) (req : Request) : RefMap :=
  (req.head.updates.map changeOf).foldl applyChange s.refs

/-- What the updates newly reach from outside the request's own pack is signed already. -/
def SignedOutside (P : Prims) (s : Store S) (req : Request) : Prop :=
  (s.policy.lookup (principalOf s req)).requireSignedCommits = true →
    ∀ c, RefReaches (ingested P s req) (movedRefs s req) c → ¬RefReaches s.objects s.refs c →
      c ∉ packCommits P s req → Verified s.trust (ingested P s req) c

/-- An accepted push is signed exactly when what it reaches outside its pack is. -/
theorem Accepted.signed_iff (h : Accepted P s req on s') :
    Push.Signed ⟨principalOf s req, s, s'⟩ ↔ SignedOutside P s req := by
  have hrefs : s'.refs = movedRefs s req := (commitRefUpdates_eq_ok h.refs).2
  have hpack : (s.policy.lookup (principalOf s req)).requireSignedCommits = true →
      ∀ c ∈ packCommits P s req, Verified s.trust s'.objects c := by
    intro hreq c hc
    obtain ⟨newCommits, hing, hblock⟩ := h.checked
    rw [packCommits, hing] at hc
    rw [commitBlock, if_pos hreq] at hblock
    exact requireSignedCommitsBlock_eq_none.mp hblock c hc
  rw [Push.Signed, SignedOutside, ← hrefs, ← h.objects]
  constructor
  · intro hsigned hreq c hreach hnot _
    exact hsigned hreq c ⟨hreach, hnot⟩
  · intro houtside hreq c hnew
    by_cases hc : c ∈ packCommits P s req
    · exact hpack hreq c hc
    · exact houtside hreq c hnew.1 hnew.2 hc

/-- **Signed commits.** In every run whose requests by principals under
    `require-signed-commits` newly reach nothing unsigned outside their own pack, every
    accepted push is signed; and no other accepted push is. -/
theorem signed_commits {store : Store S} :
    (∀ s, (served P store).ReachableIf (fun s a => SignedOutside P s.store a.1) s →
      ∀ push ∈ s.pushes, push.Signed) ∧
    ∀ s req on s', Accepted P s req on s' →
      (Push.Signed (S := S) ⟨principalOf s req, s, s'⟩ ↔ SignedOutside P s req) :=
  ⟨fun _ hs => pushes_of_run (fun _ _ _ hg hacc _ _ => hacc.signed_iff.mpr hg) hs,
    fun _ _ _ _ hacc => hacc.signed_iff⟩

/-- The policy under which commits must be signed. -/
def signedOnly : Capabilities := { Capabilities.full with requireSignedCommits := true }

/-- A push of a signed commit is signed. -/
theorem signed_commits_push : ∀ push ∈ (pushAll signedOnly
    [pushCommit "alt-sig alice x" [createMain "alt-sig alice x"]]).pushes, push.Signed := by
  refine (@signed_commits _ Prims.toy (emptyStore signedOnly)).1 _
    (reachableIf_pushAll ?_)
  rintro - c ⟨name, id, hname, hreach, -⟩ - hc
  refine absurd ?_ hc
  have hid : id = commitId "alt-sig alice x" := by
    rw [movedRefs, getElem?_foldl_changeOf, pushCommit] at hname
    cases hlast : lastUpdate [createMain "alt-sig alice x"] name with
    | none => simp [hlast, emptyStore] at hname
    | some u =>
      obtain ⟨hu, -⟩ := lastUpdate_eq_some hlast
      rw [hlast, List.mem_singleton.mp hu] at hname
      simpa [createMain] using hname.symm
  have hlinks : ∀ object, ingested Prims.toy (emptyStore signedOnly)
      (pushCommit "alt-sig alice x" [createMain "alt-sig alice x"]).1
        (commitId "alt-sig alice x") = some object → linksOf object = [] := by
    have hstored : ingested Prims.toy (emptyStore signedOnly)
        (pushCommit "alt-sig alice x" [createMain "alt-sig alice x"]).1
          (commitId "alt-sig alice x") = some ⟨.commit, commitData "alt-sig alice x"⟩ := by
      decide +kernel
    intro object hobject
    rw [hstored, Option.some.injEq] at hobject
    subst hobject
    decide +kernel
  rw [hid] at hreach
  rcases Relation.ReflTransGen.cases_head hreach with rfl | ⟨next, ⟨object, hobject, hnext⟩, -⟩
  · decide +kernel
  · rw [hlinks object hobject] at hnext
    cases hnext

/-- **A commit that arrived with a rejected push.** A first push brings a commit whose
    `alt-sig` line cannot be read: the handler fails and leaves it in the store.  A second
    push points a branch at it, and is accepted. -/
theorem unsigned_push : ∃ s, (served Prims.toy (emptyStore signedOnly)).Reachable s ∧
    ∃ push ∈ s.pushes, ¬push.Signed := by
  refine ⟨_, reachable_pushAll signedOnly
    [pushCommit "alt-sig alice" [createMain "alt-sig alice"],
      pushRefs [createMain "alt-sig alice"]], ?_⟩
  have hpush : ∃ push ∈ (pushAll signedOnly [pushCommit "alt-sig alice" [createMain "alt-sig alice"],
      pushRefs [createMain "alt-sig alice"]]).pushes,
      (push.before.policy.lookup push.principal).requireSignedCommits = true ∧
        push.before.refs.isEmpty = true ∧
        push.after.refs["refs/heads/main"]? = some (.oid (commitId "alt-sig alice")) ∧
        push.after.objects (commitId "alt-sig alice")
          = some ⟨.commit, commitData "alt-sig alice"⟩ := by
    decide +kernel
  obtain ⟨push, hmem, hreq, hbefore, href, hobject⟩ := hpush
  refine ⟨push, hmem, fun hsigned => ?_⟩
  have hempty : push.before.refs = ∅ := Std.ExtTreeMap.isEmpty_iff.mp hbefore
  obtain ⟨raw, parsed, key, hraw, hparsed, -⟩ := hsigned hreq (commitId "alt-sig alice")
    ⟨⟨_, _, href, .refl, ⟨_, hobject⟩⟩, fun ⟨name, id, hname, _⟩ => by simp [hempty] at hname⟩
  rw [hobject, Option.some.injEq] at hraw
  subst hraw
  have hmalformed : (extractAltSig laxSigning (commitData "alt-sig alice")).isOk = false := by
    decide +kernel
  rw [hparsed] at hmalformed
  cases hmalformed

/-! ### Branches move forward -/

def IsBranch (name : String) : Prop := "refs/heads/".toList <+: name.toList

instance (name : String) : Decidable (IsBranch name) := inferInstanceAs (Decidable (_ <+: _))

/-- What `forbid-force` promises of a push: a branch that was there is there, at a descendant
    of its old commit. -/
def Push.Forward (push : Push S) : Prop :=
  (push.before.policy.lookup push.principal).forbidForce = true →
    ∀ name, IsBranch name → ∀ old, push.before.refs[name]? = some (RefTarget.oid old) →
      ∃ new, push.after.refs[name]? = some (RefTarget.oid new) ∧ Descends push.after.objects new old

/-- The last command of a request on an existing branch names a descendant of its commit. -/
def FastForward (P : Prims) (s : Store S) (req : Request) : Prop :=
  (s.policy.lookup (principalOf s req)).forbidForce = true →
    ∀ name, IsBranch name → ∀ old, s.refs[name]? = some (RefTarget.oid old) →
      ∀ u, lastUpdate req.head.updates name = some u →
        ∃ new, u.new = some new ∧ Descends (ingested P s req) new old

/-- An accepted push moves branches forward exactly when its commands do. -/
theorem Accepted.forward_iff (h : Accepted P s req on s') :
    Push.Forward ⟨principalOf s req, s, s'⟩ ↔ FastForward P s req := by
  rw [Push.Forward, FastForward, ← h.objects]
  constructor
  · intro hforward hforbid name hbranch old hold u hlast
    obtain ⟨new, hnew, hdescends⟩ := hforward hforbid name hbranch old hold
    refine ⟨new, ?_, hdescends⟩
    rw [h.getElem? name, hlast] at hnew
    simpa using hnew
  · intro hff hforbid name hbranch old hold
    cases hlast : lastUpdate req.head.updates name with
    | none =>
      refine ⟨old, ?_, .refl⟩
      rw [h.getElem? name, hlast]
      exact hold
    | some u =>
      obtain ⟨new, hnew, hdescends⟩ := hff hforbid name hbranch old hold u hlast
      refine ⟨new, ?_, hdescends⟩
      rw [h.getElem? name, hlast]
      simp [hnew]

/-- **Fast-forward only.** In every run whose requests by principals under `forbid-force`
    fast-forward the branches they name, every accepted push moves branches forward; and no
    other accepted push does. -/
theorem fast_forward {store : Store S} :
    (∀ s, (served P store).ReachableIf (fun s a => FastForward P s.store a.1) s →
      ∀ push ∈ s.pushes, push.Forward) ∧
    ∀ s req on s', Accepted P s req on s' →
      (Push.Forward (S := S) ⟨principalOf s req, s, s'⟩ ↔ FastForward P s req) :=
  ⟨fun _ hs => pushes_of_run (fun _ _ _ hg hacc _ _ => hacc.forward_iff.mpr hg) hs,
    fun _ _ _ _ hacc => hacc.forward_iff⟩

/-- The policy that forbids forced updates. -/
def noForce : Capabilities := { Capabilities.full with forbidForce := true }

/-- A push that creates a branch moves branches forward. -/
theorem fast_forward_push : ∀ push ∈ (pushAll noForce
    [pushCommit "" [createMain ""]]).pushes, push.Forward := by
  refine (@fast_forward _ Prims.toy (emptyStore noForce)).1 _ (reachableIf_pushAll ?_)
  intro _ name _ old hold
  simp [emptyStore] at hold

/-- **A forced push.** A principal under `forbid-force` creates a branch and deletes it. -/
theorem forced_push : ∃ s, (served Prims.toy (emptyStore noForce)).Reachable s ∧
    ∃ push ∈ s.pushes, ¬push.Forward := by
  refine ⟨_, reachable_pushAll noForce
    [pushCommit "" [createMain ""], pushRefs [deleteMain ""]], ?_⟩
  have hpush : ∃ push ∈ (pushAll noForce
      [pushCommit "" [createMain ""], pushRefs [deleteMain ""]]).pushes,
      (push.before.policy.lookup push.principal).forbidForce = true ∧
        push.before.refs["refs/heads/main"]? = some (.oid (commitId "")) ∧
        push.after.refs["refs/heads/main"]? = none := by
    decide +kernel
  obtain ⟨push, hmem, hforbid, hbefore, hafter⟩ := hpush
  refine ⟨push, hmem, fun hforward => ?_⟩
  obtain ⟨new, hnew, -⟩ := hforward hforbid "refs/heads/main" (by decide +kernel) _ hbefore
  rw [hafter] at hnew
  cases hnew

end Alt.Server
