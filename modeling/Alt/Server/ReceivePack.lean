import Alt.Refs.Linear
import Alt.Server.CommitSign
import Alt.Server.Policy
import Alt.Wire.Frames

namespace Alt.Server

open Alt.Library Alt.Odb Alt.Refs Alt.Repo Alt.Wire List

/-!
# Serving a push (`handle_receive_pack` in `altd_server.rs`)

One request from its parsed head to its outcome: the signature gate, the ingest of the pack,
the check of its commits, the ref transaction, and the rewind of what was ingested when the
refs did not move.

* `receive` — the handler;
* `receive_cases` — all it can do: accept (`Accepted`), or leave the refs alone;
* `served` — a repository that serves one push after the other, and keeps a record of the
  accepted ones.

The ref store takes part as `commitRefs`, which is what a commit does on a handle at the head
of its log (`commitRefs_of_commitSpec`).
-/

variable {S : Signing}

/-- What a server keeps of one repository. -/
structure Store (S : Signing) where
  objects : Objects
  refs : RefMap
  policy : Policy
  trust : List (String × S.Key)
  nonces : List String

/-- An object of a pack, with the id the pack index gives it. -/
structure PackObject where
  oid : ObjectId
  kind : ObjectKind
  data : Bytes

/-- The body behind the head of a request: nothing, more than the cap, or a pack; what
    indexing gives of it are its objects in file order, each read or not. -/
inductive Pack
  | empty
  | tooLarge
  | body (prepared : Option (List (Except String PackObject)))

/-- A request to `git-receive-pack` whose head was parsed. -/
structure Request where
  authUser : Option String
  head : PushHead
  pack : Pack

/-- What the handler meets on the way: whether the op log takes the op, whether the group
    flush succeeds, and which ingested objects outlive the rewind.  A rewind that goes through
    leaves none; one that is skipped or fails leaves some. -/
structure Conditions where
  logged : Except RefError Unit
  durable : Except String Unit
  survives : ObjectId → Bool

/-! ### The push signature -/

/-- The value of the first capability `<name>=<value>`. -/
def capability (head : PushHead) (name : String) : Option String :=
  head.capabilities.findSome? (stripPrefix (name ++ "="))

/-- Checks a signature over a payload with a principal's key. -/
def checkSig (key : S.Key) (principalId : String) (payload : Bytes) (sig : S.Sig) : SigOutcome :=
  match S.verify key payload sig with
  | .ok () => .verified principalId
  | .error e => .badSignature e

/-- The signature check; an echoed nonce is used up. -/
def verifyPushSignature (s : Store S) (head : PushHead) : SigOutcome × List String :=
  match capability head "alt-principal", capability head "alt-sig" with
  | some principalId, some sigText =>
    match trustedKey s.trust principalId with
    | none => (.unknownPrincipal principalId, s.nonces)
    | some key =>
      match S.sigFromText sigText with
      | .error e => (.badSignature e, s.nonces)
      | .ok sig =>
        match capability head "alt-nonce" with
        | none =>
          (checkSig key principalId (canonicalPushPayload head.updates .sha1) sig, s.nonces)
        | some nonce =>
          if nonce ∉ s.nonces then
            (.badSignature
              "alt-nonce echoed in push not active on this server (replay or expired)", s.nonces)
          else
            (checkSig key principalId
              (canonicalPushPayloadWithNonce head.updates (some nonce) .sha1) sig,
              s.nonces.erase nonce)
  | _, _ => (.noSignature, s.nonces)

/-- The effective principal: who signed, else who logged in. -/
def pickPrincipal (outcome : SigOutcome) (authUser : Option String) : Principal :=
  match outcome with
  | .verified principalId => ⟨.human, principalId, none⟩
  | _ => ⟨.human, authUser.getD "anonymous", none⟩

/-- The principal a request is judged as. -/
def principalOf (s : Store S) (req : Request) : Principal :=
  pickPrincipal (verifyPushSignature s req.head).1 req.authUser

/-- The signature the policy asks for is not there. -/
def sigBlock (s : Store S) (req : Request) : Option SigOutcome :=
  match (verifyPushSignature s req.head).1 with
  | .verified _ => none
  | other => if (s.policy.lookup (principalOf s req)).requireSigned then some other else none

/-! ### The ingest -/

/-- Puts the objects of a pack one after the other, and lists the commits among them. -/
def applyPack (P : Prims) : List (Except String PackObject) → Objects →
    Objects × Except String (List ObjectId)
  | [], objects => (objects, .ok [])
  | .error e :: _, objects => (objects, .error ("index-pack: " ++ e))
  | .ok o :: order, objects =>
    match objects.put P o.oid o.kind o.data with
    | .error e => (objects, .error ("index-pack: " ++ e.message))
    | .ok objects =>
      let (objects, result) := applyPack P order objects
      (objects, result.map fun newCommits =>
        if o.kind = .commit then o.oid :: newCommits else newCommits)

/-- Takes in the pack of a request. -/
def ingest (P : Prims) (objects : Objects) : Pack → Objects × Except String (List ObjectId)
  | .empty | .tooLarge => (objects, .ok [])
  | .body none => (objects, .error "index-pack: failed to prepare pack")
  | .body (some order) => applyPack P order objects

/-- What a rewind to `pre` leaves of the objects `post`. -/
def rewound (survives : ObjectId → Bool) (pre post : Objects) : Objects := fun id =>
  match pre id with
  | some object => some object
  | none => if survives id then post id else none

/-! ### The ref transaction -/

/-- A commit at the head of the log: gate, validate, apply. -/
def commitRefs (policy : Option RefPolicy) (refs : RefMap) (changes : List RefChange) :
    Except RefError RefMap :=
  match policyVerdict policy refs changes with
  | .error e => .error e
  | .ok () => applyChanges refs changes false

def changeOf (u : RefUpdate) : RefChange := ⟨u.name, u.old.map .oid, u.new.map .oid⟩

/-- Read-only and the ref namespace; deny wins over allow. -/
def refPolicy (caps : Capabilities) : RefPolicy where
  readOnly := caps.readOnly
  isBranchAllowed :=
    if caps.branchAllow = [] ∧ caps.branchDeny = [] then none
    else some fun name =>
      !(caps.branchDeny.any fun g => g name) &&
        (caps.branchAllow.isEmpty || caps.branchAllow.any fun g => g name)
  stateCheck := none

/-- Applies the updates as one ref transaction; none of them is no transaction. -/
def commitRefUpdates (logged : Except RefError Unit) (s : Store S) (updates : List RefUpdate)
    (principal : Principal) : Except RefError RefMap :=
  if updates = [] then .ok s.refs
  else
    match commitRefs (some (refPolicy (s.policy.lookup principal))) s.refs
      (updates.map changeOf) with
    | .error e => .error e
    | .ok refs => logged.map fun _ => refs

/-! ### The handler -/

/-- How a request was answered. -/
inductive Handled
  | tooLarge
  | failed (e : AltSigError)
  | reported (outcome : PushOutcome)

/-- The signed-commit gate, when the policy asks for it. -/
def commitBlock (s : Store S) (objects : Objects) (principal : Principal)
    (newCommits : List ObjectId) : Except AltSigError (Option CommitFault) :=
  if (s.policy.lookup principal).requireSignedCommits then
    requireSignedCommitsBlock s.trust objects newCommits
  else .ok none

/-- A request, from its head to the reply. -/
def receive (P : Prims) (s : Store S) (req : Request) (on : Conditions) : Handled × Store S :=
  let principal := principalOf s req
  let s' := { s with nonces := (verifyPushSignature s req.head).2 }
  match req.pack, sigBlock s req with
  | .tooLarge, _ => (.tooLarge, s')
  | _, some other => (.reported (.sigBlocked other), s')
  | pack, none =>
    match ingest P s.objects pack with
    | (objects, .error reason) =>
      (.reported (.unpackFailed reason),
        { s' with objects := rewound on.survives s.objects objects })
    | (objects, .ok newCommits) =>
      match commitBlock s objects principal newCommits with
      -- the handler returns here, before the rewind
      | .error e => (.failed e, { s' with objects })
      | .ok (some fault) =>
        (.reported (.commitBlocked fault),
          { s' with objects := rewound on.survives s.objects objects })
      | .ok none =>
        match commitRefUpdates on.logged s req.head.updates principal with
        | .error e =>
          (.reported (.refused e), { s' with objects := rewound on.survives s.objects objects })
        | .ok refs =>
          let outcome := match on.durable with
            | .ok () => .committed
            | .error e => .notDurable e
          (.reported outcome, { s' with objects, refs })

/-! ### What a request does -/

theorem within_rewound (survives : ObjectId → Bool) (pre post : Objects) :
    Within pre (rewound survives pre post) := by
  intro id object hid
  rw [rewound, hid]

theorem rewound_within (survives : ObjectId → Bool) {pre post : Objects} (h : Within pre post) :
    Within (rewound survives pre post) post := by
  intro id object hid
  rw [rewound] at hid
  split at hid
  · rename_i old hold
    cases hid
    exact h hold
  · split at hid
    · exact hid
    · cases hid

theorem within_applyPack (P : Prims) (order : List (Except String PackObject))
    (objects : Objects) : Within objects (applyPack P order objects).1 := by
  induction order generalizing objects with
  | nil => exact .refl objects
  | cons o order ih =>
    rw [applyPack.eq_def]
    cases o with
    | error e => exact .refl objects
    | ok o =>
      simp only
      split
      · exact .refl objects
      · rename_i objects' hput
        exact (Objects.within_put hput).trans (ih objects')

/-- An ingest only adds objects. -/
theorem within_ingest (P : Prims) (objects : Objects) (pack : Pack) :
    Within objects (ingest P objects pack).1 := by
  unfold ingest
  split
  · exact .refl objects
  · exact .refl objects
  · exact .refl objects
  · exact within_applyPack P _ objects

/-- The objects a request finds stored once its pack is in. -/
def ingested (P : Prims) (s : Store S) (req : Request) : Objects :=
  (ingest P s.objects req.pack).1

/-- A request whose ref updates were made: the pack is in, its commits passed, and the
    transaction went through. -/
structure Accepted (P : Prims) (s : Store S) (req : Request) (on : Conditions) (s' : Store S) :
    Prop where
  objects : s'.objects = ingested P s req
  checked : ∃ newCommits, (ingest P s.objects req.pack).2 = .ok newCommits ∧
    commitBlock s s'.objects (principalOf s req) newCommits = .ok none
  refs : commitRefUpdates on.logged s req.head.updates (principalOf s req) = .ok s'.refs

/-- Whether a reply says that the refs were updated; a failed flush comes after that. -/
def Handled.moved : Handled → Bool
  | .reported .committed | .reported (.notDurable _) => true
  | _ => false

/-- **All a request can do.** It is accepted, or the refs stay and nothing but objects of its
    pack comes in.  Policy and trust stay in any case. -/
theorem receive_cases (P : Prims) (s : Store S) (req : Request) (on : Conditions)
    {h : Handled} {s' : Store S} (hrec : receive P s req on = (h, s')) :
    s'.policy = s.policy ∧ s'.trust = s.trust ∧
      ((h.moved = true ∧ Accepted P s req on s') ∨
        (h.moved = false ∧ s'.refs = s.refs ∧ Within s.objects s'.objects ∧
          Within s'.objects (ingested P s req))) := by
  have hin : Within s.objects (ingested P s req) := within_ingest P s.objects req.pack
  have hkept : ∀ objects, ingested P s req = objects →
      Within s.objects (rewound on.survives s.objects objects) ∧
        Within (rewound on.survives s.objects objects) (ingested P s req) := by
    rintro objects rfl
    exact ⟨within_rewound _ _ _, rewound_within _ hin⟩
  rw [receive] at hrec
  split at hrec
  · cases hrec
    exact ⟨rfl, rfl, .inr ⟨rfl, rfl, .refl _, hin⟩⟩
  · cases hrec
    exact ⟨rfl, rfl, .inr ⟨rfl, rfl, .refl _, hin⟩⟩
  · rename_i pack _ hpack _
    split at hrec
    · rename_i objects reason hing
      cases hrec
      exact ⟨rfl, rfl, .inr ⟨rfl, rfl, hkept _ (by rw [ingested, hing])⟩⟩
    · rename_i objects newCommits hing
      have hobjects : ingested P s req = objects := by rw [ingested, hing]
      split at hrec
      · cases hrec
        exact ⟨rfl, rfl, .inr ⟨rfl, rfl, hobjects ▸ hin, hobjects ▸ .refl _⟩⟩
      · cases hrec
        exact ⟨rfl, rfl, .inr ⟨rfl, rfl, hkept _ hobjects⟩⟩
      · rename_i hblock
        split at hrec
        · cases hrec
          exact ⟨rfl, rfl, .inr ⟨rfl, rfl, hkept _ hobjects⟩⟩
        · rename_i refs hrefs
          have hacc : Accepted P s req on
              { s with objects, refs, nonces := (verifyPushSignature s req.head).2 } :=
            ⟨hobjects.symm, ⟨newCommits, by rw [hing], hblock⟩, hrefs⟩
          cases hrec
          refine ⟨rfl, rfl, .inl ⟨?_, hacc⟩⟩
          split <;> rfl

/-! ### Runs -/

/-- An accepted push: who it was judged as, and the repository before and after it. -/
structure Push (S : Signing) where
  principal : Principal
  before : Store S
  after : Store S

/-- A served repository, with the pushes it accepted so far. -/
structure Served (S : Signing) where
  store : Store S
  pushes : List (Push S)

def servePush (P : Prims) (s : Served S) (a : Request × Conditions) : Option (Served S) :=
  let (h, store) := receive P s.store a.1 a.2
  some ⟨store,
    if h.moved then s.pushes ++ [⟨principalOf s.store a.1, s.store, store⟩] else s.pushes⟩

/-- A repository that serves pushes, starting as `store`. -/
def served (P : Prims) (store : Store S) : System (Served S) (Request × Conditions) where
  init := ⟨store, []⟩
  step := servePush P

/-- The step rule: a request is accepted and noted, or the refs stay. -/
theorem servePush_cases {P : Prims} {s s' : Served S} {a : Request × Conditions}
    (h : servePush P s a = some s') :
    s'.store.policy = s.store.policy ∧ s'.store.trust = s.store.trust ∧
      ((Accepted P s.store a.1 a.2 s'.store ∧
          s'.pushes = s.pushes ++ [⟨principalOf s.store a.1, s.store, s'.store⟩]) ∨
        (s'.pushes = s.pushes ∧ s'.store.refs = s.store.refs ∧
          Within s.store.objects s'.store.objects ∧
          Within s'.store.objects (ingested P s.store a.1))) := by
  have hrec : receive P s.store a.1 a.2
      = ((receive P s.store a.1 a.2).1, (receive P s.store a.1 a.2).2) := rfl
  obtain ⟨hpolicy, htrust, hcases⟩ := receive_cases P s.store a.1 a.2 hrec
  simp only [servePush, Option.some.injEq] at h
  subst h
  refine ⟨hpolicy, htrust, hcases.imp ?_ ?_⟩
  · rintro ⟨hmoved, hacc⟩
    exact ⟨hacc, by simp only [hmoved, if_true]⟩
  · rintro ⟨hmoved, hrefs, hgrow, hwithin⟩
    exact ⟨by simp [hmoved], hrefs, hgrow, hwithin⟩

/-- **Pushes of a run.** When every request that meets the condition only makes pushes that
    are right, all pushes of a run of such requests are. -/
theorem pushes_of_run {P : Prims} {store : Store S}
    {G : Served S → Request × Conditions → Prop} {Right : Push S → Prop}
    (hstep : ∀ s a store', G s a → Accepted P s.store a.1 a.2 store' →
      store'.policy = s.store.policy → store'.trust = s.store.trust →
      Right ⟨principalOf s.store a.1, s.store, store'⟩)
    {s : Served S} (hs : (served P store).ReachableIf G s) : ∀ push ∈ s.pushes, Right push := by
  refine System.invariant_if (S := served P store) (I := fun s => ∀ push ∈ s.pushes, Right push)
    (by intro push hpush; cases hpush) ?_ s hs
  intro s a s' hi hg hst push hpush
  obtain ⟨hpolicy, htrust, ⟨hacc, hpushes⟩ | ⟨hpushes, -⟩⟩ := servePush_cases hst
  · rw [hpushes, mem_append, mem_singleton] at hpush
    rcases hpush with hold | rfl
    · exact hi push hold
    · exact hstep s a _ hg hacc hpolicy htrust
  · rw [hpushes] at hpush
    exact hi push hpush

/-! ### The ref transaction -/

theorem commitRefs_eq_ok {policy : Option RefPolicy} {refs refs' : RefMap}
    {changes : List RefChange} :
    commitRefs policy refs changes = .ok refs' ↔
      Accepts policy changes refs ∧ refs' = changes.foldl applyChange refs := by
  rw [commitRefs]
  constructor
  · intro h
    split at h
    · cases h
    · rename_i hpolicy
      exact ⟨⟨hpolicy, old_of_applyChanges h⟩, applyChanges_ok h⟩
  · rintro ⟨⟨hpolicy, hold⟩, rfl⟩
    simp only [hpolicy, applyChanges_eq_ok hold]

/-- The last update of a ref in a list of updates. -/
def lastUpdate (updates : List RefUpdate) (name : String) : Option RefUpdate :=
  updates.reverse.find? fun u => u.name = name

/-- What a transaction leaves at a name is what its last change says. -/
theorem getElem?_foldl_changeOf (updates : List RefUpdate) (refs : RefMap) (name : String) :
    ((updates.map changeOf).foldl applyChange refs)[name]?
      = match lastUpdate updates name with
        | some u => u.new.map .oid
        | none => refs[name]? := by
  induction updates using List.reverseRecOn with
  | nil => rfl
  | append_singleton updates u ih =>
    rw [map_append, foldl_append, lastUpdate, reverse_append]
    simp only [map_cons, map_nil, foldl_cons, foldl_nil,
      reverse_cons, reverse_nil, nil_append, cons_append, find?_cons]
    by_cases hname : u.name = name
    · simp only [hname, decide_true]
      cases hnew : u.new with
      | none => simp [applyChange, changeOf, hnew, hname]
      | some new => simp [applyChange, changeOf, hnew, hname]
    · have hne : compare u.name name ≠ .eq := by simpa using hname
      simp only [hname, decide_false]
      rw [← lastUpdate, ← ih]
      cases hnew : u.new with
      | none => simp [applyChange, changeOf, hnew, Std.ExtTreeMap.getElem?_erase, hname]
      | some new => simp [applyChange, changeOf, hnew, Std.ExtTreeMap.getElem?_insert, hname]

theorem lastUpdate_eq_some {updates : List RefUpdate} {name : String} {u : RefUpdate}
    (h : lastUpdate updates name = some u) : u ∈ updates ∧ u.name = name :=
  ⟨mem_reverse.mp (mem_of_find?_eq_some h), by simpa using find?_some h⟩

/-- Updates that go through found the values they expected, and are all made. -/
theorem commitRefUpdates_eq_ok {logged : Except RefError Unit} {s : Store S}
    {updates : List RefUpdate} {principal : Principal} {refs : RefMap}
    (h : commitRefUpdates logged s updates principal = .ok refs) :
    (∀ u ∈ updates, s.refs[u.name]? = u.old.map .oid) ∧
      refs = (updates.map changeOf).foldl applyChange s.refs := by
  rw [commitRefUpdates] at h
  split at h
  · rename_i hnil
    cases h
    rw [hnil]
    exact ⟨by simp, rfl⟩
  · cases hcommit : commitRefs (some (refPolicy (s.policy.lookup principal))) s.refs
        (updates.map changeOf) with
    | error e => simp [hcommit] at h
    | ok refs' =>
      obtain ⟨⟨-, hold⟩, hfold⟩ := commitRefs_eq_ok.mp hcommit
      cases logged with
      | error e => simp [hcommit, Except.map] at h
      | ok _ =>
        simp only [hcommit, Except.map, Except.ok.injEq] at h
        exact ⟨fun u hu => hold _ (mem_map_of_mem hu), h ▸ hfold⟩

/-- What an accepted push leaves at a name. -/
theorem Accepted.getElem? {P : Prims} {s s' : Store S} {req : Request} {on : Conditions}
    (h : Accepted P s req on s') (name : String) :
    s'.refs[name]? = match lastUpdate req.head.updates name with
      | some u => u.new.map .oid
      | none => s.refs[name]? := by
  rw [(commitRefUpdates_eq_ok h.refs).2, getElem?_foldl_changeOf]

end Alt.Server
