import Alt.Library.Bytes
import Mathlib.Data.List.Infix

namespace Alt.Server

open Alt.Library List

/-!
# Request dispatch and the scope check (`alt-cli/src/bin/altd_server.rs`)

A scoped user's request is classified by `actionFromRequest` and checked against the user's
ACL; then `serve` picks the handler.  Both look at the method, the path suffix and the query,
each in its own way.

* `parseQuery` — the value of a key's first parameter, as the `info/refs` handler reads it;
* `actionFromRequest` — looks for `service=…` anywhere in the query;
* `Misread` — the requests they disagree on;
* `scope_check_iff` — exactly on these a push advertisement is taken for a read, and exactly
  with these a user who may only read gets at the receive-pack code.
-/

/-! ### Text -/

/-- `s.ends_with(t)`. -/
def endsWith (s t : String) : Bool := t.toList.isSuffixOf s.toList

/-- `s.contains(t)`. -/
def contains (s t : String) : Bool := decide (t.toList <:+: s.toList)

/-! ### Classifying a request -/

inductive Method
  | get | post | options | other
  deriving DecidableEq, Repr

/-- What kind of access a request needs. -/
inductive Action
  | read | write
  deriving DecidableEq, Repr

def actionFromRequest (method : Method) (path query : String) : Option Action :=
  if method = .get ∧ endsWith path "/info/refs" then
    if contains query "service=git-upload-pack" then some .read
    else if contains query "service=git-receive-pack" then some .write
    else none
  else if method = .post ∧ endsWith path "/git-upload-pack" then some .read
  else if method = .post ∧ endsWith path "/git-receive-pack" then some .write
  else none

/-- One entry of a user's permission table; `*` stands for every repository. -/
structure AclRule where
  repo : String
  canRead : Bool
  canWrite : Bool
  deriving DecidableEq

def aclAllows (acl : List AclRule) (repo : String) (action : Action) : Bool :=
  acl.any fun rule =>
    decide (rule.repo = "*" ∨ rule.repo = repo) &&
      match action with
      | .read => rule.canRead
      | .write => rule.canWrite

/-! ### Serving a request -/

/-- The value of a parameter, if it has this key. -/
def parameter (key : String) (chunk : List Char) : Option String :=
  match splitFirst '=' chunk with
  | some (k, v) => if k = key.toList then some (String.ofList v) else none
  | none => none

/-- The value of the first parameter with this key. -/
def parseQuery (query key : String) : Option String :=
  (query.toList.splitOn '&').findSome? (parameter key)

/-- What `check_auth` decided: a user, with an ACL if the user is scoped. -/
inductive AuthOutcome
  | allow (user : Option String) (acl : Option (List AclRule))
  | reject (reason : String)

/-- How a request ends; a handler stands for all it does. -/
inductive Reply
  | unauthorized (reason : String)
  | notFound
  | forbidden (action : Action) (repo : String)
  | tooLarge (advertised : Nat)
  | options (allow : Option String)
  | missingService
  | unknownService
  | fetchAdvert
  /-- The advertisement for a push; it carries a nonce where the repository can be written. -/
  | pushAdvert (nonce : Bool)
  | uploadPack
  | readOnly
  | receivePack (user : Option String)
  | methodNotAllowed (allow : String)
  deriving DecidableEq

/-- Is this the receive-pack code? -/
def Reply.isReceivePack : Reply → Bool
  | .pushAdvert _ => true
  | .receivePack _ => true
  | _ => false

def handleInfoRefs (writer : Bool) (query : String) : Reply :=
  match parseQuery query "service" with
  | none => .missingService
  | some service =>
    if service = "git-upload-pack" then .fetchAdvert
    else if service = "git-receive-pack" then .pushAdvert writer
    else .unknownService

/-- The methods an endpoint takes. -/
def endpointAllow (suffix : String) : Option String :=
  if endsWith suffix "/info/refs" then some "GET, OPTIONS"
  else if endsWith suffix "/git-upload-pack" ∨ endsWith suffix "/git-receive-pack" then
    some "POST, OPTIONS"
  else none

/-- The end of `dispatch`: pick the endpoint's handler. -/
def serve (writer : Bool) (user : Option String) (method : Method) (suffix query : String) :
    Reply :=
  if method = .options then .options (endpointAllow suffix)
  else
    match endpointAllow suffix with
    | none => .notFound
    | some allow =>
      if method = .get ∧ endsWith suffix "/info/refs" then handleInfoRefs writer query
      else if method = .post ∧ endsWith suffix "/git-upload-pack" then .uploadPack
      else if method = .post ∧ endsWith suffix "/git-receive-pack" then
        if writer then .receivePack user else .readOnly
      else .methodNotAllowed allow

/-- One repository, or a directory of them: which names are repositories, and whether they
    can be written. -/
inductive ServeMode
  | single (writer : Bool)
  | multi (repos : String → Option Bool)

/-- The repository a path names, the rest of the path, and the name. -/
def resolveRepo (mode : ServeMode) (path : String) : Option (Bool × String × String) :=
  match mode with
  | .single writer => some (writer, path, "*")
  | .multi repos =>
    let trimmed := path.toList.dropWhile (· = '/')
    let name := String.ofList (trimmed.takeWhile (· ≠ '/'))
    let rest := String.ofList (trimmed.dropWhile (· ≠ '/'))
    if name = "" ∨ contains name ".." ∨ contains name "\\" then none
    else (repos name).map fun writer => (writer, rest, name)

/-- The path and the query of a URL. -/
def splitUrl (url : String) : String × String :=
  match splitFirst '?' url.toList with
  | some (path, query) => (String.ofList path, String.ofList query)
  | none => (url, "")

/-- Handle a request.  `auth` is the verdict on its credentials, where there is a users file;
    `advertised` its `Content-Length`. -/
def dispatch (mode : ServeMode) (auth : Option AuthOutcome) (maxBody : Nat) (method : Method)
    (url : String) (advertised : Option Nat) : Reply :=
  let outcome := match mode with
    | .single _ => none
    | .multi _ => auth
  match outcome.getD (.allow none none) with
  | .reject reason => .unauthorized reason
  | .allow user scopedAcl =>
    let (path, query) := splitUrl url
    match resolveRepo mode path with
    | none => .notFound
    | some (writer, suffix, repo) =>
      let denied := match scopedAcl with
        | none => none
        | some acl => (actionFromRequest method suffix query).filter fun a => !aclAllows acl repo a
      match denied with
      | some action => .forbidden action repo
      | none =>
        match advertised.filter fun n => method = .post ∧ maxBody < n with
        | some n => .tooLarge n
        | none => serve writer user method suffix query

/-! ### Where the two readings part -/

/-- The first parameter of a query with the key `service` has this value. -/
def FirstService (query value : String) : Prop :=
  ∃ before after, query.toList.splitOn '&' = before ++ ("service=" ++ value).toList :: after ∧
    ∀ chunk ∈ before, ¬ "service=".toList <+: chunk

/-- A push advertisement is asked for, and the words of a fetch are somewhere in the query. -/
def Misread (method : Method) (suffix query : String) : Prop :=
  method = .get ∧ endsWith suffix "/info/refs" = true ∧ FirstService query "git-receive-pack" ∧
    contains query "service=git-upload-pack" = true

variable {chunk : List Char} {value : String}

theorem parameter_service :
    parameter "service" chunk = some value ↔ chunk = ("service=" ++ value).toList := by
  have hkey : "service=".toList = "service".toList ++ ['='] := by simp
  have hnot : '=' ∉ "service".toList := by simp
  rw [String.toList_append, hkey, append_assoc, singleton_append]
  constructor
  · intro h
    rw [parameter] at h
    split at h
    · rename_i k v hsplit
      obtain ⟨rfl, -⟩ := splitFirst_eq_some.mp hsplit
      split at h
      · rename_i hk
        cases h
        rw [hk, @String.toList_ofList v]
      · cases h
    · cases h
  · rintro rfl
    rw [parameter, splitFirst_append hnot]
    simp

theorem parameter_eq_none :
    parameter "service" chunk = none ↔ ¬ "service=".toList <+: chunk := by
  rw [Option.eq_none_iff_forall_ne_some]
  constructor
  · rintro hnone ⟨rest, rfl⟩
    refine hnone (String.ofList rest) (parameter_service.mpr ?_)
    rw [String.toList_append, @String.toList_ofList rest]
  · intro hnot value hvalue
    refine hnot ⟨value.toList, ?_⟩
    rw [parameter_service.mp hvalue, String.toList_append]

variable {query : String}

/-- The handler's service is the first one. -/
theorem parseQuery_eq_some :
    parseQuery query "service" = some value ↔ FirstService query value := by
  rw [parseQuery, findSome?_eq_some_iff]
  constructor
  · rintro ⟨before, chunk, after, hsplit, hvalue, hbefore⟩
    refine ⟨before, after, parameter_service.mp hvalue ▸ hsplit, fun c hc => ?_⟩
    exact parameter_eq_none.mp (hbefore c hc)
  · rintro ⟨before, after, hsplit, hbefore⟩
    exact ⟨before, _, after, hsplit, parameter_service.mpr rfl,
      fun c hc => parameter_eq_none.mpr (hbefore c hc)⟩

/-- A part of a split is a part of the text. -/
theorem infix_of_mem_splitOn {c : Char} {s : List Char} (h : chunk ∈ s.splitOn c) :
    chunk <:+: s := by
  have hjoin : ∀ chunks : List (List Char), chunk ∈ chunks → chunk <:+: [c].intercalate chunks := by
    intro chunks
    induction chunks with
    | nil => intro hc; cases hc
    | cons first rest ih =>
      intro hc
      cases rest with
      | nil => simpa using (mem_singleton.mp hc).symm ▸ infix_refl chunk
      | cons second rest =>
        rw [List.intercalate_cons_cons]
        rcases mem_cons.mp hc with rfl | hrest
        · exact ⟨[], _, by rw [nil_append, append_assoc]⟩
        · exact (ih hrest).trans (suffix_append _ _).isInfix
  have hinfix := hjoin _ h
  rwa [intercalate_splitOn] at hinfix

/-- Whoever asks for a push advertisement says so in the query. -/
theorem contains_of_firstService (h : FirstService query value) :
    contains query ("service=" ++ value) = true := by
  obtain ⟨before, after, hsplit, -⟩ := h
  rw [contains, decide_eq_true_eq]
  refine infix_of_mem_splitOn (c := '&') ?_
  rw [hsplit]
  exact mem_append_right _ mem_cons_self

variable {writer : Bool}

theorem handleInfoRefs_receivePack :
    (handleInfoRefs writer query).isReceivePack = true ↔ FirstService query "git-receive-pack" := by
  rw [← parseQuery_eq_some, handleInfoRefs]
  split
  · rename_i hnone
    simp [hnone, Reply.isReceivePack]
  · rename_i service hsome
    rw [hsome, Option.some.injEq]
    split_ifs with hfetch hpush
    · subst hfetch
      simp [Reply.isReceivePack]
    · simp [hpush, Reply.isReceivePack]
    · simp [hpush, Reply.isReceivePack]

variable {suffix : String}

/-- An `info/refs` request is no request to the other endpoints. -/
theorem serve_infoRefs (writer : Bool) (user : Option String)
    (h : endsWith suffix "/info/refs" = true) (query : String) :
    serve writer user .get suffix query = handleInfoRefs writer query := by
  simp [serve, endpointAllow, h]

variable {method : Method}

/-- The requests that get at the receive-pack code. -/
theorem serve_receivePack {user : Option String}
    (h : (serve writer user method suffix query).isReceivePack = true) :
    (method = .get ∧ endsWith suffix "/info/refs" = true ∧ FirstService query "git-receive-pack") ∨
      (method = .post ∧ endsWith suffix "/git-receive-pack" = true ∧
        endsWith suffix "/git-upload-pack" = false) := by
  rw [serve] at h
  split at h
  · cases h
  · split at h
    · cases h
    · split_ifs at h with hinfo hfetch hpush hwriter
      · exact .inl ⟨hinfo.1, hinfo.2, handleInfoRefs_receivePack.mp h⟩
      · cases h
      · exact .inr ⟨hpush.1, hpush.2, by simpa [hpush.1] using hfetch⟩
      · cases h
      · cases h

/-! ### The scope check -/

theorem actionFromRequest_misread (h : Misread method suffix query) :
    actionFromRequest method suffix query = some .read := by
  obtain ⟨rfl, hsuffix, -, hfetch⟩ := h
  simp [actionFromRequest, hsuffix, hfetch]

/-- Every other request to the receive-pack code is a write. -/
theorem actionFromRequest_write {user : Option String}
    (h : (serve writer user method suffix query).isReceivePack = true)
    (hread : ¬ Misread method suffix query) :
    actionFromRequest method suffix query = some .write := by
  rcases serve_receivePack h with ⟨rfl, hsuffix, hfirst⟩ | ⟨rfl, hpush, hfetch⟩
  · have hnot : contains query "service=git-upload-pack" = false := by
      cases hc : contains query "service=git-upload-pack" with
      | false => rfl
      | true => exact absurd ⟨rfl, hsuffix, hfirst, hc⟩ hread
    have hthere := contains_of_firstService hfirst
    have hword : "service=" ++ "git-receive-pack" = "service=git-receive-pack" := rfl
    rw [hword] at hthere
    simp [actionFromRequest, hsuffix, hnot, hthere]
  · simp [actionFromRequest, hpush, hfetch]

/-- A misread request is served an advertisement for a push. -/
theorem serve_misread (h : Misread method suffix query) (writer : Bool) (user : Option String) :
    (serve writer user method suffix query).isReceivePack = true := by
  obtain ⟨rfl, hsuffix, hfirst, -⟩ := h
  rw [serve_infoRefs writer user hsuffix]
  exact handleInfoRefs_receivePack.mpr hfirst

/-- A scoped user's request, with the repository and the query taken from its URL. -/
theorem dispatch_scoped {repos : String → Option Bool} {url path repo : String}
    (hurl : splitUrl url = (path, query))
    (hrepo : resolveRepo (.multi repos) path = some (writer, suffix, repo)) (user : Option String)
    (acl : List AclRule) (maxBody : Nat) (method : Method) (advertised : Option Nat) :
    dispatch (.multi repos) (some (.allow user (some acl))) maxBody method url advertised
      = match (actionFromRequest method suffix query).filter fun a => !aclAllows acl repo a with
        | some action => .forbidden action repo
        | none =>
          match advertised.filter fun n => method = .post ∧ maxBody < n with
          | some n => .tooLarge n
          | none => serve writer user method suffix query := by
  simp only [dispatch, Option.getD_some, hurl, hrepo]

/-- **The scope check reads requests as the handlers do**, unless the query asks for a push
    advertisement and holds the words of a fetch: exactly then a request that is served by
    the receive-pack code is not classified as a write, and exactly then a user whose ACL
    grants only read gets there. -/
theorem scope_check_iff (method : Method) (suffix query : String) :
    ((∀ writer user, (serve writer user method suffix query).isReceivePack = true →
        actionFromRequest method suffix query = some .write) ↔ ¬ Misread method suffix query) ∧
    ∀ repos url path writer repo, splitUrl url = (path, query) →
      resolveRepo (.multi repos) path = some (writer, suffix, repo) →
      ∀ user acl maxBody advertised, aclAllows acl repo .read = true →
        aclAllows acl repo .write = false →
        ((dispatch (.multi repos) (some (.allow user (some acl))) maxBody method url
            advertised).isReceivePack = true ↔ Misread method suffix query) := by
  refine ⟨⟨fun h hmis => ?_, fun h writer user hserve => actionFromRequest_write hserve h⟩, ?_⟩
  · have hwrite := h true none (serve_misread hmis true none)
    rw [actionFromRequest_misread hmis] at hwrite
    cases hwrite
  · intro repos url path writer repo hurl hrepo user acl maxBody advertised hread hwrite
    rw [dispatch_scoped hurl hrepo]
    constructor
    · intro h
      by_contra hmis
      split at h
      · cases h
      · rename_i hallowed
        split at h
        · cases h
        · rw [actionFromRequest_write h hmis] at hallowed
          simp [hwrite] at hallowed
    · intro hmis
      have hget : method = .get := hmis.1
      subst hget
      have hbody : (advertised.filter fun n => decide (Method.get = .post ∧ maxBody < n)) = none := by
        simp
      rw [actionFromRequest_misread hmis, Option.filter_some, hread, hbody]
      exact serve_misread hmis writer user

/-- A user who may read `r` and nothing else asks for both services at once, and is handed a
    nonce. -/
theorem reader_gets_nonce :
    let query := "service=git-receive-pack&x=service=git-upload-pack"
    (serve true (some "u") .get "/info/refs" query).isReceivePack = true ∧
      actionFromRequest .get "/info/refs" query ≠ some .write ∧
      dispatch (.multi fun _ => some true) (some (.allow (some "u") (some [⟨"r", true, false⟩]))) 100
        .get ("/r/info/refs?" ++ query) none = .pushAdvert true := by
  have hquery : "service=git-receive-pack&x=service=git-upload-pack".toList = _ := String.toList_ofList
  have hurl : "/r/info/refs?".toList = _ := String.toList_ofList
  have hpush : "service=git-receive-pack".toList = _ := String.toList_ofList
  have hfetch : "service=git-upload-pack".toList = _ := String.toList_ofList
  have hmis : Misread .get "/info/refs" "service=git-receive-pack&x=service=git-upload-pack" := by
    refine ⟨rfl, by simp [endsWith], ⟨[], ["x=service=git-upload-pack".toList], ?_, nofun⟩,
      decide_eq_true ⟨"service=git-receive-pack&x=".toList, [], ?_⟩⟩
    · have hlast : "x=service=git-upload-pack".toList = _ := String.toList_ofList
      rw [hquery, show "service=" ++ "git-receive-pack" = "service=git-receive-pack" from rfl, hpush, hlast]
      decide +kernel
    · have hfront : "service=git-receive-pack&x=".toList = _ := String.toList_ofList
      rw [hquery, hfetch, hfront]
      rfl
  have hsplit : splitUrl ("/r/info/refs?" ++ "service=git-receive-pack&x=service=git-upload-pack") =
      ("/r/info/refs", "service=git-receive-pack&x=service=git-upload-pack") := by
    rw [splitUrl, String.toList_append, hurl, hquery]
    rfl
  have hrepo : resolveRepo (.multi fun _ => some true) "/r/info/refs" =
      some (true, "/info/refs", "r") := by
    simp [resolveRepo, contains]
    decide
  have hserve : serve true (some "u") .get "/info/refs"
      "service=git-receive-pack&x=service=git-upload-pack" = .pushAdvert true := by
    rw [serve_infoRefs _ _ hmis.2.1, handleInfoRefs, parseQuery_eq_some.mpr hmis.2.2.1]
    rfl
  have hread := actionFromRequest_misread hmis
  refine ⟨serve_misread hmis true (some "u"), by rw [hread]; nofun, ?_⟩
  rw [dispatch_scoped hsplit hrepo, hread, hserve]
  rfl

end Alt.Server
