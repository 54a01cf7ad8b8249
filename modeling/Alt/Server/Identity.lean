import Alt.Server.Policy

namespace Alt.Server

open List

/-!
# Who is acting (`alt-cli/src/native/identity.rs`)

A principal is written into the op log as one string, `<kind>:<id>;session:<s>;user:<u>;verb:<v>`,
in which every `:` and `;` of a value becomes `_`.

* `actorString`, `parseActor` — writing that string and reading it back;
* `parse_actor_string` — what is read is the principal with its values made plain;
* `actor_names_principal` — two principals share a string only if that makes them the same, and a
  policy knows a principal by its string if its id was plain before.
-/

/-! ### The actor string -/

/-- A value with its separators replaced. -/
def san (s : String) : String :=
  String.ofList (s.toList.map fun c => if c = ';' ∨ c = ':' then '_' else c)

/-- `;session:<s>`, if there is one. -/
def sessionPart : Option String → String
  | some s => ";session:" ++ san s
  | none => ""

/-- `Principal::actor_string`. -/
def actorString (p : Principal) (user verb : String) : String :=
  p.kind.word ++ ":" ++ san p.id ++ sessionPart p.session ++ ";user:" ++ san user ++ ";verb:" ++ san verb

def PrincipalKind.parse (s : List Char) : Option PrincipalKind :=
  if s = "human".toList then some .human else if s = "agent".toList then some .agent else none

/-- The text around the first `sep`. -/
def cutAt (sep : Char) (s : List Char) : Option (List Char × List Char) :=
  match s.dropWhile (· != sep) with
  | [] => none
  | _ :: rest => some (s.takeWhile (· != sep), rest)

/-- The form older ops were written in, `cli/<verb>@<user>`. -/
def parseLegacy (s : List Char) : Option (Principal × String) :=
  if "cli/".toList.isPrefixOf s then
    (cutAt '@' (s.drop 4)).map fun cut =>
      (⟨.human, String.ofList cut.2, none⟩, String.ofList cut.1)
  else none

/-- One `key:value` behind the head; a key that is not known is passed over. -/
def readPart (acc : Principal × String) (kv : List Char) : Principal × String :=
  match cutAt ':' kv with
  | none => acc
  | some (k, v) =>
    if k = "session".toList then ({ acc.1 with session := some (String.ofList v) }, acc.2)
    else if k = "verb".toList then (acc.1, String.ofList v)
    else acc

/-- Kind and id; a head without a `:` is a human's id. -/
def readHead (head : List Char) : Principal :=
  match cutAt ':' head with
  | none => ⟨.human, String.ofList head, none⟩
  | some (kind, id) => ⟨(PrincipalKind.parse kind).getD .human, String.ofList id, none⟩

/-- `Principal::parse_actor`: the principal and the verb. -/
def parseActor (s : String) : Principal × String :=
  match parseLegacy s.toList with
  | some r => r
  | none =>
    let parts := s.toList.splitOn ';'
    parts.tail.foldl readPart (readHead (parts.head?.getD []), "")

/-! ### Identities -/

/-- Who is acting: the principal of the op log and the author of commits. -/
structure Identity where
  principal : Principal
  user : String
  authorName : String
  authorEmail : String
  /-- Whom an agent acts for. -/
  controlling : Option String

/-- From the caller's environment. -/
def Identity.fromLookup (get : String → Option String) : Identity :=
  let user := (get "USER").getD "unknown"
  let name := ((get "GIT_AUTHOR_NAME").or (get "USER")).getD "alt"
  { principal :=
      ⟨((get "ALT_PRINCIPAL_KIND").bind fun s => PrincipalKind.parse s.toList).getD .human,
        (get "ALT_PRINCIPAL_ID").getD user, get "ALT_SESSION_ID"⟩
    user
    authorName := name
    authorEmail := (get "GIT_AUTHOR_EMAIL").getD (name ++ "@localhost")
    controlling := (get "ALT_CONTROLLING").filter fun v => !v.isEmpty }

/-- The actor string of a verb. -/
def Identity.actor (id : Identity) (verb : String) : String := actorString id.principal id.user verb

/-! ### NoSeparator values -/

/-- No separator is in it. -/
def NoSeparator (s : String) : Prop := ∀ c ∈ s.toList, c ≠ ';' ∧ c ≠ ':'

instance (s : String) : Decidable (NoSeparator s) := List.decidableBAll _ s.toList

theorem noSeparator_san (s : String) : NoSeparator (san s) := by
  intro c hc
  rw [san, String.toList_ofList, mem_map] at hc
  obtain ⟨d, -, rfl⟩ := hc
  split
  · decide
  · next hd => exact not_or.mp hd

theorem san_eq_self_iff {s : String} : san s = s ↔ NoSeparator s := by
  constructor
  · intro h
    exact h ▸ noSeparator_san s
  · intro h
    have hmap : (s.toList.map fun c => if c = ';' ∨ c = ':' then '_' else c) = s.toList.map id :=
      map_congr_left fun c hc => if_neg (not_or.mpr (h c hc))
    rw [san, hmap, map_id, String.ofList_toList]

/-- A principal whose values have been made plain. -/
def Principal.sanitized (p : Principal) : Principal := ⟨p.kind, san p.id, p.session.map san⟩

/-! ### Reading back -/

theorem cutAt_append {sep : Char} {front rest : List Char} (h : sep ∉ front) :
    cutAt sep (front ++ sep :: rest) = some (front, rest) := by
  have hall : ∀ c ∈ front, (c != sep) = true := fun c hc =>
    bne_iff_ne.mpr fun heq => h (heq ▸ hc)
  have hdrop : (front ++ sep :: rest).dropWhile (· != sep) = sep :: rest := by
    rw [dropWhile_append_of_pos hall, dropWhile_cons_of_neg (by simp)]
  have htake : (front ++ sep :: rest).takeWhile (· != sep) = front := by
    rw [takeWhile_append_of_pos hall, takeWhile_cons_of_neg (by simp), append_nil]
  rw [cutAt, hdrop, htake]

/-- A key and a plain value. -/
def partText (key value : String) : List Char := key.toList ++ ':' :: value.toList

/-- The parts behind the head. -/
def tailParts (p : Principal) (user verb : String) : List (List Char) :=
  (p.session.map fun s => partText "session" (san s)).toList ++
    [partText "user" (san user), partText "verb" (san verb)]

theorem not_mem_partText {key value : String} (hkey : ';' ∉ key.toList) (hvalue : NoSeparator value) :
    ';' ∉ partText key value := by
  rw [partText, mem_append, mem_cons, not_or, not_or]
  exact ⟨hkey, by decide, fun hmem => (hvalue _ hmem).1 rfl⟩

theorem semicolon_not_mem_word (kind : PrincipalKind) : ';' ∉ kind.word.toList := by
  cases kind <;> decide

variable (p : Principal) (user verb : String)

/-- The string's parts, between its semicolons. -/
theorem splitOn_actorString :
    (actorString p user verb).toList.splitOn ';' =
      partText p.kind.word (san p.id) :: tailParts p user verb := by
  have hjoin : (actorString p user verb).toList =
      [';'].intercalate (partText p.kind.word (san p.id) :: tailParts p user verb) := by
    cases hs : p.session <;>
      simp [actorString, sessionPart, tailParts, partText, hs, List.intercalate]
  rw [hjoin]
  refine splitOn_intercalate ';' ?_ (cons_ne_nil _ _)
  intro part hpart
  rcases mem_cons.mp hpart with rfl | hpart
  · exact not_mem_partText (semicolon_not_mem_word p.kind) (noSeparator_san _)
  · rw [tailParts, mem_append] at hpart
    rcases hpart with hpart | hpart
    · obtain ⟨s, -, rfl⟩ := Option.map_eq_some_iff.mp (Option.mem_toList.mp hpart)
      exact not_mem_partText (by decide) (noSeparator_san _)
    · simp only [mem_cons, not_mem_nil, or_false] at hpart
      rcases hpart with rfl | rfl
      · exact not_mem_partText (by decide) (noSeparator_san _)
      · exact not_mem_partText (by decide) (noSeparator_san _)

theorem cutAt_partText {key value : String} (hkey : ':' ∉ key.toList) :
    cutAt ':' (partText key value) = some (key.toList, value.toList) := cutAt_append hkey

/-- A kind's word is not the front of an older op's actor. -/
theorem parseLegacy_actorString :
    parseLegacy (actorString p user verb).toList = none := by
  have hfront : ∀ rest, "cli/".toList.isPrefixOf (p.kind.word.toList ++ rest) = false := by
    intro rest
    cases p.kind <;> rfl
  rw [parseLegacy, if_neg]
  simp only [actorString, String.toList_append, append_assoc, hfront]
  decide

/-- **What is read back** is the principal and the verb, with their separators replaced. -/
theorem parse_actor_string :
    parseActor (actorString p user verb) = (p.sanitized, san verb) := by
  have hkind : PrincipalKind.parse p.kind.word.toList = some p.kind := by cases p.kind <;> decide
  have hword : ':' ∉ p.kind.word.toList := by cases p.kind <;> decide
  have hhead : readHead (partText p.kind.word (san p.id)) = ⟨p.kind, san p.id, none⟩ := by
    rw [readHead, cutAt_partText hword]
    simp [hkind]
  have hverb : ∀ acc, readPart acc (partText "verb" (san verb)) = (acc.1, san verb) := by
    intro acc
    rw [readPart, cutAt_partText (by decide)]
    simp
  have huser : ∀ acc, readPart acc (partText "user" (san user)) = acc := by
    intro acc
    rw [readPart, cutAt_partText (by decide)]
    simp
  have hsession : ∀ acc s, readPart acc (partText "session" (san s)) =
      ({ acc.1 with session := some (san s) }, acc.2) := by
    intro acc s
    rw [readPart, cutAt_partText (by decide)]
    simp
  rw [parseActor, parseLegacy_actorString, splitOn_actorString]
  dsimp only [head?_cons, Option.getD_some, tail_cons]
  rw [hhead, tailParts, foldl_append, foldl_cons, foldl_cons, foldl_nil, huser,
    hverb]
  cases hs : p.session with
  | none => simp [Principal.sanitized, hs]
  | some s => simp [Principal.sanitized, hs, hsession]

/-- **A recorded actor names its principal, up to separators.** What is read back is the principal
    with every `:` and `;` of its id and session replaced, so two principals have the same actor
    string only if they are the same then; of an id without them every policy says the same. -/
theorem actor_names_principal (p : Principal) (user verb : String) :
    parseActor (actorString p user verb) = (p.sanitized, san verb) ∧
    (∀ q user' verb', actorString p user verb = actorString q user' verb' →
      p.sanitized = q.sanitized) ∧
    (NoSeparator p.id → ∀ policy : Policy,
      policy.lookup (parseActor (actorString p user verb)).1 = policy.lookup p) ∧
    (NoSeparator p.id → (∀ s ∈ p.session, NoSeparator s) → (parseActor (actorString p user verb)).1 = p) := by
  refine ⟨parse_actor_string p user verb, fun q user' verb' h => ?_, fun hid policy => ?_,
    fun hid hsession => ?_⟩
  · have hparse := congrArg parseActor h
    rw [parse_actor_string, parse_actor_string] at hparse
    exact congrArg Prod.fst hparse
  · rw [parse_actor_string]
    have htarget : principalTarget p.sanitized = principalTarget p := by
      rw [principalTarget, principalTarget, Principal.sanitized, san_eq_self_iff.mpr hid]
    rw [Policy.lookup, Policy.lookup, htarget]
  · rw [parse_actor_string, Principal.sanitized, san_eq_self_iff.mpr hid]
    obtain ⟨kind, id, session⟩ := p
    cases session with
    | none => rfl
    | some s => simp [san_eq_self_iff.mpr (hsession s rfl)]

/-- The agent of the tests. -/
def botOne : Principal := ⟨.agent, "bot-1", some "01J7"⟩

theorem actor_names_bot :
    (∀ policy : Policy,
      policy.lookup (parseActor (actorString botOne "doracawl" "commit")).1 = policy.lookup botOne) ∧
      (parseActor (actorString botOne "doracawl" "commit")).1 = botOne := by
  obtain ⟨-, -, hlookup, hback⟩ := actor_names_principal botOne "doracawl" "commit"
  have hid : NoSeparator botOne.id := by decide +kernel
  exact ⟨hlookup hid, hback hid fun s hs => Option.some.inj hs ▸ by decide +kernel⟩

/-! ### Two callers -/

/-- A caller whose id has a separator in it. -/
def colonCaller : String → Option String
  | "ALT_PRINCIPAL_KIND" => some "agent"
  | "ALT_PRINCIPAL_ID" => some "a:b"
  | _ => none

def scoreCaller : String → Option String
  | "ALT_PRINCIPAL_KIND" => some "agent"
  | "ALT_PRINCIPAL_ID" => some "a_b"
  | _ => none

/-- **Two callers, one actor string**, and a policy that lets one of them write and not the other. -/
theorem actor_shared :
    (Identity.fromLookup colonCaller).principal ≠ (Identity.fromLookup scoreCaller).principal ∧
    (Identity.fromLookup colonCaller).actor "add" = (Identity.fromLookup scoreCaller).actor "add" ∧
    (Policy.lookup ⟨[⟨globMatches "agent:a:b", { Capabilities.full with readOnly := true }⟩]⟩
      (Identity.fromLookup colonCaller).principal).readOnly = true ∧
    (Policy.lookup ⟨[⟨globMatches "agent:a:b", { Capabilities.full with readOnly := true }⟩]⟩
      (parseActor ((Identity.fromLookup colonCaller).actor "add")).1).readOnly = false := by
  decide +kernel

end Alt.Server
