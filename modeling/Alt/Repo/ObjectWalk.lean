import Alt.GitCodec.Tree
import Alt.Library.Sweep
import Alt.Repo.Objects

namespace Alt.Repo

open Alt.Library Alt.Odb List

/-!
# Which objects a push ships (`alt-repo/src/lib.rs`, `reachable_objects`)

The objects reachable from the roots that are not reachable from the excludes.  Two loops
over a stack, each with the set of ids it has seen: the first one marks everything below the
excludes, the second one collects from the roots around it.

* `Names` — which objects an object names: a commit its tree and its parents, a tree its
  entries other than gitlinks, a tag its object;
* `ReachedFrom` — reached along these, through stored objects;
* `reachable_objects_exact` — what is returned, and when an error is.

The store is any function from ids to results; reading may fail, and a stored object may not
parse.
-/

/-- An error of the storage, or of an object that does not parse. -/
inductive RepoError (ε : Type)
  | storage (e : ε)
  | object (e : ObjectParseError)
  deriving DecidableEq

/-- What `read_object` answers. -/
abbrev ReadObject (ε : Type) := ObjectId → Except ε (Option RawObject)

def objectChildren (object : RawObject) (algo : HashAlgo) : Except ObjectParseError (List ObjectId) :=
  match object.kind with
  | .commit => do
    let commit ← Commit.parse object.data
    return commit.tree.toList ++ commit.parents
  | .tree => do
    let tree ← Tree.parse object.data algo
    -- a gitlink names a commit of another repository
    return (tree.entries.filter fun entry => !entry.mode.isGitlink).map TreeEntry.oid
  | .tag => do
    let tag ← Tag.parse object.data
    return tag.object.toList
  | .blob => return []

section

variable {ε : Type} (read : ReadObject ε) (algo : HashAlgo)

/-- The children of a stored object; a missing one has none. -/
def childrenOf (oid : ObjectId) : Except (RepoError ε) (List ObjectId) :=
  match read oid with
  | .error e => .error (.storage e)
  | .ok none => .ok []
  | .ok (some object) => (objectChildren object algo).mapError .object

/-- The stack with the children of an object pushed onto it. -/
def expandInto (oid : ObjectId) (stack : List ObjectId) : Except (RepoError ε) (List ObjectId) := do
  let children ← childrenOf read algo oid
  return children.reverse ++ stack

/-- The first loop; `none` when out of fuel. -/
def markUninteresting : Nat → List ObjectId → List ObjectId →
    Option (Except (RepoError ε) (List ObjectId))
  | _, [], uninteresting => some (.ok uninteresting)
  | 0, _ :: _, _ => none
  | fuel + 1, oid :: stack, uninteresting =>
    if oid ∈ uninteresting then markUninteresting fuel stack uninteresting
    else
      match expandInto read algo oid stack with
      | .error e => some (.error e)
      | .ok stack => markUninteresting fuel stack (oid :: uninteresting)

/-- The second loop. -/
def collectInteresting (uninteresting : List ObjectId) : Nat → List ObjectId → List ObjectId →
    List (ObjectId × ObjectKind) → Option (Except (RepoError ε) (List (ObjectId × ObjectKind)))
  | _, [], _, out => some (.ok out)
  | 0, _ :: _, _, _ => none
  | fuel + 1, oid :: work, seen, out =>
    if oid ∈ uninteresting ∨ oid ∈ seen then collectInteresting uninteresting fuel work seen out
    else
      match read oid with
      | .error e => some (.error (.storage e))
      | .ok none => collectInteresting uninteresting fuel work (oid :: seen) out
      | .ok (some object) =>
        match objectChildren object algo with
        | .error e => some (.error (.object e))
        | .ok children =>
          collectInteresting uninteresting fuel
            ((children.filter fun child => child ∉ uninteresting).reverse ++ work) (oid :: seen)
            (out ++ [(oid, object.kind)])

def reachableObjects (fuel : Nat) (roots excludes : List ObjectId) :
    Option (Except (RepoError ε) (List (ObjectId × ObjectKind))) :=
  match markUninteresting read algo fuel excludes.reverse [] with
  | none => none
  | some (.error e) => some (.error e)
  | some (.ok uninteresting) =>
    collectInteresting read algo uninteresting fuel
      (roots.filter fun root => root ∉ uninteresting).reverse [] []

end

/-! ### What an object names -/

/-- The objects an object names. -/
inductive Names (algo : HashAlgo) : RawObject → ObjectId → Prop
  | tree {data : Bytes} {commit : Commit} {id : ObjectId} :
      Commit.parse data = .ok commit → commit.tree = some id → Names algo ⟨.commit, data⟩ id
  | parent {data : Bytes} {commit : Commit} {id : ObjectId} :
      Commit.parse data = .ok commit → id ∈ commit.parents → Names algo ⟨.commit, data⟩ id
  | entry {data : Bytes} {tree : Tree} {entry : TreeEntry} :
      Tree.parse data algo = .ok tree → entry ∈ tree.entries → entry.mode.isGitlink = false →
      Names algo ⟨.tree, data⟩ entry.oid
  | target {data : Bytes} {tag : Tag} {id : ObjectId} :
      Tag.parse data = .ok tag → tag.object = some id → Names algo ⟨.tag, data⟩ id

variable {ε : Type} {read : ReadObject ε} {algo : HashAlgo}

variable {id : ObjectId}

/-- An object whose children are read lists exactly what it names. -/
theorem mem_objectChildren {object : RawObject} {children : List ObjectId}
    (h : objectChildren object algo = .ok children) :
    id ∈ children ↔ Names algo object id := by
  obtain ⟨kind, data⟩ := object
  cases kind with
  | commit =>
    simp only [objectChildren, bind, Except.bind, pure, Except.pure] at h
    obtain ⟨commit, hparse, h⟩ := of_match_ok h
    cases h
    rw [mem_append, Option.mem_toList]
    constructor
    · rintro (htree | hparent)
      · exact .tree hparse htree
      · exact .parent hparse hparent
    · intro hnames
      cases hnames with
      | tree hparse' htree =>
        rw [hparse] at hparse'
        cases hparse'
        exact .inl htree
      | parent hparse' hparent =>
        rw [hparse] at hparse'
        cases hparse'
        exact .inr hparent
  | tree =>
    simp only [objectChildren, bind, Except.bind, pure, Except.pure] at h
    obtain ⟨tree, hparse, h⟩ := of_match_ok h
    cases h
    rw [mem_map]
    constructor
    · rintro ⟨entry, hentry, rfl⟩
      rw [mem_filter, Bool.not_eq_true'] at hentry
      exact .entry hparse hentry.1 hentry.2
    · intro hnames
      cases hnames with
      | entry hparse' hentry hmode =>
        rw [hparse] at hparse'
        cases hparse'
        exact ⟨_, mem_filter.mpr ⟨hentry, by rw [hmode]; rfl⟩, rfl⟩
  | blob =>
    cases h
    constructor
    · intro hmem
      cases hmem
    · intro hnames
      cases hnames
  | tag =>
    simp only [objectChildren, bind, Except.bind, pure, Except.pure] at h
    obtain ⟨tag, hparse, h⟩ := of_match_ok h
    cases h
    rw [Option.mem_toList]
    constructor
    · intro htarget
      exact .target hparse htarget
    · intro hnames
      cases hnames with
      | target hparse' htarget =>
        rw [hparse] at hparse'
        cases hparse'
        exact htarget

/-- An object that names another one is read in full. -/
theorem objectChildren_of_names {object : RawObject} (h : Names algo object id) :
    ∃ children, objectChildren object algo = .ok children := by
  cases h with
  | tree hparse _ | parent hparse _ | entry hparse _ _ | target hparse _ =>
    simp only [objectChildren, hparse, bind, Except.bind, pure, Except.pure]
    exact ⟨_, rfl⟩

/-- `a` is stored, and names `b`. -/
def StoredNames (read : ReadObject ε) (algo : HashAlgo) (a b : ObjectId) : Prop :=
  ∃ object, read a = .ok (some object) ∧ Names algo object b

/-- `id` is reachable from one of the tips. -/
def ReachedFrom (read : ReadObject ε) (algo : HashAlgo) (tips : List ObjectId) (id : ObjectId) : Prop :=
  ∃ tip ∈ tips, Relation.ReflTransGen (StoredNames read algo) tip id

/-- The object is missing, or it is read and parses. -/
def Readable (read : ReadObject ε) (algo : HashAlgo) (id : ObjectId) : Prop :=
  read id = .ok none ∨
    ∃ object children, read id = .ok (some object) ∧ objectChildren object algo = .ok children

theorem readable_iff :
    Readable read algo id ↔ ∃ children, childrenOf read algo id = .ok children := by
  rw [Readable, childrenOf]
  cases hread : read id with
  | error e => simp
  | ok object? =>
    cases object? with
    | none => simp
    | some object =>
      cases hchildren : objectChildren object algo with
      | error e => simp [hchildren, Except.mapError]
      | ok children => simp [hchildren, Except.mapError]

/-- The edges of the two loops. -/
theorem succ_childrenOf {a b : ObjectId} :
    Succ (childrenOf read algo) a b ↔ StoredNames read algo a b := by
  constructor
  · rintro ⟨next, hnext, hmem⟩
    rw [childrenOf] at hnext
    split at hnext
    · cases hnext
    · cases hnext
      cases hmem
    · rename_i object hread
      obtain ⟨children, hchildren, hnext⟩ := of_match_ok hnext
      cases hnext
      exact ⟨object, hread, (mem_objectChildren hchildren).mp hmem⟩
  · rintro ⟨object, hread, hnames⟩
    obtain ⟨children, hchildren⟩ := objectChildren_of_names hnames
    refine ⟨children, ?_, (mem_objectChildren hchildren).mpr hnames⟩
    rw [childrenOf, hread]
    simp only [hchildren, Except.mapError]

theorem reachedFrom_iff {tips : List ObjectId} :
    ReachedFrom read algo tips id ↔ ∃ tip ∈ tips, Reach (childrenOf read algo) tip id := by
  have hrel : Succ (childrenOf read algo) = StoredNames read algo := by
    funext a b
    exact propext succ_childrenOf
  rw [ReachedFrom, Reach, hrel]

/-! ### The two loops -/

/-- The first loop sweeps the whole closure. -/
theorem markUninteresting_eq (fuel : Nat) (stack uninteresting : List ObjectId) :
    markUninteresting read algo fuel stack uninteresting
      = sweep (fun _ => false) (childrenOf read algo) fuel stack uninteresting := by
  fun_induction markUninteresting read algo fuel stack uninteresting with
  | case1 => rw [sweep]
  | case2 => rw [sweep]
  | case3 fuel oid stack uninteresting hmem ih =>
    rw [sweep, if_pos (.inr hmem), ih]
  | case4 fuel oid stack uninteresting hmem e herr =>
    rw [sweep, if_neg (by simpa using hmem)]
    rw [expandInto] at herr
    cases hchildren : childrenOf read algo oid with
    | error e' =>
      rw [hchildren] at herr
      cases herr
      rfl
    | ok children =>
      rw [hchildren] at herr
      cases herr
  | case5 fuel oid stack uninteresting hmem stack' hok ih =>
    rw [sweep, if_neg (by simpa using hmem)]
    rw [expandInto] at hok
    cases hchildren : childrenOf read algo oid with
    | error e' =>
      rw [hchildren] at hok
      cases hok
    | ok children =>
      rw [hchildren] at hok
      cases hok
      simpa using ih

/-- A stored object with its kind. -/
def withKind (read : ReadObject ε) (id : ObjectId) : Option (ObjectId × ObjectKind) :=
  match read id with
  | .ok (some object) => some (id, object.kind)
  | _ => none

/-- What the second loop has put out when it has seen these ids, the last one first. -/
def found (read : ReadObject ε) (seen : List ObjectId) : List (ObjectId × ObjectKind) :=
  seen.reverse.filterMap (withKind read)

theorem found_cons (id : ObjectId) (seen : List ObjectId) :
    found read (id :: seen) = found read seen ++ (withKind read id).toList := by
  rw [found, reverse_cons, filterMap_append, ← found]
  cases h : withKind read id <;> simp [h]

/-- The second loop sweeps around the marked ids, and puts out what is stored. -/
theorem collectInteresting_eq (uninteresting : List ObjectId) (fuel : Nat)
    (work seen : List ObjectId) :
    collectInteresting read algo uninteresting fuel work seen (found read seen)
      = (sweep (fun id => id ∈ uninteresting) (childrenOf read algo) fuel work seen).map
          (Except.map (found read)) := by
  induction fuel generalizing work seen with
  | zero => cases work <;> rfl
  | succ fuel ih =>
    cases work with
    | nil => rfl
    | cons oid work =>
      rw [collectInteresting, sweep]
      simp only [decide_eq_true_eq]
      split_ifs with hskip
      · exact ih work seen
      · have hcons : found read (oid :: seen) = found read seen ++ (withKind read oid).toList :=
          found_cons oid seen
        rw [withKind] at hcons
        rw [childrenOf]
        cases hread : read oid with
        | error e => rfl
        | ok object? =>
          rw [hread] at hcons
          cases object? with
          | none =>
            simp only [Option.toList_none, append_nil] at hcons
            simp only [filter_nil, reverse_nil, nil_append]
            rw [← ih, hcons]
          | some object =>
            simp only [Option.toList_some] at hcons
            dsimp only
            cases hchildren : objectChildren object algo with
            | error e => rfl
            | ok children =>
              simp only [Except.mapError, decide_eq_false_iff_not]
              rw [← ih, hcons]

variable {seen : List ObjectId}

theorem mem_found {kind : ObjectKind} :
    (id, kind) ∈ found read seen ↔ id ∈ seen ∧ ∃ data, read id = .ok (some ⟨kind, data⟩) := by
  rw [found, mem_filterMap]
  constructor
  · rintro ⟨id', hmem, hkind⟩
    rw [withKind] at hkind
    split at hkind
    · rename_i object hread
      cases hkind
      exact ⟨mem_reverse.mp hmem, object.data, hread⟩
    · cases hkind
  · rintro ⟨hmem, data, hread⟩
    refine ⟨id, mem_reverse.mpr hmem, ?_⟩
    rw [withKind, hread]

theorem nodup_found (h : seen.Nodup) :
    ((found read seen).map Prod.fst).Nodup := by
  have hsub : ∀ ids : List ObjectId, ((ids.filterMap (withKind read)).map Prod.fst).Sublist ids := by
    intro ids
    induction ids with
    | nil => exact .slnil
    | cons id ids ih =>
      rw [filterMap_cons]
      split
      · exact ih.cons id
      · rename_i e hkind
        have hid : e.1 = id := by
          rw [withKind] at hkind
          split at hkind
          · cases hkind
            rfl
          · cases hkind
        rw [map_cons, hid]
        exact ih.cons_cons id
  exact (nodup_reverse.mpr h).sublist (hsub _)

/-! ### The result -/

instance finite_uInt8 : Finite UInt8 := Finite.of_injective UInt8.toFin fun _ _ h => UInt8.toFin_inj.mp h

instance {n : Nat} : Finite (ByteArr n) := (finite_length_eq UInt8 n).to_subtype

instance : Finite ObjectId := by
  have hinj : Function.Injective fun id : ObjectId =>
      match id with
      | .sha1 b => (Sum.inl b : ByteArr 20 ⊕ ByteArr 32)
      | .sha256 b => Sum.inr b := by
    rintro (a | a) (b | b) heq <;> simp_all
  exact Finite.of_injective _ hinj

/-- What a sweep that did not fail has read. -/
theorem readable_of_swept {skip : ObjectId → Bool} {starts : List ObjectId}
    (h : Sweeping skip (childrenOf read algo) starts [] seen) (hid : id ∈ seen) :
    Readable read algo id := by
  obtain ⟨children, hchildren, -⟩ := h.closed id hid
  exact readable_iff.mpr ⟨children, hchildren⟩

/-- The first loop marks what the excludes reach. -/
theorem mem_marked {excludes uninteresting : List ObjectId}
    (h : Sweeping (fun _ => false) (childrenOf read algo) excludes [] uninteresting) :
    id ∈ uninteresting ↔ ReachedFrom read algo excludes id := by
  have hmem := h.mem_iff (c := id) (fun a b _ hskip => hskip)
  rw [hmem, reachedFrom_iff]
  exact and_iff_left rfl

/-- The second loop sees what the roots reach and the excludes do not. -/
theorem mem_collected {roots excludes uninteresting : List ObjectId}
    (hmarked : ∀ id, id ∈ uninteresting ↔ ReachedFrom read algo excludes id)
    (h : Sweeping (fun id => id ∈ uninteresting) (childrenOf read algo) roots [] seen) :
    id ∈ seen ↔ ReachedFrom read algo roots id ∧ ¬ReachedFrom read algo excludes id := by
  have hclosed : ∀ a b, Succ (childrenOf read algo) a b → decide (a ∈ uninteresting) = true →
      decide (b ∈ uninteresting) = true := by
    intro a b hab ha
    rw [decide_eq_true_eq, hmarked] at ha ⊢
    obtain ⟨tip, htip, hreach⟩ := ha
    exact ⟨tip, htip, hreach.tail (succ_childrenOf.mp hab)⟩
  rw [h.mem_iff hclosed, reachedFrom_iff, decide_eq_false_iff_not, hmarked]

/-- **The objects of a push.** For every store, every list of roots and every list of
    excludes: the call returns; it succeeds exactly if all objects that the roots and the
    excludes reach are missing or can be read and parsed; and then it lists, each once and with
    its kind, the stored objects that a root reaches and no exclude does. -/
theorem reachable_objects_exact (read : ReadObject ε) (algo : HashAlgo)
    (roots excludes : List ObjectId) :
    ∃ bound result,
      (∀ fuel, bound ≤ fuel → reachableObjects read algo fuel roots excludes = some result) ∧
      ((∃ out, result = .ok out) ↔ ∀ id,
        ReachedFrom read algo excludes id ∨ ReachedFrom read algo roots id → Readable read algo id) ∧
      ∀ out, result = .ok out → (out.map Prod.fst).Nodup ∧ ∀ id kind, (id, kind) ∈ out ↔
        (ReachedFrom read algo roots id ∧ ¬ReachedFrom read algo excludes id) ∧
          ∃ data, read id = .ok (some ⟨kind, data⟩) := by
  obtain ⟨bound, first, hfirst⟩ :=
    sweep_total (fun _ => false) (childrenOf read algo) excludes.reverse []
  have hinit : Sweeping (fun _ => false) (childrenOf read algo) excludes excludes.reverse [] :=
    .init (fun s hs => .inr (mem_reverse.mpr hs)) fun s hs => mem_reverse.mp hs
  obtain ⟨hok, herror⟩ := hinit.run (hfirst bound le_rfl)
  cases first with
  | error e =>
    -- the first loop fails at something an exclude reaches
    obtain ⟨c, hreach, -, hread⟩ := herror e rfl
    refine ⟨bound, .error e, ?_, ?_, fun out heq => nomatch heq⟩
    · intro fuel hle
      rw [reachableObjects, markUninteresting_eq, hfirst fuel hle]
    · refine ⟨fun ⟨out, heq⟩ => (nomatch heq), fun hall => ?_⟩
      have hreadable := hall c (.inl (reachedFrom_iff.mpr hreach))
      rw [readable_iff, hread] at hreadable
      obtain ⟨children, heq⟩ := hreadable
      cases heq
  | ok uninteresting =>
    have hswept := hok uninteresting rfl
    have hmarked : ∀ id, id ∈ uninteresting ↔ ReachedFrom read algo excludes id :=
      fun id => mem_marked hswept
    obtain ⟨bound', second, hsecond⟩ := sweep_total (fun id => id ∈ uninteresting)
      (childrenOf read algo) (roots.filter fun root => root ∉ uninteresting).reverse []
    have hrun : ∀ fuel, max bound bound' ≤ fuel →
        reachableObjects read algo fuel roots excludes = some (second.map (found read)) := by
      intro fuel hle
      rw [reachableObjects, markUninteresting_eq, hfirst fuel (le_of_max_le_left hle)]
      have hcollect : collectInteresting read algo uninteresting fuel
          (roots.filter fun root => root ∉ uninteresting).reverse [] (found read []) = _ :=
        collectInteresting_eq uninteresting fuel _ []
      rw [hsecond fuel (le_of_max_le_right hle)] at hcollect
      exact hcollect
    have hinit' : Sweeping (fun id => id ∈ uninteresting) (childrenOf read algo) roots
        (roots.filter fun root => root ∉ uninteresting).reverse [] := by
      refine .init (fun s hs => ?_) fun s hs => (mem_filter.mp (mem_reverse.mp hs)).1
      by_cases hmem : s ∈ uninteresting
      · exact .inl (decide_eq_true hmem)
      · exact .inr (mem_reverse.mpr (mem_filter.mpr ⟨hs, decide_eq_true hmem⟩))
    obtain ⟨hok', herror'⟩ := hinit'.run (hsecond bound' le_rfl)
    refine ⟨max bound bound', second.map (found read), hrun, ?_, ?_⟩
    · cases second with
      | error e =>
        obtain ⟨c, hreach, -, hread⟩ := herror' e rfl
        refine ⟨fun ⟨out, heq⟩ => (nomatch heq), fun hall => ?_⟩
        have hreadable := hall c (.inr (reachedFrom_iff.mpr hreach))
        rw [readable_iff, hread] at hreadable
        obtain ⟨children, heq⟩ := hreadable
        cases heq
      | ok seen =>
        refine iff_of_true ⟨_, rfl⟩ fun id hid => ?_
        by_cases hexcluded : ReachedFrom read algo excludes id
        · exact readable_of_swept hswept ((hmarked id).mpr hexcluded)
        · have hroot := hid.resolve_left hexcluded
          exact readable_of_swept (hok' seen rfl)
            ((mem_collected hmarked (hok' seen rfl)).mpr ⟨hroot, hexcluded⟩)
    · intro out hout
      cases second with
      | error e => cases hout
      | ok seen =>
        cases hout
        refine ⟨nodup_found (hok' seen rfl).nodup, fun id kind => ?_⟩
        rw [mem_found, mem_collected hmarked (hok' seen rfl)]

/-- A store with one object, a commit whose only header line does not end. -/
def unendedCommit : ReadObject Unit := fun id =>
  if id = .sha1 (.fill 20 7) then .ok (some ⟨.commit, [1]⟩) else .ok none

/-- The root is stored, and nothing is returned: the commit does not parse. -/
theorem reachable_objects_unparsable :
    unendedCommit (.sha1 (.fill 20 7)) = .ok (some ⟨.commit, [1]⟩) ∧
      ReachedFrom unendedCommit .sha1 [.sha1 (.fill 20 7)] (.sha1 (.fill 20 7)) ∧
      ∀ fuel, 1 ≤ fuel → reachableObjects unendedCommit .sha1 fuel [.sha1 (.fill 20 7)] []
        = some (.error (.object (.headers "unterminated header line"))) := by
  have hblock : HeaderBlock.parse [1] = .error (.headers "unterminated header line") :=
    HeaderBlock.parseFrom_unsplit [] (by decide) rfl
  have hchildren : objectChildren ⟨.commit, [1]⟩ .sha1
      = .error (.headers "unterminated header line") := by
    rw [objectChildren, Commit.parse_eq_error hblock]
    rfl
  have hread : unendedCommit (.sha1 (.fill 20 7)) = .ok (some ⟨.commit, [1]⟩) := rfl
  refine ⟨hread, ⟨_, mem_singleton_self _, .refl⟩, fun fuel hfuel => ?_⟩
  obtain ⟨fuel, rfl⟩ := Nat.exists_eq_add_of_le' hfuel
  have hloop : collectInteresting unendedCommit .sha1 [] (fuel + 1) [.sha1 (.fill 20 7)] [] []
      = some (.error (.object (.headers "unterminated header line"))) := by
    rw [collectInteresting, if_neg (by simp), hread]
    simp only [hchildren]
  exact hloop

end Alt.Repo
