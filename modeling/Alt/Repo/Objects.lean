import Alt.GitCodec.Headers
import Alt.Odb.NativeOdb

namespace Alt.Repo

open Alt.Library Alt.Odb

/-!
# The objects of a repository and what they point at

`Objects` is the object database as its users see it: what `get` answers for an id.  A
commit names its parents and a tag its object in header lines (`alt-git-codec`); `Reaches`
follows them, `Descends` follows parents alone.  Both only grow as objects are added.
-/

/-! ### Objects -/

/-- The objects of a database, by id. -/
abbrev Objects := ObjectId → Option RawObject

/-- What is in `objects` is also in `objects'`. -/
def Within (objects objects' : Objects) : Prop :=
  ∀ ⦃id object⦄, objects id = some object → objects' id = some object

namespace Within

@[refl] theorem refl (objects : Objects) : Within objects objects := fun _ _ h => h

theorem trans {a b c : Objects} (hab : Within a b) (hbc : Within b c) : Within a c :=
  fun _ _ h => hbc (hab h)

theorem isSome {objects objects' : Objects} (h : Within objects objects') {id : ObjectId}
    (hid : (objects id).isSome) : (objects' id).isSome := by
  obtain ⟨object, hobject⟩ := Option.isSome_iff_exists.mp hid
  rw [h hobject]
  rfl

end Within

/-- An object offered under an id it does not hash to. -/
structure HashMismatch where
  claimed : ObjectId
  actual : ObjectId
  deriving DecidableEq

def HashMismatch.message (e : HashMismatch) : String :=
  "object " ++ String.ofList e.claimed.hexText ++ " does not hash to its id (got " ++
    String.ofList e.actual.hexText ++ ")"

/-- Stores an object under its id, which is checked; one that is there stays. -/
def Objects.put (P : Prims) (objects : Objects) (oid : ObjectId) (kind : ObjectKind)
    (data : Bytes) : Except HashMismatch Objects :=
  if (objects oid).isSome then .ok objects
  else
    if ObjectId.hashObject P oid.algo kind data ≠ oid then
      .error ⟨oid, ObjectId.hashObject P oid.algo kind data⟩
    else .ok (Function.update objects oid (some ⟨kind, data⟩))

theorem Objects.within_put {P : Prims} {objects objects' : Objects} {oid : ObjectId}
    {kind : ObjectKind} {data : Bytes} (h : objects.put P oid kind data = .ok objects') :
    Within objects objects' := by
  rw [Objects.put] at h
  split at h
  · cases h
    rfl
  · rename_i habsent
    split at h
    · cases h
    · cases h
      intro id object hid
      have hne : id ≠ oid := by
        rintro rfl
        rw [hid] at habsent
        exact habsent rfl
      rwa [Function.update_of_ne hne]

/-! ### Histories -/

/-- The parents of a commit. -/
def parentsOf (object : RawObject) : List ObjectId :=
  match object.kind, Commit.parse object.data with
  | .commit, .ok commit => commit.parents
  | _, _ => []

/-- The parents of a commit, and the object of a tag. -/
def linksOf (object : RawObject) : List ObjectId :=
  match object.kind, Tag.parse object.data with
  | .tag, .ok tag => tag.object.toList
  | _, _ => parentsOf object

/-- `a` is stored, and names `b`. -/
def Links (objects : Objects) (a b : ObjectId) : Prop :=
  ∃ object, objects a = some object ∧ b ∈ linksOf object

/-- `a` is a stored commit with parent `b`. -/
def HasParent (objects : Objects) (a b : ObjectId) : Prop :=
  ∃ object, objects a = some object ∧ b ∈ parentsOf object

def Reaches (objects : Objects) : ObjectId → ObjectId → Prop :=
  Relation.ReflTransGen (Links objects)

/-- `old` is in the history of `new`: what the local force check walks (`is_ancestor`). -/
def Descends (objects : Objects) (new old : ObjectId) : Prop :=
  Relation.ReflTransGen (HasParent objects) new old

/-- A stored commit that `id` reaches. -/
structure ReachesCommit (objects : Objects) (id c : ObjectId) : Prop where
  reaches : Reaches objects id c
  commit : ∃ data, objects c = some ⟨.commit, data⟩

end Alt.Repo
