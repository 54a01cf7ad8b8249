import Alt.GitPack.IndexPack
import Alt.Library.Chain
import Alt.Library.FinMap

namespace Alt.GitPack

open Alt.Library

/-!
# Reading from a pack (`alt-git-pack/src/lib.rs`, 86–125; `src/cache.rs`)

`readAt` walks down the chain of bases to a cached object or a plain entry, and applies the deltas on
the way back up.  The walk has no bound: `none` is a walk that is still going when the fuel is out.
-/

/-! ### The cache -/

structure CacheEntry where
  kind : ObjectKind
  data : Bytes
  last : Nat

structure DeltaBaseCache where
  map : FinMap Nat CacheEntry
  bytes : Nat
  budget : Nat
  tick : Nat

namespace DeltaBaseCache

def new (budget : Nat) : DeltaBaseCache := ⟨FinMap.empty, 0, budget, 0⟩

def get (cache : DeltaBaseCache) (offset : Nat) : Option Resolved × DeltaBaseCache :=
  let tick := cache.tick + 1
  match cache.map.get offset with
  | none => (none, { cache with tick })
  | some entry =>
    (some ⟨entry.kind, entry.data⟩, { cache with tick, map := cache.map.insert offset { entry with last := tick } })

/-- The oldest entries go until the rest is within the target. -/
def evictFrom (target : Nat) : List (Nat × CacheEntry) → DeltaBaseCache → DeltaBaseCache
  | [], cache => cache
  | (off, entry) :: byAge, cache =>
    if cache.bytes ≤ target then cache
    else evictFrom target byAge
      { cache with map := cache.map.erase off, bytes := cache.bytes - entry.data.length }

/-- The order of eviction: the age, then the offset. -/
def byAge (a b : Nat × CacheEntry) : Prop := a.2.last < b.2.last ∨ a.2.last = b.2.last ∧ a.1 ≤ b.1

instance : DecidableRel byAge := fun _ _ => inferInstanceAs (Decidable (_ ∨ _ ∧ _))

def evictTo (cache : DeltaBaseCache) (target : Nat) : DeltaBaseCache :=
  evictFrom target (cache.map.entries.insertionSort byAge) cache

def put (cache : DeltaBaseCache) (offset : Nat) (r : Resolved) : DeltaBaseCache :=
  if cache.budget / 4 < r.data.length then cache
  else
    let tick := cache.tick + 1
    let old := ((cache.map.get offset).map fun entry => entry.data.length).getD 0
    let bytes := cache.bytes - old + r.data.length
    let cache := { cache with tick, bytes, map := cache.map.insert offset ⟨r.kind, r.data, tick⟩ }
    if cache.budget < bytes then cache.evictTo (cache.budget / 2) else cache

end DeltaBaseCache

/-! ### The walk -/

/-- A pack and its index. -/
structure IndexedPack where
  map : Bytes
  algo : HashAlgo
  idx : PackIndex

namespace IndexedPack

variable (Z : Flate) (pack : IndexedPack)

/-- What the walk does with an entry. -/
inductive Step
  | object (kind : ObjectKind)
  | base (offset : Nat)

/-- Where the base of a delta is: by its distance, or by its id and the index. -/
def stepOf : EntryKind → Except Fault Step
  | .plain kind => .ok (.object kind)
  | .ofsDelta baseAt => .ok (.base baseAt)
  | .refDelta base =>
    match pack.idx.lookup base with
    | none => format "ref-delta base not in pack"
    | some i =>
      match pack.idx.offsetAt i with
      | .error e => .error (.failed e)
      | .ok offset => .ok (.base offset)

/-- Down the chain: the deltas on the way, the nearest base first, and the object the walk ends at. -/
def walkDown : Nat → List (Nat × EntryInfo) → Nat → DeltaBaseCache →
    Option (Except Fault (List (Nat × EntryInfo) × Resolved) × DeltaBaseCache)
  | 0, _, _, _ => none
  | fuel + 1, frames, cur, cache =>
    match cache.get cur with
    | (some hit, cache) => some (.ok (frames, hit), cache)
    | (none, cache) =>
      match entryInfo pack.algo pack.map cur with
      | .error f => some (.error f, cache)
      | .ok info =>
        match pack.stepOf info.kind with
        | .error f => some (.error f, cache)
        | .ok (.object kind) =>
          match inflate Z pack.map info.dataAt info.size with
          | .error f => some (.error f, cache)
          | .ok data => some (.ok (frames, ⟨kind, data⟩), cache.put cur ⟨kind, data⟩)
        | .ok (.base base) => walkDown fuel ((cur, info) :: frames) base cache

/-- Up again: every delta on the way is applied, and every result is put into the cache. -/
def applyUp : List (Nat × EntryInfo) → Resolved → DeltaBaseCache → Except Fault Resolved × DeltaBaseCache
  | [], r, cache => (.ok r, cache)
  | (off, info) :: frames, r, cache =>
    match inflate Z pack.map info.dataAt info.size with
    | .error f => (.error f, cache)
    | .ok rawDelta =>
      match apply r.data rawDelta with
      | .error e => (.error (.failed e), cache)
      | .ok out => applyUp frames ⟨r.kind, out⟩ (cache.put off ⟨r.kind, out⟩)

/-- Reads the object stored at an offset. -/
def readAt (fuel offset : Nat) (cache : DeltaBaseCache) : Option (Except Fault Resolved × DeltaBaseCache) :=
  match pack.walkDown Z fuel [] offset cache with
  | none => none
  | some (.error f, cache) => some (.error f, cache)
  | some (.ok (frames, r), cache) => some (pack.applyUp Z frames r cache)

end IndexedPack

end Alt.GitPack
