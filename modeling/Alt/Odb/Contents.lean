import Alt.Odb.Payloads

namespace Alt.Odb

open Alt.Library Alt.Store NativeOdb

/-!
# Objects of an object database that is only put into

What it holds is the payloads and the list of its objects (`OdbWorld`); `OdbShows` says so of
a directory and a handle.  Storing an object appends it unless it is there
(`grows_putObject`), a wrong id changes nothing (`OdbShows.put_mismatch`), and every object
reads back (`yields_getObject`), also when the directory was opened again
(`OdbShows.openWith`).
-/

/-- A git object. -/
structure GitObject where
  algo : HashAlgo
  kind : ObjectKind
  data : Bytes
  deriving DecidableEq

namespace GitObject

variable (P : Prims)

def id (o : GitObject) : ObjectId := ObjectId.hashObject P o.algo o.kind o.data

/-- Its record in the object map. -/
def entry (o : GitObject) : MapEntry := ⟨o.id P, P.blake3 o.data, o.kind, .ofNat o.data.length⟩

/-- Its payload as it is read back. -/
def raw (o : GitObject) : RawObject := ⟨o.kind, o.data⟩

end GitObject

/-! ### Looking entries up -/

namespace ObjectMap

variable {es : List MapEntry}

/-- As long as there is a `u32` slot left, a record's slot is its place. -/
theorem fold_concat (hes : es.length < 2 ^ 32) (e : MapEntry) :
    indexing.fold (es ++ [e])
      = ⟨es ++ [e], Function.update (indexing.fold es).byGit e.git (some es.length),
          Function.update (indexing.fold es).byAlt e.alt
            (some (((indexing.fold es).byAlt e.alt).getD [] ++ [es.length]))⟩ := by
  have hslot : slot (indexing.fold es).entries.length = es.length := by
    rw [entries_fold, slot, Nat.mod_eq_of_lt hes]
  have hfold : indexing.fold (es ++ [e]) = (indexing.fold es).insert e := by
    rw [Indexing.fold_append]
    rfl
  rw [hfold, Index.insert, hslot, entries_fold]

/-- Slots point into the entries. -/
theorem slots_lt (hes : es.length ≤ 2 ^ 32) :
    (∀ oid, ∀ slot ∈ (indexing.fold es).byGit oid, slot < es.length) ∧
    ∀ id, ∀ slot ∈ ((indexing.fold es).byAlt id).getD [], slot < es.length := by
  induction es using List.reverseRecOn with
  | nil =>
    constructor
    · intro oid slot hs
      cases hs
    · intro id slot hs
      cases hs
  | append_singleton es e ih =>
    rw [List.length_append, List.length_singleton] at hes
    obtain ⟨hgit, halt⟩ := ih (by omega)
    rw [fold_concat (by omega), List.length_append, List.length_singleton]
    constructor
    · intro oid slot hs
      simp only [Function.update_apply] at hs
      split at hs
      · cases hs
        exact Nat.lt_succ_self _
      · exact Nat.lt_succ_of_lt (hgit oid slot hs)
    · intro id slot hs
      simp only [Function.update_apply] at hs
      split at hs
      · rw [Option.getD_some] at hs
        rcases List.mem_append.mp hs with hold | hnew
        · exact Nat.lt_succ_of_lt (halt e.alt slot hold)
        · rw [List.mem_singleton.mp hnew]
          exact Nat.lt_succ_self _
      · exact Nat.lt_succ_of_lt (halt id slot hs)

/-- The last entry of an id is found. -/
theorem find_concat (hes : es.length < 2 ^ 32) (e : MapEntry) (oid : ObjectId) :
    (indexing.fold (es ++ [e])).find oid
      = if oid = e.git then some e else (indexing.fold es).find oid := by
  rw [fold_concat hes, Index.find]
  simp only [Function.update_apply]
  split
  · rw [Option.bind_some, List.getElem?_concat_length]
  · rw [Index.find, entries_fold]
    cases hfound : (indexing.fold es).byGit oid with
    | none => rfl
    | some slot =>
      have hlt := (slots_lt hes.le).1 oid slot hfound
      rw [Option.bind_some, Option.bind_some, List.getElem?_append_left hlt]

/-- Behind the last slot the first one comes again. -/
theorem find_wrapped (hes : es.length = 2 ^ 32) {first : MapEntry}
    (hfirst : es.head? = some first) (e : MapEntry) :
    (indexing.fold (es ++ [e])).find e.git = some first := by
  have hslot : slot (indexing.fold es).entries.length = 0 := by
    rw [entries_fold, slot, hes, Nat.mod_self]
  have hfold : indexing.fold (es ++ [e]) = (indexing.fold es).insert e := by
    rw [Indexing.fold_append]
    rfl
  obtain ⟨es, rfl⟩ := List.head?_eq_some_iff.mp hfirst
  rw [hfold, Index.insert, hslot, Index.find]
  simp only [Function.update_self, Option.bind_some, entries_fold]
  rfl

/-- With distinct ids, an entry is found exactly if it is there. -/
theorem find_iff (hes : es.length ≤ 2 ^ 32) (hnodup : (es.map MapEntry.git).Nodup)
    {oid : ObjectId} {e : MapEntry} :
    (indexing.fold es).find oid = some e ↔ e ∈ es ∧ e.git = oid := by
  induction es using List.reverseRecOn with
  | nil =>
    constructor
    · intro h
      cases h
    · rintro ⟨h, -⟩
      cases h
  | append_singleton es x ih =>
    rw [List.length_append, List.length_singleton] at hes
    rw [List.map_append, List.nodup_append] at hnodup
    obtain ⟨hold, -, hdisj⟩ := hnodup
    have hne : ∀ e ∈ es, e.git ≠ x.git := fun e he =>
      hdisj e.git (List.mem_map_of_mem he) x.git (List.mem_singleton.mpr rfl)
    rw [find_concat (by omega) x oid, List.mem_append, List.mem_singleton]
    split
    · rename_i hx
      constructor
      · intro h
        cases h
        exact ⟨.inr rfl, hx.symm⟩
      · rintro ⟨hmem | rfl, hgit⟩
        · exact absurd (hgit.trans hx) (hne e hmem)
        · rfl
    · rename_i hx
      rw [ih (by omega) hold]
      constructor
      · rintro ⟨hmem, hgit⟩
        exact ⟨.inl hmem, hgit⟩
      · rintro ⟨hmem | rfl, hgit⟩
        · exact ⟨hmem, hgit⟩
        · exact absurd hgit.symm hx

end ObjectMap

/-! ### The world of an object database -/

structure OdbWorld where
  payloads : PayloadWorld
  objects : List GitObject

namespace OdbWorld

instance : Preorder OdbWorld where
  le w w' := w.payloads ≤ w'.payloads ∧ w.objects <+: w'.objects
  le_refl _ := ⟨le_rfl, List.prefix_rfl⟩
  le_trans _ _ _ h h' := ⟨h.1.trans h'.1, h.2.trans h'.2⟩

def empty : OdbWorld := ⟨⟨.empty, []⟩, []⟩

end OdbWorld

/-- No two objects collide under git's hashes. -/
structure DistinctIds (P : Prims) (os : List GitObject) : Prop where
  sha1 : Set.InjOn P.sha1 {b | ∃ o ∈ os, b = ObjectId.canonical o.kind o.data}
  sha256 : Set.InjOn P.sha256 {b | ∃ o ∈ os, b = ObjectId.canonical o.kind o.data}

/-- The directory and the handle hold the objects of the world.  Slots are `u32`. -/
structure OdbShows (P : Prims) (S : IdxSort) (X : Prisms) (opts : BlobOptions) (u : Universe)
    (os : List GitObject) (s : OdbDisk × NativeOdb) (w : OdbWorld) : Prop where
  payloads : PayloadShows P S X opts u s.1.map s.2.map s w.payloads
  map : (ObjectMap.format P).InStep ObjectMap.indexing s.1.map s.2.map
    (w.objects.map (GitObject.entry P))
  stored : ∀ o ∈ w.objects, w.payloads.Stores o.data
  distinct : w.objects.Nodup
  known : w.objects ⊆ os
  slots : w.objects.length ≤ 2 ^ 32
  sizes : ∀ o ∈ w.objects, o.data.length < 2 ^ 64

variable {P : Prims} {S : IdxSort} {X : Prisms} {opts : BlobOptions} {u : Universe}
  {os : List GitObject} {w : OdbWorld}

namespace DistinctIds

/-- Distinct objects have distinct ids. -/
theorem injective (hu : DistinctIds P os) :
    Set.InjOn (GitObject.id P) {o | o ∈ os} := by
  rintro ⟨algo, kind, data⟩ ho ⟨algo', kind', data'⟩ ho' heq
  have halgo : algo = algo' := by
    have hof : ∀ o : GitObject, (o.id P).algo = o.algo := by
      rintro ⟨algo, kind, data⟩
      cases algo <;> rfl
    have halgo := congrArg ObjectId.algo heq
    rwa [hof, hof] at halgo
  subst halgo
  have hcanonical : ObjectId.canonical kind data = ObjectId.canonical kind' data' := by
    cases algo with
    | sha1 => exact hu.sha1 ⟨_, ho, rfl⟩ ⟨_, ho', rfl⟩ (ObjectId.sha1.inj heq)
    | sha256 => exact hu.sha256 ⟨_, ho, rfl⟩ ⟨_, ho', rfl⟩ (ObjectId.sha256.inj heq)
  obtain ⟨rfl, rfl⟩ := ObjectId.canonical_injective hcanonical
  rfl

end DistinctIds

namespace OdbShows

variable {s : OdbDisk × NativeOdb}

theorem nodup_ids (hi : DistinctIds P os) (hs : OdbShows P S X opts u os s w) :
    ((w.objects.map (GitObject.entry P)).map MapEntry.git).Nodup := by
  rw [List.map_map]
  refine List.Nodup.map_on ?_ hs.distinct
  intro o ho o' ho' heq
  exact hi.injective (hs.known ho) (hs.known ho') heq

/-- **What the object map says**: the entries found are those of the objects. -/
theorem find_iff (hi : DistinctIds P os) (hs : OdbShows P S X opts u os s w)
    {oid : ObjectId} {e : MapEntry} :
    s.2.map.index.find oid = some e ↔ ∃ o ∈ w.objects, o.id P = oid ∧ e = o.entry P := by
  rw [hs.map.index, ObjectMap.find_iff (by rw [List.length_map]; exact hs.slots)
    (hs.nodup_ids hi), List.mem_map]
  constructor
  · rintro ⟨⟨o, ho, rfl⟩, hid⟩
    exact ⟨o, ho, hid, rfl⟩
  · rintro ⟨o, ho, rfl, rfl⟩
    exact ⟨⟨o, ho, rfl⟩, rfl⟩

theorem find_object (hi : DistinctIds P os) (hs : OdbShows P S X opts u os s w)
    {o : GitObject} (ho : o ∈ w.objects) : s.2.map.index.find (o.id P) = some (o.entry P) :=
  (hs.find_iff hi).mpr ⟨o, ho, rfl, rfl⟩

end OdbShows

/-! ### Payload programs

They leave the object map alone, so what they do to the payloads is all they do. -/

theorem OdbShows.of_payloads {s s' : OdbDisk × NativeOdb} (hs : OdbShows P S X opts u os s w)
    {v : PayloadWorld} (hle : w.payloads ≤ v)
    (hs' : PayloadShows P S X opts u s.1.map s.2.map s' v) :
    OdbShows P S X opts u os s' ⟨v, w.objects⟩ := by
  obtain ⟨disk, h⟩ := s
  obtain ⟨disk', h'⟩ := s'
  obtain ⟨hregistry, hblobs, htier1, hdec, hfile, hmap⟩ := hs'
  simp only at hfile hmap
  refine ⟨⟨hregistry, hblobs, htier1, hdec, rfl, rfl⟩, ?_,
    fun o ho => (hs.stored o ho).mono hle, hs.distinct, hs.known, hs.slots, hs.sizes⟩
  simp only [hfile, hmap]
  exact hs.map

theorem grows_payloads {α : Type} {m : OdbProg α} {Q : α → PayloadWorld → Prop}
    (hm : ∀ file map, Grows (PayloadShows P S X opts u file map) w.payloads m Q) :
    Grows (OdbShows P S X opts u os) w m fun a w' =>
      Q a w'.payloads ∧ w'.objects = w.objects := by
  intro s hs
  obtain ⟨v', hle, hshows, hq⟩ := hm s.1.map s.2.map s hs.payloads
  exact ⟨⟨v', w.objects⟩, ⟨hle, List.prefix_rfl⟩, hs.of_payloads hle hshows,
    fun a s' hok => ⟨hq a s' hok, rfl⟩⟩

theorem yields_payloads {α : Type} {m : OdbProg α} {a : α}
    (hm : ∀ file map, Yields (PayloadShows P S X opts u file map) w.payloads m a) :
    Yields (OdbShows P S X opts u os) w m a := by
  intro s hs
  obtain ⟨s', hrun, hshows⟩ := hm s.1.map s.2.map s hs.payloads
  exact ⟨s', hrun, hs.of_payloads le_rfl hshows⟩

/-! ### Storing objects -/

variable {o : GitObject}

theorem grows_appendEntry (ho : o ∈ os) (hnew : o ∉ w.objects) (hslot : w.objects.length < 2 ^ 32)
    (hsize : o.data.length < 2 ^ 64) (hstored : w.payloads.Stores o.data) :
    Grows (OdbShows P S X opts u os) w (appendEntry P (o.entry P)) fun _ w' =>
      w'.objects = w.objects ++ [o] := by
  rintro ⟨disk, h⟩ hs
  have hmap := hs.map.append (o.entry P)
  have hp := hs.payloads
  refine ⟨⟨w.payloads, w.objects ++ [o]⟩, ⟨le_rfl, List.prefix_append _ _⟩,
    ⟨⟨hp.registry, hp.blobs, hp.tier1, hp.decomposed, rfl, rfl⟩, ?_, ?_, ?_, ?_, ?_, ?_⟩,
    fun _ _ _ => rfl⟩
  · rw [List.map_append, List.map_singleton]
    exact hmap
  · intro o' ho'
    rcases List.mem_append.mp ho' with hold | heq
    · exact hs.stored o' hold
    · exact List.mem_singleton.mp heq ▸ hstored
  · rw [List.nodup_append]
    refine ⟨hs.distinct, List.nodup_singleton _, ?_⟩
    rintro o' ho' o'' ho'' rfl
    exact hnew (List.mem_singleton.mp ho'' ▸ ho')
  · intro o' ho'
    rcases List.mem_append.mp ho' with hold | heq
    · exact hs.known hold
    · exact List.mem_singleton.mp heq ▸ ho
  · rw [List.length_append, List.length_singleton]
    exact hslot
  · intro o' ho'
    rcases List.mem_append.mp ho' with hold | heq
    · exact hs.sizes o' hold
    · exact List.mem_singleton.mp heq ▸ hsize

theorem GitObject.algo_id (o : GitObject) : (o.id P).algo = o.algo := by
  obtain ⟨algo, kind, data⟩ := o
  cases algo <;> rfl

/-- An object under its own id passes the check. -/
theorem putNew_eq (o : GitObject) :
    putNew P S (o.id P) o.kind o.data = (do
      let alt ← putBlob P S o.data
      appendEntry P ⟨o.id P, alt, o.kind, .ofNat o.data.length⟩
      return alt) := by
  have hactual : ObjectId.hashObject P (o.id P).algo o.kind o.data = o.id P := by
    rw [o.algo_id]
    rfl
  rw [putNew, hactual]
  exact if_neg fun hne => hne rfl

theorem grows_putNew (hz : P.ZstdLawful) (hu : u.Distinct P) (hfits : u.Fits) (ho : o ∈ os)
    (hsub : payloadStrings P X opts o.data ⊆ u.fresh) (hslot : w.objects.length < 2 ^ 32)
    (hnew : o ∉ w.objects) :
    Grows (OdbShows P S X opts u os) w (putNew P S (o.id P) o.kind o.data) fun alt w' =>
      alt = P.blake3 o.data ∧ w'.objects = w.objects ++ [o] := by
  rw [putNew_eq]
  refine (grows_payloads fun _ _ => grows_putBlob hz hu hfits hsub).bind
    fun alt w₁ _ hput => ?_
  obtain ⟨⟨rfl, hstored⟩, hobjects⟩ := hput
  have happend : Grows (OdbShows P S X opts u os) w₁ (appendEntry P (o.entry P)) fun _ w' =>
      w'.objects = w₁.objects ++ [o] :=
    grows_appendEntry ho (hobjects ▸ hnew) (hobjects ▸ hslot)
      (hfits.length_lt (hsub List.mem_cons_self)) hstored
  exact happend.bind fun _ w₂ _ hgrown => Grows.pure ⟨rfl, hobjects ▸ hgrown⟩

/-- Taking the lock finds nothing new. -/
theorem OdbShows.acquire_eq {s : OdbDisk × NativeOdb} (hs : OdbShows P S X opts u os s w) :
    acquire P S s = .ok () (s.1, { s.2 with held := true }) := by
  obtain ⟨disk, h⟩ := s
  rw [acquire]
  dsimp only
  split
  · rename_i hheld
    obtain ⟨blobs, map, tier1, registry, held⟩ := h
    cases hheld
    rfl
  · have hblobs := hs.payloads.blobs.syncFromDisk_eq
    have hmap := hs.map.syncFromDisk
    have hfile : some (disk.map.getD []) = disk.map := by
      have hsome := hs.map.file
      simp only at hsome
      rw [hsome, Option.getD_some]
    simp only at hblobs hmap
    simp only [bind, EStateM.bind, withBlobs, hblobs, syncMap, hmap, hfile]

theorem OdbShows.hold {s : OdbDisk × NativeOdb} (hs : OdbShows P S X opts u os s w)
    (held : Bool) : OdbShows P S X opts u os (s.1, { s.2 with held }) w :=
  ⟨⟨hs.payloads.registry, hs.payloads.blobs, hs.payloads.tier1, hs.payloads.decomposed, rfl, rfl⟩,
    hs.map, hs.stored, hs.distinct, hs.known, hs.slots, hs.sizes⟩

/-- A put looks the id up with the lock held. -/
theorem OdbShows.put_eq {s : OdbDisk × NativeOdb} (hs : OdbShows P S X opts u os s w)
    (oid : ObjectId) (kind : ObjectKind) (data : Bytes) :
    put P S oid kind data s
      = match s.2.map.index.find oid with
        | some entry => .ok entry.alt (s.1, { s.2 with held := true })
        | none => putNew P S oid kind data (s.1, { s.2 with held := true }) := by
  simp only [put, bind, EStateM.bind, hs.acquire_eq] <;> rfl

/-- **Storing an object** under its id: it is there if the put says so. -/
theorem grows_putObject (hz : P.ZstdLawful) (hi : DistinctIds P os) (hu : u.Distinct P)
    (ho : o ∈ os)
    (hroom : o ∉ w.objects → u.Fits ∧ payloadStrings P X opts o.data ⊆ u.fresh ∧ w.objects.length < 2 ^ 32) :
    Grows (OdbShows P S X opts u os) w (put P S (o.id P) o.kind o.data) fun alt w' =>
      alt = P.blake3 o.data ∧ o ∈ w'.objects := by
  intro s hs
  have hheld := hs.hold true
  rw [hs.put_eq]
  cases hfind : s.2.map.index.find (o.id P) with
  | some entry =>
    obtain ⟨o', ho', hid, rfl⟩ := (hs.find_iff hi).mp hfind
    obtain rfl : o' = o := hi.injective (hs.known ho') ho hid
    refine ⟨w, le_rfl, hheld, fun alt s' hok => ?_⟩
    cases hok
    exact ⟨rfl, ho'⟩
  | none =>
    have hnew : o ∉ w.objects := by
      intro hmem
      rw [hs.find_object hi hmem] at hfind
      cases hfind
    obtain ⟨hfits, hsub, hslot⟩ := hroom hnew
    have hgrows := grows_putNew (S := S) hz hu hfits ho hsub hslot hnew
    refine (hgrows.imp fun alt w' _ hput => ⟨hput.1, ?_⟩) _ hheld
    rw [hput.2]
    exact List.mem_append_right _ (List.mem_singleton.mpr rfl)

variable {oid : ObjectId}

/-- **A wrong id is refused** and nothing is recorded: the lock is taken, and that is all. -/
theorem OdbShows.put_mismatch {s : OdbDisk × NativeOdb} (hs : OdbShows P S X opts u os s w)
    {kind : ObjectKind} {data : Bytes} (hfind : s.2.map.index.find oid = none)
    (hwrong : ObjectId.hashObject P oid.algo kind data ≠ oid) :
    put P S oid kind data s
      = .error (.hashMismatch oid (ObjectId.hashObject P oid.algo kind data))
          (s.1, { s.2 with held := true }) := by
  rw [hs.put_eq, hfind]
  simp only [putNew, hwrong, ne_eq, not_false_eq_true, if_true]
  rfl

/-- Mapped or not, an object under a wrong id is not stored. -/
theorem OdbShows.leaves_put_other {s : OdbDisk × NativeOdb} (hs : OdbShows P S X opts u os s w)
    (kind : ObjectKind) (data : Bytes) (hwrong : ObjectId.hashObject P oid.algo kind data ≠ oid) :
    leaves (put P S oid kind data s) = (s.1, { s.2 with held := true }) := by
  cases hfind : s.2.map.index.find oid with
  | some entry =>
    rw [hs.put_eq, hfind]
    rfl
  | none =>
    rw [hs.put_mismatch hfind hwrong]
    rfl

/-! ### Reading -/

theorem yields_readEntry (hu : u.Distinct P) {file : Option Bytes} {map : ObjectMap}
    {v : PayloadWorld} (oid : ObjectId) (hsize : o.data.length < 2 ^ 64) (hd : v.Stores o.data) :
    Yields (PayloadShows P S X opts u file map) v (readEntry P oid (o.entry P)) o.raw := by
  have hlen : (UInt64.ofNat o.data.length).toNat = o.data.length :=
    UInt64.toNat_ofNat_of_lt' hsize
  refine (yields_fetchBlob hu hd).bind ?_
  rw [if_neg (fun hne => hne hlen.symm)]
  exact .pure

/-- A get is the read of the entry found. -/
theorem get_of_find {s : OdbDisk × NativeOdb} {entry : MapEntry}
    (hfind : s.2.map.index.find oid = some entry) :
    NativeOdb.get P oid s
      = (do let object ← readEntry P oid entry; return some object : OdbProg _) s := by
  obtain ⟨disk, h⟩ := s
  simp only at hfind
  simp only [NativeOdb.get, hfind]

/-- **Reading an object** gives its kind and bytes. -/
theorem yields_getObject (hi : DistinctIds P os) (hu : u.Distinct P) (ho : o ∈ w.objects) :
    Yields (OdbShows P S X opts u os) w (NativeOdb.get P (o.id P)) (some o.raw) := by
  intro s hs
  have hread : ∀ file map, Yields (PayloadShows P S X opts u file map) w.payloads
      (do let object ← readEntry P (o.id P) (o.entry P); return some object : OdbProg _)
      (some o.raw) := fun file map =>
    (yields_readEntry hu (o.id P) (hs.sizes o ho) (hs.stored o ho)).bind .pure
  rw [get_of_find (hs.find_object hi ho)]
  exact yields_payloads hread s hs

theorem OdbShows.find_none (hi : DistinctIds P os) {s : OdbDisk × NativeOdb}
    (hs : OdbShows P S X opts u os s w) (ho : o ∈ os) (hnew : o ∉ w.objects) :
    s.2.map.index.find (o.id P) = none := by
  cases hfind : s.2.map.index.find (o.id P) with
  | none => rfl
  | some entry =>
    obtain ⟨o', ho', hid, -⟩ := (hs.find_iff hi).mp hfind
    exact absurd (hi.injective (hs.known ho') ho hid ▸ ho') hnew

/-- The state behind an append to the object map. -/
def appended (P : Prims) (t : OdbDisk × NativeOdb) (e : MapEntry) : OdbDisk × NativeOdb :=
  let (file, map) := (ObjectMap.format P).append ObjectMap.indexing (t.1.map.getD []) t.2.map e
  ({ t.1 with map := some file }, { t.2 with map })

/-- **A plain object is stored**: its payload, and then its entry. -/
theorem OdbShows.put_plain (hz : P.ZstdLawful) (hi : DistinctIds P os) (hu : u.Distinct P)
    (hfits : u.Fits) {s : OdbDisk × NativeOdb} (hs : OdbShows P S X opts u os s w) (ho : o ∈ os)
    (hnew : o ∉ w.objects) (hplain : Plain P X opts o.data)
    (hsub : payloadStrings P X opts o.data ⊆ u.fresh) :
    ∃ t v, put P S (o.id P) o.kind o.data s = .ok (P.blake3 o.data) (appended P t (o.entry P)) ∧
      w.payloads ≤ v ∧ PayloadShows P S X opts u s.1.map s.2.map t v := by
  have hheld := hs.hold true
  obtain ⟨t, hput⟩ := putBlob_plain hz hu hfits hheld.payloads hplain (hsub List.mem_cons_self)
  obtain ⟨v, hle, hshows, -⟩ := grows_putBlob hz hu hfits hsub _ hheld.payloads
  rw [hput] at hshows
  refine ⟨t, v, ?_, hle, hshows⟩
  rw [hs.put_eq, hs.find_none hi ho hnew, putNew_eq]
  simp only [bind, EStateM.bind, hput]
  rfl

/-- **Slots run out.** With 2^32 objects there, a put of another one succeeds, and what reads
    back under its id is the first object. -/
theorem OdbShows.put_wrapped (hz : P.ZstdLawful) (hi : DistinctIds P os) (hu : u.Distinct P)
    (hfits : u.Fits) {s : OdbDisk × NativeOdb} (hs : OdbShows P S X opts u os s w)
    (hfull : w.objects.length = 2 ^ 32) {first : GitObject}
    (hfirst : w.objects.head? = some first) (ho : o ∈ os) (hnew : o ∉ w.objects)
    (hplain : Plain P X opts o.data) (hsub : payloadStrings P X opts o.data ⊆ u.fresh) :
    ∃ alt t s', put P S (o.id P) o.kind o.data s = .ok alt t ∧
      NativeOdb.get P (o.id P) t = .ok (some first.raw) s' := by
  obtain ⟨t, v, hrun, hle, hshows⟩ := hs.put_plain hz hi hu hfits ho hnew hplain hsub
  -- the append touches nothing but the map
  have hshows' : PayloadShows P S X opts u (appended P t (o.entry P)).1.map
      (appended P t (o.entry P)).2.map (appended P t (o.entry P)) v :=
    ⟨hshows.registry, hshows.blobs, hshows.tier1, hshows.decomposed, rfl, rfl⟩
  have hindex : (appended P t (o.entry P)).2.map.index = ObjectMap.indexing.fold
      (w.objects.map (GitObject.entry P) ++ [o.entry P]) := by
    have hmap : t.2.map = s.2.map := hshows.map
    simp only [appended, RecordFormat.append, hmap, hs.map.index, Indexing.fold_append]
    rfl
  have hfound : (appended P t (o.entry P)).2.map.index.find (o.id P) = some (first.entry P) := by
    rw [hindex]
    refine ObjectMap.find_wrapped (by rw [List.length_map]; exact hfull) ?_ (o.entry P)
    rw [List.head?_map, hfirst]
    rfl
  have hmem : first ∈ w.objects := List.mem_of_head? hfirst
  have hread : Yields (PayloadShows P S X opts u (appended P t (o.entry P)).1.map
      (appended P t (o.entry P)).2.map) v
      (do let object ← readEntry P (o.id P) (first.entry P); return some object : OdbProg _)
      (some first.raw) :=
    (yields_readEntry hu (o.id P) (hs.sizes first hmem) ((hs.stored first hmem).mono hle)).bind
      .pure
  obtain ⟨s', hget, -⟩ := hread _ hshows'
  exact ⟨_, _, s', hrun, (get_of_find hfound).trans hget⟩

/-- A get changes nothing that is held. -/
theorem OdbShows.leaves_get (hi : DistinctIds P os) (hu : u.Distinct P)
    {s : OdbDisk × NativeOdb} (hs : OdbShows P S X opts u os s w) (oid : ObjectId) :
    OdbShows P S X opts u os (leaves (NativeOdb.get P oid s)) w := by
  cases hfind : s.2.map.index.find oid with
  | none =>
    obtain ⟨disk, h⟩ := s
    simp only at hfind
    simp only [NativeOdb.get, hfind]
    exact hs
  | some entry =>
    obtain ⟨o, ho, rfl, -⟩ := (hs.find_iff hi).mp hfind
    obtain ⟨s', hrun, hs'⟩ := yields_getObject hi hu ho s hs
    rw [hrun]
    exact hs'

/-! ### Opening -/

namespace OdbShows

variable {s : OdbDisk × NativeOdb}

/-- Another operation starts: what is there may stay anywhere in its universe. -/
theorem rebase (hs : OdbShows P S X opts u os s w) (strings : List Bytes) {os' : List GitObject}
    (hsub : ∀ data, w.payloads.Stores data → data ∈ strings) (hos : os ⊆ os')
    (fresh : List Bytes) :
    OdbShows P S X opts (.before strings fresh s.2.blobs.chunks w.payloads.blobs.chunks) os' s
      w :=
  ⟨⟨hs.payloads.registry, hs.payloads.blobs.rebase (fun data hd => hsub data (.inr hd)) fresh,
      hs.payloads.tier1, fun data hd => hsub data (.inl hd), rfl, rfl⟩,
    hs.map, hs.stored, hs.distinct, fun _ ho => hos (hs.known ho), hs.slots, hs.sizes⟩

/-- A fresh directory holds no objects. -/
theorem openWith_fresh (X : Prisms) (opts : BlobOptions) (strings : List Bytes)
    (os : List GitObject) :
    ∃ disk h, NativeOdb.openWith P S X opts .fresh = (disk, .ok h) ∧
      OdbShows P S X opts (.before strings [] h.blobs.chunks []) os (disk, h) .empty := by
  obtain ⟨blobs, store, hblobs, hshows⟩ := BlobShows.openWith_nil (P := P) (S := S) strings opts
  obtain ⟨mapFile, map, hmap, hmapStep⟩ :=
    RecordFormat.InStep.openLog_none (F := ObjectMap.format P) (I := ObjectMap.indexing)
  obtain ⟨tier1File, tier1, htier1, htierStep⟩ :=
    RecordFormat.InStep.openLog_none (F := Tier1Map.format P) (I := Tier1Map.indexing)
  refine ⟨⟨blobs, some mapFile, some tier1File⟩, ⟨store, map, tier1, defaultRegistry X, false⟩,
    ?_, ⟨rfl, hshows, ⟨[], htierStep, .nil⟩, List.nil_subset _, rfl, rfl⟩, hmapStep,
    fun o ho => absurd ho List.not_mem_nil, List.nodup_nil, List.nil_subset os,
    Nat.zero_le _, fun o ho => absurd ho List.not_mem_nil⟩
  simp only [NativeOdb.openWith, OdbDisk.fresh, hblobs, hmap, htier1]

/-- **Reopening** finds the same objects. -/
theorem openWith (hs : OdbShows P S X opts u os s w) :
    ∃ disk h, NativeOdb.openWith P S X opts s.1 = (disk, .ok h) ∧
      OdbShows P S X opts u os (disk, h) w := by
  obtain ⟨disk, h⟩ := s
  obtain ⟨blobs, store, hblobs, hshows⟩ := hs.payloads.blobs.openWith
  obtain ⟨mapFile, map, hmap, hmapStep⟩ := hs.map.openLog
  obtain ⟨recs, hstep, hdec⟩ := hs.payloads.tier1
  obtain ⟨tier1File, tier1, htier1, htierStep⟩ := hstep.openLog
  refine ⟨⟨blobs, some mapFile, some tier1File⟩, ⟨store, map, tier1, defaultRegistry X, false⟩,
    ?_, ⟨rfl, hshows, ⟨recs, htierStep, hdec⟩, hs.payloads.decomposed, rfl, rfl⟩, hmapStep,
    hs.stored, hs.distinct, hs.known, hs.slots, hs.sizes⟩
  simp only at hblobs hmap htier1
  simp only [NativeOdb.openWith, hblobs, hmap, htier1]

end OdbShows

end Alt.Odb
