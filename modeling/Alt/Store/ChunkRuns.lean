import Alt.Library.System
import Alt.Store.ChunkReload
import Alt.Store.IdxCache

namespace Alt.Store

open Alt.Library Pack ChunkStore List

/-!
# Runs of chunk stores on one directory

Any number of handles on one pack directory.  A handle writes while it holds the write
lock, which it takes by reconciling with the disk; handles open and close, read, reconcile,
and altidx files disappear at any time.

`chunk_store_content` is the content invariant over whole runs.  Its condition `Undisturbed`
names what the code relies on and does not ensure: whenever packs are loaded, every altidx
names the last record of each chunk in its pack, and whenever a handle decides that nothing
changed on disk, nothing changed.
-/

/-- The directory, the lock, the open handles, and (for the statement) every chunk stored. -/
structure StoreState where
  dir : Dir
  holder : Option Nat
  handles : Nat → Option ChunkStore
  puts : List Bytes

inductive StoreAction
  | openStore (i : Nat) (opts : Options)
  | close (i : Nat)
  | acquire (i : Nat)
  | release (i : Nat)
  | sync (i : Nat)
  | put (i : Nat) (data : Bytes)
  | reencode (i : Nat) (id base : ChunkId)
  | compact (i : Nat)
  | rewind (i : Nat) (ckpt : ChunkCheckpoint)
  | read (i : Nat) (id : ChunkId)
  | dropIdx (seq : Nat)

namespace StoreState

/-- Handle `i` and the directory after an operation. -/
def withHandle (s : StoreState) (i : Nat) (d : Dir) (h : ChunkStore) : StoreState :=
  { s with dir := d, handles := Function.update s.handles i (some h) }

/-- The handle that may write. -/
def writer (s : StoreState) (i : Nat) : Option ChunkStore :=
  if s.holder = some i then s.handles i else none

end StoreState

def storeStep (P : Prims) (S : IdxSort) (s : StoreState) : StoreAction → Option StoreState
  | .openStore i opts =>
    if (s.handles i).isSome then none
    else
      match openWith S opts s.dir with
      | (d, .error _) => some { s with dir := d }
      | (d, .ok h) => some (s.withHandle i d h)
  | .close i => (s.handles i).map fun _ =>
      { s with
        handles := Function.update s.handles i none
        holder := if s.holder = some i then none else s.holder }
  | .acquire i =>
    if s.holder ≠ none then none
    else (s.handles i).map fun h =>
      match syncFromDisk S s.dir h with
      | (d, h, .error _) => s.withHandle i d h
      | (d, h, .ok ()) => { s.withHandle i d h with holder := some i }
  | .release i => if s.holder = some i then some { s with holder := none } else none
  | .sync i => (s.handles i).map fun h =>
      let (d, h, _) := syncFromDisk S s.dir h
      s.withHandle i d h
  | .put i data => (s.writer i).map fun h =>
      match put P S s.dir h data with
      | (d, h, .error _) => s.withHandle i d h
      | (d, h, .ok _) => { s.withHandle i d h with puts := s.puts ++ [data] }
  | .reencode i id base => (s.writer i).map fun h =>
      let (d, h, _) := reencodeAsDelta P S s.dir h id base
      s.withHandle i d h
  | .compact i => (s.writer i).map fun h =>
      let (d, h, _) := ChunkStore.compact S s.dir h
      s.withHandle i d h
  | .rewind i ckpt => (s.writer i).map fun h =>
      let (d, h, _) := ChunkStore.rewind S s.dir h ckpt
      s.withHandle i d h
  | .read i id => (s.handles i).map fun h =>
      s.withHandle i s.dir { h with cache := (ChunkStore.get P s.dir h id).2 }
  | .dropIdx seq => some { s with dir := s.dir.modify seq fun f => { f with idx := none } }

/-- The stores of a fresh directory. -/
def chunkStores (P : Prims) (S : IdxSort) : System StoreState StoreAction where
  init := ⟨[], none, fun _ => none, []⟩
  step := storeStep P S

/-- There is room for another record and another two packs: lengths fit a `u64` and pack
    numbers a `u32`. -/
def Roomy (d : Dir) : Prop :=
  (d.map fun f => f.data.length).sum + 2 ^ 33 < 2 ^ 64 ∧ ∀ f ∈ d, f.seq + 2 < 2 ^ 32

instance (d : Dir) : Decidable (Roomy d) := inferInstanceAs (Decidable (_ ∧ _))

/-- What the code relies on at a step. -/
def Undisturbed (s : StoreState) : StoreAction → Prop
  | .openStore _ _ => AltidxAgree s.dir
  | .acquire i | .sync i => ∀ h, s.handles i = some h →
      (diskChanged s.dir h = .ok true → AltidxAgree s.dir) ∧
      (diskChanged s.dir h = .ok false → Current s.dir h)
  | .put _ _ | .reencode _ _ _ | .compact _ => Roomy s.dir
  | .rewind _ _ => AltidxAgree s.dir
  | .read i _ => ∀ h, s.handles i = some h → Current s.dir h
  | .close _ | .release _ | .dropIdx _ => True

/-- The bytes of a chunk: stored, and with its hash. -/
def Stored (P : Prims) (puts : List Bytes) (id : ChunkId) (data : Bytes) : Prop :=
  data ∈ puts ∧ P.blake3 data = id

/-! ### The run invariant -/

variable {P : Prims} {S : IdxSort} {s s' : StoreState} {c c' : PackSet}

/-- The directory is a pack set in which everything resolves; every handle holds some pack
    set, and the writer holds this one. -/
structure StoreHolds (P : Prims) (S : IdxSort) (s : StoreState) (c : PackSet) : Prop where
  dir : s.dir = c.dir S
  grounded : GroundedAll P (Stored P s.puts) c
  behind : ∀ i h, s.handles i = some h → ∃ c₀, Follows c₀ h
  cache : ∀ i h, s.handles i = some h → CacheOk (Stored P s.puts) h.cache
  writer : ∀ i, s.holder = some i → ∃ h, s.handles i = some h ∧ Follows c h

/-- Nothing was opened yet, or the directory is in order. -/
def StoreInv (P : Prims) (S : IdxSort) (s : StoreState) : Prop :=
  s = (chunkStores P S).init ∨ ∃ c, StoreHolds P S s c

variable {puts : List Bytes}

theorem content_stored (hinj : Set.InjOn P.blake3 {b | b ∈ puts}) :
    Content P (Stored P puts) where
  unique := by
    rintro id data data' ⟨hmem, hhash⟩ ⟨hmem', hhash'⟩
    exact hinj hmem hmem' (hhash.trans hhash'.symm)
  hash := fun _ _ h => h.2

variable {puts' : List Bytes} {id : ChunkId} {data : Bytes}

theorem Stored.mono (hsub : puts ⊆ puts') (h : Stored P puts id data) :
    Stored P puts' id data := ⟨hsub h.1, h.2⟩

variable {i : Nat}

/-- One handle and the directory changed: what is left to show. -/
theorem StoreHolds.update (hs : StoreHolds P S s c) {h' : ChunkStore} {holder' : Option Nat}
    (hsub : s.puts ⊆ puts') (hg : GroundedAll P (Stored P puts') c')
    (hbehind : ∃ c₀, Follows c₀ h') (hcache : CacheOk (Stored P puts') h'.cache)
    (hwriter : ∀ j, holder' = some j → (j = i ∧ Follows c' h') ∨ (j ≠ i ∧ s.holder = some j ∧ ∀ h, Follows c h → Follows c' h)) :
    StoreHolds P S ⟨c'.dir S, holder', Function.update s.handles i (some h'), puts'⟩ c' where
  dir := rfl
  grounded := hg
  behind j h hj := by
    simp only [Function.update_apply] at hj
    split at hj
    · cases hj
      exact hbehind
    · exact hs.behind j h hj
  cache j h hj := by
    simp only [Function.update_apply] at hj
    split at hj
    · cases hj
      exact hcache
    · exact fun e he => (hs.cache j h hj e he).mono hsub
  writer j hj := by
    rcases hwriter j hj with ⟨rfl, hf⟩ | ⟨hne, hold, hkeep⟩
    · exact ⟨h', Function.update_self .., hf⟩
    · obtain ⟨h, hh, hf⟩ := hs.writer j hold
      exact ⟨h, (Function.update_of_ne hne _ _).trans hh, hkeep h hf⟩

/-- The writer's own operations. -/
theorem StoreHolds.writerStep (hs : StoreHolds P S s c) {h' : ChunkStore} (hi : s.holder = some i)
    (hsub : s.puts ⊆ puts') (hg : GroundedAll P (Stored P puts') c') (hf : Follows c' h')
    (hcache : CacheOk (Stored P puts') h'.cache) :
    StoreHolds P S ⟨c'.dir S, s.holder, Function.update s.handles i (some h'), puts'⟩ c' := by
  apply hs.update hsub hg ⟨c', hf⟩ hcache
  intro j hj
  rw [hi] at hj
  cases hj
  exact .inl ⟨rfl, hf⟩

variable {h : ChunkStore}

theorem StoreHolds.writer_follows (hs : StoreHolds P S s c) (hw : s.writer i = some h) :
    s.holder = some i ∧ s.handles i = some h ∧ Follows c h := by
  unfold StoreState.writer at hw
  split at hw
  · rename_i hi
    obtain ⟨h', hh', hf⟩ := hs.writer i hi
    rw [hw] at hh'
    cases hh'
    exact ⟨hi, hw, hf⟩
  · cases hw

/-! ### Room -/

theorem Roomy.records (hr : Roomy (c.dir S)) : (packBytes c.records).length + 2 ^ 33 < 2 ^ 64 := by
  have hsum := hr.1
  have hle : (packBytes c.records).length ≤ ((c.dir S).map fun f => f.data.length).sum := by
    have hsealed : ∀ ps : List SealedPack, (body (ps.flatMap SealedPack.recs)).length
        ≤ ((ps.map (SealedPack.file S)).map fun f => f.data.length).sum := by
      intro ps
      induction ps with
      | nil => exact Nat.le_refl 0
      | cons p ps ih =>
        have hp := length_packBytes p.recs
        simp only [flatMap_cons, body_append, length_append, map_cons, sum_cons]
        simp only [SealedPack.file]
        omega
    have h1 := hsealed c.sealed
    have h2 := length_packBytes c.active
    rw [length_packBytes, PackSet.records, body_append, length_append, PackSet.dir,
      map_append, sum_append]
    simp only [map_cons, map_nil, sum_cons, sum_nil]
    omega
  omega

theorem Roomy.active (hr : Roomy (c.dir S)) : (packBytes c.active).length + 2 ^ 33 < 2 ^ 64 := by
  have hrec := hr.records
  rw [length_packBytes] at hrec ⊢
  rw [PackSet.records, body_append, length_append] at hrec
  omega

theorem Roomy.seq (hr : Roomy (c.dir S)) : c.activeSeq + 2 < 2 ^ 32 :=
  hr.2 ⟨c.activeSeq, packBytes c.active, none⟩
    (mem_append_right _ (mem_singleton.mpr rfl))

/-! ### What one step preserves -/

theorem groundedAll_congr (h : c.records = c'.records) (hactive : c.active = c'.active)
    (hg : GroundedAll P (Stored P s.puts) c) : GroundedAll P (Stored P s.puts) c' := by
  have hsealed : c.sealed.flatMap SealedPack.recs = c'.sealed.flatMap SealedPack.recs := by
    unfold PackSet.records at h
    rw [hactive] at h
    exact append_cancel_right h
  intro n
  have := hg n
  simpa [PackSet.cut, PackSet.records, hsealed, hactive] using this

/-- An altidx file disappears. -/
def PackSet.dropIdx (c : PackSet) (seq : Nat) : PackSet :=
  { c with
    sealed := c.sealed.map fun p => if p.seq = seq then { p with indexed := false } else p
    ordered := by
      have hseqs : (c.sealed.map fun p => if p.seq = seq then { p with indexed := false } else p).map
          SealedPack.seq = c.sealed.map SealedPack.seq := by
        rw [map_map]
        apply map_congr_left
        intro p hp
        simp only [Function.comp_apply]
        split <;> rfl
      rw [hseqs]
      exact c.ordered }

theorem PackSet.dropIdx_packs (c : PackSet) (seq : Nat) {α : Type} (f : SealedPack → α)
    (hf : ∀ p, f { p with indexed := false } = f p) :
    (c.dropIdx seq).sealed.map f = c.sealed.map f := by
  simp only [PackSet.dropIdx, map_map]
  apply map_congr_left
  intro p hp
  simp only [Function.comp_apply]
  split
  · exact hf p
  · rfl

theorem follows_dropIdx (seq : Nat) (hf : Follows c h) :
    Follows (c.dropIdx seq) h := by
  refine ⟨?_, hf.active, ?_⟩
  · rw [hf.sealed]
    exact (c.dropIdx_packs seq (fun p => (p.seq, packBytes p.recs)) fun _ => rfl).symm
  · have hscanned : (c.dropIdx seq).scanned = c.scanned := by
      have := c.dropIdx_packs seq (fun p => located p.seq (entries p.recs)) fun _ => rfl
      simp only [PackSet.scanned, flatMap_def, this]
      rfl
    rw [hscanned]
    exact hf.index

theorem records_dropIdx (c : PackSet) (seq : Nat) : (c.dropIdx seq).records = c.records := by
  have := c.dropIdx_packs seq SealedPack.recs fun _ => rfl
  simp only [PackSet.records, flatMap_def, this]
  rfl

theorem dir_dropIdx (S : IdxSort) (c : PackSet) (seq : Nat) :
    (c.dir S).modify seq (fun f => { f with idx := none }) = (c.dropIdx seq).dir S := by
  have hactive : ∀ f : PackFile, f.idx = none →
      (if f.seq = seq then { f with idx := none } else f) = f := by
    rintro ⟨n, data, idx⟩ rfl
    split <;> rfl
  have hsealed : ∀ p : SealedPack,
      (if (p.file S).seq = seq then { p.file S with idx := none } else p.file S)
        = (if p.seq = seq then { p with indexed := false } else p : SealedPack).file S := by
    intro p
    by_cases hp : p.seq = seq
    · rw [if_pos hp, if_pos (show (p.file S).seq = seq from hp)]
      rfl
    · rw [if_neg hp, if_neg (show ¬ (p.file S).seq = seq from hp)]
  simp only [Dir.modify, PackSet.dir, PackSet.dropIdx, map_append, map_map,
    map_singleton, hactive ⟨c.activeSeq, packBytes c.active, none⟩ rfl]
  congr 1
  apply map_congr_left
  intro p hp
  exact hsealed p

/-- A handle that reconciles, or finds nothing to do. -/
theorem StoreHolds.syncStep (hs : StoreHolds P S s c) (hh : s.handles i = some h)
    (hagree : diskChanged s.dir h = .ok true → AltidxAgree s.dir)
    (hsame : diskChanged s.dir h = .ok false → Current s.dir h) :
    ∃ c' h' res, syncFromDisk S s.dir h = (c'.dir S, h', res) ∧
      StoreHolds P S (s.withHandle i (c'.dir S) h') c' ∧ (res = .ok () → Follows c' h') := by
  obtain ⟨c₀, hf⟩ := hs.behind i h hh
  have hcache := hs.cache i h hh
  rw [hs.dir] at hagree hsame ⊢
  obtain ⟨c', h', res, heq, hc', hcache', hres⟩ := syncFromDisk_spec hf hagree hsame
  have hg : GroundedAll P (Stored P s.puts) c' := by
    rcases hc' with rfl | rfl
    · exact hs.grounded
    · exact groundedAll_reindexed hs.grounded
  have hkeep : ∀ h, Follows c h → Follows c' h := by
    intro h hf
    rcases hc' with rfl | rfl
    · exact hf
    · exact follows_reindexed.mpr hf
  refine ⟨c', h', res, heq, ?_, ?_⟩
  · apply hs.update (List.Subset.refl _) hg
    · rcases hres with ⟨-, hf'⟩ | ⟨-, rfl⟩
      · exact ⟨c', hf'⟩
      · exact ⟨c₀, hf⟩
    · exact hcache' ▸ hcache
    · intro j hj
      by_cases hji : j = i
      · -- the writer itself reconciles: it was in step before
        subst hji
        obtain ⟨h₁, hh₁, hf₁⟩ := hs.writer j hj
        rw [hh] at hh₁
        cases hh₁
        rcases hres with ⟨-, hf'⟩ | ⟨-, rfl⟩
        · exact .inl ⟨rfl, hf'⟩
        · exact .inl ⟨rfl, hkeep _ hf₁⟩
      · exact .inr ⟨hji, hj, hkeep⟩
  · intro hok
    rcases hres with ⟨-, hf'⟩ | ⟨⟨e, rfl⟩, -⟩
    · exact hf'
    · cases hok

/-- The first pack of a fresh directory. -/
def PackSet.first : PackSet where
  sealed := []
  activeSeq := 1
  active := []
  ordered := by simp

theorem openWith_nil (S : IdxSort) (opts : Options) :
    ∃ h, openWith S opts [] = (PackSet.first.dir S, .ok h) ∧ Follows PackSet.first h ∧
      h.cache = .new :=
  ⟨_, rfl, ⟨rfl, rfl, fun _ => rfl⟩, rfl⟩

theorem groundedAll_first : GroundedAll P (Stored P s.puts) PackSet.first := by
  apply GroundedAll.of_records _ rfl
  exact Coding.Grounded.nil

theorem storeInv_openStore (hinv : StoreInv P S s) {opts : Options} (ha : AltidxAgree s.dir)
    (hstep : storeStep P S s (.openStore i opts) = some s') :
    StoreInv P S s' := by
  simp only [storeStep] at hstep
  split at hstep
  · cases hstep
  rename_i hfree
  rcases hinv with rfl | ⟨c, hs⟩
  · obtain ⟨h, heq, hf, hcache⟩ := openWith_nil S opts
    have hdir : (chunkStores P S).init.dir = [] := rfl
    rw [hdir, heq] at hstep
    cases hstep
    refine .inr ⟨PackSet.first, rfl, groundedAll_first, ?_, ?_, ?_⟩
    · intro j h' hj
      simp only [StoreState.withHandle, Function.update_apply] at hj
      split at hj
      · cases hj
        exact ⟨_, hf⟩
      · cases hj
    · intro j h' hj
      simp only [StoreState.withHandle, Function.update_apply] at hj
      split at hj
      · cases hj
        exact hcache ▸ cacheOk_new
      · cases hj
    · intro j hj
      cases hj
  · have hopen := PackSet.openWith_dir S opts c
    rw [hs.dir] at ha
    rw [hs.dir, hopen] at hstep
    cases hstep
    have hf := ha.follows opts .new
    refine .inr ⟨c.reindexed, hs.update (List.Subset.refl _) (groundedAll_reindexed hs.grounded)
      ⟨c, hf⟩ cacheOk_new ?_⟩
    intro j hj
    have hji : j ≠ i := by
      rintro rfl
      obtain ⟨h, hh, -⟩ := hs.writer j hj
      rw [hh] at hfree
      exact hfree rfl
    exact .inr ⟨hji, hj, fun h hf => follows_reindexed.mpr hf⟩

theorem storeInv_put (hz : P.ZstdLawful) (hs : StoreHolds P S s c) (hw : s.writer i = some h)
    (hroom : Roomy s.dir) (hstep : storeStep P S s (.put i data) = some s') : StoreInv P S s' := by
  obtain ⟨hi, hh, hf⟩ := hs.writer_follows hw
  have hcache := hs.cache i h hh
  rw [hs.dir] at hroom
  simp only [storeStep, hw, Option.map_some, Option.some.injEq] at hstep
  subst hstep
  rw [hs.dir]
  have hsub : s.puts ⊆ s.puts ++ [data] := subset_append_left _ _
  have hmono : ∀ id v, Stored P s.puts id v → Stored P (s.puts ++ [data]) id v :=
    fun id v hv => hv.mono hsub
  have hfits : data.length < 2 ^ 32 →
      (packBytes c.active).length + (recHeaderLen + data.length) < 2 ^ 64 := by
    intro hdata
    have hactive := hroom.active
    rw [recHeaderLen]
    omega
  rcases put_spec hz hf data hfits (by have := hroom.seq; omega) with
    ⟨loc, heq, -⟩ | ⟨e, heq, -⟩ | ⟨r, c', h', heq, hpushed, hf', hcache', hid, hnew, hb, hd, -⟩
  · rw [heq]
    exact .inr ⟨c, hs.writerStep hi hsub (hs.grounded.imp hmono) hf fun e he => (hcache e he).mono hsub⟩
  · rw [heq]
    exact .inr ⟨c, hs.writerStep hi (List.Subset.refl _) hs.grounded hf hcache⟩
  · rw [heq]
    have hright : Stored P (s.puts ++ [data]) r.id data :=
      ⟨mem_append_right _ (mem_singleton.mpr rfl), hid.symm⟩
    have hg := hs.grounded.imp hmono
    have hground := hg.grounded.full hnew hb hd hright
    exact .inr ⟨c', hs.writerStep hi hsub (hg.pushed hground hpushed) hf'
      fun e he => (hcache e (hcache' ▸ he)).mono hsub⟩

/-- **One step keeps the invariant.** -/
theorem storeInv_step (hz : P.ZstdLawful) {a : StoreAction} (hinv : StoreInv P S s)
    (hinj : Set.InjOn P.blake3 {b | b ∈ s.puts}) (hg : Undisturbed s a)
    (hstep : storeStep P S s a = some s') : StoreInv P S s' := by
  by_cases hopen : ∃ i opts, a = .openStore i opts
  · obtain ⟨i, opts, rfl⟩ := hopen
    exact storeInv_openStore hinv hg hstep
  rcases hinv with rfl | ⟨c, hs⟩
  · -- before the first open there is no handle, and no file
    cases a with
    | openStore i opts => exact absurd ⟨i, opts, rfl⟩ hopen
    | dropIdx seq =>
      simp only [storeStep, Option.some.injEq] at hstep
      exact .inl hstep.symm
    | _ => simp [storeStep, chunkStores, StoreState.writer] at hstep
  cases a with
  | openStore i opts => exact absurd ⟨i, opts, rfl⟩ hopen
  | close i =>
    simp only [storeStep, Option.map_eq_some_iff] at hstep
    obtain ⟨h, hh, rfl⟩ := hstep
    refine .inr ⟨c, hs.dir, hs.grounded, ?_, ?_, ?_⟩
    · intro j h' hj
      simp only [Function.update_apply] at hj
      split at hj
      · cases hj
      · exact hs.behind j h' hj
    · intro j h' hj
      simp only [Function.update_apply] at hj
      split at hj
      · cases hj
      · exact hs.cache j h' hj
    · intro j hj
      dsimp only at hj
      split at hj
      · cases hj
      · rename_i hne
        obtain ⟨h', hh', hf⟩ := hs.writer j hj
        have hji : j ≠ i := fun heq => hne (heq ▸ hj)
        exact ⟨h', (Function.update_of_ne hji _ _).trans hh', hf⟩
  | acquire i =>
    simp only [storeStep] at hstep
    split at hstep
    · cases hstep
    rename_i hfree
    rw [not_not] at hfree
    simp only [Option.map_eq_some_iff] at hstep
    obtain ⟨h, hh, rfl⟩ := hstep
    obtain ⟨c', h', res, heq, hs', hok⟩ := hs.syncStep hh (hg h hh).1 (hg h hh).2
    rw [heq]
    cases res with
    | error e => exact .inr ⟨c', hs'⟩
    | ok u =>
      refine .inr ⟨c', hs'.dir, hs'.grounded, hs'.behind, hs'.cache, ?_⟩
      intro j hj
      cases hj
      exact ⟨h', Function.update_self .., hok rfl⟩
  | release i =>
    simp only [storeStep] at hstep
    split at hstep
    · cases hstep
      exact .inr ⟨c, hs.dir, hs.grounded, hs.behind, hs.cache, fun j hj => by cases hj⟩
    · cases hstep
  | sync i =>
    simp only [storeStep, Option.map_eq_some_iff] at hstep
    obtain ⟨h, hh, rfl⟩ := hstep
    obtain ⟨c', h', res, heq, hs', -⟩ := hs.syncStep hh (hg h hh).1 (hg h hh).2
    rw [heq]
    exact .inr ⟨c', hs'⟩
  | put i data =>
    cases hw : s.writer i with
    | none => simp [storeStep, hw] at hstep
    | some h => exact storeInv_put hz hs hw hg hstep
  | reencode i id base =>
    simp only [storeStep, Option.map_eq_some_iff] at hstep
    obtain ⟨h, hw, rfl⟩ := hstep
    obtain ⟨hi, hh, hf⟩ := hs.writer_follows hw
    have hroom : Roomy s.dir := hg
    rw [hs.dir] at hroom ⊢
    obtain ⟨c', h', res, heq, hf', hcache', hg'⟩ :=
      reencodeAsDelta_spec (S := S) hz hf (content_stored hinj) (hs.cache i h hh) hs.grounded id base
        hroom.active (by have := hroom.seq; omega)
    rw [heq]
    exact .inr ⟨c', hs.writerStep hi (List.Subset.refl _) hg' hf' hcache'⟩
  | compact i =>
    simp only [storeStep, Option.map_eq_some_iff] at hstep
    obtain ⟨h, hw, rfl⟩ := hstep
    obtain ⟨hi, hh, hf⟩ := hs.writer_follows hw
    have hroom : Roomy s.dir := hg
    rw [hs.dir] at hroom ⊢
    obtain ⟨c', h', heq, hf', hcache', hactive, hnewest⟩ :=
      compact_spec (S := S) P hf (by have := hroom.records; omega) hroom.seq
    rw [heq]
    have hground := GroundedAll.of_records (hs.grounded.grounded.congr hnewest) hactive
    exact .inr ⟨c', hs.writerStep hi (List.Subset.refl _) hground hf' (hcache' ▸ hs.cache i h hh)⟩
  | rewind i ckpt =>
    simp only [storeStep, Option.map_eq_some_iff] at hstep
    obtain ⟨h, hw, rfl⟩ := hstep
    obtain ⟨hi, hh, hf⟩ := hs.writer_follows hw
    have ha : AltidxAgree s.dir := hg
    rw [hs.dir] at ha ⊢
    rcases rewind_spec hf ha ckpt with ⟨e, heq⟩ | ⟨n, h', heq, hf', hcache'⟩
    · rw [heq]
      exact .inr ⟨c, hs.writerStep hi (List.Subset.refl _) hs.grounded hf (hs.cache i h hh)⟩
    · rw [heq]
      exact .inr ⟨_, hs.writerStep hi (List.Subset.refl _)
        (groundedAll_reindexed (hs.grounded.cut n)) hf' (hcache' ▸ cacheOk_new)⟩
  | read i id =>
    simp only [storeStep, Option.map_eq_some_iff] at hstep
    obtain ⟨h, hh, rfl⟩ := hstep
    obtain ⟨c₀, hbehind⟩ := hs.behind i h hh
    have hcur := hg h hh
    rw [hs.dir] at hcur ⊢
    have hf := hbehind.of_current hcur
    have hcache := hf.get_cache (S := S) (content_stored hinj) (hs.cache i h hh) hs.grounded id
    have hf' := hf.withCache (ChunkStore.get P (c.dir S) h id).2
    refine .inr ⟨c, hs.update (List.Subset.refl _) hs.grounded ⟨c, hf'⟩ hcache ?_⟩
    intro j hj
    by_cases hji : j = i
    · exact .inl ⟨hji, hf'⟩
    · exact .inr ⟨hji, hj, fun h hf => hf⟩
  | dropIdx seq =>
    simp only [storeStep, Option.some.injEq] at hstep
    subst hstep
    refine .inr ⟨c.dropIdx seq, ?_, ?_, hs.behind, hs.cache, ?_⟩
    · rw [hs.dir]
      exact dir_dropIdx S c seq
    · exact groundedAll_congr (records_dropIdx c seq).symm rfl hs.grounded
    · intro j hj
      obtain ⟨h, hh, hf⟩ := hs.writer j hj
      exact ⟨h, hh, follows_dropIdx seq hf⟩

theorem subset_puts_step {a : StoreAction} (hstep : storeStep P S s a = some s') :
    s.puts ⊆ s'.puts := by
  have hsame : s'.puts = s.puts ∨ ∃ data, s'.puts = s.puts ++ [data] := by
    cases a with
    | openStore i opts =>
      simp only [storeStep] at hstep
      split at hstep
      · cases hstep
      · split at hstep <;> cases hstep <;> exact .inl rfl
    | put i data =>
      simp only [storeStep, Option.map_eq_some_iff] at hstep
      obtain ⟨h, -, rfl⟩ := hstep
      split
      · exact .inl rfl
      · exact .inr ⟨data, rfl⟩
    | acquire i =>
      simp only [storeStep] at hstep
      split at hstep
      · cases hstep
      · obtain ⟨h, -, rfl⟩ := Option.map_eq_some_iff.mp hstep
        split <;> exact .inl rfl
    | release i =>
      simp only [storeStep] at hstep
      split at hstep
      · cases hstep
        exact .inl rfl
      · cases hstep
    | dropIdx seq =>
      cases hstep
      exact .inl rfl
    | _ =>
      obtain ⟨h, -, rfl⟩ := Option.map_eq_some_iff.mp hstep
      exact .inl rfl
  rcases hsame with heq | ⟨data, heq⟩
  · rw [heq]
    exact List.Subset.refl _
  · rw [heq]
    exact subset_append_left _ _

/-- **The run invariant**, as long as no two chunks of the run collide. -/
theorem storeInv_run (hz : P.ZstdLawful) (hs : (chunkStores P S).ReachableIf Undisturbed s)
    (hinj : Set.InjOn P.blake3 {b | b ∈ s.puts}) : StoreInv P S s := by
  have hinv : Set.InjOn P.blake3 {b | b ∈ s.puts} → StoreInv P S s := by
    apply System.invariant_if (S := chunkStores P S)
      (I := fun s => Set.InjOn P.blake3 {b | b ∈ s.puts} → StoreInv P S s)
      (fun _ => .inl rfl) _ s hs
    intro s a s' ih hg hstep hinj'
    have hinj := hinj'.mono fun b hb => subset_puts_step hstep hb
    exact storeInv_step hz (ih hinj) hinj hg hstep
  exact hinv hinj

/-! ### The content invariant -/

/-- The chain of delta bases of a chunk: every base is indexed, the last record is plain. -/
inductive BaseChain (d : Dir) (h : ChunkStore) : ChunkId → List ChunkId → Prop
  | plain {id : ChunkId} {loc : Location} {header : RecordHeader} :
      h.index.get id = some loc → readHeader d h id loc = .ok header →
      header.encoding = encRaw ∨ header.encoding = encZstd → BaseChain d h id [id]
  | delta {id base : ChunkId} {chain : List ChunkId} :
      deltaBase d h id = some base → h.index.containsKey base → BaseChain d h base chain →
      BaseChain d h id (id :: chain)

theorem Follows.baseChain (hf : Follows c h) {path : List ChunkId} {v : Bytes}
    (hres : (chunkCoding P).Resolves (c.newest P) id path v) :
    BaseChain (c.dir S) h id path := by
  induction hres with
  | @full id r v hr hb hd =>
    obtain ⟨loc, hloc, hmem⟩ := hf.locate_newest hr
    exact .plain hloc (hf.readRecord_placed hmem id).1 (chunkCoding_full hd id).1
  | @delta id b r path w v hr hb hw hd ih =>
    obtain ⟨loc, hloc, hmem⟩ := hf.locate_newest hr
    obtain ⟨henc, hbase⟩ := chunkCoding_base hb
    obtain ⟨rb, hrb⟩ := hw.found
    obtain ⟨locb, hlocb, -⟩ := hf.locate_newest hrb
    refine .delta ?_ ?_ ih
    · have hheader := (hf.readRecord_placed (S := S) hmem id).1
      have hread := hf.readBaseId_placed (S := S) hmem id (chunkCoding_delta hd).1
      simp only [deltaBase, hloc, hheader, henc, if_true, hread, hbase]
      rfl
    · rw [FinMap.containsKey, hlocb]
      rfl

/-- The first chunk stored under an id is the only one, when no two collide. -/
theorem find_stored (hinj : Set.InjOn P.blake3 {b | b ∈ puts}) (h : Stored P puts id data) :
    puts.find? (fun b => P.blake3 b = id) = some data := by
  cases hfind : puts.find? (fun b => P.blake3 b = id) with
  | none =>
    have hnone := find?_eq_none.mp hfind data h.1
    exact absurd (by simpa using h.2) hnone
  | some first =>
    have hmem := mem_of_find?_eq_some hfind
    have hhash : P.blake3 first = id := by simpa using find?_some hfind
    rw [hinj hmem h.1 (hhash.trans h.2.symm)]

/-- The writer, and a handle that holds what the disk holds, follow the packs. -/
theorem StoreHolds.follows (hc : StoreHolds P S s c) (hh : s.handles i = some h)
    (hcur : s.holder = some i ∨ Current s.dir h) : Follows c h := by
  rcases hcur with hholder | hcur
  · obtain ⟨h', hh', hf⟩ := hc.writer i hholder
    rw [hh] at hh'
    cases hh'
    exact hf
  · obtain ⟨c₀, hf₀⟩ := hc.behind i h hh
    rw [hc.dir] at hcur
    exact hf₀.of_current hcur

/-- **The content of a chunk store.** In every undisturbed run of any number of handles:
    through the writer, and through every handle that holds what the disk holds, the chain of
    delta bases of an indexed chunk repeats no chunk, passes indexed chunks only and ends in
    a plain record, and the chunk reads back as the bytes first stored under its id. -/
theorem chunk_store_content (hz : P.ZstdLawful)
    (hs : (chunkStores P S).ReachableIf Undisturbed s)
    (hinj : Set.InjOn P.blake3 {b | b ∈ s.puts}) {i : Nat} {h : ChunkStore}
    (hh : s.handles i = some h) (hcur : s.holder = some i ∨ Current s.dir h) {id : ChunkId}
    (hid : h.index.containsKey id) :
    (∃ chain, BaseChain s.dir h id chain ∧ chain.Nodup) ∧
      ∃ data, s.puts.find? (fun b => P.blake3 b = id) = some data ∧
        (ChunkStore.get P s.dir h id).1 = .ok data := by
  rcases storeInv_run hz hs hinj with rfl | ⟨c, hc⟩
  · cases hh
  have hf : Follows c h := hc.follows hh hcur
  obtain ⟨loc, hloc⟩ := Option.isSome_iff_exists.mp hid
  obtain ⟨r, hr⟩ := hf.newest_of_get (P := P) hloc
  obtain ⟨path, v, hres, hv⟩ := hc.grounded.grounded id r hr
  rw [hc.dir]
  refine ⟨⟨path, hf.baseChain hres, hres.nodup⟩, v, find_stored hinj hv, ?_⟩
  obtain ⟨cache, -, heq⟩ := hf.resolve_resolves (S := S) (content_stored hinj) (hc.cache i h hh) hres
    (fun x path w hx => hc.grounded.right_of_resolves hx) .boundary
  rw [ChunkStore.get, heq]

/-! ### Two runs -/

/-- Primitives that compress runs of one byte: enough for a delta to win. -/
def runLength : Prims where
  blake3 b := .ofSlice 32 b
  sha1 b := .ofSlice 20 b
  sha256 b := .ofSlice 32 b
  encodeAll data _ := some data
  decodeAll payload := some payload
  compressWithBase data _ _ :=
    match data with
    | [] => none
    | x :: _ => if data = List.replicate data.length x then some [x] else none
  decompressWithBase payload _ origLen :=
    match payload with
    | [x] => some (List.replicate origLen x)
    | _ => none

theorem runLength_zstdLawful : runLength.ZstdLawful where
  decode_encode := by
    intro data level z h
    simpa [runLength, eq_comm] using h
  decompress_compress := by
    intro data base level z h
    cases data with
    | nil => cases h
    | cons x data =>
      simp only [runLength] at h ⊢
      split at h
      · rename_i heq
        cases h
        exact congrArg some heq.symm
      · cases h

def chunkA : Bytes := List.replicate 40 1
def chunkB : Bytes := List.replicate 40 2

/-- The two chunks do not collide. -/
theorem injOn_chunks : Set.InjOn runLength.blake3 {b | b ∈ [chunkA, chunkB]} := by
  intro a (ha : a ∈ [chunkA, chunkB]) b (hb : b ∈ [chunkA, chunkB]) heq
  have hne : runLength.blake3 chunkA ≠ runLength.blake3 chunkB := by decide
  rw [mem_pair] at ha hb
  rcases ha with rfl | rfl <;> rcases hb with rfl | rfl
  · rfl
  · exact absurd heq hne
  · exact absurd heq.symm hne
  · rfl

/-- A chunk stored in a new directory. -/
theorem chunk_store_content_put :
    ∃ s h, (chunkStores runLength .stable).run (chunkStores runLength .stable).init
        [.openStore 0 ⟨200, 3, 64⟩, .acquire 0, .put 0 chunkA] = some s ∧ s.handles 0 = some h ∧
      (∃ chain, BaseChain s.dir h (.fill 32 1) chain ∧ chain.Nodup) ∧
      ∃ data, s.puts.find? (fun b => runLength.blake3 b = .fill 32 1) = some data ∧
        (ChunkStore.get runLength s.dir h (.fill 32 1)).1 = .ok data := by
  have hcheck : ((storeStep runLength .stable (chunkStores runLength .stable).init
      (.openStore 0 ⟨200, 3, 64⟩)).bind fun s₁ => (storeStep runLength .stable s₁ (.acquire 0)).bind
        fun s₂ => (storeStep runLength .stable s₂ (.put 0 chunkA)).bind fun s₃ =>
          (s₁.handles 0).bind fun h₁ => (s₃.handles 0).map fun h₃ => decide (
            ((diskChanged s₁.dir h₁).toOption = some false ∧ Current s₁.dir h₁) ∧ Roomy s₂.dir ∧
            s₃.puts = [chunkA] ∧ s₃.holder = some 0 ∧ h₃.index.containsKey (.fill 32 1) = true))
      = some true := by
    decide +kernel
  simp only [Option.bind_eq_some_iff, Option.map_eq_some_iff] at hcheck
  obtain ⟨s₁, h₁, s₂, h₂, s₃, h₃, a₁, ha₁, a₃, ha₃, hcheck⟩ := hcheck
  obtain ⟨⟨hsame, hcur⟩, hroom, hputs, hholder, hid⟩ := of_decide_eq_true hcheck
  have hacquire : Undisturbed s₁ (.acquire 0) := by
    intro h hh
    rw [ha₁] at hh
    cases hh
    refine ⟨fun hch => ?_, fun _ => hcur⟩
    rw [hch] at hsame
    cases hsame
  have hfirst : Undisturbed (chunkStores runLength .stable).init (.openStore 0 ⟨200, 3, 64⟩) := by
    intro f hf
    cases hf
  have hput : Undisturbed s₂ (.put 0 chunkA) := hroom
  have hreach : (chunkStores runLength .stable).ReachableIf Undisturbed s₃ :=
    .step (.step (.step .init hfirst h₁) hacquire h₂) hput h₃
  have hinj : Set.InjOn runLength.blake3 {b | b ∈ s₃.puts} := by
    rw [hputs]
    intro a (ha : a ∈ [chunkA]) b (hb : b ∈ [chunkA]) _
    rw [mem_singleton.mp ha, mem_singleton.mp hb]
  refine ⟨s₃, a₃, ?_, ha₃, chunk_store_content runLength_zstdLawful hreach hinj ha₃ (.inl hholder) hid⟩
  simp only [System.run, chunkStores] at h₁ ⊢
  rw [h₁]
  simp only [Option.bind_some, h₂, h₃]

/-- The entries of pack 1 in the order of its records, and sorted with the older record of
    the re-encoded chunk last. -/
def packEntries : List (ChunkId × Nat) := [(.fill 32 1, 5), (.fill 32 2, 86), (.fill 32 1, 167)]
def packSorted : List (ChunkId × Nat) := [(.fill 32 1, 167), (.fill 32 1, 5), (.fill 32 2, 86)]

theorem packSorted_sorted : SortedBy (fun e => e.1.val) packEntries packSorted where
  perm := by decide
  pairwise := by decide

def olderLast : IdxSort := .ordering packEntries packSorted packSorted_sorted

/-- Chunk A becomes a delta against B and its pack rolls; a handle that opens on the altidx
    sees A in full again and makes B a delta against A; the altidx is lost. -/
def loopRun : Option StoreState :=
  (chunkStores runLength olderLast).run (chunkStores runLength olderLast).init
    [.openStore 0 ⟨200, 3, 64⟩, .acquire 0, .put 0 chunkA, .put 0 chunkB,
      .reencode 0 (.fill 32 1) (.fill 32 2), .release 0,
      .openStore 1 ⟨2 ^ 30, 3, 64⟩, .acquire 1, .reencode 1 (.fill 32 2) (.fill 32 1), .release 1,
      .dropIdx 1, .openStore 2 ⟨2 ^ 30, 3, 64⟩]

/-- A freshly opened handle finds chunk A in its index and cannot read it: A and B are
    deltas against each other. -/
theorem chunk_store_content_fails :
    ∃ s h, runLength.ZstdLawful ∧ (chunkStores runLength olderLast).Reachable s ∧
      Set.InjOn runLength.blake3 {b | b ∈ s.puts} ∧ s.handles 2 = some h ∧ Current s.dir h ∧
      h.index.containsKey (.fill 32 1) = true ∧
      deltaBase s.dir h (.fill 32 1) = some (.fill 32 2) ∧
      deltaBase s.dir h (.fill 32 2) = some (.fill 32 1) ∧
      (ChunkStore.get runLength s.dir h (.fill 32 1)).1
        = .error (.corrupt (.fill 32 1) "delta chain cycle") := by
  have hcheck : (loopRun.bind fun s => (s.handles 2).map fun h => decide (
      s.puts = [chunkA, chunkB] ∧ Current s.dir h ∧
      h.index.containsKey (.fill 32 1) = true ∧
      deltaBase s.dir h (.fill 32 1) = some (.fill 32 2) ∧
      deltaBase s.dir h (.fill 32 2) = some (.fill 32 1) ∧
      (match (ChunkStore.get runLength s.dir h (.fill 32 1)).1 with
        | .ok _ => none
        | .error e => some e) = some (.corrupt (.fill 32 1) "delta chain cycle"))) = some true := by
    decide +kernel
  rw [Option.bind_eq_some_iff] at hcheck
  obtain ⟨s, hrun, hcheck⟩ := hcheck
  rw [Option.map_eq_some_iff] at hcheck
  obtain ⟨h, hh, hcheck⟩ := hcheck
  obtain ⟨hputs, hcur, hkey, hab, hba, hget⟩ := of_decide_eq_true hcheck
  refine ⟨s, h, runLength_zstdLawful, System.reachable_of_run hrun, ?_, hh, hcur, hkey, hab, hba, ?_⟩
  · rw [hputs]
    exact injOn_chunks
  · split at hget
    · cases hget
    · rename_i e heq
      cases hget
      exact heq

end Alt.Store
