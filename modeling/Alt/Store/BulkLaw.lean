import Alt.Store.ChunkContent

namespace Alt.Store

open Alt.Library Pack ChunkStore List

/-!
# The bulk read is the point reads (`for_each_decoded`)

* `Hangs` — what the forest says of a delta: its newest record names the base it hangs off;
* `forest_spec` — full records become roots, deltas hang off their bases, nothing is lost;
* `decodeForest_spec` — one descent: the decoded chunks and the deltas left over are what was
  there before, nothing is left under a decoded chunk, and every chunk comes out right;
* `decodeForest_fuel` — one pass for each pushed chunk, in any directory: more fuel changes
  nothing;
* `for_each_decoded_exact` — where every chunk's chain resolves, no delta is left over: its
  base came out, by induction along the chain.
-/

variable {P : Prims} {S : IdxSort} {c : PackSet} {h : ChunkStore}

/-! ### One record -/

/-- A delta decodes over its base without a look at its hash. -/
theorem StandsAt.decodeNoVerify_delta {d : Dir} {id b : ChunkId} {loc : Location} {r : PackRecord}
    {w v : Bytes} (hstands : StandsAt d h loc r) (hloc : h.index.get id = some loc)
    (hb : (chunkCoding P).base r = some b) (hdec : (chunkCoding P).decode r (some w) = some v) :
    ChunkStore.decodeNoVerify P d h id (some w) = .ok v := by
  obtain ⟨henc, -⟩ := chunkCoding_base hb
  obtain ⟨hlen, hdecomp, hsize⟩ := chunkCoding_delta hdec
  have hlocate : locate h id = .ok loc := by rw [locate, hloc]
  have hge : ¬ r.payload.length < 32 := Nat.not_lt.mpr hlen
  simp only [ChunkStore.decodeNoVerify, hlocate, hstands.readHeader, hstands.readPayload, bind,
    Except.bind]
  rw [if_pos henc, if_neg hge, hdecomp]
  exact sized_ok hsize

/-- The chunk's newest record is a delta against the base. -/
def Hangs (P : Prims) (c : PackSet) (base id : ChunkId) : Prop :=
  ∃ r, c.newest P id = some r ∧ (chunkCoding P).base r = some base

/-- The chunk decodes to these bytes. -/
def Decodes (P : Prims) (c : PackSet) (id : ChunkId) (v : Bytes) : Prop :=
  ∃ path, (chunkCoding P).Resolves (c.newest P) id path v

theorem Hangs.unique {b b' id : ChunkId} (hb : Hangs P c b id) (hb' : Hangs P c b' id) :
    b = b' := by
  obtain ⟨r, hr, hbase⟩ := hb
  obtain ⟨r', hr', hbase'⟩ := hb'
  rw [hr] at hr'
  cases hr'
  rw [hbase] at hbase'
  exact Option.some.inj hbase'

/-- A delta that resolves decodes over what its base resolves to. -/
theorem Follows.decodeNoVerify_hangs (hf : Follows c h) {b id : ChunkId} {w v : Bytes}
    (hb : Hangs P c b id) (hw : Decodes P c b w) (hv : Decodes P c id v) :
    ChunkStore.decodeNoVerify P (c.dir S) h id (some w) = .ok v := by
  obtain ⟨r, hr, hbase⟩ := hb
  obtain ⟨path, hres⟩ := hv
  obtain ⟨pathb, hresb⟩ := hw
  cases hres with
  | full hr' hbase' _ =>
    rw [hr] at hr'
    cases hr'
    rw [hbase] at hbase'
    cases hbase'
  | delta hr' hbase' hres' hdec =>
    rw [hr] at hr'
    cases hr'
    rw [hbase] at hbase'
    cases hbase'
    obtain ⟨-, rfl⟩ := hresb.functional hres'
    obtain ⟨loc, hloc, hplaced⟩ := hf.locate_newest hr
    exact (hf.standsAt hplaced).decodeNoVerify_delta hloc hbase hdec

/-! ### The forest -/

/-- **The forest.** Every chunk of the walk is a root that decodes on its own, or hangs off
    the base it names. -/
theorem Follows.forest_spec (hf : Follows c h)
    (hres : ∀ id r, c.newest P id = some r → ∃ v, Decodes P c id v)
    {order : List (ChunkId × Location)} (horder : ∀ e ∈ order, h.index.get e.1 = some e.2) :
    ∃ deps roots, forest (c.dir S) h order = .ok (deps, roots) ∧
      (roots ++ deps.map Prod.snd).Perm (order.map Prod.fst) ∧
      (∀ id ∈ roots, ∃ v, Decodes P c id v ∧
        ChunkStore.decodeNoVerify P (c.dir S) h id none = .ok v) ∧
      ∀ e ∈ deps, Hangs P c e.1 e.2 := by
  induction order with
  | nil =>
    refine ⟨[], [], rfl, .nil, ?_, ?_⟩ <;>
    · intro e he
      cases he
  | cons e order ih =>
    obtain ⟨id, loc⟩ := e
    obtain ⟨deps, roots, hforest, hperm, hroots, hdeps⟩ :=
      ih fun e he => horder e (mem_cons_of_mem _ he)
    have hloc : h.index.get id = some loc := horder (id, loc) mem_cons_self
    obtain ⟨r, hr⟩ := hf.newest_of_get (P := P) hloc
    obtain ⟨loc', hloc', hplaced⟩ := hf.locate_newest hr
    obtain rfl : loc = loc' := Option.some.inj (hloc.symm.trans hloc')
    have hstands := hf.standsAt (S := S) hplaced
    obtain ⟨v, path, hv⟩ := hres id r hr
    cases hv with
    | full hr' hbase hdec =>
      rw [hr] at hr'
      cases hr'
      have henc := (chunkCoding_full hdec id).1
      have hne : r.header.encoding ≠ encDelta := by
        rcases henc with henc | henc <;> rw [henc] <;> decide
      refine ⟨deps, id :: roots, ?_, hperm.cons id, ?_, hdeps⟩
      · simp only [forest, hstands.readHeader, hforest, bind, Except.bind, pure, Except.pure]
        rw [if_neg hne, if_pos henc]
      · intro id' hid
        rcases mem_cons.mp hid with rfl | hid
        · exact ⟨v, ⟨_, .full hr hbase hdec⟩, hstands.decodeNoVerify hloc hdec⟩
        · exact hroots id' hid
    | @delta _ b _ _ w _ hr' hbase hw hdec =>
      rw [hr] at hr'
      cases hr'
      obtain ⟨henc, hb⟩ := chunkCoding_base hbase
      have hread := hstands.readBaseId id (chunkCoding_delta hdec).1
      refine ⟨(b, id) :: deps, roots, ?_, ?_, hroots, ?_⟩
      · simp only [forest, hstands.readHeader, hforest, hread, bind, Except.bind, pure, Except.pure]
        rw [if_pos henc, hb]
      · rw [map_cons, map_cons]
        exact perm_middle.trans (hperm.cons id)
      · intro e he
        rcases mem_cons.mp he with rfl | he
        · exact ⟨r, hr, hbase⟩
        · exact hdeps e he

/-! ### The descent -/

/-- A pass pops one chunk and pushes only deltas it takes out of the forest. -/
theorem length_pushed (deps : List (ChunkId × ChunkId)) (id : ChunkId) (bytes : Bytes)
    (stack : List (ChunkId × Option Bytes)) :
    (((deps.partition fun e => e.1 = id).1.map fun e => (e.2, some bytes)).reverse ++ stack).length
      + (deps.partition fun e => e.1 = id).2.length = stack.length + deps.length := by
  have hlen := (filter_append_perm (fun e : ChunkId × ChunkId => decide (e.1 = id)) deps).length_eq
  rw [length_append] at hlen
  rw [partition_eq_filter_filter, length_append, length_reverse, length_map]
  simp only [Function.comp_def] at hlen ⊢
  omega

/-- **One descent.** -/
theorem Follows.decodeForest_spec (hf : Follows c h)
    (hres : ∀ id r, c.newest P id = some r → ∃ v, Decodes P c id v) (fuel : Nat)
    {deps : List (ChunkId × ChunkId)} {stack : List (ChunkId × Option Bytes)}
    (hfuel : stack.length + deps.length ≤ fuel) (hdeps : ∀ e ∈ deps, Hangs P c e.1 e.2)
    (hstack : ∀ e ∈ stack, ∃ v, Decodes P c e.1 v ∧
      ChunkStore.decodeNoVerify P (c.dir S) h e.1 e.2 = .ok v) :
    ∃ visits left, decodeForest P (c.dir S) h fuel deps stack = (visits, .ok ()) ∧ left ⊆ deps ∧
      (visits.map Prod.fst ++ left.map Prod.snd).Perm (stack.map Prod.fst ++ deps.map Prod.snd) ∧
      (∀ e ∈ left, e.1 ∉ visits.map Prod.fst) ∧ ∀ e ∈ visits, Decodes P c e.1 e.2 := by
  induction fuel generalizing deps stack with
  | zero =>
    obtain ⟨hs, hd⟩ := Nat.add_eq_zero_iff.mp (Nat.le_zero.mp hfuel)
    rw [length_eq_zero_iff] at hs hd
    subst hs hd
    refine ⟨[], [], rfl, List.Subset.refl _, .nil, ?_, ?_⟩ <;>
    · intro e he
      cases he
  | succ fuel ih =>
    cases stack with
    | nil =>
      refine ⟨[], deps, rfl, List.Subset.refl _, .refl _, ?_, ?_⟩
      · intro e _ hmem
        cases hmem
      · intro e he
        cases he
    | cons top stack =>
      obtain ⟨id, base⟩ := top
      obtain ⟨v, hv, hdecode⟩ := hstack (id, base) mem_cons_self
      have hpart : deps.partition (fun e => e.1 = id)
          = (deps.filter fun e => e.1 = id, deps.filter (not ∘ fun e => decide (e.1 = id))) :=
        partition_eq_filter_filter
      have hpushed := length_pushed deps id v stack
      rw [hpart] at hpushed
      dsimp only at hpushed
      rw [length_cons] at hfuel
      -- a child of the decoded chunk decodes over it
      have hpush : ∀ e ∈ ((deps.filter fun e => e.1 = id).map fun e => (e.2, some v)).reverse ++ stack,
          ∃ v, Decodes P c e.1 v ∧ ChunkStore.decodeNoVerify P (c.dir S) h e.1 e.2 = .ok v := by
        intro e he
        rcases mem_append.mp he with he | he
        · obtain ⟨e', he', rfl⟩ := mem_map.mp (mem_reverse.mp he)
          rw [mem_filter, decide_eq_true_eq] at he'
          obtain ⟨hmem, rfl⟩ := he'
          have hhangs := hdeps e' hmem
          obtain ⟨r, hr, -⟩ := hhangs
          obtain ⟨v', hv'⟩ := hres e'.2 r hr
          exact ⟨v', hv', hf.decodeNoVerify_hangs (hdeps e' hmem) hv hv'⟩
        · exact hstack e (mem_cons_of_mem _ he)
      obtain ⟨visits, left, hrun, hleft, hperm, hnone, hright⟩ :=
        @ih (deps.filter (not ∘ fun e => decide (e.1 = id))) _ (by omega)
          (fun e he => hdeps e (mem_of_mem_filter he)) hpush
      refine ⟨(id, v) :: visits, left, ?_, ?_, ?_, ?_, ?_⟩
      · rw [decodeForest, hdecode]
        simp only [hpart, hrun]
      · exact fun e he => mem_of_mem_filter (hleft he)
      · have hsplit := (filter_append_perm (fun e : ChunkId × ChunkId => decide (e.1 = id))
          deps).map Prod.snd
        rw [map_append] at hsplit
        rw [map_cons, map_cons, cons_append, cons_append]
        refine (hperm.trans ?_).cons id
        rw [map_append, map_reverse, map_map]
        refine ((reverse_perm _).append_right _).append_right _ |>.trans ?_
        rw [append_assoc]
        refine (perm_append_comm_assoc _ _ _).trans ?_
        exact hsplit.append_left _
      · intro e he hmem
        rcases mem_cons.mp hmem with heq | hmem
        · have hother := of_mem_filter (hleft he)
          simp only [Function.comp_apply, heq, decide_true, Bool.not_true, Bool.false_eq_true] at hother
        · exact hnone e he hmem
      · intro e he
        rcases mem_cons.mp he with rfl | he
        · exact hv
        · exact hright e he

/-! ### Every chunk comes out -/

/-- A chunk that resolves is no delta left over: its base came out, and nothing is left
    under a chunk that came out. -/
theorem mem_visits (keys : List ChunkId) {left : List (ChunkId × ChunkId)} {visits : List ChunkId}
    (hkeys : ∀ id r, c.newest P id = some r → id ∈ keys)
    (hperm : (visits ++ left.map Prod.snd).Perm keys) (hleft : ∀ e ∈ left, Hangs P c e.1 e.2)
    (hnone : ∀ e ∈ left, e.1 ∉ visits) {id : ChunkId} {path : List ChunkId} {v : Bytes}
    (hres : (chunkCoding P).Resolves (c.newest P) id path v) : id ∈ visits := by
  have hor : ∀ {id r}, c.newest P id = some r → id ∈ visits ∨ ∃ b, (b, id) ∈ left := by
    intro id r hr
    rcases mem_append.mp (hperm.mem_iff.mpr (hkeys id r hr)) with hmem | hmem
    · exact .inl hmem
    · obtain ⟨e, he, rfl⟩ := mem_map.mp hmem
      exact .inr ⟨e.1, he⟩
  induction hres with
  | full hr hbase hdec =>
    rcases hor hr with hmem | ⟨b, hmem⟩
    · exact hmem
    · obtain ⟨r', hr', hbase'⟩ := hleft _ hmem
      rw [hr] at hr'
      cases hr'
      rw [hbase] at hbase'
      cases hbase'
  | delta hr hbase hw hdec ih =>
    rcases hor hr with hmem | ⟨b', hmem⟩
    · exact hmem
    · have heq := (hleft _ hmem).unique ⟨_, hr, hbase⟩
      exact absurd ih (heq ▸ hnone _ hmem)

/-- **The bulk read** of a handle in step with the disk, where every chunk resolves. -/
theorem Follows.forEachDecoded_spec (hf : Follows c h)
    (hres : ∀ id r, c.newest P id = some r → ∃ v, Decodes P c id v)
    {order : List (ChunkId × Location)} (horder : order.Perm h.index.entries) :
    ∃ visits, forEachDecoded P (c.dir S) h order = (visits, .ok ()) ∧
      (visits.map Prod.fst).Perm (order.map Prod.fst) ∧ ∀ e ∈ visits, Decodes P c e.1 e.2 := by
  have hget : ∀ e ∈ order, h.index.get e.1 = some e.2 := fun e he =>
    (h.index.mem_entries_iff e.1 e.2).mp (horder.mem_iff.mp he)
  obtain ⟨deps, roots, hforest, hperm, hroots, hdeps⟩ := hf.forest_spec (S := S) hres hget
  have hlen : roots.length + deps.length = order.length := by
    have hlen := hperm.length_eq
    rwa [length_append, length_map, length_map] at hlen
  have hstack : ∀ e ∈ roots.reverse.map (fun id => (id, (none : Option Bytes))),
      ∃ v, Decodes P c e.1 v ∧ ChunkStore.decodeNoVerify P (c.dir S) h e.1 e.2 = .ok v := by
    intro e he
    obtain ⟨id, hid, rfl⟩ := mem_map.mp he
    exact hroots id (mem_reverse.mp hid)
  obtain ⟨visits, left, hrun, hleft, hvisits, hnone, hright⟩ := hf.decodeForest_spec (S := S) hres
    (order.length + 1) (by rw [length_map, length_reverse, hlen]; exact Nat.le_succ _) hdeps hstack
  have hkeys : (visits.map Prod.fst ++ left.map Prod.snd).Perm (order.map Prod.fst) := by
    refine hvisits.trans (.trans ?_ hperm)
    have hroots' : (roots.reverse.map fun id => (id, (none : Option Bytes))).map Prod.fst
        = roots.reverse := by
      rw [map_map]
      exact map_id _
    rw [hroots']
    exact (reverse_perm roots).append_right _
  -- a left-over delta would be a key outside the visits
  have hall : left = [] := by
    refine eq_nil_iff_forall_not_mem.mpr fun e he => ?_
    obtain ⟨r, hr, -⟩ := hdeps e (hleft he)
    obtain ⟨v, path, hv⟩ := hres e.2 r hr
    have hmem := mem_visits (P := P) (c := c) (order.map Prod.fst) (fun id r hr => by
        obtain ⟨loc, hloc, -⟩ := hf.locate_newest hr
        exact mem_map.mpr ⟨(id, loc),
          horder.mem_iff.mpr ((h.index.mem_entries_iff id loc).mpr hloc), rfl⟩)
      hkeys (fun e he => hdeps e (hleft he)) hnone hv
    have hnodup : (visits.map Prod.fst ++ left.map Prod.snd).Nodup :=
      hkeys.nodup_iff.mpr ((horder.map Prod.fst).nodup_iff.mpr h.index.nodup)
    exact (disjoint_of_nodup_append hnodup) hmem (mem_map_of_mem he)
  subst hall
  rw [map_nil, append_nil] at hkeys
  have hcount : visits.length = order.length := by
    have hcount := hkeys.length_eq
    rwa [length_map, length_map] at hcount
  refine ⟨visits, ?_, hkeys, hright⟩
  unfold forEachDecoded
  simp only [hforest, hrun]
  rw [if_neg (not_not_intro hcount)]

/-- **The bulk read is the point reads.** In every undisturbed run of any number of handles:
    through the writer, and through every handle that holds what the disk holds, the bulk
    read ends without an error, visits exactly the indexed chunks, each once, and with the
    bytes a point read returns. -/
theorem for_each_decoded_exact {s : StoreState} (hz : P.ZstdLawful)
    (hs : (chunkStores P S).ReachableIf Undisturbed s)
    (hinj : Set.InjOn P.blake3 {b | b ∈ s.puts}) {i : Nat} (hh : s.handles i = some h)
    (hcur : s.holder = some i ∨ Current s.dir h) {order : List (ChunkId × Location)}
    (horder : order.Perm h.index.entries) :
    ∃ visits, forEachDecoded P s.dir h order = (visits, .ok ()) ∧
      (visits.map Prod.fst).Nodup ∧
      (∀ id, id ∈ visits.map Prod.fst ↔ h.index.containsKey id = true) ∧
      ∀ e ∈ visits, (ChunkStore.get P s.dir h e.1).1 = .ok e.2 := by
  rcases storeInv_run hz hs hinj with rfl | ⟨c, hc⟩
  · cases hh
  have hf : Follows c h := hc.follows hh hcur
  have hres : ∀ id r, c.newest P id = some r → ∃ v, Decodes P c id v := by
    intro id r hr
    obtain ⟨path, v, hv, -⟩ := hc.grounded.grounded id r hr
    exact ⟨v, path, hv⟩
  obtain ⟨visits, hrun, hkeys, hright⟩ := hf.forEachDecoded_spec (S := S) hres horder
  have hall := hkeys.trans (horder.map Prod.fst)
  refine ⟨visits, hc.dir ▸ hrun, hall.nodup_iff.mpr h.index.nodup, ?_, ?_⟩
  · intro id
    rw [hall.mem_iff, h.index.mem_keys_iff]
  · intro e he
    obtain ⟨path, hv⟩ := hright e he
    obtain ⟨cache, -, heq⟩ := hf.resolve_resolves (S := S) (content_stored hinj) (hc.cache i h hh) hv
      (fun x path w hx => hc.grounded.right_of_resolves hx) .boundary
    rw [hc.dir, ChunkStore.get, heq]

/-- The bulk read of a chunk and the delta that hangs off it. -/
theorem for_each_decoded_exact_delta :
    ∃ s h visits, (chunkStores runLength .stable).run (chunkStores runLength .stable).init
        [.openStore 0 ⟨2 ^ 30, 3, 64⟩, .acquire 0, .put 0 chunkA, .put 0 chunkB,
          .reencode 0 (.fill 32 1) (.fill 32 2)] = some s ∧ s.handles 0 = some h ∧
      deltaBase s.dir h (.fill 32 1) = some (.fill 32 2) ∧
      forEachDecoded runLength s.dir h h.index.entries = (visits, .ok ()) ∧
      (visits.map Prod.fst).Nodup ∧
      (∀ id, id ∈ visits.map Prod.fst ↔ h.index.containsKey id = true) ∧
      ∀ e ∈ visits, (ChunkStore.get runLength s.dir h e.1).1 = .ok e.2 := by
  have hcheck : ((storeStep runLength .stable (chunkStores runLength .stable).init
      (.openStore 0 ⟨2 ^ 30, 3, 64⟩)).bind fun s₁ =>
        (storeStep runLength .stable s₁ (.acquire 0)).bind fun s₂ =>
        (storeStep runLength .stable s₂ (.put 0 chunkA)).bind fun s₃ =>
        (storeStep runLength .stable s₃ (.put 0 chunkB)).bind fun s₄ =>
        (storeStep runLength .stable s₄ (.reencode 0 (.fill 32 1) (.fill 32 2))).bind fun s₅ =>
          (s₁.handles 0).bind fun h₁ => (s₅.handles 0).map fun h₅ => decide (
            ((diskChanged s₁.dir h₁).toOption = some false ∧ Current s₁.dir h₁) ∧ Roomy s₂.dir ∧
            Roomy s₃.dir ∧ Roomy s₄.dir ∧ s₅.puts = [chunkA, chunkB] ∧ s₅.holder = some 0 ∧
            deltaBase s₅.dir h₅ (.fill 32 1) = some (.fill 32 2)))
      = some true := by
    decide +kernel
  simp only [Option.bind_eq_some_iff, Option.map_eq_some_iff] at hcheck
  obtain ⟨s₁, h₁, s₂, h₂, s₃, h₃, s₄, h₄, s₅, h₅, a₁, ha₁, a₅, ha₅, hcheck⟩ := hcheck
  obtain ⟨⟨hsame, hcur⟩, hroom₂, hroom₃, hroom₄, hputs, hholder, hdelta⟩ := of_decide_eq_true hcheck
  have hfirst : Undisturbed (chunkStores runLength .stable).init (.openStore 0 ⟨2 ^ 30, 3, 64⟩) := by
    intro f hf
    cases hf
  have hacquire : Undisturbed s₁ (.acquire 0) := by
    intro h hh
    rw [ha₁] at hh
    cases hh
    refine ⟨fun hch => ?_, fun _ => hcur⟩
    rw [hch] at hsame
    cases hsame
  have hput : Undisturbed s₂ (.put 0 chunkA) := hroom₂
  have hput' : Undisturbed s₃ (.put 0 chunkB) := hroom₃
  have hreencode : Undisturbed s₄ (.reencode 0 (.fill 32 1) (.fill 32 2)) := hroom₄
  have hreach : (chunkStores runLength .stable).ReachableIf Undisturbed s₅ :=
    .step (.step (.step (.step (.step .init hfirst h₁) hacquire h₂) hput h₃) hput' h₄) hreencode h₅
  have hinj : Set.InjOn runLength.blake3 {b | b ∈ s₅.puts} := by
    rw [hputs]
    exact injOn_chunks
  obtain ⟨visits, hrun⟩ := for_each_decoded_exact runLength_zstdLawful hreach hinj ha₅ (.inl hholder)
    (.refl _)
  refine ⟨s₅, a₅, visits, ?_, ha₅, hdelta, hrun⟩
  simp only [System.run, chunkStores] at h₁ ⊢
  rw [h₁]
  simp only [Option.bind_some, h₂, h₃, h₄, h₅]

/-- A freshly opened handle has chunks A and B in its index, and the bulk read visits none:
    they are deltas against each other. -/
theorem for_each_decoded_fails :
    ∃ s h, runLength.ZstdLawful ∧ (chunkStores runLength olderLast).Reachable s ∧
      Set.InjOn runLength.blake3 {b | b ∈ s.puts} ∧ s.handles 2 = some h ∧ Current s.dir h ∧
      h.index.containsKey (.fill 32 1) = true ∧
      forEachDecoded runLength s.dir h h.index.entries
        = ([], .error (.format "bulk materialize missed chunks")) := by
  have hcheck : (loopRun.bind fun s => (s.handles 2).map fun h => decide (
      s.puts = [chunkA, chunkB] ∧ Current s.dir h ∧
      h.index.containsKey (.fill 32 1) = true ∧
      (forEachDecoded runLength s.dir h h.index.entries).1 = [] ∧
      (match (forEachDecoded runLength s.dir h h.index.entries).2 with
        | .ok _ => none
        | .error e => some e) = some (.format "bulk materialize missed chunks"))) = some true := by
    decide +kernel
  rw [Option.bind_eq_some_iff] at hcheck
  obtain ⟨s, hrun, hcheck⟩ := hcheck
  rw [Option.map_eq_some_iff] at hcheck
  obtain ⟨h, hh, hcheck⟩ := hcheck
  obtain ⟨hputs, hcur, hkey, hvisits, hresult⟩ := of_decide_eq_true hcheck
  refine ⟨s, h, runLength_zstdLawful, System.reachable_of_run hrun, ?_, hh, hcur, hkey, ?_⟩
  · rw [hputs]
    exact injOn_chunks
  · refine Prod.ext hvisits ?_
    split at hresult
    · cases hresult
    · rename_i e heq
      cases hresult
      exact heq

end Alt.Store
