import Alt.Store.BlobTree
import Alt.Store.ChunkContent

namespace Alt.Store

open Alt.Library Pack ChunkStore List

/-!
# One handle, from opening on

What a handle stores it reads back for as long as it is open, however many packs it fills
(`InSession.put`, `InSession.resolve`).  Nothing of it goes through an altidx, and a pack
number that wraps around takes up a pack that is there already and in order; so this asks
nothing of lengths and numbers, unlike what `ChunkShows` says of a directory that is opened
again.
-/

/-! ### Files by number -/

namespace Dir

variable {d : Dir} {seq : Nat}

/-- There is a pack of this number and these bytes. -/
def Has (d : Dir) (seq : Nat) (data : Bytes) : Prop := ∃ f ∈ d, f.seq = seq ∧ f.data = data

theorem find_eq_some (hd : d.seqs.Nodup) {f : PackFile} :
    d.find seq = some f ↔ f ∈ d ∧ f.seq = seq := by
  induction d with
  | nil => simp [find]
  | cons g d ih =>
    obtain ⟨hg, hd⟩ := nodup_cons.mp hd
    rw [find, find?_cons]
    by_cases heq : g.seq = seq
    · rw [beq_iff_eq.mpr heq]
      constructor
      · rintro ⟨⟩
        exact ⟨mem_cons_self, heq⟩
      · rintro ⟨hf, hseq⟩
        rcases mem_cons.mp hf with rfl | hf
        · rfl
        · have hmem : f.seq ∈ seqs d := mem_map_of_mem hf
          exact absurd (heq ▸ hseq ▸ hmem) hg
    · rw [beq_eq_false_iff_ne.mpr heq]
      refine (ih hd).trans (and_congr_left fun hseq => ?_)
      refine ⟨mem_cons_of_mem g, fun hf => (mem_cons.mp hf).resolve_left ?_⟩
      rintro rfl
      exact heq hseq

theorem has_iff (hd : d.seqs.Nodup) {data : Bytes} :
    d.Has seq data ↔ (d.find seq).map PackFile.data = some data := by
  rw [Option.map_eq_some_iff]
  constructor
  · rintro ⟨f, hf, hseq, hdata⟩
    exact ⟨f, (find_eq_some hd).mpr ⟨hf, hseq⟩, hdata⟩
  · rintro ⟨f, hfind, hdata⟩
    obtain ⟨hf, hseq⟩ := (find_eq_some hd).mp hfind
    exact ⟨f, hf, hseq, hdata⟩

theorem seqs_modify {g : PackFile → PackFile} (hg : ∀ f, (g f).seq = f.seq) :
    (d.modify seq g).seqs = d.seqs := by
  rw [modify, seqs, seqs, map_map]
  refine map_congr_left fun f _ => ?_
  rw [Function.comp_apply]
  split
  · exact hg f
  · rfl

/-- The packs of a directory in which one was changed. -/
theorem has_modify {g : PackFile → PackFile} (hg : ∀ f, (g f).seq = f.seq) {seq' : Nat}
    {data : Bytes} : (d.modify seq g).Has seq' data ↔
      if seq' = seq then ∃ f ∈ d, f.seq = seq ∧ (g f).data = data else d.Has seq' data := by
  constructor
  · rintro ⟨f, hf, hseq, hdata⟩
    obtain ⟨f₀, hf₀, rfl⟩ := mem_map.mp hf
    by_cases hone : f₀.seq = seq
    · rw [if_pos hone] at hseq hdata
      have heq : seq' = seq := hseq.symm.trans ((hg f₀).trans hone)
      rw [if_pos heq]
      exact ⟨f₀, hf₀, hone, hdata⟩
    · rw [if_neg hone] at hseq hdata
      have hne : seq' ≠ seq := hseq ▸ hone
      rw [if_neg hne]
      exact ⟨f₀, hf₀, hseq, hdata⟩
  · intro h
    split at h
    · rename_i heq
      obtain ⟨f, hf, hseq, hdata⟩ := h
      exact ⟨g f, mem_map.mpr ⟨f, hf, if_pos hseq⟩, (hg f).trans (hseq.trans heq.symm), hdata⟩
    · rename_i hne
      obtain ⟨f, hf, hseq, hdata⟩ := h
      exact ⟨f, mem_map.mpr ⟨f, hf, if_neg (hseq ▸ hne)⟩, hseq, hdata⟩

/-- A change that leaves the bytes of the pack as they are. -/
theorem has_modify_same {g : PackFile → PackFile} (hg : ∀ f, (g f).seq = f.seq)
    (hdata : ∀ f ∈ d, f.seq = seq → (g f).data = f.data) {seq' : Nat} {data : Bytes} :
    (d.modify seq g).Has seq' data ↔ d.Has seq' data := by
  rw [has_modify hg]
  split
  · rename_i heq
    rw [Has, heq]
    refine exists_congr fun f => and_congr_right fun hf => and_congr_right fun hseq => ?_
    rw [hdata f hf hseq]
  · exact Iff.rfl

theorem create_perm (f : PackFile) : (d.create f).Perm (f :: d) := by
  rw [create]
  refine perm_middle.trans ?_
  rw [takeWhile_append_dropWhile]

theorem has_create {f : PackFile} {data : Bytes} :
    (d.create f).Has seq data ↔ (f.seq = seq ∧ f.data = data) ∨ d.Has seq data := by
  constructor
  · rintro ⟨f', hf', h⟩
    rcases mem_cons.mp ((create_perm f).mem_iff.mp hf') with rfl | hf'
    · exact .inl h
    · exact .inr ⟨f', hf', h⟩
  · rintro (h | ⟨f', hf', h⟩)
    · exact ⟨f, (create_perm f).mem_iff.mpr mem_cons_self, h⟩
    · exact ⟨f', (create_perm f).mem_iff.mpr (mem_cons_of_mem f hf'), h⟩

end Dir

/-! ### The invariant -/

/-- The handle finds a full record of each chunk of the list, and of nothing else, and the
    packs are in order. -/
structure InSession (P : Prims) (d : Dir) (h : ChunkStore) (chunks : List Bytes) : Prop where
  nodup : d.seqs.Nodup
  files : ∀ seq data, d.Has seq data → ∃ recs, data = packBytes recs
  active : ∃ data, d.Has h.active.seq data ∧ data.length = h.active.len
  sealed : ∀ seq data, seq ≠ h.active.seq → h.sealed.lookup seq = some data → d.Has seq data
  index : ∀ id loc, h.index.get id = some loc → ∃ data ∈ chunks, P.blake3 data = id ∧
    ∃ r, FullRecord P r data ∧ StandsAt d h loc r
  listed : ∀ data ∈ chunks, h.index.containsKey (P.blake3 data) = true

variable {P : Prims} {S : IdxSort} {d : Dir} {h : ChunkStore} {chunks : List Bytes}

theorem nextSeq_ne (seq : Nat) : nextSeq seq ≠ seq := by
  rw [nextSeq]
  omega

/-! ### Reading -/

/-- What stands on disk stays where it is while the packs grow. -/
theorem StandsAt.mono {d' : Dir} {h' : ChunkStore} {loc : Location} {r : PackRecord}
    (hr : StandsAt d h loc r)
    (hgrown : ∀ data, packOf d h loc.seq = some data →
      ∃ more, packOf d' h' loc.seq = some (data ++ more)) : StandsAt d' h' loc r := by
  obtain ⟨pre, post, hpack, hoff⟩ := hr
  obtain ⟨more, hmore⟩ := hgrown _ hpack
  refine ⟨pre, post ++ more, ?_, hoff⟩
  rw [hmore, append_assoc, append_assoc]

namespace InSession

variable {data : Bytes}

variable (hs : InSession P d h chunks)
include hs

/-- Where a chunk of the list stands.  With no collisions it is the chunk itself. -/
theorem exists_record (hu : Set.InjOn P.blake3 {b | b ∈ chunks}) (hd : data ∈ chunks) :
    ∃ loc r, h.index.get (P.blake3 data) = some loc ∧ FullRecord P r data ∧ StandsAt d h loc r := by
  obtain ⟨loc, hloc⟩ := Option.isSome_iff_exists.mp (hs.listed data hd)
  obtain ⟨data', hd', hid, r, hfull, hstands⟩ := hs.index _ _ hloc
  obtain rfl : data' = data := hu hd' hd hid
  exact ⟨loc, r, hloc, hfull, hstands⟩

theorem withCache (cache : DeltaCache) :
    InSession P d { h with cache := cache } chunks :=
  ⟨hs.nodup, hs.files, hs.active, hs.sealed, hs.index, hs.listed⟩

/-- **Reading a chunk**, at any verification level. -/
theorem resolve (hu : Set.InjOn P.blake3 {b | b ∈ chunks}) (hd : data ∈ chunks) (verify : Verify) :
    ChunkStore.resolve P d h (P.blake3 data) verify = (.ok data, h.cache) := by
  obtain ⟨loc, r, hloc, hfull, hstands⟩ := hs.exists_record hu hd
  obtain ⟨henc, hdecode, -⟩ := chunkCoding_full hfull.decode (P.blake3 data)
  have hlocate : locate h (P.blake3 data) = .ok loc := by rw [locate, hloc]
  have hrecord := hstands.readRecord (P.blake3 data)
  have hid : r.header.id = P.blake3 data := hfull.id
  have hdescend : ∀ fuel, descend P d h verify (fuel + 1) [] (P.blake3 data)
      = .ok ([], P.blake3 data, data) := by
    intro fuel
    simp only [descend, hlocate, hrecord, hid, hdecode, checkLayer_ok rfl, henc, bind,
      Except.bind, pure, Except.pure, any_nil, ne_eq, not_true_eq_false, and_false, if_false,
      if_true, Bool.false_eq_true]
  rw [ChunkStore.resolve, hdescend]
  rfl

theorem decodeChunkUnverified (hu : Set.InjOn P.blake3 {b | b ∈ chunks}) (hd : data ∈ chunks) :
    ChunkStore.decodeChunkUnverified P d h (P.blake3 data) = (.ok data, h.cache) := by
  obtain ⟨loc, r, hloc, hfull, hstands⟩ := hs.exists_record hu hd
  have hlocate : locate h (P.blake3 data) = .ok loc := by rw [locate, hloc]
  have hne : r.header.encoding ≠ encDelta := by
    rcases (chunkCoding_full hfull.decode (P.blake3 data)).1 with henc | henc <;> rw [henc] <;> decide
  simp only [ChunkStore.decodeChunkUnverified, hlocate, hstands.readHeader, bind, Except.bind]
  rw [if_neg hne, hstands.decodeNoVerify hloc hfull.decode]

/-- The index lists exactly the ids of the chunks. -/
theorem containsKey {id : ChunkId} :
    h.index.containsKey id = true ↔ ∃ data ∈ chunks, P.blake3 data = id := by
  constructor
  · intro hkey
    obtain ⟨loc, hloc⟩ := Option.isSome_iff_exists.mp hkey
    obtain ⟨data, hd, hid, -⟩ := hs.index id loc hloc
    exact ⟨data, hd, hid⟩
  · rintro ⟨data, hd, rfl⟩
    exact hs.listed data hd

/-! ### Writing -/

/-- A record behind the others of the active pack. -/
theorem append {r : PackRecord} (hfull : FullRecord P r data) :
    InSession P
      (d.modify h.active.seq fun f =>
        { f with data := writeAt f.data h.active.len (r.header.encode ++ r.payload) })
      { h with
        active := { h.active with
          len := h.active.len + recHeaderLen + r.payload.length
          entries := h.active.entries ++ [(r.header.id, h.active.len)] }
        index := h.index.insert r.header.id ⟨h.active.seq, h.active.len⟩ }
      (chunks ++ [data]) := by
  obtain ⟨old, hold, hlen⟩ := hs.active
  have hseq : ∀ f : PackFile, ({ f with
      data := writeAt f.data h.active.len (r.header.encode ++ r.payload) } : PackFile).seq = f.seq :=
    fun _ => rfl
  have hnodup : (d.modify h.active.seq fun f =>
      { f with data := writeAt f.data h.active.len (r.header.encode ++ r.payload) }).seqs.Nodup :=
    (Dir.seqs_modify hseq).symm ▸ hs.nodup
  have hone : ∀ f ∈ d, f.seq = h.active.seq → f.data = old := by
    intro f hf hseq
    have hmap := (Dir.has_iff hs.nodup).mp ⟨f, hf, hseq, rfl⟩
    rw [(Dir.has_iff hs.nodup).mp hold] at hmap
    exact (Option.some.inj hmap).symm
  have hmodify : ∀ seq x, (d.modify h.active.seq fun f =>
      { f with data := writeAt f.data h.active.len (r.header.encode ++ r.payload) }).Has seq x ↔ _ :=
    fun seq x => Dir.has_modify hseq
  generalize (d.modify h.active.seq fun f =>
    { f with data := writeAt f.data h.active.len (r.header.encode ++ r.payload) }) = d'
    at hnodup hmodify ⊢
  -- the active pack grows by the record, the others stay
  have hactive : ∀ {x}, d'.Has h.active.seq x ↔ x = old ++ r.bytes := by
    intro x
    rw [hmodify, if_pos rfl]
    constructor
    · rintro ⟨f, hf, hseq, rfl⟩
      rw [hone f hf hseq, writeAt_end _ hlen.symm]
      rfl
    · rintro rfl
      obtain ⟨f, hf, hseq, hdata⟩ := hold
      refine ⟨f, hf, hseq, ?_⟩
      rw [hdata, writeAt_end _ hlen.symm]
      rfl
  have hother : ∀ {seq x}, seq ≠ h.active.seq → (d'.Has seq x ↔ d.Has seq x) := by
    intro seq x hne
    rw [hmodify, if_neg hne]
  refine ⟨hnodup, ?_, ⟨_, hactive.mpr rfl, ?_⟩, ?_, ?_, ?_⟩
  · intro seq x hx
    by_cases heq : seq = h.active.seq
    · obtain ⟨recs, rfl⟩ := hs.files _ _ hold
      rw [heq] at hx
      refine ⟨recs ++ [r], ?_⟩
      rw [hactive.mp hx, packBytes_append, body_cons, body_nil, append_nil]
    · exact hs.files seq x ((hother heq).mp hx)
  · simp only [length_append, PackRecord.length_bytes, PackRecord.size, hlen]
    omega
  · intro seq x hne hx
    exact (hother hne).mpr (hs.sealed seq x hne hx)
  · intro id loc hloc
    rw [FinMap.get_insert] at hloc
    split at hloc
    · rename_i hid
      cases hloc
      refine ⟨data, mem_append_right _ (mem_singleton.mpr rfl), ?_, r, hfull, old, [],
        ?_, hlen.symm⟩
      · rw [hid]
        exact hfull.id.symm
      · rw [packOf, if_pos rfl, append_nil]
        exact (Dir.has_iff hnodup).mp (hactive.mpr rfl)
    · obtain ⟨data', hd', hid', r', hfull', hstands⟩ := hs.index id loc hloc
      refine ⟨data', mem_append_left _ hd', hid', r', hfull', hstands.mono fun x hx => ?_⟩
      rw [packOf] at hx ⊢
      by_cases heq : loc.seq = h.active.seq
      · rw [if_pos heq] at hx ⊢
        rw [heq] at hx ⊢
        rw [(Dir.has_iff hs.nodup).mp hold] at hx
        cases hx
        exact ⟨r.bytes, (Dir.has_iff hnodup).mp (hactive.mpr rfl)⟩
      · rw [if_neg heq] at hx ⊢
        exact ⟨[], by rw [hx, append_nil]⟩
  · intro data' hd'
    rw [FinMap.containsKey, FinMap.get_insert]
    split
    · rfl
    · rename_i hne
      rcases mem_append.mp hd' with hd' | hd'
      · exact hs.listed data' hd'
      · rw [mem_singleton.mp hd', ← hfull.id] at hne
        exact absurd rfl hne

/-- Another pack is active, and the one that was is mapped. -/
theorem rolled {d' : Dir} {h' : ChunkStore} (hindex : h'.index = h.index) (hnodup : d'.seqs.Nodup)
    (hfiles : ∀ seq data, d'.Has seq data → ∃ recs, data = packBytes recs)
    (hkept : ∀ seq data, d.Has seq data → d'.Has seq data)
    (hactive : ∃ data, d'.Has h'.active.seq data ∧ data.length = h'.active.len)
    (hne : h'.active.seq ≠ h.active.seq)
    (hmapped : ∀ data, d.Has h.active.seq data → h'.sealed.lookup h.active.seq = some data)
    (hsealed : ∀ seq, seq ≠ h.active.seq → h'.sealed.lookup seq = h.sealed.lookup seq) :
    InSession P d' h' chunks := by
  refine ⟨hnodup, hfiles, hactive, ?_, ?_, ?_⟩
  · intro seq data _ hlookup
    by_cases heq : seq = h.active.seq
    · obtain ⟨old, hold, -⟩ := hs.active
      rw [heq, hmapped old hold] at hlookup
      cases hlookup
      rw [heq]
      exact hkept _ _ hold
    · rw [hsealed seq heq] at hlookup
      exact hkept _ _ (hs.sealed seq data heq hlookup)
  · intro id loc hloc
    rw [hindex] at hloc
    obtain ⟨data, hd, hid, r, hfull, hstands⟩ := hs.index id loc hloc
    refine ⟨data, hd, hid, r, hfull, hstands.mono fun x hx => ⟨[], ?_⟩⟩
    rw [append_nil]
    rw [packOf] at hx ⊢
    by_cases heq : loc.seq = h.active.seq
    · rw [if_pos heq, heq] at hx
      rw [heq, if_neg hne.symm]
      exact hmapped x ((Dir.has_iff hs.nodup).mpr hx)
    · rw [if_neg heq] at hx
      split
      · exact (Dir.has_iff hnodup).mp (hkept _ _ (hs.sealed _ _ heq hx))
      · rw [hsealed _ heq, hx]
  · intro data hd
    rw [hindex]
    exact hs.listed data hd

/-- **Rolling over.** The next pack is a fresh one, or one that is there and in order. -/
theorem sealAndRoll :
    ∃ d' h', ChunkStore.sealAndRoll S d h = (d', h', .ok ()) ∧ InSession P d' h' chunks := by
  obtain ⟨old, hold, -⟩ := hs.active
  let d₁ := d.modify h.active.seq fun f => { f with idx := some (Idx.write S h.active.entries) }
  have hseqs₁ : d₁.seqs = d.seqs :=
    Dir.seqs_modify (g := fun f => { f with idx := some (Idx.write S h.active.entries) }) fun _ => rfl
  have hnodup₁ : d₁.seqs.Nodup := hseqs₁ ▸ hs.nodup
  have hhas₁ : ∀ {seq data}, d₁.Has seq data ↔ d.Has seq data :=
    Dir.has_modify_same (g := fun f => { f with idx := some (Idx.write S h.active.entries) })
      (fun _ => rfl) fun _ _ _ => rfl
  obtain ⟨f, hfind, hdata⟩ := Option.map_eq_some_iff.mp ((Dir.has_iff hnodup₁).mp (hhas₁.mpr hold))
  obtain ⟨-, hseq⟩ := (Dir.find_eq_some hnodup₁).mp hfind
  have hmapped : ∀ data, d.Has h.active.seq data → (h.sealed.filter (fun p => p.1 ≠ f.seq)
      ++ [(f.seq, f.data)]).lookup h.active.seq = some data := by
    intro data hx
    have hmap := (Dir.has_iff hnodup₁).mp (hhas₁.mpr hx)
    rw [hfind, Option.map_some] at hmap
    rw [FinMap.lookup_replace, if_pos hseq.symm]
    exact hmap
  have hsealed : ∀ seq, seq ≠ h.active.seq → (h.sealed.filter (fun p => p.1 ≠ f.seq)
      ++ [(f.seq, f.data)]).lookup seq = h.sealed.lookup seq := by
    intro seq hne
    rw [FinMap.lookup_replace, if_neg (hseq ▸ hne)]
  rw [ChunkStore.sealAndRoll]
  dsimp only
  rw [hfind]
  dsimp only
  rw [createActive]
  cases hnext : d₁.find (nextSeq h.active.seq) with
  | none =>
    refine ⟨_, _, rfl, hs.rolled rfl ?_ ?_ ?_ ?_ (nextSeq_ne _) hmapped hsealed⟩
    · have hperm : (d₁.create ⟨nextSeq h.active.seq, fileHeader, none⟩).seqs.Perm
          (nextSeq h.active.seq :: d₁.seqs) := (Dir.create_perm _).map _
      refine hperm.nodup_iff.mpr (nodup_cons.mpr ⟨fun hmem => ?_, hnodup₁⟩)
      obtain ⟨g, hg, hgseq⟩ := mem_map.mp hmem
      have hfound := (Dir.find_eq_some hnodup₁).mpr ⟨hg, hgseq⟩
      rw [hnext] at hfound
      cases hfound
    · intro seq data hx
      rcases Dir.has_create.mp hx with ⟨-, rfl⟩ | hx
      · exact ⟨[], (append_nil _).symm⟩
      · exact hs.files seq data (hhas₁.mp hx)
    · intro seq data hx
      exact Dir.has_create.mpr (.inr (hhas₁.mpr hx))
    · exact ⟨fileHeader, Dir.has_create.mpr (.inl ⟨rfl, rfl⟩), rfl⟩
  | some g =>
    obtain ⟨hg, hgseq⟩ := (Dir.find_eq_some hnodup₁).mp hnext
    obtain ⟨recs, hrecs⟩ := hs.files _ _ (hhas₁.mp ⟨g, hg, hgseq, rfl⟩)
    have hstop : Pack.nextRecord (packBytes recs).length [] = .stop :=
      Pack.nextRecord_short (by simp [recHeaderLen])
    have hopen : openActive g.data = .ok (g.data, entries recs) := by
      have := PackSet.openActive_packBytes recs hstop
      rwa [append_nil, ← hrecs] at this
    have hhas₂ : ∀ {seq data}, (d₁.modify (nextSeq h.active.seq) fun f =>
        { f with data := g.data }).Has seq data ↔ d₁.Has seq data := by
      refine Dir.has_modify_same (g := fun f => { f with data := g.data }) (fun _ => rfl)
        fun f' hf' hseq' => ?_
      have hsame := (Dir.find_eq_some hnodup₁).mpr ⟨hf', hseq'⟩
      rw [hnext] at hsame
      cases hsame
      rfl
    simp only [hopen]
    refine ⟨_, _, rfl, hs.rolled rfl ?_ ?_ ?_ ?_ (nextSeq_ne _) hmapped hsealed⟩
    · rw [Dir.seqs_modify (g := fun f => { f with data := g.data }) fun _ => rfl]
      exact hnodup₁
    · intro seq data hx
      exact hs.files seq data (hhas₁.mp (hhas₂.mp hx))
    · intro seq data hx
      exact hhas₂.mpr (hhas₁.mpr hx)
    · exact ⟨g.data, hhas₂.mpr ⟨g, hg, hgseq, rfl⟩, rfl⟩

theorem appendRecord {r : PackRecord} (hfull : FullRecord P r data) :
    ∃ d' h', ChunkStore.appendRecord S d h r.header r.payload = (d', h', .ok ()) ∧
      InSession P d' h' (chunks ++ [data]) := by
  have happend := hs.append hfull
  rw [ChunkStore.appendRecord]
  dsimp only
  split
  · exact happend.sealAndRoll
  · exact ⟨_, _, rfl, happend⟩

omit hs

/-- **Storing a chunk.** The list grows at most by it, and has its id if the store says so. -/
theorem put (hz : P.ZstdLawful) (hs : InSession P d h chunks) (data : Bytes) :
    ∃ d' h' res chunks', ChunkStore.put P S d h data = (d', h', res) ∧ chunks <+: chunks' ∧
      chunks' ⊆ chunks ++ [data] ∧ InSession P d' h' chunks' ∧
      ∀ id, res = .ok id → id = P.blake3 data ∧ ∃ data' ∈ chunks', P.blake3 data' = id := by
  have hsame : chunks ⊆ chunks ++ [data] := subset_append_left _ _
  unfold ChunkStore.put
  dsimp only
  by_cases hthere : h.index.containsKey (P.blake3 data) = true
  · refine ⟨d, h, _, chunks, by rw [if_pos hthere], prefix_rfl, hsame, hs, ?_⟩
    rintro id ⟨⟩
    exact ⟨rfl, hs.containsKey.mp hthere⟩
  rw [if_neg hthere]
  by_cases hbig : 2 ^ 32 ≤ data.length
  · exact ⟨d, h, _, chunks, by rw [if_pos hbig], prefix_rfl, hsame, hs, fun id hok => by cases hok⟩
  rw [if_neg hbig]
  cases hplain : encodePlain P h.opts data with
  | error e => exact ⟨d, h, _, chunks, rfl, prefix_rfl, hsame, hs, fun id hok => by cases hok⟩
  | ok p =>
    obtain ⟨encoding, payload⟩ := p
    obtain ⟨r, hheader, hpayload, hbase, hdecode, hsize⟩ := encodePlain_record hz hbig hplain
    have hid : r.id = P.blake3 data := by rw [PackRecord.id, hheader]
    obtain ⟨d', h', happend, hs'⟩ := hs.appendRecord (S := S) ⟨hid, hbase, hdecode, hsize⟩
    rw [hheader, hpayload] at happend
    refine ⟨d', h', .ok (P.blake3 data), chunks ++ [data], by simp only [happend],
      prefix_append _ _, List.Subset.refl _, hs', ?_⟩
    rintro id ⟨⟩
    exact ⟨rfl, data, mem_append_right _ (mem_singleton.mpr rfl), rfl⟩

end InSession

end Alt.Store
