import Alt.Store.ChunkReads
import Alt.Library.Prog

namespace Alt.Store

open Alt.Library Pack ChunkStore List

/-!
# Writing chunks through a handle that is in step with the disk

One spec lemma for every operation that changes the packs: from a pack set the handle
follows to the pack set it follows afterwards (`put_spec`, `reencodeAsDelta_spec`,
`compact_spec`, `rewind_spec`), and what the new records are.  `GroundedAll` is the content
invariant, closed under cutting the active pack at any record.
-/

/-! ### Directories that are pack sets -/

namespace Dir

/-- A new file with the highest number comes last. -/
theorem create_last {d : Dir} {f : PackFile} (h : ∀ g ∈ d, g.seq < f.seq) :
    d.create f = d ++ [f] := by
  have hall : ∀ g ∈ d, decide (g.seq < f.seq) = true := fun g hg => by simpa using h g hg
  rw [create, takeWhile_eq_self_iff.mpr hall, dropWhile_eq_nil_iff.mpr hall]

theorem find_none {d : Dir} {seq : Nat} (h : ∀ g ∈ d, g.seq ≠ seq) : d.find seq = none := by
  rw [find, find?_eq_none]
  intro g hg
  simpa using h g hg

end Dir

/-- A fresh pack above the others starts empty. -/
theorem createActive_last {d : Dir} {seq : Nat} (h : ∀ g ∈ d, g.seq < seq) :
    createActive d seq = (d ++ [⟨seq, fileHeader, none⟩], .ok ⟨seq, headerLen, []⟩) := by
  rw [createActive, Dir.find_none fun g hg => Nat.ne_of_lt (h g hg)]
  dsimp only
  rw [Dir.create_last h]

namespace PackSet

variable (S : IdxSort) (c : PackSet)

theorem dir_seqs : (c.dir S).seqs = c.sealed.map SealedPack.seq ++ [c.activeSeq] := by
  simp [Dir.seqs, dir, SealedPack.file, Function.comp_def]

/-- Every pack of the directory is numbered up to the active one. -/
theorem seq_le {f : PackFile} (hf : f ∈ c.dir S) : f.seq ≤ c.activeSeq := by
  rcases mem_append.mp hf with hsealed | hactive
  · obtain ⟨p, hp, rfl⟩ := mem_map.mp hsealed
    exact Nat.le_of_lt (c.seq_lt hp)
  · rw [mem_singleton.mp hactive]

theorem modify_active (g : PackFile → PackFile) :
    (c.dir S).modify c.activeSeq g
      = c.sealed.map (SealedPack.file S) ++ [g ⟨c.activeSeq, packBytes c.active, none⟩] := by
  have hsealed : ∀ p ∈ c.sealed, (fun f : PackFile => if f.seq = c.activeSeq then g f else f)
      (p.file S) = p.file S := by
    intro p hp
    have := c.seq_lt hp
    exact if_neg (Nat.ne_of_lt this)
  simp only [Dir.modify, dir, map_append, map_map, map_singleton, if_true]
  congr 1
  exact map_congr_left hsealed

/-- One more record in the active pack. -/
def push (r : PackRecord) : PackSet := { c with active := c.active ++ [r] }

/-- The active pack sealed, with its altidx, and an empty one started. -/
def roll (hsize : (packBytes c.active).length < 2 ^ 64) : PackSet where
  sealed := c.sealed ++ [⟨c.activeSeq, c.active, true, hsize⟩]
  activeSeq := c.activeSeq + 1
  active := []
  ordered := by
    rw [map_append, pairwise_append]
    refine ⟨c.ordered, pairwise_singleton _ _, ?_⟩
    intro a ha b hb
    obtain rfl := mem_singleton.mp hb
    rcases mem_append.mp ha with hsealed | hactive
    · obtain ⟨p, hp, rfl⟩ := mem_map.mp hsealed
      have := c.seq_lt hp
      omega
    · rw [mem_singleton.mp hactive]
      exact Nat.lt_succ_self _

/-- The active pack cut back to its first records. -/
def cut (n : Nat) : PackSet := { c with active := c.active.take n }

theorem roll_dir (hsize : (packBytes c.active).length < 2 ^ 64) :
    (c.roll hsize).dir S = c.sealed.map (SealedPack.file S)
      ++ [⟨c.activeSeq, packBytes c.active, some (Idx.write S (entries c.active))⟩]
      ++ [⟨c.activeSeq + 1, fileHeader, none⟩] := by
  simp [dir, roll, SealedPack.file, packBytes]

end PackSet

/-- A record was pushed, and the pack possibly rolled. -/
inductive Pushed (c : PackSet) (r : PackRecord) : PackSet → Prop
  | stay : Pushed c r (c.push r)
  | roll (hsize : (packBytes (c.push r).active).length < 2 ^ 64) : Pushed c r ((c.push r).roll hsize)

/-! ### The content invariant -/

/-- Every chunk resolves to what is right for it, however far the active pack is cut back. -/
def GroundedAll (P : Prims) (right : ChunkId → Bytes → Prop) (c : PackSet) : Prop :=
  ∀ n, (chunkCoding P).Grounded right (c.cut n).records

variable {P : Prims} {S : IdxSort} {c c' : PackSet} {h : ChunkStore}
  {right : ChunkId → Bytes → Prop}

theorem GroundedAll.grounded (hg : GroundedAll P right c) :
    (chunkCoding P).Grounded right c.records := by
  have := hg c.active.length
  rwa [PackSet.cut, PackSet.records, take_length] at this

theorem GroundedAll.imp {right' : ChunkId → Bytes → Prop} (hg : GroundedAll P right c)
    (himp : ∀ id data, right id data → right' id data) : GroundedAll P right' c :=
  fun n => (hg n).imp himp

theorem GroundedAll.cut (hg : GroundedAll P right c) (n : Nat) : GroundedAll P right (c.cut n) := by
  intro m
  have := hg (min m n)
  simpa [PackSet.cut, PackSet.records, take_take] using this

/-- An emptied active pack leaves nothing to cut. -/
theorem GroundedAll.of_records (hg : (chunkCoding P).Grounded right c.records)
    (hactive : c.active = []) : GroundedAll P right c := by
  intro n
  simpa [PackSet.cut, PackSet.records, hactive] using hg

theorem GroundedAll.pushed (hg : GroundedAll P right c) {r : PackRecord}
    (hr : (chunkCoding P).Grounded right (c.records ++ [r])) (hp : Pushed c r c') :
    GroundedAll P right c' := by
  have hpush : GroundedAll P right (c.push r) := by
    intro n
    by_cases hn : n ≤ c.active.length
    · have := hg n
      simpa [PackSet.cut, PackSet.push, PackSet.records, take_append_of_le_length hn] using this
    · have htake : (c.active ++ [r]).take n = c.active ++ [r] :=
        take_of_length_le (by rw [length_append, length_singleton]; omega)
      simpa [PackSet.cut, PackSet.push, PackSet.records, htake] using hr
  cases hp with
  | stay => exact hpush
  | roll hsize =>
    apply GroundedAll.of_records _ rfl
    have := hpush.grounded
    simpa [PackSet.roll, PackSet.push, PackSet.records] using this

/-- What every resolving chain of a grounded store comes to is right. -/
theorem GroundedAll.right_of_resolves (hg : GroundedAll P right c) {id : ChunkId}
    {path : List ChunkId} {v : Bytes} (hres : (chunkCoding P).Resolves (c.newest P) id path v) :
    right id v := by
  obtain ⟨r, hr⟩ := hres.found
  obtain ⟨path', w, hres', hw⟩ := hg.grounded id r hr
  obtain ⟨-, rfl⟩ := hres.functional hres'
  exact hw

/-- Reading a chunk caches right bases only, whether or not the chunk is there. -/
theorem Follows.get_cache (hf : Follows c h) (hcontent : Content P right)
    (hcache : CacheOk right h.cache) (hg : GroundedAll P right c) (id : ChunkId) :
    CacheOk right (ChunkStore.get P (c.dir S) h id).2 := by
  cases hr : c.newest P id with
  | none =>
    have hloc : locate h id = .error (.notFound id) := by
      unfold locate
      cases hget : h.index.get id with
      | none => rfl
      | some loc =>
        obtain ⟨r, hr'⟩ := hf.newest_of_get (P := P) hget
        rw [hr] at hr'
        cases hr'
    have hval : ChunkStore.get P (c.dir S) h id = (.error (.notFound id), h.cache) := by
      simp [ChunkStore.get, resolve, descend, hloc, bind, Except.bind]
    rw [hval]
    exact hcache
  | some r =>
    obtain ⟨path, v, hres, -⟩ := hg.grounded id r hr
    obtain ⟨cache, hc, heq⟩ := hf.resolve_resolves (S := S) hcontent hcache hres
      (fun x path w hx => hg.right_of_resolves hx) .boundary
    rw [ChunkStore.get, heq]
    exact hc

/-! ### Appending a record -/

theorem scanned_push (c : PackSet) (r : PackRecord) :
    (c.push r).scanned = c.scanned ++ [(r.id, ⟨c.activeSeq, (packBytes c.active).length⟩)] := by
  simp [PackSet.scanned, PackSet.push, entries_append, located]

theorem scanned_roll (c : PackSet) (hsize : (packBytes c.active).length < 2 ^ 64) :
    (c.roll hsize).scanned = c.scanned := by
  simp [PackSet.scanned, PackSet.roll, entries, place, located]

theorem length_packBytes_push (c : PackSet) (r : PackRecord) :
    (packBytes (c.push r).active).length = (packBytes c.active).length + r.size := by
  simp [PackSet.push, packBytes_append]

/-- Sealing a full pack starts an empty one above it. -/
theorem sealAndRoll_spec (hf : Follows c h) (hsize : (packBytes c.active).length < 2 ^ 64)
    (hseq : c.activeSeq + 1 < 2 ^ 32) :
    ∃ h', sealAndRoll S (c.dir S) h = ((c.roll hsize).dir S, h', .ok ()) ∧
      Follows (c.roll hsize) h' ∧ h'.cache = h.cache ∧ h'.opts = h.opts := by
  have hnext : nextSeq c.activeSeq = c.activeSeq + 1 := Nat.mod_eq_of_lt hseq
  have hlow : ∀ f ∈ c.sealed.map (SealedPack.file S)
      ++ [⟨c.activeSeq, packBytes c.active, some (Idx.write S (entries c.active))⟩],
      f.seq < c.activeSeq + 1 := by
    intro f hfm
    rcases mem_append.mp hfm with hsealed | hactive
    · obtain ⟨p, hp, rfl⟩ := mem_map.mp hsealed
      exact Nat.lt_succ_of_lt (c.seq_lt hp)
    · rw [mem_singleton.mp hactive]
      exact Nat.lt_succ_self _
  have hfind : Dir.find (c.sealed.map (SealedPack.file S)
      ++ [⟨c.activeSeq, packBytes c.active, some (Idx.write S (entries c.active))⟩]) c.activeSeq
      = some ⟨c.activeSeq, packBytes c.active, some (Idx.write S (entries c.active))⟩ := by
    have hnone : Dir.find (c.sealed.map (SealedPack.file S)) c.activeSeq = none := by
      apply Dir.find_none
      intro f hfm
      obtain ⟨p, hp, rfl⟩ := mem_map.mp hfm
      exact Nat.ne_of_lt (c.seq_lt hp)
    unfold Dir.find at hnone ⊢
    rw [find?_append, hnone]
    simp
  have hsealed : h.sealed.filter (fun p => p.1 ≠ c.activeSeq) = h.sealed := by
    rw [filter_eq_self, hf.sealed]
    intro q hq
    obtain ⟨p, hp, rfl⟩ := mem_map.mp hq
    have := c.seq_lt hp
    simp only [ne_eq, decide_not, Bool.not_eq_eq_eq_not, Bool.not_true, decide_eq_false_iff_not]
    omega
  unfold sealAndRoll
  simp only [hf.active, PackSet.modify_active, hfind, hnext, hsealed, createActive_last hlow]
  refine ⟨{ h with
    sealed := h.sealed ++ [(c.activeSeq, packBytes c.active)]
    active := ⟨c.activeSeq + 1, headerLen, []⟩ }, ?_, ?_, rfl, rfl⟩
  · rw [PackSet.roll_dir]
  · refine ⟨?_, ?_, ?_⟩
    · simp [hf.sealed, PackSet.roll]
    · simp [PackSet.roll, packBytes, entries, place]
    · intro id
      rw [scanned_roll]
      exact hf.index id

/-- **Appending a record** puts it behind the others and points the index at it. -/
theorem appendRecord_spec (hf : Follows c h) (r : PackRecord)
    (hsize : (packBytes c.active).length + r.size < 2 ^ 64) (hseq : c.activeSeq + 1 < 2 ^ 32) :
    ∃ c' h', appendRecord S (c.dir S) h r.header r.payload = (c'.dir S, h', .ok ()) ∧
      Pushed c r c' ∧ Follows c' h' ∧ h'.cache = h.cache ∧ h'.opts = h.opts := by
  have hlen : h.active.len = (packBytes c.active).length := by rw [hf.active]
  have hdir : (c.dir S).modify h.active.seq (fun f =>
      { f with data := writeAt f.data h.active.len (r.header.encode ++ r.payload) })
      = (c.push r).dir S := by
    rw [hf.active, PackSet.modify_active]
    have hbytes : packBytes c.active ++ (r.header.encode ++ r.payload)
        = packBytes (c.push r).active := by
      rw [PackSet.push, packBytes_append, body_cons, body_nil, append_nil]
      rfl
    simp only [writeAt_length, hbytes]
    rfl
  let h₁ : ChunkStore := { h with
    active := { h.active with
      len := h.active.len + recHeaderLen + r.payload.length
      entries := h.active.entries ++ [(r.header.id, h.active.len)] }
    index := h.index.insert r.header.id ⟨h.active.seq, h.active.len⟩ }
  have hf₁ : Follows (c.push r) h₁ := by
    refine ⟨hf.sealed, ?_, ?_⟩
    · have hsum := length_packBytes_push c r
      simp only [h₁, hf.active, PackSet.push] at hsum ⊢
      rw [hsum, entries_append, PackRecord.size, Nat.add_assoc]
      rfl
    · intro id
      show (h.index.insert r.header.id _).get id = _
      rw [FinMap.get_insert, scanned_push, lastOf_concat, hf.index, hf.active]
      rfl
  have hval : appendRecord S (c.dir S) h r.header r.payload
      = if h₁.opts.sealThreshold ≤ h₁.active.len then sealAndRoll S ((c.push r).dir S) h₁
        else ((c.push r).dir S, h₁, .ok ()) := by
    unfold appendRecord
    dsimp only
    rw [hdir]
  rw [hval]
  split
  · have hsize' : (packBytes (c.push r).active).length < 2 ^ 64 := by
      rw [length_packBytes_push]
      exact hsize
    obtain ⟨h', heq, hf', hc', ho'⟩ := sealAndRoll_spec (S := S) hf₁ hsize' hseq
    exact ⟨_, h', heq, .roll hsize', hf', hc', ho'⟩
  · exact ⟨_, h₁, rfl, .stay, hf₁, rfl, rfl⟩

/-! ### Storing a chunk in full -/

theorem encodePlain_ok (hz : P.ZstdLawful) {opts : Options} {data payload : Bytes}
    {encoding : UInt8} (he : encodePlain P opts data = .ok (encoding, payload)) :
    payload.length ≤ data.length ∧ ((encoding = encRaw ∧ payload = data) ∨
      (encoding = encZstd ∧ P.decodeAll payload = some data)) := by
  unfold encodePlain at he
  split at he
  · cases he
    exact ⟨le_rfl, .inl ⟨rfl, rfl⟩⟩
  · split at he
    · cases he
    · rename_i z hcompress
      by_cases hwin : z.length < data.length
      · rw [if_pos hwin] at he
        cases he
        exact ⟨Nat.le_of_lt hwin, .inr ⟨rfl, hz.decode_encode data _ _ hcompress⟩⟩
      · rw [if_neg hwin] at he
        cases he
        exact ⟨le_rfl, .inl ⟨rfl, rfl⟩⟩

/-- The record a chunk is stored as. -/
theorem encodePlain_record (hz : P.ZstdLawful) {opts : Options} {data payload : Bytes}
    {encoding : UInt8} (hbig : ¬ 2 ^ 32 ≤ data.length)
    (he : encodePlain P opts data = .ok (encoding, payload)) :
    ∃ r : PackRecord,
      r.header = ⟨P.blake3 data, encoding, .ofNat data.length, .ofNat payload.length⟩ ∧
      r.payload = payload ∧ (chunkCoding P).base r = none ∧
      (chunkCoding P).decode r none = some data ∧ r.size ≤ recHeaderLen + data.length := by
  obtain ⟨hle, hcases⟩ := encodePlain_ok hz he
  have horig : (UInt32.ofNat data.length).toNat = data.length :=
    UInt32.toNat_ofNat_of_lt' (by rw [UInt32.size]; omega)
  have hstored : (UInt32.ofNat payload.length).toNat = payload.length :=
    UInt32.toNat_ofNat_of_lt' (by rw [UInt32.size]; omega)
  let r : PackRecord := {
    header := ⟨P.blake3 data, encoding, .ofNat data.length, .ofNat payload.length⟩
    payload := payload
    encoding_le := by
      rcases hcases with ⟨rfl, -⟩ | ⟨rfl, -⟩
      · exact (by decide : encRaw ≤ encReservedMax)
      · exact (by decide : encZstd ≤ encReservedMax)
    length_payload := hstored.symm }
  refine ⟨r, rfl, rfl, ?_, ?_, ?_⟩
  · have hne : r.header.encoding ≠ encDelta := by
      rcases hcases with ⟨henc, -⟩ | ⟨henc, -⟩ <;> simp only [r, henc] <;> decide
    simp only [chunkCoding, if_neg hne]
  · have hlen : decide (data.length = r.header.origLen.toNat) = true := by
      simp only [r, horig, decide_true]
    rcases hcases with ⟨henc, hpay⟩ | ⟨henc, hdec⟩
    · simp only [chunkCoding, r, henc, hpay, if_true, Option.filter_some]
      exact if_pos hlen
    · have hraw : ¬ encoding = encRaw := by rw [henc]; decide
      simp only [chunkCoding, r, if_neg hraw, if_pos henc, hdec, Option.filter_some]
      exact if_pos hlen
  · show recHeaderLen + payload.length ≤ _
    omega

/-- **Storing a chunk.** It is there already, or it is too large or does not compress and
    nothing changes, or one full record that decodes to the data is appended. -/
theorem put_spec (hz : P.ZstdLawful) (hf : Follows c h) (data : Bytes)
    (hsize : data.length < 2 ^ 32 →
      (packBytes c.active).length + (recHeaderLen + data.length) < 2 ^ 64)
    (hseq : c.activeSeq + 1 < 2 ^ 32) :
    (∃ loc, put P S (c.dir S) h data = (c.dir S, h, .ok (P.blake3 data)) ∧
      h.index.get (P.blake3 data) = some loc) ∨
    (∃ e, put P S (c.dir S) h data = (c.dir S, h, .error e) ∧
      (2 ^ 32 ≤ data.length ∨ encodePlain P h.opts data = .error e)) ∨
    ∃ r c' h', put P S (c.dir S) h data = (c'.dir S, h', .ok (P.blake3 data)) ∧
      Pushed c r c' ∧ Follows c' h' ∧ h'.cache = h.cache ∧ r.id = P.blake3 data ∧
      c.newest P r.id = none ∧ (chunkCoding P).base r = none ∧
      (chunkCoding P).decode r none = some data ∧ r.size ≤ recHeaderLen + data.length := by
  unfold put
  dsimp only
  by_cases hthere : h.index.containsKey (P.blake3 data) = true
  · obtain ⟨loc, hloc⟩ := Option.isSome_iff_exists.mp hthere
    exact .inl ⟨loc, by rw [if_pos hthere], hloc⟩
  rw [if_neg hthere]
  by_cases hbig : 2 ^ 32 ≤ data.length
  · exact .inr (.inl ⟨_, by rw [if_pos hbig], .inl hbig⟩)
  rw [if_neg hbig]
  cases hplain : encodePlain P h.opts data with
  | error e => exact .inr (.inl ⟨e, rfl, .inr rfl⟩)
  | ok p =>
    obtain ⟨encoding, payload⟩ := p
    obtain ⟨r, hheader, hpayload, hbase, hdecode, hrsize⟩ := encodePlain_record hz hbig hplain
    have hid : r.id = P.blake3 data := by rw [PackRecord.id, hheader]
    have hroom : (packBytes c.active).length + r.size < 2 ^ 64 := by
      have := hsize (Nat.lt_of_not_le hbig)
      omega
    obtain ⟨c', h', happend, hpushed, hf', hcache, -⟩ := appendRecord_spec (S := S) hf r hroom hseq
    rw [hheader, hpayload] at happend
    refine .inr (.inr ⟨r, c', h', ?_, hpushed, hf', hcache, hid, ?_, hbase, hdecode, hrsize⟩)
    · simp only [happend]
    · apply hf.not_indexed P
      cases hget : h.index.get r.id with
      | none => rfl
      | some loc =>
        rw [hid] at hget
        exact absurd (by rw [FinMap.containsKey]; exact Option.isSome_iff_exists.mpr ⟨loc, hget⟩) hthere

/-! ### Re-encoding a chunk as a delta -/

theorem Follows.withCache (hf : Follows c h) (cache : DeltaCache) :
    Follows c { h with cache := cache } := ⟨hf.sealed, hf.active, hf.index⟩

theorem Follows.locate_placed (hf : Follows c h) {id : ChunkId} {r : PackRecord}
    (hr : c.newest P id = some r) : ∃ loc, locate h id = .ok loc ∧ (id, loc, r) ∈ c.placed := by
  obtain ⟨loc, hloc, hmem⟩ := hf.locate_newest hr
  exact ⟨loc, by rw [locate, hloc], hmem⟩

theorem Follows.newest_of_locate (hf : Follows c h) {id : ChunkId} {loc : Location}
    (hloc : locate h id = .ok loc) :
    ∃ r, c.newest P id = some r ∧ (id, loc, r) ∈ c.placed := by
  unfold locate at hloc
  split at hloc
  · cases hloc
  rename_i loc' hget
  cases hloc
  obtain ⟨r, hr⟩ := hf.newest_of_get (P := P) hget
  obtain ⟨loc'', hget', hmem⟩ := hf.locate_newest hr
  rw [hget] at hget'
  cases hget'
  exact ⟨r, hr, hmem⟩

/-- The cycle guard: a base it passes has a chain that avoids the chunk. -/
theorem walkBase_true (hf : Follows c h) {id node : ChunkId} {path : List ChunkId} {w : Bytes}
    (hres : (chunkCoding P).Resolves (c.newest P) node path w) {left : Nat}
    (hwalk : walkBase (c.dir S) h id left node = .ok true) : id ∉ path := by
  induction hres generalizing left with
  | @full node r v hr hb hd =>
    intro hmem
    unfold walkBase at hwalk
    rw [if_pos (mem_singleton.mp hmem).symm] at hwalk
    cases hwalk
  | @delta node b r path w v hr hb hw hd ih =>
    by_cases hne : node = id
    · unfold walkBase at hwalk
      rw [if_pos hne] at hwalk
      cases hwalk
    · obtain ⟨loc, hloc, hmem⟩ := hf.locate_placed hr
      obtain ⟨henc, rfl⟩ := chunkCoding_base hb
      have hlen := (chunkCoding_delta hd).1
      have hnot : ¬ r.header.encoding ≠ encDelta := fun hn => hn henc
      have hrest : id ∉ path := by
        unfold walkBase at hwalk
        rw [if_neg hne, hloc] at hwalk
        obtain ⟨loc', hloc', hwalk⟩ := bind_eq_ok hwalk
        cases hloc'
        obtain ⟨header, hheader, hwalk⟩ := bind_eq_ok hwalk
        rw [(hf.readRecord_placed hmem node).1] at hheader
        cases hheader
        rw [if_neg hnot] at hwalk
        -- the walk goes on at the base while the depth cap allows it
        cases left with
        | zero => cases hwalk
        | succ left =>
          obtain ⟨base, hbase, hwalk⟩ := bind_eq_ok hwalk
          rw [hf.readBaseId_placed hmem node hlen] at hbase
          cases hbase
          exact ih hwalk
      intro hin
      rcases mem_cons.mp hin with heq | hin
      · exact hne heq.symm
      · exact hrest hin

/-- What the checks before a re-encoding have established. -/
theorem checkReencode_some (hf : Follows c h) {id base : ChunkId} {current : RecordHeader}
    (hcheck : checkReencode (c.dir S) h id base = .ok (some current)) :
    ∃ r rb, c.newest P id = some r ∧ r.header = current ∧ current.encoding ≠ encDelta ∧
      c.newest P base = some rb ∧
      ∀ path w, (chunkCoding P).Resolves (c.newest P) base path w → id ∉ path := by
  unfold checkReencode at hcheck
  by_cases heq : id = base
  · rw [if_pos heq] at hcheck
    cases hcheck
  rw [if_neg heq] at hcheck
  obtain ⟨idLoc, hid, hcheck⟩ := bind_eq_ok hcheck
  obtain ⟨baseLoc, hbase, hcheck⟩ := bind_eq_ok hcheck
  obtain ⟨header, hheader, hcheck⟩ := bind_eq_ok hcheck
  obtain ⟨r, hr, hmem⟩ := hf.newest_of_locate (P := P) hid
  obtain ⟨rb, hrb, -⟩ := hf.newest_of_locate (P := P) hbase
  rw [(hf.readRecord_placed hmem id).1] at hheader
  cases hheader
  by_cases henc : r.header.encoding = encDelta
  · rw [if_pos henc] at hcheck
    cases hcheck
  rw [if_neg henc] at hcheck
  obtain ⟨free, hfree, hcheck⟩ := bind_eq_ok hcheck
  cases free with
  | false => cases hcheck
  | true =>
    cases hcheck
    exact ⟨r, rb, hr, rfl, henc, hrb, fun path w hres => walkBase_true hf hres hfree⟩

/-- **Re-encoding a chunk.** Whatever comes of it, the handle stays in step and everything
    stays grounded: a delta is written only against a base whose chain avoids the chunk. -/
theorem reencodeAsDelta_spec (hz : P.ZstdLawful) (hf : Follows c h) (hcontent : Content P right)
    (hcache : CacheOk right h.cache) (hg : GroundedAll P right c) (id base : ChunkId)
    (hsize : (packBytes c.active).length + 2 ^ 33 < 2 ^ 64) (hseq : c.activeSeq + 1 < 2 ^ 32) :
    ∃ c' h' res, reencodeAsDelta P S (c.dir S) h id base = (c'.dir S, h', res) ∧
      Follows c' h' ∧ CacheOk right h'.cache ∧ GroundedAll P right c' := by
  unfold reencodeAsDelta
  cases hcheck : checkReencode (c.dir S) h id base with
  | error e => exact ⟨c, h, .error e, rfl, hf, hcache, hg⟩
  | ok found =>
    cases found with
    | none => exact ⟨c, h, .ok false, rfl, hf, hcache, hg⟩
    | some current =>
      obtain ⟨r, rb, hr, rfl, henc, hrb, havoid⟩ := checkReencode_some (P := P) hf hcheck
      have hright : ∀ x path w, (chunkCoding P).Resolves (c.newest P) x path w → right x w :=
        fun x path w hx => hg.right_of_resolves hx
      obtain ⟨path₀, v, hres, -⟩ := hg.grounded id r hr
      obtain ⟨path, w, hresb, -⟩ := hg.grounded base rb hrb
      obtain ⟨cache₁, hc₁, hget₁⟩ := hf.resolve_resolves (S := S) hcontent hcache hres hright .boundary
      have hf₁ := hf.withCache cache₁
      obtain ⟨cache₂, hc₂, hget₂⟩ := hf₁.resolve_resolves (S := S) hcontent hc₁ hresb hright .boundary
      have hf₂ := hf.withCache cache₂
      simp only [ChunkStore.get, hget₁, hget₂]
      cases hcompress : P.compressWithBase v w h.opts.zstdLevel with
      | none => exact ⟨c, _, .ok false, rfl, hf₂, hc₂, hg⟩
      | some z =>
        by_cases hlose : r.header.storedLen.toNat ≤ 32 + z.length
        · simp only [hlose, if_true]
          exact ⟨c, _, .ok false, rfl, hf₂, hc₂, hg⟩
        simp only [hlose, if_false]
        -- the new record fits the format, and decodes to what the chunk held
        have hlt := r.header.storedLen.toNat_lt
        have hstored : (UInt32.ofNat (32 + z.length)).toNat = 32 + z.length :=
          UInt32.toNat_ofNat_of_lt' (by rw [UInt32.size]; omega)
        let r' : PackRecord := {
          header := ⟨id, encDelta, r.header.origLen, .ofNat (32 + z.length)⟩
          payload := base.val ++ z
          encoding_le := (by decide : encDelta ≤ encReservedMax)
          length_payload := by
            show (base.val ++ z).length = (UInt32.ofNat (32 + z.length)).toNat
            rw [hstored, length_append, base.2] }
        have hbase : (chunkCoding P).base r' = some base := by
          have htake : (base.val ++ z).take 32 = base.val := take_left' base.2
          simp only [chunkCoding, r', if_true, htake, ByteArr.ofSlice_val]
        have hlen : v.length = r.header.origLen.toNat := length_of_resolves hr hres
        have hdecode : (chunkCoding P).decode r' (some w) = some v := by
          have hdrop : (base.val ++ z).drop 32 = z := drop_left' base.2
          have hshort : ¬ (base.val ++ z).length < 32 := by
            rw [length_append, base.2]
            omega
          have hz' := hz.decompress_compress v w _ z hcompress
          rw [hlen] at hz'
          simp only [chunkCoding, r', hdrop, if_neg hshort, hz', Option.filter_some]
          exact if_pos (by simpa using hlen)
        have hkey : (chunkCoding P).key r' = id := rfl
        have hground : (chunkCoding P).Grounded right (c.records ++ [r']) :=
          hg.grounded.delta (hkey ▸ hres) hbase hresb (hkey ▸ havoid path w hresb) hdecode
        have hroom : (packBytes c.active).length + r'.size < 2 ^ 64 := by
          have hrsize : r'.size = recHeaderLen + (base.val ++ z).length := rfl
          rw [hrsize, recHeaderLen, length_append, base.2]
          omega
        obtain ⟨c', h', happend, hpushed, hf', hcache', -⟩ :=
          appendRecord_spec (S := S) hf₂ r' hroom hseq
        have hval : appendRecord S (c.dir S) { h with cache := cache₂ }
            ⟨id, encDelta, r.header.origLen, .ofNat (32 + z.length)⟩ (base.val ++ z)
            = (c'.dir S, h', .ok ()) := happend
        simp only [hval]
        exact ⟨c', h', .ok true, rfl, hf', hcache' ▸ hc₂, hg.pushed hground hpushed⟩

end Alt.Store
