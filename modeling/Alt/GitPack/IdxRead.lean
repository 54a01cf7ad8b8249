import Alt.GitPack.Idx
import Mathlib.Data.Nat.Bitwise

namespace Alt.GitPack

open Alt.Library List

/-!
# Pack indexes — what is written is found

* `fan_writeIdx` — an entry of the fan-out counts the ids up to its first byte, modulo 2^32;
* `parse_writeIdx` — fewer than 2^32 entries parse, to `written`;
* `lookup_written_some`, `lookup_written_none` — the search meets the entries of a first byte and
  no others (`countP_lt_le_iff`);
* `offsetAt_written` — the offset words number the large offsets modulo 2^31;
* `idx_round_trip` — the round trip, within what the format can number.
-/

variable {P : Prims} {algo : HashAlgo} {entries sorted : List PackEntry} {trailer : Bytes}

/-! ### Counting in sorted lists -/

/-- Counts of single values sum up to the count of the values below a bound. -/
theorem sum_countP_eq {α : Type} (f : α → Nat) (l : List α) (k : Nat) :
    ((List.range k).map fun j => l.countP fun a => f a = j).sum = l.countP fun a => f a < k := by
  induction k with
  | zero => simp
  | succ k ih =>
    have hsplit : l.countP (fun a => f a < k + 1) =
        l.countP (fun a => f a < k) + l.countP fun a => f a = k := by
      clear ih
      induction l with
      | nil => rfl
      | cons a l ih =>
        simp only [countP_cons, ih, decide_eq_true_eq]
        by_cases hlt : f a < k
        · simp [hlt, show f a < k + 1 by omega, show f a ≠ k by omega]
          omega
        · by_cases heq : f a = k
          · simp [heq]
            omega
          · simp [hlt, heq, show ¬f a < k + 1 by omega]
    rw [range_succ, map_append, sum_append, ih, hsplit]
    simp

variable {i : Nat}

/-- **A bucket of a sorted list.** The places from the count of the smaller values on hold the
    others. -/
theorem countP_lt_le_iff {α : Type} {f : α → Nat} {l : List α}
    (h : l.Pairwise fun a b => f a ≤ f b) (hi : i < l.length) {c : Nat} :
    l.countP (fun a => f a < c) ≤ i ↔ c ≤ f l[i] := by
  induction l generalizing i with
  | nil => exact absurd hi (Nat.not_lt_zero i)
  | cons a l ih =>
    obtain ⟨ha, hl⟩ := pairwise_cons.mp h
    by_cases hac : f a < c
    · rw [countP_cons_of_pos (by simpa using hac)]
      cases i with
      | zero => simp [hac]
      | succ i => simpa using ih hl (Nat.lt_of_succ_lt_succ hi)
    · have hnone : (a :: l).countP (fun a => decide (f a < c)) = 0 := by
        rw [countP_eq_zero]
        intro b hb
        rcases mem_cons.mp hb with rfl | hb
        · simpa using hac
        · have := ha b hb
          simp only [decide_eq_true_eq]
          omega
      have hle : c ≤ f (a :: l)[i] := by
        rcases mem_cons.mp ((a :: l).getElem_mem hi) with heq | hmem
        · rw [heq]
          omega
        · have := ha _ hmem
          omega
      simp [hnone, hle]

/-! ### The fan-out -/

@[simp] theorem length_runningSum (acc : UInt32) (counts : List UInt32) :
    (runningSum acc counts).length = counts.length := by
  induction counts generalizing acc with
  | nil => rfl
  | cons count counts ih => simp [runningSum, ih]

/-- The running sums are sums modulo 2^32. -/
theorem getElem_runningSum (acc : Nat) (counts : List Nat)
    (hi : i < (runningSum (UInt32.ofNat acc) (counts.map UInt32.ofNat)).length) :
    (runningSum (UInt32.ofNat acc) (counts.map UInt32.ofNat))[i] =
      UInt32.ofNat (acc + (counts.take (i + 1)).sum) := by
  induction counts generalizing acc i with
  | nil => exact absurd hi (by simp [runningSum])
  | cons count counts ih =>
    simp only [map_cons, runningSum, ← UInt32.ofNat_add] at hi ⊢
    cases i with
    | zero => simp
    | succ i =>
      rw [getElem_cons_succ, ih, take_succ_cons, sum_cons, Nat.add_assoc]

@[simp] theorem length_fanout (entries : List PackEntry) : (fanout entries).length = 256 := by
  simp [fanout]

/-- **The fan-out** counts the ids up to a first byte, modulo 2^32. -/
theorem getElem_fanout {b : Nat} (hb : b < 256) (hi : b < (fanout entries).length) :
    (fanout entries)[b] =
      UInt32.ofNat (entries.countP fun e => bucketOf e.oid < b + 1) := by
  have hcounts : (List.range 256).map (bucketCount entries) =
      ((List.range 256).map fun j => entries.countP fun e => bucketOf e.oid = j).map UInt32.ofNat := by
    rw [map_map]
    rfl
  have htake : ((List.range 256).map fun j => entries.countP fun e => bucketOf e.oid = j).take (b + 1) =
      (List.range (b + 1)).map fun j => entries.countP fun e => bucketOf e.oid = j := by
    rw [← map_take, take_range, Nat.min_eq_left (by omega)]
  have hsum := getElem_runningSum 0
    ((List.range 256).map fun j => entries.countP fun e => bucketOf e.oid = j) (i := b) (by simpa using hb)
  rw [htake, sum_countP_eq (fun e : PackEntry => bucketOf e.oid), Nat.zero_add] at hsum
  simp only [fanout, hcounts]
  exact hsum

/-! ### Where the tables are -/

@[simp] theorem length_word (n : UInt32) : (word n).length = 4 := length_beBytes 4 _

/-- A word read where one is written. -/
theorem readU32_of_bytesAt {data : Bytes} {at_ : Nat} {n : UInt32} (h : bytesAt data at_ 4 = word n) :
    readU32 data at_ = n := by
  rw [readU32, h, word, beNat_beBytes n.toNat_lt, UInt32.ofNat_toNat]

@[simp] theorem length_digest (algo : HashAlgo) (data : Bytes) :
    (digest P algo data).length = algo.rawLen := by
  cases algo with
  | sha1 => exact (P.sha1 data).2
  | sha256 => exact (P.sha256 data).2

@[simp] theorem length_offsetWords (large : Nat) (entries : List PackEntry) :
    (offsetWords large entries).length = entries.length := by
  induction entries generalizing large with
  | nil => rfl
  | cons e entries ih =>
    rw [offsetWords]
    split <;> simp [ih]

theorem length_idxMagic : (idxMagic ++ word 2).length = PackIndex.fanoutAt := by
  rw [length_append, length_word]
  rfl

theorem length_fanoutTable : ((fanout entries).flatMap word).length = 256 * 4 := by
  rw [length_table fun n _ => length_word n, length_fanout]

theorem length_oidTable (halgo : ∀ e ∈ entries, e.oid.algo = algo) :
    (entries.flatMap fun e => e.oid.asBytes).length = entries.length * algo.rawLen :=
  length_table fun e he => by rw [ObjectId.length_asBytes, halgo e he]

theorem length_crcTable : (entries.flatMap fun e => word e.crc).length = entries.length * 4 :=
  length_table fun e _ => length_word e.crc

theorem length_offsetTable : ((offsetWords 0 entries).flatMap word).length = entries.length * 4 := by
  rw [length_table fun n _ => length_word n, length_offsetWords]

theorem length_largeTable :
    ((largeOffsets entries).flatMap (beBytes 8)).length = (largeOffsets entries).length * 8 :=
  length_table fun n _ => length_beBytes 8 n

/-- The length of an index file. -/
theorem length_writeIdx (halgo : ∀ e ∈ entries, e.oid.algo = algo) (htrailer : trailer.length = algo.rawLen) :
    (writeIdx P algo entries trailer).length =
      PackIndex.fanoutAt + 256 * 4 + entries.length * algo.rawLen + entries.length * 4 +
        entries.length * 4 + (largeOffsets entries).length * 8 + 2 * algo.rawLen := by
  have hhead := length_idxMagic
  rw [length_append] at hhead
  simp only [writeIdx, idxTables, length_append]
  rw [length_fanoutTable, length_oidTable halgo, length_crcTable, length_offsetTable,
    length_largeTable, htrailer, length_digest]
  omega

/-- The version, and the tables from there. -/
theorem readU32_version : readU32 (writeIdx P algo entries trailer) 4 = 2 := by
  have hsplit : ∃ back, writeIdx P algo entries trailer = idxMagic ++ word 2 ++ back :=
    ⟨_, by simp only [writeIdx, idxTables, append_assoc]; rfl⟩
  obtain ⟨back, hback⟩ := hsplit
  rw [hback]
  exact readU32_of_bytesAt (bytesAt_append rfl (length_word 2))

/-- **The fan-out table.** -/
theorem fan_writeIdx {b : Nat} (hb : b < 256) :
    PackIndex.fan (writeIdx P algo entries trailer) b =
      UInt32.ofNat (entries.countP fun e => bucketOf e.oid < b + 1) := by
  have hsplit : ∃ back, writeIdx P algo entries trailer =
      (idxMagic ++ word 2) ++ (fanout entries).flatMap word ++ back :=
    ⟨_, by simp only [writeIdx, idxTables, append_assoc]; rfl⟩
  obtain ⟨back, hback⟩ := hsplit
  have hi : b < (fanout entries).length := by simpa using hb
  rw [PackIndex.fan, hback, ← getElem_fanout hb hi]
  exact readU32_of_bytesAt (bytesAt_table length_idxMagic (fun n _ => length_word n) hi)

/-- What an index of the entries parses to. -/
def written (P : Prims) (algo : HashAlgo) (entries : List PackEntry) (trailer : Bytes) : PackIndex :=
  let crcsAt := PackIndex.fanoutAt + 256 * 4 + entries.length * algo.rawLen
  { map := writeIdx P algo entries trailer
    algo
    len := UInt32.ofNat entries.length
    oidsAt := PackIndex.fanoutAt + 256 * 4
    offsetsAt := crcsAt + entries.length * 4
    largeAt := crcsAt + entries.length * 4 + entries.length * 4
    largeCount := (largeOffsets entries).length }

/-- **The table of ids.** -/
theorem oidBytes_written (halgo : ∀ e ∈ entries, e.oid.algo = algo) (hi : i < entries.length) :
    (written P algo entries trailer).oidBytes i = entries[i].oid.asBytes := by
  have hsplit : ∃ back, writeIdx P algo entries trailer =
      (idxMagic ++ word 2 ++ (fanout entries).flatMap word) ++ (entries.flatMap fun e => e.oid.asBytes) ++
        back :=
    ⟨_, by simp only [writeIdx, idxTables, append_assoc]; rfl⟩
  obtain ⟨back, hback⟩ := hsplit
  have hfront : (idxMagic ++ word 2 ++ (fanout entries).flatMap word).length =
      PackIndex.fanoutAt + 256 * 4 := by
    rw [length_append, length_idxMagic, length_fanoutTable]
  have hwidth : ∀ e ∈ entries, e.oid.asBytes.length = algo.rawLen := fun e he => by
    rw [ObjectId.length_asBytes, halgo e he]
  simp only [PackIndex.oidBytes, written, hback]
  exact bytesAt_table hfront hwidth hi

/-- **The table of offsets.** -/
theorem readU32_offsets (halgo : ∀ e ∈ entries, e.oid.algo = algo)
    (hi : i < (offsetWords 0 entries).length) :
    readU32 (writeIdx P algo entries trailer) ((written P algo entries trailer).offsetsAt + i * 4) =
      (offsetWords 0 entries)[i] := by
  have hsplit : ∃ back, writeIdx P algo entries trailer =
      (idxMagic ++ word 2 ++ (fanout entries).flatMap word ++ (entries.flatMap fun e => e.oid.asBytes) ++
        entries.flatMap fun e => word e.crc) ++ (offsetWords 0 entries).flatMap word ++ back :=
    ⟨_, by simp only [writeIdx, idxTables, append_assoc]; rfl⟩
  obtain ⟨back, hback⟩ := hsplit
  have hfront : (idxMagic ++ word 2 ++ (fanout entries).flatMap word ++
      (entries.flatMap fun e => e.oid.asBytes) ++ entries.flatMap fun e => word e.crc).length =
        (written P algo entries trailer).offsetsAt := by
    rw [length_append, length_append, length_append, length_idxMagic, length_fanoutTable,
      length_oidTable halgo, length_crcTable]
    rfl
  rw [hback]
  exact readU32_of_bytesAt (bytesAt_table hfront (fun n _ => length_word n) hi)

/-- **The table of large offsets.** -/
theorem bytesAt_large (halgo : ∀ e ∈ entries, e.oid.algo = algo) {k : Nat}
    (hk : k < (largeOffsets entries).length) :
    bytesAt (writeIdx P algo entries trailer) ((written P algo entries trailer).largeAt + k * 8) 8 =
      beBytes 8 (largeOffsets entries)[k] := by
  have hsplit : ∃ back, writeIdx P algo entries trailer =
      (idxMagic ++ word 2 ++ (fanout entries).flatMap word ++ (entries.flatMap fun e => e.oid.asBytes) ++
        (entries.flatMap fun e => word e.crc) ++ (offsetWords 0 entries).flatMap word) ++
        (largeOffsets entries).flatMap (beBytes 8) ++ back :=
    ⟨_, by simp only [writeIdx, idxTables, append_assoc]; rfl⟩
  obtain ⟨back, hback⟩ := hsplit
  have hfront : (idxMagic ++ word 2 ++ (fanout entries).flatMap word ++
      (entries.flatMap fun e => e.oid.asBytes) ++ (entries.flatMap fun e => word e.crc) ++
        (offsetWords 0 entries).flatMap word).length = (written P algo entries trailer).largeAt := by
    rw [length_append, length_append, length_append, length_append, length_idxMagic,
      length_fanoutTable, length_oidTable halgo, length_crcTable, length_offsetTable]
    rfl
  rw [hback]
  exact bytesAt_table hfront (fun n _ => length_beBytes 8 n) hk

/-! ### Parsing -/

theorem monotonic_of_pairwise {prev : UInt32} {counts : List UInt32}
    (h : (prev :: counts).Pairwise (· ≤ ·)) : PackIndex.monotonic prev counts = true := by
  induction counts generalizing prev with
  | nil => rfl
  | cons v rest ih =>
    obtain ⟨hprev, hrest⟩ := pairwise_cons.mp h
    have hle := UInt32.not_lt.mpr (hprev v mem_cons_self)
    simp [PackIndex.monotonic, hle, ih hrest]

theorem bucketOf_lt (oid : ObjectId) : bucketOf oid < 256 := (oid.asBytes.headD 0).toNat_lt

theorem countP_bucketOf_256 : (entries.countP fun e => bucketOf e.oid < 256) = entries.length := by
  rw [countP_eq_length]
  intro e _
  simpa using bucketOf_lt e.oid

/-- **Parsing an index.** Fewer than 2^32 entries parse. -/
theorem parse_writeIdx (halgo : ∀ e ∈ entries, e.oid.algo = algo) (htrailer : trailer.length = algo.rawLen)
    (hcount : entries.length < 2 ^ 32) :
    PackIndex.parse (writeIdx P algo entries trailer) algo = .ok (written P algo entries trailer) := by
  have hlength := length_writeIdx (P := P) halgo htrailer
  have hstart : ¬((writeIdx P algo entries trailer).length < 8 + 256 * 4 ∨
      (writeIdx P algo entries trailer).take 4 ≠ idxMagic) := by
    have hmagic : (writeIdx P algo entries trailer).take 4 = idxMagic := by
      simp only [writeIdx, idxTables, append_assoc]
      rfl
    have hfanout : PackIndex.fanoutAt = 8 := rfl
    rintro (hshort | hmagic')
    · omega
    · exact hmagic' hmagic
  have hle : ∀ b, (entries.countP fun e => bucketOf e.oid < b) < 2 ^ 32 := fun b =>
    Nat.lt_of_le_of_lt countP_le_length hcount
  have hmonotonic : PackIndex.monotonic 0
      ((List.range 256).map (PackIndex.fan (writeIdx P algo entries trailer))) = true := by
    refine monotonic_of_pairwise (pairwise_cons.mpr ⟨fun _ _ => UInt32.zero_le, ?_⟩)
    refine pairwise_map.mpr (List.Pairwise.imp_of_mem ?_ pairwise_lt_range)
    intro a b ha hb hab
    rw [fan_writeIdx (mem_range.mp ha), fan_writeIdx (mem_range.mp hb), UInt32.le_iff_toNat_le,
      UInt32.toNat_ofNat_of_lt' (hle _), UInt32.toNat_ofNat_of_lt' (hle _)]
    refine countP_mono_left fun e _ he => ?_
    simp only [decide_eq_true_eq] at he ⊢
    omega
  have hlen : PackIndex.fan (writeIdx P algo entries trailer) 255 = UInt32.ofNat entries.length := by
    rw [fan_writeIdx (by decide), countP_bucketOf_256]
  have hn : (UInt32.ofNat entries.length).toNat = entries.length := UInt32.toNat_ofNat_of_lt' hcount
  have hlarge : ∀ a k t : Nat, (a + k * 8 + t - t - a) / 8 = k := by omega
  rw [PackIndex.parse, if_neg hstart, readU32_version, if_neg (by decide), hmonotonic,
    if_neg (by decide), hlen]
  simp only [hn]
  rw [hlength, if_neg (by omega), hlarge]
  rfl

/-! ### Offsets -/

variable {e : PackEntry}

theorem largeOffsets_cons_small (h : e.offset < 2 ^ 31) :
    largeOffsets (e :: entries) = largeOffsets entries :=
  filter_cons_of_neg (by rw [decide_eq_true_eq]; omega)

theorem largeOffsets_cons_large (h : 2 ^ 31 ≤ e.offset) :
    largeOffsets (e :: entries) = e.offset :: largeOffsets entries :=
  filter_cons_of_pos (decide_eq_true h)

theorem largeOffsets_append (front back : List PackEntry) :
    largeOffsets (front ++ back) = largeOffsets front ++ largeOffsets back := by
  rw [largeOffsets, map_append, filter_append]
  rfl

/-- The words of an offset table; `k` large offsets are before. -/
theorem getElem_offsetWords (k : Nat) (entries : List PackEntry) (hi : i < entries.length)
    (hword : i < (offsetWords k entries).length) :
    (offsetWords k entries)[i] =
      if entries[i].offset < 2 ^ 31 then UInt32.ofNat entries[i].offset
      else largeOffsetFlag ||| UInt32.ofNat (k + (largeOffsets (entries.take i)).length) := by
  induction entries generalizing k i with
  | nil => exact absurd hi (Nat.not_lt_zero i)
  | cons e entries ih =>
    cases i with
    | zero =>
      simp only [offsetWords, getElem_cons_zero]
      split <;> rfl
    | succ i =>
      have hi' := Nat.lt_of_succ_lt_succ hi
      simp only [offsetWords, take_succ_cons]
      split
      · rename_i hsmall
        simp only [getElem_cons_succ, largeOffsets_cons_small hsmall, ih k hi']
      · rename_i hlarge
        simp only [getElem_cons_succ, largeOffsets_cons_large (Nat.not_lt.mp hlarge), ih (k + 1) hi',
          length_cons]
        rw [Nat.add_right_comm, Nat.add_assoc]

/-- A large offset is found under its number. -/
theorem largeOffsets_getElem (hi : i < entries.length) (hlarge : 2 ^ 31 ≤ entries[i].offset) :
    (largeOffsets entries)[(largeOffsets (entries.take i)).length]? = some entries[i].offset := by
  have hsplit : largeOffsets entries = largeOffsets (entries.take i) ++
      entries[i].offset :: largeOffsets (entries.drop (i + 1)) := by
    conv_lhs => rw [← take_append_drop i entries, drop_eq_getElem_cons hi]
    rw [largeOffsets_append, largeOffsets_cons_large hlarge]
  rw [hsplit, getElem?_append_right (Nat.le_refl _), Nat.sub_self, getElem?_cons_zero]

variable {n : Nat}

/-- A word without the flag. -/
theorem and_flag_of_small (hn : n < 2 ^ 31) :
    UInt32.ofNat n &&& largeOffsetFlag = 0 ∧ (UInt32.ofNat n).toNat = n := by
  have hval : (UInt32.ofNat n).toNat = n := UInt32.toNat_ofNat_of_lt' (Nat.lt_trans hn (by decide))
  refine ⟨UInt32.toNat_inj.mp ?_, hval⟩
  rw [UInt32.toNat_and, hval, show largeOffsetFlag.toNat = 2 ^ 31 from rfl, Nat.and_two_pow,
    Nat.testBit_lt_two_pow hn]
  rfl

/-- A word with the flag keeps 31 bits of the number. -/
theorem flag_or (k : Nat) : (largeOffsetFlag ||| UInt32.ofNat k) &&& largeOffsetFlag ≠ 0 ∧
    ((largeOffsetFlag ||| UInt32.ofNat k) &&& ~~~largeOffsetFlag).toNat = k % 2 ^ 31 := by
  have hflag : largeOffsetFlag.toNat = 2 ^ 31 := rfl
  have hrest : (~~~largeOffsetFlag).toNat = 2 ^ 31 - 1 := by decide
  constructor
  · intro h
    have hval := congrArg UInt32.toNat h
    rw [UInt32.toNat_and, UInt32.toNat_or, hflag, Nat.and_two_pow, Nat.testBit_or,
      Nat.testBit_two_pow_self] at hval
    exact absurd hval (by simp)
  · rw [UInt32.toNat_and, UInt32.toNat_or, hflag, hrest, Nat.and_two_pow_sub_one_eq_mod, Nat.or_mod_two_pow,
      UInt32.toNat_ofNat']
    simp

/-- **Reading an offset.** A large offset is read under its number modulo 2^31. -/
theorem offsetAt_written (halgo : ∀ e ∈ entries, e.oid.algo = algo)
    (hoffset : ∀ e ∈ entries, e.offset < 2 ^ 63) (hi : i < entries.length) :
    (written P algo entries trailer).offsetAt i = .ok (if entries[i].offset < 2 ^ 31 then entries[i].offset
      else (largeOffsets entries).getD ((largeOffsets (entries.take i)).length % 2 ^ 31) 0) := by
  have hmap : (written P algo entries trailer).map = writeIdx P algo entries trailer := rfl
  have hi' : i < (offsetWords 0 entries).length := by rwa [length_offsetWords]
  have hword : readU32 (writeIdx P algo entries trailer) ((written P algo entries trailer).offsetsAt + i * 4) =
      (offsetWords 0 entries)[i] := readU32_offsets halgo hi'
  rw [getElem_offsetWords 0 entries hi, Nat.zero_add] at hword
  by_cases hsmall : entries[i].offset < 2 ^ 31
  · rw [if_pos hsmall] at hword ⊢
    obtain ⟨hflag, hvalue⟩ := and_flag_of_small hsmall
    rw [PackIndex.offsetAt, hmap, hword, if_pos hflag, hvalue]
  · rw [if_neg hsmall] at hword ⊢
    obtain ⟨hflag, hnumber⟩ := flag_or (largeOffsets (entries.take i)).length
    have hthere := largeOffsets_getElem hi (Nat.not_lt.mp hsmall)
    have hk : (largeOffsets (entries.take i)).length % 2 ^ 31 < (largeOffsets entries).length :=
      Nat.lt_of_le_of_lt (Nat.mod_le _ _) (List.getElem?_eq_some_iff.mp hthere).1
    have hrange : ∀ o ∈ largeOffsets entries, o < 256 ^ 8 := by
      intro o ho
      obtain ⟨e, he, rfl⟩ := mem_map.mp (mem_filter.mp ho).1
      exact Nat.lt_trans (hoffset e he) (by decide)
    have hcount : ¬(written P algo entries trailer).largeCount ≤
        (largeOffsets (entries.take i)).length % 2 ^ 31 := Nat.not_le.mpr hk
    rw [PackIndex.offsetAt, hmap, hword, if_neg hflag, hnumber, if_neg hcount, bytesAt_large halgo hk,
      beNat_beBytes (hrange _ (getElem_mem hk)), getD_eq_getElem _ _ hk]

/-- With at most 2^31 large offsets every offset is read back. -/
theorem offsetAt_written_of_few (halgo : ∀ e ∈ entries, e.oid.algo = algo)
    (hoffset : ∀ e ∈ entries, e.offset < 2 ^ 63) (hlarge : (largeOffsets entries).length ≤ 2 ^ 31)
    (hi : i < entries.length) :
    (written P algo entries trailer).offsetAt i = .ok entries[i].offset := by
  rw [offsetAt_written halgo hoffset hi]
  split
  · rfl
  · rename_i hsmall
    have hthere := largeOffsets_getElem hi (Nat.not_lt.mp hsmall)
    have hk := (List.getElem?_eq_some_iff.mp hthere).1
    rw [Nat.mod_eq_of_lt (Nat.lt_of_lt_of_le hk hlarge), getD_eq_getElem?_getD, hthere]
    rfl

/-! ### Looking up -/

/-- The order of ids is the order of their first bytes before all. -/
theorem bucketOf_le_of_byOid {a b : PackEntry} (h : byOid a b) : bucketOf a.oid ≤ bucketOf b.oid := by
  have hne : ∀ e : PackEntry, ∃ x xs, e.oid.asBytes = x :: xs := by
    intro e
    refine exists_cons_of_ne_nil fun hnil => ?_
    have hlength := ObjectId.length_asBytes e.oid
    rw [hnil] at hlength
    cases halgo : e.oid.algo <;> rw [halgo] at hlength <;> cases hlength
  obtain ⟨x, xs, hx⟩ := hne a
  obtain ⟨y, ys, hy⟩ := hne b
  rw [byOid, hx, hy, List.compare_cons_cons] at h
  rw [bucketOf, bucketOf, hx, hy, headD_cons, headD_cons]
  exact UInt8.le_iff_toNat_le.mp (Std.isLE_compare.mp (Ordering.isLE_left_of_isLE_then h))

/-- The range that is searched: the entries with the first byte. -/
theorem lookup_written (hcount : entries.length < 2 ^ 32) (oid : ObjectId) :
    (written P algo entries trailer).lookup oid =
      search (fun i => compare ((written P algo entries trailer).oidBytes i) oid.asBytes)
        (entries.countP fun e => bucketOf e.oid < bucketOf oid)
        (entries.countP fun e => bucketOf e.oid < bucketOf oid + 1) := by
  have hmap : (written P algo entries trailer).map = writeIdx P algo entries trailer := rfl
  have hle : ∀ b, (entries.countP fun e => bucketOf e.oid < b) < 2 ^ 32 := fun b =>
    Nat.lt_of_le_of_lt countP_le_length hcount
  have hbucket := bucketOf_lt oid
  have hlo : (if bucketOf oid = 0 then 0 else
      (PackIndex.fan (writeIdx P algo entries trailer) (bucketOf oid - 1)).toNat) =
        entries.countP fun e => bucketOf e.oid < bucketOf oid := by
    split
    · rename_i hzero
      simp [hzero]
    · rename_i hzero
      rw [fan_writeIdx (by omega), Nat.sub_add_cancel (Nat.one_le_iff_ne_zero.mpr hzero),
        UInt32.toNat_ofNat_of_lt' (hle _)]
  rw [PackIndex.lookup, hmap, hlo, fan_writeIdx hbucket, UInt32.toNat_ofNat_of_lt' (hle _)]

/-- **What a lookup finds** is an entry of the id. -/
theorem lookup_written_some (halgo : ∀ e ∈ entries, e.oid.algo = algo)
    (hcount : entries.length < 2 ^ 32) {oid : ObjectId}
    (h : (written P algo entries trailer).lookup oid = some i) :
    ∃ hi : i < entries.length, entries[i].oid = oid := by
  rw [lookup_written hcount] at h
  obtain ⟨-, hhi, heq⟩ := search_some h
  have hi : i < entries.length := Nat.lt_of_lt_of_le hhi countP_le_length
  refine ⟨hi, ?_⟩
  rw [oidBytes_written halgo hi] at heq
  exact ObjectId.asBytes_injective (Std.LawfulEqOrd.eq_of_compare heq)

/-- **What a lookup misses** is in no entry. -/
theorem lookup_written_none (halgo : ∀ e ∈ entries, e.oid.algo = algo) (hcount : entries.length < 2 ^ 32)
    (hsorted : entries.Pairwise byOid) {oid : ObjectId}
    (h : (written P algo entries trailer).lookup oid = none) : ∀ e ∈ entries, e.oid ≠ oid := by
  rw [lookup_written hcount] at h
  have hbuckets : entries.Pairwise fun a b => bucketOf a.oid ≤ bucketOf b.oid :=
    hsorted.imp bucketOf_le_of_byOid
  have hrange : ∀ {i}, i < (entries.countP fun e => bucketOf e.oid < bucketOf oid + 1) → i < entries.length :=
    fun h => Nat.lt_of_lt_of_le h countP_le_length
  have hle : ∀ {i j} (hi : i < entries.length) (hj : j < entries.length), i < j →
      (compare entries[i].oid.asBytes entries[j].oid.asBytes).isLE = true :=
    fun hi hj hij => pairwise_iff_getElem.mp hsorted _ _ hi hj hij
  rintro e he rfl
  obtain ⟨i, hi, rfl⟩ := getElem_of_mem he
  have hlo := (countP_lt_le_iff hbuckets hi).mpr (Nat.le_refl (bucketOf entries[i].oid))
  have hhi := mt (countP_lt_le_iff hbuckets hi).mp (Nat.not_succ_le_self (bucketOf entries[i].oid))
  refine search_none ?_ ?_ h hlo (Nat.not_le.mp hhi) ?_
  · intro a b _ hab hb hless
    rcases Nat.eq_or_lt_of_le hab with rfl | hlt
    · exact hless
    · have hblen := hrange hb
      have halen : a < entries.length := by omega
      simp only [oidBytes_written halgo halen, oidBytes_written halgo hblen] at hless ⊢
      exact Std.TransCmp.lt_of_isLE_of_lt (hle halen hblen hlt) hless
  · intro a b _ hab hb hmore
    rcases Nat.eq_or_lt_of_le hab with rfl | hlt
    · exact hmore
    · have hblen := hrange hb
      have halen : a < entries.length := by omega
      simp only [oidBytes_written halgo halen, oidBytes_written halgo hblen] at hmore ⊢
      have hswap := Std.OrientedCmp.gt_iff_lt.mp hmore
      exact Std.OrientedCmp.gt_iff_lt.mpr (Std.TransCmp.lt_of_lt_of_isLE hswap (hle halen hblen hlt))
  · rw [oidBytes_written halgo hi]
    exact Std.ReflCmp.compare_self

/-! ### The round trip -/

/-- **Round trip of an index.** With fewer than 2^32 entries, at most 2^31 of them beyond 2^31, the
    index of a list parses; an id is found where it is in the list, with an offset of its own, and the
    fan-out counts the ids up to each first byte. -/
theorem idx_round_trip (P : Prims) (algo : HashAlgo) (entries sorted : List PackEntry) (trailer : Bytes)
    (hperm : sorted.Perm entries) (hsorted : sorted.Pairwise byOid)
    (halgo : ∀ e ∈ entries, e.oid.algo = algo) (htrailer : trailer.length = algo.rawLen)
    (hoffset : ∀ e ∈ entries, e.offset < 2 ^ 63) (hcount : entries.length < 2 ^ 32)
    (hlarge : (largeOffsets entries).length ≤ 2 ^ 31) :
    ∃ idx, PackIndex.parse (writeIdx P algo sorted trailer) algo = .ok idx ∧
      (∀ oid, (idx.lookup oid).isSome ↔ ∃ e ∈ entries, e.oid = oid) ∧
      (∀ oid i, idx.lookup oid = some i → ∃ e ∈ entries, e.oid = oid ∧ idx.offsetAt i = .ok e.offset) ∧
      ∀ b < 256, (PackIndex.fan idx.map b).toNat = entries.countP fun e => bucketOf e.oid ≤ b := by
  have halgo' : ∀ e ∈ sorted, e.oid.algo = algo := fun e he => halgo e (hperm.mem_iff.mp he)
  have hoffset' : ∀ e ∈ sorted, e.offset < 2 ^ 63 := fun e he => hoffset e (hperm.mem_iff.mp he)
  have hcount' : sorted.length < 2 ^ 32 := hperm.length_eq ▸ hcount
  have hlarge' : (largeOffsets sorted).length ≤ 2 ^ 31 := by
    have hsame := ((hperm.map PackEntry.offset).filter fun offset => 2 ^ 31 ≤ offset).length_eq
    rwa [largeOffsets, hsame]
  refine ⟨written P algo sorted trailer, parse_writeIdx halgo' htrailer hcount', fun oid => ⟨fun h => ?_,
    fun h => ?_⟩, fun oid i h => ?_, fun b hb => ?_⟩
  · obtain ⟨i, hi⟩ := Option.isSome_iff_exists.mp h
    obtain ⟨hlt, heq⟩ := lookup_written_some halgo' hcount' hi
    exact ⟨sorted[i], hperm.mem_iff.mp (getElem_mem hlt), heq⟩
  · obtain ⟨e, he, heq⟩ := h
    rw [Option.isSome_iff_ne_none]
    intro hnone
    exact lookup_written_none halgo' hcount' hsorted hnone e (hperm.mem_iff.mpr he) heq
  · obtain ⟨hlt, heq⟩ := lookup_written_some halgo' hcount' h
    exact ⟨sorted[i], hperm.mem_iff.mp (getElem_mem hlt), heq,
      offsetAt_written_of_few halgo' hoffset' hlarge' hlt⟩
  · have hle : (sorted.countP fun e => bucketOf e.oid < b + 1) < 2 ^ 32 :=
      Nat.lt_of_le_of_lt countP_le_length hcount'
    have hmap : (written P algo sorted trailer).map = writeIdx P algo sorted trailer := rfl
    rw [hmap, fan_writeIdx hb, UInt32.toNat_ofNat_of_lt' hle, hperm.countP_eq]
    exact countP_congr fun e _ => by simp [Nat.lt_succ_iff]

instance : Std.Total byOid where
  total a b := by
    rw [byOid, byOid, ← Std.OrientedCmp.isGE_iff_isLE]
    cases compare b.oid.asBytes a.oid.asBytes <;> decide

instance : IsTrans PackEntry byOid where
  trans _ _ _ h h' := Std.TransCmp.isLE_trans h h'

/-- An id of one byte, repeated. -/
def sampleId (b : UInt8) : ObjectId := .sha1 (ByteArr.ofSlice 20 (List.replicate 20 b))

/-- Two entries of one id and one of another, on both sides of 2^31. -/
def sampleEntries : List PackEntry :=
  [⟨sampleId 2, 2 ^ 31 + 5, 7⟩, ⟨sampleId 1, 12, 1⟩, ⟨sampleId 1, 2 ^ 40, 3⟩]

theorem idx_round_trip_sample :
    ∃ idx, PackIndex.parse (buildIdx Prims.toy .sha1 sampleEntries (List.replicate 20 0)) .sha1 = .ok idx ∧
      (∀ oid, (idx.lookup oid).isSome ↔ ∃ e ∈ sampleEntries, e.oid = oid) ∧
      (∀ oid i, idx.lookup oid = some i →
        ∃ e ∈ sampleEntries, e.oid = oid ∧ idx.offsetAt i = .ok e.offset) ∧
      ∀ b < 256, (PackIndex.fan idx.map b).toNat = sampleEntries.countP fun e => bucketOf e.oid ≤ b :=
  idx_round_trip Prims.toy .sha1 sampleEntries (sampleEntries.insertionSort byOid) (List.replicate 20 0)
    (perm_insertionSort byOid sampleEntries) (pairwise_insertionSort byOid sampleEntries)
    (by decide) (by decide) (by decide) (by decide) (by decide)

/-! ### Past what the format numbers -/

/-- One entry many times, and one more of a later id. -/
def crowded (n : Nat) : List PackEntry :=
  List.replicate n ⟨sampleId 1, 2 ^ 31, 0⟩ ++ [⟨sampleId 2, 2 ^ 31 + 1, 0⟩]

theorem mem_crowded (h : e ∈ crowded n) :
    e = ⟨sampleId 1, 2 ^ 31, 0⟩ ∨ e = ⟨sampleId 2, 2 ^ 31 + 1, 0⟩ := by
  rcases mem_append.mp h with h | h
  · exact .inl (eq_of_mem_replicate h)
  · exact .inr (mem_singleton.mp h)

theorem sorted_crowded (n : Nat) : (crowded n).Pairwise byOid := by
  refine pairwise_append.mpr ⟨?_, pairwise_singleton _ _, fun a ha b hb => ?_⟩
  · exact pairwise_replicate.mpr (.inr (by decide))
  · obtain rfl := eq_of_mem_replicate ha
    obtain rfl := mem_singleton.mp hb
    decide

theorem ids_crowded (n : Nat) : ∀ e ∈ crowded n, e.oid.algo = .sha1 := by
  intro e he
  rcases mem_crowded he with rfl | rfl <;> rfl

theorem offsets_crowded (n : Nat) : ∀ e ∈ crowded n, e.offset < 2 ^ 63 := by
  intro e he
  rcases mem_crowded he with rfl | rfl <;> decide

theorem length_crowded (n : Nat) : (crowded n).length = n + 1 := by
  rw [crowded, length_append, length_replicate, length_singleton]

/-- The later id is found, at the last place. -/
theorem lookup_crowded (P : Prims) (hn : n + 1 < 2 ^ 32) (trailer : Bytes) :
    (written P .sha1 (crowded n) trailer).lookup (sampleId 2) = some n := by
  have hcount : (crowded n).length < 2 ^ 32 := by rwa [length_crowded]
  cases h : (written P .sha1 (crowded n) trailer).lookup (sampleId 2) with
  | none =>
    have hmissing := lookup_written_none (ids_crowded n) hcount (sorted_crowded n) h
    exact absurd rfl (hmissing ⟨sampleId 2, 2 ^ 31 + 1, 0⟩ (mem_append_right _ (mem_singleton.mpr rfl)))
  | some i =>
    obtain ⟨hi, hoid⟩ := lookup_written_some (ids_crowded n) hcount h
    have hlast : ¬i < n := by
      intro hlt
      have hfirst : (crowded n)[i] = ⟨sampleId 1, 2 ^ 31, 0⟩ := by
        simp only [crowded]
        rw [getElem_append_left (by simpa using hlt), getElem_replicate]
      rw [hfirst] at hoid
      exact absurd hoid (by decide)
    rw [length_crowded] at hi
    rw [show i = n by omega]

theorem large_crowded (n : Nat) : largeOffsets (crowded n) = List.replicate n (2 ^ 31) ++ [2 ^ 31 + 1] := by
  have hfirst : largeOffsets (List.replicate n ⟨sampleId 1, 2 ^ 31, 0⟩) = List.replicate n (2 ^ 31) := by
    rw [largeOffsets, map_replicate, filter_replicate_of_pos (by decide)]
  rw [crowded, largeOffsets_append, hfirst, largeOffsets_cons_large (by decide)]
  rfl

/-- Its offset is read under a number that has wrapped around. -/
theorem offsetAt_crowded (P : Prims) (n : Nat) (trailer : Bytes) :
    (written P .sha1 (crowded n) trailer).offsetAt n =
      .ok ((List.replicate n (2 ^ 31) ++ [2 ^ 31 + 1]).getD (n % 2 ^ 31) 0) := by
  have hlast : n < (crowded n).length := by
    rw [length_crowded]
    exact Nat.lt_succ_self n
  have hentry : (crowded n)[n] = ⟨sampleId 2, 2 ^ 31 + 1, 0⟩ := by
    simp only [crowded]
    rw [getElem_append_right (by rw [length_replicate])]
    simp
  have hbefore : (largeOffsets ((crowded n).take n)).length = n := by
    have htake : (crowded n).take n = List.replicate n ⟨sampleId 1, 2 ^ 31, 0⟩ := by
      rw [crowded, take_left' length_replicate]
    rw [htake, largeOffsets, map_replicate, filter_replicate_of_pos (by decide),
      length_replicate]
  rw [offsetAt_written (ids_crowded n) (offsets_crowded n) hlast, hentry, hbefore, large_crowded,
    if_neg (by decide)]

theorem parse_map {data : Bytes} {algo : HashAlgo} {idx : PackIndex}
    (h : PackIndex.parse data algo = .ok idx) : idx.map = data := by
  rw [PackIndex.parse] at h
  split at h
  · cases h
  · split at h
    · cases h
    · split at h
      · cases h
      · dsimp only at h
        split at h
        · cases h
        · cases h
          rfl

/-- One entry many times. -/
def repeated (n : Nat) : List PackEntry := List.replicate n ⟨sampleId 1, 12, 0⟩

/-- A multiple of 2^32 entries counts as none. -/
theorem lookup_repeated (hn : n % 2 ^ 32 = 0) {idx : PackIndex}
    (h : PackIndex.parse (writeIdx P .sha1 (repeated n) trailer) .sha1 = .ok idx) :
    idx.lookup (sampleId 1) = none := by
  have hcounts : ∀ c, UInt32.ofNat ((repeated n).countP fun e => bucketOf e.oid < c) = 0 := by
    intro c
    rw [repeated, countP_replicate]
    split
    · exact UInt32.toNat_inj.mp (by rw [UInt32.toNat_ofNat', hn]; rfl)
    · rfl
  have hbucket : bucketOf (sampleId 1) = 1 := rfl
  rw [PackIndex.lookup, parse_map h, hbucket, fan_writeIdx (by decide), fan_writeIdx (by decide), hcounts,
    hcounts, search]
  rfl

/-- **What wraps around.** After 2^31 large offsets the next one is numbered 0, and 2^32 entries of
    one id count as none. -/
theorem idx_wraps_around :
    (∃ idx i, PackIndex.parse (writeIdx Prims.toy .sha1 (crowded (2 ^ 31)) (List.replicate 20 0)) .sha1 =
        .ok idx ∧ idx.lookup (sampleId 2) = some i ∧ idx.offsetAt i = .ok (2 ^ 31) ∧
      ∀ e ∈ crowded (2 ^ 31), e.oid = sampleId 2 → e.offset ≠ 2 ^ 31) ∧
    ∀ idx, PackIndex.parse (writeIdx Prims.toy .sha1 (repeated (2 ^ 32)) (List.replicate 20 0)) .sha1 =
      .ok idx → idx.lookup (sampleId 1) = none := by
  have hwraps : ∀ n, 0 < n → n % 2 ^ 31 = 0 → n + 1 < 2 ^ 32 →
      ∃ idx i, PackIndex.parse (writeIdx Prims.toy .sha1 (crowded n) (List.replicate 20 0)) .sha1 =
        .ok idx ∧ idx.lookup (sampleId 2) = some i ∧ idx.offsetAt i = .ok (2 ^ 31) ∧
      ∀ e ∈ crowded n, e.oid = sampleId 2 → e.offset ≠ 2 ^ 31 := by
    intro n hpos hmod hn
    refine ⟨written Prims.toy .sha1 (crowded n) (List.replicate 20 0), n,
      parse_writeIdx (ids_crowded n) rfl (by rwa [length_crowded]), lookup_crowded _ hn _, ?_, ?_⟩
    · rw [offsetAt_crowded, hmod, getD_append _ _ _ _ (by rwa [length_replicate]),
        getD_replicate _ hpos]
    · intro e he hoid
      rcases mem_crowded he with rfl | rfl
      · exact absurd hoid (by decide)
      · decide
  exact ⟨hwraps (2 ^ 31) (by decide) (by decide) (by decide), fun idx h => lookup_repeated (by decide) h⟩

end Alt.GitPack
