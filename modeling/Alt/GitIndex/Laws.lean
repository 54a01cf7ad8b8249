import Alt.GitIndex.Codec
import Alt.GitPack.IdxRead
import Alt.Library.Prog

namespace Alt.GitIndex

open Alt.Library Alt.GitPack List

/-!
# Reading and writing an index (`alt-git-index/src/lib.rs`, 67–271)

In versions 2 and 3 an entry is read just where its bytes stand: `parseEntry_eq_ok` says so, and both
ways of the round trip follow.

* `parseEntries_eq_ok`, `parseExtensions_eq_ok` — what is read stands in the file;
* `parseAll_serialize` — what is written is read back, with the flags as they are written;
* `index_codec` — that, and which files are written back as they are;
* `extension_in_the_checksum` — an extension may take the checksum for its own.
-/

/-! ### Fields -/

section

variable {data : Bytes} {at_ : Nat}

theorem word_readU32 (h : at_ + 4 ≤ data.length) : word (readU32 data at_) = bytesAt data at_ 4 := by
  have hlen := length_bytesAt h
  have hlt := beNat_lt (bytesAt data at_ 4)
  have hback := beBytes_beNat (bytesAt data at_ 4)
  rw [hlen] at hlt hback
  have hmod : beNat (bytesAt data at_ 4) % 2 ^ 32 = beNat (bytesAt data at_ 4) := Nat.mod_eq_of_lt hlt
  rw [word, readU32, UInt32.toNat_ofNat', hmod, hback]

theorem half_readU16 (h : at_ + 2 ≤ data.length) : half (readU16 data at_) = bytesAt data at_ 2 := by
  have hlen := length_bytesAt h
  have hlt := beNat_lt (bytesAt data at_ 2)
  have hback := beBytes_beNat (bytesAt data at_ 2)
  rw [hlen] at hlt hback
  have hmod : beNat (bytesAt data at_ 2) % 2 ^ 16 = beNat (bytesAt data at_ 2) := Nat.mod_eq_of_lt hlt
  rw [half, readU16, UInt16.toNat_ofNat', hmod, hback]

@[simp] theorem length_half (n : UInt16) : (half n).length = 2 := length_beBytes 2 _

theorem readU16_of_bytesAt {n : UInt16} (h : bytesAt data at_ 2 = half n) : readU16 data at_ = n := by
  have hlt : n.toNat < 256 ^ 2 := n.toNat_lt
  rw [readU16, h, half, beNat_beBytes hlt, UInt16.ofNat_toNat]

theorem words_readU32 {n : Nat} (h : at_ + n * 4 ≤ data.length) :
    ((List.range n).map fun i => readU32 data (at_ + i * 4)).flatMap word = bytesAt data at_ (n * 4) := by
  induction n with
  | zero => rw [Nat.zero_mul, bytesAt, take_zero]; rfl
  | succ n ih =>
    rw [Nat.succ_mul] at h
    rw [range_succ, map_append, flatMap_append, ih (by omega), Nat.succ_mul, bytesAt_add,
      map_singleton, flatMap_singleton, word_readU32 (by omega)]

end

/-! ### One entry -/

variable {version : UInt32} {algo : HashAlgo} {e : IndexEntry}

theorem asBytes_rawId {raw : Bytes} (h : raw.length = algo.rawLen) :
    (rawId algo raw).asBytes = raw ∧ (rawId algo raw).algo = algo := by
  cases algo with
  | sha1 => exact ⟨ByteArr.val_ofSlice h, rfl⟩
  | sha256 => exact ⟨ByteArr.val_ofSlice h, rfl⟩

theorem rawId_asBytes (h : e.oid.algo = algo) : rawId algo e.oid.asBytes = e.oid := by
  have hlen : e.oid.asBytes.length = algo.rawLen := by rw [ObjectId.length_asBytes, h]
  exact ObjectId.asBytes_injective (asBytes_rawId hlen).1

theorem length_fixedBytes (h : e.oid.algo = algo) : (fixedBytes e).length = fixedLen algo := by
  have hwords : (e.words.flatMap word).length = 40 := length_table (w := 4) fun n _ => length_word n
  rw [fixedBytes, length_append, length_append, hwords, ObjectId.length_asBytes, h, length_half]
  rfl

/-- What is read of a fixed part is what it was. -/
theorem fixedBytes_entryOf {fixed : Bytes} (h : fixed.length = fixedLen algo) (ext : Option UInt16)
    (path : Bytes) : fixedBytes (entryOf algo fixed ext path) = fixed := by
  rw [fixedLen] at h
  have hwords : (entryOf algo fixed ext path).words.flatMap word = bytesAt fixed 0 40 :=
    words_readU32 (n := 10) (by omega)
  have hraw : (bytesAt fixed 40 algo.rawLen).length = algo.rawLen := length_bytesAt (by omega)
  have hid := (asBytes_rawId hraw).1
  have hflags : half (entryOf algo fixed ext path).flags = bytesAt fixed (40 + algo.rawLen) 2 :=
    half_readU16 (by omega)
  have hall : bytesAt fixed 0 (40 + algo.rawLen + 2) = fixed := by
    rw [bytesAt, drop_zero, ← h, take_length]
  rw [fixedBytes, hwords, hflags]
  change bytesAt fixed 0 40 ++ (rawId algo (bytesAt fixed 40 algo.rawLen)).asBytes ++ _ = fixed
  have hfront : bytesAt fixed 0 40 ++ bytesAt fixed 40 algo.rawLen = bytesAt fixed 0 (40 + algo.rawLen) := by
    rw [bytesAt_add, Nat.zero_add]
  have hwhole := bytesAt_add fixed 0 (40 + algo.rawLen) 2
  rw [Nat.zero_add] at hwhole
  rw [hid, hfront, ← hwhole]
  exact hall

theorem eq_of_words {a b : IndexEntry} (hwords : a.words = b.words) (hoid : a.oid = b.oid)
    (hflags : a.flags = b.flags) (hext : a.extendedFlags = b.extendedFlags) (hpath : a.path = b.path) :
    a = b := by
  obtain ⟨⟨_, _⟩, ⟨_, _⟩, _, _, _, _, _, _, _, _, _, _⟩ := a
  obtain ⟨⟨_, _⟩, ⟨_, _⟩, _, _, _, _, _, _, _, _, _, _⟩ := b
  simp only [IndexEntry.words, List.cons.injEq, and_true] at hwords
  obtain ⟨rfl, rfl, rfl, rfl, rfl, rfl, rfl, rfl, rfl, rfl⟩ := hwords
  cases hoid
  cases hflags
  cases hext
  cases hpath
  rfl

theorem entryOf_fixedBytes (h : e.oid.algo = algo) :
    entryOf algo (fixedBytes e) e.extendedFlags e.path = e := by
  have hlen : (e.words.flatMap word).length = 40 := length_table (w := 4) fun n _ => length_word n
  have hoid : (e.words.flatMap word ++ e.oid.asBytes).length = 40 + algo.rawLen := by
    rw [length_append, hlen, ObjectId.length_asBytes, h]
  have hwords : (entryOf algo (fixedBytes e) e.extendedFlags e.path).words = e.words := by
    change (List.range 10).map (fun i => readU32 (fixedBytes e) (0 + i * 4)) = e.words
    refine ext_getElem rfl fun i _ hi => ?_
    rw [getElem_map, getElem_range]
    refine readU32_of_bytesAt ?_
    have htable : bytesAt ([] ++ e.words.flatMap word ++ (e.oid.asBytes ++ half e.flags)) (0 + i * 4) 4
        = word e.words[i] := bytesAt_table rfl (fun n _ => length_word n) hi
    rwa [nil_append, ← append_assoc] at htable
  have hid : bytesAt (fixedBytes e) 40 algo.rawLen = e.oid.asBytes :=
    bytesAt_append hlen (by rw [ObjectId.length_asBytes, h])
  have hflags : readU16 (fixedBytes e) (40 + algo.rawLen) = e.flags := by
    refine readU16_of_bytesAt ?_
    have hlast : bytesAt (fixedBytes e ++ []) (40 + algo.rawLen) 2 = half e.flags :=
      bytesAt_append hoid (length_half e.flags)
    rwa [append_nil] at hlast
  refine eq_of_words hwords ?_ hflags rfl rfl
  change rawId algo (bytesAt (fixedBytes e) 40 algo.rawLen) = e.oid
  rw [hid, rawId_asBytes h]

/-- What a name of this length field is like. -/
def NameFits (nameLen : Nat) (name : Bytes) : Prop :=
  if nameLen = 0xfff then (0 : UInt8) ∉ name else name.length = nameLen

/-- What an entry that is read in this version is like. -/
structure Fits (version : UInt32) (algo : HashAlgo) (e : IndexEntry) : Prop where
  algo : e.oid.algo = algo
  extended : e.extendedFlags.isSome = true ↔ e.flags &&& extendedBit ≠ 0
  version : e.extendedFlags.isSome = true → ¬version < 3
  name : NameFits (e.flags &&& nameMask).toNat e.path

theorem parseExtended_eq_ok {flags : UInt16} {ext : Option UInt16} {rest rest' : Bytes} :
    parseExtended version flags rest = .ok (ext, rest') ↔
      ((ext.isSome = true ↔ flags &&& extendedBit ≠ 0) ∧ (ext.isSome = true → ¬version < 3)) ∧
        rest = extendedBytes ext ++ rest' := by
  rw [parseExtended]
  by_cases hbit : flags &&& extendedBit = 0
  · rw [if_pos hbit, Except.ok.injEq, Prod.mk.injEq]
    constructor
    · rintro ⟨rfl, rfl⟩
      exact ⟨⟨⟨by simp, fun hne => absurd hbit hne⟩, by simp⟩, rfl⟩
    · rintro ⟨⟨hiff, -⟩, rfl⟩
      cases ext with
      | none => exact ⟨rfl, rfl⟩
      | some ext => exact absurd hbit (hiff.mp rfl)
  · rw [if_neg hbit]
    by_cases hversion : version < 3
    · rw [if_pos hversion]
      refine ⟨fun h => (by cases h), ?_⟩
      rintro ⟨⟨hiff, hle⟩, -⟩
      exact absurd hversion (hle (hiff.mpr hbit))
    · rw [if_neg hversion]
      constructor
      · intro h
        split at h
        · cases h
        · rename_i bytes rest'' htake
          cases h
          obtain ⟨rfl, hlen⟩ := takeN_eq_some.mp htake
          refine ⟨⟨⟨fun _ => hbit, fun _ => rfl⟩, fun _ => hversion⟩, ?_⟩
          have hback : half (readU16 bytes 0) = bytesAt bytes 0 2 := half_readU16 (by omega)
          rw [extendedBytes, hback, bytesAt, drop_zero, ← hlen, take_length]
      · rintro ⟨⟨hiff, -⟩, rfl⟩
        cases ext with
        | none => exact absurd (hiff.mpr hbit) (by simp)
        | some ext =>
          have hread : readU16 (half ext) 0 = ext := by
            refine readU16_of_bytesAt ?_
            rw [bytesAt, drop_zero, ← length_half ext, take_length]
          rw [extendedBytes, takeN_append' (half ext) rest' (length_half ext)]
          dsimp only
          rw [hread]

theorem parseName_fits {nameLen : Nat} {name rest : Bytes} (h : parseName nameLen rest = .ok name) :
    NameFits nameLen name ∧ ∃ tail, rest = name ++ tail := by
  rw [parseName] at h
  rw [NameFits]
  split at h
  · rename_i hlong
    rw [if_pos hlong]
    split at h
    · cases h
    · rename_i hsplit
      cases h
      obtain ⟨rfl, hnul⟩ := splitFirst_eq_some.mp hsplit
      exact ⟨hnul, _, rfl⟩
  · rename_i hshort
    rw [if_neg hshort]
    split at h
    · cases h
    · rename_i hcut
      cases h
      obtain ⟨rfl, hlen⟩ := takeN_eq_some.mp hcut
      exact ⟨hlen, _, rfl⟩

theorem parsePadded_eq_ok {nameLen read : Nat} {name rest rest' : Bytes} :
    parsePadded nameLen read rest = .ok (name, rest') ↔ NameFits nameLen name ∧
      rest = name ++ List.replicate (padding (read + name.length)) 0 ++ rest' := by
  have hpos : ∀ n, 0 < padding n := fun n => by
    rw [padding]
    omega
  have hpad : ∀ {pad : Bytes}, (pad.any (· ≠ 0)) = false ↔ pad = List.replicate pad.length 0 := by
    intro pad
    rw [any_eq_false, eq_replicate_iff]
    simp
  constructor
  · intro h
    rw [parsePadded] at h
    split at h
    · cases h
    rename_i name' hname
    split at h
    · cases h
    · rename_i pad rest'' htake
      split at h
      · cases h
      · rename_i hzero
        cases h
        obtain ⟨hdrop, hlen⟩ := takeN_eq_some.mp htake
        rw [Bool.not_eq_true, hpad, hlen] at hzero
        obtain ⟨hfits, tail, rfl⟩ := parseName_fits hname
        rw [drop_left] at hdrop
        refine ⟨hfits, ?_⟩
        rw [hdrop, ← hzero, append_assoc]
  · rintro ⟨hfits, rfl⟩
    have hname : parseName nameLen (name ++ List.replicate (padding (read + name.length)) 0 ++ rest')
        = .ok name := by
      obtain ⟨n, hn⟩ : ∃ n, padding (read + name.length) = n + 1 :=
        ⟨padding (read + name.length) - 1, by have := hpos (read + name.length); omega⟩
      rw [NameFits] at hfits
      rw [parseName]
      split
      · rename_i hlong
        rw [if_pos hlong] at hfits
        rw [hn, replicate_succ, append_assoc, cons_append, splitFirst_append hfits]
      · rename_i hshort
        rw [if_neg hshort] at hfits
        rw [append_assoc, takeN_append' name _ hfits]
    rw [parsePadded, hname]
    dsimp only
    rw [append_assoc, drop_left, takeN_append' _ rest' length_replicate]
    dsimp only
    rw [if_neg]
    rw [Bool.not_eq_true, hpad, length_replicate]

theorem length_entryBody (h : e.oid.algo = algo) :
    (entryBody e).length = fixedLen algo + extendedLen e.extendedFlags + e.path.length := by
  have hext : (extendedBytes e.extendedFlags).length = extendedLen e.extendedFlags := by
    cases e.extendedFlags with
    | none => rfl
    | some ext => exact length_half ext
  rw [entryBody, length_append, length_append, length_fixedBytes h, hext]

/-- **An entry is read just where its bytes stand**, in versions 2 and 3. -/
theorem parseEntry_eq_ok (hv : version ≠ 4) {prev rest rest' : Bytes} :
    parseEntry version algo prev rest = .ok (e, rest') ↔
      Fits version algo e ∧ rest = entryBytes e ++ rest' := by
  constructor
  · intro h
    rw [parseEntry] at h
    split at h
    · cases h
    · rename_i fixed rest1 hfixed
      obtain ⟨rfl, hlen⟩ := takeN_eq_some.mp hfixed
      dsimp only at h
      split at h
      · cases h
      · rename_i ext rest2 hext
        obtain ⟨⟨hiff, hversion⟩, rfl⟩ := parseExtended_eq_ok.mp hext
        rw [parsePath, if_neg hv] at h
        split at h
        · cases h
        · rename_i path rest3 hpath
          obtain ⟨hname, rfl⟩ := parsePadded_eq_ok.mp hpath
          cases h
          have halgo : (entryOf algo fixed ext path).oid.algo = algo := by
            refine (asBytes_rawId (length_bytesAt ?_)).2
            rw [hlen, fixedLen]
            omega
          refine ⟨⟨halgo, hiff, hversion, hname⟩, ?_⟩
          have hbytes := fixedBytes_entryOf hlen ext path
          rw [entryBytes, length_entryBody halgo, entryBody, hbytes]
          simp only [append_assoc]
          rfl
  · rintro ⟨hfits, rfl⟩
    have hbody : entryBytes e ++ rest' = fixedBytes e ++ (extendedBytes e.extendedFlags ++
        (e.path ++ List.replicate (padding (fixedLen algo + extendedLen e.extendedFlags + e.path.length)) 0 ++
          rest')) := by
      rw [entryBytes, length_entryBody hfits.algo, entryBody]
      simp only [append_assoc]
    have hflags : readU16 (fixedBytes e) (40 + algo.rawLen) = e.flags :=
      congrArg IndexEntry.flags (entryOf_fixedBytes hfits.algo)
    rw [hbody, parseEntry, takeN_append' _ _ (length_fixedBytes hfits.algo)]
    dsimp only
    rw [hflags, parseExtended_eq_ok.mpr ⟨⟨hfits.extended, hfits.version⟩, rfl⟩]
    dsimp only
    rw [parsePath, if_neg hv, parsePadded_eq_ok.mpr ⟨hfits.name, rfl⟩]
    dsimp only
    rw [entryOf_fixedBytes hfits.algo]

/-! ### The flags that are written -/

theorem or_and (a b c : UInt16) : (a ||| b) &&& c = (a &&& c) ||| (b &&& c) := by
  simp only [← UInt16.toBitVec_inj, UInt16.toBitVec_and, UInt16.toBitVec_or]
  ext i hi
  simp [Bool.and_or_distrib_right]

theorem and_nameMask {n : Nat} (h : n ≤ 0xfff) : UInt16.ofNat n &&& nameMask = UInt16.ofNat n := by
  rw [← UInt16.toNat_inj, UInt16.toNat_and, UInt16.toNat_ofNat', Nat.mod_eq_of_lt (by omega)]
  exact (Nat.and_two_pow_sub_one_eq_mod n 12).trans (Nat.mod_eq_of_lt (by omega))

/-- The length of the path in the flags that are written. -/
theorem name_rebuildFlags (e : IndexEntry) :
    rebuildFlags e &&& nameMask = UInt16.ofNat (min e.path.length 0xfff) := by
  have hmask := and_nameMask (Nat.min_le_right e.path.length 0xfff)
  have hcontrol : (0xf000 : UInt16) &&& nameMask = 0 := rfl
  have hbit : extendedBit &&& nameMask = 0 := rfl
  have hnot : ~~~extendedBit &&& nameMask = nameMask := rfl
  rw [rebuildFlags]
  cases e.extendedFlags with
  | some ext =>
    dsimp only
    rw [or_and, or_and, UInt16.and_assoc, hcontrol, hbit, hmask, UInt16.and_zero, UInt16.zero_or,
      UInt16.or_zero]
  | none =>
    dsimp only
    rw [UInt16.and_assoc, hnot, or_and, UInt16.and_assoc, hcontrol, hmask, UInt16.and_zero, UInt16.zero_or]

/-- The extended bit is set where there are extended flags. -/
theorem extended_rebuildFlags (e : IndexEntry) :
    e.extendedFlags.isSome = true ↔ rebuildFlags e &&& extendedBit ≠ 0 := by
  rw [rebuildFlags]
  cases e.extendedFlags with
  | some ext =>
    have hself : extendedBit &&& extendedBit = extendedBit := rfl
    refine iff_of_true rfl fun hzero => ?_
    dsimp only at hzero
    rw [or_and, hself, UInt16.or_eq_zero_iff] at hzero
    exact absurd hzero.2 (by decide)
  | none =>
    have hnot : ~~~extendedBit &&& extendedBit = 0 := rfl
    refine iff_of_false nofun fun hne => hne ?_
    dsimp only
    rw [UInt16.and_assoc, hnot, UInt16.and_zero]

theorem stage_rebuilt (e : IndexEntry) : (rebuilt e).stage = e.stage := by
  have hmask := and_nameMask (Nat.min_le_right e.path.length 0xfff)
  have hlow : UInt16.ofNat (min e.path.length 0xfff) >>> 12 = 0 := by
    have hzero : nameMask >>> 12 = 0 := rfl
    rw [← hmask, UInt16.shiftRight_and, hzero, UInt16.and_zero]
  have hcontrol : (0xf000 : UInt16) >>> 12 &&& 3 = 3 := rfl
  have hbit : extendedBit >>> 12 &&& 3 = 0 := rfl
  have hnot : ~~~extendedBit >>> 12 &&& 3 = 3 := rfl
  have hflags : (rebuilt e).flags = rebuildFlags e := rfl
  rw [IndexEntry.stage, IndexEntry.stage, hflags, rebuildFlags]
  cases e.extendedFlags with
  | some ext =>
    dsimp only
    rw [UInt16.shiftRight_or, UInt16.shiftRight_or, UInt16.shiftRight_and, hlow, UInt16.or_zero, or_and, hbit,
      UInt16.or_zero, UInt16.and_assoc, hcontrol]
  | none =>
    dsimp only
    rw [UInt16.shiftRight_and, UInt16.shiftRight_or, UInt16.shiftRight_and, hlow, UInt16.or_zero,
      UInt16.and_assoc, hnot, UInt16.and_assoc, hcontrol]

theorem name_toNat_rebuildFlags (e : IndexEntry) :
    (rebuildFlags e &&& nameMask).toNat = min e.path.length 0xfff := by
  rw [name_rebuildFlags, UInt16.toNat_ofNat', Nat.mod_eq_of_lt (by omega)]

/-- An entry as it is written can be read: its id is of the algorithm, and a NUL in its path does not
    end it. -/
theorem fits_rebuilt (halgo : e.oid.algo = algo) (hpath : (0 : UInt8) ∈ e.path → e.path.length < 0xfff)
    (hversion : e.extendedFlags.isSome = true → ¬version < 3) : Fits version algo (rebuilt e) where
  algo := halgo
  extended := extended_rebuildFlags e
  version := hversion
  name := by
    have hname : ((rebuilt e).flags &&& nameMask).toNat = min e.path.length 0xfff :=
      name_toNat_rebuildFlags e
    rw [NameFits, hname]
    split
    · intro hnul
      have hlt := hpath hnul
      omega
    · change e.path.length = _
      omega

/-! ### The entries and the extensions -/

/-- **The entries are read just where their bytes stand.** -/
theorem parseEntries_eq_ok (hv : version ≠ 4) {count : Nat} {prev rest rest' : Bytes} {es : List IndexEntry} :
    parseEntries version algo count prev rest = .ok (es, rest') ↔
      es.length = count ∧ (∀ e ∈ es, Fits version algo e) ∧ rest = es.flatMap entryBytes ++ rest' := by
  induction count generalizing prev rest es with
  | zero =>
    rw [parseEntries, Except.ok.injEq, Prod.mk.injEq, length_eq_zero_iff]
    constructor
    · rintro ⟨rfl, rfl⟩
      exact ⟨rfl, nofun, rfl⟩
    · rintro ⟨rfl, -, rfl⟩
      exact ⟨rfl, rfl⟩
  | succ count ih =>
    rw [parseEntries]
    constructor
    · intro h
      split at h
      · cases h
      · rename_i entry rest1 hentry
        obtain ⟨hfits, rfl⟩ := (parseEntry_eq_ok hv).mp hentry
        split at h
        · cases h
        · rename_i entries rest2 hentries
          cases h
          obtain ⟨rfl, hall, rfl⟩ := ih.mp hentries
          refine ⟨rfl, forall_mem_cons.mpr ⟨hfits, hall⟩, ?_⟩
          rw [flatMap_cons, append_assoc]
    · rintro ⟨hlen, hall, rfl⟩
      cases es with
      | nil => cases hlen
      | cons e es =>
        obtain ⟨hfits, hall⟩ := forall_mem_cons.mp hall
        rw [flatMap_cons, append_assoc, (parseEntry_eq_ok hv).mpr ⟨hfits, rfl⟩]
        dsimp only
        rw [ih.mpr ⟨Nat.succ.inj hlen, hall, rfl⟩]

theorem length_extensionBytes (x : Extension) : (extensionBytes x).length = 8 + x.data.length := by
  rw [extensionBytes, length_append, length_append, x.signature.2, length_word]

/-- What is read of the extensions stands there; the last may go on into the checksum. -/
theorem parseExtensions_sound {raw : Nat} {rest left : Bytes} {xs : List Extension}
    (h : parseExtensions raw rest = .ok (xs, left)) :
    rest = xs.flatMap extensionBytes ++ left ∧ left.length ≤ raw ∧ ∀ x ∈ xs, x.data.length < 2 ^ 32 := by
  fun_induction parseExtensions raw rest generalizing xs left with
  | case1 rest hle =>
    cases h
    exact ⟨rfl, hle, nofun⟩
  | case2 => cases h
  | case3 => cases h
  | case4 => cases h
  | case5 rest hgt hlen payload rest' htake extensions left' hrest ih =>
    cases h
    obtain ⟨hrest', hleft, hall⟩ := ih hrest
    obtain ⟨hdrop, hsize⟩ := takeN_eq_some.mp htake
    have hword : word (readU32 rest 4) = bytesAt rest 4 4 := word_readU32 (by omega)
    have hsig : (ByteArr.ofSlice 4 (bytesAt rest 0 4)).val = bytesAt rest 0 4 :=
      ByteArr.val_ofSlice (length_bytesAt (by omega))
    have hfront : bytesAt rest 0 4 ++ bytesAt rest 4 4 = rest.take 8 := by
      have hadd := bytesAt_add rest 0 4 4
      rw [Nat.zero_add] at hadd
      exact hadd.symm
    refine ⟨?_, hleft, forall_mem_cons.mpr ⟨?_, hall⟩⟩
    · rw [flatMap_cons, extensionBytes, hsig, hsize, UInt32.ofNat_toNat, hword, hfront, append_assoc,
        append_assoc, ← hrest', ← hdrop, take_append_drop]
    · rw [hsize]
      exact (readU32 rest 4).toNat_lt

/-- **The extensions are read just where their bytes stand**, when they end at the checksum. -/
theorem parseExtensions_eq_ok {raw : Nat} {left : Bytes} {xs : List Extension} (hleft : left.length = raw)
    (hall : ∀ x ∈ xs, x.data.length < 2 ^ 32) :
    parseExtensions raw (xs.flatMap extensionBytes ++ left) = .ok (xs, left) := by
  induction xs with
  | nil =>
    rw [flatMap_nil, nil_append, parseExtensions, if_pos (Nat.le_of_eq hleft)]
  | cons x xs ih =>
    obtain ⟨hx, hall⟩ := forall_mem_cons.mp hall
    rw [flatMap_cons, append_assoc]
    generalize hmore : xs.flatMap extensionBytes ++ left = more at ih ⊢
    have hlong : raw ≤ more.length := by
      rw [← hmore, length_append, hleft]
      omega
    have hsig : bytesAt (extensionBytes x ++ more) 0 4 = x.signature.val := by
      have hat : bytesAt ([] ++ x.signature.val ++
          (word (UInt32.ofNat x.data.length) ++ (x.data ++ more))) 0 4 = x.signature.val :=
        bytesAt_append rfl x.signature.2
      rwa [nil_append, ← append_assoc, ← append_assoc] at hat
    have hsize : readU32 (extensionBytes x ++ more) 4 = UInt32.ofNat x.data.length := by
      refine readU32_of_bytesAt ?_
      have hat : bytesAt (x.signature.val ++ word (UInt32.ofNat x.data.length) ++ (x.data ++ more)) 4 4
          = word (UInt32.ofNat x.data.length) := bytesAt_append x.signature.2 (length_word _)
      rwa [← append_assoc] at hat
    have hdrop : (extensionBytes x ++ more).drop 8 = x.data ++ more := by
      have hfront : (x.signature.val ++ word (UInt32.ofNat x.data.length)).length = 8 := by
        rw [length_append, x.signature.2, length_word]
      rw [extensionBytes, append_assoc, ← hfront, drop_left]
    have htoNat : (UInt32.ofNat x.data.length).toNat = x.data.length := by
      rw [UInt32.toNat_ofNat', Nat.mod_eq_of_lt hx]
    have hlen : (extensionBytes x ++ more).length = 8 + x.data.length + more.length := by
      rw [length_append, length_extensionBytes]
    have htake : takeN (readU32 (extensionBytes x ++ more) 4).toNat ((extensionBytes x ++ more).drop 8)
        = some (x.data, more) := by
      rw [hsize, htoNat, hdrop, takeN_append]
    rw [parseExtensions, if_neg (by omega), if_neg (by omega)]
    split
    · rename_i hnone
      rw [htake] at hnone
      cases hnone
    · rename_i hsome
      rw [htake] at hsome
      cases hsome
      rw [ih hall, hsig]
      refine congrArg (fun signature => Except.ok (Extension.mk signature x.data :: xs, left)) ?_
      exact Subtype.ext (ByteArr.val_ofSlice x.signature.2)

/-! ### The whole file -/

variable {P : Prims} {data left : Bytes} {i : Index}

/-- What stands in front of the checksum. -/
def layout (i : Index) : Bytes :=
  magic ++ word i.version ++ word (UInt32.ofNat i.entries.length) ++ i.entries.flatMap entryBytes ++
    i.extensions.flatMap extensionBytes

/-- An index as it is written: entries in order with the flags they are written with, in the version
    that is needed. -/
def written (i : Index) : Index :=
  ⟨minimalVersion i.entries, (i.entries.insertionSort (byPathStage · ·)).map rebuilt, i.extensions⟩

theorem content_eq (i : Index) : content i = layout (written i) := by
  have hlen : ((i.entries.insertionSort (byPathStage · ·)).map rebuilt).length = i.entries.length := by
    rw [length_map, (perm_insertionSort _ _).length_eq]
  rw [content, layout, written]
  dsimp only
  rw [hlen, flatMap_map]

/-- What fits the fields of an index file. -/
structure Storable (algo : HashAlgo) (i : Index) : Prop where
  count : i.entries.length < 2 ^ 32
  ids : ∀ e ∈ i.entries, e.oid.algo = algo
  paths : ∀ e ∈ i.entries, (0 : UInt8) ∈ e.path → e.path.length < 0xfff
  sizes : ∀ x ∈ i.extensions, x.data.length < 2 ^ 32

theorem length_header (version count : UInt32) : (magic ++ word version ++ word count).length = 12 := by
  rw [length_append, length_append, length_word, length_word]
  rfl

/-- The header of a file, read. -/
theorem header_fields (version count : UInt32) (rest : Bytes) :
    (magic ++ word version ++ word count ++ rest).take 4 = magic ∧
      readU32 (magic ++ word version ++ word count ++ rest) 4 = version ∧
      readU32 (magic ++ word version ++ word count ++ rest) 8 = count ∧
      (magic ++ word version ++ word count ++ rest).drop 12 = rest := by
  have hmagic : magic.length = 4 := rfl
  have hfront : (magic ++ word version).length = 8 := by
    rw [length_append, length_word]
    rfl
  refine ⟨?_, readU32_of_bytesAt ?_, readU32_of_bytesAt ?_, ?_⟩
  · rw [append_assoc, append_assoc, ← hmagic, take_left]
  · rw [append_assoc _ (word count)]
    exact bytesAt_append hmagic (length_word version)
  · exact bytesAt_append hfront (length_word count)
  · rw [← length_header version count, drop_left]

/-- **A file is read just where its bytes stand**, when its extensions end at the checksum. -/
theorem parseAll_eq_ok (hv : i.version ≠ 4) (hleft : left.length = algo.rawLen) :
    parseAll P algo data = .ok (i, left) ↔ (2 ≤ i.version ∧ i.version ≤ 4) ∧ i.entries.length < 2 ^ 32 ∧
      (∀ e ∈ i.entries, Fits i.version algo e) ∧ (∀ x ∈ i.extensions, x.data.length < 2 ^ 32) ∧
      left = digest P algo (layout i) ∧ data = layout i ++ left := by
  constructor
  · intro h
    rw [parseAll] at h
    split at h
    · cases h
    · rename_i hmagic
      rw [not_or, not_lt, not_not] at hmagic
      dsimp only at h
      split at h
      · cases h
      · rename_i hversion
        split at h
        · cases h
        · rename_i hsum
          split at h
          · cases h
          · rename_i entries rest hentries
            split at h
            · cases h
            · rename_i extensions left' hextensions
              cases h
              obtain ⟨hcount, hfits, hrest⟩ := (parseEntries_eq_ok hv).mp hentries
              obtain ⟨hleft', -, hsizes⟩ := parseExtensions_sound hextensions
              dsimp only at hv hversion hfits ⊢
              have hlt : entries.length < 2 ^ 32 := by
                rw [hcount]
                exact (readU32 data 8).toNat_lt
              have hwhole : data = layout ⟨readU32 data 4, entries, extensions⟩ ++ left := by
                have hword : word (readU32 data 4) = bytesAt data 4 4 := word_readU32 (by omega)
                have hword' : word (readU32 data 8) = bytesAt data 8 4 := word_readU32 (by omega)
                have hfront : data.take 12 = magic ++ bytesAt data 4 4 ++ bytesAt data 8 4 := by
                  have hadd := bytesAt_add data 0 4 8
                  have hadd' := bytesAt_add data 4 4 4
                  rw [Nat.zero_add] at hadd
                  rw [hadd', ← append_assoc] at hadd
                  have htake : bytesAt data 0 4 = magic := hmagic.2
                  rw [htake] at hadd
                  exact hadd
                rw [layout]
                dsimp only
                rw [hcount, UInt32.ofNat_toNat, hword, hword', ← hfront, append_assoc, append_assoc,
                  ← hleft', ← hrest, take_append_drop]
              have hend : data.length - algo.rawLen
                  = (layout ⟨readU32 data 4, entries, extensions⟩).length := by
                have hlen := congrArg List.length hwhole
                rw [length_append, hleft] at hlen
                omega
              rw [ne_eq, not_not, hend] at hsum
              refine ⟨not_not.mp hversion, hlt, hfits, hsizes, ?_, hwhole⟩
              have htake := congrArg (List.take (layout ⟨readU32 data 4, entries, extensions⟩).length) hwhole
              have hdrop := congrArg (List.drop (layout ⟨readU32 data 4, entries, extensions⟩).length) hwhole
              rw [take_left] at htake
              rw [drop_left] at hdrop
              rw [← hdrop, hsum, htake]
  · rintro ⟨hversion, hcount, hfits, hsizes, hsum, rfl⟩
    have hlayout : layout i ++ left = magic ++ word i.version ++ word (UInt32.ofNat i.entries.length) ++
        (i.entries.flatMap entryBytes ++ (i.extensions.flatMap extensionBytes ++ left)) := by
      rw [layout, append_assoc, append_assoc]
    obtain ⟨hmagic, hversion', hcount', hdrop⟩ := header_fields i.version (UInt32.ofNat i.entries.length)
      (i.entries.flatMap entryBytes ++ (i.extensions.flatMap extensionBytes ++ left))
    rw [← hlayout] at hmagic hversion' hcount' hdrop
    have hlong : 12 ≤ (layout i).length := by
      rw [layout, length_append, length_append, length_header]
      omega
    have hend : (layout i ++ left).length - algo.rawLen = (layout i).length := by
      rw [length_append, hleft]
      omega
    have htoNat : (UInt32.ofNat i.entries.length).toNat = i.entries.length := by
      rw [UInt32.toNat_ofNat', Nat.mod_eq_of_lt hcount]
    have hlen : ¬((layout i ++ left).length < 12 + algo.rawLen ∨ (layout i ++ left).take 4 ≠ magic) := by
      rw [hmagic, length_append, hleft]
      rintro (hlt | hne)
      · omega
      · exact hne rfl
    rw [parseAll, if_neg hlen]
    dsimp only
    rw [hversion', if_neg (not_not.mpr hversion), hend, drop_left, take_left,
      if_neg (not_not.mpr hsum), hcount', htoNat, hdrop, (parseEntries_eq_ok hv).mpr ⟨rfl, hfits, rfl⟩]
    dsimp only
    rw [parseExtensions_eq_ok hleft hsizes]

/-- **What is written is read back**, as it is written. -/
theorem parseAll_serialize (h : Storable algo i) :
    parseAll P algo (i.serialize P algo) = .ok (written i, digest P algo (layout (written i))) := by
  have hminimal : minimalVersion i.entries = 2 ∨ minimalVersion i.entries = 3 := by
    rw [minimalVersion]
    split
    · exact .inr rfl
    · exact .inl rfl
  have hversion : (2 ≤ (written i).version ∧ (written i).version ≤ 4) ∧ (written i).version ≠ 4 := by
    change (2 ≤ minimalVersion i.entries ∧ minimalVersion i.entries ≤ 4) ∧ minimalVersion i.entries ≠ 4
    rcases hminimal with h2 | h3
    · rw [h2]
      decide
    · rw [h3]
      decide
  have hperm := perm_insertionSort (byPathStage · ·) i.entries
  refine (parseAll_eq_ok hversion.2 (length_digest algo _)).mpr
    ⟨hversion.1, ?_, fun e he => ?_, h.sizes, rfl, ?_⟩
  · change ((i.entries.insertionSort (byPathStage · ·)).map rebuilt).length < 2 ^ 32
    rw [length_map, hperm.length_eq]
    exact h.count
  · obtain ⟨e, hsorted, rfl⟩ := mem_map.mp he
    have hmem := hperm.subset hsorted
    refine fits_rebuilt (h.ids e hmem) (h.paths e hmem) fun hsome => ?_
    have hany : i.entries.any (fun e => e.extendedFlags.isSome) = true :=
      any_eq_true.mpr ⟨e, hmem, hsome⟩
    change ¬minimalVersion i.entries < 3
    rw [minimalVersion, if_pos hany]
    decide
  · rw [Index.serialize, content_eq]

/-- Entries as they are written: in order, with their flags, in the version that is needed. -/
structure Written (i : Index) : Prop where
  version : i.version = minimalVersion i.entries
  sorted : i.entries.Pairwise fun a b => byPathStage a b = true
  flags : ∀ e ∈ i.entries, e.flags = rebuildFlags e

theorem rebuilt_eq_self {e : IndexEntry} : rebuilt e = e ↔ e.flags = rebuildFlags e := by
  constructor
  · intro h
    exact (congrArg IndexEntry.flags h).symm
  · intro h
    rw [rebuilt, ← h]

instance : Std.Total fun a b : IndexEntry => byPathStage a b = true where
  total a b := by
    have hpath : compare b.path a.path = (compare a.path b.path).swap := Std.OrientedCmp.eq_swap
    have hstage : compare b.stage a.stage = (compare a.stage b.stage).swap := Std.OrientedCmp.eq_swap
    rw [byPathStage, byPathStage, hpath, hstage]
    cases compare a.path b.path <;> cases compare a.stage b.stage <;> decide

instance : IsTrans IndexEntry fun a b => byPathStage a b = true where
  trans a b c hab hbc := by
    have hab' : (compareLex (compareOn IndexEntry.path) (compareOn IndexEntry.stage) a b).isLE = true := hab
    have hbc' : (compareLex (compareOn IndexEntry.path) (compareOn IndexEntry.stage) b c).isLE = true := hbc
    have hac : (compareLex (compareOn IndexEntry.path) (compareOn IndexEntry.stage) a c).isLE = true :=
      Std.TransCmp.isLE_trans hab' hbc'
    exact hac

theorem written_eq_self : written i = i ↔ Written i := by
  have hsort : (i.entries.insertionSort (byPathStage · ·)).Pairwise (byPathStage · ·) :=
    pairwise_insertionSort _ _
  constructor
  · intro h
    have hentries : (i.entries.insertionSort (byPathStage · ·)).map rebuilt = i.entries :=
      congrArg Index.entries h
    have hsorted : i.entries.Pairwise fun a b => byPathStage a b = true := by
      rw [← hentries]
      refine pairwise_map.mpr (hsort.imp fun {a b} hle => ?_)
      rw [byPathStage, stage_rebuilt, stage_rebuilt]
      exact hle
    rw [hsorted.insertionSort_eq] at hentries
    refine ⟨(congrArg Index.version h).symm, hsorted, fun e he => ?_⟩
    have hmap : i.entries.map rebuilt = i.entries.map id := hentries.trans (map_id _).symm
    exact rebuilt_eq_self.mp (map_inj_left.mp hmap e he)
  · intro h
    have hmap : i.entries.map rebuilt = i.entries :=
      (map_congr_left fun e he => rebuilt_eq_self.mpr (h.flags e he)).trans (map_id' _)
    rw [written, h.sorted.insertionSort_eq, hmap, ← h.version]

/-- The entries and extensions of a file that is read end before its checksum. -/
def Contained (P : Prims) (algo : HashAlgo) (data : Bytes) : Prop :=
  ∀ i left, parseAll P algo data = .ok (i, left) → algo.rawLen ≤ left.length

theorem parse_eq_ok : Index.parse P algo data = .ok i ↔ ∃ left, parseAll P algo data = .ok (i, left) := by
  rw [Index.parse]
  cases parseAll P algo data with
  | error e => exact ⟨nofun, nofun⟩
  | ok parsed =>
    obtain ⟨i', left'⟩ := parsed
    constructor
    · intro h
      cases h
      exact ⟨left', rfl⟩
    · rintro ⟨left, h⟩
      cases h
      rfl

/-- No more is left than the checksum. -/
theorem length_left_le (h : parseAll P algo data = .ok (i, left)) : left.length ≤ algo.rawLen := by
  rw [parseAll] at h
  split at h
  · cases h
  · dsimp only at h
    split at h
    · cases h
    · split at h
      · cases h
      · split at h
        · cases h
        · split at h
          · cases h
          · rename_i hextensions
            cases h
            exact (parseExtensions_sound hextensions).2.1

/-- **The codec of the index.**  An index that fits the fields of the file is read back as it is written,
    with its entries in order and their flags as `rebuildFlags` gives them; and a file of version 2 or 3,
    with its entries and extensions before the checksum, is written back as it is just if it is in
    order, with such flags, in the version that is needed. -/
theorem index_codec (P : Prims) (algo : HashAlgo) :
    (∀ i, Storable algo i → Index.parse P algo (i.serialize P algo) = .ok (written i)) ∧
    ∀ data i, Index.parse P algo data = .ok i → Contained P algo data → i.version ≠ 4 →
      (i.serialize P algo = data ↔ Written i) := by
  refine ⟨fun i h => parse_eq_ok.mpr ⟨_, parseAll_serialize h⟩, fun data i hparse hcontained hv => ?_⟩
  obtain ⟨left, hall⟩ := parse_eq_ok.mp hparse
  have hleft : left.length = algo.rawLen := Nat.le_antisymm (length_left_le hall) (hcontained i left hall)
  obtain ⟨-, hcount, hfits, hsizes, hsum, hdata⟩ := (parseAll_eq_ok hv hleft).mp hall
  rw [← written_eq_self]
  constructor
  · intro hback
    have hstorable : Storable algo i := by
      refine ⟨hcount, fun e he => (hfits e he).algo, fun e he hnul => ?_, hsizes⟩
      have hname := (hfits e he).name
      rw [NameFits] at hname
      split at hname
      · exact absurd hnul hname
      · rename_i hshort
        have hmask : (e.flags &&& nameMask).toNat ≤ 0xfff := by
          rw [UInt16.toNat_and]
          exact Nat.and_le_right
        omega
    have hagain := parseAll_serialize (P := P) hstorable
    rw [hback, hall] at hagain
    exact (congrArg Prod.fst (Except.ok.inj hagain)).symm
  · intro hsame
    rw [Index.serialize, content_eq, hsame, hdata, ← hsum]

/-- A file `a` that is staged, with the flags of a path of no length. -/
def bareEntry (flags : UInt16) : IndexEntry where
  ctime := (1, 2)
  mtime := (3, 4)
  dev := 5
  ino := 6
  mode := 0o100644
  uid := 7
  gid := 8
  size := 9
  oid := .sha1 (.fill 20 1)
  flags := flags
  extendedFlags := none
  path := [0x61]

def bareIndex (flags : UInt16) : Index := ⟨2, [bareEntry flags], []⟩

theorem storable_bareIndex (flags : UInt16) : Storable .sha1 (bareIndex flags) where
  count := by
    change 1 < 2 ^ 32
    decide
  ids e he := by
    rw [mem_singleton.mp he]
    rfl
  paths e he hnul := by
    rw [mem_singleton.mp he] at hnul
    have hnul' : (0 : UInt8) ∈ [(0x61 : UInt8)] := hnul
    exact absurd hnul' (by decide)
  sizes := nofun

theorem index_codec_bare :
    Index.parse .toy .sha1 ((bareIndex 1).serialize .toy .sha1) = .ok (bareIndex 1) ∧
      ((bareIndex 1).serialize .toy .sha1 = (bareIndex 1).serialize .toy .sha1 ↔ Written (bareIndex 1)) := by
  have hwritten : written (bareIndex 1) = bareIndex 1 := by decide +kernel
  have hparse := (index_codec .toy .sha1).1 _ (storable_bareIndex 1)
  rw [hwritten] at hparse
  refine ⟨hparse, (index_codec .toy .sha1).2 _ _ hparse ?_ (by decide)⟩
  intro i left hall
  rw [parseAll_serialize (storable_bareIndex 1)] at hall
  cases hall
  exact Nat.le_of_eq (length_digest .sha1 _).symm

/-- **The flags come back as they are written**, whatever they were. -/
theorem flags_are_rebuilt : Storable .sha1 (bareIndex 0) ∧
    Index.parse .toy .sha1 ((bareIndex 0).serialize .toy .sha1) ≠ .ok (bareIndex 0) := by
  refine ⟨storable_bareIndex 0, fun h => ?_⟩
  have hwritten : written (bareIndex 0) = bareIndex 1 := by decide +kernel
  rw [parse_eq_ok.mpr ⟨_, parseAll_serialize (storable_bareIndex 0)⟩, hwritten] at h
  exact absurd (Except.ok.inj h) (by decide)

end Alt.GitIndex
