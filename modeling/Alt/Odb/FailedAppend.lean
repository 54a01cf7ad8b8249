import Alt.Library.TornAppend
import Alt.Odb.ObjectMap
import Alt.Odb.Tier1Map
import Alt.Store.BlobMap

namespace Alt

open Alt.Library Alt.Store Alt.Odb

/-!
# Failed appends to the map logs

The chunk pack truncates a partial record back (`ChunkStore::append_record`); the appends
of the blob map, the object map and the Tier 1 map do not.  For each of the three,
`untried_iff` says exactly which failed appends later appends and a reopen do not notice.

The argument that a torn record is noticed is the same for all three: some record is told
apart from any record that starts with the first byte of the torn one.
-/

/-- Two indices that differ in what they bind at one key, built by folding one record each
    into the same index. -/
theorem update_ne_update {κ ν : Type} [DecidableEq κ] (m : κ → Option ν) {key key' : κ}
    {value value' : ν} (hkey : key ≠ key') (hvalue : m key' ≠ some value') :
    Function.update m key (some value) ≠ Function.update m key' (some value') := by
  intro h
  have := congrFun h key'
  rw [Function.update_of_ne hkey.symm, Function.update_self] at this
  exact hvalue this

/-- Folding a binding in changes nothing exactly when it is there already. -/
theorem update_eq_self_iff {κ ν : Type} [DecidableEq κ] (m : κ → Option ν) (key : κ)
    (value : ν) : Function.update m key (some value) = m ↔ m key = some value := by
  rw [Function.update_eq_self_iff, eq_comm]

/-- An id whose first byte differs from that of a given slice. -/
def otherId (b : Bytes) : ByteArr 32 := .fill 32 (b.head?.getD 0 + 1)

theorem head_otherId (b : Bytes) : (otherId b).val.head? = some (b.head?.getD 0 + 1) := rfl

/-- An id read from the front of a slice starts with the slice's first byte. -/
theorem head_ofSlice {b : Bytes} (hb : 32 ≤ b.length) :
    (ByteArr.ofSlice 32 (b.take 32)).val.head? = b.head? := by
  rw [ByteArr.val_ofSlice (by rw [List.length_take]; omega)]
  obtain ⟨x, b, rfl⟩ := List.exists_cons_of_ne_nil (List.ne_nil_of_length_pos (by omega : 0 < b.length))
  rfl

theorem ofSlice_ne_otherId {b c : Bytes} (hb : 32 ≤ b.length) (hhead : b.head? = c.head?) :
    ByteArr.ofSlice 32 (b.take 32) ≠ otherId c := by
  intro h
  have hval := congrArg (fun a => a.val.head?) h
  simp only [head_ofSlice hb, head_otherId, ← hhead] at hval
  cases b with
  | nil => simp at hb
  | cons x b =>
    simp at hval

namespace Store.BlobMap

/-- The record after the torn one: another blob, bound to a value it is not bound to. -/
def laterRecord (m : Index) (torn : Bytes) : BlobMapRecord where
  blob := otherId torn
  root := .fill 32 0
  totalLen := if m (otherId torn) = some (.fill 32 0, 0) then 1 else 0

theorem laterRecord_new (m : Index) (torn : Bytes) :
    m (otherId torn) ≠ some ((laterRecord m torn).root, (laterRecord m torn).totalLen) := by
  simp only [laterRecord]
  split
  · rename_i h
    simp [h]
  · assumption

/-- **Failed appends to the blob map.** -/
theorem untried_iff_lookup (P : Prims) {file : Bytes} {h : BlobMap} {rs : List BlobMapRecord}
    (hr : (format P).Reached indexing file h) (hrs : (format P).Holds file rs)
    (r : BlobMapRecord) {k : Nat} (hk : k ≤ recLen) :
    (format P).Untried indexing file h rs r k ↔
      k = 0 ∨ (k = recLen ∧ indexing.fold rs r.blob = some (r.root, r.totalLen)) := by
  rw [RecordFormat.untried_iff hr.sound hrs hk, ← update_eq_self_iff]
  · rfl
  · intro h0
    refine ⟨laterRecord (indexing.fold rs) ((format P).encode r), fun x hx => ?_⟩
    have hblob := congrArg BlobMapRecord.blob (Except.ok.inj hx)
    refine update_ne_update _ ?_ (laterRecord_new _ _)
    rw [← hblob]
    refine ofSlice_ne_otherId ?_ (RecordFormat.head_splice _ _ h0)
    rw [RecordFormat.length_splice _ _ hk]
    exact (by decide : 32 ≤ recLen)

end Store.BlobMap

namespace Odb.Tier1Map

/-- The record after the torn one: another blob, bound to a record it is not bound to. -/
def laterRecord (m : Index) (torn : Bytes) : Tier1Entry where
  blob := otherId torn
  record := if m (otherId torn) = some (.fill 32 0) then .fill 32 1 else .fill 32 0

theorem laterRecord_new (m : Index) (torn : Bytes) :
    m (otherId torn) ≠ some (laterRecord m torn).record := by
  simp only [laterRecord]
  split
  · rename_i h
    rw [h]
    decide
  · assumption

/-- **Failed appends to the Tier 1 map.** -/
theorem untried_iff_lookup (P : Prims) {file : Bytes} {h : Tier1Map} {rs : List Tier1Entry}
    (hr : (format P).Reached indexing file h) (hrs : (format P).Holds file rs)
    (r : Tier1Entry) {k : Nat} (hk : k ≤ recLen) :
    (format P).Untried indexing file h rs r k ↔
      k = 0 ∨ (k = recLen ∧ indexing.fold rs r.blob = some r.record) := by
  rw [RecordFormat.untried_iff hr.sound hrs hk, ← update_eq_self_iff]
  · rfl
  · intro h0
    refine ⟨laterRecord (indexing.fold rs) ((format P).encode r), fun x hx => ?_⟩
    have hblob := congrArg Tier1Entry.blob (Except.ok.inj hx)
    refine update_ne_update _ ?_ (laterRecord_new _ _)
    rw [← hblob]
    refine ofSlice_ne_otherId ?_ (RecordFormat.head_splice _ _ h0)
    rw [RecordFormat.length_splice _ _ hk]
    exact (by decide : 32 ≤ recLen)

end Odb.Tier1Map

namespace Odb.ObjectMap

/-- The entry after the torn one: an id of the other hash algorithm. -/
def laterEntry (e : MapEntry) : MapEntry where
  git := match e.git.algo with
    | .sha1 => .sha256 (.fill 32 0)
    | .sha256 => .sha1 (.fill 20 0)
  alt := .fill 32 0
  kind := .blob
  size := 0

theorem algo_laterEntry (e : MapEntry) : (laterEntry e).git.algo ≠ e.git.algo := by
  obtain ⟨git, alt, kind, size⟩ := e
  cases git <;> simp [laterEntry, ObjectId.algo]

/-- The first byte of a record decides the hash algorithm of its id. -/
theorem parse_algo {b : Bytes} {e x : MapEntry} (hhead : b.head? = some (algoByte e.git.algo))
    (hx : parse b = .ok x) : x.git.algo = e.git.algo := by
  have hget : b[0]?.getD 0 = algoByte e.git.algo := by
    rw [← List.head?_eq_getElem?, hhead, Option.getD_some]
  simp only [parse, hget, parseAlgo_algoByte, bind, Except.bind] at hx
  obtain ⟨git, hgit, hx⟩ := of_match_ok hx
  obtain ⟨kind, hkind, hx⟩ := of_match_ok hx
  simp only [Except.ok.injEq] at hx
  subst hx
  rw [parseGit] at hgit
  split at hgit
  · rename_i h
    cases hgit
    exact ObjectId.algo_of_fromBytes h
  · cases hgit

/-- **Failed appends to the object map.** Every record is kept, so a whole record is never
    harmless. -/
theorem untried_iff_lookup (P : Prims) {file : Bytes} {h : ObjectMap} {rs : List MapEntry}
    (hr : (format P).Reached indexing file h) (hrs : (format P).Holds file rs)
    (e : MapEntry) {k : Nat} (hk : k ≤ recLen) :
    (format P).Untried indexing file h rs e k ↔ k = 0 := by
  rw [RecordFormat.untried_iff hr.sound hrs hk]
  · constructor
    · rintro (h0 | ⟨-, hsame⟩)
      · exact h0
      · have := congrArg (fun m => m.entries.length) hsame
        simp [indexing, Index.insert] at this
    · exact .inl
  · intro h0
    refine ⟨laterEntry e, fun x hx hsame => algo_laterEntry e ?_⟩
    have hentries := congrArg Index.entries hsame
    have hlast : x = laterEntry e := by simpa [indexing, Index.insert] using hentries
    rw [← hlast]
    exact parse_algo (RecordFormat.head_splice _ _ h0) hx

end Odb.ObjectMap

/-! ### The three logs -/

/-- **Failed appends, exactly.** In every state of each log, a failed append goes unnoticed
    by all later appends and the reopen if and only if the write left no byte, or left the
    whole record in a log that binds the blob to that very value already (an object map
    never does: it keeps every record). -/
theorem failed_append_untried_iff (P : Prims) :
    (∀ file (h : BlobMap) rs r k, (BlobMap.format P).Reached BlobMap.indexing file h →
      (BlobMap.format P).Holds file rs → k ≤ BlobMap.recLen →
      ((BlobMap.format P).Untried BlobMap.indexing file h rs r k ↔
        k = 0 ∨ (k = BlobMap.recLen ∧
          BlobMap.indexing.fold rs r.blob = some (r.root, r.totalLen)))) ∧
    (∀ file (h : ObjectMap) rs e k, (ObjectMap.format P).Reached ObjectMap.indexing file h →
      (ObjectMap.format P).Holds file rs → k ≤ ObjectMap.recLen →
      ((ObjectMap.format P).Untried ObjectMap.indexing file h rs e k ↔ k = 0)) ∧
    (∀ file (h : Tier1Map) rs r k, (Tier1Map.format P).Reached Tier1Map.indexing file h →
      (Tier1Map.format P).Holds file rs → k ≤ Tier1Map.recLen →
      ((Tier1Map.format P).Untried Tier1Map.indexing file h rs r k ↔
        k = 0 ∨ (k = Tier1Map.recLen ∧
          Tier1Map.indexing.fold rs r.blob = some r.record))) :=
  ⟨fun _ _ _ r _ hr hrs hk => BlobMap.untried_iff_lookup P hr hrs r hk,
    fun _ _ _ e _ hr hrs hk => ObjectMap.untried_iff_lookup P hr hrs e hk,
    fun _ _ _ r _ hr hrs hk => Tier1Map.untried_iff_lookup P hr hrs r hk⟩

/-- A record for a fresh blob map. -/
def sampleRecord : BlobMapRecord := ⟨.fill 32 1, .fill 32 2, 3⟩

/-- The handle of a log just created. -/
theorem reached_fresh (P : Prims) : (BlobMap.format P).Reached BlobMap.indexing
    (BlobMap.format P).header ⟨BlobMap.indexing.empty, 5, 5⟩ :=
  .opened (show (BlobMap.format P).openLog BlobMap.indexing none = _ from rfl)

/-- The first record of a fresh blob map is noticed, torn or whole. -/
theorem failed_append_untried_iff_fresh :
    (BlobMap.format Prims.toy).Untried BlobMap.indexing (BlobMap.format Prims.toy).header
        ⟨BlobMap.indexing.empty, 5, 5⟩ [] sampleRecord 0 ∧
      ¬ (BlobMap.format Prims.toy).Untried BlobMap.indexing (BlobMap.format Prims.toy).header
        ⟨BlobMap.indexing.empty, 5, 5⟩ [] sampleRecord 40 ∧
      ¬ (BlobMap.format Prims.toy).Untried BlobMap.indexing (BlobMap.format Prims.toy).header
        ⟨BlobMap.indexing.empty, 5, 5⟩ [] sampleRecord 80 := by
  have h := fun k hk => (failed_append_untried_iff Prims.toy).1 _ _ [] sampleRecord k
    (reached_fresh Prims.toy) ⟨[], rfl, .nil⟩ hk
  have hfold : BlobMap.indexing.fold [] sampleRecord.blob = none := rfl
  simp [h 0 (by decide), h 40 (by decide), h 80 (by decide), hfold, BlobMap.recLen]

/-- A fresh blob map, half a record, then a whole one: the reopen is refused. -/
theorem failed_append_refuses_reopen :
    (BlobMap.format Prims.toy).Reached BlobMap.indexing (BlobMap.format Prims.toy).header
        ⟨BlobMap.indexing.empty, 5, 5⟩ ∧
      (BlobMap.format Prims.toy).Holds (BlobMap.format Prims.toy).header [] ∧
      ¬ (BlobMap.format Prims.toy).Untried BlobMap.indexing (BlobMap.format Prims.toy).header
        ⟨BlobMap.indexing.empty, 5, 5⟩ [] sampleRecord 40 := by
  refine ⟨reached_fresh _, ⟨[], rfl, .nil⟩, fun hu => ?_⟩
  obtain ⟨file, h, hopen, -⟩ := hu [sampleRecord]
  have hok := congrArg Except.isOk hopen
  rw [show (Except.ok (file, h) : Except StoreError (Bytes × BlobMap)).isOk = true from rfl] at hok
  revert hok
  decide +kernel

end Alt
