import Alt.Library.File
import Mathlib.Data.List.Induction

namespace Alt.Library

open List

/-!
# Library — append-only logs of fixed-size checksummed records

A log file is a header followed by records of one length, each with its own checksum.
`RecordFormat` carries the laws of a format as fields; `Indexing` says how a handle folds
records into its in-memory index.  The operations are the ones such logs share:

* `openLog` — check the header, walk the records, truncate a torn final record, refuse
  any other damage;
* `append` / `appendTorn` — a write at the handle's file cursor, all of it or a prefix;
* `syncFromDisk` — fold in the records past the handle's own length.

`Reads body rs` is the invariant the proofs carry: `body` is a whole number of valid
records, reading as `rs`.  `openLog_reads` says what opening makes of such a file with
any short tail behind it.
-/

/-- A fixed-size record format together with the laws its codec obeys. -/
structure RecordFormat (ρ : Type) (ε : Type) extends FileHeader ε where
  recLen : Nat
  recLen_pos : 0 < recLen
  encode : ρ → Bytes
  length_encode : ∀ r, (encode r).length = recLen
  /-- Does the stored checksum match the checked bytes? -/
  checkOk : Bytes → Bool
  checkOk_encode : ∀ r, checkOk (encode r) = true
  parse : Bytes → Except ε ρ
  parse_encode : ∀ r, parse (encode r) = .ok r
  corrupt : ε

/-- How records are folded into an in-memory index. -/
structure Indexing (ρ : Type) (ι : Type) where
  empty : ι
  insert : ι → ρ → ι

/-- The index of a list of records, oldest first. -/
def Indexing.fold {ρ : Type} {ι : Type} (I : Indexing ρ ι) (rs : List ρ) : ι :=
  rs.foldl I.insert I.empty

@[simp] theorem Indexing.fold_append {ρ : Type} {ι : Type} (I : Indexing ρ ι)
    (rs qs : List ρ) : I.fold (rs ++ qs) = qs.foldl I.insert (I.fold rs) := by
  simp [Indexing.fold]

/-- An index that keeps, for each key, the value of the last record with it. -/
def Indexing.byKey {ρ κ ν : Type} [DecidableEq κ] (key : ρ → κ) (val : ρ → ν) :
    Indexing ρ (κ → Option ν) where
  empty := fun _ => none
  insert m r := Function.update m (key r) (some (val r))

section ByKey

variable {ρ κ ν : Type} [DecidableEq κ] {K : ρ → κ} {V : ρ → ν} {rs : List ρ} {k : κ}

theorem Indexing.byKey_concat (rs : List ρ) (r : ρ) :
    (Indexing.byKey K V).fold (rs ++ [r]) k
      = if k = K r then some (V r) else (Indexing.byKey K V).fold rs k := by
  rw [Indexing.fold_append]
  exact Function.update_apply _ _ _ k

/-- What is found under a key is the value of a record with it. -/
theorem Indexing.exists_of_byKey {v : ν} (h : (Indexing.byKey K V).fold rs k = some v) :
    ∃ r ∈ rs, K r = k ∧ V r = v := by
  induction rs using List.reverseRecOn with
  | nil => cases h
  | append_singleton rs r ih =>
    rw [Indexing.byKey_concat] at h
    split at h
    · rename_i hk
      cases h
      exact ⟨r, mem_append_right _ (mem_singleton.mpr rfl), hk.symm, rfl⟩
    · obtain ⟨r', hr', hk⟩ := ih h
      exact ⟨r', mem_append_left _ hr', hk⟩

theorem Indexing.isSome_byKey :
    ((Indexing.byKey K V).fold rs k).isSome = true ↔ ∃ r ∈ rs, K r = k := by
  constructor
  · intro h
    obtain ⟨v, hv⟩ := Option.isSome_iff_exists.mp h
    obtain ⟨r, hr, hk, -⟩ := Indexing.exists_of_byKey hv
    exact ⟨r, hr, hk⟩
  · induction rs using List.reverseRecOn with
    | nil => rintro ⟨r, hr, -⟩; cases hr
    | append_singleton rs r ih =>
      rintro ⟨r', hr', hk⟩
      rw [Indexing.byKey_concat]
      split
      · rfl
      · rename_i hne
        rcases mem_append.mp hr' with hold | hnew
        · exact ih ⟨r', hold, hk⟩
        · exact absurd (mem_singleton.mp hnew ▸ hk.symm) hne

end ByKey

/-- What a handle keeps in memory about its log: the index, the length it has read or
    written up to, and the file cursor its next write starts at. -/
structure LogHandle (ι : Type) where
  index : ι
  len : Nat
  cursor : Nat

/-- The outcome of walking records: those read, the bytes they span, and the error that
    ended the walk, if any. -/
structure Walked (ρ : Type) (ε : Type) where
  records : List ρ
  valid : Nat
  error : Option ε

namespace RecordFormat

variable {ρ : Type} {ε : Type} {ι : Type} (F : RecordFormat ρ ε) (I : Indexing ρ ι)

/-! ### Walking records -/

/-- Walk records from the start of `rest`.  A bad checksum ends the walk: quietly on the
    final record (a torn write) and, unless `strict`, anywhere. -/
def walk (strict : Bool) : Nat → Bytes → Walked ρ ε
  | 0, _ => ⟨[], 0, none⟩
  | fuel + 1, rest =>
    match takeN F.recLen rest with
    | none => ⟨[], 0, none⟩
    | some (b, rest') =>
      if F.checkOk b then
        match F.parse b with
        | .error e => ⟨[], 0, some e⟩
        | .ok r =>
          let tail := walk strict fuel rest'
          ⟨r :: tail.records, F.recLen + tail.valid, tail.error⟩
      else if strict && !rest'.isEmpty then ⟨[], 0, some F.corrupt⟩
      else ⟨[], 0, none⟩

/-- `body` is a whole number of valid records that read as `rs`. -/
inductive Reads : Bytes → List ρ → Prop
  | nil : Reads [] []
  | cons {b body : Bytes} {r : ρ} {rs : List ρ} :
      b.length = F.recLen → F.checkOk b = true → F.parse b = .ok r → Reads body rs →
      Reads (b ++ body) (r :: rs)

variable {F I}

/-- Encoded records read as themselves. -/
theorem reads_encode (rs : List ρ) : F.Reads (rs.flatMap F.encode) rs := by
  induction rs with
  | nil => exact .nil
  | cons r rs ih =>
    exact .cons (F.length_encode r) (F.checkOk_encode r) (F.parse_encode r) ih

theorem reads_encode_one (r : ρ) : F.Reads (F.encode r) [r] := by
  simpa using reads_encode (F := F) [r]

variable {body : Bytes}

theorem Reads.append {body' : Bytes} {rs rs' : List ρ} (h : F.Reads body rs)
    (h' : F.Reads body' rs') : F.Reads (body ++ body') (rs ++ rs') := by
  induction h with
  | nil => exact h'
  | cons hl hc hp _ ih =>
    rw [append_assoc, cons_append]
    exact .cons hl hc hp ih

theorem Reads.length {rs : List ρ} (h : F.Reads body rs) :
    body.length = F.recLen * rs.length := by
  induction h with
  | nil => simp
  | cons hl _ _ _ ih => rw [length_append, hl, ih, length_cons]; ring

variable {rest : Bytes}

/-- The walk passes over valid records and goes on with what follows them. -/
theorem walk_reads {rs : List ρ} (h : F.Reads body rs) (strict : Bool) (fuel : Nat) :
    F.walk strict (rs.length + fuel) (body ++ rest)
      = ⟨rs ++ (F.walk strict fuel rest).records, body.length + (F.walk strict fuel rest).valid,
          (F.walk strict fuel rest).error⟩ := by
  induction h with
  | nil => simp
  | @cons b body r rs hl hc hp _ ih =>
    have hfuel : (r :: rs).length + fuel = (rs.length + fuel) + 1 := by
      simp only [length_cons]; omega
    rw [hfuel, append_assoc, walk, takeN_append' b _ hl]
    simp only [hc, hp, ↓reduceIte, ih, cons_append, length_append, hl, Nat.add_assoc]

/-- Nothing left is less than a record. -/
theorem length_nil_lt : ([] : Bytes).length < F.recLen := F.recLen_pos

/-- A rest shorter than a record ends the walk. -/
theorem walk_short (h : rest.length < F.recLen) (strict : Bool) (fuel : Nat) :
    F.walk strict fuel rest = ⟨[], 0, none⟩ := by
  cases fuel with
  | zero => rfl
  | succ fuel => rw [walk, takeN_eq_none.mpr h]

/-- Walking `body ++ rest` from scratch, the walk reaches `rest` with fuel for every record
    that can still be there. -/
theorem walk_reads_total {rs : List ρ} (h : F.Reads body rs) (rest : Bytes) (strict : Bool) :
    ∃ fuel, rest.length ≤ fuel ∧ F.walk strict (body ++ rest).length (body ++ rest)
      = ⟨rs ++ (F.walk strict fuel rest).records, body.length + (F.walk strict fuel rest).valid,
          (F.walk strict fuel rest).error⟩ := by
  have hle : rs.length ≤ body.length := by
    rw [h.length]; exact Nat.le_mul_of_pos_left _ F.recLen_pos
  refine ⟨(body ++ rest).length - rs.length, ?_, ?_⟩
  · rw [length_append]; omega
  · rw [← walk_reads h]
    congr 1
    rw [length_append]; omega

/-- The walk over valid records and a torn tail. -/
theorem walk_reads_short {torn : Bytes} {rs : List ρ} (h : F.Reads body rs)
    (ht : torn.length < F.recLen) (strict : Bool) :
    F.walk strict (body ++ torn).length (body ++ torn) = ⟨rs, body.length, none⟩ := by
  obtain ⟨fuel, -, hwalk⟩ := walk_reads_total h torn strict
  rw [hwalk, walk_short ht]
  simp

/-- What a walk returns without an error, it read. -/
theorem walk_sound {strict : Bool} {fuel : Nat} {rs : List ρ} {n : Nat}
    (h : F.walk strict fuel rest = ⟨rs, n, none⟩) :
    ∃ body torn, rest = body ++ torn ∧ F.Reads body rs ∧ body.length = n := by
  induction fuel generalizing rest rs n with
  | zero =>
    simp only [walk, Walked.mk.injEq, and_true] at h
    obtain ⟨rfl, rfl⟩ := h
    exact ⟨[], rest, rfl, .nil, rfl⟩
  | succ fuel ih =>
    have hstop : (⟨[], 0, none⟩ : Walked ρ ε) = ⟨rs, n, none⟩ →
        ∃ body torn, rest = body ++ torn ∧ F.Reads body rs ∧ body.length = n := by
      intro hs
      simp only [Walked.mk.injEq, and_true] at hs
      obtain ⟨rfl, rfl⟩ := hs
      exact ⟨[], rest, rfl, .nil, rfl⟩
    rw [walk] at h
    cases ht : takeN F.recLen rest with
    | none => exact hstop (by simpa only [ht] using h)
    | some p =>
      obtain ⟨b, rest'⟩ := p
      obtain ⟨rfl, hb⟩ := takeN_eq_some.mp ht
      simp only [ht] at h
      split at h
      · rename_i hcheck
        cases hp : F.parse b with
        | error e => simp [hp] at h
        | ok r =>
          simp only [hp, Walked.mk.injEq] at h
          obtain ⟨rfl, rfl, herr⟩ := h
          have htail : F.walk strict fuel rest' = ⟨(F.walk strict fuel rest').records,
              (F.walk strict fuel rest').valid, none⟩ := by rw [← herr]
          obtain ⟨body, torn, hrest, hreads, hlen⟩ := ih htail
          refine ⟨b ++ body, torn, ?_, .cons hb hcheck hp hreads, ?_⟩
          · rw [append_assoc, ← hrest]
          · rw [length_append, hb, hlen]
      · split at h
        · simp at h
        · exact hstop h

/-! ### Opening a log -/

variable (F I)

/-- Open the log in `existing` (`none`: no file yet).  Returns the file as the open
    leaves it and the handle. -/
def openLog (existing : Option Bytes) : Except ε (Bytes × LogHandle ι) :=
  match existing with
  | none => .ok (F.header, ⟨I.empty, F.headerLen, F.headerLen⟩)
  | some data => do
    F.checkHeader data
    let start := min F.headerLen data.length
    let walked := F.walk true (data.drop start).length (data.drop start)
    match walked.error with
    | some e => .error e
    | none =>
      let valid := start + walked.valid
      if valid < F.headerLen then
        .ok (F.header, ⟨I.fold walked.records, F.headerLen, F.headerLen⟩)
      else
        .ok (setLen data valid, ⟨I.fold walked.records, valid, valid⟩)

variable {F I}

/-- Opening a header, valid records and anything behind them: the records are in, and what
    happens next is up to the walk over the rest. -/
theorem openLog_walk {rs : List ρ} (h : F.Reads body rs) (rest : Bytes) :
    ∃ fuel, rest.length ≤ fuel ∧ F.openLog I (some (F.header ++ body ++ rest))
      = match (F.walk true fuel rest).error with
        | some e => .error e
        | none =>
          .ok (setLen (F.header ++ body ++ rest)
              ((F.header ++ body).length + (F.walk true fuel rest).valid),
            ⟨I.fold (rs ++ (F.walk true fuel rest).records),
              (F.header ++ body).length + (F.walk true fuel rest).valid,
              (F.header ++ body).length + (F.walk true fuel rest).valid⟩) := by
  have hstart : min F.headerLen (F.header ++ body ++ rest).length = F.header.length := by
    simp
  have hdrop : (F.header ++ body ++ rest).drop F.header.length = body ++ rest := by
    rw [append_assoc, drop_left]
  obtain ⟨fuel, hfuel, hwalk⟩ := walk_reads_total h rest true
  refine ⟨fuel, hfuel, ?_⟩
  have hvalid : ¬ F.header.length + (body.length + (F.walk true fuel rest).valid)
      < F.headerLen := by
    rw [FileHeader.length_header]; omega
  simp only [openLog]
  rw [show F.checkHeader (F.header ++ body ++ rest) = .ok () from by
    rw [append_assoc]; exact FileHeader.checkHeader_header _]
  simp only [bind, Except.bind, hstart, hdrop, hwalk, hvalid, ↓reduceIte]
  rw [← Nat.add_assoc, ← length_append]

/-- **Opening.** A header, valid records and a tail shorter than a record open to the
    index of the records, with the tail cut off and the cursor behind the last record. -/
theorem openLog_reads {torn : Bytes} {rs : List ρ} (h : F.Reads body rs)
    (ht : torn.length < F.recLen) :
    F.openLog I (some (F.header ++ body ++ torn))
      = .ok (F.header ++ body,
          ⟨I.fold rs, (F.header ++ body).length, (F.header ++ body).length⟩) := by
  obtain ⟨fuel, -, hopen⟩ := openLog_walk (I := I) h torn
  rw [hopen, walk_short ht]
  simp only [append_nil, Nat.add_zero]
  rw [setLen_append]

/-- Opening a fresh log gives the header and the empty index. -/
@[simp] theorem openLog_none :
    F.openLog I none = .ok (F.header, ⟨I.empty, F.headerLen, F.headerLen⟩) := rfl

/-! ### Appending and catching up -/

variable (F I)

/-- Append one record: a write at the file cursor, then the index and the length. -/
def append (file : Bytes) (h : LogHandle ι) (r : ρ) : Bytes × LogHandle ι :=
  (writeAt file h.cursor (F.encode r),
    { index := I.insert h.index r, len := h.len + F.recLen, cursor := h.cursor + F.recLen })

/-- An append whose write fails after `k` bytes: the bytes are in the file and the cursor
    behind them, index and length are as they were. -/
def appendTorn (file : Bytes) (h : LogHandle ι) (r : ρ) (k : Nat) : Bytes × LogHandle ι :=
  (writeAt file h.cursor ((F.encode r).take k), { h with cursor := h.cursor + k })

/-- Append a list of records, oldest first. -/
def appendAll (file : Bytes) (h : LogHandle ι) (rs : List ρ) : Bytes × LogHandle ι :=
  rs.foldl (fun s r => F.append I s.1 s.2 r) (file, h)

/-- Fold in the records another writer appended past the handle's length; a torn final
    record is truncated away.  A record that does not parse stops with its error. -/
def syncFromDisk (file : Bytes) (h : LogHandle ι) : Bytes × LogHandle ι × Option ε :=
  if file.length ≤ h.len then (file, h, none)
  else
    let tail := file.drop h.len
    let walked := F.walk false tail.length tail
    let index := walked.records.foldl I.insert h.index
    match walked.error with
    | some e => (file, { h with index := index, cursor := file.length }, some e)
    | none =>
      let newLen := h.len + walked.valid
      (setLen file newLen, ⟨index, newLen, newLen⟩, none)

variable {F I}

/-- Appending at the end of the file appends the encodings and folds the records in. -/
theorem appendAll_end (file : Bytes) (h : LogHandle ι) (hc : h.cursor = file.length)
    (rs : List ρ) :
    (F.appendAll I file h rs).1 = file ++ rs.flatMap F.encode
      ∧ (F.appendAll I file h rs).2.index = rs.foldl I.insert h.index := by
  induction rs generalizing file h with
  | nil => simp [appendAll]
  | cons r rs ih =>
    have hfile : writeAt file h.cursor (F.encode r) = file ++ F.encode r := writeAt_end _ hc
    obtain ⟨ih1, ih2⟩ := ih (file ++ F.encode r)
      ⟨I.insert h.index r, h.len + F.recLen, h.cursor + F.recLen⟩
      (by simp [hc, F.length_encode])
    have hstep : F.appendAll I file h (r :: rs) = F.appendAll I (file ++ F.encode r)
        ⟨I.insert h.index r, h.len + F.recLen, h.cursor + F.recLen⟩ rs := by
      simp only [appendAll, foldl_cons, append, hfile]
    rw [hstep, ih1, ih2]
    simp

/-! ### A file and a handle in step -/

/-- The file is the header and the records, and the handle has read or written all of it. -/
structure InStep (F : RecordFormat ρ ε) (I : Indexing ρ ι) (file : Option Bytes)
    (h : LogHandle ι) (rs : List ρ) : Prop where
  file : file = some (F.header ++ rs.flatMap F.encode)
  index : h.index = I.fold rs
  len : h.len = (F.header ++ rs.flatMap F.encode).length
  cursor : h.cursor = h.len

namespace InStep

variable {file : Option Bytes} {h : LogHandle ι} {rs : List ρ}

/-- Opening a fresh log, or one that another handle left in step. -/
theorem openLog_none : ∃ file h, F.openLog I none = .ok (file, h) ∧ InStep F I (some file) h [] := by
  refine ⟨_, _, rfl, ?_, rfl, ?_, rfl⟩
  · simp
  · simp

theorem openLog (hs : InStep F I file h rs) :
    ∃ file' h', F.openLog I file = .ok (file', h') ∧ InStep F I (some file') h' rs := by
  have hopen := openLog_reads (I := I) (reads_encode (F := F) rs) (length_nil_lt (F := F))
  rw [append_nil, ← hs.file] at hopen
  exact ⟨_, _, hopen, rfl, rfl, rfl, rfl⟩

theorem append (hs : InStep F I file h rs) (r : ρ) :
    InStep F I (some (F.append I (file.getD []) h r).1) (F.append I (file.getD []) h r).2
      (rs ++ [r]) := by
  have hend : writeAt (file.getD []) h.cursor (F.encode r)
      = F.header ++ (rs ++ [r]).flatMap F.encode := by
    rw [hs.file, Option.getD_some, writeAt_end _ (hs.cursor.trans hs.len)]
    simp
  refine ⟨congrArg some hend, ?_, ?_, ?_⟩
  · simp [RecordFormat.append, hs.index]
  · simp only [RecordFormat.append, hs.len, flatMap_append, flatMap_singleton,
      length_append, F.length_encode]
    omega
  · simp only [RecordFormat.append, hs.cursor]

/-- There is nothing to catch up on. -/
theorem syncFromDisk (hs : InStep F I file h rs) :
    F.syncFromDisk I (file.getD []) h = (file.getD [], h, none) := by
  rw [RecordFormat.syncFromDisk, if_pos]
  rw [hs.file, Option.getD_some, hs.len]

end InStep

end RecordFormat

end Alt.Library
