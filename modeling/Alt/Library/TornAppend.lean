import Alt.Library.RecordLog

namespace Alt.Library

open List

/-!
# Library — what a failed append leaves behind in a record log

A log of fixed-size records whose append writes at the file cursor and repairs nothing
when the write fails.  `Reached` are the states of a handle that stands at the end of its
file, `Sound` is their invariant, and `Untried` says that a failed append may as well not
have been tried: however the handle goes on appending, the log opens again, and to the
records that were in it and the later ones.

`untried_iff` decides it: the write must have left no byte behind, or the whole record
when folding it in changes nothing.  A proper prefix is never harmless, since the next
record lands behind it and the walk reads the two records out of step.
-/

namespace RecordFormat

variable {ρ ε ι : Type} (F : RecordFormat ρ ε) (I : Indexing ρ ι)

/-- The file is a header and the records `rs`, each of them valid. -/
def Holds (file : Bytes) (rs : List ρ) : Prop :=
  ∃ body, file = F.header ++ body ∧ F.Reads body rs

/-- After the failed append of `r` (cut after `k` bytes) the handle appends `later`; the
    log then opens, and to exactly the records `rs` it held and the later ones. -/
def Untried (file : Bytes) (h : LogHandle ι) (rs : List ρ) (r : ρ) (k : Nat) : Prop :=
  ∀ later : List ρ, ∃ file' h',
    F.openLog I (some (F.appendAll I (F.appendTorn file h r k).1
      (F.appendTorn file h r k).2 later).1) = .ok (file', h') ∧
    h'.index = I.fold (rs ++ later)

/-- The states of a handle and its file: opened from any file; grown by appends and by
    catching up on records another writer appended; cut back to a record boundary with
    whatever index the handle keeps; left by a failed append that wrote nothing or all. -/
inductive Reached : Bytes → LogHandle ι → Prop
  | opened {existing : Option Bytes} {file : Bytes} {h : LogHandle ι} :
      F.openLog I existing = .ok (file, h) → Reached file h
  | appended {file : Bytes} {h : LogHandle ι} (r : ρ) :
      Reached file h → Reached (F.append I file h r).1 (F.append I file h r).2
  | caughtUp {file body : Bytes} {h : LogHandle ι} {rs : List ρ} :
      Reached file h → F.Reads body rs →
      Reached (F.syncFromDisk I (file ++ body) h).1 (F.syncFromDisk I (file ++ body) h).2.1
  | rewound {file : Bytes} {h : LogHandle ι} (index : ι) {target : Nat} :
      Reached file h → F.headerLen ≤ target → target ≤ h.len →
      F.recLen ∣ h.len - target → Reached (setLen file target) ⟨index, target, target⟩
  | failed {file : Bytes} {h : LogHandle ι} (r : ρ) {k : Nat} :
      Reached file h → k = 0 ∨ k = F.recLen →
      Reached (F.appendTorn file h r k).1 (F.appendTorn file h r k).2

/-- A handle at the end of a file of valid records, its own length at a record boundary. -/
structure Sound (file : Bytes) (h : LogHandle ι) : Prop where
  holds : ∃ rs, F.Holds file rs
  atEnd : h.cursor = file.length
  aligned : ∃ m, h.len = F.headerLen + F.recLen * m
  len_le : h.len ≤ file.length

variable {F I}

/-! ### Files of valid records -/

variable {body : Bytes} {rs : List ρ}

/-- A body of valid records splits at every record boundary. -/
theorem Reads.split (h : F.Reads body rs) {m : Nat} (hm : F.recLen * m ≤ body.length) :
    F.Reads (body.take (F.recLen * m)) (rs.take m) ∧
      F.Reads (body.drop (F.recLen * m)) (rs.drop m) := by
  induction h generalizing m with
  | nil => simpa using Reads.nil
  | @cons b body r rs hl hc hp hreads ih =>
    cases m with
    | zero => simpa using ⟨Reads.nil, Reads.cons hl hc hp hreads⟩
    | succ m =>
      have hcut : F.recLen * (m + 1) = b.length + F.recLen * m := by rw [hl]; ring
      have hle : F.recLen * m ≤ body.length := by
        rw [hcut, length_append] at hm; omega
      obtain ⟨h1, h2⟩ := ih hle
      rw [hcut, take_length_add_append, drop_length_add_append]
      exact ⟨.cons hl hc hp h1, h2⟩

variable {file : Bytes}

theorem Holds.append {rs' : List ρ} (h : F.Holds file rs) (h' : F.Reads body rs') :
    F.Holds (file ++ body) (rs ++ rs') := by
  obtain ⟨front, rfl, hreads⟩ := h
  exact ⟨front ++ body, by rw [append_assoc], hreads.append h'⟩

/-- A file of valid records cut at a record boundary: the records before the cut stay, and
    those behind it are what a reader standing there would read. -/
theorem Holds.split (h : F.Holds file rs) {m : Nat}
    (hm : F.headerLen + F.recLen * m ≤ file.length) :
    F.Holds (file.take (F.headerLen + F.recLen * m)) (rs.take m) ∧
      F.Reads (file.drop (F.headerLen + F.recLen * m)) (rs.drop m) := by
  obtain ⟨body, rfl, hreads⟩ := h
  rw [length_append, FileHeader.length_header, Nat.add_le_add_iff_left] at hm
  obtain ⟨h1, h2⟩ := hreads.split hm
  rw [← F.length_header, take_length_add_append, drop_length_add_append]
  exact ⟨⟨_, rfl, h1⟩, h2⟩

/-- A file that holds records opens to their index. -/
theorem openLog_holds (h : F.Holds file rs) :
    F.openLog I (some file) = .ok (file, ⟨I.fold rs, file.length, file.length⟩) := by
  obtain ⟨body, rfl, hreads⟩ := h
  have hopen := openLog_reads (I := I) hreads length_nil_lt
  rwa [append_nil] at hopen

/-! ### Soundness of every reached state -/

variable {h : LogHandle ι}

/-- What opens is left as a file of valid records, with the handle at its end. -/
theorem sound_of_openLog {existing : Option Bytes} (hopen : F.openLog I existing = .ok (file, h)) :
    F.Sound file h := by
  have hfresh : ∀ index : ι, F.Sound F.header ⟨index, F.headerLen, F.headerLen⟩ := fun index =>
    { holds := ⟨[], [], by simp, .nil⟩
      atEnd := by simp
      aligned := ⟨0, by simp⟩
      len_le := by simp }
  cases existing with
  | none =>
    simp only [openLog_none, Except.ok.injEq, Prod.mk.injEq] at hopen
    obtain ⟨rfl, rfl⟩ := hopen
    exact hfresh _
  | some data =>
    simp only [openLog] at hopen
    cases hcheck : F.checkHeader data with
    | error e => simp [hcheck, bind, Except.bind] at hopen
    | ok _ =>
      simp only [hcheck, bind, Except.bind] at hopen
      generalize hw : F.walk true (data.drop (min F.headerLen data.length)).length
        (data.drop (min F.headerLen data.length)) = walked at hopen
      obtain ⟨rs, n, error⟩ := walked
      cases error with
      | some e => simp at hopen
      | none =>
        obtain ⟨body, torn, hdata, hreads, hn⟩ := walk_sound hw
        simp only at hopen
        split at hopen
        · simp only [Except.ok.injEq, Prod.mk.injEq] at hopen
          obtain ⟨rfl, rfl⟩ := hopen
          exact hfresh _
        · rename_i hlong
          simp only [Except.ok.injEq, Prod.mk.injEq] at hopen
          obtain ⟨rfl, rfl⟩ := hopen
          have hle : F.headerLen ≤ data.length := by
            by_contra hcon
            have := congrArg List.length hdata
            simp only [length_drop, length_append] at this
            omega
          have hmin : min F.headerLen data.length = F.headerLen := Nat.min_eq_left hle
          rw [hmin] at hdata ⊢
          have hsplit : data = F.header ++ body ++ torn := by
            rw [← FileHeader.take_header_of_checkHeader hcheck hle, append_assoc, ← hdata,
              take_append_drop]
          have hend : F.headerLen + n = (F.header ++ body).length := by
            rw [length_append, FileHeader.length_header, hn]
          have hfile : setLen data (F.headerLen + n) = F.header ++ body := by
            rw [hend, hsplit, setLen_append]
          rw [hfile]
          exact
            { holds := ⟨rs, body, rfl, hreads⟩
              atEnd := hend
              aligned := ⟨rs.length, by simp only [← hn, hreads.length]⟩
              len_le := hend.le }

theorem Sound.append (hs : F.Sound file h) (r : ρ) :
    F.Sound (F.append I file h r).1 (F.append I file h r).2 := by
  obtain ⟨rs, hrs⟩ := hs.holds
  obtain ⟨m, hm⟩ := hs.aligned
  have hfile : (F.append I file h r).1 = file ++ F.encode r := writeAt_end _ hs.atEnd
  have hlen : (F.append I file h r).1.length = file.length + F.recLen := by
    rw [hfile, length_append, F.length_encode]
  exact
    { holds := ⟨rs ++ [r], hfile ▸ hrs.append (reads_encode_one r)⟩
      atEnd := by rw [hlen, ← hs.atEnd]; rfl
      aligned := ⟨m + 1, by simp only [RecordFormat.append, hm]; ring⟩
      len_le := by rw [hlen]; exact Nat.add_le_add_right hs.len_le _ }

variable {k : Nat}

/-- A failed append that wrote nothing or everything leaves a file of valid records. -/
theorem Sound.appendTorn (hs : F.Sound file h) (r : ρ) (hk : k = 0 ∨ k = F.recLen) :
    F.Sound (F.appendTorn file h r k).1 (F.appendTorn file h r k).2 := by
  rcases hk with rfl | rfl
  · simpa [RecordFormat.appendTorn] using hs
  · have htake : (F.encode r).take F.recLen = F.encode r :=
      take_of_length_le (by rw [F.length_encode])
    have happ := hs.append (I := ⟨h.index, fun i _ => i⟩) r
    rw [RecordFormat.appendTorn, htake]
    exact
      { happ with
        aligned := hs.aligned
        len_le := Nat.le_trans (Nat.le_add_right _ _) happ.len_le }

/-- Catching up leaves the handle at the end of the file. -/
theorem Sound.caughtUp {rs' : List ρ} (hs : F.Sound file h) (hr : F.Reads body rs') :
    F.Sound (F.syncFromDisk I (file ++ body) h).1 (F.syncFromDisk I (file ++ body) h).2.1 := by
  obtain ⟨rs, hrs⟩ := hs.holds
  obtain ⟨m, hm⟩ := hs.aligned
  have hle := hs.len_le
  have hholds : F.Holds (file ++ body) (rs ++ rs') := hrs.append hr
  have hlen : F.headerLen + F.recLen * m ≤ (file ++ body).length := by
    rw [length_append]; omega
  rw [syncFromDisk]
  split
  · rename_i hsize
    have hb : body = [] := by
      rw [length_append] at hsize
      exact length_eq_zero_iff.mp (by omega)
    subst hb
    simpa using hs
  · obtain ⟨-, htail⟩ := hholds.split hlen
    have hwalk := walk_reads_short htail length_nil_lt false
    have hnew : F.headerLen + F.recLen * m
        + ((file ++ body).drop (F.headerLen + F.recLen * m)).length = (file ++ body).length := by
      rw [length_drop]; omega
    rw [append_nil] at hwalk
    simp only [hm, hwalk, hnew, setLen_length]
    exact
      { holds := ⟨_, hholds⟩
        atEnd := rfl
        aligned := ⟨m + ((rs ++ rs').drop m).length, by
          simp only
          rw [← hnew, htail.length]
          ring⟩
        len_le := le_rfl }

theorem Sound.rewound (hs : F.Sound file h) (index : ι) {target : Nat}
    (hlow : F.headerLen ≤ target) (hhigh : target ≤ h.len) (hdvd : F.recLen ∣ h.len - target) :
    F.Sound (setLen file target) ⟨index, target, target⟩ := by
  obtain ⟨rs, hrs⟩ := hs.holds
  obtain ⟨m, hm⟩ := hs.aligned
  obtain ⟨d, hd⟩ := hdvd
  have htarget : target = F.headerLen + F.recLen * (m - d) := by
    rw [Nat.mul_sub]; omega
  have hle : target ≤ file.length := Nat.le_trans hhigh hs.len_le
  have hcut := (hrs.split (htarget ▸ hle)).1
  exact
    { holds := ⟨_, by rw [setLen_le hle, htarget]; exact hcut⟩
      atEnd := by simp
      aligned := ⟨_, htarget⟩
      len_le := by simp }

/-- **Every state a handle reaches is sound.** -/
theorem Reached.sound (hr : F.Reached I file h) :
    F.Sound file h := by
  induction hr with
  | opened hopen => exact sound_of_openLog hopen
  | appended r _ ih => exact ih.append r
  | caughtUp _ hreads ih => exact ih.caughtUp hreads
  | rewound index _ hlow hhigh hdvd ih => exact ih.rewound index hlow hhigh hdvd
  | failed r _ hk ih => exact ih.appendTorn r hk

/-! ### The file after a failed append and what is appended behind it -/

theorem appendAll_appendTorn (hc : h.cursor = file.length) (r : ρ) (hk : k ≤ F.recLen)
    (later : List ρ) :
    (F.appendAll I (F.appendTorn file h r k).1 (F.appendTorn file h r k).2 later).1
      = file ++ (F.encode r).take k ++ later.flatMap F.encode := by
  have hfile : (F.appendTorn file h r k).1 = file ++ (F.encode r).take k := writeAt_end _ hc
  have hcur : (F.appendTorn file h r k).2.cursor = (F.appendTorn file h r k).1.length := by
    rw [hfile, length_append, length_take, F.length_encode, Nat.min_eq_left hk, ← hc]
    rfl
  obtain ⟨h1, -⟩ := appendAll_end (F := F) (I := I) _ _ hcur later
  rw [h1, hfile]

/-- A write that failed before its first byte changes nothing. -/
theorem untried_zero (hs : F.Sound file h) (hrs : F.Holds file rs) (r : ρ) :
    F.Untried I file h rs r 0 := by
  intro later
  have hopen := openLog_holds (I := I) (hrs.append (reads_encode later))
  rw [appendAll_appendTorn hs.atEnd r (Nat.zero_le _), take_zero, append_nil]
  exact ⟨_, _, hopen, rfl⟩

/-- A whole record whose append failed all the same is harmless exactly when folding it in
    changes nothing. -/
theorem untried_full_iff (hs : F.Sound file h) (hrs : F.Holds file rs) (r : ρ) :
    F.Untried I file h rs r F.recLen ↔ I.insert (I.fold rs) r = I.fold rs := by
  have htake : (F.encode r).take F.recLen = F.encode r :=
    take_of_length_le (by rw [F.length_encode])
  have hopen : ∀ later : List ρ, ∃ file',
      F.openLog I (some (F.appendAll I (F.appendTorn file h r F.recLen).1
        (F.appendTorn file h r F.recLen).2 later).1)
      = .ok (file', ⟨later.foldl I.insert (I.insert (I.fold rs) r), file'.length,
          file'.length⟩) := by
    intro later
    have h1 := (hrs.append (reads_encode_one r)).append (reads_encode later)
    rw [appendAll_appendTorn hs.atEnd r le_rfl, htake, openLog_holds h1]
    exact ⟨file ++ F.encode r ++ later.flatMap F.encode, by simp⟩
  constructor
  · intro hu
    obtain ⟨file', h', ho, hi⟩ := hu []
    obtain ⟨file'', ho'⟩ := hopen []
    rw [ho', Except.ok.injEq, Prod.mk.injEq] at ho
    rw [← ho.2] at hi
    simpa using hi
  · intro hsame later
    obtain ⟨file', ho⟩ := hopen later
    exact ⟨_, _, ho, by simp [hsame]⟩

/-- What the walk reads first behind a prefix of `r`: the prefix and the head of the next
    record. -/
def splice (F : RecordFormat ρ ε) (r r' : ρ) (k : Nat) : Bytes :=
  (F.encode r).take k ++ (F.encode r').take (F.recLen - k)

theorem length_splice (r r' : ρ) (hk : k ≤ F.recLen) :
    (F.splice r r' k).length = F.recLen := by
  simp only [splice, length_append, length_take, F.length_encode]
  omega

/-- The spliced record starts with the first byte of the torn one. -/
theorem head_splice (r r' : ρ) (h0 : 0 < k) :
    (F.splice r r' k).head? = (F.encode r).head? := by
  have hpos : 0 < (F.encode r).length := F.length_encode r ▸ F.recLen_pos
  obtain ⟨x, b, hb⟩ := exists_cons_of_ne_nil (ne_nil_of_length_pos hpos)
  obtain ⟨k, rfl⟩ := Nat.exists_eq_add_one.mpr h0
  rw [splice, hb]
  rfl

/-- **Out of step.** After a proper prefix, the log can open again only by reading the
    prefix and the head of the next record as one record. -/
theorem exists_misread (hs : F.Sound file h) (hrs : F.Holds file rs) {r : ρ} (h0 : 0 < k)
    (hk : k < F.recLen) (hu : F.Untried I file h rs r k) (r' : ρ) :
    ∃ x, F.parse (F.splice r r' k) = .ok x ∧
      I.insert (I.fold rs) x = I.insert (I.fold rs) r' := by
  obtain ⟨file', h', ho, hi⟩ := hu [r']
  -- the misread record and the `k` bytes left over behind it
  have hsplit : (F.encode r).take k ++ [r'].flatMap F.encode
      = F.splice r r' k ++ (F.encode r').drop (F.recLen - k) := by
    simp [splice, take_append_drop]
  have hb := length_splice (F := F) r r' (Nat.le_of_lt hk)
  have hleft : ((F.encode r').drop (F.recLen - k)).length = k := by
    simp only [length_drop, F.length_encode]
    omega
  have hne : ((F.encode r').drop (F.recLen - k)).isEmpty = false := by
    rw [isEmpty_eq_false_iff, ← length_pos_iff, hleft]
    exact h0
  obtain ⟨body, rfl, hreads⟩ := hrs
  obtain ⟨fuel, hfuel, hopen⟩ := openLog_walk (I := I) hreads
    ((F.encode r).take k ++ [r'].flatMap F.encode)
  rw [appendAll_appendTorn hs.atEnd r (Nat.le_of_lt hk), append_assoc, hopen] at ho
  obtain ⟨fuel, rfl⟩ : ∃ f, fuel = f + 1 := by
    refine Nat.exists_eq_add_one.mpr (Nat.lt_of_lt_of_le ?_ hfuel)
    rw [hsplit, length_append, hb]
    have := F.recLen_pos
    omega
  rw [hsplit, walk, takeN_append' _ _ hb] at ho
  simp only [hne, Bool.not_false, Bool.and_true, ↓reduceIte] at ho
  split at ho
  · cases ho
  · rename_i hnone
    split at hnone
    · rename_i hcheck
      cases hp : F.parse (F.splice r r' k) with
      | error e => simp [hp] at hnone
      | ok x =>
        refine ⟨x, rfl, ?_⟩
        rw [if_pos hcheck] at ho
        simp only [hp, walk_short (show ((F.encode r').drop (F.recLen - k)).length < F.recLen by
          rw [hleft]; exact hk), Except.ok.injEq, Prod.mk.injEq] at ho
        rw [← ho.2] at hi
        simpa using hi
    · simp at hnone

/-- **When a failed append is harmless.** Given that some later record is told apart from
    every misreading of it, exactly when no byte was left behind, or the whole record and
    folding it in changes nothing. -/
theorem untried_iff (hs : F.Sound file h) (hrs : F.Holds file rs) {r : ρ} (hk : k ≤ F.recLen)
    (hsep : 0 < k → ∃ r', ∀ x, F.parse (F.splice r r' k) = .ok x → I.insert (I.fold rs) x ≠ I.insert (I.fold rs) r') :
    F.Untried I file h rs r k ↔
      k = 0 ∨ (k = F.recLen ∧ I.insert (I.fold rs) r = I.fold rs) := by
  constructor
  · intro hu
    rcases Nat.eq_zero_or_pos k with h0 | h0
    · exact .inl h0
    · rcases Nat.lt_or_eq_of_le hk with hlt | heq
      · obtain ⟨r', hr'⟩ := hsep h0
        obtain ⟨x, hp, hx⟩ := exists_misread hs hrs h0 hlt hu r'
        exact absurd hx (hr' x hp)
      · subst heq
        exact .inr ⟨rfl, (untried_full_iff hs hrs r).mp hu⟩
  · rintro (rfl | ⟨rfl, hsame⟩)
    · exact untried_zero hs hrs r
    · exact (untried_full_iff hs hrs r).mpr hsame

end RecordFormat

end Alt.Library
