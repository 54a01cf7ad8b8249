import Alt.Library.Triple
import Alt.Merge.Diff3
import Alt.Repo.History

namespace Alt.Repo

open Alt.Library Alt.Odb Alt.Merge

/-!
# Merging two trees over their base (`native/merge.rs`, 107–209)

Each path of the three trees is resolved on its own: a side that did not change gives way to the
other, and when both changed, two files are merged as texts or the path is left in conflict.

* `Resolves` — what one path is resolved to, as a relation on its three sides;
* `mergeTrees_spec` — what the engine returns when what it reads is there: every path, resolved;
* `mergeable_of_ok` — what it read, when it returned.
-/

/-! ### Resolving one path -/

/-- One path's merge resolution. -/
structure Resolved where
  path : Bytes
  /-- The clean result (`none` = deleted); nothing when conflicted. -/
  entry : Option WorkEntry
  conflicted : Bool
  /-- Bytes for the working tree on conflict. -/
  worktree : Option Bytes
  /-- Unmerged index entries of a conflict. -/
  stages : List (Nat × WorkEntry)
  deriving DecidableEq

def Resolved.clean (path : Bytes) (entry : Option WorkEntry) : Resolved :=
  ⟨path, entry, false, none, []⟩

/-- The sides that are there, with their stages. -/
def stagesOf (bo ao tho : Option WorkEntry) : List (Nat × WorkEntry) :=
  (bo.map (1, ·)).toList ++ (ao.map (2, ·)).toList ++ (tho.map (3, ·)).toList

def makeConflict (path : Bytes) (bo ao tho : Option WorkEntry) (bytes : Bytes) : Resolved :=
  ⟨path, none, true, some bytes, stagesOf bo ao tho⟩

/-- Both sides lack the path, or have it alike. -/
def same (x y : Option WorkEntry) : Bool :=
  match x, y with
  | none, none => true
  | some p, some q => p.oid == q.oid && p.mode == q.mode
  | _, _ => false

/-- A NUL in the first 8000 bytes. -/
def isBinary (data : Bytes) : Bool := (data.take 8000).any fun b => b == 0

/-- Two files are not merged as texts when their modes differ or one is binary. -/
def unmergeable (a t : WorkEntry) (base ours theirs : Bytes) : Bool :=
  a.mode != t.mode || isBinary base || isBinary ours || isBinary theirs

section Engine

variable (P : Prims) (algo : HashAlgo) (theirLabel : String)

/-- Merges two files that both changed. -/
def mergeFiles (path : Bytes) (bo : Option WorkEntry) (a t : WorkEntry) : OdbM Resolved := do
  let objects ← get
  let base ← fromExcept (bo.elim (.ok []) fun b => blobBytes objects b.oid)
  let ours ← fromExcept (blobBytes objects a.oid)
  let theirs ← fromExcept (blobBytes objects t.oid)
  if unmergeable a t base ours theirs then
    return makeConflict path bo (some a) (some t) ours
  else
    match merge base ours theirs ⟨"HEAD", theirLabel⟩ with
    | none => throw .panic
    | some m =>
      if m.isClean then
        let oid ← store P algo .blob m.content
        return .clean path (some ⟨path, oid, a.mode⟩)
      else return makeConflict path bo (some a) (some t) m.content

/-- Resolves one path's three-way state into a clean entry or a conflict. -/
def resolvePath (path : Bytes) (bo ao tho : Option WorkEntry) : OdbM Resolved :=
  if same ao tho then return .clean path ao
  else if same ao bo then return .clean path tho
  else if same tho bo then return .clean path ao
  else
    match ao, tho with
    | some a, some t => mergeFiles P algo theirLabel path bo a t
    | some a, none => do
      let bytes ← fromExcept (blobBytes (← get) a.oid)
      return makeConflict path bo ao tho bytes
    | none, some t => do
      let bytes ← fromExcept (blobBytes (← get) t.oid)
      return makeConflict path bo ao tho bytes
    | none, none => throw .panic

/-- The entry a map built from the list has for a path: the last one. -/
def entryAt (es : List WorkEntry) (path : Bytes) : Option WorkEntry :=
  (es.filter fun e => e.path = path).getLast?

/-- The paths of the three trees, in order. -/
def pathsOf (base ours theirs : List WorkEntry) : List Bytes :=
  ((base ++ ours ++ theirs).map WorkEntry.path).dedup.insertionSort fun a b => (compare a b).isLE

/-- Three-way merges two trees over their common base, path by path. -/
def mergeTrees (base ours theirs : List WorkEntry) : OdbM (List Resolved) :=
  (pathsOf base ours theirs).mapM fun path =>
    resolvePath P algo theirLabel path (entryAt base path) (entryAt ours path) (entryAt theirs path)

end Engine

/-! ### What the engine reads and returns -/

/-- Both sides changed the path, each its own way. -/
def Diverged (bo ao tho : Option WorkEntry) : Prop :=
  same ao tho = false ∧ same ao bo = false ∧ same tho bo = false

instance (bo ao tho : Option WorkEntry) : Decidable (Diverged bo ao tho) :=
  inferInstanceAs (Decidable (_ ∧ _ ∧ _))

/-- The entries whose content a resolution reads. -/
def readsOf (bo ao tho : Option WorkEntry) : List WorkEntry :=
  if Diverged bo ao tho then
    -- a deleted file is not merged, and its base is not looked at
    (if ao.isSome && tho.isSome then bo.toList else []) ++ ao.toList ++ tho.toList
  else []

/-- The bytes of a blob; nothing for an entry that is not there. -/
def contentOf (objects : Objects) (e : Option WorkEntry) : Bytes :=
  ((e.bind fun e => objects e.oid).map RawObject.data).getD []

/-- Two sides that are merged as texts. -/
def TextMerged (objects : Objects) (bo : Option WorkEntry) (a t : WorkEntry) : Prop :=
  Diverged bo (some a) (some t) ∧
    unmergeable a t (contentOf objects bo) (contentOf objects (some a))
      (contentOf objects (some t)) = false

/-- The merge of two files as texts. -/
def textMerge (objects : Objects) (theirLabel : String) (bo : Option WorkEntry) (a t : WorkEntry) :
    Option Merge :=
  merge (contentOf objects bo) (contentOf objects (some a)) (contentOf objects (some t))
    ⟨"HEAD", theirLabel⟩

/-- The bytes a conflict leaves in the working tree. -/
def conflictBytes (objects : Objects) (theirLabel : String) (bo ao tho : Option WorkEntry) : Bytes :=
  match ao, tho with
  | some a, some t =>
    if unmergeable a t (contentOf objects bo) (contentOf objects (some a))
        (contentOf objects (some t)) then contentOf objects (some a)
    else ((textMerge objects theirLabel bo a t).map Merge.content).getD []
  | some a, none => contentOf objects (some a)
  | none, tho => contentOf objects tho

/-- **What a path is resolved to.** -/
inductive Resolves (P : Prims) (algo : HashAlgo) (objects : Objects) (theirLabel : String)
    (path : Bytes) (bo ao tho : Option WorkEntry) : Resolved → Prop
  | agreed : same ao tho = true →
      Resolves P algo objects theirLabel path bo ao tho (.clean path ao)
  | theirs : same ao tho = false → same ao bo = true →
      Resolves P algo objects theirLabel path bo ao tho (.clean path tho)
  | ours : same ao tho = false → same ao bo = false → same tho bo = true →
      Resolves P algo objects theirLabel path bo ao tho (.clean path ao)
  | merged (a t : WorkEntry) (m : Merge) : ao = some a → tho = some t →
      TextMerged objects bo a t → textMerge objects theirLabel bo a t = some m →
      m.isClean = true →
      Resolves P algo objects theirLabel path bo ao tho
        (.clean path (some ⟨path, ObjectId.hashObject P algo .blob m.content, a.mode⟩))
  | conflict : Diverged bo ao tho →
      (∀ a t, ao = some a → tho = some t → TextMerged objects bo a t →
        ∃ m, textMerge objects theirLabel bo a t = some m ∧ m.isClean = false) →
      Resolves P algo objects theirLabel path bo ao tho
        (makeConflict path bo ao tho (conflictBytes objects theirLabel bo ao tho))

/-- Objects with blobs added to them. -/
structure AddsBlobs (P : Prims) (algo : HashAlgo) (objects objects' : Objects) : Prop where
  within : Within objects objects'
  blobs : ∀ id, objects id = none → objects' id ≠ none →
    ∃ data, id = ObjectId.hashObject P algo .blob data

section Spec

variable {P : Prims} {algo : HashAlgo} {objects objects' : Objects} {theirLabel : String}
  {path : Bytes} {bo ao tho : Option WorkEntry}

theorem AddsBlobs.refl : AddsBlobs P algo objects objects :=
  ⟨.refl objects, fun _ hnone hsome => absurd hnone hsome⟩

theorem AddsBlobs.trans {objects'' : Objects} (h : AddsBlobs P algo objects objects')
    (h' : AddsBlobs P algo objects' objects'') : AddsBlobs P algo objects objects'' := by
  refine ⟨h.within.trans h'.within, fun id hnone hsome => ?_⟩
  by_cases hid : objects' id = none
  · exact h'.blobs id hid hsome
  · exact h.blobs id hnone hid

/-- Storing an object never fails, and adds it under the id it hashes to. -/
theorem store_eq (kind : ObjectKind) (data : Bytes) :
    ∃ objects', store P algo kind data objects =
        .ok (ObjectId.hashObject P algo kind data) objects' ∧ Within objects objects' ∧
      ∀ id, objects id = none → objects' id ≠ none → id = ObjectId.hashObject P algo kind data := by
  have halgo : (ObjectId.hashObject P algo kind data).algo = algo := by
    cases algo <;> rfl
  simp only [store, Objects.put]
  by_cases hstored : (objects (ObjectId.hashObject P algo kind data)).isSome
  · rw [if_pos hstored]
    exact ⟨objects, rfl, .refl objects, fun _ hnone hsome => absurd hnone hsome⟩
  · rw [if_neg hstored, halgo, if_neg (by simp)]
    refine ⟨_, rfl, ?_, fun id hnone hsome => ?_⟩
    · intro id object hid
      have hne : id ≠ ObjectId.hashObject P algo kind data := by
        rintro rfl
        rw [hid] at hstored
        exact hstored rfl
      rwa [Function.update_of_ne hne]
    · by_contra hne
      rw [Function.update_of_ne hne] at hsome
      exact hsome hnone

theorem blobBytes_eq {e : WorkEntry} (h : (objects e.oid).isSome) :
    blobBytes objects e.oid = .ok (contentOf objects (some e)) := by
  obtain ⟨obj, hobj⟩ := Option.isSome_iff_exists.mp h
  simp [blobBytes, contentOf, hobj]

theorem blobBytes_missing {e : WorkEntry} (h : ¬(objects e.oid).isSome) :
    blobBytes objects e.oid = .error (.message "object missing from store") := by
  rw [Option.not_isSome_iff_eq_none] at h
  simp [blobBytes, h]

/-- Merging two files that are stored. -/
theorem mergeFiles_eq {a t : WorkEntry} (hb : ∀ b ∈ bo, (objects b.oid).isSome)
    (ha : (objects a.oid).isSome) (ht : (objects t.oid).isSome) :
    mergeFiles P algo theirLabel path bo a t objects =
      if unmergeable a t (contentOf objects bo) (contentOf objects (some a))
          (contentOf objects (some t)) then
        .ok (makeConflict path bo (some a) (some t) (contentOf objects (some a))) objects
      else
        match textMerge objects theirLabel bo a t with
        | none => .error .panic objects
        | some m =>
          if m.isClean then
            match store P algo .blob m.content objects with
            | .ok oid objects' => .ok (.clean path (some ⟨path, oid, a.mode⟩)) objects'
            | .error e objects' => .error e objects'
          else .ok (makeConflict path bo (some a) (some t) m.content) objects := by
  have hbase : (bo.elim (.ok []) fun b => blobBytes objects b.oid) =
      (.ok (contentOf objects bo) : Res Bytes) := by
    cases bo with
    | none => rfl
    | some b => exact blobBytes_eq (hb b rfl)
  simp only [mergeFiles, bind, EStateM.bind, get, getThe, MonadStateOf.get, EStateM.get, hbase,
    blobBytes_eq ha, blobBytes_eq ht, fromExcept, textMerge]
  split
  · rfl
  · cases merge (contentOf objects bo) (contentOf objects (some a)) (contentOf objects (some t))
      ⟨"HEAD", theirLabel⟩ with
    | none => rfl
    | some m =>
      dsimp only
      split
      · simp only [EStateM.bind]
        cases store P algo .blob m.content objects <;> rfl
      · rfl

/-- Merging two files one of which is missing, or whose base is. -/
theorem mergeFiles_missing {a t e : WorkEntry} (he : e ∈ bo.toList ++ [a, t])
    (hmissing : ¬(objects e.oid).isSome) :
    ∃ err, mergeFiles P algo theirLabel path bo a t objects = .error err objects := by
  simp only [mergeFiles, bind, EStateM.bind, get, getThe, MonadStateOf.get, EStateM.get]
  cases hbase : (bo.elim (.ok []) fun b => blobBytes objects b.oid : Res Bytes) with
  | error err => exact ⟨err, rfl⟩
  | ok base =>
    simp only [fromExcept]
    cases hours : blobBytes objects a.oid with
    | error err => exact ⟨err, rfl⟩
    | ok ours =>
      cases htheirs : blobBytes objects t.oid with
      | error err => exact ⟨err, rfl⟩
      | ok theirs =>
        have hread := blobBytes_missing hmissing
        rcases List.mem_append.mp he with hb | hside
        · rw [Option.mem_toList.mp hb, Option.elim_some, hread] at hbase
          cases hbase
        · simp only [List.mem_cons, List.not_mem_nil, or_false] at hside
          rcases hside with rfl | rfl
          · rw [hread] at hours
            cases hours
          · rw [hread] at htheirs
            cases htheirs

/-- **A path whose blobs are stored is resolved**, unless the text merge panics. -/
theorem resolvePath_stored (hreads : ∀ e ∈ readsOf bo ao tho, (objects e.oid).isSome)
    (hmerge : ∀ a t, ao = some a → tho = some t → TextMerged objects bo a t →
      textMerge objects theirLabel bo a t ≠ none) :
    ∃ r objects', resolvePath P algo theirLabel path bo ao tho objects = .ok r objects' ∧
      AddsBlobs P algo objects objects' ∧ Resolves P algo objects theirLabel path bo ao tho r := by
  rw [resolvePath.eq_def]
  split
  · exact ⟨_, objects, rfl, .refl, .agreed ‹_›⟩
  · rename_i hagree
    split
    · exact ⟨_, objects, rfl, .refl, .theirs (by simpa using hagree) ‹_›⟩
    · rename_i hours
      split
      · exact ⟨_, objects, rfl, .refl, .ours (by simpa using hagree) (by simpa using hours) ‹_›⟩
      · rename_i htheirs
        have hdiverged : Diverged bo ao tho :=
          ⟨by simpa using hagree, by simpa using hours, by simpa using htheirs⟩
        rw [readsOf, if_pos hdiverged] at hreads
        cases ao with
        | none =>
          cases tho with
          | none => exact absurd rfl hagree
          | some t =>
            have hread := blobBytes_eq (hreads t (by simp))
            refine ⟨_, objects, ?_, .refl, .conflict hdiverged fun a _ ha => by cases ha⟩
            simp only [bind, EStateM.bind, get, getThe, MonadStateOf.get, EStateM.get, hread,
              fromExcept]
            rfl
        | some a =>
          cases tho with
          | none =>
            have hread := blobBytes_eq (hreads a (by simp))
            refine ⟨_, objects, ?_, .refl, .conflict hdiverged fun _ t _ ht => by cases ht⟩
            simp only [bind, EStateM.bind, get, getThe, MonadStateOf.get, EStateM.get, hread,
              fromExcept]
            rfl
          | some t =>
            dsimp only
            rw [mergeFiles_eq (fun b hb => hreads b (by simp [Option.mem_def.mp hb]))
              (hreads a (by simp)) (hreads t (by simp))]
            split
            · rename_i hun
              refine ⟨_, objects, by rw [conflictBytes, if_pos hun], .refl,
                .conflict hdiverged fun a' t' ha ht htext => ?_⟩
              cases ha
              cases ht
              rw [htext.2] at hun
              cases hun
            · rename_i hun
              have htext : TextMerged objects bo a t := ⟨hdiverged, by simpa using hun⟩
              cases hm : textMerge objects theirLabel bo a t with
              | none => exact absurd hm (hmerge a t rfl rfl htext)
              | some m =>
                dsimp only
                split
                · rename_i hclean
                  obtain ⟨objects', hstore, hwithin, hblobs⟩ :=
                    @store_eq P algo objects .blob m.content
                  rw [hstore]
                  refine ⟨_, objects', rfl, ⟨hwithin, fun id hnone hsome =>
                    ⟨m.content, hblobs id hnone hsome⟩⟩, .merged a t m rfl rfl htext hm hclean⟩
                · rename_i hclean
                  refine ⟨_, objects, by rw [conflictBytes, if_neg hun, hm]; rfl, .refl,
                    .conflict hdiverged fun a' t' ha ht _ => ?_⟩
                  cases ha
                  cases ht
                  exact ⟨m, hm, by simpa using hclean⟩

/-- A path that is resolved had its blobs stored, and no text merge panicked. -/
theorem resolvePath_ok {r : Resolved}
    (h : resolvePath P algo theirLabel path bo ao tho objects = .ok r objects') :
    (∀ e ∈ readsOf bo ao tho, (objects e.oid).isSome) ∧
      ∀ a t, ao = some a → tho = some t → TextMerged objects bo a t →
        textMerge objects theirLabel bo a t ≠ none := by
  have hall : ∀ e ∈ readsOf bo ao tho, (objects e.oid).isSome := by
    intro e he
    by_contra hmissing
    rw [readsOf] at he
    split at he
    · rename_i hdiverged
      obtain ⟨hagree, hours, htheirs⟩ := hdiverged
      rw [resolvePath.eq_def, if_neg (by simp [hagree]), if_neg (by simp [hours]),
        if_neg (by simp [htheirs])] at h
      have hread := blobBytes_missing hmissing
      cases ao with
      | none =>
        cases tho with
        | none => simp at he
        | some t =>
          obtain rfl : e = t := by simpa using he
          simp [bind, EStateM.bind, get, getThe, MonadStateOf.get, EStateM.get, hread,
            fromExcept] at h
      | some a =>
        cases tho with
        | none =>
          obtain rfl : e = a := by simpa using he
          simp [bind, EStateM.bind, get, getThe, MonadStateOf.get, EStateM.get, hread,
            fromExcept] at h
        | some t =>
          obtain ⟨err, herr⟩ := @mergeFiles_missing P algo objects theirLabel path bo a t e
            (by simpa using he) hmissing
          dsimp only at h
          rw [herr] at h
          cases h
    · cases he
  refine ⟨hall, fun a t ha ht htext hnone => ?_⟩
  subst ha
  subst ht
  obtain ⟨hdiverged, hun⟩ := htext
  rw [readsOf, if_pos hdiverged] at hall
  obtain ⟨hagree, hours, htheirs⟩ := hdiverged
  rw [resolvePath.eq_def, if_neg (by simp [hagree]), if_neg (by simp [hours]),
    if_neg (by simp [htheirs])] at h
  dsimp only at h
  rw [mergeFiles_eq (fun b hb => hall b (by simp [Option.mem_def.mp hb])) (hall a (by simp))
    (hall t (by simp)), if_neg (by simp [hun]), hnone] at h
  cases h

/-! ### All paths -/

theorem contentOf_within (hw : Within objects objects') {e : Option WorkEntry}
    (h : ∀ w ∈ e, (objects w.oid).isSome) : contentOf objects' e = contentOf objects e := by
  cases e with
  | none => rfl
  | some w =>
    obtain ⟨obj, hobj⟩ := Option.isSome_iff_exists.mp (h w rfl)
    simp [contentOf, hobj, hw hobj]

theorem mem_readsOf (hd : Diverged bo ao tho) {w : WorkEntry}
    (h : w ∈ ao ∨ w ∈ tho ∨ (w ∈ bo ∧ ao.isSome ∧ tho.isSome)) : w ∈ readsOf bo ao tho := by
  rw [readsOf, if_pos hd]
  rcases h with ha | ht | ⟨hb, ha, ht⟩
  · exact List.mem_append_left _ (List.mem_append_right _ (Option.mem_toList.mpr ha))
  · exact List.mem_append_right _ (Option.mem_toList.mpr ht)
  · rw [ha, ht]
    exact List.mem_append_left _ (List.mem_append_left _ (Option.mem_toList.mpr hb))

/-- The same texts are merged, whatever has been stored meanwhile. -/
theorem texts_within {a t : WorkEntry} (hw : Within objects objects')
    (hreads : ∀ e ∈ readsOf bo (some a) (some t), (objects e.oid).isSome)
    (hd : Diverged bo (some a) (some t)) :
    (TextMerged objects' bo a t ↔ TextMerged objects bo a t) ∧
      textMerge objects' theirLabel bo a t = textMerge objects theirLabel bo a t := by
  have hb := contentOf_within hw fun w hmem =>
    hreads w (mem_readsOf hd (.inr (.inr ⟨hmem, rfl, rfl⟩)))
  have ha := contentOf_within hw fun w hmem => hreads w (mem_readsOf hd (.inl hmem))
  have ht := contentOf_within hw fun w hmem => hreads w (mem_readsOf hd (.inr (.inl hmem)))
  rw [TextMerged, TextMerged, textMerge, textMerge, hb, ha, ht]
  exact ⟨.rfl, rfl⟩

/-- A diverged path is resolved from the objects its blobs are stored in, whatever is added. -/
theorem Resolves.of_within (hw : Within objects objects')
    (hreads : ∀ e ∈ readsOf bo ao tho, (objects e.oid).isSome) {r : Resolved}
    (h : Resolves P algo objects' theirLabel path bo ao tho r) :
    Resolves P algo objects theirLabel path bo ao tho r := by
  have htext : ∀ a t, ao = some a → tho = some t → Diverged bo ao tho →
      (TextMerged objects' bo a t ↔ TextMerged objects bo a t) ∧
        textMerge objects' theirLabel bo a t = textMerge objects theirLabel bo a t := by
    rintro a t rfl rfl hd
    exact texts_within hw hreads hd
  cases h with
  | agreed h => exact .agreed h
  | theirs h h' => exact .theirs h h'
  | ours h h' h'' => exact .ours h h' h''
  | merged a t m ha ht hmerged hm hclean =>
    have hd : Diverged bo ao tho := by
      rw [ha, ht]
      exact hmerged.1
    obtain ⟨hiff, heq⟩ := htext a t ha ht hd
    exact .merged a t m ha ht (hiff.mp hmerged) (heq ▸ hm) hclean
  | conflict hd hnot =>
    have hbytes : conflictBytes objects' theirLabel bo ao tho =
        conflictBytes objects theirLabel bo ao tho := by
      have hao : contentOf objects' ao = contentOf objects ao :=
        contentOf_within hw fun w hmem => hreads w (mem_readsOf hd (.inl hmem))
      have htho : contentOf objects' tho = contentOf objects tho :=
        contentOf_within hw fun w hmem => hreads w (mem_readsOf hd (.inr (.inl hmem)))
      cases ao with
      | none => exact htho
      | some a =>
        cases tho with
        | none => exact hao
        | some t =>
          have hbo : contentOf objects' bo = contentOf objects bo :=
            contentOf_within hw fun w hmem =>
              hreads w (mem_readsOf hd (.inr (.inr ⟨hmem, rfl, rfl⟩)))
          simp only [conflictBytes, hbo, hao, htho, (htext a t rfl rfl hd).2]
    rw [hbytes]
    refine .conflict hd fun a t ha ht hmerged => ?_
    obtain ⟨hiff, heq⟩ := htext a t ha ht hd
    rw [← heq]
    exact hnot a t ha ht (hiff.mpr hmerged)

end Spec

/-- The content of what is read is there: the blobs are stored, and no merge writes what the
    others name. -/
def Apart (P : Prims) (algo : HashAlgo) (objects : Objects) (es : List WorkEntry) : Prop :=
  ∀ e ∈ es, (objects e.oid).isSome ∨ ∀ data, e.oid ≠ ObjectId.hashObject P algo .blob data

/-- What the engine needs of one path: its blobs, and a text merge that returns. -/
structure Mergeable (objects : Objects) (theirLabel : String) (bo ao tho : Option WorkEntry) :
    Prop where
  stored : ∀ e ∈ readsOf bo ao tho, (objects e.oid).isSome
  returns : ∀ a t, ao = some a → tho = some t → TextMerged objects bo a t →
    textMerge objects theirLabel bo a t ≠ none

section Trees

variable {P : Prims} {algo : HashAlgo} {objects objects' : Objects} {theirLabel : String}
  {base ours theirs : List WorkEntry}

theorem mem_of_entryAt {es : List WorkEntry} {path : Bytes} {e : WorkEntry}
    (h : entryAt es path = some e) : e ∈ es ∧ e.path = path := by
  have hmem := List.mem_of_getLast? h
  rw [List.mem_filter, decide_eq_true_eq] at hmem
  exact hmem

/-- What is read belongs to one of the trees. -/
theorem mem_of_readsOf {path : Bytes} {e : WorkEntry}
    (h : e ∈ readsOf (entryAt base path) (entryAt ours path) (entryAt theirs path)) :
    e ∈ base ++ ours ++ theirs := by
  rw [readsOf] at h
  split at h
  · rcases List.mem_append.mp h with h | ht
    · rcases List.mem_append.mp h with hb | ha
      · split at hb
        · exact List.mem_append_left _ (List.mem_append_left _
            (mem_of_entryAt (Option.mem_toList.mp hb)).1)
        · cases hb
      · exact List.mem_append_left _ (List.mem_append_right _
          (mem_of_entryAt (Option.mem_toList.mp ha)).1)
    · exact List.mem_append_right _ (mem_of_entryAt (Option.mem_toList.mp ht)).1
  · cases h

/-- All paths resolved, in order. -/
abbrev AllResolve (P : Prims) (algo : HashAlgo) (objects : Objects) (theirLabel : String)
    (base ours theirs : List WorkEntry) : List Bytes → List Resolved → Prop :=
  List.Forall₂ fun path => Resolves P algo objects theirLabel path (entryAt base path)
    (entryAt ours path) (entryAt theirs path)

/-- **What the engine returns**, when it needs nothing that is not there. -/
theorem mergeTrees_spec (h : ∀ path, Mergeable objects theirLabel (entryAt base path)
      (entryAt ours path) (entryAt theirs path)) :
    ∃ resolved objects', mergeTrees P algo theirLabel base ours theirs objects =
        .ok resolved objects' ∧ AddsBlobs P algo objects objects' ∧
      AllResolve P algo objects theirLabel base ours theirs (pathsOf base ours theirs)
        resolved := by
  have hloop : ∀ (paths : List Bytes) (o : Objects), AddsBlobs P algo objects o →
      ∃ resolved o', (paths.mapM fun path => resolvePath P algo theirLabel path
          (entryAt base path) (entryAt ours path) (entryAt theirs path)) o = .ok resolved o' ∧
        AddsBlobs P algo objects o' ∧
        AllResolve P algo objects theirLabel base ours theirs paths resolved := by
    intro paths
    induction paths with
    | nil =>
      intro o ho
      exact ⟨[], o, by rw [List.mapM_nil]; rfl, ho, .nil⟩
    | cons path paths ih =>
      intro o ho
      have hpath := h path
      have hstored : ∀ e ∈ readsOf (entryAt base path) (entryAt ours path) (entryAt theirs path),
          (o e.oid).isSome := fun e he => ho.within.isSome (hpath.stored e he)
      have hreturns : ∀ a t, entryAt ours path = some a → entryAt theirs path = some t →
          TextMerged o (entryAt base path) a t →
            textMerge o theirLabel (entryAt base path) a t ≠ none := by
        intro a t ha ht htext
        have hsame := hpath.stored
        rw [ha, ht] at hsame
        obtain ⟨hiff, heq⟩ := @texts_within objects o theirLabel _ a t ho.within hsame htext.1
        rw [heq]
        exact hpath.returns a t ha ht (hiff.mp htext)
      obtain ⟨r, o₁, hrun, ho₁, hr⟩ :=
        @resolvePath_stored P algo o theirLabel path _ _ _ hstored hreturns
      obtain ⟨rs, o₂, hruns, ho₂, hrs⟩ := ih o₁ (ho.trans ho₁)
      refine ⟨r :: rs, o₂, ?_, ho₂, .cons (hr.of_within ho.within hpath.stored) hrs⟩
      rw [List.mapM_cons]
      simp only [bind, EStateM.bind, hrun, hruns]
      rfl
  exact hloop _ objects .refl

/-- **What the engine needed**, when it returned. -/
theorem mergeable_of_ok (hapart : Apart P algo objects (base ++ ours ++ theirs))
    {resolved : List Resolved}
    (h : mergeTrees P algo theirLabel base ours theirs objects = .ok resolved objects') :
    ∀ path ∈ pathsOf base ours theirs, Mergeable objects theirLabel (entryAt base path)
      (entryAt ours path) (entryAt theirs path) := by
  have hone : ∀ (path : Bytes) (o o' : Objects) (r : Resolved), AddsBlobs P algo objects o →
      resolvePath P algo theirLabel path (entryAt base path) (entryAt ours path)
        (entryAt theirs path) o = .ok r o' →
      Mergeable objects theirLabel (entryAt base path) (entryAt ours path) (entryAt theirs path) ∧
        AddsBlobs P algo objects o' := by
    intro path o o' r ho hrun
    obtain ⟨hstored, hreturns⟩ := resolvePath_ok hrun
    obtain ⟨r', o'', hrun', hadds, -⟩ :=
      @resolvePath_stored P algo o theirLabel path _ _ _ hstored hreturns
    rw [hrun] at hrun'
    cases hrun'
    have hfirst : ∀ e ∈ readsOf (entryAt base path) (entryAt ours path) (entryAt theirs path),
        (objects e.oid).isSome := by
      intro e he
      rcases hapart e (mem_of_readsOf he) with hsome | hlink
      · exact hsome
      · by_contra hnone
        rw [Option.not_isSome_iff_eq_none] at hnone
        obtain ⟨data, hdata⟩ := ho.blobs e.oid hnone (Option.isSome_iff_ne_none.mp (hstored e he))
        exact hlink data hdata
    refine ⟨⟨hfirst, fun a t ha ht htext => ?_⟩, ho.trans hadds⟩
    rw [ha, ht] at hfirst
    obtain ⟨hiff, heq⟩ := @texts_within objects o theirLabel _ a t ho.within hfirst htext.1
    rw [← heq]
    exact hreturns a t ha ht (hiff.mpr htext)
  have hloop : ∀ (paths : List Bytes) (o o' : Objects) (rs : List Resolved),
      AddsBlobs P algo objects o →
      (paths.mapM fun path => resolvePath P algo theirLabel path (entryAt base path)
        (entryAt ours path) (entryAt theirs path)) o = .ok rs o' →
      ∀ path ∈ paths, Mergeable objects theirLabel (entryAt base path) (entryAt ours path)
        (entryAt theirs path) := by
    intro paths
    induction paths with
    | nil =>
      intro o o' rs _ _ path hpath
      cases hpath
    | cons first paths ih =>
      intro o o' rs ho hrun path hpath
      rw [List.mapM_cons] at hrun
      simp only [bind, EStateM.bind] at hrun
      cases hfirst : resolvePath P algo theirLabel first (entryAt base first)
          (entryAt ours first) (entryAt theirs first) o with
      | error e o₁ =>
        rw [hfirst] at hrun
        cases hrun
      | ok r o₁ =>
        rw [hfirst] at hrun
        dsimp only at hrun
        obtain ⟨hm, ho₁⟩ := hone first o o₁ r ho hfirst
        rcases List.mem_cons.mp hpath with rfl | hmem
        · exact hm
        · cases hrest : (paths.mapM fun path => resolvePath P algo theirLabel path
              (entryAt base path) (entryAt ours path) (entryAt theirs path)) o₁ with
          | error e o₂ =>
            rw [hrest] at hrun
            cases hrun
          | ok rs' o₂ => exact ih o₁ o₂ rs' ho₁ hrest path hmem
  exact hloop _ objects objects' resolved .refl h

end Trees

end Alt.Repo
