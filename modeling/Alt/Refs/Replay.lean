import Alt.Refs.Store

namespace Alt.Refs

open Alt.Library List

/-!
# Ref state as a function of the log

`replayRefs` and `recordKeys` are what folding ops is for: the ref map a list of ops leads
to, and the keys it records.  `foldOps` computes both (`foldOps_eq`), folding in pieces is
folding the whole (`replayRefs_append`, `recordKeys_append`), and whatever a log replays to
has names and targets that fit their length fields (`fits_of_replayRefs`).
-/

/-- The ref map that `ops` lead to from `refs`; `none` when one of them does not apply. -/
def replayRefs (refs : RefMap) : List Op → Option RefMap
  | [] => some refs
  | op :: ops =>
    match parseTx op.payload with
    | .error _ => none
    | .ok none => replayRefs refs ops
    | .ok (some tx) =>
      match applyChanges refs tx.changes true with
      | .error _ => none
      | .ok refs => replayRefs refs ops

/-- The key an op records, if it is a keyed transaction. -/
def opKey (op : Op) : Option IdemKey :=
  match parseTx op.payload with
  | .ok (some tx) => tx.key
  | _ => none

/-- The idempotency index after `ops`. -/
def recordKeys (byKey : ByKey) (ops : List Op) : ByKey :=
  ops.foldl (fun m op => insertKey m (opKey op) op.id) byKey

/-- The keys of a list of ops, the last op of each. -/
def keysOf (ops : List Op) : ByKey := recordKeys (fun _ => none) ops

theorem replayRefs_append (refs : RefMap) (ops ops' : List Op) :
    replayRefs refs (ops ++ ops') = (replayRefs refs ops).bind (replayRefs · ops') := by
  induction ops generalizing refs with
  | nil => rfl
  | cons op ops ih =>
    simp only [cons_append, replayRefs]
    split
    · rfl
    · exact ih refs
    · split
      · rfl
      · exact ih _

theorem recordKeys_append (byKey : ByKey) (ops ops' : List Op) :
    recordKeys byKey (ops ++ ops') = recordKeys (recordKeys byKey ops) ops' := by
  simp [recordKeys]

variable {refs refs' : RefMap} {ops : List Op}

/-- **Folding is replaying.** -/
theorem foldOps_eq (h : replayRefs refs ops = some refs') (byKey : ByKey) :
    foldOps (refs, byKey) ops = ((refs', recordKeys byKey ops), .ok ()) := by
  induction ops generalizing refs byKey with
  | nil =>
    cases h
    rfl
  | cons op ops ih =>
    rw [replayRefs] at h
    rw [foldOps]
    cases hparse : parseTx op.payload with
    | error e =>
      rw [hparse] at h
      cases h
    | ok parsed =>
      rw [hparse] at h
      cases parsed with
      | none =>
        -- an op of another kind folds to nothing and records no key
        have hkey : recordKeys byKey (op :: ops) = recordKeys byKey ops := by
          simp only [recordKeys, foldl_cons, opKey, hparse, insertKey]
        rw [hkey]
        exact ih h byKey
      | some tx =>
        have hkey : recordKeys byKey (op :: ops)
            = recordKeys (insertKey byKey tx.key op.id) ops := by
          simp only [recordKeys, foldl_cons, opKey, hparse]
        simp only at h ⊢
        cases happly : applyChanges refs tx.changes true with
        | error e =>
          rw [happly] at h
          cases h
        | ok refs1 =>
          rw [happly] at h
          rw [hkey]
          exact ih h _

/-- Folding the ops not applied yet catches the fold up with the log. -/
theorem foldNew_eq {st : Folded} (h : replayRefs ∅ (ops.take st.applied) = some st.refs)
    (h' : replayRefs ∅ ops = some refs) :
    foldNew st ops
      = (⟨refs, ops.length, recordKeys st.byKey (ops.drop st.applied)⟩, .ok ()) := by
  have hrest : replayRefs st.refs (ops.drop st.applied) = some refs := by
    have := replayRefs_append ∅ (ops.take st.applied) (ops.drop st.applied)
    rwa [take_append_drop, h, h', Option.bind_some, eq_comm] at this
  rw [foldNew, foldOps_eq hrest]

/-! ### What replays fits -/

variable {changes : List RefChange}

theorem applyChanges_ok {replaying : Bool} (h : applyChanges refs changes replaying = .ok refs') :
    refs' = changes.foldl applyChange refs := by
  rw [applyChanges] at h
  split at h
  · cases h
  · cases h
    rfl

/-- Whether a transaction applies does not depend on who asks. -/
theorem applyChanges_replaying {replaying replaying' : Bool}
    (h : applyChanges refs changes replaying = .ok refs') :
    applyChanges refs changes replaying' = .ok refs' := by
  rw [applyChanges] at h ⊢
  split at h
  · cases h
  · cases h
    rfl

theorem fits_applyChange (h : Snapshot.Fits refs) {change : RefChange} (hc : change.Fits) :
    Snapshot.Fits (applyChange refs change) := by
  intro name target hget
  rw [applyChange] at hget
  split at hget
  · rename_i new hnew
    rw [Std.ExtTreeMap.getElem?_insert] at hget
    split at hget
    · rename_i hname
      cases hget
      rw [Std.compare_eq_iff_eq] at hname
      exact ⟨hname ▸ hc.name, hnew ▸ hc.new⟩
    · exact h name target hget
  · rw [Std.ExtTreeMap.getElem?_erase] at hget
    split at hget
    · cases hget
    · exact h name target hget

theorem fits_foldl (hc : TxFits changes) (h : Snapshot.Fits refs) :
    Snapshot.Fits (changes.foldl applyChange refs) := by
  induction changes generalizing refs with
  | nil => exact h
  | cons change changes ih =>
    exact ih (fun c hmem => hc c (mem_cons_of_mem _ hmem))
      (fits_applyChange h (hc change mem_cons_self))

/-- **What replays fits.** Every name and target read from a log came through a length
    field, so the map fits the fields of a snapshot. -/
theorem fits_of_replayRefs (h0 : Snapshot.Fits refs) (h : replayRefs refs ops = some refs') :
    Snapshot.Fits refs' := by
  induction ops generalizing refs with
  | nil =>
    cases h
    exact h0
  | cons op ops ih =>
    simp only [replayRefs] at h
    split at h
    · cases h
    · exact ih h0 h
    · rename_i tx hparse
      split at h
      · cases h
      · rename_i refs1 happly
        refine ih ?_ h
        rw [applyChanges_ok happly]
        exact fits_foldl (parseTx_fits hparse) h0

theorem fits_empty : Snapshot.Fits ∅ := by
  intro name target h
  simp at h

end Alt.Refs
