import Alt.Repo.Contained
import Alt.Repo.MergeRuns

namespace Alt.Repo

open Alt.Library Alt.Odb Alt.Refs List

/-!
# Undoing a ref transaction (`native.rs`, 2698–2731)

The last op of the log is the transaction of some command, in whichever workspace; `undo` commits
its inverse and checks out what HEAD is on then.

* `refTx_eq_ok` — a transaction is taken if every gate lets it through and every old value is there;
* `inverse_restores` — the inverse, if it is taken, brings every ref back;
* `undoRefTx_refs` — `undo` brings the refs back exactly if the tree is clean, the gates let the
  inverse through and no ref was moved to two targets; otherwise the refs stay.
-/

/-! ### Gates -/

/-- Every gate of a ref transaction lets it through. -/
structure LetsThrough (env : Env) (r : NativeRepo) (changes : List RefChange) : Prop where
  writable : env.caps.readOnly = false
  force : env.caps.forbidForce = true → ensureNoForce env r.objects changes = .ok ()
  policy : policyVerdict (some (workspacePolicy env)) r.refs changes = .ok ()
  logged : env.logged r.ops = .ok ()

section

variable {env : Env} {r r₀ r₁ : NativeRepo} {changes : List RefChange} {refs refs' : RefMap}

theorem refTx_eq_ok {verb : String} : refTx env r verb changes = .ok refs ↔
    LetsThrough env r changes ∧ applyChanges r.refs changes false = .ok refs := by
  rw [refTx]
  cases hwritable : env.caps.readOnly with
  | true =>
    rw [if_pos rfl]
    exact ⟨fun h => (by cases h), fun h => by rw [h.1.writable] at hwritable; cases hwritable⟩
  | false =>
    rw [if_neg Bool.false_ne_true]
    have hforce : (if env.caps.forbidForce then ensureNoForce env r.objects changes else .ok ()) =
        .ok () ↔ (env.caps.forbidForce = true → ensureNoForce env r.objects changes = .ok ()) := by
      cases env.caps.forbidForce <;> simp
    cases hcheck : (if env.caps.forbidForce then ensureNoForce env r.objects changes else .ok ()) with
    | error e =>
      refine ⟨fun h => (by cases h), fun h => ?_⟩
      rw [hforce.mpr h.1.force] at hcheck
      cases hcheck
    | ok u =>
      rw [Server.commitRefs]
      cases hpolicy : policyVerdict (some (workspacePolicy env)) r.refs changes with
      | error e =>
        refine ⟨fun h => (by cases h), fun h => ?_⟩
        rw [h.1.policy] at hpolicy
        cases hpolicy
      | ok u' =>
        dsimp only
        cases happly : applyChanges r.refs changes false with
        | error e => exact ⟨fun h => (by cases h), fun h => by cases h.2⟩
        | ok refs₁ =>
          dsimp only
          cases hlogged : env.logged r.ops with
          | error e =>
            refine ⟨fun h => (by cases h), fun h => ?_⟩
            rw [h.1.logged] at hlogged
            cases hlogged
          | ok u'' =>
            constructor
            · intro h
              cases h
              exact ⟨⟨hwritable, hforce.mp hcheck, hpolicy, hlogged⟩, rfl⟩
            · intro h
              cases h.2
              rfl

/-! ### The inverse -/

/-- No ref is moved to two targets. -/
def OneTarget (changes : List RefChange) : Prop :=
  ∀ c ∈ changes, ∀ c' ∈ changes, c.name = c'.name → c.new = c'.new

theorem get_applyChange (c : RefChange) (name : String) :
    (applyChange refs c)[name]? = if c.name = name then c.new else refs[name]? := by
  rw [applyChange]
  cases c.new with
  | none => simp [Std.ExtTreeMap.getElem?_erase]
  | some target => simp [Std.ExtTreeMap.getElem?_insert]

/-- A name no change is about keeps its target. -/
theorem get_foldl_applyChange {name : String} (h : ∀ c ∈ changes, c.name ≠ name) :
    (changes.foldl applyChange refs)[name]? = refs[name]? := by
  induction changes generalizing refs with
  | nil => rfl
  | cons c changes ih =>
    rw [foldl_cons, ih fun c' hc' => h c' (mem_cons_of_mem c hc'), get_applyChange,
      if_neg (h c mem_cons_self)]

/-- The target of a name is one that a change on it brought. -/
theorem exists_new_of_foldl {name : String} (refs : RefMap) (h : ∃ c ∈ changes, c.name = name) :
    ∃ c ∈ changes, c.name = name ∧ (changes.foldl applyChange refs)[name]? = c.new := by
  induction changes generalizing refs with
  | nil =>
    obtain ⟨c, hc, -⟩ := h
    cases hc
  | cons c changes ih =>
    by_cases hrest : ∃ c' ∈ changes, c'.name = name
    · obtain ⟨c', hc', hname, hget⟩ := ih (applyChange refs c) hrest
      exact ⟨c', mem_cons_of_mem c hc', hname, hget⟩
    · have hhere : c.name = name := by
        obtain ⟨c', hc', hname⟩ := h
        rcases mem_cons.mp hc' with rfl | hc'
        · exact hname
        · exact absurd ⟨c', hc', hname⟩ hrest
      refine ⟨c, mem_cons_self, hhere, ?_⟩
      rw [foldl_cons, get_foldl_applyChange fun c' hc' hname => hrest ⟨c', hc', hname⟩,
        get_applyChange, if_pos hhere]

/-- A command whose one recorded op is a ref transaction. -/
structure MovedRefs (r₀ r₁ : NativeRepo) (changes : List RefChange) : Prop where
  applied : applyChanges r₀.refs changes false = .ok r₁.refs
  ops : r₁.ops = r₀.ops ++ [encodeTx changes none]
  fits : TxFits changes
  length : (encodeTx changes none).length < 2 ^ 32

theorem MovedRefs.refs_eq (h : MovedRefs r₀ r₁ changes) :
    r₁.refs = changes.foldl applyChange r₀.refs :=
  applyChanges_ok h.applied

/-- The new values are all there exactly if no ref was moved to two targets. -/
theorem MovedRefs.news_iff (h : MovedRefs r₀ r₁ changes) :
    (∀ c ∈ changes, r₁.refs[c.name]? = c.new) ↔ OneTarget changes := by
  constructor
  · intro hnew c hc c' hc' hname
    rw [← hnew c hc, ← hnew c' hc', hname]
  · intro hone c hc
    obtain ⟨c', hc', hname, hget⟩ := exists_new_of_foldl r₀.refs ⟨c, hc, rfl⟩
    rw [h.refs_eq, hget]
    exact hone c' hc' c hc hname

/-- **The inverse brings every ref back.** -/
theorem MovedRefs.inverse_restores (h : MovedRefs r₀ r₁ changes) :
    applyChanges r₁.refs (inverse changes) false = .ok refs ↔ refs = r₀.refs ∧ OneTarget changes := by
  have hold := old_of_applyChanges h.applied
  have hback : (inverse changes).foldl applyChange r₁.refs = r₀.refs := by
    refine Std.ExtTreeMap.ext_getElem? fun name => ?_
    by_cases hname : ∃ c ∈ changes, c.name = name
    · obtain ⟨c, hc, hcname⟩ := hname
      have hinverse : ∃ c ∈ inverse changes, c.name = name :=
        ⟨⟨c.name, c.new, c.old⟩, mem_map_of_mem hc, hcname⟩
      obtain ⟨c', hc', hname', hget⟩ := exists_new_of_foldl r₁.refs hinverse
      obtain ⟨d, hd, rfl⟩ := mem_map.mp hc'
      rw [hget, ← hname']
      exact (hold d hd).symm
    · have hother : ∀ c ∈ changes, c.name ≠ name := fun c hc heq => hname ⟨c, hc, heq⟩
      have hotherInv : ∀ c ∈ inverse changes, c.name ≠ name := by
        intro c hc
        obtain ⟨d, hd, rfl⟩ := mem_map.mp hc
        exact hother d hd
      rw [get_foldl_applyChange hotherInv, h.refs_eq, get_foldl_applyChange hother]
  have hnews : (∀ c ∈ inverse changes, r₁.refs[c.name]? = c.old) ↔ OneTarget changes := by
    rw [← h.news_iff]
    constructor
    · intro hinv c hc
      exact hinv ⟨c.name, c.new, c.old⟩ (mem_map_of_mem hc)
    · intro hnew c hc
      obtain ⟨d, hd, rfl⟩ := mem_map.mp hc
      exact hnew d hd
  constructor
  · intro happly
    exact ⟨(applyChanges_ok happly).trans hback, hnews.mp (old_of_applyChanges happly)⟩
  · rintro ⟨rfl, hone⟩
    rw [applyChanges_eq_ok (hnews.mpr hone), hback]

/-! ### Undoing -/

theorem head_encodeTx : (encodeTx changes none).head? = some payloadRefTx := by
  rw [encodeTx]
  rfl

theorem MovedRefs.lastTransaction (h : MovedRefs r₀ r₁ changes) :
    lastTransaction r₁.ops = .ok (some changes) := by
  rw [Repo.lastTransaction, h.ops, reverse_append, reverse_singleton, singleton_append,
    foldr_cons, parseTx_encodeTx h.fits h.length]

theorem MovedRefs.undo_eq (h : MovedRefs r₀ r₁ changes) : undo env r₁ = undoRefTx env r₁ := by
  have hlast : r₁.ops.getLast? = some (encodeTx changes none) := by
    rw [h.ops, getLast?_concat]
  rw [undo, run_get, hlast]
  dsimp only
  rw [head_encodeTx]
  rfl

/-- What the undone transaction comes to: the inverse is committed from a clean tree, and HEAD's tree
    checked out. -/
theorem MovedRefs.run_undo (h : MovedRefs r₀ r₁ changes) (hclean : Clean env r₁) :
    undo env r₁ = (do
      commitRefs env "undo" (inverse changes)
      let target ← fromExcept (headEntries env (← get))
      checkout env (indexEntries (r₁.controls env.workspace).index) target : Cmd Unit) r₁ := by
  obtain ⟨st, hst, hstaged, hunstaged⟩ := hclean
  have hensure : ensureClean env "undo" r₁ = .ok () r₁ := by
    rw [ensureClean, hst]
    dsimp only
    rw [if_neg (by simp [hstaged, hunstaged])]
  have hlast : (onRefs (Repo.lastTransaction r₁.ops) : Cmd _) r₁ = .ok (some changes) r₁ := by
    rw [h.lastTransaction]
    rfl
  have hindexed : indexedEntries env r₁ = .ok (indexEntries (r₁.controls env.workspace).index) r₁ := rfl
  rw [h.undo_eq, undoRefTx, run_get, run_bind_ok hlast]
  dsimp only
  rw [run_bind_ok hensure, run_bind_ok hindexed]

/-- Nothing stands in the way of undoing a transaction. -/
structure Undoes (env : Env) (r : NativeRepo) (changes : List RefChange) : Prop where
  clean : Clean env r
  through : LetsThrough env r (inverse changes)
  target : OneTarget changes

/-- What the refs are undone to, if nothing stands in the way. -/
def undone (r₀ r₁ : NativeRepo) (changes : List RefChange) : NativeRepo :=
  { r₁ with refs := r₀.refs, ops := r₁.ops ++ [encodeTx (inverse changes) none] }

/-- The refs are as they were, and then HEAD's tree is checked out. -/
theorem MovedRefs.undo_taken (h : MovedRefs r₀ r₁ changes) (hu : Undoes env r₁ changes) :
    undo env r₁ = (fromExcept (headEntries env (undone r₀ r₁ changes)) >>= fun target =>
      checkout env (indexEntries (r₁.controls env.workspace).index) target : Cmd Unit)
        (undone r₀ r₁ changes) := by
  have htx : refTx env r₁ "undo" (inverse changes) = .ok r₀.refs :=
    refTx_eq_ok.mpr ⟨hu.through, h.inverse_restores.mpr ⟨rfl, hu.target⟩⟩
  have hcommit : commitRefs env "undo" (inverse changes) r₁ = .ok () (undone r₀ r₁ changes) := by
    rw [commitRefs, htx]
    rfl
  rw [h.run_undo hu.clean, run_bind_ok hcommit, run_get]

/-- Otherwise nothing changes. -/
theorem MovedRefs.undo_refused (h : MovedRefs r₀ r₁ changes) (hu : ¬Undoes env r₁ changes) :
    leaves (undo env r₁) = r₁ := by
  by_cases hclean : Clean env r₁
  · rw [h.run_undo hclean]
    cases htx : refTx env r₁ "undo" (inverse changes) with
    | error e =>
      have hcommit : commitRefs env "undo" (inverse changes) r₁ = .error e r₁ := by
        rw [commitRefs, htx]
      rw [run_bind_error hcommit]
      rfl
    | ok refs =>
      obtain ⟨hthrough, happly⟩ := refTx_eq_ok.mp htx
      exact absurd ⟨hclean, hthrough, (h.inverse_restores.mp happly).2⟩ hu
  · rw [h.undo_eq, (refuses_undoRefTx hclean).leaves_eq]

theorem keeps_refs_checkout {old target : List WorkEntry} :
    Keeps NativeRepo.refs (checkout env old target) :=
  keeps_checkout ⟨fun _ _ => rfl, fun _ _ => rfl⟩

/-- **Refs after undo.** They are as they were before the command exactly if nothing stands in the
    way, or the command did not change them. -/
theorem MovedRefs.undo_restores_iff (h : MovedRefs r₀ r₁ changes) :
    (leaves (undo env r₁)).refs = r₀.refs ↔ Undoes env r₁ changes ∨ r₁.refs = r₀.refs := by
  by_cases hu : Undoes env r₁ changes
  · have hkeeps : Keeps NativeRepo.refs (fromExcept (headEntries env (undone r₀ r₁ changes)) >>=
        fun target => checkout env (indexEntries (r₁.controls env.workspace).index) target) :=
      .bind .lift fun _ => keeps_refs_checkout
    rw [h.undo_taken hu]
    exact ⟨fun _ => .inl hu, fun _ => hkeeps _⟩
  · rw [h.undo_refused hu]
    exact ⟨.inr, fun hor => hor.resolve_left hu⟩

/-- Another workspace's HEAD stays exactly if the undone command had not moved it, or nothing is
    undone. -/
theorem MovedRefs.undo_keeps_iff (h : MovedRefs r₀ r₁ changes) (name : String) :
    (leaves (undo env r₁)).refs[name]? = r₁.refs[name]? ↔
      ¬Undoes env r₁ changes ∨ r₀.refs[name]? = r₁.refs[name]? := by
  by_cases hu : Undoes env r₁ changes
  · rw [h.undo_restores_iff.mpr (.inl hu)]
    exact ⟨.inr, fun hor => hor.resolve_left (not_not.mpr hu)⟩
  · rw [h.undo_refused hu]
    exact ⟨fun _ => .inl hu, fun _ => rfl⟩

/-- The files an undone command is undone in: those below the root of the workspace `undo` runs in. -/
theorem MovedRefs.undo_files (h : MovedRefs r₀ r₁ changes) (hroot : Rooted env r₁.fs)
    (htame : ∀ target, headEntries env (undone r₀ r₁ changes) = .ok target →
      Tame env r₁.fs (indexEntries (r₁.controls env.workspace).index) target)
    {p : Place} (hp : ¬env.root <+: p) : (leaves (undo env r₁)).fs.get p = r₁.fs.get p := by
  by_cases hu : Undoes env r₁ changes
  · rw [h.undo_taken hu]
    cases htarget : headEntries env (undone r₀ r₁ changes) with
    | error e => rfl
    | ok target =>
      by_contra hne
      obtain ⟨names, rfl, -⟩ := (checkout_contained (r := undone r₀ r₁ changes) hroot
        (htame target htarget) p hne).below
      exact hp (prefix_append _ _)
  · rw [h.undo_refused hu]

end

end Alt.Repo
