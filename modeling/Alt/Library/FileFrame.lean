import Alt.Library.FileTree

namespace Alt.Library.FileTree

open List

/-!
# Library — what operations on files leave alone

`Touches files dirs links fs fs'` says what became of a tree: only at `files` something changed,
but for directories at `dirs` that came or went, and new symbolic links are at `links`.  It is a
preorder, so a program has it if each of its operations has.

* `Plain`, `Clear` — a path of plain names with no symbolic link on the way leads to the place it
  spells, whatever is there (`locate_clear`, `follow_clear`);
* `removeFile_touches`, `write_touches`, … — one lemma for each operation on such a path.
-/

variable {fs fs' fs'' : FileTree} {p q : Place}

/-! ### Clear paths -/

/-- Each name leads to an entry of its own. -/
def Plain (p : Place) : Prop := ∀ c ∈ p, ¬Special c

instance (p : Place) : Decidable (Plain p) := inferInstanceAs (Decidable (∀ c ∈ p, ¬Special c))

/-- No symbolic link on the way to `p`. -/
def Clear (fs : FileTree) (p : Place) : Prop :=
  ∀ q, q <+: p → q ≠ p → ∀ target, fs.get q ≠ some (.symlink target)

def NoLink (fs : FileTree) (p : Place) : Prop := ∀ target, fs.get p ≠ some (.symlink target)

theorem Plain.of_le (h : Plain p) (hq : q <+: p) : Plain q := fun c hc => h c (hq.subset hc)

theorem Clear.of_le (h : fs.Clear p) (hq : q <+: p) : fs.Clear q := by
  intro r hr hne
  refine h r (hr.trans hq) fun heq => hne (hr.eq_of_length_le ?_)
  rw [heq]
  exact hq.length_le

theorem walkWith_clear {follow : Place → List Bytes → Except IoError Place} {cur : Place}
    (hplain : Plain p)
    (hclear : ∀ r, r <+: p → r ≠ [] → ∀ target, fs.get (cur ++ r) ≠ some (.symlink target))
    (h : fs.walkWith follow cur p = .ok q) : q = cur ++ p := by
  induction p generalizing cur with
  | nil =>
    rw [walkWith] at h
    cases h
    exact (append_nil _).symm
  | cons c rest ih =>
    have hc := hplain c mem_cons_self
    simp only [Special, not_or] at hc
    have hhere := hclear [c] ⟨rest, rfl⟩ (cons_ne_nil _ _)
    have hassoc : cur ++ c :: rest = (cur ++ [c]) ++ rest := by simp
    have hrest : fs.walkWith follow (cur ++ [c]) rest = .ok q → q = (cur ++ [c]) ++ rest := by
      refine ih (fun d hd => hplain d (mem_cons_of_mem c hd)) fun r hr hne target => ?_
      have hcons := hclear (c :: r) (cons_prefix_cons.mpr ⟨rfl, hr⟩) (cons_ne_nil _ _) target
      simpa using hcons
    rw [walkWith] at h
    split at h
    · cases h
    · rw [if_neg (by simp [hc.1, hc.2.1]), if_neg hc.2.2] at h
      cases hnode : fs.get (cur ++ [c]) with
      | none =>
        rw [hnode] at h
        cases h
      | some node =>
        rw [hnode] at h
        rw [hassoc]
        cases node with
        | symlink target => exact absurd hnode (hhere target)
        | dir => exact hrest h
        | file content exec => exact hrest h

theorem walk_clear {links : Nat} (hplain : Plain p)
    (hclear : ∀ r, r <+: p → r ≠ [] → ∀ target, fs.get r ≠ some (.symlink target))
    (h : fs.walk links [] p = .ok q) : q = p := by
  have hclear' : ∀ r, r <+: p → r ≠ [] → ∀ target, fs.get ([] ++ r) ≠ some (.symlink target) := hclear
  cases links with
  | zero => exact walkWith_clear hplain hclear' h
  | succ links => exact walkWith_clear hplain hclear' h

/-- **A clear path of plain names leads nowhere else.** -/
theorem locate_clear (hplain : Plain p) (hclear : fs.Clear p) (h : fs.locate p = .ok q) : q = p := by
  rw [locate, locateFrom] at h
  rcases eq_nil_or_concat p with rfl | ⟨front, last, rfl⟩
  · cases h
    rfl
  · rw [concat_eq_append] at hplain hclear h ⊢
    have hlast : ¬Special last := hplain last (by simp)
    simp only [getLast?_append_cons, getLast?_singleton, dropLast_concat,
      if_neg hlast] at h
    split at h
    · cases h
    rename_i d hwalk
    have hfront : front <+: front ++ [last] := prefix_append _ _
    obtain rfl : d = front := by
      refine walk_clear (hplain.of_le hfront) (fun r hr _ => ?_) hwalk
      refine hclear r (hr.trans hfront) fun heq => ?_
      have hlength := hr.length_le
      simp [heq] at hlength
    split at h
    · cases h
      rfl
    · cases h

theorem follow_clear (hplain : Plain p) (hclear : fs.Clear p) (hlink : fs.NoLink p)
    (h : fs.follow p = .ok q) : q = p := by
  rw [follow, followFrom.eq_def] at h
  cases hlocate : fs.locate p with
  | error e =>
    rw [locate] at hlocate
    simp only [hlocate] at h
    cases h
  | ok d =>
    obtain rfl := locate_clear hplain hclear hlocate
    rw [locate] at hlocate
    simp only [hlocate] at h
    cases hnode : fs.get d with
    | none =>
      rw [hnode] at h
      cases h
      rfl
    | some node =>
      rw [hnode] at h
      cases node with
      | symlink target => exact absurd hnode (hlink target)
      | dir =>
        cases h
        rfl
      | file content exec =>
        cases h
        rfl

/-- What is there at the end of plain names is found. -/
theorem get_of_not_lexists (hplain : Plain p) (h : fs.lexists p = false) : fs.get p = none := by
  by_contra hsome
  have hdirect : fs.Direct p := by
    refine ⟨hplain, fun hne => ?_⟩
    rw [← dropLast_append_getLast hne] at hsome
    exact get_parent hsome
  rw [lexists_direct hdirect] at h
  exact hsome (Option.not_isSome_iff_eq_none.mp (by simp [h]))

/-! ### What is touched -/

/-- Nothing, or a directory. -/
def Hollow (node : Option Node) : Prop := node = none ∨ node = some .dir

/-- What became of a tree. -/
structure Touches (files dirs links : Place → Prop) (fs fs' : FileTree) : Prop where
  only : ∀ p, fs'.get p ≠ fs.get p → files p ∨ dirs p ∧ Hollow (fs.get p) ∧ Hollow (fs'.get p)
  links : ∀ p target, fs'.get p = some (.symlink target) →
    fs.get p = some (.symlink target) ∨ links p

namespace Touches

variable {files dirs links files' dirs' links' : Place → Prop}

@[refl] theorem refl (fs : FileTree) : Touches files dirs links fs fs where
  only _ h := absurd rfl h
  links _ _ h := .inl h

theorem trans (h : Touches files dirs links fs fs') (h' : Touches files dirs links fs' fs'') :
    Touches files dirs links fs fs'' where
  only p hne := by
    by_cases hfirst : fs'.get p = fs.get p
    · have hsecond := h'.only p fun heq => hne (heq.trans hfirst)
      rwa [hfirst] at hsecond
    · rcases h.only p hfirst with hfile | ⟨hdir, hbefore, hmid⟩
      · exact .inl hfile
      · by_cases hlast : fs''.get p = fs'.get p
        · exact .inr ⟨hdir, hbefore, hlast ▸ hmid⟩
        · rcases h'.only p hlast with hfile | ⟨-, -, hafter⟩
          · exact .inl hfile
          · exact .inr ⟨hdir, hbefore, hafter⟩
  links p target hlink := by
    rcases h'.links p target hlink with hmid | hnew
    · exact h.links p target hmid
    · exact .inr hnew

theorem mono (h : Touches files dirs links fs fs') (hfiles : ∀ p, files p → files' p)
    (hdirs : ∀ p, dirs p → dirs' p) (hlinks : ∀ p, links p → links' p) :
    Touches files' dirs' links' fs fs' where
  only p hne := (h.only p hne).imp (hfiles p) fun ⟨hdir, hrest⟩ => ⟨hdirs p hdir, hrest⟩
  links p target hlink := (h.links p target hlink).imp_right (hlinks p)

theorem noLink (h : Touches files dirs links fs fs') (hp : fs.NoLink p) (hno : ¬links p) :
    fs'.NoLink p := by
  intro target hlink
  rcases h.links p target hlink with hbefore | hnew
  · exact hp target hbefore
  · exact hno hnew

theorem clear (h : Touches files dirs links fs fs') (hp : fs.Clear p)
    (hno : ∀ q, q <+: p → q ≠ p → ¬links q) : fs'.Clear p :=
  fun q hq hne => h.noLink (hp q hq hne) (hno q hq hne)

/-- A file that is not touched stays as it is. -/
theorem get_eq (h : Touches files dirs links fs fs') (hp : ¬Hollow (fs.get p)) (hno : ¬files p) :
    fs'.get p = fs.get p := by
  by_contra hne
  rcases h.only p hne with hfile | ⟨-, hhollow, -⟩
  · exact hno hfile
  · exact hp hhollow

/-- A directory that is on nobody's way stays. -/
theorem get_eq_of_not_dirs (h : Touches files dirs links fs fs') (hno : ¬files p) (hdir : ¬dirs p) :
    fs'.get p = fs.get p := by
  by_contra hne
  rcases h.only p hne with hfile | ⟨hp, -⟩
  · exact hno hfile
  · exact hdir hp

end Touches

/-- Nowhere. -/
def nowhere (_ : Place) : Prop := False

/-! ### Operations -/

theorem touches_insert {node : Node} {hne hdir hfree} :
    Touches (· = p) nowhere (fun q => q = p ∧ ∃ target, node = .symlink target) fs
      (fs.insert p node hne hdir hfree) where
  only q hq := by
    by_cases heq : p = q
    · exact .inl heq.symm
    · rw [get_insert, if_neg heq] at hq
      exact absurd rfl hq
  links q target hlink := by
    by_cases heq : p = q
    · rw [get_insert, if_pos heq] at hlink
      exact .inr ⟨heq.symm, target, Option.some.inj hlink⟩
    · rw [get_insert, if_neg heq] at hlink
      exact .inl hlink

theorem touches_put {node : Node} {taken : IoError} (h : fs.put p node taken = .ok fs') :
    Touches (· = p) nowhere (fun q => q = p ∧ ∃ target, node = .symlink target) fs fs' := by
  rw [put] at h
  split at h
  · cases h
    exact touches_insert
  · cases h

theorem removeFile_touches (hplain : Plain p) (hclear : fs.Clear p)
    (h : fs.removeFile p = .ok fs') :
    Touches (· = p) nowhere nowhere fs fs' ∧ fs'.get p = none := by
  rw [removeFile] at h
  split at h
  · cases h
  rename_i d hlocate
  obtain rfl := locate_clear hplain hclear hlocate
  split at h
  · cases h
  · split at h
    · cases h
    · cases h
      refine ⟨⟨fun q hq => ?_, fun q target hlink => ?_⟩, by rw [get_dropFile, if_pos rfl]⟩
      · by_cases heq : d = q
        · exact .inl heq.symm
        · rw [get_dropFile, if_neg heq] at hq
          exact absurd rfl hq
      · rw [get_dropFile] at hlink
        split at hlink
        · cases hlink
        · exact .inl hlink

theorem removeDir_touches (hplain : Plain p) (hclear : fs.Clear p) (h : fs.removeDir p = .ok fs') :
    Touches nowhere (· = p) nowhere fs fs' := by
  rw [removeDir] at h
  split at h
  · cases h
  rename_i d hlocate
  obtain rfl := locate_clear hplain hclear hlocate
  split at h
  · cases h
  · split at h
    · cases h
    · rename_i hdir
      split at h
      · cases h
        refine ⟨fun q hq => ?_, fun q target hlink => ?_⟩
        · by_cases heq : d = q
          · subst heq
            refine .inr ⟨rfl, .inr (not_not.mp hdir), .inl ?_⟩
            rw [get_erase, if_pos rfl]
          · rw [get_erase, if_neg heq] at hq
            exact absurd rfl hq
        · rw [get_erase] at hlink
          split at hlink
          · cases hlink
          · exact .inl hlink
      · cases h

theorem rdropWhile_plain (hplain : Plain p) : p.rdropWhile (· = []) = p := by
  rw [rdropWhile_eq_self_iff]
  intro hne hlast
  have hspecial : p.getLast hne = [] := by simpa using hlast
  exact hplain _ (getLast_mem hne) (.inl hspecial)

theorem parentPath_plain (hplain : Plain p) : parentPath p = p.dropLast := by
  rw [parentPath, filter_eq_self.mpr]
  intro c hc
  have hc := hplain c hc
  simp only [Special, not_or] at hc
  simp [hc.1, hc.2.1]

theorem makeDir_touches (hplain : Plain p) (hclear : fs.Clear p) (h : fs.makeDir p = .ok fs') :
    Touches nowhere (fun q => q = p ∧ fs.get q = none) nowhere fs fs' := by
  rw [makeDir, rdropWhile_plain hplain] at h
  split at h
  · cases h
  rename_i d hlocate
  obtain rfl := locate_clear hplain hclear hlocate
  split at h
  · cases h
  · rename_i hnone
    rw [put] at h
    split at h
    · cases h
      refine ⟨fun q hq => ?_, fun q target hlink => ?_⟩
      · by_cases heq : d = q
        · subst heq
          refine .inr ⟨⟨rfl, not_not.mp hnone⟩, .inl (not_not.mp hnone), .inr ?_⟩
          rw [get_insert, if_pos rfl]
        · rw [get_insert, if_neg heq] at hq
          exact absurd rfl hq
      · rw [get_insert] at hlink
        split at hlink
        · cases hlink
        · exact .inl hlink
    · cases h

/-- Directories appear where nothing was. -/
theorem createDirAllFrom_touches (fuel : Nat) (hplain : Plain p) (hclear : fs.Clear p) :
    Touches nowhere (fun q => q <+: p ∧ fs.get q = none) nowhere fs
      (createDirAllFrom fuel fs p).1 := by
  have hagain : ∀ (p : Place) (fs : FileTree) (out : FileTree × Except IoError Unit), Plain p →
      fs.Clear p → (∀ fs', fs.makeDir p = .ok fs' → out = (fs', .ok ())) →
      (∀ e, fs.makeDir p = .error e → out = if fs.isDir p then (fs, .ok ()) else (fs, .error e)) →
      Touches nowhere (fun q => q <+: p ∧ fs.get q = none) nowhere fs out.1 := by
    intro p fs out hplain hclear hok herror
    cases hmake : fs.makeDir p with
    | ok fs₁ =>
      rw [hok fs₁ hmake]
      refine (makeDir_touches hplain hclear hmake).mono (fun _ h => h) ?_ fun _ h => h
      rintro q ⟨rfl, hq⟩
      exact ⟨prefix_rfl, hq⟩
    | error e =>
      rw [herror e hmake]
      split <;> exact .refl _
  induction fuel generalizing p fs with
  | zero => exact .refl _
  | succ fuel ih =>
    rw [createDirAllFrom]
    dsimp only
    split
    · rw [parentPath_plain hplain]
      have hpre : p.dropLast <+: p := dropLast_prefix p
      have habove := ih (hplain.of_le hpre) (hclear.of_le hpre)
      have habove : Touches nowhere (fun q => q <+: p ∧ fs.get q = none) nowhere fs
          (createDirAllFrom fuel fs p.dropLast).1 :=
        habove.mono (fun _ h => h) (fun q hq => ⟨hq.1.trans hpre, hq.2⟩) fun _ h => h
      revert habove
      rcases createDirAllFrom fuel fs p.dropLast with ⟨fs₁, result⟩
      intro habove
      cases result with
      | error e => exact habove
      | ok u =>
        -- what is missing after the first step was missing before it
        have hmissing : ∀ q, fs₁.get q = none → fs.get q = none := by
          intro q hq
          by_cases hsame : fs₁.get q = fs.get q
          · rwa [hsame] at hq
          · exact (habove.only q hsame).elim False.elim fun h => h.1.2
        exact habove.trans ((hagain p fs₁ _ hplain (habove.clear hclear fun _ _ _ h => h)
          (fun _ h => by simp only [h]) fun _ h => by simp only [h]).mono
          (fun _ h => h) (fun q hq => And.intro hq.1 (hmissing q hq.2)) fun _ h => h)
    · exact hagain p fs _ hplain hclear (fun _ h => by rw [h]) fun _ h => by rw [h]

theorem createDirAll_touches (hplain : Plain p) (hclear : fs.Clear p) :
    Touches nowhere (fun q => q <+: p ∧ fs.get q = none) nowhere fs (fs.createDirAll p).1 :=
  createDirAllFrom_touches _ hplain hclear

theorem write_touches {content : Bytes} (hplain : Plain p) (hclear : fs.Clear p)
    (hlink : fs.NoLink p) (h : fs.write p content = .ok fs') :
    Touches (· = p) nowhere nowhere fs fs' ∧ ∃ exec, fs'.get p = some (.file content exec) := by
  rw [write] at h
  split at h
  · cases h
  rename_i d hfollow
  obtain rfl := follow_clear hplain hclear hlink hfollow
  refine ⟨(touches_put h).mono (fun _ h => h) (fun _ h => h) ?_, ?_⟩
  · rintro q ⟨-, target, htarget⟩
    cases htarget
  · rw [put] at h
    split at h
    · cases h
      rw [get_insert, if_pos rfl]
      exact ⟨_, rfl⟩
    · cases h

theorem symlink_touches {target : Bytes} (hplain : Plain p) (hclear : fs.Clear p)
    (h : fs.symlink target p = .ok fs') : Touches (· = p) nowhere (· = p) fs fs' := by
  rw [symlink] at h
  split at h
  · cases h
  · split at h
    · cases h
    · split at h
      · cases h
      rename_i d hlocate
      obtain rfl := locate_clear hplain hclear hlocate
      split at h
      · cases h
      · exact (touches_put h).mono (fun _ h => h) (fun _ h => h) fun _ h => h.1

theorem setExec_touches {exec : Bool} (hplain : Plain p) (hclear : fs.Clear p)
    (hlink : fs.NoLink p) (h : fs.setExec p exec = .ok fs') :
    Touches (· = p) nowhere nowhere fs fs' := by
  rw [setExec] at h
  split at h
  · cases h
  rename_i d hfollow
  obtain rfl := follow_clear hplain hclear hlink hfollow
  cases hnode : fs.get d with
  | none =>
    simp only [hnode] at h
    cases h
  | some node =>
    cases node with
    | symlink target => exact absurd hnode (hlink target)
    | dir =>
      simp only [hnode] at h
      cases h
      rfl
    | file content exec' =>
      simp only [hnode] at h
      refine (touches_put h).mono (fun _ h => h) (fun _ h => h) ?_
      rintro q ⟨-, target, htarget⟩
      cases htarget

theorem pruneEmptyDirs_touches {root names : Place} (fuel : Nat) (hplain : Plain (root ++ names))
    (hclear : fs.Clear (root ++ names)) :
    Touches nowhere (fun q => root <+: q ∧ q ≠ root ∧ q <+: root ++ names) nowhere fs
      (pruneEmptyDirs root fuel fs (root ++ names)) := by
  induction fuel generalizing fs names with
  | zero => exact .refl _
  | succ fuel ih =>
    rw [pruneEmptyDirs]
    split
    · exact .refl _
    · rename_i hne
      cases hremove : fs.removeDir (root ++ names) with
      | error e => exact .refl _
      | ok fs₁ =>
        have hfirst := removeDir_touches hplain hclear hremove
        have hnames : names ≠ [] := fun hnil => hne (by rw [hnil, append_nil])
        have hpre : root ++ names.dropLast <+: root ++ names :=
          prefix_append_right_inj root |>.mpr (List.dropLast_prefix names)
        have hparent : parentPath (root ++ names) = root ++ names.dropLast := by
          rw [parentPath_plain hplain, dropLast_append_of_ne_nil hnames]
        have hclear₁ : fs₁.Clear (root ++ names.dropLast) :=
          (hfirst.clear hclear fun _ _ _ h => h).of_le hpre
        have hrest := ih (hplain.of_le hpre) hclear₁
        rw [← hparent] at hrest
        refine (hfirst.mono (fun _ h => h) ?_ fun _ h => h).trans
          (hrest.mono (fun _ h => h) ?_ fun _ h => h)
        · rintro q rfl
          exact ⟨prefix_append _ _, hne, prefix_rfl⟩
        · rintro q ⟨hroot, hq, hin⟩
          exact ⟨hroot, hq, (hparent ▸ hin).trans hpre⟩

end Alt.Library.FileTree
