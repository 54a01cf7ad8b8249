import Alt.Library.FileFrame

namespace Alt.Library.FileTree

open List

/-!
# Library — operations on files that succeed

Where the directories above a place are real ones, or missing, an operation on its path does what
it is for.

* `Open fs p` — no file and no link is at `p` or above it: `createDirAll` makes it a directory
  (`createDirAll_open`);
* `removeFile_ok`, `write_ok`, `symlink_ok`, `setExec_ok` — what the operations on files leave at
  the place;
* `Shrinks` — operations that only take away.
-/

variable {fs fs' fs'' : FileTree} {p q : Place}

/-! ### Direct places -/

variable {node : Node}

theorem direct_of_get (hplain : Plain p) (h : fs.get p = some node) : fs.Direct p := by
  refine ⟨hplain, fun hne => ?_⟩
  have hsome : fs.get p ≠ none := by rw [h]; exact Option.some_ne_none _
  rw [← dropLast_append_getLast hne] at hsome
  exact get_parent hsome

theorem lstat_of_get (hplain : Plain p) (h : fs.get p = some node) :
    fs.lstat p = .ok node := by
  rw [lstat_direct (direct_of_get hplain h), h]
  rfl

theorem lexists_of_get (hplain : Plain p) (h : fs.get p = some node) :
    fs.lexists p = true := by
  rw [lexists_direct (direct_of_get hplain h), h]
  rfl

/-- What is found at the end of a clear path is there. -/
theorem get_of_lstat (hplain : Plain p) (hclear : fs.Clear p) (h : fs.lstat p = .ok node) :
    fs.get p = some node := by
  rw [lstat] at h
  split at h
  · cases h
  rename_i d hlocate
  obtain rfl := locate_clear hplain hclear hlocate
  cases hnode : fs.get d with
  | none =>
    simp only [hnode] at h
    cases h
  | some node' =>
    simp only [hnode] at h
    cases h
    rfl

theorem lexists_iff (hplain : Plain p) (hclear : fs.Clear p) :
    fs.lexists p = true ↔ fs.get p ≠ none := by
  refine ⟨fun h => ?_, fun h => ?_⟩
  · rw [lexists] at h
    cases hstat : fs.lstat p with
    | error e =>
      rw [hstat] at h
      cases h
    | ok node =>
      rw [get_of_lstat hplain hclear hstat]
      exact Option.some_ne_none _
  · obtain ⟨node, hnode⟩ := Option.ne_none_iff_exists'.mp h
    exact lexists_of_get hplain hnode

theorem put_ok {taken : IoError} (hne : p ≠ []) (hdir : fs.get p.dropLast = some .dir)
    (hfree : fs.get p ≠ some .dir) :
    ∃ fs', fs.put p node taken = .ok fs' ∧ fs'.get p = some node := by
  rw [put, dif_pos ⟨hne, hdir, hfree⟩]
  exact ⟨_, rfl, by rw [get_insert, if_pos rfl]⟩

/-! ### Taking away -/

/-- Nothing came, and nothing became something else. -/
def Shrinks (fs fs' : FileTree) : Prop := ∀ p, fs'.get p = fs.get p ∨ fs'.get p = none

namespace Shrinks

@[refl] theorem refl (fs : FileTree) : Shrinks fs fs := fun _ => .inl rfl

theorem trans (h : Shrinks fs fs') (h' : Shrinks fs' fs'') : Shrinks fs fs'' := by
  intro p
  rcases h' p with hsame | hnone
  · rw [hsame]
    exact h p
  · exact .inr hnone

theorem get_eq_none (h : Shrinks fs fs') (hp : fs.get p = none) : fs'.get p = none := by
  rcases h p with hsame | hnone
  · rw [hsame, hp]
  · exact hnone

theorem ne_dir (h : Shrinks fs fs') (hp : fs.get p ≠ some .dir) : fs'.get p ≠ some .dir := by
  rcases h p with hsame | hnone
  · rwa [hsame]
  · rw [hnone]
    nofun

theorem hollow (h : Shrinks fs fs') (hp : Hollow (fs.get p)) : Hollow (fs'.get p) := by
  rcases h p with hsame | hnone
  · rwa [hsame]
  · exact .inl hnone

theorem noLink (h : Shrinks fs fs') (hp : fs.NoLink p) : fs'.NoLink p := by
  intro target hlink
  rcases h p with hsame | hnone
  · exact hp target (hsame ▸ hlink)
  · rw [hnone] at hlink
    cases hlink

end Shrinks

theorem removeFile_shrinks {path : List Bytes} (h : fs.removeFile path = .ok fs') : Shrinks fs fs' := by
  rw [removeFile] at h
  obtain ⟨d, hlocate, h⟩ := of_located h
  split at h
  · cases h
  · split at h
    · cases h
    · cases h
      intro q
      rw [get_dropFile]
      split
      · exact .inr rfl
      · exact .inl rfl

theorem removeDir_shrinks {path : List Bytes} (h : fs.removeDir path = .ok fs') : Shrinks fs fs' := by
  rw [removeDir] at h
  obtain ⟨d, hlocate, h⟩ := of_located h
  split at h
  · cases h
  · split at h
    · cases h
    · split at h
      · cases h
        intro q
        rw [get_erase]
        split
        · exact .inr rfl
        · exact .inl rfl
      · cases h

theorem pruneEmptyDirs_shrinks (root : Place) (fuel : Nat) (fs : FileTree) (dir : List Bytes) :
    Shrinks fs (pruneEmptyDirs root fuel fs dir) := by
  induction fuel generalizing fs dir with
  | zero => exact .refl _
  | succ fuel ih =>
    rw [pruneEmptyDirs]
    split
    · exact .refl _
    · cases hremove : fs.removeDir dir with
      | error e => exact .refl _
      | ok fs₁ => exact (removeDir_shrinks hremove).trans (ih fs₁ _)

/-- A file or a link that is there can be taken away. -/
theorem removeFile_ok (hplain : Plain p) (h : fs.get p = some node) (hnode : node ≠ .dir) :
    ∃ fs', fs.removeFile p = .ok fs' := by
  rw [removeFile, locate_direct (direct_of_get hplain h)]
  dsimp only
  rw [if_neg (by rw [h]; exact Option.some_ne_none _), dif_neg (by rw [h]; simpa using hnode)]
  exact ⟨_, rfl⟩

/-! ### Making directories -/

/-- No file and no link is at a place or above it. -/
def Open (fs : FileTree) (p : Place) : Prop := ∀ q, q <+: p → Hollow (fs.get q)

theorem Open.of_le (h : fs.Open p) (hq : q <+: p) : fs.Open q := fun r hr => h r (hr.trans hq)

theorem Hollow.noLink (h : Hollow (fs.get p)) : fs.NoLink p := by
  intro target hlink
  rw [hlink] at h
  rcases h with hnone | hdir
  · cases hnone
  · cases hdir

theorem Open.clear (h : fs.Open p) : fs.Clear p := fun q hq _ => Hollow.noLink (h q hq)

/-- With its directory there, a place becomes a directory, or is one already. -/
theorem makeDir_of_dir (hplain : Plain p) (hne : p ≠ []) (hdir : fs.get p.dropLast = some .dir)
    (hhollow : Hollow (fs.get p)) :
    (fs.get p = some .dir ∧ fs.makeDir p = .error .alreadyExists) ∨
      ∃ fs', fs.makeDir p = .ok fs' ∧ fs'.get p = some .dir := by
  have hlocate : fs.locate p = .ok p := locate_direct ⟨hplain, fun _ => hdir⟩
  rw [makeDir, rdropWhile_plain hplain, hlocate]
  dsimp only
  rcases hhollow with hnone | hthere
  · rw [if_neg (not_not.mpr hnone)]
    exact .inr (put_ok hne hdir (by rw [hnone]; exact fun h => by cases h))
  · rw [if_pos (by rw [hthere]; exact Option.some_ne_none _)]
    exact .inl ⟨hthere, rfl⟩

theorem isDir_of_get (hplain : Plain p) (h : fs.get p = some .dir) : fs.isDir p = true := by
  have hdirect : fs.Direct p := direct_of_get hplain h
  rw [isDir, follow_direct hdirect (fun target hlink => by rw [h] at hlink; cases hlink)]
  simp [h]

/-- Below a place that is missing nothing is found. -/
theorem makeDir_notFound (hplain : Plain p) (hopen : fs.Open p) (hne : p ≠ [])
    (hmissing : fs.get p.dropLast = none) : fs.makeDir p = .error .notFound := by
  have hwalk : ∀ links (names cur : Place), (∀ c ∈ names, ¬Special c) →
      (∀ q, q <+: names → Hollow (fs.get (cur ++ q))) → fs.get (cur ++ names) = none →
      fs.get cur = some .dir → fs.walk links cur names = .error .notFound := by
    intro links names
    induction names with
    | nil =>
      intro cur _ _ hnone hcur
      rw [append_nil, hcur] at hnone
      cases hnone
    | cons c rest ih =>
      intro cur hplain hhollow hnone hcur
      have hc := hplain c mem_cons_self
      simp only [Special, not_or] at hc
      have hassoc : ∀ r, cur ++ c :: r = (cur ++ [c]) ++ r := fun r => by simp
      have hhere := hhollow [c] ⟨rest, rfl⟩
      have hstep : fs.get (cur ++ [c]) = some .dir → fs.walk links (cur ++ [c]) rest = .error .notFound := by
        intro hdir
        refine ih (cur ++ [c]) (fun d hd => hplain d (mem_cons_of_mem c hd)) (fun q hq => ?_) ?_ hdir
        · rw [← hassoc]
          exact hhollow (c :: q) (cons_prefix_cons.mpr ⟨rfl, hq⟩)
        · rw [← hassoc]
          exact hnone
      rcases hhere with hgone | hdir
      · cases links <;>
        · rw [walk, walkWith, if_neg (by simp [hcur]), if_neg (by simp [hc.1, hc.2.1]), if_neg hc.2.2, hgone]
      · have hstep := hstep hdir
        cases links <;>
        · rw [walk] at hstep ⊢
          rw [walkWith, if_neg (by simp [hcur]), if_neg (by simp [hc.1, hc.2.1]), if_neg hc.2.2, hdir]
          exact hstep
  rcases eq_nil_or_concat p with rfl | ⟨front, last, rfl⟩
  · exact absurd rfl hne
  · rw [concat_eq_append] at hplain hopen hmissing ⊢
    rw [dropLast_concat] at hmissing
    have hlast : ¬Special last := hplain last (by simp)
    have hfront : fs.walk maxLinks [] front = .error .notFound :=
      hwalk maxLinks front [] (fun c hc => hplain c (mem_append_left _ hc))
        (fun q hq => hopen q (hq.trans (prefix_append _ _))) hmissing fs.get_top
    rw [makeDir, rdropWhile_plain hplain, locate, locateFrom]
    simp only [getLast?_append_cons, getLast?_singleton, dropLast_concat, hfront,
      if_neg hlast]

/-- **An open place can be made a directory.** -/
theorem createDirAll_open (hplain : Plain p) (hopen : fs.Open p) :
    ∃ fs', fs.createDirAll p = (fs', .ok ()) ∧ fs'.get p = some .dir := by
  have hagain : ∀ (p : Place) (fs : FileTree) (out : FileTree × Except IoError Unit), Plain p →
      p ≠ [] → fs.get p.dropLast = some .dir → Hollow (fs.get p) →
      (∀ fs', fs.makeDir p = .ok fs' → out = (fs', .ok ())) →
      (∀ e, fs.makeDir p = .error e → out = if fs.isDir p then (fs, .ok ()) else (fs, .error e)) →
      ∃ fs', out = (fs', .ok ()) ∧ fs'.get p = some .dir := by
    intro p fs out hplain hne hdir hhollow hok herror
    rcases makeDir_of_dir hplain hne hdir hhollow with ⟨hthere, hmake⟩ | ⟨fs', hmake, hget⟩
    · rw [herror _ hmake, if_pos (isDir_of_get hplain hthere)]
      exact ⟨fs, rfl, hthere⟩
    · exact ⟨fs', hok fs' hmake, hget⟩
  have hall : ∀ fuel (p : Place) (fs : FileTree), p.length < fuel → Plain p → fs.Open p →
      ∃ fs', createDirAllFrom fuel fs p = (fs', .ok ()) ∧ fs'.get p = some .dir := by
    intro fuel
    induction fuel with
    | zero => exact fun p fs hlength => absurd hlength (Nat.not_lt_zero _)
    | succ fuel ih =>
      intro p fs hlength hplain hopen
      rw [createDirAllFrom]
      by_cases hne : p = []
      · subst hne
        have hmake : fs.makeDir [] = .error .alreadyExists := by
          have hlocate : fs.locate (List.rdropWhile (fun c : Bytes => decide (c = [])) []) = .ok [] := rfl
          rw [makeDir, hlocate]
          dsimp only
          rw [if_pos (by rw [get_top]; exact Option.some_ne_none _)]
        simp only [hmake]
        rw [if_pos (isDir_of_get hplain fs.get_top)]
        exact ⟨fs, rfl, fs.get_top⟩
      · have hpre : p.dropLast <+: p := dropLast_prefix p
        rcases hopen p.dropLast hpre with hmissing | hdir
        · have hmake := makeDir_notFound hplain hopen hne hmissing
          have hshort : p.dropLast.length < fuel := by
            rw [length_dropLast]
            have := length_pos_iff.mpr hne
            omega
          obtain ⟨fs₁, habove, hdir₁⟩ := ih p.dropLast fs hshort (hplain.of_le hpre) (hopen.of_le hpre)
          simp only [hmake, parentPath_plain hplain, habove]
          refine hagain p fs₁ _ hplain hne hdir₁ ?_ (fun _ h => by rw [h]) fun _ h => by rw [h]
          -- making the directories above leaves the place itself alone
          have htouch := createDirAllFrom_touches fuel (hplain.of_le hpre) (hopen.of_le hpre).clear
          rw [habove] at htouch
          by_contra hhollow
          rcases htouch.only p (fun hsame => hhollow (hsame ▸ hopen p prefix_rfl)) with hfile | ⟨-, -, hafter⟩
          · exact hfile
          · exact hhollow hafter
        · rcases makeDir_of_dir hplain hne hdir (hopen p prefix_rfl) with ⟨hthere, hmake⟩ | ⟨fs', hmake, hget⟩
          · simp only [hmake]
            rw [if_pos (isDir_of_get hplain hthere)]
            exact ⟨fs, rfl, hthere⟩
          · simp only [hmake]
            exact ⟨fs', rfl, hget⟩
  exact hall _ p fs (Nat.lt_succ_self _) hplain hopen

/-! ### Writing -/

/-- A file is created where nothing is. -/
theorem write_ok {content : Bytes} (hplain : Plain p) (hne : p ≠ [])
    (hdir : fs.get p.dropLast = some .dir) (hnone : fs.get p = none) :
    ∃ fs', fs.write p content = .ok fs' ∧ fs'.get p = some (.file content false) := by
  have hfollow : fs.follow p = .ok p :=
    follow_direct ⟨hplain, fun _ => hdir⟩ (fun target hlink => by rw [hnone] at hlink; cases hlink)
  have hput : ∃ fs', fs.put p (.file content false) .isADirectory = .ok fs' ∧
      fs'.get p = some (.file content false) := put_ok hne hdir (by rw [hnone]; nofun)
  obtain ⟨fs', hput, hget⟩ := hput
  refine ⟨fs', ?_, hget⟩
  rw [write, hfollow]
  simp only [hnone]
  exact hput

theorem symlink_ok {target : Bytes} (hplain : Plain p) (hne : p ≠ [])
    (hdir : fs.get p.dropLast = some .dir) (hnone : fs.get p = none) (htarget : target ≠ [])
    (hzero : 0 ∉ target) :
    ∃ fs', fs.symlink target p = .ok fs' ∧ fs'.get p = some (.symlink target) := by
  have hlocate : fs.locate p = .ok p := locate_direct ⟨hplain, fun _ => hdir⟩
  have hput : ∃ fs', fs.put p (.symlink target) .alreadyExists = .ok fs' ∧
      fs'.get p = some (.symlink target) := put_ok hne hdir (by rw [hnone]; nofun)
  obtain ⟨fs', hput, hget⟩ := hput
  refine ⟨fs', ?_, hget⟩
  rw [symlink, if_neg htarget, if_neg hzero, hlocate]
  dsimp only
  rw [if_neg (not_not.mpr hnone)]
  exact hput

theorem setExec_ok {content : Bytes} {before : Bool} (exec : Bool) (hplain : Plain p)
    (h : fs.get p = some (.file content before)) :
    ∃ fs', fs.setExec p exec = .ok fs' ∧ fs'.get p = some (.file content exec) := by
  have hdirect := direct_of_get hplain h
  have hfollow : fs.follow p = .ok p :=
    follow_direct hdirect (fun target hlink => by rw [h] at hlink; cases hlink)
  have hne : p ≠ [] := fun hnil => by
    rw [hnil, get_top] at h
    cases h
  have hput : ∃ fs', fs.put p (.file content exec) .isADirectory = .ok fs' ∧
      fs'.get p = some (.file content exec) := put_ok hne (hdirect.dir hne) (by rw [h]; nofun)
  obtain ⟨fs', hput, hget⟩ := hput
  refine ⟨fs', ?_, hget⟩
  rw [setExec, hfollow]
  simp only [h]
  exact hput

end Alt.Library.FileTree
