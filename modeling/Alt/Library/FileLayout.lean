import Alt.Library.FileWrites

namespace Alt.Library.FileTree

open List

/-!
# Library — files laid out one after another

A place has room for a file if nothing is there and no file stands on the way to it.  Files at places
of which none is above another leave each other room, so they can be written in any order.

* `Room` — room for a file;
* `LaidOut` — files were written, and nothing else;
* `LaidOut.room` — what was laid out leaves room for places apart from it.
-/

variable {fs fs' fs'' : FileTree} {p q : Place} {content : Bytes}

/-- Neither place is above the other. -/
def Apart (p q : Place) : Prop := ¬p <+: q ∧ ¬q <+: p

theorem Apart.symm (h : Apart p q) : Apart q p := ⟨h.2, h.1⟩

/-- Below one directory, places are apart as their paths are. -/
theorem Apart.append_left (dir : Place) (h : Apart p q) : Apart (dir ++ p) (dir ++ q) :=
  ⟨fun hpre => h.1 ((prefix_append_right_inj dir).mp hpre),
    fun hpre => h.2 ((prefix_append_right_inj dir).mp hpre)⟩

/-- Room for a file. -/
structure Room (fs : FileTree) (p : Place) : Prop where
  plain : Plain p
  ne : p ≠ []
  way : fs.Open p.dropLast
  free : fs.get p = none

/-- The files `files`, and the directories above them, are what was added to a tree. -/
structure LaidOut (files : List (Place × Bytes)) (fs fs' : FileTree) : Prop where
  there : ∀ file ∈ files, fs'.get file.1 = some (.file file.2 false)
  touches : Touches (fun p => ∃ file ∈ files, p = file.1)
    (fun p => ∃ file ∈ files, p <+: file.1) nowhere fs fs'

theorem LaidOut.nil (fs : FileTree) : LaidOut [] fs fs :=
  ⟨nofun, Touches.refl fs⟩

variable {files : List (Place × Bytes)}

/-- What was laid out leaves room for places apart from it. -/
theorem LaidOut.room (h : LaidOut files fs fs') (hroom : fs.Room p)
    (hapart : ∀ file ∈ files, Apart file.1 p) : fs'.Room p where
  plain := hroom.plain
  ne := hroom.ne
  way q hq := by
    by_cases hsame : fs'.get q = fs.get q
    · rw [hsame]
      exact hroom.way q hq
    · rcases h.touches.only q hsame with ⟨file, hfile, rfl⟩ | ⟨-, -, hhollow⟩
      · exact absurd (hq.trans (List.dropLast_prefix p)) (hapart file hfile).1
      · exact hhollow
  free := by
    by_contra hthere
    rcases h.touches.only p (fun hsame => hthere (hsame.trans hroom.free)) with
      ⟨file, hfile, rfl⟩ | ⟨⟨file, hfile, hpre⟩, -⟩
    · exact (hapart file hfile).1 prefix_rfl
    · exact (hapart file hfile).2 hpre

theorem LaidOut.append {files' : List (Place × Bytes)} (h : LaidOut files fs fs')
    (h' : LaidOut files' fs' fs'') (hapart : ∀ file ∈ files, ∀ file' ∈ files', Apart file.1 file'.1) :
    LaidOut (files ++ files') fs fs'' where
  there file hfile := by
    rcases mem_append.mp hfile with hold | hnew
    · have hthere := h.there file hold
      rw [← hthere]
      refine h'.touches.get_eq ?_ ?_
      · rw [hthere]
        rintro (hnone | hdir)
        · cases hnone
        · cases hdir
      · rintro ⟨file', hfile', heq⟩
        exact (hapart file hold file' hfile').1 (heq ▸ prefix_rfl)
    · exact h'.there file hnew
  touches := by
    refine (h.touches.mono ?_ ?_ fun _ hno => hno).trans (h'.touches.mono ?_ ?_ fun _ hno => hno)
    · exact fun p ⟨file, hfile, heq⟩ => ⟨file, mem_append_left _ hfile, heq⟩
    · exact fun p ⟨file, hfile, hpre⟩ => ⟨file, mem_append_left _ hfile, hpre⟩
    · exact fun p ⟨file, hfile, heq⟩ => ⟨file, mem_append_right _ hfile, heq⟩
    · exact fun p ⟨file, hfile, hpre⟩ => ⟨file, mem_append_right _ hfile, hpre⟩

/-- Every file that was laid out has its directory. -/
theorem LaidOut.dir (h : LaidOut files fs fs') {file : Place × Bytes} (hfile : file ∈ files)
    (hne : file.1 ≠ []) : fs'.get file.1.dropLast = some .dir := by
  refine get_parent (c := file.1.getLast hne) ?_
  rw [dropLast_append_getLast hne, h.there file hfile]
  nofun

/-- A file that came is one of those laid out. -/
theorem LaidOut.mem_of_new (h : LaidOut files fs fs') (hp : Hollow (fs.get p)) {node : Node}
    (hp' : fs'.get p = some node) (hnode : node ≠ .dir) :
    ∃ file ∈ files, p = file.1 := by
  have hfull : ¬Hollow (fs'.get p) := by
    rw [hp']
    rintro (hnone | hdir)
    · cases hnone
    · exact hnode (Option.some.inj hdir)
  rcases h.touches.only p (fun hsame => hfull (hsame ▸ hp)) with hfile | ⟨-, -, hhollow⟩
  · exact hfile
  · exact absurd hhollow hfull

/-- Nothing is below a place with nothing right below it. -/
theorem get_below_leaf {dir : Place} (hleaf : fs.isLeaf dir = true) (first : Bytes) (rest : Place) :
    fs.get (dir ++ first :: rest) = none := by
  by_contra hthere
  have hfirst : fs.get (dir ++ [first]) ≠ none := by
    by_cases hrest : rest = []
    · rwa [hrest] at hthere
    · rw [append_cons] at hthere
      rw [get_above hrest hthere]
      nofun
  exact hfirst (isLeaf_iff.mp hleaf first)

/-- A directory with nothing in it has room for everything. -/
theorem room_of_leaf {dir : Place} (hplain : Plain dir) (hdir : fs.get dir = some .dir)
    (hleaf : fs.isLeaf dir = true) (hne : p ≠ []) (hp : Plain p) : fs.Room (dir ++ p) := by
  obtain ⟨first, rest, rfl⟩ := exists_cons_of_ne_nil hne
  refine ⟨fun c hc => ?_, by simp, fun q hq => ?_, get_below_leaf hleaf first rest⟩
  · rcases mem_append.mp hc with hmem | hmem
    · exact hplain c hmem
    · exact hp c hmem
  · have hq := hq.trans (List.dropLast_prefix _)
    rcases prefix_or_prefix_of_prefix hq (prefix_append dir (first :: rest)) with
      ⟨tail, htail⟩ | ⟨tail, rfl⟩
    · by_cases hnil : tail = []
      · rw [hnil, append_nil] at htail
        exact .inr (htail ▸ hdir)
      · exact .inr (get_above hnil (by rw [htail, hdir]; nofun))
    · cases tail with
      | nil => exact .inr (by rwa [append_nil])
      | cons c tail => exact .inl (get_below_leaf hleaf c tail)

/-- A file is written where its directory is. -/
theorem Room.write (h : fs.Room p) (hdir : fs.get p.dropLast = some .dir) (content : Bytes) :
    ∃ fs', fs.write p content = .ok fs' ∧ LaidOut [(p, content)] fs fs' := by
  obtain ⟨fs', hwrite, hget⟩ : ∃ fs', fs.write p content = .ok fs' ∧
      fs'.get p = some (.file content false) := write_ok h.plain h.ne hdir h.free
  have hclear : fs.Clear p := by
    intro q hq hne
    refine Hollow.noLink (h.way q ?_)
    obtain ⟨last, hlast⟩ : ∃ last, p = p.dropLast ++ [last] :=
      ⟨p.getLast h.ne, (dropLast_append_getLast h.ne).symm⟩
    rw [hlast, prefix_concat_iff] at hq
    rcases hq with heq | hq
    · exact absurd (heq.trans hlast.symm) hne
    · exact hq
  have hlink : fs.NoLink p := fun target htarget => by
    rw [h.free] at htarget
    cases htarget
  obtain ⟨htouches, -⟩ := write_touches h.plain hclear hlink hwrite
  refine ⟨fs', hwrite, ⟨fun file hfile => ?_, htouches.mono ?_ (fun _ hno => hno.elim) fun _ hno => hno⟩⟩
  · rw [mem_singleton.mp hfile]
    exact hget
  · exact fun q hq => ⟨(p, content), mem_cons_self, hq⟩

/-- The directories above a place are made. -/
theorem createDirAll_laidOut (hplain : Plain p) (hopen : fs.Open p) :
    ∃ fs', fs.createDirAll p = (fs', .ok ()) ∧ fs'.get p = some .dir ∧
      Touches nowhere (· <+: p) nowhere fs fs' := by
  obtain ⟨fs', hmake, hdir⟩ := createDirAll_open hplain hopen
  refine ⟨fs', hmake, hdir, ?_⟩
  have htouches : Touches _ _ _ fs (fs.createDirAll p).1 := createDirAll_touches hplain hopen.clear
  rw [hmake] at htouches
  exact htouches.mono (fun _ h => h) (fun _ h => h.1) fun _ h => h

/-- New directories leave room. -/
theorem Room.of_dirs {dirs : Place → Prop} (h : fs.Room p) (htouches : Touches nowhere dirs nowhere fs fs')
    (hp : ¬dirs p) : fs'.Room p where
  plain := h.plain
  ne := h.ne
  way q hq := by
    by_cases hsame : fs'.get q = fs.get q
    · rw [hsame]
      exact h.way q hq
    · rcases htouches.only q hsame with hno | ⟨-, -, hhollow⟩
      · exact hno.elim
      · exact hhollow
  free := by rw [htouches.get_eq_of_not_dirs (fun hno => hno) hp, h.free]

/-- **A file with the directories above it** is written where there is room. -/
theorem Room.createDirs_write (h : fs.Room p) (content : Bytes) : ∃ fs' fs'',
    fs.createDirAll p.dropLast = (fs', .ok ()) ∧ fs'.write p content = .ok fs'' ∧
      LaidOut [(p, content)] fs fs'' := by
  obtain ⟨fs', hmake, hdir, htouches⟩ :=
    createDirAll_laidOut (h.plain.of_le (List.dropLast_prefix p)) h.way
  have hnot : ¬p <+: p.dropLast := by
    intro hpre
    have hle := hpre.length_le
    have hpos := length_pos_iff.mpr h.ne
    rw [length_dropLast] at hle
    omega
  obtain ⟨fs'', hwrite, hlaid⟩ := (h.of_dirs htouches hnot).write hdir content
  refine ⟨fs', fs'', hmake, hwrite, hlaid.there, ?_⟩
  refine Touches.trans (htouches.mono (fun _ hno => hno.elim) (fun q hq => ?_) fun _ hno => hno) hlaid.touches
  exact ⟨(p, content), mem_cons_self, hq.trans (List.dropLast_prefix p)⟩

end Alt.Library.FileTree
