import Alt.Library.FileLayout
import Alt.Repo.OneWorkspace

namespace Alt.Export

open Alt.Library Alt.Library.FileTree Alt.Odb Alt.Refs Alt.Repo List

/-!
# The refs of an export (`alt-export/src/lib.rs`; `alt-git-refs/src/write.rs`)

An export lays a repository out as files: the config, one pack, HEAD, and a file for each other ref
of the store, at the path its name spells.

* `exportGit` — the files in the order they are written;
* `export_layout` — where the names are safe and none is above another, all of it goes through;
* `layout_tame` — what a ref transaction must keep to for the names to stay so;
* `export_in_refs` — so after every run of such transactions an export has HEAD and the refs.
-/

/-! ### Writing refs -/

inductive ExportError
  | io (e : IoError)
  | targetNotEmpty
  | format (message : String)
  deriving DecidableEq

/-- What is left on disk, and whether all went well. -/
abbrev Out := FileTree × Except ExportError Unit

/-- The next step, if all went well. -/
def Out.andThen (out : Out) (next : FileTree → Out) : Out :=
  match out with
  | (fs, .ok ()) => next fs
  | (fs, .error e) => (fs, .error e)

def createDirs (path : List Bytes) (fs : FileTree) : Out :=
  match fs.createDirAll path with
  | (fs, .ok ()) => (fs, .ok ())
  | (fs, .error e) => (fs, .error (.io e))

def writeFile (path : List Bytes) (content : Bytes) (fs : FileTree) : Out :=
  match fs.write path content with
  | .ok fs => (fs, .ok ())
  | .error e => (fs, .error (.io e))

def render : RefTarget → Bytes
  | .oid id => utf8 (String.ofList id.hexText) ++ [0x0a]
  | .symbolic name => utf8 "ref: " ++ utf8 name ++ [0x0a]

/-- The names between the slashes of a ref's name. -/
def namesOf (name : String) : List Bytes := splitPath (utf8 name)

/-- Path-shaped abuse is refused. -/
def validName (name : String) : Bool :=
  let bytes := utf8 name
  bytes ≠ [] && bytes.head? ≠ some slash && bytes.getLast? ≠ some slash &&
    (namesOf name).all fun part => part ≠ [] && part ≠ dot && part ≠ dotdot

section

-- the names that the system takes for a path: not all, for their bytes or their length
variable (takes : String → Bool)

def writeRef (git : Place) (ref : String × RefTarget) (fs : FileTree) : Out :=
  if !validName ref.1 then (fs, .error (.format "ref name fails path safety"))
  else if !takes ref.1 then (fs, .error (.io .invalidInput))
  else
    (createDirs (git ++ (namesOf ref.1).dropLast) fs).andThen
      (writeFile (git ++ namesOf ref.1) (render ref.2))

def writeRefs (git : Place) : List (String × RefTarget) → FileTree → Out
  | [], fs => (fs, .ok ())
  | ref :: refs, fs => (writeRef takes git ref fs).andThen (writeRefs git refs)

def headName : Bytes := utf8 "HEAD"

def writeLoose (git : Place) (head : Option RefTarget) (refs : List (String × RefTarget))
    (fs : FileTree) : Out :=
  Out.andThen
    (match head with
      | some target => writeFile (git ++ [headName]) (render target) fs
      | none => (fs, .ok ()))
    (writeRefs takes git refs)

/-! ### The export -/

/-- The pack of an export, as `PackWriter` leaves it. -/
structure Pack where
  trailer : Bytes
  pack : Bytes
  idx : Bytes

def Pack.place (pack : Pack) (ending : String) : Place :=
  [utf8 "objects", utf8 "pack", utf8 "pack-" ++ utf8 (String.ofList (hexChars pack.trailer)) ++ utf8 ending]

/-- The directory of an export must be empty, or is made. -/
def prepareTarget (target : List Bytes) (fs : FileTree) : Out :=
  match fs.follow target with
  | .error .notFound => createDirs target fs
  | .error e => (fs, .error (.io e))
  | .ok p =>
    match fs.get p with
    | none => createDirs target fs
    | some .dir => if fs.isLeaf p then (fs, .ok ()) else (fs, .error .targetNotEmpty)
    | some _ => (fs, .error (.io .notADirectory))

def gitName : Bytes := utf8 ".git"

/-- The refs besides HEAD, in the order of their names. -/
def looseRefs (refs : RefMap) : List (String × RefTarget) :=
  refs.toList.filter fun e => e.1 ≠ "HEAD"

/-- The config and the objects. -/
def exportObjects (git : Place) (config : Bytes) (pack : Pack) (fs : FileTree) : Out :=
  (createDirs (git ++ [utf8 "refs"]) fs).andThen fun fs =>
  (writeFile (git ++ [utf8 "config"]) config fs).andThen fun fs =>
  (createDirs (git ++ [utf8 "objects", utf8 "pack"]) fs).andThen fun fs =>
  (writeFile (git ++ pack.place ".pack") pack.pack fs).andThen
    (writeFile (git ++ pack.place ".idx") pack.idx)

def exportGit (target : List Bytes) (config : Bytes) (pack : Pack) (refs : RefMap) (fs : FileTree) :
    Out :=
  let git := target ++ [gitName]
  (prepareTarget target fs).andThen fun fs =>
  (exportObjects git config pack fs).andThen
    (writeLoose takes git refs["HEAD"]? (looseRefs refs))

end

/-! ### Names that can be laid out -/

/-- A ref that becomes a file below `refs`. -/
structure RefName (takes : String → Bool) (name : String) : Prop where
  inRefs : name.startsWith "refs/" = true
  valid : validName name = true
  taken : takes name = true

/-- Refs that an export can lay out: HEAD, and names of which none is above another. -/
structure Layout (takes : String → Bool) (refs : RefMap) : Prop where
  head : refs["HEAD"]? ≠ none
  names : ∀ name, refs[name]? ≠ none → name ≠ "HEAD" → RefName takes name
  apart : ∀ a b, refs[a]? ≠ none → refs[b]? ≠ none → a ≠ b → Apart (namesOf a) (namesOf b)

/-- What an export is to leave of the refs: HEAD, the config as it was written, and a file for each ref
    under `refs/`, and no other file outside `objects`. -/
structure Exported (git : Place) (config : Bytes) (refs : RefMap) (fs : FileTree) : Prop where
  head : ∃ target, refs["HEAD"]? = some target ∧
    fs.get (git ++ [headName]) = some (.file (render target) false)
  config : fs.get (git ++ [utf8 "config"]) = some (.file config false)
  loose : ∀ name target, name.startsWith "refs/" = true → refs[name]? = some target →
    fs.get (git ++ namesOf name) = some (.file (render target) false)
  only : ∀ q node, fs.get (git ++ q) = some node → node ≠ .dir →
    q = [headName] ∨ q = [utf8 "config"] ∨ q.head? = some (utf8 "objects") ∨
      ∃ name target, name.startsWith "refs/" = true ∧ refs[name]? = some target ∧ q = namesOf name

section

variable {takes : String → Bool} {fs fs' : FileTree} {git : Place} {refs : RefMap} {name : String}

theorem plain_namesOf (h : validName name = true) : Plain (namesOf name) := by
  intro c hc hspecial
  simp only [validName, Bool.and_eq_true, all_eq_true] at h
  have hpart := h.2 c hc
  simp only [ne_eq, decide_not, Bool.not_eq_true', decide_eq_false_iff_not] at hpart
  rcases hspecial with hnil | hdot | hdotdot
  · exact hpart.1.1 hnil
  · exact hpart.1.2 hdot
  · exact hpart.2 hdotdot

theorem namesOf_ne_nil (name : String) : namesOf name ≠ [] :=
  splitOn_ne_nil slash (utf8 name)

/-- A ref below `refs` is below that directory. -/
theorem namesOf_refs (h : name.startsWith "refs/" = true) :
    ∃ first rest, namesOf name = utf8 "refs" :: first :: rest := by
  rw [String.startsWith_string_iff] at h
  obtain ⟨tail, htail⟩ := h
  have hname : utf8 name = utf8 "refs" ++ slash :: tail.flatMap String.utf8EncodeChar := by
    rw [← String.ofList_toList (s := name), utf8_ofList, ← htail, flatMap_append]
    rfl
  have hrefs : (utf8 "refs").splitOn slash = [utf8 "refs"] := by decide +kernel
  rw [namesOf, splitPath, hname, splitOn_append_cons_self, hrefs]
  cases hrest : (tail.flatMap String.utf8EncodeChar).splitOn slash with
  | nil => exact absurd hrest (splitOn_ne_nil _ _)
  | cons first rest => exact ⟨first, rest, rfl⟩

/-! ### Laying out -/

theorem Out.andThen_ok (next : FileTree → Out) : Out.andThen (fs, .ok ()) next = next fs := rfl

theorem createDirs_ok {path : List Bytes} (h : fs.createDirAll path = (fs', .ok ())) :
    createDirs path fs = (fs', .ok ()) := by
  rw [createDirs, h]

theorem writeFile_ok {path : List Bytes} {content : Bytes} (h : fs.write path content = .ok fs') :
    writeFile path content fs = (fs', .ok ()) := by
  rw [writeFile, h]

/-- The file of a ref. -/
def refFile (git : Place) (ref : String × RefTarget) : Place × Bytes :=
  (git ++ namesOf ref.1, render ref.2)

theorem writeRef_laidOut {ref : String × RefTarget} (hname : RefName takes ref.1)
    (hroom : fs.Room (git ++ namesOf ref.1)) :
    ∃ fs', writeRef takes git ref fs = (fs', .ok ()) ∧ LaidOut [refFile git ref] fs fs' := by
  obtain ⟨fs', fs'', hmake, hwrite, hlaid⟩ := hroom.createDirs_write (render ref.2)
  rw [dropLast_append_of_ne_nil (namesOf_ne_nil ref.1)] at hmake
  refine ⟨fs'', ?_, hlaid⟩
  rw [writeRef, hname.valid, hname.taken, createDirs_ok hmake, Out.andThen_ok, writeFile_ok hwrite]
  rfl

theorem writeRefs_laidOut (git : Place) {loose : List (String × RefTarget)} (hnames : ∀ ref ∈ loose, RefName takes ref.1)
    (hroom : ∀ ref ∈ loose, fs.Room (git ++ namesOf ref.1))
    (hapart : loose.Pairwise fun ref ref' => Apart (namesOf ref.1) (namesOf ref'.1)) :
    ∃ fs', writeRefs takes git loose fs = (fs', .ok ()) ∧ LaidOut (loose.map (refFile git)) fs fs' := by
  induction loose generalizing fs with
  | nil => exact ⟨fs, rfl, LaidOut.nil fs⟩
  | cons ref loose ih =>
    obtain ⟨hfirst, hrest⟩ := pairwise_cons.mp hapart
    obtain ⟨fs₁, hwrite, hlaid⟩ := writeRef_laidOut (hnames ref mem_cons_self)
      (hroom ref mem_cons_self)
    have hroom₁ : ∀ ref' ∈ loose, fs₁.Room (git ++ namesOf ref'.1) := by
      intro ref' hmem
      refine hlaid.room (hroom ref' (mem_cons_of_mem ref hmem)) fun file hfile => ?_
      rw [mem_singleton.mp hfile]
      exact (hfirst ref' hmem).append_left git
    obtain ⟨fs₂, hwrites, hlaids⟩ := ih (fun ref' hmem => hnames ref' (mem_cons_of_mem ref hmem))
      hroom₁ hrest
    refine ⟨fs₂, ?_, ?_⟩
    · rw [writeRefs, hwrite, Out.andThen_ok, hwrites]
    · refine hlaid.append hlaids fun file hfile file' hfile' => ?_
      obtain ⟨ref', hmem, rfl⟩ := mem_map.mp hfile'
      rw [mem_singleton.mp hfile]
      exact (hfirst ref' hmem).append_left git

/-- The files besides the refs. -/
def objectFiles (git : Place) (config : Bytes) (pack : Pack) : List (Place × Bytes) :=
  [(git ++ [utf8 "config"], config), (git ++ pack.place ".pack", pack.pack),
    (git ++ pack.place ".idx", pack.idx)]

theorem apart_of_first {a b : Bytes} {p q : Place} (h : a ≠ b) : Apart (a :: p) (b :: q) :=
  ⟨fun hpre => h (cons_prefix_cons.mp hpre).1, fun hpre => h (cons_prefix_cons.mp hpre).1.symm⟩

theorem pack_apart (pack : Pack) : Apart (pack.place ".pack") (pack.place ".idx") := by
  refine Apart.append_left [utf8 "objects", utf8 "pack"] (apart_of_first fun heq => ?_)
  exact absurd (append_cancel_left heq) (by decide +kernel)

theorem plain_place (pack : Pack) (ending : String) : Plain (pack.place ending) := by
  intro c hc
  simp only [Pack.place, mem_cons, not_mem_nil, or_false] at hc
  rcases hc with rfl | rfl | rfl
  · decide +kernel
  · decide +kernel
  · have hlength : 5 ≤ (utf8 "pack-" ++ utf8 (String.ofList (hexChars pack.trailer)) ++ utf8 ending).length := by
      have hfront : (utf8 "pack-").length = 5 := by decide +kernel
      rw [length_append, length_append, hfront]
      omega
    rintro (hnil | hdot | hdotdot)
    · rw [hnil] at hlength
      cases hlength
    · rw [hdot] at hlength
      exact absurd hlength (by decide)
    · rw [hdotdot] at hlength
      exact absurd hlength (by decide)

/-- The config and the objects are laid out, below directories of their own. -/
theorem exportObjects_laidOut (config : Bytes) (pack : Pack)
    (hroom : ∀ rel : Place, rel ≠ [] → Plain rel → fs.Room (git ++ rel)) : ∃ fs₁ fs',
    exportObjects git config pack fs = (fs', .ok ()) ∧
      Touches nowhere (· <+: git ++ [utf8 "refs"]) nowhere fs fs₁ ∧
      LaidOut (objectFiles git config pack) fs₁ fs' := by
  have hrefsRoom := hroom [utf8 "refs"] (cons_ne_nil _ _) (by decide +kernel)
  have hopen : fs.Open (git ++ [utf8 "refs"]) := by
    intro q hq
    rw [prefix_concat_iff] at hq
    rcases hq with rfl | hq
    · exact .inl hrefsRoom.free
    · refine hrefsRoom.way q ?_
      rwa [dropLast_concat]
  obtain ⟨fs₁, hmake, hdir, htouches⟩ := createDirAll_laidOut hrefsRoom.plain hopen
  have hgit₁ : fs₁.get git = some .dir := get_parent (by rw [hdir]; nofun)
  have hroom₁ : ∀ first rest, first ≠ utf8 "refs" → Plain (first :: rest) →
      fs₁.Room (git ++ first :: rest) := by
    intro first rest hne hplain
    refine (hroom _ (cons_ne_nil _ _) hplain).of_dirs htouches fun hpre => hne ?_
    exact (cons_prefix_cons.mp ((prefix_append_right_inj git).mp hpre)).1
  -- the config
  have hconfig := hroom₁ (utf8 "config") [] (by decide +kernel) (by decide +kernel)
  obtain ⟨fs₂, hwrite₂, hlaid₂⟩ := hconfig.write (by rwa [dropLast_concat]) config
  have hobjects : utf8 "config" ≠ utf8 "objects" := by decide +kernel
  have happart : ∀ file ∈ [(git ++ [utf8 "config"], config)], ∀ ending,
      Apart file.1 (git ++ pack.place ending) := by
    intro file hfile ending
    rw [mem_singleton.mp hfile]
    exact (apart_of_first hobjects).append_left git
  have hplace₂ : ∀ ending, fs₂.Room (git ++ pack.place ending) := fun ending =>
    hlaid₂.room (hroom₁ _ _ (by decide +kernel) (plain_place pack ending)) fun file hfile =>
      happart file hfile ending
  -- the pack, with its directory
  obtain ⟨fs₃, fs₄, hmake₃, hwrite₄, hlaid₄⟩ := (hplace₂ ".pack").createDirs_write pack.pack
  have hdrop : (git ++ pack.place ".pack").dropLast = git ++ [utf8 "objects", utf8 "pack"] :=
    dropLast_append_of_ne_nil (cons_ne_nil _ _)
  rw [hdrop] at hmake₃
  have hidx : fs₄.Room (git ++ pack.place ".idx") := by
    refine hlaid₄.room (hplace₂ ".idx") fun file hfile => ?_
    rw [mem_singleton.mp hfile]
    exact (pack_apart pack).append_left git
  have hdir₄ : fs₄.get (git ++ pack.place ".idx").dropLast = some .dir := by
    have hpack := hlaid₄.dir (mem_singleton_self _) (by simp [Pack.place])
    have hdrop' : (git ++ pack.place ".idx").dropLast = (git ++ pack.place ".pack").dropLast :=
      hdrop.symm ▸ dropLast_append_of_ne_nil (cons_ne_nil _ _)
    rwa [hdrop']
  obtain ⟨fs₅, hwrite₅, hlaid₅⟩ := hidx.write hdir₄ pack.idx
  refine ⟨fs₁, fs₅, ?_, htouches, ?_⟩
  · rw [exportObjects, createDirs_ok hmake, Out.andThen_ok, writeFile_ok hwrite₂, Out.andThen_ok,
      createDirs_ok hmake₃, Out.andThen_ok, writeFile_ok hwrite₄, Out.andThen_ok, writeFile_ok hwrite₅]
  · refine (hlaid₂.append hlaid₄ fun file hfile file' hfile' => ?_).append hlaid₅
      fun file hfile file' hfile' => ?_
    · rw [mem_singleton.mp hfile']
      exact happart file hfile ".pack"
    · rw [mem_singleton.mp hfile']
      rcases mem_append.mp hfile with hfile | hfile
      · exact happart file hfile ".idx"
      · rw [mem_singleton.mp hfile]
        exact (pack_apart pack).append_left git

theorem prepareTarget_ok {target : Place} (hplain : Plain target) (hdir : fs.get target = some .dir)
    (hleaf : fs.isLeaf target = true) : prepareTarget target fs = (fs, .ok ()) := by
  have hfollow : fs.follow target = .ok target :=
    follow_direct (direct_of_get hplain hdir) fun link hlink => by rw [hdir] at hlink; cases hlink
  rw [prepareTarget, hfollow]
  dsimp only
  rw [hdir]
  dsimp only
  rw [if_pos hleaf]

theorem mem_looseRefs {ref : String × RefTarget} :
    ref ∈ looseRefs refs ↔ refs[ref.1]? = some ref.2 ∧ ref.1 ≠ "HEAD" := by
  rw [looseRefs, mem_filter, Std.ExtTreeMap.mem_toList_iff_getElem?_eq_some, decide_eq_true_iff]

theorem Layout.apart_looseRefs (h : Layout takes refs) :
    (looseRefs refs).Pairwise fun ref ref' => Apart (namesOf ref.1) (namesOf ref'.1) := by
  have hkeys : refs.toList.Pairwise fun a b => ¬compare a.1 b.1 = .eq :=
    Std.ExtTreeMap.distinct_keys_toList
  refine (hkeys.filter _).imp_of_mem fun {a b} ha hb hne => ?_
  have ha := mem_looseRefs.mp ha
  have hb := mem_looseRefs.mp hb
  refine h.apart a.1 b.1 (by rw [ha.1]; nofun) (by rw [hb.1]; nofun) fun heq => hne ?_
  rw [heq]
  exact Std.ReflCmp.compare_self

theorem first_of_objectFiles {config : Bytes} {pack : Pack} {file : Place × Bytes}
    (h : file ∈ objectFiles git config pack) :
    file = (git ++ [utf8 "config"], config) ∨ ∃ rest, file.1 = git ++ utf8 "objects" :: rest := by
  simp only [objectFiles, mem_cons, not_mem_nil, or_false] at h
  rcases h with rfl | rfl | rfl
  · exact .inl rfl
  · exact .inr ⟨_, rfl⟩
  · exact .inr ⟨_, rfl⟩

/-- The config and the objects are apart from HEAD and from the refs. -/
theorem objectFiles_apart {config : Bytes} {pack : Pack} {first : Bytes} {rest : Place}
    (hconfig : first ≠ utf8 "config") (hobjects : first ≠ utf8 "objects") :
    ∀ file ∈ objectFiles git config pack, Apart file.1 (git ++ first :: rest) := by
  intro file hfile
  rcases first_of_objectFiles hfile with rfl | ⟨below, hbelow⟩
  · exact (apart_of_first hconfig.symm).append_left git
  · rw [hbelow]
    exact (apart_of_first hobjects.symm).append_left git

/-- HEAD and the refs are laid out. -/
theorem writeLoose_laidOut (h : Layout takes refs) (hgit : fs.get git = some .dir)
    (hhead : fs.Room (git ++ [headName]))
    (hrefs : ∀ ref ∈ looseRefs refs, fs.Room (git ++ namesOf ref.1)) : ∃ fs' target,
    refs["HEAD"]? = some target ∧
      writeLoose takes git refs["HEAD"]? (looseRefs refs) fs = (fs', .ok ()) ∧
      LaidOut ((git ++ [headName], render target) :: (looseRefs refs).map (refFile git)) fs fs' := by
  obtain ⟨target, htarget⟩ := Option.ne_none_iff_exists'.mp h.head
  obtain ⟨fs₁, hwrite, hlaid⟩ := hhead.write (by rwa [dropLast_concat]) (render target)
  have hnames : ∀ ref ∈ looseRefs refs, RefName takes ref.1 := by
    intro ref hmem
    obtain ⟨hget, hne⟩ := mem_looseRefs.mp hmem
    exact h.names ref.1 (by rw [hget]; nofun) hne
  have hapart : ∀ file ∈ [(git ++ [headName], render target)], ∀ ref ∈ looseRefs refs,
      Apart file.1 (git ++ namesOf ref.1) := by
    intro file hfile ref hmem
    rw [mem_singleton.mp hfile]
    obtain ⟨first, rest, hname⟩ := namesOf_refs (hnames ref hmem).inRefs
    rw [hname]
    exact (apart_of_first (by decide +kernel)).append_left git
  obtain ⟨fs₂, hwrites, hlaids⟩ := writeRefs_laidOut git hnames
    (fun ref hmem => hlaid.room (hrefs ref hmem) fun file hfile => hapart file hfile ref hmem)
    h.apart_looseRefs
  refine ⟨fs₂, target, htarget, ?_, hlaid.append hlaids fun file hfile file' hfile' => ?_⟩
  · rw [htarget, writeLoose, writeFile_ok hwrite, Out.andThen_ok, hwrites]
  · obtain ⟨ref, hmem, rfl⟩ := mem_map.mp hfile'
    exact hapart file hfile ref hmem

/-- **What an export leaves**, where the refs can be laid out. -/
theorem export_layout (h : Layout takes refs) {target : Place} {config : Bytes} {pack : Pack}
    (hplain : Plain target) (hdir : fs.get target = some .dir) (hleaf : fs.isLeaf target = true) :
    ∃ fs', exportGit takes target config pack refs fs = (fs', .ok ()) ∧
      Exported (target ++ [gitName]) config refs fs' := by
  have hgitName : Plain [gitName] := by decide +kernel
  have hroom : ∀ rel : Place, rel ≠ [] → Plain rel → fs.Room ((target ++ [gitName]) ++ rel) := by
    intro rel hne hrel
    rw [append_assoc]
    refine room_of_leaf hplain hdir hleaf (cons_ne_nil _ _) fun c hc => ?_
    rcases mem_cons.mp hc with rfl | hmem
    · exact hgitName _ mem_cons_self
    · exact hrel c hmem
  generalize hgit : target ++ [gitName] = git at hroom
  obtain ⟨fs₁, fs₂, hobjects, htouches, hlaid⟩ := exportObjects_laidOut config pack hroom
  -- what has room after the objects
  have hroom₂ : ∀ first rest, first ≠ utf8 "config" → first ≠ utf8 "objects" →
      Plain (first :: rest) → (first = utf8 "refs" → rest ≠ []) → fs₂.Room (git ++ first :: rest) := by
    intro first rest hconfig hobj hrel hrest
    refine hlaid.room ((hroom _ (cons_ne_nil _ _) hrel).of_dirs htouches fun hpre => ?_)
      (objectFiles_apart hconfig hobj)
    have hcons := cons_prefix_cons.mp ((prefix_append_right_inj git).mp hpre)
    exact hrest hcons.1 (prefix_nil.mp hcons.2)
  have hgit₂ : fs₂.get git = some .dir := by
    have hconfigDir : fs₂.get (git ++ [utf8 "config"]).dropLast = some .dir :=
      hlaid.dir (show (git ++ [utf8 "config"], config) ∈ _ from mem_cons_self) (by simp)
    rwa [dropLast_concat] at hconfigDir
  have hhead : fs₂.Room (git ++ [headName]) :=
    hroom₂ headName [] (by decide +kernel) (by decide +kernel) (by decide +kernel) fun heq =>
      absurd heq (by decide +kernel)
  have hrefs : ∀ ref ∈ looseRefs refs, fs₂.Room (git ++ namesOf ref.1) := by
    intro ref hmem
    obtain ⟨hget, hne⟩ := mem_looseRefs.mp hmem
    have hname := h.names ref.1 (by rw [hget]; nofun) hne
    obtain ⟨first, rest, hparts⟩ := namesOf_refs hname.inRefs
    have hplainName := plain_namesOf hname.valid
    rw [hparts] at hplainName ⊢
    exact hroom₂ _ _ (by decide +kernel) (by decide +kernel) hplainName fun _ => cons_ne_nil _ _
  obtain ⟨fs₃, head, hheadRef, hloose, hlaid₃⟩ := writeLoose_laidOut h hgit₂ hhead hrefs
  have hall : LaidOut (objectFiles git config pack ++
      (git ++ [headName], render head) :: (looseRefs refs).map (refFile git)) fs₁ fs₃ := by
    refine hlaid.append hlaid₃ fun file hfile file' hfile' => ?_
    rcases mem_cons.mp hfile' with rfl | hfile'
    · exact objectFiles_apart (by decide +kernel) (by decide +kernel) file hfile
    · obtain ⟨ref, hmem, rfl⟩ := mem_map.mp hfile'
      obtain ⟨hget, hne⟩ := mem_looseRefs.mp hmem
      obtain ⟨first, rest, hparts⟩ := namesOf_refs (h.names ref.1 (by rw [hget]; nofun) hne).inRefs
      rw [refFile, hparts]
      exact objectFiles_apart (by decide +kernel) (by decide +kernel) file hfile
  refine ⟨fs₃, ?_, ⟨head, hheadRef, hall.there _ (mem_append_right _ mem_cons_self)⟩,
    hall.there _ (mem_append_left _ mem_cons_self), fun name value hin hget => ?_,
    fun q node hnode hne => ?_⟩
  · rw [exportGit, prepareTarget_ok hplain hdir hleaf, Out.andThen_ok, hgit, hobjects, Out.andThen_ok, hloose]
  · have hmem : (name, value) ∈ looseRefs refs := by
      refine mem_looseRefs.mpr ⟨hget, ?_⟩
      rintro rfl
      exact absurd hin (by decide +kernel)
    exact hall.there _ (mem_append_right _ (mem_cons_of_mem _ (mem_map_of_mem hmem)))
  · -- a file below the repository was not there before, so it is one of those laid out
    have hnone : fs.get (git ++ q) = none := by
      rw [← hgit, append_assoc]
      exact get_below_leaf hleaf _ _
    have hhollow : Hollow (fs₁.get (git ++ q)) := by
      by_cases hsame : fs₁.get (git ++ q) = fs.get (git ++ q)
      · exact .inl (hsame.trans hnone)
      · rcases htouches.only _ hsame with hno | ⟨-, -, hhollow⟩
        · exact hno.elim
        · exact hhollow
    obtain ⟨file, hfile, hplace⟩ := hall.mem_of_new hhollow hnode hne
    rcases mem_append.mp hfile with hfile | hfile
    · rcases first_of_objectFiles hfile with rfl | ⟨rest, hrest⟩
      · exact .inr (.inl (append_cancel_left hplace))
      · rw [append_cancel_left (hplace.trans hrest)]
        exact .inr (.inr (.inl rfl))
    · rcases mem_cons.mp hfile with rfl | hfile
      · exact .inl (append_cancel_left hplace)
      · obtain ⟨ref, hmem, rfl⟩ := mem_map.mp hfile
        obtain ⟨hget, hhead⟩ := mem_looseRefs.mp hmem
        have hname := h.names ref.1 (by rw [hget]; nofun) hhead
        exact .inr (.inr (.inr ⟨ref.1, ref.2, hname.inRefs, hget, append_cancel_left hplace⟩))

end

/-! ### Runs -/

/-- A ref that is there after a transaction: it is set, or was there and is left. -/
def Stays (refs : RefMap) (changes : List RefChange) (name : String) : Prop :=
  (∃ c ∈ changes, c.name = name ∧ c.new ≠ none) ∨ (refs[name]? ≠ none ∧ ∀ c ∈ changes, c.name ≠ name)

/-- A transaction that keeps the refs such that they can be laid out. -/
structure Tame (takes : String → Bool) (refs : RefMap) (changes : List RefChange) : Prop where
  /-- HEAD is not deleted. -/
  head : ∀ c ∈ changes, c.name = "HEAD" → c.new ≠ none
  /-- No HEAD of another workspace, scratch ref or other name outside `refs/` is set. -/
  names : ∀ c ∈ changes, c.new ≠ none → c.name = "HEAD" ∨ RefName takes c.name
  /-- No ref is set above or below another that is there afterwards. -/
  apart : ∀ c ∈ changes, c.new ≠ none → ∀ name, Stays refs changes name → name ≠ c.name →
    Apart (namesOf c.name) (namesOf name)

/-- A run whose transactions, with the first one, are all tame. -/
inductive TameRun (takes : String → Bool) : World → Prop
  | start {w : World} (h : World.Start w) (hhead : w.refs["HEAD"]? ≠ none)
      (htame : ∀ changes, w.txs = [changes] → Tame takes ∅ changes) : TameRun takes w
  | step {w w' : World} (h : TameRun takes w) (hstep : World.Step w w')
      (htame : ∀ changes, w'.txs = w.txs ++ [changes] → Tame takes w.refs changes) : TameRun takes w'

section

variable {takes : String → Bool} {refs : RefMap} {changes : List RefChange} {w w' : World}

theorem stays_of_foldl {name : String} (h : (changes.foldl applyChange refs)[name]? ≠ none) :
    Stays refs changes name := by
  by_cases hset : ∃ c ∈ changes, c.name = name
  · obtain ⟨c, hc, hname⟩ := hset
    obtain ⟨c', hc', hname', hget⟩ := exists_new_of_foldl refs ⟨c, hc, hname⟩
    rw [hget] at h
    exact .inl ⟨c', hc', hname', h⟩
  · have hnone : ∀ c ∈ changes, c.name ≠ name := fun c hc hname => hset ⟨c, hc, hname⟩
    rw [get_foldl_applyChange hnone] at h
    exact .inr ⟨h, hnone⟩

/-- HEAD stays, if it was there or is set. -/
theorem head_of_tame (h : Tame takes refs changes)
    (hhead : refs["HEAD"]? ≠ none ∨ (changes.foldl applyChange refs)["HEAD"]? ≠ none) :
    (changes.foldl applyChange refs)["HEAD"]? ≠ none := by
  by_cases hset : ∃ c ∈ changes, c.name = "HEAD"
  · obtain ⟨c, hc, hname, hget⟩ := exists_new_of_foldl refs hset
    rw [hget]
    exact h.head c hc hname
  · have hnone : ∀ c ∈ changes, c.name ≠ "HEAD" := fun c hc hname => hset ⟨c, hc, hname⟩
    rw [get_foldl_applyChange hnone] at hhead ⊢
    exact hhead.elim id id

/-- **What a tame transaction keeps.** -/
theorem layout_tame (h : Tame takes refs changes)
    (hnames : ∀ name, refs[name]? ≠ none → name ≠ "HEAD" → RefName takes name)
    (hapart : ∀ a b, refs[a]? ≠ none → refs[b]? ≠ none → a ≠ b → Apart (namesOf a) (namesOf b))
    (hhead : (changes.foldl applyChange refs)["HEAD"]? ≠ none) :
    Layout takes (changes.foldl applyChange refs) where
  head := hhead
  names name hname hne := by
    rcases stays_of_foldl hname with ⟨c, hc, rfl, hnew⟩ | ⟨hold, -⟩
    · exact (h.names c hc hnew).resolve_left hne
    · exact hnames name hold hne
  apart a b ha hb hne := by
    have hstays := stays_of_foldl hb
    rcases stays_of_foldl ha with ⟨c, hc, rfl, hnew⟩ | ⟨hold, hother⟩
    · exact h.apart c hc hnew b hstays hne.symm
    · rcases hstays with ⟨c, hc, rfl, hnew⟩ | ⟨hold', -⟩
      · exact (h.apart c hc hnew a (.inr ⟨hold, hother⟩) hne).symm
      · exact hapart a b hold hold' hne

theorem refs_of_start (h : World.Start w) :
    ∃ changes, w.txs = [changes] ∧ w.refs = changes.foldl applyChange ∅ := by
  cases h with
  | init => exact ⟨_, rfl, rfl⟩
  | «import» wanted hnames => exact ⟨_, rfl, rfl⟩

theorem refs_of_step (h : World.Step w w') :
    ∃ changes, w'.txs = w.txs ++ [changes] ∧ w'.refs = changes.foldl applyChange w.refs := by
  cases h with
  | @commit env r verb refs issue hfrom hrefs htx =>
    refine ⟨_, rfl, ?_⟩
    have happly := (refTx_eq_ok.mp htx).2
    rw [hrefs] at happly
    exact applyChanges_ok happly
  | push htx => exact ⟨_, rfl, (Server.commitRefs_eq_ok.mp htx).2⟩

/-- The run rule: in every state of a tame run the refs can be laid out. -/
theorem TameRun.layout (h : TameRun takes w) : Layout takes w.refs := by
  induction h with
  | start h hhead htame =>
    obtain ⟨changes, htxs, hrefs⟩ := refs_of_start h
    rw [hrefs] at hhead ⊢
    exact layout_tame (htame changes htxs) (fun name hname => absurd rfl hname)
      (fun a _ ha => absurd rfl ha) hhead
  | step _ hstep htame ih =>
    obtain ⟨changes, htxs, hrefs⟩ := refs_of_step hstep
    have htame := htame changes htxs
    rw [hrefs]
    exact layout_tame htame ih.names ih.apart (head_of_tame htame (.inl ih.head))

/-- **An export has HEAD and the refs under `refs/`**, after every run of tame transactions. -/
theorem export_in_refs (h : TameRun takes w) {fs : FileTree} {target : Place} {config : Bytes}
    {pack : Pack} (hplain : Plain target) (hdir : fs.get target = some .dir)
    (hleaf : fs.isLeaf target = true) : ∃ fs',
    exportGit takes target config pack w.refs fs = (fs', .ok ()) ∧
      Exported (target ++ [gitName]) config w.refs fs' :=
  export_layout h.layout hplain hdir hleaf

end

/-! ### Toy exports -/

/-- The branches of these names, made one after another in a new repository. -/
def branchesWorld : List String → World
  | [] => ⟨(∅ : RefMap).insert "HEAD" (.symbolic "refs/heads/main"),
      [[⟨"HEAD", none, some (.symbolic "refs/heads/main")⟩]]⟩
  | name :: names =>
    let issue : Issue := .move name none (some (toyId .commit []))
    ⟨(issue.changes "HEAD").foldl applyChange (branchesWorld names).refs,
      (branchesWorld names).txs ++ [issue.changes "HEAD"]⟩

def toyPack : Pack := ⟨[], [], []⟩

theorem step_branch {name : String} (names : List String)
    (hcheck : policyVerdict (some (workspacePolicy .toy)) (branchesWorld names).refs
      ((Issue.move name none (some (toyId .commit []))).changes "HEAD") = .ok ())
    (hnew : (branchesWorld names).refs[name]? = none) :
    World.Step (branchesWorld names) (branchesWorld (name :: names)) :=
  World.step_toy _ trivial hcheck fun c hc => by
    rw [mem_singleton.mp hc]
    exact hnew

theorem tameRun_side : TameRun (fun _ => true) (branchesWorld ["refs/heads/side"]) := by
  have hinit : TameRun (fun _ => true) (branchesWorld []) := by
    refine .start .init (by decide +kernel) fun changes htxs => ?_
    obtain rfl := singleton_inj.mp htxs
    refine ⟨fun c hc _ => ?_, fun c hc _ => ?_, fun c hc _ name hstays hne => ?_⟩
    · rw [mem_singleton.mp hc]
      nofun
    · rw [mem_singleton.mp hc]
      exact .inl rfl
    · rcases hstays with ⟨c', hc', rfl, -⟩ | ⟨hold, -⟩
      · rw [mem_singleton.mp hc, mem_singleton.mp hc'] at hne
        exact absurd rfl hne
      · exact absurd rfl hold
  refine .step hinit (step_branch _ (by decide +kernel) (by decide +kernel)) fun changes htxs => ?_
  obtain rfl := singleton_inj.mp (append_cancel_left htxs)
  refine ⟨fun c hc hname => ?_, fun c hc _ => ?_, fun c hc _ name hstays hne => ?_⟩
  · rw [mem_singleton.mp hc]
    nofun
  · rw [mem_singleton.mp hc]
    exact .inr ⟨by decide +kernel, by decide +kernel, rfl⟩
  · rw [mem_singleton.mp hc] at hne ⊢
    rcases hstays with ⟨c', hc', rfl, -⟩ | ⟨hold, -⟩
    · rw [mem_singleton.mp hc'] at hne
      exact absurd rfl hne
    · have hhead : name = "HEAD" := by
        by_contra hother
        have hnone : (branchesWorld []).refs[name]? = none := by
          rw [branchesWorld, Std.ExtTreeMap.getElem?_insert, if_neg (by simpa using Ne.symm hother)]
          rfl
        exact hold hnone
      rw [hhead]
      exact ⟨by decide +kernel, by decide +kernel⟩

/-- An export with one branch, into an empty directory. -/
theorem export_in_refs_side : ∃ fs',
    exportGit (fun _ => true) [] [] toyPack (branchesWorld ["refs/heads/side"]).refs .empty = (fs', .ok ()) ∧
      Exported [gitName] [] (branchesWorld ["refs/heads/side"]).refs fs' :=
  export_in_refs tameRun_side nofun (by decide +kernel) (by decide +kernel)

theorem reachable_nested : (branchesWorld ["refs/heads/a/b", "refs/heads/a"]).Reachable :=
  ⟨_, .init, .tail (.tail .refl (step_branch [] (by decide +kernel) (by decide +kernel)))
    (step_branch _ (by decide +kernel) (by decide +kernel))⟩

/-- A branch below another makes an export fail, and a second workspace makes it write a file that is
    outside `refs`. -/
theorem export_fails_or_leaves_refs :
    (branchesWorld ["refs/heads/a/b", "refs/heads/a"]).Reachable ∧
    (exportGit (fun _ => true) [] [] toyPack (branchesWorld ["refs/heads/a/b", "refs/heads/a"]).refs .empty).2 =
      .error (.io .alreadyExists) ∧
    twoWorkspaces.Reachable ∧
    (exportGit (fun _ => true) [] [] toyPack twoWorkspaces.refs .empty).1.get
        [gitName, utf8 "workspaces", utf8 "w", utf8 "HEAD"] =
      some (.file (utf8 "ref: refs/heads/side\n") false) :=
  ⟨reachable_nested, by decide +kernel, reachable_twoWorkspaces, by decide +kernel⟩

end Alt.Export
