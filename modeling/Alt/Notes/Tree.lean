import Alt.GitCodec.Tree
import Alt.Notes.Meta
import Alt.Repo.Objects

namespace Alt.Notes

open Alt.Library List
open Alt.Repo (Objects Within)

/-!
# The tree of the notes (`alt-cli/src/meta.rs`, 198–296)

The notes ref points at a commit whose tree holds one blob for each commit that has a note: under the
commit's id, or, as alt writes it, under its first two digits as a directory and the other digits in it.

* `find`, `store` — one note read, one note written, on top of the notes commit that was;
* `NotesAt` — the shape of a notes commit that is read;
* `find_store` — what is found behind a `store`.
-/

/-! ### Reading -/

inductive NoteError
  | missing (text : String)
  | codec (e : ObjectParseError)
  deriving DecidableEq

abbrev Res := Except NoteError

def codec {α : Type} : Except ObjectParseError α → Res α
  | .ok a => .ok a
  | .error e => .error (.codec e)

def readOr (objects : Objects) (text : String) (id : ObjectId) : Res Bytes :=
  match objects id with
  | some object => .ok object.data
  | none => .error (.missing text)

def commitTree (objects : Objects) (commit : ObjectId) : Res ObjectId := do
  let data ← readOr objects "notes commit missing from store" commit
  match (← codec (Commit.parse data)).tree with
  | some root => .ok root
  | none => .error (.missing "notes commit without a tree")

def treeAt (objects : Objects) (algo : HashAlgo) (id : ObjectId) : Res Tree := do
  let data ← readOr objects "notes tree missing from store" id
  codec (Tree.parse data algo)

/-- The id of the first entry with this name. -/
def lookup (tree : Tree) (name : Bytes) : Option ObjectId :=
  (tree.entries.find? fun e => e.name = name).map (·.oid)

/-- A commit's id, as the name of its note. -/
def hexName (id : ObjectId) : Bytes := utf8 (String.ofList id.hexText)

/-- The directory of a note. -/
def fanName (id : ObjectId) : Bytes := (hexName id).take 2

/-- The name of a note in its directory. -/
def restName (id : ObjectId) : Bytes := (hexName id).drop 2

/-- The blob of a note, flat or in its directory. -/
def findIn (objects : Objects) (algo : HashAlgo) (tree : Tree) (target : ObjectId) : Res (Option ObjectId) :=
  match lookup tree (hexName target) with
  | some blob => .ok (some blob)
  | none =>
    match lookup tree (fanName target) with
    | some dir => do return lookup (← treeAt objects algo dir) (restName target)
    | none => .ok none

def readNote (objects : Objects) (blob : Option ObjectId) : Res (Option Meta) :=
  match blob with
  | some id => do return some (Meta.parse (lossyText (← readOr objects "note blob missing from store" id)))
  | none => .ok none

/-- The note on `target` in the notes commit `notes`. -/
def find (objects : Objects) (algo : HashAlgo) (notes target : ObjectId) : Res (Option Meta) := do
  let tree ← treeAt objects algo (← commitTree objects notes)
  readNote objects (← findIn objects algo tree target)

/-- The note on `target`, if there are notes at all. -/
def readMeta (objects : Objects) (algo : HashAlgo) (tip : Option ObjectId) (target : ObjectId) :
    Res (Option Meta) :=
  match tip with
  | some notes => find objects algo notes target
  | none => .ok none

/-! ### Writing -/

theorem fileMode_ne_nil : ([0x31, 0x30, 0x30, 0x36, 0x34, 0x34] : Bytes) ≠ [] := by decide

theorem fileMode_length : ([0x31, 0x30, 0x30, 0x36, 0x34, 0x34] : Bytes).length ≤ 6 := by decide

theorem fileMode_octal : ([0x31, 0x30, 0x30, 0x36, 0x34, 0x34] : Bytes).all (fun b => 0x30 ≤ b ∧ b ≤ 0x37) = true := by decide

/-- `100644` -/
def fileMode : EntryMode :=
  ⟨[0x31, 0x30, 0x30, 0x36, 0x34, 0x34], fileMode_ne_nil, fileMode_length, fileMode_octal⟩

/-- `40000` -/
def dirMode : EntryMode := ⟨[0x34, 0x30, 0x30, 0x30, 0x30], by decide, by decide, by decide⟩

/-- What a tree is sorted by: a directory as if its name ended in a slash. -/
def entryKey (e : TreeEntry) : Bytes := if e.mode = dirMode then e.name ++ [0x2f] else e.name

/-- The entries of other names. -/
def retain (tree : Tree) (name : Bytes) : Tree := ⟨tree.entries.filter fun e => e.name ≠ name⟩

/-- Inserts or replaces `name`; the sort is stable. -/
def putEntry (tree : Tree) (name : Bytes) (mode : EntryMode) (oid : ObjectId) : Tree :=
  let entries : List TreeEntry := (retain tree name).entries ++ [⟨mode, name, oid⟩]
  ⟨entries.insertionSort fun a b => entryKey a ≤ entryKey b⟩

/-- The lines behind a notes commit's parent. -/
def signatureLines (signature : Text) : Bytes :=
  utf8 (String.ofList ("author ".toList ++ signature ++ "\ncommitter ".toList ++ signature ++
    "\n\nNotes added by 'alt'\n".toList))

/-- A header of the notes commit that names an object. -/
def idLine (name : String) (id : ObjectId) : Bytes := utf8 name ++ HeaderBlock.sp :: hexName id ++ [HeaderBlock.lf]

/-- The notes commit. -/
def commitBody (root : ObjectId) (parent : Option ObjectId) (signature : Text) : Bytes :=
  idLine "tree" root ++ ((parent.map (idLine "parent")).getD [] ++ signatureLines signature)

/-- The notes tree that is there, or an empty one. -/
def parentTree (objects : Objects) (algo : HashAlgo) (parent : Option ObjectId) : Res Tree :=
  match parent with
  | some p => do treeAt objects algo (← commitTree objects p)
  | none => .ok ⟨[]⟩

def subTree (objects : Objects) (algo : HashAlgo) (root : Tree) (fan : Bytes) : Res Tree :=
  match lookup root fan with
  | some dir => treeAt objects algo dir
  | none => .ok ⟨[]⟩

/-- An object that is written. -/
abbrev NewObject := ObjectKind × Bytes

section

variable (P : Prims) (algo : HashAlgo)

def idOf (object : NewObject) : ObjectId := ObjectId.hashObject P algo object.1 object.2

def noteBlob (note : Meta) : NewObject := (.blob, utf8 (String.ofList note.render))

/-- The directory of a note, with the note in it. -/
def newSub (sub : Tree) (target : ObjectId) (note : Meta) : Tree :=
  putEntry sub (restName target) fileMode (idOf P algo (noteBlob note))

/-- The root, with that directory in it. -/
def newRoot (root sub : Tree) (target : ObjectId) (note : Meta) : Tree :=
  putEntry root (fanName target) dirMode (idOf P algo (.tree, (newSub P algo sub target note).serialize))

def noteObjects (root sub : Tree) (parent : Option ObjectId) (target : ObjectId) (note : Meta)
    (signature : Text) : List NewObject :=
  let rootId := idOf P algo (.tree, (newRoot P algo root sub target note).serialize)
  [noteBlob note, (.tree, (newSub P algo sub target note).serialize),
    (.tree, (newRoot P algo root sub target note).serialize), (.commit, commitBody rootId parent signature)]

/-- The objects that put `note` on `target` on top of `parent`, the new notes commit last. -/
def store (objects : Objects) (parent : Option ObjectId) (target : ObjectId) (note : Meta)
    (signature : Text) : Res (List NewObject) := do
  let root ← parentTree objects algo parent
  -- a flat entry for this commit (written by git itself) gives way
  let root := retain root (hexName target)
  let sub ← subTree objects algo root (fanName target)
  return noteObjects P algo root sub parent target note signature

/-- Stores objects under their ids. -/
def writeAll (objects : Objects) (news : List NewObject) : Except Repo.HashMismatch Objects :=
  news.foldlM (fun objects new => objects.put P (idOf P algo new) new.1 new.2) objects

/-- The notes commit that was written. -/
def tipOf (news : List NewObject) : Option ObjectId := news.getLast?.map (idOf P algo)

end

/-! ### Trees as maps -/

section

variable {tree : Tree} {name other : Bytes} {mode : EntryMode} {oid : ObjectId}

/-- No name twice. -/
def Unique (tree : Tree) : Prop := (tree.entries.map (·.name)).Nodup

theorem lookup_eq_some_iff (h : Unique tree) :
    lookup tree name = some oid ↔ ∃ e ∈ tree.entries, e.name = name ∧ e.oid = oid := by
  rw [lookup, Option.map_eq_some_iff]
  constructor
  · rintro ⟨e, hfind, hoid⟩
    refine ⟨e, mem_of_find?_eq_some hfind, ?_, hoid⟩
    simpa using find?_some hfind
  · rintro ⟨e, hmem, hname, hoid⟩
    have hsome : (tree.entries.find? fun e => e.name = name).isSome := by
      rw [find?_isSome]
      exact ⟨e, hmem, by simpa using hname⟩
    obtain ⟨e', he'⟩ := Option.isSome_iff_exists.mp hsome
    have hname' : e'.name = name := by simpa using find?_some he'
    have heq : e' = e :=
      inj_on_of_nodup_map h (mem_of_find?_eq_some he') hmem (hname'.trans hname.symm)
    exact ⟨e', he', heq ▸ hoid⟩

theorem perm_putEntry : (putEntry tree name mode oid).entries.Perm
    ((retain tree name).entries ++ [⟨mode, name, oid⟩]) := perm_insertionSort _ _

theorem unique_retain (h : Unique tree) : Unique (retain tree name) :=
  List.Nodup.sublist (List.Sublist.map _ filter_sublist) h

theorem unique_putEntry (h : Unique tree) : Unique (putEntry tree name mode oid) := by
  rw [Unique, (perm_putEntry.map _).nodup_iff, map_append, nodup_append']
  refine ⟨unique_retain h, nodup_singleton _, fun n hn hn' => ?_⟩
  obtain ⟨e, he, rfl⟩ := mem_map.mp hn
  have hne : e.name ≠ name := by simpa using (mem_filter.mp he).2
  exact hne (mem_singleton.mp hn')

theorem lookup_retain_self : lookup (retain tree name) name = none := by
  rw [lookup, Option.map_eq_none_iff, find?_eq_none]
  intro e he
  exact by simpa using (mem_filter.mp he).2

theorem lookup_retain_ne (hne : other ≠ name) : lookup (retain tree name) other = lookup tree other := by
  rw [lookup, lookup, retain, find?_filter]
  congr 2
  funext e
  by_cases heq : e.name = other
  · simp [heq, hne]
  · simp [heq]

theorem mem_putEntry {e : TreeEntry} (h : e ∈ (putEntry tree name mode oid).entries) :
    e ∈ tree.entries ∨ e = ⟨mode, name, oid⟩ := by
  rw [perm_putEntry.mem_iff, mem_append, mem_singleton] at h
  exact h.imp_left fun hmem => (mem_filter.mp hmem).1

/-- What is put is found. -/
theorem lookup_putEntry_self (h : Unique tree) : lookup (putEntry tree name mode oid) name = some oid := by
  rw [lookup_eq_some_iff (unique_putEntry h)]
  refine ⟨⟨mode, name, oid⟩, ?_, rfl, rfl⟩
  rw [perm_putEntry.mem_iff]
  exact mem_append_right _ (mem_singleton_self _)

/-- What is not put is what it was. -/
theorem lookup_putEntry_ne (h : Unique tree) (hne : other ≠ name) :
    lookup (putEntry tree name mode oid) other = lookup tree other := by
  refine Option.ext fun id => ?_
  rw [lookup_eq_some_iff (unique_putEntry h), lookup_eq_some_iff h]
  refine exists_congr fun e => and_congr_left fun hname => ?_
  rw [perm_putEntry.mem_iff, mem_append, mem_singleton, retain, mem_filter]
  constructor
  · rintro (⟨hmem, -⟩ | rfl)
    · exact hmem
    · exact absurd hname.1.symm hne
  · exact fun hmem => .inl ⟨hmem, by simpa [hname.1] using hne⟩

end

/-! ### Names -/

section

variable {id other : ObjectId}

theorem hexName_injective (h : hexName id = hexName other) : id = other := by
  have hid := ObjectId.fromHex_hexText id
  rw [show utf8 (String.ofList id.hexText) = hexName other from h, hexName, ObjectId.fromHex_hexText] at hid
  exact (Option.some.inj hid).symm

theorem length_hexName : (hexName id).length = id.algo.hexLen := ObjectId.length_utf8_hexText id

theorem forty_le_length_hexName : 40 ≤ (hexName id).length := by
  rw [length_hexName]
  cases id.algo <;> decide

theorem length_fanName : (fanName id).length = 2 := by
  have hlen : 40 ≤ (hexName id).length := forty_le_length_hexName
  rw [fanName, length_take]
  omega

theorem hexName_ne_fanName : hexName other ≠ fanName id := by
  intro heq
  have hlen : 40 ≤ (hexName other).length := forty_le_length_hexName
  rw [heq, length_fanName] at hlen
  omega

/-- Two commits with one directory differ in it. -/
theorem restName_ne (hne : other ≠ id) (hfan : fanName other = fanName id) : restName other ≠ restName id := by
  intro hrest
  refine hne (hexName_injective ?_)
  rw [← take_append_drop 2 (hexName other), ← take_append_drop 2 (hexName id)]
  exact congr (congrArg _ hfan) hrest

theorem zero_not_mem_hexName : (0 : UInt8) ∉ hexName id := not_mem_utf8_hexChars (by decide) _

end

/-! ### Reading from more objects -/

section

variable {objects objects' : Objects} (h : Within objects objects')

include h

theorem readOr_grown {text : String} {id : ObjectId} {data : Bytes} (hread : readOr objects text id = .ok data) :
    readOr objects' text id = .ok data := by
  rw [readOr] at hread ⊢
  cases hobject : objects id with
  | none => rw [hobject] at hread; cases hread
  | some object =>
    rw [hobject] at hread
    rw [h hobject]
    exact hread

theorem commitTree_grown {commit root : ObjectId} (hread : commitTree objects commit = .ok root) :
    commitTree objects' commit = .ok root := by
  obtain ⟨data, hdata, hrest⟩ := bind_eq_ok hread
  rw [commitTree, readOr_grown h hdata]
  exact hrest

theorem treeAt_grown {algo : HashAlgo} {id : ObjectId} {tree : Tree} (hread : treeAt objects algo id = .ok tree) :
    treeAt objects' algo id = .ok tree := by
  obtain ⟨data, hdata, hrest⟩ := bind_eq_ok hread
  rw [treeAt, readOr_grown h hdata]
  exact hrest

theorem findIn_grown {algo : HashAlgo} {tree : Tree} {target : ObjectId} {blob : Option ObjectId}
    (hread : findIn objects algo tree target = .ok blob) : findIn objects' algo tree target = .ok blob := by
  rw [findIn] at hread ⊢
  split at hread
  · exact hread
  · split at hread
    · obtain ⟨sub, hsub, hrest⟩ := bind_eq_ok hread
      rw [treeAt_grown h hsub]
      exact hrest
    · exact hread

theorem readNote_grown {blob : Option ObjectId} {note : Option Meta} (hread : readNote objects blob = .ok note) :
    readNote objects' blob = .ok note := by
  cases blob with
  | none => exact hread
  | some id =>
    obtain ⟨data, hdata, hrest⟩ := bind_eq_ok hread
    rw [readNote, readOr_grown h hdata]
    exact hrest

theorem find_grown {algo : HashAlgo} {notes target : ObjectId} {note : Option Meta}
    (hread : find objects algo notes target = .ok note) : find objects' algo notes target = .ok note := by
  obtain ⟨root, hroot, hread⟩ := bind_eq_ok hread
  obtain ⟨tree, htree, hread⟩ := bind_eq_ok hread
  obtain ⟨blob, hblob, hread⟩ := bind_eq_ok hread
  rw [find, commitTree_grown h hroot]
  dsimp only [bind, Except.bind]
  rw [treeAt_grown h htree]
  dsimp only [bind, Except.bind]
  rw [findIn_grown h hblob]
  exact readNote_grown h hread

theorem subTree_grown {algo : HashAlgo} {root sub : Tree} {fan : Bytes}
    (hread : subTree objects algo root fan = .ok sub) : subTree objects' algo root fan = .ok sub := by
  rw [subTree] at hread ⊢
  split at hread
  · exact treeAt_grown h hread
  · exact hread

theorem parentTree_grown {algo : HashAlgo} {parent : Option ObjectId} {root : Tree}
    (hread : parentTree objects algo parent = .ok root) : parentTree objects' algo parent = .ok root := by
  cases parent with
  | none => exact hread
  | some p =>
    obtain ⟨id, hid, hread⟩ := bind_eq_ok hread
    rw [parentTree, commitTree_grown h hid]
    exact treeAt_grown h hread

theorem readMeta_grown {algo : HashAlgo} {tip : Option ObjectId} {target : ObjectId} {note : Option Meta}
    (hread : readMeta objects algo tip target = .ok note) : readMeta objects' algo tip target = .ok note := by
  cases tip with
  | none => exact hread
  | some notes => exact find_grown h hread

end

/-! ### The notes commit -/

/-- The lines of the signature can be read. -/
def SigReads (signature : Text) : Prop := ∃ block, HeaderBlock.parse (signatureLines signature) = .ok block

section

variable {objects : Objects} {commit root : ObjectId} {parent : Option ObjectId} {signature : Text}

theorem isName_tree : HeaderBlock.IsName (utf8 "tree") :=
  ⟨by decide +kernel, by decide +kernel, by decide +kernel⟩

theorem isName_parent : HeaderBlock.IsName (utf8 "parent") :=
  ⟨by decide +kernel, by decide +kernel, by decide +kernel⟩

theorem parseFrom_idLine (headers : List (Bytes × Bytes)) {name : String} (hname : HeaderBlock.IsName (utf8 name))
    (id : ObjectId) (rest : Bytes) :
    HeaderBlock.parseFrom headers (idLine name id ++ rest)
      = HeaderBlock.parseFrom (headers ++ [(utf8 name, hexName id)]) rest := by
  have hline := HeaderBlock.parseFrom_line headers hname
    (not_mem_utf8_hexChars (x := HeaderBlock.lf) (by decide) id.asBytes) rest
  have hshape : idLine name id ++ rest =
      utf8 name ++ HeaderBlock.sp :: hexName id ++ HeaderBlock.lf :: rest := by simp [idLine]
  rw [hshape]
  exact hline

/-- The headers that alt writes, in front of the signature's. -/
def idHeaders (root : ObjectId) (parent : Option ObjectId) : List (Bytes × Bytes) :=
  (utf8 "tree", hexName root) :: (parent.map fun p => (utf8 "parent", hexName p)).toList

theorem parse_commitBody :
    HeaderBlock.parse (commitBody root parent signature) = (HeaderBlock.parse (signatureLines signature)).map
      fun block => { block with headers := idHeaders root parent ++ block.headers } := by
  have hhead : (signatureLines signature).head? ≠ some HeaderBlock.sp := by
    rw [signatureLines, utf8_ofList]
    exact fun heq => absurd heq (by simp; decide)
  have hprepend : HeaderBlock.parseFrom (idHeaders root parent ++ []) (signatureLines signature) = _ :=
    HeaderBlock.parseFrom_prepend (idHeaders root parent) (.inr hhead)
  rw [HeaderBlock.parse, HeaderBlock.parse, ← hprepend, commitBody, parseFrom_idLine [] isName_tree]
  cases parent with
  | none => rfl
  | some p =>
    rw [Option.map_some, Option.getD_some, parseFrom_idLine _ isName_parent]
    rfl

/-- **The tree of a notes commit** is read exactly if the signature's lines can be read. -/
theorem commitTree_eq_ok_iff {root' : ObjectId}
    (h : objects commit = some ⟨.commit, commitBody root parent signature⟩) :
    commitTree objects commit = .ok root' ↔ SigReads signature ∧ root' = root := by
  have hdata : readOr objects "notes commit missing from store" commit =
      .ok (commitBody root parent signature) := by rw [readOr, h]
  have hparse : HeaderBlock.parse (commitBody root parent signature) = _ := parse_commitBody
  cases hlines : HeaderBlock.parse (signatureLines signature) with
  | error e =>
    rw [hlines] at hparse
    refine iff_of_false (fun htree => ?_) fun hsig => ?_
    · obtain ⟨data, hread, hrest⟩ := bind_eq_ok htree
      obtain rfl := Except.ok.inj (hdata.symm.trans hread)
      obtain ⟨c, hc, -⟩ := bind_eq_ok hrest
      cases hcommit : Commit.parse (commitBody root parent signature) with
      | error e' => rw [hcommit] at hc; cases hc
      | ok c' =>
        rw [Commit.parse_eq_ok, hparse] at hcommit
        cases hcommit
    · obtain ⟨⟨block, hblock⟩, -⟩ := hsig
      rw [hlines] at hblock
      cases hblock
  | ok block =>
    rw [hlines] at hparse
    have hcommit : Commit.parse (commitBody root parent signature) =
        .ok ⟨_, HeaderBlock.wellFormed_of_parse hparse⟩ := Commit.parse_eq_ok.mpr hparse
    have htree : commitTree objects commit = .ok root := by
      rw [commitTree, hdata]
      simp only [bind, Except.bind, hcommit, codec, Commit.tree, HeaderBlock.value, idHeaders, cons_append,
        find?_cons, decide_true, Option.map_some, Option.bind_some]
      rw [hexName, ObjectId.fromHex_hexText]
    rw [htree]
    exact ⟨fun heq => ⟨⟨block, hlines⟩, (Except.ok.inj heq).symm⟩, fun hsig => by rw [hsig.2]⟩

end

/-! ### What is written is there -/

section

variable {P : Prims} {algo : HashAlgo} {objects objects' : Objects} {news : List NewObject}

/-- No two objects under one id, of those that are written and those that are there. -/
structure Apart (P : Prims) (algo : HashAlgo) (objects : Objects) (news : List NewObject) : Prop where
  stored : ∀ new ∈ news, ∀ object, objects (idOf P algo new) = some object → object = ⟨new.1, new.2⟩
  new : ∀ a ∈ news, ∀ b ∈ news, idOf P algo a = idOf P algo b → a = b

theorem writeAll_within (h : writeAll P algo objects news = .ok objects') : Within objects objects' := by
  induction news generalizing objects with
  | nil =>
    cases h
    rfl
  | cons new news ih =>
    obtain ⟨objects₁, hput, hrest⟩ := bind_eq_ok h
    exact (Objects.within_put hput).trans (ih hrest)

/-- A new object is put beside those that are there. -/
theorem put_eq_ok {new : NewObject} (h : objects.put P (idOf P algo new) new.1 new.2 = .ok objects') :
    (objects' = objects ∧ (objects (idOf P algo new)).isSome) ∨
      objects' = Function.update objects (idOf P algo new) (some ⟨new.1, new.2⟩) := by
  rw [Objects.put] at h
  split at h
  case isTrue hsome =>
    cases h
    exact .inl ⟨rfl, hsome⟩
  case isFalse =>
    split at h
    · cases h
    · cases h
      exact .inr rfl

/-- **What is written is there**, one object after the other. -/
theorem stored_of_writeAll (all : List NewObject) (hsub : news ⊆ all) (hapart : Apart P algo objects all)
    (h : writeAll P algo objects news = .ok objects') :
    ∀ new ∈ news, objects' (idOf P algo new) = some ⟨new.1, new.2⟩ := by
  induction news generalizing objects with
  | nil => exact fun new hnew => absurd hnew not_mem_nil
  | cons new news ih =>
    obtain ⟨objects₁, hput, hrest⟩ := bind_eq_ok h
    have hnew : new ∈ all := hsub mem_cons_self
    -- the object is there, and there is still no collision
    have hstep : objects₁ (idOf P algo new) = some ⟨new.1, new.2⟩ ∧ Apart P algo objects₁ all := by
      obtain ⟨rfl, hsome⟩ | rfl := put_eq_ok hput
      · obtain ⟨object, hobject⟩ := Option.isSome_iff_exists.mp hsome
        exact ⟨hapart.stored new hnew object hobject ▸ hobject, hapart⟩
      · refine ⟨Function.update_self .., ⟨fun other hother object hobject => ?_, hapart.new⟩⟩
        by_cases hid : idOf P algo other = idOf P algo new
        · rw [hid, Function.update_self] at hobject
          rw [hapart.new other hother new hnew hid]
          exact (Option.some.inj hobject).symm
        · rw [Function.update_of_ne hid] at hobject
          exact hapart.stored other hother object hobject
    intro other hother
    cases mem_cons.mp hother with
    | inl heq => exact heq ▸ writeAll_within hrest hstep.1
    | inr hmem => exact ih (fun o ho => hsub (mem_cons_of_mem _ ho)) hstep.2 hrest other hmem

end

/-! ### Notes trees -/

/-- A tree that was read, with no name twice. -/
structure TreeAt (objects : Objects) (algo : HashAlgo) (id : ObjectId) (tree : Tree) : Prop where
  read : treeAt objects algo id = .ok tree
  unique : Unique tree

/-- The root of notes: every directory that a note is looked up in is there. -/
structure RootAt (objects : Objects) (algo : HashAlgo) (root : Tree) : Prop where
  unique : Unique root
  readable : ∀ e ∈ root.entries, Tree.Readable algo e
  sub : ∀ target dir, lookup root (fanName target) = some dir → ∃ sub, TreeAt objects algo dir sub

/-- A notes commit that every note of can be looked up in. -/
structure NotesAt (objects : Objects) (algo : HashAlgo) (notes : ObjectId) : Prop where
  root : ∃ root, parentTree objects algo (some notes) = .ok root ∧ RootAt objects algo root
  find : ∀ target, ∃ note, find objects algo notes target = .ok note

theorem TreeAt.grown {objects objects' : Objects} {algo : HashAlgo} {id : ObjectId} {tree : Tree}
    (h : TreeAt objects algo id tree) (hgrow : Within objects objects') : TreeAt objects' algo id tree :=
  ⟨treeAt_grown hgrow h.read, h.unique⟩

theorem RootAt.grown {objects objects' : Objects} {algo : HashAlgo} {root : Tree}
    (h : RootAt objects algo root) (hgrow : Within objects objects') : RootAt objects' algo root where
  unique := h.unique
  readable := h.readable
  sub target dir hdir := (h.sub target dir hdir).imp fun _ hat => hat.grown hgrow

theorem NotesAt.grown {objects objects' : Objects} {algo : HashAlgo} {notes : ObjectId}
    (h : NotesAt objects algo notes) (hgrow : Within objects objects') : NotesAt objects' algo notes where
  root := h.root.imp fun _ hroot => ⟨parentTree_grown hgrow hroot.1, hroot.2.grown hgrow⟩
  find target := (h.find target).imp fun _ hnote => find_grown hgrow hnote

/-- No notes at all. -/
theorem rootAt_nil {objects : Objects} {algo : HashAlgo} : RootAt objects algo ⟨[]⟩ where
  unique := nodup_nil
  readable e he := absurd he not_mem_nil
  sub target dir hdir := by cases hdir

/-- The entries of a tree that was read can be read again. -/
theorem readable_of_treeAt {objects : Objects} {algo : HashAlgo} {id : ObjectId} {tree : Tree}
    (h : treeAt objects algo id = .ok tree) : ∀ e ∈ tree.entries, Tree.Readable algo e := by
  obtain ⟨data, -, hcodec⟩ := bind_eq_ok h
  cases hparse : Tree.parse data algo with
  | error e => rw [hparse] at hcodec; cases hcodec
  | ok tree' =>
    rw [hparse] at hcodec
    cases hcodec
    exact (Tree.parseFrom_sound hparse (by simp)).2

theorem treeAt_of_stored {objects : Objects} {algo : HashAlgo} {id : ObjectId} {tree : Tree}
    (h : objects id = some ⟨.tree, tree.serialize⟩) (hread : ∀ e ∈ tree.entries, Tree.Readable algo e) :
    treeAt objects algo id = .ok tree := by
  have hparse := (Tree.parse_serialize_iff tree algo).mpr hread
  rw [treeAt, readOr, h]
  dsimp only [bind, Except.bind]
  rw [hparse]
  rfl

/-! ### A note put on top of the notes -/

/-- Reading notes starts in the parent's tree. -/
theorem readMeta_eq {objects : Objects} {algo : HashAlgo} {parent : Option ObjectId} {root : Tree}
    (h : parentTree objects algo parent = .ok root) (target : ObjectId) :
    readMeta objects algo parent target = findIn objects algo root target >>= readNote objects := by
  cases parent with
  | none =>
    cases h
    rfl
  | some p =>
    obtain ⟨id, hid, htree⟩ := bind_eq_ok h
    rw [readMeta, find, hid]
    dsimp only [bind, Except.bind]
    rw [htree]

section

variable {objects objects' : Objects} {algo : HashAlgo} {root sub : Tree} {target other : ObjectId}
variable {blob dir : ObjectId}

/-- What is found of the note that is put. -/
theorem findIn_put_self (hroot : Unique root) (hsub : Unique sub)
    (hdir : treeAt objects algo dir = .ok (putEntry sub (restName target) fileMode blob)) :
    findIn objects algo (putEntry (retain root (hexName target)) (fanName target) dirMode dir) target =
      .ok (some blob) := by
  have hflat : lookup (putEntry (retain root (hexName target)) (fanName target) dirMode dir) (hexName target) =
      none := by
    rw [lookup_putEntry_ne (unique_retain hroot) hexName_ne_fanName, lookup_retain_self]
  rw [findIn, hflat]
  dsimp only
  rw [lookup_putEntry_self (unique_retain hroot)]
  dsimp only [bind, Except.bind]
  rw [hdir]
  dsimp only
  rw [lookup_putEntry_self hsub]
  rfl

/-- What is found of the other notes: in the directory of the new one, what was found in it before. -/
theorem findIn_put_other (hroot : Unique root) (hsub : Unique sub)
    (hdir : treeAt objects algo dir = .ok (putEntry sub (restName target) fileMode blob))
    (hold : subTree objects algo root (fanName target) = .ok sub) (hne : other ≠ target) :
    findIn objects algo (putEntry (retain root (hexName target)) (fanName target) dirMode dir) other =
      findIn objects algo root other := by
  have hunique : Unique (retain root (hexName target)) := unique_retain hroot
  have hflat : lookup (putEntry (retain root (hexName target)) (fanName target) dirMode dir) (hexName other) =
      lookup root (hexName other) := by
    rw [lookup_putEntry_ne hunique hexName_ne_fanName, lookup_retain_ne fun heq => hne (hexName_injective heq)]
  rw [findIn, findIn, hflat]
  cases hexact : lookup root (hexName other) with
  | some blob' => rfl
  | none =>
    dsimp only
    by_cases hfan : fanName other = fanName target
    · have hrest := restName_ne hne hfan
      rw [hfan, lookup_putEntry_self hunique]
      dsimp only [bind, Except.bind]
      rw [hdir]
      dsimp only
      rw [lookup_putEntry_ne hsub hrest]
      rw [subTree] at hold
      split at hold
      · rw [hold]
      · cases hold
        rfl
    · have hname : fanName other ≠ hexName target := fun heq => hexName_ne_fanName heq.symm
      rw [lookup_putEntry_ne hunique hfan, lookup_retain_ne hname]

end

theorem readable_putEntry {algo : HashAlgo} {tree : Tree} {name : Bytes} {mode : EntryMode} {oid : ObjectId}
    (h : ∀ e ∈ tree.entries, Tree.Readable algo e) (hname : (0 : UInt8) ∉ name) (hoid : oid.algo = algo) :
    ∀ e ∈ (putEntry tree name mode oid).entries, Tree.Readable algo e := by
  intro e he
  cases mem_putEntry he with
  | inl hmem => exact h e hmem
  | inr heq => exact heq ▸ ⟨hname, hoid⟩

theorem algo_idOf {P : Prims} {algo : HashAlgo} {new : NewObject} : (idOf P algo new).algo = algo := by
  cases algo <;> rfl

section

variable {P : Prims} {objects objects' : Objects} {algo : HashAlgo} {parent : Option ObjectId}
variable {target : ObjectId} {note : Meta} {signature : Text} {news : List NewObject}

/-- What is read before a note is written. -/
theorem store_eq_ok (h : store P algo objects parent target note signature = .ok news) :
    ∃ root sub, parentTree objects algo parent = .ok root ∧ subTree objects algo root (fanName target) = .ok sub ∧
      news = noteObjects P algo (retain root (hexName target)) sub parent target note signature := by
  obtain ⟨root, hroot, hrest⟩ := bind_eq_ok h
  obtain ⟨sub, hsub, hrest⟩ := bind_eq_ok hrest
  cases hrest
  have hname : fanName target ≠ hexName target := fun heq => hexName_ne_fanName heq.symm
  rw [subTree, lookup_retain_ne hname] at hsub
  exact ⟨root, sub, hroot, hsub, rfl⟩

theorem rootAt_parentTree (hparent : ∀ p ∈ parent, NotesAt objects algo p) {root : Tree}
    (hroot : parentTree objects algo parent = .ok root) : RootAt objects algo root := by
  cases parent with
  | none =>
    cases hroot
    exact rootAt_nil
  | some p =>
    obtain ⟨root', hroot', hat⟩ := (hparent p rfl).root
    cases hroot.symm.trans hroot'
    exact hat

theorem RootAt.subTree {root sub : Tree} (h : RootAt objects algo root)
    (hsub : subTree objects algo root (fanName target) = .ok sub) :
    Unique sub ∧ ∀ e ∈ sub.entries, Tree.Readable algo e := by
  rw [Notes.subTree] at hsub
  split at hsub
  · rename_i dir hdir
    obtain ⟨sub', hat⟩ := h.sub target dir hdir
    cases hsub.symm.trans hat.read
    exact ⟨hat.unique, readable_of_treeAt hsub⟩
  · cases hsub
    exact ⟨nodup_nil, fun e he => absurd he not_mem_nil⟩

/-- The notes commit `tip` that was written, and what is below it. -/
structure Written (objects : Objects) (algo : HashAlgo) (root sub : Tree) (parent : Option ObjectId)
    (target : ObjectId) (note : Meta) (signature : Text) (tip blob dir rootId : ObjectId) : Prop where
  noteAt : objects blob = some ⟨.blob, utf8 (String.ofList note.render)⟩
  dirAt : treeAt objects algo dir = .ok (putEntry sub (restName target) fileMode blob)
  rootAt : treeAt objects algo rootId =
    .ok (putEntry (retain root (hexName target)) (fanName target) dirMode dir)
  readable : ∀ e ∈ (putEntry (retain root (hexName target)) (fanName target) dirMode dir).entries,
    Tree.Readable algo e
  commitAt : objects tip = some ⟨.commit, commitBody rootId parent signature⟩

theorem written_of_store {root sub : Tree} (hroot : ∀ e ∈ root.entries, Tree.Readable algo e)
    (hsub : ∀ e ∈ sub.entries, Tree.Readable algo e)
    (hnews : news = noteObjects P algo (retain root (hexName target)) sub parent target note signature)
    (hapart : Apart P algo objects news) (hwrite : writeAll P algo objects news = .ok objects')
    {tip : ObjectId} (htip : tipOf P algo news = some tip) :
    ∃ blob dir rootId, Written objects' algo root sub parent target note signature tip blob dir rootId := by
  subst hnews
  have hstored := stored_of_writeAll _ (List.Subset.refl _) hapart hwrite
  obtain rfl := Option.some.inj htip
  have hfan : (0 : UInt8) ∉ fanName target := fun hmem => zero_not_mem_hexName (mem_of_mem_take hmem)
  have hrest : (0 : UInt8) ∉ restName target := fun hmem => zero_not_mem_hexName (mem_of_mem_drop hmem)
  have hkept : ∀ e ∈ (retain root (hexName target)).entries, Tree.Readable algo e :=
    fun e he => hroot e (mem_filter.mp he).1
  refine ⟨idOf P algo (noteBlob note), idOf P algo (.tree, (newSub P algo sub target note).serialize),
    idOf P algo (.tree, (newRoot P algo (retain root (hexName target)) sub target note).serialize),
    hstored _ (.head _), ?_, ?_, readable_putEntry hkept hfan algo_idOf,
    hstored _ (.tail _ (.tail _ (.tail _ (.head _))))⟩
  · exact treeAt_of_stored (hstored _ (.tail _ (.head _))) (readable_putEntry hsub hrest algo_idOf)
  · exact treeAt_of_stored (hstored _ (.tail _ (.tail _ (.head _)))) (readable_putEntry hkept hfan algo_idOf)

/-- **A note put on top of the notes.** Its text is found, and the other notes are as they were. -/
theorem find_store (hparent : ∀ p ∈ parent, NotesAt objects algo p)
    (hstore : store P algo objects parent target note signature = .ok news)
    (hapart : Apart P algo objects news) (hwrite : writeAll P algo objects news = .ok objects')
    {tip : ObjectId} (htip : tipOf P algo news = some tip) (hsig : SigReads signature) :
    NotesAt objects' algo tip ∧ find objects' algo tip target = .ok (some (Meta.parse note.render)) ∧
      ∀ other ≠ target, find objects' algo tip other = readMeta objects algo parent other := by
  obtain ⟨root, sub, hroot, hsub, hnews⟩ := store_eq_ok hstore
  have hat := rootAt_parentTree hparent hroot
  obtain ⟨hunique, hreadable⟩ := hat.subTree hsub
  have hgrow := writeAll_within hwrite
  obtain ⟨blob, dir, rootId, hwritten⟩ := written_of_store hat.readable hreadable hnews hapart hwrite htip
  obtain ⟨hblob, hdir, hrootId, hread, hcommit⟩ := hwritten
  have htree : commitTree objects' tip = .ok rootId := (commitTree_eq_ok_iff hcommit).mpr ⟨hsig, rfl⟩
  have hfind : ∀ t, find objects' algo tip t = findIn objects' algo
      (putEntry (retain root (hexName target)) (fanName target) dirMode dir) t >>= readNote objects' := by
    intro t
    rw [find, htree]
    dsimp only [bind, Except.bind]
    rw [hrootId]
  have hself : find objects' algo tip target = .ok (some (Meta.parse note.render)) := by
    rw [hfind, findIn_put_self hat.unique hunique hdir]
    dsimp only [bind, Except.bind]
    rw [readNote, readOr, hblob]
    dsimp only [bind, Except.bind]
    rw [utf8_ofList, lossyText_encoded]
    rfl
  have hother : ∀ other ≠ target, find objects' algo tip other = readMeta objects algo parent other := by
    intro other hne
    have hold : ∃ result, readMeta objects algo parent other = .ok result := by
      cases parent with
      | none => exact ⟨none, rfl⟩
      | some p => exact (hparent p rfl).find other
    obtain ⟨result, hresult⟩ := hold
    have hgrown := readMeta_grown hgrow hresult
    rw [readMeta_eq (parentTree_grown hgrow hroot)] at hgrown
    have hsub' := subTree_grown hgrow hsub
    rw [hfind, findIn_put_other hat.unique hunique hdir hsub' hne, hgrown, hresult]
  refine ⟨⟨⟨_, ?_, unique_putEntry (unique_retain hat.unique), hread, ?_⟩, fun t => ?_⟩, hself, hother⟩
  · rw [parentTree, htree]
    exact hrootId
  · intro t d hd
    by_cases hfan : fanName t = fanName target
    · rw [hfan, lookup_putEntry_self (unique_retain hat.unique)] at hd
      obtain rfl := Option.some.inj hd
      exact ⟨_, hdir, unique_putEntry hunique⟩
    · have hname : fanName t ≠ hexName target := fun heq => hexName_ne_fanName heq.symm
      rw [lookup_putEntry_ne (unique_retain hat.unique) hfan, lookup_retain_ne hname] at hd
      obtain ⟨s, hs⟩ := hat.sub t d hd
      exact ⟨s, hs.grown hgrow⟩
  · by_cases heq : t = target
    · exact ⟨_, heq ▸ hself⟩
    · rw [hother t heq]
      cases parent with
      | none => exact ⟨none, rfl⟩
      | some p => exact (hparent p rfl).find t

/-- A notes commit that cannot be read loses every note. -/
theorem commitTree_store_ne (hparent : ∀ p ∈ parent, NotesAt objects algo p)
    (hstore : store P algo objects parent target note signature = .ok news)
    (hapart : Apart P algo objects news) (hwrite : writeAll P algo objects news = .ok objects')
    {tip : ObjectId} (htip : tipOf P algo news = some tip) (hsig : ¬SigReads signature) (root : ObjectId) :
    commitTree objects' tip ≠ .ok root := by
  intro htree
  obtain ⟨root', sub, hroot, hsub, hnews⟩ := store_eq_ok hstore
  have hat := rootAt_parentTree hparent hroot
  obtain ⟨blob, dir, rootId, hwritten⟩ :=
    written_of_store hat.readable (hat.subTree hsub).2 hnews hapart hwrite htip
  exact hsig ((commitTree_eq_ok_iff hwritten.commitAt).mp htree).1

end

end Alt.Notes
