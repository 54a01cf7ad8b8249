import Alt.Store.BlobStore

namespace Alt.Store

open Alt.Library List

/-!
# Blob trees over a chunk store

A blob store is its chunk store and the blob map.  What is proved of it here needs of the
chunk store only that it keeps a list of chunks: that what it is given joins the list
(`PutLaw`) and that what is in the list reads back (`ReadLaw`).

What the blob store holds is then a list of chunks and a list of blobs with a manifest
(`BlobWorld`), and both only grow.  Storing a blob leaves it in one of the two lists, and
whatever is in one of them reads back (`BlobOver.grows_put`, `BlobOver.yields_get`).

The blob map names a root chunk; that the tree below it is a blob is `Covers`, by level.
-/

/-- What a blob store holds: the chunks, and the blobs of more than one, in the order they
    were stored. -/
structure BlobWorld where
  chunks : List Bytes
  blobs : List Bytes

namespace BlobWorld

/-- Nothing is lost, and what is new comes behind. -/
instance : Preorder BlobWorld where
  le w w' := w.chunks <+: w'.chunks ∧ w.blobs <+: w'.blobs
  le_refl _ := ⟨prefix_rfl, prefix_rfl⟩
  le_trans _ _ _ h h' := ⟨h.1.trans h'.1, h.2.trans h'.2⟩

def empty : BlobWorld := ⟨[], []⟩

/-- A blob is there, in one form or the other. -/
def Holds (w : BlobWorld) (data : Bytes) : Prop := data ∈ w.chunks ∨ data ∈ w.blobs

theorem Holds.mono {w w' : BlobWorld} {data : Bytes} (h : w.Holds data) (hle : w ≤ w') :
    w'.Holds data :=
  h.imp (fun hc => hle.1.subset hc) fun hb => hle.2.subset hb

end BlobWorld

/-! ### Groups -/

section Groups

variable {α β : Type} {n : Nat}

variable {xs : List α}

theorem flatten_groupsOf (hn : 0 < n) {fuel : Nat} (h : xs.length ≤ fuel) :
    (groupsOf n fuel xs).flatten = xs := by
  induction fuel generalizing xs with
  | zero =>
    rw [length_eq_zero_iff.mp (Nat.le_zero.mp h)]
    rfl
  | succ fuel ih =>
    cases xs with
    | nil => rfl
    | cons x xs =>
      have hrest : ((x :: xs).drop n).length ≤ fuel := by
        rw [length_drop]
        omega
      rw [groupsOf, flatten_cons, ih hrest, take_append_drop]

/-- Groups of two or more are at most half as many, rounded up. -/
theorem length_groupsOf_le (hn : 2 ≤ n) (fuel : Nat) (xs : List α) :
    2 * (groupsOf n fuel xs).length ≤ xs.length + 1 := by
  induction fuel generalizing xs with
  | zero => exact Nat.zero_le _
  | succ fuel ih =>
    cases xs with
    | nil => exact Nat.zero_le _
    | cons x xs =>
      by_cases hlong : n ≤ (x :: xs).length
      · have hrest := ih ((x :: xs).drop n)
        rw [length_drop] at hrest
        rw [groupsOf, length_cons]
        omega
      · have hnil : (x :: xs).drop n = [] := drop_eq_nil_of_le (by omega)
        have hrest : groupsOf n fuel ([] : List α) = [] := by cases fuel <;> rfl
        rw [groupsOf, hnil, hrest, length_singleton, length_cons]
        omega

theorem groupsOf_ne_nil {fuel : Nat} (hx : xs ≠ []) (hf : 0 < fuel) :
    groupsOf n fuel xs ≠ [] := by
  obtain ⟨fuel, rfl⟩ := Nat.exists_eq_succ_of_ne_zero hf.ne'
  cases xs with
  | nil => exact absurd rfl hx
  | cons x xs => exact cons_ne_nil _ _

/-- Two lists in step are cut in step. -/
theorem forall₂_groupsOf {R : α → β → Prop} (fuel : Nat) {ys : List β} (h : List.Forall₂ R xs ys) :
    List.Forall₂ (List.Forall₂ R) (groupsOf n fuel xs) (groupsOf n fuel ys) := by
  induction fuel generalizing xs ys with
  | zero => exact .nil
  | succ fuel ih =>
    cases h with
    | nil => exact .nil
    | cons hxy hrest =>
      have hall := List.Forall₂.cons hxy hrest
      exact .cons (List.forall₂_take n hall) (ih (List.forall₂_drop n hall))

end Groups

/-! ### Trees -/

/-- The tree at an entry is stored, and its leaves are the data.  At level 0 the entry is
    that of a data chunk, above it that of a node one level down, and it spans what the
    node's entries span. -/
def Covers (P : Prims) (chunks : List Bytes) : Nat → NodeEntry → Bytes → Prop
  | 0, e, data => data ∈ chunks ∧ e.id = P.blake3 data ∧ e.span.toNat = data.length
  | level + 1, e, data => ∃ es parts, Manifest.encodeNode level es ∈ chunks ∧
      e.id = P.blake3 (Manifest.encodeNode level es) ∧ e.span = (es.map NodeEntry.span).sum ∧
      level < 256 ∧ es.length < 2 ^ 32 ∧
      List.Forall₂ (Covers P chunks level) es parts ∧ parts.flatten = data

variable {P : Prims} {S : IdxSort} {Keeps : Dir → ChunkStore → List Bytes → Prop}
  {strings fresh chunks : List Bytes} {opts : BlobOptions} {w : BlobWorld}

variable {data : Bytes}

theorem Covers.mono {chunks' : List Bytes} (hsub : chunks ⊆ chunks') {level : Nat} {e : NodeEntry}
    (h : Covers P chunks level e data) :
    Covers P chunks' level e data := by
  induction level generalizing e data with
  | zero =>
    obtain ⟨hd, hid, hspan⟩ := h
    exact ⟨hsub hd, hid, hspan⟩
  | succ level ih =>
    obtain ⟨es, parts, hnode, hid, hspan, hlevel, hcount, hparts, hflat⟩ := h
    exact ⟨es, parts, hsub hnode, hid, hspan, hlevel, hcount, hparts.imp fun _ _ => ih, hflat⟩

/-- A level of entries spans what it covers. -/
theorem sum_spans {es : List NodeEntry} {parts : List Bytes}
    (h : List.Forall₂ (fun e part => part.length < 2 ^ 64 → e.span.toNat = part.length) es parts)
    (hlong : parts.flatten.length < 2 ^ 64) :
    (es.map NodeEntry.span).sum.toNat = parts.flatten.length := by
  induction h with
  | nil => rfl
  | cons hspan _ ih =>
    rw [flatten_cons, length_append] at hlong
    rw [map_cons, sum_cons, UInt64.toNat_add, hspan (by omega), ih (by omega),
      flatten_cons, length_append, Nat.mod_eq_of_lt hlong]

/-- **Spans.** Every entry of a tree spans the bytes below it. -/
theorem Covers.span {level : Nat} {e : NodeEntry} (hc : Covers P chunks level e data)
    (hlong : data.length < 2 ^ 64) :
    e.span.toNat = data.length := by
  induction level generalizing e data with
  | zero => exact hc.2.2
  | succ level ih =>
    obtain ⟨es, parts, -, -, hspan, -, -, hparts, rfl⟩ := hc
    rw [hspan]
    exact sum_spans (hparts.imp fun _ _ hpart => ih hpart) hlong

/-- A record of the blob map names the root of the blob's tree. -/
structure Rooted (P : Prims) (chunks : List Bytes) (r : BlobMapRecord) (data : Bytes) : Prop where
  blob : r.blob = P.blake3 data
  totalLen : r.totalLen.toNat = data.length
  tree : ∃ level e, e.id = r.root ∧ Covers P chunks (level + 1) e data

theorem Rooted.mono {chunks' : List Bytes} (hsub : chunks ⊆ chunks') {r : BlobMapRecord}
    (h : Rooted P chunks r data) : Rooted P chunks' r data := by
  obtain ⟨hblob, hlen, level, e, hid, hcovers⟩ := h
  exact ⟨hblob, hlen, level, e, hid, hcovers.mono hsub⟩

/-- The entry of a data chunk. -/
def pieceEntry (P : Prims) (piece : Bytes) : NodeEntry := ⟨P.blake3 piece, .ofNat piece.length⟩

/-- The entry of a node. -/
def nodeEntry (P : Prims) (depth : Nat) (group : List NodeEntry) : NodeEntry :=
  ⟨P.blake3 (Manifest.encodeNode depth group), (group.map NodeEntry.span).sum⟩

/-- The nodes a tree over `level` is made of. -/
def treeNodes (P : Prims) (fanout : Nat) : Nat → Nat → List NodeEntry → List Bytes
  | 0, _, _ => []
  | fuel + 1, depth, level =>
    if level.length ≤ 1 then []
    else
      let groups := groupsOf fanout level.length level
      groups.map (Manifest.encodeNode depth)
        ++ treeNodes P fanout fuel (depth + 1) (groups.map (nodeEntry P depth))

/-- The byte strings that storing a blob hashes: the blob, its chunks and its nodes. -/
def blobStrings (P : Prims) (opts : BlobOptions) (data : Bytes) : List Bytes :=
  let pieces := Cdc.chunks opts.cdc data
  data :: (if pieces.length ≤ 1 then []
    else pieces ++ treeNodes P opts.fanout pieces.length 0 (pieces.map (pieceEntry P)))

/-! ### What is asked of the chunk store -/

/-- What a chunk store keeps is indexed and reads back, in every mode. -/
structure ReadLaw (P : Prims) (strings : List Bytes)
    (Keeps : Dir → ChunkStore → List Bytes → Prop) : Prop where
  subset : ∀ {d h chunks}, Keeps d h chunks → chunks ⊆ strings
  length_lt : ∀ {d h chunks}, Keeps d h chunks → ∀ {data}, data ∈ chunks → data.length < 2 ^ 32
  containsKey : ∀ {d h chunks}, Keeps d h chunks → ∀ {id},
    h.index.containsKey id = true ↔ ∃ data ∈ chunks, P.blake3 data = id
  resolve : ∀ {d h chunks}, Keeps d h chunks → ∀ {data}, data ∈ chunks → ∀ verify,
    ∃ cache, ChunkStore.resolve P d h (P.blake3 data) verify = (.ok data, cache) ∧
      Keeps d { h with cache := cache } chunks
  decode : ∀ {d h chunks}, Keeps d h chunks → ∀ {data}, data ∈ chunks →
    ChunkStore.decodeChunkUnverified P d h (P.blake3 data) = (.ok data, h.cache)

/-- A chunk that may be stored joins the list, if the store says so; nothing is lost. -/
def PutLaw (P : Prims) (S : IdxSort) (fresh : List Bytes)
    (Keeps : Dir → ChunkStore → List Bytes → Prop) : Prop :=
  ∀ {d h chunks data}, Keeps d h chunks → data ∈ fresh →
    ∃ d' h' res chunks', ChunkStore.put P S d h data = (d', h', res) ∧ chunks <+: chunks' ∧
      Keeps d' h' chunks' ∧ ∀ id, res = .ok id → id = P.blake3 data ∧ data ∈ chunks'

/-! ### A directory and a handle that hold a world -/

/-- The directory and the handle hold the chunks and the blobs of the world. -/
structure BlobOver (P : Prims) (Keeps : Dir → ChunkStore → List Bytes → Prop)
    (strings : List Bytes) (opts : BlobOptions) (s : BlobDisk × BlobStore) (w : BlobWorld) :
    Prop where
  opts : s.2.opts = opts
  chunks : Keeps s.1.packs s.2.chunks w.chunks
  map : ∃ recs, (BlobMap.format P).InStep BlobMap.indexing s.1.blobMap s.2.map recs ∧
    List.Forall₂ (Rooted P w.chunks) recs w.blobs
  blobs : w.blobs ⊆ strings

namespace BlobOver

variable {s : BlobDisk × BlobStore}

variable {data : Bytes}

theorem holds_mem (hk : ReadLaw P strings Keeps) (hs : BlobOver P Keeps strings opts s w)
    (h : w.Holds data) : data ∈ strings :=
  h.elim (fun hc => hk.subset hs.chunks hc) fun hb => hs.blobs hb

variable {id : BlobId}

/-- What the blob map says of an id. -/
theorem exists_rooted (hs : BlobOver P Keeps strings opts s w) {root : ChunkId}
    {totalLen : UInt64} (h : s.2.map.index id = some (root, totalLen)) :
    ∃ data ∈ w.blobs, Rooted P w.chunks ⟨id, root, totalLen⟩ data := by
  obtain ⟨recs, hstep, hrooted⟩ := hs.map
  rw [hstep.index] at h
  obtain ⟨r, hr, hk, hv⟩ := Indexing.exists_of_byKey (K := BlobMapRecord.blob)
    (V := fun r => (r.root, r.totalLen)) h
  obtain ⟨i, hi, rfl⟩ := getElem_of_mem hr
  have hlen := hrooted.length_eq
  have hget := List.Forall₂.get hrooted hi (by omega)
  obtain ⟨⟨blob, root', totalLen'⟩, hrec⟩ : ∃ r', r' = recs[i] := ⟨_, rfl⟩
  simp only [get_eq_getElem, ← hrec] at hget hk hv
  cases hk
  cases hv
  exact ⟨w.blobs[i], getElem_mem _, hget⟩

theorem isMultiChunk_iff (hs : BlobOver P Keeps strings opts s w) :
    s.2.isMultiChunk id = true ↔ ∃ data ∈ w.blobs, P.blake3 data = id := by
  obtain ⟨recs, hstep, hrooted⟩ := hs.map
  have hlen := hrooted.length_eq
  rw [BlobStore.isMultiChunk, hstep.index]
  refine (Indexing.isSome_byKey (K := BlobMapRecord.blob)).trans ?_
  constructor
  · rintro ⟨r, hr, rfl⟩
    obtain ⟨i, hi, rfl⟩ := getElem_of_mem hr
    have hget := List.Forall₂.get hrooted hi (by omega)
    exact ⟨w.blobs[i], getElem_mem _, hget.blob.symm⟩
  · rintro ⟨data, hd, rfl⟩
    obtain ⟨i, hi, rfl⟩ := getElem_of_mem hd
    have hget := List.Forall₂.get hrooted (by omega) hi
    exact ⟨recs[i], getElem_mem _, hget.blob⟩

theorem contains_iff (hk : ReadLaw P strings Keeps) (hs : BlobOver P Keeps strings opts s w) :
    s.2.contains id = true ↔ ∃ data, w.Holds data ∧ P.blake3 data = id := by
  have hmulti : s.2.isMultiChunk id = true ↔ _ := hs.isMultiChunk_iff
  rw [BlobStore.isMultiChunk] at hmulti
  rw [BlobStore.contains, Bool.or_eq_true, hk.containsKey hs.chunks, hmulti]
  constructor
  · rintro (⟨data, hd, hid⟩ | ⟨data, hd, hid⟩)
    · exact ⟨data, .inr hd, hid⟩
    · exact ⟨data, .inl hd, hid⟩
  · rintro ⟨data, hd | hd, hid⟩
    · exact .inr ⟨data, hd, hid⟩
    · exact .inl ⟨data, hd, hid⟩

/-- With no collisions, an id that is there is that of its blob alone. -/
theorem holds_of_contains (hk : ReadLaw P strings Keeps)
    (hu : Set.InjOn P.blake3 {b | b ∈ strings}) (hs : BlobOver P Keeps strings opts s w)
    (hd : data ∈ strings) (hc : s.2.contains (P.blake3 data) = true) : w.Holds data := by
  obtain ⟨data', hd', hid⟩ := (hs.contains_iff hk).mp hc
  exact hu (hs.holds_mem hk hd') hd hid ▸ hd'

/-! ### Storing -/

open BlobStore

theorem grows_putChunk (hk : ReadLaw P strings Keeps) (hp : PutLaw P S fresh Keeps)
    (hd : data ∈ fresh) :
    Grows (BlobOver P Keeps strings opts) w (putChunk P S data) fun id w' =>
      id = P.blake3 data ∧ data ∈ w'.chunks ∧ data.length < 2 ^ 32 := by
  rintro ⟨disk, h⟩ hs
  obtain ⟨d', h', res, chunks', heq, hgrown, hshows, hput⟩ := hp hs.chunks hd
  have hmap : ∃ recs, (BlobMap.format P).InStep BlobMap.indexing disk.blobMap h.map recs ∧
      List.Forall₂ (Rooted P chunks') recs w.blobs := by
    obtain ⟨recs, hstep, hrooted⟩ := hs.map
    exact ⟨recs, hstep, hrooted.imp fun _ _ hr => hr.mono hgrown.subset⟩
  have hs' : BlobOver P Keeps strings opts ({ disk with packs := d' }, { h with chunks := h' })
      ⟨chunks', w.blobs⟩ := ⟨hs.opts, hshows, hmap, hs.blobs⟩
  refine ⟨⟨chunks', w.blobs⟩, ⟨hgrown, prefix_rfl⟩, ?_⟩
  cases res with
  | error e =>
    have hrun : putChunk P S data (disk, h)
        = .error e ({ disk with packs := d' }, { h with chunks := h' }) := by
      simp only [putChunk, heq]
    rw [hrun]
    exact ⟨hs', fun a s' herr => by cases herr⟩
  | ok id =>
    have hrun : putChunk P S data (disk, h)
        = .ok id ({ disk with packs := d' }, { h with chunks := h' }) := by
      simp only [putChunk, heq]
    obtain ⟨hid, hmem⟩ := hput id rfl
    rw [hrun]
    refine ⟨hs', fun a s' hok => ?_⟩
    cases hok
    exact ⟨hid, hmem, hk.length_lt hshows hmem⟩

theorem grows_putPiece (hk : ReadLaw P strings Keeps) (hp : PutLaw P S fresh Keeps)
    {piece : Bytes} (hd : piece ∈ fresh) :
    Grows (BlobOver P Keeps strings opts) w (putPiece P S piece) fun e w' =>
      e = pieceEntry P piece ∧ Covers P w'.chunks 0 e piece := by
  refine (grows_putChunk hk hp hd).bind fun id w' _ hput => Grows.pure ?_
  obtain ⟨rfl, hmem, hlen⟩ := hput
  refine ⟨rfl, hmem, rfl, ?_⟩
  exact UInt64.toNat_ofNat_of_lt' (hlen.trans (by decide))

variable {depth : Nat}

theorem grows_putNode (hk : ReadLaw P strings Keeps) (hp : PutLaw P S fresh Keeps)
    {group : List NodeEntry} (hd : Manifest.encodeNode depth group ∈ fresh) :
    Grows (BlobOver P Keeps strings opts) w (putNode P S depth group) fun e w' =>
      e = nodeEntry P depth group ∧ Manifest.encodeNode depth group ∈ w'.chunks ∧
        group.length < 2 ^ 32 := by
  refine (grows_putChunk hk hp hd).bind fun id w' _ hput => Grows.pure ?_
  obtain ⟨rfl, hmem, hlen⟩ := hput
  rw [Manifest.length_encodeNode, Manifest.nodeHeaderLen, Manifest.nodeEntryLen] at hlen
  exact ⟨rfl, hmem, by omega⟩

/-- One level of nodes over the groups of the level below. -/
theorem covers_next (hdepth : depth < 256) {groups : List (List NodeEntry)}
    {parts : List (List Bytes)} {next : List NodeEntry}
    (hgroups : List.Forall₂ (List.Forall₂ (Covers P chunks depth)) groups parts)
    (hnext : List.Forall₂ (fun g e => e = nodeEntry P depth g ∧ Manifest.encodeNode depth g ∈ chunks ∧ g.length < 2 ^ 32) groups next) :
    next = groups.map (nodeEntry P depth) ∧
      List.Forall₂ (Covers P chunks (depth + 1)) next (parts.map List.flatten) := by
  induction hgroups generalizing next with
  | nil =>
    cases hnext
    exact ⟨rfl, .nil⟩
  | @cons g part groups parts hg _ ih =>
    cases hnext with
    | @cons _ e _ next he hrest =>
      obtain ⟨rfl, hnode, hlen⟩ := he
      obtain ⟨rfl, hcovers⟩ := ih hrest
      exact ⟨rfl, .cons ⟨g, part, hnode, rfl, rfl, hdepth, hlen, hg, rfl⟩ hcovers⟩

variable {parts : List Bytes}

/-- A level of one entry is a tree. -/
theorem covers_root {level : List NodeEntry} (hne : level ≠ []) (hshort : level.length ≤ 1)
    (hcovers : List.Forall₂ (Covers P chunks depth) level parts) :
    ∃ root, level = [root] ∧ Covers P chunks depth root parts.flatten := by
  have hpos := length_pos_iff.mpr hne
  obtain ⟨root, rfl⟩ := length_eq_one_iff.mp (show level.length = 1 by omega)
  cases hcovers with
  | @cons _ data _ parts hc hrest =>
    cases hrest
    refine ⟨root, rfl, ?_⟩
    rw [flatten_cons, flatten_nil, append_nil]
    exact hc

/-- **Growing a tree.** Nodes over nodes keep covering the same data, until one is left. -/
theorem grows_growTree (hk : ReadLaw P strings Keeps) (hp : PutLaw P S fresh Keeps) {fanout : Nat}
    (hfanout : 2 ≤ fanout) {fuel : Nat} {level : List NodeEntry} (hdepth : depth < 256)
    (hfuel : level.length ≤ fuel + 1) (hne : level ≠ [])
    (hcovers : List.Forall₂ (Covers P w.chunks depth) level parts)
    (hsub : treeNodes P fanout fuel depth level ⊆ fresh) :
    Grows (BlobOver P Keeps strings opts) w (growTree P S fanout fuel depth level) fun top w' =>
      ∃ root depth', top = [root] ∧ Covers P w'.chunks depth' root parts.flatten ∧
        depth ≤ depth' ∧ (2 ≤ level.length → depth < depth') := by
  induction fuel generalizing w depth level parts with
  | zero =>
    obtain ⟨root, rfl, hroot⟩ := covers_root hne (by omega) hcovers
    refine Grows.pure ⟨root, depth, rfl, hroot, le_rfl, fun h => ?_⟩
    rw [length_singleton] at h
    omega
  | succ fuel ih =>
    rw [growTree]
    split
    · rename_i hshort
      obtain ⟨root, rfl, hroot⟩ := covers_root hne hshort hcovers
      refine Grows.pure ⟨root, depth, rfl, hroot, le_rfl, fun h => ?_⟩
      omega
    · rename_i hlong
      rw [treeNodes, if_neg hlong] at hsub
      dsimp only at hsub
      have hgroups := forall₂_groupsOf (n := fanout) level.length hcovers
      have hhalf := length_groupsOf_le hfanout level.length level
      have hsome : groupsOf fanout level.length level ≠ [] :=
        groupsOf_ne_nil hne (length_pos_iff.mpr hne)
      have hflat : (groupsOf fanout level.length parts).flatten = parts :=
        flatten_groupsOf (by omega) hcovers.length_eq.symm.le
      refine (Grows.mapM (Q := fun g e w' => e = nodeEntry P depth g ∧
        Manifest.encodeNode depth g ∈ w'.chunks ∧ g.length < 2 ^ 32) ?_ ?_).bind
        fun next w' hle hnext => ?_
      · intro g e w₁ w₂ hle hq
        exact ⟨hq.1, hle.1.subset hq.2.1, hq.2.2⟩
      · intro g hg w' _
        exact grows_putNode hk hp (hsub (mem_append_left _ (mem_map_of_mem hg)))
      · have hgroups' := hgroups.imp fun _ _ hg =>
          hg.imp fun _ _ hc => Covers.mono hle.1.subset hc
        obtain ⟨rfl, hcovers'⟩ := covers_next hdepth hgroups' hnext
        split
        · exact Grows.throw
        · have hnodes : treeNodes P fanout fuel (depth + 1)
              ((groupsOf fanout level.length level).map (nodeEntry P depth)) ⊆ fresh :=
            fun b hb => hsub (mem_append_right _ hb)
          refine (ih (by omega) ?_ ?_ hcovers' hnodes).imp fun top w'' _ htop => ?_
          · rw [length_map]
            omega
          · exact fun h => hsome (map_eq_nil_iff.mp h)
          · obtain ⟨root, depth', rfl, hroot, hle', -⟩ := htop
            rw [← flatten_flatten, hflat] at hroot
            exact ⟨root, depth', rfl, hroot, by omega, fun _ => by omega⟩

theorem grows_appendRoot {r : BlobMapRecord} (hd : data ∈ strings) (hr : Rooted P w.chunks r data) :
    Grows (BlobOver P Keeps strings opts) w (appendRoot P r) fun _ w' => data ∈ w'.blobs := by
  rintro ⟨disk, h⟩ hs
  obtain ⟨recs, hstep, hrooted⟩ := hs.map
  refine ⟨⟨w.chunks, w.blobs ++ [data]⟩, ⟨prefix_rfl, prefix_append _ _⟩,
    ⟨hs.opts, hs.chunks, ⟨recs ++ [r], hstep.append r, ?_⟩, ?_⟩, fun _ _ _ => ?_⟩
  · exact rel_append hrooted (.cons hr .nil)
  · intro b hb
    rcases mem_append.mp hb with hold | hnew
    · exact hs.blobs hold
    · exact mem_singleton.mp hnew ▸ hd
  · exact mem_append_right _ (mem_singleton.mpr rfl)

theorem grows_putPieces (hk : ReadLaw P strings Keeps) (hp : PutLaw P S fresh Keeps)
    {pieces : List Bytes} (hd : data ∈ strings) (hlong : data.length < 2 ^ 64)
    (hflat : pieces.flatten = data) (hmany : 2 ≤ pieces.length) (hpieces : pieces ⊆ fresh)
    (hnodes : treeNodes P opts.fanout pieces.length 0 (pieces.map (pieceEntry P)) ⊆ fresh) :
    Grows (BlobOver P Keeps strings opts) w (putPieces P S opts (P.blake3 data) data pieces)
      fun id w' => id = P.blake3 data ∧ w'.Holds data := by
  refine (Grows.mapM (Q := fun piece e w' => e = pieceEntry P piece ∧
    Covers P w'.chunks 0 e piece) ?_ ?_).bind fun leaves w₁ _ hleaves => ?_
  · intro piece e w₁ w₂ hle hq
    exact ⟨hq.1, hq.2.mono hle.1.subset⟩
  · intro piece hpiece w' _
    exact grows_putPiece hk hp (hpieces hpiece)
  · have hlen := hleaves.length_eq
    have heq : pieces.map (pieceEntry P) = leaves := by
      rw [← List.forall₂_eq_eq_eq, List.forall₂_map_left_iff]
      exact hleaves.imp fun _ _ hq => hq.1.symm
    have hcovers : List.Forall₂ (Covers P w₁.chunks 0) leaves pieces :=
      (hleaves.imp fun _ _ hq => hq.2).flip
    have hne : leaves ≠ [] := ne_nil_of_length_pos (by omega)
    rw [hlen, heq] at hnodes
    refine (grows_growTree hk hp opts.fanout_ge (by decide) (Nat.le_succ _) hne hcovers
      hnodes).bind fun top w₂ _ htop => ?_
    obtain ⟨root, depth, rfl, hroot, -, hdeep⟩ := htop
    obtain ⟨depth, rfl⟩ := Nat.exists_eq_succ_of_ne_zero (hdeep (by omega)).ne'
    rw [hflat] at hroot
    have hrooted : Rooted P w₂.chunks ⟨P.blake3 data, root.id, .ofNat data.length⟩ data :=
      ⟨rfl, UInt64.toNat_ofNat_of_lt' hlong, depth, root, rfl, hroot⟩
    exact (grows_appendRoot hd hrooted).bind fun _ w₃ _ hmem =>
      Grows.pure ⟨rfl, .inr hmem⟩

/-- **Storing a blob.** It is there afterwards, under its hash, whatever was there before. -/
theorem grows_put (hk : ReadLaw P strings Keeps) (hp : PutLaw P S fresh Keeps)
    (hu : Set.InjOn P.blake3 {b | b ∈ strings}) (hstrings : fresh ⊆ strings)
    (hlong : data.length < 2 ^ 64) (hsub : blobStrings P opts data ⊆ fresh) :
    Grows (BlobOver P Keeps strings opts) w (BlobStore.put P S data) fun id w' =>
      id = P.blake3 data ∧ w'.Holds data := by
  have hd : data ∈ fresh := hsub mem_cons_self
  rintro ⟨disk, h⟩ hs
  by_cases hthere : h.contains (P.blake3 data) = true
  · have hrun : BlobStore.put P S data (disk, h) = .ok (P.blake3 data) (disk, h) := by
      simp only [BlobStore.put, hthere, ↓reduceIte]
    rw [hrun]
    refine ⟨w, le_rfl, hs, fun a s' hok => ?_⟩
    cases hok
    exact ⟨rfl, hs.holds_of_contains hk hu (hstrings hd) hthere⟩
  · have hopts : h.opts = opts := hs.opts
    by_cases hsingle : (Cdc.chunks opts.cdc data).length ≤ 1
    · have hrun : BlobStore.put P S data (disk, h)
          = (do let _ ← putChunk P S data; return P.blake3 data : BlobProg BlobId) (disk, h) := by
        simp only [BlobStore.put, hthere, hopts, hsingle, ↓reduceIte, Bool.false_eq_true]
      have hgrows : Grows (BlobOver P Keeps strings opts) w
          (do let _ ← putChunk P S data; return P.blake3 data : BlobProg BlobId)
          fun id w' => id = P.blake3 data ∧ w'.Holds data :=
        (grows_putChunk hk hp hd).bind fun _ _ _ hput => Grows.pure ⟨rfl, .inl hput.2.1⟩
      rw [hrun]
      exact hgrows (disk, h) hs
    · have hrun : BlobStore.put P S data (disk, h)
          = putPieces P S opts (P.blake3 data) data (Cdc.chunks opts.cdc data) (disk, h) := by
        simp only [BlobStore.put, hthere, hopts, hsingle, ↓reduceIte, Bool.false_eq_true]
      have hall : Cdc.chunks opts.cdc data ++ treeNodes P opts.fanout
          (Cdc.chunks opts.cdc data).length 0 ((Cdc.chunks opts.cdc data).map (pieceEntry P))
          ⊆ fresh := by
        intro b hb
        refine hsub (mem_cons_of_mem _ ?_)
        rw [if_neg hsingle]
        exact hb
      rw [hrun]
      exact grows_putPieces hk hp (hstrings hd) hlong (Cdc.flatten_chunks opts.cdc data) (by omega)
        (fun b hb => hall (mem_append_left _ hb))
        (fun b hb => hall (mem_append_right _ hb)) (disk, h) hs

/-! ### Reading -/

theorem yields_cached {read : Dir → ChunkStore → Except StoreError Bytes × DeltaCache}
    (hread : ∀ d h, Keeps d h w.chunks → ∃ cache, read d h = (.ok data, cache) ∧ Keeps d { h with cache := cache } w.chunks) :
    Yields (BlobOver P Keeps strings opts) w (cached read) data := by
  rintro ⟨disk, h⟩ hs
  obtain ⟨cache, heq, hshows⟩ := hread disk.packs h.chunks hs.chunks
  refine ⟨(disk, { h with chunks := { h.chunks with cache } }), ?_,
    hs.opts, hshows, hs.map, hs.blobs⟩
  simp only [cached, heq]

/-- A stored chunk reads back in every mode. -/
theorem yields_readChunk (hk : ReadLaw P strings Keeps) (mode : ChunkRead) (hd : data ∈ w.chunks) :
    Yields (BlobOver P Keeps strings opts) w (readChunk P mode (P.blake3 data)) data := by
  refine yields_cached fun d h hs => ?_
  cases mode with
  | deep => exact hk.resolve hs hd .deep
  | fast => exact hk.resolve hs hd .none
  | bulk => exact ⟨h.cache, hk.decode hs hd, hs⟩

theorem yields_readPiece (hk : ReadLaw P strings Keeps) (mode : ChunkRead) {e : NodeEntry}
    (hc : Covers P w.chunks 0 e data) :
    Yields (BlobOver P Keeps strings opts) w (readPiece P mode e) data := by
  obtain ⟨hd, hid, hspan⟩ := hc
  have hread : Yields (BlobOver P Keeps strings opts) w (readChunk P mode e.id) data :=
    hid ▸ yields_readChunk hk mode hd
  refine hread.bind ?_
  rw [if_neg (fun hne => hne hspan.symm)]
  exact .pure

variable {level : Nat}

/-- **Walking a tree** gives the data it covers. -/
theorem yields_walkEntries (hk : ReadLaw P strings Keeps) (mode : ChunkRead)
    {entries : List NodeEntry} (hc : List.Forall₂ (Covers P w.chunks level) entries parts) :
    Yields (BlobOver P Keeps strings opts) w (walkEntries P mode level entries) parts.flatten := by
  induction level generalizing entries parts with
  | zero => exact (Yields.mapM (hc.imp fun _ _ he => yields_readPiece hk mode he)).bind .pure
  | succ level ih =>
    refine (Yields.mapM (hc.imp fun e data he => ?_)).bind .pure
    obtain ⟨es, parts', hnode, hid, -, hlevel, hcount, hparts, rfl⟩ := he
    have hread : Yields (BlobOver P Keeps strings opts) w (readChunk P mode e.id)
        (Manifest.encodeNode level es) := hid ▸ yields_readChunk hk mode hnode
    refine hread.bind ((Yields.lift (Manifest.parseNode_encodeNode hlevel hcount)).bind ?_)
    dsimp only
    rw [if_neg (fun hne => hne rfl)]
    exact ih hparts

theorem yields_walk (hk : ReadLaw P strings Keeps) (mode : ChunkRead) {root : NodeEntry}
    (hc : Covers P w.chunks (level + 1) root data) :
    Yields (BlobOver P Keeps strings opts) w (walk P mode root.id) data := by
  obtain ⟨es, parts, hnode, hid, -, hlevel, hcount, hparts, rfl⟩ := hc
  have hread : Yields (BlobOver P Keeps strings opts) w (readChunk P mode root.id)
      (Manifest.encodeNode level es) := hid ▸ yields_readChunk hk mode hnode
  exact hread.bind ((Yields.lift (Manifest.parseNode_encodeNode hlevel hcount)).bind
    (yields_walkEntries hk mode hparts))

theorem yields_readTree (hk : ReadLaw P strings Keeps) (mode : ChunkRead) (hashBoundary : Bool)
    {root : ChunkId} {totalLen : UInt64} (hr : Rooted P w.chunks ⟨id, root, totalLen⟩ data) :
    Yields (BlobOver P Keeps strings opts) w (readTree P mode hashBoundary id root totalLen)
      data := by
  obtain ⟨rfl, hlen, level, e, rfl, hcovers⟩ := hr
  refine (yields_walk hk mode hcovers).bind ?_
  rw [if_neg (fun hne => hne hlen.symm)]
  have hhash : (hashBoundary && decide (P.blake3 data ≠ P.blake3 data)) = false := by simp
  rw [hhash, if_neg Bool.false_ne_true]
  exact .pure

variable {mode : ChunkRead}

variable (hk : ReadLaw P strings Keeps)
include hk

/-- A blob of one chunk.  A deep scrub of it returns nothing. -/
theorem yields_readSingle (hmode : mode ≠ .deep) (hd : data ∈ w.chunks) :
    Yields (BlobOver P Keeps strings opts) w (readSingle P mode (P.blake3 data)) data := by
  intro s hs
  cases mode with
  | deep => exact absurd rfl hmode
  | fast =>
    have hread : Yields (BlobOver P Keeps strings opts) w
        (cached fun d h => ChunkStore.get P d h (P.blake3 data)) data :=
      yields_cached fun d h hs => hk.resolve hs hd _
    obtain ⟨s', hrun, hs'⟩ := hread s hs
    exact ⟨s', by simp only [readSingle, hrun], hs'⟩
  | bulk =>
    have hread : Yields (BlobOver P Keeps strings opts) w
        (cached fun d h => ChunkStore.decodeChunkUnverified P d h (P.blake3 data)) data :=
      yields_cached fun d h hs => ⟨h.cache, hk.decode hs hd, hs⟩
    obtain ⟨s', hrun, hs'⟩ := hread s hs
    exact ⟨s', by simp only [readSingle, hrun], hs'⟩

variable (hu : Set.InjOn P.blake3 {b | b ∈ strings})
include hu

/-- What the blob map says of a blob that is there: its tree, or that it is a chunk. -/
theorem root_of_holds {s : BlobDisk × BlobStore} (hs : BlobOver P Keeps strings opts s w)
    (hd : w.Holds data) :
    (s.2.map.index (P.blake3 data) = none ∧ data ∈ w.chunks) ∨
    ∃ root totalLen, s.2.map.index (P.blake3 data) = some (root, totalLen) ∧
      Rooted P w.chunks ⟨P.blake3 data, root, totalLen⟩ data := by
  cases hroot : s.2.map.index (P.blake3 data) with
  | some entry =>
    obtain ⟨root, totalLen⟩ := entry
    obtain ⟨data', hd', hr⟩ := hs.exists_rooted hroot
    obtain rfl : data' = data :=
      hu (hs.blobs hd') (hs.holds_mem hk hd) hr.blob.symm
    exact .inr ⟨root, totalLen, rfl, hr⟩
  | none =>
    refine .inl ⟨rfl, hd.resolve_right fun hb => ?_⟩
    have hmulti := hs.isMultiChunk_iff.mpr ⟨data, hb, rfl⟩
    rw [isMultiChunk, hroot] at hmulti
    cases hmulti

/-- A whole blob comes back, with or without the hash at its boundary. -/
theorem yields_materialize (hmode : mode ≠ .deep) (hashBoundary : Bool) (hd : w.Holds data) :
    Yields (BlobOver P Keeps strings opts) w (materialize P (P.blake3 data) mode hashBoundary)
      data := by
  rintro ⟨disk, h⟩ hs
  rcases root_of_holds hk hu hs hd with ⟨hroot, hchunk⟩ | ⟨root, totalLen, hroot, hr⟩
  · simp only at hroot
    simp only [materialize, hroot]
    exact yields_readSingle hk hmode hchunk (disk, h) hs
  · simp only at hroot
    simp only [materialize, hroot]
    exact yields_readTree hk mode hashBoundary hr (disk, h) hs

/-- **Reading a blob** that is there gives its bytes. -/
theorem yields_get (hd : w.Holds data) :
    Yields (BlobOver P Keeps strings opts) w (BlobStore.get P (P.blake3 data)) data :=
  yields_materialize hk hu (by decide) true hd

theorem yields_getUnverified (hd : w.Holds data) :
    Yields (BlobOver P Keeps strings opts) w (BlobStore.getUnverified P (P.blake3 data)) data :=
  yields_materialize hk hu (by decide) false hd

/-- A read of any id leaves the world as it is. -/
theorem materialize_keeps {s : BlobDisk × BlobStore} (hs : BlobOver P Keeps strings opts s w)
    (hmode : mode ≠ .deep) (hashBoundary : Bool) (id : BlobId) :
    BlobOver P Keeps strings opts (leaves (materialize P id mode hashBoundary s)) w := by
  by_cases hthere : s.2.contains id = true
  · obtain ⟨data, hd, rfl⟩ := (hs.contains_iff hk).mp hthere
    obtain ⟨s', hrun, hs'⟩ := yields_materialize hk hu hmode hashBoundary hd s hs
    rw [hrun]
    exact hs'
  · obtain ⟨disk, h⟩ := s
    rw [BlobStore.contains, Bool.or_eq_true, not_or] at hthere
    have hroot : h.map.index id = none := Option.not_isSome_iff_eq_none.mp hthere.1
    have hget : h.chunks.index.get id = none := Option.not_isSome_iff_eq_none.mp hthere.2
    have hmiss : ∀ verify, ChunkStore.resolve P disk.packs h.chunks id verify
        = (.error (.notFound id), h.chunks.cache) := by
      intro verify
      simp [ChunkStore.resolve, ChunkStore.descend, ChunkStore.locate, hget, bind, Except.bind]
    have hbulk : ChunkStore.decodeChunkUnverified P disk.packs h.chunks id
        = (.error (.notFound id), h.chunks.cache) := by
      simp [ChunkStore.decodeChunkUnverified, ChunkStore.locate, hget, bind, Except.bind]
    simp only [materialize, hroot]
    cases mode with
    | deep => exact absurd rfl hmode
    | fast =>
      simp only [readSingle, cached, ChunkStore.get, hmiss]
      exact hs
    | bulk =>
      simp only [readSingle, cached, hbulk]
      exact hs

omit hu

/-! ### Leaves -/

/-- **Collecting the leaves** of a tree gives the ids of chunks that make up the data. -/
theorem yields_collectLeaves {entries : List NodeEntry}
    (hc : List.Forall₂ (Covers P w.chunks level) entries parts) :
    ∃ pieces, pieces ⊆ w.chunks ∧ pieces.flatten = parts.flatten ∧
      Yields (BlobOver P Keeps strings opts) w (collectLeaves P level entries)
        (pieces.map P.blake3) := by
  induction level generalizing entries parts with
  | zero =>
    have hids : entries.map NodeEntry.id = parts.map P.blake3 := by
      rw [← List.forall₂_eq_eq_eq, List.forall₂_map_left_iff, List.forall₂_map_right_iff]
      exact hc.imp fun _ _ he => he.2.1
    refine ⟨parts, ?_, rfl, hids ▸ .pure⟩
    intro part hpart
    obtain ⟨i, hi, rfl⟩ := getElem_of_mem hpart
    exact (List.Forall₂.get hc (hc.length_eq ▸ hi) hi).1
  | succ level ih =>
    -- the leaves of each entry
    have hall : ∃ piecess : List (List Bytes), (∀ pieces ∈ piecess, pieces ⊆ w.chunks) ∧
        piecess.map List.flatten = parts ∧
        List.Forall₂ (fun e ids => Yields (BlobOver P Keeps strings opts) w
          (leafNode P (collectLeaves P level) level e) ids) entries
          (piecess.map fun pieces => pieces.map P.blake3) := by
      induction hc with
      | nil => exact ⟨[], fun _ h => (not_mem_nil h).elim, rfl, .nil⟩
      | cons he _ ihrest =>
        obtain ⟨piecess, hsub, hflat, hyields⟩ := ihrest
        obtain ⟨es, parts', hnode, hid, -, hlevel, hcount, hparts, rfl⟩ := he
        obtain ⟨pieces, hpieces, hflat', hleaves⟩ := ih hparts
        refine ⟨pieces :: piecess, ?_, by rw [map_cons, hflat', hflat], .cons ?_ hyields⟩
        · intro ps hps
          rcases mem_cons.mp hps with rfl | hps
          · exact hpieces
          · exact hsub ps hps
        · have hread : Yields (BlobOver P Keeps strings opts) w (readChunk P .fast _)
              (Manifest.encodeNode level es) := hid ▸ yields_readChunk hk .fast hnode
          refine hread.bind ((Yields.lift (Manifest.parseNode_encodeNode hlevel hcount)).bind ?_)
          dsimp only
          rw [if_neg (fun hne => hne rfl)]
          exact hleaves
    obtain ⟨piecess, hsub, rfl, hyields⟩ := hall
    refine ⟨piecess.flatten, ?_, flatten_flatten, ?_⟩
    · intro piece hpiece
      obtain ⟨pieces, hmem, hpiece⟩ := mem_flatten.mp hpiece
      exact hsub pieces hmem hpiece
    · rw [map_flatten]
      exact (Yields.mapM hyields).bind .pure

/-- The leaf chunks of a blob that is there make it up. -/
theorem yields_leafChunks (hu : Set.InjOn P.blake3 {b | b ∈ strings}) {s : BlobDisk × BlobStore}
    (hs : BlobOver P Keeps strings opts s w) (hd : w.Holds data) :
    ∃ pieces s', pieces ⊆ w.chunks ∧ pieces.flatten = data ∧
      leafChunks P (P.blake3 data) s = .ok (pieces.map P.blake3) s' ∧
      BlobOver P Keeps strings opts s' w := by
  obtain ⟨disk, h⟩ := s
  rcases root_of_holds hk hu hs hd with ⟨hroot, hchunk⟩ | ⟨root, totalLen, hroot, hr⟩
  · simp only at hroot
    refine ⟨[data], (disk, h), cons_subset.mpr ⟨hchunk, nil_subset _⟩, ?_, ?_, hs⟩
    · rw [flatten_cons, flatten_nil, append_nil]
    · simp only [leafChunks, hroot, map_cons, map_nil]
  · simp only at hroot
    obtain ⟨-, -, level, e, rfl, es, parts, hnode, hid, -, hlevel, hcount, hparts, rfl⟩ := hr
    obtain ⟨pieces, hsub, hflat, hleaves⟩ := yields_collectLeaves hk hparts
    have hread : Yields (BlobOver P Keeps strings opts) w (readChunk P .fast e.id)
        (Manifest.encodeNode level es) := hid ▸ yields_readChunk hk .fast hnode
    have hbelow : Yields (BlobOver P Keeps strings opts) w (leavesBelow P e.id)
        (pieces.map P.blake3) :=
      hread.bind ((Yields.lift (Manifest.parseNode_encodeNode hlevel hcount)).bind hleaves)
    obtain ⟨s', hrun, hs'⟩ := hbelow (disk, h) hs
    refine ⟨pieces, s', hsub, hflat, ?_, hs'⟩
    simp only [leafChunks, hroot]
    exact hrun

/-- Asking for the leaves of any id leaves the world as it is. -/
theorem leafChunks_keeps (hu : Set.InjOn P.blake3 {b | b ∈ strings}) {s : BlobDisk × BlobStore}
    (hs : BlobOver P Keeps strings opts s w) (id : BlobId) :
    BlobOver P Keeps strings opts (leaves (leafChunks P id s)) w := by
  by_cases hthere : s.2.contains id = true
  · obtain ⟨data, hd, rfl⟩ := (hs.contains_iff hk).mp hthere
    obtain ⟨pieces, s', -, -, hrun, hs'⟩ := yields_leafChunks hk hu hs hd
    rw [hrun]
    exact hs'
  · obtain ⟨disk, h⟩ := s
    rw [BlobStore.contains, Bool.or_eq_true, not_or] at hthere
    have hroot : h.map.index id = none := Option.not_isSome_iff_eq_none.mp hthere.1
    simp only [leafChunks, hroot]
    exact hs

end BlobOver

end Alt.Store
