import Alt.Diff.Lines

namespace Alt.Diff

open Alt.Library List

/-!
# Unified hunks (`alt-diff/src/lib.rs`, `hunks`, `build_hunk`, `range_str`)

Edits whose context windows touch share a hunk; a hunk is the window around its edits, with
the lines of both sides tagged.

* `Windows` — what the hunks are of the two texts: kept stretches between them, and a path
  through each, so that a hunk's old side is a stretch of the old text and its new side one
  of the new text;
* `windows_hunks` — the hunks of a diff are windows, by the groups of its edits;
* `ValidPatch` — what a patch must be, with `applyHunks` for what a reader of the patch does;
* `hunks_valid` — the hunks of two texts are a valid patch, as long as no token wraps and no
  sum of a line number and the context does.

Line numbers and the context are `usize`s.
-/

/-! ### Grouping -/

/-- Edits of one hunk, in order. -/
structure EditGroup where
  first : Edit
  rest : List Edit

namespace EditGroup

def edits (g : EditGroup) : List Edit := g.first :: g.rest

def last (g : EditGroup) : Edit := g.rest.getLastD g.first

def push (g : EditGroup) (e : Edit) : EditGroup := ⟨g.first, g.rest ++ [e]⟩

@[simp] theorem edits_push (g : EditGroup) (e : Edit) : (g.push e).edits = g.edits ++ [e] := rfl

theorem exists_front (g : EditGroup) : ∃ front, g.edits = front ++ [g.last] := by
  refine ⟨g.edits.dropLast, (dropLast_append_getLast? g.last ?_).symm⟩
  rw [edits, last, getLast?_cons, getLastD_eq_getLast?]
  rfl

theorem last_mem (g : EditGroup) : g.last ∈ g.edits := getLastD_mem_cons

end EditGroup

/-- The edits still to come, the group `g` open. -/
def groupsFrom (context : Nat) (g : EditGroup) : List Edit → List EditGroup
  | [] => [g]
  | e :: es =>
    if e.old.start ≤ (g.last.old.stop + 2 * context) % 2 ^ 64 then groupsFrom context (g.push e) es
    else g :: groupsFrom context ⟨e, []⟩ es

/-- An edit joins the hunk before it when their context windows touch. -/
def groupEdits (context : Nat) : List Edit → List EditGroup
  | [] => []
  | e :: es => groupsFrom context ⟨e, []⟩ es

/-! ### Hunks -/

def tagContext : UInt8 := 0x20
def tagRemoved : UInt8 := 0x2d
def tagAdded : UInt8 := 0x2b

/-- A window of both texts with the coordinates of its header. -/
structure Hunk where
  oldStart : Nat
  oldLen : Nat
  newStart : Nat
  newLen : Nat
  lines : List (UInt8 × Bytes)
  deriving DecidableEq

/-- The lines of a hunk from old line `oi` on. -/
def hunkLines (a b : List Bytes) (oldTo oi : Nat) : List Edit → List (UInt8 × Bytes)
  | [] => (slice a oi oldTo).map fun line => (tagContext, line)
  | e :: es =>
    ((slice a oi e.old.start).map fun line => (tagContext, line)) ++
    ((slice a e.old.start e.old.stop).map fun line => (tagRemoved, line)) ++
    ((slice b e.new.start e.new.stop).map fun line => (tagAdded, line)) ++
    hunkLines a b oldTo e.old.stop es

def buildHunk (a b : List Bytes) (context : Nat) (group : EditGroup) : Hunk :=
  let oldFrom := group.first.old.start - context
  let newFrom := group.first.new.start - context
  let oldTo := min ((group.last.old.stop + context) % 2 ^ 64) a.length
  let newTo := min ((group.last.new.stop + context) % 2 ^ 64) b.length
  { oldStart := oldFrom + 1
    oldLen := (oldTo + 2 ^ 64 - oldFrom) % 2 ^ 64
    newStart := newFrom + 1
    newLen := (newTo + 2 ^ 64 - newFrom) % 2 ^ 64
    lines := hunkLines a b oldTo oldFrom group.edits }

def hunks (old new : Bytes) (context : Nat) : List Hunk :=
  let a := splitLines old
  let b := splitLines new
  (groupEdits context (diffLines a b)).map (buildHunk a b context)

/-- A range in the header: one line by its number, an empty range by the line before it. -/
def rangeStr (start len : Nat) : String :=
  if len = 1 then toString start
  else if len = 0 then toString (start - 1) ++ ",0"
  else toString start ++ "," ++ toString len

/-- The `@@` line of a hunk. -/
def Hunk.header (h : Hunk) : String :=
  "@@ -" ++ rangeStr h.oldStart h.oldLen ++ " +" ++ rangeStr h.newStart h.newLen ++ " @@\n"

/-! ### Reading a patch -/

/-- The lines of a hunk that stand in the old text. -/
def oldSide (lines : List (UInt8 × Bytes)) : List Bytes :=
  (lines.filter fun l => l.1 ≠ tagAdded).map Prod.snd

/-- The lines of a hunk that stand in the new text. -/
def newSide (lines : List (UInt8 × Bytes)) : List Bytes :=
  (lines.filter fun l => l.1 ≠ tagRemoved).map Prod.snd

/-- The text after the hunks, read from line `pos` on; nothing where a hunk does not match. -/
def applyHunks (a : List Bytes) (pos : Nat) : List Hunk → Option (List Bytes)
  | [] => some (a.drop pos)
  | h :: hs =>
    let start := h.oldStart - 1
    if pos ≤ start ∧ slice a start (start + h.oldLen) = oldSide h.lines then
      (applyHunks a (start + h.oldLen) hs).map fun rest => slice a pos start ++ newSide h.lines ++ rest
    else none

/-- A range of a text as git writes it: `before` lines stand in front of it. -/
def gitRange (before : Nat) : Nat → String
  | 0 => toString before ++ ",0"
  | 1 => toString (before + 1)
  | len + 2 => toString (before + 1) ++ "," ++ toString (len + 2)

/-- The hunk stands in both texts where its header says. -/
structure Hunk.Stands (a b : List Bytes) (h : Hunk) : Prop where
  tags : ∀ l ∈ h.lines, l.1 = tagContext ∨ l.1 = tagRemoved ∨ l.1 = tagAdded
  oldLen : h.oldLen = (oldSide h.lines).length
  newLen : h.newLen = (newSide h.lines).length
  starts : 1 ≤ h.oldStart ∧ 1 ≤ h.newStart
  old : slice a (h.oldStart - 1) (h.oldStart - 1 + h.oldLen) = oldSide h.lines
  new : slice b (h.newStart - 1) (h.newStart - 1 + h.newLen) = newSide h.lines
  header : h.header = "@@ -" ++ gitRange (h.oldStart - 1) h.oldLen ++ " +" ++
    gitRange (h.newStart - 1) h.newLen ++ " @@\n"
  context : ∀ before line after, h.lines = before ++ (tagContext, line) :: after →
    a[h.oldStart - 1 + (oldSide before).length]? = some line ∧
    b[h.newStart - 1 + (newSide before).length]? = some line

/-- The hunks make a valid patch from `a` to `b`. -/
structure ValidPatch (a b : List Bytes) (hs : List Hunk) : Prop where
  stands : ∀ h ∈ hs, h.Stands a b
  apart : hs.Pairwise fun h h' =>
    h.oldStart + h.oldLen < h'.oldStart ∧ h.newStart + h.newLen < h'.newStart
  applies : applyHunks a 0 hs = some b

/-! ### The sides of a window -/

variable {a b : List Bytes}

theorem oldSide_append (l l' : List (UInt8 × Bytes)) :
    oldSide (l ++ l') = oldSide l ++ oldSide l' := by
  rw [oldSide, filter_append, map_append, oldSide, oldSide]

theorem newSide_append (l l' : List (UInt8 × Bytes)) :
    newSide (l ++ l') = newSide l ++ newSide l' := by
  rw [newSide, filter_append, map_append, newSide, newSide]

/-- Lines of one tag, on a side. -/
theorem side_map (skipped tag : UInt8) (lines : List Bytes) :
    ((lines.map fun line => (tag, line)).filter fun l => l.1 ≠ skipped).map Prod.snd
      = if tag = skipped then [] else lines := by
  rw [filter_map, map_map]
  split
  · rename_i heq
    rw [heq]
    simp [Function.comp_def]
  · rename_i hne
    have hall : lines.filter ((fun l : UInt8 × Bytes => decide (l.1 ≠ skipped)) ∘ fun line => (tag, line))
        = lines := filter_eq_self.mpr fun line _ => decide_eq_true hne
    rw [hall]
    exact map_id _

theorem oldSide_map (tag : UInt8) (lines : List Bytes) :
    oldSide (lines.map fun line => (tag, line)) = if tag = tagAdded then [] else lines :=
  side_map tagAdded tag lines

theorem newSide_map (tag : UInt8) (lines : List Bytes) :
    newSide (lines.map fun line => (tag, line)) = if tag = tagRemoved then [] else lines :=
  side_map tagRemoved tag lines

theorem hunkLines_tags {oldTo oi : Nat} {es : List Edit} : ∀ l ∈ hunkLines a b oldTo oi es,
    l.1 = tagContext ∨ l.1 = tagRemoved ∨ l.1 = tagAdded := by
  induction es generalizing oi with
  | nil =>
    intro l hl
    obtain ⟨line, -, rfl⟩ := mem_map.mp hl
    exact .inl rfl
  | cons e es ih =>
    intro l hl
    rw [hunkLines, mem_append, mem_append, mem_append] at hl
    rcases hl with ((hl | hl) | hl) | hl
    · obtain ⟨line, -, rfl⟩ := mem_map.mp hl
      exact .inl rfl
    · obtain ⟨line, -, rfl⟩ := mem_map.mp hl
      exact .inr (.inl rfl)
    · obtain ⟨line, -, rfl⟩ := mem_map.mp hl
      exact .inr (.inr rfl)
    · exact ih l hl

/-- A kept line is the first context line. -/
theorem hunkLines_keep {oldTo oi : Nat} {es : List Edit} {line : Bytes} (h : a[oi]? = some line)
    (hto : oi < oldTo) (hes : ∀ e ∈ es.head?, oi < e.old.start) :
    hunkLines a b oldTo oi es = (tagContext, line) :: hunkLines a b oldTo (oi + 1) es := by
  cases es with
  | nil =>
    rw [hunkLines, hunkLines, slice_cons h hto]
    rfl
  | cons e es =>
    rw [hunkLines, hunkLines, slice_cons h (hes e rfl)]
    rfl

/-- **The sides of a window** are stretches of the two texts. -/
theorem sides_hunkLines {i j oldTo newTo : Nat} {es : List Edit} (h : Path a b i j es oldTo newTo) :
    oldSide (hunkLines a b oldTo i es) = slice a i oldTo ∧
      newSide (hunkLines a b oldTo i es) = slice b j newTo := by
  induction h with
  | done i j =>
    rw [hunkLines, slice_self, slice_self]
    exact ⟨rfl, rfl⟩
  | @keep i j i' j' es x ha hb hrest ih =>
    obtain ⟨hi, hj⟩ := hrest.le
    have hfirst : ∀ e ∈ es.head?, i < e.old.start := by
      intro e he
      cases es with
      | nil => cases he
      | cons e' es =>
        cases he
        exact hrest.first_gap.1
    rw [hunkLines_keep ha hi hfirst, slice_cons ha hi, slice_cons hb hj, ← ih.1, ← ih.2]
    exact ⟨rfl, rfl⟩
  | @edit i j i' j' e es ho hn hos hol hns hnl hrest ih =>
    subst ho hn
    obtain ⟨hi, hj⟩ := hrest.le
    have hadded : tagRemoved ≠ tagAdded := by decide
    have hcontext : tagContext ≠ tagAdded ∧ tagContext ≠ tagRemoved := by decide
    rw [hunkLines, slice_self, map_nil, nil_append]
    simp only [oldSide_append, newSide_append, oldSide_map, newSide_map, ih.1, ih.2, if_true,
      if_neg hadded, if_neg hadded.symm, nil_append, append_nil]
    exact ⟨slice_append hos hi, slice_append hns hj⟩

/-- A context line of a window stands in both texts. -/
theorem context_hunkLines {i j oldTo newTo : Nat} {es : List Edit}
    (h : Path a b i j es oldTo newTo) {before after : List (UInt8 × Bytes)} {line : Bytes}
    (hlines : hunkLines a b oldTo i es = before ++ (tagContext, line) :: after) :
    a[i + (oldSide before).length]? = some line ∧ b[j + (newSide before).length]? = some line := by
  obtain ⟨hold, hnew⟩ := sides_hunkLines h
  have hat : ∀ {l : List Bytes} {i k : Nat} {front back : List Bytes},
      front ++ line :: back = slice l i k → l[i + front.length]? = some line := by
    intro l i k front back heq
    have hget : (slice l i k)[front.length]? = some line := by
      rw [← heq, getElem?_append_right le_rfl, Nat.sub_self]
      rfl
    rw [slice, getElem?_take] at hget
    split at hget
    · rwa [getElem?_drop] at hget
    · cases hget
  rw [hlines, oldSide_append] at hold
  rw [hlines, newSide_append] at hnew
  exact ⟨hat hold, hat hnew⟩

/-! ### The groups -/

/-- No sum that the grouping and the windows compute reaches 2⁶⁴. -/
structure NoOverflow (context : Nat) (edits : List Edit) : Prop where
  joins : ∀ e ∈ edits.dropLast, e.old.stop + 2 * context < 2 ^ 64
  ends : ∀ e ∈ edits, e.old.stop + context < 2 ^ 64 ∧ e.new.stop + context < 2 ^ 64

theorem NoOverflow.append_right {context : Nat} {es es' : List Edit}
    (h : NoOverflow context (es ++ es')) : NoOverflow context es' := by
  refine ⟨fun e he => h.joins e ?_, fun e he => h.ends e (mem_append_right _ he)⟩
  rw [dropLast_append]
  split
  · rename_i hempty
    rw [List.isEmpty_iff] at hempty
    subst hempty
    cases he
  · exact mem_append_right _ he

theorem groupsFrom_spec {context : Nat} {g : EditGroup} {es : List Edit}
    (hno : NoOverflow context (g.edits ++ es)) :
    ∃ g' es', g'.first = g.first ∧ g'.edits ++ es' = g.edits ++ es ∧
      groupsFrom context g es = g' :: groupEdits context es' ∧
      ∀ e ∈ es'.head?, g'.last.old.stop + 2 * context < e.old.start := by
  induction es generalizing g with
  | nil => exact ⟨g, [], rfl, rfl, rfl, fun e he => by cases he⟩
  | cons e es ih =>
    -- the last edit of the open group is followed by another one
    have hlast : g.last ∈ (g.edits ++ e :: es).dropLast := by
      rw [dropLast_append_of_ne_nil (cons_ne_nil e es)]
      exact mem_append_left _ g.last_mem
    have hlt := hno.joins g.last hlast
    rw [groupsFrom, Nat.mod_eq_of_lt hlt]
    split
    · have happend : (g.push e).edits ++ es = g.edits ++ e :: es := by
        rw [EditGroup.edits_push, append_assoc]
        rfl
      obtain ⟨g', es', hfirst, hedits, hgroups, hnext⟩ := @ih (g.push e) (happend ▸ hno)
      exact ⟨g', es', hfirst, hedits.trans happend, hgroups, hnext⟩
    · rename_i hjoin
      refine ⟨g, e :: es, rfl, rfl, rfl, fun e' he' => ?_⟩
      cases he'
      exact Nat.lt_of_not_le hjoin

/-- **The first group** takes edits while their context windows touch. -/
theorem groupEdits_cons {context : Nat} {e : Edit} {es : List Edit}
    (hno : NoOverflow context (e :: es)) :
    ∃ g es', g.first = e ∧ g.edits ++ es' = e :: es ∧
      groupEdits context (e :: es) = g :: groupEdits context es' ∧
      ∀ e' ∈ es'.head?, g.last.old.stop + 2 * context < e'.old.start :=
  @groupsFrom_spec context ⟨e, []⟩ es hno

/-! ### The windows -/

/-- A path without an edit keeps the same lines on both sides. -/
theorem kept_path {i j i' j' : Nat} (h : Path a b i j [] i' j') :
    i' - i = j' - j ∧ slice a i i' = slice b j j' := by
  obtain ⟨hi, hj⟩ := h.le
  have hdelta := h.delta
  have hzero : delta [] = 0 := rfl
  rw [hzero] at hdelta
  refine ⟨by omega, ?_⟩
  obtain ⟨hold, hnew⟩ := sides_hunkLines h
  rw [hunkLines, oldSide_map, if_neg (by decide)] at hold
  rw [hunkLines, newSide_map, if_neg (by decide)] at hnew
  exact hold.symm.trans hnew |>.symm ▸ rfl

/-- The hunk of a window and the edits in it. -/
def windowHunk (a b : List Bytes) (oldFrom newFrom oldTo newTo : Nat) (es : List Edit) : Hunk where
  oldStart := oldFrom + 1
  oldLen := oldTo - oldFrom
  newStart := newFrom + 1
  newLen := newTo - newFrom
  lines := hunkLines a b oldTo oldFrom es

/-- Hunks from line `i` of the old text and line `j` of the new one: kept lines up to a
    window, a path through it, and at least one kept line before the next. -/
inductive Windows (a b : List Bytes) : Nat → Nat → List Hunk → Prop
  | done {i j : Nat} : a.drop i = b.drop j → Windows a b i j []
  | hunk {i j oldFrom newFrom oldTo newTo : Nat} {es : List Edit} {hs : List Hunk} :
      Path a b i j [] oldFrom newFrom → Path a b oldFrom newFrom es oldTo newTo →
      oldTo ≤ a.length → newTo ≤ b.length → (∀ h ∈ hs.head?, oldTo + 1 < h.oldStart) →
      Windows a b oldTo newTo hs →
      Windows a b i j (windowHunk a b oldFrom newFrom oldTo newTo es :: hs)

namespace Windows

variable {i j : Nat} {hs : List Hunk}

theorem rangeStr_eq (before len : Nat) : rangeStr (before + 1) len = gitRange before len := by
  match len with
  | 0 => rfl
  | 1 => rfl
  | len + 2 => rw [rangeStr, if_neg (by omega), if_neg (by omega), gitRange]

theorem stands (h : Windows a b i j hs) : ∀ h ∈ hs, h.Stands a b := by
  induction h with
  | done => intro h hh; cases hh
  | @hunk i j oldFrom newFrom oldTo newTo es hs _ hpath hold hnew _ _ ih =>
    intro h hh
    rcases mem_cons.mp hh with rfl | hh
    · obtain ⟨hfrom, hfrom'⟩ := hpath.le
      obtain ⟨hside, hside'⟩ := sides_hunkLines hpath
      have hto : oldFrom + (oldTo - oldFrom) = oldTo := by omega
      have hto' : newFrom + (newTo - newFrom) = newTo := by omega
      exact {
        tags := hunkLines_tags
        oldLen := by rw [windowHunk, hside, length_slice hfrom hold]
        newLen := by rw [windowHunk, hside', length_slice hfrom' hnew]
        starts := ⟨Nat.succ_pos _, Nat.succ_pos _⟩
        old := by rw [windowHunk, Nat.add_sub_cancel, hto, hside]
        new := by rw [windowHunk, Nat.add_sub_cancel, hto', hside']
        header := by
          rw [Hunk.header, windowHunk, rangeStr_eq, rangeStr_eq]
          rfl
        context := fun before line after hlines => context_hunkLines hpath hlines }
    · exact ih h hh

theorem chain (h : Windows a b i j hs) : hs.IsChain fun h h' =>
    h.oldStart + h.oldLen < h'.oldStart ∧ h.newStart + h.newLen < h'.newStart := by
  induction h with
  | done => exact .nil
  | @hunk i j oldFrom newFrom oldTo newTo es hs _ hpath hold hnew hnext hrest ih =>
    refine isChain_cons.mpr ⟨fun h hh => ?_, ih⟩
    obtain ⟨hfrom, hfrom'⟩ := hpath.le
    have hlt := hnext h hh
    cases hrest with
    | done => cases hh
    | hunk hkept _ _ _ _ _ =>
      cases hh
      -- as much is kept on the new side as on the old one
      have hgap := (kept_path hkept).1
      have hle := hkept.le
      simp only [windowHunk] at hlt ⊢
      omega

theorem applies (h : Windows a b i j hs) : applyHunks a i hs = some (b.drop j) := by
  induction h with
  | done heq => rw [applyHunks, heq]
  | @hunk i j oldFrom newFrom oldTo newTo es hs hkept hpath hold hnew _ _ ih =>
    obtain ⟨hi, hj⟩ := hkept.le
    obtain ⟨hfrom, hfrom'⟩ := hpath.le
    obtain ⟨hside, hside'⟩ := sides_hunkLines hpath
    have hto : oldFrom + (oldTo - oldFrom) = oldTo := by omega
    rw [applyHunks]
    simp only [windowHunk, Nat.add_sub_cancel, hto, hside, hside', ih]
    rw [if_pos ⟨hi, trivial⟩, (kept_path hkept).2, Option.map_some, append_assoc,
      slice_append_drop hfrom', slice_append_drop hj]

end Windows

/-! ### The hunks of a diff -/

/-- **The window of a group**: cut out of the path where its context ends on both sides. -/
theorem window_group {context i j : Nat} {g : EditGroup} {es : List Edit}
    (hpath : Path a b i j (g.edits ++ es) a.length b.length)
    (hfirst : i = 0 ∧ j = 0 ∨ i + context ≤ g.first.old.start)
    (hnext : ∀ e ∈ es.head?, g.last.old.stop + 2 * context < e.old.start)
    (hends : g.last.old.stop + context < 2 ^ 64 ∧ g.last.new.stop + context < 2 ^ 64) :
    ∃ oldFrom newFrom oldTo newTo, Path a b i j [] oldFrom newFrom ∧
      Path a b oldFrom newFrom g.edits oldTo newTo ∧ Path a b oldTo newTo es a.length b.length ∧
      buildHunk a b context g = windowHunk a b oldFrom newFrom oldTo newTo g.edits ∧
      oldTo ≤ g.last.old.stop + context := by
  obtain ⟨front, hfront⟩ := g.exists_front
  have hbounds := hpath.bounds g.first mem_cons_self
  have hbounds' := hpath.bounds g.last (mem_append_left _ g.last_mem)
  have hgap := hpath.first_gap
  have hafter : ∀ e ∈ g.edits ++ es, g.first.old.start ≤ e.old.start := by
    intro e he
    rcases mem_cons.mp he with rfl | he
    · exact le_rfl
    · have := (pairwise_cons.mp hpath.pairwise).1 e he
      omega
  have hbefore : ∀ e ∈ g.edits, e.old.stop ≤ g.last.old.stop := by
    intro e he
    have hpair := (pairwise_append.mp hpath.pairwise).1
    rw [hfront] at he hpair
    rcases mem_append.mp he with he | he
    · have := (pairwise_append.mp hpair).2.2 e he g.last mem_cons_self
      omega
    · rw [mem_singleton.mp he]
  have hbehind : ∀ e ∈ es, g.last.old.stop + 2 * context < e.old.start := by
    intro e he
    have hpair := (pairwise_append.mp hpath.pairwise).2.1
    cases es with
    | nil => cases he
    | cons e' es =>
      have hhead := hnext e' rfl
      rcases mem_cons.mp he with rfl | he
      · exact hhead
      · have := (pairwise_cons.mp hpair).1 e he
        have := hpath.bounds e' (mem_append_right _ mem_cons_self)
        omega
  have hspan := hafter g.last (mem_append_left _ g.last_mem)
  -- the leading context
  obtain ⟨newFrom, hlead, hrest⟩ := @Path.cut _ a b i j _ _ [] _ (g.first.old.start - context) hpath
    (by omega) (by omega) (fun e he => by cases he) fun e he => by
      have := hafter e he
      omega
  have hnewFrom : newFrom = g.first.new.start - context := by
    have hkept := (kept_path hlead).1
    have hle := hlead.le
    have hgap' := hrest.first_gap
    omega
  -- the trailing context
  obtain ⟨newTo, hwindow, htail⟩ := @Path.cut _ a b _ _ a.length b.length g.edits es
    (min (g.last.old.stop + context) a.length) hrest
    (by omega) (by omega) (fun e he => by have := hbefore e he; omega) fun e he => by
      have := hbehind e he
      omega
  have hnewTo : newTo = min (g.last.new.stop + context) b.length := by
    have hend : Path a b g.last.old.stop g.last.new.stop [] (min (g.last.old.stop + context) a.length)
        newTo := by
      have hwindow' := hwindow
      rw [hfront] at hwindow'
      exact hwindow'.split.2.2
    have hkept := (kept_path hend).1
    have hle := hend.le
    have hle' := htail.le
    cases es with
    | nil =>
      have hkept' := (kept_path htail).1
      omega
    | cons e es =>
      have := hbehind e mem_cons_self
      have := hpath.bounds e (mem_append_right _ mem_cons_self)
      omega
  refine ⟨_, newFrom, _, newTo, hlead, hwindow, htail, ?_, min_le_left _ _⟩
  have hle := hwindow.le
  have hwrap : ∀ {m n : Nat}, n ≤ m → m < 2 ^ 64 → (m + 2 ^ 64 - n) % 2 ^ 64 = m - n := by
    omega
  subst hnewFrom hnewTo
  rw [buildHunk, windowHunk, Nat.mod_eq_of_lt hends.1, Nat.mod_eq_of_lt hends.2]
  rw [hwrap hle.1 (by omega), hwrap hle.2 (by omega)]

/-- **The hunks of a diff are windows**, wherever its edits are apart. -/
theorem windows_hunks {context i j : Nat} {es : List Edit}
    (hpath : Path a b i j es a.length b.length) (hno : NoOverflow context es)
    (hfirst : i = 0 ∧ j = 0 ∨ ∀ e ∈ es.head?, i + context ≤ e.old.start) :
    Windows a b i j ((groupEdits context es).map (buildHunk a b context)) := by
  induction hn : es.length using Nat.strong_induction_on generalizing i j es with
  | _ n ih =>
    cases es with
    | nil =>
      refine .done ?_
      have hkept := (kept_path hpath).2
      rwa [slice_to_end, slice_to_end] at hkept
    | cons e es =>
      obtain ⟨g, es', rfl, hedits, hgroups, hnext⟩ := groupEdits_cons hno
      rw [← hedits] at hpath hno hn
      have hends := hno.ends g.last (mem_append_left _ g.last_mem)
      obtain ⟨oldFrom, newFrom, oldTo, newTo, hlead, hwindow, htail, hhunk, hoff⟩ :=
        window_group hpath (hfirst.imp_right fun h => h _ rfl) hnext hends
      have hfirst' : ∀ e ∈ es'.head?, oldTo + context ≤ e.old.start := by
        intro e he
        have := hnext e he
        omega
      have hlen : es'.length < n := by
        rw [← hn, length_append, EditGroup.edits, length_cons]
        omega
      have hrest := ih es'.length hlen htail hno.append_right (.inr hfirst') rfl
      rw [hgroups, map_cons, hhunk]
      refine .hunk hlead hwindow htail.le.1 htail.le.2 ?_ hrest
      intro h hh
      cases es' with
      | nil => cases hh
      | cons e' es' =>
        obtain ⟨g', es'', rfl, -, hgroups', -⟩ := groupEdits_cons hno.append_right
        rw [hgroups', map_cons] at hh
        cases hh
        have := hnext _ rfl
        simp only [buildHunk]
        omega

/-- No sum overflows where the texts and the context leave room. -/
theorem noOverflow_of_length {old new : Bytes} {context : Nat}
    (htokens : (splitLines old ++ splitLines new).dedup.length ≤ 2 ^ 32)
    (hold : (splitLines old).length + 2 * context < 2 ^ 64)
    (hnew : (splitLines new).length + context < 2 ^ 64) : NoOverflow context (diff old new) := by
  have hbounds := (diffLines_path htokens).1.bounds
  constructor
  · intro e he
    have := hbounds e (dropLast_subset _ he)
    omega
  · intro e he
    have := hbounds e he
    omega

/-- **Unified hunks are a valid patch.** For all texts and every context size: each hunk
    stands in both texts where its header says, with as many lines as its header says, its
    context lines are in both; the hunks are in order, apart, and make the new text of the
    old one. -/
theorem hunks_valid (old new : Bytes) (context : Nat)
    (htokens : (splitLines old ++ splitLines new).dedup.length ≤ 2 ^ 32)
    (hno : NoOverflow context (diff old new)) :
    ValidPatch (splitLines old) (splitLines new) (hunks old new context) ∧
      (applyHunks (splitLines old) 0 (hunks old new context)).map List.flatten = some new := by
  have hwindows : Windows (splitLines old) (splitLines new) 0 0 (hunks old new context) :=
    windows_hunks (diffLines_path htokens).1 hno (.inl ⟨rfl, rfl⟩)
  have happlies := hwindows.applies
  rw [drop_zero] at happlies
  refine ⟨⟨hwindows.stands, ?_, happlies⟩, ?_⟩
  · have htrans : IsTrans Hunk fun h h' =>
        h.oldStart + h.oldLen < h'.oldStart ∧ h.newStart + h.newLen < h'.newStart := by
      refine ⟨fun h h' h'' hlt hlt' => ?_⟩
      omega
    exact isChain_iff_pairwise.mp hwindows.chain
  · rw [happlies, Option.map_some, flatten_splitLines]

def threeLines : Bytes := [0x31, lf, 0x32, lf, 0x33, lf]
def outerChanged : Bytes := [0x61, lf, 0x32, lf, 0x63]

/-- Two changes and a last line without a line feed, with three lines of context. -/
theorem hunks_valid_outer :
    ValidPatch (splitLines threeLines) (splitLines outerChanged) (hunks threeLines outerChanged 3) ∧
      (applyHunks (splitLines threeLines) 0 (hunks threeLines outerChanged 3)).map List.flatten
        = some outerChanged :=
  hunks_valid threeLines outerChanged 3 (by decide)
    (noOverflow_of_length (by decide) (by decide) (by decide))

/-- With 2⁶³ lines of context twice the context wraps to none: the two changes get a hunk each,
    and both hunks are of the whole text. -/
theorem hunks_overlap : ¬∀ (old new : Bytes) (context : Nat), context < 2 ^ 64 →
    (splitLines old ++ splitLines new).dedup.length ≤ 2 ^ 32 →
    ValidPatch (splitLines old) (splitLines new) (hunks old new context) := by
  intro hall
  have happlies := (hall threeLines outerChanged (2 ^ 63) (by decide) (by decide)).applies
  have hnone : applyHunks (splitLines threeLines) 0 (hunks threeLines outerChanged (2 ^ 63)) = none := by
    decide +kernel
  rw [hnone] at happlies
  cases happlies

end Alt.Diff
