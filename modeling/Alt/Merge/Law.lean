import Alt.Merge.Diff3

namespace Alt.Merge

open Alt.Library Alt.Diff List

/-!
# The diff3 merge law

The walk cuts `base`, `ours` and `theirs` into segments that stand opposite each other, and the
merge is what the segments give, one after the other.

* `segments` — the segments of a walk; `mergeLoop_eq` says the walk pushes exactly these;
* `segments_cover` — they exist, and together are the three texts;
* `segments_swap`, `segments_unchanged`, `segments_same` — with the sides swapped, with one side
  as the base is, with both sides the same;
* `merge_law` — the merge law, for texts of at most 2³² different lines on each side.

`wrapped_merge` is the merge of more lines than that.
-/

/-! ### Segments -/

/-- Lines of the three texts that stand opposite each other. -/
structure Segment where
  base : List Bytes
  ours : List Bytes
  theirs : List Bytes
  deriving DecidableEq

namespace Segment

/-- Both sides changed the base lines, to different content. -/
def isConflict (s : Segment) : Bool := s.ours ≠ s.base ∧ s.theirs ≠ s.base ∧ s.ours ≠ s.theirs

/-- A conflict block. -/
def block (labels : Labels) (ours theirs : List Bytes) : Bytes :=
  utf8 ("<<<<<<< " ++ labels.ours ++ "\n") ++ (ours.map withNl).flatten ++ utf8 "=======\n" ++
    (theirs.map withNl).flatten ++ utf8 (">>>>>>> " ++ labels.theirs ++ "\n")

/-- What a segment gives. -/
def text (labels : Labels) (s : Segment) : Bytes :=
  if s.ours = s.base then s.theirs.flatten
  else if s.theirs = s.base then s.ours.flatten
  else if s.ours = s.theirs then s.ours.flatten
  else block labels s.ours s.theirs

theorem not_conflict {s : Segment}
    (h : s.ours = s.base ∨ s.theirs = s.base ∨ s.ours = s.theirs) : ¬ s.isConflict = true := by
  rw [isConflict, decide_eq_true_eq]
  tauto

section

variable {s : Segment} (labels : Labels)

theorem text_of_ours (h : s.ours = s.base) : s.text labels = s.theirs.flatten := if_pos h

theorem text_of_theirs (h : s.theirs = s.base) : s.text labels = s.ours.flatten := by
  by_cases hours : s.ours = s.base
  · rw [text_of_ours labels hours, h, hours]
  · rw [text, if_neg hours, if_pos h]

theorem text_of_same (h : s.ours = s.theirs) : s.text labels = s.ours.flatten := by
  by_cases hbase : s.ours = s.base
  · rw [text_of_ours labels hbase, h]
  · rw [text, if_neg hbase, if_neg (h ▸ hbase), if_pos h]

end

/-- The segment with the sides swapped. -/
def swap (s : Segment) : Segment := ⟨s.base, s.theirs, s.ours⟩

theorem isConflict_swap (s : Segment) : s.swap.isConflict = s.isConflict := by
  rw [isConflict, isConflict, decide_eq_decide, swap]
  dsimp only
  rw [ne_comm (a := s.theirs)]
  tauto

/-- Without a conflict the sides are equal partners. -/
theorem text_swap {s : Segment} {labels labels' : Labels} (h : s.isConflict = false) :
    s.swap.text labels' = s.text labels := by
  rw [isConflict, decide_eq_false_iff_not] at h
  rw [text, text, swap]
  dsimp only
  by_cases hours : s.ours = s.base
  · by_cases htheirs : s.theirs = s.base
    · rw [if_pos htheirs, if_pos hours, hours, htheirs]
    · rw [if_neg htheirs, if_pos hours, if_pos hours]
  · by_cases htheirs : s.theirs = s.base
    · rw [if_pos htheirs, if_neg hours, if_pos htheirs]
    · have hsame : s.ours = s.theirs := by
        by_contra hne
        exact h ⟨hours, htheirs, hne⟩
      rw [if_neg htheirs, if_neg hours, if_pos hsame.symm, if_neg hours, if_neg htheirs,
        if_pos hsame, hsame]

end Segment

/-- The segments of a walk. -/
def segments (o a b : List Bytes) (oi ai bi : Nat) (ea eb : List Edit) : Option (List Segment) :=
  if h : startsAt oi ea || startsAt oi eb then do
    let r := grow oi ea eb
    let span := r.stop - oi
    let aEnd ← endOf ai span r.ours
    let bEnd ← endOf bi span r.theirs
    let base ← subslice o oi r.stop
    let ours ← subslice a ai aEnd
    let theirs ← subslice b bi bEnd
    (segments o a b r.stop aEnd bEnd r.oursRest r.theirsRest).map (⟨base, ours, theirs⟩ :: ·)
  else if h : oi < o.length then
    (segments o a b (oi + 1) (ai + 1) (bi + 1) ea eb).map (⟨[o[oi]], [o[oi]], [o[oi]]⟩ :: ·)
  else some []
termination_by (o.length - oi) + (ea.length + eb.length)
decreasing_by
  · have := grow_taken h
    have hle := @le_grow oi ea eb
    omega
  · omega

def pushSegment (labels : Labels) (out : Merge) (s : Segment) : Merge :=
  pushRegion labels out s.base s.ours s.theirs

theorem slicesEq_iff (x y : List Bytes) : slicesEq x y = decide (x = y) := by
  induction x generalizing y with
  | nil => cases y <;> simp [slicesEq]
  | cons l x ih =>
    cases y with
    | nil => simp [slicesEq]
    | cons l' y =>
      have htail := ih y
      rw [slicesEq, Bool.eq_iff_iff] at htail ⊢
      simp only [length_cons, zip_cons_cons, all_cons, Bool.and_eq_true, beq_iff_eq,
        decide_eq_true_eq, Nat.add_right_cancel_iff, List.cons.injEq] at htail ⊢
      rw [← htail]
      tauto

/-- **The walk pushes its segments**, one after the other. -/
theorem mergeLoop_eq (o a b : List Bytes) (labels : Labels) (oi ai bi : Nat) (ea eb : List Edit)
    (out : Merge) : mergeLoop o a b labels oi ai bi ea eb out =
      (segments o a b oi ai bi ea eb).map (·.foldl (pushSegment labels) out) := by
  fun_induction mergeLoop o a b labels oi ai bi ea eb out with
  | case1 oi ai bi ea eb out h r span ih =>
    rw [segments, dif_pos h]
    simp only [Option.bind_eq_bind, Option.map_bind, Function.comp_def, ih, Option.map_map]
    rfl
  | case2 oi ai bi ea eb out h hlt ih =>
    rw [segments, dif_neg h, dif_pos hlt, ih]
    have hkept : (⟨out.content ++ o[oi], out.conflicts⟩ : Merge) =
        pushSegment labels out ⟨[o[oi]], [o[oi]], [o[oi]]⟩ := by
      rw [pushSegment, pushRegion, slicesEq_iff, if_pos (by simp), pushLines]
      simp
    rw [hkept]
    simp only [Option.map_map]
    rfl
  | case3 oi ai bi ea eb out h hlt =>
    rw [segments, dif_neg h, dif_neg hlt]
    rfl

/-! ### The segments cover the texts -/

section Cover

variable {o a b : List Bytes} {oi ai bi stop : Nat} {ea eb es taken rest : List Edit}

theorem subslice_eq {lines : List Bytes} {i j : Nat} (hij : i ≤ j) (hj : j ≤ lines.length) :
    subslice lines i j = some (slice lines i j) := if_pos ⟨hij, hj⟩

/-- One side of a region: where its edits lead, the code computes. -/
theorem region_path (h : Path o a oi ai es o.length a.length)
    (habsorb : absorb stop es = (stop, taken, rest)) (hle : oi ≤ stop) (hlen : stop ≤ o.length)
    (hai : ai ≤ a.length) : ∃ m, endOf ai (stop - oi) taken = some m ∧ ai ≤ m ∧ m ≤ a.length ∧
      Path o a stop m rest o.length a.length := by
  have happend := absorb_append stop es
  have htaken := @taken_stop_le stop es
  have hhead := @rest_head stop stop es (congrArg Prod.fst habsorb)
  rw [habsorb] at happend htaken hhead
  subst happend
  have hpair := (pairwise_append.mp h.pairwise).2.1
  have hrest : ∀ e ∈ rest, stop ≤ e.old.start := by
    intro e he
    cases rest with
    | nil => cases he
    | cons first rest =>
      have hfirst := hhead first rfl
      have hbounds := h.bounds first (mem_append_right _ mem_cons_self)
      rcases mem_cons.mp he with rfl | he
      · exact hfirst.le
      · have := (pairwise_cons.mp hpair).1 e he
        omega
  obtain ⟨m, hfront, hback⟩ := h.cut hle hlen htaken hrest
  have hm := hfront.delta
  refine ⟨m, ?_, hfront.le.2, (hfront.le_length (hle.trans hlen) hai).2, hback⟩
  rw [endOf, ← hm, if_pos (by omega), Int.toNat_natCast]

theorem grow_stop_le_length (ha : Path o a oi ai ea o.length a.length)
    (hb : Path o b oi bi eb o.length b.length) : (grow oi ea eb).stop ≤ o.length :=
  grow_stop_le ha.le.1 (fun e he => (ha.bounds e he).1.2.2.1) fun e he => (hb.bounds e he).1.2.2.1

/-- No edit starts here, but the base goes on: the line is kept on that side. -/
theorem kept_line (h : Path o a oi ai ea o.length a.length) (hnot : startsAt oi ea = false)
    (hlt : oi < o.length) : a[ai]? = some o[oi] ∧ Path o a (oi + 1) (ai + 1) ea o.length a.length := by
  have hahead : ∀ e ∈ ea.head?, oi < e.old.start := by
    intro e he
    cases ea with
    | nil => cases he
    | cons e' ea =>
      obtain rfl : e' = e := Option.some.inj he
      have hbounds := h.bounds e' mem_cons_self
      have hne : e'.old.start ≠ oi := by simpa [startsAt] using hnot
      omega
  obtain ⟨x, hx, hx', hrest⟩ := h.next hahead hlt
  obtain rfl := Option.some.inj ((getElem?_eq_getElem hlt).symm.trans hx)
  exact ⟨hx', hrest⟩

/-- At the end of the base, with no edit to start, the side is at its end. -/
theorem at_end (h : Path o a oi ai ea o.length a.length) (hnot : startsAt oi ea = false)
    (hge : ¬ oi < o.length) : oi = o.length ∧ ai = a.length := by
  have hle := h.le
  cases h with
  | done => exact ⟨rfl, rfl⟩
  | keep ha _ _ =>
    obtain ⟨hlt, -⟩ := List.getElem?_eq_some_iff.mp ha
    exact absurd hlt hge
  | edit ho => simp [startsAt, ho] at hnot

/-- **The segments cover the texts**, from the positions the walk is at. -/
theorem segments_cover (ha : Path o a oi ai ea o.length a.length)
    (hb : Path o b oi bi eb o.length b.length) : ∃ segs, segments o a b oi ai bi ea eb = some segs ∧
      (segs.map Segment.base).flatten = o.drop oi ∧ (segs.map Segment.ours).flatten = a.drop ai ∧
      (segs.map Segment.theirs).flatten = b.drop bi := by
  fun_induction segments o a b oi ai bi ea eb with
  | case1 oi ai bi ea eb h r span ih =>
    obtain ⟨habsorb, hbbsorb⟩ := absorb_grow oi ea eb
    have hle : oi ≤ r.stop := le_grow
    have hlen : r.stop ≤ o.length := grow_stop_le_length ha hb
    obtain ⟨m, hm, him, hml, hpath⟩ := region_path ha habsorb hle hlen ha.le.2
    obtain ⟨m', hm', him', hml', hpath'⟩ := region_path hb hbbsorb hle hlen hb.le.2
    obtain ⟨segs, hsegs, hbase, hours, htheirs⟩ := ih m m' hpath hpath'
    refine ⟨⟨slice o oi r.stop, slice a ai m, slice b bi m'⟩ :: segs, ?_, ?_, ?_, ?_⟩
    · simp only [r, span] at hm hm' hsegs hlen hle ⊢
      simp only [hm, hm', subslice_eq hle hlen, subslice_eq him hml, subslice_eq him' hml', hsegs,
        Option.bind_eq_bind, Option.bind_some, Option.map_some]
    · rw [map_cons, flatten_cons, hbase, slice_append_drop hle]
    · rw [map_cons, flatten_cons, hours, slice_append_drop him]
    · rw [map_cons, flatten_cons, htheirs, slice_append_drop him']
  | case2 oi ai bi ea eb h hlt ih =>
    rw [Bool.not_eq_true, Bool.or_eq_false_iff] at h
    obtain ⟨hai, hpath⟩ := kept_line ha h.1 hlt
    obtain ⟨hbi, hpath'⟩ := kept_line hb h.2 hlt
    obtain ⟨segs, hsegs, hbase, hours, htheirs⟩ := ih hpath hpath'
    obtain ⟨halt, hax⟩ := List.getElem?_eq_some_iff.mp hai
    obtain ⟨hblt, hbx⟩ := List.getElem?_eq_some_iff.mp hbi
    refine ⟨⟨[o[oi]], [o[oi]], [o[oi]]⟩ :: segs, by rw [hsegs]; rfl, ?_, ?_, ?_⟩
    · rw [map_cons, flatten_cons, hbase, singleton_append, ← drop_eq_getElem_cons]
    · rw [map_cons, flatten_cons, hours, singleton_append, ← hax,
        ← drop_eq_getElem_cons]
    · rw [map_cons, flatten_cons, htheirs, singleton_append, ← hbx,
        ← drop_eq_getElem_cons]
  | case3 oi ai bi ea eb h hlt =>
    rw [Bool.not_eq_true, Bool.or_eq_false_iff] at h
    obtain ⟨rfl, rfl⟩ := at_end ha h.1 hlt
    obtain ⟨-, rfl⟩ := at_end hb h.2 hlt
    exact ⟨[], rfl, by simp, by simp, by simp⟩

end Cover

/-! ### What the segments give -/

/-- Every line but the last one ends in a line feed. -/
def Terminated (lines : List Bytes) : Prop :=
  ∀ (i : Nat) (line : Bytes), lines[i]? = some line → i + 1 < lines.length → line.getLast? = some lf

theorem splitLinesFrom_terminated (line data : Bytes) : Terminated (splitLinesFrom line data) := by
  induction data generalizing line with
  | nil =>
    intro i l hl hlt
    rw [splitLinesFrom] at hlt
    split at hlt
    · simp at hlt
    · simp at hlt
  | cons b rest ih =>
    rw [splitLinesFrom]
    split
    · rename_i hb
      intro i l hl hlt
      cases i with
      | zero =>
        obtain rfl : line ++ [b] = l := Option.some.inj hl
        rw [getLast?_concat, hb]
      | succ i => exact ih [] i l hl (by simpa using hlt)
    · exact ih (line ++ [b])

theorem splitLines_terminated (data : Bytes) : Terminated (splitLines data) :=
  splitLinesFrom_terminated [] data

/-- A line stands before position `i`, and is the end of what was written. -/
def After (lines : List Bytes) (i : Nat) (line : Bytes) : Prop := 0 < i ∧ lines[i - 1]? = some line

/-- A text the walk may have written when it is at these positions: nothing, or up to a region,
or up to a line of all three. -/
def Written (o a b : List Bytes) (oi ai bi : Nat) (ea eb : List Edit) (out : Bytes) : Prop :=
  out = [] ∨ (startsAt oi ea || startsAt oi eb) = false ∨
    ∃ line, line <:+ out ∧ After o oi line ∧ After a ai line ∧ After b bi line

section Render

variable {o a b : List Bytes} {oi ai bi : Nat} {ea eb : List Edit} {segs : List Segment}
variable {labels : Labels} {out : Merge}

/-- What comes before a line ends in a line feed. -/
theorem ensureNewline_after {lines : List Bytes} {i : Nat} {line text : Bytes}
    (hlines : Terminated lines) (hafter : After lines i line) (hi : i < lines.length)
    (hsuffix : line <:+ text) : ensureNewline text = text := by
  have hlast := hlines (i - 1) line hafter.2 (by have := hafter.1; omega)
  obtain ⟨front, rfl⟩ := hsuffix
  have htext : (front ++ line).getLast? = some lf := by
    rw [getLast?_append, hlast]
    rfl
  rw [ensureNewline, if_neg (fun h => h.2 htext)]

theorem subslice_past {lines part : List Bytes} {i j : Nat} (h : subslice lines i j = some part)
    (hi : lines.length ≤ i) : part = [] := by
  rw [subslice] at h
  split at h
  · cases h
    rw [slice, drop_eq_nil_of_le hi, take_nil]
  · cases h

/-- No edit that is left starts where the region ends. -/
theorem not_startsAt {stop : Nat} {es taken rest : List Edit}
    (h : absorb stop es = (stop, taken, rest)) : startsAt stop rest = false := by
  have hhead := @rest_head stop stop es (congrArg Prod.fst h)
  rw [h] at hhead
  cases rest with
  | nil => rfl
  | cons e rest =>
    have hlt : stop < e.old.start := hhead e rfl
    simpa [startsAt] using hlt.ne'

/-- A segment is pushed as it is, if no line feed has to be added before a block. -/
theorem pushSegment_eq (s : Segment)
    (h : s.isConflict = true → ensureNewline out.content = out.content) : pushSegment labels out s =
      ⟨out.content ++ s.text labels, out.conflicts + if s.isConflict then 1 else 0⟩ := by
  rw [pushSegment, pushRegion, slicesEq_iff, slicesEq_iff, slicesEq_iff, Segment.text]
  simp only [decide_eq_true_eq, Segment.isConflict] at h ⊢
  split
  · rename_i hours
    simp [hours, pushLines]
  · rename_i hours
    split
    · rename_i htheirs
      simp [htheirs, pushLines]
    · rename_i htheirs
      split
      · rename_i hsame
        simp [hsame, pushLines]
      · rename_i hsame
        rw [h ⟨hours, htheirs, hsame⟩, if_pos ⟨hours, htheirs, hsame⟩]
        simp [pushLinesNl, Segment.block]

/-- **The merge is what its segments give**: no line feed is ever added between them. -/
theorem foldl_pushSegment (ha : Path o a oi ai ea o.length a.length)
    (hb : Path o b oi bi eb o.length b.length) (ho : Terminated o) (hat : Terminated a)
    (hout : Written o a b oi ai bi ea eb out.content)
    (h : segments o a b oi ai bi ea eb = some segs) : segs.foldl (pushSegment labels) out =
      ⟨out.content ++ (segs.map (Segment.text labels)).flatten,
        out.conflicts + segs.countP Segment.isConflict⟩ := by
  fun_induction segments o a b oi ai bi ea eb generalizing segs out with
  | case1 oi ai bi ea eb hstart r =>
    rename_i span ih
    simp only [Option.bind_eq_bind, Option.bind_eq_some_iff, Option.map_eq_some_iff] at h
    obtain ⟨aEnd, haEnd, bEnd, hbEnd, base, hbase, ours, hours, theirs, htheirs, rest, hrest, rfl⟩ := h
    obtain ⟨habsorb, hbbsorb⟩ := absorb_grow oi ea eb
    have hle : oi ≤ r.stop := le_grow
    have hlen : r.stop ≤ o.length := grow_stop_le_length ha hb
    obtain ⟨m, hm, -, -, hpath⟩ := region_path ha habsorb hle hlen ha.le.2
    obtain ⟨m', hm', -, -, hpath'⟩ := region_path hb hbbsorb hle hlen hb.le.2
    obtain rfl := Option.some.inj (hm.symm.trans haEnd)
    obtain rfl := Option.some.inj (hm'.symm.trans hbEnd)
    have hnl : (⟨base, ours, theirs⟩ : Segment).isConflict = true →
        ensureNewline out.content = out.content := by
      intro hconflict
      rcases hout with hnil | hnone | ⟨line, hsuffix, hafter, hafter', hafter''⟩
      · rw [hnil]
        rfl
      · exact absurd hstart (by rw [hnone]; exact Bool.false_ne_true)
      · -- one of the three has a line here, so the line before it is not its last
        by_cases hoi : oi < o.length
        · exact ensureNewline_after ho hafter hoi hsuffix
        · by_cases hai : ai < a.length
          · exact ensureNewline_after hat hafter' hai hsuffix
          · have hours' := subslice_past hours (by omega)
            have hbase' := subslice_past hbase (by omega)
            simp [Segment.isConflict, hours', hbase'] at hconflict
    have hwritten : ∀ text, Written o a b r.stop m m' r.oursRest r.theirsRest text := fun _ =>
      .inr (.inl (Bool.or_eq_false_iff.mpr ⟨not_startsAt habsorb, not_startsAt hbbsorb⟩))
    rw [foldl_cons, pushSegment_eq _ hnl, ih m m' hpath hpath' (hwritten _) hrest, map_cons,
      flatten_cons, countP_cons, append_assoc]
    congr 1
    dsimp only
    omega
  | case2 oi ai bi ea eb hstart hlt ih =>
    obtain ⟨rest, hrest, rfl⟩ := Option.map_eq_some_iff.mp h
    rw [Bool.not_eq_true, Bool.or_eq_false_iff] at hstart
    obtain ⟨hai, hpath⟩ := kept_line ha hstart.1 hlt
    obtain ⟨hbi, hpath'⟩ := kept_line hb hstart.2 hlt
    have hkept : (⟨[o[oi]], [o[oi]], [o[oi]]⟩ : Segment).isConflict = false := by
      simp [Segment.isConflict]
    have hwritten : Written o a b (oi + 1) (ai + 1) (bi + 1) ea eb
        (out.content ++ Segment.text labels ⟨[o[oi]], [o[oi]], [o[oi]]⟩) := by
      refine .inr (.inr ⟨o[oi], ?_, ⟨Nat.succ_pos _, getElem?_eq_getElem hlt⟩,
        ⟨Nat.succ_pos _, hai⟩, ⟨Nat.succ_pos _, hbi⟩⟩)
      simp [Segment.text]
    rw [foldl_cons, pushSegment_eq _ (by simp [hkept]), ih hpath hpath' hwritten hrest,
      map_cons, flatten_cons, countP_cons, append_assoc]
    congr 1
    dsimp only
    omega
  | case3 oi ai bi ea eb hstart hlt =>
    cases h
    simp

end Render

/-! ### Special cases -/

section Cases

variable {o a b : List Bytes} {oi ai bi : Nat} {ea eb : List Edit} {segs : List Segment}

/-- **The sides swapped**: the segments are the same, with their sides swapped. -/
theorem segments_swap (h : segments o a b oi ai bi ea eb = some segs) :
    segments o b a oi bi ai eb ea = some (segs.map Segment.swap) := by
  fun_induction segments o a b oi ai bi ea eb generalizing segs with
  | case1 oi ai bi ea eb hstart r span =>
    rename_i ih
    simp only [Option.bind_eq_bind, Option.bind_eq_some_iff, Option.map_eq_some_iff] at h
    obtain ⟨aEnd, ha, bEnd, hb, base, hbase, ours, hours, theirs, htheirs, rest, hrest, rfl⟩ := h
    have hswapped := ih aEnd bEnd hrest
    rw [segments, dif_pos (by rwa [Bool.or_comm] at hstart), grow_swap oi ea eb]
    simp only [r, span] at ha hb hbase hours htheirs hswapped
    simp only [Region.swap, ha, hb, hbase, hours, htheirs, hswapped, Option.bind_eq_bind,
      Option.bind_some, Option.map_some]
    rfl
  | case2 oi ai bi ea eb hstart hlt ih =>
    obtain ⟨rest, hrest, rfl⟩ := Option.map_eq_some_iff.mp h
    rw [segments, dif_neg (by rwa [Bool.or_comm] at hstart), dif_pos hlt, ih hrest]
    rfl
  | case3 oi ai bi ea eb hstart hlt =>
    cases h
    rw [segments, dif_neg (by rwa [Bool.or_comm] at hstart), dif_neg hlt]
    rfl

/-- A side without edits gets as far as the base does. -/
theorem endOf_nil {i stop : Nat} (h : i ≤ stop) : endOf i (stop - i) [] = some stop := by
  have hstop : (i : Int) + (stop - i : Nat) + delta [] = stop := by
    rw [show delta [] = 0 from rfl]
    omega
  rw [endOf, hstop, if_pos (Int.natCast_nonneg stop), Int.toNat_natCast]

/-- **One side as the base is**: it is so in every segment. -/
theorem segments_unchanged (h : segments o a b oi ai bi ea eb = some segs) (hside : b = o)
    (hpos : bi = oi) (hedits : eb = []) : ∀ s ∈ segs, s.theirs = s.base := by
  fun_induction segments o a b oi ai bi ea eb generalizing segs with
  | case1 oi ai bi ea eb hstart r span =>
    rename_i ih
    simp only [Option.bind_eq_bind, Option.bind_eq_some_iff, Option.map_eq_some_iff] at h
    obtain ⟨aEnd, ha, bEnd, hb, base, hbase, ours, hours, theirs, htheirs, rest, hrest, rfl⟩ := h
    have hle : oi ≤ r.stop := le_grow
    obtain ⟨htaken, hleft⟩ := append_eq_nil_iff.mp ((grow_append oi ea eb).2.trans hedits)
    have hempty : r.theirs = [] := htaken
    rw [hempty, hpos, endOf_nil hle] at hb
    obtain rfl := Option.some.inj hb
    subst hside
    rw [hpos, hbase] at htheirs
    obtain rfl := Option.some.inj htheirs
    exact forall_mem_cons.mpr ⟨rfl, ih _ _ hrest rfl hleft⟩
  | case2 oi ai bi ea eb hstart hlt ih =>
    obtain ⟨rest, hrest, rfl⟩ := Option.map_eq_some_iff.mp h
    exact forall_mem_cons.mpr ⟨rfl, ih hrest (by rw [hpos]) hedits⟩
  | case3 oi ai bi ea eb hstart hlt =>
    cases h
    simp

/-- **Both sides the same**: they are so in every segment. -/
theorem segments_same (h : segments o a b oi ai bi ea eb = some segs) (hside : a = b)
    (hpos : ai = bi) (hedits : ea = eb) : ∀ s ∈ segs, s.ours = s.theirs := by
  fun_induction segments o a b oi ai bi ea eb generalizing segs with
  | case1 oi ai bi ea eb hstart r span =>
    rename_i ih
    simp only [Option.bind_eq_bind, Option.bind_eq_some_iff, Option.map_eq_some_iff] at h
    obtain ⟨aEnd, ha, bEnd, hb, base, hbase, ours, hours, theirs, htheirs, rest, hrest, rfl⟩ := h
    subst hside hpos hedits
    obtain ⟨habsorb, habsorb'⟩ := absorb_grow oi ea ea
    have hsame := habsorb.symm.trans habsorb'
    simp only [Prod.mk.injEq, true_and] at hsame
    obtain rfl := Option.some.inj (ha.symm.trans (hsame.1 ▸ hb))
    obtain rfl := Option.some.inj (hours.symm.trans htheirs)
    exact forall_mem_cons.mpr ⟨rfl, ih _ _ hrest rfl hsame.2⟩
  | case2 oi ai bi ea eb hstart hlt ih =>
    obtain ⟨rest, hrest, rfl⟩ := Option.map_eq_some_iff.mp h
    exact forall_mem_cons.mpr ⟨rfl, ih hrest (by rw [hpos]) hedits⟩
  | case3 oi ai bi ea eb hstart hlt =>
    cases h
    simp

end Cases

/-! ### The law -/

/-- The three texts are cut into segments, and the merge is what these give. -/
def MergeLaw (base ours theirs : Bytes) (labels : Labels) (m : Merge) : Prop :=
  ∃ segs : List Segment, (segs.map Segment.base).flatten = splitLines base ∧
    (segs.map Segment.ours).flatten = splitLines ours ∧
    (segs.map Segment.theirs).flatten = splitLines theirs ∧
    m.content = (segs.map (Segment.text labels)).flatten ∧
    m.conflicts = segs.countP Segment.isConflict

section

variable {o a b : List Bytes} {ea eb : List Edit}

/-- The merge of two scripts of the same base. -/
theorem mergeEdits_eq (ha : Path o a 0 0 ea o.length a.length)
    (hb : Path o b 0 0 eb o.length b.length) (ho : Terminated o) (hat : Terminated a) :
    ∃ segs, segments o a b 0 0 0 ea eb = some segs ∧
      (segs.map Segment.base).flatten = o ∧ (segs.map Segment.ours).flatten = a ∧
      (segs.map Segment.theirs).flatten = b ∧ ∀ labels, mergeEdits o a b ea eb labels =
        some ⟨(segs.map (Segment.text labels)).flatten, segs.countP Segment.isConflict⟩ := by
  obtain ⟨segs, hsegs, hbase, hours, htheirs⟩ := segments_cover ha hb
  refine ⟨segs, hsegs, hbase, hours, htheirs, fun labels => ?_⟩
  have hfold := @foldl_pushSegment o a b 0 0 0 ea eb segs labels ⟨[], 0⟩ ha hb ho hat (.inl rfl) hsegs
  rw [mergeEdits, mergeLoop_eq, hsegs, Option.map_some, hfold, nil_append, Nat.zero_add]

end

/-- The script the merge walks for one side. -/
theorem side_path {base side : List Bytes} (h : (base ++ side).dedup.length ≤ 2 ^ 32) :
    ∃ edits, slideDown base side (diffLines base side) = some edits ∧
      Path base side 0 0 edits base.length side.length :=
  slideDown_path (diffLines_path h).1

/-- For a side that is the base it is empty. -/
theorem side_path_self (base : List Bytes) : slideDown base base (diffLines base base) = some [] ∧
    Path base base 0 0 [] base.length base.length := by
  refine ⟨by rw [diffLines_self]; rfl, ?_⟩
  have hkeeps := @Path.keeps _ base base 0 0 base.length fun k hk =>
    ⟨base[k], by rw [Nat.zero_add, getElem?_eq_getElem hk], by
      rw [Nat.zero_add, getElem?_eq_getElem hk]⟩
  simpa using hkeeps

/-- Segments without a conflict that give one side's lines each give that side. -/
theorem text_eq_of_side {segs : List Segment} {labels : Labels} {side : Segment → List Bytes}
    {text : Bytes} (hside : (segs.map side).flatten = splitLines text)
    (h : ∀ s ∈ segs, s.text labels = (side s).flatten) :
    (segs.map (Segment.text labels)).flatten = text := by
  rw [map_congr_left h, ← flatten_splitLines text, ← hside, flatten_flatten, map_map]
  rfl

/-- **The merge law.** For texts with at most 2³² different lines on each side of the merge. -/
theorem merge_law (base ours theirs : Bytes) (labels labels' : Labels)
    (hours : (splitLines base ++ splitLines ours).dedup.length ≤ 2 ^ 32)
    (htheirs : (splitLines base ++ splitLines theirs).dedup.length ≤ 2 ^ 32) :
    (∃ m m', merge base ours theirs labels = some m ∧ MergeLaw base ours theirs labels m ∧
      merge base theirs ours labels' = some m' ∧ m'.conflicts = m.conflicts ∧
      (m.isClean = true → m'.content = m.content)) ∧
    merge base ours base labels = some ⟨ours, 0⟩ ∧
    merge base base ours labels = some ⟨ours, 0⟩ ∧
    merge base ours ours labels = some ⟨ours, 0⟩ := by
  have hbt := splitLines_terminated base
  have hot := splitLines_terminated ours
  have htt := splitLines_terminated theirs
  obtain ⟨ea, hea, hapath⟩ := side_path hours
  obtain ⟨eb, heb, hbpath⟩ := side_path htheirs
  obtain ⟨heo, hopath⟩ := side_path_self (splitLines base)
  refine ⟨?_, ?_, ?_, ?_⟩
  · obtain ⟨segs, hsegs, hcover, hcover', hcover'', hmerge⟩ := mergeEdits_eq hapath hbpath hbt hot
    obtain ⟨segs', hsegs', -, -, -, hmerge'⟩ := mergeEdits_eq hbpath hapath hbt htt
    obtain rfl := Option.some.inj ((segments_swap hsegs).symm.trans hsegs')
    have hcount : (segs.map Segment.swap).countP Segment.isConflict = segs.countP Segment.isConflict := by
      rw [countP_map]
      exact countP_congr fun s _ => by rw [Function.comp_apply, Segment.isConflict_swap]
    refine ⟨⟨(segs.map (Segment.text labels)).flatten, segs.countP Segment.isConflict⟩,
      ⟨((segs.map Segment.swap).map (Segment.text labels')).flatten,
        (segs.map Segment.swap).countP Segment.isConflict⟩,
      ?_, ⟨segs, hcover, hcover', hcover'', rfl, rfl⟩, ?_, hcount, fun hclean => ?_⟩
    · rw [merge]
      simp only [hea, heb, Option.bind_eq_bind, Option.bind_some]
      exact hmerge labels
    · rw [merge]
      simp only [hea, heb, Option.bind_eq_bind, Option.bind_some]
      exact hmerge' labels'
    · have hnone : segs.countP Segment.isConflict = 0 := by simpa [Merge.isClean] using hclean
      dsimp only
      rw [map_map]
      refine congrArg List.flatten (map_congr_left fun s hs => ?_)
      have hs' : s.isConflict = false := by simpa using countP_eq_zero.mp hnone s hs
      exact Segment.text_swap hs'
  · -- theirs is the base
    obtain ⟨segs, hsegs, -, hcover, -, hmerge⟩ := mergeEdits_eq hapath hopath hbt hot
    have hsame := segments_unchanged hsegs rfl rfl rfl
    have htext := text_eq_of_side hcover fun s hs => Segment.text_of_theirs labels (hsame s hs)
    have hcount := countP_eq_zero.mpr fun s hs => Segment.not_conflict (.inr (.inl (hsame s hs)))
    rw [merge]
    simp only [hea, heo, Option.bind_eq_bind, Option.bind_some]
    rw [hmerge, htext, hcount]
  · -- ours is the base
    obtain ⟨segs, hsegs, -, -, hcover, hmerge⟩ := mergeEdits_eq hopath hapath hbt hbt
    have hswapped := segments_unchanged (segments_swap hsegs) rfl rfl rfl
    have hsame : ∀ s ∈ segs, s.ours = s.base := fun s hs => hswapped s.swap (mem_map_of_mem hs)
    have htext := text_eq_of_side hcover fun s hs => Segment.text_of_ours labels (hsame s hs)
    have hcount := countP_eq_zero.mpr fun s hs => Segment.not_conflict (.inl (hsame s hs))
    rw [merge]
    simp only [hea, heo, Option.bind_eq_bind, Option.bind_some]
    rw [hmerge, htext, hcount]
  · -- both sides are the same
    obtain ⟨segs, hsegs, -, hcover, -, hmerge⟩ := mergeEdits_eq hapath hapath hbt hot
    have hsame := segments_same hsegs rfl rfl rfl
    have htext := text_eq_of_side hcover fun s hs => Segment.text_of_same labels (hsame s hs)
    have hcount := countP_eq_zero.mpr fun s hs => Segment.not_conflict (.inr (.inr (hsame s hs)))
    rw [merge]
    simp only [hea, Option.bind_eq_bind, Option.bind_some]
    rw [hmerge, htext, hcount]

theorem merge_law_both_changed :
    (splitLines [1, lf, 2, lf, 3] ++ splitLines [1, lf, 4, lf, 3]).dedup.length ≤ 2 ^ 32 ∧
      (splitLines [1, lf, 2, lf, 3] ++ splitLines [5, lf, 2, lf, 3]).dedup.length ≤ 2 ^ 32 ∧
      ∃ m, merge [1, lf, 2, lf, 3] [1, lf, 4, lf, 3] [5, lf, 2, lf, 3] .default = some m ∧
        MergeLaw [1, lf, 2, lf, 3] [1, lf, 4, lf, 3] [5, lf, 2, lf, 3] .default m := by
  obtain ⟨⟨m, -, hmerge, hlaw, -⟩, -⟩ := merge_law [1, lf, 2, lf, 3] [1, lf, 4, lf, 3]
    [5, lf, 2, lf, 3] .default .default (by decide) (by decide)
  exact ⟨by decide, by decide, m, hmerge, hlaw⟩

/-! ### More lines than tokens -/

section Wrapped

variable {o : List Bytes} {line : Bytes} {n : Nat}

/-- The script that takes all of `n` lines but the first away. -/
def wrappedEdits (n : Nat) : List Edit := [⟨⟨1, n⟩, ⟨1, 1⟩⟩]

theorem slideDown_wrapped (hlen : o.length = n) (hn : 1 < n) :
    slideDown o [line] (wrappedEdits n) = some (wrappedEdits n) := by
  have hedit : slideEdit o [line] n 1 ⟨⟨1, n⟩, ⟨1, 1⟩⟩ = some ⟨⟨1, n⟩, ⟨1, 1⟩⟩ := by
    rw [slideEdit, if_neg (by simpa [Range.isEmpty] using hn), if_pos (by simp [Range.isEmpty]),
      slideDeletion, if_neg (fun h => Nat.lt_irrefl n h.1)]
  rw [wrappedEdits, slideDown]
  simp only [head?_nil, Option.map_none, Option.getD_none, hlen, length_singleton, hedit,
    slideDown, Option.bind_eq_bind, Option.bind_some]
  rfl

theorem grow_wrapped (hn : 1 < n) : grow 1 (wrappedEdits n) [] = ⟨n, wrappedEdits n, [], [], []⟩ := by
  have hrest : grow n [] [] = ⟨n, [], [], [], []⟩ := by
    rw [grow]
    rfl
  have habsorb : absorb 1 (wrappedEdits n) = (n, wrappedEdits n, []) := by
    rw [wrappedEdits, absorb, if_pos le_rfl, max_eq_right hn.le]
    rfl
  rw [grow, habsorb, if_neg (by simp [wrappedEdits])]
  simp only [absorb, hrest, append_nil]

theorem mergeEdits_wrapped {first : Bytes} (hlen : o.length = n) (hn : 1 < n)
    (hfirst : o[0]? = some first) :
    mergeEdits o [line] o (wrappedEdits n) [] .default = some ⟨first, 0⟩ := by
  obtain ⟨hlt, hzero⟩ := List.getElem?_eq_some_iff.mp hfirst
  have hends : endOf 1 (n - 1) (wrappedEdits n) = some 1 := by
    have hstop : ((1 : Nat) : Int) + (n - 1 : Nat) + delta (wrappedEdits n) = 1 := by
      simp only [wrappedEdits, delta, map_cons, map_nil, sum_cons, sum_nil, Range.len]
      omega
    rw [endOf, hstop]
    rfl
  have hends' : endOf 1 (n - 1) [] = some n := endOf_nil hn.le
  have hbase : subslice o 1 n = some (slice o 1 n) := subslice_eq hn.le hlen.ge
  have hours : subslice [line] 1 1 = some [] := subslice_eq le_rfl le_rfl
  have hpush : pushRegion .default ⟨[] ++ o[0], 0⟩ (slice o 1 n) [] (slice o 1 n) = ⟨first, 0⟩ := by
    have hne : slice o 1 n ≠ [] := by
      intro hnil
      have hslice := @length_slice _ o 1 n hn.le hlen.ge
      rw [hnil, length_nil] at hslice
      omega
    rw [pushRegion, slicesEq_iff, slicesEq_iff, if_neg (by simpa using Ne.symm hne), if_pos (by simp),
      pushLines, hzero]
    simp
  have hbefore : ¬ (startsAt 0 (wrappedEdits n) || startsAt 0 []) = true := by
    simp [wrappedEdits, startsAt]
  have hhere : (startsAt 1 (wrappedEdits n) || startsAt 1 []) = true := by
    simp [wrappedEdits, startsAt]
  have hafter : ¬ (startsAt n [] || startsAt n []) = true := by simp [startsAt]
  rw [mergeEdits, mergeLoop, dif_neg hbefore, dif_pos hlt, mergeLoop, dif_pos hhere]
  simp only [grow_wrapped hn, Nat.zero_add, hends, hends', hbase, hours, hpush, Option.bind_eq_bind,
    Option.bind_some]
  rw [mergeLoop, dif_neg hafter, dif_neg (by omega)]

theorem merge_wrapped {base ours first : Bytes} (hbase : splitLines base = o)
    (hours : splitLines ours = [line]) (hdiff : diffLines o [line] = wrappedEdits n)
    (hlen : o.length = n) (hn : 1 < n) (hfirst : o[0]? = some first) :
    merge base ours base .default = some ⟨first, 0⟩ := by
  rw [merge, hbase, hours, hdiff, (side_path_self o).1]
  simp only [@slideDown_wrapped o line n hlen hn, Option.bind_eq_bind, Option.bind_some]
  exact mergeEdits_wrapped hlen hn hfirst

end Wrapped

/-- **More lines than tokens.** Merging a change with no change does not give the change: where
ours is one line, and base and theirs are 2³² others, the merge is the first of those. -/
theorem wrapped_merge : merge (numberLines (2 ^ 32)).flatten (numberLine (2 ^ 32))
    (numberLines (2 ^ 32)).flatten .default ≠ some ⟨numberLine (2 ^ 32), 0⟩ := by
  have hlen : (numberLines (2 ^ 32)).length = 2 ^ 32 := by
    rw [numberLines, length_map, length_range]
  have hfirst : (numberLines (2 ^ 32))[0]? = some (numberLine 0) := by
    rw [numberLines, getElem?_map, getElem?_range (by decide)]
    rfl
  have hmerge := merge_wrapped (splitLines_flatten (numberLines_isLine (2 ^ 32)))
    (splitLines_numberLine (2 ^ 32)) (diffLines_wrapped hlen numberLines_nodup) hlen (by decide) hfirst
  rw [hmerge]
  intro h
  have hsame := numberLine_injective (by decide) (by decide)
    (congrArg Merge.content (Option.some.inj h))
  exact absurd hsame (by decide)

end Alt.Merge
