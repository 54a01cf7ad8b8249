import Alt.Diff.Lines

namespace Alt.Merge

open Alt.Library Alt.Diff List

/-!
# Three-way merge (`alt-merge/src/lib.rs`)

The edits from `base` to `ours` and from `base` to `theirs` are slid down to one canonical
place, then walked together: a line no edit touches is copied, edits that touch each other make
one region, and a region is taken from the side that changed it or becomes a conflict block.
Every index the code makes is checked here; `none` is a panic.

* `slideDown_path` — sliding keeps a script a script and makes no bad index;
* `absorb` / `grow` — the edits of a region; `grow_swap` says that which side is looked at
  first makes no difference.
-/

/-! ### Sliding edits -/

/-- One line down. -/
def shift (e : Edit) : Edit :=
  ⟨⟨e.old.start + 1, e.old.stop + 1⟩, ⟨e.new.start + 1, e.new.stop + 1⟩⟩

@[simp] theorem shift_old_start (e : Edit) : (shift e).old.start = e.old.start + 1 := rfl

@[simp] theorem shift_old_stop (e : Edit) : (shift e).old.stop = e.old.stop + 1 := rfl

@[simp] theorem shift_new_start (e : Edit) : (shift e).new.start = e.new.start + 1 := rfl

@[simp] theorem shift_new_stop (e : Edit) : (shift e).new.stop = e.new.stop + 1 := rfl

/-- Whether two lines are the same, if both are there. -/
def sameLine (p q : List Bytes) (i j : Nat) : Option Bool := do
  let x ← p[i]?
  let y ← q[j]?
  return decide (x = y)

section

variable (base side : List Bytes) (oldLimit newLimit : Nat)

/-- Shift an insertion while its first line equals the base line after it. -/
def slideInsertion (e : Edit) : Option Edit :=
  if e.old.start < oldLimit ∧ e.new.stop < newLimit then
    match sameLine base side e.old.start e.new.start with
    | some true => slideInsertion (shift e)
    | some false => some e
    | none => none
  else some e
termination_by oldLimit - e.old.start
decreasing_by
  rw [shift_old_start]
  omega

/-- Shift a deletion while its first line equals the base line right after it. -/
def slideDeletion (e : Edit) : Option Edit :=
  if e.old.stop < oldLimit ∧ e.new.start < newLimit then
    match sameLine base base e.old.start e.old.stop with
    | some true => slideDeletion (shift e)
    | some false => some e
    | none => none
  else some e
termination_by oldLimit - e.old.stop
decreasing_by
  rw [shift_old_stop]
  omega

def slideEdit (e : Edit) : Option Edit :=
  if e.old.isEmpty then slideInsertion base side oldLimit newLimit e
  else if e.new.isEmpty then slideDeletion base oldLimit newLimit e
  else some e

end

/-- Move every pure insertion and pure deletion as far down as it can go. The equal run after
an edit ends where the next edit begins. -/
def slideDown (base side : List Bytes) : List Edit → Option (List Edit)
  | [] => some []
  | e :: es => do
    let oldLimit := (es.head?.map (·.old.start)).getD base.length
    let newLimit := (es.head?.map (·.new.start)).getD side.length
    let e ← slideEdit base side oldLimit newLimit e
    let es ← slideDown base side es
    return e :: es

section Slide

variable {base side : List Bytes} {i j oldLimit newLimit : Nat} {e : Edit} {es : List Edit}

theorem sameLine_of_lt {p q : List Bytes} (hi : i < p.length) (hj : j < q.length) :
    sameLine p q i j = some (decide (p[i] = q[j])) := by
  rw [sameLine, getElem?_eq_getElem hi, getElem?_eq_getElem hj]
  rfl

theorem sameLine_eq_true {p q : List Bytes} (h : sameLine p q i j = some true) :
    ∃ x, p[i]? = some x ∧ q[j]? = some x := by
  simp only [sameLine, Option.bind_eq_bind, Option.bind_eq_some_iff, pure, Option.some.injEq,
    decide_eq_true_eq] at h
  obtain ⟨x, hx, y, hy, rfl⟩ := h
  exact ⟨x, hx, hy⟩

/-- The next edit begins within the lists. -/
theorem next_start_le (h : Path base side i j (e :: es) base.length side.length) :
    (es.head?.map (·.old.start)).getD base.length ≤ base.length ∧
      (es.head?.map (·.new.start)).getD side.length ≤ side.length := by
  cases es with
  | nil => exact ⟨le_rfl, le_rfl⟩
  | cons n es =>
    have hn := h.bounds n (mem_cons_of_mem _ mem_cons_self)
    dsimp only [head?_cons, Option.map_some, Option.getD_some]
    omega

/-- Short of the next edit a line is kept. -/
theorem next_kept (h : Path base side i j es base.length side.length)
    (hi : i < (es.head?.map (·.old.start)).getD base.length) :
    ∃ x, base[i]? = some x ∧ side[j]? = some x ∧
      Path base side (i + 1) (j + 1) es base.length side.length := by
  cases es with
  | nil => exact h.next (by simp) (by simpa using hi)
  | cons n es =>
    have hn := h.bounds n mem_cons_self
    have hi' : i < n.old.start := by simpa using hi
    exact h.next (by simpa using hi') (by omega)

/-- An edit may make way for the kept line after it if its first line equals that line. -/
theorem shift_path {x : Bytes} (h : Path base side i j (e :: es) base.length side.length)
    (hnext : e.old.stop < (es.head?.map (·.old.start)).getD base.length)
    (hx : base[e.old.start]? = some x) (hy : side[e.new.start]? = some x) :
    Path base side i j (shift e :: es) base.length side.length := by
  obtain ⟨hfront, hedit, hback⟩ := @Path.split _ _ _ _ _ _ _ [] _ _ h
  have hbounds := hedit.bounds e mem_cons_self
  obtain ⟨z, hz, hz', hrest⟩ := next_kept hback hnext
  obtain ⟨hlt, -⟩ := List.getElem?_eq_some_iff.mp hz
  obtain ⟨hlt', -⟩ := List.getElem?_eq_some_iff.mp hz'
  refine hfront.append (.keep hx hy (.edit rfl rfl ?_ ?_ ?_ ?_ hrest))
  all_goals
    simp only [shift_old_start, shift_old_stop, shift_new_start, shift_new_stop]
    omega

theorem slideInsertion_path (h : Path base side i j (e :: es) base.length side.length)
    (hempty : e.old.stop ≤ e.old.start)
    (hold : oldLimit = (es.head?.map (·.old.start)).getD base.length) (hnew : newLimit ≤ side.length) :
    ∃ e', slideInsertion base side oldLimit newLimit e = some e' ∧
      Path base side i j (e' :: es) base.length side.length := by
  have hbounds := h.bounds e mem_cons_self
  have hlimit : oldLimit ≤ base.length := by
    rw [hold]
    exact (next_start_le h).1
  fun_induction slideInsertion base side oldLimit newLimit e with
  | case1 e hlt hsame ih =>
    obtain ⟨x, hx, hy⟩ := sameLine_eq_true hsame
    have hshift := shift_path h (by omega) hx hy
    exact ih hshift (by simpa using hempty) (hshift.bounds _ mem_cons_self)
  | case2 e hlt hsame => exact ⟨e, rfl, h⟩
  | case3 e hlt hsame =>
    rw [sameLine_of_lt (by omega) (by omega)] at hsame
    cases hsame
  | case4 e hlt => exact ⟨e, rfl, h⟩

theorem slideDeletion_path (h : Path base side i j (e :: es) base.length side.length)
    (hempty : e.new.stop ≤ e.new.start)
    (hold : oldLimit = (es.head?.map (·.old.start)).getD base.length) :
    ∃ e', slideDeletion base oldLimit newLimit e = some e' ∧
      Path base side i j (e' :: es) base.length side.length := by
  have hbounds := h.bounds e mem_cons_self
  have hlimit : oldLimit ≤ base.length := by
    rw [hold]
    exact (next_start_le h).1
  fun_induction slideDeletion base oldLimit newLimit e with
  | case1 e hlt hsame ih =>
    -- the line after the deleted ones is kept, and stands where the deletion is on the other side
    obtain ⟨x, hx, hx'⟩ := sameLine_eq_true hsame
    obtain ⟨-, -, hback⟩ := @Path.split _ _ _ _ _ _ _ [] _ _ h
    obtain ⟨y, hy, hy', -⟩ := next_kept hback (by omega)
    obtain rfl : x = y := Option.some.inj (hx'.symm.trans hy)
    rw [show e.new.stop = e.new.start by omega] at hy'
    have hshift := shift_path h (by omega) hx hy'
    exact ih hshift (by simpa using hempty) (hshift.bounds _ mem_cons_self)
  | case2 e hlt hsame => exact ⟨e, rfl, h⟩
  | case3 e hlt hsame =>
    rw [sameLine_of_lt (by omega) (by omega)] at hsame
    cases hsame
  | case4 e hlt => exact ⟨e, rfl, h⟩

/-- **Sliding keeps a script a script**, and looks at lines that are there. -/
theorem slideDown_path (h : Path base side i j es base.length side.length) :
    ∃ es', slideDown base side es = some es' ∧ Path base side i j es' base.length side.length := by
  induction es generalizing i j with
  | nil => exact ⟨[], rfl, h⟩
  | cons e es ih =>
    have hnew : (es.head?.map (·.new.start)).getD side.length ≤ side.length := (next_start_le h).2
    obtain ⟨e', he', hpath⟩ : ∃ e', slideEdit base side
        ((es.head?.map (·.old.start)).getD base.length)
        ((es.head?.map (·.new.start)).getD side.length) e = some e' ∧
        Path base side i j (e' :: es) base.length side.length := by
      rw [slideEdit]
      split
      · rename_i hempty
        exact slideInsertion_path h (by simpa [Range.isEmpty] using hempty) rfl hnew
      · split
        · rename_i hempty
          exact slideDeletion_path h (by simpa [Range.isEmpty] using hempty) rfl
        · exact ⟨e, rfl, h⟩
    obtain ⟨hfront, hedit, hback⟩ := @Path.split _ _ _ _ _ _ _ [] _ _ hpath
    obtain ⟨es', hes', hrest⟩ := ih hback
    refine ⟨e' :: es', ?_, hfront.append (hedit.append hrest)⟩
    rw [slideDown]
    simp only [he', hes', Option.bind_eq_bind, Option.bind_some]
    rfl

end Slide

/-! ### The edits of a region -/

/-- Take the leading edits that start no later than the running end, which moves to their ends:
the end, the edits taken and the edits left. -/
def absorb (stop : Nat) : List Edit → Nat × List Edit × List Edit
  | [] => (stop, [], [])
  | e :: es =>
    if e.old.start ≤ stop then
      let (stop, taken, rest) := absorb (max stop e.old.stop) es
      (stop, e :: taken, rest)
    else (stop, [], e :: es)

section Absorb

variable {stop n : Nat} {es : List Edit}

theorem absorb_cons (stop : Nat) (e : Edit) (es : List Edit) : absorb stop (e :: es) =
    if e.old.start ≤ stop then ((absorb (max stop e.old.stop) es).1,
      e :: (absorb (max stop e.old.stop) es).2.1, (absorb (max stop e.old.stop) es).2.2)
    else (stop, [], e :: es) := rfl

theorem absorb_append (stop : Nat) (es : List Edit) :
    (absorb stop es).2.1 ++ (absorb stop es).2.2 = es := by
  induction es generalizing stop with
  | nil => rfl
  | cons e es ih =>
    rw [absorb_cons]
    split
    · exact congrArg (e :: ·) (ih _)
    · rfl

theorem le_absorb : stop ≤ (absorb stop es).1 := by
  induction es generalizing stop with
  | nil => exact le_rfl
  | cons e es ih =>
    rw [absorb_cons]
    split
    · exact (le_max_left _ _).trans ih
    · exact le_rfl

/-- Nothing taken, nothing moved. -/
theorem absorb_of_nil (h : (absorb stop es).2.1 = []) : absorb stop es = (stop, [], es) := by
  cases es with
  | nil => rfl
  | cons e es =>
    rw [absorb_cons] at h ⊢
    split
    · rename_i hstart
      rw [if_pos hstart] at h
      cases h
    · rfl

theorem taken_stop_le : ∀ e ∈ (absorb stop es).2.1, e.old.stop ≤ (absorb stop es).1 := by
  induction es generalizing stop with
  | nil => exact nofun
  | cons e es ih =>
    rw [absorb_cons]
    split
    · intro x hx
      rcases mem_cons.mp hx with rfl | hx
      · exact (le_max_right _ _).trans le_absorb
      · exact ih x hx
    · simp

theorem absorb_le (hstop : stop ≤ n) (hes : ∀ e ∈ es, e.old.stop ≤ n) : (absorb stop es).1 ≤ n := by
  induction es generalizing stop with
  | nil => exact hstop
  | cons e es ih =>
    rw [absorb_cons]
    split
    · exact ih (max_le hstop (hes e mem_cons_self)) fun x hx => hes x (mem_cons_of_mem _ hx)
    · exact hstop

theorem rest_head (h : (absorb stop es).1 = n) : ∀ e ∈ (absorb stop es).2.2.head?, n < e.old.start := by
  induction es generalizing stop with
  | nil => exact nofun
  | cons e es ih =>
    rw [absorb_cons] at h ⊢
    split
    · rename_i hstart
      rw [if_pos hstart] at h
      exact ih h
    · rename_i hstart
      rw [if_neg hstart] at h
      intro x hx
      cases hx
      exact h ▸ Nat.lt_of_not_le hstart

theorem absorb_mono (h : stop ≤ n) : (absorb stop es).1 ≤ (absorb n es).1 := by
  induction es generalizing stop n with
  | nil => exact h
  | cons e es ih =>
    rw [absorb_cons, absorb_cons]
    split
    · rename_i hstart
      rw [if_pos (hstart.trans h)]
      exact ih (max_le_max_right _ h)
    · split
      · exact h.trans ((le_max_left _ _).trans le_absorb)
      · exact h

/-- From a later end the same edits are taken first. -/
theorem absorb_later (h : (absorb stop es).1 ≤ n) : absorb n es =
    ((absorb n (absorb stop es).2.2).1,
      (absorb stop es).2.1 ++ (absorb n (absorb stop es).2.2).2.1,
      (absorb n (absorb stop es).2.2).2.2) := by
  induction es generalizing stop with
  | nil => rfl
  | cons e es ih =>
    rw [absorb_cons stop] at h ⊢
    split
    · rename_i hstart
      rw [if_pos hstart] at h
      have hle : max stop e.old.stop ≤ n := le_absorb.trans h
      have hsame : max n e.old.stop = n := max_eq_left ((le_max_right _ _).trans hle)
      rw [absorb_cons, if_pos (hstart.trans ((le_max_left _ _).trans hle)), hsame]
      dsimp only at h ⊢
      rw [ih h]
      rfl
    · rfl

end Absorb

/-- A region of edits that touch each other: where it ends, its edits and those after it. -/
structure Region where
  stop : Nat
  ours : List Edit
  theirs : List Edit
  oursRest : List Edit
  theirsRest : List Edit
  deriving DecidableEq

/-- Grow a region to the next place that neither side's edits touch. -/
def grow (stop : Nat) (ea eb : List Edit) : Region :=
  let a := absorb stop ea
  let b := absorb a.1 eb
  if a.2.1 = [] ∧ b.2.1 = [] then ⟨stop, [], [], ea, eb⟩
  else
    let more := grow b.1 a.2.2 b.2.2
    ⟨more.stop, a.2.1 ++ more.ours, b.2.1 ++ more.theirs, more.oursRest, more.theirsRest⟩
termination_by ea.length + eb.length
decreasing_by
  rename_i hgrew
  have ha := congrArg List.length (absorb_append stop ea)
  have hb := congrArg List.length (absorb_append a.1 eb)
  rw [length_append] at ha hb
  rw [← length_eq_zero_iff, ← length_eq_zero_iff] at hgrew
  dsimp only [a, b] at *
  omega

section Grow

variable {stop n : Nat} {ea eb : List Edit}

theorem le_grow : stop ≤ (grow stop ea eb).stop := by
  fun_induction grow stop ea eb with
  | case1 stop ea eb a b hnone => exact le_rfl
  | case2 stop ea eb a b hsome more ih => exact le_absorb.trans (le_absorb.trans ih)

/-- Looking again from the region's end takes the region's edits, and no more. -/
theorem absorb_grow (stop : Nat) (ea eb : List Edit) :
    absorb (grow stop ea eb).stop ea =
        ((grow stop ea eb).stop, (grow stop ea eb).ours, (grow stop ea eb).oursRest) ∧
      absorb (grow stop ea eb).stop eb =
        ((grow stop ea eb).stop, (grow stop ea eb).theirs, (grow stop ea eb).theirsRest) := by
  fun_induction grow stop ea eb with
  | case1 stop ea eb a b hnone =>
    have ha := absorb_of_nil hnone.1
    have hb := absorb_of_nil hnone.2
    have hstop : a.1 = stop := congrArg Prod.fst ha
    rw [hstop] at hb
    exact ⟨ha, hb⟩
  | case2 stop ea eb a b hsome more ih =>
    have hmore : b.1 ≤ more.stop := le_grow
    have ha := @absorb_later stop more.stop ea (le_absorb.trans hmore)
    have hb := @absorb_later a.1 more.stop eb hmore
    rw [ih.1] at ha
    rw [ih.2] at hb
    exact ⟨ha, hb⟩

/-- No end short of the region's leaves both sides' edits alone. -/
theorem grow_least (hstop : stop ≤ n) (ha : (absorb n ea).1 = n) (hb : (absorb n eb).1 = n) :
    (grow stop ea eb).stop ≤ n := by
  fun_induction grow stop ea eb with
  | case1 stop ea eb a b hnone => exact hstop
  | case2 stop ea eb a b hsome more ih =>
    have hle : a.1 ≤ n := (absorb_mono hstop).trans ha.le
    have hle' : b.1 ≤ n := (absorb_mono hle).trans hb.le
    have hrest := congrArg Prod.fst (absorb_later hle)
    have hrest' := congrArg Prod.fst (absorb_later hle')
    exact ih hle' (hrest.symm.trans ha) (hrest'.symm.trans hb)

/-- The region seen from the other side. -/
def Region.swap (r : Region) : Region := ⟨r.stop, r.theirs, r.ours, r.theirsRest, r.oursRest⟩

/-- **Which side is looked at first** makes no difference to a region. -/
theorem grow_swap (stop : Nat) (ea eb : List Edit) : grow stop eb ea = (grow stop ea eb).swap := by
  obtain ⟨ha, hb⟩ := absorb_grow stop ea eb
  obtain ⟨hb', ha'⟩ := absorb_grow stop eb ea
  have hstop : (grow stop eb ea).stop = (grow stop ea eb).stop :=
    le_antisymm (grow_least le_grow (congrArg Prod.fst hb) (congrArg Prod.fst ha))
      (grow_least le_grow (congrArg Prod.fst ha') (congrArg Prod.fst hb'))
  rw [hstop] at ha' hb'
  have hours := ha'.symm.trans ha
  have htheirs := hb'.symm.trans hb
  simp only [Prod.mk.injEq, true_and] at hours htheirs
  rw [Region.swap, ← hstop, ← hours.1, ← hours.2, ← htheirs.1, ← htheirs.2]

theorem grow_append (stop : Nat) (ea eb : List Edit) :
    (grow stop ea eb).ours ++ (grow stop ea eb).oursRest = ea ∧
      (grow stop ea eb).theirs ++ (grow stop ea eb).theirsRest = eb := by
  obtain ⟨ha, hb⟩ := absorb_grow stop ea eb
  have hours := absorb_append (grow stop ea eb).stop ea
  have htheirs := absorb_append (grow stop ea eb).stop eb
  rw [ha] at hours
  rw [hb] at htheirs
  exact ⟨hours, htheirs⟩

/-- A region ends no further than its edits do. -/
theorem grow_stop_le (hstop : stop ≤ n) (ha : ∀ e ∈ ea, e.old.stop ≤ n)
    (hb : ∀ e ∈ eb, e.old.stop ≤ n) : (grow stop ea eb).stop ≤ n :=
  grow_least hstop (le_antisymm (absorb_le le_rfl ha) le_absorb)
    (le_antisymm (absorb_le le_rfl hb) le_absorb)

end Grow

/-! ### The walk -/

/-- The next edit starts here. -/
def startsAt (i : Nat) (es : List Edit) : Bool := es.head?.any fun e => e.old.start == i

/-- A region that an edit starts takes that edit. -/
theorem grow_taken {i : Nat} {ea eb : List Edit} (h : startsAt i ea || startsAt i eb) :
    (grow i ea eb).oursRest.length + (grow i ea eb).theirsRest.length < ea.length + eb.length := by
  obtain ⟨ha, hb⟩ := absorb_grow i ea eb
  have happend := grow_append i ea eb
  have hlen := congrArg List.length happend.1
  have hlen' := congrArg List.length happend.2
  rw [length_append] at hlen hlen'
  have htaken : ∀ {es taken rest : List Edit}, startsAt i es →
      absorb (grow i ea eb).stop es = ((grow i ea eb).stop, taken, rest) → 0 < taken.length := by
    intro es taken rest hes habsorb
    cases es with
    | nil => simp [startsAt] at hes
    | cons e es =>
      have hstart : e.old.start = i := by simpa [startsAt] using hes
      rw [absorb, if_pos (hstart.trans_le le_grow)] at habsorb
      simp only [Prod.mk.injEq] at habsorb
      rw [← habsorb.2.1]
      exact Nat.succ_pos _
  rw [Bool.or_eq_true] at h
  rcases h with h | h
  · have := htaken h ha
    omega
  · have := htaken h hb
    omega

/-- A slice, if its bounds are in order and in range. -/
def subslice (lines : List Bytes) (i j : Nat) : Option (List Bytes) :=
  if i ≤ j ∧ j ≤ lines.length then some (slice lines i j) else none

/-- Where a side's part of a region ends. A negative place, cast to `usize`, is past any list. -/
def endOf (i span : Nat) (taken : List Edit) : Option Nat :=
  let stop : Int := i + span + delta taken
  if 0 ≤ stop then some stop.toNat else none

/-- Labels written into conflict markers. -/
structure Labels where
  ours : String
  theirs : String

def Labels.default : Labels := ⟨"ours", "theirs"⟩

/-- The merged text and the number of conflict regions. -/
structure Merge where
  content : Bytes
  conflicts : Nat
  deriving DecidableEq

def Merge.isClean (m : Merge) : Bool := m.conflicts == 0

def slicesEq (x y : List Bytes) : Bool :=
  x.length == y.length && (x.zip y).all fun (p, q) => p == q

def pushLines (out : Bytes) (lines : List Bytes) : Bytes := out ++ lines.flatten

/-- A line with a line feed, added if there is none. -/
def withNl (line : Bytes) : Bytes := if line.getLast? = some lf then line else line ++ [lf]

/-- Like `pushLines`, but each line ends in a line feed. -/
def pushLinesNl (out : Bytes) (lines : List Bytes) : Bytes := out ++ (lines.map withNl).flatten

def ensureNewline (out : Bytes) : Bytes :=
  if out ≠ [] ∧ out.getLast? ≠ some lf then out ++ [lf] else out

/-- What a region adds to the merge. -/
def pushRegion (labels : Labels) (out : Merge) (base ours theirs : List Bytes) : Merge :=
  if slicesEq ours base then ⟨pushLines out.content theirs, out.conflicts⟩ -- only theirs changed it
  else if slicesEq theirs base then ⟨pushLines out.content ours, out.conflicts⟩ -- only ours did
  else if slicesEq ours theirs then ⟨pushLines out.content ours, out.conflicts⟩ -- the same change
  else
    let text := ensureNewline out.content ++ utf8 ("<<<<<<< " ++ labels.ours ++ "\n")
    let text := pushLinesNl text ours ++ utf8 "=======\n"
    let text := pushLinesNl text theirs ++ utf8 (">>>>>>> " ++ labels.theirs ++ "\n")
    ⟨text, out.conflicts + 1⟩

/-- The diff3 walk over two edit scripts against the same base, from aligned positions `oi`,
`ai` and `bi`. -/
def mergeLoop (o a b : List Bytes) (labels : Labels) (oi ai bi : Nat) (ea eb : List Edit)
    (out : Merge) : Option Merge :=
  if h : startsAt oi ea || startsAt oi eb then do
    let r := grow oi ea eb
    let span := r.stop - oi
    let aEnd ← endOf ai span r.ours
    let bEnd ← endOf bi span r.theirs
    let base ← subslice o oi r.stop
    let ours ← subslice a ai aEnd
    let theirs ← subslice b bi bEnd
    mergeLoop o a b labels r.stop aEnd bEnd r.oursRest r.theirsRest (pushRegion labels out base ours theirs)
  else if h : oi < o.length then
    -- a line that neither side's edits touch
    mergeLoop o a b labels (oi + 1) (ai + 1) (bi + 1) ea eb ⟨out.content ++ o[oi], out.conflicts⟩
  else some out
termination_by (o.length - oi) + (ea.length + eb.length)
decreasing_by
  · have := grow_taken h
    have hle := @le_grow oi ea eb
    omega
  · omega

def mergeEdits (o a b : List Bytes) (ea eb : List Edit) (labels : Labels) : Option Merge :=
  mergeLoop o a b labels 0 0 0 ea eb ⟨[], 0⟩

/-- Three-way merge of three texts at line granularity. -/
def merge (base ours theirs : Bytes) (labels : Labels) : Option Merge := do
  let o := splitLines base
  let a := splitLines ours
  let b := splitLines theirs
  let ea ← slideDown o a (diffLines o a)
  let eb ← slideDown o b (diffLines o b)
  mergeEdits o a b ea eb labels

end Alt.Merge
