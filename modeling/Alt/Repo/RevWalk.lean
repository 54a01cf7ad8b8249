import Alt.Repo.ObjectWalk

namespace Alt.Repo

open Alt.Library Alt.Odb List

/-!
# History walk (`alt-repo/src/revwalk.rs`)

`RevWalk` yields the history of one commit by committer date, newest first, and first queued first
among equal dates.  A commit is marked as seen when it is queued, and read then and once more when it
is its turn.

* `RevWalk.push`, `RevWalk.next` — queueing a commit, and the next item of the walk;
* `Walking` — what holds of every state of a walk, `items_spec` — what a whole walk yields;
* `rev_walk_spec` — the walk ends, goes by date, and repeats nothing; where every commit can be read
  it yields all of them, and where one cannot it says so.
-/

/-! ### Reading commits -/

inductive CommitError (ε : Type)
  | storage (e : ε)
  | missingObject (oid : ObjectId)
  /-- "expected a commit object" -/
  | notACommit
  | object (e : ObjectParseError)
  deriving DecidableEq

def readDigits (digits : Bytes) : Option Nat :=
  if digits.isEmpty || !digits.all fun b => 0x30 ≤ b && b ≤ 0x39 then none
  else some (digits.foldl (fun n b => 10 * n + (b.toNat - 0x30)) 0)

/-- `str::parse::<i64>`. -/
def parseI64 : Bytes → Option Int
  | 0x2d :: digits => (readDigits digits).bind fun n => if n ≤ 2 ^ 63 then some (-n) else none
  | 0x2b :: digits => (readDigits digits).bind fun n => if n < 2 ^ 63 then some n else none
  | digits => (readDigits digits).bind fun n => if n < 2 ^ 63 then some n else none

/-- The seconds in front of the time zone. -/
def committerDate (commit : Commit) : Option Int := do
  let ident ← commit.block.value (utf8 "committer")
  let token ← (ident.splitOn 0x20).reverse[1]?
  parseI64 token

section

variable {ε : Type} (read : ReadObject ε)

/-- `Repository::read_commit`. -/
def readCommitObject (oid : ObjectId) : Except (CommitError ε) Commit :=
  match read oid with
  | .error e => .error (.storage e)
  | .ok none => .error (.missingObject oid)
  | .ok (some object) =>
    if object.kind = .commit then (Commit.parse object.data).mapError .object else .error .notACommit

/-! ### The walk -/

structure Queued where
  date : Int
  order : Nat
  oid : ObjectId
  deriving DecidableEq

/-- The newest goes first, the one queued first among equals. -/
def Queued.turn (a b : Queued) : Ordering :=
  (compare b.date a.date).then ((compare a.order b.order).then (compare b.oid.asBytes a.oid.asBytes))

def Queued.before (a b : Queued) : Bool := (a.turn b).isLE

/-- The queue is kept in the order it is left in. -/
structure RevWalk where
  queue : List Queued
  seen : List ObjectId
  seq : Nat
  deriving DecidableEq

namespace RevWalk

def push (oid : ObjectId) : EStateM (CommitError ε) RevWalk Unit := do
  let w ← get
  if oid ∈ w.seen then return ()
  else
    set { w with seen := oid :: w.seen }
    let commit ← fromExcept (readCommitObject read oid)
    modify fun w =>
      let queued : Queued := ⟨(committerDate commit).getD 0, w.seq + 1, oid⟩
      { w with seq := w.seq + 1, queue := w.queue.orderedInsert (·.before ·) queued }

def empty : RevWalk := ⟨[], [], 0⟩

/-- `RevWalk::new`. -/
def new (start : ObjectId) : Except (CommitError ε) RevWalk :=
  match push read start empty with
  | .ok _ w => .ok w
  | .error e _ => .error e

/-- What the walk yields. -/
abbrev Item (ε : Type) := Except (CommitError ε) (ObjectId × Commit)

/-- Reads the commit whose turn it is and queues its parents. -/
def visit (oid : ObjectId) : EStateM (CommitError ε) RevWalk (ObjectId × Commit) := do
  let commit ← fromExcept (readCommitObject read oid)
  commit.parents.forM (push read)
  return (oid, commit)

/-- `Iterator::next`: the item, and the walk behind it. -/
def next (w : RevWalk) : Option (Item ε × RevWalk) :=
  match w.queue with
  | [] => none
  | q :: queue =>
    match visit read q.oid { w with queue } with
    | .ok item w => some (.ok item, w)
    | .error e w => some (.error e, w)

/-- All items; `none` when out of fuel. -/
def items : Nat → RevWalk → Option (List (Item ε))
  | 0, _ => none
  | fuel + 1, w =>
    match next read w with
    | none => some []
    | some (item, w) => (items fuel w).map (item :: ·)

end RevWalk

end

/-! ### The order of the queue -/

instance : Std.TransCmp Queued.turn := by
  have hdate : Std.TransCmp fun a b : Queued => compareOn Queued.date b a := inferInstance
  have hoid : Std.TransCmp fun a b : Queued => compareOn (fun q : Queued => q.oid.asBytes) b a :=
    inferInstance
  exact inferInstanceAs (Std.TransCmp (compareLex (fun a b : Queued => compareOn Queued.date b a)
    (compareLex (compareOn Queued.order)
      fun a b : Queued => compareOn (fun q : Queued => q.oid.asBytes) b a)))

instance : Std.Total fun a b : Queued => a.before b = true where
  total a b := by
    rw [Queued.before, Queued.before, ← Std.OrientedCmp.isGE_iff_isLE]
    cases b.turn a <;> decide

instance : IsTrans Queued fun a b => a.before b = true where
  trans _ _ _ h h' := Std.TransCmp.isLE_trans h h'

theorem date_le_of_before {a b : Queued} (h : a.before b = true) :
    b.date ≤ a.date ∧ (a.date = b.date → a.order ≤ b.order) := by
  rw [Queued.before, Queued.turn] at h
  rcases lt_trichotomy b.date a.date with hlt | heq | hgt
  · exact ⟨hlt.le, fun he => absurd he (by omega)⟩
  · refine ⟨heq.le, fun _ => ?_⟩
    rw [heq, compare_eq_iff_eq.mpr rfl] at h
    by_contra hlt
    rw [compare_gt_iff_gt.mpr (not_le.mp hlt)] at h
    cases h
  · rw [compare_gt_iff_gt.mpr hgt] at h
    cases h

/-! ### One push -/

variable {ε : Type} {read : ReadObject ε} {start : ObjectId}

/-- The parents of a commit, as the graph that is walked. -/
def walkParents (read : ReadObject ε) (c : ObjectId) : Except (CommitError ε) (List ObjectId) :=
  (readCommitObject read c).map Commit.parents

/-- What waits in the queue is read, dated, and in order; what was seen is reachable. -/
structure Walking (read : ReadObject ε) (start : ObjectId) (w : RevWalk) : Prop where
  sorted : w.queue.Pairwise (·.before ·)
  nodup : (w.queue.map Queued.oid).Nodup
  seen : ∀ q ∈ w.queue, q.oid ∈ w.seen
  dated : ∀ q ∈ w.queue, ∃ commit, readCommitObject read q.oid = .ok commit ∧
    q.date = (committerDate commit).getD 0
  reached : ∀ c ∈ w.seen, Reach (walkParents read) start c

/-- The turns that can still come: what waits, and what was not seen. -/
def RevWalk.turns (V : Finset ObjectId) (w : RevWalk) : Nat :=
  w.queue.length + (V.filter (· ∉ w.seen)).card

/-- The queue with a commit put where its turn is. -/
def RevWalk.enqueue (w : RevWalk) (oid : ObjectId) (commit : Commit) : RevWalk where
  queue := w.queue.orderedInsert (·.before ·) ⟨(committerDate commit).getD 0, w.seq + 1, oid⟩
  seen := oid :: w.seen
  seq := w.seq + 1

variable {w : RevWalk} {oid : ObjectId}

theorem push_seen (h : oid ∈ w.seen) :
    RevWalk.push read oid w = .ok () w := by
  change (if oid ∈ w.seen then _ else _ : EStateM (CommitError ε) RevWalk Unit) w = _
  rw [if_pos h]
  rfl

theorem push_error {e : CommitError ε} (h : oid ∉ w.seen)
    (hread : readCommitObject read oid = .error e) :
    RevWalk.push read oid w = .error e { w with seen := oid :: w.seen } := by
  change (if oid ∈ w.seen then _ else _ : EStateM (CommitError ε) RevWalk Unit) w = _
  rw [if_neg h, hread]
  rfl

theorem push_new {commit : Commit} (h : oid ∉ w.seen)
    (hread : readCommitObject read oid = .ok commit) :
    RevWalk.push read oid w = .ok () (w.enqueue oid commit) := by
  change (if oid ∈ w.seen then _ else _ : EStateM (CommitError ε) RevWalk Unit) w = _
  rw [if_neg h, hread]
  rfl

/-- A walk behind another: more was seen, and what is new in the queue was not seen before. -/
structure RevWalk.After (V : Finset ObjectId) (w w' : RevWalk) : Prop where
  seen : w.seen ⊆ w'.seen
  queue : ∀ q ∈ w.queue, q ∈ w'.queue
  new : ∀ q ∈ w'.queue, q ∈ w.queue ∨ q.oid ∉ w.seen
  turns : w'.turns V ≤ w.turns V

variable {V : Finset ObjectId}

theorem RevWalk.After.refl (w : RevWalk) : w.After V w :=
  ⟨List.Subset.refl _, fun _ h => h, fun _ h => .inl h, le_rfl⟩

theorem RevWalk.After.trans {w' w'' : RevWalk} (h : w.After V w') (h' : w'.After V w'') :
    w.After V w'' where
  seen := fun _ hc => h'.seen (h.seen hc)
  queue := fun q hq => h'.queue q (h.queue q hq)
  new := fun q hq => (h'.new q hq).elim (h.new q) fun hnot => .inr fun hmem => hnot (h.seen hmem)
  turns := h'.turns.trans h.turns

/-- What is seen now cannot be queued later. -/
theorem card_unseen (hV : oid ∈ V) (h : oid ∉ w.seen) :
    (V.filter (· ∉ oid :: w.seen)).card + 1 = (V.filter (· ∉ w.seen)).card := by
  have hrest : V.filter (· ∉ oid :: w.seen) = (V.filter (· ∉ w.seen)).erase oid := by
    ext c
    simp only [mem_cons, not_or, Finset.mem_filter, Finset.mem_erase]
    tauto
  rw [hrest]
  exact Finset.card_erase_add_one (Finset.mem_filter.mpr ⟨hV, h⟩)

/-- **What a push does**: it queues a commit that was not seen, or says that it cannot be read. -/
theorem push_spec (h : Walking read start w) (hV : oid ∈ V)
    (hreach : Reach (walkParents read) start oid) :
    (∃ w', RevWalk.push read oid w = .ok () w' ∧ Walking read start w' ∧ w.After V w' ∧
      oid ∈ w'.seen ∧ ∀ c ∈ w'.seen, c ∈ w.seen ∨ c ∈ w'.queue.map Queued.oid) ∨
    ∃ e w', RevWalk.push read oid w = .error e w' ∧ Walking read start w' ∧ w.After V w' ∧
      readCommitObject read oid = .error e := by
  by_cases hseen : oid ∈ w.seen
  · exact .inl ⟨w, push_seen hseen, h, .refl w, hseen, fun c hc => .inl hc⟩
  have hreached : ∀ c ∈ oid :: w.seen, Reach (walkParents read) start c := by
    intro c hc
    rcases mem_cons.mp hc with rfl | hc
    · exact hreach
    · exact h.reached c hc
  have hcard := card_unseen hV hseen
  cases hread : readCommitObject read oid with
  | error e =>
    refine .inr ⟨e, _, push_error hseen hread, ⟨h.sorted, h.nodup, fun q hq =>
      mem_cons_of_mem _ (h.seen q hq), h.dated, hreached⟩,
      ⟨subset_cons_self _ _, fun _ hq => hq, fun _ hq => .inl hq, ?_⟩, rfl⟩
    rw [RevWalk.turns, RevWalk.turns]
    dsimp only
    omega
  | ok commit =>
    obtain ⟨queued, hqueued⟩ : ∃ queued : Queued,
        queued = ⟨(committerDate commit).getD 0, w.seq + 1, oid⟩ := ⟨_, rfl⟩
    have hqueue : (w.enqueue oid commit).queue = w.queue.orderedInsert (·.before ·) queued := by
      rw [RevWalk.enqueue, hqueued]
    have hoid : queued.oid = oid := by rw [hqueued]
    have hperm : (w.enqueue oid commit).queue.Perm (queued :: w.queue) :=
      hqueue ▸ perm_orderedInsert _ _ _
    have hmem : ∀ q, q ∈ (w.enqueue oid commit).queue ↔ q = queued ∨ q ∈ w.queue := fun q => by
      rw [hperm.mem_iff, mem_cons]
    refine .inl ⟨_, push_new hseen hread, ⟨?_, ?_, ?_, ?_, hreached⟩, ⟨?_, ?_, ?_, ?_⟩,
      mem_cons_self, ?_⟩
    · rw [hqueue]
      exact List.Pairwise.orderedInsert _ _ h.sorted
    · rw [(hperm.map Queued.oid).nodup_iff, map_cons, hoid]
      refine nodup_cons.mpr ⟨fun hin => ?_, h.nodup⟩
      obtain ⟨q, hq, heq⟩ := mem_map.mp hin
      exact hseen (heq ▸ h.seen q hq)
    · intro q hq
      rcases (hmem q).mp hq with rfl | hq
      · exact hoid ▸ mem_cons_self
      · exact mem_cons_of_mem _ (h.seen q hq)
    · intro q hq
      rcases (hmem q).mp hq with rfl | hq
      · exact ⟨commit, hoid ▸ hread, by rw [hqueued]⟩
      · exact h.dated q hq
    · exact subset_cons_self _ _
    · exact fun q hq => (hmem q).mpr (.inr hq)
    · intro q hq
      rcases (hmem q).mp hq with rfl | hq
      · exact .inr (hoid ▸ hseen)
      · exact .inl hq
    · have hlength := hperm.length_eq
      have hunseen : (w.enqueue oid commit).seen = oid :: w.seen := rfl
      rw [RevWalk.turns, RevWalk.turns, hlength, hunseen, length_cons]
      omega
    · intro c hc
      rcases mem_cons.mp hc with rfl | hc
      · exact .inr (mem_map.mpr ⟨queued, (hmem _).mpr (.inl rfl), hoid⟩)
      · exact .inl hc

/-! ### One turn -/

/-- The parents are queued one after the other; one that cannot be read ends it. -/
theorem pushes_spec {parents : List ObjectId} (h : Walking read start w)
    (hV : ∀ p ∈ parents, p ∈ V) (hreach : ∀ p ∈ parents, Reach (walkParents read) start p) :
    (∃ w', parents.forM (RevWalk.push read) w = .ok () w' ∧ Walking read start w' ∧ w.After V w' ∧
      (∀ p ∈ parents, p ∈ w'.seen) ∧ ∀ c ∈ w'.seen, c ∈ w.seen ∨ c ∈ w'.queue.map Queued.oid) ∨
    ∃ e w', parents.forM (RevWalk.push read) w = .error e w' ∧ Walking read start w' ∧
      w.After V w' ∧ ∃ p ∈ parents, readCommitObject read p = .error e := by
  induction parents generalizing w with
  | nil => exact .inl ⟨w, rfl, h, .refl w, fun p hp => absurd hp not_mem_nil, fun c hc => .inl hc⟩
  | cons p parents ih =>
    have hrun : ∀ r, RevWalk.push read p w = r → (p :: parents).forM (RevWalk.push read) w =
        match r with
        | .ok _ w' => parents.forM (RevWalk.push read) w'
        | .error e w' => .error e w' := by
      rintro r rfl
      change (RevWalk.push read p >>= fun _ => parents.forM (RevWalk.push read)) w = _
      simp only [bind, EStateM.bind]
      cases RevWalk.push read p w <;> rfl
    rcases push_spec h (hV p mem_cons_self) (hreach p mem_cons_self) with
      ⟨w₁, hpush, h₁, hafter, hseen, hnew⟩ | ⟨e, w₁, hpush, h₁, hafter, hread⟩
    · rw [hrun _ hpush]
      rcases ih h₁ (fun c hc => hV c (mem_cons_of_mem _ hc))
          (fun c hc => hreach c (mem_cons_of_mem _ hc)) with
        ⟨w₂, hrest, h₂, hafter₂, hseen₂, hnew₂⟩ | ⟨e, w₂, hrest, h₂, hafter₂, hread⟩
      · refine .inl ⟨w₂, hrest, h₂, hafter.trans hafter₂,
          forall_mem_cons.mpr ⟨hafter₂.seen hseen, hseen₂⟩, fun c hc => ?_⟩
        rcases hnew₂ c hc with hc | hc
        · refine (hnew c hc).imp_right fun hin => ?_
          obtain ⟨q, hq, heq⟩ := mem_map.mp hin
          exact mem_map.mpr ⟨q, hafter₂.queue q hq, heq⟩
        · exact .inr hc
      · obtain ⟨c, hc, hread⟩ := hread
        exact .inr ⟨e, w₂, hrest, h₂, hafter.trans hafter₂, c, mem_cons_of_mem _ hc, hread⟩
    · rw [hrun _ hpush]
      exact .inr ⟨e, w₁, rfl, h₁, hafter, p, mem_cons_self, hread⟩

/-- An item of the walk is what reading a commit that was reached gives. -/
def Genuine (read : ReadObject ε) (start : ObjectId) : RevWalk.Item ε → Prop
  | .ok (c, commit) => Reach (walkParents read) start c ∧ readCommitObject read c = .ok commit
  | .error e => ∃ c, Reach (walkParents read) start c ∧ readCommitObject read c = .error e

/-- **What one turn does**, the queue starting with `q`. -/
theorem next_spec {q : Queued} {queue : List Queued} (h : Walking read start w)
    (hV : ∀ c, Reach (walkParents read) start c → c ∈ V) (hq : w.queue = q :: queue) :
    ∃ item w', RevWalk.next read w = some (item, w') ∧ Walking read start w' ∧
      { w with queue }.After V w' ∧ Genuine read start item ∧
      ∀ c commit, item = .ok (c, commit) → c = q.oid ∧ (∀ p ∈ commit.parents, p ∈ w'.seen) ∧
        ∀ d ∈ w'.seen, d ∈ w.seen ∨ d ∈ w'.queue.map Queued.oid := by
  have hmem : ∀ q' ∈ queue, q' ∈ w.queue := fun q' hq' => hq ▸ mem_cons_of_mem _ hq'
  have hpop : Walking read start { w with queue } := by
    have hsorted := h.sorted
    have hnodup := h.nodup
    rw [hq] at hsorted hnodup
    exact ⟨(pairwise_cons.mp hsorted).2, (nodup_cons.mp hnodup).2,
      fun q' hq' => h.seen q' (hmem q' hq'), fun q' hq' => h.dated q' (hmem q' hq'), h.reached⟩
  have hin : q ∈ w.queue := hq ▸ mem_cons_self
  obtain ⟨commit, hread, -⟩ := h.dated q hin
  have hreach := h.reached q.oid (h.seen q hin)
  have hparents : ∀ p ∈ commit.parents, Reach (walkParents read) start p := fun p hp =>
    hreach.tail ⟨commit.parents, by rw [walkParents, hread]; rfl, hp⟩
  have hrun : ∀ r, commit.parents.forM (RevWalk.push read) { w with queue } = r →
      RevWalk.next read w = some (match r with
        | .ok _ w' => (.ok (q.oid, commit), w')
        | .error e w' => (.error e, w')) := by
    rintro r rfl
    have hvisit : RevWalk.visit read q.oid { w with queue } =
        match commit.parents.forM (RevWalk.push read) { w with queue } with
        | .ok _ w' => .ok (q.oid, commit) w'
        | .error e w' => .error e w' := by
      change ((fromExcept (readCommitObject read q.oid) : EStateM (CommitError ε) RevWalk Commit) >>=
        fun commit => do
          commit.parents.forM (RevWalk.push read)
          return (q.oid, commit)) { w with queue } = _
      rw [hread]
      simp only [bind, EStateM.bind, fromExcept]
      cases commit.parents.forM (RevWalk.push read) { w with queue } <;> rfl
    rw [RevWalk.next, hq]
    dsimp only
    rw [hvisit]
    cases commit.parents.forM (RevWalk.push read) { w with queue } <;> rfl
  rcases pushes_spec hpop (fun p hp => hV p (hparents p hp)) hparents with
    ⟨w', hpushes, hw', hafter, hseen, hnew⟩ | ⟨e, w', hpushes, hw', hafter, p, hp, herror⟩
  · refine ⟨.ok (q.oid, commit), w', hrun _ hpushes, hw', hafter, ⟨hreach, hread⟩, ?_⟩
    rintro c commit' heq
    cases heq
    exact ⟨rfl, hseen, hnew⟩
  · exact ⟨.error e, w', hrun _ hpushes, hw', hafter, ⟨p, hparents p hp, herror⟩, nofun⟩

/-! ### Whole walks -/

/-- The ids of the commits among some items. -/
def yields (items : List (RevWalk.Item ε)) : List ObjectId :=
  items.filterMap fun item => item.toOption.map Prod.fst

/-- What the rest of a walk yields, where `done` had their turns. -/
structure Yielding (read : ReadObject ε) (start : ObjectId) (w : RevWalk) (done : List ObjectId)
    (items : List (RevWalk.Item ε)) : Prop where
  nodup : (yields items).Nodup
  new : ∀ c ∈ yields items, c ∉ done
  genuine : ∀ item ∈ items, Genuine read start item
  /-- Without an error, everything that is seen or named is yielded at some time. -/
  complete : (∀ e, .error e ∉ items) →
    (∀ c ∈ w.seen, c ∈ done ∨ c ∈ w.queue.map Queued.oid) →
    (∀ c ∈ w.seen, c ∈ done ∨ c ∈ yields items) ∧
    ∀ c ∈ yields items, ∀ p, Succ (walkParents read) c p → p ∈ done ∨ p ∈ yields items

theorem items_spec {fuel : Nat} {done : List ObjectId} (h : Walking read start w)
    (hV : ∀ c, Reach (walkParents read) start c → c ∈ V)
    (hdone : ∀ c ∈ done, c ∈ w.seen ∧ c ∉ w.queue.map Queued.oid) (hfuel : w.turns V < fuel) :
    ∃ items, RevWalk.items read fuel w = some items ∧ Yielding read start w done items := by
  induction fuel generalizing w done with
  | zero => omega
  | succ fuel ih =>
    cases hqueue : w.queue with
    | nil =>
      refine ⟨[], by rw [RevWalk.items, RevWalk.next, hqueue], nodup_nil, ?_, ?_, ?_⟩
      · exact fun c hc => absurd hc not_mem_nil
      · exact fun c hc => absurd hc not_mem_nil
      · intro _ hseen
        refine ⟨fun c hc => .inl ((hseen c hc).resolve_right ?_), fun c hc => absurd hc not_mem_nil⟩
        rw [hqueue]
        exact not_mem_nil
    | cons q queue =>
      obtain ⟨item, w', hnext, hw', hafter, hgenuine, hok⟩ := next_spec h hV hqueue
      have hq : q ∈ w.queue := hqueue ▸ mem_cons_self
      have hnodup : q.oid ∉ queue.map Queued.oid ∧ (queue.map Queued.oid).Nodup := by
        have hall := h.nodup
        rw [hqueue] at hall
        exact nodup_cons.mp hall
      have hdone' : ∀ c ∈ q.oid :: done, c ∈ w'.seen ∧ c ∉ w'.queue.map Queued.oid := by
        have hcur : ∀ c ∈ q.oid :: done, c ∈ w.seen ∧ c ∉ queue.map Queued.oid := by
          intro c hc
          rcases mem_cons.mp hc with rfl | hc
          · exact ⟨h.seen q hq, hnodup.1⟩
          · obtain ⟨hseen, hnot⟩ := hdone c hc
            rw [hqueue, map_cons, mem_cons, not_or] at hnot
            exact ⟨hseen, hnot.2⟩
        intro c hc
        obtain ⟨hseen, hnot⟩ := hcur c hc
        refine ⟨hafter.seen hseen, fun hin => ?_⟩
        obtain ⟨q', hq', rfl⟩ := mem_map.mp hin
        rcases hafter.new q' hq' with hold | hnew
        · exact hnot (mem_map_of_mem hold)
        · exact hnew hseen
      have hturns : w'.turns V < fuel := by
        have hle := hafter.turns
        have hlt : RevWalk.turns V { w with queue } + 1 = w.turns V := by
          rw [RevWalk.turns, RevWalk.turns, hqueue, length_cons]
          dsimp only
          omega
        omega
      obtain ⟨items, hitems, hwalked⟩ := ih hw' hdone' hturns
      have hall : RevWalk.items read (fuel + 1) w = some (item :: items) := by
        rw [RevWalk.items, hnext]
        dsimp only
        rw [hitems]
        rfl
      refine ⟨item :: items, hall, ?_⟩
      have hgen : ∀ i ∈ item :: items, Genuine read start i :=
        forall_mem_cons.mpr ⟨hgenuine, hwalked.genuine⟩
      cases hitem : item with
      | error e =>
        have hyields : yields (.error e :: items) = yields items := rfl
        refine ⟨hyields ▸ hwalked.nodup, fun c hc hin => ?_, hitem ▸ hgen, fun hnone => ?_⟩
        · exact hwalked.new c (hyields ▸ hc) (mem_cons_of_mem _ hin)
        · exact absurd mem_cons_self (hnone e)
      | ok yielded =>
        obtain ⟨c, commit⟩ := yielded
        obtain ⟨rfl, hparents, hnew⟩ := hok c commit hitem
        have hyields : yields (.ok (q.oid, commit) :: items) = q.oid :: yields items := rfl
        refine ⟨?_, ?_, hitem ▸ hgen, fun hnone hseen => ?_⟩
        · rw [hyields]
          exact nodup_cons.mpr ⟨fun hin => hwalked.new _ hin mem_cons_self, hwalked.nodup⟩
        · intro c hc hin
          rcases mem_cons.mp (hyields ▸ hc) with rfl | hc
          · exact (hdone _ hin).2 (mem_map_of_mem hq)
          · exact hwalked.new c hc (mem_cons_of_mem _ hin)
        · have hseen' : ∀ d ∈ w'.seen, d ∈ q.oid :: done ∨ d ∈ w'.queue.map Queued.oid := by
            intro d hd
            rcases hnew d hd with hd | hd
            · rcases hseen d hd with hd | hd
              · exact .inl (mem_cons_of_mem _ hd)
              · rw [hqueue, map_cons, mem_cons] at hd
                rcases hd with rfl | hd
                · exact .inl mem_cons_self
                · obtain ⟨q', hq', rfl⟩ := mem_map.mp hd
                  exact .inr (mem_map_of_mem (hafter.queue q' hq'))
            · exact .inr hd
          obtain ⟨hcover, hclosed⟩ := hwalked.complete
            (fun e he => hnone e (mem_cons_of_mem _ he)) hseen'
          have hmove : ∀ d, d ∈ q.oid :: done ∨ d ∈ yields items →
              d ∈ done ∨ d ∈ q.oid :: yields items := by
            rintro d (hd | hd)
            · rcases mem_cons.mp hd with rfl | hd
              · exact .inr mem_cons_self
              · exact .inl hd
            · exact .inr (mem_cons_of_mem _ hd)
          rw [hyields]
          refine ⟨fun d hd => hmove d (hcover d (hafter.seen hd)), fun d hd p hp => hmove p ?_⟩
          rcases mem_cons.mp hd with rfl | hd
          · refine hcover p (hparents p ?_)
            obtain ⟨parents, hread, hp⟩ := hp
            have hthis : Genuine read start (.ok (q.oid, commit)) := hitem ▸ hgenuine
            rw [walkParents, hthis.2] at hread
            cases hread
            exact hp
          · exact hclosed d hd p hp

/-- `w'` is the walk behind `w` after some items. -/
def WalksTo (read : ReadObject ε) : RevWalk → RevWalk → Prop :=
  Relation.ReflTransGen fun w w' => ∃ item, RevWalk.next read w = some (item, w')

theorem Walking.leads {w' : RevWalk} (h : Walking read start w)
    (hV : ∀ c, Reach (walkParents read) start c → c ∈ V) (hleads : WalksTo read w w') :
    Walking read start w' := by
  induction hleads with
  | refl => exact h
  | @tail w' w'' _ hstep ih =>
    obtain ⟨item, hnext⟩ := hstep
    cases hqueue : w'.queue with
    | nil =>
      rw [RevWalk.next, hqueue] at hnext
      cases hnext
    | cons q queue =>
      obtain ⟨item', w₁, hnext', hw₁, -⟩ := next_spec ih hV hqueue
      rw [hnext] at hnext'
      cases hnext'
      exact hw₁

/-- A walk starts with what was asked for, if that can be read. -/
theorem new_spec (hV : start ∈ V) :
    (∀ e, RevWalk.new read start = .error e ↔ readCommitObject read start = .error e) ∧
    ∀ w, RevWalk.new read start = .ok w → Walking read start w ∧ w.turns V ≤ V.card ∧
      start ∈ w.seen ∧ ∀ c ∈ w.seen, c ∈ w.queue.map Queued.oid := by
  have hempty : Walking read start RevWalk.empty :=
    ⟨List.Pairwise.nil, nodup_nil, nofun, nofun, nofun⟩
  have hturns : RevWalk.empty.turns V = V.card := by
    simp [RevWalk.turns, RevWalk.empty]
  have hnot : start ∉ RevWalk.empty.seen := not_mem_nil
  rcases push_spec hempty hV .refl with ⟨w', hpush, hw', hafter, hseen, hnew⟩ |
    ⟨e', w', hpush, -, -, hread⟩
  · have hok : ∃ commit, readCommitObject read start = .ok commit := by
      cases hread : readCommitObject read start with
      | ok commit => exact ⟨commit, rfl⟩
      | error e =>
        rw [push_error hnot hread] at hpush
        cases hpush
    obtain ⟨commit, hread⟩ := hok
    rw [RevWalk.new, hpush, hread]
    refine ⟨fun e => iff_of_false nofun nofun, fun w heq => ?_⟩
    cases heq
    exact ⟨hw', hturns ▸ hafter.turns, hseen, fun c hc => (hnew c hc).resolve_left not_mem_nil⟩
  · rw [RevWalk.new, hpush, hread]
    refine ⟨fun e => ?_, nofun⟩
    simp

/-- The next item is of the newest commit that waits, the first queued among equals. -/
structure TakesNewest (read : ReadObject ε) (q : Queued) (queue : List Queued) (w : RevWalk) :
    Prop where
  newest : ∀ p ∈ queue, p.date ≤ q.date ∧ (q.date = p.date → q.order ≤ p.order)
  dated : ∀ p ∈ q :: queue, ∃ commit, readCommitObject read p.oid = .ok commit ∧
    p.date = (committerDate commit).getD 0
  taken : ∀ c commit w', RevWalk.next read w = some (.ok (c, commit), w') → c = q.oid

theorem Walking.takesNewest {q : Queued} {queue : List Queued} (h : Walking read start w)
    (hV : ∀ c, Reach (walkParents read) start c → c ∈ V) (hqueue : w.queue = q :: queue) :
    TakesNewest read q queue w := by
  refine ⟨fun p hp => ?_, fun p hp => h.dated p (hqueue ▸ hp), fun c commit w' hnext => ?_⟩
  · have hsorted := h.sorted
    rw [hqueue] at hsorted
    exact date_le_of_before ((pairwise_cons.mp hsorted).1 p hp)
  · obtain ⟨item, w₁, hnext', -, -, -, htaken⟩ := next_spec h hV hqueue
    rw [hnext] at hnext'
    cases hnext'
    exact (htaken c commit rfl).1

/-- **The walk over a history.** From a commit with finitely many ancestors the walk ends, whatever
    the dates, and yields no commit twice and none that is not reachable; what it yields next is the
    newest of what waits, and the first queued among equals.  Where all of the history can be read
    it yields every commit of it, without an error; where it cannot, an error is reported. -/
theorem rev_walk_spec (hV : ∀ c, Reach (walkParents read) start c → c ∈ V) :
    (∀ e, RevWalk.new read start = .error e ↔ readCommitObject read start = .error e) ∧
    ∀ w, RevWalk.new read start = .ok w →
      (∀ w', WalksTo read w w' → ∀ q queue, w'.queue = q :: queue → TakesNewest read q queue w') ∧
      ∃ items, RevWalk.items read (V.card + 1) w = some items ∧
        (yields items).Nodup ∧ (∀ item ∈ items, Genuine read start item) ∧
        ((∀ c, Reach (walkParents read) start c → ∃ commit, readCommitObject read c = .ok commit) →
          (∀ e, .error e ∉ items) ∧ ∀ c, c ∈ yields items ↔ Reach (walkParents read) start c) ∧
        ((∃ c e, Reach (walkParents read) start c ∧ readCommitObject read c = .error e) →
          ∃ e, .error e ∈ items) := by
  obtain ⟨hnew, hok⟩ := @new_spec ε read start V (hV start .refl)
  refine ⟨hnew, fun w hw => ?_⟩
  obtain ⟨hwalking, hturns, hstart, hpending⟩ := hok w hw
  refine ⟨fun w' hleads q queue hqueue => (hwalking.leads hV hleads).takesNewest hV hqueue, ?_⟩
  obtain ⟨items, hitems, hwalked⟩ := items_spec hwalking hV (fun c hc => absurd hc not_mem_nil)
    (Nat.lt_succ_of_le hturns)
  have hyielded : ∀ c ∈ yields items, Reach (walkParents read) start c ∧
      ∃ commit, readCommitObject read c = .ok commit := by
    intro c hc
    obtain ⟨item, hitem, hsome⟩ := mem_filterMap.mp hc
    have hgenuine := hwalked.genuine item hitem
    cases item with
    | error e => cases hsome
    | ok yielded =>
      obtain rfl := Option.some.inj hsome
      exact ⟨hgenuine.1, yielded.2, hgenuine.2⟩
  -- without an error, what was reached is closed under parents
  have hall : (∀ e, .error e ∉ items) → ∀ c, Reach (walkParents read) start c → c ∈ yields items := by
    intro hnone c hreach
    obtain ⟨hcover, hclosed⟩ := hwalked.complete hnone fun c hc => .inr (hpending c hc)
    have hdrop : ∀ d, d ∈ ([] : List ObjectId) ∨ d ∈ yields items → d ∈ yields items := fun d hd =>
      hd.resolve_left not_mem_nil
    induction hreach with
    | refl => exact hdrop _ (hcover _ hstart)
    | tail _ hstep ih => exact hdrop _ (hclosed _ ih _ hstep)
  refine ⟨items, hitems, hwalked.nodup, hwalked.genuine, fun hread => ?_, ?_⟩
  · have hnone : ∀ e, .error e ∉ items := by
      intro e he
      obtain ⟨c, hreach, herror⟩ := hwalked.genuine _ he
      obtain ⟨commit, hcommit⟩ := hread c hreach
      rw [hcommit] at herror
      cases herror
    exact ⟨hnone, fun c => ⟨fun hc => (hyielded c hc).1, hall hnone c⟩⟩
  · rintro ⟨c, e, hreach, herror⟩
    by_contra hnone
    push Not at hnone
    obtain ⟨commit, hcommit⟩ := (hyielded c (hall hnone c hreach)).2
    rw [hcommit] at herror
    cases herror

/-! ### A parent that is missing -/

def walkId (b : UInt8) : ObjectId := .sha1 (ByteArr.ofSlice 20 (List.replicate 20 b))

def walkCommit (parents : List ObjectId) : RawObject :=
  ⟨.commit, (parents.flatMap fun p => utf8 ("parent " ++ String.ofList p.hexText ++ "\n")) ++
    utf8 "committer a <a> 1 +0000\n\n"⟩

/-- One commit, without parents. -/
def rootHistory : ReadObject Unit := fun id => .ok (if id = walkId 1 then some (walkCommit []) else none)

theorem rev_walk_root : ∃ w items, RevWalk.new rootHistory (walkId 1) = .ok w ∧
    RevWalk.items rootHistory 2 w = some items ∧ (yields items).Nodup := by
  have hparents : walkParents rootHistory (walkId 1) = .ok [] := ok_of_toOption (by decide +kernel)
  have hV : ∀ c, Reach (walkParents rootHistory) (walkId 1) c → c ∈ ({walkId 1} : Finset ObjectId) := by
    intro c hreach
    rcases Relation.reflTransGen_iff_eq_or_transGen.mp hreach with rfl | hbelow
    · exact Finset.mem_singleton_self _
    · obtain ⟨parents, hok, p, hp, -⟩ := below_iff.mp hbelow
      rw [hparents] at hok
      cases hok
      cases hp
  obtain ⟨hnew, hwalk⟩ := rev_walk_spec hV
  cases hw : RevWalk.new rootHistory (walkId 1) with
  | error e =>
    rw [walkParents, (hnew e).mp hw] at hparents
    cases hparents
  | ok w =>
    obtain ⟨-, items, hitems, hnodup, -⟩ := hwalk w hw
    exact ⟨w, items, rfl, hitems, hnodup⟩

/-- A commit with two parents, the first of which is missing. -/
def gapHistory : ReadObject Unit := fun id =>
  .ok (if id = walkId 1 then some (walkCommit [walkId 2, walkId 3])
    else if id = walkId 3 then some (walkCommit []) else none)

/-- **The walk loses commits**: of three, one of them missing, it yields none. -/
theorem walk_loses_commits :
    ((RevWalk.new gapHistory (walkId 1)).toOption.bind (RevWalk.items gapHistory 3)).map
        (fun items => (items.length, yields items)) = some (1, []) ∧
      Reach (walkParents gapHistory) (walkId 1) (walkId 3) ∧
      (readCommitObject gapHistory (walkId 1)).isOk = true ∧
      (readCommitObject gapHistory (walkId 3)).isOk = true := by
  have hparents : walkParents gapHistory (walkId 1) = .ok [walkId 2, walkId 3] :=
    ok_of_toOption (by decide +kernel)
  exact ⟨by decide +kernel, .single ⟨[walkId 2, walkId 3], hparents, by simp⟩, by decide +kernel,
    by decide +kernel⟩

end Alt.Repo
