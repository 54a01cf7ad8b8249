import Alt.Library.System
import Mathlib.Data.List.Sublists

namespace Alt.Server

open Alt.Library List

/-!
# Group commit (`alt-cli/src/group_commit.rs`)

Commits take tickets and wait until their ticket is durable.  One thread at a time leads: it
samples the highest ticket, drops the lock, flushes, and takes the lock again.

* `GroupInner` — what the mutex guards; `assign`, `turn` and `flushed` are the critical
  sections;
* `groupCommit τ` — any number of threads `τ`, one critical section, flush start or flush end
  a step.  A waiting thread may take a turn at any time, as a condition variable may wake it
  spuriously;
* `Coordinated` — the leader, if there is one, and what its ticket sample covers;
* `acknowledges_durable` — every acknowledged ticket was covered by a successful flush that
  began after the ticket was handed out.

The log is a ghost: the order in which tickets were handed out, flushes began and ended, and
calls returned.
-/

/-- What the mutex guards. -/
structure GroupInner where
  /-- Highest ticket handed out. -/
  nextTicket : Nat
  /-- Highest ticket made durable by a completed flush. -/
  durable : Nat
  /-- A leader is flushing. -/
  syncing : Bool
  lastError : Option String
  fsyncCount : Nat
  deriving DecidableEq

namespace GroupInner

def new : GroupInner := ⟨0, 0, false, none, 0⟩

/-- Hand out the next ticket. -/
def assign (g : GroupInner) : GroupInner × Nat :=
  ({ g with nextTicket := g.nextTicket + 1 }, g.nextTicket + 1)

/-- How one turn of `await_durable`'s loop ends. -/
inductive Turn
  | ret (result : Except String Unit)
  | wait
  | lead (covered : Nat)

/-- One turn of the loop, with the lock held. -/
def turn (g : GroupInner) (ticket : Nat) (led : Bool) : GroupInner × Turn :=
  if ticket ≤ g.durable then (g, .ret (.ok ()))
  else if g.syncing then (g, .wait)
  else if led then (g, .ret (.error (g.lastError.getD "durability failed")))
  else ({ g with syncing := true }, .lead g.nextTicket)

/-- The leader is back from its flush. -/
def flushed (g : GroupInner) (covered : Nat) (outcome : Except String Unit) : GroupInner :=
  let g := { g with syncing := false, fsyncCount := g.fsyncCount + 1 }
  match outcome with
  | .ok () => { g with durable := max g.durable covered, lastError := none }
  | .error e => { g with lastError := some e }

end GroupInner

/-- Where a thread stands. -/
inductive Thread
  | idle
  /-- In `await_durable`: about to take a turn, or in the condition variable's queue. -/
  | waiting (ticket : Nat) (led : Bool)
  /-- Leads, and has dropped the lock. -/
  | leading (ticket covered : Nat)
  /-- In flush number `flush`. -/
  | flushing (ticket covered flush : Nat)
  /-- The flush has returned; the lock is not yet retaken. -/
  | flushed (ticket covered flush : Nat) (outcome : Except String Unit)

inductive GroupEvent (τ : Type)
  | assigned (ticket : Nat)
  | began (flush : Nat)
  | ended (flush : Nat) (outcome : Except String Unit)
  | returned (thread : τ) (ticket : Nat) (result : Except String Unit)

inductive GroupAction (τ : Type)
  | assign (thread : τ)
  | await (thread : τ) (ticket : Nat)
  | turn (thread : τ)
  | beginFlush (thread : τ)
  | endFlush (thread : τ) (outcome : Except String Unit)
  | relock (thread : τ)

structure GroupState (τ : Type) where
  inner : GroupInner
  threads : τ → Thread
  flushes : Nat
  log : List (GroupEvent τ)

open GroupEvent

section Step

variable {τ : Type} [DecidableEq τ]

/-- A thread takes a turn on `g`. -/
def GroupState.take (s : GroupState τ) (i : τ) (ticket : Nat) (led : Bool) (g : GroupInner) :
    GroupState τ :=
  match g.turn ticket led with
  | (g, .ret result) =>
    { s with
      inner := g
      threads := Function.update s.threads i .idle
      log := s.log ++ [returned i ticket result] }
  | (g, .wait) => { s with inner := g, threads := Function.update s.threads i (.waiting ticket led) }
  | (g, .lead covered) =>
    { s with inner := g, threads := Function.update s.threads i (.leading ticket covered) }

def groupStep (s : GroupState τ) : GroupAction τ → Option (GroupState τ)
  | .assign i =>
    match s.threads i with
    | .idle =>
      let (g, ticket) := s.inner.assign
      some { s with inner := g, log := s.log ++ [assigned ticket] }
    | _ => none
  | .await i ticket =>
    match s.threads i with
    | .idle => some { s with threads := Function.update s.threads i (.waiting ticket false) }
    | _ => none
  | .turn i =>
    match s.threads i with
    | .waiting ticket led => some (s.take i ticket led s.inner)
    | _ => none
  | .beginFlush i =>
    match s.threads i with
    | .leading ticket covered =>
      some { s with
        threads := Function.update s.threads i (.flushing ticket covered s.flushes)
        flushes := s.flushes + 1
        log := s.log ++ [began s.flushes] }
    | _ => none
  | .endFlush i outcome =>
    match s.threads i with
    | .flushing ticket covered flush =>
      some { s with
        threads := Function.update s.threads i (.flushed ticket covered flush outcome)
        log := s.log ++ [ended flush outcome] }
    | _ => none
  | .relock i =>
    match s.threads i with
    | .flushed ticket covered _ outcome =>
      -- the loop goes on without releasing the lock
      some (s.take i ticket true (s.inner.flushed covered outcome))
    | _ => none

end Step

/-- Any number of threads on one coordinator. -/
def groupCommit (τ : Type) [DecidableEq τ] : System (GroupState τ) (GroupAction τ) where
  init := ⟨.new, fun _ => .idle, 0, []⟩
  step := groupStep

/-! ### The leader -/

/-- The ticket a leader waits for, and the highest ticket its flush covers. -/
def Thread.leads : Thread → Option (Nat × Nat)
  | .leading ticket covered => some (ticket, covered)
  | .flushing ticket covered _ => some (ticket, covered)
  | .flushed ticket covered _ _ => some (ticket, covered)
  | _ => none

/-- What happened before a leader's flush, and in it. -/
def Thread.trace {τ : Type} (ticket : Nat) : Thread → List (GroupEvent τ)
  | .flushing _ _ flush => [assigned ticket, began flush]
  | .flushed _ _ flush outcome => [assigned ticket, began flush, ended flush outcome]
  | _ => [assigned ticket]

/-- A successful flush began after `ticket` was handed out. -/
def FlushedSince {τ : Type} (log : List (GroupEvent τ)) (ticket : Nat) : Prop :=
  ∃ flush, [assigned ticket, began flush, ended flush (.ok ())].Sublist log

structure Coordinated {τ : Type} (s : GroupState τ) : Prop where
  tickets : ∀ t, assigned t ∈ s.log ↔ 0 < t ∧ t ≤ s.inner.nextTicket
  durable_le : s.inner.durable ≤ s.inner.nextTicket
  durable : ∀ t, 0 < t → t ≤ s.inner.durable → FlushedSince s.log t
  acked : ∀ pre i t post, s.log = pre ++ returned i t (.ok ()) :: post → 0 < t →
    FlushedSince pre t
  /-- There is one leader at most, and one exactly while a flush runs. -/
  syncing : ∀ i, (s.threads i).leads.isSome → s.inner.syncing = true
  unique : ∀ i j, (s.threads i).leads.isSome → (s.threads j).leads.isSome → i = j
  /-- A leader is not covered yet; its sample was handed out. -/
  leader : ∀ i ticket covered, (s.threads i).leads = some (ticket, covered) →
    s.inner.durable < ticket ∧ covered ≤ s.inner.nextTicket ∧
      ∀ t, 0 < t → t ≤ covered → ((s.threads i).trace t).Sublist s.log

section Proofs

variable {τ : Type}

theorem FlushedSince.append {log : List (GroupEvent τ)} {t : Nat} (h : FlushedSince log t)
    (more : List (GroupEvent τ)) : FlushedSince (log ++ more) t :=
  let ⟨flush, hsub⟩ := h
  ⟨flush, hsub.trans (sublist_append_left _ _)⟩

namespace Coordinated

variable {s : GroupState τ}

/-- Tickets that were handed out are in the log. -/
theorem sublist_assigned (h : Coordinated s) {t : Nat} (hpos : 0 < t)
    (hle : t ≤ s.inner.nextTicket) : [assigned t].Sublist s.log :=
  singleton_sublist.mpr ((h.tickets t).mpr ⟨hpos, hle⟩)

/-- Logging an event that hands out no ticket keeps what the log says of tickets. -/
theorem tickets_concat (h : Coordinated s) {e : GroupEvent τ} (he : ∀ t, e ≠ assigned t) (t : Nat) :
    assigned t ∈ s.log ++ [e] ↔ 0 < t ∧ t ≤ s.inner.nextTicket := by
  rw [mem_append, mem_singleton, ← h.tickets t]
  exact or_iff_left fun heq => he t heq.symm

/-- Logging an event keeps the acknowledgements; one that is itself an acknowledgement is to
    be covered by the log before it. -/
theorem acked_concat (h : Coordinated s) {e : GroupEvent τ}
    (he : ∀ i t, e = returned i t (.ok ()) → 0 < t → FlushedSince s.log t) :
    ∀ pre i t post, s.log ++ [e] = pre ++ returned i t (.ok ()) :: post → 0 < t →
      FlushedSince pre t := by
  intro pre i t post heq hpos
  rcases eq_nil_or_concat post with rfl | ⟨post, last, rfl⟩
  · obtain ⟨rfl, hlast⟩ := append_inj' heq rfl
    exact he i t (singleton_inj.mp hlast) hpos
  · rw [concat_eq_append, ← cons_append, ← append_assoc] at heq
    exact h.acked pre i t post (append_inj' heq rfl).1 hpos

/-- Nobody leads while no flush runs. -/
theorem leads_eq_none (h : Coordinated s) (hs : s.inner.syncing = false) (i : τ) :
    (s.threads i).leads = none := by
  cases hlead : (s.threads i).leads with
  | none => rfl
  | some p =>
    have hsync := h.syncing i (by rw [hlead]; rfl)
    rw [hs] at hsync
    cases hsync

/-- Logging an event that hands out no ticket and acknowledges none wrongly. -/
theorem log (h : Coordinated s) {e : GroupEvent τ} (hticket : ∀ t, e ≠ assigned t)
    (hret : ∀ i t, e = returned i t (.ok ()) → 0 < t → FlushedSince s.log t) :
    Coordinated { s with log := s.log ++ [e] } := by
  refine ⟨h.tickets_concat hticket, h.durable_le, fun t hpos hle => (h.durable t hpos hle).append _,
    h.acked_concat hret, h.syncing, h.unique, fun j ticket covered hj => ?_⟩
  obtain ⟨hlt, hle, htrace⟩ := h.leader j ticket covered hj
  exact ⟨hlt, hle, fun t hpos ht => (htrace t hpos ht).trans (sublist_append_left _ _)⟩

/-- The next ticket is handed out. -/
theorem assign (h : Coordinated s) :
    Coordinated { s with
      inner := s.inner.assign.1
      log := s.log ++ [assigned s.inner.assign.2] } := by
  have hacked := h.acked_concat (e := assigned s.inner.assign.2) fun i t heq => by cases heq
  refine ⟨fun t => ?_, Nat.le_succ_of_le h.durable_le,
    fun t hpos hle => (h.durable t hpos hle).append _, hacked, h.syncing, h.unique,
    fun j ticket covered hj => ?_⟩
  · have hold := h.tickets t
    change assigned t ∈ s.log ++ [assigned (s.inner.nextTicket + 1)] ↔
      0 < t ∧ t ≤ s.inner.nextTicket + 1
    rw [mem_append, mem_singleton, hold, GroupEvent.assigned.injEq]
    omega
  · obtain ⟨hlt, hle, htrace⟩ := h.leader j ticket covered hj
    exact ⟨hlt, Nat.le_succ_of_le hle,
      fun t hpos ht => (htrace t hpos ht).trans (sublist_append_left _ _)⟩

variable [DecidableEq τ] {i : τ}

/-- A thread that does not lead goes elsewhere without leading. -/
theorem move (h : Coordinated s) {thread : Thread} (hnew : thread.leads = none) :
    Coordinated { s with threads := Function.update s.threads i thread } := by
  have hold : ∀ j p, (Function.update s.threads i thread j).leads = some p →
      j ≠ i ∧ Function.update s.threads i thread j = s.threads j := by
    intro j p hj
    by_cases hji : j = i
    · subst hji
      rw [Function.update_self, hnew] at hj
      cases hj
    · exact ⟨hji, Function.update_of_ne hji _ _⟩
  refine ⟨h.tickets, h.durable_le, h.durable, h.acked, fun j hj => ?_, fun j k hj hk => ?_,
    fun j ticket covered hj => ?_⟩
  · obtain ⟨p, hp⟩ := Option.isSome_iff_exists.mp hj
    obtain ⟨-, heq⟩ := hold j p hp
    exact h.syncing j (heq ▸ hj)
  · obtain ⟨p, hp⟩ := Option.isSome_iff_exists.mp hj
    obtain ⟨q, hq⟩ := Option.isSome_iff_exists.mp hk
    exact h.unique j k ((hold j p hp).2 ▸ hj) ((hold k q hq).2 ▸ hk)
  · obtain ⟨-, heq⟩ := hold j _ hj
    simp only [heq] at hj ⊢
    exact h.leader j ticket covered hj

/-- **A turn of the loop.** -/
theorem take (h : Coordinated s) {ticket : Nat} {led : Bool}
    (hi : s.threads i = .waiting ticket led) : Coordinated (s.take i ticket led s.inner) := by
  rw [GroupState.take, GroupInner.turn]
  split_ifs with hdurable hsync hled
  · -- the ticket is durable
    have hlog : Coordinated { s with log := s.log ++ [returned i ticket (.ok ())] } := by
      refine h.log (fun t heq => by cases heq) fun j t heq hpos => ?_
      cases heq
      exact h.durable _ hpos hdurable
    exact hlog.move rfl
  · exact h.move rfl
  · have hlog : Coordinated { s with log := s.log ++
        [returned i ticket (.error (s.inner.lastError.getD "durability failed"))] } :=
      h.log (fun t heq => by cases heq) fun j t heq _ => by cases heq
    exact hlog.move rfl
  · -- the thread leads: nobody else does
    have hnone := h.leads_eq_none (Bool.not_eq_true _ ▸ hsync)
    have hself : ∀ j p,
        (Function.update s.threads i (.leading ticket s.inner.nextTicket) j).leads = some p →
          j = i ∧ p = (ticket, s.inner.nextTicket) := by
      intro j p hj
      by_cases hji : j = i
      · subst hji
        rw [Function.update_self] at hj
        exact ⟨rfl, (Option.some.inj hj).symm⟩
      · rw [Function.update_of_ne hji, hnone] at hj
        cases hj
    refine ⟨h.tickets, h.durable_le, h.durable, h.acked, fun _ _ => rfl, fun j k hj hk => ?_,
      fun j t covered hj => ?_⟩
    · obtain ⟨p, hp⟩ := Option.isSome_iff_exists.mp hj
      obtain ⟨q, hq⟩ := Option.isSome_iff_exists.mp hk
      exact (hself j p hp).1.trans (hself k q hq).1.symm
    · obtain ⟨rfl, hp⟩ := hself j _ hj
      cases hp
      refine ⟨Nat.lt_of_not_le hdurable, le_rfl, fun t hpos ht => ?_⟩
      change (Thread.trace t (Function.update s.threads j _ j)).Sublist s.log
      rw [Function.update_self]
      exact h.sublist_assigned hpos ht

/-- A leader goes on to its next stage. -/
theorem advance (h : Coordinated s) {thread : Thread} {e : GroupEvent τ}
    (hleads : thread.leads = (s.threads i).leads) (hlead : (s.threads i).leads.isSome)
    (hticket : ∀ t, e ≠ assigned t) (hret : ∀ i t, e ≠ returned i t (.ok ()))
    (htrace : ∀ t, thread.trace t = (s.threads i).trace t ++ [e]) (flushes : Nat) :
    Coordinated ⟨s.inner, Function.update s.threads i thread, flushes, s.log ++ [e]⟩ := by
  have hsame : ∀ j, (Function.update s.threads i thread j).leads = (s.threads j).leads := by
    intro j
    by_cases hji : j = i
    · subst hji
      rw [Function.update_self, hleads]
    · rw [Function.update_of_ne hji]
  refine ⟨h.tickets_concat hticket, h.durable_le,
    fun t hpos hle => (h.durable t hpos hle).append _,
    h.acked_concat fun j t heq => absurd heq (hret j t), fun j hj => h.syncing j (hsame j ▸ hj),
    fun j k hj hk => h.unique j k (hsame j ▸ hj) (hsame k ▸ hk), fun j ticket covered hj => ?_⟩
  simp only [hsame] at hj
  obtain ⟨hlt, hle, hsub⟩ := h.leader j ticket covered hj
  -- `i` is the leader
  have hji : j = i := h.unique j i (by rw [hj]; rfl) hlead
  subst hji
  refine ⟨hlt, hle, fun t hpos ht => ?_⟩
  change (Thread.trace t (Function.update s.threads j thread j)).Sublist (s.log ++ [e])
  rw [Function.update_self, htrace]
  exact (hsub t hpos ht).append (List.Sublist.refl _)

/-- The leader has the lock again, before it goes on with the loop. -/
theorem flushed (h : Coordinated s) {ticket covered flush : Nat} {outcome : Except String Unit}
    (hi : s.threads i = .flushed ticket covered flush outcome) :
    Coordinated { s with
      inner := s.inner.flushed covered outcome
      threads := Function.update s.threads i (.waiting ticket true) } := by
  have hlead : (s.threads i).leads = some (ticket, covered) := by rw [hi]; rfl
  obtain ⟨-, hcovered, htrace⟩ := h.leader i ticket covered hlead
  have hnone : ∀ j, (Function.update s.threads i (.waiting ticket true) j).leads = none := by
    intro j
    by_cases hji : j = i
    · subst hji
      rw [Function.update_self]
      rfl
    · rw [Function.update_of_ne hji]
      cases hj : (s.threads j).leads with
      | none => rfl
      | some p =>
        exact absurd (h.unique j i (by rw [hj]; rfl) (by rw [hlead]; rfl)) hji
  have hnobody : ∀ j, ¬(Function.update s.threads i (.waiting ticket true) j).leads.isSome := by
    intro j
    rw [hnone]
    exact Bool.false_ne_true
  have hrest : ∀ j t c, (Function.update s.threads i (.waiting ticket true) j).leads ≠ some (t, c) := by
    intro j t c
    rw [hnone]
    exact fun heq => by cases heq
  cases outcome with
  | error e =>
    exact ⟨h.tickets, h.durable_le, h.durable, h.acked, fun j hj => absurd hj (hnobody j),
      fun j k hj => absurd hj (hnobody j), fun j t c hj => absurd hj (hrest j t c)⟩
  | ok _ =>
    refine ⟨h.tickets, Nat.max_le.mpr ⟨h.durable_le, hcovered⟩, fun t hpos ht => ?_, h.acked,
      fun j hj => absurd hj (hnobody j), fun j k hj => absurd hj (hnobody j),
      fun j t c hj => absurd hj (hrest j t c)⟩
    by_cases hold : t ≤ s.inner.durable
    · exact h.durable t hpos hold
    · have ht' : t ≤ max s.inner.durable covered := ht
      have hsub := htrace t hpos (by omega)
      rw [hi] at hsub
      exact ⟨flush, hsub⟩

end Coordinated

variable [DecidableEq τ]

/-- A turn does not see where its thread stood. -/
theorem take_update (s : GroupState τ) (i : τ) (thread : Thread) (ticket : Nat) (led : Bool)
    (g : GroupInner) :
    GroupState.take { s with inner := g, threads := Function.update s.threads i thread } i ticket
      led g = s.take i ticket led g := by
  simp only [GroupState.take, Function.update_idem]

/-- **Step lemma.** -/
theorem Coordinated.step {s s' : GroupState τ} {a : GroupAction τ} (h : Coordinated s)
    (hstep : groupStep s a = some s') : Coordinated s' := by
  cases a with
  | assign i =>
    simp only [groupStep] at hstep
    split at hstep
    · cases hstep
      exact h.assign
    · cases hstep
  | await i ticket =>
    simp only [groupStep] at hstep
    split at hstep
    · cases hstep
      exact h.move rfl
    · cases hstep
  | turn i =>
    simp only [groupStep] at hstep
    split at hstep
    · rename_i ticket led hi
      cases hstep
      exact h.take hi
    · cases hstep
  | beginFlush i =>
    simp only [groupStep] at hstep
    split at hstep
    · rename_i ticket covered hi
      cases hstep
      refine h.advance ?_ ?_ (fun t heq => by cases heq) (fun j t heq => by cases heq) ?_ _
      · rw [hi]; rfl
      · rw [hi]; rfl
      · intro t; rw [hi]; rfl
    · cases hstep
  | endFlush i outcome =>
    simp only [groupStep] at hstep
    split at hstep
    · rename_i ticket covered flush hi
      cases hstep
      refine h.advance ?_ ?_ (fun t heq => by cases heq) (fun j t heq => by cases heq) ?_ _
      · rw [hi]; rfl
      · rw [hi]; rfl
      · intro t; rw [hi]; rfl
    · cases hstep
  | relock i =>
    simp only [groupStep] at hstep
    split at hstep
    · rename_i ticket covered flush outcome hi
      cases hstep
      have htake := (h.flushed hi).take (Function.update_self _ _ _)
      exact take_update s i _ ticket true _ ▸ htake
    · cases hstep

theorem coordinated_of_reachable {s : GroupState τ} (hs : (groupCommit τ).Reachable s) :
    Coordinated s := by
  refine System.invariant (I := Coordinated) ⟨?_, le_rfl, ?_, ?_, ?_, ?_, ?_⟩
    (fun s a s' hi hst => hi.step hst) s hs
  · intro t
    simp only [groupCommit, GroupInner.new, not_mem_nil, false_iff]
    omega
  · intro t hpos hle
    simp only [groupCommit, GroupInner.new] at hle
    omega
  · intro pre i t post heq
    simp [groupCommit] at heq
  · intro i hi
    cases hi
  · intro i j hi
    cases hi
  · intro i t c hi
    cases hi

/-! ### What callers are told -/

theorem GroupInner.durable_turn (g : GroupInner) (ticket : Nat) (led : Bool) :
    (g.turn ticket led).1.durable = g.durable := by
  rw [GroupInner.turn]
  split_ifs <;> rfl

theorem take_durable (s : GroupState τ) (i : τ) (ticket : Nat) (led : Bool) (g : GroupInner) :
    (s.take i ticket led g).inner.durable = g.durable := by
  have hturn := g.durable_turn ticket led
  rw [GroupState.take]
  split <;> rename_i heq <;> rw [heq] at hturn <;> exact hturn

/-- A step does not take durability back. -/
theorem durable_le_step {s s' : GroupState τ} {a : GroupAction τ}
    (hstep : groupStep s a = some s') : s.inner.durable ≤ s'.inner.durable := by
  cases a with
  | relock i =>
    simp only [groupStep] at hstep
    split at hstep
    · rename_i ticket covered flush outcome hi
      cases hstep
      rw [take_durable]
      cases outcome with
      | error e => exact le_rfl
      | ok _ => exact Nat.le_max_left _ _
    · cases hstep
  | turn i =>
    simp only [groupStep] at hstep
    split at hstep
    · cases hstep
      exact (take_durable _ _ _ _ _).ge
    · cases hstep
  | _ =>
    simp only [groupStep] at hstep
    split at hstep <;> cases hstep
    exact le_rfl

/-- **A failed flush is reported.** The leader gets its error, and nothing is marked durable. -/
theorem Coordinated.relock_failed {s : GroupState τ} (h : Coordinated s) {i : τ}
    {ticket covered flush : Nat} {e : String}
    (hi : s.threads i = .flushed ticket covered flush (.error e)) :
    ∃ s', groupStep s (.relock i) = some s' ∧ s'.inner.durable = s.inner.durable ∧
      s'.log = s.log ++ [returned i ticket (.error e)] := by
  obtain ⟨hlt, -, -⟩ := h.leader i ticket covered (by rw [hi]; rfl)
  have hturn : (s.inner.flushed covered (.error e)).turn ticket true
      = (s.inner.flushed covered (.error e), .ret (.error e)) := by
    have hnot : ¬ ticket ≤ (s.inner.flushed covered (.error e)).durable := Nat.not_le.mpr hlt
    rw [GroupInner.turn, if_neg hnot]
    rfl
  refine ⟨s.take i ticket true (s.inner.flushed covered (.error e)), ?_, ?_, ?_⟩
  · simp only [groupStep, hi]
  · rw [take_durable]
    rfl
  · simp only [GroupState.take, hturn]

/-- What the coordinator promises in a state. -/
structure Acknowledges (s : GroupState τ) : Prop where
  /-- Tickets are handed out from 1 to `nextTicket`. -/
  tickets : ∀ t, assigned t ∈ s.log ↔ 0 < t ∧ t ≤ s.inner.nextTicket
  /-- A call that returned `Ok` for a ticket had a flush before it that began after the ticket
      was handed out and that succeeded. -/
  acked : ∀ pre i t post, s.log = pre ++ returned i t (.ok ()) :: post → 0 < t →
    FlushedSince pre t
  /-- A thread whose flush failed returns its error, and marks nothing durable. -/
  failed : ∀ i ticket covered flush e, s.threads i = .flushed ticket covered flush (.error e) →
    ∃ s', (groupCommit τ).step s (.relock i) = some s' ∧ s'.inner.durable = s.inner.durable ∧
      s'.log = s.log ++ [returned i ticket (.error e)]
  monotone : ∀ a s', (groupCommit τ).step s a = some s' → s.inner.durable ≤ s'.inner.durable
  durable_le : s.inner.durable ≤ s.inner.nextTicket

/-- **Group commit acknowledges durable writes only**, in every state any number of threads
    reach with flushes that succeed or fail. -/
theorem acknowledges_durable {s : GroupState τ} (hs : (groupCommit τ).Reachable s) :
    Acknowledges s := by
  have h := coordinated_of_reachable hs
  exact ⟨h.tickets, h.acked, fun i ticket covered flush e hi => h.relock_failed hi,
    fun a s' hstep => durable_le_step hstep, h.durable_le⟩

end Proofs

/-- Two commits on one flush: the second ticket is handed out before the leader looks. -/
def sharedFlush : List (GroupAction Nat) :=
  [.assign 0, .assign 1, .await 0 1, .await 1 2, .turn 0, .turn 1, .beginFlush 0,
    .endFlush 0 (.ok ()), .relock 0, .turn 1]

theorem acknowledges_durable_shared :
    ∃ s, Acknowledges s ∧ s.log = [assigned 1, assigned 2, began 0, ended 0 (.ok ()),
      returned 0 1 (.ok ()), returned 1 2 (.ok ())] := by
  obtain ⟨s, hrun, hlog⟩ : ∃ s, (groupCommit Nat).run (groupCommit Nat).init sharedFlush = some s ∧
      s.log = [assigned 1, assigned 2, began 0, ended 0 (.ok ()), returned 0 1 (.ok ()),
        returned 1 2 (.ok ())] := ⟨_, rfl, rfl⟩
  exact ⟨s, acknowledges_durable (System.reachable_of_run hrun), hlog⟩

end Alt.Server
