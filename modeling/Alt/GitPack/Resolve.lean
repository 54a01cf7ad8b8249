import Alt.GitPack.Entry

namespace Alt.GitPack

open Alt.Library List

/-!
# Resolving deltas (`alt-git-pack/src/index_pack.rs`, 274–355)

`resolveAll` resolves the plain entries, then goes over the others in waves until nothing waits, or
nothing moves.  A delta against an id finds its base by hashing what is resolved so far.

* `Denotes` — what an entry stands for, by recursion on its chain of bases;
* `Resolves` — what a wave keeps: what is resolved is what the entry stands for.
-/

/-- Resolved kind and data of one entry. -/
structure Resolved where
  kind : ObjectKind
  data : Bytes
  deriving DecidableEq

/-- The id of an object. -/
def Resolved.oid (P : Prims) (algo : HashAlgo) (r : Resolved) : ObjectId :=
  ObjectId.hashObject P algo r.kind r.data

variable (P : Prims) (entries : List RawEntry)

/-! ### The waves -/

/-- `by_offset`: the last entry at an offset. -/
def byOffset (offset : Nat) : Option Nat :=
  (entries.zipIdx.reverse.find? fun p => p.1.offset = offset).map Prod.snd

/-- The first resolved entry with an id. -/
def findBase (resolved : List (Option Resolved)) (base : ObjectId) : Option Nat :=
  resolved.findIdx? fun r => r.any fun res => res.oid P base.algo = base

/-- What a wave does with an entry. -/
inductive Move
  | settled
  | waits
  | resolves (r : Resolved)

/-- An entry against the base of number `j`. -/
def applyAt (resolved : List (Option Resolved)) (e : RawEntry) (j : Nat) : Except Fault Move :=
  match resolved[j]? with
  | none => .error .panicked
  | some none => .ok .waits
  | some (some base) =>
    match apply base.data e.payload with
    | .error err => .error (.failed err)
    | .ok data => .ok (.resolves ⟨base.kind, data⟩)

/-- The body of the loop, for the entry of number `i`. -/
def moveOf (resolved : List (Option Resolved)) (e : RawEntry) (i : Nat) : Except Fault Move :=
  match resolved[i]? with
  | none => .error .panicked
  | some (some _) => .ok .settled
  | some none =>
    match e.kind with
    | .plain _ => .error .panicked
    | .ofsDelta baseAt =>
      match byOffset entries baseAt with
      | none => format "ofs-delta base offset not found"
      | some j => applyAt resolved e j
    | .refDelta base =>
      match findBase P resolved base with
      | none => .ok .waits
      | some j => applyAt resolved e j

/-- The table, and the flags of a wave. -/
structure Wave where
  resolved : List (Option Resolved)
  progressed : Bool
  stillUnresolved : Bool

/-- A wave over some of the entries. -/
def runWave : List (RawEntry × Nat) → Wave → Except Fault Wave
  | [], w => .ok w
  | (e, i) :: rest, w =>
    match moveOf P entries w.resolved e i with
    | .error f => .error f
    | .ok .settled => runWave rest w
    | .ok .waits => runWave rest { w with stillUnresolved := true }
    | .ok (.resolves r) =>
      runWave rest { w with resolved := w.resolved.set i (some r), progressed := true }

/-- How many entries are unresolved. -/
def missing (resolved : List (Option Resolved)) : Nat := resolved.countP Option.isNone

variable {P entries}

variable {e : RawEntry} {i : Nat} {r : Resolved}

theorem unresolved_of_moveOf {resolved : List (Option Resolved)}
    (h : moveOf P entries resolved e i = .ok (.resolves r)) : resolved[i]? = some none := by
  rw [moveOf] at h
  split at h
  · cases h
  · cases h
  · assumption

theorem missing_set {resolved : List (Option Resolved)} (h : resolved[i]? = some none)
    (r : Resolved) : missing resolved = missing (resolved.set i (some r)) + 1 := by
  induction resolved generalizing i with
  | nil => cases h
  | cons entry resolved ih =>
    cases i with
    | zero =>
      obtain rfl := Option.some.inj h
      simp [missing]
    | succ i =>
      have hrest := ih (i := i) h
      simp only [missing] at hrest ⊢
      rw [set_cons_succ, countP_cons, countP_cons, hrest, Nat.add_right_comm]

variable {rest : List (RawEntry × Nat)} {w w' : Wave}

/-- **A wave makes progress** where it says so. -/
theorem missing_runWave (h : runWave P entries rest w = .ok w') :
    missing w'.resolved ≤ missing w.resolved ∧
      (w'.progressed = true → w.progressed = true ∨ missing w'.resolved < missing w.resolved) := by
  induction rest generalizing w with
  | nil =>
    cases h
    exact ⟨Nat.le_refl _, .inl⟩
  | cons p rest ih =>
    obtain ⟨e, i⟩ := p
    rw [runWave] at h
    split at h
    · cases h
    · exact ih h
    · have hrest := ih h
      exact hrest
    · rename_i r hmove
      have hless := missing_set (unresolved_of_moveOf hmove) r
      have hrest := (ih h).1
      dsimp only at hrest
      exact ⟨by omega, fun _ => .inr (by omega)⟩

variable (P entries)

/-- `r.expect("all entries resolved")`, for every entry. -/
def allResolved : List (Option Resolved) → Except Fault (List Resolved)
  | [] => .ok []
  | none :: _ => .error .panicked
  | some r :: rest => (allResolved rest).map (r :: ·)

/-- Wave after wave. -/
def resolveLoop (resolved : List (Option Resolved)) : Except Fault (List Resolved) :=
  match _h : runWave P entries entries.zipIdx ⟨resolved, false, false⟩ with
  | .error f => .error f
  | .ok w =>
    if !w.stillUnresolved then allResolved w.resolved
    else if _hp : w.progressed = true then resolveLoop w.resolved
    else format "delta resolution stuck (ref-delta base missing or cycle)"
termination_by missing resolved
decreasing_by
  rcases (missing_runWave ‹_›).2 ‹_› with hfalse | hless
  · cases hfalse
  · exact hless

/-- The plain entries. -/
def plainResolved : List (Option Resolved) :=
  entries.map fun e =>
    match e.kind with
    | .plain kind => some ⟨kind, e.payload⟩
    | _ => none

def resolveAll : Except Fault (List Resolved) := resolveLoop P entries (plainResolved entries)

/-! ### What an entry stands for -/

/-- The object of an entry: of a plain one its own, of a delta what the delta makes of the object of
    its base. -/
inductive Denotes : Nat → Resolved → Prop
  | plain {i : Nat} {e : RawEntry} {kind : ObjectKind} (he : entries[i]? = some e)
      (hkind : e.kind = .plain kind) : Denotes i ⟨kind, e.payload⟩
  | ofs {i j : Nat} {e b : RawEntry} {baseAt : Nat} {base : Resolved} {data : Bytes}
      (he : entries[i]? = some e) (hkind : e.kind = .ofsDelta baseAt) (hb : entries[j]? = some b)
      (hat : b.offset = baseAt) (hbase : Denotes j base) (hdata : apply base.data e.payload = .ok data) :
      Denotes i ⟨base.kind, data⟩
  | ref {i j : Nat} {e : RawEntry} {id : ObjectId} {base : Resolved} {data : Bytes}
      (he : entries[i]? = some e) (hkind : e.kind = .refDelta id) (hbase : Denotes j base)
      (hid : base.oid P id.algo = id) (hdata : apply base.data e.payload = .ok data) :
      Denotes i ⟨base.kind, data⟩

/-- No two objects of the pack have an id that is the base of a delta. -/
def NoCollision : Prop :=
  ∀ (i : Nat) (e : RawEntry) (id : ObjectId), entries[i]? = some e → e.kind = .refDelta id → ∀ j k r s,
    Denotes P entries j r → Denotes P entries k s → r.oid P id.algo = id → s.oid P id.algo = id → r = s

variable {P entries}

variable {j : Nat}

theorem getElem_of_byOffset {offset : Nat} (h : byOffset entries offset = some j) :
    ∃ e, entries[j]? = some e ∧ e.offset = offset := by
  obtain ⟨p, hp, rfl⟩ := Option.map_eq_some_iff.mp h
  have hmem := mem_reverse.mp (mem_of_find?_eq_some hp)
  have hoffset := find?_some hp
  exact ⟨p.1, (mem_zipIdx_iff_getElem?).mp hmem, by simpa using hoffset⟩

/-- Where the offsets differ, an entry is found by its own. -/
theorem byOffset_of_getElem (hoffsets : (entries.map RawEntry.offset).Nodup)
    (h : entries[j]? = some e) : byOffset entries e.offset = some j := by
  have hmem : (e, j) ∈ entries.zipIdx.reverse :=
    mem_reverse.mpr (mem_zipIdx_iff_getElem?.mpr h)
  cases hfind : byOffset entries e.offset with
  | none =>
    rw [byOffset, Option.map_eq_none_iff, find?_eq_none] at hfind
    exact absurd (decide_eq_true rfl) (hfind _ hmem)
  | some k =>
    obtain ⟨e', he', hoffset⟩ := getElem_of_byOffset hfind
    have hlt := (List.getElem?_eq_some_iff.mp he').1
    have hmap : (entries.map RawEntry.offset)[k]? = (entries.map RawEntry.offset)[j]? := by
      rw [getElem?_map, getElem?_map, he', h, Option.map_some, Option.map_some, hoffset]
    rw [(getElem?_inj (by simpa using hlt) hoffsets).mp hmap]

theorem Denotes.lt_length (h : Denotes P entries i r) : i < entries.length := by
  cases h with
  | plain he => exact (List.getElem?_eq_some_iff.mp he).1
  | ofs he => exact (List.getElem?_eq_some_iff.mp he).1
  | ref he => exact (List.getElem?_eq_some_iff.mp he).1

theorem Denotes.of_plain {kind : ObjectKind} (h : Denotes P entries i r)
    (he : entries[i]? = some e) (hkind : e.kind = .plain kind) :
    r = ⟨kind, e.payload⟩ := by
  cases h with
  | plain he' hkind' =>
    obtain rfl := Option.some.inj (he.symm.trans he')
    cases hkind.symm.trans hkind'
    rfl
  | ofs he' hkind' =>
    obtain rfl := Option.some.inj (he.symm.trans he')
    cases hkind.symm.trans hkind'
  | ref he' hkind' =>
    obtain rfl := Option.some.inj (he.symm.trans he')
    cases hkind.symm.trans hkind'

theorem Denotes.of_ofs {baseAt : Nat} (h : Denotes P entries i r) (he : entries[i]? = some e)
    (hkind : e.kind = .ofsDelta baseAt) :
    ∃ j b base, entries[j]? = some b ∧ b.offset = baseAt ∧ Denotes P entries j base ∧
      apply base.data e.payload = .ok r.data ∧ r.kind = base.kind := by
  cases h with
  | plain he' hkind' =>
    obtain rfl := Option.some.inj (he.symm.trans he')
    cases hkind.symm.trans hkind'
  | ofs he' hkind' hb hat hbase hdata =>
    obtain rfl := Option.some.inj (he.symm.trans he')
    cases hkind.symm.trans hkind'
    exact ⟨_, _, _, hb, hat, hbase, hdata, rfl⟩
  | ref he' hkind' =>
    obtain rfl := Option.some.inj (he.symm.trans he')
    cases hkind.symm.trans hkind'

theorem Denotes.of_ref {id : ObjectId} (h : Denotes P entries i r) (he : entries[i]? = some e)
    (hkind : e.kind = .refDelta id) :
    ∃ j base, Denotes P entries j base ∧ base.oid P id.algo = id ∧
      apply base.data e.payload = .ok r.data ∧ r.kind = base.kind := by
  cases h with
  | plain he' hkind' =>
    obtain rfl := Option.some.inj (he.symm.trans he')
    cases hkind.symm.trans hkind'
  | ofs he' hkind' =>
    obtain rfl := Option.some.inj (he.symm.trans he')
    cases hkind.symm.trans hkind'
  | ref he' hkind' hbase hid hdata =>
    obtain rfl := Option.some.inj (he.symm.trans he')
    cases hkind.symm.trans hkind'
    exact ⟨_, _, hbase, hid, hdata, rfl⟩

variable {s : Resolved}

/-- Two results of one delta on one base. -/
theorem Resolved.eq_of_apply {base : Resolved} {delta : Bytes}
    (hr : apply base.data delta = .ok r.data) (hs : apply base.data delta = .ok s.data)
    (hkr : r.kind = base.kind) (hks : s.kind = base.kind) :
    r = s := by
  have hdata : r.data = s.data := Except.ok.inj (hr.symm.trans hs)
  cases r
  cases s
  cases hdata
  cases hkr
  cases hks
  rfl

/-- With no collision an entry stands for one object. -/
theorem Denotes.unique (hoffsets : (entries.map RawEntry.offset).Nodup)
    (hid : NoCollision P entries) (hr : Denotes P entries i r) (hs : Denotes P entries i s) :
    r = s := by
  induction hr generalizing s with
  | plain he hkind => exact (hs.of_plain he hkind).symm
  | ofs he hkind hb hat hbase hdata ih =>
    obtain ⟨j', b', base', hb', hat', hbase', hdata', hkind'⟩ := hs.of_ofs he hkind
    have hj := byOffset_of_getElem hoffsets hb
    have hj' := byOffset_of_getElem hoffsets hb'
    rw [hat] at hj
    rw [hat', hj] at hj'
    cases hj'
    obtain rfl := ih hbase'
    exact Resolved.eq_of_apply (r := ⟨_, _⟩) hdata hdata' rfl hkind'
  | ref he hkind hbase hsame hdata _ =>
    obtain ⟨j', base', hbase', hsame', hdata', hkind'⟩ := hs.of_ref he hkind
    obtain rfl := hid _ _ _ he hkind _ _ _ _ hbase hbase' hsame hsame'
    exact Resolved.eq_of_apply (r := ⟨_, _⟩) hdata hdata' rfl hkind'

/-! ### What a wave keeps -/

variable (P entries) in
/-- What is resolved is what the entry stands for; the plain entries are. -/
structure Resolves (resolved : List (Option Resolved)) : Prop where
  length : resolved.length = entries.length
  denotes : ∀ (i : Nat) (r : Resolved), resolved[i]? = some (some r) → Denotes P entries i r
  plain : ∀ (i : Nat) (e : RawEntry) (kind : ObjectKind), entries[i]? = some e → e.kind = .plain kind →
    ∃ r, resolved[i]? = some (some r)

variable {resolved : List (Option Resolved)}

theorem resolves_plain : Resolves P entries (plainResolved entries) where
  length := by rw [plainResolved, length_map]
  denotes i r h := by
    rw [plainResolved, getElem?_map] at h
    obtain ⟨e, he, hr⟩ := Option.map_eq_some_iff.mp h
    split at hr
    · rename_i kind hkind
      cases hr
      exact .plain he hkind
    · cases hr
  plain i e kind he hkind := by
    refine ⟨⟨kind, e.payload⟩, ?_⟩
    rw [plainResolved, getElem?_map, he, Option.map_some, hkind]

theorem findBase_spec {base : ObjectId} (h : findBase P resolved base = some j) :
    ∃ r, resolved[j]? = some (some r) ∧ r.oid P base.algo = base := by
  obtain ⟨hj, hr, -⟩ := findIdx?_eq_some_iff_getElem.mp h
  obtain ⟨r, hsome, hoid⟩ := (Option.any_eq_true _ _).mp hr
  exact ⟨r, by rw [getElem?_eq_getElem hj, hsome], of_decide_eq_true hoid⟩

/-- A resolved entry with the id is found, or one before it. -/
theorem exists_findBase {base : ObjectId} (hr : resolved[j]? = some (some r))
    (hoid : r.oid P base.algo = base) : ∃ k, findBase P resolved base = some k := by
  cases hfind : findBase P resolved base with
  | some k => exact ⟨k, rfl⟩
  | none =>
    have hmem : some r ∈ resolved := mem_of_getElem? hr
    have hnone := findIdx?_eq_none_iff.mp hfind _ hmem
    exact absurd (decide_eq_true hoid) (by simpa using hnone)

/-- What a delta becomes, by the base that was found. -/
theorem applyAt_resolves (h : applyAt resolved e j = .ok (.resolves r)) :
    ∃ base, resolved[j]? = some (some base) ∧ apply base.data e.payload = .ok r.data ∧ r.kind = base.kind := by
  rw [applyAt] at h
  split at h
  · cases h
  · cases h
  · rename_i base hbase
    split at h
    · cases h
    · rename_i data hdata
      cases h
      exact ⟨base, hbase, hdata, rfl⟩

/-- What an entry is resolved to is what it stands for. -/
theorem Resolves.denotes_of_moveOf (hw : Resolves P entries resolved) (he : entries[i]? = some e)
    (h : moveOf P entries resolved e i = .ok (.resolves r)) :
    Denotes P entries i r := by
  rw [moveOf, unresolved_of_moveOf h] at h
  dsimp only at h
  split at h
  · cases h
  · rename_i baseAt hkind
    split at h
    · cases h
    · rename_i j hj
      obtain ⟨b, hb, hat⟩ := getElem_of_byOffset hj
      obtain ⟨base, hbase, hdata, hk⟩ := applyAt_resolves h
      have hof := Denotes.ofs he hkind hb hat (hw.denotes j base hbase) hdata
      rwa [← hk] at hof
  · rename_i id hkind
    split at h
    · cases h
    · rename_i j hj
      obtain ⟨base', hbase', hid⟩ := findBase_spec hj
      obtain ⟨base, hbase, hdata, hk⟩ := applyAt_resolves h
      obtain rfl := Option.some.inj (Option.some.inj (hbase'.symm.trans hbase))
      have href := Denotes.ref he hkind (hw.denotes j base' hbase) hid hdata
      rwa [← hk] at href

theorem getElem_set_of_some (hi : resolved[i]? = some none) (hj : resolved[j]? = some (some s)) :
    (resolved.set i (some r))[j]? = some (some s) := by
  have hne : i ≠ j := by
    rintro rfl
    rw [hi] at hj
    cases hj
  rw [getElem?_set_ne hne, hj]

/-- **A step of a wave** keeps it. -/
theorem Resolves.set (hw : Resolves P entries resolved) (hi : resolved[i]? = some none)
    (hr : Denotes P entries i r) :
    Resolves P entries (resolved.set i (some r)) where
  length := by rw [length_set, hw.length]
  denotes j s hj := by
    by_cases hij : i = j
    · subst hij
      rw [getElem?_set_self (List.getElem?_eq_some_iff.mp hi).1] at hj
      cases hj
      exact hr
    · rw [getElem?_set_ne hij] at hj
      exact hw.denotes j s hj
  plain j e kind he hkind := by
    obtain ⟨s, hs⟩ := hw.plain j e kind he hkind
    exact ⟨s, getElem_set_of_some hi hs⟩

/-- **A wave** keeps it. -/
theorem Resolves.runWave (hw : Resolves P entries w.resolved)
    (hrest : ∀ p ∈ rest, entries[p.2]? = some p.1) (h : runWave P entries rest w = .ok w') :
    Resolves P entries w'.resolved := by
  induction rest generalizing w with
  | nil =>
    cases h
    exact hw
  | cons p rest ih =>
    obtain ⟨e, i⟩ := p
    have he := hrest _ mem_cons_self
    have hrest' := fun p hp => hrest p (mem_cons_of_mem _ hp)
    rw [GitPack.runWave] at h
    split at h
    · cases h
    · exact ih hw hrest' h
    · have hnext := ih (w := { w with stillUnresolved := true }) hw hrest' h
      exact hnext
    · rename_i r hmove
      exact ih (hw.set (unresolved_of_moveOf hmove) (hw.denotes_of_moveOf he hmove)) hrest' h

/-- What is resolved stays. -/
theorem kept_of_runWave (h : runWave P entries rest w = .ok w')
    (hj : w.resolved[j]? = some (some s)) : w'.resolved[j]? = some (some s) := by
  induction rest generalizing w with
  | nil =>
    cases h
    exact hj
  | cons p rest ih =>
    obtain ⟨e, i⟩ := p
    rw [runWave] at h
    split at h
    · cases h
    · exact ih h hj
    · exact ih h hj
    · rename_i r hmove
      exact ih h (getElem_set_of_some (unresolved_of_moveOf hmove) hj)

theorem settled_of_moveOf (h : moveOf P entries resolved e i = .ok .settled) :
    ∃ r, resolved[i]? = some (some r) := by
  rw [moveOf] at h
  split at h
  · cases h
  · exact ⟨_, by assumption⟩
  · split at h
    · cases h
    · split at h
      · cases h
      · rw [applyAt] at h
        split at h
        · cases h
        · cases h
        · split at h <;> cases h
    · split at h
      · cases h
      · rw [applyAt] at h
        split at h
        · cases h
        · cases h
        · split at h <;> cases h

/-- A wave after which nothing waits has resolved its entries. -/
theorem done_of_runWave (h : runWave P entries rest w = .ok w')
    (hdone : w'.stillUnresolved = false) :
    w.stillUnresolved = false ∧ ∀ p ∈ rest, ∃ r, w'.resolved[p.2]? = some (some r) := by
  induction rest generalizing w with
  | nil =>
    cases h
    exact ⟨hdone, fun p hp => absurd hp not_mem_nil⟩
  | cons p rest ih =>
    obtain ⟨e, i⟩ := p
    rw [runWave] at h
    split at h
    · cases h
    · rename_i hmove
      obtain ⟨hnow, hrest⟩ := ih h
      obtain ⟨r, hr⟩ := settled_of_moveOf hmove
      exact ⟨hnow, forall_mem_cons.mpr ⟨⟨r, kept_of_runWave h hr⟩, hrest⟩⟩
    · obtain ⟨hnow, -⟩ := ih h
      cases hnow
    · rename_i r hmove
      obtain ⟨hnow, hrest⟩ := ih h
      have hi := (List.getElem?_eq_some_iff.mp (unresolved_of_moveOf hmove)).1
      exact ⟨hnow, forall_mem_cons.mpr
        ⟨⟨r, kept_of_runWave h (getElem?_set_self hi)⟩, hrest⟩⟩

/-- A wave that makes no progress moves no entry. -/
theorem stuck_of_runWave (h : runWave P entries rest w = .ok w') (hstuck : w'.progressed = false) :
    w.progressed = false ∧
      (∀ p ∈ rest, ∀ r, moveOf P entries w.resolved p.1 p.2 ≠ .ok (.resolves r)) ∧
      (w'.stillUnresolved = true → w.stillUnresolved = true ∨
        ∃ p ∈ rest, moveOf P entries w.resolved p.1 p.2 = .ok .waits) := by
  induction rest generalizing w with
  | nil =>
    cases h
    exact ⟨hstuck, fun p hp => absurd hp not_mem_nil, .inl⟩
  | cons p rest ih =>
    obtain ⟨e, i⟩ := p
    rw [runWave] at h
    split at h
    · cases h
    · rename_i hmove
      obtain ⟨hnow, hnone, hwaits⟩ := ih h
      refine ⟨hnow, forall_mem_cons.mpr ⟨fun r hr => ?_, hnone⟩, fun hstill => ?_⟩
      · cases hmove.symm.trans hr
      · rcases hwaits hstill with hold | ⟨p, hp, hwait⟩
        · exact .inl hold
        · exact .inr ⟨p, mem_cons_of_mem _ hp, hwait⟩
    · rename_i hmove
      obtain ⟨hnow, hnone, -⟩ := ih h
      refine ⟨hnow, forall_mem_cons.mpr ⟨fun r hr => ?_, hnone⟩, fun _ => ?_⟩
      · cases hmove.symm.trans hr
      · exact .inr ⟨_, mem_cons_self, hmove⟩
    · obtain ⟨hnow, -, -⟩ := ih h
      cases hnow

/-! ### No panic -/

theorem mem_zipIdx_entries : ∀ p ∈ entries.zipIdx, entries[p.2]? = some p.1 :=
  fun _ hp => mem_zipIdx_iff_getElem?.mp hp

/-- The table of a finished wave is full. -/
theorem allResolved_eq {rs : List Resolved} : allResolved (rs.map some) = .ok rs := by
  induction rs with
  | nil => rfl
  | cons r rs ih =>
    rw [map_cons, allResolved, ih]
    rfl

theorem exists_allResolved (h : ∀ i < resolved.length, ∃ r, resolved[i]? = some (some r)) :
    ∃ rs : List Resolved, resolved = rs.map some := by
  induction resolved with
  | nil => exact ⟨[], rfl⟩
  | cons entry resolved ih =>
    obtain ⟨r, hr⟩ := h 0 (Nat.zero_lt_succ _)
    obtain rfl := Option.some.inj hr
    obtain ⟨rs, rfl⟩ := ih fun i hi => h (i + 1) (Nat.succ_lt_succ hi)
    exact ⟨r :: rs, rfl⟩

/-- **The last wave** leaves a full table. -/
theorem Resolves.finished (hw : Resolves P entries w.resolved)
    (h : GitPack.runWave P entries entries.zipIdx w = .ok w') (hdone : w'.stillUnresolved = false) :
    ∃ rs, w'.resolved = rs.map some ∧ allResolved w'.resolved = .ok rs ∧ Resolves P entries (rs.map some) := by
  have hw' := hw.runWave mem_zipIdx_entries h
  have hfull : ∀ i < w'.resolved.length, ∃ r, w'.resolved[i]? = some (some r) := by
    intro i hi
    rw [hw'.length] at hi
    exact (done_of_runWave h hdone).2 (entries[i], i)
      (mem_zipIdx_iff_getElem?.mpr (getElem?_eq_getElem hi))
  obtain ⟨rs, hrs⟩ := exists_allResolved hfull
  exact ⟨rs, hrs, by rw [hrs, allResolved_eq], hrs ▸ hw'⟩

end Alt.GitPack
