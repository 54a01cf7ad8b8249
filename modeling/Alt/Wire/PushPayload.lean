import Alt.Wire.Push
import Mathlib.Data.List.Perm.Basic

namespace Alt.Wire

open Alt.Library List

/-!
# What a push signature binds

The signed payload is the update lines, sorted and joined.  A line ends at its newline, but
a ref name may hold one: the parser trims newlines at the end of a command only.

* `Accepted algo h` — some request parses to the head `h`;
* `EmbedsUpdate algo name` — behind a newline in the name, the text of two ids and spaces;
* `push_payload_binds` — requests whose names embed no update are bound up to order, nonce
  included; and every such request of two updates or more shares its payload with another
  accepted request, which packs all of them into one name.
-/

/-! ### Update lines -/

section Lines

variable {algo : HashAlgo}

/-- The two ids in front of a name. -/
def lineHead (algo : HashAlgo) (u : RefUpdate) : List Char :=
  (u.old.getD (ObjectId.zeroOid algo)).hexText ++ ' ' ::
    ((u.new.getD (ObjectId.zeroOid algo)).hexText ++ [' '])

theorem toList_updateLine (u : RefUpdate) :
    (updateLine algo u).toList = lineHead algo u ++ (u.name.toList ++ ['\n']) := by
  simp [updateLine, lineHead]

/-- What the parser makes of ids: of the repository's algorithm, and the all-zero id is no
    id. -/
structure WellFormed (algo : HashAlgo) (u : RefUpdate) : Prop where
  old : ∀ o, u.old = some o → o.algo = algo ∧ o ≠ ObjectId.zeroOid algo
  new : ∀ o, u.new = some o → o.algo = algo ∧ o ≠ ObjectId.zeroOid algo
  name : '\x00' ∉ u.name.toList

/-- The text starts like an update line. -/
def StartsUpdate (algo : HashAlgo) (l : List Char) : Prop :=
  ∃ old new rest, l = old ++ ' ' :: (new ++ ' ' :: rest) ∧
    old.length = algo.hexLen ∧ new.length = algo.hexLen ∧
    (∀ c ∈ old, IsHexDigit c) ∧ ∀ c ∈ new, IsHexDigit c

/-- Behind a newline, the name goes on like an update line. -/
def EmbedsUpdate (algo : HashAlgo) (name : String) : Prop :=
  ∃ front rest, name.toList = front ++ '\n' :: rest ∧ StartsUpdate algo rest

theorem algo_getD {o : Option ObjectId}
    (h : ∀ x, o = some x → x.algo = algo ∧ x ≠ ObjectId.zeroOid algo) :
    (o.getD (ObjectId.zeroOid algo)).algo = algo := by
  cases o with
  | none => exact ObjectId.algo_zeroOid algo
  | some x => exact (h x rfl).1

variable {u : RefUpdate}

theorem WellFormed.length_lineHead (h : WellFormed algo u) :
    (lineHead algo u).length = 2 * algo.hexLen + 2 := by
  simp only [lineHead, length_append, length_cons, length_nil,
    ObjectId.length_hexText, algo_getD h.old, algo_getD h.new]
  omega

theorem WellFormed.startsUpdate (h : WellFormed algo u) (rest : List Char) :
    StartsUpdate algo (lineHead algo u ++ rest) := by
  refine ⟨(u.old.getD (ObjectId.zeroOid algo)).hexText,
    (u.new.getD (ObjectId.zeroOid algo)).hexText, rest, by simp [lineHead], ?_, ?_,
    fun c hc => isHexDigit_of_mem hc, fun c hc => isHexDigit_of_mem hc⟩
  · rw [ObjectId.length_hexText, algo_getD h.old]
  · rw [ObjectId.length_hexText, algo_getD h.new]

theorem newline_not_mem_lineHead (u : RefUpdate) : '\n' ∉ lineHead algo u := by
  have hhex : ∀ o : ObjectId, '\n' ∉ o.hexText := fun o hmem => (isHexDigit_of_mem hmem).ne.2.1 rfl
  simp only [lineHead, mem_append, mem_cons, not_mem_nil, or_false, not_or]
  exact ⟨hhex _, by decide, hhex _, by decide⟩

/-- The ids in front give the ids of the update. -/
theorem getD_injective {o o' : Option ObjectId}
    (h : ∀ x, o = some x → x.algo = algo ∧ x ≠ ObjectId.zeroOid algo)
    (h' : ∀ x, o' = some x → x.algo = algo ∧ x ≠ ObjectId.zeroOid algo)
    (heq : o.getD (ObjectId.zeroOid algo) = o'.getD (ObjectId.zeroOid algo)) : o = o' := by
  cases o with
  | none =>
    cases o' with
    | none => rfl
    | some x => exact absurd heq.symm (h' x rfl).2
  | some x =>
    cases o' with
    | none => exact absurd heq (h x rfl).2
    | some y => exact congrArg some heq

theorem lineHead_injective {v : RefUpdate} (hu : WellFormed algo u) (hv : WellFormed algo v)
    (h : lineHead algo u = lineHead algo v) : u.old = v.old ∧ u.new = v.new := by
  unfold lineHead at h
  have hlen : (u.old.getD (ObjectId.zeroOid algo)).hexText.length
      = (v.old.getD (ObjectId.zeroOid algo)).hexText.length := by
    rw [ObjectId.length_hexText, ObjectId.length_hexText, algo_getD hu.old, algo_getD hv.old]
  obtain ⟨hold, hrest⟩ := append_inj h hlen
  have hnew := append_inj_left' (List.cons.inj hrest).2 rfl
  exact ⟨getD_injective hu.old hv.old (ObjectId.hexText_injective hold),
    getD_injective hu.new hv.new (ObjectId.hexText_injective hnew)⟩

/-- The joined lines of a list of updates. -/
def joined (algo : HashAlgo) (us : List RefUpdate) : List Char :=
  us.flatMap fun u => (updateLine algo u).toList

theorem joined_cons (u : RefUpdate) (us : List RefUpdate) :
    joined algo (u :: us) = lineHead algo u ++ (u.name.toList ++ '\n' :: joined algo us) := by
  simp [joined, toList_updateLine]

/-- A name cannot reach over its newline into the next line. -/
theorem embeds_of_split {name : String} {front b rest : List Char} {us : List RefUpdate}
    (hname : name.toList = front ++ '\n' :: b) (hus : ∀ u ∈ us, WellFormed algo u)
    (hjoin : joined algo us = b ++ '\n' :: rest) : EmbedsUpdate algo name := by
  refine ⟨front, b, hname, ?_⟩
  cases us with
  | nil => simp [joined] at hjoin
  | cons u us =>
    have hu := hus u mem_cons_self
    rw [joined_cons, append_eq_append_iff] at hjoin
    rcases hjoin with ⟨as, rfl, -⟩ | ⟨bs, hbs, hrest⟩
    · exact hu.startsUpdate as
    · -- the newline would fall into the ids of the next line
      cases bs with
      | nil =>
        rw [append_nil] at hbs
        rw [← hbs, ← append_nil (lineHead algo u)]
        exact hu.startsUpdate []
      | cons c cs =>
        cases hrest
        exact absurd (hbs ▸ mem_append_right b mem_cons_self)
          (newline_not_mem_lineHead u)

/-- **The lines can be told apart** when no name embeds an update. -/
theorem joined_injective {us vs : List RefUpdate} (hus : ∀ u ∈ us, WellFormed algo u)
    (hvs : ∀ v ∈ vs, WellFormed algo v) (hu : ∀ u ∈ us, ¬EmbedsUpdate algo u.name)
    (hv : ∀ v ∈ vs, ¬EmbedsUpdate algo v.name) (h : joined algo us = joined algo vs) :
    us = vs := by
  induction us generalizing vs with
  | nil =>
    cases vs with
    | nil => rfl
    | cons v vs =>
      rw [joined_cons] at h
      simp [joined] at h
  | cons u us ih =>
    cases vs with
    | nil =>
      rw [joined_cons] at h
      simp [joined] at h
    | cons v vs =>
      have hwu := hus u mem_cons_self
      have hwv := hvs v mem_cons_self
      have hus' : ∀ u ∈ us, WellFormed algo u := fun w hw => hus w (mem_cons_of_mem _ hw)
      have hvs' : ∀ v ∈ vs, WellFormed algo v := fun w hw => hvs w (mem_cons_of_mem _ hw)
      rw [joined_cons, joined_cons] at h
      have hlen : (lineHead algo u).length = (lineHead algo v).length := by
        rw [hwu.length_lineHead, hwv.length_lineHead]
      obtain ⟨hhead, hrest⟩ := append_inj h hlen
      obtain ⟨hold, hnew⟩ := lineHead_injective hwu hwv hhead
      -- the shorter of the two names ends where the longer one has a newline
      have hboth : u.name = v.name ∧ joined algo us = joined algo vs := by
        rcases append_eq_append_iff.mp hrest with ⟨as, has, htail⟩ | ⟨bs, hbs, htail⟩
        · cases as with
          | nil =>
            rw [append_nil] at has
            exact ⟨String.toList_inj.mp has.symm, (List.cons.inj htail).2⟩
          | cons c cs =>
            obtain ⟨hc, htail'⟩ : '\n' = c ∧ joined algo us = cs ++ '\n' :: joined algo vs :=
              List.cons.inj htail
            subst hc
            exact absurd (embeds_of_split has hus' htail') (hv v mem_cons_self)
        · cases bs with
          | nil =>
            rw [append_nil] at hbs
            exact ⟨String.toList_inj.mp hbs, (List.cons.inj htail).2.symm⟩
          | cons c cs =>
            obtain ⟨hc, htail'⟩ : '\n' = c ∧ joined algo vs = cs ++ '\n' :: joined algo us :=
              List.cons.inj htail
            subst hc
            exact absurd (embeds_of_split hbs hvs' htail') (hu u mem_cons_self)
      have huv : u = v := by
        cases u
        cases v
        simp_all
      have htails : us = vs := ih hus' hvs' (fun w hw => hu w (mem_cons_of_mem _ hw))
        (fun w hw => hv w (mem_cons_of_mem _ hw)) hboth.2
      rw [huv, htails]

end Lines

/-! ### Accepted requests -/

/-- Some request parses to this head. -/
def Accepted (algo : HashAlgo) (h : PushHead) : Prop :=
  ∃ r rest, parsePushRequestHead algo r = .ok (h, rest)

variable {s : List Char}

theorem wellFormed_id {algo : HashAlgo} {o : ObjectId} (h : parseOid algo s = some o) :
    ∀ x, nonzero algo o = some x → x.algo = algo ∧ x ≠ ObjectId.zeroOid algo := by
  intro x hx
  unfold nonzero at hx
  split at hx
  · cases hx
  · rename_i hne
    cases hx
    obtain ⟨-, halgo⟩ := Option.filter_eq_some_iff.mp h
    exact ⟨of_decide_eq_true halgo, hne⟩

theorem splitNul_fst (b : Bytes) : (0 : UInt8) ∉ (splitNul b).1 := by
  have htake : (0 : UInt8) ∉ b.takeWhile (· ≠ 0) := by
    intro hmem
    simpa using mem_takeWhile_imp hmem
  unfold splitNul
  split
  · rename_i hdrop
    have hall := takeWhile_append_dropWhile (p := fun x : UInt8 => decide (x ≠ 0)) (l := b)
    rw [hdrop, append_nil] at hall
    rw [← hall]
    exact htake
  · exact htake

theorem nul_mem_utf8 {s : String} (h : '\x00' ∈ s.toList) : (0 : UInt8) ∈ utf8 s := by
  rw [← String.ofList_toList (s := s), utf8_ofList]
  refine mem_flatMap.mpr ⟨'\x00', h, ?_⟩
  decide

theorem splitn3_spec {old new name : List Char} (h : splitn3 s = some (old, new, name)) :
    s = old ++ ' ' :: (new ++ ' ' :: name) := by
  have hhead : ∀ {l rest : List Char} {c : Char}, l.dropWhile (· ≠ ' ') = c :: rest →
      l = l.takeWhile (· ≠ ' ') ++ ' ' :: rest := by
    intro l rest c hdrop
    have hne : l.dropWhile (· ≠ ' ') ≠ [] := by
      rw [hdrop]
      exact cons_ne_nil _ _
    have hc := head_dropWhile_not (fun x : Char => decide (x ≠ ' ')) hne
    simp only [hdrop, head_cons, decide_eq_false_iff_not, not_not] at hc
    rw [hc] at hdrop
    rw [← hdrop, takeWhile_append_dropWhile]
  unfold splitn3 at h
  split at h
  · cases h
  · rename_i c rest hrest
    split at h
    · cases h
    · rename_i c' name' hname
      cases h
      rw [← hhead hname]
      exact hhead hrest

variable {line : Bytes} {u : RefUpdate} {caps : List String}

/-- What an accepted command line is made of. -/
theorem parseUpdateLine_ok {algo : HashAlgo} (h : parseUpdateLine algo line = .ok (u, caps)) :
    ∃ s oldS newS name old new, utf8 s = (splitNul (trimNewline line)).1 ∧
      splitn3 s.toList = some (oldS, newS, name) ∧ parseOid algo oldS = some old ∧
      parseOid algo newS = some new ∧
      u = ⟨nonzero algo old, nonzero algo new, String.ofList name⟩ := by
  unfold parseUpdateLine at h
  generalize splitNul (trimNewline line) = p at h
  obtain ⟨head, capsPart⟩ := p
  simp only at h
  cases hs : fromUtf8 head with
  | none =>
    rw [hs] at h
    cases h
  | some s =>
    rw [hs] at h
    simp only at h
    cases hsplit : splitn3 s.toList with
    | none =>
      rw [hsplit] at h
      cases h
    | some parts =>
      obtain ⟨oldS, newS, name⟩ := parts
      rw [hsplit] at h
      simp only at h
      cases hold : parseOid algo oldS with
      | none =>
        rw [hold] at h
        cases h
      | some old =>
        rw [hold] at h
        simp only at h
        split at h
        · cases h
        rename_i new hnew
        refine ⟨s, oldS, newS, name, old, new, utf8_of_fromUtf8 hs, hsplit, hold, hnew, ?_⟩
        cases capsPart with
        | none =>
          cases h
          rfl
        | some caps' =>
          simp only at h
          split at h
          · cases h
          · cases h
            rfl

theorem parseUpdateLine_wellFormed {algo : HashAlgo}
    (h : parseUpdateLine algo line = .ok (u, caps)) : WellFormed algo u := by
  obtain ⟨s, oldS, newS, name, old, new, hs, hsplit, hold, hnew, rfl⟩ := parseUpdateLine_ok h
  refine ⟨wellFormed_id hold, wellFormed_id hnew, ?_⟩
  intro hmem
  rw [String.toList_ofList] at hmem
  have hnul : (0 : UInt8) ∈ utf8 s := by
    apply nul_mem_utf8
    rw [splitn3_spec hsplit]
    exact mem_append_right _ (mem_cons_of_mem _
      (mem_append_right _ (mem_cons_of_mem _ hmem)))
  rw [hs] at hnul
  exact splitNul_fst _ hnul

theorem length_of_parseOid {algo : HashAlgo} {o : ObjectId} (h : parseOid algo s = some o) :
    (utf8 (String.ofList s)).length = algo.hexLen := by
  obtain ⟨hhex, halgo⟩ := Option.filter_eq_some_iff.mp h
  have halgo' : o.algo = algo := of_decide_eq_true halgo
  unfold ObjectId.fromHex at hhex
  split at hhex
  · rename_i hlen
    obtain ⟨bytes, -, hbytes⟩ := Option.bind_eq_some_iff.mp hhex
    rw [hlen, ← halgo', ObjectId.algo_of_fromBytes hbytes]
    rfl
  · split at hhex
    · rename_i hlen
      obtain ⟨bytes, -, hbytes⟩ := Option.bind_eq_some_iff.mp hhex
      rw [hlen, ← halgo', ObjectId.algo_of_fromBytes hbytes]
      rfl
    · cases hhex

/-- A name shares its line with two ids and two spaces. -/
theorem parseUpdateLine_name {algo : HashAlgo} (h : parseUpdateLine algo line = .ok (u, caps)) :
    (utf8 u.name).length + 2 * algo.hexLen + 2 ≤ line.length := by
  obtain ⟨s, oldS, newS, name, old, new, hs, hsplit, hold, hnew, rfl⟩ := parseUpdateLine_ok h
  have htrim : (trimNewline line).length ≤ line.length := by
    rw [trimNewline, length_reverse, ← @length_reverse _ line]
    exact (dropWhile_sublist _).length_le
  have hcut : (splitNul (trimNewline line)).1.length ≤ (trimNewline line).length := by
    unfold splitNul
    split
    · exact le_rfl
    · exact (takeWhile_sublist _).length_le
  have hspace : (String.utf8EncodeChar ' ').length = 1 := by decide
  have hlen : (utf8 s).length = (utf8 (String.ofList oldS)).length + 1
      + (utf8 (String.ofList newS)).length + 1 + (utf8 (String.ofList name)).length := by
    have hs' : utf8 s = utf8 (String.ofList (oldS ++ ' ' :: (newS ++ ' ' :: name))) := by
      rw [← splitn3_spec hsplit, String.ofList_toList]
    rw [hs']
    simp only [utf8_ofList, flatMap_append, flatMap_cons, length_append, hspace]
    omega
  rw [hs, length_of_parseOid hold, length_of_parseOid hnew] at hlen
  simp only
  omega

variable {h : PushHead}

/-- What holds of the update of every line that fits holds of every update. -/
theorem parseHeadFuel_updates {algo : HashAlgo} {Q : RefUpdate → Prop}
    (hline : ∀ line u caps, line.length ≤ maxPayload → parseUpdateLine algo line = .ok (u, caps) → Q u)
    {fuel : Nat} {r rest : Bytes} {h' : PushHead}
    (hparse : parseHeadFuel algo fuel r h = .ok (h', rest)) (hw : ∀ u ∈ h.updates, Q u) :
    ∀ u ∈ h'.updates, Q u := by
  induction fuel generalizing r h with
  | zero => cases hparse
  | succ fuel ih =>
    unfold parseHeadFuel at hparse
    split at hparse
    · cases hparse
    · rename_i line rest' hframe
      split at hparse
      · cases hparse
      · rename_i update caps hupdate
        apply ih hparse
        intro u hu
        rcases mem_append.mp hu with hu | hu
        · exact hw u hu
        · rw [mem_singleton.mp hu]
          exact hline line update caps (readFrame_ok hframe).2 hupdate
    · cases hparse
      exact hw

theorem Accepted.wellFormed {algo : HashAlgo} (ha : Accepted algo h) :
    ∀ u ∈ h.updates, WellFormed algo u := by
  obtain ⟨r, rest, hparse⟩ := ha
  exact parseHeadFuel_updates (fun _ _ _ _ hline => parseUpdateLine_wellFormed hline) hparse
    fun u hu => absurd hu not_mem_nil

/-- Accepted names leave room for two ids and two spaces in a line. -/
theorem Accepted.name_le {algo : HashAlgo} (ha : Accepted algo h) :
    ∀ u ∈ h.updates, (utf8 u.name).length + 2 * algo.hexLen + 2 ≤ maxPayload := by
  obtain ⟨r, rest, hparse⟩ := ha
  exact parseHeadFuel_updates
    (fun _ _ _ hlen hline => (parseUpdateLine_name hline).trans hlen) hparse
    fun u hu => absurd hu not_mem_nil

/-! ### The payload as text -/

theorem utf8_eq_flatMap (s : String) : utf8 s = s.toList.flatMap String.utf8EncodeChar := by
  rw [← utf8_ofList, String.ofList_toList]

/-- The updates in the order of their lines. -/
def sortedUpdates (algo : HashAlgo) (us : List RefUpdate) : List RefUpdate :=
  us.mergeSort fun a b => bytesLe (updateLine algo a) (updateLine algo b)

theorem sortedLines_eq (algo : HashAlgo) (us : List RefUpdate) :
    sortedLines algo us = (sortedUpdates algo us).map (updateLine algo) := by
  rw [sortedLines, sortedUpdates, map_mergeSort]
  intro a _ b _
  rfl

/-- The payload is the text of the nonce line and the joined lines. -/
theorem payload_eq (us : List RefUpdate) (n : Option String) (algo : HashAlgo) :
    canonicalPushPayloadWithNonce us n algo
      = utf8 (String.ofList ((nonceLine n).toList ++ joined algo (sortedUpdates algo us))) := by
  rw [canonicalPushPayloadWithNonce, sortedLines_eq, utf8_ofList, flatMap_append,
    utf8_eq_flatMap (nonceLine n), joined, flatMap_map, flatMap_assoc]
  have hlines : (sortedUpdates algo us).flatMap (fun u => utf8 (updateLine algo u))
      = (sortedUpdates algo us).flatMap
          (fun u => (updateLine algo u).toList.flatMap String.utf8EncodeChar) := by
    apply flatMap_congr
    intro u _
    exact utf8_eq_flatMap _
  rw [hlines]

variable {us vs : List RefUpdate} {n : Option String}

theorem payload_injective {m : Option String} {algo : HashAlgo}
    (h : canonicalPushPayloadWithNonce us n algo = canonicalPushPayloadWithNonce vs m algo) :
    (nonceLine n).toList ++ joined algo (sortedUpdates algo us)
      = (nonceLine m).toList ++ joined algo (sortedUpdates algo vs) := by
  rw [payload_eq, payload_eq] at h
  have htext := congrArg String.toList (utf8_injective h)
  simpa using htext

/-- A nonce is part of a word of the capability list: it holds no newline. -/
def NonceWord (n : Option String) : Prop := ∀ s, n = some s → '\n' ∉ s.toList

/-- The first letter of joined lines is a digit. -/
theorem head_joined {algo : HashAlgo} {c : Char} {rest : List Char}
    (h : joined algo us = c :: rest) : IsHexDigit c := by
  cases us with
  | nil => cases h
  | cons u us =>
    rw [joined_cons, lineHead] at h
    cases hhex : (u.old.getD (ObjectId.zeroOid algo)).hexText with
    | nil =>
      have hlen := congrArg List.length hhex
      rw [ObjectId.length_hexText, length_nil] at hlen
      generalize (u.old.getD (ObjectId.zeroOid algo)).algo = a at hlen
      cases a <;> cases hlen
    | cons d ds =>
      rw [hhex] at h
      have hd : d = c := (List.cons.inj h).1
      rw [← hd]
      exact isHexDigit_of_mem (by rw [show hexChars _ = d :: ds from hhex]; exact mem_cons_self)

/-- The nonce can be told from the lines behind it. -/
theorem nonce_injective {algo : HashAlgo} {m : Option String} (hn : NonceWord n)
    (hm : NonceWord m)
    (h : (nonceLine n).toList ++ joined algo us = (nonceLine m).toList ++ joined algo vs) :
    n = m ∧ joined algo us = joined algo vs := by
  have hline : ∀ s, (nonceLine (some s)).toList = "nonce ".toList ++ (s.toList ++ ['\n']) := by
    intro s
    simp [nonceLine]
  have hnone : ∀ (us vs : List RefUpdate) (s : String),
      joined algo us ≠ (nonceLine (some s)).toList ++ joined algo vs := by
    intro us vs s heq
    rw [hline] at heq
    exact (head_joined (c := 'n') heq).ne.2.2.1 rfl
  cases n with
  | none =>
    cases m with
    | none => exact ⟨rfl, h⟩
    | some t => exact absurd h (hnone us vs t)
  | some s =>
    cases m with
    | none => exact absurd h.symm (hnone vs us s)
    | some t =>
      have hrest : s.toList ++ '\n' :: joined algo us = t.toList ++ '\n' :: joined algo vs := by
        rw [hline, hline, append_assoc, append_assoc] at h
        simpa using append_cancel_left h
      rw [append_eq_append_iff] at hrest
      -- the longer of the two words would hold the newline behind the shorter
      rcases hrest with ⟨as, has, htail⟩ | ⟨bs, hbs, htail⟩
      · cases as with
        | nil =>
          rw [append_nil] at has
          exact ⟨congrArg some (String.toList_inj.mp has.symm), (List.cons.inj htail).2⟩
        | cons c cs =>
          have hc : '\n' = c := (List.cons.inj htail).1
          refine absurd ?_ (hm t rfl)
          rw [has, hc]
          exact mem_append_right _ mem_cons_self
      · cases bs with
        | nil =>
          rw [append_nil] at hbs
          exact ⟨congrArg some (String.toList_inj.mp hbs), (List.cons.inj htail).2.symm⟩
        | cons c cs =>
          have hc : '\n' = c := (List.cons.inj htail).1
          refine absurd ?_ (hn s rfl)
          rw [hbs, hc]
          exact mem_append_right _ mem_cons_self

/-! ### Bound up to order -/

/-- No name of the request embeds an update. -/
def Separate (algo : HashAlgo) (h : PushHead) : Prop :=
  ∀ u ∈ h.updates, ¬EmbedsUpdate algo u.name

theorem mem_sortedUpdates {algo : HashAlgo} (h : u ∈ sortedUpdates algo us) :
    u ∈ us := mem_mergeSort.mp h

theorem binds_of_separate {algo : HashAlgo} {h' : PushHead} {n' : Option String}
    (ha : Accepted algo h) (ha' : Accepted algo h') (hn : NonceWord n) (hn' : NonceWord n')
    (hs : Separate algo h) (hs' : Separate algo h')
    (heq : canonicalPushPayloadWithNonce h.updates n algo = canonicalPushPayloadWithNonce h'.updates n' algo) :
    n = n' ∧ h.updates.Perm h'.updates := by
  obtain ⟨hnonce, hlines⟩ := nonce_injective hn hn' (payload_injective heq)
  have hsorted : sortedUpdates algo h.updates = sortedUpdates algo h'.updates :=
    joined_injective (fun u hu => ha.wellFormed u (mem_sortedUpdates hu))
      (fun u hu => ha'.wellFormed u (mem_sortedUpdates hu))
      (fun u hu => hs u (mem_sortedUpdates hu)) (fun u hu => hs' u (mem_sortedUpdates hu)) hlines
  refine ⟨hnonce, ?_⟩
  have hperm : (sortedUpdates algo h.updates).Perm h.updates := mergeSort_perm _ _
  have hperm' : (sortedUpdates algo h'.updates).Perm h'.updates := mergeSort_perm _ _
  rw [hsorted] at hperm
  exact hperm.symm.trans hperm'

theorem pairwise_sortedLines (algo : HashAlgo) (us : List RefUpdate) :
    (sortedLines algo us).Pairwise fun s t => utf8 s ≤ utf8 t := by
  have htrans : ∀ a b c : String, bytesLe a b = true → bytesLe b c = true →
      bytesLe a c = true := by
    intro a b c hab hbc
    simp only [bytesLe, decide_eq_true_eq] at *
    exact Std.le_trans hab hbc
  have htotal : ∀ a b : String, (bytesLe a b || bytesLe b a) = true := by
    intro a b
    simpa [bytesLe] using Std.le_total
  exact (pairwise_mergeSort htrans htotal _).imp fun h => of_decide_eq_true h

/-- The order of the updates does not matter. -/
theorem payload_perm {algo : HashAlgo} (h : us.Perm vs) (n : Option String) :
    canonicalPushPayloadWithNonce us n algo = canonicalPushPayloadWithNonce vs n algo := by
  have hperm : (sortedLines algo us).Perm (sortedLines algo vs) :=
    (mergeSort_perm _ _).trans ((h.map _).trans (mergeSort_perm _ _).symm)
  have heq : sortedLines algo us = sortedLines algo vs :=
    List.Perm.eq_of_pairwise (fun a b _ _ hab hba => utf8_injective (Std.le_antisymm hab hba))
      (pairwise_sortedLines algo us) (pairwise_sortedLines algo vs) hperm
  rw [canonicalPushPayloadWithNonce, canonicalPushPayloadWithNonce, heq]

/-! ### All updates in one name -/

theorem zero_not_mem_utf8 {l : List Char} (h : '\x00' ∉ l) :
    (0 : UInt8) ∉ utf8 (String.ofList l) := by
  rw [utf8_ofList]
  intro hmem
  obtain ⟨c, hc, hzero⟩ := mem_flatMap.mp hmem
  have hnul : c = '\x00' := Char.toNat_inj.mp (eq_of_mem_utf8EncodeChar (by decide) hzero)
  exact h (hnul ▸ hc)

theorem splitn3_eq {a b c : List Char} (ha : ' ' ∉ a) (hb : ' ' ∉ b) :
    splitn3 (a ++ ' ' :: (b ++ ' ' :: c)) = some (a, b, c) := by
  have hne : ∀ l : List Char, ' ' ∉ l → ∀ x ∈ l, decide (x ≠ ' ') = true := by
    intro l hl x hx
    exact decide_eq_true fun heq => hl (heq ▸ hx)
  have hdrop : ∀ (l rest : List Char), ' ' ∉ l →
      (l ++ ' ' :: rest).dropWhile (· ≠ ' ') = ' ' :: rest := by
    intro l rest hl
    rw [dropWhile_append_of_pos (hne l hl)]
    rfl
  have htake : ∀ (l rest : List Char), ' ' ∉ l →
      (l ++ ' ' :: rest).takeWhile (· ≠ ' ') = l := by
    intro l rest hl
    rw [takeWhile_append_of_pos (hne l hl)]
    simp
  simp only [splitn3, hdrop _ _ ha, hdrop _ _ hb, htake _ _ ha, htake _ _ hb]

/-- A first part without a NUL is split off. -/
theorem splitNul_append {b : Bytes} (hb : (0 : UInt8) ∉ b) (caps : Bytes) :
    splitNul (b ++ 0 :: caps) = (b, some caps) := by
  have hne : ∀ x ∈ b, decide (x ≠ 0) = true := fun x hx => decide_eq_true fun heq => hb (heq ▸ hx)
  have hdrop : (b ++ 0 :: caps).dropWhile (· ≠ 0) = 0 :: caps := by
    rw [dropWhile_append_of_pos hne]
    rfl
  have htake : (b ++ 0 :: caps).takeWhile (· ≠ 0) = b := by
    rw [takeWhile_append_of_pos hne]
    simp
  rw [splitNul, hdrop, htake]

/-- The ids and the name of a command, told apart again. -/
theorem parse_lineHead {algo : HashAlgo} (hu : WellFormed algo u) :
    splitn3 (lineHead algo u ++ u.name.toList) =
        some ((u.old.getD (ObjectId.zeroOid algo)).hexText,
          (u.new.getD (ObjectId.zeroOid algo)).hexText, u.name.toList) ∧
      parseOid algo (u.old.getD (ObjectId.zeroOid algo)).hexText =
        some (u.old.getD (ObjectId.zeroOid algo)) ∧
      parseOid algo (u.new.getD (ObjectId.zeroOid algo)).hexText =
        some (u.new.getD (ObjectId.zeroOid algo)) ∧
      nonzero algo (u.old.getD (ObjectId.zeroOid algo)) = u.old ∧
      nonzero algo (u.new.getD (ObjectId.zeroOid algo)) = u.new := by
  have hspace : ∀ o : ObjectId, ' ' ∉ o.hexText := fun o hmem => (isHexDigit_of_mem hmem).ne.1 rfl
  have hoid : ∀ o : Option ObjectId,
      (∀ x, o = some x → x.algo = algo ∧ x ≠ ObjectId.zeroOid algo) →
      parseOid algo (o.getD (ObjectId.zeroOid algo)).hexText
        = some (o.getD (ObjectId.zeroOid algo)) ∧
      nonzero algo (o.getD (ObjectId.zeroOid algo)) = o := by
    intro o ho
    constructor
    · rw [parseOid, ObjectId.fromHex_hexText]
      simp [Option.filter, algo_getD ho]
    · cases o with
      | none => simp [nonzero]
      | some x => simp [nonzero, (ho x rfl).2]
  refine ⟨?_, (hoid _ hu.old).1, (hoid _ hu.new).1, (hoid _ hu.old).2, (hoid _ hu.new).2⟩
  have hparts := @splitn3_eq _ _ u.name.toList (hspace (u.old.getD (ObjectId.zeroOid algo)))
    (hspace (u.new.getD (ObjectId.zeroOid algo)))
  simpa [lineHead] using hparts

theorem nul_not_mem_lineHead {algo : HashAlgo} (hu : WellFormed algo u) :
    (0 : UInt8) ∉ utf8 (String.ofList (lineHead algo u ++ u.name.toList)) := by
  have hhex : ∀ o : ObjectId, '\x00' ∉ o.hexText :=
    fun o hmem => (isHexDigit_of_mem hmem).ne.2.2.2 rfl
  refine zero_not_mem_utf8 ?_
  simp only [lineHead, mem_append, mem_cons, not_mem_nil, or_false, not_or]
  exact ⟨⟨hhex _, by decide, hhex _, by decide⟩, hu.name⟩

/-- A command line whose name ends at a NUL is read as it stands. -/
theorem parseUpdateLine_nul {algo : HashAlgo} (hu : WellFormed algo u) :
    parseUpdateLine algo (utf8 (String.ofList (lineHead algo u ++ u.name.toList)) ++ [0])
      = .ok (u, []) := by
  obtain ⟨hparts, hold, hnew, hold', hnew'⟩ := parse_lineHead hu
  have htrim : ∀ b : Bytes, trimNewline (b ++ [0]) = b ++ [0] := by
    intro b
    rw [trimNewline, reverse_append]
    simp
  have hwords : splitWhitespace "" = [] := by decide
  have hempty : fromUtf8 [] = some "" := fromUtf8_utf8 ""
  simp only [parseUpdateLine, htrim, splitNul_append (nul_not_mem_lineHead hu), fromUtf8_utf8,
    String.toList_ofList, hparts, hold, hnew, hold', hnew', String.ofList_toList, hempty, hwords]

/-- A command line whose name ends at a NUL. -/
def nulLine (algo : HashAlgo) (u : RefUpdate) : Bytes :=
  utf8 (String.ofList (lineHead algo u ++ u.name.toList)) ++ [0]

theorem length_nulLine (algo : HashAlgo) (u : RefUpdate) :
    (nulLine algo u).length = (utf8 (updateLine algo u)).length := by
  have hbytes : utf8 (updateLine algo u)
      = utf8 (String.ofList (lineHead algo u ++ u.name.toList)) ++ utf8 "\n" := by
    rw [utf8_eq_flatMap, toList_updateLine, ← append_assoc, flatMap_append,
      utf8_ofList, utf8_eq_flatMap "\n"]
    rfl
  have hnl : (utf8 "\n").length = 1 := by decide
  rw [hbytes, nulLine, length_append, length_append, hnl]
  rfl

theorem length_updateLine {algo : HashAlgo} (hu : WellFormed algo u) :
    (utf8 (updateLine algo u)).length = 2 * algo.hexLen + (utf8 u.name).length + 3 := by
  have hspace : (String.utf8EncodeChar ' ').length = 1 := by decide
  have hnl : (String.utf8EncodeChar '\n').length = 1 := by decide
  have hold := ObjectId.length_utf8_hexText (u.old.getD (ObjectId.zeroOid algo))
  have hnew := ObjectId.length_utf8_hexText (u.new.getD (ObjectId.zeroOid algo))
  rw [utf8_ofList, algo_getD hu.old] at hold
  rw [utf8_ofList, algo_getD hu.new] at hnew
  rw [utf8_eq_flatMap, utf8_eq_flatMap u.name, updateLine, String.toList_ofList]
  simp only [flatMap_append, flatMap_cons, flatMap_nil, length_append,
    length_nil, hspace, hnl, hold, hnew]
  omega

/-- The request that lists `us` so. -/
def nulRequest (algo : HashAlgo) (us : List RefUpdate) : Bytes :=
  us.flatMap (fun u => hex4 ((nulLine algo u).length + 4) ++ nulLine algo u) ++ writeFlush []

theorem parseHeadFuel_nulRequest {algo : HashAlgo} (hus : ∀ u ∈ us, WellFormed algo u)
    (hlen : ∀ u ∈ us, (utf8 (updateLine algo u)).length ≤ maxPayload) (n : Nat)
    (ups : List RefUpdate) :
    parseHeadFuel algo (n + 1 + us.length) (nulRequest algo us) ⟨ups, []⟩
      = .ok (⟨ups ++ us, []⟩, []) := by
  induction us generalizing ups with
  | nil =>
    rw [append_nil]
    rfl
  | cons u us ih =>
    have hline : (nulLine algo u).length ≤ maxPayload := by
      rw [length_nulLine]
      exact hlen u mem_cons_self
    have hbytes : nulRequest algo (u :: us)
        = hex4 ((nulLine algo u).length + 4) ++ nulLine algo u ++ nulRequest algo us := by
      simp [nulRequest]
    have hparse : parseUpdateLine algo (nulLine algo u) = .ok (u, []) :=
      parseUpdateLine_nul (hus u mem_cons_self)
    rw [length_cons, ← Nat.add_assoc, hbytes]
    unfold parseHeadFuel
    rw [readFrame_data hline]
    simp only [hparse, append_nil]
    rw [ih (fun v hv => hus v (mem_cons_of_mem _ hv))
      (fun v hv => hlen v (mem_cons_of_mem _ hv)), append_assoc, singleton_append]

/-- Updates as the parser makes them are accepted as long as their lines fit. -/
theorem accepted_of_fits {algo : HashAlgo} (hus : ∀ u ∈ us, WellFormed algo u)
    (hlen : ∀ u ∈ us, (utf8 (updateLine algo u)).length ≤ maxPayload) :
    Accepted algo ⟨us, []⟩ := by
  refine ⟨nulRequest algo us, [], ?_⟩
  rw [parsePushRequestHead, parseHeadFuel_eq algo _ (Nat.lt_add_one _)
    (Nat.lt_add_right us.length (Nat.lt_add_one _))]
  exact parseHeadFuel_nulRequest hus hlen _ []

/-- The update whose one line is the lines of all. -/
theorem exists_merged {algo : HashAlgo} (hus : ∀ u ∈ us, WellFormed algo u) (hne : us ≠ []) :
    ∃ u, WellFormed algo u ∧ (updateLine algo u).toList = joined algo us := by
  induction us with
  | nil => exact absurd rfl hne
  | cons u us ih =>
    have hu := hus u mem_cons_self
    have hus' : ∀ v ∈ us, WellFormed algo v := fun v hv => hus v (mem_cons_of_mem _ hv)
    by_cases hnil : us = []
    · refine ⟨u, hu, ?_⟩
      rw [hnil]
      simp [joined]
    · obtain ⟨v, hv, hline⟩ := ih hus' hnil
      -- the rest becomes part of the name of the first
      refine ⟨⟨u.old, u.new, String.ofList (u.name.toList ++ '\n' ::
        (lineHead algo v ++ v.name.toList))⟩, ⟨hu.old, hu.new, ?_⟩, ?_⟩
      · have hhex : ∀ o : ObjectId, '\x00' ∉ o.hexText :=
          fun o hmem => (isHexDigit_of_mem hmem).ne.2.2.2 rfl
        rw [String.toList_ofList]
        simp only [lineHead, mem_append, mem_cons, not_mem_nil, or_false, not_or]
        exact ⟨hu.name, by decide, ⟨hhex _, by decide, hhex _, by decide⟩, hv.name⟩
      · rw [joined_cons, ← hline, toList_updateLine, toList_updateLine, String.toList_ofList]
        simp [lineHead]

theorem exists_same_payload {algo : HashAlgo} (ha : Accepted algo h)
    (hmany : 2 ≤ h.updates.length)
    (hfits : (canonicalPushPayload h.updates algo).length ≤ maxPayload) :
    ∃ h', Accepted algo h' ∧ ¬h'.updates.Perm h.updates ∧ ∀ n,
      canonicalPushPayloadWithNonce h'.updates n algo
        = canonicalPushPayloadWithNonce h.updates n algo := by
  have hlength : (sortedUpdates algo h.updates).length = h.updates.length :=
    length_mergeSort _
  have hne : sortedUpdates algo h.updates ≠ [] := by
    intro hnil
    rw [hnil, length_nil] at hlength
    omega
  obtain ⟨u, hu, hline⟩ := exists_merged
    (fun u hu => ha.wellFormed u (mem_sortedUpdates hu)) hne
  have hsorted : sortedUpdates algo [u] = [u] := mergeSort_singleton u
  have hpayload : ∀ n, canonicalPushPayloadWithNonce [u] n algo
      = canonicalPushPayloadWithNonce h.updates n algo := by
    intro n
    rw [payload_eq, payload_eq, hsorted, ← hline]
    simp [joined]
  refine ⟨⟨[u], []⟩, accepted_of_fits ?_ ?_, fun hperm => ?_, hpayload⟩
  · intro v hv
    rw [mem_singleton.mp hv]
    exact hu
  · intro v hv
    rw [mem_singleton.mp hv]
    have hbytes : canonicalPushPayload h.updates algo = utf8 (updateLine algo u) := by
      rw [canonicalPushPayload, ← hpayload none, payload_eq, hsorted]
      simp [nonceLine, joined]
    rw [← hbytes]
    exact hfits
  · have := hperm.length_eq
    simp only [length_singleton] at this
    omega

/-! ### The main result -/

/-- **What a push signature binds.**  Requests whose names embed no update share a payload
    only if they echo the same nonce and list the same updates, in some order; the order does
    not matter; and an accepted request of several updates whose payload fits a line shares
    it with another accepted request. -/
theorem push_payload_binds (algo : HashAlgo) :
    (∀ h h' n n', Accepted algo h → Accepted algo h' → NonceWord n → NonceWord n' →
      Separate algo h → Separate algo h' →
      canonicalPushPayloadWithNonce h.updates n algo
        = canonicalPushPayloadWithNonce h'.updates n' algo →
      n = n' ∧ h.updates.Perm h'.updates) ∧
    (∀ us vs n, us.Perm vs → canonicalPushPayloadWithNonce us n algo
      = canonicalPushPayloadWithNonce vs n algo) ∧
    ∀ h, Accepted algo h → 2 ≤ h.updates.length →
      (canonicalPushPayload h.updates algo).length ≤ maxPayload →
      ∃ h', Accepted algo h' ∧ ¬h'.updates.Perm h.updates ∧ ∀ n,
        canonicalPushPayloadWithNonce h'.updates n algo
          = canonicalPushPayloadWithNonce h.updates n algo :=
  ⟨fun _ _ _ _ ha ha' hn hn' hs hs' heq => binds_of_separate ha ha' hn hn' hs hs' heq,
    fun _ _ n h => payload_perm h n, fun _ ha hmany hfits => exists_same_payload ha hmany hfits⟩

/-! ### Two updates and one -/

def firstId : ObjectId := .sha1 (.fill 20 1)

def secondId : ObjectId := .sha1 (.fill 20 2)

def createA : RefUpdate := ⟨none, some firstId, "refs/heads/a"⟩

def createB : RefUpdate := ⟨none, some secondId, "refs/heads/b"⟩

/-- One update that creates a ref with a newline in its name. -/
def createBoth : RefUpdate :=
  ⟨none, some firstId, String.ofList ("refs/heads/a".toList ++ '\n' ::
    ((ObjectId.zeroOid .sha1).hexText ++ ' ' :: (secondId.hexText ++ ' ' ::
      "refs/heads/b".toList)))⟩

theorem accepted_creations (h : us ⊆ [createA, createB, createBoth]) :
    Accepted .sha1 ⟨us, []⟩ := by
  have hids : ∀ o : ObjectId, o = firstId ∨ o = secondId →
      o.algo = .sha1 ∧ o ≠ ObjectId.zeroOid .sha1 := by
    rintro o (rfl | rfl) <;> exact ⟨rfl, by decide⟩
  have hwell : ∀ (o : ObjectId) (name : String), o = firstId ∨ o = secondId →
      '\x00' ∉ name.toList → WellFormed .sha1 ⟨none, some o, name⟩ := by
    intro o name ho hname
    refine ⟨fun x hx => ?_, fun x hx => ?_, hname⟩
    · cases hx
    · cases hx
      exact hids o ho
  refine accepted_of_fits (fun u hu => ?_) fun u hu => ?_
  · have hu' := h hu
    simp only [mem_cons, not_mem_nil, or_false] at hu'
    rcases hu' with rfl | rfl | rfl
    · exact hwell _ _ (.inl rfl) (by decide)
    · exact hwell _ _ (.inr rfl) (by decide)
    · refine hwell _ _ (.inl rfl) ?_
      rw [String.toList_ofList]
      decide
  · have hu' := h hu
    rw [utf8_eq_flatMap, toList_updateLine]
    simp only [mem_cons, not_mem_nil, or_false] at hu'
    rcases hu' with rfl | rfl | rfl
    · decide +kernel
    · decide +kernel
    · rw [show createBoth.name.toList = _ from String.toList_ofList]
      decide +kernel

/-- Two orders of two updates. -/
theorem push_payload_binds_two :
    none = (none : Option String) ∧ [createA, createB].Perm [createB, createA] := by
  have ha : Accepted .sha1 ⟨[createA, createB], []⟩ := accepted_creations (by simp)
  have ha' : Accepted .sha1 ⟨[createB, createA], []⟩ := accepted_creations (by simp)
  have hsep : ∀ us : List RefUpdate, (∀ u ∈ us, '\n' ∉ u.name.toList) →
      Separate .sha1 ⟨us, []⟩ := by
    rintro us hus u hu ⟨front, rest, hname, -⟩
    refine hus u hu ?_
    rw [hname]
    exact mem_append_right _ mem_cons_self
  have hword : NonceWord none := fun s hs => by cases hs
  exact (push_payload_binds .sha1).1 ⟨[createA, createB], []⟩ ⟨[createB, createA], []⟩ none none
    ha ha' hword hword (hsep _ (by decide)) (hsep _ (by decide))
    (payload_perm (List.Perm.swap createB createA []) none)

/-- The signature of two creations is one of a single creation. -/
theorem push_payload_binds_fails :
    Accepted .sha1 ⟨[createA, createB], []⟩ ∧ Accepted .sha1 ⟨[createBoth], []⟩ ∧
      canonicalPushPayload [createA, createB] .sha1 = canonicalPushPayload [createBoth] .sha1 ∧
      ¬[createA, createB].Perm [createBoth] := by
  have hle : bytesLe (updateLine .sha1 createA) (updateLine .sha1 createB) = true := by
    rw [bytesLe, utf8_eq_flatMap, utf8_eq_flatMap, toList_updateLine, toList_updateLine]
    decide +kernel
  have hsorted : sortedUpdates .sha1 [createA, createB] = [createA, createB] := by
    apply mergeSort_of_pairwise
    simpa using hle
  have hsingle : sortedUpdates .sha1 [createBoth] = [createBoth] := mergeSort_singleton _
  have hname : createBoth.name.toList
      = createA.name.toList ++ '\n' :: (lineHead .sha1 createB ++ createB.name.toList) := by
    rw [createBoth, String.toList_ofList]
    simp [lineHead, createA, createB]
  have hhead : lineHead .sha1 createBoth = lineHead .sha1 createA := rfl
  have hjoined : joined .sha1 [createA, createB] = joined .sha1 [createBoth] := by
    rw [joined_cons, joined_cons, joined_cons, hname, hhead]
    simp
  refine ⟨accepted_creations (by simp), accepted_creations (by simp), ?_, fun hperm => ?_⟩
  · rw [canonicalPushPayload, canonicalPushPayload, payload_eq, payload_eq, hsorted, hsingle,
      hjoined]
  · exact absurd hperm.length_eq (by decide)

end Alt.Wire
