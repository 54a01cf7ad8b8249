import Alt.Library.Framing
import Alt.Primitives

namespace Alt

open Alt.Library List

/-!
# Op log records (`alt-oplog/src/lib.rs`)

One op is one record: a length, a body, and the first eight bytes of the body's BLAKE3.
The whole hash is the op's id, and each body names its parent's id.

* `encodeBody` / `parseBody` — the body codec;
* `OpLog.framing` — the record walk `replay_records`, its state the head of the chain;
* `Linked` — a chain of well-formed ops;
* `reads_iff` — a byte string is read as a list of ops exactly when they are linked and it
  is their encoding.
-/

/-- BLAKE3 of an op's body. -/
abbrev OpId := Digest

/-- The parent named by the first op in a log. -/
def OpId.root : OpId := .fill 32 0

inductive OpLogError
  | io
  | format (message : String)
  | tooLarge (size : Nat)
  deriving DecidableEq

/-- One recorded operation. -/
structure Op where
  id : OpId
  parent : OpId
  changeId : ByteArr 32
  timestampMs : UInt64
  actor : String
  payload : Bytes
  deriving DecidableEq

/-- parent 32 + change_id 32 + timestamp 8 + actor_len 2 + payload_len 4. -/
def bodyFixedLen : Nat := 78

def checksumLen : Nat := 8

/-- A body's layout.  The two lengths are cut to their fields. -/
def bodyBytes (parent : OpId) (changeId : ByteArr 32) (timestampMs : UInt64) (actor : String)
    (payload : Bytes) : Bytes :=
  parent.val ++ changeId.val ++ leBytes 8 timestampMs.toNat
    ++ leBytes 2 (utf8 actor).length ++ utf8 actor ++ leBytes 4 payload.length ++ payload

/-- The change id is reserved: zeros. -/
def encodeBody (parent : OpId) (timestampMs : UInt64) (actor : String) (payload : Bytes) : Bytes :=
  bodyBytes parent (.fill 32 0) timestampMs actor payload

def parseBody (P : Prims) (body : Bytes) : Except OpLogError Op :=
  if body.length < bodyFixedLen then .error (.format "op body too short")
  else
    let actorLen := leNat ((body.drop 72).take 2)
    let rest := body.drop 74
    if rest.length < actorLen + 4 then .error (.format "op actor length mismatch")
    else
      match fromUtf8 (rest.take actorLen) with
      | none => .error (.format "op actor is not utf-8")
      | some actor =>
        let payloadLen := leNat ((rest.drop actorLen).take 4)
        let payload := rest.drop (actorLen + 4)
        if payload.length ≠ payloadLen then .error (.format "op payload length mismatch")
        else .ok
          { id := P.blake3 body
            parent := .ofSlice 32 (body.take 32)
            changeId := .ofSlice 32 ((body.drop 32).take 32)
            timestampMs := .ofNat (leNat ((body.drop 64).take 8))
            actor
            payload }

/-! ### The body codec -/

/-- The bytes an op's id is the hash of. -/
def Op.body (op : Op) : Bytes :=
  bodyBytes op.parent op.changeId op.timestampMs op.actor op.payload

theorem length_bodyBytes (parent : OpId) (changeId : ByteArr 32) (timestampMs : UInt64)
    (actor : String) (payload : Bytes) :
    (bodyBytes parent changeId timestampMs actor payload).length
      = bodyFixedLen + (utf8 actor).length + payload.length := by
  simp only [bodyBytes, length_append, parent.2, changeId.2, length_leBytes, bodyFixedLen]
  omega

/-- Cutting a body at the field offsets. -/
theorem cut_fields {p c t a r : Bytes} (hp : p.length = 32) (hc : c.length = 32)
    (ht : t.length = 8) (ha : a.length = 2) :
    let body := p ++ (c ++ (t ++ (a ++ r)))
    body.take 32 = p ∧ (body.drop 32).take 32 = c ∧ (body.drop 64).take 8 = t ∧
      (body.drop 72).take 2 = a ∧ body.drop 74 = r := by
  have d32 : ∀ x : Bytes, (p ++ x).drop 32 = x := fun x => by rw [← hp, drop_left]
  have d64 : ∀ x : Bytes, (p ++ (c ++ x)).drop 64 = x := fun x => by
    rw [show (64 : Nat) = 32 + 32 from rfl, ← drop_drop, d32, ← hc, drop_left]
  have d72 : ∀ x : Bytes, (p ++ (c ++ (t ++ x))).drop 72 = x := fun x => by
    rw [show (72 : Nat) = 64 + 8 from rfl, ← drop_drop, d64, ← ht, drop_left]
  have d74 : ∀ x : Bytes, (p ++ (c ++ (t ++ (a ++ x)))).drop 74 = x := fun x => by
    rw [show (74 : Nat) = 72 + 2 from rfl, ← drop_drop, d72, ← ha, drop_left]
  refine ⟨take_left' hp, ?_, ?_, ?_, d74 _⟩
  · rw [d32, take_left' hc]
  · rw [d64, take_left' ht]
  · rw [d72, take_left' ha]

/-- Every long enough body has the four fixed fields in front. -/
theorem exists_cut {body : Bytes} (h : bodyFixedLen ≤ body.length) :
    ∃ p c t a rest : Bytes, body = p ++ (c ++ (t ++ (a ++ rest))) ∧ p.length = 32 ∧
      c.length = 32 ∧ t.length = 8 ∧ a.length = 2 := by
  rw [bodyFixedLen] at h
  refine ⟨body.take 32, (body.drop 32).take 32, (body.drop 64).take 8, (body.drop 72).take 2,
    body.drop 74, ?_, ?_⟩
  · have e1 := take_append_drop 2 (body.drop 72)
    have e2 := take_append_drop 8 (body.drop 64)
    have e3 := take_append_drop 32 (body.drop 32)
    rw [drop_drop] at e1 e2 e3
    rw [e1, e2, e3, take_append_drop]
  · simp only [length_take, length_drop]
    omega

/-- The lengths of actor and payload fit their fields. -/
def BodyFits (actor : String) (payload : Bytes) : Prop :=
  (utf8 actor).length < 2 ^ 16 ∧ payload.length < 2 ^ 32

/-- **Body round trip.** -/
theorem parseBody_bodyBytes (P : Prims) (parent : OpId) (changeId : ByteArr 32)
    (timestampMs : UInt64) {actor : String} {payload : Bytes} (h : BodyFits actor payload) :
    parseBody P (bodyBytes parent changeId timestampMs actor payload)
      = .ok ⟨P.blake3 (bodyBytes parent changeId timestampMs actor payload), parent, changeId,
          timestampMs, actor, payload⟩ := by
  have hcut : bodyBytes parent changeId timestampMs actor payload = parent.val ++ (changeId.val
      ++ (leBytes 8 timestampMs.toNat ++ (leBytes 2 (utf8 actor).length
        ++ (utf8 actor ++ (leBytes 4 payload.length ++ payload))))) := by
    simp only [bodyBytes, append_assoc]
  obtain ⟨h1, h2, h3, h4, h5⟩ := cut_fields
    (r := utf8 actor ++ (leBytes 4 payload.length ++ payload)) parent.2 changeId.2
    (length_leBytes 8 timestampMs.toNat) (length_leBytes 2 (utf8 actor).length)
  rw [← hcut] at h1 h2 h3 h4 h5
  have hlen := length_bodyBytes parent changeId timestampMs actor payload
  have ha : leNat (leBytes 2 (utf8 actor).length) = (utf8 actor).length :=
    leNat_leBytes_of_lt h.1
  have hp : leNat (leBytes 4 payload.length) = payload.length := leNat_leBytes_of_lt h.2
  have hrest : ¬ (utf8 actor ++ (leBytes 4 payload.length ++ payload)).length
      < (utf8 actor).length + 4 := by
    simp only [length_append, length_leBytes]
    omega
  have hpay : (utf8 actor ++ (leBytes 4 payload.length ++ payload)).drop
      ((utf8 actor).length + 4) = payload := by
    rw [← drop_drop, drop_left]
    exact drop_left' (length_leBytes 4 _)
  have hpl : ((utf8 actor ++ (leBytes 4 payload.length ++ payload)).drop
      (utf8 actor).length).take 4 = leBytes 4 payload.length := by
    rw [drop_left]
    exact take_left' (length_leBytes 4 _)
  have ht : timestampMs.toNat < 256 ^ 8 := timestampMs.toNat_lt
  rw [parseBody, if_neg (by rw [hlen]; omega)]
  simp only [h1, h2, h3, h4, h5, ha, hrest, ↓reduceIte, take_left, fromUtf8_utf8, hpl, hp,
    hpay, ne_eq, not_true_eq_false, leNat_leBytes_of_lt ht, UInt64.ofNat_toNat,
    ByteArr.ofSlice_val]

/-- **What parses is a body.** The fields determine the bytes, and the id is their hash. -/
theorem parseBody_sound {P : Prims} {body : Bytes} {op : Op} (h : parseBody P body = .ok op) :
    body = op.body ∧ op.id = P.blake3 body ∧ BodyFits op.actor op.payload := by
  rw [parseBody] at h
  split at h
  · cases h
  · rename_i hlen
    obtain ⟨p, c, t, a, rest, rfl, hp, hc, ht, ha⟩ := exists_cut (Nat.le_of_not_lt hlen)
    obtain ⟨h1, h2, h3, h4, h5⟩ := cut_fields (r := rest) hp hc ht ha
    simp only [h1, h2, h3, h4, h5] at h
    split at h
    · cases h
    · rename_i hrest
      split at h
      · cases h
      · rename_i actor hactor
        split at h
        · cases h
        · rename_i hpayload
          cases h
          rw [not_not] at hpayload
          have hutf := utf8_of_fromUtf8 hactor
          have hal : (utf8 actor).length = leNat a := by
            rw [hutf, length_take]; omega
          have hl4 : ((rest.drop (leNat a)).take 4).length = 4 := by
            rw [length_take, length_drop]; omega
          -- the rest is the actor, the payload length and the payload
          have hcut : utf8 actor ++ ((rest.drop (leNat a)).take 4 ++ rest.drop (leNat a + 4))
              = rest := by
            rw [hutf, ← drop_drop, take_append_drop, take_append_drop]
          have f2 := leBytes_leNat a
          have f8 := leBytes_leNat t
          have f4 := leBytes_leNat ((rest.drop (leNat a)).take 4)
          have b2 := leNat_lt a
          have b8 := leNat_lt t
          have b4 := leNat_lt ((rest.drop (leNat a)).take 4)
          rw [ha] at f2 b2
          rw [ht] at f8 b8
          rw [hl4, ← hpayload] at f4 b4
          rw [show (256 : Nat) ^ 2 = 2 ^ 16 from rfl, ← hal] at b2
          rw [show (256 : Nat) ^ 4 = 2 ^ 32 from rfl] at b4
          have ht64 : (UInt64.ofNat (leNat t)).toNat = leNat t := by
            rw [UInt64.toNat_ofNat']
            exact Nat.mod_eq_of_lt b8
          refine ⟨?_, rfl, b2, b4⟩
          simp only [Op.body, bodyBytes, ByteArr.val_ofSlice hp, ByteArr.val_ofSlice hc, ht64, f8,
            hal, f2, f4, append_assoc, hcut]

/-! ### The record walk -/

/-- A body framed as a record. -/
def record (P : Prims) (body : Bytes) : Bytes :=
  leBytes 4 body.length ++ body ++ P.checksum body

/-- One turn of `replay_records`: a record that chains onto `prevHead`. -/
def nextRecord (P : Prims) (prevHead : OpId) (data : Bytes) : Next OpId Op OpLogError :=
  match readLE 4 data with
  | none => .stop
  | some (bodyLen, data) =>
    match takeN (bodyLen + checksumLen) data with
    | none => .stop -- a torn record runs past the end of the file
    | some (rec, rest) =>
      if P.checksum (rec.take bodyLen) ≠ rec.drop bodyLen then
        -- a torn final record is left to the caller
        if rest = [] then .stop else .fail (.format "oplog record corrupt")
      else
        match parseBody P (rec.take bodyLen) with
        | .error e => .fail e
        | .ok op =>
          if op.parent ≠ prevHead then .fail (.format "oplog chain broken")
          else .record op op.id rest

/-- A record of a well-formed op that names the head as its parent is read back. -/
theorem nextRecord_record {P : Prims} {op : Op} (hid : op.id = P.blake3 op.body)
    (hfit : BodyFits op.actor op.payload) (hlen : op.body.length < 2 ^ 32) (rest : Bytes) :
    nextRecord P op.parent (record P op.body ++ rest) = .record op op.id rest := by
  have hread : readLE 4 (record P op.body ++ rest)
      = some (op.body.length, op.body ++ P.checksum op.body ++ rest) := by
    rw [record, append_assoc, append_assoc, readLE_append_of_lt _ hlen,
      append_assoc]
  have htake : takeN (op.body.length + checksumLen) (op.body ++ P.checksum op.body ++ rest)
      = some (op.body ++ P.checksum op.body, rest) :=
    takeN_append' _ _ (by simp [checksumLen])
  have hparse := parseBody_bodyBytes P op.parent op.changeId op.timestampMs hfit
  have hop : (⟨P.blake3 op.body, op.parent, op.changeId, op.timestampMs, op.actor,
      op.payload⟩ : Op) = op := by rw [← hid]
  rw [show bodyBytes op.parent op.changeId op.timestampMs op.actor op.payload = op.body from rfl,
    hop] at hparse
  simp only [nextRecord, hread, htake, take_left, drop_left, ne_eq, not_true_eq_false,
    ↓reduceIte, hparse]

/-- What the walk takes for a record is the record of a well-formed op. -/
theorem nextRecord_sound {P : Prims} {prevHead s : OpId} {data rest : Bytes} {op : Op}
    (h : nextRecord P prevHead data = .record op s rest) :
    data = record P op.body ++ rest ∧ s = op.id ∧ op.parent = prevHead ∧
      op.id = P.blake3 op.body ∧ BodyFits op.actor op.payload ∧ op.body.length < 2 ^ 32 := by
  rw [nextRecord] at h
  split at h
  · cases h
  · rename_i bodyLen data' hread
    split at h
    · cases h
    · rename_i rec rest' htake
      split at h
      · split at h <;> cases h
      · rename_i hcheck
        split at h
        · cases h
        · rename_i op' hparse
          split at h
          · cases h
          · rename_i hparent
            cases h
            rw [not_not] at hcheck hparent
            obtain ⟨hbody, hid, hfit⟩ := parseBody_sound hparse
            simp only [readLE, Option.map_eq_some_iff, Prod.mk.injEq] at hread
            obtain ⟨⟨len4, after⟩, hlen4, rfl, rfl⟩ := hread
            obtain ⟨rfl, hl4⟩ := takeN_eq_some.mp hlen4
            obtain ⟨rfl, hrec⟩ := takeN_eq_some.mp htake
            have hlt := leNat_lt len4
            rw [hl4] at hlt
            have hlen : op.body.length = leNat len4 := by
              rw [← hbody, length_take, hrec]
              exact Nat.min_eq_left (Nat.le_add_right _ _)
            have hfield : leBytes 4 op.body.length = len4 := by
              rw [hlen, ← hl4, leBytes_leNat]
            refine ⟨?_, rfl, hparent, hbody ▸ hid, hfit, hlen ▸ hlt⟩
            rw [record, hfield, ← hbody, hcheck]
            simp only [append_assoc]
            rw [← append_assoc (rec.take _), take_append_drop]

theorem length_record (P : Prims) (body : Bytes) : (record P body).length = body.length + 12 := by
  simp only [record, length_append, length_leBytes, Prims.length_checksum]
  omega

/-- The op log's record walk, its state the id the next record must name as parent. -/
def OpLog.framing (P : Prims) : Framing OpId Op OpLogError where
  next := nextRecord P
  local_record := by
    intro s s' data rest op h
    obtain ⟨rfl, rfl, rfl, hid, hfit, hlen⟩ := nextRecord_sound h
    refine ⟨_, rfl, ?_, nextRecord_record hid hfit hlen⟩
    rw [← length_pos_iff, length_record]
    omega

/-! ### Chains -/

/-- A chain of well-formed ops from `prevHead` on, each naming the one before it. -/
def Linked (P : Prims) (prevHead : OpId) : List Op → Prop
  | [] => True
  | op :: ops =>
    op.parent = prevHead ∧ op.id = P.blake3 op.body ∧ BodyFits op.actor op.payload ∧
      op.body.length < 2 ^ 32 ∧ Linked P op.id ops

/-- The head of a chain that starts at `prevHead`. -/
def headFrom (prevHead : OpId) (ops : List Op) : OpId := (ops.getLast?.map Op.id).getD prevHead

@[simp] theorem headFrom_nil (prevHead : OpId) : headFrom prevHead [] = prevHead := rfl

@[simp] theorem headFrom_cons (prevHead : OpId) (op : Op) (ops : List Op) :
    headFrom prevHead (op :: ops) = headFrom op.id ops := by
  cases ops with
  | nil => rfl
  | cons op' ops => rw [headFrom, headFrom, getLast?_cons_cons, getLast?_cons]; rfl

/-- The encoding of a list of ops. -/
def records (P : Prims) (ops : List Op) : Bytes := ops.flatMap fun op => record P op.body

@[simp] theorem records_nil (P : Prims) : records P [] = [] := rfl

@[simp] theorem records_cons (P : Prims) (op : Op) (ops : List Op) :
    records P (op :: ops) = record P op.body ++ records P ops := by
  simp [records]

@[simp] theorem records_append (P : Prims) (ops ops' : List Op) :
    records P (ops ++ ops') = records P ops ++ records P ops' := by
  simp [records]

theorem headFrom_append (prevHead : OpId) (ops ops' : List Op) :
    headFrom prevHead (ops ++ ops') = headFrom (headFrom prevHead ops) ops' := by
  induction ops generalizing prevHead with
  | nil => simp
  | cons op ops ih => rw [cons_append, headFrom_cons, headFrom_cons, ih]

theorem Linked.append {P : Prims} {prevHead : OpId} {ops ops' : List Op}
    (h : Linked P prevHead ops) (h' : Linked P (headFrom prevHead ops) ops') :
    Linked P prevHead (ops ++ ops') := by
  induction ops generalizing prevHead with
  | nil => exact h'
  | cons op ops ih =>
    obtain ⟨h1, h2, h3, h4, hrest⟩ := h
    rw [headFrom_cons] at h'
    exact ⟨h1, h2, h3, h4, ih hrest h'⟩

theorem Linked.left {P : Prims} {prevHead : OpId} {ops ops' : List Op}
    (h : Linked P prevHead (ops ++ ops')) : Linked P prevHead ops := by
  induction ops generalizing prevHead with
  | nil => trivial
  | cons op ops ih =>
    obtain ⟨h1, h2, h3, h4, hrest⟩ := h
    exact ⟨h1, h2, h3, h4, ih hrest⟩

theorem Linked.right {P : Prims} {prevHead : OpId} {ops ops' : List Op}
    (h : Linked P prevHead (ops ++ ops')) : Linked P (headFrom prevHead ops) ops' := by
  induction ops generalizing prevHead with
  | nil => exact h
  | cons op ops ih =>
    obtain ⟨-, -, -, -, hrest⟩ := h
    rw [headFrom_cons]
    exact ih hrest

/-- **The walk reads exactly the encodings of chains.** -/
theorem reads_iff {P : Prims} {prevHead s : OpId} {body : Bytes} {ops : List Op} :
    (OpLog.framing P).Reads prevHead body ops s ↔
      body = records P ops ∧ Linked P prevHead ops ∧ s = headFrom prevHead ops := by
  constructor
  · intro h
    induction h with
    | nil s => exact ⟨rfl, trivial, rfl⟩
    | cons hb hn _ ih =>
      obtain ⟨hdata, rfl, rfl, hid, hfit, hlen⟩ := nextRecord_sound (hn [])
      obtain ⟨rfl, hlinked, rfl⟩ := ih
      rw [append_nil, append_nil] at hdata
      exact ⟨by rw [hdata, records_cons], ⟨rfl, hid, hfit, hlen, hlinked⟩, (headFrom_cons ..).symm⟩
  · rintro ⟨rfl, hlinked, rfl⟩
    induction ops generalizing prevHead with
    | nil => exact .nil _
    | cons op ops ih =>
      obtain ⟨rfl, hid, hfit, hlen, hlinked⟩ := hlinked
      have hpos : record P op.body ≠ [] := by
        rw [← length_pos_iff, length_record]
        omega
      have hnext : ∀ rest, (OpLog.framing P).next op.parent (record P op.body ++ rest)
          = .record op op.id rest := fun rest => nextRecord_record hid hfit hlen rest
      rw [records_cons, headFrom_cons]
      exact .cons hpos hnext (ih hlinked)

end Alt
