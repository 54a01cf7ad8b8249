import Alt.OpLog.Log

namespace Alt

open Alt.Library List

/-!
# Append requests on a file with a torn tail

`Request` is what a caller asks a log to append: a given payload (`append`) or one built
against the ops there are (`append_checked`).  A dead writer may have left the front of a
record behind the chain (`Torn`); catching up cuts it off, and `Request.run_cases` says how
a request can end on such a file.
-/

/-! ### Torn records -/

/-- Less than one whole record, read from its start. -/
def Torn (P : Prims) (torn : Bytes) : Prop :=
  ∃ body n, body.length < 2 ^ 32 ∧ n < (record P body).length ∧ torn = (record P body).take n

theorem torn_nil (P : Prims) : Torn P [] :=
  ⟨[], 0, by decide, by rw [length_record]; omega, rfl⟩

/-- Cutting a torn record leaves a torn record. -/
theorem Torn.take {P : Prims} {torn : Bytes} (h : Torn P torn) (m : Nat) :
    Torn P (torn.take m) := by
  obtain ⟨body, n, hbody, hn, rfl⟩ := h
  refine ⟨body, min m n, hbody, lt_of_le_of_lt (Nat.min_le_right m n) hn, ?_⟩
  rw [take_take]

/-- A record cut short is no record. -/
theorem nextRecord_torn {P : Prims} {torn : Bytes} (h : Torn P torn) (prevHead : OpId) :
    nextRecord P prevHead torn = .stop := by
  obtain ⟨body, n, hbody, hn, rfl⟩ := h
  rw [length_record] at hn
  unfold nextRecord
  by_cases hshort : n < 4
  · -- not even the length field is there
    have hnone : readLE 4 ((record P body).take n) = none := by
      rw [readLE, Option.map_eq_none_iff, takeN_eq_none, length_take]
      omega
    rw [hnone]
  · have hlen : (record P body).take n
        = leBytes 4 body.length ++ (body ++ P.checksum body).take (n - 4) := by
      rw [record, append_assoc, take_append, length_leBytes,
        take_of_length_le (by rw [length_leBytes]; omega)]
    have hnone : takeN (body.length + checksumLen) ((body ++ P.checksum body).take (n - 4))
        = none := by
      rw [takeN_eq_none, length_take, checksumLen]
      omega
    rw [hlen, readLE_append_of_lt _ hbody]
    dsimp only
    rw [hnone]

theorem Linked.of_prefix {P : Prims} {ops ops' : List Op} (h : Linked P OpId.root ops')
    (hpre : ops <+: ops') : Linked P OpId.root ops := by
  obtain ⟨more, rfl⟩ := hpre
  exact h.left

namespace OpLog

variable {P : Prims}

/-- **Catching up past a torn tail** is catching up without it. -/
theorem catchUp_torn {file torn : Bytes} {front more : List Op}
    (h : Holds P file (front ++ more)) (ht : Torn P torn) :
    catchUp P (file ++ torn) (ofOps P front) = ((file, ofOps P (front ++ more)), .ok ()) := by
  by_cases hnil : torn = []
  · rw [hnil, append_nil]
    exact catchUp_holds h
  · have hpos : 0 < torn.length := length_pos_iff.mpr hnil
    have hfile : file = fileHeader.header ++ records P front ++ records P more := by
      rw [h.1, records_append, append_assoc]
    have hfront : (ofOps P front).lenBytes = (fileHeader.header ++ records P front).length := rfl
    have hbehind : ¬ (file ++ torn).length ≤ (ofOps P front).lenBytes := by
      rw [hfile, hfront]
      simp only [length_append]
      omega
    have hdrop : (file ++ torn).drop (ofOps P front).lenBytes = records P more ++ torn := by
      rw [hfile, hfront, append_assoc, drop_left]
    have hreplay := replayRecords_reads h.2.right (nextRecord_torn ht _)
      ((ofOps P front).ops, (ofOps P front).byId)
    rw [pushOps_ofOps] at hreplay
    have hend : (ofOps P front).lenBytes + (records P more).length
        = (ofOps P (front ++ more)).lenBytes := by
      rw [← h.length, hfile, hfront]
      exact length_append.symm
    have hcut : (records P more).length < (records P more ++ torn).length := by
      rw [length_append]
      omega
    rw [catchUp, if_neg hbehind]
    simp only [hdrop, head_ofOps, hreplay, hcut, ↓reduceIte, hend]
    rw [← h.length, setLen_append, h.length]

/-! ### Requests -/

/-- What a caller asks the log to append. -/
inductive Request
  | plain (payload : Bytes)
  | checked (build : List Op → Except OpLogError Bytes)

namespace Request

/-- The payload a request comes to against the ops there are. -/
def payload (ops : List Op) : Request → Except OpLogError Bytes
  | .plain payload => .ok payload
  | .checked build => build ops

/-- `append` or `append_checked`. -/
def run (P : Prims) (file : Bytes) (log : OpLog) (actor : String) (timestampMs : UInt64) :
    Request → (Bytes × OpLog) × Except OpLogError OpId
  | .plain payload => append P file log actor timestampMs payload
  | .checked build =>
    let r := appendChecked P id file log actor timestampMs () fun _ ops => ((), build ops)
    (r.1.1, r.2)

/-- The body a request comes to against these ops fits the record's length field. -/
def Fits (req : Request) (actor : String) (ops : List Op) : Prop :=
  ∀ payload, req.payload ops = .ok payload →
    bodyFixedLen + (utf8 actor).length + payload.length < 2 ^ 32

/-- Writing the record of a fitting body onto a chain. -/
theorem writeRecord_chain {ops : List Op} (h : Linked P OpId.root ops) (timestampMs : UInt64)
    {actor : String} {payload : Bytes} (hfit : BodyFits actor payload)
    (hbody : bodyFixedLen + (utf8 actor).length + payload.length < 2 ^ 32) :
    Linked P OpId.root (ops ++ [newOp P ops actor timestampMs payload]) ∧
    writeRecord P (fileHeader.header ++ records P ops) (ofOps P ops) actor timestampMs payload
      = ((fileHeader.header ++ records P (ops ++ [newOp P ops actor timestampMs payload]),
          ofOps P (ops ++ [newOp P ops actor timestampMs payload])),
        (newOp P ops actor timestampMs payload).id) := by
  have hsize : (newOp P ops actor timestampMs payload).body.length < 2 ^ 32 := by
    rw [Op.body, length_bodyBytes]
    exact hbody
  obtain ⟨file', hholds, hwrite⟩ := writeRecord_holds (P := P) ⟨rfl, h⟩ hfit hsize
  rw [hholds.1] at hwrite
  exact ⟨hholds.2, hwrite⟩

/-- How a request can end: refused with nothing done, refused after catching up, or
    written behind the chain. -/
inductive Ended (P : Prims) (file torn : Bytes) (front ops : List Op) (req : Request)
    (actor : String) (timestampMs : UInt64) : (Bytes × OpLog) × Except OpLogError OpId → Prop
  | refused (e : OpLogError) :
      Ended P file torn front ops req actor timestampMs ((file ++ torn, ofOps P front), .error e)
  | rejected (e : OpLogError) :
      Ended P file torn front ops req actor timestampMs ((file, ofOps P ops), .error e)
  | written {payload : Bytes} : req.payload ops = .ok payload →
      Linked P OpId.root (ops ++ [newOp P ops actor timestampMs payload]) →
      Ended P file torn front ops req actor timestampMs
        ((fileHeader.header ++ records P (ops ++ [newOp P ops actor timestampMs payload]),
            ofOps P (ops ++ [newOp P ops actor timestampMs payload])),
          .ok (newOp P ops actor timestampMs payload).id)

/-- **How a request ends**, for a handle that has read a front of the chain. -/
theorem run_cases {file torn : Bytes} {front more : List Op}
    (h : Holds P file (front ++ more)) (ht : Torn P torn) (req : Request) {actor : String}
    (timestampMs : UInt64) (hfits : req.Fits actor (front ++ more)) :
    Ended P file torn front (front ++ more) req actor timestampMs
      (req.run P (file ++ torn) (ofOps P front) actor timestampMs) := by
  have hcatch := catchUp_torn h ht
  obtain ⟨rfl, hlinked⟩ := h
  have hops : (ofOps P (front ++ more)).ops = front ++ more := rfl
  cases req with
  | plain payload =>
    by_cases hactor : 2 ^ 16 ≤ (utf8 actor).length
    · simp only [run, append, if_pos hactor]
      exact .refused _
    · by_cases hpayload : 2 ^ 32 ≤ payload.length
      · simp only [run, append, if_neg hactor, if_pos hpayload]
        exact .refused _
      · obtain ⟨hlinked', hwrite⟩ := writeRecord_chain hlinked timestampMs
          ⟨by omega, by omega⟩ (hfits payload rfl)
        simp only [run, append, if_neg hactor, if_neg hpayload, hcatch, hwrite]
        exact .written rfl hlinked'
  | checked build =>
    by_cases hactor : 2 ^ 16 ≤ (utf8 actor).length
    · simp only [run, appendChecked, if_pos hactor]
      exact .refused _
    · cases hbuild : build (front ++ more) with
      | error e =>
        simp only [run, appendChecked, if_neg hactor, hcatch, hops, hbuild]
        exact .rejected e
      | ok payload =>
        by_cases hpayload : 2 ^ 32 ≤ payload.length
        · simp only [run, appendChecked, if_neg hactor, hcatch, hops, hbuild, if_pos hpayload]
          exact .rejected _
        · obtain ⟨hlinked', hwrite⟩ := writeRecord_chain hlinked timestampMs
            ⟨by omega, by omega⟩ (hfits payload hbuild)
          simp only [run, appendChecked, if_neg hactor, hcatch, hops, hbuild, if_neg hpayload,
            hwrite]
          exact .written hbuild hlinked'

end Request

end OpLog

end Alt
