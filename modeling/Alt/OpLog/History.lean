import Alt.OpLog.Chain

namespace Alt

open Alt.Library List

/-!
# The head id commits to the history

A log that opens holds a chain of well-formed ops (`OpLog.openLog_linked`), and a chain is
determined by its last id: the id is the hash of a body, the body names the op's fields and
the id before it.  The body layout is injective on what its length fields can say
(`bodyBytes_injective`), and `parseBody` takes exactly the layouts
(`parseBody_eq_ok_iff`), with any reserved change id.
-/

/-! ### The body codec -/

/-- **What parses is a layout** of fields that fit, with the body's hash as id. -/
theorem parseBody_eq_ok_iff (P : Prims) (body : Bytes) (op : Op) :
    parseBody P body = .ok op ↔
      BodyFits op.actor op.payload ∧ body = op.body ∧ op.id = P.blake3 body := by
  constructor
  · intro h
    obtain ⟨hbody, hid, hfit⟩ := parseBody_sound h
    exact ⟨hfit, hbody, hid⟩
  · rintro ⟨hfit, rfl, hid⟩
    rw [Op.body, parseBody_bodyBytes P op.parent op.changeId op.timestampMs hfit]
    congr 1
    obtain ⟨id, parent, changeId, timestampMs, actor, payload⟩ := op
    simp only [Op.body] at hid
    rw [← hid]

/-- **The layout is injective** where its length fields can hold the lengths. -/
theorem bodyBytes_injective {p q : OpId} {c d : ByteArr 32} {t u : UInt64} {a b : String}
    {m n : Bytes} (hm : BodyFits a m) (hn : BodyFits b n)
    (h : bodyBytes p c t a m = bodyBytes q d u b n) :
    p = q ∧ c = d ∧ t = u ∧ a = b ∧ m = n := by
  have hparse := parseBody_bodyBytes Prims.toy p c t hm
  rw [h, parseBody_bodyBytes Prims.toy q d u hn] at hparse
  simp only [Except.ok.injEq, Op.mk.injEq, true_and] at hparse
  obtain ⟨rfl, rfl, rfl, rfl, rfl⟩ := hparse
  exact ⟨rfl, rfl, rfl, rfl, rfl⟩

/-- Ops with equal bodies are equal, as long as their ids are the hashes of these. -/
theorem op_eq_of_body_eq {P : Prims} {op op' : Op} (hid : op.id = P.blake3 op.body)
    (hid' : op'.id = P.blake3 op'.body) (hfit : BodyFits op.actor op.payload)
    (hfit' : BodyFits op'.actor op'.payload) (h : op.body = op'.body) : op = op' := by
  have hsame : op.id = op'.id := by rw [hid, hid', h]
  obtain ⟨h1, h2, h3, h4, h5⟩ := bodyBytes_injective hfit hfit' h
  obtain ⟨id, parent, changeId, timestampMs, actor, payload⟩ := op
  simp only at hsame h1 h2 h3 h4 h5
  subst hsame h1 h2 h3 h4 h5
  rfl

/-! ### Chains with one head -/

/-- The last op of a chain, and the chain before it. -/
theorem Linked.concat {P : Prims} {prevHead : OpId} {ops : List Op} {op : Op}
    (h : Linked P prevHead (ops ++ [op])) :
    Linked P prevHead ops ∧ op.parent = headFrom prevHead ops ∧ op.id = P.blake3 op.body ∧
      BodyFits op.actor op.payload := by
  obtain ⟨hparent, hid, hfit, -⟩ := h.right
  exact ⟨h.left, hparent, hid, hfit⟩

/-- **Chains that end in one id are equal**, where no bodies collide. -/
theorem Linked.eq_of_headFrom {P : Prims} {ops ops' : List Op} (h : Linked P OpId.root ops)
    (h' : Linked P OpId.root ops') (hfree : CollisionFree P (ops ++ ops'))
    (hhead : headFrom OpId.root ops = headFrom OpId.root ops') : ops = ops' := by
  -- from the heads backwards: equal ids, equal bodies, equal parents
  induction ops using List.reverseRecOn generalizing ops' with
  | nil =>
    induction ops' using List.reverseRecOn with
    | nil => rfl
    | append_singleton ops' op' _ =>
      obtain ⟨-, -, hid', -⟩ := h'.concat
      rw [headFrom_append, headFrom_nil, headFrom_cons, headFrom_nil] at hhead
      exact absurd (hid'.symm.trans hhead.symm) (hfree.ne_root op' (by simp))
  | append_singleton ops op ih =>
    obtain ⟨hlinked, hparent, hid, hfit⟩ := h.concat
    induction ops' using List.reverseRecOn with
    | nil =>
      rw [headFrom_append, headFrom_nil, headFrom_cons, headFrom_nil] at hhead
      exact absurd (hid.symm.trans hhead) (hfree.ne_root op (by simp))
    | append_singleton ops' op' _ =>
      obtain ⟨hlinked', hparent', hid', hfit'⟩ := h'.concat
      have hids : op.id = op'.id := by
        simpa only [headFrom_append, headFrom_cons, headFrom_nil] using hhead
      have hbody : op.body = op'.body := by
        apply hfree.injOn ⟨op, by simp, rfl⟩ ⟨op', by simp, rfl⟩
        rw [← hid, ← hid', hids]
      have hop : op = op' := op_eq_of_body_eq hid hid' hfit hfit' hbody
      subst hop
      have hfree' : CollisionFree P (ops ++ ops') := by
        refine ⟨hfree.injOn.mono ?_, ?_⟩
        · rintro b ⟨o, ho, hb⟩
          exact ⟨o, by simp only [mem_append] at ho ⊢; tauto, hb⟩
        · intro o ho
          exact hfree.ne_root o (by simp only [mem_append] at ho ⊢; tauto)
      rw [ih hlinked hlinked' hfree' (hparent.symm.trans hparent')]

namespace OpLog

variable {P : Prims}

/-- A scan without an error has read a chain. -/
theorem scan_linked {data : Bytes} {s : Scan} (h : scan P data = .ok s) :
    Linked P OpId.root s.ops := by
  unfold scan at h
  split at h
  · cases h
  rename_i u hcheck
  have hwalk : (framing P).walk OpId.root (data.drop (min fileHeader.headerLen data.length))
      = _ := rfl
  obtain ⟨body, torn, head', -, hreads, -⟩ := Framing.walk_sound hwalk
  unfold replayRecords at h
  cases herr : ((framing P).walk OpId.root
      (data.drop (min fileHeader.headerLen data.length))).error with
  | some e => simp [herr] at h
  | none =>
    simp only [herr, Except.ok.injEq] at h
    rw [← h]
    show Linked P OpId.root (pushOps _ _).1
    rw [pushOps_fst, nil_append]
    exact (reads_iff.mp hreads).2.1

/-- Repairing keeps the ops that were scanned. -/
theorem scanAndRepair_linked {data file : Bytes} {s : Scan}
    (h : scanAndRepair P data = .ok (file, s)) : Linked P OpId.root s.ops := by
  unfold scanAndRepair at h
  split at h
  · cases h
  rename_i s' hscan
  have hlinked := scan_linked hscan
  split at h
  · cases h
    exact hlinked
  · split at h <;> cases h <;> exact hlinked

/-- **A log that opens holds a chain.** -/
theorem openLog_linked {data file : Bytes} {log : OpLog}
    (h : openLog P data = .ok (file, log)) : Linked P OpId.root log.ops := by
  unfold openLog at h
  split at h
  · cases h
  rename_i s hscan
  split at h
  · split at h
    · cases h
    rename_i p hrepair
    cases h
    exact scanAndRepair_linked hrepair
  · cases h
    exact scan_linked hscan

/-- **The op id commits to the whole history.** Two logs that open with one head hold the
    same ops.  The body layout is injective on the lengths the log takes; the parser takes
    exactly the layouts of fields that fit, the writer's among them being those with a zero
    change id. -/
theorem head_commits_to_history (P : Prims) :
    (∀ data data' file file' log log', openLog P data = .ok (file, log) →
      openLog P data' = .ok (file', log') → CollisionFree P (log.ops ++ log'.ops) →
      head log = head log' → log.ops = log'.ops) ∧
    (∀ (p q : OpId) (t u : UInt64) (a b : String) (m n : Bytes), BodyFits a m → BodyFits b n →
      encodeBody p t a m = encodeBody q u b n → p = q ∧ t = u ∧ a = b ∧ m = n) ∧
    (∀ (body : Bytes) (op : Op), parseBody P body = .ok op ↔
      BodyFits op.actor op.payload ∧ op.id = P.blake3 body ∧
        body = bodyBytes op.parent op.changeId op.timestampMs op.actor op.payload) ∧
    (∀ (body : Bytes), (∃ op, parseBody P body = .ok op ∧ op.changeId = .fill 32 0) ↔
      ∃ p t a m, BodyFits a m ∧ body = encodeBody p t a m) := by
  refine ⟨?_, ?_, ?_, ?_⟩
  · intro data data' file file' log log' hopen hopen' hfree hhead
    apply (openLog_linked hopen).eq_of_headFrom (openLog_linked hopen') hfree
    exact congrArg (Option.getD · OpId.root) hhead
  · intro p q t u a b m n hm hn h
    obtain ⟨h1, -, h2, h3, h4⟩ := bodyBytes_injective hm hn h
    exact ⟨h1, h2, h3, h4⟩
  · intro body op
    rw [parseBody_eq_ok_iff, and_comm (a := op.id = _)]
    rfl
  · intro body
    constructor
    · rintro ⟨op, hparse, hchange⟩
      obtain ⟨hfit, hbody, -⟩ := (parseBody_eq_ok_iff P body op).mp hparse
      rw [Op.body, hchange] at hbody
      exact ⟨op.parent, op.timestampMs, op.actor, op.payload, hfit, hbody⟩
    · rintro ⟨p, t, a, m, hfit, rfl⟩
      exact ⟨_, parseBody_bodyBytes P p (.fill 32 0) t hfit, rfl⟩

/-- A log of one op and the same log with a torn tail: the same head, the same ops. -/
theorem head_commits_to_history_torn :
    ∃ file log file' log',
      openLog Prims.toy (fileHeader.header ++ records Prims.toy [newOp Prims.toy [] "a" 1 []])
        = .ok (file, log) ∧
      openLog Prims.toy
          (fileHeader.header ++ records Prims.toy [newOp Prims.toy [] "a" 1 []] ++ [0])
        = .ok (file', log') ∧ log.ops = log'.ops := by
  have hholds : Holds Prims.toy
      (fileHeader.header ++ records Prims.toy [newOp Prims.toy [] "a" 1 []])
      [newOp Prims.toy [] "a" 1 []] :=
    ⟨rfl, rfl, rfl, ⟨by decide, by decide⟩, by decide, trivial⟩
  have hopen := openLog_holds hholds (nextRecord_nil _)
  rw [append_nil] at hopen
  have hopen' := openLog_holds hholds (show nextRecord Prims.toy _ [0] = .stop from rfl)
  refine ⟨_, _, _, _, hopen, hopen', ?_⟩
  apply (head_commits_to_history Prims.toy).1 _ _ _ _ _ _ hopen hopen' ?_ rfl
  refine ⟨?_, ?_⟩
  · rintro _ ⟨op, hop, rfl⟩ _ ⟨op', hop', rfl⟩ _
    have hone : ∀ o ∈ [newOp Prims.toy [] "a" 1 []] ++ [newOp Prims.toy [] "a" 1 []],
        o = newOp Prims.toy [] "a" 1 [] := by simp
    rw [hone op hop, hone op' hop']
  · intro op hop
    have hone : op = newOp Prims.toy [] "a" 1 [] := by
      simpa [ofOps] using hop
    rw [hone]
    decide +kernel

/-- The parser also takes bodies no writer produces: the change id is reserved, and read. -/
theorem reserved_change_id_parses :
    ¬ ∀ body, (∃ op, parseBody Prims.toy body = .ok op) ↔
      ∃ p t a m, body = encodeBody p t a m := by
  intro h
  have hfit : BodyFits "" [] := ⟨by decide, by decide⟩
  have hparse := parseBody_bodyBytes Prims.toy OpId.root (.fill 32 1) 0 hfit
  obtain ⟨p, t, a, m, hbody⟩ := (h _).mp ⟨_, hparse⟩
  -- the change id field reads one way on the left and the other on the right
  have hfield : ∀ (p : OpId) (c : ByteArr 32) (t : UInt64) (a : String) (m : Bytes),
      ((bodyBytes p c t a m).drop 32).take 32 = c.val := by
    intro p c t a m
    simp only [bodyBytes, append_assoc]
    exact (cut_fields (r := utf8 a ++ (leBytes 4 m.length ++ m)) p.2 c.2 (length_leBytes 8 _)
      (length_leBytes 2 _)).2.1
  have hcut := congrArg (fun b : Bytes => (b.drop 32).take 32) hbody
  simp only [encodeBody, hfield] at hcut
  exact absurd hcut (by decide)

end OpLog

end Alt
