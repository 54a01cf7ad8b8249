import Alt.Refs.Store
import Alt.Wire.PushPayload

namespace Alt.Server

open Alt.Library Alt.Wire List

/-!
# What the server writes back (`altd_server.rs`, `alt-wire/src/ls_refs.rs`)

The outcome of a push and the report made of it, the ref advertisement and the ref listing.
Every line goes through `writeData`, which asserts that it fits a pkt-line.

A command line of a request fits a pkt-line itself, but the replies say more than the
request did: a reason behind the name, the name again in the reason, the capabilities behind
the first ref.  `replies_fit` says exactly when everything fits.
-/

/-! ### The outcome of a push -/

/-- The result of verifying a push signature. -/
inductive SigOutcome
  | verified (principalId : String)
  | noSignature
  | badSignature (e : String)
  | unknownPrincipal (id : String)
  deriving DecidableEq

def describeSig : SigOutcome → String
  | .verified _ => "verified"
  | .noSignature => "no signature attached"
  | .badSignature e => "signature did not verify (" ++ e ++ ")"
  | .unknownPrincipal id => "principal '" ++ id ++ "' not in trust store"

/-- What the signed-commit check finds wrong with a commit. -/
inductive CommitFault
  | missing (oid : ObjectId)
  | unsigned (oid : ObjectId)
  | untrusted (oid : ObjectId) (principal : String)
  | badSig (oid : ObjectId) (principal : String)
  deriving DecidableEq

def showOid (oid : ObjectId) : String := String.ofList oid.hexText

def CommitFault.reason : CommitFault → String
  | .missing oid => "commit " ++ showOid oid ++ " missing from odb after ingest"
  | .unsigned oid => "commit " ++ showOid oid ++ " missing alt-sig (require-signed-commits)"
  | .untrusted oid principal =>
    "commit " ++ showOid oid ++ " signed by '" ++ principal ++ "' not in trust store"
  | .badSig oid principal =>
    "commit " ++ showOid oid ++ " alt-sig did not verify against trust['" ++ principal ++ "']"

/-- The text of a ref store error (`Display`). -/
def displayRefError : Refs.RefError → String
  | .opLog _ => "oplog"
  | .format message => "ref format: " ++ message
  | .conflict name => "ref " ++ name ++ ": expected state does not match"
  | .symrefDepth name => "symref chain too deep resolving " ++ name
  | .reservedPayload kind =>
    "payload kind " ++ toString kind.toNat ++ " is reserved for ref transactions"
  | .capabilityDenied message => "capability denied: " ++ message
  | .rejected reason => reason

/-- How a push that was read to its end came out. -/
inductive PushOutcome
  | sigBlocked (o : SigOutcome)
  | commitBlocked (fault : CommitFault)
  | unpackFailed (reason : String)
  | refused (e : Refs.RefError)
  | notDurable (e : String)
  | committed
  deriving DecidableEq

def PushOutcome.unpackResult : PushOutcome → Except String Unit
  | .unpackFailed reason => .error reason
  | _ => .ok ()

/-- The reason every command is refused for, if it is. -/
def PushOutcome.commandReason : PushOutcome → Option String
  | .sigBlocked o => some ("signature required: " ++ describeSig o)
  | .commitBlocked fault => some fault.reason
  | .unpackFailed _ => some "pack unpack failed"
  | .refused e => some ("ref tx: " ++ displayRefError e)
  | .notDurable e => some ("durability: " ++ e)
  | .committed => none

def commandStatus (outcome : PushOutcome) (u : RefUpdate) : CommandStatus :=
  match outcome.commandReason with
  | some reason => .ng u.name reason
  | none => .ok u.name

/-- The body of the reply to a push; `none` when a line trips the assertion. -/
def encodeReply (head : PushHead) (outcome : PushOutcome) : Option Bytes :=
  let commands := head.updates.map (commandStatus outcome)
  if "side-band-64k" ∈ head.capabilities then
    encodeReportStatusSideband outcome.unpackResult commands
  else encodeReportStatus outcome.unpackResult commands

/-- The capabilities of a receive-pack advertisement. -/
def serverCapabilities (nonce : Option String) : List String :=
  ["report-status", "delete-refs", "ofs-delta", "side-band-64k", "agent=alt-server/0.0.0"] ++
    (nonce.map fun n => "alt-nonce=" ++ n).toList

/-! ### The ref listing -/

/-- One entry of a ref listing; the server peels nothing and adds no other annotations. -/
structure RefRecord where
  oid : ObjectId
  name : String
  symrefTarget : Option String
  deriving DecidableEq

def lsRefsLine (r : RefRecord) : Bytes :=
  utf8 (showOid r.oid ++ " " ++ r.name) ++
    (match r.symrefTarget with
      | some t => utf8 (" symref-target:" ++ t)
      | none => []) ++ [10]

def encodeLsRefsResponse (refs : List RefRecord) : Option Bytes :=
  (writeLines [] (refs.map lsRefsLine)).map writeFlush

/-! ### The lengths of the lines -/

/-- Bytes in a string. -/
def blen (s : String) : Nat := (utf8 s).length

theorem blen_append (s t : String) : blen (s ++ t) = blen s + blen t := by
  rw [blen, utf8_append, length_append]
  rfl

theorem blen_showOid (oid : ObjectId) : blen (showOid oid) = oid.algo.hexLen :=
  ObjectId.length_utf8_hexText oid

theorem length_unpackLine_error (reason : String) :
    (unpackLine (.error reason)).length = blen reason + 8 := by
  have h1 : blen "unpack " = 7 := by decide
  have h2 : blen "\n" = 1 := by decide
  have h : (unpackLine (.error reason)).length = blen ("unpack " ++ reason ++ "\n") := rfl
  rw [h, blen_append, blen_append, h1, h2]
  omega

theorem length_statusLine_ok (name : String) :
    (statusLine (.ok name)).length = blen name + 4 := by
  have h1 : blen "ok " = 3 := by decide
  have h2 : blen "\n" = 1 := by decide
  have h : (statusLine (.ok name)).length = blen ("ok " ++ name ++ "\n") := rfl
  rw [h, blen_append, blen_append, h1, h2]
  omega

theorem length_statusLine_ng (name reason : String) :
    (statusLine (.ng name reason)).length = blen name + blen reason + 5 := by
  have h1 : blen "ng " = 3 := by decide
  have h2 : blen " " = 1 := by decide
  have h3 : blen "\n" = 1 := by decide
  have h : (statusLine (.ng name reason)).length
      = blen ("ng " ++ name ++ " " ++ reason ++ "\n") := rfl
  rw [h, blen_append, blen_append, blen_append, blen_append, h1, h2, h3]
  omega

theorem length_refLine (caps : String) (i : Nat) (name : String) (oid : ObjectId) :
    (refLine caps i name oid).length
      = oid.algo.hexLen + blen name + 2 + if i = 0 then blen caps + 1 else 0 := by
  have h1 : blen " " = 1 := by decide
  have h : (refLine caps i name oid).length = blen (showOid oid ++ " " ++ name) +
      (if i = 0 then 0 :: utf8 caps else []).length + 1 := by
    rw [refLine, length_append, length_append]
    rfl
  rw [h, blen_append, blen_append, blen_showOid, h1]
  split
  · rw [length_cons]
    simp only [blen]
    omega
  · rw [length_nil]
    omega

theorem length_lsRefsLine (r : RefRecord) :
    (lsRefsLine r).length
      = r.oid.algo.hexLen + blen r.name + 2 + match r.symrefTarget with
        | some t => blen t + 15
        | none => 0 := by
  have h1 : blen " " = 1 := by decide
  have h2 : blen " symref-target:" = 15 := by decide
  have h3 : blen (showOid r.oid ++ " " ++ r.name) = r.oid.algo.hexLen + 1 + blen r.name := by
    rw [blen_append, blen_append, blen_showOid, h1]
  rw [lsRefsLine, length_append, length_append,
    show (utf8 (showOid r.oid ++ " " ++ r.name)).length = _ from h3]
  cases r.symrefTarget with
  | none =>
    simp only [length_nil, length_singleton]
    omega
  | some t =>
    have h4 : (utf8 (" symref-target:" ++ t)).length = 15 + blen t := by
      rw [← h2]
      exact blen_append _ _
    simp only [h4, length_singleton]
    omega

/-! ### When everything fits -/

/-- The first line of an advertisement carries the capabilities. -/
def AdvertisementFits (refs : List (String × ObjectId)) (caps : String) : Prop :=
  (∀ r ∈ refs, blen r.1 + r.2.algo.hexLen + 2 ≤ maxPayload) ∧
    ∀ r, refs.head? = some r → blen r.1 + r.2.algo.hexLen + blen caps + 3 ≤ maxPayload

/-- A symbolic ref's line carries its target. -/
def ListingFits (records : List RefRecord) : Prop :=
  ∀ r ∈ records, blen r.name + r.oid.algo.hexLen + 2
    + (match r.symrefTarget with
      | some t => blen t + 15
      | none => 0) ≤ maxPayload

/-- A reason stands behind the name it refuses. -/
def ReasonsFit (head : PushHead) (outcome : PushOutcome) : Prop :=
  (∀ reason, outcome.unpackResult = .error reason → blen reason + 8 ≤ maxPayload) ∧
    ∀ reason, outcome.commandReason = some reason →
      ∀ u ∈ head.updates, blen u.name + blen reason + 5 ≤ maxPayload

theorem isSome_writeLines_map {w : Bytes} {lines : List Bytes} :
    ((writeLines w lines).map writeFlush).isSome ↔ ∀ line ∈ lines, line.length ≤ maxPayload := by
  rw [Option.isSome_map, writeLines_isSome]

theorem length_chunk_le {n : Nat} {b chunk : Bytes} (h : chunk ∈ chunks n b) :
    chunk.length ≤ n := by
  obtain ⟨i, -, rfl⟩ := mem_map.mp h
  exact length_take_le _ _

/-- The frames of a report in band 1 always fit. -/
theorem isSome_sideband (unpack : Except String Unit) (commands : List CommandStatus) :
    (encodeReportStatusSideband unpack commands).isSome
      ↔ (encodeReportStatus unpack commands).isSome := by
  have hframes : ∀ inner : Bytes,
      (writeLines [] ((chunks (maxLineLen - 5) inner).map fun chunk => 1 :: chunk)).isSome := by
    intro inner
    rw [writeLines_isSome]
    intro line hline
    obtain ⟨chunk, hchunk, rfl⟩ := mem_map.mp hline
    have hmax : maxLineLen - 5 + 1 = maxPayload := by simp only [maxPayload, maxLineLen]
    rw [length_cons, ← hmax]
    exact Nat.succ_le_succ (length_chunk_le hchunk)
  cases hinner : encodeReportStatus unpack commands with
  | none =>
    have hnone : encodeReportStatusSideband unpack commands = none := by
      rw [encodeReportStatusSideband, hinner]
      rfl
    rw [hnone]
  | some inner =>
    obtain ⟨w, hw⟩ := Option.isSome_iff_exists.mp (hframes inner)
    have hsome : encodeReportStatusSideband unpack commands = some (writeFlush w) := by
      rw [encodeReportStatusSideband, hinner, Option.bind_eq_bind, Option.bind_some, hw]
      rfl
    rw [hsome, Option.isSome_some, Option.isSome_some]

theorem encodeReply_isSome {head : PushHead} (ha : Accepted .sha1 head) (outcome : PushOutcome) :
    (encodeReply head outcome).isSome ↔ ReasonsFit head outcome := by
  have hreport : (encodeReply head outcome).isSome
      ↔ (encodeReportStatus outcome.unpackResult
          (head.updates.map (commandStatus outcome))).isSome := by
    unfold encodeReply
    split
    · exact isSome_sideband _ _
    · exact Iff.rfl
  rw [hreport, encodeReportStatus, isSome_writeLines_map, forall_mem_cons, ReasonsFit]
  apply and_congr
  · cases hunpack : outcome.unpackResult with
    | ok _ => simp [unpackLine, show (utf8 "unpack ok\n").length = 10 by decide, maxPayload, maxLineLen]
    | error reason =>
      rw [length_unpackLine_error]
      exact ⟨fun h reason' hr => by cases hr; exact h, fun h => h reason rfl⟩
  · simp only [forall_mem_map]
    cases hreason : outcome.commandReason with
    | none =>
      -- an accepted name fits behind "ok"
      refine iff_of_true (fun u hu => ?_) fun reason hr => by cases hr
      have hname := ha.name_le u hu
      rw [commandStatus, hreason, length_statusLine_ok, blen]
      have hhex : HashAlgo.sha1.hexLen = 40 := rfl
      omega
    | some reason =>
      refine ⟨fun h reason' hr u hu => ?_, fun h u hu => ?_⟩
      · cases hr
        have hline := h u hu
        rw [commandStatus, hreason, length_statusLine_ng] at hline
        exact hline
      · rw [commandStatus, hreason, length_statusLine_ng]
        exact h reason rfl u hu

theorem advertisementFits_iff {caps : String} {refs : List (String × ObjectId)} :
    (∀ line ∈ refs.zipIdx.map (fun (r, i) => refLine caps i r.1 r.2), line.length ≤ maxPayload)
      ↔ AdvertisementFits refs caps := by
  have hmem : ∀ r i, (r, i) ∈ refs.zipIdx ↔ refs[i]? = some r := fun r i => by
    rw [mem_zipIdx_iff_getElem?]
  have hhead : refs.head? = refs[0]? := by rw [head?_eq_getElem?]
  simp only [forall_mem_map, Prod.forall, hmem, length_refLine, AdvertisementFits, hhead]
  constructor
  · intro h
    refine ⟨fun name oid hr => ?_, fun name oid hr => ?_⟩
    · obtain ⟨i, hi⟩ := mem_iff_getElem?.mp hr
      have hline := h name oid i hi
      omega
    · have hline := h name oid 0 hr
      rw [if_pos rfl] at hline
      omega
  · rintro ⟨hall, hfirst⟩ name oid i hi
    split
    · rename_i hzero
      subst hzero
      have hline := hfirst name oid hi
      omega
    · have hline := hall name oid (mem_of_getElem? hi)
      omega

/-- A nonce is 32 hex digits (`NonceTable::issue`). -/
def IssuedNonce (nonce : Option String) : Prop := ∀ n, nonce = some n → blen n = 32

/-- The capabilities of an advertisement, as the one string that is sent. -/
def capsBlob (nonce : Option String) : String := " ".intercalate (serverCapabilities nonce)

theorem blen_capsBlob_none : blen (capsBlob none) = 72 := by decide +kernel

theorem blen_capsBlob {nonce : Option String} (h : IssuedNonce nonce) :
    blen (capsBlob nonce) ≤ 200 := by
  cases nonce with
  | none => rw [blen_capsBlob_none]; decide
  | some n =>
    have hblob : capsBlob (some n) = capsBlob none ++ " " ++ ("alt-nonce=" ++ n) := rfl
    have h1 : blen (capsBlob none) = 72 := blen_capsBlob_none
    have h2 : blen " " = 1 := by decide
    have h3 : blen "alt-nonce=" = 10 := by decide
    rw [hblob, blen_append, blen_append, blen_append, h1, h2, h3, h n rfl]
    omega

theorem encodeV1RefAdvertisement_isSome {refs : List (String × ObjectId)} {nonce : Option String}
    (hnonce : IssuedNonce nonce) :
    (encodeV1RefAdvertisement refs (serverCapabilities nonce) .sha1).isSome
      ↔ AdvertisementFits refs (capsBlob nonce) := by
  have hservice : (utf8 "# service=git-receive-pack\n").length ≤ maxPayload := by decide
  have hwrite : (encodeV1RefAdvertisement refs (serverCapabilities nonce) .sha1).isSome
      ↔ ∀ line ∈ advertisementLines refs (serverCapabilities nonce) .sha1,
        line.length ≤ maxPayload := by
    have hlines : encodeV1RefAdvertisement refs (serverCapabilities nonce) .sha1
        = (writeLines (writeFlush ([] ++ hex4 ((utf8 "# service=git-receive-pack\n").length + 4)
            ++ utf8 "# service=git-receive-pack\n"))
          (advertisementLines refs (serverCapabilities nonce) .sha1)).map writeFlush := by
      rw [encodeV1RefAdvertisement, writeData, if_pos hservice, Option.bind_eq_bind,
        Option.bind_some, Option.map_eq_bind]
      rfl
    rw [hlines, isSome_writeLines_map]
  rw [hwrite]
  cases refs with
  | nil =>
    -- the pseudo-ref of an empty repository
    refine iff_of_true (fun line hline => ?_)
      ⟨fun r hr => absurd hr not_mem_nil, fun r hr => by cases hr⟩
    have hcaps := blen_capsBlob hnonce
    have hname : blen "capabilities^\x7b\x7d" = 15 := by decide
    have hhex : HashAlgo.sha1.hexLen = 40 := rfl
    rw [mem_singleton.mp hline, length_refLine, if_pos rfl, ObjectId.algo_zeroOid, hhex, hname]
    have hmax : 1000 ≤ maxPayload := by decide
    have hblob : blen (" ".intercalate (serverCapabilities nonce)) ≤ 200 := hcaps
    omega
  | cons r refs => exact advertisementFits_iff

theorem encodeLsRefsResponse_isSome {records : List RefRecord} :
    (encodeLsRefsResponse records).isSome ↔ ListingFits records := by
  rw [encodeLsRefsResponse, isSome_writeLines_map]
  simp only [forall_mem_map, length_lsRefsLine]
  constructor
  · intro h r hr
    have hline := h r hr
    omega
  · intro h r hr
    have hline := h r hr
    omega

/-- **When the server's lines fit.**  For every accepted request, every outcome of it and
    whatever refs there are: the report, the advertisement and the listing are written
    exactly when the reasons stand within a line behind the names they refuse, the
    capabilities behind the first ref, and the targets of symbolic refs behind theirs.
    The names of accepted requests fit otherwise. -/
theorem replies_fit {head : PushHead} (ha : Accepted .sha1 head) (outcome : PushOutcome)
    (refs : List (String × ObjectId)) {nonce : Option String} (hnonce : IssuedNonce nonce)
    (records : List RefRecord) :
    ((encodeReply head outcome).isSome ∧
      (encodeV1RefAdvertisement refs (serverCapabilities nonce) .sha1).isSome ∧
      (encodeLsRefsResponse records).isSome
      ↔ ReasonsFit head outcome ∧ AdvertisementFits refs (capsBlob nonce) ∧
        ListingFits records) ∧
    ∀ u ∈ head.updates, blen u.name + 2 * HashAlgo.sha1.hexLen + 2 ≤ maxPayload := by
  refine ⟨?_, ha.name_le⟩
  rw [encodeReply_isSome ha, encodeV1RefAdvertisement_isSome hnonce, encodeLsRefsResponse_isSome]

/-! ### A long name -/

theorem displayRefError_conflict (name : String) :
    displayRefError (.conflict name) = "ref " ++ name ++ ": expected state does not match" := rfl

/-- The reason names the ref once more. -/
theorem blen_conflictReason (name : String) :
    blen ("ref tx: " ++ displayRefError (.conflict name)) = blen name + 43 := by
  have hsum : ∀ n, 8 + (4 + n + 31) = n + 43 := fun n => by omega
  have h1 : blen "ref tx: " = 8 := by decide
  have h2 : blen "ref " = 4 := by decide
  have h3 : blen ": expected state does not match" = 31 := by decide +kernel
  rw [blen_append "ref tx: ", displayRefError_conflict, blen_append ("ref " ++ name),
    blen_append "ref " name, h1, h2, h3]
  exact hsum _

/-- The replies to one creation, with the ref in the advertisement and the listing. -/
theorem replies_fit_short :
    (encodeReply ⟨[createA], []⟩ (.refused (.conflict "refs/heads/a"))).isSome ∧
      (encodeV1RefAdvertisement [("refs/heads/a", firstId)] (serverCapabilities none) .sha1).isSome ∧
      (encodeLsRefsResponse [⟨firstId, "HEAD", some "refs/heads/a"⟩]).isSome := by
  have hnonce : IssuedNonce none := fun n hn => by cases hn
  have hname : blen "refs/heads/a" = 12 := by decide
  have hhead : blen "HEAD" = 4 := by decide
  have hcaps : blen (capsBlob none) = 72 := blen_capsBlob_none
  have halgo : firstId.algo.hexLen = 40 := rfl
  have hmax : maxPayload = 65516 := rfl
  refine ((replies_fit (accepted_creations (by simp)) (.refused (.conflict "refs/heads/a"))
    [("refs/heads/a", firstId)] hnonce [⟨firstId, "HEAD", some "refs/heads/a"⟩]).1).mpr
    ⟨⟨?_, ?_⟩, ⟨?_, ?_⟩, ?_⟩
  · intro reason hr
    cases hr
  · intro reason hr u hu
    cases hr
    rw [mem_singleton.mp hu, show createA.name = "refs/heads/a" from rfl,
      blen_conflictReason, hname, hmax]
    omega
  · intro r hr
    rw [mem_singleton.mp hr, hname, halgo, hmax]
    omega
  · intro r hr
    cases hr
    rw [hname, halgo, hcaps, hmax]
    omega
  · intro r hr
    rw [mem_singleton.mp hr]
    simp only [hhead, halgo, hname, hmax]
    omega

/-- An update of a ref that the repository does not have. -/
def renew (name : String) : RefUpdate := ⟨some firstId, some secondId, name⟩

/-- A name that fills its command line: the request is accepted and its transaction
    conflicts, and the report cannot be written.  Nor can the advertisement, once a ref has
    that name. -/
theorem replies_long_name {name : String} (hnul : '\x00' ∉ name.toList)
    (hname : blen name = 65433) :
    Accepted .sha1 ⟨[renew name], []⟩ ∧
      Refs.applyChanges ∅ [⟨name, some (.oid firstId), some (.oid secondId)⟩] false
        = .error (.conflict name) ∧
      encodeReply ⟨[renew name], []⟩ (.refused (.conflict name)) = none ∧
      encodeV1RefAdvertisement [(name, firstId)] (serverCapabilities none) .sha1 = none := by
  have hmax : maxPayload = 65516 := rfl
  have hwell : WellFormed .sha1 (renew name) := by
    refine ⟨fun x hx => ?_, fun x hx => ?_, hnul⟩
    · cases hx
      exact ⟨rfl, by decide⟩
    · cases hx
      exact ⟨rfl, by decide⟩
  have ha : Accepted .sha1 ⟨[renew name], []⟩ := by
    refine accepted_of_fits (fun u hu => mem_singleton.mp hu ▸ hwell) fun u hu => ?_
    rw [mem_singleton.mp hu, length_updateLine hwell]
    have hhex : HashAlgo.sha1.hexLen = 40 := rfl
    rw [hhex, show (utf8 (renew name).name).length = _ from hname, hmax]
  refine ⟨ha, ?_, ?_, ?_⟩
  · simp [Refs.applyChanges]
  · rw [← Option.not_isSome_iff_eq_none, encodeReply_isSome ha]
    rintro ⟨-, hfits⟩
    have hline := hfits _ rfl (renew name) mem_cons_self
    rw [show (renew name).name = name from rfl, blen_conflictReason, hname, hmax] at hline
    omega
  · have hnonce : IssuedNonce none := fun n hn => by cases hn
    rw [← Option.not_isSome_iff_eq_none, encodeV1RefAdvertisement_isSome hnonce]
    rintro ⟨-, hfirst⟩
    have hline := hfirst _ rfl
    have halgo : firstId.algo.hexLen = 40 := rfl
    simp only [hname, blen_capsBlob_none, halgo, hmax] at hline
    omega

theorem nul_notMem_letters (n : Nat) :
    '\x00' ∉ (String.ofList (List.replicate n 'a')).toList := by
  rw [String.toList_ofList]
  exact fun hmem => absurd (eq_of_mem_replicate hmem) (by decide)

/-- The longest name of an update that a request can carry. -/
def lineName : String := String.ofList (List.replicate 65433 'a')

theorem length_lineName : (utf8 lineName).length = 65433 := length_utf8_replicate 65433

theorem blen_lineName : blen lineName = 65433 := length_lineName

theorem replies_fit_fails :
    Accepted .sha1 ⟨[renew lineName], []⟩ ∧
      Refs.applyChanges ∅ [⟨lineName, some (.oid firstId), some (.oid secondId)⟩] false
        = .error (.conflict lineName) ∧
      encodeReply ⟨[renew lineName], []⟩ (.refused (.conflict lineName)) = none ∧
      encodeV1RefAdvertisement [(lineName, firstId)] (serverCapabilities none) .sha1 = none := by
  exact replies_long_name (nul_notMem_letters 65433) blen_lineName

end Alt.Server
