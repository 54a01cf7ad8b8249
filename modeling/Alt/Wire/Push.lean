import Alt.GitCodec.Hex
import Alt.Wire.Pkt

namespace Alt.Wire

open Alt.Library

/-!
# `git-receive-pack` framing (`alt-wire/src/push.rs`)

The server's half of a push: the update commands and capabilities it parses
(`parsePushRequestHead`), the bytes a push signature is over
(`canonicalPushPayloadWithNonce`), and the ref advertisement and status report it writes.
-/

/-- One ref update; `none` is the all-zero id: the ref is created, or deleted. -/
structure RefUpdate where
  old : Option ObjectId
  new : Option ObjectId
  name : String
  deriving DecidableEq

/-- The ref updates and the capabilities in front of the pack. -/
structure PushHead where
  updates : List RefUpdate
  capabilities : List String
  deriving DecidableEq

inductive PushError
  | pkt (e : PktError)
  | badRefLine (line : Bytes)
  deriving DecidableEq

/-- The status of one command. -/
inductive CommandStatus
  | ok (name : String)
  | ng (name : String) (reason : String)
  deriving DecidableEq

/-! ### Parsing the request -/

/-- Drops newlines and carriage returns at the end. -/
def trimNewline (b : Bytes) : Bytes := (b.reverse.dropWhile fun x => x = 10 ∨ x = 13).reverse

/-- What stands before the first NUL, and what stands behind it. -/
def splitNul (b : Bytes) : Bytes × Option Bytes :=
  match b.dropWhile (· ≠ 0) with
  | [] => (b, none)
  | _ :: caps => (b.takeWhile (· ≠ 0), some caps)

/-- `splitn(3, ' ')`, when it gives all three parts. -/
def splitn3 (s : List Char) : Option (List Char × List Char × List Char) :=
  match s.dropWhile (· ≠ ' ') with
  | [] => none
  | _ :: rest =>
    match rest.dropWhile (· ≠ ' ') with
    | [] => none
    | _ :: name => some (s.takeWhile (· ≠ ' '), rest.takeWhile (· ≠ ' '), name)

/-- Unicode `White_Space`. -/
def isWhitespace (c : Char) : Bool :=
  (9 ≤ c.toNat && c.toNat ≤ 13) || (0x2000 ≤ c.toNat && c.toNat ≤ 0x200a) ||
    [0x20, 0x85, 0xa0, 0x1680, 0x2028, 0x2029, 0x202f, 0x205f, 0x3000].contains c.toNat

/-- `split_whitespace`. -/
def splitWhitespace (s : String) : List String :=
  ((s.toList.splitOnP isWhitespace).filter (· ≠ [])).map String.ofList

/-- An id of the repository's algorithm. -/
def parseOid (algo : HashAlgo) (s : List Char) : Option ObjectId :=
  (ObjectId.fromHex (utf8 (String.ofList s))).filter fun o => o.algo = algo

/-- The all-zero id stands for no id. -/
def nonzero (algo : HashAlgo) (o : ObjectId) : Option ObjectId :=
  if o = ObjectId.zeroOid algo then none else some o

/-- One command line: an update, and the capabilities behind a NUL. -/
def parseUpdateLine (algo : HashAlgo) (line : Bytes) : Except PushError (RefUpdate × List String) :=
  let (head, capsPart) := splitNul (trimNewline line)
  match fromUtf8 head with
  | none => .error (.badRefLine head)
  | some s =>
    match splitn3 s.toList with
    | none => .error (.badRefLine head)
    | some (oldS, newS, name) =>
      match parseOid algo oldS with
      | none => .error (.badRefLine head)
      | some old =>
        match parseOid algo newS with
        | none => .error (.badRefLine head)
        | some new =>
          let update := ⟨nonzero algo old, nonzero algo new, String.ofList name⟩
          match capsPart with
          | none => .ok (update, [])
          | some caps =>
            match fromUtf8 caps with
            | none => .error (.badRefLine caps)
            | some capsS => .ok (update, splitWhitespace capsS)

/-- Reads command lines up to the flush; every line takes at least one byte. -/
def parseHeadFuel (algo : HashAlgo) : Nat → Bytes → PushHead → Except PushError (PushHead × Bytes)
  | 0, _, _ => .error (.pkt .io)
  | fuel + 1, r, head =>
    match readFrame r with
    | .error e => .error (.pkt e)
    | .ok (.data line, rest) =>
      match parseUpdateLine algo line with
      | .error e => .error e
      | .ok (update, caps) =>
        parseHeadFuel algo fuel rest ⟨head.updates ++ [update], head.capabilities ++ caps⟩
    | .ok (_, rest) => .ok (head, rest)

/-- Parses the ref-update and capability section of a request; what is left is the pack. -/
def parsePushRequestHead (algo : HashAlgo) (r : Bytes) : Except PushError (PushHead × Bytes) :=
  parseHeadFuel algo (r.length + 1) r ⟨[], []⟩

/-- More fuel than bytes changes nothing. -/
theorem parseHeadFuel_eq (algo : HashAlgo) {fuel fuel' : Nat} {r : Bytes} (head : PushHead)
    (h : r.length < fuel) (h' : r.length < fuel') :
    parseHeadFuel algo fuel r head = parseHeadFuel algo fuel' r head := by
  induction fuel generalizing fuel' r head with
  | zero => omega
  | succ fuel ih =>
    obtain ⟨fuel', rfl⟩ : ∃ n, fuel' = n + 1 := ⟨fuel' - 1, by omega⟩
    unfold parseHeadFuel
    cases hframe : readFrame r with
    | error e => rfl
    | ok p =>
      obtain ⟨frame, rest⟩ := p
      cases frame with
      | data line =>
        have hrest := (readFrame_ok hframe).1
        simp only
        cases hline : parseUpdateLine algo line with
        | error e => rfl
        | ok q => exact ih _ (by omega) (by omega)
      | flush => rfl
      | delim => rfl
      | responseEnd => rfl

/-! ### The signed bytes -/

/-- `"<old> <new> <ref-name>\n"`. -/
def updateLine (algo : HashAlgo) (u : RefUpdate) : String :=
  String.ofList ((u.old.getD (ObjectId.zeroOid algo)).hexText ++ ' ' ::
    ((u.new.getD (ObjectId.zeroOid algo)).hexText ++ ' ' :: (u.name.toList ++ ['\n'])))

/-- Strings are ordered by their bytes. -/
def bytesLe (s t : String) : Bool := decide (utf8 s ≤ utf8 t)

def sortedLines (algo : HashAlgo) (updates : List RefUpdate) : List String :=
  (updates.map (updateLine algo)).mergeSort bytesLe

/-- `"nonce <hex>\n"`, if there is one. -/
def nonceLine : Option String → String
  | some n => "nonce " ++ n ++ "\n"
  | none => ""

/-- The byte string a push signature signs over. -/
def canonicalPushPayloadWithNonce (updates : List RefUpdate) (nonce : Option String)
    (algo : HashAlgo) : Bytes :=
  utf8 (nonceLine nonce) ++ (sortedLines algo updates).flatMap utf8

def canonicalPushPayload (updates : List RefUpdate) (algo : HashAlgo) : Bytes :=
  canonicalPushPayloadWithNonce updates none algo

/-! ### What the server writes -/

/-- The `i`-th line of a ref advertisement; the first carries the capabilities. -/
def refLine (caps : String) (i : Nat) (name : String) (oid : ObjectId) : Bytes :=
  utf8 (String.ofList oid.hexText ++ " " ++ name) ++
    (if i = 0 then 0 :: utf8 caps else []) ++ [10]

/-- The lines of a ref advertisement; an empty repository has a pseudo-ref for the
    capabilities. -/
def advertisementLines (refs : List (String × ObjectId)) (capabilities : List String)
    (algo : HashAlgo) : List Bytes :=
  let caps := " ".intercalate capabilities
  match refs with
  | [] => [refLine caps 0 "capabilities^\x7b\x7d" (ObjectId.zeroOid algo)]
  | refs => refs.zipIdx.map fun (r, i) => refLine caps i r.1 r.2

def encodeV1RefAdvertisement (refs : List (String × ObjectId)) (capabilities : List String)
    (algo : HashAlgo) : Option Bytes := do
  let w ← writeData [] (utf8 "# service=git-receive-pack\n")
  let w ← writeLines (writeFlush w) (advertisementLines refs capabilities algo)
  return writeFlush w

/-- The line that reports the unpacking. -/
def unpackLine : Except String Unit → Bytes
  | .ok () => utf8 "unpack ok\n"
  | .error reason => utf8 ("unpack " ++ reason ++ "\n")

def statusLine : CommandStatus → Bytes
  | .ok name => utf8 ("ok " ++ name ++ "\n")
  | .ng name reason => utf8 ("ng " ++ name ++ " " ++ reason ++ "\n")

def encodeReportStatus (unpack : Except String Unit) (commands : List CommandStatus) :
    Option Bytes :=
  (writeLines [] (unpackLine unpack :: commands.map statusLine)).map writeFlush

/-- Cuts bytes into pieces of `n`, the last one shorter. -/
def chunks (n : Nat) (b : Bytes) : List Bytes :=
  (List.range ((b.length + n - 1) / n)).map fun i => (b.drop (i * n)).take n

/-- The report wrapped in band 1 of `side-band-64k`. -/
def encodeReportStatusSideband (unpack : Except String Unit) (commands : List CommandStatus) :
    Option Bytes := do
  let inner ← encodeReportStatus unpack commands
  let w ← writeLines [] ((chunks (maxLineLen - 5) inner).map fun chunk => 1 :: chunk)
  return writeFlush w

end Alt.Wire
