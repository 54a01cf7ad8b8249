import Alt.StructDiff.Json

namespace Alt.StructDiff

open Alt.Library Attempt TextScan

/-!
# Structured diff — the TOML parser (`TomlParser` and `parse_toml` of `alt-diff/src/structured.rs`)

A text is read statement by statement, and each statement is built into the document: a table header makes
the tables on its way, an entry is put into the table that its header and its own keys lead to.

* `readStatement` — one header or entry;
* `ensureTable`, `walkTo` — the way to a table, made and gone;
* `buildStatement`, `parseToml` — the document.
-/

/-- The parts of a document. -/
abbrev Entries := List (Text × Value)

/-! ### Reading -/

/-- `char::is_whitespace`. -/
def isWhitespace (c : Char) : Bool :=
  let n := c.toNat
  (0x09 ≤ n && n ≤ 0x0d) || n == 0x20 || n == 0x85 || n == 0xa0 || n == 0x1680 || (0x2000 ≤ n && n ≤ 0x200a)
    || n == 0x2028 || n == 0x2029 || n == 0x202f || n == 0x205f || n == 0x3000

def isInline (c : Char) : Bool := c == ' ' || c == '\t'

def isBareKeyChar (c : Char) : Bool := c.isAlphanum || c == '_' || c == '-'

section Reader

variable (text : Text)

/-- The rest of a line, with its end. -/
def skipLine : Nat → Nat → Attempt Nat
  | 0, _ => .error .panicked
  | fuel + 1, i => do
    match ← peekChar text i with
    | none => return i
    | some c => if c = '\n' then return i + c.utf8Size else skipLine fuel (i + c.utf8Size)

/-- The loop of `skip_blanks_and_comments`. -/
def blanksLoop : Nat → Nat → Attempt Nat
  | 0, _ => .error .panicked
  | fuel + 1, i => do
    let i ← skipWhile isWhitespace Char.utf8Size text (size text + 1) i
    if (← peekChar text i) = some '#' then do
      let i ← skipLine text (size text + 1) i
      blanksLoop fuel i
    else return i

def skipBlanksAndComments (i : Nat) : Attempt Nat := blanksLoop text (size text + 1) i

def skipInlineWhitespace (i : Nat) : Attempt Nat := skipWhile isInline (fun _ => 1) text (size text + 1) i

def skipUntilNewlineOrComment (i : Nat) : Attempt Nat := do
  let i ← skipInlineWhitespace text i
  let c ← peekChar text i
  -- a comment goes to its line end, or to the end of the text, where there is none to skip
  if c = some '#' then skipLine text (size text + 1) i
  else if c = some '\n' then return i + 1
  else if c = some '\r' then do
    let next ← peekChar text (i + 1)
    return if next = some '\n' then i + 2 else i + 1
  else return i

/-- The loop of `parse_basic_string`, behind the opening quote. -/
def basicLoop : Nat → Text → Nat → Attempt (Text × Nat)
  | 0, _, _ => .error .panicked
  | fuel + 1, out, i => do
    let c ← orDecline (← peekChar text i)
    if c = '"' then return (out, i + 1)
    else if c = '\\' then do
      let esc ← orDecline (← peekChar text (i + 1))
      let d ← orDecline
        (if esc = '"' then some '"'
        else if esc = '\\' then some '\\'
        else if esc = 'n' then some '\n'
        else if esc = 't' then some '\t'
        else if esc = 'r' then some '\r'
        else none)
      basicLoop fuel (out ++ [d]) (i + 1 + esc.utf8Size)
    else if c = '\n' then .error .declined
    else basicLoop fuel (out ++ [c]) (i + c.utf8Size)

def parseBasicString (i : Nat) : Attempt (Text × Nat) := basicLoop text (size text + 1) [] (i + 1)

/-- The loop of `parse_literal_string`. -/
def literalLoop (start : Nat) : Nat → Nat → Attempt (Text × Nat)
  | 0, _ => .error .panicked
  | fuel + 1, i => do
    let c ← orDecline (← peekChar text i)
    if c = '\'' then do
      let body ← pieceAt text start i
      return (body, i + 1)
    else if c = '\n' then .error .declined
    else literalLoop start fuel (i + c.utf8Size)

def parseLiteralString (i : Nat) : Attempt (Text × Nat) := literalLoop text (i + 1) (size text + 1) (i + 1)

def parseKeySegment (start : Nat) : Attempt (Text × Nat) := do
  let c ← orDecline (← peekChar text start)
  if c = '"' then parseBasicString text start
  else if c = '\'' then parseLiteralString text start
  else if isBareKeyChar c then do
    let i ← skipWhile isBareKeyChar Char.utf8Size text (size text + 1) start
    let key ← pieceAt text start i
    return (key, i)
  else .error .declined

/-- The loop of `parse_dotted_key`. -/
def dottedLoop : Nat → List Text → Nat → Attempt (List Text × Nat)
  | 0, _, _ => .error .panicked
  | fuel + 1, out, i => do
    let i ← skipInlineWhitespace text i
    let (part, i) ← parseKeySegment text i
    let i ← skipInlineWhitespace text i
    if (← peekChar text i) = some '.' then dottedLoop fuel (out ++ [part]) (i + 1)
    else return (out ++ [part], i)

def parseDottedKey (i : Nat) : Attempt (List Text × Nat) := dottedLoop text (size text + 1) [] i

def parseBool (i : Nat) : Attempt (Value × Nat) := do
  let rest ← tailAt text i
  if "true".toList.isPrefixOf rest then return (.bool true, i + 4)
  else if "false".toList.isPrefixOf rest then return (.bool false, i + 5)
  else .error .declined

def isTomlNumberChar (c : Char) : Bool :=
  (decide ('0' ≤ c) && decide (c ≤ '9')) || c == '.' || c == 'e' || c == 'E' || c == '+' || c == '-' || c == '_'

def parseTomlNumber (start : Nat) : Attempt (Value × Nat) := do
  let sign ← peekChar text start
  let i := if sign = some '+' ∨ sign = some '-' then start + 1 else start
  let i ← skipWhile isTomlNumberChar (fun _ => 1) text (size text + 1) i
  let raw ← pieceAt text start i
  let canonical ← orDecline (canonicalNumber (raw.filter (· ≠ '_')))
  return (.number canonical, i)

mutual

def parseTomlValue : Nat → Nat → Attempt (Value × Nat)
  | 0, _ => .error .panicked
  | fuel + 1, i => do
    let i ← skipInlineWhitespace text i
    let c ← orDecline (← peekChar text i)
    if c = '"' then do
      let (s, i) ← parseBasicString text i
      return (.string s, i)
    else if c = '\'' then do
      let (s, i) ← parseLiteralString text i
      return (.string s, i)
    else if c = '[' then tomlArrayLoop fuel [] (i + 1)
    else if c = 't' ∨ c = 'f' then parseBool text i
    else if c = '-' ∨ c = '+' ∨ ('0' ≤ c ∧ c ≤ '9') then parseTomlNumber text i
    else .error .declined

/-- The loop of `parse_array`, behind the bracket. -/
def tomlArrayLoop : Nat → List Value → Nat → Attempt (Value × Nat)
  | 0, _, _ => .error .panicked
  | fuel + 1, items, i => do
    let i ← skipBlanksAndComments text i
    if (← peekChar text i) = some ']' then return (.array items, i + 1)
    else do
      let (v, i) ← parseTomlValue fuel i
      let i ← skipBlanksAndComments text i
      let c ← orDecline (← peekChar text i)
      if c = ',' then tomlArrayLoop fuel (items ++ [v]) (i + 1)
      else if c = ']' then return (.array (items ++ [v]), i + 1)
      else .error .declined

end

/-! ### Statements -/

inductive Statement where
  | table (path : List Text)
  | arrayOfTables (path : List Text)
  | entry (path : List Text) (value : Value)

/-- A closing bracket. -/
def closeBracket (i : Nat) : Attempt Nat := do
  let c ← orDecline (← peekChar text i)
  declineIf (c ≠ ']')
  return i + 1

/-- One round of the loop of `parse_toml`, up to where it changes the document. -/
def readStatement (i : Nat) : Attempt (Statement × Nat) := do
  let c ← orDecline (← peekChar text i)
  if c = '[' then do
    let second ← peekChar text (i + 1)
    if second = some '[' then do
      let (path, i) ← parseDottedKey text (i + 2)
      let i ← skipInlineWhitespace text i
      let i ← closeBracket text i
      let i ← closeBracket text i
      let i ← skipUntilNewlineOrComment text i
      return (.arrayOfTables path, i)
    else do
      let (path, i) ← parseDottedKey text (i + 1)
      let i ← skipInlineWhitespace text i
      let i ← closeBracket text i
      let i ← skipUntilNewlineOrComment text i
      return (.table path, i)
  else do
    let (path, i) ← parseDottedKey text i
    let i ← skipInlineWhitespace text i
    let c ← orDecline (← peekChar text i)
    declineIf (c ≠ '=')
    let i ← skipInlineWhitespace text (i + 1)
    let (value, i) ← parseTomlValue text (2 * size text + 2) i
    let i ← skipUntilNewlineOrComment text i
    return (.entry path value, i)

end Reader

/-! ### Building -/

/-- The entry of a key, changed. -/
def updateFirst (key : Text) (f : Value → Value) : Entries → Entries
  | [] => []
  | (k, v) :: rest => if k = key then (k, f v) :: rest else (k, v) :: updateFirst key f rest

/-- A key with nothing under it is given `v`. -/
def orPush (key : Text) (v : Value) (cur : Entries) : Entries :=
  if (lookup cur key).isSome then cur else cur ++ [(key, v)]

/-- `ensure_table`. -/
def ensureTable (cur : Entries) : List Text → Entries
  | [] => cur
  | key :: rest =>
    updateFirst key (fun v =>
      match v with
      | .object inner => .object (ensureTable inner rest)
      | .array items =>
        match items.getLast? with
        | some (.object inner) => .array (items.dropLast ++ [.object (ensureTable inner rest)])
        | _ => .array items
      | v => v) (orPush key (.object []) cur)

/-- `walk_to`, and what is done to the table it comes to. -/
def walkTo (f : Entries → Entries) (cur : Entries) : List Text → Attempt Entries
  | [] => .ok (f cur)
  | key :: rest =>
    match lookup cur key with
    | some (.object inner) => do
      let inner ← walkTo f inner rest
      return updateFirst key (fun _ => .object inner) cur
    | some (.array items) =>
      match items.getLast? with
      | some (.object inner) => do
        let inner ← walkTo f inner rest
        return updateFirst key (fun _ => .array (items.dropLast ++ [.object inner])) cur
      | _ => .error .panicked
    | _ => .error .panicked

/-- A fresh table at the end of the array. -/
def pushTable : Value → Value
  | .array items => .array (items ++ [.object []])
  | v => v

/-- `ensure_array_of_tables`. -/
def ensureArrayOfTables (root : Entries) (path : List Text) : Attempt Entries :=
  match path.getLast? with
  | none => .ok root
  | some leaf =>
    walkTo (fun cur => updateFirst leaf pushTable (orPush leaf (.array []) cur)) (ensureTable root path.dropLast)
      path.dropLast

/-- `insert_into`. -/
def insertInto (root : Entries) (path : List Text) (value : Value) : Attempt Entries :=
  match path.getLast? with
  | none => .error .declined
  | some leaf =>
    walkTo (fun cur => updateFirst leaf (fun _ => value) (orPush leaf value cur)) (ensureTable root path.dropLast)
      path.dropLast

/-- The rest of a round of the loop of `parse_toml`. -/
def buildStatement (root : Entries) (current : List Text) : Statement → Attempt (Entries × List Text)
  | .table path => .ok (ensureTable root path, path)
  | .arrayOfTables path => do
    let root ← ensureArrayOfTables root path
    return (root, path)
  | .entry path value => do
    let root ← insertInto root (current ++ path) value
    return (root, current)

/-- The loop of `parse_toml`. -/
def tomlLoop (text : Text) : Nat → Nat → Entries → List Text → Attempt Entries
  | 0, _, _, _ => .error .panicked
  | fuel + 1, i, root, current => do
    let i ← skipBlanksAndComments text i
    if size text ≤ i then return root
    else do
      let (statement, i) ← readStatement text i
      let (root, current) ← buildStatement root current statement
      tomlLoop text fuel i root current

def parseToml (data : Bytes) : Attempt Value := do
  let text ← orDecline (fromUtf8 data)
  let root ← tomlLoop text.toList (size text.toList + 1) 0 [] []
  return .object root

end Alt.StructDiff
