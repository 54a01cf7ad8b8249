import Alt.Repo.Commands

namespace Alt.Repo

open Alt.Library Alt.Odb Alt.Refs

/-!
# Adding and undoing (`native/add.rs`; `native.rs`, 2684–2802)

`add` stages files and records in the op log what it did to the index; `undo` looks at the last
op of the log and inverts it, a ref transaction or an index transaction.
-/

section

variable (env : Env)

/-! ### Adding -/

/-- A path argument relative to the root; nothing for the whole tree. -/
def pathspec (given : Bytes) : Bytes :=
  let rec skip : Bytes → Bytes
    | 0x2e :: 0x2f :: rest => skip rest
    | rest => rest
  let spec := (skip given).rdropWhile (· == slash)
  if spec = dot then [] else spec

/-- Whether a path is the argument, or below it. -/
def underSpec (spec path : Bytes) : Bool := path == spec || (spec ++ [slash]).isPrefixOf path

/-- The bytes to store for a working-tree file. -/
def stagedBytes (fs : FileTree) (w : WorkEntry) : Res Bytes :=
  match fs.locate (abs env.root w.path) with
  | .error e => .error (.io e)
  | .ok p =>
    match fs.get p with
    | some (.symlink target) => .ok target
    | some (.file content _) => (env.filter fs).map fun filter => filter w.path content
    | _ => .error (.io .notFound)

/-- Stages one path: its file, or its removal. -/
def stagePath (scan : List WorkEntry) (entries : Index) (path : Bytes) : Cmd Index := do
  let rest := entries.filter fun e => e.path != path
  match scan.find? fun w => w.path == path with
  | none => pure rest
  | some w =>
    if !env.allowsPath path then
      throw (.notAllowed path)
    else
      let bytes ← fromExcept (stagedBytes env (← get).fs w)
      onObjects fun objects =>
        match objects.put env.P w.oid .blob bytes with
        | .ok objects => .ok () objects
        | .error e => .error (.hash e) objects
      let line ← makeEntry env w
      return rest ++ [line]

/-- The paths an argument stands for. -/
def matchSpec (scan : List WorkEntry) (prior : Index) (given : Bytes) : Res (List Bytes) :=
  let matched := ((scan.map WorkEntry.path) ++ prior.map IndexEntry.path).filter
    (underSpec (pathspec given))
  if matched = [] then .error (.noMatch given) else .ok matched

/-- An entry of the index without its path. -/
def sideAt (entries : Index) (path : Bytes) : Side :=
  (entries.filter fun e => e.path == path).getLast?.map fun e => (e.oid, e.mode)

/-- What `add` records: the touched paths whose entry is not what it was. -/
def indexChanges (prior entries : Index) (touched : List Bytes) : List IndexChange :=
  (touched.map fun p => ⟨p, sideAt prior p, sideAt entries p⟩).filter fun c => c.old ≠ c.new

/-- Paths in order, each once. -/
def sortPaths (paths : List Bytes) : List Bytes :=
  paths.dedup.insertionSort fun a b => (compare a b).isLE

/-- The paths to stage: everything, or what the arguments stand for. -/
def addTargets (scan : List WorkEntry) (prior : Index) (paths : List Bytes) : Res (List Bytes) :=
  if paths.any fun p => pathspec p == [] then .ok (scan.map WorkEntry.path)
  else (paths.mapM (matchSpec scan prior)).map fun matched => sortPaths matched.flatten

/-- An op of the shared log that is no ref transaction. -/
def recordOp (payload : Bytes) : Cmd Unit := fun r =>
  if payload.head? = some payloadRefTx then .error (.refs (.reservedPayload payloadRefTx)) r
  else
    match env.logged r.ops with
    | .error e => .error (.refs e) r
    | .ok () => .ok () { r with ops := r.ops ++ [payload] }

/-- `alt add`. -/
def add (paths : List Bytes) : Cmd Unit := do
  ensureWritable env "add"
  let index := (← control env).index
  let scan ← fromExcept (scanTree env (← get).fs index)
  let prior := index.filter fun e => e.stage = 0
  let stagingAll := paths.any fun p => pathspec p == []
  let targets ← fromExcept (addTargets scan prior paths)
  let touched :=
    if stagingAll then sortPaths (prior.map IndexEntry.path ++ scan.map WorkEntry.path)
    else targets
  let entries ← targets.foldlM (stagePath env scan) (if stagingAll then [] else prior)
  saveIndex env entries
  let changes := indexChanges prior entries touched
  whenever (changes != []) (recordOp env (encodeIndexTx changes env.algo))

/-! ### Undoing -/

/-- The changes the other way round. -/
def inverse (changes : List RefChange) : List RefChange :=
  changes.map fun c => ⟨c.name, c.new, c.old⟩

/-- The changes of the last ref transaction in the log. -/
def lastTransaction (ops : List Bytes) : Except RefError (Option (List RefChange)) :=
  ops.reverse.foldr (fun payload rest =>
    match parseTx payload with
    | .error e => .error e
    | .ok (some tx) => .ok (some tx.changes)
    | .ok none => rest) (.ok none)

def undoRefTx : Cmd Unit := do
  match ← onRefs (lastTransaction (← get).ops) with
  | none => fail "nothing to undo"
  | some changes =>
    ensureClean env "undo"
    let old ← indexedEntries env
    commitRefs env "undo" (inverse changes)
    let target ← fromExcept (headEntries env (← get))
    checkout env old target

/-- One path put back. -/
def undoChange (entries : Index) (c : IndexChange) : Index :=
  (entries.filter fun e => e.path != c.path) ++
    (c.old.map fun p => stageEntry ⟨c.path, p.1, p.2⟩ 0).toList

def inverseIndex (changes : List IndexChange) : List IndexChange :=
  changes.map fun c => ⟨c.path, c.new, c.old⟩

def undoIndexTx (payload : Bytes) : Cmd Unit := do
  match decodeIndexTx payload with
  | .error e => throw (.indexTx e)
  | .ok changes =>
    let entries := (← control env).index.filter fun e => e.stage = 0
    saveIndex env (changes.foldl undoChange entries)
    recordOp env (encodeIndexTx (inverseIndex changes) env.algo)

/-- `alt undo`: what the last op of the log is decides. -/
def undo : Cmd Unit := do
  match (← get).ops.getLast? with
  | none => fail "nothing to undo"
  | some payload =>
    match payload.head? with
    | none => fail "nothing to undo"
    | some kind =>
      if kind = payloadRefTx then undoRefTx env
      else if kind = payloadIndexTx then undoIndexTx env payload
      else throw (.unknownOp kind)

end

end Alt.Repo
