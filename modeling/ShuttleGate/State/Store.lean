import ShuttleGate.Files.Atomic

/-! # The persistent state

Generations of the persistent state under `generations/`, of which the link `current` names the
active one. A mutation works on a copy of the active generation, validates it and publishes it by
one rename of the link; what an interrupted mutation has left is cleaned by the next one. -/

namespace ShuttleGate

open Fs Effect Os Files

namespace State

def lockFile : String := ".state.lock"
def generationsDir : String := "generations"
def currentLink : String := "current"
def manifestFile : String := "manifest.json"
def legacyDataDirectories : List String := ["server", "peers"]
def maxManifestBytes : Nat := 64 * 1024

/-! ## Names -/

/-- `re.compile("^" + pre + "[0-9a-f]{32}$").fullmatch(name)` -/
def matchesId (pre name : String) : Bool :=
  decide (pre.toList <+: name.toList ∧ (name.toList.drop pre.length).length = 32 ∧
    ∀ c ∈ name.toList.drop pre.length, Crypto.Sha256.IsHex c)

/-- `GENERATION_PATTERN` -/
def isGeneration : String → Bool := matchesId "gen-"

/-- `STAGING_PATTERN` -/
def isStaging : String → Bool := matchesId ".staging-"

/-- `TEMPORARY_CURRENT_PATTERN` -/
def isTemporaryCurrent : String → Bool := matchesId ".current-gen-"

/-- `OPERATION_ID_PATTERN` -/
def isOperationId (s : String) : Bool :=
  match s.toList with
  | c :: cs => c.isAlphanum && cs.length ≤ 127 &&
    cs.all fun c => c.isAlphanum || c = '.' || c = '_' || c = ':' || c = '-'
  | [] => false

/-- `OPERATION_KIND_PATTERN` -/
def isOperationKind (s : String) : Bool :=
  match s.toList with
  | c :: cs => c.isLower && cs.length ≤ 127 &&
    cs.all fun c => c.isLower || c.isDigit || c = '.' || c = '-'
  | [] => false

/-- A typed idempotency receipt, published with a state mutation. -/
structure StateOperation (α : Type) where
  requestId : String
  kind : String
  encode : α → Json
  decode : Json → Except Exn α
  id_ok : isOperationId requestId = true
  kind_ok : isOperationKind kind = true

/-! ## Reading -/

/-- `path.lstat()`, or nothing where nothing is. -/
def lstatMissing (p : Path) : OsM (Option Stat) :=
  tryCatch (do return some (← Prog.perform (.lstat p))) fun e =>
    if e.isFileNotFound then pure none else throw e

/-- `path.is_dir()` -/
def isDir (p : Path) : OsM Bool := Prog.perform (.isDir p)

/-- The digits' value after another one. -/
def digitsValue (n : Nat) (digits : List Char) : Nat :=
  digits.foldl (fun n c => 10 * n + (c.toNat - '0'.toNat)) n

/-- A float's lexeme as `m * 10 ^ k`. -/
def scientific (lexeme : List Char) : Int × Int :=
  let (negative, lexeme) := match lexeme with | '-' :: cs => (true, cs) | cs => (false, cs)
  let mantissa := lexeme.takeWhile fun c => c ≠ 'e' ∧ c ≠ 'E'
  let exponent := match (lexeme.drop mantissa.length).drop 1 with
    | '-' :: cs => -(digitsValue 0 cs : Int)
    | '+' :: cs | cs => (digitsValue 0 cs : Int)
  let whole := mantissa.takeWhile Char.isDigit
  let fraction := mantissa.drop (whole.length + 1)
  let value : Int := digitsValue (digitsValue 0 whole) fraction
  (if negative then -value else value, exponent - fraction.length)

/-- The nearest double of a float's lexeme is 1. -/
def roundsToOne (lexeme : List Char) : Bool :=
  let (m, k) := scientific lexeme
  let num := 2 ^ 54 * m * 10 ^ k.toNat
  let den := 10 ^ (-k).toNat
  (2 ^ 54 - 1) * den ≤ num && num ≤ (2 ^ 54 + 2) * den

/-- `value == 1` -/
def isOne : Json → Bool
  | .int n => n = 1
  | .bool b => b
  | .float lexeme => roundsToOne lexeme
  | _ => false

/-- `value == {"generation": generation, "schema_version": 1}` -/
def matchesManifest (generation : String) : Json → Bool
  | .obj fields => fields.length = 2 &&
    (match fields.lookup "generation" with | some (.str s) => s = generation | _ => false) &&
    (match fields.lookup "schema_version" with | some v => isOne v | none => false)
  | _ => false

/-- The texts of `json.loads` that are no JSON. -/
def loadJson (p : Path) : OsM Json := do
  match Json.loads (← readText p) with
  | some v => return v
  | none => throw (.error "JSONDecodeError")

/-- The same for a file of ASCII bytes, along its characters: this is what a run evaluates. -/
theorem loadJson_eq (p : Path) : loadJson p = (do
    let content ← Prog.perform (.read p)
    if content.all fun b => decide (b.toNat < 128) then
      match Json.parseChars (universalNewlines (asciiChars content)) with
      | some v => return v
      | none => throw (.error "JSONDecodeError")
    else
      match decodeUtf8 content with
      | some s =>
        match Json.loads (.ofList (universalNewlines s.toList)) with
        | some v => return v
        | none => throw (.error "JSONDecodeError")
      | none => throw (.error "UnicodeDecodeError")) := by
  refine congrArg (Prog.call (OsOp.read p)) (funext fun r => ?_)
  cases r with
  | error e => rfl
  | ok content =>
    by_cases hascii : (content.all fun b => decide (b.toNat < 128)) = true
    · have hb : ∀ b ∈ content, b.toNat < 128 := by simpa using hascii
      simp only [Prog.ofExcept, Prog.andThen, decodeUtf8_ascii hb, String.toList_ofList, hascii]
      rw [if_pos trivial, ← Json.loads_ofList]
      rfl
    · simp only [Prog.ofExcept, Prog.andThen, hascii]
      cases decodeUtf8 content <;> rfl

def isUnreadable (e : Exn) : Bool :=
  e.isOSError || e = .error "UnicodeDecodeError" || e = .error "JSONDecodeError"

/-- `_read_manifest` -/
def readManifest (root : Path) (expected : String) : OsM Unit := do
  let manifest := root / manifestFile
  let value ← tryCatch (do
      let st ← Prog.perform (.lstat manifest)
      if st.kind ≠ .regular ∨ st.size > maxManifestBytes then
        throw (.state s!"invalid state manifest: {manifest.text}")
      loadJson manifest) fun e =>
    if e.isFileNotFound then throw (.state s!"state generation is incomplete: {root.text}")
    else if isUnreadable e then
      throw (.state s!"cannot read state manifest {manifest.text}: {e.message}")
    else throw e
  if !matchesManifest expected value then
    throw (.state s!"state manifest does not match generation: {root.text}")

/-- `_legacy_state_present` -/
def legacyStatePresent (paths : InstancePaths) : OsM Bool := do
  let rec go : List String → OsM Bool
    | [] => pure false
    | name :: names => do
      if (← lstatMissing (paths.state / name)).isSome then return true
      go names
  go legacyDataDirectories

/-- The generation a pointer's text designates. -/
def pointed (target : String) : Option String :=
  let target := PurePath.ofText target
  match target.isAbsolute, target.parts with
  | false, [directory, generation] =>
    if directory = generationsDir ∧ isGeneration generation = true then some generation else none
  | _, _ => none

/-- `_active_generation` -/
def activeGeneration (paths : InstancePaths) (required : Bool) :
    OsM (Option (Path × String)) := do
  let current := paths.state / currentLink
  match ← lstatMissing current with
  | none =>
    if required then
      if ← legacyStatePresent paths then
        throw (.state (withCommandHint "legacy key state requires migration" ["keys", "generate"]))
      throw (.state (withCommandHint "persistent keys are not initialized" ["keys", "generate"]))
    return none
  | some st =>
    if st.kind ≠ .symlink then
      throw (.state s!"persistent-state pointer must be a symlink: {current.text}")
    match pointed (← Prog.perform (.readlink current)) with
    | none => throw (.state s!"invalid persistent-state pointer: {current.text}")
    | some generation =>
      let root := paths.state / generationsDir / generation
      match ← lstatMissing root with
      | none => throw (.state s!"persistent-state pointer is broken: {current.text}")
      | some st =>
        if st.kind ≠ .directory then
          throw (.state s!"state generation must be a directory: {root.text}")
        readManifest root generation
        return some (root, generation)

/-! ## Cleaning -/

/-- `_remove_owned` -/
def removeOwned (p : Path) : OsM Unit := do
  match ← lstatMissing p with
  | none => pure ()
  | some st => if st.kind = .directory then rmtree p else Prog.perform (.unlink p)

/-- `path.glob(".current-*")`: the names. -/
def globCurrent (p : Path) : OsM (List String) := do
  let names ← tryCatch (Prog.perform (.listdir p)) fun e => if e.isOSError then pure [] else throw e
  return names.filter fun name => ".current-".isPrefixOf name

/-- `_clean_incomplete` -/
def cleanIncomplete (paths : InstancePaths) : OsM Unit := do
  let generations := paths.state / generationsDir
  if ← isDir generations then
    let names ← Prog.perform (.listdir generations)
    Prog.forEach names fun name =>
      if isStaging name then suppressOSError (removeOwned (generations / name)) else pure ()
  let names ← globCurrent paths.state
  Prog.forEach names fun name => do
    if !isTemporaryCurrent name then
      throw (.state s!"unexpected persistent-state object: {(paths.state / name).text}")
    suppressOSError (removeOwned (paths.state / name))

/-- The loop over the generations other than the active one. -/
def removeGenerations (generations : Path) (active : Option Path) (names : List String) :
    OsM Unit := do
  Prog.forEach names fun name =>
    if some (generations / name) = active then pure ()
    else do
      if !isGeneration name then
        throw (.state s!"unexpected object in generations directory: {(generations / name).text}")
      suppressOSError (removeOwned (generations / name))
  suppressOSError (fsyncDirectory generations)

/-- `_clean_unreferenced_generations` -/
def cleanUnreferencedGenerations (paths : InstancePaths) (active : Option Path) : OsM Unit := do
  let generations := paths.state / generationsDir
  if ← isDir generations then
    let names ← Prog.perform (.listdir generations)
    removeGenerations generations active names

/-- `_clean_old_generations` -/
def cleanOldGenerations (paths : InstancePaths) (active : Path) : OsM Unit := do
  let generations := paths.state / generationsDir
  let names ← Prog.perform (.listdir generations)
  removeGenerations generations (some active) names

/-- `_clean_legacy_state` -/
def cleanLegacyState (paths : InstancePaths) : OsM Unit := do
  Prog.forEach legacyDataDirectories fun name => do
    let legacy := paths.state / name
    match ← lstatMissing legacy with
    | none => pure ()
    | some st =>
      if st.kind ≠ .directory then
        throw (.state s!"refusing to remove unexpected legacy-state object: {legacy.text}")
      removeOwned legacy
  fsyncDirectory paths.state

/-! ## Copying -/

/-- `path.mkdir(mode=mode, parents=True, exist_ok=False)` -/
def mkdirNew (p : Path) (mode : Nat) : OsM Unit :=
  tryCatch (Prog.perform (.mkdir p mode)) fun e => do
    if e.isFileNotFound then
      mkdirParents p.parent 0o777
      Prog.perform (.mkdir p mode)
    else throw e

/-- One object of the active generation. -/
def copyChild (source destination : Path) (name : String) : OsM Unit :=
  if name = manifestFile then pure ()
  else do
    let st ← Prog.perform (.lstat (source / name))
    match st.kind with
    | .directory => copytree (source / name) (destination / name)
    | .regular => copy2 (source / name) (destination / name)
    | _ => throw (.state s!"unexpected object in persistent state: {(source / name).text}")

/-- `_copy_active` -/
def copyActive (source : Option Path) (destination : Path) : OsM Unit := do
  mkdirNew destination 0o700
  match source with
  | none => pure ()
  | some source =>
    let names ← Prog.perform (.listdir source)
    Prog.forEach names (copyChild source destination)

/-- `_copy_legacy_state` -/
def copyLegacyState (paths : InstancePaths) (destination : Path) : OsM Unit :=
  Prog.forEach legacyDataDirectories fun name => do
    let source := paths.state / name
    match ← lstatMissing source with
    | none => pure ()
    | some st =>
      if st.kind ≠ .directory then
        throw (.state s!"legacy state must be a directory: {source.text}")
      copytree source (destination / name)

/-! ## Receipts -/

/-- `_operation_path` -/
def operationPath (root : Path) (requestId : String) : Path :=
  root / "operations" / (Crypto.Sha256.hexdigest (Crypto.Sha256.ascii requestId) ++ ".json")

/-- `value.get(key)` -/
def field (key : String) : Json → Option Json
  | .obj fields => fields.lookup key
  | _ => none

/-- The result a receipt of this operation holds. -/
def receiptResult (requestId kind : String) (value : Json) : Option Json :=
  match field "schema_version" value, field "request_id" value, field "kind" value,
    field "result" value with
  | some version, some (.str i), some (.str k), some result =>
    if isOne version ∧ i = requestId ∧ k = kind then some result else none
  | _, _, _, _ => none

/-- `_read_operation` -/
def readOperation (root : Path) (operation : StateOperation α) : OsM (Option α) := do
  let path := operationPath root operation.requestId
  match ← lstatMissing path with
  | none => return none
  | some st =>
    if st.kind ≠ .regular ∨ st.size > maxManifestBytes then
      throw (.state s!"invalid operation receipt: {path.text}")
    let value ← tryCatch (loadJson path) fun e =>
      if isUnreadable e then
        throw (.state s!"cannot read operation receipt {path.text}: {e.message}")
      else throw e
    match receiptResult operation.requestId operation.kind value with
    | none => throw (.state
        s!"operation ID was already used for another request: {operation.requestId}")
    | some result => return some (← Prog.ofExcept (operation.decode result))

/-- The receipt of an operation. -/
def receipt (requestId kind : String) (result : Json) : Json :=
  .obj [("schema_version", .int 1), ("request_id", .str requestId), ("kind", .str kind),
    ("result", result)]

/-- `_write_operation` -/
def writeOperation (root : Path) (operation : StateOperation α) (result : α) : OsM Unit :=
  atomicWriteJson (operationPath root operation.requestId)
    (receipt operation.requestId operation.kind (operation.encode result)) 0o600

/-! ## Publication -/

/-- The entries of one directory: all safe, the files durable; the directories among them. -/
def syncEntries (directory : Path) : List String → OsM (List String)
  | [] => pure []
  | name :: names => do
    let path := directory / name
    let st ← Prog.perform (.lstat path)
    if st.kind ≠ .directory ∧ st.kind ≠ .regular then
      throw (.state s!"persistent state contains an unsafe object: {path.text}")
    if st.kind = .regular then
      Prog.perform (.fsync path)
    let directories ← syncEntries directory names
    return if st.kind = .directory then name :: directories else directories

/-- Every directory's walk in turn. -/
def walkAll (walk : Path → OsM (List Path)) : List Path → OsM (List Path)
  | [] => pure []
  | p :: ps => do
    let first ← walk p
    return first ++ (← walkAll walk ps)

/-- `os.walk`: the directories, each before those below it; one that cannot be read is skipped. -/
def syncWalk : Nat → Path → OsM (List Path)
  | 0, _ => throw recursionError
  | fuel + 1, directory => do
    let names ← tryCatch (do return some (← Prog.perform (.listdir directory))) fun e =>
      if e.isOSError then pure none else throw e
    match names with
    | none => return []
    | some names =>
      let directories ← syncEntries directory names
      return directory :: (← walkAll (syncWalk fuel) (directories.map (directory / ·)))

/-- `_fsync_tree` -/
def fsyncTree (root : Path) : OsM Unit := do
  let depth ← Prog.perform .depth
  let directories ← syncWalk (depth + 1) root
  Prog.forEach directories.reverse fsyncDirectory

/-- The manifest of a generation. -/
def manifest (generation : String) : Json :=
  .obj [("generation", .str generation), ("schema_version", .int 1)]

/-- The text of the pointer to a generation. -/
def pointerTo (generation : String) : String := generationsDir ++ "/" ++ generation

/-- `_publish` -/
def publish (paths : InstancePaths) (staging : Path) (generation : String) : OsM Path := do
  let generations := paths.state / generationsDir
  let final := generations / generation
  atomicWriteJson (staging / manifestFile) (manifest generation) 0o600
  fsyncTree staging
  Prog.perform (.rename staging final)
  fsyncDirectory generations
  let temporaryLink := paths.state / (".current-" ++ generation)
  Prog.perform (.symlink (pointerTo generation) temporaryLink)
  fsyncDirectory paths.state
  Prog.perform (.rename temporaryLink (paths.state / currentLink))
  fsyncDirectory paths.state
  return final

/-! ## Mutation -/

/-- The completed operation's result, where its receipt is in the active generation. -/
def completed (active : Option (Path × String)) (operation : Option (StateOperation α)) :
    OsM (Option α) :=
  match active, operation with
  | some (root, _), some operation => readOperation root operation
  | _, _ => pure none

/-- What a failed mutation does before its exception goes on. -/
def rollback (paths : InstancePaths) (staging : Path) (final : Option Path) : OsM Unit := do
  suppressOSError (removeOwned staging)
  match final with
  | none => pure ()
  | some final =>
    if !(← Prog.perform (.pathExists (paths.state / currentLink))) then
      suppressOSError (removeOwned final)

/-- The copy the mutator works on. -/
def copyState (paths : InstancePaths) (active : Option (Path × String)) (staging : Path) :
    OsM Unit := do
  copyActive (active.map (·.1)) staging
  if active.isNone then
    copyLegacyState paths staging

/-- The receipt, where there is an operation. -/
def writeReceipt (operation : Option (StateOperation α)) (staging : Path) (result : α) : OsM Unit :=
  match operation with
  | some operation => writeOperation staging operation result
  | none => pure ()

/-- The result of the mutation and, unless it is not to be published, the new generation. -/
def stage (paths : InstancePaths) (mutator : InstancePaths → OsM α)
    (validator : InstancePaths → OsM Unit) (publishIf : Option (α → Bool))
    (operation : Option (StateOperation α)) (active : Option (Path × String))
    (staging : Path) (generation : String) : OsM (α × Option Path) := do
  copyState paths active staging
  let stagedPaths := paths.withData staging
  let result ← mutator stagedPaths
  if !(publishIf.all fun accept => accept result) then
    removeOwned staging
    return (result, none)
  writeReceipt operation staging result
  validator stagedPaths
  let final ← publish paths staging generation
  return (result, some final)

/-- The check of what has been published. -/
def verify (paths : InstancePaths) (validator : InstancePaths → OsM Unit) (final : Path) :
    OsM Unit := do
  match ← activeGeneration paths true with
  | some (root, _) =>
    if root ≠ final then
      throw (.state "persistent-state publication could not be verified")
  | none => throw (.state "persistent-state publication could not be verified")
  validator (paths.withData final)

/-- What follows a publication. -/
def finish (paths : InstancePaths) (validator : InstancePaths → OsM Unit) (staging final : Path)
    (result : α) : OsM α := do
  tryCatch (verify paths validator final) fun e => do
    rollback paths staging (some final)
    throw e
  cleanOldGenerations paths final
  cleanLegacyState paths
  return result

/-- `mutate_state`, once the lock is held. -/
def mutateLocked (paths : InstancePaths) (mutator : InstancePaths → OsM α)
    (validator : InstancePaths → OsM Unit) (publishIf : Option (α → Bool))
    (operation : Option (StateOperation α)) : OsM α := do
  ensurePrivateDirectory (paths.state / generationsDir)
  cleanIncomplete paths
  let active ← activeGeneration paths false
  cleanUnreferencedGenerations paths (active.map (·.1))
  match active, ← completed active operation with
  | some (root, _), some result => do
    validator (paths.withData root)
    cleanLegacyState paths
    return result
  | _, _ =>
    let identifier ← Prog.perform .uuid
    let generation := "gen-" ++ identifier
    let staging := paths.state / generationsDir / (".staging-" ++ identifier)
    let (result, published) ← tryCatch
      (stage paths mutator validator publishIf operation active staging generation)
      fun e => do
        rollback paths staging none
        throw e
    match published with
    | none => return result
    | some final => finish paths validator staging final result

/-! ## Locking -/

def lockPath (paths : InstancePaths) : Path := paths.state / lockFile

/-- `_lock_descriptor` -/
def lockDescriptor (paths : InstancePaths) (create : Bool) : OsM Unit := do
  if create then
    ensurePrivateDirectory paths.state
  let st ← tryCatch
    (if create then Prog.perform (.openCreate (lockPath paths) 0o600)
      else Prog.perform (.openRead (lockPath paths)))
    fun e =>
      if e.isFileNotFound then throw (.state "persistent state is not initialized") else throw e
  if st.kind ≠ .regular then
    throw (.state "persistent-state lock must be a regular file")
  if create then
    Prog.perform (.chmod (lockPath paths) 0o600)

/-- The lock itself. -/
def acquireLock (paths : InstancePaths) (exclusive blocking : Bool) : OsM Unit :=
  tryCatch (Prog.perform (.flock (lockPath paths) exclusive blocking)) fun e =>
    if e.isBlocking then throw (.state
      "persistent state is busy; stop the gateway or wait for the active operation")
    else throw e

/-- `state_lock` around a body; the lock goes with the process, too. -/
def stateLock (paths : InstancePaths) (exclusive blocking : Bool) (body : OsM α) : OsM α := do
  lockDescriptor paths exclusive
  Prog.finally' (do
      acquireLock paths exclusive blocking
      body)
    (suppressOSError (Prog.perform (.unlock (lockPath paths))))

/-- `mutate_state` -/
def mutateState (paths : InstancePaths) (mutator : InstancePaths → OsM α)
    (validator : InstancePaths → OsM Unit) (publishIf : Option (α → Bool))
    (operation : Option (StateOperation α)) : OsM α :=
  stateLock paths true false (mutateLocked paths mutator validator publishIf operation)

end State
end ShuttleGate
