import ShuttleGate.State.Store

/-! # The dedicated SSH key pair

A key pair is replaced under a journal: the new files are staged beside the old ones, the journal
names the digests of all four, each old file is moved to a backup before the staged one takes its
place, and the receipt of the operation is written before the journal is removed. -/

namespace ShuttleGate

open Fs Effect Os Files State

namespace Ssh

def maxKeyBytes : Nat := 64 * 1024
def maxTransactionBytes : Nat := 64 * 1024

/-! ## Names -/

/-- `_SshTransactionFiles` -/
structure TransactionFiles where
  privateStage : Path
  publicStage : Path
  privateBackup : Path
  publicBackup : Path
  deriving DecidableEq

/-- `Path(f"{path}.pub")` -/
def pubOf (p : Path) : Path := p.parent / (p.name ++ ".pub")

/-- `_ssh_transaction_path` -/
def transactionPath (identity : Path) : Path :=
  identity.parent / ("." ++ identity.name ++ ".transaction.json")

/-- What the names of a transaction's files begin with. -/
def transactionPrefix (identity : Path) : String := "." ++ identity.name ++ ".transaction-"

/-- `_ssh_transaction_files` -/
def transactionFiles (identity : Path) (transaction : String) : TransactionFiles where
  privateStage := identity.parent / (transactionPrefix identity ++ transaction ++ ".private.new")
  publicStage := identity.parent / (transactionPrefix identity ++ transaction ++ ".public.new")
  privateBackup := identity.parent / (transactionPrefix identity ++ transaction ++ ".private.old")
  publicBackup := identity.parent / (transactionPrefix identity ++ transaction ++ ".public.old")

/-- `resolve_config_path` -/
def resolveConfigPath (configPath : Path) (configured : PurePath) : OsM Path :=
  Prog.perform (.resolve (if configured.isAbsolute then [] else configPath.parent) configured.parts)

/-- `_ssh_key_paths` -/
def sshKeyPaths (config : SSHConfig) (paths : InstancePaths) : OsM (Path × Path) := do
  let identity ← resolveConfigPath paths.config config.identityFile
  return (identity, pubOf identity)

/-! ## Files -/

/-- `_path_exists` -/
def pathExists (p : Path) : OsM Bool := do
  return (← lstatMissing p).isSome

/-- The size of a key file is neither 0 nor beyond the bound. -/
def isBounded (st : Stat) : Bool := 0 < st.size && st.size ≤ maxKeyBytes

/-- `_require_bounded_regular` -/
def requireBoundedRegular (p : Path) (label : String) : OsM Unit := do
  let st ← tryCatch (Prog.perform (.lstat p)) fun e =>
    if e.isFileNotFound then throw (.state s!"{label} is missing: {p.text}") else throw e
  if st.kind ≠ .regular then
    throw (.state s!"{label} must be a regular non-symlink file: {p.text}")
  if !isBounded st then
    throw (.state s!"{label} has an invalid size: {p.text}")

/-- `sha256(content).hexdigest()` -/
def hexdigest (content : Bytes) : String := Crypto.Sha256.hexdigest (content.map UInt8.toBitVec)

/-- `_file_digest` -/
def fileDigest (p : Path) (label : String) : OsM String := do
  let st ← tryCatch (Prog.perform (.openRead p)) fun e =>
    if e.isOSError then throw (.state s!"cannot read {label}: {e.message}") else throw e
  if st.kind ≠ .regular ∨ !isBounded st then
    throw (.state s!"{label} has an invalid size: {p.text}")
  let content ← Prog.perform (.read p)
  return hexdigest (content.take (maxKeyBytes + 1))

/-- `_optional_digest` -/
def optionalDigest (p : Path) (label : String) : OsM (Option String) := do
  if ← pathExists p then
    return some (← fileDigest p label)
  else
    return none

/-- `_sync_regular_file` -/
def syncRegularFile (p : Path) : OsM Unit := do
  let _ ← Prog.perform (.openRead p)
  Prog.perform (.fsync p)

/-- `_matches_digest` -/
def matchesDigest (p : Path) (expected : Option String) (label : String) : OsM Bool :=
  match expected with
  | none => pure false
  | some expected => do
    if ← pathExists p then
      return (← fileDigest p label) = expected
    else
      return false

/-- `_replace_and_sync` -/
def replaceAndSync (source destination : Path) : OsM Unit := do
  Prog.perform (.rename source destination)
  fsyncDirectory destination.parent

/-! ## The journal -/

/-- What a journal says. -/
structure Journal where
  transaction : String
  operationId : String
  operationKind : String
  privateOldDigest : Option String
  publicOldDigest : Option String
  privateNewDigest : String
  publicNewDigest : String
  deriving DecidableEq

/-- A digest, or `None`. -/
def digestJson : Option String → Json
  | some digest => .str digest
  | none => .null

/-- The journal as it is written. -/
def Journal.toJson (j : Journal) : Json := .obj [
  ("schema_version", .int 1),
  ("transaction", .str j.transaction),
  ("operation_id", .str j.operationId),
  ("operation_kind", .str j.operationKind),
  ("private_old_digest", digestJson j.privateOldDigest),
  ("public_old_digest", digestJson j.publicOldDigest),
  ("private_new_digest", .str j.privateNewDigest),
  ("public_new_digest", .str j.publicNewDigest)]

/-- `re.fullmatch(r"[0-9a-f]{64}", digest)` -/
def isDigest (s : String) : Bool :=
  decide (s.toList.length = 64 ∧ ∀ c ∈ s.toList, Crypto.Sha256.IsHex c)

theorem isDigest_ofList (cs : List Char) :
    isDigest (.ofList cs) = decide (cs.length = 64 ∧ ∀ c ∈ cs, Crypto.Sha256.IsHex c) := by
  rw [isDigest, String.toList_ofList]

/-- `value.get(key)`, which has to be a digest or `None`. -/
def digestOf (journalPath : Path) (key : String) (value : Json) : Except Exn (Option String) :=
  match field key value with
  | none | some .null => .ok none
  | some (.str digest) =>
    if isDigest digest then .ok (some digest)
    else .error (.state s!"invalid SSH key transaction digest: {journalPath.text}")
  | some _ => .error (.state s!"invalid SSH key transaction digest: {journalPath.text}")

/-- The checks of `void_operation`. -/
def voidOperation (requestId kind : String) : Except Exn Unit := do
  raiseIf (¬ isOperationId requestId) (.state "operation ID must be 1-128 safe ASCII characters")
  raiseIf (¬ isOperationKind kind) (.state "operation kind is invalid")

/-- The checks of a journal that is JSON. -/
def Journal.ofJson (journalPath : Path) (value : Json) : Except Exn Journal := do
  raiseIf (¬ ((field "schema_version" value).any isOne))
    (.state s!"invalid SSH key transaction journal: {journalPath.text}")
  match field "transaction" value with
  | some (.str transaction) =>
    raiseIf (¬ matchesId "" transaction)
      (.state s!"invalid SSH key transaction identifier: {journalPath.text}")
    match field "operation_id" value, field "operation_kind" value with
    | some (.str operationId), some (.str operationKind) =>
      voidOperation operationId operationKind
      let privateOldDigest ← digestOf journalPath "private_old_digest" value
      let publicOldDigest ← digestOf journalPath "public_old_digest" value
      let privateNewDigest ← digestOf journalPath "private_new_digest" value
      let publicNewDigest ← digestOf journalPath "public_new_digest" value
      match privateNewDigest, publicNewDigest with
      | some privateNewDigest, some publicNewDigest =>
        .ok { transaction, operationId, operationKind, privateOldDigest, publicOldDigest,
              privateNewDigest, publicNewDigest }
      | _, _ => .error (.state s!"incomplete SSH key transaction journal: {journalPath.text}")
    | _, _ => .error (.state s!"invalid SSH key transaction operation: {journalPath.text}")
  | _ => .error (.state s!"invalid SSH key transaction identifier: {journalPath.text}")

/-- `_new_ssh_transaction` -/
def newTransaction (identity publicKey : Path) (files : TransactionFiles)
    (transaction operationId operationKind : String) : OsM Journal := do
  let privateOldDigest ← optionalDigest identity "existing SSH private key"
  let publicOldDigest ← optionalDigest publicKey "existing SSH public key"
  let privateNewDigest ← fileDigest files.privateStage "generated SSH private key"
  let publicNewDigest ← fileDigest files.publicStage "generated SSH public key"
  return { transaction, operationId, operationKind, privateOldDigest, publicOldDigest,
           privateNewDigest, publicNewDigest }

/-- `_read_ssh_transaction` -/
def readTransaction (identity : Path) : OsM (Option (TransactionFiles × Journal)) := do
  let journalPath := transactionPath identity
  match ← lstatMissing journalPath with
  | none => return none
  | some st =>
    if st.kind ≠ .regular ∨ st.size > maxTransactionBytes then
      throw (.state s!"invalid SSH key transaction journal: {journalPath.text}")
    let value ← tryCatch (loadJson journalPath) fun e =>
      if isUnreadable e then
        throw (.state s!"cannot read SSH key transaction journal: {e.message}")
      else throw e
    let journal ← Prog.ofExcept (Journal.ofJson journalPath value)
    return some (transactionFiles identity journal.transaction, journal)

/-! ## Installation -/

/-- `_install_transaction_file` -/
def installTransactionFile (destination stage backup : Path) (oldDigest : Option String)
    (newDigest : String) (label : String) : OsM Unit := do
  if ← matchesDigest destination (some newDigest) s!"new {label}" then
    return
  if !(← matchesDigest stage (some newDigest) s!"staged {label}") then
    throw (.state s!"cannot resume SSH key transaction: staged {label} is unavailable")
  if oldDigest.isNone then
    if ← pathExists destination then
      throw (.state s!"cannot resume SSH key transaction: unexpected {label}")
  else if !(← pathExists backup) then
    if !(← matchesDigest destination oldDigest s!"old {label}") then
      throw (.state s!"cannot resume SSH key transaction: old {label} changed")
    replaceAndSync destination backup
  else if !(← matchesDigest backup oldDigest s!"backed-up {label}") then
    throw (.state s!"cannot resume SSH key transaction: {label} backup changed")
  replaceAndSync stage destination

/-- `_finish_ssh_key_transaction` -/
def finishTransaction (identity publicKey : Path) (files : TransactionFiles) (journal : Journal) :
    OsM Unit := do
  installTransactionFile publicKey files.publicStage files.publicBackup journal.publicOldDigest
    journal.publicNewDigest "SSH public key"
  installTransactionFile identity files.privateStage files.privateBackup journal.privateOldDigest
    journal.privateNewDigest "SSH private key"
  if !(← matchesDigest identity (some journal.privateNewDigest) "SSH private key") then
    throw (.state "SSH key transaction could not be verified")
  if !(← matchesDigest publicKey (some journal.publicNewDigest) "SSH public key") then
    throw (.state "SSH key transaction could not be verified")
  Prog.perform (.chmod identity 0o600)
  Prog.perform (.chmod publicKey 0o644)
  syncRegularFile identity
  syncRegularFile publicKey

/-- `_remove_ssh_transaction` -/
def removeTransaction (identity : Path) (files : TransactionFiles) : OsM Unit := do
  Prog.forEach [files.privateStage, files.publicStage, files.privateBackup, files.publicBackup,
    transactionPath identity] fun obsolete => unlinkMissingOk obsolete
  fsyncDirectory identity.parent

/-! ## Receipts -/

/-- `_ssh_operation_path` -/
def operationPath (paths : InstancePaths) (operationId : String) : Path :=
  paths.state / "operations" /
    ("ssh-" ++ Crypto.Sha256.hexdigest (Crypto.Sha256.ascii operationId) ++ ".json")

/-- `identity.relative_to(paths.root).as_posix()` -/
def identityValue (paths : InstancePaths) (identity : Path) : Except Exn String :=
  if paths.root <:+ identity then
    let parts := (identity.take (identity.length - paths.root.length)).reverse
    .ok (if parts = [] then "." else "/".intercalate parts)
  else .error (.state s!"SSH identity is outside the instance: {identity.text}")

/-- The receipt names this operation. -/
def isReceiptOf (operationId operationKind identity : String) (value : Json) : Bool :=
  (field "schema_version" value).any isOne &&
    (match field "operation_id" value with | some (.str s) => s = operationId | _ => false) &&
    (match field "operation_kind" value with | some (.str s) => s = operationKind | _ => false) &&
    (match field "identity" value with | some (.str s) => s = identity | _ => false)

/-- `_ssh_operation_completed` -/
def operationCompleted (paths : InstancePaths) (identity publicKey : Path)
    (operationId operationKind : String) : OsM Bool := do
  let path := operationPath paths operationId
  match ← lstatMissing path with
  | none => return false
  | some st =>
    if st.kind ≠ .regular ∨ st.size > maxTransactionBytes then
      throw (.state s!"invalid SSH operation receipt: {path.text}")
    let value ← tryCatch (loadJson path) fun e =>
      if isUnreadable e then
        throw (.state s!"cannot read SSH operation receipt {path.text}: {e.message}")
      else throw e
    let name ← Prog.ofExcept (identityValue paths identity)
    if !isReceiptOf operationId operationKind name value then
      throw (.state s!"operation ID was already used for another request: {operationId}")
    match field "private_digest" value, field "public_digest" value with
    | some (.str privateDigest), some (.str publicDigest) =>
      if !(← matchesDigest identity (some privateDigest) "recorded SSH private key") then
        throw (.state s!"completed SSH operation was superseded or changed: {operationId}")
      if !(← matchesDigest publicKey (some publicDigest) "recorded SSH public key") then
        throw (.state s!"completed SSH operation was superseded or changed: {operationId}")
      return true
    | _, _ => throw (.state s!"invalid SSH operation receipt: {path.text}")

/-- The receipt of an operation. -/
def receiptJson (journal : Journal) (identity : String) : Json := .obj [
  ("schema_version", .int 1),
  ("operation_id", .str journal.operationId),
  ("operation_kind", .str journal.operationKind),
  ("identity", .str identity),
  ("private_digest", .str journal.privateNewDigest),
  ("public_digest", .str journal.publicNewDigest)]

/-- `_record_ssh_operation` -/
def recordOperation (paths : InstancePaths) (identity publicKey : Path) (journal : Journal) :
    OsM Unit := do
  if ← operationCompleted paths identity publicKey journal.operationId journal.operationKind then
    return
  let name ← Prog.ofExcept (identityValue paths identity)
  atomicWriteJson (operationPath paths journal.operationId) (receiptJson journal name) 0o600

/-! ## Recovery -/

/-- `_clean_orphaned_ssh_transaction_files` -/
def cleanOrphanedFiles (identity : Path) : OsM Unit := do
  if !(← State.isDir identity.parent) then
    return
  let names ← Prog.perform (.listdir identity.parent)
  Prog.forEach names fun name =>
    if (transactionPrefix identity).isPrefixOf name ||
        ("." ++ (transactionPath identity).name ++ ".").isPrefixOf name then
      ignoreMissing do
        let st ← Prog.perform (.lstat (identity.parent / name))
        if st.kind = .directory then
          throw (.state s!"unexpected SSH transaction directory: {(identity.parent / name).text}")
        Prog.perform (.unlink (identity.parent / name))
    else pure ()
  fsyncDirectory identity.parent

/-- `recover_ssh_key_transaction`, once the paths are resolved. -/
def recoverAt (paths : InstancePaths) (identity publicKey : Path) : OsM Unit := do
  match ← readTransaction identity with
  | some (files, journal) =>
    finishTransaction identity publicKey files journal
    recordOperation paths identity publicKey journal
    removeTransaction identity files
  | none => pure ()
  cleanOrphanedFiles identity

/-- `recover_ssh_key_transaction` -/
def recoverTransaction (config : SSHConfig) (paths : InstancePaths) : OsM Unit := do
  let (identity, publicKey) ← sshKeyPaths config paths
  recoverAt paths identity publicKey

/-! ## Generation -/

/-- `ssh-keygen -q -t ed25519 -N "" -C comment -f stage`: it makes both files, or fails. -/
def sshKeygen (stage : Path) (comment : String) : OsM Unit :=
  tryCatch (do
      let (_, publicKey) ← Prog.perform (.keygen stage comment)
      Prog.perform (.openWrite (pubOf stage) 0o644)
      Prog.perform (.write (pubOf stage) publicKey))
    fun e => throw (.command s!"ssh-keygen exited with status 1: {e.message}")

/-- The new key pair, staged and durable, and its journal. -/
def stageTransaction (project : String) (identity publicKey : Path)
    (operationId operationKind : String) : OsM (TransactionFiles × Journal) := do
  let transaction ← Prog.perform .token
  let files := transactionFiles identity transaction
  sshKeygen files.privateStage s!"shuttle-gate:{project}"
  let generatedPublic := pubOf files.privateStage
  requireBoundedRegular files.privateStage "generated SSH private key"
  requireBoundedRegular generatedPublic "generated SSH public key"
  Prog.perform (.chmod files.privateStage 0o600)
  Prog.perform (.chmod generatedPublic 0o644)
  Prog.perform (.rename generatedPublic files.publicStage)
  syncRegularFile files.privateStage
  syncRegularFile files.publicStage
  fsyncDirectory identity.parent
  let journal ← newTransaction identity publicKey files transaction operationId operationKind
  atomicWriteJson (transactionPath identity) journal.toJson 0o600
  return (files, journal)

/-- `generate_ssh_key`, once the lock is held. -/
def generateLocked (project : String) (config : SSHConfig) (paths : InstancePaths) (force : Bool)
    (operationId : String) : OsM Path := do
  let (identity, publicKey) ← sshKeyPaths config paths
  ensurePrivateDirectory identity.parent
  recoverTransaction config paths
  let operationKind := if force then "ssh-key.force" else "ssh-key.generate"
  Prog.ofExcept (voidOperation operationId operationKind)
  if ← operationCompleted paths identity publicKey operationId operationKind then
    return identity
  let exists_ ← do
    if ← pathExists identity then pure true else pathExists publicKey
  if exists_ && !force then
    throw (.state s!"SSH key already exists: {identity.text}")
  let (files, journal) ← stageTransaction project identity publicKey operationId operationKind
  finishTransaction identity publicKey files journal
  recordOperation paths identity publicKey journal
  removeTransaction identity files
  return identity

/-- `generate_ssh_key` -/
def generateSshKey (project : String) (config : SSHConfig) (paths : InstancePaths) (force : Bool)
    (operationId : String) : OsM Path :=
  stateLock paths true false (generateLocked project config paths force operationId)

/-- `ssh_setup_instructions`, once the lock is held, up to the text it prints. -/
def setupLocked (config : SSHConfig) (paths : InstancePaths) : OsM (Path × Path) := do
  recoverTransaction config paths
  let (_, publicKey) ← sshKeyPaths config paths
  tryCatch (requireBoundedRegular publicKey "SSH public key") fun e => match e with
    | .state _ => throw (.state (withCommandHint "SSH public key is missing or invalid"
        ["ssh-key", "generate"]))
    | e => throw e
  let knownHosts ← resolveConfigPath paths.config config.knownHostsFile
  return (publicKey, knownHosts)

/-- `ssh_setup_instructions` -/
def sshSetupInstructions (config : SSHConfig) (paths : InstancePaths) : OsM (Path × Path) :=
  stateLock paths true false (setupLocked config paths)

end Ssh
end ShuttleGate
