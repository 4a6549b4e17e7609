import ShuttleGate.Files.Checks
import ShuttleGate.Keys.KeyText
import ShuttleGate.Render.Fingerprint
import ShuttleGate.State.View

/-! # The WireGuard keys and the phone configurations

Each command works on a staged generation: it makes or replaces keys there, renders the phone
configurations of the peers it has selected, and the generation is published once the selected
keys and configurations are found valid. -/

namespace ShuttleGate

open Fs Effect Os Files State

namespace Keys

def privateKey : String := "private.key"
def publicKey : String := "public.key"
def presharedKey : String := "preshared.key"
def phoneConfig : String := "phone.conf"
def fingerprintFile : String := "fingerprint.json"

/-- A WireGuard key pair. -/
structure KeyPair where
  priv : String
  pub : String
  deriving DecidableEq

/-! ## The runner -/

/-- `Runner`: a command and its input; it leaves the tree alone. -/
structure Runner where
  run : List String → Option String → OsM CommandResult
  reads : ∀ arguments input, (run arguments input).Only OsOp.Reads

/-- What `SubprocessRunner` makes of a finished command that is to be checked. -/
def checkResult (executable : String) (result : CommandResult) : Except Exn CommandResult :=
  if result.returncode ≠ 0 then
    let output := if result.stderr = "" then result.stdout else result.stderr
    let diagnostic := String.ofList ((strip output).toList.take 8192)
    let suffix := if diagnostic = "" then "" else s!": {diagnostic}"
    .error (.command s!"{executable} exited with status {result.returncode}{suffix}")
  else .ok result

/-- `SubprocessRunner` -/
def subprocessRunner : Runner where
  run arguments input := do
    let executable := arguments.headD ""
    let result ← tryCatch (Prog.perform (.run arguments input)) fun e =>
      if e.isFileNotFound then throw (.command s!"required command not found: {executable}")
      else if e = .expired then throw (.command s!"command timed out after 30s: {executable}")
      else throw e
    Prog.ofExcept (checkResult executable result)
  reads arguments input := Prog.Only.bind
    ((reads_only).handle fun _ => Prog.only_raise.ite (Prog.only_raise.ite Prog.only_raise))
    fun _ => Prog.only_ofExcept _

/-! ## Keys -/

/-- `_read_public_key` -/
def readPublicKey (p : Path) (label : String) : OsM String := do
  requireRegularFile p label
  let value ← readLine p label
  Prog.ofExcept (validateWireguardKey value label)

/-- The key a command prints. -/
def generatedKey (runner : Runner) (command : String) (input : Option String) (label : String) :
    OsM String := do
  let result ← runner.run ["wg", command] input
  Prog.ofExcept (validateWireguardKey (strip result.stdout) label)

/-- `_generate_key_pair` -/
def generateKeyPair (runner : Runner) : OsM KeyPair := do
  let priv ← generatedKey runner "genkey" none "generated WireGuard private key"
  let pub ← generatedKey runner "pubkey" (some (priv ++ "\n")) "generated WireGuard public key"
  return ⟨priv, pub⟩

/-- `_generate_preshared_key` -/
def generatePresharedKey (runner : Runner) : OsM String :=
  generatedKey runner "genpsk" none "generated WireGuard preshared key"

inductive KeyStatus
  | complete
  | incomplete
  | missing
  deriving DecidableEq

def KeyStatus.text : KeyStatus → String
  | complete => "complete"
  | incomplete => "partial"
  | missing => "missing"

/-- `[(directory / name).exists() for name in names]` -/
def presence (directory : Path) : List String → OsM (List Bool)
  | [] => pure []
  | name :: names => do
    let there ← Prog.perform (.pathExists (directory / name))
    return there :: (← presence directory names)

/-- What `_key_pair_status` and `_peer_key_status` make of the files there are. -/
def statusOf (present : List Bool) : KeyStatus :=
  if present.all id then .complete else if present.any id then .incomplete else .missing

def keyStatus (directory : Path) (names : List String) : OsM KeyStatus := do
  return statusOf (← presence directory names)

/-- `_key_pair_status` -/
def keyPairStatus (directory : Path) : OsM KeyStatus := keyStatus directory [privateKey, publicKey]

/-- `_peer_key_status` -/
def peerKeyStatus (directory : Path) : OsM KeyStatus :=
  keyStatus directory [privateKey, publicKey, presharedKey]

/-- A private key and the public key beside it. -/
def loadPair (directory : Path) (owner : String) : OsM KeyPair := do
  let secret ← readTextSecret (directory / privateKey) s!"{owner} private key"
  let priv ← Prog.ofExcept (validateWireguardKey secret s!"{owner} private key")
  let pub ← readPublicKey (directory / publicKey) s!"{owner} public key"
  return ⟨priv, pub⟩

/-- `_load_server_keys` -/
def loadServer (paths : InstancePaths) : OsM KeyPair := do
  if (← keyPairStatus paths.serverDir) ≠ .complete then
    throw (.state (withCommandHint "server keys are missing" ["keys", "generate"]))
  loadPair paths.serverDir "server"

/-- `load_server_keys` -/
def loadServerKeys (paths : InstancePaths) : OsM KeyPair := readState paths loadServer

/-- `_load_peer_keys` -/
def loadPeer (paths : InstancePaths) (name : String) : OsM (KeyPair × String) := do
  let directory := paths.peerDir name
  if (← peerKeyStatus directory) ≠ .complete then
    throw (.state (withCommandHint s!"keys for peer {name} are missing"
      ["keys", "generate", "--peer", name]))
  let pair ← loadPair directory name
  let secret ← readTextSecret (directory / presharedKey) s!"{name} preshared key"
  let preshared ← Prog.ofExcept (validateWireguardKey secret s!"{name} preshared key")
  return (pair, preshared)

/-- `load_peer_keys` -/
def loadPeerKeys (paths : InstancePaths) (name : String) : OsM (KeyPair × String) :=
  readState paths fun snapshot => loadPeer snapshot name

/-- The declared peer of a name. -/
def selectedPeer (config : ProjectConfig) (name : String) : Except Exn PeerConfig :=
  match config.wireguard.peers.find? fun peer => peer.name = name with
  | some peer => .ok peer
  | none => .error (.state s!"peer is not declared in config.yaml: {name}")

/-- `_selected_peers` -/
def selectedPeers (config : ProjectConfig) : Option String → Except Exn (List PeerConfig)
  | none => .ok config.wireguard.peers
  | some name => (selectedPeer config name).map ([·])

/-! ## Phone configurations -/

/-- `_phone_artifacts` -/
def phoneArtifacts (config : ProjectConfig) (paths : InstancePaths) (peer : PeerConfig)
    (server : KeyPair) : OsM (String × String) := do
  let (pair, preshared) ← loadPeer paths peer.name
  let rendered := renderPhoneConfig config peer server.pub pair.priv preshared
  let fingerprint ← Prog.ofExcept (phoneFingerprint config peer server.pub pair.pub preshared)
  return (rendered, fingerprint)

/-- What `fingerprint.json` holds. -/
def fingerprintJson (fingerprint : String) : Json :=
  .obj [("schema_version", .int 1), ("fingerprint", .str fingerprint)]

/-- `_render_phone_configs` -/
def renderPhoneConfigs (config : ProjectConfig) (paths : InstancePaths) (peers : List PeerConfig) :
    OsM Unit := do
  let server ← loadServer paths
  Prog.forEach peers fun peer => do
    let (rendered, fingerprint) ← phoneArtifacts config paths peer server
    atomicWrite (paths.peerDir peer.name / phoneConfig) rendered 0o600
    atomicWriteJson (paths.peerDir peer.name / fingerprintFile) (fingerprintJson fingerprint) 0o600

/-- A regular file of one's own of at most 64 KiB. -/
def isBoundedPrivate (st : Stat) : Bool :=
  st.kind = .regular && !openToOthers st.mode && st.size ≤ 64 * 1024

/-- `_read_phone_config` -/
def readPhone (paths : InstancePaths) (name : String) : OsM String :=
  let path := paths.peerDir name / phoneConfig
  tryCatch (do
      let st ← Prog.perform (.lstat path)
      if !isBoundedPrivate st then
        throw (.state s!"invalid phone configuration: {path.text}")
      readText path) fun e =>
    if isTextError e then
      throw (.state s!"cannot read phone configuration for {name}: {e.message}")
    else throw e

/-- `read_phone_config` -/
def readPhoneConfig (paths : InstancePaths) (name : String) : OsM String :=
  readState paths fun snapshot => readPhone snapshot name

/-- `StateError` or one of the errors a file that cannot be read raises. -/
def isStale (e : Exn) : Bool :=
  isUnreadable e || match e with
    | .state _ => true
    | _ => false

/-- The artifacts of a peer that are there. -/
def storedArtifacts (paths : InstancePaths) (name : String) : OsM (Json × String) :=
  let path := paths.peerDir name / fingerprintFile
  tryCatch (do
      let st ← Prog.perform (.lstat path)
      if !isBoundedPrivate st then
        throw (.state s!"phone config fingerprint for {name} is unexpectedly large")
      let value ← loadJson path
      return (value, ← readPhone paths name)) fun e =>
    if isStale e then
      throw (.state (withCommandHint s!"phone config for {name} is missing or invalid"
        ["phone-config", name]))
    else throw e

/-- `value.get("schema_version") == 1 and value.get("fingerprint") == expected` -/
def isFingerprint (expected : String) (value : Json) : Bool :=
  (match field "schema_version" value with | some version => isOne version | none => false) &&
    match field "fingerprint" value with | some (.str s) => s = expected | _ => false

/-- The requirement of one peer. -/
def requirePhone (config : ProjectConfig) (paths : InstancePaths) (server : KeyPair)
    (peer : PeerConfig) : OsM Unit := do
  let (expectedConfig, expectedFingerprint) ← phoneArtifacts config paths peer server
  let (value, actualConfig) ← storedArtifacts paths peer.name
  if !isFingerprint expectedFingerprint value || actualConfig ≠ expectedConfig then
    throw (.state (withCommandHint s!"phone config for {peer.name} is stale"
      ["phone-config", peer.name]))

/-- `_require_selected_phone_configs` -/
def requireSelected (config : ProjectConfig) (paths : InstancePaths) (peers : List PeerConfig) :
    OsM Unit := do
  let server ← loadServer paths
  Prog.forEach peers (requirePhone config paths server)

/-- `_require_current_phone_configs` -/
def requireCurrent (config : ProjectConfig) (paths : InstancePaths) : OsM Unit :=
  requireSelected config paths config.wireguard.peers

/-- `require_current_phone_configs` -/
def requireCurrentPhoneConfigs (config : ProjectConfig) (paths : InstancePaths) : OsM Unit :=
  readState paths (requireCurrent config)

/-- `_validate_selected_keys` -/
def validateSelectedKeys (paths : InstancePaths) (selected : List PeerConfig) : OsM Unit := do
  let _ ← loadServer paths
  Prog.forEach selected fun peer => do
    let _ ← loadPeer paths peer.name

/-- `_validate_phone_snapshot` -/
def validatePhoneSnapshot (config : ProjectConfig) (selected : List PeerConfig)
    (paths : InstancePaths) : OsM Unit := do
  validateSelectedKeys paths selected
  requireSelected config paths selected

/-- `_validate_snapshot` -/
def validateSnapshot (config : ProjectConfig) (paths : InstancePaths) : OsM Unit := do
  validateSelectedKeys paths config.wireguard.peers
  requireCurrent config paths

/-- `_validate_available_keys` -/
def validateAvailableKeys (config : ProjectConfig) (paths : InstancePaths) : OsM Unit := do
  let _ ← loadServer paths
  Prog.forEach config.wireguard.peers fun peer => do
    match ← peerKeyStatus (paths.peerDir peer.name) with
    | .missing => pure ()
    | .incomplete => throw (.state
        s!"peer {peer.name} key state is partial; rotate it explicitly")
    | .complete => do
      let _ ← loadPeer paths peer.name

/-! ## Making keys -/

/-- A key file. -/
def writeKey (directory : Path) (name key : String) (mode : Nat) : OsM Unit :=
  atomicWrite (directory / name) (key ++ "\n") mode

/-- The server keys where there are none; the names of what has been made. -/
def generateServerKeys (paths : InstancePaths) (runner : Runner) : OsM (List String) := do
  match ← keyPairStatus paths.serverDir with
  | .incomplete => throw (.state "server key state is partial; rotate or repair it explicitly")
  | .missing => do
    let pair ← generateKeyPair runner
    writeKey paths.serverDir privateKey pair.priv 0o600
    writeKey paths.serverDir publicKey pair.pub 0o644
    return ["server"]
  | .complete => return []

/-- The same for one peer. -/
def generatePeerKeys (paths : InstancePaths) (runner : Runner) (peer : PeerConfig) :
    OsM (List String) := do
  let directory := paths.peerDir peer.name
  match ← peerKeyStatus directory with
  | .incomplete => throw (.state s!"peer {peer.name} key state is partial; rotate it explicitly")
  | .missing => do
    let pair ← generateKeyPair runner
    let preshared ← generatePresharedKey runner
    writeKey directory privateKey pair.priv 0o600
    writeKey directory publicKey pair.pub 0o644
    writeKey directory presharedKey preshared 0o600
    return [peer.name]
  | .complete => return []

/-- The names of everything that has been made, in order. -/
def generateAll (make : PeerConfig → OsM (List String)) : List PeerConfig → OsM (List String)
  | [] => pure []
  | peer :: peers => do
    let created ← make peer
    return created ++ (← generateAll make peers)

/-- `_generate_missing_keys`, after what it does first. -/
def generateFrom (config : ProjectConfig) (runner : Runner) (selected : List PeerConfig)
    (paths : InstancePaths) : OsM (List String) := do
  let server ← generateServerKeys paths runner
  let peers ← generateAll (generatePeerKeys paths runner) selected
  validateSelectedKeys paths selected
  renderPhoneConfigs config paths selected
  return server ++ peers

/-- `_generate_missing_keys` -/
def generateMissing (config : ProjectConfig) (runner : Runner) (selected : List PeerConfig)
    (paths : InstancePaths) : OsM (List String) := do
  ensurePrivateDirectory paths.state
  generateFrom config runner selected paths

/-- `generate_missing_keys` -/
def generateMissingKeys (config : ProjectConfig) (paths : InstancePaths) (runner : Runner)
    (peerName : Option String) : OsM (List String) := do
  let selected ← Prog.ofExcept (selectedPeers config peerName)
  mutateState paths (generateMissing config runner selected)
    (validatePhoneSnapshot config selected) none none

/-- `regenerate_phone_config` -/
def regeneratePhoneConfig (config : ProjectConfig) (paths : InstancePaths) (name : String) :
    OsM Unit := do
  let selected ← Prog.ofExcept (selectedPeers config (some name))
  mutateState paths (fun snapshot => renderPhoneConfigs config snapshot selected)
    (validatePhoneSnapshot config selected) none none

/-- What `rotate_peer` does to the snapshot. -/
def rotatePeerIn (config : ProjectConfig) (runner : Runner) (peer : PeerConfig)
    (snapshot : InstancePaths) : OsM Unit := do
  let pair ← generateKeyPair runner
  let preshared ← generatePresharedKey runner
  let directory := snapshot.peerDir peer.name
  writeKey directory publicKey pair.pub 0o644
  writeKey directory presharedKey preshared 0o600
  writeKey directory privateKey pair.priv 0o600
  renderPhoneConfigs config snapshot [peer]

/-- `rotate_peer` -/
def rotatePeer (config : ProjectConfig) (paths : InstancePaths) (runner : Runner)
    (name operationId : String) : OsM Unit := do
  let peer ← Prog.ofExcept (selectedPeer config name)
  let operation ← Prog.ofExcept (voidOperation operationId s!"keys.rotate-peer.{name}")
  mutateState paths (rotatePeerIn config runner peer) (validatePhoneSnapshot config [peer]) none
    (some operation)

/-- What `rotate_server` does to the snapshot. -/
def rotateServerIn (config : ProjectConfig) (runner : Runner) (snapshot : InstancePaths) :
    OsM Unit := do
  let pair ← generateKeyPair runner
  writeKey snapshot.serverDir publicKey pair.pub 0o644
  writeKey snapshot.serverDir privateKey pair.priv 0o600
  renderPhoneConfigs config snapshot config.wireguard.peers

/-- `rotate_server` -/
def rotateServer (config : ProjectConfig) (paths : InstancePaths) (runner : Runner)
    (operationId : String) : OsM Unit := do
  let operation ← Prog.ofExcept (voidOperation operationId "keys.rotate-server")
  mutateState paths (rotateServerIn config runner) (validateSnapshot config) none (some operation)

/-- `child.is_symlink() or not child.is_dir()` -/
def isUnexpected (child : Path) : OsM Bool := do
  if ← isSymlink child then
    return true
  return !(← Prog.perform (.isDir child))

/-- The loop of `prune`: the names of the directories that have been removed. -/
def pruneEach (declared : List String) (root : Path) : List String → OsM (List String)
  | [] => pure []
  | name :: names =>
    if name ∈ declared then pruneEach declared root names
    else do
      let child := root / name
      if ← isUnexpected child then
        throw (.state s!"refusing to prune unexpected peer state: {child.text}")
      rmtree child
      return name :: (← pruneEach declared root names)

/-- What `prune_orphaned_peers` does to the snapshot. -/
def pruneIn (config : ProjectConfig) (snapshot : InstancePaths) : OsM (List String) := do
  let root := snapshot.dataDir / "peers"
  if !(← Prog.perform (.pathExists root)) then
    return []
  let names ← Prog.perform (.listdir root)
  let removed ← pruneEach (config.wireguard.peers.map (·.name)) root names
  return removed.insertionSort (· ≤ ·)

/-- `prune_orphaned_peers` -/
def pruneOrphanedPeers (config : ProjectConfig) (paths : InstancePaths) : OsM (List String) :=
  mutateState paths (pruneIn config) (validateAvailableKeys config)
    (some fun removed => !removed.isEmpty) none

/-! ## The listing -/

inductive PhoneState
  | missing
  | stale
  | current
  deriving DecidableEq

/-- `first.is_file() and second.is_file()` -/
def areFiles (first second : Path) : OsM Bool := do
  if ← isFile first then isFile second
  else return false

/-- The row of one peer. -/
def peerRow (config : ProjectConfig) (paths : InstancePaths) (peer : PeerConfig) :
    OsM (String × KeyStatus × PhoneState) := do
  let keys ← peerKeyStatus (paths.peerDir peer.name)
  if !(← areFiles (paths.peerDir peer.name / phoneConfig)
      (paths.peerDir peer.name / fingerprintFile)) then
    return (peer.name, keys, .missing)
  let state ← tryCatch (do
      requireSelected config paths [peer]
      return PhoneState.current) fun e => match e with
    | .state _ => pure .stale
    | e => throw e
  return (peer.name, keys, state)

/-- `_peer_rows` -/
def rowsOf (config : ProjectConfig) (paths : InstancePaths) :
    List PeerConfig → OsM (List (String × KeyStatus × PhoneState))
  | [] => pure []
  | peer :: peers => do
    let row ← peerRow config paths peer
    return row :: (← rowsOf config paths peers)

/-- `peer_rows` -/
def peerRows (config : ProjectConfig) (paths : InstancePaths) :
    OsM (List (String × KeyStatus × PhoneState)) :=
  readState paths (fun snapshot => rowsOf config snapshot config.wireguard.peers) false

end Keys
end ShuttleGate
