import ShuttleGate.Runtime.Commands
import ShuttleGate.Effect.Prog
import ShuttleGate.Json.Value
import Mathlib.Data.List.Infix

/-! # The gateway process

`GatewayRuntime` as programs over the operations it performs on its network namespace, its child
process and its status file, and the machine that answers them: a command that succeeds has its
documented effect and one that fails has none; any operation may raise, and an interruption may
come before or after its effect. -/

namespace ShuttleGate

open Net Fs Nft Effect

namespace Runtime

/-- A WireGuard key pair. -/
structure KeyPair where
  priv : String
  pub : String
  deriving DecidableEq

/-! ## Commands -/

/-- The commands of the runner. -/
inductive Command
  | nftCheck (table : Table)
  | nftLoad (table : Table)
  | nftDelete (family : Family) (name : String)
  | nftList (family : Family) (name : String)
  | linkDel
  | linkAdd
  | linkShow
  | linkMtu (mtu : Int)
  | linkUp
  | addressAdd (interface : IPInterface)
  | wgSetconf (path : Path)
  | wgDump
  | ruleDel (v : Version)
  | ruleAdd (v : Version)
  | routeReplace (v : Version)
  | routeFlush (v : Version)
  | remoteCheck (arguments : List String)
  deriving DecidableEq

namespace Command

def familyFlag : Version → String
  | .v4 => "-4"
  | .v6 => "-6"

def ruleTail : List String :=
  ["fwmark", tproxyMark, "lookup", "100", "priority", "100"]

def arguments : Command → List String
  | nftCheck _ => ["nft", "--check", "--file", "-"]
  | nftLoad _ => ["nft", "--file", "-"]
  | nftDelete family name => ["nft", "delete", "table", family.text, name]
  | nftList family name => ["nft", "list", "table", family.text, name]
  | linkDel => ["ip", "link", "del", "dev", interface]
  | linkAdd => ["ip", "link", "add", "dev", interface, "type", "wireguard"]
  | linkShow => ["ip", "link", "show", "dev", interface]
  | linkMtu mtu => ["ip", "link", "set", "dev", interface, "mtu", toString mtu]
  | linkUp => ["ip", "link", "set", "dev", interface, "up"]
  | addressAdd i => ["ip", familyFlag i.version, "address", "add", i.text, "dev", interface]
  | wgSetconf path => ["wg", "setconf", interface, path.text]
  | wgDump => ["wg", "show", interface, "dump"]
  | ruleDel v => ["ip", familyFlag v, "rule", "del"] ++ ruleTail
  | ruleAdd v => ["ip", familyFlag v, "rule", "add"] ++ ruleTail
  | routeReplace v =>
    ["ip", familyFlag v, "route", "replace", "local", "default", "dev", "lo", "table", "100"]
  | routeFlush v => ["ip", familyFlag v, "route", "flush", "table", "100"]
  | remoteCheck arguments => arguments

/-- The text on standard input. -/
def input : Command → Option String
  | nftCheck table | nftLoad table => some table.text
  | _ => none

end Command

structure CommandResult where
  returncode : Int
  stdout : String
  stderr : String
  deriving DecidableEq

/-! ## The namespace -/

structure Link where
  up : Bool
  mtu : Option Int := none
  addresses : List IPInterface := []
  configured : Bool := false
  deriving DecidableEq

structure Namespace where
  link : Option Link
  tables : List (Family × String)
  rules : List Version
  routes : List Version
  deriving DecidableEq

/-- The documented effect of a successful command; `none` where it cannot succeed. -/
def Command.effect (ns : Namespace) : Command → Option Namespace
  | nftLoad table =>
    some { ns with tables := (table.family, table.name) :: ns.tables.erase (table.family, table.name) }
  | nftDelete family name =>
    if (family, name) ∈ ns.tables then
      some { ns with tables := ns.tables.filter (· ≠ (family, name)) }
    else none
  | nftList family name => if (family, name) ∈ ns.tables then some ns else none
  | linkDel => ns.link.map fun _ => { ns with link := none }
  | linkAdd => if ns.link = none then some { ns with link := some { up := false } } else none
  | linkShow | wgDump => ns.link.map fun _ => ns
  | linkMtu mtu => ns.link.map fun link => { ns with link := some { link with mtu := some mtu } }
  | linkUp => ns.link.map fun link => { ns with link := some { link with up := true } }
  | addressAdd i =>
    ns.link.map fun link => { ns with link := some { link with addresses := i :: link.addresses } }
  | wgSetconf _ =>
    ns.link.map fun link => { ns with link := some { link with configured := true } }
  | ruleDel v => if v ∈ ns.rules then some { ns with rules := ns.rules.erase v } else none
  | ruleAdd v => if v ∈ ns.rules then none else some { ns with rules := v :: ns.rules }
  | routeReplace v => some { ns with routes := v :: ns.routes.erase v }
  | routeFlush v => some { ns with routes := ns.routes.filter (· ≠ v) }
  | nftCheck _ | remoteCheck _ => some ns

/-! ## Operations -/

/-- One operation of the gateway on its surroundings. -/
inductive GatewayOp : Type → Type
  /-- `runtime_dir.mkdir` and `chmod` -/
  | prepareRuntimeDir : GatewayOp Unit
  | run (command : Command) : GatewayOp CommandResult
  /-- `atomic_write_json(runtime_dir / "status.json", value)` -/
  | writeStatus (value : Json) : GatewayOp Unit
  | writeSysctl (path : Path) (value : String) : GatewayOp Unit
  | loadServerKeys : GatewayOp KeyPair
  | loadPeerKeys (name : String) : GatewayOp (KeyPair × String)
  /-- `atomic_write(runtime_dir / "wireguard.conf", text)` -/
  | writeConfig (text : String) : GatewayOp Unit
  | removeNotify : GatewayOp Unit
  | openNotify : GatewayOp Unit
  | bindNotify : GatewayOp Unit
  | closeNotify : GatewayOp Unit
  | receive : GatewayOp (List UInt8)
  /-- `subprocess.Popen`: the new process. -/
  | spawn (arguments : List String) : GatewayOp Int
  /-- `self.sshuttle` -/
  | getChild : GatewayOp (Option Int)
  | setChild (child : Option Int) : GatewayOp Unit
  | poll (pid : Int) : GatewayOp (Option Int)
  | terminate (pid : Int) : GatewayOp Unit
  | kill (pid : Int) : GatewayOp Unit
  | wait (pid : Int) (seconds : Nat) : GatewayOp Unit
  | clock : GatewayOp Int
  /-- `stopping.wait(1.0)` -/
  | waitStop : GatewayOp Bool
  /-- Never answered: a loop has used up the rounds a run is given. -/
  | hang : GatewayOp Unit

/-- The surroundings of one gateway process. -/
structure World where
  ns : Namespace
  child : Option Int
  status : Option Json

/-- What a successful operation answers and does. A command with a nonzero status has no effect. -/
def Answers : {β : Type} → GatewayOp β → World → β → World → Prop
  | _, .run command, w, r, w' =>
    if r.returncode = 0 then ∃ ns, command.effect w.ns = some ns ∧ w' = { w with ns } else w' = w
  | _, .writeStatus value, w, _, w' => w' = { w with status := some value }
  | _, .setChild child, w, _, w' => w' = { w with child }
  | _, .getChild, w, a, w' => a = w.child ∧ w' = w
  | _, .hang, _, _, _ => False
  | _, _, w, _, w' => w' = w

theorem answers_run {command : Command} : Answers (.run command) w r w' ↔
    if r.returncode = 0 then ∃ ns, command.effect w.ns = some ns ∧ w' = { w with ns }
    else w' = w := .rfl

/-- An attribute is read and set without failing. -/
def GatewayOp.fallible : GatewayOp β → Bool
  | getChild | setChild _ | hang => false
  | _ => true

/-- One step: the operation succeeds, raises without an effect, or is interrupted after it. -/
inductive Step : {β : Type} → GatewayOp β → World → Except Exn β → World → Prop
  | done {op : GatewayOp β} (h : Answers op w a w') : Step op w (.ok a) w'
  | raised {op : GatewayOp β} (h : e.isException = true → op.fallible = true) :
    Step op w (.error e) w
  | interrupted {op : GatewayOp β} (h : Answers op w a w') : Step op w (.error (.interrupt name)) w'

def machine : Machine GatewayOp Exn World := ⟨Step⟩

/-! ## The runtime -/

/-- The fields of `GatewayRuntime` that do not change. -/
structure Gateway where
  config : ProjectConfig
  paths : InstancePaths
  runtimeDir : Path
  launchId : String
  sysctlRoot : Option Path
  executable : String

abbrev GatewayM := Prog GatewayOp Exn

/-- `with suppress(..)` -/
def suppress (caught : Exn → Bool) (p : GatewayM Unit) : GatewayM Unit :=
  tryCatch p fun e => if caught e then pure () else throw e

def liftError (wrap : String → Exn) : Except String α → GatewayM α
  | .ok a => pure a
  | .error message => throw (wrap message)

/-- `runner.run(command, check=check)` -/
def run (command : Command) (check : Bool := true) : GatewayM CommandResult := do
  let result ← Prog.perform (.run command)
  if check && result.returncode != 0 then
    let output := if result.stderr = "" then result.stdout else result.stderr
    let diagnostic := String.ofList ((strip output).toList.take 8192)
    let suffix := if diagnostic = "" then "" else s!": {diagnostic}"
    let executable := command.arguments.headD ""
    throw (.command s!"{executable} exited with status {result.returncode}{suffix}")
  return result

/-- The families of the effective routes, ascending. -/
def routeFamilies (config : ProjectConfig) : List Version :=
  [.v4, .v6].filter fun v => config.effectiveRoutes.any (·.version = v)

/-! ### Status -/

inductive GatewayState
  | starting
  | ready
  | stopping
  | stopped
  | retrying
  | failed
  deriving DecidableEq, Repr

def GatewayState.text : GatewayState → String
  | starting => "starting"
  | ready => "ready"
  | stopping => "stopping"
  | stopped => "stopped"
  | retrying => "retrying"
  | failed => "failed"

/-- `str.splitlines` -/
def splitlines (s : String) : List String :=
  let rec go (line : List Char) : List Char → List String
    | [] => if line = [] then [] else [.ofList line.reverse]
    | '\r' :: '\n' :: cs => .ofList line.reverse :: go [] cs
    | c :: cs =>
      if [0xa, 0xb, 0xc, 0xd, 0x1c, 0x1d, 0x1e, 0x85, 0x2028, 0x2029].contains c.toNat then
        .ofList line.reverse :: go [] cs
      else go (c :: line) cs
  go [] s.toList

/-- `str.split(sep)` for a one-character separator. -/
def splitOn (sep : Char) (s : String) : List String := (s.toList.splitOn sep).map .ofList

/-- `int(value)` of an ASCII text: a sign, digits, single underscores between digits. -/
def parseInt (value : String) : Option Int :=
  let unsigned (s : List Char) : Option Int :=
    let groups := s.splitOn '_'
    if groups.all fun group => group ≠ [] && group.all (·.isDigit) then
      some (Nat.ofDigitChars 10 groups.flatten 0)
    else none
  match (strip value).toList with
  | '-' :: s => (unsigned s).map (- ·)
  | '+' :: s => unsigned s
  | s => unsigned s

/-- `_wireguard_number` -/
def wireguardNumber (value label : String) (allowOff : Bool := false) : Except Exn Int :=
  if allowOff && value = "off" then .ok 0
  else
    match parseInt value with
    | none => .error (.runtime s!"WireGuard reported an invalid {label}")
    | some number =>
      if number < 0 then .error (.runtime s!"WireGuard reported an invalid {label}") else .ok number

/-- The status entry of one line of the dump; short lines have none. -/
def peerEntry (peerNames : List (String × String)) (line : String) : Except Exn (Option Json) :=
  match splitOn '\t' line with
  | publicKey :: _ :: endpoint :: allowed :: handshake :: received :: sent :: keepalive :: _ => do
    let handshake ← wireguardNumber handshake "handshake time"
    let received ← wireguardNumber received "received byte count"
    let sent ← wireguardNumber sent "sent byte count"
    let keepalive ← wireguardNumber keepalive "persistent keepalive" true
    return some (.obj [
      ("name", .str ((peerNames.lookup publicKey).getD "unknown")),
      ("public_key", .str publicKey),
      ("endpoint", if endpoint = "" ∨ endpoint = "(none)" then .null else .str endpoint),
      ("allowed_ips", .arr (if allowed = "" then [] else (splitOn ',' allowed).map .str)),
      ("latest_handshake", .int handshake),
      ("received_bytes", .int received),
      ("sent_bytes", .int sent),
      ("persistent_keepalive", .int keepalive)])
  | _ => return none

/-- The entries of the dump after its first line. -/
def peerEntries (peerNames : List (String × String)) (stdout : String) : Except Exn (List Json) := do
  return (← (splitlines stdout).tail.mapM (peerEntry peerNames)).filterMap id

/-- The names of the configured peers by public key; of equal keys the last name stands. -/
def peerNames : List PeerConfig → GatewayM (List (String × String))
  | [] => pure []
  | peer :: rest => do
    let (pair, _) ← Prog.perform (.loadPeerKeys peer.name)
    let names ← peerNames rest
    return names ++ [(pair.pub, peer.name)]

def peerStatus (g : Gateway) : GatewayM (List Json) := do
  let names ← peerNames g.config.wireguard.peers
  let result ← run .wgDump
  Prog.ofExcept (peerEntries names result.stdout)

/-- The value of `status.json`. -/
def statusValue (g : Gateway) (state : GatewayState) (child : Option Int) (peers : List Json)
    (error : Option String) : Json :=
  .obj ([
    ("schema_version", .int 2),
    ("launch_id", .str g.launchId),
    ("state", .str state.text),
    ("sshuttle_pid", match child with | some pid => .int pid | none => .null),
    ("health", .str (if state = .ready then "ok" else "degraded")),
    ("wireguard_interface", .str interface),
    ("routes", .arr (g.config.effectiveRoutes.map fun route => .str route.text)),
    ("peers", .arr peers)] ++
    match error with
    | some error => [("error", .str (.ofList (error.toList.take 4096)))]
    | none => [])

def writeStatus (g : Gateway) (state : GatewayState) (ignoreErrors : Bool := false)
    (error : Option String := none) : GatewayM Unit := do
  let child ← Prog.perform .getChild
  let peers ← if state = .ready then peerStatus g else pure []
  tryCatch (Prog.perform (.writeStatus (statusValue g state child peers error))) fun e =>
    if e.isOSError && ignoreErrors then pure () else throw e

/-! ### Cleanup -/

/-- `_stop_process` -/
def stopProcess : Option Int → GatewayM Unit
  | none => pure ()
  | some pid => do
    let code ← Prog.perform (.poll pid)
    if code ≠ none then
      return ()
    Prog.perform (.terminate pid)
    tryCatch (Prog.perform (.wait pid 10)) fun e =>
      if e = .expired then do
        Prog.perform (.kill pid)
        Prog.perform (.wait pid 10)
      else throw e

/-- One effect of the cleanup: its exception is kept and does not end the cleanup. -/
def attempt (p : GatewayM Unit) : GatewayM (List Exn) :=
  tryCatch (do p; pure []) fun e => if e.isException then pure [e] else throw e

/-- The commands of the cleanup. -/
def cleanupCommands : List Command :=
  [.nftDelete .inet nftTable, .ruleDel .v6, .routeFlush .v6, .ruleDel .v4, .routeFlush .v4, .linkDel]

def runCleanup : List Command → GatewayM (List Exn)
  | [] => pure []
  | command :: rest => do
    let failure ← attempt (do let _ ← run command false)
    return failure ++ (← runCleanup rest)

def cleanup (g : Gateway) : GatewayM Unit := do
  writeStatus g .stopping true
  let child ← Prog.perform .getChild
  let stopFailures ← attempt (stopProcess child)
  Prog.perform (.setChild none)
  let failures := stopFailures ++ (← runCleanup cleanupCommands)
  if failures ≠ [] then
    throw (.runtime "cleanup was incomplete; namespace destruction is the final boundary")

/-! ### Startup -/

/-- The sysctls of the namespace. -/
def sysctlValues (config : ProjectConfig) : List (List String × String) :=
  [(["net", "ipv4", "ip_unprivileged_port_start"], "0\n")] ++
    (if .v4 ∈ routeFamilies config then
      [(["net", "ipv4", "conf", "all", "src_valid_mark"], "0\n"),
        (["net", "ipv4", "conf", "default", "src_valid_mark"], "0\n")] else []) ++
    (if .v6 ∈ routeFamilies config then [(["net", "ipv6", "bindv6only"], "1\n")] else [])

def configureNamespace (g : Gateway) : GatewayM Unit :=
  match g.sysctlRoot with
  | none => pure ()
  | some root => Prog.forEach (sysctlValues g.config) fun (relative, value) =>
    tryCatch (Prog.perform (.writeSysctl (Path.join root relative) value)) fun e =>
      if e.isOSError then
        let name := "/".intercalate relative
        throw (.runtime s!"cannot configure namespace sysctl {name}: {e.message}")
      else throw e

def remotePythonCheck (g : Gateway) : GatewayM Unit := do
  let arguments ← liftError .configuration (remotePythonCheckArguments g.config g.paths)
  let _ ← run (.remoteCheck arguments)

def loadKeys : List PeerConfig → GatewayM (List (String × String × String))
  | [] => pure []
  | peer :: rest => do
    let (pair, preshared) ← Prog.perform (.loadPeerKeys peer.name)
    return (peer.name, pair.pub, preshared) :: (← loadKeys rest)

def setupWireguard (g : Gateway) : GatewayM Unit := do
  let _ ← run .linkDel false
  let _ ← run .linkAdd
  Prog.forEach g.config.wireguard.gatewayAddresses fun interface => do
    let _ ← run (.addressAdd interface)
  let server ← Prog.perform .loadServerKeys
  let peers ← loadKeys g.config.wireguard.peers
  let privateConfig ← Prog.ofExcept (renderServerConfig g.config server.priv peers)
  Prog.perform (.writeConfig privateConfig)
  let _ ← run (.wgSetconf (g.runtimeDir / "wireguard.conf"))
  let _ ← run (.linkMtu g.config.wireguard.mtu)

def activateWireguard : GatewayM Unit := do
  let _ ← run .linkUp

def setupPolicyRouting (g : Gateway) : GatewayM Unit :=
  Prog.forEach (routeFamilies g.config) fun v => do
    let _ ← run (.ruleDel v) false
    let _ ← run (.routeReplace v)
    let _ ← run (.ruleAdd v)

/-- Wait for `READY=1` until the deadline, for at most `fuel` rounds. -/
def awaitReady (g : Gateway) (pid deadline : Int) : Nat → GatewayM Unit
  | 0 => Prog.perform .hang
  | fuel + 1 => do
    let now ← Prog.perform .clock
    if now < deadline then
      match ← Prog.perform (.poll pid) with
      | some code =>
        let message := s!"sshuttle exited during startup with status {code}"
        throw (if code = 70 then .runtime message else .transient message)
      | none =>
        let message ← tryCatch (do return some (← Prog.perform .receive)) fun e =>
          if e = .timeout then pure none else throw e
        match message with
        | none => awaitReady g pid deadline fuel
        | some message =>
          if "READY=1".toUTF8.toList <:+: message then pure ()
          else awaitReady g pid deadline fuel
    else
      throw (.transient
        s!"sshuttle did not become ready within {g.config.backend.startupTimeoutSeconds}s")

def startSshuttle (g : Gateway) (fuel : Nat) : GatewayM Unit := do
  Prog.perform .removeNotify
  Prog.perform .openNotify
  Prog.finally'
    (do
      Prog.perform .bindNotify
      let arguments ← liftError .configuration (sshuttleArguments g.executable g.config g.paths)
      let pid ← Prog.perform (.spawn arguments)
      Prog.perform (.setChild (some pid))
      let now ← Prog.perform .clock
      awaitReady g pid (now + g.config.backend.startupTimeoutSeconds) fuel)
    (do
      Prog.perform .closeNotify
      Prog.perform .removeNotify)

def verifyPostconditions : GatewayM Unit := do
  match ← Prog.perform .getChild with
  | none => throw (.runtime "sshuttle is not running after startup")
  | some pid =>
    if (← Prog.perform (.poll pid)) ≠ none then
      throw (.runtime "sshuttle is not running after startup")
    Prog.forEach [.linkShow, .wgDump, .nftList .inet nftTable] fun command => do
      let _ ← run command

/-- What `start` does after its first status: everything a failure rolls back. -/
def bringUp (g : Gateway) (fuel : Nat) : GatewayM Unit := do
  configureNamespace g
  tryCatch (remotePythonCheck g) fun e =>
    match e with
    | .command message => throw (.transient message)
    | e => throw e
  let _ ← run (.nftCheck nftFilter)
  let _ ← run (.nftLoad nftFilter)
  setupWireguard g
  setupPolicyRouting g
  startSshuttle g fuel
  activateWireguard
  verifyPostconditions
  writeStatus g .ready

/-- Start all components or roll back completely. -/
def start (g : Gateway) (fuel : Nat) : GatewayM Unit := do
  Prog.perform .prepareRuntimeDir
  cleanup g
  writeStatus g .starting
  tryCatch (bringUp g fuel) fun e => do
    suppress Exn.isRuntimeFailure (cleanup g)
    throw e

/-- Wait for a stop request or the end of the child, for at most `fuel` rounds. -/
def supervise (g : Gateway) : Nat → GatewayM Unit
  | 0 => Prog.perform .hang
  | fuel + 1 => do
    if ← Prog.perform .waitStop then
      return ()
    match ← Prog.perform .getChild with
    | none => throw (.transient "sshuttle exited unexpectedly")
    | some pid =>
      if (← Prog.perform (.poll pid)) ≠ none then
        throw (.transient "sshuttle exited unexpectedly")
      writeStatus g .ready
      supervise g fuel

/-- The error path of `run_gateway`: clean up, record a terminal status, raise again. -/
def terminate (g : Gateway) (e : Exn) : GatewayM Unit := do
  let cleanupError ← tryCatch (do cleanup g; pure none) fun failure =>
    if failure.isRuntimeFailure then pure (some failure) else throw failure
  let message := if e.isShuttleGateError then e.message
    else s!"unexpected runtime failure: {e.typeName}"
  let message := match cleanupError with
    | some failure => message ++ s!"; {failure.message}"
    | none => message
  writeStatus g (if e.isTransient then .retrying else .failed) true (some message)
  throw e

/-- `run_gateway` after the manifest has been validated. -/
def runGateway (g : Gateway) (fuel : Nat) : GatewayM Int := do
  tryCatch (do start g fuel; supervise g fuel) (terminate g)
  cleanup g
  writeStatus g .stopped true
  return 0

/-- The exit status of the `runtime` command for an outcome of `run_gateway`. -/
def runtimeCommand : Except Exn Int → Int
  | .ok result => result
  | .error e => if e.isTransient then 75 else if e.isShuttleGateError then 2 else 1

/-! ## Playing the gateway -/

/-- The gateway of `config.example.yaml` under `/`. -/
def exampleGateway : Gateway where
  config := exampleProject
  paths := ⟨[], ["config.yaml"], ["state"], ["secrets"], none⟩
  runtimeDir := ["run"]
  launchId := "0"
  sysctlRoot := none
  executable := "/usr/bin/python3"

/-- A fresh network namespace. -/
def freshWorld : World := ⟨⟨none, [], [], []⟩, none, none⟩

/-- A command that can take effect does, unless it is refused. -/
def answerRun (refused : Command → World → Bool) (command : Command) (w : World) :
    Except Exn CommandResult × World :=
  match command.effect w.ns with
  | some ns => if refused command w then (.ok ⟨1, "", ""⟩, w) else (.ok ⟨0, "", ""⟩, { w with ns })
  | none => (.ok ⟨1, "", ""⟩, w)

/-- The child becomes ready and lives, and the stop request is there at once. -/
def oracle (refused : Command → World → Bool) :
    {β : Type} → GatewayOp β → World → Except Exn β × World
  | _, .run command, w => answerRun refused command w
  | _, .writeStatus value, w => (.ok (), { w with status := some value })
  | _, .setChild child, w => (.ok (), { w with child })
  | _, .getChild, w => (.ok w.child, w)
  | _, .loadServerKeys, w => (.ok ⟨"", ""⟩, w)
  | _, .loadPeerKeys _, w => (.ok (⟨"", ""⟩, ""), w)
  | _, .receive, w => (.ok "READY=1".toUTF8.toList, w)
  | _, .spawn _, w => (.ok 1, w)
  | _, .poll _, w => (.ok none, w)
  | _, .clock, w => (.ok 0, w)
  | _, .waitStop, w => (.ok true, w)
  | _, .prepareRuntimeDir, w => (.ok (), w)
  | _, .writeSysctl _ _, w => (.ok (), w)
  | _, .writeConfig _, w => (.ok (), w)
  | _, .removeNotify, w => (.ok (), w)
  | _, .openNotify, w => (.ok (), w)
  | _, .bindNotify, w => (.ok (), w)
  | _, .closeNotify, w => (.ok (), w)
  | _, .terminate _, w => (.ok (), w)
  | _, .kill _, w => (.ok (), w)
  | _, .wait _ _, w => (.ok (), w)
  | _, .hang, w => (.error (.interrupt "KeyboardInterrupt"), w)

theorem step_oracle (refused : Command → World → Bool) (op : GatewayOp β) (w : World) :
    machine.step op w (oracle refused op w).1 (oracle refused op w).2 := by
  cases op with
  | run command =>
    change machine.step _ w (answerRun refused command w).1 (answerRun refused command w).2
    unfold answerRun
    split
    · rename_i ns he
      split
      · exact .done (answers_run.mpr (by simp))
      · exact .done (answers_run.mpr (by simp [he]))
    · exact .done (answers_run.mpr (by simp))
  | getChild => exact .done ⟨rfl, rfl⟩
  | hang => exact .raised nofun
  | _ => exact .done rfl

end Runtime
end ShuttleGate
