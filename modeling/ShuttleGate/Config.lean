import ShuttleGate.Errors
import ShuttleGate.Net.Text
import ShuttleGate.Fs.PurePath
import Mathlib.Data.List.Nodup

/-! # The instance configuration

`config.yaml` after the YAML parser: the typed records with the checks their validators make, in
the order they make them. `CheckedConfig` is a configuration that passed every check, the only
kind `load_config` returns. -/

namespace ShuttleGate

open Net Fs

/-- The part of the Unicode database the program consults. -/
class UnicodeDb where
  /-- `str.isprintable` of one character. -/
  isPrintable : Char → Bool
  ascii : ∀ c, c.toNat < 128 → isPrintable c = decide (0x20 ≤ c.toNat ∧ c.toNat ≤ 0x7e)

/-! ## Checks -/

def isLower (c : Char) : Bool := 'a' ≤ c && c ≤ 'z'
def isAlpha (c : Char) : Bool := isLower c || ('A' ≤ c && c ≤ 'Z')
def isAlnum (c : Char) : Bool := isAlpha c || c.isDigit

/-- A first character of one class and at most `n` more of another. -/
def headTail (first rest : Char → Bool) (n : Nat) (s : String) : Bool :=
  match s.toList with
  | [] => false
  | c :: cs => first c && cs.all rest && cs.length ≤ n

/-- Between `lo` and `hi` characters of one class. -/
def allOf (p : Char → Bool) (lo hi : Nat) (s : String) : Bool :=
  s.toList.all p && lo ≤ s.length && s.length ≤ hi

def projectPattern : String → Bool := headTail isLower (fun c => isLower c || c.isDigit || c == '-') 62
def peerPattern : String → Bool := headTail isLower (fun c => isLower c || c.isDigit || c == '-') 62
def userPattern : String → Bool :=
  headTail (fun c => isAlpha c || c == '_') (fun c => isAlnum c || "_.-".toList.contains c) 63
def pythonNamePattern : String → Bool :=
  headTail (fun c => isAlnum c || c == '_') (fun c => isAlnum c || "_.+-".toList.contains c) 254
def pythonPathPattern (s : String) : Bool :=
  headTail (· == '/') (fun c => isAlnum c || "_./+-".toList.contains c) 254 s && 2 ≤ s.length
def hostLabelPattern (s : String) : Bool :=
  allOf (fun c => isAlnum c || c == '-') 1 63 s &&
    s.toList.head?.any isAlnum && s.toList.getLast?.any isAlnum
def interfacePattern : String → Bool := allOf (fun c => isAlnum c || "_.-".toList.contains c) 1 15

/-- `str.isspace` of one character. -/
def isSpace (c : Char) : Bool :=
  [0x9, 0xa, 0xb, 0xc, 0xd, 0x1c, 0x1d, 0x1e, 0x1f, 0x20, 0x85, 0xa0, 0x1680, 0x2028, 0x2029,
    0x202f, 0x205f, 0x3000].contains c.toNat || (0x2000 ≤ c.toNat && c.toNat ≤ 0x200a)

/-- `str.strip`. -/
def strip (s : String) : String :=
  .ofList ((s.toList.dropWhile isSpace).reverse.dropWhile isSpace).reverse

/-- `str.rstrip(".")`. -/
def rstripDots (s : String) : String :=
  .ofList (s.toList.reverse.dropWhile (· == '.')).reverse

/-! ## Peers and the tunnel interface -/

structure PeerConfig where
  name : String
  addresses : List IPInterface
  persistentKeepaliveSeconds : Int := 25
  deriving DecidableEq

namespace PeerConfig

def checkAddresses (families : List Version) : List IPInterface → Except String Unit
  | [] => .ok ()
  | interface :: rest => do
    raiseIf (interface.version ∈ families) "a peer may have at most one address per IP family"
    let required := interface.version.width
    raiseIf (interface.network.prefixlen ≠ required)
      s!"peer address {interface.text} must use /{required}"
    checkAddresses (interface.version :: families) rest

def check (peer : PeerConfig) : Except String Unit := do
  raiseIf (¬ peerPattern peer.name) "must match [a-z][a-z0-9-]\x7b0,62\x7d"
  raiseIf (¬ (0 ≤ peer.persistentKeepaliveSeconds ∧ peer.persistentKeepaliveSeconds ≤ 65535))
    "persistent_keepalive_seconds is out of range"
  raiseIf (peer.addresses = []) "addresses must contain at least one IPv4 or IPv6 address"
  checkAddresses [] peer.addresses

end PeerConfig

structure WireGuardConfig where
  bindAddresses : List IPAddress
  endpointHost : String
  listenPort : Int := 51820
  gatewayAddresses : List IPInterface
  mtu : Int := 1420
  peers : List PeerConfig
  deriving DecidableEq

namespace WireGuardConfig

def IsPort (n : Int) : Prop := 1 ≤ n ∧ n ≤ 65535

instance : Decidable (IsPort n) := inferInstanceAs (Decidable (_ ∧ _))

/-- The zone rules both address validators share. -/
def checkScope (address : IPAddress) (missing misplaced unsafeName : String) : Except String Unit :=
  match address with
  | .v4 _ => .ok ()
  | .v6 _ scope => do
    raiseIf (address.isLinkLocal ∧ scope = none) missing
    match scope with
    | none => .ok ()
    | some scope => do
      raiseIf (¬ address.isLinkLocal) misplaced
      raiseIf (¬ interfacePattern scope.text) unsafeName

def checkBindScopes : List IPAddress → Except String Unit
  | [] => .ok ()
  | address :: rest => do
    checkScope address "IPv6 link-local bind addresses require a %INTERFACE scope"
      "an interface scope is valid only for IPv6 link-local binds"
      "IPv6 bind scope must be a safe Linux interface name"
    checkBindScopes rest

def checkEndpointHost (value : String) : Except String Unit := do
  let host := strip value
  raiseIf (host = "" ∨ host ≠ value ∨ host.length > 253)
    "must be a non-empty host without surrounding whitespace"
  match IPAddress.ofText host with
  | none =>
    let labels := ((rstripDots host).toList.splitOn '.').map String.ofList
    raiseIf (¬ labels.all hostLabelPattern) "must be an IPv4/IPv6 address or valid DNS hostname"
  | some address => do
    raiseIf (address.isUnspecified ∨ address.isMulticast) "must be an explicit unicast address"
    checkScope address "IPv6 link-local addresses require a %INTERFACE scope"
      "an interface scope is valid only for IPv6 link-local addresses"
      "IPv6 scope must be a safe interface name"

/-- One gateway address per family, each a host address of its network. -/
def checkGateways (seen : List Version) : List IPInterface → Except String Unit
  | [] => .ok ()
  | interface :: rest => do
    raiseIf (interface.version ∈ seen) "gateway_addresses may contain at most one address per family"
    raiseIf (interface.ip = interface.network.networkAddress)
      s!"gateway address {interface.text} is the network address"
    raiseIf (interface.ip.isUnspecified ∨ interface.ip.isMulticast)
      s!"gateway address {interface.text} must be unicast"
    raiseIf (interface.version = .v4 ∧ interface.ip = interface.network.broadcastAddress)
      s!"gateway address {interface.text} is the broadcast address"
    checkGateways (interface.version :: seen) rest

/-- The addresses of one peer, `seen` being those of the peers before it. -/
def checkPeerAddresses (gateways : List IPInterface) (peer : String) (seen : List IPAddress) :
    List IPInterface → Except String (List IPAddress)
  | [] => .ok seen
  | interface :: rest => do
    raiseIf (interface.ip.isUnspecified ∨ interface.ip.isMulticast)
      s!"peer {peer} address must be unicast"
    match gateways.find? (·.version = interface.version) with
    | none =>
      .error s!"peer {peer} has IPv{interface.version.number} without a gateway address"
    | some gateway => do
      raiseIf (¬ gateway.network.contains interface.ip)
        s!"peer address {interface.ip.text} is outside gateway network {gateway.network.text}"
      raiseIf (interface.ip ∈ gateways.map (·.ip)) s!"peer {peer} reuses a gateway address"
      raiseIf (interface.ip ∈ seen) s!"duplicate peer address: {interface.ip.text}"
      checkPeerAddresses gateways peer (interface.ip :: seen) rest

def checkPeers (gateways : List IPInterface) (names : List String) (seen : List IPAddress) :
    List PeerConfig → Except String Unit
  | [] => .ok ()
  | peer :: rest => do
    raiseIf (peer.name ∈ names) s!"duplicate peer name: {peer.name}"
    let seen ← checkPeerAddresses gateways peer.name seen peer.addresses
    checkPeers gateways (peer.name :: names) seen rest

/-- The checks over several fields. -/
def checkNetwork (wg : WireGuardConfig) : Except String Unit := do
  raiseIf (wg.bindAddresses = []) "bind_addresses must not be empty"
  raiseIf (¬ wg.bindAddresses.Nodup) "bind_addresses must be unique"
  raiseIf (∃ a ∈ wg.bindAddresses, a.isUnspecified ∨ a.isMulticast)
    "bind addresses must be explicit unicast addresses"
  raiseIf (wg.gatewayAddresses = []) "gateway_addresses must not be empty"
  raiseIf (wg.peers = []) "peers must not be empty"
  checkGateways [] wg.gatewayAddresses
  checkPeers wg.gatewayAddresses [] [] wg.peers

def check (wg : WireGuardConfig) : Except String Unit := do
  checkBindScopes wg.bindAddresses
  checkEndpointHost wg.endpointHost
  raiseIf (¬ IsPort wg.listenPort) "listen_port is out of range"
  raiseIf (¬ (1280 ≤ wg.mtu ∧ wg.mtu ≤ 9000)) "mtu is out of range"
  wg.peers.forM PeerConfig.check
  checkNetwork wg

end WireGuardConfig

/-! ## SSH -/

structure SSHConfig where
  host : String
  user : String
  port : Int := 22
  identityFile : PurePath
  knownHostsFile : PurePath
  remotePython : String := "python3"
  connectTimeoutSeconds : Int := 10
  serverAliveIntervalSeconds : Int := 15
  serverAliveCountMax : Int := 3
  deriving DecidableEq

namespace SSHConfig

def checkRemotePython (value : String) : Except String Unit :=
  let pathParts := ((value.toList.splitOn '/').map String.ofList).drop 1
  let safeAbsolutePath := pythonPathPattern value && pathParts ≠ [] &&
    pathParts.all fun part => part ≠ "" && part ≠ "." && part ≠ ".."
  raiseIf (¬ pythonNamePattern value ∧ ¬ safeAbsolutePath)
    "must be a safe executable name or absolute path without arguments"

def checkSecretPath [UnicodeDb] (value : PurePath) : Except String Unit := do
  raiseIf (¬ value.text.toList.all UnicodeDb.isPrintable)
    "must contain only printable path characters"
  raiseIf (value.isAbsolute ∨ ".." ∈ value.parts)
    "must be an instance-relative path below secrets/"
  raiseIf (value.parts.length < 2 ∨ value.parts.head? ≠ some "secrets")
    "must be located below the instance secrets/ directory"

def check [UnicodeDb] (ssh : SSHConfig) : Except String Unit := do
  WireGuardConfig.checkEndpointHost ssh.host
  raiseIf (¬ userPattern ssh.user) "contains unsupported characters"
  raiseIf (¬ WireGuardConfig.IsPort ssh.port) "port is out of range"
  checkSecretPath ssh.identityFile
  checkSecretPath ssh.knownHostsFile
  checkRemotePython ssh.remotePython
  raiseIf (¬ (1 ≤ ssh.connectTimeoutSeconds ∧ ssh.connectTimeoutSeconds ≤ 300))
    "connect_timeout_seconds is out of range"
  raiseIf (¬ (1 ≤ ssh.serverAliveIntervalSeconds ∧ ssh.serverAliveIntervalSeconds ≤ 300))
    "server_alive_interval_seconds is out of range"
  raiseIf (¬ (1 ≤ ssh.serverAliveCountMax ∧ ssh.serverAliveCountMax ≤ 20))
    "server_alive_count_max is out of range"

end SSHConfig

/-! ## Routing, DNS, backend -/

inductive RoutingMode
  | selected
  | full
  deriving DecidableEq, Repr

structure RoutingConfig where
  mode : RoutingMode := .selected
  networks : List IPNetwork := []
  deriving DecidableEq

def RoutingConfig.check (routing : RoutingConfig) : Except String Unit := do
  raiseIf (routing.mode = .selected ∧ routing.networks = [])
    "selected routing requires at least one network"
  raiseIf (routing.mode = .full ∧ routing.networks ≠ [])
    "full routing derives default routes; networks must be omitted"
  raiseIf (¬ routing.networks.Nodup) "routing networks must be unique"
  raiseIf (routing.mode = .selected ∧ ∃ route ∈ routing.networks,
      route.networkAddress.isMulticast ∧ route.broadcastAddress.isMulticast)
    "selected routing networks must not be entirely multicast"

structure DNSConfig where
  enabled : Bool := false
  upstream : Option IPAddress := none
  deriving DecidableEq

def DNSConfig.check (dns : DNSConfig) : Except String Unit := do
  raiseIf (dns.enabled ∧ dns.upstream = none) "enabled DNS requires one explicit upstream"
  raiseIf (¬ dns.enabled ∧ dns.upstream ≠ none) "disabled DNS must not define an upstream"
  match dns.upstream with
  | none => .ok ()
  | some upstream =>
    raiseIf (upstream.isUnspecified ∨ upstream.isMulticast)
      "DNS upstream must be an explicit unicast address"

structure BackendConfig where
  mode : String := "sshuttle"
  method : String := "nft-tproxy"
  startupTimeoutSeconds : Int := 45
  verbose : Bool := false
  deriving DecidableEq

def BackendConfig.check (backend : BackendConfig) : Except String Unit := do
  raiseIf (¬ (5 ≤ backend.startupTimeoutSeconds ∧ backend.startupTimeoutSeconds ≤ 300))
    "startup_timeout_seconds is out of range"
  raiseIf (backend.mode ≠ "sshuttle" ∨ backend.method ≠ "nft-tproxy")
    "only sshuttle with the native nft-tproxy method is supported"

/-! ## The whole configuration -/

structure ProjectConfig where
  version : Int
  project : String
  wireguard : WireGuardConfig
  ssh : SSHConfig
  routing : RoutingConfig
  dns : DNSConfig := {}
  backend : BackendConfig := {}
  deriving DecidableEq

namespace ProjectConfig

/-- `0.0.0.0/0` or `::/0`. -/
def defaultRoute (v : Version) : IPNetwork :=
  ⟨.ofValue v 0, 0, Nat.zero_le _, by cases v <;> rfl⟩

/-- The families of the gateway addresses. -/
def gatewayFamilies (config : ProjectConfig) : List Version :=
  config.wireguard.gatewayAddresses.map (·.version)

/-- The explicit networks passed to peers and sshuttle. -/
def effectiveRoutes (config : ProjectConfig) : List IPNetwork :=
  match config.routing.mode with
  | .selected => config.routing.networks
  | .full =>
    (if .v4 ∈ config.gatewayFamilies then [defaultRoute .v4] else []) ++
      (if .v6 ∈ config.gatewayFamilies then [defaultRoute .v6] else [])

/-- The route families without a gateway address, ascending. -/
def unsupportedRouteFamilies (config : ProjectConfig) : List Version :=
  [.v4, .v6].filter fun v =>
    decide (v ∉ config.gatewayFamilies) && config.effectiveRoutes.any (·.version = v)

def checkUpstream (config : ProjectConfig) (upstream : IPAddress) : Except String Unit := do
  raiseIf (∃ gateway ∈ config.wireguard.gatewayAddresses,
      upstream.version = gateway.version ∧ gateway.network.contains upstream)
    "DNS upstream must be outside WireGuard gateway networks"
  raiseIf (¬ ∃ route ∈ config.effectiveRoutes,
      route.version = upstream.version ∧ route.contains upstream)
    "DNS upstream is not covered by configured routing"
  let incompatible := config.wireguard.peers.filter fun peer =>
    peer.addresses.all (·.version ≠ upstream.version)
  raiseIf (incompatible ≠ [])
    (s!"DNS upstream is IPv{upstream.version.number}, but peers lack " ++
      s!"IPv{upstream.version.number}: " ++ ", ".intercalate (incompatible.map (·.name)))

def checkCrossFields (config : ProjectConfig) : Except String Unit := do
  let unsupported := config.unsupportedRouteFamilies
  raiseIf (unsupported ≠ [])
    ("routing uses " ++ ", ".intercalate (unsupported.map fun v => s!"IPv{v.number}") ++
      " without a WireGuard gateway address")
  match config.dns.enabled, config.dns.upstream with
  | true, some upstream => config.checkUpstream upstream
  | _, _ => .ok ()

/-- Everything `ProjectConfig.model_validate` checks of the typed values. -/
def check [UnicodeDb] (config : ProjectConfig) : Except String Unit := do
  raiseIf (config.version ≠ 1) "unsupported configuration version; expected 1"
  raiseIf (¬ projectPattern config.project) "must match [a-z][a-z0-9-]\x7b0,62\x7d"
  config.wireguard.check
  config.ssh.check
  config.routing.check
  config.dns.check
  config.backend.check
  config.checkCrossFields

end ProjectConfig

/-- An accepted configuration. -/
structure CheckedConfig [UnicodeDb] extends ProjectConfig where
  accepted : toProjectConfig.check = .ok ()

/-! ## The example configuration -/

/-- A database that knows only the printable ASCII characters. -/
@[reducible] def asciiDb : UnicodeDb where
  isPrintable c := decide (0x20 ≤ c.toNat ∧ c.toNat ≤ 0x7e)
  ascii _ _ := rfl

/-- `config.example.yaml` -/
def exampleProject : ProjectConfig where
  version := 1
  project := "shuttle-gate"
  wireguard := {
    bindAddresses := [.v4 (0xc0a8012a : BitVec 32),
      .v6 (0x20010db8001000000000000000000042 : BitVec 128) none]
    endpointHost := "gate.example.com"
    gatewayAddresses := [⟨.v4 (0x0a4d0001 : BitVec 32), 24, by decide⟩,
      ⟨.v6 (0xfd770000000000000000000000000001 : BitVec 128) none, 64, by decide⟩]
    peers := [
      { name := "phone"
        addresses := [⟨.v4 (0x0a4d0002 : BitVec 32), 32, by decide⟩,
          ⟨.v6 (0xfd770000000000000000000000000002 : BitVec 128) none, 128, by decide⟩] },
      { name := "tablet"
        addresses := [⟨.v4 (0x0a4d0003 : BitVec 32), 32, by decide⟩,
          ⟨.v6 (0xfd770000000000000000000000000003 : BitVec 128) none, 128, by decide⟩] }] }
  ssh := {
    host := "ssh-server.example.com"
    user := "myuser"
    identityFile := ⟨"", ["secrets", "id_ed25519"], by decide⟩
    knownHostsFile := ⟨"", ["secrets", "known_hosts"], by decide⟩ }
  routing := {
    networks := [ipNetwork (.v4 (0x0a000000 : BitVec 32)) 8 (by decide),
      ipNetwork (.v6 (0xfd201234000000000000000000000000 : BitVec 128) none) 48 (by decide)] }
  dns := {
    enabled := true
    upstream := some (.v6 (0xfd201234000000000000000000000053 : BitVec 128) none) }

def exampleConfig : @CheckedConfig asciiDb :=
  @CheckedConfig.mk asciiDb exampleProject (by decide +kernel)

/-! ## What acceptance gives -/

namespace CheckedConfig

theorem versions_of_checkGateways {gateways : List IPInterface}
    (h : WireGuardConfig.checkGateways seen gateways = .ok ()) :
    (gateways.map (·.version)).Nodup ∧ ∀ g ∈ gateways, g.version ∉ seen := by
  induction gateways generalizing seen with
  | nil => simp
  | cons g rest ih =>
    simp only [WireGuardConfig.checkGateways, seq_eq_ok, raiseIf_eq_ok] at h
    obtain ⟨hg, -, -, -, h⟩ := h
    obtain ⟨hnd, hseen⟩ := ih h
    refine ⟨List.nodup_cons.mpr ⟨?_, hnd⟩, List.forall_mem_cons.mpr ⟨hg, fun g' hg' hs => ?_⟩⟩
    · intro hmem
      obtain ⟨g', hg', hv⟩ := List.mem_map.mp hmem
      exact hseen g' hg' (hv ▸ List.mem_cons_self)
    · exact hseen g' hg' (List.mem_cons_of_mem _ hs)

variable [UnicodeDb] (config : CheckedConfig)

theorem checks : config.wireguard.check = .ok () ∧ config.ssh.check = .ok () ∧
    config.routing.check = .ok () ∧ config.toProjectConfig.checkCrossFields = .ok () := by
  have h := config.accepted
  simp only [ProjectConfig.check, seq_eq_ok] at h
  obtain ⟨-, -, hw, hs, hr, -, -, hc⟩ := h
  exact ⟨hw, hs, hr, hc⟩

theorem wireguard_network : config.wireguard.checkNetwork = .ok () := by
  have h := config.checks.1
  simp only [WireGuardConfig.check, seq_eq_ok] at h
  exact h.2.2.2.2.2

theorem gateways : WireGuardConfig.checkGateways [] config.wireguard.gatewayAddresses = .ok () := by
  have h := config.wireguard_network
  simp only [WireGuardConfig.checkNetwork, seq_eq_ok] at h
  exact h.2.2.2.2.2.1

/-- There is at most one gateway address per family. -/
theorem gateway_unique {g g' : IPInterface} (hg : g ∈ config.wireguard.gatewayAddresses)
    (hg' : g' ∈ config.wireguard.gatewayAddresses) (hv : g.version = g'.version) : g = g' :=
  List.inj_on_of_nodup_map (versions_of_checkGateways config.gateways).1 hg hg' hv

/-- Every route's family has a gateway address. -/
theorem route_version (h : route ∈ config.effectiveRoutes) :
    route.version ∈ config.gatewayFamilies := by
  have hc := config.checks.2.2.2
  simp only [ProjectConfig.checkCrossFields, seq_eq_ok, raiseIf_eq_ok, ne_eq, Decidable.not_not] at hc
  by_contra hv
  have hmem : route.version ∈ config.unsupportedRouteFamilies := by
    refine List.mem_filter.mpr ⟨by cases route.version <;> simp, ?_⟩
    simpa using ⟨hv, route, h, rfl⟩
  simp [hc.1] at hmem

/-- A route with a nonzero prefix is one of the configured networks. -/
theorem mem_networks (h : route ∈ config.effectiveRoutes) (hp : 0 < route.prefixlen) :
    config.routing.mode = .selected ∧ route ∈ config.routing.networks := by
  unfold ProjectConfig.effectiveRoutes at h
  split at h
  · next hm => exact ⟨hm, h⟩
  · rcases List.mem_append.mp h with h | h <;>
    · split at h
      · rw [List.mem_singleton.mp h] at hp
        exact absurd hp (Nat.lt_irrefl 0)
      · cases h

/-- No route lies inside the multicast range. -/
theorem not_multicast (h : route ∈ config.effectiveRoutes) (hp : 0 < route.prefixlen) :
    ¬ (route.networkAddress.isMulticast ∧ route.broadcastAddress.isMulticast) := by
  obtain ⟨hm, hr⟩ := config.mem_networks h hp
  have hc := config.checks.2.2.1
  simp only [RoutingConfig.check, seq_eq_ok, raiseIf_eq_ok] at hc
  exact fun hmc => hc.2.2.2 ⟨hm, route, hr, hmc⟩

end CheckedConfig

end ShuttleGate
