import ShuttleGate.Files.Paths
import ShuttleGate.Render
import ShuttleGate.NftTproxy

/-! # The commands and the packet filter of the gateway -/

namespace ShuttleGate

open Net Fs Nft NftTproxy

namespace Runtime

def interface : String := proxyIngressInterface
def tproxyMark : String := "0x1"
def nftTable : String := "shuttle_gate"

/-- `shlex.quote` -/
def shlexQuote (s : String) : String :=
  if s = "" then "''"
  else if s.toList.all fun c => isAlnum c || "_@%+=:,./-".toList.contains c then s
  else "'" ++ String.join (s.toList.map fun c => if c = '\'' then "'\"'\"'" else c.toString) ++ "'"

/-- `shlex.join` -/
def shlexJoin (words : List String) : String := " ".intercalate (words.map shlexQuote)

/-- The strict SSH command line. -/
def sshArguments (config : ProjectConfig) (paths : InstancePaths) : Except String (List String) := do
  let identity ← mountedSecretPath paths config.ssh.identityFile
  let knownHosts ← mountedSecretPath paths config.ssh.knownHostsFile
  return ["ssh", "-F", "/dev/null", "-p", toString config.ssh.port, "-i", identity.text,
    "-o", "BatchMode=yes",
    "-o", "PasswordAuthentication=no",
    "-o", "KbdInteractiveAuthentication=no",
    "-o", "IdentitiesOnly=yes",
    "-o", "StrictHostKeyChecking=yes",
    "-o", s!"UserKnownHostsFile={knownHosts.text}",
    "-o", s!"ConnectTimeout={config.ssh.connectTimeoutSeconds}",
    "-o", s!"ServerAliveInterval={config.ssh.serverAliveIntervalSeconds}",
    "-o", s!"ServerAliveCountMax={config.ssh.serverAliveCountMax}",
    "-o", "LogLevel=ERROR"]

def sshTarget (config : ProjectConfig) : String := s!"{config.ssh.user}@{config.ssh.host}"

/-- sshuttle's remote syntax, with brackets around an IPv6 address. -/
def sshuttleTarget (config : ProjectConfig) : String :=
  s!"{config.ssh.user}@{renderedHost config.ssh.host}:{config.ssh.port}"

def remotePythonCheckCode : String :=
  "import sys;raise SystemExit(0 if sys.version_info>=(3,9) else 3)"
def remotePythonCheckScript : String := "exec \"$1\" -B -c \"$2\""

/-- The command that checks authentication and the remote interpreter. -/
def remotePythonCheckArguments (config : ProjectConfig) (paths : InstancePaths) :
    Except String (List String) := do
  let ssh ← sshArguments config paths
  return ssh ++ ["--", sshTarget config, shlexJoin ["sh", "-c", remotePythonCheckScript,
    "shuttle-gate-python-check", config.ssh.remotePython, remotePythonCheckCode]]

/-- 224.0.0.0/4, 255.255.255.255/32 and ff00::/8 -/
def multicastExclusions : List IPNetwork :=
  [ipNetwork (.v4 (0xe0000000 : BitVec 32)) 4 (by decide),
    ipNetwork (.v4 (0xffffffff : BitVec 32)) 32 (by decide),
    ipNetwork (.v6 (0xff000000000000000000000000000000 : BitVec 128) none) 8 (by decide)]

example : multicastExclusions.map (·.text) = ["224.0.0.0/4", "255.255.255.255/32", "ff00::/8"] := by
  decide +kernel

/-- The networks sshuttle is told to leave alone. -/
def excludedNetworks (config : ProjectConfig) : List IPNetwork :=
  (multicastExclusions.filter fun network => network.version ∈ config.gatewayFamilies) ++
    config.wireguard.gatewayAddresses.map (·.network)

/-- The sshuttle command line. -/
def sshuttleArguments (executable : String) (config : ProjectConfig) (paths : InstancePaths) :
    Except String (List String) := do
  let families := config.gatewayFamilies
  let listeners := (if .v4 ∈ families then ["0.0.0.0:0"] else []) ++
    (if .v6 ∈ families then ["[::]:0"] else [])
  let ssh ← sshArguments config paths
  return [executable, "-m", "shuttle_gate.sshuttle_entry", "--method", "tproxy",
      "--tmark", tproxyMark, "--listen", ",".intercalate listeners,
      "--remote", sshuttleTarget config, "--python", config.ssh.remotePython,
      "--ssh-cmd", shlexJoin ssh] ++
    (if config.backend.verbose then ["--verbose"] else []) ++
    (excludedNetworks config).flatMap (fun network => ["--exclude", network.text]) ++
    config.effectiveRoutes.map (·.text)

/-- The input and forward chains: no direct access from peers and no uncaptured forwarding. -/
def nftFilter : Table where
  family := .inet
  name := nftTable
  chains := [
    { name := "input", hook := "input priority filter", policy := .accept
      rules := [[.iifname true interface, .markNe tproxyMark, .counter, .verdict .drop,
        .comment "direct WireGuard access to namespace"]] },
    { name := "forward", hook := "forward priority filter", policy := .drop
      rules := [[.iifname true interface, .counter, .verdict .drop,
          .comment "uncaptured WireGuard traffic"],
        [.counter, .verdict .drop]] }]

end Runtime
end ShuttleGate
