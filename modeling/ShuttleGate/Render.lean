import ShuttleGate.Config
import ShuttleGate.Errors

/-! # WireGuard and phone configurations -/

namespace ShuttleGate

open Net

/-- A host as it stands before a port: an IPv6 address in brackets. -/
def renderedHost (host : String) : String :=
  match IPAddress.ofText host with
  | none => host
  | some (.v6 ip scope) => s!"[{(IPAddress.v6 ip scope).text}]"
  | some address => address.text

/-- The WireGuard endpoint. -/
def endpoint (config : ProjectConfig) : String :=
  s!"{renderedHost config.wireguard.endpointHost}:{config.wireguard.listenPort}"

/-- The phone's AllowedIPs. -/
def peerAllowedRoutes (config : ProjectConfig) : List String := config.effectiveRoutes.map (·.text)

/-- The lines of one peer in the server configuration. -/
def serverPeerLines (peer : PeerConfig) (publicKey presharedKey : String) : List String :=
  ["", "[Peer]", s!"# {peer.name}", s!"PublicKey = {publicKey}", s!"PresharedKey = {presharedKey}",
    "AllowedIPs = " ++ ", ".intercalate (peer.addresses.map (·.text))]

/-- The configuration `wg setconf` reads. A peer without keys raises `KeyError`. -/
def renderServerConfig (config : ProjectConfig) (serverPrivateKey : String)
    (peerKeys : List (String × String × String)) : Except Exn String := do
  let peers ← config.wireguard.peers.mapM fun peer =>
    match peerKeys.lookup peer.name with
    | none => .error (.error "KeyError")
    | some (publicKey, presharedKey) => .ok (serverPeerLines peer publicKey presharedKey)
  return "\n".intercalate (["[Interface]", s!"PrivateKey = {serverPrivateKey}",
    s!"ListenPort = {config.wireguard.listenPort}"] ++ peers.flatten) ++ "\n"

/-- The lines of a phone configuration. -/
def phoneLines (config : ProjectConfig) (peer : PeerConfig)
    (serverPublicKey peerPrivateKey presharedKey : String) : List String :=
  ["[Interface]", s!"PrivateKey = {peerPrivateKey}",
    "Address = " ++ ", ".intercalate (peer.addresses.map (·.text))] ++
  (match config.dns.enabled, config.dns.upstream with
    | true, some upstream => [s!"DNS = {upstream.text}"]
    | _, _ => []) ++
  ["", "[Peer]", s!"PublicKey = {serverPublicKey}", s!"PresharedKey = {presharedKey}",
    s!"Endpoint = {endpoint config}",
    "AllowedIPs = " ++ ", ".intercalate (peerAllowedRoutes config),
    s!"PersistentKeepalive = {peer.persistentKeepaliveSeconds}"]

def renderPhoneConfig (config : ProjectConfig) (peer : PeerConfig)
    (serverPublicKey peerPrivateKey presharedKey : String) : String :=
  "\n".intercalate (phoneLines config peer serverPublicKey peerPrivateKey presharedKey) ++ "\n"

end ShuttleGate
