import ShuttleGate.State.Refusal
import ShuttleGate.Ssh.Confinement
import ShuttleGate.Host.InstanceRoot
import ShuttleGate.Claims.Exclusion
import ShuttleGate.NftTproxy.Precedence
import ShuttleGate.Keys.KeyText
import ShuttleGate.Render.Fingerprint
import ShuttleGate.Runtime.PacketFlow
import ShuttleGate.Runtime.Dns
import ShuttleGate.Runtime.FailClosed
import ShuttleGate.Runtime.Cleanup
import ShuttleGate.Runtime.Zones
import ShuttleGate.NftTproxy.Udp
import ShuttleGate.NftTproxy.Ports
import ShuttleGate.Claims.RoundTrip
import ShuttleGate.Runtime.KnownHosts
import ShuttleGate.Runtime.Secrets
import ShuttleGate.Host.Sandbox
import ShuttleGate.Ssh.Leftovers
import ShuttleGate.Keys.Scope
import ShuttleGate.Effect.Ledger
import ShuttleGate.Keys.Rotations
import ShuttleGate.Keys.Prune
import ShuttleGate.Keys.Listing
