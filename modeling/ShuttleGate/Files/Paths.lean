import ShuttleGate.Config
import ShuttleGate.Fs.Path

/-! # Instance paths -/

namespace ShuttleGate

open Fs

/-- The resolved paths of one local instance. -/
structure InstancePaths where
  root : Path
  config : Path
  state : Path
  secrets : Path
  data : Option Path := none
  deriving DecidableEq

namespace InstancePaths

/-- The active or an explicitly selected persistent generation. -/
def dataDir (paths : InstancePaths) : Path := paths.data.getD (paths.state / "current")

def serverDir (paths : InstancePaths) : Path := paths.dataDir / "server"

def peerDir (paths : InstancePaths) (name : String) : Path := paths.dataDir / "peers" / name

def withData (paths : InstancePaths) (data : Path) : InstancePaths := { paths with data := some data }

end InstancePaths

/-- The configured path without its leading `secrets/`. -/
def secretRelativePath (configured : PurePath) : Except String (List String) := do
  raiseIf configured.isAbsolute "SSH files must use instance-relative secrets/ paths"
  raiseIf (configured.parts.length < 2 ∨ configured.parts.head? ≠ some "secrets" ∨
      ".." ∈ configured.parts)
    "SSH files must be located below the instance secrets/ directory"
  return configured.parts.drop 1

/-- A configured secret in this execution environment. -/
def mountedSecretPath (paths : InstancePaths) (configured : PurePath) : Except String Path := do
  return Path.join paths.secrets (← secretRelativePath configured)

end ShuttleGate
