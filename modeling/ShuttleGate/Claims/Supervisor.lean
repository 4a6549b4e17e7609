import ShuttleGate.Errors
import ShuttleGate.Effect.Prog
import ShuttleGate.Fs.PurePath
import ShuttleGate.Crypto.Sha256
import Mathlib.Data.List.Dedup
import Mathlib.Data.String.Basic
import Mathlib.Logic.Function.Basic

/-! # The claim supervisor

`parse_arguments` and `run_claimed`: a supervisor takes a lock on each of its claim files in
order, without waiting, and holds them while its command runs. The machine gives `flock` its
meaning: a lock belongs to an open file, is exclusive, and goes with the last descriptor. -/

namespace ShuttleGate

open Fs Effect

namespace Claims

/-! ## Arguments -/

def claimConflictExit : Int := 73

/-- `^[0-9a-f]{64}\.lock$` -/
def claimPattern (name : String) : Bool :=
  name.toList.length = 69 && (name.toList.take 64).all (fun c => decide (Crypto.Sha256.IsHex c)) &&
    name.toList.drop 64 = ".lock".toList

/-- The leading `--claim PATH` pairs and what follows them. -/
def takeClaims : List String → Except Exn (List PurePath × List String)
  | "--claim" :: path :: values => do
    let (claims, rest) ← takeClaims values
    return (.ofText path :: claims, rest)
  | ["--claim"] => .error (.claim "--claim requires a path")
  | values => .ok ([], values)

/-- `sorted(set(claims), key=str)` -/
def sortedSet (claims : List PurePath) : List PurePath :=
  claims.dedup.mergeSort fun a b => decide (a.text ≤ b.text)

def parseArguments (arguments : List String) : Except Exn (List PurePath × List String) := do
  let (claims, values) ← takeClaims arguments
  match claims, values with
  | first :: _, "--" :: executable :: rest =>
    raiseIf (claims ≠ sortedSet claims) (Exn.claim "claim paths must be unique and sorted")
    raiseIf (claims.any fun claim =>
        !claim.isAbsolute || claim.parent ≠ first.parent || !claimPattern claim.name)
      (Exn.claim "claim paths have an invalid structure")
    raiseIf (!(PurePath.ofText executable).isAbsolute)
      (Exn.claim "runtime command must use an absolute executable path")
    return (claims, executable :: rest)
  | _, _ => throw (.claim "expected one or more claims followed by -- COMMAND")

/-! ## Operations -/

/-- What `fstat` tells about a claim file. -/
structure FileInfo where
  isRegular : Bool
  /-- The owner is the user of the process. -/
  owned : Bool
  mode : Nat
  deriving DecidableEq

def FileInfo.valid (info : FileInfo) : Bool := info.isRegular && info.owned && info.mode = 0o600

inductive ClaimOp : Type → Type
  | openFile (claim : PurePath) : ClaimOp Nat
  | fstat (descriptor : Nat) : ClaimOp FileInfo
  /-- `fcntl.flock(descriptor, LOCK_EX | LOCK_NB)` -/
  | flock (descriptor : Nat) : ClaimOp Unit
  /-- `print(.., file=sys.stderr)` -/
  | report (message : String) : ClaimOp Unit
  /-- The start of `subprocess.run`. -/
  | launch (command : List String) : ClaimOp Unit
  /-- The end of `subprocess.run`. -/
  | awaitExit : ClaimOp Int
  | close (descriptor : Nat) : ClaimOp Unit

def ClaimOp.isClose : ClaimOp β → Bool
  | close _ => true
  | _ => false

abbrev ClaimM := Prog ClaimOp Exn

/-- The attempt to lock; `false` where another holds the claim. -/
def tryFlock (descriptor : Nat) : ClaimM Bool :=
  Prog.andThen (Prog.perform (.flock descriptor)) fun
    | .ok _ => return true
    | .error e =>
      if e.isBlocking then do
        Prog.perform (.report "shuttle-gate claim error: host UDP socket is already in use")
        return false
      else throw e

/-- Check one open claim file and lock it. -/
def lockDescriptor (descriptor : Nat) : ClaimM Bool := do
  let info ← Prog.perform (.fstat descriptor)
  if info.valid then tryFlock descriptor
  else throw (.claim "claim file ownership, type, or permissions are invalid")

/-- The loop over the claims: the descriptors opened, the newest first, and whether all are
locked. -/
def acquire : List PurePath → List Nat → ClaimM (List Nat × Except Exn Bool)
  | [], descriptors => return (descriptors, .ok true)
  | claim :: rest, descriptors =>
    Prog.andThen (Prog.perform (.openFile claim)) fun
      | .error e => return (descriptors, .error e)
      | .ok descriptor =>
        Prog.andThen (lockDescriptor descriptor) fun
          | .error e => return (descriptor :: descriptors, .error e)
          | .ok false => return (descriptor :: descriptors, .ok false)
          | .ok true => acquire rest (descriptor :: descriptors)

def runCommand (command : List String) : ClaimM Int :=
  tryCatch (do
      Prog.perform (.launch command)
      Prog.perform .awaitExit)
    fun e =>
      if e.isOSError then throw (.claim s!"cannot execute runtime command: {e.message}") else throw e

def closeAll (descriptors : List Nat) : ClaimM Unit :=
  Prog.forEach descriptors fun descriptor =>
    tryCatch (Prog.perform (.close descriptor)) fun e => if e.isOSError then pure () else throw e

def runClaimed (claims : List PurePath) (command : List String) : ClaimM Int := do
  let (descriptors, locked) ← acquire claims []
  Prog.finally'
    (match locked with
      | .error e => throw e
      | .ok false => return claimConflictExit
      | .ok true => runCommand command)
    (closeAll descriptors)

/-! ## The machine -/

/-- The open claim files and locks of the supervisors `ι`. -/
structure World (ι : Type) where
  files : ι → Nat → Option PurePath
  /-- The supervisor and the descriptor whose open file has the lock. -/
  holder : PurePath → Option (ι × Nat)
  running : ι → Prop
  /-- Every refused attempt: the supervisor, the claim, and who held it. -/
  refusals : List (ι × PurePath × ι)
  /-- The supervisors whose command has ended or that met another failure than a held claim. -/
  disturbed : ι → Prop

variable {ι : Type} [DecidableEq ι]

def World.initial : World ι := ⟨fun _ _ => none, fun _ => none, fun _ => False, [], fun _ => False⟩

namespace World

def disturb (w : World ι) (i : ι) : World ι :=
  { w with disturbed := Function.update w.disturbed i True }

def opened (w : World ι) (i : ι) (descriptor : Nat) (claim : PurePath) : World ι :=
  { w with files := Function.update w.files i (Function.update (w.files i) descriptor (some claim)) }

def locked (w : World ι) (i : ι) (descriptor : Nat) (claim : PurePath) : World ι :=
  { w with holder := Function.update w.holder claim (some (i, descriptor)) }

def refuse (w : World ι) (i : ι) (claim : PurePath) (j : ι) : World ι :=
  { w with refusals := (i, claim, j) :: w.refusals }

def launched (w : World ι) (i : ι) : World ι :=
  { w with running := Function.update w.running i True }

def exited (w : World ι) (i : ι) : World ι :=
  { w with running := Function.update w.running i False }

def closed (w : World ι) (i : ι) (descriptor : Nat) : World ι :=
  { w with
    files := Function.update w.files i (Function.update (w.files i) descriptor none)
    holder := fun c => if w.holder c = some (i, descriptor) then none else w.holder c }

end World

/-- What an operation of supervisor `i` may answer and do. -/
def Answers (i : ι) : {β : Type} → ClaimOp β → World ι → Except Exn β → World ι → Prop
  | _, .openFile claim, w, .ok descriptor, w' =>
    w.files i descriptor = none ∧ w' = w.opened i descriptor claim
  | _, .openFile _, w, .error _, w' => w' = w.disturb i
  | _, .fstat _, w, .ok info, w' => w' = if info.valid then w else w.disturb i
  | _, .fstat _, w, .error _, w' => w' = w.disturb i
  | _, .flock descriptor, w, .ok _, w' => ∃ claim, w.files i descriptor = some claim ∧
    (w.holder claim = none ∨ w.holder claim = some (i, descriptor)) ∧
    w' = w.locked i descriptor claim
  | _, .flock descriptor, w, .error e, w' =>
    if e.isBlocking then ∃ claim j d, w.files i descriptor = some claim ∧
      w.holder claim = some (j, d) ∧ (j, d) ≠ (i, descriptor) ∧ w' = w.refuse i claim j
    else w' = w.disturb i
  | _, .report _, w, .ok _, w' => w' = w
  | _, .report _, w, .error _, w' => w' = w.disturb i
  | _, .launch _, w, .ok _, w' => w' = w.launched i
  | _, .launch _, w, .error _, w' => w' = w.disturb i
  -- an exception out of `subprocess.run` has killed the command
  | _, .awaitExit, w, _, w' => w' = (w.exited i).disturb i
  | _, .close descriptor, w, _, w' => w' = w.closed i descriptor

def machine (i : ι) : Machine ClaimOp Exn (World ι) := ⟨Answers i⟩

end Claims
end ShuttleGate
