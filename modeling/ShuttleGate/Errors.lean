import ShuttleGate.Fs.Tree

/-! # Errors -/

namespace ShuttleGate

open Fs

/-! ## Checks -/

/-- `if bad: raise e` -/
def raiseIf (bad : Prop) [Decidable bad] (e : ε) : Except ε Unit :=
  if bad then .error e else .ok ()

@[simp] theorem raiseIf_eq_ok {bad : Prop} [Decidable bad] {e : ε} {u : Unit} :
    raiseIf bad e = .ok u ↔ ¬ bad := by
  unfold raiseIf; split <;> simp_all

@[simp] theorem raiseIf_bind_eq_ok {bad : Prop} [Decidable bad] {e : ε} {a : α}
    {k : Unit → Except ε α} :
    (raiseIf bad e >>= k) = .ok a ↔ ¬ bad ∧ k () = .ok a := by
  unfold raiseIf; split <;> simp_all [bind, Except.bind]

theorem bind_eq_ok {x : Except ε α} {k : α → Except ε β} :
    (x >>= k) = .ok b ↔ ∃ a, x = .ok a ∧ k a = .ok b := by
  cases x <;> simp [bind, Except.bind]

/-- A check followed by more checks. -/
theorem seq_eq_ok {x : Except ε Unit} {k : Unit → Except ε β} :
    (x >>= k) = .ok b ↔ x = .ok () ∧ k () = .ok b := by
  cases x <;> simp [bind, Except.bind]

/-- `with_command_hint` under the default launcher. -/
def withCommandHint (message : String) (arguments : List String) : String :=
  message ++ "; run: " ++ " ".intercalate ("./shuttle-gate" :: arguments)

/-! ## Exceptions -/

/-- An exception with the text `str` gives. -/
inductive Exn
  /-- `ConfigurationError` -/
  | configuration (message : String)
  /-- `StateError` -/
  | state (message : String)
  /-- `CommandError` -/
  | command (message : String)
  /-- `RuntimeFailure` itself -/
  | runtime (message : String)
  /-- `TransientRuntimeFailure` -/
  | transient (message : String)
  /-- `HostError` of the host launcher -/
  | host (message : String)
  /-- `OSError` -/
  | os (errno : Errno) (message : String)
  /-- `TimeoutError`, an `OSError` -/
  | timeout
  /-- `ClaimError` of the claim wrapper, not a `ShuttleGateError` -/
  | claim (message : String)
  /-- `subprocess.TimeoutExpired` -/
  | expired
  /-- Any other `Exception`, by the name of its class. -/
  | error (name : String)
  /-- A `BaseException` that is no `Exception`, such as `KeyboardInterrupt`. -/
  | interrupt (name : String)
  deriving DecidableEq, Repr

namespace Exn

/-- `isinstance(exc, ShuttleGateError)` -/
def isShuttleGateError : Exn → Bool
  | configuration _ | state _ | command _ | runtime _ | transient _ | host _ => true
  | _ => false

/-- `isinstance(exc, RuntimeFailure)` -/
def isRuntimeFailure : Exn → Bool
  | runtime _ | transient _ => true
  | _ => false

/-- `isinstance(exc, TransientRuntimeFailure)` -/
def isTransient : Exn → Bool
  | transient _ => true
  | _ => false

/-- `isinstance(exc, OSError)` -/
def isOSError : Exn → Bool
  | os _ _ | timeout => true
  | _ => false

/-- `isinstance(exc, Exception)` -/
def isException : Exn → Bool
  | interrupt _ => false
  | _ => true

/-- `isinstance(exc, BlockingIOError)` -/
def isBlocking : Exn → Bool
  | os .eagain _ => true
  | _ => false

/-- `isinstance(exc, FileNotFoundError)` -/
def isFileNotFound : Exn → Bool
  | os .enoent _ => true
  | _ => false

/-- `isinstance(exc, FileExistsError)` -/
def isFileExists : Exn → Bool
  | os .eexist _ => true
  | _ => false

/-- `str(exc)` -/
def message : Exn → String
  | configuration m | state m | command m | runtime m | transient m | host m => m
  | os _ m | claim m => m
  | timeout => "timed out"
  | expired => "timed out"
  | error _ | interrupt _ => ""

/-- `type(exc).__name__` -/
def typeName : Exn → String
  | configuration _ => "ConfigurationError"
  | state _ => "StateError"
  | command _ => "CommandError"
  | runtime _ => "RuntimeFailure"
  | transient _ => "TransientRuntimeFailure"
  | host _ => "HostError"
  | os .enoent _ => "FileNotFoundError"
  | os .eexist _ => "FileExistsError"
  | os .enotdir _ => "NotADirectoryError"
  | os .eisdir _ => "IsADirectoryError"
  | os .eagain _ => "BlockingIOError"
  | os _ _ => "OSError"
  | timeout => "TimeoutError"
  | claim _ => "ClaimError"
  | expired => "TimeoutExpired"
  | error name => name
  | interrupt name => name

end Exn

end ShuttleGate
