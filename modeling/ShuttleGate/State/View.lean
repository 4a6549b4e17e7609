import ShuttleGate.State.Run

/-! # Views of one generation -/

namespace ShuttleGate

open Fs Effect Os Files

namespace State

/-- One validated, stable generation. -/
structure StateView where
  paths : InstancePaths
  generation : Option String

/-- The view of the active generation, once the lock is held. -/
def viewActive (paths : InstancePaths) (required : Bool) (body : StateView → OsM α) : OsM α := do
  match ← activeGeneration paths required with
  | none =>
    if ← legacyStatePresent paths then
      throw (.state (withCommandHint "legacy key state requires migration" ["keys", "generate"]))
    body ⟨paths.withData (paths.state / currentLink), none⟩
  | some (root, generation) => body ⟨paths.withData root, some generation⟩

/-- `locked_state_view` around a body. -/
def lockedStateView (paths : InstancePaths) (required exclusive blocking : Bool)
    (body : StateView → OsM α) : OsM α :=
  match paths.data with
  | some data => body ⟨paths, some data.name⟩
  | none => do
    let there ← Prog.perform (.pathExists (lockPath paths))
    if !there && !required then
      stateLock paths true false (pure ())
    stateLock paths exclusive blocking (viewActive paths required body)

/-- `read_state` -/
def readState (paths : InstancePaths) (reader : InstancePaths → OsM α) (required : Bool := true) :
    OsM α :=
  lockedStateView paths required false true fun view => reader view.paths

/-- A view of selected data takes no lock. -/
@[simp] theorem readState_withData (paths : InstancePaths) (data : Path)
    (reader : InstancePaths → OsM α) (required : Bool) :
    readState (paths.withData data) reader required = reader (paths.withData data) := rfl

/-- `void_operation` -/
def voidOperation (requestId kind : String) : Except Exn (StateOperation Unit) :=
  if hid : isOperationId requestId = true then
    if hkind : isOperationKind kind = true then
      .ok {
        requestId, kind, id_ok := hid, kind_ok := hkind
        encode := fun _ => .null
        decode := fun value => match value with
          | .null => .ok ()
          | _ => .error (.state "completed operation has an invalid result") }
    else .error (.state "operation kind is invalid")
  else .error (.state "operation ID must be 1-128 safe ASCII characters")

/-! ## What a reader has read -/

section
variable {paths : InstancePaths} {t : Tree}

theorem lockDescriptor_reads (paths : InstancePaths) :
    (lockDescriptor paths false).Only OsOp.Reads :=
  Prog.Only.bind ((Prog.only_perform.mpr fun _ => id).handle fun _ =>
    Prog.only_raise.ite Prog.only_raise) fun _ => Prog.only_raise.ite Prog.only_ret

theorem acquireLock_reads (paths : InstancePaths) (exclusive blocking : Bool) :
    (acquireLock paths exclusive blocking).Only OsOp.Reads :=
  (Prog.only_perform.mpr fun _ => id).handle fun _ => Prog.only_raise.ite Prog.only_raise

theorem unlock_reads (paths : InstancePaths) :
    (suppressOSError (Prog.perform (.unlock (lockPath paths)))).Only OsOp.Reads :=
  (Prog.only_perform.mpr fun _ => id).handle fun _ => Prog.only_ret.ite Prog.only_raise

/-- What the body has reached under a shared lock is reached. -/
theorem stateLock_yields {blocking : Bool} {body : OsM α} {Q : α → Tree → Prop}
    (h : body.Yields machine Q t) : (stateLock paths false blocking body).Yields machine Q t := by
  refine Prog.yields_bind ((yields_of_reads (lockDescriptor_reads paths)
    (Prog.yields_trivial _ t)).mono fun _ u ⟨hu, _⟩ => ?_)
  subst hu
  refine Prog.yields_finally' (Prog.yields_bind ((yields_of_reads (acquireLock_reads paths _ _)
    (Prog.yields_trivial _ u)).mono fun _ v ⟨hv, _⟩ => hv ▸ h)) fun a => ?_
  exact (unlock_reads paths).keeps fun _ _ _ _ hop hv hstep => (hop.step hstep) ▸ hv

/-- A reader of the state has read the active generation. -/
theorem readState_yields {reader : InstancePaths → OsM α} {Q : String → α → Tree → Prop}
    (hdata : paths.data = none) (h : ∀ g, designated paths t = some g →
      (reader (paths.withData (generationPath paths g))).Yields machine (Q g) t) :
    (readState paths reader).Yields machine
      (fun a u => ∃ g, designated paths t = some g ∧ Active paths t g ∧ Q g a u) t := by
  unfold readState lockedStateView
  rw [hdata]
  refine Prog.yields_bind ((yields_of_reads (reads_only) (Prog.yields_trivial _ t)).mono
    fun there u ⟨hu, _⟩ => ?_)
  subst hu
  refine Prog.yields_ite (fun hnot => absurd hnot (by simp)) fun _ => stateLock_yields ?_
  refine Prog.yields_bind ((activeGeneration_yields paths true u).mono
    fun active v ⟨hv, hanswer, hrequired⟩ => ?_)
  subst hv
  obtain ⟨rfl, hactive⟩ := hanswer.eq
  cases hg : designated paths v with
  | none => exact absurd (by rw [hg]; rfl) (hrequired rfl)
  | some g =>
    exact (h g hg).mono fun a w hw => ⟨g, rfl, hactive g hg, hw⟩

end

end State
end ShuttleGate
