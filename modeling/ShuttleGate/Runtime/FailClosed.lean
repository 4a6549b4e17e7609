import ShuttleGate.Runtime.Parts

/-! # Fail-closed ingress

The tunnel interface is up only while the drop policy is installed. Every run keeps this as long
as the policy is not deleted under an interface that is up (`failClosed_iff`); the cleanup does
delete it first, so a plain shutdown breaks it (`shutdown_opensIngress`). -/

namespace ShuttleGate

open Nft Effect

namespace Runtime

/-! ## What a step does to the namespace -/

/-- The tunnel interface exists and is up. -/
def Namespace.Ingress (ns : Namespace) : Prop := ∃ link ∈ ns.link, link.up = true

/-- The drop policy is installed. -/
def Namespace.Policed (ns : Namespace) : Prop := (Family.inet, nftTable) ∈ ns.tables

def Namespace.FailClosed (ns : Namespace) : Prop := ns.Ingress → ns.Policed

instance (ns : Namespace) : Decidable ns.Ingress := inferInstanceAs (Decidable (∃ _ ∈ _, _))
instance (ns : Namespace) : Decidable ns.Policed := inferInstanceAs (Decidable (_ ∈ _))
instance (ns : Namespace) : Decidable ns.FailClosed := inferInstanceAs (Decidable (_ → _))

/-- The command an operation runs. -/
def GatewayOp.command? : GatewayOp β → Option Command
  | run command => some command
  | _ => none

/-- An answer leaves the namespace alone or comes with the documented effect of its command. -/
theorem namespace_of_answers {op : GatewayOp β} (h : Answers op w a w') : w'.ns = w.ns ∨
    ∃ command, op.command? = some command ∧ command.effect w.ns = some w'.ns := by
  cases op with
  | run command =>
    rw [answers_run] at h
    split at h
    · obtain ⟨ns, he, rfl⟩ := h
      exact .inr ⟨command, rfl, he⟩
    · exact .inl (h ▸ rfl)
  | getChild => exact .inl (h.2 ▸ rfl)
  | hang => exact h.elim
  | _ => exact .inl (h ▸ rfl)

/-- A step leaves the namespace alone or has the documented effect of its command. -/
theorem Step.namespace {op : GatewayOp β} (h : Step op w r w') :
    w'.ns = w.ns ∨ ∃ command, op.command? = some command ∧ command.effect w.ns = some w'.ns := by
  cases h with
  | done h => exact namespace_of_answers h
  | raised _ => exact .inl rfl
  | interrupted h => exact namespace_of_answers h

theorem Step.answers {op : GatewayOp β} (h : Step op w (.ok a) w') : Answers op w a w' := by
  cases h
  assumption

/-- Only `ip link set up` opens the interface. -/
theorem ingress_of_effect {command : Command} (h : command.effect ns = some ns')
    (hup : ns'.Ingress) : ns.Ingress ∨ command = .linkUp := by
  obtain ⟨link, hl, hup⟩ := hup
  cases command with
  | linkUp => exact .inr rfl
  | linkDel =>
    obtain ⟨_, _, rfl⟩ := Option.map_eq_some_iff.mp h
    cases hl
  | linkAdd =>
    simp only [Command.effect, Option.ite_none_right_eq_some, Option.some.injEq] at h
    obtain ⟨-, rfl⟩ := h
    cases hl
    cases hup
  | linkMtu _ | addressAdd _ | wgSetconf _ =>
    obtain ⟨old, ho, rfl⟩ := Option.map_eq_some_iff.mp h
    cases hl
    exact .inl ⟨old, ho, hup⟩
  | linkShow | wgDump =>
    obtain ⟨_, _, rfl⟩ := Option.map_eq_some_iff.mp h
    exact .inl ⟨link, hl, hup⟩
  | nftCheck _ | nftLoad _ | routeReplace _ | routeFlush _ | remoteCheck _ =>
    cases h
    exact .inl ⟨link, hl, hup⟩
  | nftDelete _ _ | nftList _ _ | ruleDel _ =>
    simp only [Command.effect, Option.ite_none_right_eq_some, Option.some.injEq] at h
    obtain ⟨-, rfl⟩ := h
    exact .inl ⟨link, hl, hup⟩
  | ruleAdd _ =>
    simp only [Command.effect, Option.ite_none_left_eq_some, Option.some.injEq] at h
    obtain ⟨-, rfl⟩ := h
    exact .inl ⟨link, hl, hup⟩

/-- Only `nft delete table` takes the policy away. -/
theorem policed_of_effect {command : Command} (h : command.effect ns = some ns')
    (hp : ns.Policed) : ns'.Policed ∨ command = .nftDelete .inet nftTable := by
  cases command with
  | nftDelete family name =>
    by_cases hn : (Family.inet, nftTable) = (family, name)
    · cases hn
      exact .inr rfl
    · simp only [Command.effect, Option.ite_none_right_eq_some, Option.some.injEq] at h
      obtain ⟨-, rfl⟩ := h
      exact .inl (List.mem_filter.mpr ⟨hp, decide_eq_true hn⟩)
  | nftLoad table =>
    cases h
    by_cases hn : (Family.inet, nftTable) = (table.family, table.name)
    · exact .inl (hn ▸ List.mem_cons_self)
    · exact .inl (List.mem_cons_of_mem _ ((List.mem_erase_of_ne hn).mpr hp))
  | linkDel | linkMtu _ | linkUp | addressAdd _ | wgSetconf _ | linkShow | wgDump =>
    obtain ⟨_, _, rfl⟩ := Option.map_eq_some_iff.mp h
    exact .inl hp
  | nftCheck _ | routeReplace _ | routeFlush _ | remoteCheck _ =>
    cases h
    exact .inl hp
  | linkAdd | nftList _ _ | ruleDel _ =>
    simp only [Command.effect, Option.ite_none_right_eq_some, Option.some.injEq] at h
    obtain ⟨-, rfl⟩ := h
    exact .inl hp
  | ruleAdd _ =>
    simp only [Command.effect, Option.ite_none_left_eq_some, Option.some.injEq] at h
    obtain ⟨-, rfl⟩ := h
    exact .inl hp

theorem policed_nftLoad (h : (Command.nftLoad nftFilter).effect ns = some ns') : ns'.Policed := by
  cases h
  exact List.mem_cons_self

/-- No deletion of the policy takes effect while the interface is up. -/
def KeepsPolicy {β : Type} (op : GatewayOp β) (w : World) (_ : Except Exn β) (w' : World) : Prop :=
  op.command? = some (.nftDelete .inet nftTable) → w.ns.Ingress → w'.ns = w.ns

/-- The machine without such deletions. -/
abbrev guarded : Machine GatewayOp Exn World := machine.guard KeepsPolicy

/-- The operations that do not open the interface. -/
def Opens (op : GatewayOp β) : Prop := op.command? = some .linkUp

/-- The operations that take the policy away. -/
def Deletes (op : GatewayOp β) : Prop := op.command? = some (.nftDelete .inet nftTable)

theorem failClosed_step {op : GatewayOp β} (hop : ¬ Opens op) (h : guarded.step op w r w')
    (hw : w.ns.FailClosed) : w'.ns.FailClosed := by
  intro hup
  rcases Step.namespace h.1 with heq | ⟨command, hc, he⟩
  · rw [heq] at hup ⊢
    exact hw hup
  · have hup' : w.ns.Ingress := by
      rcases ingress_of_effect he hup with hup | rfl
      · exact hup
      · exact absurd hc hop
    rcases policed_of_effect he (hw hup') with hp | rfl
    · exact hp
    · rw [h.2 hc hup']
      exact hw hup'

theorem policed_step {op : GatewayOp β} (hop : ¬ Deletes op) (h : guarded.step op w r w')
    (hw : w.ns.Policed) : w'.ns.Policed := by
  rcases Step.namespace h.1 with heq | ⟨command, hc, he⟩
  · rw [heq]
    exact hw
  · rcases policed_of_effect he hw with hp | rfl
    · exact hp
    · exact absurd hc hop

/-! ## What the parts of the program keep to -/

/-- Operations that neither open the interface nor take the policy away. -/
def Neutral (op : GatewayOp β) : Prop := ¬ Opens op ∧ ¬ Deletes op

theorem neutral_of_command?_eq_none {op : GatewayOp β} (h : op.command? = none) : Neutral op := by
  constructor <;> simp [Opens, Deletes, h]

theorem neutral_of_quiet {op : GatewayOp β} (h : op.Quiet) : Neutral op := by
  cases op with
  | run command => constructor <;> rintro ⟨⟩ <;> exact h
  | _ => exact neutral_of_command?_eq_none rfl

theorem neutral_run (h : command ≠ .linkUp) (h' : command ≠ .nftDelete .inet nftTable) :
    Neutral (.run command) :=
  ⟨fun e => h (Option.some.inj e), fun e => h' (Option.some.inj e)⟩

section
variable (g : Gateway) (fuel : Nat)

theorem perform_neutral {op : GatewayOp β} (h : op.command? = none) :
    (Prog.perform op : GatewayM β).Only Neutral :=
  Prog.only_perform.mpr (neutral_of_command?_eq_none h)

theorem writeStatus_neutral (state ignore error) : (writeStatus g state ignore error).Only Neutral := by
  unfold writeStatus
  refine (perform_neutral rfl).bind fun child => ?_
  have write (peers : List Json) : (tryCatch
      (Prog.perform (.writeStatus (statusValue g state child peers error))) fun e =>
        if e.isOSError && ignore then pure () else throw e : GatewayM Unit).Only Neutral := by
    refine (perform_neutral rfl).handle fun e => ?_
    split <;> simp
  split
  · exact ((peerStatus_quiet g).mono fun _ => neutral_of_quiet).bind write
  · exact Prog.only_ret.bind write

/-- The cleanup does not open the interface. -/
theorem cleanup_only : (cleanup g).Only fun op => ¬ Opens op := by
  have quiet {β : Type} {op : GatewayOp β} (h : op.command? = none) : ¬ Opens op :=
    (neutral_of_command?_eq_none h).1
  refine ((writeStatus_neutral g _ _ _).mono fun _ h => h.1).bind fun _ => ?_
  refine (Prog.only_perform.mpr (quiet rfl)).bind fun child => ?_
  refine (attempt_only (stopProcess_only (fun _ => ⟨quiet rfl, quiet rfl, quiet rfl,
    fun _ => quiet rfl⟩) child)).bind fun _ => ?_
  refine (Prog.only_perform.mpr (quiet rfl)).bind fun _ => ?_
  refine (runCleanup_only _ ?_).bind fun _ => ?_
  · simp [cleanupCommands, Opens, GatewayOp.command?]
  · exact Prog.only_raise.ite Prog.only_ret

theorem setupWireguard_neutral : (setupWireguard g).Only Neutral :=
  (run_only (neutral_run (by simp) (by simp))).bind fun _ =>
  (run_only (neutral_run (by simp) (by simp))).bind fun _ =>
  (Prog.only_forEach (fun _ => (run_only (neutral_run (by simp) (by simp))).bind fun _ => Prog.only_ret) _).bind fun _ =>
  (perform_neutral rfl).bind fun _ =>
  (loadKeys_only (fun _ => neutral_of_command?_eq_none rfl) _).bind fun _ =>
  (Prog.only_ofExcept _).bind fun _ =>
  (perform_neutral rfl).bind fun _ =>
  (run_only (neutral_run (by simp) (by simp))).bind fun _ =>
  (run_only (neutral_run (by simp) (by simp))).bind fun _ => Prog.only_ret

theorem setupPolicyRouting_neutral : (setupPolicyRouting g).Only Neutral :=
  Prog.only_forEach (fun _ =>
    (run_only (neutral_run (by simp) (by simp))).bind fun _ =>
    (run_only (neutral_run (by simp) (by simp))).bind fun _ =>
    (run_only (neutral_run (by simp) (by simp))).bind fun _ => Prog.only_ret) _

theorem supervise_neutral : (supervise g fuel).Only Neutral := by
  induction fuel with
  | zero => exact perform_neutral rfl
  | succ fuel ih =>
    unfold supervise
    refine (perform_neutral rfl).bind fun stop => ?_
    split
    · simp
    · refine (perform_neutral rfl).bind fun child => ?_
      cases child with
      | none => simp
      | some pid =>
        refine (perform_neutral rfl).bind fun code => ?_
        split
        · simp
        · exact (writeStatus_neutral g _ _ _).bind fun _ => ih

end

/-! ## Every run -/

section
variable (g : Gateway) (fuel : Nat)

/-- What is quiet about the interface keeps the invariant. -/
theorem keeps_of_only {p : GatewayM α} (hp : p.Only fun op => ¬ Opens op) :
    p.Keeps guarded fun w => w.ns.FailClosed :=
  hp.keeps fun _ _ _ _ hop hw h => failClosed_step hop h hw

theorem keeps_of_neutral {p : GatewayM α} (hp : p.Only Neutral) :
    p.Keeps guarded fun w => w.ns.FailClosed :=
  keeps_of_only (hp.mono fun _ h => h.1)

theorem keeps_of_quiet {p : GatewayM α} (hp : p.Only GatewayOp.Quiet) :
    p.Keeps guarded fun w => w.ns.FailClosed :=
  keeps_of_neutral (hp.mono fun _ => neutral_of_quiet)

/-- What leaves the policy alone keeps it. -/
theorem policed_of_only {p : GatewayM α} (hp : p.Only fun op => ¬ Deletes op) :
    p.Keeps guarded fun w => w.ns.Policed :=
  hp.keeps fun _ _ _ _ hop hw h => policed_step hop h hw

theorem failClosed_of_policed {ns : Namespace} (h : ns.Policed) : ns.FailClosed := fun _ => h

/-- The policy is installed once `nft --file -` has come back. -/
theorem wp_nftLoad {w : World} (hw : w.ns.FailClosed) :
    (run (.nftLoad nftFilter)).wp guarded (fun w => w.ns.FailClosed)
      (fun r w => r.isOk = true → w.ns.Policed) w := by
  have neutral : Neutral (.run (.nftLoad nftFilter)) := neutral_run (by simp) (by simp)
  unfold run
  refine Prog.wp_bind.mpr (Prog.wp_perform.mpr ⟨hw, fun r w' hs => ?_⟩)
  have hw' : w'.ns.FailClosed := failClosed_step neutral.1 hs hw
  refine ⟨hw', ?_⟩
  cases r with
  | error e => exact nofun
  | ok result =>
    -- an answer has had its effect or a nonzero status, which is raised
    have ha := answers_run.mp hs.1.answers
    split at ha
    · obtain ⟨ns, he, rfl⟩ := ha
      simp only [Prog.onOk, *]
      exact ⟨hw', fun _ => policed_nftLoad he⟩
    · simp [Prog.onOk, *, Except.isOk, Except.toBool]

theorem bringUp_keeps : (bringUp g fuel).Keeps guarded fun w => w.ns.FailClosed := by
  refine (keeps_of_quiet (configureNamespace_quiet g)).bind fun _ => ?_
  refine Prog.Keeps.bind (Prog.Keeps.handle ?_ fun e => ?_) fun _ => ?_
  · exact keeps_of_quiet (remotePythonCheck_quiet g)
  · split <;> exact Prog.keeps_raise
  refine (keeps_of_neutral (run_only (neutral_run (by simp) (by simp)))).bind fun _ => ?_
  intro w hw
  refine Prog.wp_bind.mpr ((wp_nftLoad hw).post fun r w hw' h => ?_)
  cases r with
  | error e => exact hw'
  | ok _ =>
    -- from here to the end of the startup no operation takes the policy away
    have quiet {α : Type} {p : GatewayM α} (hp : p.Only Neutral) : p.Only fun op => ¬ Deletes op :=
      hp.mono fun _ h => h.2
    refine Prog.wp.mono (policed_of_only ?_ w (h rfl)) (fun _ => failClosed_of_policed)
      fun _ _ _ => failClosed_of_policed
    refine (quiet (setupWireguard_neutral g)).bind fun _ => ?_
    refine (quiet (setupPolicyRouting_neutral g)).bind fun _ => ?_
    refine (quiet ((startSshuttle_quiet g fuel).mono fun _ => neutral_of_quiet)).bind fun _ => ?_
    refine Prog.Only.bind ((run_only (by simp [Deletes, GatewayOp.command?])).bind
      fun _ => Prog.only_ret) fun _ => ?_
    exact (quiet (verifyPostconditions_quiet.mono fun _ => neutral_of_quiet)).bind fun _ => quiet (writeStatus_neutral g _ _ _)

theorem cleanup_keeps : (cleanup g).Keeps guarded fun w => w.ns.FailClosed :=
  keeps_of_only (cleanup_only g)

theorem start_keeps : (start g fuel).Keeps guarded fun w => w.ns.FailClosed := by
  refine (keeps_of_neutral (perform_neutral rfl)).bind fun _ => ?_
  refine (cleanup_keeps g).bind fun _ => ?_
  refine (keeps_of_neutral (writeStatus_neutral g _ _ _)).bind fun _ => ?_
  refine (bringUp_keeps g fuel).handle fun e => Prog.Keeps.bind ?_ fun _ => Prog.keeps_raise
  exact keeps_of_only (suppress_only (cleanup_only g))

theorem terminate_keeps (e : Exn) : (terminate g e).Keeps guarded fun w => w.ns.FailClosed := by
  refine Prog.Keeps.bind (Prog.Keeps.handle ?_ fun failure => ?_) fun _ => ?_
  · exact (cleanup_keeps g).bind fun _ => Prog.keeps_ret
  · split
    · exact Prog.keeps_ret
    · exact Prog.keeps_raise
  · exact (keeps_of_neutral (writeStatus_neutral g _ _ _)).bind fun _ => Prog.keeps_raise

theorem runGateway_keeps : (runGateway g fuel).Keeps guarded fun w => w.ns.FailClosed := by
  refine Prog.Keeps.bind (Prog.Keeps.handle ?_ (terminate_keeps g)) fun _ => ?_
  · exact (start_keeps g fuel).bind fun _ => keeps_of_neutral (supervise_neutral g fuel)
  · refine (cleanup_keeps g).bind fun _ => ?_
    exact (keeps_of_neutral (writeStatus_neutral g _ _ _)).bind fun _ => Prog.keeps_ret

/-- The cleanup, repeated whatever its outcome. -/
def repeatCleanup (g : Gateway) : Nat → GatewayM Unit
  | 0 => pure ()
  | rounds + 1 => Prog.andThen (cleanup g) fun _ => repeatCleanup g rounds

/-- A run of the gateway, whatever its outcome, and further cleanups. -/
def session (g : Gateway) (fuel rounds : Nat) : GatewayM Unit :=
  Prog.andThen (runGateway g fuel) fun _ => repeatCleanup g rounds

theorem session_keeps (rounds : Nat) :
    (session g fuel rounds).Keeps guarded fun w => w.ns.FailClosed := by
  refine (runGateway_keeps g fuel).andThen fun _ => ?_
  induction rounds with
  | zero => exact Prog.keeps_ret
  | succ rounds ih => exact (cleanup_keeps g).andThen fun _ => ih

/-- Deleting the policy under an interface that is up opens the ingress. -/
theorem keepsPolicy_of_failClosed {op : GatewayOp β} (h : Step op w r w')
    (hw' : w'.ns.FailClosed) : KeepsPolicy op w r w' := by
  intro hop hup
  rcases Step.namespace h with heq | ⟨command, hc, he⟩
  · exact heq
  · cases hop.symm.trans hc
    simp only [Command.effect, Option.ite_none_right_eq_some, Option.some.injEq] at he
    obtain ⟨-, he⟩ := he
    have hpoliced : w'.ns.Policed := hw' (by rw [← he]; exact hup)
    rw [Namespace.Policed, ← he] at hpoliced
    simp at hpoliced

end

/-! ## A run -/

/-- The deletion of the policy is refused while the interface is up. -/
def refusesDeletion (command : Command) (w : World) : Bool :=
  decide (command = .nftDelete .inet nftTable) && decide w.ns.Ingress

theorem guarded_oracle (op : GatewayOp β) (w : World) :
    guarded.step op w (oracle refusesDeletion op w).1 (oracle refusesDeletion op w).2 := by
  refine ⟨step_oracle _ op w, fun hop hup => ?_⟩
  cases op with
  | run command =>
    have hr : refusesDeletion command w = true := by
      simpa [refusesDeletion, hup] using Option.some.inj hop
    change (answerRun refusesDeletion command w).2.ns = w.ns
    unfold answerRun
    split <;> simp [hr]
  | _ => cases hop

/-- A run from a fail-closed namespace stays fail-closed in every state exactly when no deletion
of the policy takes effect while the interface is up. -/
theorem failClosed_iff (g : Gateway) (fuel rounds : Nat) {w w' : World} {q : GatewayM Unit}
    (hw : w.ns.FailClosed) :
    Prog.Exec (machine.guard fun _ _ _ w' => w'.ns.FailClosed) (session g fuel rounds) w q w' ↔
      Prog.Exec (machine.guard KeepsPolicy) (session g fuel rounds) w q w' := by
  constructor
  · intro h
    refine h.mono fun op w r w' hs => ?_
    exact ⟨hs.1, keepsPolicy_of_failClosed hs.1 hs.2⟩
  · intro h
    refine ((session_keeps g fuel rounds w hw).exec_guard h).mono fun op w r w' hs => ?_
    exact ⟨hs.1.1, hs.2⟩

/-- A plain run: startup, a stop request, and the first command of the cleanup. -/
theorem shutdown_opensIngress : ¬ ∀ w, (session exampleGateway 1 0).Visits machine freshWorld w →
    w.ns.FailClosed := by
  intro h
  have hplay := h _ (Prog.visits_play (step_oracle fun _ _ => false) 63 _ _)
  revert hplay
  decide +kernel

/-- With the deletion refused the tunnel comes up and the run is fail-closed so far. -/
theorem failClosed_iff_start : ∃ q w, w.ns.Ingress ∧
    Prog.Exec (machine.guard fun _ _ _ w' => w'.ns.FailClosed) (session exampleGateway 1 0)
      freshWorld q w := by
  obtain ⟨q, hq⟩ := Prog.visits_play guarded_oracle 50 (session exampleGateway 1 0) freshWorld
  exact ⟨q, _, by decide +kernel, (failClosed_iff exampleGateway 1 0 (by decide)).mpr hq⟩

end Runtime
end ShuttleGate
