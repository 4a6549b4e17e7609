import ShuttleGate.Runtime.Gateway

/-! # Which operations the parts of the gateway use -/

namespace ShuttleGate

open Nft Effect

namespace Runtime

section
variable {P : {β : Type} → GatewayOp β → Prop}

theorem run_only {command : Command} {check : Bool} (h : P (.run command)) :
    (run command check).Only P := by
  unfold run
  refine (Prog.only_perform.mpr h).bind fun result => ?_
  split <;> simp

theorem attempt_only {p : GatewayM Unit} (h : p.Only P) : (attempt p).Only P := by
  refine (h.bind fun _ => Prog.only_ret).handle fun e => ?_
  split <;> simp

theorem suppress_only {p : GatewayM Unit} (h : p.Only P) : (suppress caught p).Only P := by
  refine h.handle fun e => ?_
  split <;> simp

theorem liftError_only {α : Type} {wrap : String → Exn} (r : Except String α) :
    (liftError wrap r).Only P := by
  cases r <;> simp [liftError]

theorem loadKeys_only (h : ∀ name, P (.loadPeerKeys name)) : ∀ peers, (loadKeys peers).Only P
  | [] => Prog.only_ret
  | _ :: rest =>
    (Prog.only_perform.mpr (h _)).bind fun _ => (loadKeys_only h rest).bind fun _ => Prog.only_ret

theorem peerNames_only (h : ∀ name, P (.loadPeerKeys name)) : ∀ peers, (peerNames peers).Only P
  | [] => Prog.only_ret
  | _ :: rest =>
    (Prog.only_perform.mpr (h _)).bind fun _ => (peerNames_only h rest).bind fun _ => Prog.only_ret

theorem runCleanup_only : ∀ commands : List Command, (∀ command ∈ commands, P (.run command)) →
    (runCleanup commands).Only P
  | [], _ => Prog.only_ret
  | command :: rest, h => by
    refine (attempt_only ((run_only (h command (.head _))).bind fun _ => Prog.only_ret)).bind
      fun _ => (runCleanup_only rest fun c hc => h c (.tail _ hc)).bind fun _ => Prog.only_ret

theorem stopProcess_only (h : ∀ pid, P (.poll pid) ∧ P (.terminate pid) ∧ P (.kill pid) ∧
    ∀ n, P (.wait pid n)) : ∀ child, (stopProcess child).Only P
  | none => Prog.only_ret
  | some pid => by
    obtain ⟨hpoll, hterm, hkill, hwait⟩ := h pid
    unfold stopProcess
    refine (Prog.only_perform.mpr hpoll).bind fun code => ?_
    split
    · simp
    · refine (Prog.only_perform.mpr hterm).bind fun _ => ?_
      refine (Prog.only_perform.mpr (hwait 10)).handle fun e => ?_
      split <;> simp [hkill, hwait]

section
variable (g : Gateway) (fuel : Nat)

theorem configureNamespace_only (h : ∀ path value, P (.writeSysctl path value)) :
    (configureNamespace g).Only P := by
  unfold configureNamespace
  split
  · exact Prog.only_ret
  · refine Prog.only_forEach (fun sysctl => (Prog.only_perform.mpr (h _ _)).handle fun e => ?_) _
    split <;> simp

theorem remotePythonCheck_only (h : ∀ arguments, P (.run (.remoteCheck arguments))) :
    (remotePythonCheck g).Only P :=
  (liftError_only _).bind fun _ => (run_only (h _)).bind fun _ => Prog.only_ret

/-- The operations of the wait for readiness. -/
structure Waits (P : {β : Type} → GatewayOp β → Prop) : Prop where
  clock : P .clock
  poll : ∀ pid, P (.poll pid)
  receive : P .receive
  hang : P .hang

theorem awaitReady_only (h : Waits P) (pid deadline : Int) :
    (awaitReady g pid deadline fuel).Only P := by
  induction fuel with
  | zero => exact Prog.only_perform.mpr h.hang
  | succ fuel ih =>
    unfold awaitReady
    refine (Prog.only_perform.mpr h.clock).bind fun now => ?_
    split
    · refine (Prog.only_perform.mpr (h.poll pid)).bind fun code => ?_
      cases code with
      | some code => simp
      | none =>
        refine Prog.Only.bind ?_ fun message => ?_
        · refine Prog.Only.handle ((Prog.only_perform.mpr h.receive).bind fun _ => Prog.only_ret)
            fun e => ?_
          split <;> simp
        · cases message with
          | none => exact ih
          | some message => exact Prog.only_ret.ite ih
    · exact Prog.only_raise

theorem startSshuttle_only (h : Waits P) (hnotify : P .removeNotify ∧ P .openNotify ∧ P .bindNotify ∧
    P .closeNotify) (hspawn : ∀ arguments, P (.spawn arguments))
    (hchild : ∀ pid, P (.setChild (some pid))) : (startSshuttle g fuel).Only P := by
  obtain ⟨hremove, hopen, hbind, hclose⟩ := hnotify
  refine (Prog.only_perform.mpr hremove).bind fun _ => (Prog.only_perform.mpr hopen).bind fun _ =>
    Prog.Only.finally' ?_
      ((Prog.only_perform.mpr hclose).bind fun _ => Prog.only_perform.mpr hremove)
  exact (Prog.only_perform.mpr hbind).bind fun _ => (liftError_only _).bind fun _ =>
    (Prog.only_perform.mpr (hspawn _)).bind fun _ => (Prog.only_perform.mpr (hchild _)).bind fun _ =>
    (Prog.only_perform.mpr h.clock).bind fun _ => awaitReady_only g fuel h _ _

end

end

/-! ## Quiet operations -/

def Command.Quiet : Command → Prop
  | nftDelete _ _ | linkDel | linkAdd | linkUp | ruleDel _ | ruleAdd _ | routeFlush _ => False
  | _ => True

/-- An operation that writes no status, asks for no stop request, ends no process and neither sets
up nor takes away an interface, a policy rule or a table entry. -/
def GatewayOp.Quiet : GatewayOp β → Prop
  | run command => command.Quiet
  | writeStatus _ | waitStop | setChild none | terminate _ | kill _ | wait _ _ => False
  | _ => True

theorem perform_quiet {op : GatewayOp β} (h : op.Quiet) :
    (Prog.perform op : GatewayM β).Only GatewayOp.Quiet := Prog.only_perform.mpr h

theorem run_quiet {command : Command} {check : Bool} (h : command.Quiet) :
    (run command check).Only GatewayOp.Quiet := run_only h

section
variable (g : Gateway) (fuel : Nat)

theorem peerStatus_quiet : (peerStatus g).Only GatewayOp.Quiet :=
  (peerNames_only (fun _ => trivial) _).bind fun _ => (run_quiet (by trivial)).bind fun _ =>
    Prog.only_ofExcept _

theorem configureNamespace_quiet : (configureNamespace g).Only GatewayOp.Quiet :=
  configureNamespace_only g fun _ _ => trivial

theorem remotePythonCheck_quiet : (remotePythonCheck g).Only GatewayOp.Quiet :=
  remotePythonCheck_only g fun _ => trivial

theorem startSshuttle_quiet : (startSshuttle g fuel).Only GatewayOp.Quiet :=
  startSshuttle_only g fuel ⟨trivial, fun _ => trivial, trivial, trivial⟩
    ⟨trivial, trivial, trivial, trivial⟩ (fun _ => trivial) fun _ => trivial

theorem verifyPostconditions_quiet : verifyPostconditions.Only GatewayOp.Quiet := by
  refine (perform_quiet (by trivial)).bind fun child => ?_
  cases child with
  | none => exact Prog.only_raise
  | some pid =>
    refine (perform_quiet (by trivial)).bind fun code => ?_
    split
    · simp
    · simp only [Prog.forEach]
      exact ((run_quiet (by trivial)).bind fun _ => Prog.only_ret).bind fun _ =>
        ((run_quiet (by trivial)).bind fun _ => Prog.only_ret).bind fun _ =>
        ((run_quiet (by trivial)).bind fun _ => Prog.only_ret).bind fun _ => Prog.only_ret

end

end Runtime
end ShuttleGate
