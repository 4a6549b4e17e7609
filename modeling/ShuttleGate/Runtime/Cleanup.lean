import ShuttleGate.Files.Atomic
import ShuttleGate.Os.Host
import ShuttleGate.Runtime.FailClosed
import ShuttleGate.Runtime.Terminal

/-! # The cleanup

Every step of the cleanup keeps its failure to itself but the first one: of the exceptions of the
initial status write only an `OSError` is ignored. -/

namespace ShuttleGate

open Effect

namespace Runtime

/-! ## Failures -/

/-- The machine on which anything may fail and nothing is interrupted. -/
abbrev failing : Machine GatewayOp Exn World :=
  machine.guard fun _ _ r _ => ∀ e, r = .error e → e.isException = true

/-- The status write of the cleanup did not raise anything but an `OSError`. -/
def ignored : GatewayEvent → Bool
  | ⟨.writeStatus value, .error e⟩ => stateField value ≠ some GatewayState.stopping.text || e.isOSError
  | _ => true

/-- No status write of the cleanup raised anything but an `OSError`. -/
def Contained (es : List GatewayEvent) : Prop := ∀ e ∈ es, ignored e = true

/-- The operation was attempted, with this answer. -/
def Attempt (es : List GatewayEvent) (op : GatewayOp β) (r : Except Exn β) : Prop := ⟨op, r⟩ ∈ es

/-- The process was found to have ended, or everything that stops it was attempted. -/
def StopAttempted (pid : Int) (es : List GatewayEvent) : Prop :=
  ∃ polled, Attempt es (.poll pid) polled ∧ (polled = .ok none →
    ∃ terminated, Attempt es (.terminate pid) terminated ∧ (terminated = .ok () →
      ∃ waited, Attempt es (.wait pid 10) waited ∧ (waited = .error .expired →
        ∃ killed, Attempt es (.kill pid) killed)))

/-- Every effect of the cleanup was attempted, from `w` on. -/
structure Attempted (w : World) (es : List GatewayEvent) : Prop where
  process : ∀ pid, w.child = some pid → StopAttempted pid es
  commands : ∀ command ∈ cleanupCommands, ∃ r, Attempt es (.run command) r

/-- A failure is a `RuntimeFailure`. -/
def Summarized (r : Except Exn Unit) : Prop := ∀ e, r = .error e → e.isRuntimeFailure = true

/-- What `start` does when it has failed. -/
def rollback (g : Gateway) (e : Exn) : GatewayM Unit := do
  suppress Exn.isRuntimeFailure (cleanup g)
  throw e

/-- The last thing attempted was to write the status for `e`; where that was possible, it is there
and `e` is raised again. -/
def TerminalWritten (e : Exn) (r : Except Exn Unit) (s : World × List GatewayEvent) : Prop :=
  ∃ value written older, s.2 = ⟨.writeStatus value, written⟩ :: older ∧
    stateField value = some (if e.isTransient then GatewayState.retrying else .failed).text ∧
    (written = .ok () → s.1.status = some value ∧ r = .error e)

/-! ## What events stay -/

section
variable {s : World × List GatewayEvent}

theorem attempt_kept {op : GatewayOp β} {r : Except Exn β} (p : GatewayM α) :
    p.Keeps failing.traced fun s => Attempt s.2 op r :=
  (Prog.only_trivial p).keeps fun _ _ _ _ _ hs h => h.2 ▸ List.mem_cons_of_mem _ hs

theorem StopAttempted.mono {es es' : List GatewayEvent} (h : StopAttempted pid es) (hes : es ⊆ es') :
    StopAttempted pid es' := by
  obtain ⟨polled, hpoll, h⟩ := h
  refine ⟨polled, hes hpoll, fun hp => ?_⟩
  obtain ⟨terminated, hterminate, h⟩ := h hp
  refine ⟨terminated, hes hterminate, fun ht => ?_⟩
  obtain ⟨waited, hwait, h⟩ := h ht
  exact ⟨waited, hes hwait, fun hw => (h hw).imp fun _ hkill => hes hkill⟩

theorem stopAttempted_kept (pid : Int) (p : GatewayM α) :
    p.Keeps failing.traced fun s => StopAttempted pid s.2 :=
  (Prog.only_trivial p).keeps fun _ _ _ _ _ hs h =>
    hs.mono (h.2 ▸ List.subset_cons_self _ _)

/-- An operation that writes no status. -/
def WritesNone : GatewayOp β → Prop
  | .writeStatus _ => False
  | _ => True

theorem ignored_of_writesNone {op : GatewayOp β} (h : WritesNone op) (r : Except Exn β) :
    ignored ⟨op, r⟩ = true := by
  cases op with
  | writeStatus value => exact h.elim
  | _ => rfl

theorem contained_kept {p : GatewayM α} (hp : p.Only WritesNone) :
    p.Keeps failing.traced fun s => Contained s.2 :=
  hp.keeps fun _ _ r _ hop hs h => by
    rw [h.2]
    exact List.forall_mem_cons.mpr ⟨ignored_of_writesNone hop r, hs⟩

/-! ## Steps that cannot fail -/

/-- An operation that does not fail has its answer. -/
theorem infallible_step {op : GatewayOp β} (hop : op.fallible = false) {r : Except Exn β}
    {s' : World × List GatewayEvent} (h : failing.traced.step op s r s') :
    ∃ a, r = .ok a ∧ Answers op s.1 a s'.1 ∧ s'.2 = ⟨op, .ok a⟩ :: s.2 := by
  obtain ⟨w, es⟩ := s
  obtain ⟨w', es'⟩ := s'
  obtain ⟨⟨hstep, hguard⟩, hes⟩ := h
  cases hstep with
  | done h => exact ⟨_, rfl, h, hes⟩
  | raised h => cases hop.symm.trans (h (hguard _ rfl))
  | interrupted _ => cases hguard _ rfl

theorem getChild_succeeds (s : World × List GatewayEvent) :
    (Prog.perform .getChild : GatewayM (Option Int)).Succeeds failing.traced (fun a s' =>
      a = s.1.child ∧ s'.1 = s.1 ∧ s'.2 = ⟨.getChild, .ok a⟩ :: s.2) s :=
  Prog.succeeds_perform fun r s' h => by
    obtain ⟨a, rfl, ⟨ha, hw⟩, hes⟩ := infallible_step rfl h
    exact ⟨a, rfl, ha, hw, hes⟩

theorem setChild_succeeds (s : World × List GatewayEvent) :
    (Prog.perform (.setChild none) : GatewayM Unit).Succeeds failing.traced (fun _ _ => True) s :=
  Prog.succeeds_perform fun r s' h => by
    obtain ⟨a, rfl, -, -⟩ := infallible_step rfl h
    exact ⟨a, rfl, trivial⟩

/-! ## Attempts -/

theorem perform_failing (op : GatewayOp β) (s : World × List GatewayEvent) :
    (Prog.perform op : GatewayM β).wp failing.traced (fun _ => True)
      (fun r s' => (∀ e, r = .error e → e.isException = true) ∧ Attempt s'.2 op r) s :=
  Prog.wp_perform.mpr ⟨trivial, fun r s' h => ⟨trivial, h.1.2, h.2 ▸ List.mem_cons_self⟩⟩

/-- What is attempted is done, whatever becomes of it. -/
theorem attempt_succeeds {p : GatewayM Unit} {R : List GatewayEvent → Prop}
    (h : p.wp failing.traced (fun _ => True)
      (fun r s' => (∀ e, r = .error e → e.isException = true) ∧ R s'.2) s) :
    (attempt p).Succeeds failing.traced (fun _ s' => R s'.2) s := by
  refine Prog.wp_handle.mpr (Prog.wp_bind.mpr (h.post fun r s' _ hr => ?_))
  cases r with
  | ok a => exact ⟨trivial, [], rfl, hr.2⟩
  | error e =>
    change Prog.wp failing.traced _ (if e.isException then pure [e] else throw e) _ s'
    rw [if_pos (hr.1 e rfl)]
    exact ⟨trivial, [e], rfl, hr.2⟩

theorem run_failing (command : Command) (s : World × List GatewayEvent) :
    (do let _ ← run command false : GatewayM Unit).wp failing.traced (fun _ => True)
      (fun r s' => (∀ e, r = .error e → e.isException = true) ∧
        ∃ answer, Attempt s'.2 (.run command) answer) s := by
  refine Prog.wp_bind.mpr (Prog.wp_bind.mpr ((perform_failing (.run command) s).post
    fun r s' _ hr => ?_))
  cases r with
  | ok result => exact ⟨trivial, trivial, nofun, _, hr.2⟩
  | error e => exact ⟨fun _ he => by cases he; exact hr.1 e rfl, _, hr.2⟩

theorem stopProcess_failing (pid : Int) (s : World × List GatewayEvent) :
    (stopProcess (some pid)).wp failing.traced (fun _ => True)
      (fun r s' => (∀ e, r = .error e → e.isException = true) ∧ StopAttempted pid s'.2) s := by
  refine Prog.wp_bind.mpr ((perform_failing (.poll pid) s).post fun polled s _ ⟨hexn, hpoll⟩ => ?_)
  cases polled with
  | error e => exact ⟨fun _ he => by cases he; exact hexn e rfl, _, hpoll, nofun⟩
  | ok code =>
    dsimp only [Prog.onOk]
    split
    · next hcode =>
      exact ⟨trivial, nofun, _, hpoll, fun he => absurd (Except.ok.inj he) hcode⟩
    refine Prog.wp_bind.mpr (((perform_failing (.terminate pid) s).and
      (attempt_kept _ s hpoll)).mono (fun _ _ => trivial) fun terminated s _ ⟨⟨hexn, hterminate⟩, hpoll⟩ => ?_)
    cases terminated with
    | error e =>
      exact ⟨hexn, _, hpoll, fun _ => ⟨_, hterminate, nofun⟩⟩
    | ok _ =>
      refine Prog.wp_handle.mpr ((((perform_failing (.wait pid 10) s).and (attempt_kept _ s hpoll)).and
        (attempt_kept _ s hterminate)).mono (fun _ _ => trivial)
          fun waited s _ ⟨⟨⟨hexn, hwait⟩, hpoll⟩, hterminate⟩ => ?_)
      cases waited with
      | ok _ =>
        exact ⟨nofun, _, hpoll, fun _ => ⟨_, hterminate, fun _ => ⟨_, hwait, nofun⟩⟩⟩
      | error e =>
        have hstopped : e ≠ .expired → StopAttempted pid s.2 := fun hne =>
          ⟨_, hpoll, fun _ => ⟨_, hterminate, fun _ => ⟨_, hwait, fun he => absurd (Except.error.inj he) hne⟩⟩⟩
        dsimp only [Prog.onError]
        split
        · refine Prog.wp_bind.mpr (((((perform_failing (.kill pid) s).and (attempt_kept _ s hpoll)).and
            (attempt_kept _ s hterminate)).and (attempt_kept _ s hwait)).mono (fun _ _ => trivial)
              fun killed s _ ⟨⟨⟨⟨hexn, hkill⟩, hpoll⟩, hterminate⟩, hwait⟩ => ?_)
          have hstopped : StopAttempted pid s.2 :=
            ⟨_, hpoll, fun _ => ⟨_, hterminate, fun _ => ⟨_, hwait, fun _ => ⟨_, hkill⟩⟩⟩⟩
          cases killed with
          | error e => exact ⟨hexn, hstopped⟩
          | ok _ =>
            exact ((perform_failing (.wait pid 10) s).and (stopAttempted_kept pid _ s hstopped)).mono
              (fun _ _ => trivial) fun _ _ _ ⟨⟨hexn, _⟩, hstopped⟩ => ⟨hexn, hstopped⟩
        · next hne => exact ⟨trivial, hexn, hstopped hne⟩

/-- The child, if there is one, is stopped. -/
theorem stopChild_succeeds (child : Option Int) (s : World × List GatewayEvent) :
    (attempt (stopProcess child)).Succeeds failing.traced
      (fun _ s' => ∀ pid, child = some pid → StopAttempted pid s'.2) s := by
  cases child with
  | none => exact ⟨trivial, [], rfl, nofun⟩
  | some pid =>
    refine (attempt_succeeds (R := StopAttempted pid) (stopProcess_failing pid s)).mono
      fun _ s hstop pid' hpid => ?_
    exact Option.some.inj hpid ▸ hstop

theorem runCleanup_succeeds (commands : List Command) (s : World × List GatewayEvent) :
    (runCleanup commands).Succeeds failing.traced
      (fun _ s' => ∀ command ∈ commands, ∃ r, Attempt s'.2 (.run command) r) s := by
  induction commands generalizing s with
  | nil => exact Prog.succeeds_ret (List.forall_mem_nil _)
  | cons command rest ih =>
    refine Prog.succeeds_bind ((attempt_succeeds
      (R := fun es => ∃ r, Attempt es (.run command) r) (run_failing command s)).mono
        fun failure s ⟨r, hr⟩ => ?_)
    refine Prog.succeeds_bind (((ih s).and_keeps (attempt_kept _) hr).mono fun _ s hrest => ?_)
    exact Prog.succeeds_ret (List.forall_mem_cons.mpr ⟨⟨r, hrest.2⟩, hrest.1⟩)

/-! ## The first step -/

/-- The cleanup has ended with its first step. -/
def Abandoned (s : World × List GatewayEvent) : Prop :=
  ¬ Contained s.2 ∧ ∀ e ∈ s.2, e.op.command? = none

/-- The initial status write is over and the child is as before, or nothing follows. -/
theorem writeStopping_failing (g : Gateway) (w : World) :
    (writeStatus g .stopping true).wp failing.traced (fun _ => True) (fun r s' =>
      match r with
      | .ok _ => s'.1.child = w.child ∧ Contained s'.2
      | .error _ => Abandoned s') (w, []) := by
  refine Prog.wp_bind.mpr ((getChild_succeeds (w, [])).post fun r s _ ⟨child, hr, hchild, hw, hes⟩ => ?_)
  subst hr
  refine Prog.wp_handle.mpr (Prog.wp_perform.mpr ⟨trivial, fun written s' hstep => ⟨trivial, ?_⟩⟩)
  obtain ⟨⟨hstep, -⟩, hevents⟩ := hstep
  have hsame : s'.1.child = w.child := by
    have hworld := hw ▸ hstep
    obtain ⟨w', es'⟩ := s'
    cases hworld with
    | done h | interrupted h =>
      have hworld : w' = { w with status := some (statusValue g .stopping child [] none) } := h
      rw [hworld]
    | raised _ => rfl
  have hcontained : Contained s'.2 ↔ ignored ⟨.writeStatus
      (statusValue g .stopping child [] none), written⟩ = true := by
    rw [hevents, hes]
    simp [Contained, ignored]
  cases written with
  | ok _ => exact ⟨hsame, hcontained.mpr rfl⟩
  | error e =>
    change Prog.wp failing.traced _ (if e.isOSError && true then pure () else throw e) _ s'
    rw [Bool.and_true]
    have hignored : Contained s'.2 ↔ e.isOSError = true := by
      rw [hcontained]
      simp [ignored]
    split
    · next hos => exact ⟨trivial, hsame, hignored.mpr hos⟩
    · next hos =>
      refine ⟨trivial, fun h => hos (hignored.mp h), ?_⟩
      rw [hevents, hes]
      exact List.forall_mem_cons.mpr ⟨rfl, List.forall_mem_cons.mpr ⟨rfl, List.forall_mem_nil _⟩⟩

/-- What follows the initial status write. -/
def effects : GatewayM Unit := do
  let child ← Prog.perform .getChild
  let stopFailures ← attempt (stopProcess child)
  Prog.perform (.setChild none)
  let failures := stopFailures ++ (← runCleanup cleanupCommands)
  if failures ≠ [] then
    throw (.runtime "cleanup was incomplete; namespace destruction is the final boundary")

theorem cleanup_eq (g : Gateway) :
    cleanup g = (writeStatus g .stopping true).bind fun _ => effects := rfl

theorem effects_writesNone : effects.Only WritesNone :=
  (Prog.only_perform.mpr trivial).bind fun child =>
    (attempt_only (stopProcess_only (fun _ => ⟨trivial, trivial, trivial, fun _ => trivial⟩) child)).bind
    fun _ => (Prog.only_perform.mpr trivial).bind fun _ => (runCleanup_only _ fun _ _ => trivial).bind
    fun _ => Prog.only_raise.ite Prog.only_ret

/-- Everything is attempted, and a failure is a `RuntimeFailure`. -/
theorem effects_failing (s : World × List GatewayEvent) : effects.wp failing.traced (fun _ => True)
    (fun r s' => Attempted s.1 s'.2 ∧ Summarized r) s := by
  have hstopped (child : Option Int) {α : Type} (p : GatewayM α) : p.Keeps failing.traced fun s =>
      ∀ pid, child = some pid → StopAttempted pid s.2 :=
    (Prog.only_trivial p).keeps fun _ _ _ _ _ hs h pid hpid =>
      (hs pid hpid).mono (h.2 ▸ List.subset_cons_self _ _)
  refine Prog.wp_bind.mpr ((getChild_succeeds s).post fun r s _ ⟨child, hr, hself, _⟩ => ?_)
  subst hr
  refine Prog.wp_bind.mpr ((stopChild_succeeds child s).post fun r s _ ⟨failures, hr, hstop⟩ => ?_)
  subst hr
  refine Prog.wp_bind.mpr (((setChild_succeeds s).and (hstopped child _ s hstop)).mono
    (fun _ _ => trivial) fun r s _ ⟨⟨_, hr, _⟩, hstop⟩ => ?_)
  subst hr
  refine Prog.wp_bind.mpr (((runCleanup_succeeds cleanupCommands s).and (hstopped child _ s hstop)).mono
    (fun _ _ => trivial) fun r s _ ⟨⟨more, hr, hcommands⟩, hstop⟩ => ?_)
  subst hr
  dsimp only [Prog.onOk]
  split
  · exact ⟨trivial, ⟨fun pid hpid => hstop pid (hself.trans hpid), hcommands⟩, fun e he => by cases he; rfl⟩
  · exact ⟨trivial, ⟨fun pid hpid => hstop pid (hself.trans hpid), hcommands⟩, nofun⟩

/-- The cleanup attempts everything and reports its failures, or ends with its first step. -/
theorem cleanup_failing (g : Gateway) (w : World) :
    (cleanup g).wp failing.traced (fun _ => True) (fun r s' =>
      Contained s'.2 ∧ Attempted w s'.2 ∧ Summarized r ∨ Abandoned s') (w, []) := by
  rw [cleanup_eq]
  refine Prog.wp_bind.mpr ((writeStopping_failing g w).post fun r s _ hr => ?_)
  cases r with
  | error e => exact .inr hr
  | ok _ =>
    obtain ⟨hchild, hcontained⟩ := hr
    refine ((effects_failing s).and (contained_kept effects_writesNone s hcontained)).mono
      (fun _ _ => trivial) fun r s' _ ⟨⟨hattempted, hsummary⟩, hcontained⟩ => .inl ?_
    exact ⟨hcontained, ⟨fun pid hpid => hattempted.process pid (hchild.trans hpid),
      hattempted.commands⟩, hsummary⟩

/-! ## The callers -/

/-- The failure of a cleanup that attempted everything is ignored. -/
theorem rollback_failing (g : Gateway) (e : Exn) (w : World) :
    (rollback g e).wp failing.traced (fun _ => True)
      (fun r s => Contained s.2 → r = .error e) (w, []) := by
  refine Prog.wp_bind.mpr (Prog.wp_handle.mpr ((cleanup_failing g w).post fun r s _ hr => ?_))
  cases r with
  | ok _ => exact ⟨trivial, fun _ => rfl⟩
  | error failure =>
    change Prog.wp failing.traced _ (if failure.isRuntimeFailure then pure () else throw failure) _ s
    split
    · exact ⟨trivial, trivial, fun _ => rfl⟩
    · next hno =>
      refine ⟨trivial, fun hcontained => ?_⟩
      rcases hr with ⟨-, -, hsummary⟩ | habandoned
      · exact absurd (hsummary failure rfl) hno
      · exact absurd hcontained habandoned.1

/-- The terminal status is the last thing attempted. -/
theorem writeTerminal_failing (g : Gateway) (e : Exn) (message : String)
    (s : World × List GatewayEvent) : (do
      writeStatus g (if e.isTransient then .retrying else .failed) true (some message)
      throw e : GatewayM Unit).wp failing.traced (fun _ => True) (fun r s' => TerminalWritten e r s')
        s := by
  have hready : (if e.isTransient then GatewayState.retrying else .failed) ≠ .ready := by
    split <;> simp
  refine Prog.wp_bind.mpr (Prog.wp_bind.mpr ((getChild_succeeds s).post fun r s _ ⟨child, hr, _⟩ => ?_))
  subst hr
  dsimp only [Prog.onOk]
  rw [if_neg hready]
  refine Prog.wp_handle.mpr (Prog.wp_perform.mpr ⟨trivial, fun written s' hstep => ⟨trivial, ?_⟩⟩)
  obtain ⟨⟨hstep, -⟩, hevents⟩ := hstep
  have hevent : TerminalWritten e (.error e) s' := by
    refine ⟨_, written, _, hevents, stateField_statusValue .., ?_⟩
    rintro rfl
    exact ⟨congrArg World.status (show s'.1 = _ from hstep.answers), rfl⟩
  cases written with
  | ok _ => exact ⟨trivial, hevent⟩
  | error failure =>
    change Prog.wp failing.traced _ (if failure.isOSError && true then pure () else throw failure) _ s'
    split
    · exact ⟨trivial, trivial, hevent⟩
    · exact ⟨trivial, _, _, _, hevents, stateField_statusValue .., nofun⟩

/-- After a cleanup that attempted everything a terminal status is recorded. -/
theorem terminate_failing (g : Gateway) (e : Exn) (w : World) :
    (terminate g e).wp failing.traced (fun _ => True)
      (fun r s => Contained s.2 → TerminalWritten e r s) (w, []) := by
  refine Prog.wp_bind.mpr (Prog.wp_handle.mpr (Prog.wp_bind.mpr ((cleanup_failing g w).post
    fun r s _ hr => ?_)))
  have hwrite (message : String) := writeTerminal_failing g e message s
  cases r with
  | ok _ => exact ⟨trivial, (hwrite _).post fun _ _ _ h _ => h⟩
  | error failure =>
    change Prog.wp failing.traced _ (if failure.isRuntimeFailure then pure (some failure)
      else throw failure) _ s
    split
    · exact ⟨trivial, (hwrite _).post fun _ _ _ h _ => h⟩
    · next hno =>
      refine ⟨trivial, fun hcontained => ?_⟩
      rcases hr with ⟨-, -, hsummary⟩ | habandoned
      · exact absurd (hsummary failure rfl) hno
      · exact absurd hcontained habandoned.1

end

/-- A cleanup attempts every effect and reports its failures as one exactly when its initial status
write raises nothing but an `OSError`; then the error that led to it is raised again, and its status
recorded. -/
theorem cleanup_attemptsAll_iff (g : Gateway) (w : World) :
    (∀ r s, (cleanup g).Returns failing.traced (w, []) r s →
      (Attempted w s.2 ∧ Summarized r ↔ Contained s.2)) ∧
    (∀ e r s, (rollback g e).Returns failing.traced (w, []) r s → Contained s.2 → r = .error e) ∧
    ∀ e r s, (terminate g e).Returns failing.traced (w, []) r s → Contained s.2 →
      TerminalWritten e r s := by
  refine ⟨fun r s h => ?_, fun e r s h => (rollback_failing g e w).returns h,
    fun e r s h => (terminate_failing g e w).returns h⟩
  rcases (cleanup_failing g w).returns h with ⟨hcontained, hattempted, hsummary⟩ | habandoned
  · exact ⟨fun _ => hcontained, fun _ => ⟨hattempted, hsummary⟩⟩
  · refine ⟨fun ⟨hattempted, _⟩ => ?_, fun hcontained => absurd hcontained habandoned.1⟩
    obtain ⟨r, hr⟩ := hattempted.commands .linkDel (by decide)
    cases habandoned.2 _ hr

/-! ## A status that cannot be written -/

/-- A world in which sshuttle runs. -/
def runningWorld : World := { freshWorld with child := some 1 }

/-- The answers in a world where the status write is answered with `written`. -/
def statusHost (written : Except Exn Unit) :
    {β : Type} → GatewayOp β → World → Option (Except Exn β × World)
  | _, .writeStatus value, w => some (written, match written with
    | .ok _ => { w with status := some value }
    | .error _ => w)
  | _, .hang, _ => none
  | _, .run command, w => some (answerRun (fun _ _ => false) command w)
  | _, op, w => some (oracle (fun _ _ => false) op w)

theorem statusHost_step (written : Except Exn Unit)
    (h : ∀ e, written = .error e → e.isException = true) {β : Type} (op : GatewayOp β) (w : World)
    (x : Except Exn β × World) (hx : statusHost written op w = some x) :
    failing.step op w x.1 x.2 := by
  have hrun (command : Command) : ∀ e, (answerRun (fun _ _ => false) command w).1 = .error e →
      e.isException = true := by
    unfold answerRun
    split
    · exact nofun
    · exact nofun
  cases op with
  | writeStatus value =>
    cases hx
    cases written with
    | ok _ => exact ⟨.done rfl, nofun⟩
    | error e => exact ⟨.raised fun _ => rfl, h⟩
  | hang => cases hx
  | run command =>
    cases hx
    exact ⟨step_oracle (fun _ _ => false) (.run command) w, hrun command⟩
  | _ =>
    cases hx
    exact ⟨step_oracle (fun _ _ => false) _ w, nofun⟩

/-- A plain cleanup. -/
theorem cleanup_attemptsAll_plain : ∃ r s,
    (cleanup exampleGateway).Returns failing.traced (runningWorld, []) r s ∧
      Attempted runningWorld s.2 ∧ Summarized r := by
  obtain ⟨r, s, hr, htest⟩ := Prog.exists_returns (s := (runningWorld, []))
    (p := cleanup exampleGateway) (Prog.step_traceHost (statusHost_step (.ok ()) nofun)) 100
    (fun _ s => s.2.all ignored) (by decide +kernel)
  have hiff := (cleanup_attemptsAll_iff exampleGateway runningWorld).1 r s hr
  exact ⟨r, s, hr, hiff.mpr (List.all_eq_true.mp htest)⟩

/-- The runtime directory of the example. -/
def statusTree : Fs.Tree := .ofEntries [([], .dir 0o755), (["run"], .dir 0o700)] (by decide)

/-- No file can be opened, as where a process has too many open files. -/
def exhaustedHost : {β : Type} → Os.OsOp β → Fs.Tree → Option (Except Exn β × Fs.Tree)
  | _, .openRead _, t => some (.error (Os.osError (.other 24)), t)
  | _, op, t => Os.exampleHost.respond op t

theorem exhaustedHost_step {β : Type} (op : Os.OsOp β) (t : Fs.Tree) (x : Except Exn β × Fs.Tree)
    (hx : exhaustedHost op t = some x) : Os.machine.step op t x.1 x.2 := by
  have hanswers := Os.exampleHost.respond_answers op t x
  cases op with
  | openRead p =>
    cases hx
    exact .raised rfl
  | _ => exact .answered (hanswers hx)

def refusedStatus : Exn := .state "cannot create or open private directory: /run"

/-- The outcome is that exception. -/
def isRefused : Except Exn Unit → Bool
  | .error e => e = refusedStatus
  | .ok _ => false

theorem isRefused_iff {r : Except Exn Unit} : isRefused r = true ↔ r = .error refusedStatus := by
  cases r <;> simp [isRefused]

/-- The status write of a cleanup raises a `StateError`, and the cleanup ends with it. -/
theorem cleanup_abandoned : (∃ t, (Files.atomicWriteJson (exampleGateway.runtimeDir / "status.json")
      (statusValue exampleGateway .stopping (some 1) [] none)).Returns Os.machine statusTree
        (.error refusedStatus) t) ∧
    ∃ s, (cleanup exampleGateway).Returns failing.traced (runningWorld, []) (.error refusedStatus) s ∧
      ¬ Attempted runningWorld s.2 ∧ ¬ Summarized (.error refusedStatus) := by
  constructor
  · obtain ⟨r, t, hr, htest⟩ := Prog.exists_returns (s := statusTree)
      (p := Files.atomicWriteJson (exampleGateway.runtimeDir / "status.json")
        (statusValue exampleGateway .stopping (some 1) [] none)) exhaustedHost_step 100
      (fun r _ => isRefused r) (by decide +kernel)
    obtain rfl := isRefused_iff.mp htest
    exact ⟨t, hr⟩
  · obtain ⟨r, s, hr, htest⟩ := Prog.exists_returns (s := (runningWorld, []))
      (p := cleanup exampleGateway) (Prog.step_traceHost (statusHost_step
        (.error refusedStatus) fun e he => by cases he; rfl)) 100
      (fun r _ => isRefused r) (by decide +kernel)
    · obtain rfl := isRefused_iff.mp htest
      have hsummary : ¬ Summarized (.error refusedStatus) := fun h => by cases h _ rfl
      refine ⟨s, hr, fun hattempted => ?_, hsummary⟩
      rcases (cleanup_failing exampleGateway runningWorld).returns hr with ⟨-, -, h⟩ | habandoned
      · exact hsummary h
      · obtain ⟨answer, hrun⟩ := hattempted.commands .linkDel (by decide)
        cases habandoned.2 _ hrun

end Runtime
end ShuttleGate
