import ShuttleGate.Runtime.Ready

/-! # The status a run ends with

A run of the gateway that has ended has recorded how, unless its last cleanup was disturbed: on
the way out after a stop request every failed cleanup step leaves `stopping` behind, and on the
error path only an interruption does (`terminalStatus_iff`). -/

namespace ShuttleGate

open Nft Effect

namespace Runtime

/-! ## Disturbances -/

/-- The answer to a wait that says a stop has been requested. -/
def stopRequested : GatewayEvent → Bool
  | ⟨.waitStop, .ok stop⟩ => stop
  | _ => false

def raised (e : GatewayEvent) : Bool := !e.result.isOk

/-- The operation was interrupted. -/
def interrupted (e : GatewayEvent) : Bool :=
  match e.result with
  | .error x => !x.isException
  | .ok _ => false

/-- The wait for the process to end has timed out. -/
def timedOut : GatewayEvent → Bool
  | ⟨.wait _ _, .error .expired⟩ => true
  | _ => false

def killed : GatewayEvent → Bool
  | ⟨.kill _, _⟩ => true
  | _ => false

/-- The events since the stop request. -/
def sinceStop (es : List GatewayEvent) : List GatewayEvent := es.takeWhile (!stopRequested ·)

/-- Nothing has failed but the wait that `kill` answers. -/
def Smooth : List GatewayEvent → Prop
  | [] => True
  | e :: older =>
    (raised e = true → timedOut e = true ∧ ∀ k ∈ older, killed k = false) ∧ Smooth older

/-- The last operation was interrupted. -/
def Interrupted (es : List GatewayEvent) : Prop := ∃ e older, es = e :: older ∧ interrupted e = true

/-- The run was not interrupted for good, and after a stop request no cleanup step failed. -/
def Undisturbed (es : List GatewayEvent) : Prop :=
  ¬ Interrupted es ∧ ((∃ e ∈ es, stopRequested e = true) → Smooth (sinceStop es))

def terminalStates : List String :=
  [GatewayState.stopped.text, GatewayState.failed.text, GatewayState.retrying.text]

/-- The last status is terminal, and it is the one the outcome calls for. -/
def Truthful (r : Except Exn Int) (es : List GatewayEvent) : Prop :=
  (∃ state ∈ terminalStates, lastState es = some state) ∧
    (lastState es = some GatewayState.stopped.text ↔ r = .ok 0) ∧
    (lastState es = some GatewayState.retrying.text ↔
      (∃ e, r = .error e ∧ e.isTransient = true) ∧ runtimeCommand r = 75)

/-- No terminal status has been written. -/
def Open (es : List GatewayEvent) : Prop := ∀ state ∈ terminalStates, lastState es ≠ some state

theorem Open.not_truthful (h : Open es) : ¬ Truthful r es :=
  fun ⟨⟨state, hs, he⟩, _⟩ => h state hs he

/-! ## Events of a program -/

/-- An operation that writes no terminal status and does not ask for a stop request. -/
def Ongoing : GatewayOp β → Prop
  | .writeStatus value => ∀ state ∈ terminalStates, stateField value ≠ some state
  | .waitStop => False
  | _ => True

/-- No stop has been requested and no terminal status been written. -/
def Unstopped (es : List GatewayEvent) : Prop := Open es ∧ ∀ e ∈ es, stopRequested e = false

theorem Ongoing.open {op : GatewayOp β} (h : Ongoing op) (r : Except Exn β) (hes : Open es) :
    Open (⟨op, r⟩ :: es) := by
  cases op with
  | writeStatus value =>
    cases r with
    | ok _ => exact h
    | error e => exact hes
  | _ => exact hes

theorem Ongoing.not_stop {op : GatewayOp β} (h : Ongoing op) (r : Except Exn β) :
    stopRequested ⟨op, r⟩ = false := by
  cases op with
  | waitStop => exact h.elim
  | _ => rfl

theorem Ongoing.sinceStop {op : GatewayOp β} (h : Ongoing op) (r : Except Exn β)
    (es : List GatewayEvent) : sinceStop (⟨op, r⟩ :: es) = ⟨op, r⟩ :: sinceStop es := by
  simp [Runtime.sinceStop, h.not_stop r]

theorem ongoing_open {p : GatewayM α} (hp : p.Only Ongoing) : p.Keeps writing.log Open :=
  hp.keeps fun _ _ r _ hop hs h => log_step h ▸ hop.open r hs

theorem ongoing_unstopped {p : GatewayM α} (hp : p.Only Ongoing) :
    p.Keeps writing.log Unstopped :=
  hp.keeps fun op es r es' hop hs h => by
    obtain rfl := log_step h
    exact ⟨hop.open r hs.1, List.forall_mem_cons.mpr ⟨hop.not_stop r, hs.2⟩⟩

/-- What has failed since the stop request stays failed. -/
theorem ongoing_disturbed {p : GatewayM α} (hp : p.Only Ongoing) :
    p.Keeps writing.log fun es => ¬ Smooth (sinceStop es) :=
  hp.keeps fun op es r es' hop hs h => by
    obtain rfl := log_step h
    rw [hop.sinceStop]
    exact fun hsmooth => hs hsmooth.2

theorem ongoing_of_quiet {op : GatewayOp β} (h : op.Quiet) : Ongoing op := by
  cases op with
  | writeStatus value => exact h.elim
  | waitStop => exact h.elim
  | _ => trivial

section
variable (g : Gateway)

theorem writeStatus_ongoing {state : GatewayState} (h : state.text ∉ terminalStates)
    (ignoreErrors : Bool) (error : Option String) :
    (writeStatus g state ignoreErrors error).Only Ongoing := by
  unfold writeStatus
  refine (Prog.only_perform.mpr trivial).bind fun child => ?_
  have write (peers : List Json) : (tryCatch
      (Prog.perform (.writeStatus (statusValue g state child peers error))) fun e =>
        if e.isOSError && ignoreErrors then pure () else throw e : GatewayM Unit).Only Ongoing := by
    refine Prog.Only.handle (Prog.only_perform.mpr fun s hs he => h ?_) fun e => ?_
    · rw [stateField_statusValue] at he
      exact Option.some.inj he ▸ hs
    · split <;> simp
  split
  · exact ((peerStatus_quiet g).mono fun _ => ongoing_of_quiet).bind write
  · exact Prog.only_ret.bind write

theorem stopProcess_ongoing (child : Option Int) : (stopProcess child).Only Ongoing :=
  stopProcess_only (fun _ => ⟨trivial, trivial, trivial, fun _ => trivial⟩) child

theorem cleanup_ongoing : (cleanup g).Only Ongoing :=
  (writeStatus_ongoing g (by decide) _ _).bind fun _ => (Prog.only_perform.mpr trivial).bind
    fun child => (attempt_only (stopProcess_ongoing child)).bind fun _ =>
    (Prog.only_perform.mpr trivial).bind fun _ => (runCleanup_only _ fun _ _ => trivial).bind
    fun _ => Prog.only_raise.ite Prog.only_ret

end

/-! ## The error path -/

/-- Only an interruption is raised by an operation that cannot fail. -/
theorem interrupted_of_step {op : GatewayOp β} (h : writing.log.step op es (.error e) es')
    (he : e.isException = true → op.fallible = false) : Interrupted es' := by
  obtain ⟨⟨_, _, hstep, -⟩, rfl⟩ := h
  refine ⟨_, _, rfl, ?_⟩
  cases hstep with
  | raised h =>
    by_cases hx : e.isException = true
    · cases (h hx).symm.trans (he hx)
    · simpa [interrupted] using hx
  | interrupted _ => rfl

/-- An interruption among the exceptions of the program is its last event. -/
abbrev Prompt (e : Exn) (es : List GatewayEvent) : Prop := e.isException = false → Interrupted es

theorem perform_prompt (op : GatewayOp β) (es : List GatewayEvent) :
    (Prog.perform op : GatewayM β).Throws writing.log Prompt es :=
  Prog.throws_perform fun e _ h he => interrupted_of_step h (by simp [he])

theorem perform_interrupted (op : GatewayOp β) (h : op.fallible = false) (es : List GatewayEvent) :
    (Prog.perform op : GatewayM β).Throws writing.log (fun _ => Interrupted) es :=
  Prog.throws_perform fun _ _ hs => interrupted_of_step hs fun _ => h

theorem run_prompt (command : Command) (check : Bool) (es : List GatewayEvent) :
    (run command check).Throws writing.log Prompt es := by
  refine Prog.throws_bind (perform_prompt _ es) fun result es => ?_
  exact Prog.throws_ite (fun _ => Prog.throws_raise nofun) fun _ => Prog.throws_ret

theorem stopProcess_prompt : ∀ (child : Option Int) (es : List GatewayEvent),
    (stopProcess child).Throws writing.log Prompt es
  | none, _ => Prog.throws_ret
  | some pid, es => by
    refine Prog.throws_bind (perform_prompt _ es) fun code es => ?_
    refine Prog.throws_ite (fun _ => Prog.throws_ret) fun _ => ?_
    refine Prog.throws_bind (perform_prompt _ es) fun _ es => ?_
    refine Prog.throws_handle (perform_prompt _ es) fun e es he => ?_
    exact Prog.throws_ite (fun _ => Prog.throws_bind (perform_prompt _ es) fun _ es =>
      perform_prompt _ es) fun _ => Prog.throws_raise he

/-- An attempt ends with an exception only when it is interrupted. -/
theorem attempt_throws {p : GatewayM Unit} (h : p.Throws writing.log Prompt es) :
    (attempt p).Throws writing.log (fun _ => Interrupted) es := by
  refine Prog.throws_handle (Prog.throws_bind h fun _ _ => Prog.throws_ret) fun e es he => ?_
  exact Prog.throws_ite (fun _ => Prog.throws_ret)
    fun hx => Prog.throws_raise (he (Bool.eq_false_iff.mpr hx))

theorem runCleanup_throws : ∀ (commands : List Command) (es : List GatewayEvent),
    (runCleanup commands).Throws writing.log (fun _ => Interrupted) es
  | [], _ => Prog.throws_ret
  | command :: rest, es => by
    refine Prog.throws_bind (attempt_throws (Prog.throws_bind (run_prompt command false es)
      fun _ _ => Prog.throws_ret)) fun _ es => ?_
    exact Prog.throws_bind (runCleanup_throws rest es) fun _ _ => Prog.throws_ret

/-- A status write that cannot fail is at most interrupted, and then has not been made. -/
theorem writeStatus_throws (g : Gateway) {state : GatewayState} (h : state ≠ .ready)
    (ignoreErrors : Bool) (error : Option String) (es : List GatewayEvent) :
    (writeStatus g state ignoreErrors error).Throws writing.log
      (fun _ => Interrupted) es := by
  refine Prog.throws_bind (perform_interrupted _ rfl es) fun child es => ?_
  rw [if_neg h]
  exact write_wp trivial trivial nofun

theorem cleanup_throws (g : Gateway) (es : List GatewayEvent) :
    (cleanup g).Throws writing.log
      (fun e es => e.isRuntimeFailure = true ∨ Interrupted es) es := by
  have interrupted {α : Type} {p : GatewayM α} {es : List GatewayEvent}
      (h : p.Throws writing.log (fun _ => Interrupted) es) :
      p.Throws writing.log (fun e es => e.isRuntimeFailure = true ∨ Interrupted es) es :=
    h.mono fun _ _ => .inr
  refine Prog.throws_bind (interrupted (writeStatus_throws g (by simp) _ _ es)) fun _ es => ?_
  refine Prog.throws_bind (interrupted (perform_interrupted _ rfl es)) fun child es => ?_
  refine Prog.throws_bind (interrupted (attempt_throws (stopProcess_prompt child es)))
    fun _ es => ?_
  refine Prog.throws_bind (interrupted (perform_interrupted _ rfl es)) fun _ es => ?_
  refine Prog.throws_bind (interrupted (runCleanup_throws _ es)) fun _ es => ?_
  exact Prog.throws_ite (fun _ => Prog.throws_raise (.inl rfl)) fun _ => Prog.throws_ret

/-- Any other status than `ready`: written at the end, or interrupted before. -/
theorem writeStatus_wp (g : Gateway) {state : GatewayState} (h : state ≠ .ready)
    (ignoreErrors : Bool) (error : Option String) {K : List GatewayEvent → Prop}
    (hK : (Prog.perform .getChild : GatewayM (Option Int)).Keeps writing.log K)
    {es : List GatewayEvent} (hes : K es) :
    (writeStatus g state ignoreErrors error).wp writing.log (fun _ => True) (fun r es' =>
      match r with
      | .ok _ => lastState es' = some state.text ∧ ¬ Interrupted es'
      | .error _ => Interrupted es' ∧ K es') es := by
  have hchild := (perform_interrupted .getChild rfl es).and (hK es hes)
  refine Prog.wp_bind.mpr (hchild.mono (fun _ _ => trivial) fun r es' _ hr => ?_)
  cases r with
  | error e => exact ⟨hr.1 e rfl, hr.2⟩
  | ok child =>
    dsimp only [Prog.onOk]
    rw [if_neg h]
    refine write_wp trivial trivial ⟨rfl, ?_⟩
    rintro ⟨e, older, he, hi⟩
    cases he
    cases hi

/-- The outcome of the error path: interrupted, or with the status of the exception. -/
theorem terminate_wp (g : Gateway) (e : Exn) {es : List GatewayEvent} (h : Unstopped es) :
    (terminate g e).wp writing.log (fun _ => True) (fun r es' => ∃ e', r = .error e' ∧
      (∀ x ∈ es', stopRequested x = false) ∧ ((Interrupted es' ∧ Open es') ∨ ¬ Interrupted es' ∧
        e' = e ∧ lastState es' = some
          (if e.isTransient then GatewayState.retrying else .failed).text)) es := by
  have hcleanup : (tryCatch (do cleanup g; pure none) fun failure =>
      if failure.isRuntimeFailure then pure (some failure) else throw failure :
        GatewayM (Option Exn)).Throws writing.log (fun _ => Interrupted) es := by
    refine Prog.throws_handle (Prog.throws_bind (cleanup_throws g es) fun _ _ => Prog.throws_ret)
      fun failure es hf => ?_
    exact Prog.throws_ite (fun _ => Prog.throws_ret) fun hn =>
      Prog.throws_raise (hf.resolve_left hn)
  have honly : (tryCatch (do cleanup g; pure none) fun failure =>
      if failure.isRuntimeFailure then pure (some failure) else throw failure :
        GatewayM (Option Exn)).Only Ongoing := by
    refine Prog.Only.handle ((cleanup_ongoing g).bind fun _ => Prog.only_ret) fun failure => ?_
    exact Prog.only_ret.ite Prog.only_raise
  refine Prog.wp_bind.mpr ((hcleanup.and (ongoing_unstopped honly es h)).mono
    (fun _ _ => trivial) fun r es _ hr => ?_)
  cases r with
  | error e' => exact ⟨e', rfl, hr.2.2, .inl ⟨hr.1 e' rfl, hr.2.1⟩⟩
  | ok failure =>
    have hne : (if e.isTransient then GatewayState.retrying else .failed) ≠ .ready := by
      split <;> simp
    have hgetChild : (Prog.perform .getChild : GatewayM (Option Int)).Keeps writing.log Unstopped :=
      ongoing_unstopped (Prog.only_perform.mpr trivial)
    -- the write itself is no stop request either
    have hstop : ∀ error, (writeStatus g (if e.isTransient then GatewayState.retrying else .failed)
        true error).Keeps writing.log fun es => ∀ x ∈ es, stopRequested x = false := by
      intro error
      have hop : (writeStatus g (if e.isTransient then GatewayState.retrying else .failed)
          true error).Only fun op => ∀ r, stopRequested ⟨op, r⟩ = false := by
        unfold writeStatus
        refine (Prog.only_perform.mpr fun _ => rfl).bind fun child => ?_
        rw [if_neg hne]
        refine Prog.only_ret.bind fun peers => Prog.Only.handle (Prog.only_perform.mpr fun _ => rfl)
          fun e => ?_
        split <;> simp
      exact hop.keeps fun op es r es' hop hs hstep => by
        obtain rfl := log_step hstep
        exact List.forall_mem_cons.mpr ⟨hop r, hs⟩
    refine Prog.wp_bind.mpr (((writeStatus_wp g hne true _ hgetChild hr.2).and
      (hstop _ es hr.2.2)).mono (fun _ _ => trivial) fun r es _ hr => ?_)
    cases r with
    | error e' => exact ⟨e', rfl, hr.2, .inl ⟨hr.1.1, hr.1.2.1⟩⟩
    | ok _ => exact ⟨trivial, e, rfl, hr.2, .inr ⟨hr.1.2, rfl, hr.1.1⟩⟩

/-! ## The way out after a stop request -/

/-- The program returns exactly when nothing has failed. -/
abbrev Faithful (r : Except Exn α) (es : List GatewayEvent) : Prop :=
  r.isOk = true ↔ Smooth (sinceStop es)

section
variable {es : List GatewayEvent}

theorem faithful_ret (h : Smooth (sinceStop es)) :
    (Prog.ret a : GatewayM α).wp writing.log (fun _ => True) Faithful es :=
  ⟨trivial, fun _ => h, fun _ => rfl⟩

theorem faithful_bind {p : GatewayM α} {f : α → GatewayM β}
    (hp : p.wp writing.log (fun _ => True) Faithful es)
    (hf : ∀ a es, Smooth (sinceStop es) → (f a).wp writing.log (fun _ => True) Faithful es) :
    (p.bind f).wp writing.log (fun _ => True) Faithful es := by
  refine Prog.wp_bind.mpr (hp.post fun r es _ hr => ?_)
  cases r with
  | ok a => exact hf a es (hr.mp rfl)
  | error e => exact ⟨nofun, fun h => nomatch hr.mpr h⟩

/-- An operation whose failure is one. -/
theorem faithful_perform (op : GatewayOp β) (ho : Ongoing op)
    (hf : ∀ e, timedOut ⟨op, .error e⟩ = true → ∃ k ∈ sinceStop es, killed k = true)
    (h : Smooth (sinceStop es)) :
    (Prog.perform op : GatewayM β).wp writing.log (fun _ => True) Faithful es := by
  refine Prog.wp_perform.mpr ⟨trivial, fun r es' hs => ⟨trivial, ?_⟩⟩
  obtain rfl := log_step hs
  rw [Faithful, ho.sinceStop]
  cases r with
  | ok a => exact ⟨fun _ => ⟨nofun, h⟩, fun _ => rfl⟩
  | error e =>
    refine ⟨nofun, fun hsmooth => ?_⟩
    obtain ⟨ht, hk⟩ := hsmooth.1 rfl
    obtain ⟨k, hk', hkilled⟩ := hf e ht
    exact absurd hkilled (by simp [hk k hk'])

theorem faithful_run (command : Command) (h : Smooth (sinceStop es)) :
    (run command false).wp writing.log (fun _ => True) Faithful es :=
  faithful_bind (faithful_perform _ trivial nofun h) fun _ _ h => faithful_ret h

/-- No process has been killed since the stop request. -/
def Unkilled (es : List GatewayEvent) : Prop := ∀ k ∈ sinceStop es, killed k = false

def Gentle (op : GatewayOp β) : Prop := Ongoing op ∧ ∀ r, killed ⟨op, r⟩ = false

theorem unkilled_keeps {p : GatewayM α} (hp : p.Only Gentle) : p.Keeps writing.log Unkilled :=
  hp.keeps fun op es r es' hop hs hstep => by
    obtain rfl := log_step hstep
    rw [Unkilled, hop.1.sinceStop]
    exact List.forall_mem_cons.mpr ⟨hop.2 r, hs⟩

/-- A gentle operation whose failure is one, before others. -/
theorem faithful_gentle {op : GatewayOp β} {f : β → GatewayM α} (hop : Gentle op)
    (ht : ∀ r, timedOut ⟨op, r⟩ = false) (h : Smooth (sinceStop es)) (hk : Unkilled es)
    (hf : ∀ a es, Smooth (sinceStop es) → Unkilled es →
      (f a).wp writing.log (fun _ => True) Faithful es) :
    ((Prog.perform op).bind f).wp writing.log (fun _ => True) Faithful es := by
  have hop' := (faithful_perform _ hop.1 (fun e he => by simp [ht] at he) h).and
    (unkilled_keeps (Prog.only_perform.mpr hop) es hk)
  refine Prog.wp_bind.mpr (hop'.mono (fun _ _ => trivial) fun r es _ hr => ?_)
  cases r with
  | ok a => exact hf a es (hr.1.mp rfl) hr.2
  | error e => exact ⟨nofun, fun h => nomatch hr.1.mpr h⟩

/-- The process is stopped without a failure; a first wait that times out is none. -/
theorem stopProcess_faithful (child : Option Int) (h : Smooth (sinceStop es))
    (hk : Unkilled es) : (stopProcess child).wp writing.log (fun _ => True) Faithful es := by
  cases child with
  | none => exact faithful_ret h
  | some pid =>
    refine faithful_gentle ⟨trivial, fun _ => rfl⟩ (fun _ => rfl) h hk fun code es h hk => ?_
    split
    · exact faithful_ret h
    refine faithful_gentle ⟨trivial, fun _ => rfl⟩ (fun _ => rfl) h hk fun _ es h hk => ?_
    refine Prog.wp_handle.mpr (Prog.wp_perform.mpr ⟨trivial, fun r es' hs => ⟨trivial, ?_⟩⟩)
    obtain rfl := log_step hs
    have hwait : Ongoing (.wait pid 10) := trivial
    cases r with
    | ok _ =>
      rw [Prog.onError, Faithful, hwait.sinceStop]
      exact ⟨fun _ => ⟨(fun he => by cases he), h⟩, fun _ => rfl⟩
    | error e =>
      dsimp only [Prog.onError]
      split
      · rename_i he
        subst he
        -- the process is killed and must end now
        have hsmooth : Smooth (sinceStop (⟨.wait pid 10, .error .expired⟩ :: es)) := by
          rw [hwait.sinceStop]
          exact ⟨fun _ => ⟨rfl, hk⟩, h⟩
        refine Prog.wp_bind.mpr (Prog.wp_perform.mpr ⟨trivial, fun r es' hs => ⟨trivial, ?_⟩⟩)
        obtain rfl := log_step hs
        have hkill : Ongoing (.kill pid) := trivial
        cases r with
        | error e =>
          refine ⟨(fun he => by cases he), fun hs => ?_⟩
          rw [hkill.sinceStop] at hs
          cases (hs.1 rfl).1
        | ok _ =>
          refine faithful_perform _ hwait (fun e _ => ⟨⟨.kill pid, .ok ()⟩, ?_, rfl⟩) ?_
          · rw [hkill.sinceStop]
            exact List.mem_cons_self
          · rw [hkill.sinceStop]
            exact ⟨(fun he => by cases he), hsmooth⟩
      · rename_i he
        refine ⟨trivial, (fun he => by cases he), fun hs => ?_⟩
        rw [hwait.sinceStop] at hs
        have ht := (hs.1 rfl).1
        cases e <;> first | exact absurd rfl he | cases ht

/-- Attempts collect what has failed. -/
abbrev Collected (r : Except Exn (List Exn)) (es : List GatewayEvent) : Prop :=
  match r with
  | .ok failures => failures = [] ↔ Smooth (sinceStop es)
  | .error _ => ¬ Smooth (sinceStop es)

theorem attempt_collected {p : GatewayM Unit}
    (hp : p.wp writing.log (fun _ => True) Faithful es) :
    (attempt p).wp writing.log (fun _ => True) Collected es := by
  refine Prog.wp_handle.mpr (Prog.wp_bind.mpr (hp.post fun r es _ hr => ?_))
  cases r with
  | ok _ => exact ⟨trivial, fun _ => hr.mp rfl, fun _ => rfl⟩
  | error e =>
    have hn : ¬ Smooth (sinceStop es) := fun h => nomatch hr.mpr h
    simp only [Prog.onOk_error, Prog.onError_error]
    split
    · exact ⟨trivial, nofun, fun h => absurd h hn⟩
    · exact ⟨trivial, hn⟩

theorem runCleanup_collected (commands : List Command) (h : Smooth (sinceStop es)) :
    (runCleanup commands).wp writing.log (fun _ => True) Collected es := by
  induction commands generalizing es with
  | nil => exact ⟨trivial, fun _ => h, fun _ => rfl⟩
  | cons command rest ih =>
    have hrun : (do let _ ← run command false : GatewayM Unit).wp writing.log (fun _ => True)
        Faithful es := faithful_bind (faithful_run command h) fun _ _ h => faithful_ret h
    refine Prog.wp_bind.mpr ((attempt_collected hrun).post fun r es _ hr => ?_)
    cases r with
    | error e => exact hr
    | ok failure =>
      by_cases hs : Smooth (sinceStop es)
      · obtain rfl := hr.mpr hs
        refine Prog.wp_bind.mpr ((ih hs).post fun r es _ hr => ?_)
        cases r with
        | error e => exact hr
        | ok failures => exact ⟨trivial, hr⟩
      · -- a failure stays one
        have hne : failure ≠ [] := fun he => hs (hr.mp he)
        refine Prog.wp_bind.mpr ((ongoing_disturbed (runCleanup_only rest fun _ _ => trivial) es
          hs).mono (fun _ _ => trivial) fun r es _ hn => ?_)
        cases r with
        | error e => exact hn
        | ok failures => exact ⟨trivial, fun he => absurd (List.append_eq_nil_iff.mp he).1 hne,
            fun h => absurd h hn⟩

theorem cleanup_faithful (g : Gateway) (h : Smooth (sinceStop es)) (hk : Unkilled es) :
    (cleanup g).wp writing.log (fun _ => True) Faithful es := by
  have hstatus : (writeStatus g .stopping true).wp writing.log (fun _ => True)
      (fun r es => Faithful r es ∧ Unkilled es) es := by
    have hgentle : Gentle .getChild := ⟨trivial, fun _ => rfl⟩
    refine Prog.wp_bind.mpr (((faithful_perform _ hgentle.1 nofun h).and
      (unkilled_keeps (Prog.only_perform.mpr hgentle) es hk)).mono
      (fun _ _ => trivial) fun r es _ hr => ?_)
    cases r with
    | error e => exact ⟨⟨nofun, fun h => nomatch hr.1.mpr h⟩, hr.2⟩
    | ok child =>
      have hwrite : Ongoing (.writeStatus (statusValue g .stopping child [] none)) := by
        intro state hs he
        rw [stateField_statusValue] at he
        exact absurd (Option.some.inj he ▸ hs) (by decide)
      dsimp only [Prog.onOk]
      rw [if_neg (by simp)]
      refine write_wp trivial trivial ⟨?_, ?_⟩
      · rw [Faithful, hwrite.sinceStop]
        exact ⟨fun _ => ⟨nofun, hr.1.mp rfl⟩, fun _ => rfl⟩
      · rw [Unkilled, hwrite.sinceStop]
        exact List.forall_mem_cons.mpr ⟨rfl, hr.2⟩
  refine Prog.wp_bind.mpr (hstatus.post fun r es _ hr => ?_)
  cases r with
  | error e => exact ⟨nofun, fun h => nomatch hr.1.mpr h⟩
  | ok _ =>
  refine faithful_gentle ⟨trivial, fun _ => rfl⟩ (fun _ => rfl) (hr.1.mp rfl) hr.2
    fun child es h hk => ?_
  refine Prog.wp_bind.mpr ((attempt_collected (stopProcess_faithful child h hk)).post
    fun r es _ hr => ?_)
  cases r with
  | error e => exact ⟨nofun, fun h => absurd h hr⟩
  | ok stopFailures =>
  by_cases hs : Smooth (sinceStop es)
  · obtain rfl := hr.mpr hs
    refine faithful_bind (faithful_perform (.setChild none) trivial nofun hs)
      fun _ es hs => ?_
    refine Prog.wp_bind.mpr ((runCleanup_collected _ hs).post fun r es _ hr => ?_)
    cases r with
    | error e => exact ⟨nofun, fun h => absurd h hr⟩
    | ok failures =>
      dsimp only [Prog.onOk, List.nil_append]
      split
      · rename_i hne
        exact ⟨trivial, nofun, fun h => absurd (hr.mpr h) hne⟩
      · rename_i hnil
        exact faithful_ret (hr.mp (not_not.mp hnil))
  · -- stopping the process has failed, so the cleanup fails
    have hne : stopFailures ≠ [] := fun he => hs (hr.mp he)
    have honly : (Prog.perform (.setChild none) : GatewayM Unit).Only Ongoing :=
      Prog.only_perform.mpr trivial
    refine Prog.wp_bind.mpr ((ongoing_disturbed honly es hs).mono (fun _ _ => trivial)
      fun r es _ hs => ?_)
    cases r with
    | error e => exact ⟨nofun, fun h => absurd h hs⟩
    | ok _ =>
    refine Prog.wp_bind.mpr ((ongoing_disturbed (runCleanup_only _ fun _ _ => trivial) es
      hs).mono (fun _ _ => trivial) fun r es _ hs => ?_)
    cases r with
    | error e => exact ⟨nofun, fun h => absurd h hs⟩
    | ok failures =>
      dsimp only [Prog.onOk]
      rw [if_pos (fun he => hne (List.append_eq_nil_iff.mp he).1)]
      exact ⟨trivial, nofun, fun h => absurd h hs⟩

end

/-! ## Every run -/

section
variable (g : Gateway) (fuel : Nat)

theorem bringUp_ongoing : (bringUp g fuel).Only Ongoing := by
  have quiet {α : Type} {p : GatewayM α} (hp : p.Only GatewayOp.Quiet) : p.Only Ongoing :=
    hp.mono fun _ => ongoing_of_quiet
  have command (c : Command) (check : Bool) : (run c check).Only Ongoing := run_only trivial
  have unit (c : Command) (check : Bool) : (do let _ ← run c check : GatewayM Unit).Only Ongoing :=
    (command c check).bind fun _ => Prog.only_ret
  refine (quiet (configureNamespace_quiet g)).bind fun _ => Prog.Only.bind ?_ fun _ => ?_
  · refine (quiet (remotePythonCheck_quiet g)).handle fun e => ?_
    split <;> exact Prog.only_raise
  refine (command _ _).bind fun _ => (command _ _).bind fun _ => ?_
  have hwireguard : (setupWireguard g).Only Ongoing :=
    (command _ _).bind fun _ => (command _ _).bind fun _ =>
    (Prog.only_forEach (fun _ => unit _ _) _).bind fun _ =>
    (Prog.only_perform.mpr trivial).bind fun _ => (loadKeys_only (fun _ => trivial) _).bind
    fun _ => (Prog.only_ofExcept _).bind fun _ => (Prog.only_perform.mpr trivial).bind fun _ =>
    (command _ _).bind fun _ => unit _ _
  have hrouting : (setupPolicyRouting g).Only Ongoing := Prog.only_forEach (fun _ =>
    (command _ _).bind fun _ => (command _ _).bind fun _ => unit _ _) _
  exact hwireguard.bind fun _ => hrouting.bind fun _ =>
    (quiet (startSshuttle_quiet g fuel)).bind fun _ => (unit _ _).bind fun _ =>
    (quiet verifyPostconditions_quiet).bind fun _ => writeStatus_ongoing g (by decide) _ _

theorem start_ongoing : (start g fuel).Only Ongoing := by
  refine (Prog.only_perform.mpr trivial).bind fun _ => (cleanup_ongoing g).bind fun _ => ?_
  refine (writeStatus_ongoing g (by decide) _ _).bind fun _ => ?_
  exact (bringUp_ongoing g fuel).handle fun e =>
    (suppress_only (cleanup_ongoing g)).bind fun _ => Prog.only_raise

/-- The supervision ends with a stop request or by an exception. -/
theorem supervise_stops {es : List GatewayEvent} (h : Unstopped es) :
    (supervise g fuel).wp writing.log (fun _ => True) (fun r es => match r with
      | .ok _ => ∃ older, es = ⟨.waitStop, .ok true⟩ :: older ∧ Open older
      | .error _ => Unstopped es) es := by
  induction fuel generalizing es with
  | zero =>
    refine Prog.wp_perform.mpr ⟨trivial, fun r es' hs => ⟨trivial, ?_⟩⟩
    obtain ⟨⟨_, _, hstep, -⟩, rfl⟩ := hs
    cases r with
    | ok _ =>
      cases hstep
      contradiction
    | error e => exact ⟨h.1, List.forall_mem_cons.mpr ⟨rfl, h.2⟩⟩
  | succ fuel ih =>
    refine Prog.wp_bind.mpr (Prog.wp_perform.mpr ⟨trivial, fun r es' hs => ⟨trivial, ?_⟩⟩)
    obtain rfl := log_step hs
    cases r with
    | error e => exact ⟨h.1, List.forall_mem_cons.mpr ⟨rfl, h.2⟩⟩
    | ok stop =>
    cases stop with
    | true => exact ⟨trivial, es, rfl, h.1⟩
    | false =>
      have h : Unstopped (⟨.waitStop, .ok false⟩ :: es) :=
        ⟨h.1, List.forall_mem_cons.mpr ⟨rfl, h.2⟩⟩
      have keeps {α : Type} {p : GatewayM α} (hp : p.Only Ongoing) := ongoing_unstopped hp
      refine Prog.wp_bind_keeps (keeps (Prog.only_perform.mpr trivial)) (Prog.yields_trivial _ _)
        h (fun _ _ => trivial) (fun _ _ h => h) fun child es h _ => ?_
      cases child with
      | none => exact ⟨trivial, h⟩
      | some pid =>
        refine Prog.wp_bind_keeps (keeps (Prog.only_perform.mpr trivial))
          (Prog.yields_trivial _ _) h (fun _ _ => trivial) (fun _ _ h => h) fun code es h _ => ?_
        split
        · exact ⟨trivial, h⟩
        · exact Prog.wp_bind_keeps (keeps (writeStatus_ongoing g (by decide) _ _))
            (Prog.yields_trivial _ _) h (fun _ _ => trivial) (fun _ _ h => h)
            fun _ es h _ => ih h

/-- After a stop request the run returns with `stopped`, or something has failed. -/
theorem shutdown_wp {older : List GatewayEvent} (h : Open older) :
    (do cleanup g; writeStatus g .stopped true; return 0 : GatewayM Int).wp writing.log
      (fun _ => True) (fun r es => (∃ e ∈ es, stopRequested e = true) ∧ ((r = .ok 0 ∧
        lastState es = some GatewayState.stopped.text ∧ ¬ Interrupted es ∧
        Smooth (sinceStop es)) ∨ (∃ e, r = .error e) ∧ Open es ∧ ¬ Smooth (sinceStop es)))
      (⟨.waitStop, .ok true⟩ :: older) := by
  have hclean : (cleanup g).wp writing.log (fun _ => True) Faithful
      (⟨.waitStop, .ok true⟩ :: older) :=
    cleanup_faithful g trivial fun _ hk => absurd hk List.not_mem_nil
  have stays {α : Type} {p : GatewayM α} :
      p.Keeps writing.log fun es => ∃ e ∈ es, stopRequested e = true :=
    (Prog.only_trivial p).keeps fun op es r es' _ ⟨e, he, hs⟩ hstep => by
      obtain rfl := log_step hstep
      exact ⟨e, List.mem_cons_of_mem _ he, hs⟩
  refine (Prog.wp.and (J := fun _ => True) (stays _ ⟨_, List.mem_cons_self, rfl⟩) ?_).mono (fun _ _ => trivial)
    fun _ _ _ h => h
  refine Prog.wp_bind.mpr ((hclean.and
    (ongoing_open (cleanup_ongoing g) _ h)).mono (fun _ _ => trivial) fun r es _ hr => ?_)
  cases r with
  | error e => exact .inr ⟨⟨e, rfl⟩, hr.2, fun h => nomatch hr.1.mpr h⟩
  | ok _ =>
  have hsmooth := hr.1.mp rfl
  have hop : Ongoing .getChild := trivial
  have hchild := (faithful_perform _ hop nofun hsmooth).and
    (ongoing_open (Prog.only_perform.mpr hop) _ hr.2)
  refine Prog.wp_bind.mpr (Prog.wp_bind.mpr (hchild.mono (fun _ _ => trivial)
    fun r es _ hr => ?_))
  cases r with
  | error e => exact .inr ⟨⟨e, rfl⟩, hr.2, fun h => nomatch hr.1.mpr h⟩
  | ok child =>
    dsimp only [Prog.onOk]
    rw [if_neg (by simp)]
    refine write_wp trivial trivial ⟨trivial, .inl ⟨rfl, rfl, ?_, ?_⟩⟩
    · rintro ⟨e, older, he, hi⟩
      cases he
      cases hi
    · exact ⟨nofun, hr.1.mp rfl⟩

end

/-- How a run that raises ends. -/
def RaisedEnd (e : Exn) (es : List GatewayEvent) : Prop :=
  (∀ x ∈ es, stopRequested x = false) ∧ ((Interrupted es ∧ Open es) ∨ ¬ Interrupted es ∧
    lastState es = some (if e.isTransient then GatewayState.retrying else .failed).text)

theorem RaisedEnd.truthful_iff (h : RaisedEnd e es) :
    Truthful (.error e) es ↔ Undisturbed es := by
  obtain ⟨hstop, ⟨hi, hopen⟩ | ⟨hi, hlast⟩⟩ := h
  · exact ⟨fun ht => absurd ht hopen.not_truthful, fun hu => absurd hi hu.1⟩
  · refine ⟨fun _ => ⟨hi, fun ⟨e, he, hs⟩ => absurd hs (by simp [hstop e he])⟩, fun _ => ?_⟩
    cases ht : e.isTransient with
    | true =>
      simp only [ht, if_true] at hlast
      refine ⟨⟨_, by decide, hlast⟩, ?_, ?_⟩
      · rw [hlast]
        exact ⟨fun h => absurd h (by decide), nofun⟩
      · exact ⟨fun _ => ⟨⟨e, rfl, ht⟩, by simp [runtimeCommand, ht]⟩, fun _ => hlast⟩
    | false =>
      simp only [ht, Bool.false_eq_true, if_false] at hlast
      refine ⟨⟨_, by decide, hlast⟩, ?_, ?_⟩
      · rw [hlast]
        exact ⟨fun h => absurd h (by decide), nofun⟩
      · rw [hlast]
        refine ⟨fun h => absurd h (by decide), ?_⟩
        rintro ⟨⟨e', he, ht'⟩, -⟩
        cases he
        cases ht.symm.trans ht'

/-- How a run after a stop request ends. -/
theorem truthful_iff_of_shutdown {r : Except Exn Int} {es : List GatewayEvent}
    (hstop : ∃ e ∈ es, stopRequested e = true)
    (h : (r = .ok 0 ∧ lastState es = some GatewayState.stopped.text ∧ ¬ Interrupted es ∧
      Smooth (sinceStop es)) ∨ (∃ e, r = .error e) ∧ Open es ∧ ¬ Smooth (sinceStop es)) :
    Truthful r es ↔ Undisturbed es := by
  rcases h with ⟨rfl, hlast, hi, hs⟩ | ⟨-, hopen, hn⟩
  · refine ⟨fun _ => ⟨hi, fun _ => hs⟩, fun _ => ⟨⟨_, by decide, hlast⟩, ?_, ?_⟩⟩
    · exact ⟨fun _ => rfl, fun _ => hlast⟩
    · rw [hlast]
      exact ⟨fun h => absurd h (by decide), fun ⟨⟨_, he, _⟩, _⟩ => nomatch he⟩
  · exact ⟨fun ht => absurd ht hopen.not_truthful, fun hu => absurd (hu.2 hstop) hn⟩

/-- What the loop of `run_gateway` leaves: a stop was just requested, or the run ends with an
exception. -/
def Served (r : Except Exn Unit) (es : List GatewayEvent) : Prop :=
  match r with
  | .ok _ => ∃ older, es = ⟨.waitStop, .ok true⟩ :: older ∧ Open older
  | .error e => RaisedEnd e es

theorem runGateway_truthful (g : Gateway) (fuel : Nat) : (runGateway g fuel).wp writing.log
    (fun _ => True) (fun r es => Truthful r es ↔ Undisturbed es) [] := by
  have hstart : Unstopped [] :=
    ⟨by simp [Open, lastState], fun _ he => absurd he List.not_mem_nil⟩
  have hserve : (tryCatch (do start g fuel; supervise g fuel) (terminate g) : GatewayM Unit).wp
      writing.log (fun _ => True) Served [] := by
    have hraise {e : Exn} {es : List GatewayEvent} (h : Unstopped es) : (terminate g e).wp
        writing.log (fun _ => True) Served es := by
      refine (terminate_wp g e h).post fun r es _ hterminated => ?_
      obtain ⟨e', hr, hstop, hend⟩ := hterminated
      subst hr
      refine ⟨hstop, hend.imp_right fun hclean => ⟨hclean.1, ?_⟩⟩
      rw [hclean.2.1]
      exact hclean.2.2
    refine Prog.wp_handle.mpr (Prog.wp_bind.mpr (((ongoing_unstopped (start_ongoing g fuel)) _
      hstart).mono (fun _ _ => trivial) fun r es _ h => ?_))
    cases r with
    | error e => exact hraise h
    | ok _ =>
      refine (supervise_stops g fuel h).post fun r es _ h => ?_
      cases r with
      | ok _ => exact h
      | error e => exact hraise h
  refine Prog.wp_bind.mpr (hserve.post fun r es _ h => ?_)
  cases r with
  | error e => exact h.truthful_iff
  | ok _ =>
    obtain ⟨older, rfl, hopen⟩ := h
    exact (shutdown_wp g hopen).post fun _ _ _ h => truthful_iff_of_shutdown h.1 h.2

/-- A run whose status writes succeed ends with a truthful terminal status exactly when it is
undisturbed: no interruption ends it, and no cleanup step fails after a stop request. -/
theorem terminalStatus_iff (g : Gateway) (fuel : Nat) {w w' : World} {r : Except Exn Int}
    {es : List GatewayEvent}
    (h : (runGateway g fuel).Returns machine.traced (w, []) r (w', es))
    (hwrites : ∀ e ∈ es, writeFailed e = false) : Truthful r es ↔ Undisturbed es :=
  (runGateway_truthful g fuel).returns
    (Prog.Exec.log_guard (P := fun e => writeFailed e = false) h hwrites)

/-- A plain run in which removing the tunnel at the end times out. -/
def timeoutOracle {β : Type} (op : GatewayOp β) (w : World) : Except Exn β × World :=
  match op with
  | .run .linkDel =>
    if w.ns.link = none then oracle (fun _ _ => false) (.run .linkDel) w
    else (.error (.command "ip timed out after 30 seconds"), w)
  | op => oracle (fun _ _ => false) op w

theorem step_timeoutOracle (op : GatewayOp β) (w : World) :
    machine.step op w (timeoutOracle op w).1 (timeoutOracle op w).2 := by
  unfold timeoutOracle
  split
  · split
    · exact step_oracle _ _ w
    · exact .raised fun _ => rfl
  · exact step_oracle _ op w

/-- The run after which `stopping` stays behind. -/
theorem shutdown_leavesStopping : ¬ ∀ w r es,
    (runGateway exampleGateway 1).Returns machine.traced (freshWorld, []) r (w, es) →
      (∀ e ∈ es, writeFailed e = false) → Truthful r es := by
  intro h
  have hrun := Prog.returns_complete (Prog.step_traceOracle step_timeoutOracle) 100
    (runGateway exampleGateway 1) (freshWorld, [])
  have hsome : (Prog.complete (Prog.traceOracle timeoutOracle) 100 (runGateway exampleGateway 1)
      (freshWorld, [])).map (fun x => (lastState x.2.2, x.2.2.all (!writeFailed ·))) =
        some (some "stopping", true) := by decide +kernel
  obtain ⟨⟨r, w, es⟩, hc, hx⟩ := Option.map_eq_some_iff.mp hsome
  obtain ⟨hlast, hwrites⟩ := Prod.mk.inj hx
  have htruthful := h w r es (hrun _ _ hc) (by simpa using hwrites)
  obtain ⟨state, hs, hstate⟩ := htruthful.1
  exact absurd (Option.some.inj (hlast.symm.trans hstate) ▸ hs) (by decide)

/-- A plain run ends with `stopped`. -/
theorem terminalStatus_iff_plain : ∃ w r es,
    (runGateway exampleGateway 1).Returns machine.traced (freshWorld, []) r (w, es) ∧
      lastState es = some "stopped" ∧ (Truthful r es ↔ Undisturbed es) := by
  have hrun := Prog.returns_complete (Prog.step_traceOracle (step_oracle fun _ _ => false)) 100
    (runGateway exampleGateway 1) (freshWorld, [])
  have hsome : (Prog.complete (Prog.traceOracle (oracle fun _ _ => false)) 100
      (runGateway exampleGateway 1) (freshWorld, [])).map
        (fun x => (lastState x.2.2, x.2.2.all (!writeFailed ·))) =
        some (some "stopped", true) := by decide +kernel
  obtain ⟨⟨r, w, es⟩, hc, hx⟩ := Option.map_eq_some_iff.mp hsome
  obtain ⟨hlast, hwrites⟩ := Prod.mk.inj hx
  exact ⟨w, r, es, hrun _ _ hc, hlast,
    terminalStatus_iff exampleGateway 1 (hrun _ _ hc) (by simpa using hwrites)⟩

end Runtime
end ShuttleGate
