import ShuttleGate.Runtime.Parts
import ShuttleGate.Effect.Trace

/-! # What a ready status means

The events of a run of the gateway, the latest first. Whenever the last status written is `ready`,
every step of the startup has succeeded since the initial cleanup and nothing has been taken away
again (`readyMeansReady`). -/

namespace ShuttleGate

open Net Fs Nft Effect

namespace Runtime

abbrev GatewayEvent := Event GatewayOp Exn

/-! ## Events -/

/-- The value of a status write that succeeded. -/
def written : GatewayEvent → Option Json
  | ⟨.writeStatus value, .ok _⟩ => some value
  | _ => none

/-- A status write that failed. -/
def writeFailed : GatewayEvent → Bool
  | ⟨.writeStatus _, .error _⟩ => true
  | _ => false

/-- The command that has come back with status zero. -/
def ran : GatewayEvent → Option Command
  | ⟨.run command, .ok result⟩ => if result.returncode = 0 then some command else none
  | _ => none

theorem ran_run (command : Command) (result : CommandResult) : ran ⟨.run command, .ok result⟩ =
    if result.returncode = 0 then some command else none := rfl

def sysctlWritten : GatewayEvent → Option (Path × String)
  | ⟨.writeSysctl path value, .ok _⟩ => some (path, value)
  | _ => none

def received : GatewayEvent → Option (List UInt8)
  | ⟨.receive, .ok message⟩ => some message
  | _ => none

/-- Whether a poll has found the process running. -/
def foundRunning : GatewayEvent → Option Bool
  | ⟨.poll _, .ok none⟩ => some true
  | ⟨.poll _, _⟩ => some false
  | _ => none

/-- The `state` field of a status. -/
def stateField : Json → Option String
  | .obj fields =>
    match fields.lookup "state" with
    | some (.str state) => some state
    | _ => none
  | _ => none

@[simp] theorem stateField_statusValue (g : Gateway) (state : GatewayState) (child peers error) :
    stateField (statusValue g state child peers error) = some state.text := rfl

/-- The state of the last status written. -/
def lastState (es : List GatewayEvent) : Option String := (es.findSome? written).bind stateField

/-- The `starting` status, which follows the initial cleanup. -/
def isStart (e : GatewayEvent) : Bool :=
  (written e).bind stateField = some GatewayState.starting.text

theorem isStart_writeStatus (v : Json) : isStart ⟨.writeStatus v, .ok ()⟩ =
    decide (stateField v = some GatewayState.starting.text) := rfl

/-- The events since the initial cleanup. -/
def sinceStart (es : List GatewayEvent) : List GatewayEvent := es.takeWhile (!isStart ·)

/-- Since the initial cleanup there is an event of which `f` gives `a`. -/
def Saw (f : GatewayEvent → Option α) (a : α) (es : List GatewayEvent) : Prop :=
  ∃ e ∈ sinceStart es, f e = some a

/-- A cleanup action: it takes away what an older event has set up, or what only the cleanup
does. -/
def Undoes (older : List GatewayEvent) : GatewayOp β → Prop
  | .run (.nftDelete _ _) | .run (.routeFlush _) | .terminate _ | .kill _ | .setChild none => True
  | .run .linkDel => ∃ e ∈ older, ran e = some .linkAdd
  | .run (.ruleDel v) => ∃ e ∈ older, ran e = some (.ruleAdd v)
  | _ => False

/-- No event is a cleanup action. -/
def Uncleaned : List GatewayEvent → Prop
  | [] => True
  | e :: older => ¬ Undoes older e.op ∧ Uncleaned older

/-- The commands that set up `wg0`. -/
def wireguardCommands (g : Gateway) : List Command :=
  .linkAdd :: (g.config.wireguard.gatewayAddresses.map .addressAdd ++
    [.wgSetconf (g.runtimeDir / "wireguard.conf"), .linkMtu g.config.wireguard.mtu])

/-- What the startup has done before it touches the interface. -/
structure Prepared (g : Gateway) (es : List GatewayEvent) : Prop where
  settings : ∀ root, g.sysctlRoot = some root → ∀ s ∈ sysctlValues g.config,
    Saw sysctlWritten (Path.join root s.1, s.2) es
  remote : ∃ arguments, remotePythonCheckArguments g.config g.paths = .ok arguments ∧
    Saw ran (.remoteCheck arguments) es
  policy : Saw ran (.nftLoad nftFilter) es

/-- What the whole startup has done, with no cleanup action since. -/
structure Established (g : Gateway) (es : List GatewayEvent) : Prop extends Prepared g es where
  configured : ∀ command ∈ wireguardCommands g, Saw ran command es
  rules : ∀ v ∈ routeFamilies g.config, Saw ran (.ruleAdd v) es
  reported : ∃ message, "READY=1".toUTF8.toList <:+: message ∧ Saw received message es
  up : Saw ran .linkUp es
  verified : ∀ command ∈ [Command.linkShow, .wgDump, .nftList .inet nftTable], Saw ran command es
  uncleaned : Uncleaned (sinceStart es)

/-- What a ready status stands for, in terms of the events since the initial cleanup. -/
structure IsReady (g : Gateway) (es : List GatewayEvent) : Prop extends Established g es where
  /-- The last poll before the last status write found sshuttle running. -/
  running : (es.dropWhile fun e => written e = none).findSome? foundRunning = some true

/-! ## One more event -/

/-- The machine on which every status write succeeds. -/
abbrev writing : Machine GatewayOp Exn World :=
  machine.guard fun op _ r _ => writeFailed ⟨op, r⟩ = false

theorem log_step {op : GatewayOp β} (h : writing.log.step op es r es') : es' = ⟨op, r⟩ :: es :=
  h.2

section
variable {e : GatewayEvent} {es : List GatewayEvent}

theorem lastState_cons (h : written e = none) : lastState (e :: es) = lastState es := by
  simp [lastState, h]

theorem isStart_of_written (h : written e = none) : isStart e = false := by
  simp [isStart, h]

theorem sinceStart_cons (h : isStart e = false) : sinceStart (e :: es) = e :: sinceStart es := by
  simp [sinceStart, h]

theorem Saw.cons {f : GatewayEvent → Option α} (h : Saw f a es) (he : isStart e = false) :
    Saw f a (e :: es) := by
  obtain ⟨e', he', hf⟩ := h
  exact ⟨e', by simp [sinceStart_cons he, he'], hf⟩

theorem Saw.now {f : GatewayEvent → Option α} (h : f e = some a) (he : isStart e = false) :
    Saw f a (e :: es) :=
  ⟨e, by simp [sinceStart_cons he], h⟩

theorem Prepared.cons {g : Gateway} (h : Prepared g es) (he : isStart e = false) :
    Prepared g (e :: es) where
  settings root hr s hs := (h.settings root hr s hs).cons he
  remote := let ⟨arguments, ha, h⟩ := h.remote; ⟨arguments, ha, h.cons he⟩
  policy := h.policy.cons he

theorem Established.cons {g : Gateway} (h : Established g es) (he : isStart e = false)
    (hu : ¬ Undoes (sinceStart es) e.op) : Established g (e :: es) where
  toPrepared := h.toPrepared.cons he
  configured c hc := (h.configured c hc).cons he
  rules v hv := (h.rules v hv).cons he
  reported := let ⟨message, hm, h⟩ := h.reported; ⟨message, hm, h.cons he⟩
  up := h.up.cons he
  verified c hc := (h.verified c hc).cons he
  uncleaned := by
    rw [sinceStart_cons he]
    exact ⟨hu, h.uncleaned⟩

theorem IsReady.cons {g : Gateway} (h : IsReady g es) (he : written e = none)
    (hu : ¬ Undoes (sinceStart es) e.op) : IsReady g (e :: es) where
  toEstablished := h.toEstablished.cons (isStart_of_written he) hu
  running := by simpa [he] using h.running

end

theorem GatewayOp.Quiet.written {op : GatewayOp β} (h : op.Quiet) (r : Except Exn β) :
    written ⟨op, r⟩ = none := by
  cases op with
  | writeStatus value => exact h.elim
  | _ => rfl

theorem GatewayOp.Quiet.not_undoes {op : GatewayOp β} (h : op.Quiet) (older) :
    ¬ Undoes older op := by
  cases op with
  | run command => cases command <;> first | exact h.elim | exact id
  | setChild child =>
    cases child with
    | none => exact h.elim
    | some pid => exact id
  | terminate pid | kill pid => exact h.elim
  | _ => exact id

/-- A fact that quiet operations keep. -/
def QuietStable (F : List GatewayEvent → Prop) : Prop :=
  ∀ (β : Type) (op : GatewayOp β) (r : Except Exn β) es, op.Quiet → F es → F (⟨op, r⟩ :: es)

theorem QuietStable.keeps {F : List GatewayEvent → Prop} (hF : QuietStable F) {p : GatewayM α}
    (hp : p.Only GatewayOp.Quiet) : p.Keeps writing.log F :=
  hp.keeps fun op es r _ hop hs h => log_step h ▸ hF _ op r es hop hs

theorem QuietStable.and {F G : List GatewayEvent → Prop} (hF : QuietStable F)
    (hG : QuietStable G) : QuietStable fun es => F es ∧ G es :=
  fun _ op r es hop h => ⟨hF _ op r es hop h.1, hG _ op r es hop h.2⟩

theorem quietStable_saw (f : GatewayEvent → Option α) (a : α) : QuietStable (Saw f a) :=
  fun _ _ r _ hop h => h.cons (isStart_of_written (hop.written r))

theorem quietStable_prepared (g : Gateway) : QuietStable (Prepared g) :=
  fun _ _ r _ hop h => h.cons (isStart_of_written (hop.written r))

theorem quietStable_isReady (g : Gateway) : QuietStable (IsReady g) :=
  fun _ _ r _ hop h => h.cons (hop.written r) (hop.not_undoes _)

/-! ## The startup -/

/-- The startup is underway: `starting` is the last status and nothing has been taken away. -/
structure Underway (es : List GatewayEvent) : Prop where
  state : lastState es = some GatewayState.starting.text
  uncleaned : Uncleaned (sinceStart es)

theorem Underway.cons (h : Underway es) (he : written e = none)
    (hu : ¬ Undoes (sinceStart es) e.op) : Underway (e :: es) where
  state := (lastState_cons he).trans h.state
  uncleaned := by
    rw [sinceStart_cons (isStart_of_written he)]
    exact ⟨hu, h.uncleaned⟩

theorem quietStable_underway : QuietStable Underway :=
  fun _ _ r _ hop h => h.cons (hop.written r) (hop.not_undoes _)

/-- The command has not succeeded since the initial cleanup. -/
def NotYet (command : Command) (es : List GatewayEvent) : Prop := ¬ Saw ran command es

theorem NotYet.cons (h : NotYet command es) (he : isStart e = false)
    (hr : ran e ≠ some command) : NotYet command (e :: es) := by
  rintro ⟨e', he', hc⟩
  rw [sinceStart_cons he, List.mem_cons] at he'
  rcases he' with rfl | he'
  · exact hr hc
  · exact h ⟨e', he', hc⟩

theorem quietStable_notYet {command : Command} (h : ¬ command.Quiet) :
    QuietStable (NotYet command) := by
  intro β op r es hop hes
  refine hes.cons (isStart_of_written (hop.written r)) fun hr => ?_
  cases op with
  | run c =>
    cases r with
    | ok result =>
      simp only [ran_run, Option.ite_none_right_eq_some, Option.some.injEq] at hr
      exact h (hr.2 ▸ hop)
    | error e => cases hr
  | _ => cases hr

/-- What holds before the interface is touched. -/
def Untouched (es : List GatewayEvent) : Prop :=
  Underway es ∧ NotYet .linkAdd es ∧ ∀ v, NotYet (.ruleAdd v) es

theorem quietStable_untouched : QuietStable Untouched :=
  fun _ op r es hop h => ⟨quietStable_underway _ op r es hop h.1,
    quietStable_notYet id _ op r es hop h.2.1,
    fun v => quietStable_notYet id _ op r es hop (h.2.2 v)⟩

/-- A checked command that returns has come back with status zero. -/
theorem run_yields (command : Command) (es : List GatewayEvent) :
    (run command).Yields writing.log (fun _ es' => Saw ran command es') es := by
  refine Prog.yields_bind (Prog.yields_perform fun result es' h => ?_)
  obtain rfl := log_step h
  dsimp only
  split
  · exact Prog.yields_raise
  · rename_i hcode
    have hzero : result.returncode = 0 := by simpa using hcode
    exact Prog.yields_ret (.now (by simp [ran_run, hzero]) rfl)

theorem runs_yields (command : Command) (es : List GatewayEvent) :
    (do let _ ← run command : GatewayM Unit).Yields writing.log
      (fun _ es' => Saw ran command es') es :=
  Prog.yields_bind ((run_yields command es).mono fun _ _ h => Prog.yields_ret h)

/-- Every element's work is done once, and what is done stays done. -/
theorem forEach_yields {f : β → GatewayM Unit} {D : β → List GatewayEvent → Prop}
    (step : ∀ x es, (f x).Yields writing.log (fun _ => D x) es)
    (keeps : ∀ x y, (f x).Keeps writing.log (D y)) :
    ∀ xs es, (Prog.forEach xs f).Yields writing.log (fun _ es' => ∀ x ∈ xs, D x es') es
  | [], _ => Prog.yields_ret (by simp)
  | x :: xs, es => Prog.yields_bind <| (step x es).mono fun _ es' hx => by
    have hrest := forEach_yields step keeps xs es'
    exact (hrest.and_keeps (Prog.keeps_forEach (fun y => keeps y x) xs) hx).mono fun _ _ h => List.forall_mem_cons.mpr ⟨h.2, h.1⟩

theorem configureNamespace_yields (g : Gateway) (es : List GatewayEvent) :
    (configureNamespace g).Yields writing.log (fun _ es' => ∀ root, g.sysctlRoot = some root →
      ∀ s ∈ sysctlValues g.config, Saw sysctlWritten (Path.join root s.1, s.2) es') es := by
  unfold configureNamespace
  split
  · rename_i h
    exact Prog.yields_ret fun root hr => by cases h.symm.trans hr
  · rename_i root h
    refine (forEach_yields (D := fun s => Saw sysctlWritten (Path.join root s.1, s.2))
      (fun s es => ?_) (fun s s' => ?_) _ es).mono fun _ es' hes root' hr => ?_
    · refine Prog.yields_handle (Prog.yields_perform fun _ es' h => ?_) fun e es' => ?_
      · obtain rfl := log_step h
        exact .now rfl rfl
      · split <;> exact Prog.yields_raise
    · refine (quietStable_saw _ _).keeps ((perform_quiet (by trivial)).handle fun e => ?_)
      split <;> exact Prog.only_raise
    · cases h.symm.trans hr
      exact hes

theorem remotePythonCheck_yields (g : Gateway) (es : List GatewayEvent) :
    (remotePythonCheck g).Yields writing.log (fun _ es' => ∃ arguments,
      remotePythonCheckArguments g.config g.paths = .ok arguments ∧
        Saw ran (.remoteCheck arguments) es') es := by
  unfold remotePythonCheck
  cases h : remotePythonCheckArguments g.config g.paths with
  | error m => exact Prog.yields_bind Prog.yields_raise
  | ok arguments =>
    exact Prog.yields_bind (Prog.yields_ret ((runs_yields _ es).mono fun _ _ hs => ⟨_, rfl, hs⟩))

/-- A fact that every event other than a status write keeps. -/
def Grows (F : List GatewayEvent → Prop) : Prop := ∀ e es, written e = none → F es → F (e :: es)

theorem Grows.quietStable {F : List GatewayEvent → Prop} (h : Grows F) : QuietStable F :=
  fun _ _ r es hop => h _ es (hop.written r)

theorem grows_saw (f : GatewayEvent → Option α) (a : α) : Grows (Saw f a) :=
  fun _ _ he h => h.cons (isStart_of_written he)

theorem grows_prepared (g : Gateway) : Grows (Prepared g) :=
  fun _ _ he h => h.cons (isStart_of_written he)

theorem run_keeps {F : List GatewayEvent → Prop} {command : Command} {check : Bool}
    (h : ∀ r es, F es → F (⟨.run command, r⟩ :: es)) :
    (run command check).Keeps writing.log F := by
  have honly : (run command check).Only fun op => ∀ r es, F es → F (⟨op, r⟩ :: es) := run_only h
  exact honly.keeps fun _ es r _ hop hs hstep => log_step hstep ▸ hop r es hs

/-- The interface may be set up while no policy rule is. -/
def Unruled (g : Gateway) (es : List GatewayEvent) : Prop :=
  Underway es ∧ (∀ v, NotYet (.ruleAdd v) es) ∧ Prepared g es

theorem Unruled.run {g : Gateway} {es : List GatewayEvent} {command : Command} (h : Unruled g es)
    (hrule : ∀ v, command ≠ .ruleAdd v) (hu : ¬ Undoes (sinceStart es) (.run command))
    (r : Except Exn CommandResult) : Unruled g (⟨.run command, r⟩ :: es) := by
  refine ⟨h.1.cons rfl hu, fun v => (h.2.1 v).cons rfl fun hr => ?_, h.2.2.cons rfl⟩
  cases r with
  | error e => cases hr
  | ok result =>
    simp only [ran_run, Option.ite_none_right_eq_some, Option.some.injEq] at hr
    exact hrule v hr.2

theorem setupWireguard_wp (g : Gateway) {es : List GatewayEvent} (h : Unruled g es)
    (hl : NotYet .linkAdd es) :
    (setupWireguard g).wp writing.log (Unruled g) (fun _ => Unruled g) es := by
  have quiet : QuietStable (Unruled g) := fun _ op r es hop h =>
    ⟨quietStable_underway _ op r es hop h.1, fun v => quietStable_notYet id _ op r es hop (h.2.1 v),
      quietStable_prepared g _ op r es hop h.2.2⟩
  -- the first deletion finds no interface of this startup
  have hdel : (run .linkDel false).Keeps writing.log
      (fun es => Unruled g es ∧ NotYet .linkAdd es) := by
    refine run_keeps fun r es h => ?_
    have hundo : ¬ Undoes (sinceStart es) (.run .linkDel) := h.2
    refine ⟨h.1.run (by simp) hundo r, h.2.cons rfl fun hr => ?_⟩
    cases r with
    | error e => cases hr
    | ok result => simp [ran_run] at hr
  refine Prog.wp_bind.mpr ((hdel es ⟨h, hl⟩).mono (fun _ h => h.1) fun r es' _ h => ?_)
  cases r with
  | error e => exact h.1
  | ok _ =>
    refine ((run_keeps fun r es h => h.run (by simp) id r).bind fun _ => ?_) es' h.1
    refine quiet.keeps (Prog.Only.bind (Prog.only_forEach (fun _ => ?_) _) fun _ => ?_)
    · exact (run_quiet (by trivial)).bind fun _ => Prog.only_ret
    · exact (perform_quiet (by trivial)).bind fun _ => (loadKeys_only (fun _ => trivial) _).bind fun _ =>
        (Prog.only_ofExcept _).bind fun _ => (perform_quiet (by trivial)).bind fun _ =>
        (run_quiet (by trivial)).bind fun _ => (run_quiet (by trivial)).bind fun _ => Prog.only_ret

theorem setupWireguard_yields (g : Gateway) (es : List GatewayEvent) :
    (setupWireguard g).Yields writing.log
      (fun _ es' => ∀ command ∈ wireguardCommands g, Saw ran command es') es := by
  have keeps {α : Type} {p : GatewayM α} (c : Command) (hp : p.Only GatewayOp.Quiet) :
      p.Keeps writing.log (Saw ran c) := (quietStable_saw ran c).keeps hp
  have address (i : IPInterface) : (do let _ ← run (.addressAdd i) : GatewayM Unit).Only
      GatewayOp.Quiet := (run_quiet (by trivial)).bind fun _ => Prog.only_ret
  unfold setupWireguard
  refine Prog.yields_bind_any fun _ es => ?_
  refine Prog.yields_bind ((run_yields .linkAdd es).mono fun _ es hadd => ?_)
  have haddresses := forEach_yields (D := fun i => Saw ran (.addressAdd i))
    (fun i es => runs_yields (.addressAdd i) es) (fun i j => keeps _ (address i))
    g.config.wireguard.gatewayAddresses es
  refine Prog.yields_bind ((haddresses.and_keeps (keeps .linkAdd
    (Prog.only_forEach address _)) hadd).mono fun _ es h => ?_)
  -- from here on the interface and its addresses stay
  have hstay : QuietStable fun es => (∀ i ∈ g.config.wireguard.gatewayAddresses,
      Saw ran (.addressAdd i) es) ∧ Saw ran .linkAdd es := fun _ op r es hop h =>
    ⟨fun i hi => quietStable_saw _ _ _ op r es hop (h.1 i hi),
      quietStable_saw _ _ _ op r es hop h.2⟩
  refine Prog.yields_bind (((Prog.yields_trivial _ es).and_keeps (hstay.keeps (perform_quiet (by trivial)))
    h).mono fun _ es h => ?_)
  refine Prog.yields_bind (((Prog.yields_trivial _ es).and_keeps (hstay.keeps
    (loadKeys_only (fun _ => trivial) _)) h.2).mono fun _ es h => ?_)
  refine Prog.yields_bind (((Prog.yields_trivial _ es).and_keeps (hstay.keeps
    (Prog.only_ofExcept _)) h.2).mono fun _ es h => ?_)
  refine Prog.yields_bind (((Prog.yields_trivial _ es).and_keeps (hstay.keeps (perform_quiet (by trivial)))
    h.2).mono fun _ es h => ?_)
  refine Prog.yields_bind (((run_yields (.wgSetconf _) es).and_keeps (hstay.keeps (run_quiet (by trivial)))
    h.2).mono fun _ es h => ?_)
  have hmtu := (run_yields (.linkMtu g.config.wireguard.mtu) es).and_keeps
    ((hstay.and (quietStable_saw ran _)).keeps (run_quiet (by trivial))) ⟨h.2, h.1⟩
  refine Prog.yields_bind (hmtu.mono fun _ es ⟨hm, ⟨ha, hl⟩, hc⟩ => Prog.yields_ret ?_)
  intro command hcommand
  simp only [wireguardCommands, List.mem_cons, List.mem_append, List.mem_map, List.not_mem_nil,
    or_false] at hcommand
  rcases hcommand with rfl | ⟨i, hi, rfl⟩ | rfl | rfl
  · exact hl
  · exact ha i hi
  · exact hc
  · exact hm

theorem nodup_routeFamilies (config : ProjectConfig) : (routeFamilies config).Nodup :=
  List.Nodup.filter _ (by decide)

/-- Every policy rule is deleted before it is added, each family once. -/
theorem setupPolicyRouting_wp (g : Gateway) {K : List GatewayEvent → Prop} (hK : Grows K)
    {es : List GatewayEvent} (hu : Underway es) (hn : ∀ v, NotYet (.ruleAdd v) es) (hk : K es) :
    (setupPolicyRouting g).wp writing.log (fun es => Underway es ∧ K es)
      (fun _ es => Underway es ∧ K es) es := by
  have rule {v : Version} {es : List GatewayEvent} {r : Except Exn CommandResult}
      {command : Command} (h : NotYet (.ruleAdd v) es) (hne : command ≠ .ruleAdd v) :
      NotYet (.ruleAdd v) (⟨.run command, r⟩ :: es) := by
    refine h.cons rfl fun hr => ?_
    cases r with
    | error e => cases hr
    | ok result =>
      simp only [ran_run, Option.ite_none_right_eq_some, Option.some.injEq] at hr
      exact hne hr.2
  refine Prog.wp_forEach (fun vs es => (Underway es ∧ K es) ∧ vs.Nodup ∧
    ∀ v ∈ vs, NotYet (.ruleAdd v) es) (fun es h => ⟨h.1, h.1⟩) (fun v vs es h => ?_) _ es
    ⟨⟨hu, hk⟩, nodup_routeFamilies _, fun v _ => hn v⟩
  obtain ⟨hes, hnodup, hnot⟩ := h
  obtain ⟨hv, hnodup⟩ := List.nodup_cons.mp hnodup
  have hbefore (command : Command) (check : Bool) (hc : ∀ w ∈ v :: vs, command ≠ .ruleAdd w)
      (hundo : ∀ es, NotYet (.ruleAdd v) es → ¬ Undoes (sinceStart es) (.run command)) :
      (run command check).Keeps writing.log fun es => (Underway es ∧ K es) ∧
        ∀ w ∈ v :: vs, NotYet (.ruleAdd w) es := run_keeps fun r es h =>
    ⟨⟨h.1.1.cons rfl (hundo es (h.2 v List.mem_cons_self)), hK _ es rfl h.1.2⟩,
      fun w hw => rule (h.2 w hw) (hc w hw)⟩
  refine Prog.wp_bind_keeps (hbefore (.ruleDel v) false (by simp) fun _ h => h)
    (Prog.yields_trivial _ _) ⟨hes, hnot⟩ (fun _ h => h.1) (fun _ _ h => h.1) fun _ es h _ => ?_
  refine Prog.wp_bind_keeps (hbefore (.routeReplace v) true (by simp) fun _ _ => id)
    (Prog.yields_trivial _ _) h (fun _ h => h.1) (fun _ _ h => h.1) fun _ es h _ => ?_
  have hafter : (run (.ruleAdd v)).Keeps writing.log fun es => (Underway es ∧ K es) ∧
      ∀ w ∈ vs, NotYet (.ruleAdd w) es := run_keeps fun r es h =>
    ⟨⟨h.1.1.cons rfl id, hK _ es rfl h.1.2⟩, fun w hw => rule (h.2 w hw) fun heq => by
      cases heq
      exact hv hw⟩
  refine Prog.wp_bind_keeps hafter (Prog.yields_trivial _ _)
    ⟨h.1, fun w hw => h.2 w (List.mem_cons_of_mem v hw)⟩ (fun _ h => h.1) (fun _ _ h => h.1)
    fun _ es h _ => ?_
  exact ⟨h.1, h.1, hnodup, h.2⟩

theorem setupPolicyRouting_yields (g : Gateway) (es : List GatewayEvent) :
    (setupPolicyRouting g).Yields writing.log
      (fun _ es' => ∀ v ∈ routeFamilies g.config, Saw ran (.ruleAdd v) es') es := by
  have keeps (command : Command) (check : Bool) (v : Version) :
      (run command check).Keeps writing.log (Saw ran (.ruleAdd v)) :=
    run_keeps fun _ es h => h.cons rfl
  refine forEach_yields (D := fun v => Saw ran (.ruleAdd v)) (fun v es => ?_) (fun v w => ?_) _ es
  · exact Prog.yields_bind_any fun _ es => Prog.yields_bind_any fun _ es =>
      runs_yields (.ruleAdd v) es
  · exact (keeps _ _ w).bind fun _ => (keeps _ _ w).bind fun _ => (keeps _ _ w).bind fun _ =>
      Prog.keeps_ret

/-- `READY=1` has been received. -/
def Reported (es : List GatewayEvent) : Prop :=
  ∃ message, "READY=1".toUTF8.toList <:+: message ∧ Saw received message es

theorem awaitReady_yields (g : Gateway) (pid deadline : Int) (fuel : Nat)
    (es : List GatewayEvent) : (awaitReady g pid deadline fuel).Yields writing.log
      (fun _ => Reported) es := by
  induction fuel generalizing es with
  | zero =>
    refine Prog.yields_perform fun _ _ h => ?_
    -- the operation is never answered
    obtain ⟨⟨_, _, hstep, -⟩, -⟩ := h
    cases hstep
    contradiction
  | succ fuel ih =>
    unfold awaitReady
    refine Prog.yields_bind_any fun now es => Prog.yields_ite (fun _ => ?_) fun _ =>
      Prog.yields_raise
    refine Prog.yields_bind_any fun code es => ?_
    cases code with
    | some code => exact Prog.yields_raise
    | none =>
      refine Prog.yields_bind (Q := fun _ => Reported) (Prog.Yields.mono (Q := fun m es =>
        ∀ message, m = some message → Saw received message es) ?_ fun m es hm => ?_)
      · refine Prog.yields_handle (Prog.yields_bind (Prog.yields_perform fun m es' h => ?_))
          fun e es => ?_
        · obtain rfl := log_step h
          refine Prog.yields_ret fun message hm => ?_
          cases hm
          exact .now rfl rfl
        · refine Prog.yields_ite (fun _ => Prog.yields_ret fun _ h => by cases h) fun _ =>
            Prog.yields_raise
      · cases m with
        | none => exact ih es
        | some message =>
          exact Prog.yields_ite (fun h => Prog.yields_ret ⟨message, h, hm message rfl⟩)
            fun _ => ih es

theorem startSshuttle_yields (g : Gateway) (fuel : Nat) (es : List GatewayEvent) :
    (startSshuttle g fuel).Yields writing.log (fun _ => Reported) es := by
  refine Prog.yields_bind_any fun _ es => Prog.yields_bind_any fun _ es => ?_
  refine Prog.yields_finally' ?_ fun _ => ?_
  · exact Prog.yields_bind_any fun _ es => Prog.yields_bind_any fun _ es =>
      Prog.yields_bind_any fun _ es => Prog.yields_bind_any fun _ es =>
      Prog.yields_bind_any fun _ es => awaitReady_yields g _ _ fuel es
  · have hstable : QuietStable Reported := fun _ op r es hop ⟨message, hm, h⟩ =>
      ⟨message, hm, quietStable_saw _ _ _ op r es hop h⟩
    exact hstable.keeps ((perform_quiet (by trivial)).bind fun _ => (perform_quiet (by trivial)))

/-- The last poll found the process running. -/
def Running (es : List GatewayEvent) : Prop := es.findSome? foundRunning = some true

theorem run_running {command : Command} {check : Bool} :
    (run command check).Keeps writing.log Running :=
  run_keeps fun _ _ h => h

theorem poll_yields (pid : Int) (es : List GatewayEvent) :
    (Prog.perform (.poll pid) : GatewayM (Option Int)).Yields writing.log
      (fun code es' => code = none → Running es') es :=
  Prog.yields_perform fun code es' h hc => by
    obtain rfl := log_step h
    subst hc
    rfl

theorem verifyPostconditions_yields (es : List GatewayEvent) :
    verifyPostconditions.Yields writing.log (fun _ es' => Running es' ∧
      ∀ command ∈ [Command.linkShow, .wgDump, .nftList .inet nftTable],
        Saw ran command es') es := by
  refine Prog.yields_bind_any fun child es => ?_
  cases child with
  | none => exact Prog.yields_raise
  | some pid =>
    refine Prog.yields_bind ((poll_yields pid es).mono fun code es hcode => ?_)
    refine Prog.yields_ite (fun _ => Prog.yields_bind Prog.yields_raise) fun hc => ?_
    have hrunning : Running es := hcode (not_not.mp hc)
    have hall := forEach_yields (f := fun command => do let _ ← run command)
      (D := fun command => Saw ran command) (fun command es => runs_yields command es)
      (fun c d => (run_keeps fun _ es h => h.cons rfl).bind fun _ => Prog.keeps_ret)
      [Command.linkShow, .wgDump, .nftList .inet nftTable] es
    exact (hall.and_keeps (Prog.keeps_forEach (fun _ => run_running.bind fun _ =>
      Prog.keeps_ret) _) hrunning).mono fun _ _ h => h.symm

/-! ## Status writes -/

/-- A status write: it cannot fail, so the handler is not reached. -/
theorem write_wp {v : Json} {handler : Exn → GatewayM Unit} {I : List GatewayEvent → Prop}
    {Q : Except Exn Unit → List GatewayEvent → Prop} {es : List GatewayEvent} (hI : I es)
    (hI' : I (⟨.writeStatus v, .ok ()⟩ :: es)) (hQ : Q (.ok ()) (⟨.writeStatus v, .ok ()⟩ :: es)) :
    (tryCatch (Prog.perform (.writeStatus v)) handler : GatewayM Unit).wp writing.log I Q es := by
  refine Prog.wp_handle.mpr (Prog.wp_perform.mpr ⟨hI, fun r es' h => ?_⟩)
  obtain rfl := log_step h
  cases r with
  | ok _ => exact ⟨hI', hQ⟩
  | error e =>
    obtain ⟨⟨_, _, -, hw⟩, -⟩ := h
    cases hw

/-- The invariant of every run. -/
def ReadyMeansReady (g : Gateway) (es : List GatewayEvent) : Prop :=
  lastState es = some GatewayState.ready.text → IsReady g es

theorem quietStable_readyMeansReady (g : Gateway) : QuietStable (ReadyMeansReady g) :=
  fun _ op r es hop h hstate => quietStable_isReady g _ op r es hop
    (h ((lastState_cons (hop.written r)).symm.trans hstate))

theorem Running.isReady {g : Gateway} {v : Json} {es : List GatewayEvent} (hr : Running es)
    (h : Established g es) (hv : stateField v = some GatewayState.ready.text) :
    IsReady g (⟨.writeStatus v, .ok ()⟩ :: es) where
  toEstablished := h.cons (by rw [isStart_writeStatus, hv]; decide) id
  running := hr

/-- The `ready` status after a poll that found sshuttle running. -/
theorem writeReady_wp (g : Gateway) {F : List GatewayEvent → Prop} (hF : QuietStable F)
    (hI : ∀ es, F es → ReadyMeansReady g es) (hE : ∀ es, F es → Established g es)
    {es : List GatewayEvent} (h : F es) (hr : Running es) :
    (writeStatus g .ready).wp writing.log (ReadyMeansReady g)
      (fun r es => ReadyMeansReady g es ∧ (r.isOk = true → IsReady g es)) es := by
  have running {α : Type} {p : GatewayM α}
      (hp : p.Only fun op => ∀ r, foundRunning ⟨op, r⟩ = none) : p.Keeps writing.log Running :=
    hp.keeps fun op es r es' hop hs hstep => by
      obtain rfl := log_step hstep
      simpa [Running, hop r] using hs
  have hpeers : (peerStatus g).Only fun op => ∀ r, foundRunning ⟨op, r⟩ = none :=
    (peerNames_only (fun _ _ => rfl) _).bind fun _ => (run_only fun _ => rfl).bind fun _ =>
      Prog.only_ofExcept _
  have failed {e : Exn} {es : List GatewayEvent} (h : F es ∧ Running es) :
      ReadyMeansReady g es ∧ ((Except.error e : Except Exn Unit).isOk = true → IsReady g es) :=
    ⟨hI es h.1, nofun⟩
  refine Prog.wp_bind_keeps ((hF.keeps (perform_quiet (by trivial))).and (running (Prog.only_perform.mpr
    fun _ => rfl))) (Prog.yields_trivial _ _) ⟨h, hr⟩ (fun es h => hI es h.1)
    (fun _ _ => failed) fun child es h _ => ?_
  refine Prog.wp_bind_keeps ((hF.keeps (peerStatus_quiet g)).and (running hpeers))
    (Prog.yields_trivial _ _) h (fun es h => hI es h.1) (fun _ _ => failed) fun peers es h _ => ?_
  have hready := h.2.isReady (hE es h.1)
    (stateField_statusValue g .ready child peers none)
  exact write_wp (hI es h.1) (fun _ => hready) ⟨fun _ => hready, fun _ => hready⟩

/-- Any other status. -/
theorem writeOther_wp (g : Gateway) {state : GatewayState} (hstate : state ≠ .ready)
    (ignoreErrors : Bool) (error : Option String) {es : List GatewayEvent}
    (h : ReadyMeansReady g es) :
    (writeStatus g state ignoreErrors error).wp writing.log (ReadyMeansReady g)
      (fun r es => ReadyMeansReady g es ∧ (r.isOk = true → lastState es = some state.text ∧
        (state = .starting → sinceStart es = []))) es := by
  have htext : state.text ≠ GatewayState.ready.text := by
    cases state <;> first | exact absurd rfl hstate | decide
  refine Prog.wp_bind_keeps ((quietStable_readyMeansReady g).keeps (perform_quiet (by trivial)))
    (Prog.yields_trivial _ _) h (fun _ => id) (fun _ _ h => ⟨h, nofun⟩) fun child es h _ => ?_
  rw [if_neg hstate]
  have hlast : lastState (⟨.writeStatus (statusValue g state child [] error), .ok ()⟩ :: es) =
      some state.text := rfl
  have hnot : ReadyMeansReady g (⟨.writeStatus (statusValue g state child [] error), .ok ()⟩ :: es) :=
    fun hr => absurd (Option.some.inj (hlast.symm.trans hr)) htext
  refine write_wp h hnot ⟨hnot, fun _ => ⟨hlast, ?_⟩⟩
  rintro rfl
  rfl

/-! ## The whole run -/

/-- An operation that writes no `ready` status. -/
def NotReady : GatewayOp β → Prop
  | .writeStatus value => stateField value ≠ some GatewayState.ready.text
  | _ => True

/-- What writes no `ready` status leaves another last status alone. -/
theorem notReady_keeps {p : GatewayM α} (hp : p.Only NotReady) :
    p.Keeps writing.log fun es => lastState es ≠ some GatewayState.ready.text := by
  refine hp.keeps fun op es r es' hop hs h => ?_
  obtain rfl := log_step h
  cases op with
  | writeStatus value =>
    cases r with
    | ok _ => exact hop
    | error e => exact hs
  | _ => exact hs

theorem readyMeansReady_of_ne {g : Gateway} {es : List GatewayEvent}
    (h : lastState es ≠ some GatewayState.ready.text) : ReadyMeansReady g es :=
  fun hr => absurd hr h

theorem cleanup_readyMeansReady (g : Gateway) :
    (cleanup g).Keeps writing.log (ReadyMeansReady g) := by
  intro es h
  refine Prog.wp_bind.mpr ((writeOther_wp g (by simp) true none h).post fun r es _ h => ?_)
  cases r with
  | error e => exact h.1
  | ok _ =>
    have hne : lastState es ≠ some GatewayState.ready.text := by
      rw [(h.2 rfl).1]
      decide
    refine (notReady_keeps ?_ es hne).mono (fun _ => readyMeansReady_of_ne)
      fun _ _ _ => readyMeansReady_of_ne
    refine (Prog.only_perform.mpr trivial).bind fun child => ?_
    refine (attempt_only (stopProcess_only (fun _ => ⟨trivial, trivial, trivial,
      fun _ => trivial⟩) child)).bind fun _ => ?_
    refine (Prog.only_perform.mpr trivial).bind fun _ => ?_
    refine (runCleanup_only _ fun _ _ => trivial).bind fun _ => ?_
    exact Prog.only_raise.ite Prog.only_ret

theorem Underway.notReadyYet {g : Gateway} {es : List GatewayEvent} (h : Underway es) :
    ReadyMeansReady g es := by
  refine readyMeansReady_of_ne ?_
  rw [h.state]
  decide

theorem bringUp_wp (g : Gateway) (fuel : Nat) {es : List GatewayEvent} (h : Untouched es) :
    (bringUp g fuel).wp writing.log (ReadyMeansReady g)
      (fun r es => ReadyMeansReady g es ∧ (r.isOk = true → IsReady g es)) es := by
  have past {e : Exn} {es : List GatewayEvent} (h : Underway es) : ReadyMeansReady g es ∧
      ((Except.error e : Except Exn Unit).isOk = true → IsReady g es) :=
    ⟨h.notReadyYet, nofun⟩
  refine Prog.wp_bind_keeps (quietStable_untouched.keeps (configureNamespace_quiet g))
    (configureNamespace_yields g es) h (fun _ h => h.1.notReadyYet) (fun _ _ h => past h.1)
    fun _ es h hsettings => ?_
  -- the settings stay from here on
  have settings : QuietStable fun es => ∀ root, g.sysctlRoot = some root →
      ∀ s ∈ sysctlValues g.config, Saw sysctlWritten (Path.join root s.1, s.2) es :=
    fun _ op r es hop h root hr s hs => quietStable_saw _ _ _ op r es hop (h root hr s hs)
  refine Prog.wp_bind_keeps ((quietStable_untouched.and settings).keeps
    ((remotePythonCheck_quiet g).handle fun e => ?_)) (Prog.yields_handle
    (remotePythonCheck_yields g es) fun e es => ?_) ⟨h, hsettings⟩
    (fun _ h => h.1.1.notReadyYet) (fun _ _ h => past h.1.1) fun _ es h hremote => ?_
  · split <;> exact Prog.only_raise
  · split <;> exact Prog.yields_raise
  have remote : QuietStable fun es => ∃ arguments,
      remotePythonCheckArguments g.config g.paths = .ok arguments ∧
        Saw ran (.remoteCheck arguments) es := fun _ op r es hop ⟨arguments, ha, h⟩ =>
    ⟨arguments, ha, quietStable_saw _ _ _ op r es hop h⟩
  have checked := (quietStable_untouched.and settings).and remote
  refine Prog.wp_bind_keeps (checked.keeps (run_quiet (by trivial))) (Prog.yields_trivial _ es)
    ⟨h, hremote⟩ (fun _ h => h.1.1.1.notReadyYet) (fun _ _ h => past h.1.1.1) fun _ es h _ => ?_
  refine Prog.wp_bind_keeps (checked.keeps (run_quiet (by trivial))) (run_yields (.nftLoad nftFilter) es) h
    (fun _ h => h.1.1.1.notReadyYet) (fun _ _ h => past h.1.1.1) fun _ es h hpolicy => ?_
  obtain ⟨⟨⟨hunderway, hlink, hrule⟩, hsettings⟩, hremote⟩ := h
  have hwireguard := Prog.wp.and (setupWireguard_wp g ⟨hunderway, hrule, hsettings, hremote,
    hpolicy⟩ hlink) (setupWireguard_yields g es)
  refine Prog.wp_bind.mpr (hwireguard.mono (fun _ h => h.1.1.notReadyYet) fun r es _ h => ?_)
  cases r with
  | error e => exact past h.1.1
  | ok _ =>
  obtain ⟨⟨hunderway, hrule, hprepared⟩, hconfigured⟩ := h
  -- what is done stays done; the policy rules come next
  have grows : Grows fun es => Prepared g es ∧ ∀ c ∈ wireguardCommands g, Saw ran c es :=
    fun e es he h => ⟨grows_prepared g e es he h.1, fun c hc => grows_saw _ _ e es he (h.2 c hc)⟩
  have hrouting := Prog.wp.and (setupPolicyRouting_wp g grows hunderway hrule
    ⟨hprepared, hconfigured _ rfl⟩) (setupPolicyRouting_yields g es)
  refine Prog.wp_bind.mpr (hrouting.mono (fun _ h => h.1.1.notReadyYet) fun r es _ h => ?_)
  cases r with
  | error e => exact past h.1.1
  | ok _ =>
  obtain ⟨⟨hunderway, hdone⟩, hrules⟩ := h
  have routed : QuietStable fun es => (Underway es ∧ Prepared g es ∧
      ∀ c ∈ wireguardCommands g, Saw ran c es) ∧ ∀ v ∈ routeFamilies g.config,
        Saw ran (.ruleAdd v) es := (quietStable_underway.and grows.quietStable).and
    fun _ op r es hop h v hv => quietStable_saw _ _ _ op r es hop (h v hv)
  refine Prog.wp_bind_keeps (routed.keeps (startSshuttle_quiet g fuel))
    (startSshuttle_yields g fuel es) ⟨⟨hunderway, hdone⟩, hrules _ rfl⟩
    (fun _ h => h.1.1.notReadyYet) (fun _ _ h => past h.1.1) fun _ es h hreported => ?_
  have hup : (do let _ ← run .linkUp : GatewayM Unit).Keeps writing.log fun es =>
      ((Underway es ∧ Prepared g es ∧ ∀ c ∈ wireguardCommands g, Saw ran c es) ∧
        ∀ v ∈ routeFamilies g.config, Saw ran (.ruleAdd v) es) ∧ Reported es :=
    (run_keeps fun _ es ⟨⟨⟨hu, hd⟩, hr⟩, ⟨m, hm, hs⟩⟩ => ⟨⟨⟨hu.cons rfl id, grows _ es rfl hd⟩,
      fun v hv => (hr v hv).cons rfl⟩, m, hm, hs.cons rfl⟩).bind fun _ => Prog.keeps_ret
  refine Prog.wp_bind_keeps hup (runs_yields .linkUp es) ⟨h, hreported⟩
    (fun _ h => h.1.1.1.notReadyYet) (fun _ _ h => past h.1.1.1) fun _ es h hlinkUp => ?_
  have reported : QuietStable Reported := fun _ op r es hop ⟨m, hm, hs⟩ =>
    ⟨m, hm, quietStable_saw _ _ _ op r es hop hs⟩
  have all := (routed.and reported).and (quietStable_saw ran .linkUp)
  refine Prog.wp_bind_keeps (all.keeps verifyPostconditions_quiet)
    (verifyPostconditions_yields es) ⟨h, hlinkUp⟩ (fun _ h => h.1.1.1.1.notReadyYet)
    (fun _ _ h => past h.1.1.1.1) fun _ es h hverified => ?_
  refine writeReady_wp g (all.and (G := fun es => ∀ command ∈ [Command.linkShow, .wgDump,
    .nftList .inet nftTable], Saw ran command es) fun _ op r es hop h c hc =>
      quietStable_saw _ _ _ op r es hop (h c hc)) (fun es h => h.1.1.1.1.1.notReadyYet)
    (fun es h => ?_) ⟨h, hverified.2⟩ hverified.1
  obtain ⟨⟨⟨⟨⟨hunderway, hprepared, hconfigured⟩, hrules⟩, hreported⟩, hup⟩, hverified⟩ := h
  exact ⟨hprepared, hconfigured, hrules, hreported, hup, hverified, hunderway.uncleaned⟩

theorem supervise_wp (g : Gateway) (fuel : Nat) {es : List GatewayEvent} (h : IsReady g es) :
    (supervise g fuel).wp writing.log (ReadyMeansReady g) (fun _ => ReadyMeansReady g) es := by
  have quiet := quietStable_isReady g
  have ready {es : List GatewayEvent} (h : IsReady g es) : ReadyMeansReady g es := fun _ => h
  induction fuel generalizing es with
  | zero =>
    exact ((quiet.keeps (perform_quiet (by trivial))) es h).mono (fun _ => ready) fun _ _ _ => ready
  | succ fuel ih =>
    have hwait : (Prog.perform .waitStop : GatewayM Bool).Keeps writing.log (IsReady g) :=
      fun es h => Prog.wp_perform.mpr ⟨h, fun r es' hstep => by
        obtain rfl := log_step hstep
        exact ⟨h.cons rfl id, h.cons rfl id⟩⟩
    refine Prog.wp_bind_keeps hwait (Prog.yields_trivial _ es) h
      (fun _ => ready) (fun _ _ => ready) fun stop es h _ => ?_
    split
    · exact ⟨ready h, ready h⟩
    · refine Prog.wp_bind_keeps (quiet.keeps (perform_quiet (by trivial))) (Prog.yields_trivial _ es) h
        (fun _ => ready) (fun _ _ => ready) fun child es h _ => ?_
      cases child with
      | none => exact ⟨ready h, ready h⟩
      | some pid =>
        refine Prog.wp_bind_keeps (quiet.keeps (perform_quiet (by trivial))) (poll_yields pid es) h
          (fun _ => ready) (fun _ _ => ready) fun code es h hcode => ?_
        split
        · exact ⟨ready h, ready h⟩
        · rename_i hc
          refine Prog.wp_bind.mpr ((writeReady_wp g quiet (fun _ => ready)
            (fun _ h => h.toEstablished) h (hcode (not_not.mp hc))).post fun r es _ hr => ?_)
          cases r with
          | error e => exact hr.1
          | ok _ => exact ih (hr.2 rfl)

theorem start_wp (g : Gateway) (fuel : Nat) {es : List GatewayEvent}
    (h : lastState es ≠ some GatewayState.ready.text) :
    (start g fuel).wp writing.log (ReadyMeansReady g)
      (fun r es => ReadyMeansReady g es ∧ (r.isOk = true → IsReady g es)) es := by
  refine Prog.wp_bind_keeps (notReady_keeps (Prog.only_perform.mpr trivial))
    (Prog.yields_trivial _ es) h (fun _ => readyMeansReady_of_ne)
    (fun _ _ h => ⟨readyMeansReady_of_ne h, nofun⟩) fun _ es h _ => ?_
  refine Prog.wp_bind_keeps (cleanup_readyMeansReady g) (Prog.yields_trivial _ es)
    (readyMeansReady_of_ne h) (fun _ => id) (fun _ _ h => ⟨h, nofun⟩) fun _ es h _ => ?_
  refine Prog.wp_bind.mpr ((writeOther_wp g (by simp) false none h).post fun r es _ h => ?_)
  cases r with
  | error e => exact ⟨h.1, nofun⟩
  | ok _ =>
    obtain ⟨hstate, hsince⟩ := h.2 rfl
    have hempty := hsince rfl
    have hnot (command : Command) : NotYet command es := by
      rintro ⟨e, he, -⟩
      rw [hempty] at he
      cases he
    have huntouched : Untouched es :=
      ⟨⟨hstate, hempty ▸ trivial⟩, hnot _, fun v => hnot _⟩
    refine Prog.wp_handle.mpr ((bringUp_wp g fuel huntouched).post fun r es _ h => ?_)
    cases r with
    | ok _ => exact h
    | error e =>
      -- the rollback writes no `ready`
      refine Prog.wp_bind_keeps ((cleanup_readyMeansReady g).handle fun e => ?_)
        (Prog.yields_trivial _ es) h.1 (fun _ => id) (fun _ _ h => ⟨h, nofun⟩)
        fun _ es h _ => ⟨h, h, nofun⟩
      split
      · exact Prog.keeps_ret
      · exact Prog.keeps_raise

theorem terminate_readyMeansReady (g : Gateway) (e : Exn) :
    (terminate g e).Keeps writing.log (ReadyMeansReady g) := by
  have write {state : GatewayState} (hs : state ≠ .ready) (b : Bool) (m : Option String) :
      (writeStatus g state b m).Keeps writing.log (ReadyMeansReady g) :=
    fun _ h => (writeOther_wp g hs b m h).post fun _ _ h _ => h
  unfold terminate
  refine Prog.Keeps.bind (Prog.Keeps.handle ?_ fun failure => ?_) fun failure => ?_
  · exact (cleanup_readyMeansReady g).bind fun _ => Prog.keeps_ret
  · split
    · exact Prog.keeps_ret
    · exact Prog.keeps_raise
  · refine (write ?_ _ _).bind fun _ => Prog.keeps_raise
    split <;> simp

theorem runGateway_wp (g : Gateway) (fuel : Nat) {es : List GatewayEvent}
    (h : lastState es ≠ some GatewayState.ready.text) :
    (runGateway g fuel).wp writing.log (ReadyMeansReady g) (fun _ _ => True) es := by
  have write (state : GatewayState) (hs : state ≠ .ready) (b : Bool) (m : Option String) :
      (writeStatus g state b m).Keeps writing.log (ReadyMeansReady g) :=
    fun _ h => (writeOther_wp g hs b m h).post fun _ _ h _ => h
  have hserve : (tryCatch (do start g fuel; supervise g fuel) (terminate g) : GatewayM Unit).wp
      writing.log (ReadyMeansReady g) (fun _ => ReadyMeansReady g) es := by
    refine Prog.wp_handle.mpr (Prog.wp_bind.mpr ((start_wp g fuel h).post fun r es _ h => ?_))
    cases r with
    | error e => exact terminate_readyMeansReady g e es h.1
    | ok _ =>
      refine (supervise_wp g fuel (h.2 rfl)).post fun r es h _ => ?_
      cases r with
      | ok _ => exact h
      | error e => exact terminate_readyMeansReady g e es h
  refine Prog.wp_bind.mpr (hserve.post fun r es _ h => ?_)
  cases r with
  | error e => trivial
  | ok _ =>
    refine Prog.wp.post (((cleanup_readyMeansReady g).bind fun _ =>
      (write .stopped (by simp) _ _).bind fun _ => Prog.keeps_ret) es h) fun _ _ _ _ => trivial

/-- Whatever fails, however many rounds there are and whenever the stop comes: while the last
status this run has written is `ready`, everything that status stands for has happened since the
initial cleanup and none of it has been undone. -/
theorem readyMeansReady (g : Gateway) (fuel : Nat) (w w' : World) (es : List GatewayEvent)
    (h : (runGateway g fuel).Visits machine.traced (w, []) (w', es))
    (hwrites : ∀ e ∈ es, writeFailed e = false)
    (hready : lastState es = some GatewayState.ready.text) : IsReady g es := by
  obtain ⟨q, h⟩ := h
  have hlog := Prog.Exec.log_guard (P := fun e => writeFailed e = false) h hwrites
  exact (runGateway_wp g fuel (by simp [lastState])).visits ⟨q, hlog⟩ hready

/-- A plain startup: the last status is `ready` and means it. -/
theorem readyMeansReady_start : ∃ w es, (runGateway exampleGateway 1).Visits machine.traced
    (freshWorld, []) (w, es) ∧ lastState es = some "ready" ∧ IsReady exampleGateway es := by
  have hrun := Prog.visits_play (Prog.step_traceOracle (step_oracle fun _ _ => false)) 55
    (runGateway exampleGateway 1) (freshWorld, [])
  exact ⟨_, _, hrun, by decide +kernel,
    readyMeansReady exampleGateway 1 _ _ _ hrun (by decide +kernel) (by decide +kernel)⟩

end Runtime
end ShuttleGate
