import ShuttleGate.Effect.Blind
import ShuttleGate.Runtime.Parts

/-! # Secrets in the dump

`wg show wg0 dump` prints the private key of the interface in its first line and the preshared keys
in the second column of the others. The status takes neither up: dumps that differ there only give
the same entries, and the gateway goes on alike after either. A dump that fails without a diagnosis
of its own is the exception, since the error then quotes what it printed. -/

namespace ShuttleGate

open Effect

namespace Runtime

/-! ## Dumps that differ in secrets -/

/-- Lines of as many columns, the same but for the second one. -/
def SameLine (line line' : String) : Prop :=
  (splitOn '\t' line).length = (splitOn '\t' line').length ∧
    ∀ i, i ≠ 1 → (splitOn '\t' line)[i]? = (splitOn '\t' line')[i]?

/-- Dumps of one shape that differ in their first lines and in the second columns of the others. -/
structure SameButSecrets (dump dump' : String) : Prop where
  lines : (splitlines dump).length = (splitlines dump').length
  first : ∀ line ∈ (splitlines dump).head?, ∀ line' ∈ (splitlines dump').head?,
    (splitOn '\t' line).length = (splitOn '\t' line').length
  peers : List.Forall₂ SameLine (splitlines dump).tail (splitlines dump').tail

/-- Lists that agree but for the second element. -/
theorem eq_or_second {cs cs' : List String} (hlen : cs.length = cs'.length)
    (h : ∀ i, i ≠ 1 → cs[i]? = cs'[i]?) :
    cs = cs' ∨ ∃ c d d' rest, cs = c :: d :: rest ∧ cs' = c :: d' :: rest := by
  match cs, cs', hlen with
  | [], [], _ => exact .inl rfl
  | [c], [c'], _ => exact .inl (by simpa using h 0 (by decide))
  | c :: d :: rest, c' :: d' :: rest', _ =>
    have hc : c = c' := by simpa using h 0 (by decide)
    have hrest : rest = rest' := List.ext_getElem? fun i => by
      simpa using h (i + 2) (by omega)
    exact .inr ⟨c, d, d', rest, rfl, by rw [hc, hrest]⟩

/-- The second column of a line does not matter. -/
theorem peerEntry_congr (h : SameLine line line') : peerEntry names line = peerEntry names line' := by
  unfold peerEntry
  rcases eq_or_second h.1 h.2 with heq | ⟨c, d, d', rest, heq, heq'⟩
  · rw [heq]
  · rw [heq, heq']
    rcases rest with _ | ⟨_, _ | ⟨_, _ | ⟨_, _ | ⟨_, _ | ⟨_, _ | ⟨_, _⟩⟩⟩⟩⟩⟩ <;> rfl

theorem mapM_peerEntry (h : List.Forall₂ SameLine lines lines') :
    lines.mapM (peerEntry names) = lines'.mapM (peerEntry names) := by
  induction h with
  | nil => rfl
  | cons hline _ ih => rw [List.mapM_cons, List.mapM_cons, peerEntry_congr hline, ih]

theorem peerEntries_congr (h : SameButSecrets dump dump') :
    peerEntries names dump = peerEntries names dump' := by
  rw [peerEntries, peerEntries, mapM_peerEntry h.peers]

/-! ## The runner -/

/-- What the runner makes of a result. -/
def checked (command : Command) (check : Bool) (result : CommandResult) : Except Exn CommandResult :=
  if check && result.returncode != 0 then
    let output := if result.stderr = "" then result.stdout else result.stderr
    let diagnostic := String.ofList ((strip output).toList.take 8192)
    let suffix := if diagnostic = "" then "" else s!": {diagnostic}"
    let executable := command.arguments.headD ""
    .error (.command s!"{executable} exited with status {result.returncode}{suffix}")
  else .ok result

theorem run_eq (command : Command) (check : Bool) : run command check =
    (Prog.perform (.run command)).bind fun result => Prog.ofExcept (checked command check result) := by
  unfold run
  refine congrArg _ (funext fun result => ?_)
  unfold checked
  split <;> rfl

/-- A result whose output the runner does not quote. -/
def CommandResult.Silent (result : CommandResult) : Prop := result.returncode = 0 ∨ result.stderr ≠ ""

/-- Results of one status and one diagnosis that differ in the secrets of their dumps. -/
structure SameDump (r r' : CommandResult) : Prop where
  returncode : r.returncode = r'.returncode
  stderr : r.stderr = r'.stderr
  silent : r.Silent
  stdout : SameButSecrets r.stdout r'.stdout

theorem checked_congr (command : Command) (check : Bool) (h : SameDump r r') :
    (checked command check r = .ok r ∧ checked command check r' = .ok r') ∨
      ∃ e, checked command check r = .error e ∧ checked command check r' = .error e := by
  unfold checked
  rw [← h.returncode, ← h.stderr]
  rcases h.silent with hcode | herr
  · simp [hcode]
  · rw [if_neg herr, if_neg herr]
    split
    · exact .inr ⟨_, rfl, rfl⟩
    · exact .inl ⟨rfl, rfl⟩

/-! ## The entries of the status -/

/-- The answers of the peer keys and of the dump. -/
def dumpAnswers (keys : String → Except Exn (KeyPair × String)) (dump : CommandResult) :
    {β : Type} → GatewayOp β → Except Exn β
  | _, .loadPeerKeys name => keys name
  | _, .run .wgDump => .ok dump
  | _, _ => .error (.error "AssertionError")

section
variable {keys : String → Except Exn (KeyPair × String)} {dump dump' : CommandResult}

/-- The names of the peers come before the dump. -/
theorem eval_peerNames (dump dump' : CommandResult) (peers : List PeerConfig) :
    (peerNames peers).eval (dumpAnswers keys dump) = (peerNames peers).eval (dumpAnswers keys dump') := by
  refine Prog.Only.eval_eq (peerNames_only (P := fun op => dumpAnswers keys dump op =
    dumpAnswers keys dump' op) (fun name => rfl) peers) fun op h => h

theorem eval_peerStatus (g : Gateway) : (peerStatus g).eval (dumpAnswers keys dump) =
    (peerNames g.config.wireguard.peers).eval (dumpAnswers keys dump) >>= fun names =>
      checked .wgDump true dump >>= fun result => peerEntries names result.stdout := by
  unfold peerStatus
  rw [run_eq]
  simp only [Prog.bind_def, Prog.eval_bind, Prog.eval_perform, Prog.eval_ofExcept]
  rfl

/-- The names are there exactly when the keys of every peer are. -/
theorem eval_peerNames_eq_ok (peers : List PeerConfig) :
    (∃ names, (peerNames peers).eval (dumpAnswers keys dump) = .ok names) ↔
      ∀ peer ∈ peers, ∃ pair, keys peer.name = .ok pair := by
  induction peers with
  | nil => exact ⟨fun _ => List.forall_mem_nil _, fun _ => ⟨[], rfl⟩⟩
  | cons peer rest ih =>
    rw [List.forall_mem_cons, ← ih]
    simp only [peerNames, Prog.bind_def, Prog.eval_bind, Prog.eval_perform, bind_eq_ok]
    constructor
    · rintro ⟨_, pair, hpair, names, hnames, -⟩
      exact ⟨⟨pair, hpair⟩, names, hnames⟩
    · rintro ⟨⟨pair, hpair⟩, names, hnames⟩
      exact ⟨_, pair, hpair, names, hnames, rfl⟩

/-- Of a failed dump without a diagnosis the output is quoted. -/
theorem checked_quotes (hcode : returncode ≠ 0) (hne : stdout ≠ "")
    (hquoted : String.ofList ((strip stdout).toList.take 8192) = stdout) :
    checked .wgDump true ⟨returncode, stdout, ""⟩ =
      .error (.command (s!"wg exited with status {returncode}: " ++ stdout)) := by
  unfold checked
  rw [if_pos (by simpa using hcode)]
  simp only [if_true, hquoted, if_neg hne]
  refine congrArg (fun m => Except.error (Exn.command m)) (String.toList_inj.mp ?_)
  simp [Command.arguments, toString]

/-- With the keys of every peer, the error of such a dump is its output. -/
theorem eval_peerStatus_quotes {g : Gateway}
    (hkeys : ∀ peer ∈ g.config.wireguard.peers, ∃ pair, keys peer.name = .ok pair)
    (hcode : returncode ≠ 0) (hne : stdout ≠ "")
    (hquoted : String.ofList ((strip stdout).toList.take 8192) = stdout) :
    (peerStatus g).eval (dumpAnswers keys ⟨returncode, stdout, ""⟩) =
      .error (.command (s!"wg exited with status {returncode}: " ++ stdout)) := by
  obtain ⟨names, hnames⟩ := (eval_peerNames_eq_ok _).mpr hkeys
  rw [eval_peerStatus, hnames, checked_quotes hcode hne hquoted]
  rfl

theorem bind_congr_ok {x : Except ε α} {f f' : α → Except ε β} (h : ∀ a, x = .ok a → f a = f' a) :
    (x >>= f) = (x >>= f') := by
  cases x with
  | error e => rfl
  | ok a => exact h a rfl

/-- The errors of two outputs differ as the outputs do. -/
theorem quotes_inj {front out out' : String}
    (h : (Except.error (.command (front ++ out)) : Except Exn (List Json)) =
      .error (.command (front ++ out'))) : out = out' := by
  have hmessage := congrArg String.toList (Exn.command.inj (Except.error.inj h))
  rw [String.toList_append, String.toList_append] at hmessage
  exact String.toList_inj.mp (List.append_cancel_left hmessage)

/-- A dump of one line with so many columns that the runner quotes as it is. -/
structure QuotedDump (columns : Nat) where
  text : String
  line : splitlines text = [text]
  length_columns : (splitOn '\t' text).length = columns
  ne_empty : text ≠ ""
  quoted : String.ofList ((strip text).toList.take 8192) = text

/-- One line is the line of the interface. -/
theorem QuotedDump.sameButSecrets (d d' : QuotedDump n) : SameButSecrets d.text d'.text := by
  have hlines := d.line
  have hlines' := d'.line
  refine ⟨by rw [hlines, hlines']; rfl, fun line hline line' hline' => ?_, ?_⟩
  · rw [hlines] at hline
    rw [hlines'] at hline'
    cases hline
    cases hline'
    rw [d.length_columns, d'.length_columns]
  · rw [hlines, hlines']
    exact .nil

/-- With the keys of every peer, two such dumps are told apart. -/
theorem QuotedDump.eval_ne {g : Gateway}
    (hkeys : ∀ peer ∈ g.config.wireguard.peers, ∃ pair, keys peer.name = .ok pair)
    (hcode : returncode ≠ 0) {d d' : QuotedDump n} (h : d.text ≠ d'.text) :
    (peerStatus g).eval (dumpAnswers keys ⟨returncode, d.text, ""⟩) ≠
      (peerStatus g).eval (dumpAnswers keys ⟨returncode, d'.text, ""⟩) := by
  rw [eval_peerStatus_quotes hkeys hcode d.ne_empty d.quoted,
    eval_peerStatus_quotes hkeys hcode d'.ne_empty d'.quoted]
  exact fun heq => h (quotes_inj heq)

end

def letterDump : QuotedDump 1 :=
  ⟨"a", by decide +kernel, by decide +kernel, by decide, by decide +kernel⟩

def otherLetterDump : QuotedDump 1 :=
  ⟨"b", by decide +kernel, by decide +kernel, by decide, by decide +kernel⟩

/-- What is left of a dump that is killed after its first line. -/
def killedDump : QuotedDump 4 := ⟨"cHJpdmF0ZQ==\tcHVibGlj\t51820\toff",
  by decide +kernel, by decide +kernel, by decide, by decide +kernel⟩

/-- The same with another private key. -/
def killedDump' : QuotedDump 4 := ⟨"c2VjcmV0\tcHVibGlj\t51820\toff",
  by decide +kernel, by decide +kernel, by decide, by decide +kernel⟩

/-! ## The gateway -/

/-- Answers the gateway must not tell apart. -/
def Related : {β : Type} → GatewayOp β → Except Exn β → Except Exn β → Prop
  | _, .run .wgDump, .ok r, .ok r' => SameDump r r'
  | _, _, _, _ => False

/-- An operation without related answers. -/
def Undumped {β : Type} (op : GatewayOp β) : Prop := ∀ r r', ¬ Related op r r'

theorem undumped_run {command : Command} (h : command ≠ .wgDump) : Undumped (.run command) := by
  intro r r' hr
  cases command with
  | wgDump => exact h rfl
  | _ => exact hr

theorem blind_of_undumped {p : GatewayM α} (h : p.Only Undumped) : p.Blind Related :=
  h.blind fun _ h => h

/-- The dump followed by a use of its output that leaves the secrets out. -/
theorem blind_dump {f : CommandResult → GatewayM α} (hf : ∀ r, (f r).Blind Related)
    (h : ∀ r r', SameButSecrets r.stdout r'.stdout → f r = f r') :
    ((run .wgDump).bind f).Blind Related := by
  have hcall : (run .wgDump).bind f = (Prog.perform (.run .wgDump)).andThen fun answer =>
      (Prog.ofExcept (answer >>= checked .wgDump true)).bind f := by
    rw [run_eq]
    refine congrArg (Prog.call _) (funext fun answer => ?_)
    cases answer <;> rfl
  rw [hcall]
  refine Prog.blind_perform ?_ fun answer => (Prog.blind_ofExcept _).bind hf
  intro answer answer' hr
  rcases answer with e | r
  · exact hr.elim
  rcases answer' with e | r'
  · exact hr.elim
  · change (Prog.ofExcept (checked .wgDump true r)).bind f =
      (Prog.ofExcept (checked .wgDump true r')).bind f
    rcases checked_congr .wgDump true hr with ⟨hok, hok'⟩ | ⟨e, he, he'⟩
    · rw [hok, hok']
      exact h _ _ hr.stdout
    · rw [he, he']

section
variable (g : Gateway) (fuel : Nat)

theorem peerStatus_blind : (peerStatus g).Blind Related := by
  refine Prog.Blind.bind (blind_of_undumped (peerNames_only (fun name => ?_) _)) fun names => ?_
  · exact fun _ _ hr => hr
  · refine blind_dump (fun _ => Prog.blind_ofExcept _) fun r r' h => ?_
    rw [peerEntries_congr h]

/-- Every operation but the dump. -/
theorem perform_blind {op : GatewayOp β} (h : Undumped op) :
    (Prog.perform op : GatewayM β).Blind Related := blind_of_undumped (Prog.only_perform.mpr h)

theorem run_blind {command : Command} {check : Bool} (h : command ≠ .wgDump) :
    (run command check).Blind Related := blind_of_undumped (run_only (undumped_run h))

theorem writeStatus_blind (state : GatewayState) (ignoreErrors : Bool) (error : Option String) :
    (writeStatus g state ignoreErrors error).Blind Related := by
  unfold writeStatus
  refine (perform_blind (by exact fun _ _ => id)).bind fun child => ?_
  have write (peers : List Json) : (tryCatch
      (Prog.perform (.writeStatus (statusValue g state child peers error))) fun e =>
        if e.isOSError && ignoreErrors then pure () else throw e : GatewayM Unit).Blind Related := by
    refine (perform_blind (by exact fun _ _ => id)).handle fun e => ?_
    split <;> simp
  split
  · exact (peerStatus_blind g).bind write
  · exact Prog.blind_ret.bind write

theorem cleanup_blind : (cleanup g).Blind Related := by
  refine (writeStatus_blind g _ _ _).bind fun _ => ?_
  refine (perform_blind (by exact fun _ _ => id)).bind fun child => ?_
  refine Prog.Blind.bind (blind_of_undumped (attempt_only (stopProcess_only
    (fun _ => ⟨fun _ _ hr => hr, fun _ _ hr => hr, fun _ _ hr => hr, fun _ _ _ hr => hr⟩) child)))
    fun _ => (perform_blind (by exact fun _ _ => id)).bind fun _ => ?_
  refine Prog.Blind.bind (blind_of_undumped (runCleanup_only _ fun command hc => undumped_run ?_))
    fun failures => ?_
  · rintro rfl
    exact absurd hc (by decide)
  · exact Prog.blind_raise.ite Prog.blind_ret

theorem setupWireguard_blind : (setupWireguard g).Blind Related := by
  refine (run_blind (by simp)).bind fun _ => (run_blind (by simp)).bind fun _ => ?_
  refine (Prog.blind_forEach _ fun _ _ => (run_blind (by simp)).bind fun _ => Prog.blind_ret).bind
    fun _ => ?_
  refine (perform_blind (by exact fun _ _ => id)).bind fun server => ?_
  refine Prog.Blind.bind (blind_of_undumped (loadKeys_only (fun _ _ _ hr => hr) _)) fun peers => ?_
  refine (Prog.blind_ofExcept _).bind fun privateConfig => ?_
  refine (perform_blind (by exact fun _ _ => id)).bind fun _ => ?_
  exact (run_blind (by simp)).bind fun _ => (run_blind (by simp)).bind fun _ => Prog.blind_ret

theorem setupPolicyRouting_blind : (setupPolicyRouting g).Blind Related :=
  Prog.blind_forEach _ fun _ _ => (run_blind (by simp)).bind fun _ => (run_blind (by simp)).bind fun _ =>
    (run_blind (by simp)).bind fun _ => Prog.blind_ret

theorem startSshuttle_blind : (startSshuttle g fuel).Blind Related :=
  blind_of_undumped (startSshuttle_only g fuel
    ⟨fun _ _ hr => hr, fun _ _ _ hr => hr, fun _ _ hr => hr, fun _ _ hr => hr⟩
    ⟨fun _ _ hr => hr, fun _ _ hr => hr, fun _ _ hr => hr, fun _ _ hr => hr⟩
    (fun _ _ _ hr => hr) fun _ _ _ hr => hr)

/-- The checks after the startup ask for the dump and leave its output alone. -/
theorem verifyPostconditions_blind : verifyPostconditions.Blind Related := by
  refine (perform_blind (by exact fun _ _ => id)).bind fun child => ?_
  cases child with
  | none => exact Prog.blind_raise
  | some pid =>
    refine (perform_blind (by exact fun _ _ => id)).bind fun code => ?_
    split
    · exact Prog.blind_raise
    · simp only [Prog.forEach]
      refine ((run_blind (by simp)).bind fun _ => Prog.blind_ret).bind fun _ => ?_
      refine Prog.Blind.bind (blind_dump (fun _ => Prog.blind_ret) fun _ _ _ => rfl) fun _ => ?_
      exact ((run_blind (by simp)).bind fun _ => Prog.blind_ret).bind fun _ => Prog.blind_ret

theorem bringUp_blind : (bringUp g fuel).Blind Related := by
  refine Prog.Blind.bind (blind_of_undumped (configureNamespace_only g fun _ _ _ _ hr => hr))
    fun _ => Prog.Blind.bind ?_ fun _ => ?_
  · refine Prog.Blind.handle (blind_of_undumped (remotePythonCheck_only g fun _ _ _ hr => hr))
      fun e => ?_
    split <;> exact Prog.blind_raise
  · refine (run_blind (by simp)).bind fun _ => (run_blind (by simp)).bind fun _ => ?_
    refine (setupWireguard_blind g).bind fun _ => (setupPolicyRouting_blind g).bind fun _ => ?_
    refine (startSshuttle_blind g fuel).bind fun _ => ?_
    refine ((run_blind (by simp)).bind fun _ => Prog.blind_ret).bind fun _ => ?_
    exact verifyPostconditions_blind.bind fun _ => writeStatus_blind g _ _ _

theorem start_blind : (start g fuel).Blind Related := by
  refine (perform_blind (by exact fun _ _ => id)).bind fun _ => (cleanup_blind g).bind fun _ => ?_
  refine (writeStatus_blind g _ _ _).bind fun _ => (bringUp_blind g fuel).handle fun e => ?_
  refine Prog.Blind.bind ((cleanup_blind g).handle fun e => ?_) fun _ => Prog.blind_raise
  exact Prog.blind_ret.ite Prog.blind_raise

theorem supervise_blind : (supervise g fuel).Blind Related := by
  induction fuel with
  | zero => exact (perform_blind (by exact fun _ _ => id))
  | succ fuel ih =>
    refine (perform_blind (by exact fun _ _ => id)).bind fun stop => ?_
    cases stop with
    | true => exact Prog.blind_ret
    | false =>
      refine (perform_blind (by exact fun _ _ => id)).bind fun child => ?_
      cases child with
      | none => exact Prog.blind_raise
      | some pid =>
        refine (perform_blind (by exact fun _ _ => id)).bind fun code => ?_
        split
        · exact Prog.blind_raise
        · exact (writeStatus_blind g _ _ _).bind fun _ => ih

theorem terminate_blind (e : Exn) : (terminate g e).Blind Related := by
  refine Prog.Blind.bind (((cleanup_blind g).bind fun _ => Prog.blind_ret).handle fun failure => ?_)
    fun cleanupError => (writeStatus_blind g _ _ _).bind fun _ => Prog.blind_raise
  exact Prog.blind_ret.ite Prog.blind_raise

/-- The gateway does not tell apart dumps that differ in secrets only. -/
theorem runGateway_blind : (runGateway g fuel).Blind Related := by
  refine Prog.Blind.bind (Prog.Blind.handle ((start_blind g fuel).bind fun _ =>
    supervise_blind g fuel) (terminate_blind g)) fun _ => ?_
  exact (cleanup_blind g).bind fun _ => (writeStatus_blind g _ _ _).bind fun _ => Prog.blind_ret

end

/-- The entries of the status, or the error in their place, are the same for any two dumps that
differ in secrets only, exactly when the keys of a peer are missing or the runner quotes no output;
and then the gateway goes on alike after either dump. -/
theorem secretFree_iff (g : Gateway) (keys : String → Except Exn (KeyPair × String))
    (returncode : Int) (stderr : String) :
    ((∀ dump dump', SameButSecrets dump dump' →
        (peerStatus g).eval (dumpAnswers keys ⟨returncode, dump, stderr⟩) =
          (peerStatus g).eval (dumpAnswers keys ⟨returncode, dump', stderr⟩)) ↔
      (∃ peer ∈ g.config.wireguard.peers, ∀ pair, keys peer.name ≠ .ok pair) ∨
        returncode = 0 ∨ stderr ≠ "") ∧
    ∀ fuel, (runGateway g fuel).Blind Related := by
  refine ⟨⟨fun hall => ?_, fun h dump dump' hdump => ?_⟩, runGateway_blind g⟩
  · by_contra hnot
    simp only [not_or, not_exists, not_and, not_forall, not_not] at hnot
    obtain ⟨hkeys, hcode, rfl⟩ := hnot
    exact QuotedDump.eval_ne hkeys hcode (by decide)
      (hall _ _ (letterDump.sameButSecrets otherLetterDump))
  · rw [eval_peerStatus, eval_peerStatus, eval_peerNames _ ⟨returncode, dump', stderr⟩]
    refine bind_congr_ok fun names hnames => ?_
    rcases h with ⟨peer, hpeer, hmissing⟩ | hsilent
    · obtain ⟨pair, hpair⟩ := (eval_peerNames_eq_ok _).mp ⟨names, hnames⟩ peer hpeer
      exact absurd hpair (hmissing pair)
    · have hsame : SameDump ⟨returncode, dump, stderr⟩ ⟨returncode, dump', stderr⟩ :=
        ⟨rfl, rfl, hsilent, hdump⟩
      rcases checked_congr .wgDump true hsame with ⟨hok, hok'⟩ | ⟨e, he, he'⟩
      · rw [hok, hok']
        exact peerEntries_congr hdump
      · rw [he, he']

/-- A dump that is killed after its first line says nothing on its standard error, and the error
quotes the private key. -/
theorem killedDump_quoted : ¬ ∀ (g : Gateway) (keys : String → Except Exn (KeyPair × String))
    (returncode : Int) (stderr dump dump' : String), SameButSecrets dump dump' →
      (peerStatus g).eval (dumpAnswers keys ⟨returncode, dump, stderr⟩) =
        (peerStatus g).eval (dumpAnswers keys ⟨returncode, dump', stderr⟩) := by
  intro hall
  exact QuotedDump.eval_ne (fun _ _ => ⟨_, rfl⟩) (by decide) (by decide)
    (hall exampleGateway (fun _ => .ok (⟨"", ""⟩, "")) (-9) "" _ _
      (killedDump.sameButSecrets killedDump'))

end Runtime

end ShuttleGate
