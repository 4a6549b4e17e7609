import ShuttleGate.Claims.RoundTrip
import ShuttleGate.Fs.Mounts
import ShuttleGate.Os.Host
import ShuttleGate.State.Store

/-! # The runtime directory

The launcher and the gateway write their files into the two directories below the runtime root of
an instance, and the launcher takes away what it knows. Every operation on the way keeps the
directory tidy (`Tidy`): there is nothing at or below the root that is not known. So a run may end
anywhere, and the next one still finds only what it knows (`Reached.tidy`). -/

namespace ShuttleGate

open Fs Effect Os Files

namespace Host

/-- The volatile paths of an instance. -/
structure RuntimePaths where
  unitName : String
  root : Path
  deriving DecidableEq

namespace RuntimePaths

def inputs (paths : RuntimePaths) : Path := paths.root / "inputs"
def output (paths : RuntimePaths) : Path := paths.root / "output"
def launch (paths : RuntimePaths) : Path := paths.inputs / "launch.json"
def bundle (paths : RuntimePaths) : Path := paths.inputs / "application.pyz"

end RuntimePaths

/-- `runtime_paths` of a resolved instance directory, where `xdg` is `XDG_RUNTIME_DIR`. -/
def runtimePaths (xdg : Path) (resolved : String) : RuntimePaths where
  unitName := "shuttle-gate-" ++ Claims.instanceId resolved ++ ".service"
  root := xdg / "shuttle-gate" / Claims.instanceId resolved

/-! ## The launcher -/

def inputNames : List String := ["launch.json", "application.pyz"]
def outputNames : List String := ["status.json", "wireguard.conf", "sshuttle-notify.sock"]

/-- The `allowed` of `_remove_known_runtime_files`. -/
def RuntimePaths.allowed (paths : RuntimePaths) : List (Path × List String) :=
  [(paths.inputs, inputNames), (paths.output, outputNames)]

/-- A temporary file of an atomic write: `.name.` and `TEMPORARY_SUFFIX_PATTERN`. -/
def isTemporary (child name : String) : Bool :=
  let front := "." ++ name ++ "."
  decide (front.toList <+: child.toList ∧ IsTempSuffix (.ofList (child.toList.drop front.length)))

def removeChild (directory : Path) (names : List String) (child : String) : OsM Unit := do
  let unexpected := Exn.host s!"refusing to remove unexpected runtime object: {(directory / child).text}"
  if child ∉ names ∧ names.any (isTemporary child) = false then throw unexpected
  if ← Prog.perform (.isDir (directory / child)) then throw unexpected
  unlinkMissingOk (directory / child)

def removeRuntimeDirectory (directory : Path) (names : List String) : OsM Unit := do
  if ← Prog.perform (.pathExists directory) then
    let invalid := Exn.host s!"refusing to remove invalid runtime directory: {directory.text}"
    if ← isSymlink directory then throw invalid
    unless ← Prog.perform (.isDir directory) do throw invalid
    let children ← Prog.perform (.listdir directory)
    Prog.forEach children (removeChild directory names)
    tryCatch (Prog.perform (.rmdir directory)) fun e =>
      if e.isOSError then
        throw (.host s!"cannot remove runtime directory {directory.text}: {e.message}")
      else throw e

/-- `_remove_known_runtime_files` -/
def removeKnownRuntimeFiles (paths : RuntimePaths) : OsM Unit := do
  Prog.forEach paths.allowed fun entry => removeRuntimeDirectory entry.1 entry.2
  if ← Prog.perform (.pathExists paths.root) then
    tryCatch (Prog.perform (.rmdir paths.root)) fun e =>
      if e.isOSError then
        throw (.host s!"refusing to remove non-empty runtime directory: {paths.root.text}")
      else throw e
  suppressOSError (Prog.perform (.rmdir paths.root.parent))

/-- `_prepare_runtime_directories` -/
def prepareRuntimeDirectories (paths : RuntimePaths) : OsM Unit := do
  ensurePrivateDirectory paths.root.parent
  ensurePrivateDirectory paths.root
  ensurePrivateDirectory paths.inputs
  ensurePrivateDirectory paths.output

/-- `lifecycle_lock` around a body, in the state directory of the instance. -/
def lifecycleLock (state : Path) (body : OsM α) : OsM α := do
  ensurePrivateDirectory state
  let lock := state / ".lifecycle.lock"
  let st ← tryCatch (Prog.perform (.openCreate lock 0o600)) fun e =>
    if e.isOSError then throw (.host s!"cannot open lifecycle lock {lock.text}: {e.message}")
    else throw e
  Prog.finally' (do
      if st.kind ≠ .regular then
        throw (.host s!"lifecycle lock must be a regular file: {lock.text}")
      Prog.perform (.chmod lock 0o600)
      tryCatch (Prog.perform (.flock lock true false)) fun e =>
        if e.isBlocking then throw (.host "another up or down operation is already running")
        else throw e
      body)
    (suppressOSError (Prog.perform (.unlock lock)))

/-- `_host_state` -/
def hostState (paths : RuntimePaths) : OsM String := do
  let result ← Prog.perform (.run ["systemctl", "--user", "show", "--property=ActiveState", "--value",
    "--", paths.unitName] none)
  let value := strip result.stdout
  return if result.returncode ≠ 0 ∨ value = "" then "inactive" else value

/-- `prepare_socket_claims` of the named files in the claims directory. -/
def prepareSocketClaims (directory : Path) (names : List String) : OsM Unit := do
  if names = [] then throw (.host "socket claim set is invalid")
  ensurePrivateDirectory directory
  Prog.forEach names fun name => do
    let st ← tryCatch (Prog.perform (.openCreate (directory / name) 0o600)) fun e =>
      if e.isOSError then throw (.host "cannot create a host UDP socket claim") else throw e
    if st.kind ≠ .regular then
      throw (.host "host UDP socket claim ownership or type is invalid")
    Prog.perform (.chmod (directory / name) 0o600)
    Prog.perform (.fsync (directory / name))
  fsyncDirectory directory

/-- A program that works elsewhere than at or below a path. -/
structure Outside (root : Path) (α : Type) where
  run : OsM α
  outside : run.Only (Avoids (root <:+ ·))

/-- What `up` does beside the runtime directory. -/
structure UpWork (root : Path) where
  /-- The configuration, the commands and the host are checked. -/
  preflight : Outside root Unit
  /-- The launch manifest and the application of an active gateway are validated. -/
  validateActive : Outside root Unit
  /-- `_check_host_socket_availability` -/
  checkSockets : Outside root Unit
  /-- `_application_bundle` -/
  bundle : Outside root Bytes
  /-- What `prepare_launch` does before it writes: the key transaction is recovered, the bundle and the
  instance are validated, and the manifest is made. -/
  manifest : Outside root Json
  /-- The names of `socket_claim_paths`. -/
  claims : List String
  /-- `systemd_run_command` -/
  service : List String
  /-- `_wait_for_state` -/
  wait : Outside root Unit

/-- `prepare_launch` -/
def prepareLaunch (launch : Path) (instance' : InstancePaths) (manifest : OsM Json) : OsM Unit :=
  State.stateLock instance' true false do
    let value ← manifest
    atomicWriteJson launch value

/-- `_up` -/
def up (paths : RuntimePaths) (instance' : InstancePaths) (work : UpWork paths.root) : OsM Unit := do
  work.preflight.run
  lifecycleLock instance'.state do
    let state ← hostState paths
    if state = "active" ∨ state = "activating" then
      work.validateActive.run
      work.wait.run
    else
      work.checkSockets.run
      removeKnownRuntimeFiles paths
      prepareRuntimeDirectories paths
      let bundle ← work.bundle.run
      atomicWriteBytes paths.bundle bundle 0o600
      prepareLaunch paths.launch instance' work.manifest.run
      prepareSocketClaims (paths.root.parent / "claims") work.claims
      let result ← Prog.perform (.run work.service none)
      -- nothing was captured for the message of the failure
      if result.returncode ≠ 0 then throw (.error "AttributeError")
      work.wait.run

/-- The wait of `_down` for a stopped service, for as many polls as the deadline allows. -/
def awaitStopped (paths : RuntimePaths) : Nat → OsM Unit
  | 0 => throw (.host "gateway service did not stop within 30 seconds")
  | polls + 1 => do
    let state ← hostState paths
    if state = "inactive" ∨ state = "failed" then return ()
    awaitStopped paths polls

/-- `_down` -/
def down (paths : RuntimePaths) (instance' : InstancePaths) (polls : Nat) : OsM Unit :=
  lifecycleLock instance'.state do
    let result ← Prog.perform (.run ["systemctl", "--user", "stop", "--", paths.unitName] none)
    if result.returncode ≠ 0 ∧ result.returncode ≠ 5 then
      throw (.host "failed to stop the gateway service")
    awaitStopped paths polls
    removeKnownRuntimeFiles paths

/-! ## The gateway -/

/-- What the gateway does in its runtime directory. -/
inductive GatewayWrite
  /-- The directory, when the gateway starts. -/
  | makeDirectory
  /-- `_write_status` -/
  | status (value : Json)
  /-- The configuration in `_setup_wireguard`. -/
  | wireguard (privateConfig : String)
  /-- The socket is taken away before and after it is used in `_start_sshuttle`. -/
  | unlinkNotify

def notifySocket (paths : RuntimePaths) : Path := paths.output / "sshuttle-notify.sock"

def gatewayWrite (paths : RuntimePaths) : GatewayWrite → OsM Unit
  | .makeDirectory => do
    mkdirParents paths.output 0o700
    Prog.perform (.chmod paths.output 0o700)
  | .status value => atomicWriteJson (paths.output / "status.json") value
  | .wireguard privateConfig => atomicWrite (paths.output / "wireguard.conf") privateConfig 0o600
  | .unlinkNotify => unlinkMissingOk (notifySocket paths)

/-! ## Runs -/

/-- The trees there are after any sequence of `up`, writes of the gateway and `down`, each stopped
anywhere, while anything may change elsewhere. At first there is no runtime directory. -/
inductive Reached (paths : RuntimePaths) (instance' : InstancePaths) : Tree → Prop
  | start (h : t.get paths.root = none) : Reached paths instance' t
  | up (h : Reached paths instance' t) (work : UpWork paths.root)
      (hrun : (up paths instance' work).Visits machine t u) : Reached paths instance' u
  | gateway (h : Reached paths instance' t) (write : GatewayWrite)
      (hrun : (gatewayWrite paths write).Visits machine t u) : Reached paths instance' u
  /-- The notify socket is bound. -/
  | bindNotify (h : Reached paths instance' t) (hadd : t.add (notifySocket paths) .special = .ok u) :
      Reached paths instance' u
  | down (h : Reached paths instance' t) (polls : Nat)
      (hrun : (down paths instance' polls).Visits machine t u) : Reached paths instance' u
  | elsewhere (h : Reached paths instance' t)
      (hsame : ∀ q, paths.root <:+ q → u.get q = t.get q) : Reached paths instance' u

/-! ## A tidy directory -/

/-- A name that is allowed, or that of a temporary file of one that is. -/
def Known (names : List String) (child : String) : Prop :=
  child ∈ names ∨ ∃ name ∈ names, isTemporary child name = true

/-- An object that is unlinked: no directory, and no link that could lead to one. -/
def IsEntry (o : Obj) : Prop := (∃ mode content, o = .file mode content) ∨ o = .special

/-- What may be at a path at or below the runtime root. -/
def Allowed (paths : RuntimePaths) (q : Path) (o : Obj) : Prop :=
  (q = paths.root ∨ ∃ entry ∈ paths.allowed, q = entry.1) ∧ (∃ mode, o = .dir mode) ∨
    ∃ entry ∈ paths.allowed, ∃ n, q = entry.1 / n ∧ Known entry.2 n ∧ IsEntry o

def Tidy (paths : RuntimePaths) (t : Tree) : Prop :=
  ∀ q o, paths.root <:+ q → t.get q = some o → Allowed paths q o

/-- An operation that leaves a tidy directory tidy. -/
def Tame (paths : RuntimePaths) (op : OsOp β) : Prop :=
  ∀ t r t', Step op t r t' → Tidy paths t → Tidy paths t'

section
variable {paths : RuntimePaths} {t u : Tree} {entry : Path × List String}

theorem isTemporary_append (name : String) (h : IsTempSuffix suffix) :
    isTemporary (s!".{name}." ++ suffix) name = true := by
  have hfront : s!".{name}." = "." ++ name ++ "." := by simp [toString]
  rw [isTemporary, hfront]
  have hdrop : ("." ++ name ++ "." ++ suffix).toList.drop ("." ++ name ++ ".").length = suffix.toList := by
    rw [String.toList_append, ← String.length_toList, List.drop_left]
  simp only [decide_eq_true_eq, hdrop, String.ofList_toList]
  exact ⟨by simp, h⟩

/-- A directory of the runtime root. -/
theorem parent_of_allowed (h : entry ∈ paths.allowed) : ∃ n : String, entry.1 = paths.root / n := by
  simp only [RuntimePaths.allowed, List.mem_cons, List.not_mem_nil, or_false] at h
  rcases h with rfl | rfl
  · exact ⟨"inputs", rfl⟩
  · exact ⟨"output", rfl⟩

theorem unique_of_allowed {entry' : Path × List String} (h : entry ∈ paths.allowed)
    (h' : entry' ∈ paths.allowed) (heq : entry.1 = entry'.1) : entry = entry' := by
  simp only [RuntimePaths.allowed, List.mem_cons, List.not_mem_nil, or_false] at h h'
  have hne : paths.inputs ≠ paths.output := fun h => absurd (List.cons.inj h).1 (by decide)
  rcases h with rfl | rfl <;> rcases h' with rfl | rfl
  · rfl
  · exact absurd heq hne
  · exact absurd heq.symm hne
  · rfl

/-- What is allowed in one of the directories is no directory and has a known name. -/
theorem Allowed.child (h : entry ∈ paths.allowed) (ha : Allowed paths (l ++ n :: entry.1) o) :
    l = [] ∧ Known entry.2 n ∧ IsEntry o := by
  obtain ⟨m, hm⟩ := parent_of_allowed h
  have hlen : (l ++ n :: entry.1).length = l.length + paths.root.length + 2 := by
    rw [hm, Path.div_def, List.length_append, List.length_cons, List.length_cons]
    omega
  rcases ha with ⟨hroot | ⟨entry', h', hq⟩, -⟩ | ⟨entry', h', n', hq, hknown, ho⟩
  · rw [hroot] at hlen
    omega
  · obtain ⟨m', hm'⟩ := parent_of_allowed h'
    rw [hq, hm', Path.div_def, List.length_cons] at hlen
    omega
  · obtain ⟨m', hm'⟩ := parent_of_allowed h'
    have hl : l = [] := by
      rw [hq, hm', Path.div_def, Path.div_def, List.length_cons, List.length_cons] at hlen
      exact List.length_eq_zero_iff.mp (by omega)
    subst hl
    obtain ⟨rfl, hd⟩ := List.cons.inj hq
    obtain rfl := unique_of_allowed h h' hd
    exact ⟨rfl, hknown, ho⟩

theorem allowed_child (h : entry ∈ paths.allowed) (hn : Known entry.2 n) (ho : IsEntry o) :
    Allowed paths (entry.1 / n) o :=
  .inr ⟨entry, h, n, rfl, hn, ho⟩

/-! ## What keeps a directory tidy -/

theorem tame_of_avoids {op : OsOp β} (h : Avoids (paths.root <:+ ·) op) : Tame paths op :=
  fun _ _ _ hstep ht q o hq ho => ht q o hq ((hstep.frame (h q hq)).symm.trans ho)

theorem tame_of_reads {op : OsOp β} (h : op.Reads) : Tame paths op := tame_of_avoids h.avoids

/-- An operation that puts an allowed object at one path. -/
theorem tidy_of_put {p : Path} {o : Option Obj} (ht : Tidy paths t)
    (hget : ∀ q, u.get q = if q = p then o else t.get q)
    (ho : ∀ o', o = some o' → paths.root <:+ p → Allowed paths p o') : Tidy paths u := by
  intro q o' hq hget'
  rw [hget q] at hget'
  split at hget'
  · next h => exact h ▸ ho o' hget' (h ▸ hq)
  · exact ht q o' hq hget'

theorem tame_mkdir (h : paths.root <:+ p → p = paths.root ∨ ∃ entry ∈ paths.allowed, p = entry.1)
    (mode : Nat) : Tame paths (.mkdir p mode) := by
  intro t r t' hstep ht
  cases r with
  | error e => rwa [Step.failed hstep]
  | ok _ =>
    refine tidy_of_put ht (Step.ok hstep).mkdir.2 fun o ho hp => ?_
    cases ho
    exact .inl ⟨h hp, mode, rfl⟩

theorem tame_unlink (p : Path) : Tame paths (.unlink p) := by
  intro t r t' hstep ht
  cases r with
  | error e => rwa [Step.failed hstep]
  | ok _ => exact tidy_of_put ht (Step.ok hstep).unlink.2 nofun

theorem tame_rmdir (p : Path) : Tame paths (.rmdir p) := by
  intro t r t' hstep ht
  cases r with
  | error e => rwa [Step.failed hstep]
  | ok _ => exact tidy_of_put ht (Step.ok hstep).rmdir.2.2 nofun

/-- Another file is allowed where one is. -/
theorem Allowed.file (h : Allowed paths q (.file mode content)) (mode' : Nat) (content' : Bytes) :
    Allowed paths q (.file mode' content') := by
  rcases h with ⟨-, _, hdir⟩ | ⟨entry, hentry, n, rfl, hn, -⟩
  · cases hdir
  · exact allowed_child hentry hn (.inl ⟨mode', content', rfl⟩)

theorem Allowed.dir (h : Allowed paths q (.dir mode)) (mode' : Nat) : Allowed paths q (.dir mode') := by
  rcases h with ⟨hq, -⟩ | ⟨_, -, _, -, -, ⟨_, _, hfile⟩ | hspecial⟩
  · exact .inl ⟨hq, mode', rfl⟩
  · cases hfile
  · cases hspecial

theorem tame_chmod (p : Path) (mode : Nat) : Tame paths (.chmod p mode) := by
  intro t r t' hstep ht
  cases r with
  | error e => rwa [Step.failed hstep]
  | ok _ =>
    rcases (Step.ok hstep).chmod with ⟨m, c, hp, hget⟩ | ⟨m, hp, hget⟩
    · refine tidy_of_put ht hget fun o ho hroot => ?_
      cases ho
      exact (ht p _ hroot hp).file mode c
    · refine tidy_of_put ht hget fun o ho hroot => ?_
      cases ho
      exact (ht p _ hroot hp).dir mode

theorem tame_write (p : Path) (content : Bytes) : Tame paths (.write p content) := by
  intro t r t' hstep ht
  cases r with
  | error e => rwa [Step.failed hstep]
  | ok _ =>
    obtain ⟨m, old, hp, hget⟩ := (Step.ok hstep).write
    refine tidy_of_put ht hget fun o ho hroot => ?_
    cases ho
    exact (ht p _ hroot hp).file m content

/-- The temporary file of an atomic write. -/
theorem tame_mkstemp (h : entry ∈ paths.allowed) (hn : n ∈ entry.2) :
    Tame paths (.mkstemp entry.1 s!".{n}.") := by
  intro t r t' hstep ht
  cases r with
  | error e => rwa [Step.failed hstep]
  | ok name =>
    obtain ⟨suffix, hs, rfl, -, hget⟩ := (Step.ok hstep).mkstemp
    refine tidy_of_put ht hget fun o ho _ => ?_
    cases ho
    exact allowed_child h (.inr ⟨n, hn, isTemporary_append n hs⟩) (.inl ⟨_, _, rfl⟩)

theorem eq_of_rename_self (h : Fs.Tree.rename t p p = .ok u) : u = t := by
  unfold Fs.Tree.rename at h
  split at h
  · cases h
  · rw [if_pos rfl] at h
    exact (Except.ok.inj h).symm

/-- A child of one of the directories gets an allowed name. -/
theorem tame_rename (h : entry ∈ paths.allowed) (hn : n ∈ entry.2) (m : String) :
    Tame paths (.rename (m :: entry.1) (n :: entry.1)) := by
  intro t r t' hstep ht
  cases r with
  | error e => rwa [Step.failed hstep]
  | ok _ =>
    by_cases hne : m :: entry.1 = n :: entry.1
    · rw [hne] at hstep
      exact eq_of_rename_self (Updates.ok (Step.ok hstep)).1 ▸ ht
    obtain ⟨-, -, -, hmoved, hgone, hother⟩ := (Step.ok hstep).rename hne
    obtain ⟨d, hd⟩ := parent_of_allowed h
    intro q o hq ho
    by_cases hdst : (n :: entry.1) <:+ q
    · obtain ⟨l, rfl⟩ := hdst
      rw [hmoved] at ho
      have hroot : paths.root <:+ l ++ m :: entry.1 := by
        rw [hd]
        exact ⟨l ++ [m, d], by simp [Path.div_def]⟩
      obtain ⟨rfl, -, ho'⟩ := Allowed.child h (ht _ _ hroot ho)
      exact allowed_child h (.inl hn) ho'
    · by_cases hsrc : (m :: entry.1) <:+ q
      · cases (hgone q hsrc).symm.trans ho
      · exact ht q o hq ((hother q hdst hsrc).symm.trans ho)

/-! ## The programs -/

theorem look_tame {op : OsOp β} (h : op.Reads := by exact fun _ => id) :
    (Prog.perform op : OsM β).Only (Tame paths) :=
  Prog.only_perform.mpr (tame_of_reads h)

theorem Outside.tame (work : Outside paths.root α) : work.run.Only (Tame paths) :=
  work.outside.mono fun _ => tame_of_avoids

/-- The directories of the runtime root are made together with it. -/
theorem tame_mkdirAllowed (h : entry ∈ paths.allowed) (hq : q <:+ entry.1) (mode : Nat) :
    Tame paths (.mkdir q mode) := by
  refine tame_mkdir (fun hroot => ?_) mode
  obtain ⟨d, hd⟩ := parent_of_allowed h
  rw [hd] at hq
  rcases List.suffix_cons_iff.mp hq with heq | hq
  · exact .inr ⟨entry, h, heq.trans hd.symm⟩
  · exact .inl (hq.eq_of_length_le hroot.length_le)

theorem ensureAllowed_tame (h : entry ∈ paths.allowed) :
    (ensurePrivateDirectory entry.1).Only (Tame paths) :=
  ensurePrivateDirectory_only tame_of_reads (fun _ hq mode => tame_mkdirAllowed h hq mode)
    fun mode => tame_chmod _ mode

/-- A file with an allowed name is replaced. -/
theorem atomicWriteBytes_tame (h : entry ∈ paths.allowed) (hn : n ∈ entry.2) (content : Bytes)
    (mode : Nat) : (atomicWriteBytes (n :: entry.1) content mode).Only (Tame paths) :=
  atomicWriteBytes_only tame_of_reads (ensureAllowed_tame h) (tame_mkstemp h hn)
    (fun _ mode => tame_chmod _ mode) (fun _ content => tame_write _ content)
    (fun m => tame_rename h hn m) (fun _ => tame_unlink _) content mode

theorem mem_inputs : (paths.inputs, inputNames) ∈ paths.allowed := List.mem_cons_self

theorem mem_output : (paths.output, outputNames) ∈ paths.allowed :=
  List.mem_cons_of_mem _ (List.mem_singleton_self _)

theorem writeInput_tame (hn : n ∈ inputNames) (content : Bytes) (mode : Nat) :
    (atomicWriteBytes (paths.inputs / n) content mode).Only (Tame paths) :=
  atomicWriteBytes_tame mem_inputs hn content mode

theorem writeOutput_tame (hn : n ∈ outputNames) (content : Bytes) (mode : Nat) :
    (atomicWriteBytes (paths.output / n) content mode).Only (Tame paths) :=
  atomicWriteBytes_tame mem_output hn content mode

/-! ### Removal -/

section
variable {P : {β : Type} → OsOp β → Prop}

/-- Only what has a known name is unlinked. -/
theorem removeChild_only (hlook : ∀ {β : Type} {op : OsOp β}, op.Reads → op.Answered → P op) {directory : Path}
    {names : List String} (hunlink : ∀ n, Known names n → P (.unlink (directory / n))) (child : String) :
    (removeChild directory names child).Only P := by
  have hraise {e : Exn} {f : Unit → OsM Unit} : ((throw e : OsM Unit).bind f).Only P := Prog.only_raise
  unfold removeChild
  split
  · exact hraise
  · next hknown =>
    have hchild : Known names child := by
      by_contra hnot
      refine hknown ⟨fun hmem => hnot (.inl hmem), List.any_eq_false.mpr fun name hname htemp => ?_⟩
      exact hnot (.inr ⟨name, hname, htemp⟩)
    refine (Prog.only_perform.mpr (hlook (fun _ => id) (by trivial))).bind fun isDir => Prog.Only.ite hraise ?_
    exact ignoreMissing_only (Prog.only_perform.mpr (hunlink child hchild))

theorem removeRuntimeDirectory_only (hlook : ∀ {β : Type} {op : OsOp β}, op.Reads → op.Answered → P op)
    {directory : Path} {names : List String}
    (hunlink : ∀ n, Known names n → P (.unlink (directory / n))) (hrmdir : P (.rmdir directory)) :
    (removeRuntimeDirectory directory names).Only P := by
  have hlook' {β : Type} {op : OsOp β} (h : op.Reads) (h' : op.Answered) :
      (Prog.perform op : OsM β).Only P := Prog.only_perform.mpr (hlook h h')
  have hraise {e : Exn} {f : Unit → OsM Unit} : ((throw e : OsM Unit).bind f).Only P := Prog.only_raise
  have hremove : (do
      let children ← Prog.perform (.listdir directory)
      Prog.forEach children (removeChild directory names)
      tryCatch (Prog.perform (.rmdir directory)) fun e =>
        if e.isOSError then
          throw (.host s!"cannot remove runtime directory {directory.text}: {e.message}")
        else throw e : OsM Unit).Only P :=
    (hlook' (fun _ => id) (by trivial)).bind fun children =>
      (Prog.only_forEach (removeChild_only hlook hunlink) children).bind fun _ =>
        (Prog.only_perform.mpr hrmdir).handle fun e => Prog.only_raise.ite Prog.only_raise
  refine (hlook' (fun _ => id) (by trivial)).bind fun there => Prog.Only.ite ?_ Prog.only_ret
  refine Prog.Only.bind (((hlook' (fun _ => id) (by trivial)).bind fun _ => Prog.only_ret).handle fun _ =>
    Prog.only_ret.ite Prog.only_raise) fun link => Prog.Only.ite hraise ?_
  refine (hlook' (fun _ => id) (by trivial)).bind fun isDir => ?_
  split
  · exact hremove
  · exact hraise

theorem removeKnownRuntimeFiles_only (hlook : ∀ {β : Type} {op : OsOp β}, op.Reads → op.Answered → P op)
    (hunlink : ∀ entry ∈ paths.allowed, ∀ n, Known entry.2 n → P (.unlink (entry.1 / n)))
    (hrmdir : ∀ p, P (.rmdir p)) : (removeKnownRuntimeFiles paths).Only P := by
  refine (Prog.only_forEach_mem _ fun entry hentry =>
    removeRuntimeDirectory_only hlook (hunlink entry hentry) (hrmdir _)).bind fun _ => ?_
  have hparent : (suppressOSError (Prog.perform (.rmdir paths.root.parent))).Only P :=
    suppressOSError_only (Prog.only_perform.mpr (hrmdir _))
  refine (Prog.only_perform.mpr (hlook (fun _ => id) (by trivial))).bind fun there => Prog.Only.ite ?_ hparent
  exact ((Prog.only_perform.mpr (hrmdir _)).handle fun e =>
    Prog.only_raise.ite Prog.only_raise).bind fun _ => hparent

end

theorem removeKnownRuntimeFiles_tame : (removeKnownRuntimeFiles paths).Only (Tame paths) :=
  removeKnownRuntimeFiles_only (fun h _ => tame_of_reads h) (fun _ _ _ _ => tame_unlink _) tame_rmdir

/-! ### The launcher and the gateway -/

/-- A directory elsewhere has no child at or above the runtime root. -/
theorem not_below_child (h : Apart paths.root d) (n : String) : ¬ paths.root <:+ n :: d := by
  intro hs
  rcases List.suffix_cons_iff.mp hs with heq | hs
  · exact h.2 (heq ▸ List.suffix_cons n d)
  · exact h.1 hs

theorem ensureElsewhere_tame (h : Apart paths.root d) : (ensurePrivateDirectory d).Only (Tame paths) :=
  ensurePrivateDirectory_only tame_of_reads
    (fun _ hq mode => tame_mkdir (fun hroot => absurd (hroot.trans hq) h.1) mode)
    fun mode => tame_chmod _ mode

theorem openCreate_tame (h : Apart paths.root d) (n : String) (mode : Nat) :
    (Prog.perform (.openCreate (n :: d) mode) : OsM Stat).Only (Tame paths) :=
  Prog.only_perform.mpr (tame_of_avoids fun q hq ht => not_below_child h n (ht ▸ hq))

theorem lifecycleLock_tame {body : OsM α} (h : Apart paths.root d) (hbody : body.Only (Tame paths)) :
    (lifecycleLock d body).Only (Tame paths) := by
  refine (ensureElsewhere_tame h).bind fun _ => Prog.Only.bind ((openCreate_tame h _ _).handle fun e =>
    Prog.only_raise.ite Prog.only_raise) fun st => Prog.Only.finally' ?_ (suppressOSError_only look_tame)
  refine Prog.Only.ite Prog.only_raise ((Prog.only_perform.mpr (tame_chmod _ _)).bind fun _ =>
    Prog.Only.bind (Prog.Only.handle look_tame fun e => Prog.only_raise.ite Prog.only_raise) fun _ => hbody)

theorem stateLock_tame {instance' : InstancePaths} {body : OsM α} (h : Apart paths.root instance'.state)
    (hbody : body.Only (Tame paths)) : (State.stateLock instance' true false body).Only (Tame paths) := by
  have hlock : (State.lockDescriptor instance' true).Only (Tame paths) :=
    (ensureElsewhere_tame h).bind fun _ => Prog.Only.bind ((openCreate_tame h _ _).handle fun e =>
      Prog.only_raise.ite Prog.only_raise) fun st =>
        Prog.Only.ite Prog.only_raise (Prog.only_perform.mpr (tame_chmod _ _))
  refine hlock.bind fun _ => Prog.Only.finally' (Prog.Only.bind ?_ fun _ => hbody)
    (suppressOSError_only look_tame)
  exact Prog.Only.handle look_tame fun e => Prog.only_raise.ite Prog.only_raise

theorem prepareSocketClaims_tame (h : Apart paths.root d) (names : List String) :
    (prepareSocketClaims d names).Only (Tame paths) := by
  refine Prog.Only.ite Prog.only_raise ((ensureElsewhere_tame h).bind fun _ =>
    (Prog.only_forEach (fun name => ?_) names).bind fun _ => look_tame)
  refine Prog.Only.bind ((openCreate_tame h _ _).handle fun e => Prog.only_raise.ite Prog.only_raise)
    fun st => Prog.Only.ite Prog.only_raise ((Prog.only_perform.mpr (tame_chmod _ _)).bind fun _ =>
      look_tame)

theorem hostState_tame : (hostState paths).Only (Tame paths) :=
  (look_tame).bind fun _ => Prog.only_ret

theorem gatewayWrite_tame (write : GatewayWrite) : (gatewayWrite paths write).Only (Tame paths) := by
  cases write with
  | makeDirectory =>
    exact (mkdirParents_only tame_of_reads (fun _ hq mode => tame_mkdirAllowed mem_output hq mode)
      0o700).bind fun _ => Prog.only_perform.mpr (tame_chmod _ _)
  | status value => exact writeOutput_tame (by decide) _ _
  | wireguard privateConfig => exact writeOutput_tame (by decide) _ _
  | unlinkNotify => exact ignoreMissing_only (Prog.only_perform.mpr (tame_unlink _))

theorem prepareRuntimeDirectories_tame (hroot : paths.root ≠ []) :
    (prepareRuntimeDirectories paths).Only (Tame paths) := by
  obtain ⟨n, d, hnd⟩ := List.exists_cons_of_ne_nil hroot
  have hparent : (ensurePrivateDirectory paths.root.parent).Only (Tame paths) := by
    refine ensurePrivateDirectory_only tame_of_reads (fun _ hq mode => tame_mkdir (fun hq' => ?_) mode)
      fun mode => tame_chmod _ mode
    have hlen := (hq'.trans hq).length_le
    rw [hnd] at hlen
    simp [Path.parent] at hlen
  have hroot : (ensurePrivateDirectory paths.root).Only (Tame paths) :=
    ensurePrivateDirectory_only tame_of_reads
      (fun _ hq mode => tame_mkdir (fun hq' => .inl (hq.eq_of_length_le hq'.length_le)) mode)
      fun mode => tame_chmod _ mode
  exact hparent.bind fun _ => hroot.bind fun _ => (ensureAllowed_tame mem_inputs).bind fun _ =>
    ensureAllowed_tame mem_output

variable {instance' : InstancePaths}

theorem up_tame (hroot : paths.root ≠ []) (hinstance : Apart paths.root instance'.state)
    (hclaims : Apart paths.root (paths.root.parent / "claims")) (work : UpWork paths.root) :
    (up paths instance' work).Only (Tame paths) := by
  have hlaunch : (prepareLaunch paths.launch instance' work.manifest.run).Only (Tame paths) :=
    stateLock_tame hinstance (work.manifest.tame.bind fun value => writeInput_tame (by decide) _ _)
  have hbundle (content : Bytes) : (atomicWriteBytes paths.bundle content 0o600).Only (Tame paths) :=
    writeInput_tame (by decide) content _
  refine work.preflight.tame.bind fun _ => lifecycleLock_tame hinstance (hostState_tame.bind fun state =>
    Prog.Only.ite (work.validateActive.tame.bind fun _ => work.wait.tame) ?_)
  exact work.checkSockets.tame.bind fun _ => removeKnownRuntimeFiles_tame.bind fun _ =>
    (prepareRuntimeDirectories_tame hroot).bind fun _ => work.bundle.tame.bind fun content =>
      (hbundle content).bind fun _ => hlaunch.bind fun _ =>
        (prepareSocketClaims_tame hclaims work.claims).bind fun _ => (look_tame).bind fun result =>
          Prog.Only.ite Prog.only_raise work.wait.tame

theorem awaitStopped_tame (polls : Nat) : (awaitStopped paths polls).Only (Tame paths) := by
  induction polls with
  | zero => exact Prog.only_raise
  | succ polls ih => exact hostState_tame.bind fun state => Prog.Only.ite Prog.only_ret ih

theorem down_tame (hinstance : Apart paths.root instance'.state) (polls : Nat) :
    (down paths instance' polls).Only (Tame paths) := by
  refine lifecycleLock_tame hinstance ((look_tame).bind fun result => Prog.Only.ite Prog.only_raise ?_)
  exact (awaitStopped_tame polls).bind fun _ => removeKnownRuntimeFiles_tame

/-- A program of tame operations leaves a tidy directory tidy wherever it is stopped. -/
theorem Tidy.visits {p : OsM α} (ht : Tidy paths t) (hp : p.Only (Tame paths))
    (h : p.Visits machine t u) : Tidy paths u :=
  Prog.wp.visits (hp.keeps (fun _ s r s' hop hs hstep => hop s r s' hstep hs) t ht) h

/-- Wherever the launcher and the gateway have been stopped, the directory is tidy. -/
theorem Reached.tidy (hroot : paths.root ≠ []) (hinstance : Apart paths.root instance'.state)
    (hclaims : Apart paths.root (paths.root.parent / "claims")) (h : Reached paths instance' t) :
    Tidy paths t := by
  induction h with
  | start hnone =>
    rintro q o ⟨l, rfl⟩ ho
    cases (Tree.get_below_eq_none hnone l).symm.trans ho
  | up _ work hrun ih => exact ih.visits (up_tame hroot hinstance hclaims work) hrun
  | gateway _ write hrun ih => exact ih.visits (gatewayWrite_tame write) hrun
  | bindNotify _ hadd ih =>
    have hname : "sshuttle-notify.sock" ∈ outputNames := by decide
    refine tidy_of_put ih (Tree.add_eq_ok hadd).2.2 fun o ho _ => ?_
    cases ho
    exact allowed_child mem_output (.inl hname) (.inr rfl)
  | down _ polls hrun ih => exact ih.visits (down_tame hinstance polls) hrun
  | elsewhere _ hsame ih => exact fun q o hq ho => ih q o hq ((hsame q hq).symm.trans ho)

/-! ## The removal -/

/-- Nothing is taken for another object where there is no link. -/
theorem follow_eq_get (h : ∀ target, t.get p ≠ some (.link target)) : follow t p = t.get p := by
  unfold follow
  split
  · next target htarget => exact absurd htarget (h target)
  · rfl

theorem isDir_answers (p : Path) (t : Tree) : (Prog.perform (.isDir p) : OsM Bool).Succeeds reliable
    (fun b u => u = t ∧ b = (follow t p).any Obj.isDir) t :=
  Prog.succeeds_perform fun _ _ ⟨hu, hr⟩ => ⟨_, hr, hu, rfl⟩

theorem pathExists_answers (p : Path) (t : Tree) :
    (Prog.perform (.pathExists p) : OsM Bool).Succeeds reliable
      (fun b u => u = t ∧ b = (follow t p).isSome) t :=
  Prog.succeeds_perform fun _ _ ⟨hu, hr⟩ => ⟨_, hr, hu, rfl⟩

theorem removeChild_succeeds (h : entry ∈ paths.allowed) (ht : Tidy paths t) (hn : Known entry.2 n) :
    (removeChild entry.1 entry.2 n).Succeeds reliable
      (fun _ u => ∀ q, u.get q = if q = n :: entry.1 then none else t.get q) t := by
  have hcheck : ¬ (n ∉ entry.2 ∧ entry.2.any (isTemporary n) = false) := by
    rintro ⟨hmem, hany⟩
    rcases hn with hn | ⟨name, hname, htemp⟩
    · exact hmem hn
    · exact List.any_eq_false.mp hany name hname htemp
  have hentry (o : Obj) (ho : t.get (n :: entry.1) = some o) : IsEntry o := by
    obtain ⟨d, hd⟩ := parent_of_allowed h
    have hroot : paths.root <:+ n :: entry.1 := hd ▸ ⟨[n, d], rfl⟩
    exact (Allowed.child (l := []) h (ht _ o hroot ho)).2.2
  have hfollow : follow t (entry.1 / n) = t.get (n :: entry.1) := follow_eq_get fun target hlink => by
    rcases hentry _ hlink with ⟨_, _, h⟩ | h <;> cases h
  refine Prog.succeeds_ite (fun hbad => absurd hbad hcheck) fun _ => Prog.succeeds_bind
    ((isDir_answers _ t).mono fun isDir u ⟨hu, hisDir⟩ => ?_)
  subst hu
  have hfile : isDir = false := by
    rw [hisDir, hfollow]
    cases hget : u.get (n :: entry.1) with
    | none => rfl
    | some o => rcases hentry o hget with ⟨_, _, rfl⟩ | rfl <;> rfl
  subst hfile
  cases hget : u.get (n :: entry.1) with
  | some o =>
    have ho : o.isDir = false := by
      rcases hentry o hget with ⟨_, _, rfl⟩ | rfl <;> rfl
    exact Prog.succeeds_handle (unlink_succeeds hget ho)
  | none =>
    refine Prog.wp_handle.mpr (Prog.wp_perform.mpr ⟨trivial, fun r v hstep => ⟨trivial, ?_⟩⟩)
    have hmissing : Fs.Tree.unlink u (n :: entry.1) = .error .enoent := by
      unfold Fs.Tree.unlink
      split
      · rfl
      · next o ho => cases hget.symm.trans ho
    have hstep : Updates (Fs.Tree.unlink u (n :: entry.1)) () u r v := hstep
    rw [hmissing] at hstep
    obtain ⟨rfl, rfl⟩ := hstep
    refine Prog.succeeds_ret fun q => ?_
    split
    · next hq => rw [hq, hget]
    · rfl

/-- The children `names` are still to be removed. -/
structure Removing (paths : RuntimePaths) (entry : Path × List String) (t : Tree) (names : List String)
    (u : Tree) : Prop where
  tidy : Tidy paths u
  directory : ∃ m, u.get entry.1 = some (.dir m)
  known : ∀ n ∈ names, Known entry.2 n
  rest : ∀ n, u.get (n :: entry.1) ≠ none → n ∈ names
  gone : ∀ q, t.get q = none → u.get q = none

theorem removing_step (h : entry ∈ paths.allowed) (hu : Removing paths entry t (n :: names) u) :
    (removeChild entry.1 entry.2 n).Succeeds reliable (fun _ => Removing paths entry t names) u := by
  refine (removeChild_succeeds h hu.tidy (hu.known n List.mem_cons_self)).mono fun _ v hv => ?_
  obtain ⟨m, hm⟩ := hu.directory
  refine ⟨tidy_of_put hu.tidy hv nofun, ⟨m, ?_⟩, fun n' hn' => hu.known n' (List.mem_cons_of_mem n hn'),
    fun n' hn' => ?_, fun q hq => ?_⟩
  · exact (hv entry.1).trans ((if_neg (List.cons_ne_self n entry.1).symm).trans hm)
  · rw [hv] at hn'
    split at hn'
    · exact absurd rfl hn'
    · next hne =>
      exact (List.mem_cons.mp (hu.rest n' hn')).resolve_left fun heq => hne (heq ▸ rfl)
  · rw [hv q]
    split
    · rfl
    · exact hu.gone q hq

/-- A directory with known entries only is removed. -/
theorem removeRuntimeDirectory_succeeds (h : entry ∈ paths.allowed) (ht : Tidy paths t) :
    (removeRuntimeDirectory entry.1 entry.2).Succeeds reliable (fun _ u => Tidy paths u ∧
      u.get entry.1 = none ∧ ∀ q, t.get q = none → u.get q = none) t := by
  have hroot : paths.root <:+ entry.1 := by
    obtain ⟨d, hd⟩ := parent_of_allowed h
    exact hd ▸ List.suffix_cons d _
  have hdir (o : Obj) (ho : t.get entry.1 = some o) : ∃ m, o = .dir m := by
    rcases ht _ o hroot ho with ⟨-, hm⟩ | ⟨entry', h', n, heq, -⟩
    · exact hm
    · obtain ⟨d, hd⟩ := parent_of_allowed h
      obtain ⟨d', hd'⟩ := parent_of_allowed h'
      have := congrArg List.length heq
      rw [hd, hd'] at this
      simp [Path.div_def] at this
  have hfollow : follow t entry.1 = t.get entry.1 := follow_eq_get fun target hlink => by
    obtain ⟨m, hm⟩ := hdir _ hlink
    cases hm
  refine Prog.succeeds_bind ((pathExists_answers entry.1 t).mono fun there u ⟨hu, hthere⟩ => ?_)
  subst hu
  rw [hfollow] at hthere
  refine Prog.succeeds_ite (fun hyes => ?_) fun hno => ?_
  · obtain ⟨m, hm⟩ : ∃ m, u.get entry.1 = some (.dir m) := by
      obtain ⟨o, ho⟩ := Option.isSome_iff_exists.mp (hthere.symm.trans hyes)
      obtain ⟨m, rfl⟩ := hdir o ho
      exact ⟨m, ho⟩
    refine Prog.succeeds_bind ((isSymlink_succeeds (.inr ⟨m, hm⟩)).mono fun link v ⟨hv, hlink⟩ => ?_)
    subst hv hlink
    refine Prog.succeeds_bind ((isDir_answers entry.1 v).mono fun isDir w ⟨hw, hisDir⟩ => ?_)
    subst hw
    rw [hfollow, hm] at hisDir
    subst hisDir
    refine Prog.succeeds_bind ((listdir_succeeds hm).mono fun children x ⟨hx, hperm⟩ => ?_)
    subst hx
    have hstart : Removing paths entry x children x := by
      refine ⟨ht, ⟨m, hm⟩, fun n hn => ?_, fun n hn => ?_, fun _ => id⟩
      · obtain ⟨o, ho⟩ := Option.ne_none_iff_exists'.mp (Tree.mem_names.mp (hperm.mem_iff.mp hn))
        have hbelow : paths.root <:+ n :: entry.1 := hroot.trans (List.suffix_cons n _)
        exact (Allowed.child (l := []) h (ht _ o hbelow ho)).2.1
      · exact hperm.mem_iff.mpr (Tree.mem_names.mpr hn)
    refine Prog.succeeds_bind ((Prog.succeeds_forEach (Removing paths entry x)
      (fun n names v hv => removing_step h hv) children x hstart).mono fun _ v hv => ?_)
    obtain ⟨m', hm'⟩ := hv.directory
    have hempty (n : String) : v.get (n :: entry.1) = none := by
      by_contra hn
      cases hv.rest n hn
    refine Prog.succeeds_handle ((rmdir_succeeds hm' hempty).mono fun _ w hw => ⟨?_, ?_, fun q hq => ?_⟩)
    · exact tidy_of_put hv.tidy hw nofun
    · exact (hw entry.1).trans (if_pos rfl)
    · rw [hw q]
      split
      · rfl
      · exact hv.gone q hq
  · refine Prog.succeeds_ret ⟨ht, ?_, fun q hq => hq⟩
    cases hget : u.get entry.1 with
    | none => rfl
    | some o => exact absurd (hthere.trans (by rw [hget]; rfl)) hno

theorem removeDirectories_succeeds : ∀ {entries : List (Path × List String)} {t : Tree},
    (∀ entry ∈ entries, entry ∈ paths.allowed) → Tidy paths t →
    (Prog.forEach entries fun entry => removeRuntimeDirectory entry.1 entry.2).Succeeds reliable
      (fun _ u => Tidy paths u ∧ (∀ entry ∈ entries, u.get entry.1 = none) ∧
        ∀ q, t.get q = none → u.get q = none) t
  | [], _, _, ht => Prog.succeeds_ret ⟨ht, List.forall_mem_nil _, fun _ => id⟩
  | entry :: entries, t, h, ht => by
    obtain ⟨hentry, hentries⟩ := List.forall_mem_cons.mp h
    refine Prog.succeeds_bind ((removeRuntimeDirectory_succeeds hentry ht).mono fun _ u hu => ?_)
    obtain ⟨htidy, hnone, hgone⟩ := hu
    refine (removeDirectories_succeeds hentries htidy).mono fun _ v hv => ?_
    obtain ⟨htidy', hnone', hgone'⟩ := hv
    exact ⟨htidy', List.forall_mem_cons.mpr ⟨hgone' _ hnone, hnone'⟩, fun q hq => hgone' q (hgone q hq)⟩

/-- Without its directories a tidy root is empty. -/
theorem Tidy.childless (ht : Tidy paths t) (h : ∀ entry ∈ paths.allowed, t.get entry.1 = none)
    (n : String) : t.get (n :: paths.root) = none := by
  by_contra hn
  obtain ⟨o, ho⟩ := Option.ne_none_iff_exists'.mp hn
  rcases ht _ o (List.suffix_cons n _) ho with ⟨hroot | ⟨entry, hentry, hq⟩, -⟩ | ⟨entry, hentry, m, hq, -⟩
  · exact List.cons_ne_self n _ hroot
  · rw [hq, h entry hentry] at ho
    cases ho
  · obtain ⟨d, hd⟩ := parent_of_allowed hentry
    have := congrArg List.length hq
    rw [hd] at this
    simp [Path.div_def] at this

theorem removeKnownRuntimeFiles_succeeds (ht : Tidy paths t) :
    (removeKnownRuntimeFiles paths).Succeeds reliable (fun _ u => u.get paths.root = none) t := by
  refine Prog.succeeds_bind ((removeDirectories_succeeds (fun _ => id) ht).mono fun _ u hu => ?_)
  obtain ⟨htidy, hnone, -⟩ := hu
  have hdir (o : Obj) (ho : u.get paths.root = some o) : ∃ m, o = .dir m := by
    rcases htidy _ o List.suffix_rfl ho with ⟨-, hm⟩ | ⟨entry, hentry, n, hq, -⟩
    · exact hm
    · obtain ⟨d, hd⟩ := parent_of_allowed hentry
      have := congrArg List.length hq
      rw [hd, Path.div_def, Path.div_def, List.length_cons, List.length_cons] at this
      omega
  have hfollow : follow u paths.root = u.get paths.root := follow_eq_get fun target hlink => by
    obtain ⟨m, hm⟩ := hdir _ hlink
    cases hm
  have hparent {v : Tree} (hv : v.get paths.root = none) :
      (suppressOSError (Prog.perform (.rmdir paths.root.parent))).Succeeds reliable
        (fun _ w => w.get paths.root = none) v := by
    refine Prog.wp_handle.mpr (Prog.wp_perform.mpr ⟨trivial, fun r w hstep => ⟨trivial, ?_⟩⟩)
    rcases Updates.cases (hstep : Updates (Fs.Tree.rmdir v paths.root.parent) () v r w) with
      ⟨hok, rfl⟩ | ⟨e, -, rfl, rfl⟩
    · refine ⟨(), rfl, ((Tree.rmdir_eq_ok hok).2.2 _).trans ?_⟩
      split
      · rfl
      · exact hv
    · exact Prog.succeeds_ite (fun _ => Prog.succeeds_ret hv) fun hno =>
        absurd (isOSError_osError e) hno
  refine Prog.succeeds_bind ((pathExists_answers paths.root u).mono fun there v ⟨hv, hthere⟩ => ?_)
  subst hv
  rw [hfollow] at hthere
  refine Prog.succeeds_ite (fun hyes => ?_) fun hno => ?_
  · obtain ⟨o, ho⟩ := Option.isSome_iff_exists.mp (hthere.symm.trans hyes)
    obtain ⟨m, rfl⟩ := hdir o ho
    refine Prog.succeeds_bind (Prog.succeeds_handle ((rmdir_succeeds ho (htidy.childless hnone)).mono
      fun _ w hw => ?_))
    exact hparent ((hw _).trans (if_pos rfl))
  · refine hparent ?_
    cases hget : v.get paths.root with
    | none => rfl
    | some o => exact absurd (hthere.trans (by rw [hget]; rfl)) hno

end

/-- The path an operation unlinks. -/
def unlinks : OsOp β → Path → Prop
  | .unlink p, q => q = p
  | _, _ => False

/-- Wherever the launcher and the gateway of an instance have been stopped, the removal of the runtime
files is not refused and leaves neither of the two directories and not the runtime directory. Whatever
there is, it unlinks nothing but allowed names in the two directories and their temporary files. -/
theorem removeKnownRuntimeFiles_converges (xdg : Path) (resolved : String) (instance' : InstancePaths)
    (hinstance : Apart (runtimePaths xdg resolved).root instance'.state) :
    let paths := runtimePaths xdg resolved
    (∀ t, Reached paths instance' t →
      (∃ u, (removeKnownRuntimeFiles paths).Returns reliable t (.ok ()) u) ∧
      ∀ r u, (removeKnownRuntimeFiles paths).Returns reliable t r u → r = .ok () ∧
        u.get paths.inputs = none ∧ u.get paths.output = none ∧ u.get paths.root = none) ∧
    ∀ t u es, (removeKnownRuntimeFiles paths).Visits machine.traced (t, []) (u, es) →
      ∀ e ∈ es, ∀ p, unlinks e.op p →
        ∃ entry ∈ paths.allowed, ∃ n, p = entry.1 / n ∧ Known entry.2 n := by
  intro paths
  have hroot : paths.root ≠ [] := List.cons_ne_nil _ _
  have hclaims : Apart paths.root (paths.root.parent / "claims") := by
    have hne : Claims.instanceId resolved ≠ "claims" := fun h => by
      have := h ▸ Claims.length_instanceId resolved
      exact absurd this (by decide)
    exact ⟨Path.not_below_sibling hne [] _, Path.not_below_sibling hne.symm [] _⟩
  refine ⟨fun t ht => ?_, fun t u es hrun => ?_⟩
  · have hsucceeds := removeKnownRuntimeFiles_succeeds (ht.tidy hroot hinstance hclaims)
    have hanswered : (removeKnownRuntimeFiles paths).Only OsOp.Answered :=
      removeKnownRuntimeFiles_only (fun _ h => h) (fun _ _ _ _ => trivial) fun _ => trivial
    obtain ⟨_, u, hrun, -⟩ := exists_run hsucceeds hanswered
    refine ⟨⟨u, hrun⟩, fun r v hrun' => ?_⟩
    obtain ⟨_, rfl, hgone⟩ := hsucceeds.returns hrun'
    exact ⟨rfl, Tree.get_below_eq_none hgone ["inputs"], Tree.get_below_eq_none hgone ["output"], hgone⟩
  · have hknown : (removeKnownRuntimeFiles paths).Only fun op => ∀ p, unlinks op p →
        ∃ entry ∈ paths.allowed, ∃ n, p = entry.1 / n ∧ Known entry.2 n := by
      refine removeKnownRuntimeFiles_only (fun {β op} hreads _ p hp => ?_)
        (fun entry hentry n hn p hp => ⟨entry, hentry, n, hp, hn⟩) fun _ _ hp => hp.elim
      cases op with
      | unlink q => exact absurd rfl (hreads q)
      | _ => exact hp.elim
    exact Prog.wp.visits (hknown.events (t, []) (List.forall_mem_nil _)) hrun

theorem removeKnownRuntimeFiles_converges_office :
    let paths := runtimePaths ["1000", "user", "run"] "/srv/office"
    let office : InstancePaths := ⟨["office", "srv"], ["config.yaml", "office", "srv"],
      ["state", "office", "srv"], ["secrets", "office", "srv"], none⟩
    (∀ t, Reached paths office t →
      (∃ u, (removeKnownRuntimeFiles paths).Returns reliable t (.ok ()) u) ∧
      ∀ r u, (removeKnownRuntimeFiles paths).Returns reliable t r u → r = .ok () ∧
        u.get paths.inputs = none ∧ u.get paths.output = none ∧ u.get paths.root = none) ∧
    ∀ t u es, (removeKnownRuntimeFiles paths).Visits machine.traced (t, []) (u, es) →
      ∀ e ∈ es, ∀ p, unlinks e.op p →
        ∃ entry ∈ paths.allowed, ∃ n, p = entry.1 / n ∧ Known entry.2 n := by
  intro paths office
  refine removeKnownRuntimeFiles_converges ["1000", "user", "run"] "/srv/office" office ⟨fun h => ?_, ?_⟩
  · exact absurd h.length_le (by simp [runtimePaths, Path.div_def, office])
  · simp [runtimePaths, Path.div_def, office, List.suffix_cons_iff]

end Host
end ShuttleGate
