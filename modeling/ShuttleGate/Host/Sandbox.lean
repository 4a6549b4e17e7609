import ShuttleGate.Fs.Mounts
import ShuttleGate.Host.InstanceRoot
import ShuttleGate.Host.RuntimeFiles

/-! # The sandbox

`bubblewrap_command` puts the mounts of a sandbox into one argument list. The list is read back
option by option (`readMounts_arguments`), and the mounts are replayed: what can be written and what
can be seen of the instance are decided by the mounts that come last. -/

namespace ShuttleGate

open Fs

namespace Host

/-! ## The options of bubblewrap -/

inductive BwrapOption
  | unshareUser
  | unsharePid
  | unshareIpc
  | unshareUts
  | unshareNet
  | uid (id : String)
  | gid (id : String)
  | hostname (name : String)
  | newSession
  | dieWithParent
  | capDrop (capability : String)
  | capAdd (capability : String)
  | proc (destination : Path)
  | dev (destination : Path)
  | tmpfs (destination : Path)
  | dir (destination : Path)
  | roBind (source destination : Path)
  | bind (source destination : Path)
  | clearenv
  | setenv (name value : String)
  | chdir (destination : Path)

namespace BwrapOption

def arguments : BwrapOption → List String
  | unshareUser => ["--unshare-user"]
  | unsharePid => ["--unshare-pid"]
  | unshareIpc => ["--unshare-ipc"]
  | unshareUts => ["--unshare-uts"]
  | unshareNet => ["--unshare-net"]
  | uid id => ["--uid", id]
  | gid id => ["--gid", id]
  | hostname name => ["--hostname", name]
  | newSession => ["--new-session"]
  | dieWithParent => ["--die-with-parent"]
  | capDrop capability => ["--cap-drop", capability]
  | capAdd capability => ["--cap-add", capability]
  | proc destination => ["--proc", destination.text]
  | dev destination => ["--dev", destination.text]
  | tmpfs destination => ["--tmpfs", destination.text]
  | dir destination => ["--dir", destination.text]
  | roBind source destination => ["--ro-bind", source.text, destination.text]
  | bind source destination => ["--bind", source.text, destination.text]
  | clearenv => ["--clearenv"]
  | setenv name value => ["--setenv", name, value]
  | chdir destination => ["--chdir", destination.text]

/-- The mount an option asks for. -/
def mount : BwrapOption → Option Mount
  | proc destination | dev destination | tmpfs destination => some ⟨destination, .synthetic⟩
  | roBind source destination => some ⟨destination, .host source false⟩
  | bind source destination => some ⟨destination, .host source true⟩
  | _ => none

/-- The paths of the mount. -/
def paths : BwrapOption → List Path
  | proc destination | dev destination | tmpfs destination => [destination]
  | roBind source destination | bind source destination => [source, destination]
  | _ => []

end BwrapOption

/-- The path an argument denotes. -/
def pathOf (argument : String) : Path := (PurePath.ofText argument).parts.reverse

/-- The mounts an argument list of bubblewrap asks for, from left to right. -/
def readMounts : List String → List Mount
  | "--" :: _ => []
  | "--proc" :: destination :: rest | "--dev" :: destination :: rest
  | "--tmpfs" :: destination :: rest => ⟨pathOf destination, .synthetic⟩ :: readMounts rest
  | "--ro-bind" :: source :: destination :: rest =>
    ⟨pathOf destination, .host (pathOf source) false⟩ :: readMounts rest
  | "--bind" :: source :: destination :: rest =>
    ⟨pathOf destination, .host (pathOf source) true⟩ :: readMounts rest
  | "--setenv" :: _ :: _ :: rest => readMounts rest
  | "--uid" :: _ :: rest | "--gid" :: _ :: rest | "--hostname" :: _ :: rest
  | "--cap-drop" :: _ :: rest | "--cap-add" :: _ :: rest | "--dir" :: _ :: rest
  | "--chdir" :: _ :: rest => readMounts rest
  | _ :: rest => readMounts rest
  | [] => []

/-- A path of `pathlib`: its components are neither empty nor `.` and have no slash. -/
def Plain (p : Path) : Prop := ∀ n ∈ p, IsPart n

instance : DecidablePred Plain := fun p => inferInstanceAs (Decidable (∀ n ∈ p, IsPart n))

theorem Plain.div {p : Path} (h : Plain p) (hn : IsPart n) : Plain (p / n) :=
  List.forall_mem_cons.mpr ⟨hn, h⟩

theorem pathOf_text {p : Path} (h : Plain p) : pathOf p.text = p := by
  let pure : PurePath := ⟨"/", p.reverse, fun n hn => h n (List.mem_reverse.mp hn)⟩
  have htext : pure.text = p.text := by
    have hroot : ¬ (pure.root = "" ∧ pure.parts = []) := fun h => absurd (show "/" = "" from h.1) (by decide)
    rw [PurePath.text, if_neg hroot]
    rfl
  rw [pathOf, ← htext, PurePath.ofText_text (.inr (.inl rfl))]
  exact List.reverse_reverse p

theorem readMounts_option {o : BwrapOption} (h : ∀ p ∈ o.paths, Plain p) (rest : List String) :
    readMounts (o.arguments ++ rest) = o.mount.toList ++ readMounts rest := by
  cases o with
  | proc p | dev p | tmpfs p =>
    have hp := pathOf_text (h p (List.mem_singleton_self p))
    simp only [BwrapOption.arguments, BwrapOption.mount, List.cons_append, List.nil_append,
      Option.toList_some, readMounts, hp]
  | roBind source p | bind source p =>
    have hsource := pathOf_text (h source List.mem_cons_self)
    have hp := pathOf_text (h p (List.mem_cons_of_mem _ (List.mem_singleton_self p)))
    simp only [BwrapOption.arguments, BwrapOption.mount, List.cons_append, List.nil_append,
      Option.toList_some, readMounts, hsource, hp]
  | _ => simp [BwrapOption.arguments, BwrapOption.mount, readMounts]

/-- The mounts of an argument list are those of its options. -/
theorem readMounts_arguments {options : List BwrapOption}
    (h : ∀ o ∈ options, ∀ p ∈ o.paths, Plain p) (command : List String) :
    readMounts (options.flatMap BwrapOption.arguments ++ "--" :: command) =
      options.filterMap BwrapOption.mount := by
  induction options with
  | nil => simp [readMounts]
  | cons o options ih =>
    obtain ⟨ho, hrest⟩ := List.forall_mem_cons.mp h
    rw [List.flatMap_cons, List.append_assoc, readMounts_option ho, ih hrest, List.filterMap_cons]
    cases o.mount <;> rfl

/-! ## The command -/

/-- A source and where it is mounted. -/
abbrev Bind := Path × Path

/-- What `_system_mounts` and `_python_mounts` find on the host. -/
structure HostFiles where
  /-- `Path.exists` -/
  isThere : Path → Bool
  isFile : Path → Bool
  /-- `Path.resolve` -/
  canonical : Path → Path
  /-- `sys.prefix` -/
  sysPrefix : Path
  /-- `sys.base_prefix` -/
  sysBasePrefix : Path
  /-- What `bin/python` under `sys.prefix` links to. -/
  interpreter : Option PurePath

def systemDirectories : List Path := ["usr", "bin", "sbin", "lib", "lib64"].map fun n => [n]

def systemFiles : List Path :=
  ["gai.conf", "group", "hosts", "localtime", "nsswitch.conf", "passwd"].map fun n => [n, "etc"]

def uplinkResolver : Path := ["resolv.conf", "resolve", "systemd", "run"]

def resolverFile : Path := ["resolv.conf", "etc"]

/-- `_system_mounts` -/
def systemMounts (host : HostFiles) : List Bind :=
  let resolver := if host.isFile uplinkResolver then uplinkResolver else resolverFile
  ((systemDirectories ++ systemFiles).filter host.isThere).map (fun p => (p, p)) ++
    if host.isThere resolver then [(host.canonical resolver, resolverFile)] else []

/-- The directories the interpreter runs from. -/
def pythonRoots (host : HostFiles) : List Path :=
  [host.sysPrefix, host.sysBasePrefix] ++ match host.interpreter with
    | some target =>
      if target.isAbsolute ∧ 2 ≤ target.parts.length then [target.parts.reverse.drop 2] else []
    | none => []

/-- `_python_mounts` -/
def pythonMounts (host : HostFiles) : List Bind :=
  (((pythonRoots host).dedup.mergeSort fun a b => decide (a.text ≤ b.text)).filter fun p =>
    ¬ ["usr"] <:+ p).map fun p => (p, p)

/-- `_add_parent_directories` -/
def addParentDirectories (destinations : List Path) : List BwrapOption :=
  let parents := destinations.flatMap fun p => p.parent.tails.filter (· ≠ [])
  (parents.dedup.mergeSort fun a b =>
    decide (a.length < b.length ∨ a.length = b.length ∧ a.text ≤ b.text)).map .dir

def sandboxBundle : Path := ["application.pyz", "shuttle-gate", "opt"]
def sandboxLaunch : Path := ["launch.json", "shuttle-gate", "run"]
def sandboxConfig : Path := ["config.yaml", "config"]
def sandboxSecrets : Path := ["secrets"]
def sandboxState : Path := ["state"]
def sandboxOutput : Path := ["output", "shuttle-gate", "run"]
def sandboxLock : Path := sandboxState / ".state.lock"
def sandboxHome : Path := ["home", "tmp"]

def systemPath : String := "/usr/local/sbin:/usr/local/bin:/usr/sbin:/usr/bin:/sbin:/bin"

/-- `_command`: where `shutil.which` finds the name. -/
def commandPath (which : String → Option Path) (name : String) : Except Exn Path :=
  match which name with
  | some path => .ok path
  | none => .error (.host ("required command was not found: " ++ name))

section
variable (discovered : List Bind) (application instance' : Path) (networkNamespace readOnly : Bool)
  (runtime : Option RuntimePaths)

/-- What is mounted from the host, in order. -/
def sandboxBinds : List Bind :=
  discovered ++ match runtime with
    | none => [(application, application), (instance', instance')]
    | some runtime =>
      [(runtime.bundle, sandboxBundle), (runtime.launch, sandboxLaunch),
        (instance' / "config.yaml", sandboxConfig), (instance' / "secrets", sandboxSecrets),
        (instance' / "state", sandboxState), (runtime.output, sandboxOutput)]

/-- The mode of a mount. -/
def bindOption (b : Bind) : BwrapOption :=
  if runtime = none ∧ b.1 = instance' ∧ b.2 = instance' then
    if readOnly then .roBind b.1 b.2 else .bind b.1 b.2
  else if runtime ≠ none ∧ b.2 = sandboxOutput then .bind b.1 b.2
  else .roBind b.1 b.2

/-- Where `_add_parent_directories` makes the parents. -/
def sandboxDestinations : List Path :=
  (sandboxBinds discovered application instance' runtime).map Prod.snd ++ [sandboxHome] ++
    if runtime = none then [] else [sandboxConfig, sandboxBundle, sandboxLaunch, sandboxOutput]

/-- The options before those of the host mounts. -/
def isolationOptions : List BwrapOption :=
  List.flatten [
    if runtime = none ∧ networkNamespace = false then [.unshareUser, .uid "0", .gid "0"] else [],
    [.unsharePid, .unshareIpc, .unshareUts],
    if networkNamespace then [] else [.unshareNet],
    [.hostname "shuttle-gate", .newSession, .dieWithParent, .capDrop "ALL"],
    if networkNamespace then [.capAdd "CAP_NET_ADMIN"] else [],
    [.proc ["proc"], .dev ["dev"], .tmpfs ["tmp"]],
    if runtime = none then [.tmpfs ["run"]] else [],
    addParentDirectories (sandboxDestinations discovered application instance' runtime),
    [.dir sandboxHome]]

/-- The options after those of the host mounts. -/
def environmentOptions : List BwrapOption :=
  [.clearenv, .setenv "HOME" "/tmp/home", .setenv "LANG" "C.UTF-8", .setenv "LC_ALL" "C.UTF-8",
    .setenv "PATH" systemPath, .setenv "PYTHONDONTWRITEBYTECODE" "1",
    .setenv "PYTHONPATH" (if runtime = none then (application / "src").text else sandboxBundle.text),
    .setenv "SHUTTLE_GATE_ROOT" (if runtime = none then instance'.text else "/workspace"),
    .setenv "SHUTTLE_GATE_LAUNCHER" (application / "shuttle-gate").text,
    .setenv "SHUTTLE_GATE_INSTANCE" instance'.text] ++
    (if runtime = none then [.setenv "SHUTTLE_GATE_APPLICATION_ROOT" application.text] else
      [.setenv "SHUTTLE_GATE_CONFIG" sandboxConfig.text, .setenv "SHUTTLE_GATE_STATE" sandboxState.text,
        .setenv "SHUTTLE_GATE_RUNTIME" sandboxOutput.text,
        .setenv "SHUTTLE_GATE_LAUNCH" sandboxLaunch.text,
        .setenv "SHUTTLE_GATE_BUNDLE" sandboxBundle.text]) ++
    [.chdir (if runtime = none then instance' else [])]

def sandboxOptions : List BwrapOption :=
  isolationOptions discovered application instance' networkNamespace runtime ++
    (sandboxBinds discovered application instance' runtime).map (bindOption instance' readOnly runtime) ++
    (if runtime = none then [] else [.bind (instance' / "state" / ".state.lock") sandboxLock]) ++
    environmentOptions application instance' runtime

/-- `bubblewrap_command` of canonical directories, where `_system_mounts` and `_python_mounts` are
`discovered`. -/
def bubblewrapCommand (which : String → Option Path) (command : List String) :
    Except Exn (List String) := do
  raiseIf (command = []) (.error "ValueError")
  validateRootSeparation application instance'
  let bwrap ← commandPath which "bwrap"
  let options := sandboxOptions discovered application instance' networkNamespace readOnly runtime
  return bwrap.text :: (options.flatMap BwrapOption.arguments ++ "--" :: command)

/-! ## The mounts of the command -/

/-- Whether a mount can be written. -/
def bindWritable (b : Bind) : Bool :=
  decide (runtime = none ∧ readOnly = false ∧ b.1 = instance' ∧ b.2 = instance' ∨
    runtime ≠ none ∧ b.2 = sandboxOutput)

end

section
variable {discovered : List Bind} {application instance' : Path} {networkNamespace readOnly : Bool}
  {runtime : Option RuntimePaths} {b : Bind}

theorem mount_bindOption : (bindOption instance' readOnly runtime b).mount =
    some ⟨b.2, .host b.1 (bindWritable instance' readOnly runtime b)⟩ := by
  unfold bindOption bindWritable
  split
  · next h =>
    obtain ⟨rfl, h1, h2⟩ := h
    cases readOnly <;> simp [BwrapOption.mount, h1, h2]
  · next h =>
    have hnot : ¬ (runtime = none ∧ readOnly = false ∧ b.1 = instance' ∧ b.2 = instance') :=
      fun hb => h ⟨hb.1, hb.2.2⟩
    split
    · next hout => simp [BwrapOption.mount, hout]
    · next hout => simp [BwrapOption.mount, hout, hnot]

theorem paths_bindOption : (bindOption instance' readOnly runtime b).paths = [b.1, b.2] := by
  unfold bindOption
  split
  · split <;> rfl
  · split <;> rfl

theorem mem_addParentDirectories {o : BwrapOption} (h : o ∈ addParentDirectories destinations) :
    ∃ p, o = .dir p := by
  obtain ⟨p, -, rfl⟩ := List.mem_map.mp h
  exact ⟨p, rfl⟩

/-- An option that mounts nothing of the host. -/
def Hostless (o : BwrapOption) : Prop :=
  (∀ m ∈ o.mount, m.content = .synthetic) ∧ ∀ p ∈ o.paths, Plain p

theorem hostless_of_none {o : BwrapOption} (hmount : o.mount = none) (hpaths : o.paths = []) :
    Hostless o := by
  refine ⟨fun m hm => ?_, fun p hp => ?_⟩
  · rw [hmount] at hm
    cases hm
  · rw [hpaths] at hp
    cases hp

theorem hostless_of_synthetic {o : BwrapOption} (hmount : o.mount = some ⟨p, .synthetic⟩)
    (hpaths : o.paths = [p]) (hp : Plain p) : Hostless o := by
  refine ⟨fun m hm => ?_, fun q hq => ?_⟩
  · rw [hmount] at hm
    cases hm
    rfl
  · rw [hpaths] at hq
    exact List.mem_singleton.mp hq ▸ hp

/-- The file systems of the kernel are mounted first. -/
theorem hostless_isolationOptions {o : BwrapOption}
    (h : o ∈ isolationOptions discovered application instance' networkNamespace runtime) :
    Hostless o := by
  simp only [isolationOptions, List.flatten_cons, List.flatten_nil, List.append_nil, List.mem_append,
    List.mem_ite_nil_left, List.mem_ite_nil_right, List.mem_cons, List.not_mem_nil, or_false] at h
  rcases h with ⟨-, rfl | rfl | rfl⟩ | (rfl | rfl | rfl) | ⟨-, rfl⟩ | (rfl | rfl | rfl | rfl) |
    ⟨-, rfl⟩ | (rfl | rfl | rfl) | ⟨-, rfl⟩ | h | rfl
  case inr.inr.inr.inr.inr.inr.inr.inl =>
    obtain ⟨p, rfl⟩ := mem_addParentDirectories h
    exact hostless_of_none rfl rfl
  all_goals first
    | exact hostless_of_none rfl rfl
    | exact hostless_of_synthetic rfl rfl (by decide)

theorem mem_environmentOptions {o : BwrapOption}
    (h : o ∈ environmentOptions application instance' runtime) : o.mount = none ∧ o.paths = [] := by
  simp only [environmentOptions, List.mem_append, List.mem_cons, List.not_mem_nil, or_false] at h
  rcases h with (h | h) | rfl
  · rcases h with rfl | rfl | rfl | rfl | rfl | rfl | rfl | rfl | rfl | rfl <;> exact ⟨rfl, rfl⟩
  · split at h
    · obtain rfl := List.mem_singleton.mp h
      exact ⟨rfl, rfl⟩
    · simp only [List.mem_cons, List.not_mem_nil, or_false] at h
      rcases h with rfl | rfl | rfl | rfl | rfl <;> exact ⟨rfl, rfl⟩
  · exact ⟨rfl, rfl⟩

/-- The mount of a source at its destination. -/
def bindMount (instance' : Path) (readOnly : Bool) (runtime : Option RuntimePaths) (b : Bind) : Mount :=
  ⟨b.2, .host b.1 (bindWritable instance' readOnly runtime b)⟩

/-- The mount of the lock of the state. -/
def lockMount (instance' : Path) : Mount :=
  ⟨sandboxLock, .host (instance' / "state" / ".state.lock") true⟩

/-- The mounts from the host. -/
def hostMounts (discovered : List Bind) (application instance' : Path) (readOnly : Bool)
    (runtime : Option RuntimePaths) : List Mount :=
  (sandboxBinds discovered application instance' runtime).map (bindMount instance' readOnly runtime) ++
    if runtime = none then [] else [lockMount instance']

/-- The host mounts follow those of the kernel. -/
theorem filterMap_sandboxOptions : ∃ kernel : List Mount, (∀ m ∈ kernel, m.content = .synthetic) ∧
    (sandboxOptions discovered application instance' networkNamespace readOnly runtime).filterMap
        BwrapOption.mount =
      kernel ++ hostMounts discovered application instance' readOnly runtime := by
  refine ⟨(isolationOptions discovered application instance' networkNamespace runtime).filterMap
    BwrapOption.mount, fun m hm => ?_, ?_⟩
  · obtain ⟨o, ho, hm⟩ := List.mem_filterMap.mp hm
    exact (hostless_isolationOptions ho).1 m hm
  · have henvironment : (environmentOptions application instance' runtime).filterMap
        BwrapOption.mount = [] :=
      List.filterMap_eq_nil_iff.mpr fun o ho => (mem_environmentOptions ho).1
    have hbinds : (sandboxBinds discovered application instance' runtime).filterMap
        (BwrapOption.mount ∘ bindOption instance' readOnly runtime) =
        (sandboxBinds discovered application instance' runtime).map
          (bindMount instance' readOnly runtime) := by
      rw [← List.filterMap_eq_map]
      exact List.filterMap_congr fun b _ => mount_bindOption
    rw [sandboxOptions, List.filterMap_append, List.filterMap_append, List.filterMap_append,
      List.filterMap_map, henvironment, List.append_nil, hbinds, List.append_assoc, hostMounts]
    split <;> rfl

theorem plain_destinations : Plain sandboxBundle ∧ Plain sandboxLaunch ∧ Plain sandboxConfig ∧
    Plain sandboxSecrets ∧ Plain sandboxState ∧ Plain sandboxOutput ∧ Plain sandboxLock := by
  decide

/-- The sources and destinations have the components of paths. -/
theorem plain_sandboxBinds (hdiscovered : ∀ b ∈ discovered, Plain b.1 ∧ Plain b.2)
    (happlication : Plain application) (hinstance : Plain instance')
    (hruntime : ∀ r ∈ runtime, Plain r.root) :
    ∀ b ∈ sandboxBinds discovered application instance' runtime, Plain b.1 ∧ Plain b.2 := by
  intro b hb
  rcases List.mem_append.mp hb with hb | hb
  · exact hdiscovered b hb
  cases runtime with
  | none =>
    simp only [List.mem_cons, List.not_mem_nil, or_false] at hb
    rcases hb with rfl | rfl
    · exact ⟨happlication, happlication⟩
    · exact ⟨hinstance, hinstance⟩
  | some r =>
    have hroot : Plain r.root := hruntime r rfl
    have hinputs : Plain r.inputs := hroot.div (by decide)
    obtain ⟨hbundle, hlaunch, hconfig, hsecrets, hstate, houtput, -⟩ := plain_destinations
    simp only [List.mem_cons, List.not_mem_nil, or_false] at hb
    rcases hb with rfl | rfl | rfl | rfl | rfl | rfl
    · exact ⟨hinputs.div (by decide), hbundle⟩
    · exact ⟨hinputs.div (by decide), hlaunch⟩
    · exact ⟨hinstance.div (by decide), hconfig⟩
    · exact ⟨hinstance.div (by decide), hsecrets⟩
    · exact ⟨hinstance.div (by decide), hstate⟩
    · exact ⟨hroot.div (by decide), houtput⟩

theorem plain_sandboxOptions (hdiscovered : ∀ b ∈ discovered, Plain b.1 ∧ Plain b.2)
    (happlication : Plain application) (hinstance : Plain instance')
    (hruntime : ∀ r ∈ runtime, Plain r.root) :
    ∀ o ∈ sandboxOptions discovered application instance' networkNamespace readOnly runtime,
      ∀ p ∈ o.paths, Plain p := by
  intro o ho
  rcases List.mem_append.mp ho with ho | ho
  · rcases List.mem_append.mp ho with ho | ho
    · rcases List.mem_append.mp ho with ho | ho
      · exact (hostless_isolationOptions ho).2
      · obtain ⟨b, hb, rfl⟩ := List.mem_map.mp ho
        obtain ⟨h1, h2⟩ := plain_sandboxBinds hdiscovered happlication hinstance hruntime b hb
        rw [paths_bindOption]
        exact List.forall_mem_cons.mpr ⟨h1, List.forall_mem_singleton.mpr h2⟩
    · split at ho
      · cases ho
      · obtain rfl := List.mem_singleton.mp ho
        have hlock : Plain (instance' / "state" / ".state.lock") :=
          (hinstance.div (by decide)).div (by decide)
        exact List.forall_mem_cons.mpr ⟨hlock, List.forall_mem_singleton.mpr
          plain_destinations.2.2.2.2.2.2⟩
  · rw [(mem_environmentOptions ho).2]
    exact List.forall_mem_nil _

/-! ## What can be written and seen -/

theorem hostMounts_operator : hostMounts discovered application instance' readOnly none =
    (discovered ++ [(application, application)]).map (bindMount instance' readOnly none) ++
      [bindMount instance' readOnly none (instance', instance')] := by
  simp [hostMounts, sandboxBinds]

theorem hostMounts_runtime {r : RuntimePaths} :
    hostMounts discovered application instance' readOnly (some r) =
      (discovered ++ [(r.bundle, sandboxBundle), (r.launch, sandboxLaunch)]).map
          (bindMount instance' readOnly (some r)) ++
        [bindMount instance' readOnly (some r) (instance' / "config.yaml", sandboxConfig),
          bindMount instance' readOnly (some r) (instance' / "secrets", sandboxSecrets),
          bindMount instance' readOnly (some r) (instance' / "state", sandboxState),
          bindMount instance' readOnly (some r) (r.output, sandboxOutput), lockMount instance'] := by
  simp [hostMounts, sandboxBinds]

section
variable {kernel : List Mount} (hkernel : ∀ m ∈ kernel, m.content = .synthetic)
include hkernel

/-- A mount with an object of the host is one of the binds or that of the lock. -/
theorem mem_hostMounts {m : Mount}
    (hm : m ∈ kernel ++ hostMounts discovered application instance' readOnly runtime)
    (hc : m.content = .host source writable) :
    (∃ b ∈ sandboxBinds discovered application instance' runtime,
      m = bindMount instance' readOnly runtime b) ∨ runtime ≠ none ∧ m = lockMount instance' := by
  rcases List.mem_append.mp hm with hm | hm
  · rw [hkernel m hm] at hc
    cases hc
  rcases List.mem_append.mp hm with hm | hm
  · obtain ⟨b, hb, rfl⟩ := List.mem_map.mp hm
    exact .inl ⟨b, hb, rfl⟩
  · split at hm
    · cases hm
    · next hruntime => exact .inr ⟨hruntime, List.mem_singleton.mp hm⟩

/-- Where a path can be written, a writable bind or the lock covers it. -/
theorem cases_of_writable
    (h : Writable (kernel ++ hostMounts discovered application instance' readOnly runtime) p) :
    (∃ b : Bind, b.2 <:+ p ∧ bindWritable instance' readOnly runtime b = true) ∨
      runtime ≠ none ∧ sandboxLock <:+ p := by
  obtain ⟨m, hm, hcover, source, hc⟩ := exists_of_writable h
  rcases mem_hostMounts hkernel hm hc with ⟨b, -, rfl⟩ | ⟨hruntime, rfl⟩
  · exact .inl ⟨b, hcover, (Content.host.inj hc).2⟩
  · exact .inr ⟨hruntime, hcover⟩

theorem writable_operator :
    Writable (kernel ++ hostMounts discovered application instance' readOnly none) p ↔
      readOnly = false ∧ instance' <:+ p := by
  constructor
  · intro h
    rcases cases_of_writable hkernel h with ⟨b, hcover, hb⟩ | ⟨hruntime, -⟩
    · rcases of_decide_eq_true hb with ⟨-, hreadOnly, -, hdestination⟩ | ⟨hruntime, -⟩
      · exact ⟨hreadOnly, hdestination ▸ hcover⟩
      · exact absurd rfl hruntime
    · exact absurd rfl hruntime
  · rintro ⟨rfl, hp⟩
    have hc : (bindMount instance' false none (instance', instance')).content = .host instance' true := by
      simp [bindMount, bindWritable]
    rw [hostMounts_operator, ← List.append_assoc]
    exact writable_of_last hc hp (List.forall_mem_nil _)

variable {r : RuntimePaths}

theorem writable_runtime :
    Writable (kernel ++ hostMounts discovered application instance' readOnly (some r)) p ↔
      sandboxOutput <:+ p ∨ sandboxLock <:+ p := by
  constructor
  · intro h
    rcases cases_of_writable hkernel h with ⟨b, hcover, hb⟩ | ⟨-, hcover⟩
    · rcases of_decide_eq_true hb with ⟨hnone, -⟩ | ⟨-, hdestination⟩
      · cases hnone
      · exact .inl (hdestination ▸ hcover)
    · exact .inr hcover
  · rw [hostMounts_runtime, ← List.append_assoc]
    rintro (hp | hp)
    · have hc : (bindMount instance' readOnly (some r) (r.output, sandboxOutput)).content =
          .host r.output true := by simp [bindMount, bindWritable]
      have hafter : ∀ m ∈ [lockMount instance'], ¬ m.target <:+ p := List.forall_mem_singleton.mpr
        ((by decide : Apart sandboxOutput sandboxLock).not_below hp)
      rw [List.append_cons, List.append_cons, List.append_cons]
      exact writable_of_last hc hp hafter
    · rw [List.append_cons, List.append_cons, List.append_cons, List.append_cons]
      exact writable_of_last rfl hp (List.forall_mem_nil _)

/-- Nothing else of the instance is the source of a mount. -/
theorem visible_runtime (hsystem : ∀ b ∈ discovered, Apart b.1 instance') (hroot : Apart r.root instance')
    (hq : instance' <:+ q) :
    Visible (kernel ++ hostMounts discovered application instance' readOnly (some r)) q ↔
      (instance' / "config.yaml") <:+ q ∨ (instance' / "secrets") <:+ q ∨
        (instance' / "state") <:+ q := by
  constructor
  · intro h
    obtain ⟨m, hm, source, writable, hc, hsource⟩ := exists_of_visible h
    rcases mem_hostMounts hkernel hm hc with ⟨b, hb, rfl⟩ | ⟨-, rfl⟩
    · obtain ⟨rfl, -⟩ := Content.host.inj hc
      rcases List.mem_append.mp hb with hb | hb
      · exact absurd hq ((hsystem b hb).not_below hsource)
      have hinside (h : r.root <:+ b.1) : False := hroot.not_below (h.trans hsource) hq
      simp only [List.mem_cons, List.not_mem_nil, or_false] at hb
      rcases hb with rfl | rfl | rfl | rfl | rfl | rfl
      · exact (hinside ⟨["application.pyz", "inputs"], rfl⟩).elim
      · exact (hinside ⟨["launch.json", "inputs"], rfl⟩).elim
      · exact .inl hsource
      · exact .inr (.inl hsource)
      · exact .inr (.inr hsource)
      · exact (hinside ⟨["output"], rfl⟩).elim
    · obtain ⟨rfl, -⟩ := Content.host.inj hc
      exact .inr (.inr ((List.suffix_cons _ _).trans hsource))
  · rw [hostMounts_runtime, ← List.append_assoc]
    have hlater {target : Path} (rest : Path) {later : List Mount}
        (h : ∀ q ∈ later.map Mount.target, Apart target q) : ∀ m ∈ later, ¬ m.target <:+ rest ++ target :=
      fun m hm => (h _ (List.mem_map_of_mem hm)).not_below ⟨rest, rfl⟩
    have hconfig : ∀ q ∈ [sandboxSecrets, sandboxState, sandboxOutput, sandboxLock],
        Apart sandboxConfig q := by decide
    have hsecrets : ∀ q ∈ [sandboxState, sandboxOutput, sandboxLock], Apart sandboxSecrets q := by decide
    have hstate : Apart sandboxState sandboxOutput := by decide
    rintro (⟨rest, rfl⟩ | ⟨rest, rfl⟩ | ⟨rest, rfl⟩)
    · exact visible_of_last rfl rest (hlater rest hconfig)
    · rw [List.append_cons]
      exact visible_of_last rfl rest (hlater rest hsecrets)
    -- the lock has been mounted over the one of the state directory
    by_cases hlock : sandboxLock <:+ rest ++ sandboxState
    · obtain ⟨rest', hrest⟩ := hlock
      obtain rfl : rest' ++ [".state.lock"] = rest := List.append_cancel_right
        ((List.append_assoc rest' [".state.lock"] sandboxState).trans hrest)
      rw [List.append_cons, List.append_cons, List.append_cons, List.append_cons, List.append_assoc rest']
      exact visible_of_last rfl rest' (List.forall_mem_nil _)
    · rw [List.append_cons, List.append_cons]
      refine visible_of_last rfl rest fun m hm => ?_
      rcases List.mem_cons.mp hm with rfl | hm
      · exact hstate.not_below ⟨rest, rfl⟩
      · exact List.mem_singleton.mp hm ▸ hlock

end

/-- Mounted from left to right, the arguments of the sandbox of the gateway give write access to the
output and to the lock of the state, a file, and show nothing of the instance but its configuration,
its secrets and its state; those of an operator give write access to the instance, or to nothing. -/
theorem bubblewrapCommand_mounts (hdiscovered : ∀ b ∈ discovered, Plain b.1 ∧ Plain b.2)
    (happlication : Plain application) (hinstance : Plain instance')
    (hruntime : ∀ r ∈ runtime, Plain r.root) (hsystem : ∀ b ∈ discovered, Apart b.1 instance')
    (houtside : ∀ r ∈ runtime, Apart r.root instance')
    (h : bubblewrapCommand discovered application instance' networkNamespace readOnly runtime which
      command = .ok arguments) :
    match runtime with
    | none => ∀ p, Writable (readMounts arguments.tail) p ↔ readOnly = false ∧ instance' <:+ p
    | some _ => (∀ p, Writable (readMounts arguments.tail) p ↔ sandboxOutput <:+ p ∨ sandboxLock <:+ p) ∧
      ∀ q, instance' <:+ q → (Visible (readMounts arguments.tail) q ↔
        (instance' / "config.yaml") <:+ q ∨ (instance' / "secrets") <:+ q ∨
          (instance' / "state") <:+ q) := by
  obtain ⟨-, h⟩ := raiseIf_bind_eq_ok.mp h
  obtain ⟨-, h⟩ := seq_eq_ok.mp h
  obtain ⟨bwrap, -, h⟩ := bind_eq_ok.mp h
  obtain rfl := Except.ok.inj h
  obtain ⟨kernel, hkernel, hmounts⟩ :=
    @filterMap_sandboxOptions discovered application instance' networkNamespace readOnly runtime
  rw [List.tail_cons, readMounts_arguments (plain_sandboxOptions hdiscovered happlication hinstance
    hruntime), hmounts]
  cases runtime with
  | none => exact fun p => writable_operator hkernel
  | some r =>
    exact ⟨fun p => writable_runtime hkernel, fun q => visible_runtime hkernel hsystem (houtside r rfl)⟩

end

/-- A host with the usual directories, where the interpreter is the one of the system. -/
def exampleFiles : HostFiles where
  isThere p := p = ["usr"] ∨ p = ["passwd", "etc"] ∨ p = uplinkResolver
  isFile p := p = uplinkResolver
  canonical p := p
  sysPrefix := ["venv", "srv"]
  sysBasePrefix := ["venv", "srv"]
  interpreter := none

def exampleRuntime : RuntimePaths where
  unitName := "shuttle-gate-5f1e.service"
  root := ["5f1e", "shuttle-gate", "1000", "user", "run"]

/-- What the sandbox of the example mounts of the host. -/
def exampleDiscovered : List Bind :=
  [(["usr"], ["usr"]), (["passwd", "etc"], ["passwd", "etc"]), (uplinkResolver, resolverFile),
    (["venv", "srv"], ["venv", "srv"])]

example : systemMounts exampleFiles ++ pythonMounts exampleFiles = exampleDiscovered := by
  decide +kernel

theorem bubblewrapCommand_mounts_example : ∃ arguments,
    bubblewrapCommand exampleDiscovered ["app", "srv"] ["office", "srv"] true true (some exampleRuntime)
      (fun name => some [name, "bin", "usr"]) ["python3", "-m", "shuttle_gate", "runtime"] =
        .ok arguments ∧
    (∀ p, Writable (readMounts arguments.tail) p ↔ sandboxOutput <:+ p ∨ sandboxLock <:+ p) ∧
    ∀ q, ["office", "srv"] <:+ q → (Visible (readMounts arguments.tail) q ↔
      ["config.yaml", "office", "srv"] <:+ q ∨ ["secrets", "office", "srv"] <:+ q ∨
        ["state", "office", "srv"] <:+ q) := by
  obtain ⟨arguments, h⟩ : ∃ arguments, bubblewrapCommand exampleDiscovered ["app", "srv"]
      ["office", "srv"] true true (some exampleRuntime) (fun name => some [name, "bin", "usr"])
      ["python3", "-m", "shuttle_gate", "runtime"] = .ok arguments := ⟨_, rfl⟩
  exact ⟨arguments, h, bubblewrapCommand_mounts (by decide) (by decide) (by decide) (by decide)
    (by decide) (by decide) h⟩

end Host
end ShuttleGate
