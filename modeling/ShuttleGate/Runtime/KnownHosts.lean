import ShuttleGate.Runtime.Commands
import ShuttleGate.Ssh.OptionValue

/-! # The host-key file of the SSH command line

`ssh_arguments` writes the configured host-key file into an option whose value OpenSSH splits into
words and expands. A configuration may use any printable character in the file's name; the option
names the configured file exactly when none of them means something there. -/

namespace ShuttleGate

open Fs OpenSsh

namespace Runtime

/-! ## Reading the command line -/

/-- The values of the `-o` flags of an `ssh` command line; every other flag takes one argument. -/
def optionsOf : List String → List String
  | "-o" :: option :: rest => option :: optionsOf rest
  | _ :: _ :: rest => optionsOf rest
  | _ => []

/-- The value of the first option with a keyword. -/
def optionValue (keyword : String) (options : List String) : Option (List Char) :=
  (options.find? fun option => option.toList.takeWhile (· ≠ '=') = keyword.toList).map
    fun option => (option.toList.dropWhile (· ≠ '=')).drop 1

/-- The host-key files `ssh` takes from its command line. -/
def knownHostsFiles (env : Environment) (arguments : List String) : Option (List (List Char)) := do
  files env (← optionValue "UserKnownHostsFile" (optionsOf arguments.tail))

/-! ## The option -/

theorem option_split {keyword : String} (h : '=' ∉ keyword.toList) (value : String) :
    (keyword ++ "=" ++ value).toList.takeWhile (· ≠ '=') = keyword.toList ∧
      ((keyword ++ "=" ++ value).toList.dropWhile (· ≠ '=')).drop 1 = value.toList := by
  have hkeyword : ∀ c ∈ keyword.toList, decide (c ≠ '=') = true := fun c hc =>
    decide_eq_true fun he => h (he ▸ hc)
  rw [String.toList_append, String.toList_append, List.append_assoc]
  obtain ⟨htake, hdrop⟩ := List.takeWhile_append_stop (s := "=".toList ++ value.toList) hkeyword
    fun c hc => by cases hc; rfl
  exact ⟨htake, by rw [hdrop]; rfl⟩

/-- A checked secret path lies below `secrets/`. -/
theorem secretRelativePath_of_check [UnicodeDb] (h : SSHConfig.checkSecretPath value = .ok ()) :
    ∃ parts, value.root = "" ∧ parts ≠ [] ∧ value.parts = "secrets" :: parts ∧
      secretRelativePath value = .ok parts := by
  simp only [SSHConfig.checkSecretPath, raiseIf_bind_eq_ok, raiseIf_eq_ok, not_or,
    Decidable.not_not, Nat.not_lt] at h
  obtain ⟨-, ⟨habs, hup⟩, hlen, hhead⟩ := h
  have hroot : value.root = "" := by simpa [PurePath.isAbsolute] using habs
  cases hparts : value.parts with
  | nil => simp [hparts] at hlen
  | cons first parts =>
    rw [hparts] at hhead hlen
    obtain rfl := Option.some.inj hhead
    refine ⟨parts, hroot, fun hnil => by simp [hnil] at hlen, rfl, ?_⟩
    rw [secretRelativePath, raiseIf_bind_eq_ok, raiseIf_bind_eq_ok, hparts]
    refine ⟨habs, ?_, rfl⟩
    rw [hparts] at hup
    simp only [not_or]
    exact ⟨by omega, by simp, hup⟩

theorem intercalate_append {xs ys : List (List Char)} (h : ys ≠ []) :
    ['/'].intercalate (xs ++ ys) = xs.flatMap (· ++ ['/']) ++ ['/'].intercalate ys := by
  induction xs with
  | nil => rfl
  | cons x xs ih =>
    obtain ⟨y, rest, hrest⟩ := List.exists_cons_of_ne_nil
      (fun hnil => h (List.append_eq_nil_iff.mp hnil).2 : xs ++ ys ≠ [])
    rw [List.cons_append, hrest, List.intercalate_cons_cons, ← hrest, ih, List.flatMap_cons,
      List.append_assoc, List.append_assoc, List.append_assoc]

section
variable {configured : PurePath} {paths : InstancePaths} {parts : List String}

/-- The mounted path and the configured path end alike, after fronts without special
characters. -/
theorem plain_mounted (hroot : configured.root = "") (hparts : configured.parts = "secrets" :: parts)
    (hne : parts ≠ []) (hsecrets : ∀ n ∈ paths.secrets, ∀ c ∈ n.toList, isSpecial c = false) :
    Plain (paths.secrets.join parts).text.toList ↔ Plain configured.text.toList := by
  have hmap : parts.map String.toList ≠ [] := by simpa using hne
  have hfront : ∀ c ∈ '/' :: (paths.secrets.reverse.map String.toList).flatMap (· ++ ['/']),
      isSpecial c = false := by
    refine List.forall_mem_cons.mpr ⟨by decide, fun c hc => ?_⟩
    obtain ⟨l, hl, hc⟩ := List.mem_flatMap.mp hc
    obtain ⟨n, hn, rfl⟩ := List.mem_map.mp hl
    rcases List.mem_append.mp hc with hc | hc
    · exact hsecrets n (List.mem_reverse.mp hn) c hc
    · rw [List.mem_singleton.mp hc]
      decide
  have hmounted : (paths.secrets.join parts).text.toList =
      ('/' :: (paths.secrets.reverse.map String.toList).flatMap (· ++ ['/'])) ++
        ['/'].intercalate (parts.map String.toList) := by
    rw [Path.join_eq_append, Path.text, String.toList_append, String.toList_intercalate,
      List.reverse_append, List.reverse_reverse, List.map_append]
    exact congrArg _ (intercalate_append hmap)
  have htext : configured.text.toList = "secrets/".toList ++ ['/'].intercalate (parts.map String.toList) := by
    rw [PurePath.text, hroot, hparts, if_neg (by simp), String.toList_append, String.toList_intercalate,
      List.map_cons]
    exact @intercalate_append ["secrets".toList] _ hmap
  rw [hmounted, htext, plain_append hfront, plain_append (by decide)]

end

/-- The text of an option. -/
def optionText (option : String × String) : String := option.1 ++ "=" ++ option.2

/-- The options of the command line, keyword and value. -/
def strictOptions (ssh : SSHConfig) (knownHosts : Path) : List (String × String) :=
  [("BatchMode", "yes"), ("PasswordAuthentication", "no"), ("KbdInteractiveAuthentication", "no"),
    ("IdentitiesOnly", "yes"), ("StrictHostKeyChecking", "yes"),
    ("UserKnownHostsFile", knownHosts.text),
    ("ConnectTimeout", toString ssh.connectTimeoutSeconds),
    ("ServerAliveInterval", toString ssh.serverAliveIntervalSeconds),
    ("ServerAliveCountMax", toString ssh.serverAliveCountMax), ("LogLevel", "ERROR")]

theorem sshArguments_eq_ok {config : ProjectConfig} {paths : InstancePaths}
    (hidentity : mountedSecretPath paths config.ssh.identityFile = .ok identity)
    (hknown : mountedSecretPath paths config.ssh.knownHostsFile = .ok knownHosts) :
    ∃ arguments, sshArguments config paths = .ok arguments ∧ optionsOf arguments.tail =
      (strictOptions config.ssh knownHosts).map optionText := by
  refine ⟨_, by rw [sshArguments, hidentity, hknown]; rfl, ?_⟩
  simp [optionsOf, strictOptions, optionText, toString]

/-- Options are told apart by their keywords. -/
theorem filter_optionText {options : List (String × String)} (h : ∀ o ∈ options, '=' ∉ o.1.toList)
    (keyword : String) :
    (options.map optionText).filter (fun o => o.toList.takeWhile (· ≠ '=') = keyword.toList) =
      (options.filter (·.1 = keyword)).map optionText := by
  rw [List.filter_map]
  refine congrArg _ (List.filter_congr fun o ho => ?_)
  have hkeyword : (optionText o).toList.takeWhile (· ≠ '=') = o.1.toList :=
    (option_split (h o ho) o.2).1
  rw [Function.comp_apply, hkeyword]
  simp [String.toList_inj]

/-- The host-key file an accepted configuration has in its command line. -/
theorem knownHosts_option [UnicodeDb] (config : CheckedConfig) (paths : InstancePaths) :
    ∃ path arguments, mountedSecretPath paths config.ssh.knownHostsFile = .ok path ∧
      sshArguments config.toProjectConfig paths = .ok arguments ∧
      (optionsOf arguments.tail).filter (fun o =>
        o.toList.takeWhile (· ≠ '=') = "UserKnownHostsFile".toList) =
          [optionText ("UserKnownHostsFile", path.text)] := by
  have hchecks := config.checks.2.1
  simp only [SSHConfig.check, seq_eq_ok] at hchecks
  obtain ⟨-, -, -, hidentity, hknown, -⟩ := hchecks
  obtain ⟨identity, -, -, -, hidentity⟩ := secretRelativePath_of_check hidentity
  obtain ⟨parts, -, -, -, hparts⟩ := secretRelativePath_of_check hknown
  have hmounted : mountedSecretPath paths config.ssh.knownHostsFile =
      .ok (paths.secrets.join parts) := by rw [mountedSecretPath, hparts]; rfl
  have hmounted' : mountedSecretPath paths config.ssh.identityFile =
      .ok (paths.secrets.join identity) := by rw [mountedSecretPath, hidentity]; rfl
  obtain ⟨arguments, harguments, hoptions⟩ := sshArguments_eq_ok hmounted' hmounted
  refine ⟨_, arguments, hmounted, harguments, ?_⟩
  rw [hoptions]
  refine (filter_optionText ?_ _).trans ?_
  · simp only [strictOptions, List.forall_mem_cons]
    decide
  · rfl

/-! ## The files -/

theorem knownHostsFiles_eq {arguments : List String} {value : String}
    (h : (optionsOf arguments.tail).filter (fun o =>
      o.toList.takeWhile (· ≠ '=') = "UserKnownHostsFile".toList) =
        [optionText ("UserKnownHostsFile", value)]) (env : Environment) :
    knownHostsFiles env arguments = files env value.toList := by
  have hfind := congrArg List.head? h
  rw [List.head?_filter, List.head?_cons] at hfind
  rw [knownHostsFiles, optionValue, hfind]
  change files env (((optionText ("UserKnownHostsFile", value)).toList.dropWhile _).drop 1) = _
  have hkeyword : '=' ∉ "UserKnownHostsFile".toList := by decide
  rw [optionText, (option_split hkeyword value).2]

/-- For every accepted configuration, and a secrets directory without special characters, the
command line has one host-key option, and OpenSSH takes it for the one file it was meant to name,
in every environment, exactly when the configured path is plain; no environment with plain values
hides a path that is not. -/
theorem knownHosts_iff [UnicodeDb] (config : CheckedConfig) (paths : InstancePaths)
    (hsecrets : ∀ n ∈ paths.secrets, ∀ c ∈ n.toList, isSpecial c = false) :
    ∃ path arguments, mountedSecretPath paths config.ssh.knownHostsFile = .ok path ∧
      sshArguments config.toProjectConfig paths = .ok arguments ∧
      ((∀ env, knownHostsFiles env arguments = some [path.text.toList]) ↔
        Plain config.ssh.knownHostsFile.text.toList) ∧
      ∀ env : Environment, env.Plain → (knownHostsFiles env arguments = some [path.text.toList] ↔
        Plain config.ssh.knownHostsFile.text.toList) := by
  obtain ⟨path, arguments, hpath, harguments, hoption⟩ := knownHosts_option config paths
  have hfiles := knownHostsFiles_eq hoption
  have hplain : Plain path.text.toList ↔ Plain config.ssh.knownHostsFile.text.toList := by
    have hchecks := config.checks.2.1
    simp only [SSHConfig.check, seq_eq_ok] at hchecks
    obtain ⟨parts, hroot, hne, hparts, hrelative⟩ :=
      secretRelativePath_of_check hchecks.2.2.2.2.1
    have hmounted : mountedSecretPath paths config.ssh.knownHostsFile =
        .ok (paths.secrets.join parts) := by rw [mountedSecretPath, hrelative]; rfl
    obtain rfl := Except.ok.inj (hpath.symm.trans hmounted)
    exact plain_mounted hroot hparts hne hsecrets
  have hne : path.text.toList ≠ [] := by simp [Path.text]
  have heach (env : Environment) (henv : env.Plain) :
      knownHostsFiles env arguments = some [path.text.toList] ↔
        Plain config.ssh.knownHostsFile.text.toList := by
    rw [hfiles, ← hplain]
    exact ⟨plain_of_files henv hne, files_plain hne⟩
  refine ⟨path, arguments, hpath, harguments, ⟨fun hall => ?_, fun h env => ?_⟩, heach⟩
  · exact (heach _ Environment.plain_empty).mp (hall _)
  · rw [hfiles]
    exact files_plain hne (hplain.mpr h)

/-- The paths of the sandbox. -/
def sandboxPaths : InstancePaths where
  root := []
  config := ["config.yaml", "config"]
  state := ["state"]
  secrets := ["secrets"]

/-- The example configuration names `secrets/known_hosts`, which is plain. -/
theorem knownHosts_iff_example : ∃ path arguments,
    @sshArguments (@CheckedConfig.toProjectConfig asciiDb exampleConfig) sandboxPaths =
      .ok arguments ∧ ∀ env, knownHostsFiles env arguments = some [path] := by
  obtain ⟨path, arguments, -, harguments, hall, -⟩ :=
    @knownHosts_iff asciiDb exampleConfig sandboxPaths (by decide)
  refine ⟨path.text.toList, arguments, harguments, hall.mpr ⟨?_, ?_, ?_⟩⟩
  · decide +kernel
  · decide +kernel
  · decide +kernel

/-- The example configuration with a blank in the name of the host-key file. -/
def spacedProject : ProjectConfig :=
  { exampleProject with
    ssh := { exampleProject.ssh with knownHostsFile := .ofText "secrets/known hosts" } }

def spacedConfig : @CheckedConfig asciiDb :=
  @CheckedConfig.mk asciiDb spacedProject (by decide +kernel)

/-- The configuration is accepted, and OpenSSH is given the files `/secrets/known` and `hosts`. -/
theorem spacedKnownHosts : ¬ ∀ (config : @CheckedConfig asciiDb) (paths : InstancePaths),
    (∀ n ∈ paths.secrets, ∀ c ∈ n.toList, isSpecial c = false) →
      ∃ path arguments,
        mountedSecretPath paths (@CheckedConfig.toProjectConfig asciiDb config).ssh.knownHostsFile =
          .ok path ∧
        sshArguments (@CheckedConfig.toProjectConfig asciiDb config) paths = .ok arguments ∧
        ∀ env, knownHostsFiles env arguments = some [path.text.toList] := by
  intro hall
  obtain ⟨path, arguments, hpath, harguments, hfiles⟩ := hall spacedConfig sandboxPaths (by decide)
  obtain ⟨path', arguments', hpath', harguments', hoption⟩ :=
    @knownHosts_option asciiDb spacedConfig sandboxPaths
  obtain rfl := Except.ok.inj (hpath.symm.trans hpath')
  obtain rfl := Except.ok.inj (harguments.symm.trans harguments')
  have hpath : path = ["known hosts", "secrets"] :=
    Except.ok.inj (hpath.symm.trans (by decide +kernel))
  have hsplit := (knownHostsFiles_eq hoption .empty).symm.trans (hfiles _)
  rw [hpath] at hsplit
  exact absurd hsplit (by decide +kernel)

end Runtime

end ShuttleGate
