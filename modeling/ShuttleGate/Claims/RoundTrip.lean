import ShuttleGate.Claims.Sockets
import ShuttleGate.Host.InstanceRoot
import ShuttleGate.Net.Cidr

/-! # The arguments of the claim wrapper

`claim_command` writes the claims of a configuration and a command into one argument list, and
`parse_arguments` reads them back. Every accepted configuration has claims, since its bind
addresses are ASCII text; what the parser accepts is what the encoder writes, up to the spelling of
the claim paths. -/

namespace ShuttleGate

open Net Fs Host Crypto

namespace Claims

/-! ## The encoder -/

/-- The `instance_id` of `runtime_paths`, for the text of the resolved instance directory. -/
def instanceId (resolved : String) : String :=
  .ofList ((Sha256.hexdigest (resolved.toUTF8.toList.map UInt8.toBitVec)).toList.take 20)

/-- The `root` of `runtime_paths`. -/
def runtimeRoot [UnicodeDb] (xdgRuntimeDir : Option String) (resolved : String) :
    Except Exn PurePath := do
  let value := xdgRuntimeDir.getD ""
  raiseIf (value = "")
    (Exn.host "XDG_RUNTIME_DIR is unavailable; a systemd user session is required")
  let xdg := PurePath.ofText value
  raiseIf (xdg.isAbsolute = false) (Exn.host "XDG_RUNTIME_DIR must be an absolute path")
  raiseIf (isPrintable xdg.text = false)
    (Exn.host "XDG_RUNTIME_DIR must contain only printable characters")
  return (xdg.join "shuttle-gate").join (instanceId resolved)

/-- What comes before the arguments of the wrapper; `python` is `sys.executable`. -/
def wrapperPrefix (python : String) : List String := [python, "-P", "-m", "shuttle_gate.claim"]

def claimCommand (python : String) (claims : List PurePath) (inner : List String) :
    Except Exn (List String) := do
  raiseIf (claims = [] ∨ inner = []) (Exn.error "ValueError")
  return wrapperPrefix python ++ claimArguments claims inner

/-- The argument list with its leading claim paths in normal form. -/
def normaliseClaims : List String → List String
  | "--claim" :: path :: values => "--claim" :: (PurePath.ofText path).text :: normaliseClaims values
  | values => values

/-! ## Every configuration has claims -/

theorem toNat_of_isAlnum (h : isAlnum c = true) : c.toNat < 128 := by
  simp only [isAlnum, isAlpha, isLower, Char.isDigit, Bool.or_eq_true, Bool.and_eq_true,
    decide_eq_true_eq, Char.le_def, UInt32.le_iff_toNat_le, ge_iff_le] at h
  have hz : 'z'.val.toNat = 122 := rfl
  have hZ : 'Z'.val.toNat = 90 := rfl
  have h9 : '9'.val.toNat = 57 := rfl
  simp only [Char.toNat]
  omega

theorem toNat_of_interfacePattern (h : interfacePattern s = true) : ∀ c ∈ s.toList, c.toNat < 128 := by
  intro c hc
  simp only [interfacePattern, allOf, Bool.and_eq_true, List.all_eq_true] at h
  rcases Bool.or_eq_true_iff.mp (h.1.1 c hc) with h | h
  · exact toNat_of_isAlnum h
  · have hall : ∀ c ∈ "_.-".toList, c.toNat < 128 := by decide
    exact hall c (List.contains_iff_mem.mp h)

theorem toNat_of_mem_chars {a : IPAddress}
    (h : ∀ scope, a.scopeId = some scope → interfacePattern scope.text = true) :
    ∀ c ∈ a.chars, c.toNat < 128 := by
  intro c hc
  cases hs : a.scopeId with
  | none => exact lt_of_le_of_lt (IPAddress.toNat_of_mem hs hc).2 (by decide)
  | some scope =>
    cases a with
    | v4 ip => cases hs
    | v6 ip zone =>
      obtain rfl : zone = some scope := hs
      rcases List.mem_append.mp hc with hc | hc
      · exact lt_of_le_of_lt (IPAddress.toNat_of_mem (a := .v6 ip none) rfl hc).2 (by decide)
      · rcases List.mem_cons.mp hc with rfl | hc
        · decide
        · exact toNat_of_interfacePattern (h scope rfl) c hc

/-- A zone of a bind address is an interface name. -/
theorem interfacePattern_of_checkBindScopes {addresses : List IPAddress}
    (h : WireGuardConfig.checkBindScopes addresses = .ok ()) :
    ∀ a ∈ addresses, ∀ scope, a.scopeId = some scope → interfacePattern scope.text = true := by
  induction addresses with
  | nil => exact List.forall_mem_nil _
  | cons a rest ih =>
    rw [WireGuardConfig.checkBindScopes, seq_eq_ok] at h
    refine List.forall_mem_cons.mpr ⟨fun scope hs => ?_, ih h.2⟩
    cases a with
    | v4 ip => cases hs
    | v6 ip zone =>
      obtain rfl : zone = some scope := hs
      simp only [WireGuardConfig.checkScope, raiseIf_bind_eq_ok, raiseIf_eq_ok, Decidable.not_not] at h
      exact h.1.2.2

theorem ascii_claimMessage (config : ProjectConfig) {a : IPAddress}
    (h : ∀ scope, a.scopeId = some scope → interfacePattern scope.text = true) :
    ∀ c ∈ (claimMessage config a).toList, c.toNat < 128 := by
  intro c hc
  have hport : ∀ c ∈ (toString config.wireguard.listenPort).toList, c.toNat < 128 := by
    intro c hc
    rw [Int.toList_toString] at hc
    have hdigit {n : Nat} (hd : c ∈ Nat.toDigits 10 n) : c.toNat < 128 :=
      toNat_of_isAlnum (by simp [isAlnum, Nat.all_isDigit_toDigits n c hd])
    split at hc
    · exact hdigit hc
    · rcases List.mem_cons.mp hc with rfl | hc
      · decide
      · exact hdigit hc
  rw [toList_claimMessage, List.mem_append, List.mem_append, List.mem_cons, List.mem_cons,
    toList_text] at hc
  rcases hc with (hc | rfl | hc) | rfl | hc
  · revert c
    generalize a.version = v
    cases v <;> decide
  · decide
  · exact toNat_of_mem_chars h c hc
  · decide
  · exact hport c hc

/-- Every value of an element-wise computation that never fails. -/
theorem exists_mapM {f : α → Option β} {xs : List α} (h : ∀ x ∈ xs, ∃ y, f x = some y) :
    ∃ ys, xs.mapM f = some ys ∧ ys.length = xs.length := by
  induction xs with
  | nil => exact ⟨[], rfl, rfl⟩
  | cons x xs ih =>
    obtain ⟨⟨y, hy⟩, hxs⟩ := List.forall_mem_cons.mp h
    obtain ⟨ys, hys, hlen⟩ := ih hxs
    exact ⟨y :: ys, by simp [List.mapM_cons, hy, hys], congrArg Nat.succ hlen⟩

/-- An accepted configuration has at least one claim. -/
theorem exists_claims [UnicodeDb] (config : CheckedConfig) (root : PurePath) :
    ∃ claims, socketClaimPaths root config.toProjectConfig = some claims ∧ claims ≠ [] := by
  have hscopes : WireGuardConfig.checkBindScopes config.wireguard.bindAddresses = .ok () := by
    have h := config.checks.1
    simp only [WireGuardConfig.check, seq_eq_ok] at h
    exact h.1
  obtain ⟨paths, hpaths, hlen⟩ := exists_mapM
    (f := claimPath (root.parent.join "claims") config.toProjectConfig) fun a ha =>
      ⟨_, claimPath_eq_some.mpr ⟨ascii_claimMessage config.toProjectConfig
        (interfacePattern_of_checkBindScopes hscopes a ha), rfl⟩⟩
  have hbind : config.wireguard.bindAddresses ≠ [] := by
    have h := config.wireguard_network
    simp only [WireGuardConfig.checkNetwork, seq_eq_ok, raiseIf_eq_ok] at h
    exact h.1
  refine ⟨sortedSet paths, by rw [socketClaimPaths, hpaths]; rfl, ?_⟩
  obtain ⟨path, hpath⟩ := List.exists_mem_of_length_pos (l := paths)
    (by rw [hlen]; exact List.length_pos_iff.mpr hbind)
  exact List.ne_nil_of_mem (mem_sortedSet.mpr hpath)

theorem length_instanceId (resolved : String) : (instanceId resolved).length = 20 := by
  rw [instanceId, String.length_ofList, List.length_take, String.length_toList,
    Sha256.length_hexdigest]
  rfl

theorem isPart_instanceId (resolved : String) : IsPart (instanceId resolved) := by
  have hlen := length_instanceId resolved
  refine ⟨fun h => ?_, fun h => ?_, fun h => ?_⟩
  · rw [h] at hlen
    cases hlen
  · rw [h] at hlen
    cases hlen
  · rw [instanceId, String.toList_ofList] at h
    exact absurd (Sha256.isHex_hexdigest _ (List.mem_of_mem_take h)) (by decide)

/-- The runtime root is an absolute path. -/
theorem absolute_runtimeRoot [UnicodeDb] (h : runtimeRoot xdg resolved = .ok root) :
    root.Rooted ∧ root.isAbsolute = true := by
  simp only [runtimeRoot, raiseIf_bind_eq_ok] at h
  obtain ⟨-, habs, -, h⟩ := h
  obtain rfl := Except.ok.inj h
  have hgate : IsPart "shuttle-gate" := by decide
  have hroot : ((PurePath.ofText (xdg.getD "")).join "shuttle-gate").root =
      (PurePath.ofText (xdg.getD "")).root := (PurePath.join_part _ hgate).1
  rw [PurePath.Rooted, PurePath.isAbsolute, (PurePath.join_part _ (isPart_instanceId _)).1, hroot]
  exact ⟨PurePath.rooted_ofText _, by simpa [PurePath.isAbsolute] using habs⟩

/-! ## What the parser accepts is what the encoder writes -/

theorem claimArguments_of_takeClaims {arguments inner : List String}
    (h : takeClaims arguments = .ok (claims, "--" :: inner)) :
    claimArguments claims inner = normaliseClaims arguments := by
  induction arguments using takeClaims.induct generalizing claims with
  | case1 path arguments ih =>
    rw [takeClaims] at h
    obtain ⟨⟨claims', values⟩, h', heq⟩ := bind_eq_ok.mp h
    cases heq
    rw [normaliseClaims, ← ih h']
    rfl
  | case2 => cases h
  | case3 arguments hpair hlone =>
    rw [takeClaims] at h
    · cases h
      rw [normaliseClaims]
      · rfl
      · exact hpair
    all_goals assumption

theorem parseArguments_eq_ok {arguments : List String}
    (h : parseArguments arguments = .ok (claims, command)) :
    takeClaims arguments = .ok (claims, "--" :: command) ∧ claims ≠ [] ∧ command ≠ [] := by
  obtain ⟨⟨claims', values⟩, htake, h⟩ := bind_eq_ok.mp h
  dsimp only at h
  split at h
  · simp only [raiseIf_bind_eq_ok] at h
    obtain ⟨-, -, -, h⟩ := h
    cases h
    exact ⟨htake, List.cons_ne_nil _ _, List.cons_ne_nil _ _⟩
  · cases h

theorem claimCommand_eq_ok {inner : List String} (python : String) (hclaims : claims ≠ []) (hinner : inner ≠ []) :
    claimCommand python claims inner = .ok (wrapperPrefix python ++ claimArguments claims inner) := by
  rw [claimCommand, raiseIf_bind_eq_ok]
  exact ⟨by simp [hclaims, hinner], rfl⟩

/-- The claims of an accepted configuration and any command with an absolute executable are read
back as they are; and an accepted argument list is what the encoder writes for its claims and
command, with the claim paths in normal form. -/
theorem parseArguments_roundTrip [UnicodeDb] (python : String) :
    (∀ (config : CheckedConfig) (xdg : Option String) (resolved : String) (root : PurePath)
      (executable : String) (rest : List String), runtimeRoot xdg resolved = .ok root →
      (PurePath.ofText executable).isAbsolute = true →
      ∃ claims arguments, socketClaimPaths root config.toProjectConfig = some claims ∧
        claimCommand python claims (executable :: rest) = .ok (wrapperPrefix python ++ arguments) ∧
        parseArguments arguments = .ok (claims, executable :: rest)) ∧
    ∀ arguments claims command, parseArguments arguments = .ok (claims, command) →
      claimCommand python claims command = .ok (wrapperPrefix python ++ normaliseClaims arguments) := by
  constructor
  · intro config xdg resolved root executable rest hroot hexe
    obtain ⟨hrooted, habs⟩ := absolute_runtimeRoot hroot
    obtain ⟨claims, hclaims, hne⟩ := exists_claims config root
    refine ⟨claims, _, hclaims, claimCommand_eq_ok python hne (List.cons_ne_nil _ _), ?_⟩
    exact parseArguments_claimArguments hrooted habs hclaims hne hexe rest
  · intro arguments claims command h
    obtain ⟨htake, hclaims, hcommand⟩ := parseArguments_eq_ok h
    rw [claimCommand_eq_ok python hclaims hcommand, claimArguments_of_takeClaims htake]

/-- The claims of the example configuration with a command full of markers, and a claim path with
two slashes. -/
theorem parseArguments_roundTrip_example :
    (∃ root claims arguments,
      socketClaimPaths root (@CheckedConfig.toProjectConfig asciiDb exampleConfig) = some claims ∧
      claimCommand "/usr/bin/python3" claims ["/usr/bin/pasta", "--", "--claim", ""] =
        .ok (wrapperPrefix "/usr/bin/python3" ++ arguments) ∧
      parseArguments arguments = .ok (claims, ["/usr/bin/pasta", "--", "--claim", ""])) ∧
    claimCommand "/usr/bin/python3" [.ofText
        "/run//claims/0000000000000000000000000000000000000000000000000000000000000000.lock"]
        ["/bin/true"] = .ok (wrapperPrefix "/usr/bin/python3" ++ normaliseClaims ["--claim",
        "/run//claims/0000000000000000000000000000000000000000000000000000000000000000.lock", "--",
        "/bin/true"]) := by
  have hroot : @runtimeRoot asciiDb (some "/run/user/1000") "/srv/gate" =
      .ok (((PurePath.ofText "/run/user/1000").join "shuttle-gate").join (instanceId "/srv/gate")) := by
    simp only [runtimeRoot, raiseIf_bind_eq_ok]
    exact ⟨by decide, by decide +kernel, by decide +kernel, rfl⟩
  have hall := @parseArguments_roundTrip asciiDb "/usr/bin/python3"
  obtain ⟨claims, arguments, h⟩ := hall.1 exampleConfig (some "/run/user/1000") "/srv/gate" _
    "/usr/bin/pasta" ["--", "--claim", ""] hroot (by decide +kernel)
  refine ⟨⟨_, claims, arguments, h⟩, ?_⟩
  apply hall.2
  decide +kernel

end Claims

end ShuttleGate
