import ShuttleGate.Config
import ShuttleGate.Digits
import ShuttleGate.Claims.Supervisor

/-! # Socket claims

`socket_claim_paths`: one claim file for each bind tuple of a configuration, named by the hash of
the tuple. Configurations share a claim exactly when they share a tuple, as long as the hash does
not collide on their tuples; and the wrapper accepts the claims it is given by `claim_command`. -/

namespace ShuttleGate

open Net Fs Crypto

namespace Claims

/-! ## What the wrapper accepts -/

theorem rooted_of_takeClaims {arguments : List String}
    (h : takeClaims arguments = .ok (claims, values)) : ∀ c ∈ claims, c.Rooted := by
  induction arguments using takeClaims.induct generalizing claims values with
  | case1 path arguments ih =>
    rw [takeClaims] at h
    obtain ⟨⟨claims', values'⟩, h', heq⟩ := bind_eq_ok.mp h
    cases heq
    exact List.forall_mem_cons.mpr ⟨PurePath.rooted_ofText path, ih h'⟩
  | case2 => cases h
  | case3 arguments _ _ =>
    rw [takeClaims] at h
    · cases h
      exact List.forall_mem_nil _
    all_goals assumption

theorem pairwise_sortedSet (claims : List PurePath) :
    (sortedSet claims).Pairwise fun a b => a.text ≤ b.text := by
  have h : (sortedSet claims).Pairwise fun a b => decide (a.text ≤ b.text) = true :=
    List.pairwise_mergeSort (fun a b c hab hbc => by
      simp only [decide_eq_true_eq] at hab hbc ⊢
      exact le_trans hab hbc)
    (fun a b => by
      simp only [Bool.or_eq_true, decide_eq_true_eq]
      exact le_total a.text b.text) claims.dedup
  exact h.imp fun h => by simpa using h

@[simp] theorem mem_sortedSet {claims : List PurePath} : c ∈ sortedSet claims ↔ c ∈ claims := by
  rw [sortedSet, (List.mergeSort_perm _ _).mem_iff, List.mem_dedup]

theorem nodup_sortedSet (claims : List PurePath) : (sortedSet claims).Nodup :=
  (List.mergeSort_perm _ _).nodup_iff.mpr claims.nodup_dedup

/-- Sorted distinct claims ascend strictly. -/
theorem ascending_sortedSet {claims : List PurePath} (h : ∀ c ∈ claims, c.Rooted) :
    (sortedSet claims).Pairwise fun a b => a.text < b.text := by
  have hboth := List.pairwise_and_iff.mpr ⟨pairwise_sortedSet claims, nodup_sortedSet claims⟩
  refine hboth.imp_of_mem fun {a b} ha hb hab => lt_of_le_of_ne hab.1 fun heq => hab.2 ?_
  rw [mem_sortedSet] at ha hb
  exact (PurePath.text_inj (h a ha) (h b hb)).mp heq

/-- Sorting a strictly ascending list changes nothing. -/
theorem sortedSet_eq_self {claims : List PurePath}
    (h : claims.Pairwise fun a b => a.text < b.text) : sortedSet claims = claims := by
  have hnodup : claims.Nodup := h.imp fun hab heq => hab.ne (congrArg _ heq)
  rw [sortedSet, hnodup.dedup]
  exact List.mergeSort_of_pairwise (h.imp fun hab => decide_eq_true hab.le)

/-- Accepted claims ascend. -/
theorem ascending_of_parseArguments {arguments : List String}
    (h : parseArguments arguments = .ok (claims, command)) :
    claims.Pairwise fun a b => a.text < b.text := by
  obtain ⟨⟨claims', values⟩, htake, h⟩ := bind_eq_ok.mp h
  have hrooted := rooted_of_takeClaims htake
  dsimp only at h
  split at h
  · simp only [raiseIf_bind_eq_ok, ne_eq, Decidable.not_not] at h
    obtain ⟨hsorted, -, -, h⟩ := h
    cases h
    rw [hsorted]
    exact ascending_sortedSet hrooted
  · cases h

/-! ## The claims of a configuration -/

/-- The text of one bind tuple. -/
def claimMessage (config : ProjectConfig) (address : IPAddress) : String :=
  let version := match address.version with
    | .v4 => "4"
    | .v6 => "6"
  "udp\x00" ++ version ++ "\x00" ++ address.text ++ "\x00" ++ toString config.wireguard.listenPort

/-- `str.encode("ascii")`, which fails on other characters. -/
def encodeAscii (s : String) : Option (List (BitVec 8)) :=
  if s.toList.all fun c => c.toNat < 128 then some (Sha256.ascii s) else none

/-- The claim file of one bind address below the claims directory. -/
def claimPath (directory : PurePath) (config : ProjectConfig) (address : IPAddress) :
    Option PurePath := do
  return directory.join (Sha256.hexdigest (← encodeAscii (claimMessage config address)) ++ ".lock")

/-- `socket_claim_paths` for the runtime root of an instance. -/
def socketClaimPaths (root : PurePath) (config : ProjectConfig) : Option (List PurePath) := do
  let directory := root.parent.join "claims"
  return sortedSet (← config.wireguard.bindAddresses.mapM (claimPath directory config))

/-- `claim_command` without the interpreter and its options. -/
def claimArguments (claims : List PurePath) (inner : List String) : List String :=
  claims.flatMap (fun claim => ["--claim", claim.text]) ++ "--" :: inner

/-- Two configurations bind one address and port. -/
def SharesTuple (config config' : ProjectConfig) : Prop :=
  config.wireguard.listenPort = config'.wireguard.listenPort ∧
    ∃ address ∈ config.wireguard.bindAddresses, address ∈ config'.wireguard.bindAddresses

/-- The hash does not collide on the tuples of two configurations. -/
def NoCollision (config config' : ProjectConfig) : Prop :=
  ∀ a ∈ config.wireguard.bindAddresses, ∀ a' ∈ config'.wireguard.bindAddresses,
    Sha256.hexdigest (Sha256.ascii (claimMessage config a)) =
        Sha256.hexdigest (Sha256.ascii (claimMessage config' a')) →
      Sha256.ascii (claimMessage config a) = Sha256.ascii (claimMessage config' a')

theorem encodeAscii_eq_some {s : String} : encodeAscii s = some bytes ↔
    (∀ c ∈ s.toList, c.toNat < 128) ∧ Sha256.ascii s = bytes := by
  simp [encodeAscii]

theorem toList_claimMessage (config : ProjectConfig) (a : IPAddress) :
    (claimMessage config a).toList =
      ("udp\x00".toList ++ (match a.version with | .v4 => "4" | .v6 => "6").toList ++
        '\x00' :: a.text.toList) ++ '\x00' :: (toString config.wireguard.listenPort).toList := by
  simp [claimMessage]

/-- The text of a tuple determines the tuple. -/
theorem claimMessage_inj {config config' : ProjectConfig} {a a' : IPAddress}
    (h : claimMessage config a = claimMessage config' a') :
    config.wireguard.listenPort = config'.wireguard.listenPort ∧ a = a' := by
  have hnul (n : Int) : '\x00' ∉ (toString n).toList := Int.not_mem_toString (by decide) rfl
  have h := congrArg String.toList h
  rw [toList_claimMessage, toList_claimMessage] at h
  obtain ⟨hfront, hport⟩ := (List.append_stop_inj (hnul _) (hnul _)).mp h
  refine ⟨Int.toString_inj.mp (String.toList_inj.mp hport), IPAddress.text_injective ?_⟩
  have htext := (List.append_inj hfront (by cases a.version <;> cases a'.version <;> rfl)).2
  exact String.toList_inj.mp (List.cons.inj htext).2

/-- ASCII bytes determine the text. -/
theorem ascii_inj {s t : String} (hs : ∀ c ∈ s.toList, c.toNat < 128)
    (ht : ∀ c ∈ t.toList, c.toNat < 128) (h : Sha256.ascii s = Sha256.ascii t) : s = t := by
  have decode {s : String} (hs : ∀ c ∈ s.toList, c.toNat < 128) :
      (Sha256.ascii s).map (fun b => Char.ofNat b.toNat) = s.toList := by
    rw [Sha256.ascii, List.map_map]
    refine (List.map_congr_left fun c hc => ?_).trans (List.map_id _)
    have hc := hs c hc
    rw [Function.comp_apply, BitVec.toNat_ofNat, Nat.mod_eq_of_lt (by omega), Char.ofNat_toNat]
    rfl
  exact String.toList_inj.mp ((decode hs).symm.trans ((congrArg _ h).trans (decode ht)))

/-! ## Shared claims -/

theorem isPart_lockName (bytes : List (BitVec 8)) :
    IsPart (Sha256.hexdigest bytes ++ ".lock") := by
  have hlen : (Sha256.hexdigest bytes ++ ".lock").length = 69 := by
    rw [String.length_append, Sha256.length_hexdigest]
    rfl
  refine ⟨fun h => ?_, fun h => ?_, fun h => ?_⟩
  · rw [h] at hlen
    cases hlen
  · rw [h] at hlen
    cases hlen
  · rw [String.toList_append, List.mem_append] at h
    rcases h with h | h
    · exact absurd (Sha256.isHex_hexdigest _ h) (by decide)
    · exact absurd h (by decide)

/-- The values of an element-wise computation. -/
theorem mem_of_mapM {f : α → Option β} {xs : List α} (h : xs.mapM f = some ys) :
    (∀ x ∈ xs, ∃ y, f x = some y) ∧ ∀ y, y ∈ ys ↔ ∃ x ∈ xs, f x = some y := by
  induction xs generalizing ys with
  | nil =>
    cases h
    simp
  | cons x xs ih =>
    rw [List.mapM_cons] at h
    obtain ⟨y, hy, h⟩ := Option.bind_eq_some_iff.mp h
    obtain ⟨ys', hys', h⟩ := Option.bind_eq_some_iff.mp h
    cases h
    obtain ⟨hall, hmem⟩ := ih hys'
    exact ⟨List.forall_mem_cons.mpr ⟨⟨y, hy⟩, hall⟩, fun z => by simp [hmem, hy, eq_comm]⟩

/-- The claims of a configuration are the paths of its bind addresses. -/
theorem mem_socketClaimPaths {root : PurePath} {config : ProjectConfig}
    (h : socketClaimPaths root config = some claims) :
    (∀ a ∈ config.wireguard.bindAddresses,
      ∃ c, claimPath (root.parent.join "claims") config a = some c) ∧
    ∀ c, c ∈ claims ↔ ∃ a ∈ config.wireguard.bindAddresses,
      claimPath (root.parent.join "claims") config a = some c := by
  obtain ⟨paths, hpaths, hclaims⟩ := Option.bind_eq_some_iff.mp h
  obtain rfl := Option.some.inj hclaims
  simpa using mem_of_mapM hpaths

theorem claimPath_eq_some {directory : PurePath} {config : ProjectConfig} {a : IPAddress} :
    claimPath directory config a = some c ↔
      (∀ c ∈ (claimMessage config a).toList, c.toNat < 128) ∧
        directory.join (Sha256.hexdigest (Sha256.ascii (claimMessage config a)) ++ ".lock") = c := by
  rw [claimPath, Option.bind_eq_bind, Option.bind_eq_some_iff]
  simp only [encodeAscii_eq_some, and_assoc, exists_and_left, exists_eq_left', Option.pure_def,
    Option.some.injEq]

/-- Configurations that share a tuple share a claim. -/
theorem claim_of_sharesTuple {root root' : PurePath} {config config' : ProjectConfig}
    (hroot : root.parent = root'.parent) (h : socketClaimPaths root config = some claims)
    (h' : socketClaimPaths root' config' = some claims') (hshare : SharesTuple config config') :
    ∃ c ∈ claims, c ∈ claims' := by
  obtain ⟨hport, a, ha, ha'⟩ := hshare
  obtain ⟨c, hc⟩ := (mem_socketClaimPaths h).1 a ha
  refine ⟨c, ((mem_socketClaimPaths h).2 c).mpr ⟨a, ha, hc⟩,
    ((mem_socketClaimPaths h').2 c).mpr ⟨a, ha', ?_⟩⟩
  rw [← hroot, ← hc]
  simp only [claimPath, claimMessage, hport]

/-- Configurations that share a claim share a tuple. -/
theorem sharesTuple_of_claim {root root' : PurePath} {config config' : ProjectConfig}
    (h : socketClaimPaths root config = some claims)
    (h' : socketClaimPaths root' config' = some claims') (hcoll : NoCollision config config')
    (hc : c ∈ claims) (hc' : c ∈ claims') : SharesTuple config config' := by
  obtain ⟨a, ha, hpath⟩ := ((mem_socketClaimPaths h).2 c).mp hc
  obtain ⟨a', ha', hpath'⟩ := ((mem_socketClaimPaths h').2 c).mp hc'
  obtain ⟨hascii, rfl⟩ := claimPath_eq_some.mp hpath
  obtain ⟨hascii', heq⟩ := claimPath_eq_some.mp hpath'
  have hname := congrArg PurePath.name heq
  rw [PurePath.name_join _ (isPart_lockName _), PurePath.name_join _ (isPart_lockName _)] at hname
  have hbytes := hcoll a ha a' ha' (String.append_left_inj _ |>.mp hname.symm)
  obtain ⟨hport, rfl⟩ := claimMessage_inj (ascii_inj hascii hascii' hbytes)
  exact ⟨hport, a, ha, ha'⟩

/-! ## The wrapper accepts its claims -/

theorem takeClaims_claimArguments {claims : List PurePath} (h : ∀ c ∈ claims, c.Rooted)
    (inner : List String) :
    takeClaims (claimArguments claims inner) = .ok (claims, "--" :: inner) := by
  induction claims with
  | nil => simp [claimArguments, takeClaims]
  | cons c claims ih =>
    obtain ⟨hc, hclaims⟩ := List.forall_mem_cons.mp h
    change takeClaims ("--claim" :: c.text :: claimArguments claims inner) = _
    rw [takeClaims, ih hclaims, PurePath.ofText_text hc]
    rfl

theorem claimPattern_lockName (bytes : List (BitVec 8)) :
    claimPattern (Sha256.hexdigest bytes ++ ".lock") = true := by
  have hlen : (Sha256.hexdigest bytes).toList.length = 64 := by
    rw [String.length_toList, Sha256.length_hexdigest]
  rw [claimPattern, String.toList_append]
  simp only [List.length_append, hlen, Bool.and_eq_true, decide_eq_true_eq, List.all_eq_true]
  refine ⟨⟨rfl, fun c hc => ?_⟩, ?_⟩
  · rw [List.take_left' hlen] at hc
    exact Sha256.isHex_hexdigest c hc
  · rw [List.drop_left' hlen]

/-- What the host passes is accepted: the claims of the configuration and the command. -/
theorem parseArguments_claimArguments {root : PurePath} {config : ProjectConfig}
    (hroot : root.Rooted) (habs : root.isAbsolute = true)
    (h : socketClaimPaths root config = some claims) (hne : claims ≠ [])
    (hexe : (PurePath.ofText executable).isAbsolute = true) (rest : List String) :
    parseArguments (claimArguments claims (executable :: rest)) =
      .ok (claims, executable :: rest) := by
  have hclaims : IsPart "claims" := by decide
  -- every claim is a lock file below the claims directory
  have hall : ∀ c ∈ claims, ∃ bytes,
      c = (root.parent.join "claims").join (Sha256.hexdigest bytes ++ ".lock") := by
    intro c hc
    obtain ⟨a, -, ha⟩ := ((mem_socketClaimPaths h).2 c).mp hc
    exact ⟨_, (claimPath_eq_some.mp ha).2.symm⟩
  have hrooted : ∀ c ∈ claims, c.root = root.root := by
    intro c hc
    obtain ⟨bytes, hlock⟩ := hall c hc
    rw [hlock, (PurePath.join_part _ (isPart_lockName bytes)).1, (PurePath.join_part _ hclaims).1]
    rfl
  have hR : ∀ c ∈ claims, c.Rooted := fun c hc => by
    rw [PurePath.Rooted, hrooted c hc]
    exact hroot
  have hsorted : sortedSet claims = claims := by
    obtain ⟨paths, hpaths, hc⟩ := Option.bind_eq_some_iff.mp h
    obtain rfl := Option.some.inj hc
    exact sortedSet_eq_self (ascending_sortedSet fun c hc => hR c (mem_sortedSet.mpr hc))
  obtain ⟨first, claims, rfl⟩ := List.exists_cons_of_ne_nil hne
  have hparent : ∀ c ∈ first :: claims, c.parent = root.parent.join "claims" := by
    intro c hc
    obtain ⟨bytes, hlock⟩ := hall c hc
    rw [hlock]
    exact PurePath.parent_join _ (isPart_lockName bytes)
  have hvalid : ((first :: claims).any fun claim => !claim.isAbsolute ||
      claim.parent ≠ first.parent || !claimPattern claim.name) = false := by
    rw [List.any_eq_false]
    intro c hc
    have hcabs : c.isAbsolute = true := by rwa [PurePath.isAbsolute, hrooted c hc]
    have hname : claimPattern c.name = true := by
      obtain ⟨bytes, hlock⟩ := hall c hc
      rw [hlock, PurePath.name_join _ (isPart_lockName bytes)]
      exact claimPattern_lockName bytes
    simp [hcabs, hname, hparent c hc, hparent first List.mem_cons_self]
  rw [parseArguments, takeClaims_claimArguments hR]
  change (raiseIf _ _ >>= fun _ => raiseIf _ _ >>= fun _ => raiseIf _ _ >>= fun _ => _) = _
  simp only [raiseIf_bind_eq_ok, hsorted, hvalid, hexe]
  exact ⟨by simp, by simp, by simp, rfl⟩

end Claims
end ShuttleGate
