import ShuttleGate.Runtime.Gateway
import ShuttleGate.Runtime.PacketFlow
import ShuttleGate.Render.Cryptokey

/-! # Zones in what is rendered

The validators screen the zones of bind addresses and endpoints. The addresses of peers and of the
gateway, the routes and the upstream keep theirs, and every renderer prints it. -/

namespace ShuttleGate

open Net Fs

namespace Runtime

/-- sshuttle's options that take a value. -/
def valueOptions : List String :=
  ["--method", "--tmark", "--listen", "--remote", "--python", "--ssh-cmd"]

/-- The excludes and the networks among sshuttle's arguments. -/
def networkArguments : List String → List String
  | [] => []
  | [word] => if word = "--verbose" then [] else [word]
  | option :: value :: rest =>
    if option = "--exclude" then value :: networkArguments rest
    else if option ∈ valueOptions then networkArguments rest
    else if option = "--verbose" then networkArguments (value :: rest)
    else option :: networkArguments (value :: rest)

/-- The keys of the phone configuration whose values are addresses or networks. -/
def addressKeys : List String := ["Address", "DNS", "AllowedIPs"]

/-- A numeric address or network without a zone. -/
def PlainEntry (e : String) : Prop := ∃ i, readCidr e = some i

/-- Every address and network that an accepted configuration causes to be rendered is plain. -/
structure PlainlyRendered (config : ProjectConfig) : Prop where
  server : ∀ peer ∈ config.wireguard.peers, ∀ publicKey presharedKey,
    ∀ line ∈ serverPeerLines peer publicKey presharedKey,
    ∀ e ∈ entries "AllowedIPs" line.toList, PlainEntry e
  phone : ∀ peer ∈ config.wireguard.peers, ∀ serverPublicKey peerPrivateKey presharedKey,
    ∀ line ∈ phoneLines config peer serverPublicKey peerPrivateKey presharedKey,
    ∀ key ∈ addressKeys, ∀ e ∈ entries key line.toList, PlainEntry e
  addresses : ∀ i ∈ config.wireguard.gatewayAddresses,
    ∀ e ∈ (Command.addressAdd i).arguments[4]?, PlainEntry e
  sshuttle : ∀ executable paths arguments,
    sshuttleArguments executable config paths = .ok arguments →
    ∀ e ∈ networkArguments (arguments.drop 3), PlainEntry e

/-- No zone outside the bind addresses and the endpoint and SSH hosts. -/
structure WithoutZones (config : ProjectConfig) : Prop where
  peers : PeersWithoutZones config
  gateways : ∀ i ∈ config.wireguard.gatewayAddresses, i.address.scopeId = none
  routes : ∀ n ∈ config.routing.networks, n.networkAddress.scopeId = none
  upstream : ∀ a ∈ config.dns.upstream, a.scopeId = none

/-! ## What is plain -/

theorem plainEntry_interface {i : IPInterface} (h : i.address.scopeId = none) : PlainEntry i.text :=
  ⟨i, readCidr_text h⟩

theorem plainEntry_network {n : IPNetwork} (h : n.networkAddress.scopeId = none) :
    PlainEntry n.text :=
  plainEntry_interface (i := n.interface) h

theorem plainEntry_address {a : IPAddress} (h : a.scopeId = none) : PlainEntry a.text :=
  ⟨_, readCidr_address h⟩

theorem scopeId_of_plain {i : IPInterface} (h : PlainEntry i.text) : i.address.scopeId = none := by
  by_contra hzone
  obtain ⟨j, hj⟩ := h
  refine percent_notMem_of_readCidr hj ?_
  rw [IPInterface.text, toList_prefixText]
  exact List.mem_append_left _ (mem_chars_of_scopeId hzone)

/-- A list on a line is plain exactly when its values are. -/
theorem entries_plain (key : String) {is : List IPInterface} (hne : is ≠ []) :
    (∀ e ∈ entries key (key ++ " = " ++ ", ".intercalate (is.map (·.text))).toList, PlainEntry e) ↔
      ∀ i ∈ is, i.address.scopeId = none := by
  constructor
  · intro h i hi
    by_contra hzone
    have hpercent : '%' ∈ (", ".intercalate (is.map (·.text))).toList := by
      have := percent_in_first_line ⟨i, hi, hzone⟩
      exact (List.takeWhile_sublist _).subset this
    obtain ⟨e, he, hmem⟩ := exists_entry key hpercent (by decide)
    obtain ⟨j, hj⟩ := h e he
    exact percent_notMem_of_readCidr hj hmem
  · intro h
    rw [entries_intercalate key (by simpa using hne) fun t ht c hc => ?_]
    · intro e he
      obtain ⟨i, hi, rfl⟩ := List.mem_map.mp he
      exact plainEntry_interface (h i hi)
    · obtain ⟨i, hi, rfl⟩ := List.mem_map.mp ht
      exact isEntryChar_of_toNat (toNat_of_mem_text (h i hi) hc)

theorem scopeId_ofValue (v : Version) (n : Nat) : (IPAddress.ofValue v n).scopeId = none := by
  cases v <;> rfl

/-- A network has its address's zone or none. -/
theorem scopeId_ipNetwork {a : IPAddress} {h : p ≤ a.version.width} (hzone : a.scopeId = none) :
    (ipNetwork a p h).networkAddress.scopeId = none := by
  unfold ipNetwork
  split
  · exact hzone
  · exact scopeId_ofValue _ _

/-! ## sshuttle's arguments -/

/-- The text of a network is no option. -/
theorem head_text (n : IPNetwork) : n.text.toList.head? ≠ some '-' := by
  have hnumeric {cs rest : List Char} (hne : cs ≠ []) (h : ∀ c ∈ cs, 0x2d < c.toNat) :
      (cs ++ rest).head? ≠ some '-' := by
    obtain ⟨c, cs, rfl⟩ := List.exists_cons_of_ne_nil hne
    intro hhead
    obtain rfl : c = '-' := Option.some.inj hhead
    exact absurd (h _ List.mem_cons_self) (by decide)
  rw [IPNetwork.text, toList_prefixText]
  cases haddress : n.networkAddress with
  | v4 ip =>
    have hne : ipv4Chars ip ≠ [] := fun h => by
      have := parseIPv4_ipv4Chars ip
      rw [h] at this
      cases this
    exact hnumeric hne fun c hc => (IPAddress.toNat_of_mem (a := .v4 ip) rfl hc).1
  | v6 ip scope =>
    have hne : ipv6Chars ip ≠ [] := List.ne_nil_of_mem colon_mem_ipv6Chars
    have hplain : ∀ c ∈ ipv6Chars ip, 0x2d < c.toNat := fun c hc =>
      (IPAddress.toNat_of_mem (a := .v6 ip none) rfl hc).1
    cases scope with
    | none => exact hnumeric hne hplain
    | some scope =>
      rw [IPAddress.chars, List.append_assoc]
      exact hnumeric hne hplain

theorem networkArguments_routes (ns : List IPNetwork) :
    networkArguments (ns.map (·.text)) = ns.map (·.text) := by
  have hoption {n : IPNetwork} {option : String} (h : option.toList.head? = some '-') :
      n.text ≠ option := fun heq => head_text n (heq ▸ h)
  induction ns with
  | nil => rfl
  | cons n ns ih =>
    cases ns with
    | nil => exact if_neg (hoption (by decide))
    | cons m ns =>
      have hvalue : n.text ∉ valueOptions := by
        have hall : ∀ option ∈ valueOptions, option.toList.head? = some '-' := by decide
        exact fun hmem => hoption (hall _ hmem) rfl
      rw [List.map_cons, List.map_cons, networkArguments, if_neg (hoption (by decide)),
        if_neg hvalue, if_neg (hoption (by decide))]
      exact congrArg _ ih

theorem networkArguments_excludes (excludes : List IPNetwork) (rest : List String) :
    networkArguments (excludes.flatMap (fun network => ["--exclude", network.text]) ++ rest) =
      excludes.map (·.text) ++ networkArguments rest := by
  induction excludes with
  | nil => rfl
  | cons n excludes ih =>
    rw [List.flatMap_cons, List.append_assoc, List.cons_append, List.cons_append, List.nil_append,
      networkArguments, if_pos rfl, ih]
    rfl

theorem networkArguments_verbose (rest : List String) :
    networkArguments ("--verbose" :: rest) = networkArguments rest := by
  cases rest with
  | nil => rfl
  | cons value rest => rfl

/-- What sshuttle reads as excludes and networks. -/
theorem networkArguments_sshuttle {config : ProjectConfig} {arguments : List String}
    (h : sshuttleArguments executable config paths = .ok arguments) :
    networkArguments (arguments.drop 3) =
      (excludedNetworks config).map (·.text) ++ config.effectiveRoutes.map (·.text) := by
  obtain ⟨ssh, -, hwords⟩ := bind_eq_ok.mp h
  obtain rfl := Except.ok.inj hwords
  have hrest := networkArguments_excludes (excludedNetworks config)
    (config.effectiveRoutes.map (·.text))
  rw [networkArguments_routes] at hrest
  cases hverbose : config.backend.verbose with
  | false => simpa [networkArguments, valueOptions] using hrest
  | true => simpa [networkArguments, valueOptions, networkArguments_verbose] using hrest

/-! ## The phone configuration -/

theorem entries_other {head : String}
    (h : ∀ key ∈ addressKeys, mismatch (key ++ " = ").toList head.toList = true) (rest : String) :
    ∀ key ∈ addressKeys, ∀ e ∈ entries key (head ++ rest).toList, PlainEntry e := by
  intro key hkey e he
  rw [entries_eq_nil (h key hkey)] at he
  cases he

/-- A line whose head is one of the keys is read under that key only. -/
theorem entries_own (key : String) {value : String} (hkey : key ∈ addressKeys)
    (h : ∀ e ∈ entries key (key ++ " = " ++ value).toList, PlainEntry e) :
    ∀ other ∈ addressKeys, ∀ e ∈ entries other (key ++ " = " ++ value).toList, PlainEntry e := by
  have hdiffer : ∀ key ∈ addressKeys, ∀ other ∈ addressKeys, other ≠ key →
      mismatch (other ++ " = ").toList (key ++ " = ").toList = true := by
    decide
  intro other hother e he
  by_cases hsame : other = key
  · exact h e (hsame ▸ he)
  · rw [entries_eq_nil (hdiffer key hkey other hother hsame)] at he
    cases he

/-- The AllowedIPs of a peer without zones. -/
theorem server_plain {peer : PeerConfig} (hne : peer.addresses ≠ [])
    (h : ∀ i ∈ peer.addresses, i.address.scopeId = none)
    (hline : line ∈ serverPeerLines peer publicKey presharedKey) :
    ∀ e ∈ entries "AllowedIPs" line.toList, PlainEntry e := by
  have hother (head rest : String)
      (hhead : ∀ key ∈ addressKeys, mismatch (key ++ " = ").toList head.toList = true) :=
    entries_other hhead rest "AllowedIPs" (by decide)
  simp only [serverPeerLines, List.mem_cons, List.not_mem_nil, or_false] at hline
  rcases hline with rfl | rfl | rfl | rfl | rfl | rfl
  · intro e he
    cases he
  · exact hother "[Peer]" "" (by decide)
  · exact hother "# " peer.name (by decide)
  · exact hother "PublicKey = " publicKey (by decide)
  · exact hother "PresharedKey = " presharedKey (by decide)
  · exact (entries_plain "AllowedIPs" hne).mpr h

theorem text_interfaces (ns : List IPNetwork) :
    ns.map (·.text) = (ns.map (·.interface)).map (·.text) := by
  rw [List.map_map]
  rfl

/-- The values of the phone's lines are plain exactly when the peer's addresses, the upstream and
the routes carry no zone. -/
theorem phone_plain {config : ProjectConfig} {peer : PeerConfig} (hne : peer.addresses ≠ [])
    (hroutes : config.effectiveRoutes ≠ [])
    (hdns : config.dns.enabled = true ↔ config.dns.upstream ≠ none)
    (serverPublicKey peerPrivateKey presharedKey : String) :
    (∀ line ∈ phoneLines config peer serverPublicKey peerPrivateKey presharedKey,
      ∀ key ∈ addressKeys, ∀ e ∈ entries key line.toList, PlainEntry e) ↔
      (∀ i ∈ peer.addresses, i.address.scopeId = none) ∧
      (∀ a ∈ config.dns.upstream, a.scopeId = none) ∧
      ∀ n ∈ config.effectiveRoutes, n.networkAddress.scopeId = none := by
  have haddress := entries_plain "Address" hne
  have hinterfaces : config.effectiveRoutes.map (·.interface) ≠ [] := by simpa using hroutes
  have hallowed := entries_plain "AllowedIPs" hinterfaces
  rw [← text_interfaces] at hallowed
  constructor
  · intro h
    refine ⟨haddress.mp fun e he => ?_, fun a ha => ?_, fun n hn => ?_⟩
    · exact h _ (by simp [phoneLines]) "Address" (by decide) e he
    · have henabled : config.dns.enabled = true := hdns.mpr (by simp [Option.mem_def.mp ha])
      by_contra hzone
      have hpercent : '%' ∈ a.text.toList := by
        rw [toList_text]
        exact mem_chars_of_scopeId hzone
      obtain ⟨e, he, hmem⟩ := exists_entry "DNS" hpercent (by decide)
      have hline : s!"DNS = {a.text}" ∈
          phoneLines config peer serverPublicKey peerPrivateKey presharedKey := by
        simp [phoneLines, henabled, Option.mem_def.mp ha]
      obtain ⟨j, hj⟩ := h _ hline "DNS" (by decide) e he
      exact percent_notMem_of_readCidr hj hmem
    · refine hallowed.mp (fun e he => ?_) _ (List.mem_map_of_mem hn)
      exact h _ (by simp [phoneLines, peerAllowedRoutes]) "AllowedIPs" (by decide) e he
  · rintro ⟨haddresses, hupstream, hnetworks⟩ line hline
    have hother (head rest : String)
        (h : ∀ key ∈ addressKeys, mismatch (key ++ " = ").toList head.toList = true) :=
      entries_other h rest
    rw [phoneLines, List.mem_append, List.mem_append] at hline
    rcases hline with (hline | hline) | hline
    · simp only [List.mem_cons, List.not_mem_nil, or_false] at hline
      rcases hline with rfl | rfl | rfl
      · exact hother "[Interface]" "" (by decide)
      · exact hother "PrivateKey = " peerPrivateKey (by decide)
      · exact entries_own "Address" (by decide) (haddress.mpr haddresses)
    · split at hline
      · next upstream _ hupstream' =>
        obtain rfl := List.mem_singleton.mp hline
        refine entries_own "DNS" (by decide) ?_
        have hread := entries_intercalate "DNS" (List.cons_ne_nil upstream.text []) fun t ht c hc => ?_
        · rw [String.intercalate_singleton] at hread
          intro e he
          change e ∈ entries "DNS" ("DNS" ++ " = " ++ upstream.text).toList at he
          rw [hread, List.mem_singleton] at he
          exact he ▸ plainEntry_address (hupstream upstream hupstream')
        · obtain rfl := List.mem_singleton.mp ht
          rw [toList_text] at hc
          exact isEntryChar_of_toNat (IPAddress.toNat_of_mem (hupstream upstream hupstream') hc)
      · cases hline
    · simp only [List.mem_cons, List.not_mem_nil, or_false] at hline
      rcases hline with rfl | rfl | rfl | rfl | rfl | rfl | rfl
      · intro key hkey e he
        have hnone : ∀ key ∈ addressKeys, entries key "".toList = [] := by decide
        rw [hnone key hkey] at he
        cases he
      · exact hother "[Peer]" "" (by decide)
      · exact hother "PublicKey = " serverPublicKey (by decide)
      · exact hother "PresharedKey = " presharedKey (by decide)
      · exact hother "Endpoint = " (endpoint config) (by decide)
      · refine entries_own "AllowedIPs" (by decide) (hallowed.mpr fun i hi => ?_)
        obtain ⟨n, hn, rfl⟩ := List.mem_map.mp hi
        exact hnetworks n hn
      · exact hother "PersistentKeepalive = " _ (by decide)

/-! ## Accepted configurations -/

section
variable [UnicodeDb] (config : CheckedConfig)

/-- Only configured networks may carry a zone. -/
theorem routes_withoutZones :
    (∀ n ∈ config.effectiveRoutes, n.networkAddress.scopeId = none) ↔
      ∀ n ∈ config.routing.networks, n.networkAddress.scopeId = none := by
  have h := config.checks.2.2.1
  simp only [RoutingConfig.check, seq_eq_ok, raiseIf_eq_ok, not_and, not_not] at h
  unfold ProjectConfig.effectiveRoutes
  split
  · exact Iff.rfl
  · next hmode =>
    rw [h.2.1 hmode]
    refine ⟨fun _ n hn => absurd hn List.not_mem_nil, fun _ n hn => ?_⟩
    rcases List.mem_append.mp hn with hn | hn <;>
    · split at hn
      · rw [List.mem_singleton.mp hn]
        rfl
      · cases hn

end

/-- Everything an accepted configuration causes to be rendered is plain exactly when the peers'
and the gateway's addresses, the routes and the upstream carry no zone. -/
theorem plainlyRendered_iff [UnicodeDb] (config : CheckedConfig) :
    PlainlyRendered config.toProjectConfig ↔ WithoutZones config.toProjectConfig := by
  have hphone {peer : PeerConfig} (hpeer : peer ∈ config.wireguard.peers) :=
    phone_plain (config.peer_checked hpeer).2.1 config.effectiveRoutes_ne_nil config.dns_enabled_iff
  constructor
  · intro h
    obtain ⟨peer, peers, hpeers⟩ := List.exists_cons_of_ne_nil config.peers_ne_nil
    have hpeer : peer ∈ config.wireguard.peers := hpeers ▸ List.mem_cons_self
    obtain ⟨-, hupstream, hroutes⟩ := (hphone hpeer "" "" "").mp (h.phone peer hpeer "" "" "")
    refine ⟨fun i hi => ?_, fun i hi => ?_, (routes_withoutZones config).mp hroutes, hupstream⟩
    · obtain ⟨peer, hpeer, hi⟩ := List.mem_flatMap.mp hi
      exact ((hphone hpeer "" "" "").mp (h.phone peer hpeer "" "" "")).1 i hi
    · exact scopeId_of_plain (h.addresses i hi i.text rfl)
  · intro h
    have hroutes := (routes_withoutZones config).mpr h.routes
    have haddresses {peer : PeerConfig} (hpeer : peer ∈ config.wireguard.peers) :
        ∀ i ∈ peer.addresses, i.address.scopeId = none := fun i hi =>
      h.peers i (List.mem_flatMap.mpr ⟨peer, hpeer, hi⟩)
    refine ⟨fun peer hpeer publicKey presharedKey line hline => ?_, fun peer hpeer _ _ _ =>
      (hphone hpeer _ _ _).mpr ⟨haddresses hpeer, h.upstream, hroutes⟩, fun i hi e he => ?_,
      fun executable paths arguments hrun e he => ?_⟩
    · exact server_plain (config.peer_checked hpeer).2.1 (haddresses hpeer) hline
    · obtain rfl := Option.some.inj he
      exact plainEntry_interface (h.gateways i hi)
    · rw [networkArguments_sshuttle hrun, List.mem_append] at he
      rcases he with he | he
      · obtain ⟨n, hn, rfl⟩ := List.mem_map.mp he
        rcases mem_excludedNetworks.mp hn with ⟨hn, -⟩ | ⟨gateway, hg, rfl⟩
        · have hnone : ∀ n ∈ multicastExclusions, n.networkAddress.scopeId = none := by decide
          exact plainEntry_network (hnone n hn)
        · exact plainEntry_network (scopeId_ipNetwork (h.gateways gateway hg))
      · obtain ⟨n, hn, rfl⟩ := List.mem_map.mp he
        exact plainEntry_network (hroutes n hn)

theorem plainlyRendered_example : PlainlyRendered exampleProject :=
  let := asciiDb
  (plainlyRendered_iff exampleConfig).mpr
    ⟨by decide +kernel, by decide +kernel, by decide +kernel, by decide +kernel⟩

/-- fd20:1234::53%eth0 -/
def zonedUpstream : IPAddress :=
  .v6 (0xfd201234000000000000000000000053 : BitVec 128) (some ⟨"eth0", by decide, by decide⟩)

/-- The example configuration with a zone on the upstream. -/
def zonedUpstreamProject : ProjectConfig :=
  { exampleProject with dns := { enabled := true, upstream := some zonedUpstream } }

/-- It is accepted, and the phones are told to use `fd20:1234::53%eth0`. -/
theorem zonedUpstream_rendered : @ProjectConfig.check asciiDb zonedUpstreamProject = .ok () ∧
    (∀ peer ∈ zonedUpstreamProject.wireguard.peers, ∀ serverPublicKey peerPrivateKey presharedKey,
      "DNS = fd20:1234::53%eth0" ∈
        phoneLines zonedUpstreamProject peer serverPublicKey peerPrivateKey presharedKey) ∧
    ¬ PlainlyRendered zonedUpstreamProject := by
  have hline (peer : PeerConfig) (serverPublicKey peerPrivateKey presharedKey : String) :
      "DNS = fd20:1234::53%eth0" ∈
        phoneLines zonedUpstreamProject peer serverPublicKey peerPrivateKey presharedKey := by
    have htext : "DNS = " ++ zonedUpstream.text = "DNS = fd20:1234::53%eth0" := by decide +kernel
    rw [← htext]
    exact List.mem_append_left _ (List.mem_append_right _ List.mem_cons_self)
  refine ⟨by decide +kernel, fun peer _ => hline peer, fun h => ?_⟩
  obtain ⟨peer, hpeer⟩ := List.exists_mem_of_ne_nil zonedUpstreamProject.wireguard.peers (by decide)
  obtain ⟨j, hj⟩ := h.phone peer hpeer "" "" "" _ (hline peer "" "" "") "DNS" (by decide)
    "fd20:1234::53%eth0" (by decide)
  exact percent_notMem_of_readCidr hj (by decide)

end Runtime
end ShuttleGate
