import ShuttleGate.Runtime.Commands

/-! # Packets from the tunnel

The two rulesets together: what prerouting and the input and forward chains do to a packet that
enters through the tunnel interface, for every list of routes and excludes and every order in
which sshuttle hands it over. -/

namespace ShuttleGate

open Net Nft NftTproxy

namespace Runtime

/-- A packet as it enters the namespace through the tunnel: not marked and given to no socket. -/
def tunnelPacket (dst : IPAddress) (protocol : Protocol) (dport : Nat) (isLocal : Bool) : Packet where
  iifname := interface
  daddr := dst
  protocol := protocol
  dport := dport
  isLocal := isLocal
  hasSocket := false
  mark := 0
  proxy := none

/-- The entry sshuttle passes for a network without ports. -/
def subnetOf (exclude : Bool) (n : IPNetwork) : Subnet where
  family := familyOf n.version
  width := n.prefixlen
  exclude := exclude
  network := n.networkAddress.text
  firstPort := 0
  lastPort := 0

@[simp] theorem subnetOf_exclude : (subnetOf exclude n).exclude = exclude := rfl
@[simp] theorem subnetOf_width : (subnetOf exclude n).width = n.prefixlen := rfl
theorem subnetOf_portless : (subnetOf exclude n).Portless := ⟨rfl, rfl⟩

@[simp] theorem subnetOf_parsed : (subnetOf exclude n).parsed = some n := by
  change ipNetworkOf n.networkAddress.text n.prefixlen = some n
  rw [ipNetworkOf, IPAddress.ofText_text]
  simp only [dif_pos n.le_width, ipNetwork, dif_pos n.hostBits]

theorem subnetOf_valid : (subnetOf exclude n).Valid n.version where
  family := rfl
  width := ⟨Int.natCast_nonneg _, Int.ofNat_le.mpr n.prefixlen_le⟩
  parsed := ⟨n, subnetOf_parsed, rfl⟩
  ports := by simp [subnetOf]

@[simp] theorem subnetOf_covers : (subnetOf exclude n).covers dst = n.contains dst :=
  Subnet.covers_iff subnetOf_parsed

theorem subnetOf_decides {listening : Nat → Bool} {p : Packet} :
    (subnetOf exclude n).decides listening port udp p =
      (n.contains p.daddr && (protocols udp).contains p.protocol && (exclude || listening port)) := by
  rw [Subnet.decides, Subnet.selects_portless subnetOf_portless, subnetOf_covers, subnetOf_exclude]

/-- The configured routes of one family, as includes. -/
def routeSubnets (config : ProjectConfig) (v : Version) : List Subnet :=
  (config.effectiveRoutes.filter (·.version = v)).map (subnetOf false)

/-- The exclusions of the command line of one family. -/
def excludeSubnets (config : ProjectConfig) (v : Version) : List Subnet :=
  ((excludedNetworks config).filter (·.version = v)).map (subnetOf true)

theorem mem_routeSubnets {config : ProjectConfig} :
    s ∈ routeSubnets config v ↔
      ∃ route ∈ config.effectiveRoutes, route.version = v ∧ s = subnetOf false route := by
  simp [routeSubnets, eq_comm, and_assoc]

theorem mem_excludeSubnets {config : ProjectConfig} :
    s ∈ excludeSubnets config v ↔
      ∃ n ∈ excludedNetworks config, n.version = v ∧ s = subnetOf true n := by
  simp [excludeSubnets, eq_comm, and_assoc]

@[simp] theorem tunnelPacket_daddr :
    (tunnelPacket dst protocol dport isLocal).daddr = dst := rfl

theorem checkMark_tproxyMark : checkMark tproxyMark = .ok () := by decide

/-! ## The filter -/

/-- The input chain drops tunnel packets that carry no proxy mark. -/
theorem input_iff {listening : Nat → Bool} {p : Packet} (h : p.iifname = interface) :
    (nftFilter.eval listening "input" p).2 = true ↔ p.mark = 1 := by
  have hm : markValue tproxyMark = 1 := by decide
  by_cases hp : p.mark = 1 <;>
    simp [nftFilter, Table.eval, Chain.eval, evalRules, evalRule, Item.holds, Item.effect,
      Family.sees, h, hm, hp]

/-- The forward chain drops every tunnel packet. -/
theorem forward_drops {listening : Nat → Bool} {p : Packet} (h : p.iifname = interface) :
    (nftFilter.eval listening "forward" p).2 = false := by
  simp [nftFilter, Table.eval, Chain.eval, evalRules, evalRule, Item.holds, Item.effect,
    Family.sees, h]

/-! ## Disposition -/

/-- A route of the family contains the destination. -/
def Routed (config : ProjectConfig) (v : Version) (dst : IPAddress) : Prop :=
  ∃ route ∈ config.effectiveRoutes, route.version = v ∧ route.contains dst = true

instance {config : ProjectConfig} : Decidable (Routed config v dst) :=
  inferInstanceAs (Decidable (∃ _ ∈ _, _))

section
variable {listening : Nat → Bool} {subnets excludes : List Subnet}

/-- When an entry without ports decides about a packet. -/
theorem decides_portless {s : Subnet} {p : Packet} (h : s.Portless) :
    s.decides listening port true p = true ↔
      s.covers p.daddr = true ∧ (p.protocol = .tcp ∨ p.protocol = .udp) ∧
        (s.exclude = true ∨ listening port = true) := by
  simp [Subnet.decides, Subnet.selects_portless h, protocols, and_assoc]

/-- The entries of a list made of routes and excludes. -/
theorem mem_sortSubnets_routes {config : ProjectConfig}
    (hperm : subnets.Perm (routeSubnets config v ++ excludes)) :
    s ∈ sortSubnets subnets ↔
      (∃ route ∈ config.effectiveRoutes, route.version = v ∧ s = subnetOf false route) ∨
        s ∈ excludes := by
  rw [mem_sortSubnets, hperm.mem_iff, List.mem_append, mem_routeSubnets]

theorem portless_of_mem {config : ProjectConfig} (hex : ∀ s ∈ excludes, s.Portless)
    (hperm : subnets.Perm (routeSubnets config v ++ excludes)) (hs : s ∈ sortSubnets subnets) :
    s.Portless := by
  rcases (mem_sortSubnets_routes hperm).mp hs with ⟨_, _, _, rfl⟩ | hs
  · exact subnetOf_portless
  · exact hex s hs

/-- TCP and UDP to a route and to no exclude goes to the proxy. -/
theorem prerouting_proxies {config : ProjectConfig} (hl : listening port.toNat = true)
    (hex : ∀ s ∈ excludes, s.Portless)
    (hperm : subnets.Perm (routeSubnets config v ++ excludes))
    (ht : renderTproxyTable port (familyOf v) subnets true tproxyMark = .ok table)
    (hproto : protocol = .tcp ∨ protocol = .udp) (hr : Routed config v dst)
    (hno : ∀ s ∈ excludes, s.covers dst = false) :
    table.eval listening "prerouting" (tunnelPacket dst protocol dport false) =
      ({ tunnelPacket dst protocol dport false with mark := 1, proxy := some port.toNat }, true) := by
  have heval : table.eval listening "prerouting" (tunnelPacket dst protocol dport false) = _ :=
    eval_prerouting ht rfl rfl rfl
  cases hf : (sortSubnets subnets).find? fun s =>
      s.decides listening port.toNat true (tunnelPacket dst protocol dport false) with
  | none =>
    obtain ⟨route, hr, hv, hc⟩ := hr
    have hroute := (mem_sortSubnets_routes hperm).mpr (.inl ⟨route, hr, hv, rfl⟩)
    have := List.find?_eq_none.mp hf _ hroute
    rw [decides_portless subnetOf_portless] at this
    exact absurd ⟨by simpa using hc, hproto, .inr hl⟩ this
  | some s =>
    have hs := List.mem_of_find?_eq_some hf
    have hd := List.find?_some hf
    rw [decides_portless (portless_of_mem hex hperm hs)] at hd
    rw [heval, hf]
    rcases (mem_sortSubnets_routes hperm).mp hs with ⟨route, -, -, rfl⟩ | hs
    · rfl
    · exact absurd hd.1 (by simp [hno s hs])

/-- Other protocols and destinations outside the routes pass unmarked. -/
theorem prerouting_passes {config : ProjectConfig}
    (hex : ∀ s ∈ excludes, s.exclude = true ∧ s.Portless)
    (hperm : subnets.Perm (routeSubnets config v ++ excludes))
    (ht : renderTproxyTable port (familyOf v) subnets true tproxyMark = .ok table)
    (h : ¬ (protocol = .tcp ∨ protocol = .udp) ∨ ¬ Routed config v dst) :
    table.eval listening "prerouting" (tunnelPacket dst protocol dport false) =
      (tunnelPacket dst protocol dport false, true) := by
  have heval : table.eval listening "prerouting" (tunnelPacket dst protocol dport false) = _ :=
    eval_prerouting ht rfl rfl rfl
  cases hf : (sortSubnets subnets).find? fun s =>
      s.decides listening port.toNat true (tunnelPacket dst protocol dport false) with
  | none => rw [heval, hf]
  | some s =>
    have hs := List.mem_of_find?_eq_some hf
    have hd := List.find?_some hf
    rw [decides_portless (portless_of_mem (fun s hs => (hex s hs).2) hperm hs)] at hd
    rw [heval, hf]
    rcases (mem_sortSubnets_routes hperm).mp hs with ⟨route, hr, hv, rfl⟩ | hs
    · rcases h with h | h
      · exact absurd hd.2.1 h
      · exact absurd ⟨route, hr, hv, by simpa using hd.1⟩ h
    · simp [subnetOutcome, (hex s hs).1]

theorem prerouting_accepts {p : Packet} (hi : p.iifname = interface) (hlocal : p.isLocal = false)
    (hsock : p.hasSocket = false)
    (ht : renderTproxyTable port (familyOf v) subnets udp mark = .ok table) :
    (table.eval listening "prerouting" p).2 = true := by
  rw [eval_prerouting ht hi hlocal hsock]
  split <;> rfl

end

/-- A peer network, multicast or limited broadcast. -/
def ExcludedDestination (config : ProjectConfig) (dst : IPAddress) : Prop :=
  (∃ gateway ∈ config.wireguard.gatewayAddresses, gateway.network.contains dst = true) ∨
    ∃ network ∈ multicastExclusions, network.contains dst = true

/-- The list sshuttle hands over for one family, up to its order. -/
def sshuttleSubnets (config : ProjectConfig) (v : Version) : List Subnet :=
  routeSubnets config v ++ excludeSubnets config v

/-- Whatever the order of the list, no packet from the tunnel to an excluded destination is given
to the proxy. -/
def ExcludesRespected (config : ProjectConfig) : Prop :=
  ∀ v port udp mark subnets table listening (p : Packet),
    subnets.Perm (sshuttleSubnets config v) →
    renderTproxyTable port (familyOf v) subnets udp mark = .ok table →
    p.iifname = interface → p.hasSocket = false → p.proxy = none →
    ExcludedDestination config p.daddr →
    (table.eval listening "prerouting" p).1.proxy = none

theorem limitedBroadcast_prefixlen : 32 ≤ (IPAddress.v4 (0xffffffff : BitVec 32)).version.width := by
  decide

/-- 255.255.255.255/32 -/
def limitedBroadcast : IPNetwork :=
  ipNetwork (.v4 (0xffffffff : BitVec 32)) 32 limitedBroadcast_prefixlen

/-- No route but the limited broadcast address lies strictly inside a peer network. -/
def RoutesOutsidePeerNetworks (config : ProjectConfig) : Prop :=
  ∀ route ∈ config.effectiveRoutes, ∀ gateway ∈ config.wireguard.gatewayAddresses,
    gateway.network.contains route.networkAddress = true →
    gateway.network.prefixlen < route.prefixlen → route = limitedBroadcast

section
variable {config : ProjectConfig}

theorem mem_excludedNetworks :
    n ∈ excludedNetworks config ↔
      (n ∈ multicastExclusions ∧ n.version ∈ config.gatewayFamilies) ∨
        ∃ gateway ∈ config.wireguard.gatewayAddresses, gateway.network = n := by
  simp [excludedNetworks]

theorem sshuttleSubnets_valid : ∀ s ∈ sshuttleSubnets config v, s.Valid v := by
  intro s hs
  rcases List.mem_append.mp hs with hs | hs
  · obtain ⟨route, -, hv, rfl⟩ := mem_routeSubnets.mp hs
    exact hv ▸ subnetOf_valid
  · obtain ⟨n, -, hv, rfl⟩ := mem_excludeSubnets.mp hs
    exact hv ▸ subnetOf_valid

/-- An include that decides about an excluded destination is more specific than the exclusion. -/
theorem exclude_lt_route {subnets : List Subnet} {p : Packet}
    (hperm : subnets.Perm (sshuttleSubnets config v)) (hr : route.version = v)
    (hf : (sortSubnets subnets).find? (·.decides listening port udp p) =
      some (subnetOf false route))
    (hn : n ∈ excludedNetworks config) (hc : n.contains p.daddr = true) :
    n.prefixlen < route.prefixlen := by
  have hd := List.find?_some hf
  simp only [subnetOf_decides, Bool.and_eq_true] at hd
  have hv : n.version = v := by
    rw [(IPNetwork.contains_iff.mp hc).1, ← (IPNetwork.contains_iff.mp hd.1.1).1, hr]
  have hmem : subnetOf true n ∈ sortSubnets subnets := by
    rw [mem_sortSubnets, hperm.mem_iff]
    exact List.mem_append_right _ (mem_excludeSubnets.mpr ⟨n, hn, hv, rfl⟩)
  have hle := find?_precedence (sortSubnets_sorted subnets) hf hmem
    (by rw [subnetOf_decides, hc, hd.1.2]; rfl)
  rw [weight_le_portless subnetOf_portless subnetOf_portless] at hle
  rcases hle with hlt | ⟨-, hle⟩
  · exact Int.ofNat_lt.mp hlt
  · exact absurd (show true ≤ false from hle) (by decide)

/-- The multicast exclusions other than the limited broadcast address hold multicast addresses. -/
theorem isMulticast_of_mem (hn : n ∈ multicastExclusions) (hb : n ≠ limitedBroadcast)
    (hc : n.contains dst = true) : dst.isMulticast = true := by
  simp only [multicastExclusions, List.mem_cons, List.not_mem_nil, or_false] at hn
  rcases hn with rfl | rfl | rfl
  · obtain ⟨hv, hm⟩ := contains_ipNetwork.mp hc
    cases dst with
    | v4 ip => exact IPAddress.isMulticast_v4 hm
    | v6 ip scope => cases hv
  · exact absurd rfl hb
  · obtain ⟨hv, hm⟩ := contains_ipNetwork.mp hc
    cases dst with
    | v4 ip => cases hv
    | v6 ip scope => exact IPAddress.isMulticast_v6 hm

end

/-- No route lies inside a multicast exclusion. -/
theorem prefixlen_lt_of_multicast [UnicodeDb] (config : CheckedConfig)
    (hr : route ∈ config.effectiveRoutes) (hn : n ∈ multicastExclusions)
    (hb : n ≠ limitedBroadcast) (hc : n.contains route.networkAddress = true) :
    route.prefixlen < n.prefixlen := by
  by_contra hle
  have hpos : 0 < n.prefixlen := by
    simp only [multicastExclusions, List.mem_cons, List.not_mem_nil, or_false] at hn
    rcases hn with rfl | rfl | rfl <;> simp
  have hsub : route.Subnet n :=
    IPNetwork.subnet_of_overlap route.contains_networkAddress hc (by omega)
  exact config.not_multicast hr (by omega)
    ⟨isMulticast_of_mem hn hb hc,
      isMulticast_of_mem hn hb (hsub _ route.contains_broadcastAddress)⟩

/-- The exclusions hold where no route lies inside a peer network. -/
theorem excludesRespected_of_outside [UnicodeDb] (config : CheckedConfig)
    (h : RoutesOutsidePeerNetworks config.toProjectConfig) :
    ExcludesRespected config.toProjectConfig := by
  intro v port udp mark subnets table listening p hperm ht hi hsock hproxy hdst
  cases hlocal : p.isLocal with
  | true => rw [eval_prerouting_local ht hi hlocal, hproxy]
  | false =>
    rw [eval_prerouting ht hi hlocal hsock]
    cases hf : (sortSubnets subnets).find? (·.decides listening port.toNat udp p) with
    | none => exact hproxy
    | some s =>
      rcases (mem_sortSubnets_routes hperm).mp (List.mem_of_find?_eq_some hf) with
        ⟨route, hr, hv, rfl⟩ | hs
      · exfalso
        have hcover := List.find?_some hf
        simp only [subnetOf_decides, Bool.and_eq_true] at hcover
        have hlt {n : IPNetwork} := exclude_lt_route (n := n) hperm hv hf
        have hinside {n : IPNetwork} (hn : n ∈ excludedNetworks config.toProjectConfig)
            (hc : n.contains p.daddr = true) : n.contains route.networkAddress = true :=
          IPNetwork.subnet_of_overlap hcover.1.1 hc (hlt hn hc).le _ route.contains_networkAddress
        have hfamily {n : IPNetwork} (hn : n ∈ multicastExclusions)
            (hc : n.contains p.daddr = true) : n ∈ excludedNetworks config.toProjectConfig := by
          refine mem_excludedNetworks.mpr (.inl ⟨hn, ?_⟩)
          rw [(IPNetwork.contains_iff.mp hc).1, ← (IPNetwork.contains_iff.mp hcover.1.1).1]
          exact config.route_version hr
        rcases hdst with ⟨gateway, hg, hc⟩ | ⟨n, hn, hc⟩
        · have hex := mem_excludedNetworks.mpr (.inr ⟨gateway, hg, rfl⟩)
          obtain rfl := h route hr gateway hg (hinside hex hc) (hlt hex hc)
          exact Nat.lt_irrefl _ (hlt (hfamily (by decide) hcover.1.1) hcover.1.1)
        · have hex := hfamily hn hc
          by_cases hb : n = limitedBroadcast
          · have hw := route.prefixlen_le
            rw [(IPNetwork.contains_iff.mp hcover.1.1).1, ← (IPNetwork.contains_iff.mp hc).1] at hw
            have := hlt hex hc
            subst hb
            exact absurd this (not_lt.mpr hw)
          · exact (prefixlen_lt_of_multicast config hr hn hb (hinside hex hc)).not_gt (hlt hex hc)
      · obtain ⟨n, -, -, rfl⟩ := mem_excludeSubnets.mp hs
        exact hproxy

/-- The first address of a short prefix is a multiple of a power of two. -/
theorem dvd_networkAddress (route : IPNetwork) (h : route.prefixlen + k ≤ route.version.width) :
    2 ^ k ∣ route.networkAddress.value :=
  Dvd.dvd.trans (Nat.pow_dvd_pow 2 (show k ≤ route.version.width - route.prefixlen by omega))
    (Nat.dvd_of_mod_eq_zero route.hostBits)

/-- The limited broadcast address is the first address of no wider network. -/
theorem eq_limitedBroadcast (h : limitedBroadcast.contains route.networkAddress = true) :
    route = limitedBroadcast := by
  obtain ⟨hv, hm⟩ := contains_ipNetwork.mp h
  have hval : route.networkAddress.value = 0xffffffff := by
    simpa [Block.Mem, IPAddress.value, IPAddress.version, Version.width] using hm
  have hwidth : route.version.width = 32 := congrArg Version.width hv.symm
  have hlen : route.prefixlen = 32 := by
    by_contra hne
    have hle := route.prefixlen_le
    have hdvd := dvd_networkAddress (k := 1) route (by omega)
    omega
  obtain ⟨address, prefixlen, hle, hbits⟩ := route
  subst hlen
  cases address with
  | v6 ip scope => cases hv
  | v4 ip =>
    obtain rfl : ip = (0xffffffff : BitVec 32) := BitVec.eq_of_toNat_eq hval
    rfl

/-- A route other than the limited broadcast address has an address outside every exclusion that
is as specific as the route: its first address or, where that is 224.0.0.0, 240.0.0.0. -/
theorem exists_plain_address [UnicodeDb] (config : CheckedConfig)
    (hr : route ∈ config.effectiveRoutes) (hne : route ≠ limitedBroadcast) :
    ∃ dst, route.contains dst = true ∧
      ∀ n ∈ multicastExclusions, n.contains dst = true → n.prefixlen < route.prefixlen := by
  by_cases hplain : ∀ n ∈ multicastExclusions, n.contains route.networkAddress = false
  · refine ⟨route.networkAddress, route.contains_networkAddress, fun n hn hc => ?_⟩
    rw [hplain n hn] at hc
    cases hc
  · simp only [not_forall, Bool.not_eq_false] at hplain
    obtain ⟨n, hn, hc⟩ := hplain
    have hb : n ≠ limitedBroadcast := fun hb => hne (eq_limitedBroadcast (hb ▸ hc))
    have hlt := prefixlen_lt_of_multicast config hr hn hb hc
    simp only [multicastExclusions, List.mem_cons, List.not_mem_nil, or_false] at hn
    rcases hn with rfl | rfl | rfl
    · rw [prefixlen_ipNetwork] at hlt
      obtain ⟨hv, hm⟩ := contains_ipNetwork.mp hc
      have hv : route.version = .v4 := hv.symm
      have hwidth : route.version.width = 32 := congrArg Version.width hv
      have hdvd := dvd_networkAddress (k := 29) route (by omega)
      have hbase : route.networkAddress.value / 2 ^ 28 = 14 := by
        simpa [Block.Mem, IPAddress.value, IPAddress.version, Version.width] using hm
      have hsize : 2 ^ 29 ≤ 2 ^ route.hostLen :=
        Nat.pow_le_pow_right (by decide) (by unfold IPNetwork.hostLen; omega)
      refine ⟨.ofValue .v4 0xf0000000, IPNetwork.contains_iff.mpr ⟨hv, ?_⟩, ?_⟩
      · refine (Block.mem_iff_of_aligned route.hostBits).mpr ?_
        rw [IPAddress.value_ofValue (by decide)]
        change _ ∧ _ < _ + 2 ^ route.hostLen
        omega
      · have hnone : ∀ n ∈ multicastExclusions, n.contains (.ofValue .v4 0xf0000000) = false := by
          decide +kernel
        intro n hn hc
        rw [hnone n hn] at hc
        cases hc
    · exact absurd rfl hb
    · rw [prefixlen_ipNetwork] at hlt
      obtain ⟨hv, hm⟩ := contains_ipNetwork.mp hc
      have hwidth : route.version.width = 128 := congrArg Version.width hv.symm
      have hdvd := dvd_networkAddress (k := 121) route (by omega)
      have hbase : route.networkAddress.value / 2 ^ 120 = 255 := by
        simpa [Block.Mem, IPAddress.value, IPAddress.version, Version.width] using hm
      omega

/-- A route wins against no exclusion only if the exclusion is as specific. -/
theorem route_le_exclude {subnets : List Subnet} {p : Packet} {config : ProjectConfig}
    (hperm : subnets.Perm (sshuttleSubnets config v)) (hr : route ∈ config.effectiveRoutes)
    (hv : route.version = v) (hd : (subnetOf false route).decides listening port udp p = true)
    (hf : (sortSubnets subnets).find? (·.decides listening port udp p) = some (subnetOf true n)) :
    route.prefixlen ≤ n.prefixlen := by
  have hmem : subnetOf false route ∈ sortSubnets subnets := by
    rw [mem_sortSubnets, hperm.mem_iff]
    exact List.mem_append_left _ (mem_routeSubnets.mpr ⟨route, hr, hv, rfl⟩)
  have hle := find?_precedence (sortSubnets_sorted subnets) hf hmem hd
  rw [weight_le_portless subnetOf_portless subnetOf_portless] at hle
  rcases hle with hlt | ⟨heq, -⟩
  · exact (Int.ofNat_lt.mp hlt).le
  · exact (Int.ofNat_inj.mp heq).le

/-- A route inside a peer network takes packets that were to be excluded. -/
theorem outside_of_excludesRespected [UnicodeDb] (config : CheckedConfig)
    (h : ExcludesRespected config.toProjectConfig) :
    RoutesOutsidePeerNetworks config.toProjectConfig := by
  intro route hr gateway hg hinside hlt
  by_contra hne
  obtain ⟨dst, hdst, hplain⟩ := exists_plain_address config hr hne
  have hgdst : gateway.network.contains dst = true :=
    IPNetwork.subnet_of_overlap route.contains_networkAddress hinside hlt.le dst hdst
  obtain ⟨table, ht⟩ : ∃ table, renderTproxyTable 1 (familyOf route.version)
      (sshuttleSubnets config.toProjectConfig route.version) true tproxyMark = .ok table :=
    renderTproxyTable_ok (by decide) checkMark_tproxyMark sshuttleSubnets_valid
  have hproxy := h route.version 1 true tproxyMark _ table (fun _ => true)
    (tunnelPacket dst .tcp 0 false) (.refl _) ht rfl rfl rfl (.inl ⟨gateway, hg, hgdst⟩)
  rw [eval_prerouting ht rfl rfl rfl] at hproxy
  have hd : (subnetOf false route).decides (fun _ => true) 1 true
      (tunnelPacket dst .tcp 0 false) = true := by
    rw [subnetOf_decides, tunnelPacket_daddr, hdst]
    rfl
  cases hf : (sortSubnets (sshuttleSubnets config.toProjectConfig route.version)).find?
      (·.decides (fun _ => true) 1 true (tunnelPacket dst .tcp 0 false)) with
  | none =>
    refine List.find?_eq_none.mp hf (subnetOf false route) ?_ hd
    exact mem_sortSubnets.mpr
      (List.mem_append_left _ (mem_routeSubnets.mpr ⟨route, hr, rfl, rfl⟩))
  | some s =>
    simp only [show (1 : Int).toNat = 1 from rfl, hf] at hproxy
    rcases List.mem_append.mp (mem_sortSubnets.mp (List.mem_of_find?_eq_some hf)) with hs | hs
    · obtain ⟨r, -, -, rfl⟩ := mem_routeSubnets.mp hs
      cases hproxy
    · obtain ⟨n, hn, hv, rfl⟩ := mem_excludeSubnets.mp hs
      have hle := route_le_exclude (.refl _) hr rfl hd hf
      have hc := List.find?_some hf
      simp only [subnetOf_decides, Bool.and_eq_true, tunnelPacket_daddr] at hc
      rcases mem_excludedNetworks.mp hn with ⟨hn, -⟩ | ⟨gateway', hg', rfl⟩
      · exact (hplain n hn hc.1.1).not_ge hle
      · have hsame : gateway'.version = gateway.version := by
          rw [← gateway'.version_network, ← gateway.version_network,
            (IPNetwork.contains_iff.mp hc.1.1).1, (IPNetwork.contains_iff.mp hgdst).1]
        obtain rfl := config.gateway_unique hg' hg hsame
        exact hlt.not_ge hle

/-- The example configuration with a route inside its peer network 10.77.0.0/24. -/
def innerRouteProject : ProjectConfig :=
  { exampleProject with
    routing.networks := ipNetwork (.v4 (0x0a4d0080 : BitVec 32)) 25 (by decide) ::
      exampleProject.routing.networks }

end Runtime
end ShuttleGate
