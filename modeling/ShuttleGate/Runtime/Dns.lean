import ShuttleGate.Runtime.PacketFlow

/-! # The path of DNS

The validator compares the upstream with the routes and the gateway networks; the capture of its
packets is decided by the precedence of routes and excludes. The two agree for every upstream but
one: the limited broadcast address is no multicast address and is excluded all the same. -/

/-- 255.255.255.255 -/
def Net.IPAddress.limitedBroadcast : Net.IPAddress := .v4 (0xffffffff : BitVec 32)

namespace ShuttleGate

open Net Nft NftTproxy

namespace CheckedConfig

variable [UnicodeDb] (config : CheckedConfig)

/-- What acceptance says about the upstream. -/
structure UpstreamChecked (config : ProjectConfig) (upstream : IPAddress) : Prop where
  unicast : upstream.isMulticast = false
  outside : ∀ gateway ∈ config.wireguard.gatewayAddresses, gateway.network.contains upstream = false
  routed : ∃ route ∈ config.effectiveRoutes,
    route.version = upstream.version ∧ route.contains upstream = true
  families : ∀ peer ∈ config.wireguard.peers, ∃ a ∈ peer.addresses, a.version = upstream.version

theorem upstream_checked (henabled : config.dns.enabled = true)
    (hupstream : config.dns.upstream = some upstream) :
    UpstreamChecked config.toProjectConfig upstream := by
  have hall := config.accepted
  simp only [ProjectConfig.check, seq_eq_ok] at hall
  obtain ⟨-, -, -, -, -, hdns, -, -⟩ := hall
  simp only [DNSConfig.check, seq_eq_ok, hupstream, raiseIf_eq_ok] at hdns
  have hcross := config.checks.2.2.2
  simp only [ProjectConfig.checkCrossFields, henabled, hupstream, seq_eq_ok,
    ProjectConfig.checkUpstream, raiseIf_eq_ok, ne_eq, Decidable.not_not] at hcross
  obtain ⟨-, houtside, hrouted, hfamilies⟩ := hcross
  refine ⟨?_, fun gateway hg => ?_, hrouted, fun peer hp => ?_⟩
  · exact Bool.eq_false_iff.mpr fun h => hdns.2.2 (.inr h)
  · refine Bool.eq_false_iff.mpr fun h => houtside ⟨gateway, hg, ?_, h⟩
    rw [← (IPNetwork.contains_iff.mp h).1, IPInterface.version_network]
  · have h := List.filter_eq_nil_iff.mp hfamilies peer hp
    simpa using h

end CheckedConfig

namespace Runtime

/-- TCP and UDP to port 53 of the upstream get the proxy's verdict, in whatever order sshuttle
hands over the routes and the excludes of the command line. -/
def DnsCaptured (config : ProjectConfig) (upstream : IPAddress) : Prop :=
  ∀ (port : Int) (listening : Nat → Bool) (subnets : List Subnet) (protocol : Protocol),
    1 ≤ port ∧ port ≤ 65535 → listening port.toNat = true →
    subnets.Perm (sshuttleSubnets config upstream.version) →
    protocol = .tcp ∨ protocol = .udp →
    ∃ table,
      renderTproxyTable port (familyOf upstream.version) subnets true tproxyMark = .ok table ∧
      table.eval listening "prerouting" (tunnelPacket upstream protocol 53 false) =
        ({ tunnelPacket upstream protocol 53 false with mark := 1, proxy := some port.toNat }, true)

/-- The upstream of a configuration is carried by the tunnel of every peer. -/
structure DnsCarried (config : ProjectConfig) (upstream : IPAddress) : Prop where
  families : ∀ peer ∈ config.wireguard.peers, ∃ a ∈ peer.addresses, a.version = upstream.version
  allowed : ∃ route ∈ config.effectiveRoutes,
    route.contains upstream = true ∧ route.text ∈ peerAllowedRoutes config
  captured : DnsCaptured config upstream

theorem mem_excludeSubnets_portless {config : ProjectConfig} :
    ∀ s ∈ excludeSubnets config v, s.Portless := by
  intro s hs
  obtain ⟨n, -, -, rfl⟩ := mem_excludeSubnets.mp hs
  exact subnetOf_portless

theorem limitedBroadcast_contains_iff :
    limitedBroadcast.contains dst = true ↔ dst = .limitedBroadcast := by
  constructor
  · intro h
    obtain ⟨hv, hm⟩ := contains_ipNetwork.mp h
    cases dst with
    | v6 ip scope => cases hv
    | v4 ip =>
      have hvalue : ip.toNat = (0xffffffff : BitVec 32).toNat := by
        simpa [Block.Mem, IPAddress.value, IPAddress.version, Version.width] using hm
      exact congrArg IPAddress.v4 (BitVec.eq_of_toNat_eq hvalue)
  · rintro rfl
    decide +kernel

/-- No exclude covers another checked upstream. -/
theorem excludes_miss {config : ProjectConfig} (h : CheckedConfig.UpstreamChecked config upstream)
    (hne : upstream ≠ .limitedBroadcast) :
    ∀ s ∈ excludeSubnets config v, s.covers upstream = false := by
  intro s hs
  obtain ⟨n, hn, -, rfl⟩ := mem_excludeSubnets.mp hs
  rw [subnetOf_covers, Bool.eq_false_iff]
  intro hc
  rcases mem_excludedNetworks.mp hn with ⟨hn, -⟩ | ⟨gateway, hg, rfl⟩
  · by_cases hb : n = limitedBroadcast
    · exact hne (limitedBroadcast_contains_iff.mp (hb ▸ hc))
    · have := isMulticast_of_mem hn hb hc
      rw [h.unicast] at this
      cases this
  · rw [h.outside gateway hg] at hc
    cases hc

/-- A packet to the limited broadcast address is let through: its exclude is as specific as an
entry can be. -/
theorem not_dnsCaptured_broadcast {config : ProjectConfig}
    (hfamily : Version.v4 ∈ config.gatewayFamilies) : ¬ DnsCaptured config .limitedBroadcast := by
  intro h
  obtain ⟨table, ht, heval⟩ :=
    h 1 (fun _ => true) _ .udp (by decide) rfl (.refl _) (.inr rfl)
  have heval := congrArg (·.1.proxy) heval
  rw [eval_prerouting ht rfl rfl rfl] at heval
  have hn : limitedBroadcast ∈ excludedNetworks config :=
    mem_excludedNetworks.mpr (.inl ⟨by decide, hfamily⟩)
  cases hf : (sortSubnets (sshuttleSubnets config .v4)).find? (·.decides (fun _ => true) 1 true
      (tunnelPacket .limitedBroadcast .udp 53 false)) with
  | none =>
    rw [show IPAddress.limitedBroadcast.version = .v4 from rfl, show (1 : Int).toNat = 1 from rfl,
      hf] at heval
    cases heval
  | some s =>
    rw [show IPAddress.limitedBroadcast.version = .v4 from rfl, show (1 : Int).toNat = 1 from rfl,
      hf] at heval
    rcases (mem_sortSubnets_routes (.refl _)).mp (List.mem_of_find?_eq_some hf) with
      ⟨route, -, hv, rfl⟩ | hs
    · have hlt := exclude_lt_route (.refl _) hv hf hn (limitedBroadcast_contains_iff.mpr rfl)
      have hle := route.prefixlen_le
      rw [hv] at hle
      exact absurd hlt (not_lt.mpr hle)
    · obtain ⟨n, -, -, rfl⟩ := mem_excludeSubnets.mp hs
      cases heval

/-- Full routing with the limited broadcast address as the upstream. -/
def broadcastDnsProject : ProjectConfig :=
  { exampleProject with
    routing := { mode := .full }
    dns := { enabled := true, upstream := some .limitedBroadcast } }

end Runtime
end ShuttleGate
