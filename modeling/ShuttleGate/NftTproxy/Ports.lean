import ShuttleGate.Net.Cidr
import ShuttleGate.NftTproxy.Precedence

/-! # What the rule lines of an entry match

The rules of an entry are meant to match its protocols, its masked network and its ports and
nothing else. They do unless the entry's port range starts at 0 without being all ports, where
`_match` writes no port at all, or its network is printed with a zone, which is not an address the
rule language reads. -/

namespace ShuttleGate

open Net Nft

namespace NftTproxy

/-! ## The lines of an entry -/

/-- Whether an expression of a rule matches a packet. Addresses are read from the printed line. -/
def matchesItem (p : Packet) : Item → Bool
  | .daddr network => (readCidr network.text).any fun i => i.network.contains p.daddr
  | item => item.holds (fun _ => true) p

/-- A rule line matches a packet when all its expressions do. -/
def matchesRule (p : Packet) (rule : Rule) : Bool := rule.all (matchesItem p)

/-- The rules of an entry. -/
def renderedRules (port : Nat) (udp : Bool) (mark : String) (s : Subnet) : List Rule :=
  match s.parsed with
  | none => []
  | some parsed => subnetRules port udp mark s parsed

/-- The address lies in the entry's network, host bits masked. -/
def Subnet.InNetwork (s : Subnet) (dst : IPAddress) : Prop :=
  ∃ a, IPAddress.ofText s.network = some a ∧ a.version = dst.version ∧
    Block.Mem (a.version.width - s.width.toNat) a.value dst.value

/-- The ports of an entry: any if both bounds are 0, else those between the bounds. -/
def Subnet.InPorts (s : Subnet) (port : Nat) : Prop :=
  s.firstPort = 0 ∧ s.lastPort = 0 ∨ s.firstPort ≤ port ∧ port ≤ s.lastPort

/-- The rules match exactly the packets the entry names. -/
def Exact (udp : Bool) (s : Subnet) (rules : List Rule) : Prop :=
  ∀ p : Packet, p.dport ≤ 65535 → ((∃ rule ∈ rules, matchesRule p rule = true) ↔
    p.protocol ∈ protocols udp ∧ s.InNetwork p.daddr ∧ s.InPorts p.dport)

/-- A range that starts at 0 is all ports. -/
def Subnet.FullFromZero (s : Subnet) : Prop :=
  s.firstPort = 0 → s.lastPort = 0 ∨ s.lastPort = 65535

/-- The entry's address has a zone and no host bits, so that its network keeps the zone. -/
def Subnet.Zoned (s : Subnet) : Prop :=
  ∃ a, IPAddress.ofText s.network = some a ∧ a.scopeId ≠ none ∧
    a.value % 2 ^ (a.version.width - s.width.toNat) = 0

section
variable {v : Version} {s : Subnet} {n : IPNetwork} {p : Packet}

/-! ## Networks -/

theorem parsed_eq_some (h : s.parsed = some n) : ∃ a, IPAddress.ofText s.network = some a ∧
    ∃ hw : s.width.toNat ≤ a.version.width, n = ipNetwork a s.width.toNat hw := by
  unfold Subnet.parsed ipNetworkOf at h
  split at h
  · cases h
  · next a ha =>
    split at h
    · next hw => exact ⟨a, ha, hw, (Option.some.inj h).symm⟩
    · cases h

theorem contains_parsed (h : s.parsed = some n) (dst : IPAddress) :
    n.contains dst = true ↔ s.InNetwork dst := by
  obtain ⟨a, ha, hw, rfl⟩ := parsed_eq_some h
  rw [contains_ipNetwork]
  constructor
  · intro hmem
    exact ⟨a, ha, hmem⟩
  · rintro ⟨a', ha', hmem⟩
    obtain rfl := Option.some.inj (ha.symm.trans ha')
    exact hmem

theorem scopeId_ofValue (v : Version) (k : Nat) : (IPAddress.ofValue v k).scopeId = none := by
  cases v <;> rfl

/-- A network keeps a zone exactly when its address has one and no host bits. -/
theorem scopeId_parsed (h : s.parsed = some n) : n.networkAddress.scopeId ≠ none ↔ s.Zoned := by
  obtain ⟨a, ha, hw, rfl⟩ := parsed_eq_some h
  have hzoned : s.Zoned ↔
      a.scopeId ≠ none ∧ a.value % 2 ^ (a.version.width - s.width.toNat) = 0 := by
    constructor
    · rintro ⟨a', ha', hz⟩
      obtain rfl := Option.some.inj (ha.symm.trans ha')
      exact hz
    · intro hz
      exact ⟨a, ha, hz⟩
  rw [hzoned, ipNetwork]
  split
  · next hb => simp [hb]
  · next hb => simp [hb, scopeId_ofValue]

theorem network_interface (n : IPNetwork) (dst : IPAddress) :
    n.interface.network.contains dst = n.contains dst := by
  rw [Bool.eq_iff_iff, IPInterface.network, contains_ipNetwork, IPNetwork.contains_iff]
  rfl

/-- A network without a zone is read back; one with a zone is not an address. -/
theorem matchesItem_daddr (n : IPNetwork) : matchesItem p (.daddr n) =
    (decide (n.networkAddress.scopeId = none) && n.contains p.daddr) := by
  change (readCidr n.text).any (fun i => i.network.contains p.daddr) = _
  by_cases hz : n.networkAddress.scopeId = none
  · have hread : readCidr n.text = some n.interface := readCidr_text (i := n.interface) hz
    simp [hz, hread, network_interface]
  · have hread : readCidr n.text = none := by
      cases hr : readCidr n.text with
      | none => rfl
      | some i =>
        refine absurd ?_ (percent_notMem_of_readCidr hr)
        rw [IPNetwork.text, toList_prefixText]
        exact List.mem_append_left _ (mem_chars_of_scopeId hz)
    simp [hz, hread]

/-! ## Ports -/

/-- The ports the rules of an entry let through. -/
def Subnet.RenderedPorts (s : Subnet) (port : Nat) : Prop :=
  s.firstPort = 0 ∨ s.firstPort ≤ port ∧ port ≤ s.lastPort

theorem matchesRule_subnetRules (hp : 0 ≤ s.firstPort ∧ s.firstPort ≤ s.lastPort) :
    (∃ rule ∈ subnetRules port udp mark s n, matchesRule p rule = true) ↔
      p.protocol ∈ protocols udp ∧ matchesItem p (.daddr n) = true ∧ s.RenderedPorts p.dport := by
  have hrule (protocol : Protocol) :
      matchesRule p (matchItems protocol n s.firstPort.toNat s.lastPort.toNat ++
        if s.exclude then [.verdict .return]
        else [.tproxyTo port, .markSet mark, .verdict .accept]) = true ↔
        matchesItem p (.daddr n) = true ∧ p.protocol = protocol ∧ s.RenderedPorts p.dport := by
    have hverdict : ((if s.exclude then [.verdict .return]
        else [.tproxyTo port, .markSet mark, .verdict .accept]) : Rule).all (matchesItem p) = true := by
      cases s.exclude <;> rfl
    rw [matchesRule, List.all_append, hverdict, Bool.and_true, matchItems, List.all_cons,
      Bool.and_eq_true, List.all_cons, List.all_nil, Bool.and_true]
    refine and_congr_right fun _ => ?_
    by_cases hz : s.firstPort = 0
    · simp [hz, matchesItem, Item.holds, Subnet.RenderedPorts]
    · have hne : s.firstPort.toNat ≠ 0 := by omega
      simp only [hne, ne_eq, not_false_eq_true, if_true, matchesItem, Item.holds, Bool.and_eq_true,
        beq_iff_eq, decide_eq_true_eq, Subnet.RenderedPorts, hz, false_or, and_assoc]
      refine and_congr_right fun _ => ?_
      omega
  simp only [subnetRules, List.mem_map, exists_exists_and_eq_and, hrule]
  constructor
  · rintro ⟨protocol, hmem, haddr, rfl, hports⟩
    exact ⟨hmem, haddr, hports⟩
  · rintro ⟨hmem, haddr, hports⟩
    exact ⟨p.protocol, hmem, haddr, rfl, hports⟩

/-- Of the ports of datagrams, the rendered ones are the entry's unless the range starts at 0. -/
theorem renderedPorts_iff (h : s.Valid v) :
    (∀ port ≤ 65535, s.RenderedPorts port ↔ s.InPorts port) ↔ s.FullFromZero := by
  obtain ⟨h₀, h₁, h₂⟩ := h.ports
  unfold Subnet.RenderedPorts Subnet.InPorts Subnet.FullFromZero
  constructor
  · intro hall hzero
    have := (hall 65535 le_rfl).mp (.inl hzero)
    omega
  · intro hfull port hport
    constructor
    · rintro (hzero | hrange)
      · rcases hfull hzero with hlast | hlast
        · exact .inl ⟨hzero, hlast⟩
        · exact .inr (by omega)
      · exact .inr hrange
    · rintro (⟨hzero, -⟩ | hrange)
      · exact .inl hzero
      · exact .inr hrange

/-! ## Exactness -/

/-- The rules of an entry are exact when its ports are rendered as they are and its network is
printed without a zone. -/
theorem exact_renderedRules (h : s.Valid v) :
    Exact udp s (renderedRules port udp mark s) ↔ s.FullFromZero ∧ ¬ s.Zoned := by
  obtain ⟨n, hn, -⟩ := h.parsed
  have hmatch (p : Packet) : (∃ rule ∈ renderedRules port udp mark s, matchesRule p rule = true) ↔
      p.protocol ∈ protocols udp ∧ (¬ s.Zoned ∧ s.InNetwork p.daddr) ∧ s.RenderedPorts p.dport := by
    rw [renderedRules, hn]
    simp only [matchesRule_subnetRules ⟨h.ports.1, h.ports.2.1⟩, matchesItem_daddr,
      Bool.and_eq_true, decide_eq_true_eq, contains_parsed hn]
    rw [← scopeId_parsed hn, not_not]
  have htcp : Protocol.tcp ∈ protocols udp := by cases udp <;> simp [protocols]
  have hself : s.InNetwork n.networkAddress := (contains_parsed hn _).mp n.contains_networkAddress
  rw [← renderedPorts_iff h]
  constructor
  · intro hexact
    -- a packet to the network itself tells each part of the rules apart
    have hto (port : Nat) (hport : port ≤ 65535) :
        (¬ s.Zoned ∧ s.RenderedPorts port) ↔ s.InPorts port := by
      have := (hmatch (packetTo n.networkAddress port)).symm.trans
        (hexact (packetTo n.networkAddress port) hport)
      simpa [packetTo, htcp, hself] using this
    obtain ⟨h₀, h₁, h₂⟩ := h.ports
    have hzone : ¬ s.Zoned :=
      ((hto s.firstPort.toNat (by omega)).mpr (.inr (by omega))).1
    refine ⟨fun port hport => ?_, hzone⟩
    rw [← hto port hport]
    exact (and_iff_right hzone).symm
  · rintro ⟨hports, hzone⟩ p hport
    rw [hmatch p, hports p.dport hport, and_iff_right hzone]

end

/-- The rules of a list are those of its entries in order. -/
theorem renderSubnets_rules {subnets : List Subnet}
    (h : renderSubnets port (familyOf v) v udp mark subnets = .ok rules) :
    rules = subnets.flatMap (renderedRules port udp mark) := by
  induction subnets generalizing rules with
  | nil => exact (Except.ok.inj h).symm
  | cons s rest ih =>
    obtain ⟨n, hn, tail, ht, hr⟩ := by simpa only [renderSubnets, bind_eq_ok] using h
    obtain rfl := Except.ok.inj hr
    rw [List.flatMap_cons, ← ih ht, renderedRules, (checkSubnet_eq_ok.mp hn).2]

theorem exists_version {subnets : List Subnet}
    (h : renderTproxyTable port family subnets udp mark = .ok table) : ∃ v, family = familyOf v := by
  obtain ⟨v, hv, -⟩ := bind_eq_ok.mp h
  unfold familyTokens at hv
  split at hv
  · next hfamily => exact ⟨.v4, hfamily⟩
  · split at hv
    · next hfamily => exact ⟨.v6, hfamily⟩
    · cases hv

/-- Where the renderer does not raise, the rules of the list are those of its entries in order of
precedence, and the rules of an entry match exactly its packets if and only if a port range that
starts at 0 is all ports and the network is printed without a zone. -/
theorem exact_iff {subnets : List Subnet}
    (h : renderTproxyTable port family subnets udp mark = .ok table) :
    (∃ v, family = familyOf v ∧ table = tproxyTable v s!"shuttle_gate_tproxy_{port}" mark
      ((sortSubnets subnets).flatMap (renderedRules port.toNat udp mark))) ∧
      ∀ s ∈ subnets, Exact udp s (renderedRules port.toNat udp mark s) ↔
        s.FullFromZero ∧ ¬ s.Zoned := by
  obtain ⟨v, rfl⟩ := exists_version h
  obtain ⟨-, -, rules, hrules, rfl⟩ := renderTproxyTable_eq_ok.mp h
  refine ⟨⟨v, rfl, by rw [renderSubnets_rules hrules]⟩, fun s hs => ?_⟩
  exact exact_renderedRules (valid_of_rendered h hs)

theorem exists_ok {x : Except String α} (h : x.toOption.isSome = true) : ∃ a, x = .ok a := by
  cases x with
  | ok a => exact ⟨a, rfl⟩
  | error e => cases h

/-- All ports of two networks and one port of one of them. -/
theorem exact_iff_example : ∃ table,
    renderTproxyTable 12300 afInet exampleSubnets true "0x1" = .ok table ∧
      ∀ s ∈ exampleSubnets, Exact true s (renderedRules 12300 true "0x1" s) ↔
        s.FullFromZero ∧ ¬ s.Zoned := by
  obtain ⟨table, htable⟩ := exists_ok
    (x := renderTproxyTable 12300 afInet exampleSubnets true "0x1") (by decide +kernel)
  exact ⟨table, htable, (exact_iff htable).2⟩

/-- The ports up to 80 of one network. -/
def portsUpTo80 : Subnet := ⟨afInet, 8, false, "10.0.0.0", 0, 80⟩

/-- The entry is taken, and its rule matches every port. -/
theorem portsUpTo80_widened : ¬ ∀ port family subnets udp mark table,
    renderTproxyTable port family subnets udp mark = .ok table →
      ∀ s ∈ subnets, Exact udp s (renderedRules port.toNat udp mark s) := by
  intro hall
  obtain ⟨table, htable⟩ := exists_ok
    (x := renderTproxyTable 12300 (familyOf .v4) [portsUpTo80] false "0x1") (by decide +kernel)
  have hmem := List.mem_singleton_self portsUpTo80
  have hexact := hall _ _ _ _ _ _ htable portsUpTo80 hmem
  have hfull := ((exact_renderedRules (valid_of_rendered htable hmem)).mp hexact).1
  exact absurd (hfull rfl) (by decide)

end NftTproxy

end ShuttleGate
