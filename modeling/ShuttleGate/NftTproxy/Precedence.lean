import ShuttleGate.NftTproxy
import Mathlib.Data.Set.BooleanAlgebra
import Mathlib.Order.CompletePartialOrder

/-! # Precedence

The entry of the largest weight decides among those that match, so the verdict depends on the set
of the entries only; an entry that matches less than another one comes first. -/

namespace ShuttleGate

open Net Nft

namespace NftTproxy

section
variable {v : Version} {udp : Bool} {a b s : Subnet}

/-! ## Match sets -/

/-- The entry's port range contains the port. -/
def Subnet.admits (s : Subnet) (port : Nat) : Prop :=
  s.firstPort.toNat = 0 ∨ s.firstPort.toNat ≤ port ∧ port ≤ s.lastPort.toNat

/-- The packets an entry matches. -/
def Subnet.matchSet (udp : Bool) (s : Subnet) : Set Packet :=
  {p | p.dport ≤ 65535 ∧ s.selects udp p = true}

theorem Subnet.mem_matchSet {p : Packet} : p ∈ s.matchSet udp ↔ p.dport ≤ 65535 ∧
    s.covers p.daddr = true ∧ p.protocol ∈ protocols udp ∧ s.admits p.dport := by
  simp [matchSet, selects, admits, and_assoc]

/-- Any port, or a range that starts at 1 or more. -/
def Subnet.PlainPorts (s : Subnet) : Prop := s.firstPort = 0 ∧ s.lastPort = 0 ∨ 1 ≤ s.firstPort

/-- What a weight says of the ports: the larger, the narrower. -/
def portWeight (s : Subnet) : Int :=
  -s.lastPort + (if s.firstPort = 0 then -65535 else s.firstPort)

theorem weight_lt_iff : subnetWeight b < subnetWeight a ↔ portWeight b < portWeight a ∨
    portWeight b = portWeight a ∧ (b.width < a.width ∨ b.width = a.width ∧ b.exclude < a.exclude) := by
  simp [subnetWeight, portWeight, Prod.Lex.toLex_lt_toLex]

theorem weight_eq_iff : subnetWeight a = subnetWeight b ↔
    portWeight a = portWeight b ∧ a.width = b.width ∧ a.exclude = b.exclude := by
  simp [subnetWeight, portWeight]

/-- A packet to an address and a port. -/
def packetTo (daddr : IPAddress) (dport : Nat) : Packet :=
  ⟨proxyIngressInterface, daddr, .tcp, dport, false, false, 0, none⟩

theorem Subnet.packetTo_mem {dst : IPAddress} {port : Nat} :
    packetTo dst port ∈ s.matchSet udp ↔
      port ≤ 65535 ∧ s.covers dst = true ∧ s.admits port := by
  have htcp : Protocol.tcp ∈ protocols udp := by cases udp <;> simp [protocols]
  simp [mem_matchSet, packetTo, htcp]

theorem Subnet.Valid.admits_firstPort (h : s.Valid v) :
    s.firstPort.toNat ≤ 65535 ∧ s.admits s.firstPort.toNat := by
  obtain ⟨h₀, h₁, h₂⟩ := h.ports
  exact ⟨by omega, .inr ⟨Nat.le_refl _, by omega⟩⟩

theorem Subnet.Valid.covered (h : s.Valid v) : ∃ n, s.parsed = some n ∧
    s.covers n.networkAddress = true ∧ n.version = v ∧ (n.prefixlen : Int) = s.width := by
  obtain ⟨n, hn, hv⟩ := h.parsed
  refine ⟨n, hn, (covers_iff hn).trans n.contains_networkAddress, hv, ?_⟩
  unfold Subnet.parsed ipNetworkOf at hn
  split at hn
  · cases hn
  · split at hn
    · cases hn
      rw [prefixlen_ipNetwork, Int.toNat_of_nonneg h.width.1]
    · cases hn

/-! ## Nested match sets -/

/-- The entries of two nested match sets have nested networks and port ranges. -/
theorem nested_of_subset (ha : a.Valid v) (h : a.matchSet udp ⊆ b.matchSet udp) :
    (∀ dst, a.covers dst = true → b.covers dst = true) ∧
      ∀ port ≤ 65535, a.admits port → b.admits port := by
  obtain ⟨n, -, hn, -⟩ := ha.covered
  have hport := ha.admits_firstPort
  constructor
  · intro dst hdst
    exact (Subnet.packetTo_mem.mp (h (Subnet.packetTo_mem.mpr ⟨hport.1, hdst, hport.2⟩))).2.1
  · intro port hp hadmits
    exact (Subnet.packetTo_mem.mp (h (Subnet.packetTo_mem.mpr ⟨hp, hn, hadmits⟩))).2.2

theorem subset_of_nested (hc : ∀ dst, a.covers dst = true → b.covers dst = true)
    (hp : ∀ port ≤ 65535, a.admits port → b.admits port) :
    a.matchSet udp ⊆ b.matchSet udp := by
  intro p hmem
  obtain ⟨hport, hcover, hprotocol, hadmits⟩ := Subnet.mem_matchSet.mp hmem
  exact Subnet.mem_matchSet.mpr ⟨hport, hc _ hcover, hprotocol, hp _ hport hadmits⟩

/-- The narrower of two nested port ranges weighs more, unless they are the same. -/
theorem portWeight_of_nested (ha : a.Valid v) (hb : b.Valid v) (hpa : a.PlainPorts)
    (hpb : b.PlainPorts) (h : ∀ port ≤ 65535, a.admits port → b.admits port) :
    portWeight b < portWeight a ∨ portWeight b = portWeight a ∧
      ∀ port ≤ 65535, b.admits port → a.admits port := by
  obtain ⟨ha₀, ha₁, ha₂⟩ := ha.ports
  obtain ⟨hb₀, hb₁, hb₂⟩ := hb.ports
  have hzero := h 0 (Nat.zero_le _)
  have hfirst := h a.firstPort.toNat (by omega) (.inr ⟨Nat.le_refl _, by omega⟩)
  have hlast := h a.lastPort.toNat (by omega) (.inr ⟨by omega, Nat.le_refl _⟩)
  unfold Subnet.admits at *
  unfold Subnet.PlainPorts at hpa hpb
  unfold portWeight
  split <;> split
  · exact .inr ⟨by omega, fun port _ _ => .inl (by omega)⟩
  · exact .inl (by omega)
  · omega
  · by_cases hsame : a.firstPort = b.firstPort ∧ a.lastPort = b.lastPort
    · exact .inr ⟨by omega, fun port _ hport => by rw [hsame.1, hsame.2]; exact hport⟩
    · exact .inl (by omega)

/-- The longer of two nested networks has the longer prefix, unless they are the same. -/
theorem width_of_nested (ha : a.Valid v) (hb : b.Valid v)
    (h : ∀ dst, a.covers dst = true → b.covers dst = true) :
    b.width < a.width ∨ b.width = a.width ∧ ∀ dst, b.covers dst = true → a.covers dst = true := by
  obtain ⟨m, hm, hmem, -, hwidth⟩ := ha.covered
  obtain ⟨n, hn, -, -, hwidth'⟩ := hb.covered
  have hsub : m.Subnet n := fun dst hdst =>
    (Subnet.covers_iff hn).symm.trans (h dst ((Subnet.covers_iff hm).trans hdst))
  have hle := hsub.prefixlen_le
  by_cases hlt : n.prefixlen < m.prefixlen
  · exact .inl (by omega)
  · refine .inr ⟨by omega, fun dst hdst => ?_⟩
    rw [Subnet.covers_iff hn] at hdst
    rw [Subnet.covers_iff hm]
    have hself := m.contains_networkAddress
    exact IPNetwork.subnet_of_overlap (hsub _ hself) hself (by omega) dst hdst

/-- An entry that matches less than another one weighs more. -/
theorem weight_lt_of_ssubset (ha : a.Valid v) (hb : b.Valid v) (hpa : a.PlainPorts)
    (hpb : b.PlainPorts) (h : a.matchSet udp ⊂ b.matchSet udp) :
    subnetWeight b < subnetWeight a := by
  obtain ⟨hcovers, hadmits⟩ := nested_of_subset ha h.subset
  rw [weight_lt_iff]
  rcases portWeight_of_nested ha hb hpa hpb hadmits with hlt | ⟨heq, hback⟩
  · exact .inl hlt
  rcases width_of_nested ha hb hcovers with hlt | ⟨-, hback'⟩
  · exact .inr ⟨heq, .inl hlt⟩
  · exact absurd (subset_of_nested hback' hback) h.not_subset

/-- Of two entries that match the same, an exclude weighs more than an include. -/
theorem weight_lt_of_eq (ha : a.Valid v) (hb : b.Valid v) (hpa : a.PlainPorts)
    (hpb : b.PlainPorts) (h : a.matchSet udp = b.matchSet udp) (hea : a.exclude = true)
    (heb : b.exclude = false) : subnetWeight b < subnetWeight a := by
  obtain ⟨hcovers, hadmits⟩ := nested_of_subset ha h.subset
  obtain ⟨hcovers', hadmits'⟩ := nested_of_subset hb h.superset
  rw [weight_lt_iff]
  rcases portWeight_of_nested ha hb hpa hpb hadmits with hlt | ⟨heq, -⟩
  · exact .inl hlt
  rcases width_of_nested ha hb hcovers with hlt | ⟨hwidth, -⟩
  · exact .inr ⟨heq, .inl hlt⟩
  · exact .inr ⟨heq, .inr ⟨hwidth, by rw [hea, heb]; decide⟩⟩

end

/-! ## The entry that decides -/

section
variable {v : Version} {udp : Bool} {port : Int} {mark : String} {subnets subnets' : List Subnet}
  {table table' : Table} {listening : Nat → Bool} {p : Packet} {s : Subnet}

/-- The packet comes to the rules of the entries. -/
structure Reaches (p : Packet) : Prop where
  iifname : p.iifname = proxyIngressInterface
  foreign : p.isLocal = false
  fresh : p.hasSocket = false

/-- A matching entry of maximal weight. -/
structure Decisive (udp : Bool) (subnets : List Subnet) (p : Packet) (s : Subnet) : Prop where
  mem : s ∈ subnets
  selects : s.selects udp p = true
  maximal : ∀ s' ∈ subnets, s'.selects udp p = true → subnetWeight s' ≤ subnetWeight s

/-- What an entry makes of a packet: an include gives it to the proxy, if the proxy listens. -/
def verdictOf (listening : Nat → Bool) (port : Nat) (mark : String) (p : Packet) (s : Subnet) :
    Packet × Bool :=
  if s.exclude || !listening port then (p, true)
  else ({ p with mark := markValue mark, proxy := some port }, true)

/-- Where an entry matches, one of maximal weight does. -/
theorem exists_decisive (hs : s ∈ subnets) (h : s.selects udp p = true) :
    ∃ s, Decisive udp subnets p s := by
  cases hf : (sortSubnets subnets).find? (·.selects udp p) with
  | none => exact absurd h (List.find?_eq_none.mp hf s (mem_sortSubnets.mpr hs))
  | some a =>
    refine ⟨a, mem_sortSubnets.mp (List.mem_of_find?_eq_some hf), List.find?_some hf, fun b hb hsel => ?_⟩
    exact find?_precedence (sortSubnets_sorted subnets) hf (mem_sortSubnets.mpr hb) hsel

/-- The verdict is that of any matching entry of maximal weight. -/
theorem eval_of_decisive (h : renderTproxyTable port (familyOf v) subnets udp mark = .ok table)
    (hp : Reaches p) (hd : Decisive udp subnets p s) :
    table.eval listening "prerouting" p = verdictOf listening port.toNat mark p s := by
  rw [eval_prerouting h hp.iifname hp.foreign hp.fresh]
  cases hf : (sortSubnets subnets).find? (·.decides listening port.toNat udp p) with
  | none =>
    have hnot := List.find?_eq_none.mp hf s (mem_sortSubnets.mpr hd.mem)
    simp only [Subnet.decides, hd.selects, Bool.true_and, Bool.or_eq_true, not_or,
      Bool.not_eq_true] at hnot
    simp [verdictOf, hnot]
  | some a =>
    have hdecides : a.decides listening port.toNat udp p = true := List.find?_some hf
    obtain ⟨hsel, hends⟩ := Bool.and_eq_true_iff.mp hdecides
    have hle := hd.maximal a (mem_sortSubnets.mp (List.mem_of_find?_eq_some hf)) hsel
    by_cases hs : (s.exclude || listening port.toNat) = true
    · -- both end the evaluation, so they weigh the same
      have hge := find?_precedence (sortSubnets_sorted subnets) hf (mem_sortSubnets.mpr hd.mem)
        (show s.decides listening port.toNat udp p = true by rw [Subnet.decides, hd.selects, hs]; rfl)
      have hexclude := (weight_eq_iff.mp (le_antisymm hle hge)).2.2
      cases ha : a.exclude <;> simp_all [subnetOutcome, verdictOf]
    · -- nobody listens, so only an exclude ends the evaluation
      cases ha : a.exclude <;> simp_all [subnetOutcome, verdictOf]

/-- A packet no entry matches is left alone. -/
theorem eval_of_unmatched (h : renderTproxyTable port (familyOf v) subnets udp mark = .ok table)
    (hp : Reaches p) (hnone : ∀ s ∈ subnets, s.selects udp p = false) :
    table.eval listening "prerouting" p = (p, true) := by
  rw [eval_prerouting h hp.iifname hp.foreign hp.fresh]
  have hf : (sortSubnets subnets).find? (·.decides listening port.toNat udp p) = none :=
    List.find?_eq_none.mpr fun s hs => by
      rw [Subnet.decides, hnone s (mem_sortSubnets.mp hs)]
      simp
  rw [hf]

theorem Decisive.of_mem_iff (h : ∀ s, s ∈ subnets' ↔ s ∈ subnets) (hd : Decisive udp subnets p s) :
    Decisive udp subnets' p s :=
  ⟨(h s).mpr hd.mem, hd.selects, fun s' hs' => hd.maximal s' ((h s').mp hs')⟩

/-- The verdict depends on which entries there are, not on their order or number. -/
theorem eval_of_mem_iff (h : renderTproxyTable port (familyOf v) subnets udp mark = .ok table)
    (h' : renderTproxyTable port (familyOf v) subnets' udp mark = .ok table')
    (hmem : ∀ s, s ∈ subnets' ↔ s ∈ subnets) (hp : Reaches p) :
    table'.eval listening "prerouting" p = table.eval listening "prerouting" p := by
  by_cases hmatch : ∃ s ∈ subnets, s.selects udp p = true
  · obtain ⟨s, hs, hsel⟩ := hmatch
    obtain ⟨a, ha⟩ := exists_decisive hs hsel
    rw [eval_of_decisive h hp ha, eval_of_decisive h' hp (ha.of_mem_iff hmem)]
  · have hnone (s : Subnet) (hs : s ∈ subnets) : s.selects udp p = false := by
      by_contra hsel
      exact hmatch ⟨s, hs, by simpa using hsel⟩
    rw [eval_of_unmatched h hp hnone, eval_of_unmatched h' hp fun s hs => hnone s ((hmem s).mp hs)]

theorem valid_of_rendered (h : renderTproxyTable port (familyOf v) subnets udp mark = .ok table)
    (hs : s ∈ subnets) : s.Valid v := by
  obtain ⟨-, -, rules, hrules, -⟩ := renderTproxyTable_eq_ok.mp h
  exact renderSubnets_eq_ok.mp ⟨rules, hrules⟩ s (mem_sortSubnets.mpr hs)

/-- What the precedence of a rendered list of entries comes to. -/
structure Precedence (v : Version) (port : Int) (udp : Bool) (mark : String) (subnets : List Subnet)
    (table : Table) : Prop where
  /-- A matching entry of maximal weight gives the verdict, and there is one if any matches. -/
  verdict : ∀ listening p, Reaches p →
    (∀ s, Decisive udp subnets p s →
      table.eval listening "prerouting" p = verdictOf listening port.toNat mark p s) ∧
    ((∃ s, Decisive udp subnets p s) ∨
      (∀ s ∈ subnets, s.selects udp p = false) ∧ table.eval listening "prerouting" p = (p, true))
  /-- Neither the order nor the number of occurrences matters. -/
  order : ∀ subnets' table', (∀ s, s ∈ subnets' ↔ s ∈ subnets) →
    renderTproxyTable port (familyOf v) subnets' udp mark = .ok table' → ∀ listening p, Reaches p →
      table'.eval listening "prerouting" p = table.eval listening "prerouting" p
  /-- The narrower of two entries takes precedence. -/
  narrower : ∀ a ∈ subnets, ∀ b ∈ subnets, a.matchSet udp ⊂ b.matchSet udp →
    subnetWeight b < subnetWeight a ∧ ∀ p ∈ a.matchSet udp, ¬ Decisive udp subnets p b
  /-- Of two entries that match the same, the exclude wins. -/
  exclude : ∀ a ∈ subnets, ∀ b ∈ subnets, a.matchSet udp = b.matchSet udp → a.exclude = true →
    b.exclude = false → subnetWeight b < subnetWeight a ∧ ∀ p ∈ a.matchSet udp, ¬ Decisive udp subnets p b

theorem not_decisive {a b : Subnet} (ha : a ∈ subnets) (h : subnetWeight b < subnetWeight a)
    (hp : p ∈ a.matchSet udp) : ¬ Decisive udp subnets p b :=
  fun hd => absurd h (hd.maximal a ha hp.2).not_gt

/-- An exclude of one network inside an included one. -/
def exampleSubnets : List Subnet :=
  [⟨afInet, 8, false, "10.0.0.0", 0, 0⟩, ⟨afInet, 16, true, "10.1.0.0", 0, 0⟩,
    ⟨afInet, 8, false, "10.0.0.0", 53, 53⟩]

end

end NftTproxy
end ShuttleGate
