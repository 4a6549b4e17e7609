import ShuttleGate.Config
import ShuttleGate.Net.Nft
import Mathlib.Data.Prod.Lex

/-! # The transparent-proxy ruleset

`renderTproxyTable` turns the subnet list sshuttle hands over into one nftables table.
`eval_prerouting` says what the table does to a packet: the first subnet in precedence order
that matches decides, and `subnetWeight` orders by port range, then by prefix length, then
excludes before includes. -/

namespace ShuttleGate

open Net Nft

namespace NftTproxy

def afInet : Int := 2
def afInet6 : Int := 10
def proxyIngressInterface : String := "wg0"

def familyOf : Version → Int
  | .v4 => afInet
  | .v6 => afInet6

/-- One entry of sshuttle's subnet list. -/
structure Subnet where
  family : Int
  width : Int
  exclude : Bool
  network : String
  firstPort : Int
  lastPort : Int
  deriving DecidableEq

def nftTableName (port : Int) : Except String String := do
  raiseIf (¬ (1 ≤ port ∧ port ≤ 65535)) s!"invalid transparent proxy port: {port}"
  return s!"shuttle_gate_tproxy_{port}"

/-- The family a socket constant stands for; its token and width are the family's own. -/
def familyTokens (family : Int) : Except String Version :=
  if family = afInet then .ok .v4
  else if family = afInet6 then .ok .v6
  else .error s!"unsupported address family: {family}"

@[simp] theorem familyTokens_familyOf (v : Version) : familyTokens (familyOf v) = .ok v := by
  cases v <;> rfl

/-- Most specific first: narrow port ranges, then long prefixes, then excludes. -/
def subnetWeight (s : Subnet) : Int ×ₗ Int ×ₗ Bool :=
  toLex (-s.lastPort + (if s.firstPort = 0 then -65535 else s.firstPort),
    toLex (s.width, s.exclude))

/-- `sorted(subnets, key=_subnet_weight, reverse=True)`. -/
def sortSubnets (subnets : List Subnet) : List Subnet :=
  subnets.insertionSort fun a b => subnetWeight b ≤ subnetWeight a

theorem mem_sortSubnets : s ∈ sortSubnets subnets ↔ s ∈ subnets := List.mem_insertionSort _

theorem sortSubnets_sorted (subnets : List Subnet) :
    (sortSubnets subnets).Pairwise fun a b => subnetWeight b ≤ subnetWeight a :=
  haveI : Std.Total fun a b : Subnet => subnetWeight b ≤ subnetWeight a :=
    ⟨fun _ _ => le_total _ _⟩
  haveI : IsTrans Subnet fun a b => subnetWeight b ≤ subnetWeight a :=
    ⟨fun _ _ _ h h' => h'.trans h⟩
  List.pairwise_insertionSort _ _

/-- `ip_network(f"{network}/{width}", strict=False)`. -/
def ipNetworkOf (network : String) (width : Nat) : Option IPNetwork :=
  match IPAddress.ofText network with
  | none => none
  | some a => if h : width ≤ a.version.width then some (ipNetwork a width h) else none

/-- The network of an entry, when its text denotes one. -/
def Subnet.parsed (s : Subnet) : Option IPNetwork := ipNetworkOf s.network s.width.toNat

/-- The checks of one entry. -/
def checkSubnet (family : Int) (v : Version) (s : Subnet) : Except String IPNetwork := do
  raiseIf (s.family ≠ family) "sshuttle passed a subnet for the wrong address family"
  raiseIf (¬ (0 ≤ s.width ∧ s.width ≤ v.width)) s!"invalid subnet width: {s.width}"
  match s.parsed with
  | none => .error s!"'{s.network}/{s.width}' does not appear to be an IPv4 or IPv6 network"
  | some parsed => do
    raiseIf (parsed.version ≠ v) s!"subnet family mismatch: {s.network}/{s.width}"
    raiseIf (¬ (0 ≤ s.firstPort ∧ s.firstPort ≤ s.lastPort ∧ s.lastPort ≤ 65535))
      s!"invalid port range: {s.firstPort}-{s.lastPort}"
    return parsed

/-- `_match` -/
def matchItems (protocol : Protocol) (network : IPNetwork) (first last : Nat) : List Item :=
  [.daddr network, if first ≠ 0 then .dport protocol first last else .l4proto protocol]

/-- The protocols a table captures. -/
def protocols (udp : Bool) : List Protocol := if udp then [.tcp, .udp] else [.tcp]

/-- The rules of one entry. -/
def subnetRules (port : Nat) (udp : Bool) (mark : String) (s : Subnet) (parsed : IPNetwork) :
    List Rule :=
  (protocols udp).map fun protocol =>
    matchItems protocol parsed s.firstPort.toNat s.lastPort.toNat ++
      if s.exclude then [.verdict .return]
      else [.tproxyTo port, .markSet mark, .verdict .accept]

/-- The rules of the whole list; the first bad entry raises. -/
def renderSubnets (port : Nat) (family : Int) (v : Version) (udp : Bool) (mark : String) :
    List Subnet → Except String (List Rule)
  | [] => .ok []
  | s :: rest => do
    let parsed ← checkSubnet family v s
    let rules ← renderSubnets port family v udp mark rest
    return subnetRules port udp mark s parsed ++ rules

def checkMark (mark : String) : Except String Unit :=
  raiseIf (mark.toList.take 2 ≠ ['0', 'x'] ∨ mark.toList.drop 2 = [] ∨
    ¬ (mark.toList.drop 2).all isHexDigit) s!"invalid packet mark: {mark}"

/-- The rules before the subnet list. -/
def headerRules (mark : String) : List Rule :=
  [[.iifname false proxyIngressInterface, .verdict .return],
    [.fibLocal, .verdict .return],
    [.socketTransparent, .markSet mark, .verdict .accept]]

/-- The table for one family. -/
def tproxyTable (v : Version) (name mark : String) (rules : List Rule) : Table where
  family := .ofVersion v
  name := name
  chains := [{
    name := "prerouting"
    hook := "prerouting priority mangle"
    policy := .accept
    rules := headerRules mark ++ rules }]

/-- One atomic, WireGuard-ingress-only table; `Table.text` is the text handed to `nft`. -/
def renderTproxyTable (port family : Int) (subnets : List Subnet) (udp : Bool) (mark : String) :
    Except String Table := do
  let v ← familyTokens family
  checkMark mark
  let table ← nftTableName port
  let rules ← renderSubnets port.toNat family v udp mark (sortSubnets subnets)
  return tproxyTable v table mark rules

/-! ## Which packets an entry matches -/

/-- An entry the renderer takes for a family. -/
structure Subnet.Valid (v : Version) (s : Subnet) : Prop where
  family : s.family = familyOf v
  width : 0 ≤ s.width ∧ s.width ≤ v.width
  parsed : ∃ n, s.parsed = some n ∧ n.version = v
  ports : 0 ≤ s.firstPort ∧ s.firstPort ≤ s.lastPort ∧ s.lastPort ≤ 65535

theorem checkSubnet_eq_ok :
    checkSubnet (familyOf v) v s = .ok n ↔ s.Valid v ∧ s.parsed = some n := by
  unfold checkSubnet
  cases hs : s.parsed with
  | none => simp
  | some m =>
    simp only [raiseIf_bind_eq_ok, ne_eq, Decidable.not_not, Option.some.injEq]
    constructor
    · rintro ⟨hf, hw, hv, hp, hn⟩
      exact ⟨⟨hf, hw, ⟨m, hs, hv⟩, hp⟩, Except.ok.inj hn⟩
    · rintro ⟨⟨hf, hw, ⟨m', hm', hv⟩, hp⟩, rfl⟩
      obtain rfl := Option.some.inj (hs.symm.trans hm')
      exact ⟨hf, hw, hv, hp, rfl⟩

/-- The entry's network contains the address. -/
def Subnet.covers (s : Subnet) (dst : IPAddress) : Bool := s.parsed.any (·.contains dst)

theorem Subnet.covers_iff {s : Subnet} (h : s.parsed = some n) : s.covers dst = n.contains dst := by
  simp [covers, h]

/-- An entry of one family covers no address of the other. -/
theorem Subnet.Valid.version_eq {s : Subnet} (h : s.Valid v) (hc : s.covers dst = true) :
    dst.version = v := by
  obtain ⟨n, hn, hv⟩ := h.parsed
  rw [covers_iff hn] at hc
  rw [← hv, (IPNetwork.contains_iff.mp hc).1]

/-- The entry has a rule that matches the packet. -/
def Subnet.selects (udp : Bool) (p : Packet) (s : Subnet) : Bool :=
  s.covers p.daddr && (protocols udp).contains p.protocol &&
    (s.firstPort.toNat == 0 ||
      (decide (s.firstPort.toNat ≤ p.dport) && decide (p.dport ≤ s.lastPort.toNat)))

/-- An entry without ports. -/
def Subnet.Portless (s : Subnet) : Prop := s.firstPort = 0 ∧ s.lastPort = 0

theorem Subnet.selects_portless {s : Subnet} (h : s.Portless) :
    s.selects udp p = (s.covers p.daddr && (protocols udp).contains p.protocol) := by
  simp [selects, h.1]

/-- Portless entries are ordered by prefix length, excludes before includes. -/
theorem weight_le_portless (ha : Subnet.Portless a) (hb : Subnet.Portless b) :
    subnetWeight a ≤ subnetWeight b ↔
      a.width < b.width ∨ a.width = b.width ∧ a.exclude ≤ b.exclude := by
  simp [subnetWeight, Prod.Lex.toLex_le_toLex, ha.1, ha.2, hb.1, hb.2]

/-! ## Evaluation -/

section
variable {listening : Nat → Bool} {p : Packet}

/-- The match of one rule: the network, the protocol and the port range. -/
def itemsHold (protocol : Protocol) (n : IPNetwork) (first last : Nat) (p : Packet) : Bool :=
  n.contains p.daddr && p.protocol == protocol &&
    (first == 0 || (decide (first ≤ p.dport) && decide (p.dport ≤ last)))

theorem evalRule_matchItems :
    evalRule listening (matchItems protocol n first last ++ rest) p =
      if itemsHold protocol n first last p then evalRule listening rest p else (p, none) := by
  rw [matchItems, List.cons_append]
  cases hn : n.contains p.daddr with
  | false => simp [evalRule_break, Item.holds, hn, itemsHold]
  | true =>
    rw [evalRule_next (by simpa [Item.holds] using hn) (by simp), List.singleton_append]
    change evalRule listening _ p = _
    by_cases hf : first = 0
    · cases hp : p.protocol == protocol <;> simp [evalRule, Item.holds, Item.effect, itemsHold, *]
    · cases hp : p.protocol == protocol <;> simp [evalRule, Item.holds, Item.effect, itemsHold, *]

/-- What the rules of an entry do to a packet they match. -/
def subnetOutcome (port : Nat) (mark : String) (p : Packet) (s : Subnet) : Packet × Verdict :=
  if s.exclude then (p, .return)
  else ({ p with mark := markValue mark, proxy := some port }, .accept)

/-- The entry ends the evaluation: without a listening socket only an exclude does. -/
def Subnet.decides (listening : Nat → Bool) (port : Nat) (udp : Bool) (p : Packet) (s : Subnet) :
    Bool :=
  s.selects udp p && (s.exclude || listening port)

theorem Subnet.covers_of_decides {s : Subnet} (h : s.decides listening port udp p = true) :
    s.covers p.daddr = true := by
  simp only [decides, selects, Bool.and_eq_true] at h
  exact h.1.1.1

theorem evalRule_subnetVerdict {s : Subnet} :
    evalRule listening (if s.exclude then [.verdict .return]
      else [.tproxyTo port, .markSet mark, .verdict .accept]) p =
      if s.exclude || listening port then
        ((subnetOutcome port mark p s).1, some (subnetOutcome port mark p s).2)
      else (p, none) := by
  unfold subnetOutcome
  cases s.exclude <;> cases hl : listening port <;>
    simp [evalRule, Item.holds, Item.effect, hl]

theorem isSome_find?_itemsHold {s : Subnet} (hn : s.parsed = some n) :
    ((protocols udp).find? fun protocol =>
      itemsHold protocol n s.firstPort.toNat s.lastPort.toNat p && (s.exclude || listening port)).isSome
      = s.decides listening port udp p := by
  rw [Bool.eq_iff_iff, List.find?_isSome]
  simp only [itemsHold, Subnet.decides, Subnet.selects, Subnet.covers_iff hn, Bool.and_eq_true,
    beq_iff_eq, List.contains_iff_mem]
  constructor
  · rintro ⟨protocol, hp, ⟨⟨hd, rfl⟩, hr⟩, hl⟩
    exact ⟨⟨⟨hd, hp⟩, hr⟩, hl⟩
  · rintro ⟨⟨⟨hd, hp⟩, hr⟩, hl⟩
    exact ⟨p.protocol, hp, ⟨⟨hd, rfl⟩, hr⟩, hl⟩

/-- The rules of one entry, one per protocol. -/
theorem evalRules_subnetRules {s : Subnet} (hn : s.parsed = some n) :
    evalRules listening (subnetRules port udp mark s n) p =
      if s.decides listening port udp p then
        ((subnetOutcome port mark p s).1, some (subnetOutcome port mark p s).2)
      else (p, none) := by
  rw [subnetRules, List.map_eq_flatMap, ← isSome_find?_itemsHold hn,
    evalRules_flatMap _ fun _ => subnetOutcome port mark p s]
  · cases (protocols udp).find? _ <;> rfl
  · intro protocol _ h
    obtain ⟨hi, hl⟩ := Bool.and_eq_true_iff.mp h
    refine evalRules_cons_hit ?_
    rw [evalRule_matchItems, if_pos hi, evalRule_subnetVerdict, if_pos hl]
  · intro protocol _ h
    refine evalRules_cons_miss ?_
    rw [evalRule_matchItems, evalRule_subnetVerdict]
    split
    · next hi => rw [hi, Bool.true_and] at h; rw [if_neg (by simp [h])]
    · rfl

/-- The rules of the list come from its entries in order. -/
theorem renderSubnets_eq_ok {subnets : List Subnet} :
    (∃ rules, renderSubnets port (familyOf v) v udp mark subnets = .ok rules) ↔
      ∀ s ∈ subnets, s.Valid v := by
  induction subnets with
  | nil => simp [renderSubnets]
  | cons s rest ih =>
    rw [List.forall_mem_cons, ← ih]
    simp only [renderSubnets, bind_eq_ok]
    constructor
    · rintro ⟨_, n, hn, rules, hr, -⟩
      exact ⟨(checkSubnet_eq_ok.mp hn).1, rules, hr⟩
    · rintro ⟨hs, rules, hr⟩
      obtain ⟨n, hn, -⟩ := hs.parsed
      exact ⟨_, n, checkSubnet_eq_ok.mpr ⟨hs, hn⟩, rules, hr, rfl⟩

theorem evalRules_renderSubnets {subnets : List Subnet}
    (h : renderSubnets port (familyOf v) v udp mark subnets = .ok rules) :
    evalRules listening rules p =
      match subnets.find? (·.decides listening port udp p) with
      | some s => ((subnetOutcome port mark p s).1, some (subnetOutcome port mark p s).2)
      | none => (p, none) := by
  induction subnets generalizing rules with
  | nil => cases h; rfl
  | cons s rest ih =>
    obtain ⟨n, hn, tail, ht, hr⟩ := by simpa only [renderSubnets, bind_eq_ok] using h
    obtain rfl := Except.ok.inj hr
    have heval : evalRules listening (subnetRules port udp mark s n) p = _ :=
      evalRules_subnetRules (checkSubnet_eq_ok.mp hn).2
    cases hs : s.decides listening port udp p with
    | true =>
      rw [hs, if_pos rfl] at heval
      rw [List.find?_cons_of_pos hs, evalRules_append_hit heval]
    | false =>
      rw [hs, if_neg (by simp)] at heval
      rw [List.find?_cons_of_neg (by simp [hs]), evalRules_append_miss heval, ih ht]

/-- The rules before the list let a packet from the tunnel through that is not local and belongs
to no transparent socket. -/
theorem evalRules_headerRules (hi : p.iifname = proxyIngressInterface) (hlocal : p.isLocal = false)
    (hsock : p.hasSocket = false) : evalRules listening (headerRules mark) p = (p, none) := by
  simp [headerRules, evalRules, evalRule, Item.holds, hi, hlocal, hsock]

end

/-- What the renderer accepts and what it makes of it. -/
theorem renderTproxyTable_eq_ok {subnets : List Subnet} :
    renderTproxyTable port (familyOf v) subnets udp mark = .ok table ↔
      checkMark mark = .ok () ∧ (1 ≤ port ∧ port ≤ 65535) ∧
        ∃ rules, renderSubnets port.toNat (familyOf v) v udp mark (sortSubnets subnets) = .ok rules ∧
          tproxyTable v s!"shuttle_gate_tproxy_{port}" mark rules = table := by
  simp only [renderTproxyTable, familyTokens_familyOf, nftTableName, bind_eq_ok]
  constructor
  · rintro ⟨v', hv, u, hmark, name, ⟨_, hport, hname⟩, rules, hr, ht⟩
    cases hv; cases hname; cases ht
    exact ⟨hmark, by simpa using hport, rules, hr, rfl⟩
  · rintro ⟨hmark, hport, rules, hr, rfl⟩
    exact ⟨v, rfl, (), hmark, _, ⟨(), by simpa using hport, rfl⟩, rules, hr, rfl⟩

theorem renderTproxyTable_ok {subnets : List Subnet} (hport : 1 ≤ port ∧ port ≤ 65535)
    (hmark : checkMark mark = .ok ()) (h : ∀ s ∈ subnets, s.Valid v) :
    ∃ table, renderTproxyTable port (familyOf v) subnets udp mark = .ok table := by
  obtain ⟨rules, hr⟩ := renderSubnets_eq_ok.mpr fun s hs => h s (mem_sortSubnets.mp hs)
  exact ⟨_, renderTproxyTable_eq_ok.mpr ⟨hmark, hport, rules, hr, rfl⟩⟩

/-- The prerouting chain on a packet from the tunnel: the first entry in precedence order that
decides lets it pass, if it is an exclude, and gives it to the proxy, if it is an include; a
packet no entry decides passes. -/
theorem eval_prerouting {subnets : List Subnet} {p : Packet}
    (h : renderTproxyTable port (familyOf v) subnets udp mark = .ok table)
    (hi : p.iifname = proxyIngressInterface) (hlocal : p.isLocal = false)
    (hsock : p.hasSocket = false) :
    table.eval listening "prerouting" p =
      match (sortSubnets subnets).find? (·.decides listening port.toNat udp p) with
      | some s => ((subnetOutcome port.toNat mark p s).1, true)
      | none => (p, true) := by
  obtain ⟨-, -, rules, hr, rfl⟩ := renderTproxyTable_eq_ok.mp h
  have heval : evalRules listening (headerRules mark ++ rules) p = _ :=
    (evalRules_append_miss (evalRules_headerRules hi hlocal hsock)).trans
      (evalRules_renderSubnets hr)
  cases hf : (sortSubnets subnets).find? (·.decides listening port.toNat udp p) with
  | none =>
    rw [hf] at heval
    simp [Table.eval, tproxyTable, Chain.eval, heval]
  | some s =>
    rw [hf] at heval
    have hv : p.daddr.version = v :=
      (renderSubnets_eq_ok.mp ⟨rules, hr⟩ s (List.mem_of_find?_eq_some hf)).version_eq
        (Subnet.covers_of_decides (List.find?_some hf))
    cases hs : s.exclude <;>
      simp [Table.eval, tproxyTable, Chain.eval, heval, subnetOutcome, hs, Family.sees_ofVersion, hv]

/-- Packets for the namespace itself pass. -/
theorem eval_prerouting_local {subnets : List Subnet} {p : Packet}
    (h : renderTproxyTable port (familyOf v) subnets udp mark = .ok table)
    (hi : p.iifname = proxyIngressInterface) (hlocal : p.isLocal = true) :
    table.eval listening "prerouting" p = (p, true) := by
  obtain ⟨-, -, rules, -, rfl⟩ := renderTproxyTable_eq_ok.mp h
  simp [Table.eval, tproxyTable, Chain.eval, headerRules, evalRules, evalRule, Item.holds,
    Item.effect, hi, hlocal]

end NftTproxy
end ShuttleGate
