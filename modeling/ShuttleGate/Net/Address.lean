import Mathlib.Data.Nat.Basic
import Mathlib.Tactic.Common
import Mathlib.Tactic.Ring

/-! # Addresses, networks and interfaces

IPv4 and IPv6 addresses with an optional IPv6 zone, networks without host bits and interface
addresses, with the predicates and the containment test of the usual address library. A prefix
of one family covers an aligned block of values; two blocks are nested or disjoint
(`Block.mem_of_overlap`), which is what longest-prefix precedence rests on. -/

namespace Net

/-! ## Aligned blocks -/

/-- `x` lies in the aligned block of size `2 ^ k` that contains `base`. -/
def Block.Mem (k base x : Nat) : Prop := x / 2 ^ k = base / 2 ^ k

instance : Decidable (Block.Mem k base x) := inferInstanceAs (Decidable (_ = _))

namespace Block

theorem mem_self : Mem k b b := rfl

theorem Mem.coarser (h : Mem k b x) (hk : k ≤ l) : Mem l b x := by
  obtain ⟨d, rfl⟩ := Nat.exists_eq_add_of_le hk
  unfold Mem at *
  rw [Nat.pow_add, ← Nat.div_div_eq_div_mul, h, Nat.div_div_eq_div_mul]

/-- Two blocks with a common element are nested: the finer one lies in the coarser one. -/
theorem mem_of_overlap (hb : Mem k b x) (hc : Mem l c x) (hk : k ≤ l) (hy : Mem k b y) :
    Mem l c y := by
  have h1 := hb.coarser hk
  have h2 := hy.coarser hk
  unfold Mem at *
  omega

theorem mem_iff_of_aligned (hb : b % 2 ^ k = 0) : Mem k b x ↔ b ≤ x ∧ x < b + 2 ^ k := by
  have hpos : 0 < 2 ^ k := Nat.two_pow_pos k
  obtain ⟨q, rfl⟩ := Nat.dvd_of_mod_eq_zero hb
  unfold Mem
  rw [Nat.mul_div_cancel_left q hpos, Nat.div_eq_iff hpos, Nat.mul_comm (2 ^ k) q]
  omega

end Block

/-! ## Addresses -/

inductive Version
  | v4
  | v6
  deriving DecidableEq, Repr

namespace Version

/-- The largest prefix length of the family. -/
def width : Version → Nat
  | v4 => 32
  | v6 => 128

def number : Version → Nat
  | v4 => 4
  | v6 => 6

end Version

/-- The zone identifier of an IPv6 address, the text after `%`. -/
structure ScopeId where
  text : String
  nonempty : text ≠ ""
  plain : ∀ c ∈ text.toList, c ≠ '%' ∧ c ≠ '/'
  deriving DecidableEq

inductive IPAddress
  | v4 (ip : BitVec 32)
  | v6 (ip : BitVec 128) (scope : Option ScopeId)
  deriving DecidableEq

namespace IPAddress

def version : IPAddress → Version
  | v4 _ => .v4
  | v6 _ _ => .v6

/-- The address as a number. -/
def value : IPAddress → Nat
  | v4 ip => ip.toNat
  | v6 ip _ => ip.toNat

def scopeId : IPAddress → Option ScopeId
  | v4 _ => none
  | v6 _ scope => scope

/-- The address of a family with a given number and no zone. -/
def ofValue : Version → Nat → IPAddress
  | .v4, n => v4 (.ofNat 32 n)
  | .v6, n => v6 (.ofNat 128 n) none

/-- The same address without its zone. -/
def withoutScope : IPAddress → IPAddress
  | v4 ip => v4 ip
  | v6 ip _ => v6 ip none

theorem value_lt (a : IPAddress) : a.value < 2 ^ a.version.width := by
  cases a <;> exact BitVec.isLt _

@[simp] theorem version_ofValue : (ofValue v n).version = v := by cases v <;> rfl

@[simp] theorem version_withoutScope (a : IPAddress) : a.withoutScope.version = a.version := by
  cases a <;> rfl

@[simp] theorem value_withoutScope (a : IPAddress) : a.withoutScope.value = a.value := by
  cases a <;> rfl

theorem value_ofValue (h : n < 2 ^ v.width) : (ofValue v n).value = n := by
  cases v <;> simpa [ofValue, value, Version.width] using Nat.mod_eq_of_lt h

/-- The IPv4 address inside an IPv4-mapped IPv6 address. -/
def ipv4Mapped : IPAddress → Option (BitVec 32)
  | v4 _ => none
  | v6 ip _ => if ip.toNat / 2 ^ 32 = 0xffff then some (.ofNat 32 ip.toNat) else none

/-- A predicate of the address, taken of the mapped address where there is one. -/
private def byMapped (p4 p6 : Nat → Bool) : IPAddress → Bool
  | v4 ip => p4 ip.toNat
  | v6 ip scope =>
    match (v6 ip scope).ipv4Mapped with
    | some mapped => p4 mapped.toNat
    | none => p6 ip.toNat

def isUnspecified : IPAddress → Bool := byMapped (· == 0) (· == 0)

/-- In 224.0.0.0/4 or ff00::/8. -/
def isMulticast : IPAddress → Bool := byMapped (· / 2 ^ 28 == 0xe) (· / 2 ^ 120 == 0xff)

/-- In 169.254.0.0/16 or fe80::/10. -/
def isLinkLocal : IPAddress → Bool := byMapped (· / 2 ^ 16 == 0xa9fe) (· / 2 ^ 118 == 0x3fa)

theorem isMulticast_v4 {ip : BitVec 32} (h : ip.toNat / 2 ^ 28 = 0xe) :
    (v4 ip).isMulticast = true :=
  beq_iff_eq.mpr h

theorem isMulticast_v6 {ip : BitVec 128} (h : ip.toNat / 2 ^ 120 = 0xff) :
    (v6 ip scope).isMulticast = true := by
  have hm : (v6 ip scope).ipv4Mapped = none := if_neg (by omega)
  rw [isMulticast, byMapped, hm]
  exact beq_iff_eq.mpr h

end IPAddress

/-! ## Networks -/

/-- A network: an address without host bits and a prefix length. -/
structure IPNetwork where
  networkAddress : IPAddress
  prefixlen : Nat
  le_width : prefixlen ≤ networkAddress.version.width
  hostBits : networkAddress.value % 2 ^ (networkAddress.version.width - prefixlen) = 0
  deriving DecidableEq

namespace IPNetwork

def version (n : IPNetwork) : Version := n.networkAddress.version

/-- The number of host bits. -/
def hostLen (n : IPNetwork) : Nat := n.version.width - n.prefixlen

/-- `address in network`: the same family and the same prefix; zones do not matter. -/
def contains (n : IPNetwork) (a : IPAddress) : Bool :=
  n.version = a.version && decide (Block.Mem n.hostLen n.networkAddress.value a.value)

theorem contains_iff {n : IPNetwork} :
    n.contains a = true ↔
      n.version = a.version ∧ Block.Mem n.hostLen n.networkAddress.value a.value := by
  simp [contains]

/-- The last address of the network. -/
def broadcastAddress (n : IPNetwork) : IPAddress :=
  .ofValue n.version (n.networkAddress.value + (2 ^ n.hostLen - 1))

theorem prefixlen_le (n : IPNetwork) : n.prefixlen ≤ n.version.width := n.le_width

theorem value_bounds {n : IPNetwork} (h : n.contains a = true) :
    n.networkAddress.value ≤ a.value ∧ a.value < n.networkAddress.value + 2 ^ n.hostLen :=
  (Block.mem_iff_of_aligned n.hostBits).mp (contains_iff.mp h).2

theorem end_le (n : IPNetwork) :
    n.networkAddress.value + 2 ^ n.hostLen ≤ 2 ^ n.version.width := by
  obtain ⟨q, hq⟩ := Nat.dvd_of_mod_eq_zero n.hostBits
  have hlt := n.networkAddress.value_lt
  have hsplit : 2 ^ n.version.width = 2 ^ n.hostLen * 2 ^ n.prefixlen := by
    rw [← Nat.pow_add, hostLen, Nat.sub_add_cancel n.prefixlen_le]
  change n.networkAddress.value < 2 ^ n.version.width at hlt
  change n.networkAddress.value = 2 ^ n.hostLen * q at hq
  rw [hsplit, hq] at hlt ⊢
  have : q < 2 ^ n.prefixlen := Nat.lt_of_mul_lt_mul_left hlt
  calc 2 ^ n.hostLen * q + 2 ^ n.hostLen = 2 ^ n.hostLen * (q + 1) := by ring
    _ ≤ 2 ^ n.hostLen * 2 ^ n.prefixlen := Nat.mul_le_mul_left _ this

theorem value_broadcastAddress (n : IPNetwork) :
    n.broadcastAddress.value = n.networkAddress.value + (2 ^ n.hostLen - 1) := by
  have := n.end_le
  have hpos := Nat.two_pow_pos n.hostLen
  exact IPAddress.value_ofValue (by omega)

theorem contains_networkAddress (n : IPNetwork) : n.contains n.networkAddress = true :=
  contains_iff.mpr ⟨rfl, Block.mem_self⟩

theorem contains_broadcastAddress (n : IPNetwork) : n.contains n.broadcastAddress = true := by
  refine contains_iff.mpr ⟨IPAddress.version_ofValue.symm, ?_⟩
  have hpos := Nat.two_pow_pos n.hostLen
  refine (Block.mem_iff_of_aligned n.hostBits).mpr ?_
  rw [value_broadcastAddress]
  change _ ∧ _ < _ + 2 ^ n.hostLen
  omega

/-- Every address of `m` lies in `n`. -/
def Subnet (m n : IPNetwork) : Prop := ∀ a, m.contains a = true → n.contains a = true

theorem Subnet.rfl (n : IPNetwork) : n.Subnet n := fun _ => id

/-- Overlapping networks are nested, the one with the longer prefix inside. -/
theorem subnet_of_overlap {m n : IPNetwork} (hm : m.contains a = true) (hn : n.contains a = true)
    (h : n.prefixlen ≤ m.prefixlen) : m.Subnet n := by
  intro b hb
  obtain ⟨vm, hm⟩ := contains_iff.mp hm
  obtain ⟨vn, hn⟩ := contains_iff.mp hn
  obtain ⟨vb, hb⟩ := contains_iff.mp hb
  have hv : m.version = n.version := vm.trans vn.symm
  refine contains_iff.mpr ⟨hv.symm.trans vb, ?_⟩
  exact Block.mem_of_overlap hm hn (by unfold hostLen; rw [hv]; omega) hb

theorem Subnet.version_eq {m n : IPNetwork} (h : m.Subnet n) : m.version = n.version :=
  (contains_iff.mp (h _ m.contains_networkAddress)).1.symm

/-- A subnet has at least the prefix length of the network around it. -/
theorem Subnet.prefixlen_le {m n : IPNetwork} (h : m.Subnet n) : n.prefixlen ≤ m.prefixlen := by
  have h1 := value_bounds (h _ m.contains_networkAddress)
  have h2 := value_bounds (h _ m.contains_broadcastAddress)
  rw [value_broadcastAddress] at h2
  have hpos := Nat.two_pow_pos m.hostLen
  have hle : 2 ^ m.hostLen ≤ 2 ^ n.hostLen := by omega
  have hlen := (Nat.pow_le_pow_iff_right (by decide : 1 < 2)).mp hle
  have hm := m.prefixlen_le
  have hn := n.prefixlen_le
  have hv := h.version_eq
  unfold hostLen at hlen
  rw [hv] at hm hlen
  omega

end IPNetwork

/-! ## Interfaces -/

/-- An interface: an address with the prefix length of its network. -/
structure IPInterface where
  address : IPAddress
  prefixlen : Nat
  le_width : prefixlen ≤ address.version.width
  deriving DecidableEq

namespace IPInterface

def version (i : IPInterface) : Version := i.address.version

/-- The interface's address; a zone is dropped. -/
def ip (i : IPInterface) : IPAddress := i.address.withoutScope

theorem masked_lt {w k x : Nat} (hx : x < 2 ^ w) : x / 2 ^ k * 2 ^ k < 2 ^ w :=
  lt_of_le_of_lt (Nat.div_mul_le_self x (2 ^ k)) hx

end IPInterface

/-- The network of an address with a prefix length, host bits cleared. An address that has host
bits loses its zone with them. -/
def ipNetwork (a : IPAddress) (prefixlen : Nat) (h : prefixlen ≤ a.version.width) : IPNetwork :=
  if hb : a.value % 2 ^ (a.version.width - prefixlen) = 0 then
    ⟨a, prefixlen, h, hb⟩
  else
    let k := a.version.width - prefixlen
    ⟨.ofValue a.version (a.value / 2 ^ k * 2 ^ k), prefixlen, by simpa using h, by
      rw [IPAddress.version_ofValue, IPAddress.value_ofValue (IPInterface.masked_lt a.value_lt)]
      exact Nat.mul_mod_left _ _⟩

@[simp] theorem version_ipNetwork : (ipNetwork a p h).version = a.version := by
  unfold ipNetwork; split <;> simp [IPNetwork.version]

@[simp] theorem prefixlen_ipNetwork : (ipNetwork a p h).prefixlen = p := by
  unfold ipNetwork; split <;> rfl

theorem hostLen_ipNetwork : (ipNetwork a p h).hostLen = a.version.width - p := by
  simp [IPNetwork.hostLen]

theorem value_ipNetwork :
    (ipNetwork a p h).networkAddress.value =
      a.value / 2 ^ (a.version.width - p) * 2 ^ (a.version.width - p) := by
  unfold ipNetwork
  split
  · next hb => exact (Nat.div_mul_cancel (Nat.dvd_of_mod_eq_zero hb)).symm
  · exact IPAddress.value_ofValue (IPInterface.masked_lt a.value_lt)

/-- The network of an address contains exactly the addresses with the same prefix. -/
theorem contains_ipNetwork :
    (ipNetwork a p h).contains b = true ↔
      a.version = b.version ∧ Block.Mem (a.version.width - p) a.value b.value := by
  rw [IPNetwork.contains_iff, version_ipNetwork, hostLen_ipNetwork, value_ipNetwork, Block.Mem,
    Nat.mul_div_cancel _ (Nat.two_pow_pos _), Block.Mem]

/-- The network an interface lies in. -/
def IPInterface.network (i : IPInterface) : IPNetwork := ipNetwork i.address i.prefixlen i.le_width

@[simp] theorem IPInterface.version_network (i : IPInterface) : i.network.version = i.version :=
  version_ipNetwork

end Net
