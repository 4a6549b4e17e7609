import Mathlib.Algebra.Group.Nat.Defs
import Mathlib.Data.Nat.Basic
import Mathlib.Tactic.Common

/-! # Packed numbers

Fixed-width unsigned numbers as bytes in either byte order. `unpack_pack` is the round trip in
one order; `unpack_swapped` is what a host-to-network conversion does to a field that was
written in network order and read in the host's. -/

namespace Net

inductive ByteOrder
  | little
  | big
  deriving DecidableEq

namespace ByteOrder

/-- The low `k` bytes of a number, least significant first. -/
def lowBytes : Nat → Nat → List UInt8
  | 0, _ => []
  | k + 1, n => .ofNat n :: lowBytes k (n / 256)

/-- The number of a byte string, least significant byte first. -/
def ofLowBytes : List UInt8 → Nat
  | [] => 0
  | b :: bs => b.toNat + 256 * ofLowBytes bs

/-- A number as `k` bytes. -/
def pack : ByteOrder → Nat → Nat → List UInt8
  | little, k, n => lowBytes k n
  | big, k, n => (lowBytes k n).reverse

def unpack : ByteOrder → List UInt8 → Nat
  | little, bs => ofLowBytes bs
  | big, bs => ofLowBytes bs.reverse

@[simp] theorem length_lowBytes (k n : Nat) : (lowBytes k n).length = k := by
  induction k generalizing n with
  | zero => rfl
  | succ k ih => exact congrArg Nat.succ (ih (n / 256))

@[simp] theorem length_pack (order : ByteOrder) (k n : Nat) : (order.pack k n).length = k := by
  cases order <;> simp [pack]

theorem ofLowBytes_lowBytes (k n : Nat) : ofLowBytes (lowBytes k n) = n % 256 ^ k := by
  induction k generalizing n with
  | zero => exact (Nat.mod_one n).symm
  | succ k ih =>
    have hb : (UInt8.ofNat n).toNat = n % 256 := UInt8.toNat_ofNat'
    rw [lowBytes, ofLowBytes, ih, hb, Nat.pow_succ', Nat.mod_mul]

theorem unpack_pack (order : ByteOrder) (h : n < 256 ^ k) : order.unpack (order.pack k n) = n := by
  cases order
  · exact (ofLowBytes_lowBytes k n).trans (Nat.mod_eq_of_lt h)
  · rw [pack, unpack, List.reverse_reverse, ofLowBytes_lowBytes, Nat.mod_eq_of_lt h]

/-- The two bytes of a 16-bit number exchanged. -/
def swap16 (n : Nat) : Nat := n % 256 * 256 + n / 256

/-- Two bytes read in one order are the swap of the same bytes read in the other. -/
theorem swap16_unpack_little (a b : UInt8) : swap16 (little.unpack [a, b]) = big.unpack [a, b] := by
  have ha := a.toNat_lt
  simp only [swap16, unpack, List.reverse_cons, List.reverse_nil, List.nil_append,
    List.cons_append, ofLowBytes]
  omega

end ByteOrder

end Net
