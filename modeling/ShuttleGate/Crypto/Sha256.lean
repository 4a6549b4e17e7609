import Mathlib.Data.List.Basic
import ShuttleGate.Digits

/-! # SHA-256

The digest of a byte sequence and its hexadecimal text. -/

namespace Crypto.Sha256

abbrev Word := BitVec 32

/-- The working variables of a round. -/
structure Working where
  (a b c d e f g h : Word)
  deriving DecidableEq

/-- The first 32 bits of the fractional parts of the cube roots of the first 64 primes. -/
def constants : List Word := [
  0x428a2f98, 0x71374491, 0xb5c0fbcf, 0xe9b5dba5, 0x3956c25b, 0x59f111f1, 0x923f82a4, 0xab1c5ed5,
  0xd807aa98, 0x12835b01, 0x243185be, 0x550c7dc3, 0x72be5d74, 0x80deb1fe, 0x9bdc06a7, 0xc19bf174,
  0xe49b69c1, 0xefbe4786, 0x0fc19dc6, 0x240ca1cc, 0x2de92c6f, 0x4a7484aa, 0x5cb0a9dc, 0x76f988da,
  0x983e5152, 0xa831c66d, 0xb00327c8, 0xbf597fc7, 0xc6e00bf3, 0xd5a79147, 0x06ca6351, 0x14292967,
  0x27b70a85, 0x2e1b2138, 0x4d2c6dfc, 0x53380d13, 0x650a7354, 0x766a0abb, 0x81c2c92e, 0x92722c85,
  0xa2bfe8a1, 0xa81a664b, 0xc24b8b70, 0xc76c51a3, 0xd192e819, 0xd6990624, 0xf40e3585, 0x106aa070,
  0x19a4c116, 0x1e376c08, 0x2748774c, 0x34b0bcb5, 0x391c0cb3, 0x4ed8aa4a, 0x5b9cca4f, 0x682e6ff3,
  0x748f82ee, 0x78a5636f, 0x84c87814, 0x8cc70208, 0x90befffa, 0xa4506ceb, 0xbef9a3f7, 0xc67178f2]

def initial : Working where
  a := 0x6a09e667
  b := 0xbb67ae85
  c := 0x3c6ef372
  d := 0xa54ff53a
  e := 0x510e527f
  f := 0x9b05688c
  g := 0x1f83d9ab
  h := 0x5be0cd19

/-- The big-endian bytes of a number, `n` of them. -/
def bigEndian : Nat → Nat → List (BitVec 8)
  | 0, _ => []
  | n + 1, value => bigEndian n (value / 256) ++ [.ofNat 8 value]

/-- One bit, zeros to 56 bytes modulo 64, and the length in bits. -/
def pad (message : List (BitVec 8)) : List (BitVec 8) :=
  message ++ 0x80 :: List.replicate ((119 - message.length % 64) % 64) 0 ++
    bigEndian 8 (8 * message.length)

/-- The big-endian words of a byte sequence. -/
def words : List (BitVec 8) → List Word
  | a :: b :: c :: d :: rest =>
    .ofNat 32 (((a.toNat * 256 + b.toNat) * 256 + c.toNat) * 256 + d.toNat) :: words rest
  | _ => []

/-- The message schedule, the newest word first, extended by `n` words. -/
def extend : Nat → List Word → List Word
  | 0, w => w
  | n + 1, w =>
    let word (i : Nat) : Word := w.getD i 0
    let σ₀ (x : Word) : Word := x.rotateRight 7 ^^^ x.rotateRight 18 ^^^ x >>> 3
    let σ₁ (x : Word) : Word := x.rotateRight 17 ^^^ x.rotateRight 19 ^^^ x >>> 10
    extend n ((σ₁ (word 1) + word 6 + σ₀ (word 14) + word 15) :: w)

def round (s : Working) (k w : Word) : Working :=
  let sum₁ := s.e.rotateRight 6 ^^^ s.e.rotateRight 11 ^^^ s.e.rotateRight 25
  let choice := (s.e &&& s.f) ^^^ (~~~s.e &&& s.g)
  let t₁ := s.h + sum₁ + choice + k + w
  let sum₀ := s.a.rotateRight 2 ^^^ s.a.rotateRight 13 ^^^ s.a.rotateRight 22
  let majority := (s.a &&& s.b) ^^^ (s.a &&& s.c) ^^^ (s.b &&& s.c)
  ⟨t₁ + (sum₀ + majority), s.a, s.b, s.c, s.d + t₁, s.e, s.f, s.g⟩

/-- The state after one block of 16 words. -/
def compress (s : Working) (block : List Word) : Working :=
  let t := (constants.zip (extend 48 block.reverse).reverse).foldl (fun s kw => round s kw.1 kw.2) s
  ⟨s.a + t.a, s.b + t.b, s.c + t.c, s.d + t.d, s.e + t.e, s.f + t.f, s.g + t.g, s.h + t.h⟩

/-- The state after `n` blocks of a word sequence. -/
def compressBlocks : Nat → Working → List Word → Working
  | 0, s, _ => s
  | n + 1, s, ws => compressBlocks n (compress s (ws.take 16)) (ws.drop 16)

def digest (message : List (BitVec 8)) : List (BitVec 8) :=
  let ws := words (pad message)
  let s := compressBlocks (ws.length / 16) initial ws
  [s.a, s.b, s.c, s.d, s.e, s.f, s.g, s.h].flatMap fun w => bigEndian 4 w.toNat

/-- The two lower-case digits of a byte. -/
def hexByte (b : BitVec 8) : List Char := [Nat.digitChar (b.toNat / 16), Nat.digitChar (b.toNat % 16)]

/-- `hashlib.sha256(message).hexdigest()` -/
def hexdigest (message : List (BitVec 8)) : String := .ofList ((digest message).flatMap hexByte)

/-- The bytes of an ASCII text. -/
def ascii (s : String) : List (BitVec 8) := s.toList.map fun c => .ofNat 8 c.toNat

example : hexdigest (ascii "abc") =
    "ba7816bf8f01cfea414140de5dae2223b00361a396177a9cb410ff61f20015ad" := by decide +kernel

/-! ## The digest's shape -/

@[simp] theorem length_bigEndian (n value : Nat) : (bigEndian n value).length = n := by
  induction n generalizing value with
  | zero => rfl
  | succ n ih => simp [bigEndian, ih]

@[simp] theorem length_digest (message : List (BitVec 8)) : (digest message).length = 32 := by
  simp [digest]

/-- A lower-case hexadecimal digit. -/
def IsHex (c : Char) : Prop := c.isDigit ∨ 'a' ≤ c ∧ c ≤ 'f'

instance : DecidablePred IsHex := fun _ => inferInstanceAs (Decidable (_ ∨ _))

theorem isHex_digitChar : ∀ n < 16, IsHex (Nat.digitChar n) := by decide

theorem isHex_hexByte {b : BitVec 8} : ∀ c ∈ hexByte b, IsHex c := by
  have := b.isLt
  rw [hexByte, List.forall_mem_cons, List.forall_mem_singleton]
  exact ⟨isHex_digitChar _ (by omega), isHex_digitChar _ (by omega)⟩

@[simp] theorem length_hexdigest (message : List (BitVec 8)) : (hexdigest message).length = 64 := by
  simp [hexdigest, hexByte, List.length_flatMap]

theorem isHex_hexdigest {message : List (BitVec 8)} : ∀ c ∈ (hexdigest message).toList, IsHex c := by
  intro c hc
  rw [hexdigest, String.toList_ofList, List.mem_flatMap] at hc
  obtain ⟨b, _, hc⟩ := hc
  exact isHex_hexByte c hc

end Crypto.Sha256
