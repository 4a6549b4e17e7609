import Mathlib.Data.List.Basic
import Mathlib.Tactic.Common

/-! # Base64

The standard encoding, and a strict decoder: it rejects foreign characters and misplaced padding,
and drops the bits left over in the last character before the padding. -/

namespace Crypto.Base64

def alphabet : List Char :=
  "ABCDEFGHIJKLMNOPQRSTUVWXYZabcdefghijklmnopqrstuvwxyz0123456789+/".toList

/-- The character of a six-bit value. -/
def digit (n : Nat) : Char := alphabet.getD n 'A'

/-- The six-bit value of a character of the alphabet. -/
def value (c : Char) : Option Nat := alphabet.idxOf? c

def encode : List UInt8 → List Char
  | [] => []
  | [a] => [digit (a.toNat / 4), digit (a.toNat % 4 * 16), '=', '=']
  | [a, b] => [digit (a.toNat / 4), digit (a.toNat % 4 * 16 + b.toNat / 16),
      digit (b.toNat % 16 * 4), '=']
  | a :: b :: c :: rest =>
    digit (a.toNat / 4) :: digit (a.toNat % 4 * 16 + b.toNat / 16) ::
      digit (b.toNat % 16 * 4 + c.toNat / 64) :: digit (c.toNat % 64) :: encode rest

/-- Where the decoder stands: in a group of four characters, with the bits left over from the last
one, and among padding characters. -/
structure State where
  position : Nat
  left : Nat
  padded : Bool
  pads : Nat
  deriving DecidableEq

def State.start : State := ⟨0, 0, false, 0⟩

/-- The bytes a character completes, and the state after it. -/
def State.next (s : State) (v : Nat) : List UInt8 × State :=
  match s.position with
  | 0 => ([], { s with position := 1, left := v, pads := 0 })
  | 1 => ([.ofNat (s.left * 4 + v / 16)], { s with position := 2, left := v % 16, pads := 0 })
  | 2 => ([.ofNat (s.left * 16 + v / 4)], { s with position := 3, left := v % 4, pads := 0 })
  | _ => ([.ofNat (s.left * 64 + v)], { s with position := 0, left := 0, pads := 0 })

/-- `binascii.a2b_base64` with `strict_mode`. -/
def decodeFrom (s : State) : List Char → Option (List UInt8)
  | [] => if s.position = 0 then some [] else none
  | c :: rest =>
    if c = '=' then
      if s.position = 0 then none
      else if 2 ≤ s.position then
        if 4 ≤ s.position + (s.pads + 1) then if rest = [] then some [] else none
        else decodeFrom { s with padded := true, pads := s.pads + 1 } rest
      else decodeFrom { s with padded := true } rest
    else
      match value c with
      | none => none
      | some v =>
        if s.padded then none
        else (decodeFrom (s.next v).2 rest).map ((s.next v).1 ++ ·)

def decode (cs : List Char) : Option (List UInt8) := decodeFrom .start cs

/-! ## Characters and their values -/

theorem alphabet_eq : alphabet =
    ['A', 'B', 'C', 'D', 'E', 'F', 'G', 'H', 'I', 'J', 'K', 'L', 'M', 'N', 'O', 'P', 'Q', 'R',
     'S', 'T', 'U', 'V', 'W', 'X', 'Y', 'Z', 'a', 'b', 'c', 'd', 'e', 'f', 'g', 'h', 'i', 'j',
     'k', 'l', 'm', 'n', 'o', 'p', 'q', 'r', 's', 't', 'u', 'v', 'w', 'x', 'y', 'z', '0', '1',
     '2', '3', '4', '5', '6', '7', '8', '9', '+', '/'] := String.toList_ofList

theorem length_alphabet : alphabet.length = 64 := by
  rw [alphabet_eq]
  rfl

theorem value_digit (h : n < 64) : value (digit n) = some n := by
  have : ∀ n < 64, value (digit n) = some n := by
    simp only [value, digit, alphabet_eq]
    decide +kernel
  exact this n h

/-- A character with a value is the character of that value. -/
theorem eq_digit (h : value c = some n) : n < 64 ∧ c = digit n := by
  rw [value, List.idxOf?_eq_some_iff] at h
  obtain ⟨hn, hc, -⟩ := h
  refine ⟨length_alphabet ▸ hn, ?_⟩
  simp [digit, List.getD, hn, hc]

theorem value_pad : value '=' = none := by
  rw [value, alphabet_eq]
  decide

theorem ne_pad (h : value c = some n) : c ≠ '=' := by
  rintro rfl
  rw [value_pad] at h
  cases h

/-! ## Steps of the decoder -/

section
variable {rest : List Char} {v v₁ v₂ v₃ v₄ : Nat}

theorem decodeFrom_digit {s : State} (h : value c = some v) (hs : s.padded = false) :
    decodeFrom s (c :: rest) = (decodeFrom (s.next v).2 rest).map ((s.next v).1 ++ ·) := by
  rw [decodeFrom, if_neg (ne_pad h), h]
  simp [hs]

/-- The three bytes of a full group. -/
def group (v₁ v₂ v₃ v₄ : Nat) : List UInt8 :=
  [.ofNat (v₁ * 4 + v₂ / 16), .ofNat (v₂ % 16 * 16 + v₃ / 4), .ofNat (v₃ % 4 * 64 + v₄)]

theorem decode_group (h₁ : value c₁ = some v₁) (h₂ : value c₂ = some v₂) (h₃ : value c₃ = some v₃)
    (h₄ : value c₄ = some v₄) :
    decode (c₁ :: c₂ :: c₃ :: c₄ :: rest) = (decode rest).map (group v₁ v₂ v₃ v₄ ++ ·) := by
  rw [decode, decodeFrom_digit h₁ rfl, decodeFrom_digit h₂ rfl, decodeFrom_digit h₃ rfl,
    decodeFrom_digit h₄ rfl, decode]
  cases h : decodeFrom .start rest <;> simp_all [State.next, State.start, group]

/-- A last group with one padding character. -/
theorem decode_last (h₁ : value c₁ = some v₁) (h₂ : value c₂ = some v₂) (h₃ : value c₃ = some v₃) :
    decode [c₁, c₂, c₃, '='] = some [.ofNat (v₁ * 4 + v₂ / 16), .ofNat (v₂ % 16 * 16 + v₃ / 4)] := by
  rw [decode, decodeFrom_digit h₁ rfl, decodeFrom_digit h₂ rfl, decodeFrom_digit h₃ rfl]
  simp [State.next, State.start, decodeFrom]

/-- A last group with two padding characters. -/
theorem decode_last_two (h₁ : value c₁ = some v₁) (h₂ : value c₂ = some v₂) :
    decode [c₁, c₂, '=', '='] = some [.ofNat (v₁ * 4 + v₂ / 16)] := by
  rw [decode, decodeFrom_digit h₁ rfl, decodeFrom_digit h₂ rfl]
  simp [State.next, State.start, decodeFrom]

/-- Padding after one character of a group is never completed. -/
theorem decodeFrom_broken {s : State} (hp : s.position = 1) (hs : s.padded = true) (cs : List Char) :
    decodeFrom s cs = none := by
  induction cs generalizing s with
  | nil => simp [decodeFrom, hp]
  | cons c rest ih =>
    rw [decodeFrom]
    split
    · simp [hp, ih]
    · cases value c <;> simp_all

/-- Where four characters and more are decoded, they are a full group, or the last one with one or
two padding characters. -/
theorem decode_cases (h : decode (c₁ :: c₂ :: c₃ :: c₄ :: rest) = some out) :
    (∃ v₁ v₂ v₃ v₄ out', value c₁ = some v₁ ∧ value c₂ = some v₂ ∧ value c₃ = some v₃ ∧
        value c₄ = some v₄ ∧ decode rest = some out' ∧ out = group v₁ v₂ v₃ v₄ ++ out') ∨
      (∃ v₁ v₂ v₃, value c₁ = some v₁ ∧ value c₂ = some v₂ ∧ value c₃ = some v₃ ∧ c₄ = '=' ∧
        rest = [] ∧ out = [.ofNat (v₁ * 4 + v₂ / 16), .ofNat (v₂ % 16 * 16 + v₃ / 4)]) ∨
      out.length = 1 ∧ rest = [] := by
  have digitOr {c : Char} {s : State} {tail : List Char} {o : List UInt8}
      (h : decodeFrom s (c :: tail) = some o) : c = '=' ∨ ∃ v, value c = some v := by
    rw [decodeFrom] at h
    by_cases hc : c = '='
    · exact .inl hc
    · rw [if_neg hc] at h
      cases hv : value c with
      | none => rw [hv] at h; cases h
      | some v => exact .inr ⟨v, rfl⟩
  rcases digitOr h with rfl | ⟨v₁, h₁⟩
  · simp [decode, decodeFrom, State.start] at h
  rw [decode, decodeFrom_digit h₁ rfl, Option.map_eq_some_iff] at h
  obtain ⟨o₁, h, rfl⟩ := h
  rcases digitOr h with rfl | ⟨v₂, h₂⟩
  · rw [decodeFrom, if_pos rfl] at h
    simp only [State.next, State.start] at h
    rw [if_neg (by decide), if_neg (by decide), decodeFrom_broken rfl rfl] at h
    cases h
  rw [decodeFrom_digit h₂ rfl, Option.map_eq_some_iff] at h
  obtain ⟨o₂, h, rfl⟩ := h
  rcases digitOr h with rfl | ⟨v₃, h₃⟩
  · -- only a second padding character can follow
    rw [decodeFrom, if_pos rfl] at h
    simp only [State.next, State.start] at h
    rw [if_neg (by decide), if_pos (by decide), if_neg (by decide)] at h
    rw [decodeFrom] at h
    by_cases hc : c₄ = '='
    · simp [hc] at h
      obtain ⟨rfl, rfl⟩ := h
      exact .inr (.inr ⟨rfl, rfl⟩)
    · rw [if_neg hc] at h
      cases hv : value c₄ <;> simp [hv] at h
  rw [decodeFrom_digit h₃ rfl, Option.map_eq_some_iff] at h
  obtain ⟨o₃, h, rfl⟩ := h
  rcases digitOr h with rfl | ⟨v₄, h₄⟩
  · rw [decodeFrom, if_pos rfl] at h
    simp [State.next, State.start] at h
    obtain ⟨rfl, rfl⟩ := h
    exact .inr (.inl ⟨v₁, v₂, v₃, h₁, h₂, h₃, rfl, rfl, rfl⟩)
  rw [decodeFrom_digit h₄ rfl, Option.map_eq_some_iff] at h
  obtain ⟨o₄, h, rfl⟩ := h
  exact .inl ⟨v₁, v₂, v₃, v₄, o₄, h₁, h₂, h₃, h₄, h, rfl⟩

/-! ## Encoding and decoding -/

theorem group_digits (a b c : UInt8) :
    group (a.toNat / 4) (a.toNat % 4 * 16 + b.toNat / 16) (b.toNat % 16 * 4 + c.toNat / 64)
      (c.toNat % 64) = [a, b, c] := by
  have ha := a.toNat_lt
  have hb := b.toNat_lt
  have hc := c.toNat_lt
  have h₁ : a.toNat / 4 * 4 + (a.toNat % 4 * 16 + b.toNat / 16) / 16 = a.toNat := by omega
  have h₂ : (a.toNat % 4 * 16 + b.toNat / 16) % 16 * 16 + (b.toNat % 16 * 4 + c.toNat / 64) / 4 =
      b.toNat := by omega
  have h₃ : (b.toNat % 16 * 4 + c.toNat / 64) % 4 * 64 + c.toNat % 64 = c.toNat := by omega
  rw [group, h₁, h₂, h₃, UInt8.ofNat_toNat, UInt8.ofNat_toNat, UInt8.ofNat_toNat]

/-- What is encoded is decoded again. -/
theorem decode_encode (bs : List UInt8) : decode (encode bs) = some bs := by
  induction bs using encode.induct with
  | case1 => rfl
  | case2 a =>
    have ha := a.toNat_lt
    have h₁ := value_digit (n := a.toNat / 4) (by omega)
    have h₂ := value_digit (n := a.toNat % 4 * 16) (by omega)
    have hbyte : a.toNat / 4 * 4 + a.toNat % 4 * 16 / 16 = a.toNat := by omega
    rw [encode, decode_last_two h₁ h₂, hbyte, UInt8.ofNat_toNat]
  | case3 a b =>
    have ha := a.toNat_lt
    have hb := b.toNat_lt
    have h₁ := value_digit (n := a.toNat / 4) (by omega)
    have h₂ := value_digit (n := a.toNat % 4 * 16 + b.toNat / 16) (by omega)
    have h₃ := value_digit (n := b.toNat % 16 * 4) (by omega)
    have hfirst : a.toNat / 4 * 4 + (a.toNat % 4 * 16 + b.toNat / 16) / 16 = a.toNat := by omega
    have hsecond : (a.toNat % 4 * 16 + b.toNat / 16) % 16 * 16 + b.toNat % 16 * 4 / 4 = b.toNat := by
      omega
    rw [encode, decode_last h₁ h₂ h₃, hfirst, hsecond, UInt8.ofNat_toNat, UInt8.ofNat_toNat]
  | case4 a b c rest ih =>
    have ha := a.toNat_lt
    have hb := b.toNat_lt
    have hc := c.toNat_lt
    have h₁ := value_digit (n := a.toNat / 4) (by omega)
    have h₂ := value_digit (n := a.toNat % 4 * 16 + b.toNat / 16) (by omega)
    have h₃ := value_digit (n := b.toNat % 16 * 4 + c.toNat / 64) (by omega)
    have h₄ := value_digit (n := c.toNat % 64) (by omega)
    rw [encode, decode_group h₁ h₂ h₃ h₄, ih, group_digits]
    rfl

/-- `4 * k + 3` characters of the alphabet and one padding character. -/
structure Padded (k : Nat) (cs ds : List Char) (v : Nat) : Prop where
  split : cs = ds ++ [digit v, '=']
  length : ds.length = 4 * k + 2
  digits : ∀ d ∈ ds, ∃ n, value d = some n
  last : v < 64

theorem Padded.cons {k : Nat} {cs ds : List Char} (h : Padded k cs ds v) (h₁ : value c₁ = some v₁)
    (h₂ : value c₂ = some v₂) (h₃ : value c₃ = some v₃) (h₄ : value c₄ = some v₄) :
    Padded (k + 1) (c₁ :: c₂ :: c₃ :: c₄ :: cs) (c₁ :: c₂ :: c₃ :: c₄ :: ds) v where
  split := by rw [h.split]; rfl
  length := by simp only [List.length_cons, h.length]; omega
  digits := by
    simp only [List.forall_mem_cons]
    exact ⟨⟨_, h₁⟩, ⟨_, h₂⟩, ⟨_, h₃⟩, ⟨_, h₄⟩, h.digits⟩
  last := h.last

/-- The encoding of `3 * k + 2` bytes leaves no bits in the last character. -/
theorem encode_padded {k : Nat} {bs : List UInt8} (h : bs.length = 3 * k + 2) :
    ∃ ds x, Padded k (encode bs) ds (x * 4) := by
  induction bs using encode.induct generalizing k with
  | case1 => simp at h
  | case2 a => simp at h
  | case3 a b =>
    obtain rfl : k = 0 := by simp at h; omega
    have ha := a.toNat_lt
    have hb := b.toNat_lt
    refine ⟨[digit (a.toNat / 4), digit (a.toNat % 4 * 16 + b.toNat / 16)], b.toNat % 16, rfl, rfl, ?_,
      by omega⟩
    simp only [List.forall_mem_cons, List.not_mem_nil, false_implies, implies_true, and_true]
    exact ⟨⟨_, value_digit (by omega)⟩, ⟨_, value_digit (by omega)⟩⟩
  | case4 a b c rest ih =>
    obtain ⟨k, rfl⟩ : ∃ m, k = m + 1 := ⟨k - 1, by simp at h; omega⟩
    have hrest : rest.length = 3 * k + 2 := by simp at h; omega
    obtain ⟨ds, x, hp⟩ := ih hrest
    have ha := a.toNat_lt
    have hb := b.toNat_lt
    have hc := c.toNat_lt
    have h₁ := value_digit (n := a.toNat / 4) (by omega)
    have h₂ := value_digit (n := a.toNat % 4 * 16 + b.toNat / 16) (by omega)
    have h₃ := value_digit (n := b.toNat % 16 * 4 + c.toNat / 64) (by omega)
    have h₄ := value_digit (n := c.toNat % 64) (by omega)
    exact ⟨_, x, hp.cons h₁ h₂ h₃ h₄⟩

/-- A text of that shape is decoded, whatever bits are left over. -/
theorem Padded.decodes {k : Nat} {cs ds : List Char} (h : Padded k cs ds v) :
    ∃ bs, decode cs = some bs ∧ bs.length = 3 * k + 2 := by
  induction k generalizing cs ds with
  | zero =>
    match ds, h.length with
    | [c₁, c₂], _ =>
      obtain ⟨v₁, h₁⟩ := h.digits c₁ (by simp)
      obtain ⟨v₂, h₂⟩ := h.digits c₂ (by simp)
      have hdecode := decode_last h₁ h₂ (value_digit h.last)
      have hsplit : cs = [c₁, c₂, digit v, '='] := h.split
      exact ⟨_, hsplit ▸ hdecode, rfl⟩
  | succ k ih =>
    match ds, h.length with
    | c₁ :: c₂ :: c₃ :: c₄ :: ds, hlength =>
      obtain ⟨⟨v₁, h₁⟩, ⟨v₂, h₂⟩, ⟨v₃, h₃⟩, ⟨v₄, h₄⟩, hdigits⟩ := by
        simpa only [List.forall_mem_cons] using h.digits
      obtain ⟨bs, hbs, hlen⟩ := ih ⟨rfl, by simp at hlength; omega, hdigits, h.last⟩
      refine ⟨group v₁ v₂ v₃ v₄ ++ bs, ?_, ?_⟩
      · rw [h.split]
        exact (decode_group h₁ h₂ h₃ h₄).trans (congrArg (Option.map _) hbs)
      · simp only [List.length_append, group, List.length_cons, List.length_nil]
        omega

theorem toNat_byte (h : n < 256) : (UInt8.ofNat n).toNat = n := by
  rw [UInt8.toNat_ofNat']
  exact Nat.mod_eq_of_lt h

theorem encode_group (h₁ : v₁ < 64) (h₂ : v₂ < 64) (h₃ : v₃ < 64) (h₄ : v₄ < 64) (bs : List UInt8) :
    encode (group v₁ v₂ v₃ v₄ ++ bs) =
      digit v₁ :: digit v₂ :: digit v₃ :: digit v₄ :: encode bs := by
  have ha := toNat_byte (n := v₁ * 4 + v₂ / 16) (by omega)
  have hb := toNat_byte (n := v₂ % 16 * 16 + v₃ / 4) (by omega)
  have hc := toNat_byte (n := v₃ % 4 * 64 + v₄) (by omega)
  have e₁ : (v₁ * 4 + v₂ / 16) / 4 = v₁ := by omega
  have e₂ : (v₁ * 4 + v₂ / 16) % 4 * 16 + (v₂ % 16 * 16 + v₃ / 4) / 16 = v₂ := by omega
  have e₃ : (v₂ % 16 * 16 + v₃ / 4) % 16 * 4 + (v₃ % 4 * 64 + v₄) / 64 = v₃ := by omega
  have e₄ : (v₃ % 4 * 64 + v₄) % 64 = v₄ := by omega
  rw [group, List.cons_append, List.cons_append, List.cons_append, List.nil_append, encode, ha, hb, hc,
    e₁, e₂, e₃, e₄]

theorem encode_last (h₁ : v₁ < 64) (h₂ : v₂ < 64) (h₃ : v₃ < 64) (h : v₃ % 4 = 0) :
    encode [.ofNat (v₁ * 4 + v₂ / 16), .ofNat (v₂ % 16 * 16 + v₃ / 4)] =
      [digit v₁, digit v₂, digit v₃, '='] := by
  have ha := toNat_byte (n := v₁ * 4 + v₂ / 16) (by omega)
  have hb := toNat_byte (n := v₂ % 16 * 16 + v₃ / 4) (by omega)
  have e₁ : (v₁ * 4 + v₂ / 16) / 4 = v₁ := by omega
  have e₂ : (v₁ * 4 + v₂ / 16) % 4 * 16 + (v₂ % 16 * 16 + v₃ / 4) / 16 = v₂ := by omega
  have e₃ : (v₂ % 16 * 16 + v₃ / 4) % 16 * 4 = v₃ := by omega
  rw [encode, ha, hb, e₁, e₂, e₃]

/-- What is decoded to `3 * k + 2` bytes has that shape, and is their encoding if no bits are left
over. -/
theorem padded_of_decode {k : Nat} {cs : List Char} {bs : List UInt8} (h : decode cs = some bs)
    (hcs : cs.length = 4 * k + 4) (hbs : bs.length = 3 * k + 2) :
    ∃ ds v, Padded k cs ds v ∧ (v % 4 = 0 → cs = encode bs) := by
  induction k generalizing cs bs with
  | zero =>
    match cs, hcs with
    | [c₁, c₂, c₃, c₄], _ =>
      rcases decode_cases h with ⟨v₁, v₂, v₃, v₄, out, -, -, -, -, hout, rfl⟩ |
        ⟨v₁, v₂, v₃, h₁, h₂, h₃, rfl, -, rfl⟩ | ⟨hone, -⟩
      · simp [group] at hbs
      · obtain ⟨h₁', rfl⟩ := eq_digit h₁
        obtain ⟨h₂', rfl⟩ := eq_digit h₂
        obtain ⟨h₃', rfl⟩ := eq_digit h₃
        refine ⟨[digit v₁, digit v₂], v₃, ⟨rfl, rfl, ?_, h₃'⟩, fun hv => ?_⟩
        · simp only [List.forall_mem_cons, List.not_mem_nil, false_implies, implies_true, and_true]
          exact ⟨⟨_, h₁⟩, ⟨_, h₂⟩⟩
        · exact (encode_last h₁' h₂' h₃' hv).symm
      · omega
  | succ k ih =>
    match cs, hcs with
    | c₁ :: c₂ :: c₃ :: c₄ :: rest, hcs =>
      simp only [List.length_cons] at hcs
      rcases decode_cases h with ⟨v₁, v₂, v₃, v₄, out, h₁, h₂, h₃, h₄, hout, rfl⟩ |
        ⟨v₁, v₂, v₃, -, -, -, -, rfl, -⟩ | ⟨-, rfl⟩
      · obtain ⟨ds, v, hp, hencode⟩ := ih hout (by omega) (by simp [group] at hbs; omega)
        refine ⟨_, v, hp.cons h₁ h₂ h₃ h₄, fun hv => ?_⟩
        obtain ⟨h₁', rfl⟩ := eq_digit h₁
        obtain ⟨h₂', rfl⟩ := eq_digit h₂
        obtain ⟨h₃', rfl⟩ := eq_digit h₃
        obtain ⟨h₄', rfl⟩ := eq_digit h₄
        rw [encode_group h₁' h₂' h₃' h₄', ← hencode hv]
      · simp at hcs
      · simp at hcs

end

end Crypto.Base64
