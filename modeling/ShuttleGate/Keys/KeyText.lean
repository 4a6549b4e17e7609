import ShuttleGate.Crypto.Base64
import ShuttleGate.Errors

/-! # The text of a WireGuard key

A key is accepted by its length and by what it decodes to. The decoder drops the bits left over in
the last character, so a key has four texts, of which one is canonical. -/

namespace ShuttleGate

open Crypto

namespace Keys

/-- `base64.b64decode(value, validate=True)`, which raises for text that is not ASCII, too. -/
def b64decode (value : String) : Option (List UInt8) :=
  if value.toList.all fun c => c.toNat < 128 then Base64.decode value.toList else none

/-- `_validate_wireguard_key` -/
def validateWireguardKey (value label : String) : Except Exn String := do
  raiseIf (value = "" ∨ '\n' ∈ value.toList ∨ '\r' ∈ value.toList)
    (.state s!"{label} must contain exactly one key")
  match b64decode value with
  | none => .error (.state s!"{label} is not valid base64")
  | some decoded => do
    raiseIf (decoded.length ≠ 32 ∨ value.length ≠ 44)
      (.state s!"{label} must encode exactly 32 bytes")
    return value

/-- The standard encoding of 32 bytes. -/
def IsCanonical (value : String) : Prop :=
  ∃ bytes : List UInt8, bytes.length = 32 ∧ value.toList = Base64.encode bytes

/-- 43 characters of the alphabet and one padding character, where the last character before it has
one of its two low bits set. -/
def HasLeftoverBits (value : String) : Prop :=
  ∃ digits n, value.toList = digits ++ [Base64.digit n, '='] ∧ digits.length = 42 ∧
    (∀ d ∈ digits, ∃ m, Base64.value d = some m) ∧ n < 64 ∧ n % 4 ≠ 0

section
variable {value label : String} {ds : List Char} {v : Nat}

/-- The shape of a key's text. -/
abbrev KeyShape (value : String) (ds : List Char) (v : Nat) : Prop :=
  Base64.Padded 10 value.toList ds v

theorem plain_of_value {c : Char} {n : Nat} (h : Base64.value c = some n) :
    c ≠ '\n' ∧ c ≠ '\r' ∧ c.toNat < 128 := by
  obtain ⟨hn, rfl⟩ := Base64.eq_digit h
  have : ∀ n < 64, Base64.digit n ≠ '\n' ∧ Base64.digit n ≠ '\r' ∧ (Base64.digit n).toNat < 128 := by
    simp only [Base64.digit, Base64.alphabet_eq]
    decide +kernel
  exact this n hn

/-- A text of that shape has neither line breaks nor foreign characters. -/
theorem KeyShape.plain (h : KeyShape value ds v) :
    ∀ c ∈ value.toList, c ≠ '\n' ∧ c ≠ '\r' ∧ c.toNat < 128 := by
  intro c hc
  rw [h.split] at hc
  rcases List.mem_append.mp hc with hc | hc
  · obtain ⟨n, hn⟩ := h.digits c hc
    exact plain_of_value hn
  · rcases List.mem_cons.mp hc with rfl | hc
    · exact plain_of_value (Base64.value_digit h.last)
    · obtain rfl := List.mem_singleton.mp hc
      decide

theorem KeyShape.length (h : KeyShape value ds v) : value.length = 44 := by
  have hlength := congrArg List.length h.split
  rw [String.length_toList, List.length_append, Base64.Padded.length h] at hlength
  exact hlength

/-- Exactly the texts of that shape are accepted, whatever bits are left over. -/
theorem validateWireguardKey_isOk :
    validateWireguardKey value label = .ok value ↔ ∃ ds v, KeyShape value ds v := by
  rw [validateWireguardKey, raiseIf_bind_eq_ok]
  constructor
  · rintro ⟨-, h⟩
    cases hdecoded : b64decode value with
    | none => rw [hdecoded] at h; cases h
    | some bytes =>
      rw [hdecoded] at h
      obtain ⟨hbad, -⟩ := raiseIf_bind_eq_ok.mp h
      obtain ⟨hbytes, htext⟩ := not_or.mp hbad
      unfold b64decode at hdecoded
      split at hdecoded
      · obtain ⟨ds, v, h, -⟩ := Base64.padded_of_decode (k := 10) hdecoded
          (by rw [String.length_toList]; exact not_not.mp htext) (not_not.mp hbytes)
        exact ⟨ds, v, h⟩
      · cases hdecoded
  · rintro ⟨ds, v, h⟩
    obtain ⟨bytes, hbytes, hlength⟩ := h.decodes
    have hplain := KeyShape.plain h
    have hascii : (value.toList.all fun c => c.toNat < 128) = true :=
      List.all_eq_true.mpr fun c hc => decide_eq_true (hplain c hc).2.2
    have hvalue := KeyShape.length h
    refine ⟨?_, ?_⟩
    · rintro (rfl | hn | hr)
      · simp at hvalue
      · exact (hplain _ hn).1 rfl
      · exact (hplain _ hr).2.1 rfl
    · rw [b64decode, if_pos hascii, hbytes]
      exact raiseIf_bind_eq_ok.mpr ⟨by omega, rfl⟩

/-- A text the validator accepts. -/
def Valid (value : String) : Prop := validateWireguardKey value "key" = .ok value

instance : Decidable (Valid value) := inferInstanceAs (Decidable (_ = _))

theorem Valid.oneLine (h : Valid value) : '\n' ∉ value.toList := by
  obtain ⟨ds, v, hshape⟩ := validateWireguardKey_isOk.mp h
  exact fun hc => (KeyShape.plain hshape _ hc).1 rfl

theorem Valid.ascii (h : Valid value) : ∀ c ∈ value.toList, c.toNat < 128 := by
  obtain ⟨ds, v, hshape⟩ := validateWireguardKey_isOk.mp h
  exact fun c hc => (KeyShape.plain hshape c hc).2.2

theorem KeyShape.unique {ds' : List Char} {v' : Nat} (h : KeyShape value ds v)
    (h' : KeyShape value ds' v') : v = v' := by
  have hsame := h.split.symm.trans h'.split
  have hlast := (List.append_inj hsame
    ((Base64.Padded.length h).trans (Base64.Padded.length h').symm)).2
  have hdigit := (List.cons.inj hlast).1
  have := (Base64.value_digit h.last).symm.trans (hdigit ▸ Base64.value_digit h'.last)
  exact Option.some.inj this

/-- The canonical texts are those that leave no bits over. -/
theorem isCanonical_iff : IsCanonical value ↔ ∃ ds v, KeyShape value ds v ∧ v % 4 = 0 := by
  constructor
  · rintro ⟨bytes, hlength, hvalue⟩
    obtain ⟨ds, x, h⟩ := Base64.encode_padded (k := 10) hlength
    refine ⟨ds, x * 4, ?_, by omega⟩
    rw [KeyShape, hvalue]
    exact h
  · rintro ⟨ds, v, h, hv⟩
    obtain ⟨bytes, hbytes, hlength⟩ := h.decodes
    obtain ⟨ds', v', h', hencode⟩ := Base64.padded_of_decode (k := 10) hbytes
      (by rw [String.length_toList]; exact KeyShape.length h) hlength
    exact ⟨bytes, hlength, hencode (KeyShape.unique h h' ▸ hv)⟩

theorem hasLeftoverBits_iff :
    HasLeftoverBits value ↔ ∃ ds v, KeyShape value ds v ∧ v % 4 ≠ 0 := by
  constructor
  · rintro ⟨ds, v, hsplit, hlength, hdigits, hv, hbits⟩
    exact ⟨ds, v, ⟨hsplit, hlength, hdigits, hv⟩, hbits⟩
  · rintro ⟨ds, v, h, hbits⟩
    exact ⟨ds, v, h.split, Base64.Padded.length h, h.digits, h.last, hbits⟩

/-- A text is accepted if and only if it is canonical, unless it is a key's with bits left over. -/
theorem accepted_iff_canonical (value label : String) :
    (validateWireguardKey value label = .ok value ↔ IsCanonical value) ↔ ¬ HasLeftoverBits value := by
  rw [validateWireguardKey_isOk, isCanonical_iff, hasLeftoverBits_iff]
  constructor
  · rintro hiff ⟨ds, v, h, hbits⟩
    obtain ⟨ds', v', h', hv'⟩ := hiff.mp ⟨ds, v, h⟩
    exact hbits (KeyShape.unique h h' ▸ hv')
  · intro hnone
    constructor
    · rintro ⟨ds, v, h⟩
      exact ⟨ds, v, h, by_contra fun hbits => hnone ⟨ds, v, h, hbits⟩⟩
    · rintro ⟨ds, v, h, -⟩
      exact ⟨ds, v, h⟩

/-- A text of 32 zero bytes that is not their encoding. -/
def sloppyKey : String := "AAAAAAAAAAAAAAAAAAAAAAAAAAAAAAAAAAAAAAAAAAB="

/-- It is accepted beside the canonical text, and denotes the same key. -/
theorem sloppyKey_accepted : validateWireguardKey sloppyKey "key" = .ok sloppyKey ∧
    ¬ IsCanonical sloppyKey ∧
    validateWireguardKey "AAAAAAAAAAAAAAAAAAAAAAAAAAAAAAAAAAAAAAAAAAA=" "key" =
      .ok "AAAAAAAAAAAAAAAAAAAAAAAAAAAAAAAAAAAAAAAAAAA=" ∧
    Base64.decode sloppyKey.toList =
      Base64.decode "AAAAAAAAAAAAAAAAAAAAAAAAAAAAAAAAAAAAAAAAAAA=".toList := by
  have hshape : KeyShape sloppyKey (List.replicate 42 'A') 1 :=
    ⟨by decide +kernel, by decide, fun d hd => ⟨0, by rw [List.eq_of_mem_replicate hd]; decide⟩, by decide⟩
  refine ⟨validateWireguardKey_isOk.mpr ⟨_, _, hshape⟩, fun h => ?_, by decide +kernel, by decide +kernel⟩
  obtain ⟨ds, v, h', hv⟩ := isCanonical_iff.mp h
  obtain rfl := KeyShape.unique hshape h'
  cases hv

end

end Keys
end ShuttleGate
