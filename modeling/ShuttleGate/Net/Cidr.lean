import ShuttleGate.Net.Text

/-! # Plain numeric addresses

`readCidr` reads what a kernel tool takes for an address or a network: a numeric address without a
zone and an optional prefix length. It reads exactly the printed forms that carry no zone. -/

namespace Net

/-- A numeric address without a zone. -/
def readAddress (s : List Char) : Option IPAddress :=
  (IPAddress.ofChars s).filter (·.scopeId = none)

/-- `ADDRESS` or `ADDRESS/LENGTH`; an address alone stands for itself. -/
def readCidrChars (s : List Char) : Option IPInterface :=
  match s.splitOn '/' with
  | [address] => do
    let a ← readAddress address
    return ⟨a, a.version.width, le_rfl⟩
  | [address, length] => do
    let a ← readAddress address
    let prefixlen ← parseOctet length
    if h : prefixlen ≤ a.version.width then some ⟨a, prefixlen, h⟩ else none
  | _ => none

def readCidr (s : String) : Option IPInterface := readCidrChars s.toList

/-- The address and the prefix length of a network. -/
def IPNetwork.interface (n : IPNetwork) : IPInterface := ⟨n.networkAddress, n.prefixlen, n.le_width⟩

/-! ## What is read back -/

theorem readAddress_chars {a : IPAddress} (h : a.scopeId = none) : readAddress a.chars = some a := by
  rw [readAddress, IPAddress.ofChars_chars, Option.filter_some, if_pos (by simpa using h)]

theorem IPAddress.mem_chars {a : IPAddress} (h : a.scopeId = none) (hc : c ∈ a.chars) :
    isHexDigit c = true ∨ c = ':' ∨ c = '.' := by
  cases a with
  | v4 ip =>
    rcases mem_ipv4Chars hc with hc | hc
    · exact .inl (by simp [isHexDigit, hc])
    · exact .inr (.inr hc)
  | v6 ip scope =>
    obtain rfl : scope = none := h
    exact mem_ipv6Chars hc

theorem IPAddress.slash_notMem {a : IPAddress} (h : a.scopeId = none) : '/' ∉ a.chars := by
  intro hc
  rcases IPAddress.mem_chars h hc with hc | hc | hc
  · exact absurd hc (by decide)
  · cases hc
  · cases hc

theorem toList_text (a : IPAddress) : a.text.toList = a.chars := String.toList_ofList

theorem toList_prefixText (a : IPAddress) (prefixlen : Nat) :
    (prefixText a prefixlen).toList = a.chars ++ '/' :: Nat.toDigits 10 prefixlen := by
  rw [prefixText, String.toList_append, String.toList_append, toList_text, List.append_assoc]
  exact congrArg _ (congrArg _ Nat.toList_repr)

theorem toNat_of_isHexDigit (h : isHexDigit c = true) : 0x2d < c.toNat ∧ c.toNat ≤ 0x7e := by
  simp only [isHexDigit, Char.isDigit, Bool.or_eq_true, Bool.and_eq_true, decide_eq_true_eq,
    Char.le_def, UInt32.le_iff_toNat_le, ge_iff_le] at h
  have hzero : '0'.val.toNat = 48 := rfl
  have hnine : '9'.val.toNat = 57 := rfl
  have ha : 'a'.val.toNat = 97 := rfl
  have hf : 'f'.val.toNat = 102 := rfl
  have hA : 'A'.val.toNat = 65 := rfl
  have hF : 'F'.val.toNat = 70 := rfl
  simp only [Char.toNat]
  omega

/-- An address without a zone has neither blanks nor commas nor line breaks. -/
theorem IPAddress.toNat_of_mem {a : IPAddress} (h : a.scopeId = none) (hc : c ∈ a.chars) :
    0x2d < c.toNat ∧ c.toNat ≤ 0x7e := by
  rcases IPAddress.mem_chars h hc with hc | rfl | rfl
  · exact toNat_of_isHexDigit hc
  · decide
  · decide

theorem toNat_of_mem_text {i : IPInterface} (h : i.address.scopeId = none)
    (hc : c ∈ i.text.toList) : 0x2d < c.toNat ∧ c.toNat ≤ 0x7e := by
  rw [IPInterface.text, toList_prefixText, List.mem_append, List.mem_cons] at hc
  rcases hc with hc | rfl | hc
  · exact IPAddress.toNat_of_mem h hc
  · decide
  · exact toNat_of_isHexDigit
      (by simp [isHexDigit, Nat.isDigit_of_mem_toDigits (by decide) (by decide) hc])

/-- An address without a zone is read as itself. -/
theorem readCidr_address {a : IPAddress} (h : a.scopeId = none) :
    readCidr a.text = some ⟨a, a.version.width, le_rfl⟩ := by
  rw [readCidr, toList_text, readCidrChars, List.splitOn_eq_singleton (IPAddress.slash_notMem h)]
  simp [readAddress_chars h]

theorem width_lt (v : Version) : v.width < 256 := by
  cases v <;> decide

/-- An interface address without a zone is read back. -/
theorem readCidr_text {i : IPInterface} (h : i.address.scopeId = none) : readCidr i.text = some i := by
  have hsplit : (i.address.chars ++ '/' :: Nat.toDigits 10 i.prefixlen).splitOn '/' =
      [i.address.chars, Nat.toDigits 10 i.prefixlen] := by
    rw [List.splitOn_append_cons_self, List.splitOn_eq_singleton (IPAddress.slash_notMem h),
      List.splitOn_eq_singleton (Nat.not_mem_toDigits_ten (by decide))]
    rfl
  have hlength := parseOctet_toDigits (lt_of_le_of_lt i.le_width (width_lt i.address.version))
  rw [readCidr, IPInterface.text, toList_prefixText, readCidrChars, hsplit]
  simp [readAddress_chars h, hlength, i.le_width]

/-! ## Zones -/

theorem mem_chars_of_scopeId {a : IPAddress} (h : a.scopeId ≠ none) : '%' ∈ a.chars := by
  cases a with
  | v4 ip => exact absurd rfl h
  | v6 ip scope =>
    cases scope with
    | none => exact absurd rfl h
    | some scope => exact List.mem_append_right _ List.mem_cons_self

theorem percent_notMem_of_splitScopeId {s : List Char}
    (h : IPAddress.splitScopeId s = some (address, none)) : '%' ∉ s := by
  unfold IPAddress.splitScopeId at h
  rw [List.span_eq_takeWhile_dropWhile] at h
  split at h
  · next hspan =>
    intro hc
    have hall := List.dropWhile_eq_nil_iff.mp (Prod.mk.inj hspan).2 '%' hc
    simp at hall
  · split at h
    · cases h
    · cases h

theorem percent_notMem_of_readAddress {s : List Char} (h : readAddress s = some a) : '%' ∉ s := by
  obtain ⟨hparse, hscope⟩ := Option.filter_eq_some_iff.mp h
  unfold IPAddress.ofChars at hparse
  split at hparse
  · next ip hip =>
    intro hc
    rcases mem_of_parseIPv4 hip hc with hc | hc
    · exact absurd hc (by decide)
    · cases hc
  · obtain ⟨⟨address, scope⟩, hsplit, hparse⟩ := Option.bind_eq_some_iff.mp hparse
    obtain ⟨ip, -, hip⟩ := Option.bind_eq_some_iff.mp hparse
    obtain rfl := Option.some.inj hip
    obtain rfl : scope = none := of_decide_eq_true hscope
    exact percent_notMem_of_splitScopeId hsplit

theorem isDigit_of_parseOctet {s : List Char} (h : parseOctet s = some n) (hc : c ∈ s) :
    c.isDigit = true := by
  unfold parseOctet at h
  split at h
  · cases h
  · next hbad =>
    have hall : s.all Char.isDigit = true := by
      by_contra hno
      exact hbad (.inr (.inl hno))
    exact List.all_eq_true.mp hall c hc

/-- What is read carries no zone. -/
theorem percent_notMem_of_readCidr {s : String} (h : readCidr s = some i) : '%' ∉ s.toList := by
  unfold readCidr readCidrChars at h
  have hjoin : ['/'].intercalate (s.toList.splitOn '/') = s.toList := List.intercalate_splitOn '/'
  split at h
  · next address hs =>
    obtain ⟨a, ha, -⟩ := Option.bind_eq_some_iff.mp h
    rw [hs] at hjoin
    rw [← hjoin]
    simpa using percent_notMem_of_readAddress ha
  · next address length hs =>
    obtain ⟨a, ha, h⟩ := Option.bind_eq_some_iff.mp h
    obtain ⟨prefixlen, hp, -⟩ := Option.bind_eq_some_iff.mp h
    rw [hs] at hjoin
    rw [← hjoin]
    intro hc
    rw [List.intercalate_cons_cons, List.intercalate_singleton, List.append_assoc, List.mem_append] at hc
    rcases hc with hc | hc
    · exact percent_notMem_of_readAddress ha hc
    · rcases List.mem_cons.mp hc with hc | hc
      · cases hc
      · exact absurd (isDigit_of_parseOctet hp hc) (by decide)
  · cases h

end Net
