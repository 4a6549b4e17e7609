import ShuttleGate.Net.Address
import ShuttleGate.Digits
import Mathlib.Data.List.Basic
import Mathlib.Data.List.TakeDrop
import Mathlib.Data.List.TakeWhile

/-! # The text of addresses

Dotted decimal for IPv4, compressed hextets for IPv6 (an IPv4-mapped address keeps its dotted
tail), a zone after `%` and a prefix length after `/`. `IPAddress.ofText` is the strict parser.
Printing and parsing compose to the identity (`IPAddress.ofText_text`), so distinct addresses
have distinct texts. -/

namespace Net

/-! ## Numbers -/

/-- A decimal octet: digits only, no leading zero, at most 255. -/
def parseOctet (s : List Char) : Option Nat :=
  if s = [] ∨ ¬ s.all Char.isDigit ∨ s.length > 3 ∨ (s ≠ ['0'] ∧ s.head? = some '0') then none
  else
    let n := Nat.ofDigitChars 10 s 0
    if n > 255 then none else some n

def isHexDigit (c : Char) : Bool :=
  c.isDigit || ('a' ≤ c && c ≤ 'f') || ('A' ≤ c && c ≤ 'F')

/-- The value of one hexadecimal digit. -/
def hexValue (c : Char) : Nat :=
  if c.isDigit then c.toNat - '0'.toNat
  else if 'a' ≤ c then c.toNat - 'a'.toNat + 10
  else c.toNat - 'A'.toNat + 10

def ofHexChars (s : List Char) : Nat := s.foldl (fun n c => 16 * n + hexValue c) 0

/-- One to four hexadecimal digits. -/
def parseHextet (s : List Char) : Option Nat :=
  if s = [] ∨ ¬ s.all isHexDigit ∨ s.length > 4 then none else some (ofHexChars s)

theorem parseOctet_toDigits (h : n < 256) : parseOctet (Nat.toDigits 10 n) = some n := by
  have hlen := Nat.length_toDigits_le (b := 10) (k := 3) (by decide) (by decide)
    (by omega : n < 10 ^ 3)
  have hdig : (Nat.toDigits 10 n).all Char.isDigit = true :=
    List.all_eq_true.mpr fun c hc => Nat.isDigit_of_mem_toDigits (by decide) (by decide) hc
  have hzero : ¬ (Nat.toDigits 10 n ≠ ['0'] ∧ (Nat.toDigits 10 n).head? = some '0') := by
    rintro ⟨hne, hhead⟩
    rcases Nat.eq_zero_or_pos n with rfl | hn
    · exact hne (Nat.toDigits_zero 10)
    · exact Nat.head_toDigits_ne_zero (by decide) hn hhead
  unfold parseOctet
  rw [if_neg]
  swap
  · rintro (h | h | h | h)
    exacts [Nat.toDigits_ne_nil h, h hdig, by omega, hzero h]
  simp only [Nat.ofDigitChars_ten_toDigits]
  exact if_neg (by omega)

theorem hexDigit_digitChar (h : n < 16) :
    isHexDigit n.digitChar = true ∧ hexValue n.digitChar = n ∧ n.digitChar ≠ ':' ∧
      n.digitChar ≠ '.' ∧ n.digitChar ≠ '%' ∧ n.digitChar ≠ '/' := by
  revert h; revert n; decide

theorem hex_of_mem_toDigits (h : c ∈ Nat.toDigits 16 n) : ∃ d < 16, c = d.digitChar := by
  induction n using Nat.strongRecOn with
  | ind n ih =>
    by_cases hn : n < 16
    · rw [Nat.toDigits_of_lt_base hn, List.mem_singleton] at h
      exact ⟨n, hn, h⟩
    · rw [Nat.toDigits_of_base_le (by decide) (by omega), List.mem_append,
        List.mem_singleton] at h
      rcases h with h | h
      · exact ih _ (Nat.div_lt_self (by omega) (by decide)) h
      · exact ⟨n % 16, Nat.mod_lt _ (by decide), h⟩

theorem ofHexChars_toDigits (n : Nat) : ofHexChars (Nat.toDigits 16 n) = n := by
  induction n using Nat.strongRecOn with
  | ind n ih =>
    by_cases hn : n < 16
    · rw [Nat.toDigits_of_lt_base hn]
      simp [ofHexChars, (hexDigit_digitChar hn).2.1]
    · rw [Nat.toDigits_of_base_le (by decide) (by omega), ofHexChars, List.foldl_append]
      have := ih (n / 16) (Nat.div_lt_self (by omega) (by decide))
      rw [ofHexChars] at this
      rw [this]
      simp only [List.foldl_cons, List.foldl_nil]
      rw [(hexDigit_digitChar (Nat.mod_lt n (by decide))).2.1]
      omega

theorem parseHextet_toDigits (h : n < 2 ^ 16) : parseHextet (Nat.toDigits 16 n) = some n := by
  have hlen := Nat.length_toDigits_le (b := 16) (k := 4) (by decide) (by decide)
    (by omega : n < 16 ^ 4)
  have hdig : (Nat.toDigits 16 n).all isHexDigit = true := by
    refine List.all_eq_true.mpr fun c hc => ?_
    obtain ⟨d, hd, rfl⟩ := hex_of_mem_toDigits hc
    exact (hexDigit_digitChar hd).1
  unfold parseHextet
  rw [if_neg (by simp only [Nat.toDigits_ne_nil, hdig, not_true, false_or]; omega),
    ofHexChars_toDigits]

/-! ## IPv4 -/

def ipv4Chars (ip : BitVec 32) : List Char :=
  ['.'].intercalate <| [24, 16, 8, 0].map fun k => Nat.toDigits 10 (ip.toNat / 2 ^ k % 256)

def parseIPv4 (s : List Char) : Option (BitVec 32) :=
  match s.splitOn '.' with
  | [a, b, c, d] => do
    let a ← parseOctet a
    let b ← parseOctet b
    let c ← parseOctet c
    let d ← parseOctet d
    return .ofNat 32 (((a * 256 + b) * 256 + c) * 256 + d)
  | _ => none

theorem parseIPv4_ipv4Chars (ip : BitVec 32) : parseIPv4 (ipv4Chars ip) = some ip := by
  have hsplit : (ipv4Chars ip).splitOn '.' =
      [24, 16, 8, 0].map fun k => Nat.toDigits 10 (ip.toNat / 2 ^ k % 256) := by
    refine List.splitOn_intercalate '.' ?_ (by simp)
    intro l hl
    obtain ⟨k, -, rfl⟩ := List.mem_map.mp hl
    exact Nat.not_mem_toDigits_ten (by decide)
  have hlt (k : Nat) : ip.toNat / 2 ^ k % 256 < 256 := Nat.mod_lt _ (by decide)
  simp only [parseIPv4, hsplit, List.map_cons, List.map_nil, parseOctet_toDigits (hlt _),
    Option.pure_def, Option.bind_eq_bind, Option.bind_some, Option.some.injEq]
  apply BitVec.eq_of_toNat_eq
  have := ip.isLt
  rw [BitVec.toNat_ofNat]
  omega

theorem mem_ipv4Chars (h : c ∈ ipv4Chars ip) : c.isDigit = true ∨ c = '.' := by
  simp only [ipv4Chars, List.map_cons, List.map_nil, List.intercalate_cons_cons,
    List.intercalate_singleton, List.mem_append, List.mem_singleton] at h
  have hd {n : Nat} (h : c ∈ Nat.toDigits 10 n) : c.isDigit = true :=
    Nat.isDigit_of_mem_toDigits (by decide) (by decide) h
  rcases h with (h | h) | (h | h) | (h | h) | h
  all_goals first | exact .inl (hd h) | exact .inr h

/-! ## IPv6 -/

/-- The eight hextets, most significant first. -/
def hextetValues (ip : BitVec 128) : List Nat :=
  [112, 96, 80, 64, 48, 32, 16, 0].map fun k => ip.toNat / 2 ^ k % 2 ^ 16

/-- A run of zeros (its start and length) with hextet `i` added. -/
def extendRun (i : Nat) (cur : Nat × Nat) : Nat × Nat :=
  (if cur.2 = 0 then i else cur.1, cur.2 + 1)

/-- The start and length of the longest run of zero hextets, the first one of several: `best` is
the longest run seen, `cur` the run that ends before index `i`. -/
def longestZeroRun (i : Nat) (best cur : Nat × Nat) : List (List Char) → Nat × Nat
  | [] => best
  | h :: hs =>
    if h = ['0'] then
      let cur := extendRun i cur
      longestZeroRun (i + 1) (if cur.2 > best.2 then cur else best) cur hs
    else longestZeroRun (i + 1) best (0, 0) hs

/-- Replace the longest run of two or more zero hextets by an empty part; a run at an end of the
address leaves a second empty part there. -/
def compressHextets (hs : List (List Char)) : List (List Char) :=
  let (start, len) := longestZeroRun 0 (0, 0) (0, 0) hs
  if len > 1 then
    (if start = 0 then [[]] else []) ++ hs.take start ++ [[]] ++ hs.drop (start + len) ++
      (if start + len = hs.length then [[]] else [])
  else hs

def ipv6Chars (ip : BitVec 128) : List Char :=
  if ip.toNat / 2 ^ 32 = 0xffff then
    "::ffff:".toList ++ ipv4Chars (.ofNat 32 ip.toNat)
  else [':'].intercalate (compressHextets ((hextetValues ip).map (Nat.toDigits 16)))

/-- An IPv4-style last part stands for two hextets. -/
def expandIPv4Suffix (parts : List (List Char)) : Option (List (List Char)) :=
  match parts.getLast? with
  | some last =>
    if '.' ∈ last then do
      let ip ← parseIPv4 last
      return parts.dropLast ++
        [Nat.toDigits 16 (ip.toNat / 2 ^ 16 % 2 ^ 16), Nat.toDigits 16 (ip.toNat % 2 ^ 16)]
    else some parts
  | none => some parts

/-- The eight hextets the parts stand for: one empty part inside is a skipped run of zeros, and
an empty part at an end is allowed only beside it. -/
def expandParts (parts : List (List Char)) : Option (List (List Char)) :=
  match parts.tail.dropLast.count [] with
  | 0 => if parts.length = 8 then some parts else none
  | 1 =>
    let skip := parts.tail.dropLast.idxOf [] + 1
    let strip (s : List (List Char)) : Option (List (List Char)) :=
      if s = [[]] then some [] else if [] ∈ s then none else some s
    do
      let hi ← strip (parts.take skip)
      let lo ← strip (parts.drop (skip + 1))
      if hi.length + lo.length < 8 then
        return hi ++ List.replicate (8 - (hi.length + lo.length)) ['0'] ++ lo
      else none
  | _ => none

def ofHextets (hs : List Nat) : Nat := hs.foldl (fun n h => 2 ^ 16 * n + h) 0

def parseIPv6 (s : List Char) : Option (BitVec 128) := do
  let parts := s.splitOn ':'
  if parts.length < 3 then none
  let parts ← expandIPv4Suffix parts
  if parts.length > 9 then none
  let hs ← (← expandParts parts).mapM parseHextet
  return .ofNat 128 (ofHextets hs)

/-! ### The zero run -/

/-- All hextets of the run are zero. -/
def ZeroRun (hs : List (List Char)) (run : Nat × Nat) : Prop :=
  ∀ j, run.1 ≤ j → j < run.1 + run.2 → hs[j]? = some ['0']

theorem zeroRun_empty : ZeroRun hs (i, 0) := fun j _ _ => by omega

theorem longestZeroRun_zero {pre hs : List (List Char)} (hbest : ZeroRun (pre ++ hs) best)
    (hcur : ZeroRun (pre ++ hs) cur) (hend : cur.2 ≠ 0 → cur.1 + cur.2 = pre.length) :
    ZeroRun (pre ++ hs) (longestZeroRun pre.length best cur hs) := by
  induction hs generalizing pre best cur with
  | nil => exact hbest
  | cons h hs ih =>
    have happ : pre ++ h :: hs = (pre ++ [h]) ++ hs := by simp
    have hlen : pre.length + 1 = (pre ++ [h]).length := by simp
    rw [longestZeroRun]
    by_cases hz : h = ['0']
    · have hends : (extendRun pre.length cur).1 + (extendRun pre.length cur).2 =
          pre.length + 1 := by
        unfold extendRun
        by_cases h0 : cur.2 = 0 <;> simp [h0]; omega
      have hcur' : ZeroRun (pre ++ h :: hs) (extendRun pre.length cur) := by
        intro j h1 h2
        by_cases hj : j = pre.length
        · subst hj hz; simp
        · unfold extendRun at h1 h2
          by_cases h0 : cur.2 = 0
          · simp only [h0, if_true] at h1 h2; omega
          · simp only [h0, if_false] at h1 h2; exact hcur j h1 (by have := hend h0; omega)
      rw [if_pos hz, hlen]
      rw [happ] at hbest hcur' ⊢
      refine ih ?_ hcur' fun _ => hends.trans hlen
      split
      · exact hcur'
      · exact hbest
    · rw [if_neg hz, hlen]
      rw [happ] at hbest ⊢
      exact ih hbest zeroRun_empty fun h => absurd rfl h

theorem zeroRun_longest (hs : List (List Char)) : ZeroRun hs (longestZeroRun 0 (0, 0) (0, 0) hs) := by
  have h : ZeroRun ([] ++ hs) (longestZeroRun [].length (0, 0) (0, 0) hs) :=
    longestZeroRun_zero zeroRun_empty zeroRun_empty fun h => absurd rfl h
  exact h

/-- A nonempty run of zeros splits the hextets around it. -/
theorem ZeroRun.split (h : ZeroRun hs (start, len)) (hlen : 0 < len) :
    start + len ≤ hs.length ∧
      hs = hs.take start ++ List.replicate len ['0'] ++ hs.drop (start + len) := by
  have hle : start + len ≤ hs.length := by
    have := h (start + len - 1) (by simp; omega) (by simp; omega)
    have := (List.getElem?_eq_some_iff.mp this).1
    omega
  refine ⟨hle, ?_⟩
  have hmid : (hs.drop start).take len = List.replicate len ['0'] := by
    refine List.ext_getElem? fun j => ?_
    by_cases hj : j < len
    · rw [List.getElem?_take_of_lt hj, List.getElem?_drop, h (start + j) (by simp) (by simp; omega),
        List.getElem?_replicate_of_lt hj]
    · rw [List.getElem?_take_eq_none (by omega), List.getElem?_eq_none (by simp; omega)]
  rw [← hmid, ← List.drop_drop, List.append_assoc, List.take_append_drop, List.take_append_drop]

theorem strip_nonempty {s : List (List Char)} (h : [] ∉ s) :
    (if s = [[]] then some [] else if [] ∈ s then none else some s) = some s := by
  rw [if_neg (fun hs => h (by simp [hs])), if_neg h]

/-- Expansion undoes compression. -/
theorem expandParts_compressHextets {hs : List (List Char)} (hlen : hs.length = 8)
    (hne : [] ∉ hs) : expandParts (compressHextets hs) = some hs := by
  have hrun := zeroRun_longest hs
  unfold compressHextets
  obtain ⟨start, len, hr⟩ : ∃ start len, longestZeroRun 0 (0, 0) (0, 0) hs = (start, len) :=
    ⟨_, _, rfl⟩
  simp only [hr] at hrun ⊢
  split
  · next hlong =>
    obtain ⟨hle, hsplit⟩ := hrun.split (by omega)
    have hA : [] ∉ hs.take start := fun h => hne (List.mem_of_mem_take h)
    have hB : [] ∉ hs.drop (start + len) := fun h => hne (List.mem_of_mem_drop h)
    -- the parts before and after the empty one, an end of the address filled with an empty part
    obtain ⟨P, hP⟩ : ∃ P, P = (if start = 0 then [[]] else []) ++ hs.take start := ⟨_, rfl⟩
    obtain ⟨S, hS⟩ : ∃ S, S = hs.drop (start + len) ++
      (if start + len = hs.length then [[]] else []) := ⟨_, rfl⟩
    have hPne : P ≠ [] ∧ [] ∉ P.tail ∧
        (if P = [[]] then some [] else if [] ∈ P then none else some P) =
          some (hs.take start) := by
      subst hP
      by_cases h0 : start = 0
      · simp [h0]
      · simp only [h0, if_false, List.nil_append]
        exact ⟨by simp [h0]; intro h; simp [h] at hlen, fun h => hA (List.mem_of_mem_tail h),
          strip_nonempty hA⟩
    have hSne : S ≠ [] ∧ [] ∉ S.dropLast ∧
        (if S = [[]] then some [] else if [] ∈ S then none else some S) =
          some (hs.drop (start + len)) := by
      subst hS
      by_cases h8 : start + len = hs.length
      · simp [h8]
      · simp only [h8, if_false, List.append_nil]
        exact ⟨by simp; omega, fun h => hB ((List.dropLast_sublist _).subset h), strip_nonempty hB⟩
    have hparts : (if start = 0 then [[]] else []) ++ hs.take start ++ [[]] ++
        hs.drop (start + len) ++ (if start + len = hs.length then [[]] else []) =
        P ++ [] :: S := by subst hP hS; simp
    have hinner : (P ++ [] :: S).tail.dropLast = P.tail ++ [] :: S.dropLast := by
      rw [List.tail_append_of_ne_nil hPne.1, List.dropLast_append_of_ne_nil (by simp),
        List.dropLast_cons_of_ne_nil hSne.1]
    have hcount : (P ++ [] :: S).tail.dropLast.count [] = 1 := by
      rw [hinner, List.count_append, List.count_cons_self, List.count_eq_zero.mpr hPne.2.1,
        List.count_eq_zero.mpr hSne.2.1]
    have hskip : (P ++ [] :: S).tail.dropLast.idxOf [] + 1 = P.length := by
      rw [hinner, List.idxOf_append_of_notMem hPne.2.1, List.idxOf_cons_self, List.length_tail]
      have := List.length_pos_iff.mpr hPne.1
      omega
    have hdrop : (P ++ [] :: S).drop (P.length + 1) = S := by
      simp [List.drop_append]
    rw [hparts]
    unfold expandParts
    have hlens : (hs.take start).length + (hs.drop (start + len)).length = 8 - len := by
      simp only [List.length_take, List.length_drop]; omega
    simp only [hcount, hskip, List.take_left, hdrop, hPne.2.2, hSne.2.2, hlens, Option.bind_eq_bind,
      Option.bind_some]
    rw [if_pos (by omega), show 8 - (8 - len) = len by omega, ← hsplit]
    rfl
  · unfold expandParts
    have hc : hs.tail.dropLast.count [] = 0 :=
      List.count_eq_zero.mpr fun h => hne (List.mem_of_mem_tail ((List.dropLast_sublist _).subset h))
    simp only [hc, hlen, if_true]

/-! ### The round trip -/

theorem mem_compressHextets (h : p ∈ compressHextets hs) : p = [] ∨ p ∈ hs := by
  unfold compressHextets at h
  split at h
  split at h
  · simp only [List.mem_append, List.mem_singleton] at h
    rcases h with (((h | h) | h) | h) | h
    · split at h <;> simp_all
    · exact .inr (List.mem_of_mem_take h)
    · exact .inl h
    · exact .inr (List.mem_of_mem_drop h)
    · split at h <;> simp_all
  · exact .inr h

theorem length_compressHextets {hs : List (List Char)} (hlen : hs.length = 8) :
    3 ≤ (compressHextets hs).length ∧ (compressHextets hs).length ≤ 9 := by
  have hrun := zeroRun_longest hs
  unfold compressHextets
  obtain ⟨start, len, hr⟩ : ∃ start len, longestZeroRun 0 (0, 0) (0, 0) hs = (start, len) :=
    ⟨_, _, rfl⟩
  simp only [hr] at hrun ⊢
  split
  · next hlong =>
    have hle := (hrun.split (by omega)).1
    simp only [List.length_append, List.length_take, List.length_drop, List.length_singleton,
      apply_ite List.length, List.length_nil]
    split_ifs <;> omega
  · omega

/-- The printed hextets of an address. -/
def hextetChars (ip : BitVec 128) : List (List Char) := (hextetValues ip).map (Nat.toDigits 16)

theorem hextetChars_hex (h : p ∈ hextetChars ip) (hc : c ∈ p) : ∃ d < 16, c = d.digitChar := by
  obtain ⟨n, -, rfl⟩ := List.mem_map.mp h
  exact hex_of_mem_toDigits hc

theorem nil_notMem_hextetChars : [] ∉ hextetChars ip := fun h => by
  obtain ⟨n, -, hn⟩ := List.mem_map.mp h
  exact Nat.toDigits_ne_nil hn

theorem mapM_parseHextet (ns : List Nat) (h : ∀ n ∈ ns, n < 2 ^ 16) :
    (ns.map (Nat.toDigits 16)).mapM parseHextet = some ns := by
  induction ns with
  | nil => rfl
  | cons n ns ih =>
    rw [List.map_cons, List.mapM_cons, parseHextet_toDigits (h n List.mem_cons_self),
      ih fun m hm => h m (List.mem_cons_of_mem n hm)]
    rfl

theorem parse_hextetChars : (hextetChars ip).mapM parseHextet = some (hextetValues ip) := by
  refine mapM_parseHextet _ fun n hn => ?_
  obtain ⟨k, -, rfl⟩ := List.mem_map.mp hn
  exact Nat.mod_lt _ (by decide)

theorem ofHextets_hextetValues : ofHextets (hextetValues ip) = ip.toNat := by
  have := ip.isLt
  simp only [ofHextets, hextetValues, List.map_cons, List.map_nil, List.foldl_cons,
    List.foldl_nil]
  omega

/-- Parts without a dot in the last one go straight to the hextets. -/
theorem expandIPv4Suffix_of_no_dot (h : ∀ p ∈ parts, '.' ∉ p) :
    expandIPv4Suffix parts = some parts := by
  unfold expandIPv4Suffix
  split
  · next last hl => exact if_neg (h last (List.mem_of_getLast? hl))
  · rfl

theorem parseIPv6_compressed (ip : BitVec 128) :
    parseIPv6 ([':'].intercalate (compressHextets (hextetChars ip))) = some ip := by
  have hlen : (hextetChars ip).length = 8 := by simp [hextetChars, hextetValues]
  have hbounds := length_compressHextets hlen
  have hne : compressHextets (hextetChars ip) ≠ [] := by
    intro h; rw [h] at hbounds; simp at hbounds
  have hplain (p) (hp : p ∈ compressHextets (hextetChars ip)) : ':' ∉ p ∧ '.' ∉ p := by
    rcases mem_compressHextets hp with rfl | hp
    · simp
    · constructor <;> intro hc <;> obtain ⟨d, hd, hc⟩ := hextetChars_hex hp hc
      · exact (hexDigit_digitChar hd).2.2.1 hc.symm
      · exact (hexDigit_digitChar hd).2.2.2.1 hc.symm
  have hsplit : ([':'].intercalate (compressHextets (hextetChars ip))).splitOn ':' =
      compressHextets (hextetChars ip) :=
    List.splitOn_intercalate ':' (fun p hp => (hplain p hp).1) hne
  have hsuffix := expandIPv4Suffix_of_no_dot fun p hp => (hplain p hp).2
  have hexp := expandParts_compressHextets hlen nil_notMem_hextetChars
  simp only [parseIPv6, hsplit, hsuffix, hexp, parse_hextetChars, ofHextets_hextetValues,
    Option.bind_eq_bind, Option.bind_some, Option.pure_def, if_neg (Nat.not_lt.mpr hbounds.1),
    if_neg (Nat.not_lt.mpr hbounds.2), BitVec.ofNat_toNat, BitVec.setWidth_eq]

theorem parseIPv6_mapped {ip : BitVec 128} (h : ip.toNat / 2 ^ 32 = 0xffff) :
    parseIPv6 ("::ffff:".toList ++ ipv4Chars (.ofNat 32 ip.toNat)) = some ip := by
  obtain ⟨v4, hv4⟩ : ∃ v4, v4 = BitVec.ofNat 32 ip.toNat := ⟨_, rfl⟩
  rw [← hv4]
  have hcolon : ':' ∉ ipv4Chars v4 := fun hc => by
    rcases mem_ipv4Chars hc with h | h <;> exact absurd h (by decide)
  have hdot : '.' ∈ ipv4Chars v4 := by
    simp [ipv4Chars]
  have hsplit : ("::ffff:".toList ++ ipv4Chars v4).splitOn ':' =
      [[], [], "ffff".toList, ipv4Chars v4] := by
    have hjoin : [':'].intercalate [[], [], "ffff".toList, ipv4Chars v4] =
      "::ffff:".toList ++ ipv4Chars v4 := by simp
    rw [← hjoin]
    exact List.splitOn_intercalate ':' (by simp [hcolon]) (by simp)
  have hsuffix : expandIPv4Suffix [[], [], "ffff".toList, ipv4Chars v4] =
      some [[], [], "ffff".toList, Nat.toDigits 16 (v4.toNat / 2 ^ 16 % 2 ^ 16),
        Nat.toDigits 16 (v4.toNat % 2 ^ 16)] := by
    simp [expandIPv4Suffix, hdot, parseIPv4_ipv4Chars]
  obtain ⟨hi, hhi⟩ : ∃ hi, hi = v4.toNat / 2 ^ 16 % 2 ^ 16 := ⟨_, rfl⟩
  obtain ⟨lo, hlo⟩ : ∃ lo, lo = v4.toNat % 2 ^ 16 := ⟨_, rfl⟩
  have hexp : expandParts [[], [], "ffff".toList, Nat.toDigits 16 hi, Nat.toDigits 16 lo] =
      some (List.replicate 5 ['0'] ++
        ["ffff".toList, Nat.toDigits 16 hi, Nat.toDigits 16 lo]) := by
    have hn {n : Nat} : ¬ [] = Nat.toDigits 16 n := fun h => Nat.toDigits_ne_nil h.symm
    simp [expandParts, hn]
  have hparse : (List.replicate 5 ['0'] ++
      ["ffff".toList, Nat.toDigits 16 hi, Nat.toDigits 16 lo]).mapM parseHextet =
      some [0, 0, 0, 0, 0, 0xffff, hi, lo] := by
    refine mapM_parseHextet [0, 0, 0, 0, 0, 0xffff, hi, lo] fun n hn => ?_
    simp only [List.mem_cons, List.not_mem_nil, or_false] at hn
    omega
  have hval : ofHextets [0, 0, 0, 0, 0, 0xffff, hi, lo] = ip.toNat := by
    have hv : v4.toNat = ip.toNat % 2 ^ 32 := by rw [hv4, BitVec.toNat_ofNat]
    simp only [ofHextets, List.foldl_cons, List.foldl_nil]
    omega
  rw [← hhi, ← hlo] at hsuffix
  simp only [parseIPv6, hsplit, hsuffix, hexp, hparse, hval, Option.bind_eq_bind,
    Option.bind_some, Option.pure_def, BitVec.ofNat_toNat, BitVec.setWidth_eq]
  rfl

theorem parseIPv6_ipv6Chars (ip : BitVec 128) : parseIPv6 (ipv6Chars ip) = some ip := by
  unfold ipv6Chars
  split
  · next h => exact parseIPv6_mapped h
  · exact parseIPv6_compressed ip

/-! ## Addresses, interfaces and networks -/

namespace IPAddress

def chars : IPAddress → List Char
  | v4 ip => ipv4Chars ip
  | v6 ip none => ipv6Chars ip
  | v6 ip (some scope) => ipv6Chars ip ++ '%' :: scope.text.toList

/-- The canonical text of an address. -/
def text (a : IPAddress) : String := .ofList a.chars

/-- The zone of an IPv6 text and the text before it; `none` when the zone is malformed. -/
def splitScopeId (s : List Char) : Option (List Char × Option ScopeId) :=
  match s.span (· ≠ '%') with
  | (addr, []) => some (addr, none)
  | (addr, _ :: zone) =>
    if h : String.ofList zone ≠ "" ∧ ∀ c ∈ (String.ofList zone).toList, c ≠ '%' ∧ c ≠ '/' then
      some (addr, some ⟨.ofList zone, h.1, h.2⟩)
    else none

/-- The address a text denotes: strict IPv4, else IPv6 with an optional zone. -/
def ofChars (s : List Char) : Option IPAddress :=
  match parseIPv4 s with
  | some ip => some (v4 ip)
  | none => do
    let (addr, scope) ← splitScopeId s
    return v6 (← parseIPv6 addr) scope

def ofText (s : String) : Option IPAddress := ofChars s.toList

end IPAddress

theorem mem_of_parseIPv4 (h : parseIPv4 s = some ip) (hc : c ∈ s) : c.isDigit = true ∨ c = '.' := by
  unfold parseIPv4 at h
  split at h
  · next a b d e hs =>
    have hdig {n : Nat} {p : List Char} (hp : parseOctet p = some n) (hm : c ∈ p) :
        c.isDigit = true := by
      unfold parseOctet at hp
      split at hp
      · contradiction
      · next hn =>
        simp only [not_or, not_not] at hn
        exact List.all_eq_true.mp hn.2.1 c hm
    simp only [Option.bind_eq_bind, Option.bind_eq_some_iff] at h
    obtain ⟨_, ha, _, hb, _, hd, _, he, -⟩ := h
    rw [← show ['.'].intercalate (s.splitOn '.') = s from List.intercalate_splitOn '.', hs] at hc
    simp only [List.intercalate_cons_cons, List.intercalate_singleton, List.mem_append,
      List.mem_singleton] at hc
    rcases hc with (hc | hc) | (hc | hc) | (hc | hc) | hc
    exacts [.inl (hdig ha hc), .inr hc, .inl (hdig hb hc), .inr hc, .inl (hdig hd hc), .inr hc,
      .inl (hdig he hc)]
  · contradiction

theorem parseIPv4_eq_none (h : ':' ∈ s) : parseIPv4 s = none :=
  Option.eq_none_iff_forall_ne_some.mpr fun _ hs => by
    rcases mem_of_parseIPv4 hs h with h | h <;> exact absurd h (by decide)

theorem colon_mem_of_parseIPv6 (h : parseIPv6 s = some ip) : ':' ∈ s := by
  by_contra hc
  rw [parseIPv6, List.splitOn_eq_singleton hc] at h
  simp at h

theorem colon_mem_ipv6Chars : ':' ∈ ipv6Chars ip := colon_mem_of_parseIPv6 (parseIPv6_ipv6Chars ip)

theorem mem_intercalate {sep : Char} {ls : List (List Char)} (h : c ∈ [sep].intercalate ls) :
    c = sep ∨ ∃ l ∈ ls, c ∈ l := by
  induction ls with
  | nil => simp at h
  | cons l ls ih =>
    cases ls with
    | nil => exact .inr ⟨l, by simp, by simpa using h⟩
    | cons m ls =>
      rw [List.intercalate_cons_cons, List.append_assoc, List.mem_append, List.mem_append,
        List.mem_singleton] at h
      rcases h with h | h | h
      · exact .inr ⟨l, by simp, h⟩
      · exact .inl h
      · rcases ih h with h | ⟨k, hk, hc⟩
        · exact .inl h
        · exact .inr ⟨k, List.mem_cons_of_mem l hk, hc⟩

theorem mem_ipv6Chars (h : c ∈ ipv6Chars ip) : isHexDigit c = true ∨ c = ':' ∨ c = '.' := by
  have hd : c.isDigit = true → isHexDigit c = true := fun hc => by simp [isHexDigit, hc]
  unfold ipv6Chars at h
  split at h
  · rcases List.mem_append.mp h with h | h
    · have hall : ∀ c ∈ "::ffff:".toList, isHexDigit c = true ∨ c = ':' ∨ c = '.' := by decide
      exact hall c h
    · rcases mem_ipv4Chars h with h | h
      exacts [.inl (hd h), .inr (.inr h)]
  · rcases mem_intercalate h with h | ⟨p, hp, hc⟩
    · exact .inr (.inl h)
    · rcases mem_compressHextets hp with rfl | hp
      · simp at hc
      · obtain ⟨d, hlt, rfl⟩ := hextetChars_hex hp hc
        exact .inl (hexDigit_digitChar hlt).1

theorem plain_ipv6Chars : ∀ c ∈ ipv6Chars ip, c ≠ '%' ∧ c ≠ '/' := by
  intro c hc
  rcases mem_ipv6Chars hc with h | rfl | rfl
  · constructor <;> rintro rfl <;> exact absurd h (by decide)
  all_goals decide

namespace IPAddress

theorem span_zone {a : List Char} (h : ∀ c ∈ a, c ≠ '%' ∧ c ≠ '/') (zone : List Char) :
    (a ++ '%' :: zone).span (· ≠ '%') = (a, '%' :: zone) := by
  rw [List.span_eq_takeWhile_dropWhile, List.takeWhile_append_of_pos (by simpa using fun c hc => (h c hc).1),
    List.dropWhile_append_of_pos (by simpa using fun c hc => (h c hc).1)]
  simp

theorem splitScopeId_none {a : List Char} (h : ∀ c ∈ a, c ≠ '%' ∧ c ≠ '/') :
    splitScopeId a = some (a, none) := by
  have : a.span (· ≠ '%') = (a, []) := by
    rw [List.span_eq_takeWhile_dropWhile, List.takeWhile_eq_self_iff.mpr, List.dropWhile_eq_nil_iff.mpr]
    all_goals simpa using fun c hc => (h c hc).1
  simp only [splitScopeId, this]

theorem splitScopeId_some {a : List Char} (h : ∀ c ∈ a, c ≠ '%' ∧ c ≠ '/') (scope : ScopeId) :
    splitScopeId (a ++ '%' :: scope.text.toList) = some (a, some scope) := by
  simp only [splitScopeId, span_zone h, String.ofList_toList]
  rw [dif_pos ⟨scope.nonempty, scope.plain⟩]

/-- Parsing the text of an address gives the address back. -/
theorem ofChars_chars (a : IPAddress) : ofChars a.chars = some a := by
  cases a with
  | v4 ip => simp [ofChars, chars, parseIPv4_ipv4Chars]
  | v6 ip scope =>
    cases scope with
    | none =>
      simp [ofChars, chars, parseIPv4_eq_none colon_mem_ipv6Chars,
        splitScopeId_none plain_ipv6Chars, parseIPv6_ipv6Chars]
    | some scope =>
      have hcolon : ':' ∈ ipv6Chars ip ++ '%' :: scope.text.toList :=
        List.mem_append_left _ colon_mem_ipv6Chars
      simp [ofChars, chars, parseIPv4_eq_none hcolon,
        splitScopeId_some plain_ipv6Chars scope, parseIPv6_ipv6Chars]

theorem ofText_text (a : IPAddress) : ofText a.text = some a := by
  rw [ofText, text, String.toList_ofList, ofChars_chars]

theorem text_injective : Function.Injective text := fun a b h => by
  have := ofText_text a
  rw [h, ofText_text] at this
  exact (Option.some.inj this).symm

end IPAddress

/-- The text `address/prefixlen`. -/
def prefixText (a : IPAddress) (prefixlen : Nat) : String := a.text ++ "/" ++ toString prefixlen

def IPNetwork.text (n : IPNetwork) : String := prefixText n.networkAddress n.prefixlen

def IPInterface.text (i : IPInterface) : String := prefixText i.address i.prefixlen

end Net
