import ShuttleGate.Json.Value
import ShuttleGate.Digits

/-! # The JSON decoder

A recursive-descent parser for the decoder's grammar and the round trip `loads_dumps`: what the
encoder writes is read back as the same value with its keys sorted. -/

namespace Json

def isWs (c : Char) : Bool := c = ' ' || c = '\t' || c = '\n' || c = '\r'

def skipWs (s : List Char) : List Char := s.dropWhile isWs

/-! ## Strings -/

def hexDigitValue (c : Char) : Option Nat :=
  if c.isDigit then some (c.toNat - '0'.toNat)
  else if 'a' ≤ c ∧ c ≤ 'f' then some (c.toNat - 'a'.toNat + 10)
  else if 'A' ≤ c ∧ c ≤ 'F' then some (c.toNat - 'A'.toNat + 10)
  else none

def unhex4 (a b c d : Char) : Option Nat := do
  let a ← hexDigitValue a
  let b ← hexDigitValue b
  let c ← hexDigitValue c
  let d ← hexDigitValue d
  return 4096 * a + 256 * b + 16 * c + d

/-- The code units of a string literal after its opening quote, and the text after it. -/
def parseStr : List Char → Option (List Nat × List Char)
  | [] => none
  | '"' :: s => some ([], s)
  | '\\' :: 'u' :: a :: b :: c :: d :: s => do
    let unit ← unhex4 a b c d
    let (units, s) ← parseStr s
    return (unit :: units, s)
  | '\\' :: c :: s => do
    let unit ← match c with
      | '"' => some 0x22
      | '\\' => some 0x5c
      | '/' => some 0x2f
      | 'b' => some 0x8
      | 'f' => some 0xc
      | 'n' => some 0xa
      | 'r' => some 0xd
      | 't' => some 0x9
      | _ => none
    let (units, s) ← parseStr s
    return (unit :: units, s)
  | c :: s =>
    if c.toNat < 0x20 ∨ c = '\\' then none
    else do
      let (units, s) ← parseStr s
      return (c.toNat :: units, s)

/-- The characters of code units. Unpaired surrogates, which no text of the program contains,
become the replacement character. -/
def joinUnits : List Nat → List Char
  | [] => []
  | [u] => [if 0xd800 ≤ u ∧ u ≤ 0xdfff then '\ufffd' else .ofNat u]
  | u :: v :: rest =>
    if 0xd800 ≤ u ∧ u ≤ 0xdbff ∧ 0xdc00 ≤ v ∧ v ≤ 0xdfff then
      .ofNat (0x10000 + (u - 0xd800) * 1024 + (v - 0xdc00)) :: joinUnits rest
    else (if 0xd800 ≤ u ∧ u ≤ 0xdfff then '\ufffd' else .ofNat u) :: joinUnits (v :: rest)

/-! ## Numbers -/

def scanInt : List Char → Option (List Char × List Char)
  | [] => none
  | '0' :: s => some (['0'], s)
  | c :: s => if c.isDigit then some (c :: s.takeWhile (·.isDigit), s.dropWhile (·.isDigit)) else none

def scanFrac : List Char → List Char × List Char
  | '.' :: d :: s =>
    if d.isDigit then ('.' :: d :: s.takeWhile (·.isDigit), s.dropWhile (·.isDigit))
    else ([], '.' :: d :: s)
  | s => ([], s)

def scanExp : List Char → List Char × List Char
  | e :: sign :: d :: s =>
    if e = 'e' ∨ e = 'E' then
      if (sign = '+' ∨ sign = '-') ∧ d.isDigit then
        (e :: sign :: d :: s.takeWhile (·.isDigit), s.dropWhile (·.isDigit))
      else if sign.isDigit then
        (e :: sign :: (d :: s).takeWhile (·.isDigit), (d :: s).dropWhile (·.isDigit))
      else ([], e :: sign :: d :: s)
    else ([], e :: sign :: d :: s)
  | [e, d] => if (e = 'e' ∨ e = 'E') ∧ d.isDigit then ([e, d], []) else ([], [e, d])
  | s => ([], s)

def scanUnsigned (negative : Bool) (s : List Char) : Option (Json × List Char) := do
  let (digits, s) ← scanInt s
  let (frac, s) := scanFrac s
  let (exp, s) := scanExp s
  if frac = [] ∧ exp = [] then
    let n : Int := Nat.ofDigitChars 10 digits 0
    return (.int (if negative then -n else n), s)
  else return (.float ((if negative then ['-'] else []) ++ digits ++ frac ++ exp), s)

def scanNumber : List Char → Option (Json × List Char)
  | '-' :: s => scanUnsigned true s
  | s => scanUnsigned false s

/-! ## Values -/

/-- `dict(pairs)`: a repeated key keeps its first place and its last value. -/
def dictOf : List (String × Json) → List (String × Json)
  | [] => []
  | (key, value) :: fields =>
    let rest := dictOf fields
    (key, (rest.lookup key).getD value) :: rest.filter (·.1 ≠ key)

mutual

/-- A value at the start of a text, and the text after it. -/
def parseValue : Nat → List Char → Option (Json × List Char)
  | 0, _ => none
  | n + 1, s =>
    match s with
    | '"' :: s => do
      let (units, s) ← parseStr s
      return (.str (.ofList (joinUnits units)), s)
    | '[' :: s =>
      match skipWs s with
      | ']' :: s => some (.arr [], s)
      | s => do
        let (items, s) ← parseItems n s
        return (.arr items, s)
    | '\x7b' :: s =>
      match skipWs s with
      | '\x7d' :: s => some (.obj [], s)
      | '"' :: s => do
        let (fields, s) ← parseFields n s
        return (.obj (dictOf fields), s)
      | _ => none
    | 'n' :: 'u' :: 'l' :: 'l' :: s => some (.null, s)
    | 't' :: 'r' :: 'u' :: 'e' :: s => some (.bool true, s)
    | 'f' :: 'a' :: 'l' :: 's' :: 'e' :: s => some (.bool false, s)
    | 'N' :: 'a' :: 'N' :: s => some (.float ['N', 'a', 'N'], s)
    | 'I' :: 'n' :: 'f' :: 'i' :: 'n' :: 'i' :: 't' :: 'y' :: s => some (.float "Infinity".toList, s)
    | '-' :: 'I' :: 'n' :: 'f' :: 'i' :: 'n' :: 'i' :: 't' :: 'y' :: s =>
      some (.float "-Infinity".toList, s)
    | s => scanNumber s

/-- The items of a list up to its closing bracket. -/
def parseItems : Nat → List Char → Option (List Json × List Char)
  | 0, _ => none
  | n + 1, s => do
    let (item, s) ← parseValue n s
    match skipWs s with
    | ']' :: s => some ([item], s)
    | ',' :: s => do
      let (items, s) ← parseItems n (skipWs s)
      return (item :: items, s)
    | _ => none

/-- The fields of an object from inside the first key to its closing brace. -/
def parseFields : Nat → List Char → Option (List (String × Json) × List Char)
  | 0, _ => none
  | n + 1, s => do
    let (units, s) ← parseStr s
    let key := String.ofList (joinUnits units)
    match skipWs s with
    | ':' :: s => do
      let (value, s) ← parseValue n (skipWs s)
      match skipWs s with
      | '\x7d' :: s => some ([(key, value)], s)
      | ',' :: s =>
        match skipWs s with
        | '"' :: s => do
          let (fields, s) ← parseFields n s
          return ((key, value) :: fields, s)
        | _ => none
      | _ => none
    | _ => none

end

/-- `json.loads` -/
def loads (text : String) : Option Json :=
  match parseValue (text.toList.length + 1) (skipWs text.toList) with
  | some (v, s) => if skipWs s = [] then some v else none
  | none => none

/-- `json.loads` of a text given by its characters. -/
def parseChars (cs : List Char) : Option Json :=
  match parseValue (cs.length + 1) (skipWs cs) with
  | some (v, s) => if skipWs s = [] then some v else none
  | none => none

theorem loads_ofList (cs : List Char) : loads (.ofList cs) = parseChars cs := by
  rw [loads, String.toList_ofList]
  rfl

/-! ## Strings are read back -/

theorem hexDigitValue_digitChar {d : Nat} (h : d < 16) :
    hexDigitValue (Nat.digitChar d) = some d := by
  have : ∀ d : Fin 16, hexDigitValue (Nat.digitChar d) = some d.val := by decide
  exact this ⟨d, h⟩

theorem unhex4_hex4 {n : Nat} (h : n < 0x10000) :
    ∃ a b c d, hex4 n = [a, b, c, d] ∧ unhex4 a b c d = some n := by
  refine ⟨_, _, _, _, rfl, ?_⟩
  simp only [unhex4, hexDigitValue_digitChar (Nat.mod_lt _ (by decide : 0 < 16)),
    Option.bind_eq_bind, Option.bind_some, Option.pure_def, Option.some.injEq]
  omega

theorem parseStr_escapeUnit {n : Nat} (h : n < 0x10000) (s : List Char) :
    parseStr (escapeUnit n ++ s) = (parseStr s).map fun r => (n :: r.1, r.2) := by
  obtain ⟨a, b, c, d, hn, hu⟩ := unhex4_hex4 h
  simp only [escapeUnit, hn, List.cons_append, List.nil_append, parseStr, hu]
  cases parseStr s <;> rfl

theorem parseStr_raw {c : Char} (hq : c ≠ '"') (hb : c ≠ '\\') (h : 0x20 ≤ c.toNat)
    (s : List Char) :
    parseStr (c :: s) = (parseStr s).map fun r => (c.toNat :: r.1, r.2) := by
  have hlt : ¬ (c.toNat < 0x20 ∨ c = '\\') := by simp [hb]; omega
  rw [parseStr]
  · rw [if_neg hlt]
    cases parseStr s <;> rfl
  · exact hq
  · intro _ _ _ _ _ hc
    exact absurd hc hb
  · intro _ _ hc
    exact absurd hc hb

/-- The code units of a character. -/
def units (c : Char) : List Nat :=
  if c.toNat < 0x10000 then [c.toNat]
  else [0xd800 + (c.toNat - 0x10000) / 1024, 0xdc00 + (c.toNat - 0x10000) % 1024]

theorem char_valid (c : Char) : c.toNat < 0xd800 ∨ 0xdfff < c.toNat ∧ c.toNat < 0x110000 :=
  c.valid

theorem units_small {c : Char} (h : c.toNat < 0x10000) : units c = [c.toNat] := if_pos h

/-- One escaped character is read as its code units. -/
theorem parseStr_escapeChar (c : Char) (s : List Char) :
    parseStr (escapeChar c ++ s) = (parseStr s).map fun r => (units c ++ r.1, r.2) := by
  have hv := char_valid c
  have escape : ∀ e ∈ shortEscapes, parseStr ('\\' :: e.2 :: s) =
      (parseStr s).map fun r => (units e.1 ++ r.1, r.2) := by
    simp only [shortEscapes, List.forall_mem_cons]
    refine ⟨?_, ?_, ?_, ?_, ?_, ?_, ?_, nofun⟩
    all_goals
      rw [parseStr]
      cases parseStr s <;> rfl
  refine escapeChar_rule (P := fun cs => parseStr (cs ++ s) =
    (parseStr s).map fun r => (units c ++ r.1, r.2)) (fun e he hc => ?_) (fun hq hb h => ?_)
    (fun h => ?_) fun h => ?_
  · rw [hc]
    exact escape e he
  · rw [units_small (by omega)]
    exact parseStr_raw hq hb h.1 s
  · rw [units_small h]
    exact parseStr_escapeUnit h s
  · rw [List.append_assoc, parseStr_escapeUnit (by omega), parseStr_escapeUnit (by omega), units,
      if_neg h]
    cases parseStr s <;> rfl

theorem parseStr_escaped (cs : List Char) (s : List Char) :
    parseStr (cs.flatMap escapeChar ++ '"' :: s) = some (cs.flatMap units, s) := by
  induction cs with
  | nil => simp [parseStr]
  | cons c cs ih =>
    rw [List.flatMap_cons, List.append_assoc, parseStr_escapeChar, ih]
    rfl

theorem joinUnits_cons {u : Nat} (h : u < 0xd800 ∨ 0xdfff < u) (us : List Nat) :
    joinUnits (u :: us) = .ofNat u :: joinUnits us := by
  have h1 : ¬ (0xd800 ≤ u ∧ u ≤ 0xdfff) := by omega
  cases us with
  | nil => simp [joinUnits, h1]
  | cons v us => rw [joinUnits, if_neg (by omega), if_neg h1]

theorem joinUnits_pair {u v : Nat} (hu : u < 0x400) (hv : v < 0x400) (us : List Nat) :
    joinUnits ((0xd800 + u) :: (0xdc00 + v) :: us) =
      .ofNat (0x10000 + u * 1024 + v) :: joinUnits us := by
  rw [joinUnits, if_pos (by omega), Nat.add_sub_cancel_left, Nat.add_sub_cancel_left]

theorem joinUnits_units (cs : List Char) : joinUnits (cs.flatMap units) = cs := by
  induction cs with
  | nil => rfl
  | cons c cs ih =>
    have hv := char_valid c
    rw [List.flatMap_cons, units]
    split
    · rw [List.singleton_append, joinUnits_cons (by omega), ih, Char.ofNat_toNat]
    · rw [List.cons_append, List.singleton_append, joinUnits_pair (by omega) (by omega), ih]
      have hn : 0x10000 + (c.toNat - 0x10000) / 1024 * 1024 + (c.toNat - 0x10000) % 1024 =
        c.toNat := by omega
      rw [hn, Char.ofNat_toNat]

/-- A string literal is read back. -/
theorem parseStr_strChars (s : String) (rest : List Char) :
    ∃ us, parseStr ((s.toList.flatMap escapeChar ++ ['"']) ++ rest) = some (us, rest) ∧
      String.ofList (joinUnits us) = s := by
  refine ⟨s.toList.flatMap units, ?_, ?_⟩
  · rw [List.append_assoc]
    exact parseStr_escaped s.toList rest
  · rw [joinUnits_units, String.ofList_toList]

/-! ## Numbers are read back -/

/-- No character that could continue a number. -/
def NumberEnd (rest : List Char) : Prop :=
  ∀ c ∈ rest.head?, c.isDigit = false ∧ c ≠ '.' ∧ c ≠ 'e' ∧ c ≠ 'E'

theorem scanInt_toDigits (n : Nat) (h : NumberEnd rest) :
    scanInt (Nat.toDigits 10 n ++ rest) = some (Nat.toDigits 10 n, rest) := by
  rcases Nat.eq_zero_or_pos n with rfl | hn
  · rfl
  · have hd := Nat.all_isDigit_toDigits n
    have hz := Nat.head_toDigits_ne_zero (b := 10) (by decide) hn
    cases ht : Nat.toDigits 10 n with
    | nil => exact absurd ht Nat.toDigits_ne_nil
    | cons c ds =>
      rw [ht] at hd hz
      have hc : c ≠ '0' := fun h => hz (h ▸ rfl)
      obtain ⟨htake, hdrop⟩ := List.takeWhile_append_stop (p := (·.isDigit)) (s := rest)
        (fun d hds => hd d (.tail _ hds)) (fun c hc => (h c hc).1)
      rw [List.cons_append, scanInt]
      · rw [if_pos (hd c (.head _)), htake, hdrop]
      · exact hc

theorem scanFrac_end (h : NumberEnd rest) : scanFrac rest = ([], rest) := by
  cases rest with
  | nil => rfl
  | cons c s =>
    have hc := (h c rfl).2.1
    rw [scanFrac]
    intro d s' hs
    exact absurd (List.cons.inj hs).1 hc

theorem scanExp_end (h : NumberEnd rest) : scanExp rest = ([], rest) := by
  cases rest with
  | nil => rfl
  | cons c s =>
    have hc := (h c rfl).2.2
    rcases s with _ | ⟨d, _ | ⟨e, s⟩⟩ <;> simp [scanExp, hc]

theorem scanUnsigned_toDigits (neg : Bool) (n : Nat) (h : NumberEnd rest) :
    scanUnsigned neg (Nat.toDigits 10 n ++ rest) =
      some (.int (if neg then -n else n), rest) := by
  simp only [scanUnsigned, scanInt_toDigits n h, Option.bind_eq_bind, Option.bind_some,
    scanFrac_end h, scanExp_end h, Nat.ofDigitChars_ten_toDigits]
  rfl

theorem scanNumber_intChars (n : Int) (h : NumberEnd rest) :
    scanNumber (intChars n ++ rest) = some (.int n, rest) := by
  cases n with
  | negSucc n => exact scanUnsigned_toDigits true (n + 1) h
  | ofNat n =>
    have hneg : ∀ s, Nat.toDigits 10 n ++ rest ≠ '-' :: s := by
      intro s hs
      have hd := Nat.all_isDigit_toDigits n
      cases ht : Nat.toDigits 10 n with
      | nil => exact Nat.toDigits_ne_nil ht
      | cons c ds =>
        rw [ht, List.cons_append] at hs
        have := hd c (ht ▸ .head _)
        rw [(List.cons.inj hs).1] at this
        exact absurd this (by decide)
    rw [intChars, scanNumber]
    · exact scanUnsigned_toDigits false n h
    · exact hneg

/-- The first character of a number. -/
theorem head_of_scanNumber (h : scanNumber (c :: s) = some r) : c = '-' ∨ c.isDigit = true := by
  by_cases hc : c = '-'
  · exact .inl hc
  · refine .inr ?_
    rw [scanNumber] at h
    · by_contra hd
      have : scanInt (c :: s) = none := by
        rw [scanInt, if_neg hd]
        intro h0
        exact hd (h0 ▸ rfl)
      simp [scanUnsigned, this] at h
    · intro s' hs
      exact hc (List.cons.inj hs).1

/-! ## Values are read back -/

/-- A lexeme the decoder reads as one float, whatever follows. -/
def IsFloat (lexeme : List Char) : Prop :=
  ∀ n rest, NumberEnd rest → parseValue (n + 1) (lexeme ++ rest) = some (.float lexeme, rest)

mutual

/-- Distinct keys and proper float lexemes throughout: what an encoder can be given. -/
def WellFormed : Json → Prop
  | float lexeme => IsFloat lexeme
  | arr items => ItemsWellFormed items
  | obj fields => (fields.map (·.1)).Nodup ∧ FieldsWellFormed fields
  | _ => True

def ItemsWellFormed : List Json → Prop
  | [] => True
  | item :: items => item.WellFormed ∧ ItemsWellFormed items

def FieldsWellFormed : List (String × Json) → Prop
  | [] => True
  | (_, value) :: fields => value.WellFormed ∧ FieldsWellFormed fields

end

mutual

/-- The fuel a value needs. -/
def cost : Json → Nat
  | arr items => 1 + itemsCost items
  | obj fields => 1 + fieldsCost fields
  | _ => 1

def itemsCost : List Json → Nat
  | [] => 0
  | item :: items => 1 + item.cost + itemsCost items

def fieldsCost : List (String × Json) → Nat
  | [] => 0
  | (_, value) :: fields => 1 + value.cost + fieldsCost fields

end

theorem dictOf_nodup {fields : List (String × Json)} (h : (fields.map (·.1)).Nodup) :
    dictOf fields = fields := by
  induction fields with
  | nil => rfl
  | cons field fields ih =>
    obtain ⟨key, value⟩ := field
    rw [List.map_cons, List.nodup_cons] at h
    have hkey : ∀ f ∈ fields, f.1 ≠ key := fun f hf hk =>
      h.1 (List.mem_map.mpr ⟨f, hf, hk⟩)
    have hlookup : fields.lookup key = none := by
      rw [List.lookup_eq_none_iff]
      intro f hf
      simpa using (hkey f hf).symm
    rw [dictOf, ih h.2, hlookup, Option.getD_none,
      List.filter_eq_self.mpr fun f hf => decide_eq_true (hkey f hf)]

/-! Separators are whitespace around one character. -/

theorem skipWs_append {ws : List Char} (h : ∀ c ∈ ws, isWs c = true) (s : List Char) :
    skipWs (ws ++ s) = skipWs s := List.dropWhile_append_of_pos h

theorem newline_ws (st : Style) (level : Nat) : ∀ c ∈ st.newline level, isWs c = true := by
  cases st with
  | indented =>
    intro c hc
    rcases List.mem_cons.mp hc with rfl | hc
    · rfl
    · rw [List.eq_of_mem_replicate hc]
      rfl
  | compact | plain => intro c hc; cases hc

theorem comma_eq (st : Style) : ∃ ws, st.comma = ',' :: ws ∧ ∀ c ∈ ws, isWs c = true := by
  cases st
  exacts [⟨[], rfl, by simp⟩, ⟨[], rfl, by simp⟩, ⟨[' '], rfl, by simp [isWs]⟩]

theorem colon_eq (st : Style) : ∃ ws, st.colon = ':' :: ws ∧ ∀ c ∈ ws, isWs c = true := by
  cases st
  exacts [⟨[' '], rfl, by simp [isWs]⟩, ⟨[], rfl, by simp⟩, ⟨[' '], rfl, by simp [isWs]⟩]

/-- A text that starts no other value is scanned for a number. -/
theorem parseValue_other (h : ∀ d ∈ ['"', '[', '\x7b', 'n', 't', 'f', 'N', 'I', '-'], c ≠ d) :
    parseValue (n + 1) (c :: s) = scanNumber (c :: s) := by
  rw [parseValue]
  all_goals
    intro s' hs
    exact absurd (List.cons.inj hs).1 (h _ (by decide))

/-- No value starts with whitespace. -/
theorem skipWs_of_parseValue (h : parseValue n s = some r) : skipWs s = s := by
  cases s with
  | nil => rfl
  | cons c s =>
    refine List.dropWhile_cons_of_neg fun hw => ?_
    cases n with
    | zero => cases h
    | succ n =>
      simp only [isWs, Bool.or_eq_true, decide_eq_true_eq] at hw
      have hn : scanNumber (c :: s) = none := by
        refine Option.eq_none_iff_forall_ne_some.mpr fun r hr => ?_
        rcases head_of_scanNumber hr with hc | hc <;> rcases hw with ((rfl | rfl) | rfl) | rfl <;>
          exact absurd hc (by decide)
      have hother : parseValue (n + 1) (c :: s) = scanNumber (c :: s) := by
        refine parseValue_other ?_
        rcases hw with ((rfl | rfl) | rfl) | rfl <;> decide
      rw [hother, hn] at h
      cases h

/-- A number is not one of the other values. -/
theorem parseValue_digit (h : c.isDigit = true) :
    parseValue (n + 1) (c :: s) = scanNumber (c :: s) := by
  refine parseValue_other fun d hd hc => ?_
  have hdigits : ∀ d ∈ ['"', '[', '\x7b', 'n', 't', 'f', 'N', 'I', '-'], d.isDigit = false := by
    decide
  rw [hc, hdigits d hd] at h
  cases h

theorem parseValue_intChars (m : Int) (h : NumberEnd rest) :
    parseValue (n + 1) (intChars m ++ rest) = some (.int m, rest) := by
  rw [← scanNumber_intChars m h]
  cases m with
  | ofNat k =>
    cases ht : Nat.toDigits 10 k with
    | nil => exact absurd ht Nat.toDigits_ne_nil
    | cons c ds =>
      rw [intChars, ht]
      exact parseValue_digit (Nat.all_isDigit_toDigits k c (ht ▸ .head _))
  | negSucc k =>
    cases ht : Nat.toDigits 10 (k + 1) with
    | nil => exact absurd ht Nat.toDigits_ne_nil
    | cons c ds =>
      have hd := Nat.all_isDigit_toDigits (k + 1) c (ht ▸ .head _)
      have hc : c ≠ 'I' := fun hc => by simp [hc] at hd
      rw [intChars, ht, List.cons_append, List.cons_append, parseValue]
      all_goals
        intro s' hs
        first
        | exact absurd (List.cons.inj (List.cons.inj hs).2).1 hc
        | exact absurd (List.cons.inj hs).1 (by decide)

/-! What follows a value inside a list or an object cannot continue a number. -/

theorem numberEnd_ws {ws : List Char} (h : ∀ c ∈ ws, isWs c = true)
    (hc : c = ',' ∨ c = ']' ∨ c = '\x7d') (s : List Char) : NumberEnd (ws ++ c :: s) := by
  intro d hd
  cases ws with
  | nil =>
    obtain rfl : c = d := Option.some.inj hd
    rcases hc with rfl | rfl | rfl <;> decide
  | cons w ws =>
    obtain rfl : w = d := Option.some.inj hd
    have hw := h w (.head _)
    simp only [isWs, Bool.or_eq_true, decide_eq_true_eq] at hw
    rcases hw with ((rfl | rfl) | rfl) | rfl <;> decide

theorem skipWs_stop (h : isWs c = false) (s : List Char) : skipWs (c :: s) = c :: s :=
  List.dropWhile_cons_of_neg (by simp [h])

theorem skipWs_of_parseItems (h : parseItems n s = some r) : skipWs s = s := by
  cases n with
  | zero => cases h
  | succ n =>
    obtain ⟨_, hv, -⟩ := Option.bind_eq_some_iff.mp h
    exact skipWs_of_parseValue hv

theorem parseValue_str (s : String) (n : Nat) (rest : List Char) :
    parseValue (n + 1) (strChars s ++ rest) = some (.str s, rest) := by
  obtain ⟨us, hus, hs⟩ := parseStr_strChars s rest
  rw [strChars, List.cons_append, parseValue, hus]
  simp only [Option.bind_eq_bind, Option.bind_some, Option.pure_def, hs]

/-- No item starts with a closing bracket. -/
theorem parseValue_arr (h : parseItems n (skipWs s) = some (items, rest)) :
    parseValue (n + 1) ('[' :: s) = some (.arr items, rest) := by
  rw [parseValue]
  split
  · next s' hs =>
    rw [hs] at h
    rcases n with _ | _ | n
    · cases h
    · cases h
    · have hn : scanNumber (']' :: s') = none := by
        refine Option.eq_none_iff_forall_ne_some.mpr fun r hr => ?_
        rcases head_of_scanNumber hr with hc | hc <;> exact absurd hc (by decide)
      simp [parseItems, parseValue, hn] at h
  · rw [h]
    rfl

mutual

theorem parseValue_chars (st : Style) (level : Nat) (v : Json) (hv : v.WellFormed) (n : Nat)
    (hn : v.cost ≤ n) (rest : List Char) (hr : NumberEnd rest) :
    parseValue n (v.chars st level ++ rest) = some (v, rest) := by
  cases n with
  | zero => cases v <;> simp [cost] at hn
  | succ n =>
    match v with
    | null => simp [chars, parseValue]
    | bool true => simp [chars, parseValue]
    | bool false => simp [chars, parseValue]
    | int m => rw [chars, parseValue_intChars m hr]
    | float lexeme => exact hv n rest hr
    | str s => rw [chars, parseValue_str s n rest]
    | arr [] => simp [chars, parseValue, skipWs_stop (c := ']') rfl]
    | arr (item :: items) =>
      simp only [cost] at hn
      have hitems := parseItems_chars st (level + 1) level item items hv n (by omega) rest
      have hskip := skipWs_of_parseItems hitems
      have htext : (arr (item :: items)).chars st level ++ rest =
          '[' :: (st.newline (level + 1) ++ (item.chars st (level + 1) ++
            itemsChars st (level + 1) items ++ st.newline level ++ ']' :: rest)) := by
        simp only [chars, List.cons_append, List.append_assoc, List.nil_append]
      rw [htext]
      refine parseValue_arr ?_
      rw [skipWs_append (newline_ws st _), hskip, hitems]
    | obj [] => simp [chars, parseValue, skipWs_stop (c := '\x7d') rfl]
    | obj ((key, value) :: fields) =>
      simp only [cost] at hn
      have hfields := parseFields_chars st (level + 1) level key value fields hv.2 n (by omega) rest
      have htext : (obj ((key, value) :: fields)).chars st level ++ rest =
          '\x7b' :: (st.newline (level + 1) ++ '"' :: (key.toList.flatMap escapeChar ++ ['"'] ++
            st.colon ++ value.chars st (level + 1) ++ fieldsChars st (level + 1) fields ++
            st.newline level ++ '\x7d' :: rest)) := by
        simp only [chars, strChars, List.cons_append, List.append_assoc, List.nil_append]
      rw [htext, parseValue, skipWs_append (newline_ws st _), skipWs_stop (c := '"') rfl]
      simp only [hfields, Option.bind_eq_bind, Option.bind_some, Option.pure_def,
        dictOf_nodup hv.1]
termination_by n

theorem parseItems_chars (st : Style) (level level' : Nat) (item : Json) (items : List Json)
    (h : ItemsWellFormed (item :: items)) (n : Nat) (hn : itemsCost (item :: items) ≤ n)
    (rest : List Char) :
    parseItems n (item.chars st level ++ itemsChars st level items ++ st.newline level' ++
      ']' :: rest) = some (item :: items, rest) := by
  cases n with
  | zero => simp [itemsCost] at hn
  | succ n =>
    rw [itemsCost] at hn
    match items with
    | [] =>
      have hvalue := parseValue_chars st level item h.1 n (by omega)
        (st.newline level' ++ ']' :: rest) (numberEnd_ws (newline_ws st _) (.inr (.inl rfl)) _)
      rw [itemsChars, List.append_nil, List.append_assoc, parseItems, hvalue]
      simp only [Option.bind_eq_bind, Option.bind_some, skipWs_append (newline_ws st _),
        skipWs_stop (c := ']') rfl]
    | next :: items =>
      obtain ⟨ws, hcomma, hws⟩ := comma_eq st
      have hitems := parseItems_chars st level level' next items h.2 n (by omega) rest
      have hskip := skipWs_of_parseItems hitems
      have hvalue := parseValue_chars st level item h.1 n (by omega)
        (',' :: (ws ++ (st.newline level ++ (next.chars st level ++ itemsChars st level items ++
          st.newline level' ++ ']' :: rest))))
        (numberEnd_ws (List.forall_mem_nil _) (.inl rfl) _)
      have htext : item.chars st level ++ itemsChars st level (next :: items) ++
          st.newline level' ++ ']' :: rest =
          item.chars st level ++ ',' :: (ws ++ (st.newline level ++ (next.chars st level ++
            itemsChars st level items ++ st.newline level' ++ ']' :: rest))) := by
        simp only [itemsChars, hcomma, List.cons_append, List.append_assoc]
      rw [htext, parseItems, hvalue]
      simp only [Option.bind_eq_bind, Option.bind_some, skipWs_stop (c := ',') rfl,
        skipWs_append hws, skipWs_append (newline_ws st _), hskip, hitems, Option.pure_def]
termination_by n

theorem parseFields_chars (st : Style) (level level' : Nat) (key : String) (value : Json)
    (fields : List (String × Json)) (h : FieldsWellFormed ((key, value) :: fields)) (n : Nat)
    (hn : fieldsCost ((key, value) :: fields) ≤ n) (rest : List Char) :
    parseFields n (key.toList.flatMap escapeChar ++ ['"'] ++ st.colon ++ value.chars st level ++
      fieldsChars st level fields ++ st.newline level' ++ '\x7d' :: rest) =
      some ((key, value) :: fields, rest) := by
  cases n with
  | zero => simp [fieldsCost] at hn
  | succ n =>
    rw [fieldsCost] at hn
    obtain ⟨wc, hcolon, hwc⟩ := colon_eq st
    match fields with
    | [] =>
      have hvalue := parseValue_chars st level value h.1 n (by omega)
        (st.newline level' ++ '\x7d' :: rest) (numberEnd_ws (newline_ws st _) (.inr (.inr rfl)) _)
      obtain ⟨us, hus, hkey⟩ := parseStr_strChars key
        (':' :: (wc ++ (value.chars st level ++ (st.newline level' ++ '\x7d' :: rest))))
      have htext : key.toList.flatMap escapeChar ++ ['"'] ++ st.colon ++ value.chars st level ++
          fieldsChars st level [] ++ st.newline level' ++ '\x7d' :: rest =
          (key.toList.flatMap escapeChar ++ ['"']) ++
            (':' :: (wc ++ (value.chars st level ++ (st.newline level' ++ '\x7d' :: rest)))) := by
        simp only [fieldsChars, hcolon, List.cons_append, List.append_assoc, List.nil_append]
      rw [htext, parseFields, hus]
      simp only [Option.bind_eq_bind, Option.bind_some, skipWs_stop (c := ':') rfl,
        skipWs_append hwc, skipWs_of_parseValue hvalue, hvalue, skipWs_append (newline_ws st _),
        skipWs_stop (c := '\x7d') rfl, hkey]
    | (key', value') :: fields =>
      obtain ⟨ws, hcomma, hws⟩ := comma_eq st
      have hfields := parseFields_chars st level level' key' value' fields h.2 n (by omega) rest
      obtain ⟨tail, htail⟩ : ∃ tail, tail = ',' :: (ws ++ (st.newline level ++ '"' ::
        (key'.toList.flatMap escapeChar ++ ['"'] ++ st.colon ++ value'.chars st level ++
          fieldsChars st level fields ++ st.newline level' ++ '\x7d' :: rest))) := ⟨_, rfl⟩
      have hvalue := parseValue_chars st level value h.1 n (by omega) tail
        (htail ▸ numberEnd_ws (List.forall_mem_nil _) (.inl rfl) _)
      obtain ⟨us, hus, hkey⟩ := parseStr_strChars key (':' :: (wc ++ (value.chars st level ++ tail)))
      have htext : key.toList.flatMap escapeChar ++ ['"'] ++ st.colon ++ value.chars st level ++
          fieldsChars st level ((key', value') :: fields) ++ st.newline level' ++ '\x7d' :: rest =
          (key.toList.flatMap escapeChar ++ ['"']) ++
            (':' :: (wc ++ (value.chars st level ++ tail))) := by
        simp only [fieldsChars, strChars, hcolon, hcomma, htail, List.cons_append,
          List.append_assoc, List.nil_append]
      rw [htext, parseFields, hus]
      simp only [Option.bind_eq_bind, Option.bind_some, skipWs_stop (c := ':') rfl,
        skipWs_append hwc, skipWs_of_parseValue hvalue, hvalue, hkey]
      rw [htail, skipWs_stop (c := ',') rfl]
      simp only [skipWs_append hws, skipWs_append (newline_ws st _), skipWs_stop (c := '"') rfl,
        hfields, Option.bind_some, Option.pure_def]
termination_by n

end

/-! ## Documents are read back -/

theorem itemsWellFormed_iff {items : List Json} :
    ItemsWellFormed items ↔ ∀ item ∈ items, item.WellFormed := by
  induction items with
  | nil => simp [ItemsWellFormed]
  | cons item items ih => rw [ItemsWellFormed, ih, List.forall_mem_cons]

theorem fieldsWellFormed_iff {fields : List (String × Json)} :
    FieldsWellFormed fields ↔ ∀ field ∈ fields, field.2.WellFormed := by
  induction fields with
  | nil => simp [FieldsWellFormed]
  | cons field fields ih => rw [FieldsWellFormed, ih, List.forall_mem_cons]

theorem keys_sortFields (fields : List (String × Json)) :
    (sortFields fields).map (·.1) = fields.map (·.1) := by
  induction fields with
  | nil => rfl
  | cons field fields ih => rw [sortFields, List.map_cons, List.map_cons, ih]

/-- Sorting keeps the fields: each with its value sorted in turn. -/
theorem sortFields_eq (fields : List (String × Json)) :
    sortFields fields = fields.map fun field => (field.1, field.2.sortKeys) := by
  induction fields with
  | nil => rfl
  | cons field fields ih => rw [sortFields, List.map_cons, ih]

mutual

theorem WellFormed.sortKeys : {v : Json} → v.WellFormed → v.sortKeys.WellFormed
  | null, h | bool _, h | int _, h | float _, h | str _, h => h
  | arr _, h => ItemsWellFormed.sortItems h
  | obj fields, h => by
    have hperm := List.perm_insertionSort (fun a b => a.1 ≤ b.1) (sortFields fields)
    refine ⟨?_, fieldsWellFormed_iff.mpr fun field hf => ?_⟩
    · rw [(hperm.map _).nodup_iff, keys_sortFields]
      exact h.1
    · exact fieldsWellFormed_iff.mp (FieldsWellFormed.sortFields h.2) field (hperm.mem_iff.mp hf)

theorem ItemsWellFormed.sortItems :
    {items : List Json} → ItemsWellFormed items → ItemsWellFormed (sortItems items)
  | [], h => h
  | _ :: _, h => ⟨h.1.sortKeys, ItemsWellFormed.sortItems h.2⟩

theorem FieldsWellFormed.sortFields :
    {fields : List (String × Json)} → FieldsWellFormed fields → FieldsWellFormed (sortFields fields)
  | [], h => h
  | _ :: _, h => ⟨h.1.sortKeys, FieldsWellFormed.sortFields h.2⟩

end

mutual

theorem cost_le_length (st : Style) (level : Nat) :
    (v : Json) → v.WellFormed → v.cost ≤ (v.chars st level).length
  | null, _ | bool true, _ | bool false, _ | arr [], _ | obj [], _ => by
    simp [cost, itemsCost, fieldsCost, chars]
  | str _, _ => by simp [cost, chars, strChars]
  | int n, _ => by
    change 1 ≤ (intChars n).length
    cases n with
    | ofNat n => exact Nat.length_toDigits_pos
    | negSucc n => exact Nat.succ_le_succ (Nat.zero_le _)
  | float [], h => by cases h 0 [] (by simp [NumberEnd])
  | float (_ :: _), _ => by simp [cost, chars]
  | arr (item :: items), h => by
    have h1 := cost_le_length st (level + 1) item h.1
    have h2 := itemsCost_le_length st (level + 1) items h.2
    simp only [cost, itemsCost, chars, List.length_cons, List.length_append]
    omega
  | obj ((key, value) :: fields), h => by
    have h1 := cost_le_length st (level + 1) value h.2.1
    have h2 := fieldsCost_le_length st (level + 1) fields h.2.2
    simp only [cost, fieldsCost, chars, List.length_cons, List.length_append]
    omega

theorem itemsCost_le_length (st : Style) (level : Nat) :
    (items : List Json) → ItemsWellFormed items → itemsCost items ≤ (itemsChars st level items).length
  | [], _ => Nat.le_refl 0
  | item :: items, h => by
    have h1 := cost_le_length st level item h.1
    have h2 := itemsCost_le_length st level items h.2
    obtain ⟨ws, hcomma, -⟩ := comma_eq st
    simp only [itemsCost, itemsChars, hcomma, List.length_cons, List.length_append]
    omega

theorem fieldsCost_le_length (st : Style) (level : Nat) :
    (fields : List (String × Json)) → FieldsWellFormed fields →
      fieldsCost fields ≤ (fieldsChars st level fields).length
  | [], _ => Nat.le_refl 0
  | (key, value) :: fields, h => by
    have h1 := cost_le_length st level value h.1
    have h2 := fieldsCost_le_length st level fields h.2
    obtain ⟨ws, hcomma, -⟩ := comma_eq st
    simp only [fieldsCost, fieldsChars, hcomma, List.length_cons, List.length_append]
    omega

end

theorem numberEnd_of_ws {ws : List Char} (h : ∀ c ∈ ws, isWs c = true) : NumberEnd ws := by
  intro c hc
  have hw := h c (List.mem_of_mem_head? hc)
  simp only [isWs, Bool.or_eq_true, decide_eq_true_eq] at hw
  rcases hw with ((rfl | rfl) | rfl) | rfl <;> decide

/-- What the encoder writes is read back as the same value with its keys sorted. -/
theorem loads_dumps {v : Json} (h : v.WellFormed) (st : Style) {tail : String}
    (htail : ∀ c ∈ tail.toList, isWs c = true) : loads (dumps st v ++ tail) = some v.sortKeys := by
  have htext : (dumps st v ++ tail).toList = v.sortKeys.chars st 0 ++ tail.toList := by
    rw [String.toList_append, dumps, String.toList_ofList]
  have hcost := cost_le_length st 0 v.sortKeys h.sortKeys
  have hparse := parseValue_chars st 0 v.sortKeys h.sortKeys
    ((dumps st v ++ tail).toList.length + 1) (by rw [htext, List.length_append]; omega)
    tail.toList (numberEnd_of_ws htail)
  have hskip : skipWs tail.toList = [] := by
    rw [← List.append_nil tail.toList, skipWs_append htail]
    rfl
  rw [← htext] at hparse
  simp only [loads, skipWs_of_parseValue hparse, hparse, hskip, if_true]

end Json
