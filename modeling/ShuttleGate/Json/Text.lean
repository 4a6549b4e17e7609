import ShuttleGate.Json.Parser

/-! # The characters of a JSON text

The encoder writes line feeds and printable ASCII characters only. -/

namespace Json

/-- A line feed or a printable ASCII character. -/
def TextChar (c : Char) : Prop := c = '\n' ∨ 0x20 ≤ c.toNat ∧ c.toNat ≤ 0x7e

instance : DecidablePred TextChar := fun _ => inferInstanceAs (Decidable (_ ∨ _))

theorem textChar_of_isDigit {c : Char} (h : c.isDigit = true) : TextChar c := by
  simp only [Char.isDigit, Bool.and_eq_true, decide_eq_true_eq, ge_iff_le] at h
  obtain ⟨h1, h2⟩ := h
  have h1' : '0'.toNat ≤ c.toNat := h1
  have h2' : c.toNat ≤ '9'.toNat := h2
  have : '0'.toNat = 48 ∧ '9'.toNat = 57 := ⟨rfl, rfl⟩
  exact .inr (by omega)

theorem textChar_takeWhile (s : List Char) : ∀ c ∈ s.takeWhile (·.isDigit), TextChar c :=
  fun _ hc => textChar_of_isDigit (List.mem_takeWhile_imp hc)

/-! ## Floats -/

theorem textChar_scanInt {s : List Char} (h : scanInt s = some (digits, rest)) :
    ∀ c ∈ digits, TextChar c := by
  unfold scanInt at h
  split at h
  · cases h
  · cases h
    simp [TextChar]
  · split at h
    · rename_i hd
      cases h
      exact List.forall_mem_cons.mpr ⟨textChar_of_isDigit hd, textChar_takeWhile _⟩
    · cases h

theorem textChar_scanFrac (s : List Char) : ∀ c ∈ (scanFrac s).1, TextChar c := by
  unfold scanFrac
  split
  · split
    · rename_i hd
      exact List.forall_mem_cons.mpr ⟨by decide, List.forall_mem_cons.mpr
        ⟨textChar_of_isDigit hd, textChar_takeWhile _⟩⟩
    · simp
  · simp

theorem textChar_scanExp (s : List Char) : ∀ c ∈ (scanExp s).1, TextChar c := by
  have hexp {e : Char} (he : e = 'e' ∨ e = 'E') : TextChar e := by
    rcases he with rfl | rfl <;> decide
  unfold scanExp
  split
  · split
    · rename_i he
      split
      · rename_i hs
        refine List.forall_mem_cons.mpr ⟨hexp he, List.forall_mem_cons.mpr ⟨?_,
          List.forall_mem_cons.mpr ⟨textChar_of_isDigit hs.2, textChar_takeWhile _⟩⟩⟩
        rcases hs.1 with rfl | rfl <;> decide
      · split
        · rename_i hs
          exact List.forall_mem_cons.mpr ⟨hexp he, List.forall_mem_cons.mpr
            ⟨textChar_of_isDigit hs, textChar_takeWhile _⟩⟩
        · simp
    · simp
  · split
    · rename_i he
      simp [hexp he.1, textChar_of_isDigit he.2]
    · simp
  · simp

theorem textChar_scanUnsigned {s : List Char} (h : scanUnsigned negative s = some (float lexeme, rest)) :
    ∀ c ∈ lexeme, TextChar c := by
  obtain ⟨⟨digits, s'⟩, hint, h⟩ := Option.bind_eq_some_iff.mp h
  have hsign : ∀ c ∈ (if negative = true then ['-'] else []), TextChar c := by
    cases negative <;> simp [TextChar]
  dsimp only at h
  split at h
  · cases h
  · cases h
    simp only [List.forall_mem_append]
    exact ⟨⟨⟨hsign, textChar_scanInt hint⟩, textChar_scanFrac _⟩, textChar_scanExp _⟩

/-- A float is written with the characters of its lexeme. -/
theorem IsFloat.textChar (h : IsFloat lexeme) : ∀ c ∈ lexeme, TextChar c := by
  have hparse := h 0 [] nofun
  rw [List.append_nil] at hparse
  have hnumber {s : List Char} (hs : scanNumber s = some (float lexeme, [])) :
      ∀ c ∈ lexeme, TextChar c := by
    unfold scanNumber at hs
    split at hs <;> exact textChar_scanUnsigned hs
  unfold parseValue at hparse
  split at hparse
  · obtain ⟨_, -, h⟩ := Option.bind_eq_some_iff.mp hparse
    cases h
  · split at hparse
    · cases hparse
    · obtain ⟨_, -, h⟩ := Option.bind_eq_some_iff.mp hparse
      cases h
  · split at hparse
    · cases hparse
    · obtain ⟨_, -, h⟩ := Option.bind_eq_some_iff.mp hparse
      cases h
    · cases hparse
  all_goals first
    | exact hnumber hparse
    | cases hparse
  all_goals decide

/-! ## Texts -/

theorem textChar_digitChar : ∀ n < 16, TextChar (Nat.digitChar n) := by decide

theorem textChar_escapeUnit (n : Nat) : ∀ c ∈ escapeUnit n, TextChar c := by
  simp only [escapeUnit, hex4, List.map_cons, List.map_nil, List.forall_mem_cons, List.not_mem_nil,
    false_implies, implies_true, and_true]
  refine ⟨by decide, by decide, ?_, ?_, ?_, ?_⟩ <;>
  · exact textChar_digitChar _ (Nat.mod_lt _ (by decide))

theorem textChar_escapeChar (c : Char) : ∀ d ∈ escapeChar c, TextChar d := by
  refine escapeChar_rule (P := fun s => ∀ d ∈ s, TextChar d) (fun e he _ => ?_)
    (fun _ _ h => List.forall_mem_singleton.mpr (.inr h)) (fun _ => textChar_escapeUnit _)
    fun _ => List.forall_mem_append.mpr ⟨textChar_escapeUnit _, textChar_escapeUnit _⟩
  have hall : ∀ e ∈ shortEscapes, ∀ d ∈ ['\\', e.2], TextChar d := by decide
  exact hall e he

theorem textChar_strChars (s : String) : ∀ c ∈ strChars s, TextChar c := by
  refine List.forall_mem_cons.mpr ⟨by decide, List.forall_mem_append.mpr ⟨fun c hc => ?_, by decide⟩⟩
  obtain ⟨d, -, hd⟩ := List.mem_flatMap.mp hc
  exact textChar_escapeChar d c hd

theorem textChar_toDigits (n : Nat) : ∀ c ∈ Nat.toDigits 10 n, TextChar c :=
  fun _ hc => textChar_of_isDigit (Nat.isDigit_of_mem_toDigits (by decide) (by decide) hc)

theorem textChar_intChars (n : Int) : ∀ c ∈ intChars n, TextChar c := by
  cases n with
  | ofNat n => exact textChar_toDigits n
  | negSucc n => exact List.forall_mem_cons.mpr ⟨by decide, textChar_toDigits _⟩

theorem textChar_newline (st : Style) (level : Nat) : ∀ c ∈ st.newline level, TextChar c := by
  cases st
  · refine List.forall_mem_cons.mpr ⟨by decide, fun c hc => ?_⟩
    rw [(List.mem_replicate.mp hc).2]
    decide
  all_goals simp [Style.newline]

theorem textChar_comma (st : Style) : ∀ c ∈ st.comma, TextChar c := by
  cases st <;> decide

theorem textChar_colon (st : Style) : ∀ c ∈ st.colon, TextChar c := by
  cases st <;> decide

mutual

theorem textChar_chars (st : Style) (level : Nat) :
    (v : Json) → v.WellFormed → ∀ c ∈ v.chars st level, TextChar c
  | null, _ | bool true, _ | bool false, _ | arr [], _ | obj [], _ => by
    simp only [chars]
    decide
  | int n, _ => textChar_intChars n
  | float _, h => IsFloat.textChar h
  | str s, _ => textChar_strChars s
  | arr (item :: items), h => by
    simp only [chars, List.forall_mem_cons, List.forall_mem_append]
    exact ⟨by decide, ⟨⟨⟨textChar_newline _ _, textChar_chars st _ item h.1⟩,
      textChar_itemsChars st _ items h.2⟩, textChar_newline _ _⟩, by decide, by simp⟩
  | obj ((key, value) :: fields), h => by
    simp only [chars, List.forall_mem_cons, List.forall_mem_append]
    exact ⟨by decide, ⟨⟨⟨⟨⟨textChar_newline _ _, textChar_strChars key⟩, textChar_colon st⟩,
      textChar_chars st _ value h.2.1⟩, textChar_fieldsChars st _ fields h.2.2⟩,
      textChar_newline _ _⟩, by decide, by simp⟩

theorem textChar_itemsChars (st : Style) (level : Nat) :
    (items : List Json) → ItemsWellFormed items → ∀ c ∈ itemsChars st level items, TextChar c
  | [], _ => by simp [itemsChars]
  | item :: items, h => by
    simp only [itemsChars, List.forall_mem_append]
    exact ⟨⟨⟨textChar_comma st, textChar_newline _ _⟩, textChar_chars st _ item h.1⟩,
      textChar_itemsChars st _ items h.2⟩

theorem textChar_fieldsChars (st : Style) (level : Nat) :
    (fields : List (String × Json)) → FieldsWellFormed fields →
      ∀ c ∈ fieldsChars st level fields, TextChar c
  | [], _ => by simp [fieldsChars]
  | (key, value) :: fields, h => by
    simp only [fieldsChars, List.forall_mem_append]
    exact ⟨⟨⟨⟨⟨textChar_comma st, textChar_newline _ _⟩, textChar_strChars key⟩, textChar_colon st⟩,
      textChar_chars st _ value h.1⟩, textChar_fieldsChars st _ fields h.2⟩

end

/-- Every character of an encoded value is a line feed or printable ASCII. -/
theorem textChar_dumps {v : Json} (h : v.WellFormed) (st : Style) :
    ∀ c ∈ (dumps st v).toList, TextChar c := by
  rw [dumps, String.toList_ofList]
  exact textChar_chars st 0 v.sortKeys h.sortKeys

/-! ## Lengths -/

theorem length_escapeChar_le (c : Char) : (escapeChar c).length ≤ 12 := by
  refine escapeChar_rule (P := fun s => s.length ≤ 12) (fun _ _ _ => ?_) (fun _ _ _ => ?_)
    (fun _ => ?_) fun _ => ?_
  all_goals simp [escapeUnit, hex4]

/-- But for its quotes, the text of a string is at most twelve times as long. -/
theorem length_strChars_le (s : String) : (strChars s).length ≤ 12 * s.length + 2 := by
  have h (cs : List Char) : (cs.flatMap escapeChar).length ≤ 12 * cs.length := by
    induction cs with
    | nil => exact Nat.le_refl 0
    | cons c cs ih =>
      have := length_escapeChar_le c
      rw [List.flatMap_cons, List.length_append, List.length_cons]
      omega
  have := h s.toList
  rw [String.length_toList] at this
  simp only [strChars, List.length_cons, List.length_append, List.length_nil]
  omega

end Json
