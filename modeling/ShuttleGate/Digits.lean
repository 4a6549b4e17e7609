import Mathlib.Algebra.Group.Nat.Defs
import Mathlib.Data.List.Basic
import Mathlib.Data.List.TakeWhile

/-! # Numerals

Facts about `Nat.toDigits` the text formats share: length, leading digit, and where a run of
digits ends. -/

/-- A property of the characters of a text is decided along the text, not over all characters. -/
instance Char.decidableForallMem {p : Char → Prop} [DecidablePred p] {s : List Char} :
    Decidable (∀ c ∈ s, p c) := List.decidableBAll p s

namespace Nat

theorem length_toDigits_le {n k : Nat} (hb : 1 < b) (hk : 0 < k) (h : n < b ^ k) :
    (toDigits b n).length ≤ k := (length_toDigits_le_iff hb hk).mpr h

theorem head_toDigits_ne_zero (hb : 1 < b) (hn : 0 < n) : (toDigits b n).head? ≠ some '0' := by
  induction n using Nat.strongRecOn with
  | ind n ih =>
    by_cases h : n < b
    · rw [toDigits_of_lt_base h]
      simp [Nat.pos_iff_ne_zero.mp hn]
    · have hq : 0 < n / b := Nat.div_pos (by omega) (by omega)
      rw [toDigits_of_base_le hb (by omega), List.head?_append_of_ne_nil _ toDigits_ne_nil]
      exact ih _ (Nat.div_lt_self hn hb) hq

theorem all_isDigit_toDigits (n : Nat) : ∀ c ∈ toDigits 10 n, c.isDigit = true :=
  fun _ hc => isDigit_of_mem_toDigits (by decide) (by decide) hc

theorem not_mem_toDigits_ten (hc : c.isDigit = false) : c ∉ toDigits 10 n := fun h => by
  simp [all_isDigit_toDigits n c h] at hc

theorem toDigits_ten_inj {m n : Nat} : toDigits 10 m = toDigits 10 n ↔ m = n := by
  refine ⟨fun h => ?_, congrArg _⟩
  rw [← ofDigitChars_ten_toDigits (n := m), h, ofDigitChars_ten_toDigits]

end Nat

namespace Int

/-- The decimal text of an integer is a sign and digits, and determines it. -/
theorem toList_toString (n : Int) : (toString n).toList =
    match n with
    | .ofNat n => Nat.toDigits 10 n
    | .negSucc n => '-' :: Nat.toDigits 10 (n + 1) := by
  cases n with
  | ofNat n => exact Nat.toList_repr
  | negSucc n => exact (String.toList_append).trans (congrArg _ Nat.toList_repr)

theorem toString_inj {m n : Int} : toString m = toString n ↔ m = n := by
  refine ⟨fun h => ?_, congrArg _⟩
  have h := congrArg String.toList h
  have hdash (k : Nat) (l : List Char) : Nat.toDigits 10 k ≠ '-' :: l := fun h =>
    Nat.not_mem_toDigits_ten (c := '-') rfl (h ▸ List.mem_cons_self)
  rw [toList_toString, toList_toString] at h
  cases m <;> cases n
  · exact congrArg _ (Nat.toDigits_ten_inj.mp h)
  · exact absurd h (hdash _ _)
  · exact absurd h.symm (hdash _ _)
  · exact congrArg _ (Nat.succ.inj (Nat.toDigits_ten_inj.mp (List.cons.inj h).2))

theorem not_mem_toString {n : Int} (hc : c ≠ '-') (hd : c.isDigit = false) :
    c ∉ (toString n).toList := by
  rw [toList_toString]
  cases n with
  | ofNat n => exact Nat.not_mem_toDigits_ten hd
  | negSucc n => exact fun h => (List.mem_cons.mp h).elim hc (Nat.not_mem_toDigits_ten hd)

end Int

namespace List

/-- A run of digits stops at the first other character. -/
theorem takeWhile_append_stop {p : α → Bool} {ds s : List α} (hd : ∀ c ∈ ds, p c = true)
    (hs : ∀ c ∈ s.head?, p c = false) :
    (ds ++ s).takeWhile p = ds ∧ (ds ++ s).dropWhile p = s := by
  have htake : s.takeWhile p = [] ∧ s.dropWhile p = s := by
    cases s with
    | nil => exact ⟨rfl, rfl⟩
    | cons c s =>
      have hc := hs c rfl
      exact ⟨takeWhile_cons_of_neg (by simp [hc]), dropWhile_cons_of_neg (by simp [hc])⟩
  rw [takeWhile_append_of_pos hd, dropWhile_append_of_pos hd, htake.1, htake.2, append_nil]
  exact ⟨rfl, rfl⟩

/-- The last separator splits a list one way. -/
theorem append_stop_inj {x x' y y' : List α} (hy : a ∉ y) (hy' : a ∉ y') :
    x ++ a :: y = x' ++ a :: y' ↔ x = x' ∧ y = y' := by
  refine ⟨fun h => ?_, by rintro ⟨rfl, rfl⟩; rfl⟩
  -- a longer front would put the separator into the other tail
  have front {x x' y y' l : List α} (hy : a ∉ y) (hx : x' = x ++ l) (ht : a :: y = l ++ a :: y') :
      x = x' ∧ y = y' := by
    cases l with
    | nil => exact ⟨by simpa using hx.symm, by simpa using ht⟩
    | cons c l =>
      obtain ⟨-, rfl⟩ := List.cons.inj ht
      exact absurd (by simp) hy
  rcases List.append_eq_append_iff.mp h with ⟨l, hx, ht⟩ | ⟨l, hx, ht⟩
  · exact front hy hx ht
  · exact (front hy' hx ht).imp Eq.symm Eq.symm

end List
