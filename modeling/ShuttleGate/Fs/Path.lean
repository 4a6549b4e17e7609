import Mathlib.Data.List.Infix

/-! # Absolute paths

A resolved absolute path as its components, the last one first: the parent of a path is its
tail, and the paths below a directory are the lists that end in it. -/

namespace Fs

/-- A resolved absolute path, leaf first; the empty list is the root. -/
abbrev Path := List String

namespace Path

/-- `p / name` -/
instance : HDiv Path String Path := ⟨fun p name => name :: p⟩

/-- `p.parent`; the root is its own parent. -/
def parent (p : Path) : Path := p.tail

/-- `p.name` -/
def name (p : Path) : String := p.head?.getD ""

def text (p : Path) : String := "/" ++ "/".intercalate p.reverse

/-- `p.joinpath(*parts)` -/
def join (p : Path) (parts : List String) : Path := parts.foldl (· / ·) p

theorem div_def (p : Path) (n : String) : p / n = n :: p := rfl

theorem join_eq_append (p : Path) (parts : List String) : p.join parts = parts.reverse ++ p := by
  induction parts generalizing p with
  | nil => rfl
  | cons n parts ih => rw [List.reverse_cons, List.append_assoc]; exact ih (n :: p)

@[simp] theorem parent_div (p : Path) (n : String) : parent (p / n) = p := rfl
@[simp] theorem name_div (p : Path) (n : String) : name (p / n) = n := rfl

@[simp] theorem div_inj {p q : Path} {m n : String} : p / m = q / n ↔ p = q ∧ m = n := by
  rw [div_def, div_def, List.cons_eq_cons, and_comm]

/-- Two children of a directory have nothing in common below. -/
theorem not_below_sibling {m n : String} (h : m ≠ n) (l d : Path) : ¬ (m :: d) <:+ l ++ n :: d := by
  rintro ⟨l', hl⟩
  have heq : (l' ++ [m]) ++ d = (l ++ [n]) ++ d := by simpa using hl
  have := congrArg List.getLast? (List.append_cancel_right heq)
  simp only [List.getLast?_concat, Option.some.injEq] at this
  exact h this

theorem not_below_parent (n : String) (d : Path) : ¬ (n :: d) <:+ d :=
  fun h => absurd h.length_le (by simp)

theorem append_cons_ne_self (l : Path) (n : String) (d : Path) : l ++ n :: d ≠ d := by
  intro he
  have := congrArg List.length he
  simp at this
  omega

end Path
end Fs
