import ShuttleGate.Os.Host
import ShuttleGate.Effect.Reader

/-! # Looking at the tree

The operations with one answer and no effect, and the answer as a function of the tree. -/

namespace ShuttleGate

open Fs Effect

namespace Os

/-- An operation with one documented answer and no effect. -/
def OsOp.Looks : OsOp β → Prop
  | lstat _ | readlink _ | read _ | pathExists _ | isDir _ | openRead _ | fsync _ | flock _ _ true
  | unlock _ | resolve _ _ | resolveStrict _ _ | depth => True
  | _ => False

/-- The documented answer. -/
def seen (t : Tree) (op : OsOp β) : Except Exn β :=
  match exampleHost.respond op t with
  | some (answer, _) => answer
  | none => .error (osError .einval)

section
variable {t : Tree} {p : Path}

theorem seen_lstat : seen t (.lstat p) = match t.get p with
    | some o => .ok (statOf o)
    | none => .error (osError .enoent) := rfl

theorem seen_lstat_some (h : t.get p = some o) : seen t (.lstat p) = .ok (statOf o) := by
  rw [seen_lstat, h]

theorem seen_lstat_none (h : t.get p = none) : seen t (.lstat p) = .error (osError .enoent) := by
  rw [seen_lstat, h]

@[simp] theorem seen_pathExists : seen t (.pathExists p) = .ok (follow t p).isSome := rfl

@[simp] theorem seen_flock (exclusive : Bool) : seen t (.flock p exclusive true) = .ok () := rfl
@[simp] theorem seen_unlock : seen t (.unlock p) = .ok () := rfl

@[simp] theorem seen_resolve (base : Path) (parts : List String) :
    seen t (.resolve base parts) = .ok (t.resolve base parts) := rfl

theorem respond_looks {op : OsOp β} (h : op.Looks) :
    exampleHost.respond op t = some (seen t op, t) := by
  cases op with
  | mkdir | mkstemp | openWrite | openCreate | write | chmod | symlink | rename | unlink | rmdir
  | uuid | token | keygen | run | listdir => exact h.elim
  | _ => rfl

/-- There is one answer. -/
theorem answers_unique {op : OsOp β} (hop : op.Looks) (h : Answers op t r u)
    (h' : Answers op t r' u') : r = r' ∧ u = t := by
  cases op with
  | mkdir | mkstemp | openWrite | openCreate | write | chmod | symlink | rename | unlink | rmdir
  | uuid | token | keygen | run | listdir => exact hop.elim
  | flock p exclusive blocking =>
    cases blocking with
    | false => exact hop.elim
    | true =>
      have granted {r : Except Exn Unit} (hr : r = .ok () ∨ true = false ∧ r = .error (osError .eagain)) :
          r = .ok () := hr.resolve_right fun hb => by cases hb.1
      exact ⟨(granted h.2).trans (granted h'.2).symm, h.1⟩
  | pathExists | isDir | unlock | depth | resolve => exact ⟨h.2.trans h'.2.symm, h.1⟩
  | fsync p =>
    obtain ⟨hu, hr⟩ := h
    obtain ⟨-, hr'⟩ := h'
    refine ⟨?_, hu⟩
    split at hr
    · rw [if_pos ‹_›] at hr'
      exact hr.trans hr'.symm
    · rw [if_neg ‹_›] at hr'
      exact hr.trans hr'.symm
  | lstat p | readlink p | read p | openRead p =>
    obtain ⟨hu, hr⟩ := h
    obtain ⟨-, hr'⟩ := h'
    refine ⟨?_, hu⟩
    cases hp : t.get p with
    | none =>
      rw [hp] at hr hr'
      exact hr.trans hr'.symm
    | some o =>
      rw [hp] at hr hr'
      cases o <;> exact hr.trans hr'.symm
  | resolveStrict base parts =>
    obtain ⟨hu, hr⟩ := h
    obtain ⟨-, hr'⟩ := h'
    refine ⟨?_, hu⟩
    cases hp : t.resolveStrict base parts <;> rw [hp] at hr hr' <;> exact hr.trans hr'.symm

/-- What is looked at is seen, and stays. -/
theorem reliable_tells (t : Tree) : reliable.Tells OsOp.Looks (seen t) t := by
  intro β op r u hop
  have hanswered : Answers op t (seen t op) t :=
    exampleHost.respond_answers op t (seen t op, t) (respond_looks hop)
  constructor
  · exact fun h => answers_unique hop h hanswered
  · rintro ⟨rfl, rfl⟩
    exact hanswered

/-- A program that looks. -/
theorem looks_returns {p : OsM α} (h : p.Only OsOp.Looks) :
    p.Returns reliable t r u ↔ r = p.value (seen t) ∧ u = t :=
  h.returns_iff (reliable_tells t)

/-- To look is to read. -/
theorem OsOp.Looks.reads {op : OsOp β} (h : op.Looks) : op.Reads := by
  cases op with
  | mkdir | mkstemp | openWrite | openCreate | write | chmod | symlink | rename | unlink | rmdir
  | uuid | token | keygen | run | listdir => exact h.elim
  | _ => exact fun _ => id

theorem looks_reads {p : OsM α} (h : p.Only OsOp.Looks) : p.Only OsOp.Reads :=
  h.mono fun _ => OsOp.Looks.reads

end

end Os
end ShuttleGate
