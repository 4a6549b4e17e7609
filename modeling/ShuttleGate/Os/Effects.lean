import ShuttleGate.Os.Ops
import ShuttleGate.Effect.Trace

/-! # The effects of a run

A run that only looks is told by its events: no operation that could change something has
succeeded. -/

namespace ShuttleGate

open Fs Effect

namespace Os

/-- Nothing has been done to `t`. -/
structure Quiet (t : Tree) (s : Tree × List (Event OsOp Exn)) : Prop where
  tree : s.1 = t
  events : ∀ e ∈ s.2, e.result.isOk = true → e.op.Reads

section
variable {t : Tree} {s s' : Tree × List (Event OsOp Exn)}

theorem Quiet.start (t : Tree) : Quiet t (t, []) := ⟨rfl, List.forall_mem_nil _⟩

theorem Quiet.step {op : OsOp β} {r : Except Exn β} (h : Quiet t s)
    (hstep : machine.traced.step op s r s') (hop : ∀ a, r = .ok a → op.Reads) : Quiet t s' := by
  refine ⟨?_, ?_⟩
  · rw [← h.tree]
    cases r with
    | error e => exact Step.failed hstep.1
    | ok a => exact (hop a rfl).step hstep.1
  · rw [hstep.2]
    refine List.forall_mem_cons.mpr ⟨fun hok => ?_, h.events⟩
    cases r with
    | error e => cases hok
    | ok a => exact hop a rfl

/-- A program that only looks does nothing. -/
theorem reads_quiet {p : OsM α} (h : p.Only OsOp.Reads) (t : Tree) :
    p.Keeps machine.traced (Quiet t) :=
  h.keeps fun _ _ _ _ hop hs hstep => hs.step hstep fun _ _ => hop

/-- An operation that cannot succeed does nothing. -/
theorem perform_quiet {op : OsOp β} (h : ∀ a t', ¬ machine.step op t (.ok a) t') :
    (Prog.perform op : OsM β).Keeps machine.traced (Quiet t) := fun s hs =>
  Prog.wp_perform.mpr ⟨hs, fun r s' hstep =>
    have hs' := hs.step hstep fun a hr => absurd (hr ▸ hs.tree ▸ hstep.1) (h a s'.1)
    ⟨hs', hs'⟩⟩

/-- Nothing is done, and an exception is raised. -/
def Refused (t : Tree) (r : Except Exn α) (s : Tree × List (Event OsOp Exn)) : Prop :=
  Quiet t s ∧ ∃ e, r = .error e

/-- A program that does nothing, and what it tells. -/
theorem quiet_bind {p : OsM α} {f : α → OsM β} {R : α → Prop}
    {Q : Except Exn β → Tree × List (Event OsOp Exn) → Prop}
    (hp : p.Keeps machine.traced (Quiet t)) (h : p.Yields machine (fun a _ => R a) t)
    (hs : Quiet t s) (herror : ∀ e s, Quiet t s → Q (.error e) s)
    (hf : ∀ a s, R a → Quiet t s → (f a).wp machine.traced (Quiet t) Q s) :
    (p.bind f).wp machine.traced (Quiet t) Q s := by
  obtain ⟨u, es⟩ := s
  obtain rfl : u = t := hs.tree
  exact Prog.wp_bind_keeps hp (Prog.wp.traced h es) hs (fun _ => id) herror
    fun a s hs ha => hf a s ha hs

end

/-! ## Links -/

/-- A step that leaves every link where it is. -/
def KeepsLinks (op : OsOp β) : Prop :=
  ∀ t r t', Step op t r t' → ∀ p, t'.linkAt p = t.linkAt p

theorem keepsLinks_of_reads {op : OsOp β} (h : op.Reads) : KeepsLinks op :=
  fun _ _ _ hstep _ => by rw [h.step hstep]

theorem mkdir_keepsLinks (p : Path) (mode : Nat) : KeepsLinks (.mkdir p mode) := by
  intro t r t' hstep q
  cases r with
  | error e => rw [Step.failed hstep]
  | ok _ =>
    obtain ⟨hnone, hget⟩ := (Step.ok hstep).mkdir
    rw [Tree.linkAt, Tree.linkAt, hget q]
    by_cases hq : q = p
    · rw [if_pos hq, hq, hnone]
    · rw [if_neg hq]

theorem openCreate_keepsLinks (p : Path) (mode : Nat) : KeepsLinks (.openCreate p mode) := by
  intro t r t' hstep q
  cases r with
  | error e => rw [Step.failed hstep]
  | ok _ =>
    have ha := Step.ok hstep
    simp only [Answers] at ha
    split at ha
    · rename_i hnone
      have hget := (Tree.add_eq_ok (Updates.ok ha).1).2.2
      rw [Tree.linkAt, Tree.linkAt, hget q]
      by_cases hq : q = p
      · rw [if_pos hq, hq, hnone]
      · rw [if_neg hq]
    all_goals rw [ha.1]

theorem chmod_keepsLinks (p : Path) (mode : Nat) : KeepsLinks (.chmod p mode) := by
  intro t r t' hstep q
  cases r with
  | error e => rw [Step.failed hstep]
  | ok _ =>
    rw [Tree.linkAt, Tree.linkAt]
    rcases (Step.ok hstep).chmod with ⟨m, c, hp, hget⟩ | ⟨m, hp, hget⟩
    all_goals
      rw [hget q]
      by_cases hq : q = p
      · rw [if_pos hq, hq, hp]
      · rw [if_neg hq]

theorem keeps_links {p : OsM α} (h : p.Only KeepsLinks) (t₀ : Tree) :
    p.Keeps machine fun t => ∀ q, t.linkAt q = t₀.linkAt q :=
  h.keeps fun _ _ _ _ hop hs hstep q => (hop _ _ _ hstep q).trans (hs q)

end Os
end ShuttleGate
