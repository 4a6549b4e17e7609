import ShuttleGate.Effect.Outcome
import Mathlib.Data.List.Infix

/-! # Runs with their events

The events of a run: every operation with its answer. `Machine.traced` keeps them beside the
state, the latest first. What is said of events alone is proved over `Machine.log`, which forgets
the state. -/

namespace Effect

/-- An operation with its answer. -/
structure Event (Op : Type → Type) (ε : Type) : Type 1 where
  {β : Type}
  op : Op β
  result : Except ε β

namespace Machine

variable {Op : Type → Type} {ε : Type} {σ : Type u}

/-- The machine with the events so far, the latest first. -/
def traced (M : Machine Op ε σ) : Machine Op ε (σ × List (Event Op ε)) where
  step op s r t := M.step op s.1 r t.1 ∧ t.2 = ⟨op, r⟩ :: s.2

/-- Only the events, each one that some state of the machine allows. -/
def log (M : Machine Op ε σ) : Machine Op ε (List (Event Op ε)) where
  step op es r es' := (∃ s t, M.step op s r t) ∧ es' = ⟨op, r⟩ :: es

end Machine

namespace Prog

variable {Op : Type → Type} {ε α : Type} {σ : Type u} {M : Machine Op ε σ} {p q : Prog Op ε α}

/-- Every run has its events. -/
theorem Exec.exists_trace (h : Exec M p s q t) (es : List (Event Op ε)) :
    ∃ es', Exec M.traced p (s, es) q (t, es') := by
  induction h generalizing es with
  | refl => exact ⟨es, .refl⟩
  | step hs _ ih =>
    obtain ⟨es', h⟩ := ih _
    exact ⟨es', .step ⟨hs, rfl⟩ h⟩

/-- A run with events is a run. -/
theorem Exec.untraced (h : Exec M.traced p s q t) : Exec M p s.1 q t.1 := by
  induction h with
  | refl => exact .refl
  | step hs _ ih => exact .step hs.1 ih

/-- Events are only added. -/
theorem Exec.suffix (h : Exec M.traced p s q t) : s.2 <:+ t.2 := by
  induction h with
  | refl => exact List.suffix_rfl
  | step hs _ ih => exact (List.suffix_cons _ _).trans (hs.2 ▸ ih)

/-- What holds of the states holds of them beside their events. -/
theorem wp.traced {I : σ → Prop} {Q : Except ε α → σ → Prop} (h : p.wp M I Q s)
    (es : List (Event Op ε)) : p.wp M.traced (fun s => I s.1) (fun r s => Q r s.1) (s, es) := by
  induction p generalizing s es with
  | ret a | raise e => exact h
  | call op k ih => exact ⟨h.1, fun r t hs => ih r (h.2 r t.1 hs.1) t.2⟩

/-- The events of a program that keeps to some operations are among them. -/
theorem Only.events {P : {β : Type} → Op β → Prop} (h : p.Only P) :
    p.Keeps M.traced fun s => ∀ e ∈ s.2, P e.op :=
  h.keeps fun op s r t hop hs hstep => by
    rw [hstep.2]
    exact List.forall_mem_cons.mpr ⟨hop, hs⟩

/-- A run with allowed events only is a run of the machine restricted to them. -/
theorem Exec.log_guard {P : Event Op ε → Prop} (h : Exec M.traced p s q t) (hP : ∀ e ∈ t.2, P e) :
    Exec (M.guard fun op _ r _ => P ⟨op, r⟩).log p s.2 q t.2 := by
  induction h with
  | refl => exact .refl
  | step hs h ih =>
    have hmem := h.suffix.subset (hs.2 ▸ List.mem_cons_self)
    exact .step ⟨⟨_, _, hs.1, hP _ hmem⟩, hs.2⟩ (ih hP)

/-- An oracle that keeps the events. -/
def traceOracle (oracle : {β : Type} → Op β → σ → Except ε β × σ) {β : Type} (op : Op β)
    (s : σ × List (Event Op ε)) : Except ε β × σ × List (Event Op ε) :=
  ((oracle op s.1).1, (oracle op s.1).2, ⟨op, (oracle op s.1).1⟩ :: s.2)

theorem step_traceOracle {oracle : {β : Type} → Op β → σ → Except ε β × σ}
    (h : ∀ {β : Type} (op : Op β) s, M.step op s (oracle op s).1 (oracle op s).2) {β : Type}
    (op : Op β) (s : σ × List (Event Op ε)) :
    M.traced.step op s (traceOracle oracle op s).1 (traceOracle oracle op s).2 :=
  ⟨h op s.1, rfl⟩

/-- A host that keeps the events. -/
def traceHost (host : {β : Type} → Op β → σ → Option (Except ε β × σ)) {β : Type} (op : Op β)
    (s : σ × List (Event Op ε)) : Option (Except ε β × σ × List (Event Op ε)) :=
  (host op s.1).map fun x => (x.1, x.2, ⟨op, x.1⟩ :: s.2)

theorem step_traceHost {host : {β : Type} → Op β → σ → Option (Except ε β × σ)}
    (h : ∀ {β : Type} (op : Op β) s x, host op s = some x → M.step op s x.1 x.2) {β : Type}
    (op : Op β) (s : σ × List (Event Op ε)) (x : Except ε β × σ × List (Event Op ε))
    (hx : traceHost host op s = some x) : M.traced.step op s x.1 x.2 := by
  obtain ⟨y, hy, rfl⟩ := Option.map_eq_some_iff.mp hx
  exact ⟨h op s.1 y hy, rfl⟩

end Prog
end Effect
