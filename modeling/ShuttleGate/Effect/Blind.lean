import ShuttleGate.Effect.Prog

/-! # Programs that do not tell answers apart

A relation says which two answers of an operation a program must not tell apart. A blind program
goes on in the same way after either, so that it does the same in two environments whose answers
are related (`Blind.exec`), whatever else they answer. -/

namespace Effect

namespace Prog

variable {Op : Type → Type} {ε α β : Type} {σ : Type u}

/-- The outcome of a program where every operation has one answer. -/
def eval (answer : {β : Type} → Op β → Except ε β) : Prog Op ε α → Except ε α
  | ret a => .ok a
  | raise e => .error e
  | call op k => (k (answer op)).eval answer

/-- After answers that `R` relates the program is the same. -/
def Blind (R : {β : Type} → Op β → Except ε β → Except ε β → Prop) : Prog Op ε α → Prop
  | ret _ => True
  | raise _ => True
  | call op k => (∀ r r', R op r r' → k r = k r') ∧ ∀ r, (k r).Blind R

section
variable {answer answer' : {β : Type} → Op β → Except ε β} {p : Prog Op ε α}

theorem eval_andThen (f : Except ε α → Prog Op ε β) :
    (p.andThen f).eval answer = (f (p.eval answer)).eval answer := by
  induction p with
  | ret a => rfl
  | raise e => rfl
  | call op k ih => exact ih _

@[simp] theorem eval_ofExcept (r : Except ε α) : (ofExcept r : Prog Op ε α).eval answer = r := by
  cases r <;> rfl

@[simp] theorem eval_perform (op : Op β) : (perform op : Prog Op ε β).eval answer = answer op :=
  eval_ofExcept _

theorem eval_bind (f : α → Prog Op ε β) :
    (p.bind f).eval answer = p.eval answer >>= fun a => (f a).eval answer := by
  rw [bind, eval_andThen]
  cases p.eval answer <;> rfl

/-- The answers to operations a program does not use do not matter. -/
theorem Only.eval_eq {P : {β : Type} → Op β → Prop} (hp : p.Only P)
    (h : ∀ {β : Type} (op : Op β), P op → answer op = answer' op) : p.eval answer = p.eval answer' := by
  induction p with
  | ret a => rfl
  | raise e => rfl
  | call op k ih =>
    change (k (answer op)).eval answer = (k (answer' op)).eval answer'
    rw [h op hp.1]
    exact ih _ (hp.2 _)

end

section
variable {R : {β : Type} → Op β → Except ε β → Except ε β → Prop} {p : Prog Op ε α}

@[simp] theorem blind_ret : (ret a : Prog Op ε α).Blind R := trivial
@[simp] theorem blind_raise : (raise e : Prog Op ε α).Blind R := trivial

@[simp] theorem blind_ofExcept (r : Except ε α) : (ofExcept r : Prog Op ε α).Blind R := by
  cases r <;> trivial

/-- A program without operations that have related answers. -/
theorem Only.blind {P : {β : Type} → Op β → Prop} (hp : p.Only P)
    (h : ∀ {β : Type} (op : Op β), P op → ∀ r r', ¬ R op r r') : p.Blind R := by
  induction p with
  | ret a => trivial
  | raise e => trivial
  | call op k ih => exact ⟨fun r r' hr => (h op hp.1 r r' hr).elim, fun r => ih r (hp.2 r)⟩

/-- An operation whose answer is put to use in a blind way. -/
theorem blind_perform {op : Op β} {f : Except ε β → Prog Op ε α}
    (h : ∀ r r', R op r r' → f r = f r') (hf : ∀ r, (f r).Blind R) :
    ((perform op).andThen f).Blind R := by
  have heq (r : Except ε β) : (ofExcept r).andThen f = f r := by cases r <;> rfl
  constructor
  · intro r r' hr
    simp only [heq]
    exact h r r' hr
  · intro r
    simp only [heq]
    exact hf r

theorem Blind.andThen {f : Except ε α → Prog Op ε β} (hp : p.Blind R) (hf : ∀ r, (f r).Blind R) :
    (p.andThen f).Blind R := by
  induction p with
  | ret a => exact hf _
  | raise e => exact hf _
  | call op k ih =>
    constructor
    · intro r r' hr
      exact congrArg (fun q => Prog.andThen q f) (hp.1 r r' hr)
    · intro r
      exact ih r (hp.2 r)

theorem Blind.bind {f : α → Prog Op ε β} (hp : p.Blind R) (hf : ∀ a, (f a).Blind R) :
    (p.bind f).Blind R :=
  hp.andThen fun r => by cases r <;> simp [hf]

theorem Blind.handle {h : ε → Prog Op ε α} (hp : p.Blind R) (hh : ∀ e, (h e).Blind R) :
    (p.handle h).Blind R :=
  hp.andThen fun r => by cases r <;> simp [hh]

theorem Blind.finally' {fin : Prog Op ε Unit} (hp : p.Blind R) (hf : fin.Blind R) :
    (p.finally' fin).Blind R :=
  hp.andThen fun r => hf.bind fun _ => blind_ofExcept r

theorem Blind.ite {q : Prog Op ε α} {c : Prop} [Decidable c] (hp : p.Blind R) (hq : q.Blind R) :
    (if c then p else q).Blind R := by
  split
  · exact hp
  · exact hq

theorem blind_forEach {f : β → Prog Op ε Unit} : ∀ xs, (∀ x ∈ xs, (f x).Blind R) →
    (forEach xs f).Blind R
  | [], _ => blind_ret
  | x :: xs, h => (h x List.mem_cons_self).bind fun _ =>
      blind_forEach xs fun y hy => h y (List.mem_cons_of_mem x hy)

/-- Wherever the steps of one environment are steps of another up to related answers, a blind
program does there what it does here. -/
theorem Blind.exec {M N : Machine Op ε σ} {q : Prog Op ε α}
    (hMN : ∀ {β : Type} (op : Op β) s r s', M.step op s r s' →
      ∃ r', (r' = r ∨ R op r r') ∧ N.step op s r' s')
    (hp : p.Blind R) (h : Exec M p s q t) : Exec N p s q t := by
  induction h with
  | refl => exact .refl
  | step hs _ ih =>
    obtain ⟨r', hr, hs'⟩ := hMN _ _ _ _ hs
    refine .step hs' ?_
    rcases hr with rfl | hr
    · exact ih (hp.2 _)
    · rw [← hp.1 _ _ hr]
      exact ih (hp.2 _)

end

end Prog

end Effect
