import ShuttleGate.Effect.Outcome

/-! # Programs that only read

Where each operation of a program has one answer and no effect, the program is a function of the
state: its value follows its structure, and a complete run returns that value and changes
nothing. -/

namespace Effect

variable {Op : Type → Type} {ε α β : Type} {σ : Type u}

/-- In `s` the operations of `P` are answered by a function, without an effect. -/
def Machine.Tells (M : Machine Op ε σ) (P : {β : Type} → Op β → Prop)
    (answer : {β : Type} → Op β → Except ε β) (s : σ) : Prop :=
  ∀ {β : Type} (op : Op β) r t, P op → (M.step op s r t ↔ r = answer op ∧ t = s)

namespace Prog

/-- The value of a program whose operations are answered by a function. -/
def value (answer : {β : Type} → Op β → Except ε β) : Prog Op ε α → Except ε α
  | ret a => .ok a
  | raise e => .error e
  | call op k => (k (answer op)).value answer

section
variable {answer : {β : Type} → Op β → Except ε β}

@[simp] theorem value_ret (a : α) : (ret a : Prog Op ε α).value answer = .ok a := rfl
@[simp] theorem value_raise (e : ε) : (raise e : Prog Op ε α).value answer = .error e := rfl

@[simp] theorem value_ofExcept (r : Except ε α) : (ofExcept r : Prog Op ε α).value answer = r := by
  cases r <;> rfl

@[simp] theorem value_perform (op : Op β) : (perform op : Prog Op ε β).value answer = answer op :=
  value_ofExcept (answer op)

theorem value_andThen (p : Prog Op ε α) (f : Except ε α → Prog Op ε β) :
    (p.andThen f).value answer = (f (p.value answer)).value answer := by
  induction p with
  | ret a => rfl
  | raise e => rfl
  | call op k ih => exact ih (answer op)

@[simp] theorem value_bind (p : Prog Op ε α) (f : α → Prog Op ε β) :
    (p.bind f).value answer = (p.value answer).bind fun a => (f a).value answer := by
  rw [bind, value_andThen]
  cases p.value answer <;> rfl

@[simp] theorem value_handle (p : Prog Op ε α) (h : ε → Prog Op ε α) :
    (p.handle h).value answer = (p.value answer).tryCatch fun e => (h e).value answer := by
  rw [handle, value_andThen]
  cases p.value answer <;> rfl

@[simp] theorem value_ite {c : Prop} [Decidable c] (p q : Prog Op ε α) :
    (if c then p else q).value answer = if c then p.value answer else q.value answer :=
  apply_ite (value answer) c p q

theorem value_bind_eq_ok {p : Prog Op ε α} {f : α → Prog Op ε β} : (p.bind f).value answer = .ok b ↔
    ∃ a, p.value answer = .ok a ∧ (f a).value answer = .ok b := by
  rw [value_bind]
  cases p.value answer <;> simp [Except.bind]

/-- A handler that only raises adds no value. -/
theorem value_of_handle {p : Prog Op ε α} {h : ε → Prog Op ε α}
    (hraises : ∀ e a, (h e).value answer ≠ .ok a) (hok : (p.handle h).value answer = .ok a) :
    p.value answer = .ok a := by
  rw [value_handle] at hok
  cases hp : p.value answer with
  | ok a' =>
    rw [hp] at hok
    exact hok
  | error e =>
    rw [hp] at hok
    exact absurd hok (hraises e a)

theorem value_forEach_eq_ok {xs : List β} {f : β → Prog Op ε Unit} :
    (forEach xs f).value answer = .ok () ↔ ∀ x ∈ xs, (f x).value answer = .ok () := by
  induction xs with
  | nil => exact ⟨fun _ _ hx => absurd hx List.not_mem_nil, fun _ => rfl⟩
  | cons x xs ih =>
    rw [forEach, value_bind_eq_ok, List.forall_mem_cons, ← ih]
    constructor
    · rintro ⟨_, hx, hxs⟩
      exact ⟨hx, hxs⟩
    · rintro ⟨hx, hxs⟩
      exact ⟨(), hx, hxs⟩

variable {M : Machine Op ε σ} {P : {β : Type} → Op β → Prop} {p : Prog Op ε α} {s : σ}

/-- A complete run returns the value and leaves the state as it was. -/
theorem Only.wp_value (hp : p.Only P) (hM : M.Tells P answer s) :
    p.wp M (fun t => t = s) (fun r t => r = p.value answer ∧ t = s) s := by
  induction p with
  | ret a => exact ⟨rfl, rfl, rfl⟩
  | raise e => exact ⟨rfl, rfl, rfl⟩
  | call op k ih =>
    refine ⟨rfl, fun r t hstep => ?_⟩
    obtain ⟨rfl, rfl⟩ := (hM op r t hp.1).mp hstep
    exact ih _ (hp.2 _)

/-- There is such a run. -/
theorem Only.returns_value (hp : p.Only P) (hM : M.Tells P answer s) :
    p.Returns M s (p.value answer) s := by
  induction p with
  | ret a => exact .refl
  | raise e => exact .refl
  | call op k ih => exact .step ((hM op _ s hp.1).mpr ⟨rfl, rfl⟩) (ih _ (hp.2 _))

theorem Only.returns_iff (hp : p.Only P) (hM : M.Tells P answer s) :
    p.Returns M s r t ↔ r = p.value answer ∧ t = s := by
  constructor
  · exact fun h => (hp.wp_value hM).returns h
  · rintro ⟨rfl, rfl⟩
    exact hp.returns_value hM

end

end Prog
end Effect
