import Mathlib.Logic.Basic

/-! # Programs over atomic operations

A program is a tree of atomic operations. The environment answers each operation with a value
or an exception and may change the state meanwhile; a program can be stopped between any two
operations. `Prog.wp` is the weakest precondition of a run together with an invariant that
holds wherever the run is stopped: `Exec.wp` carries it along an execution, so the invariant
holds in every visited state and the postcondition in every final one. Where the environment
answers every operation, a program has a complete run (`completes`): programs are well-founded. -/

namespace Effect

/-- A program over the operations `Op` that returns an `α` or raises an `ε`. -/
inductive Prog (Op : Type → Type) (ε α : Type) : Type 1
  | ret (a : α)
  | raise (e : ε)
  | call {β : Type} (op : Op β) (k : Except ε β → Prog Op ε α)

/-- The environment: which answers and next states an operation may have. -/
structure Machine (Op : Type → Type) (ε : Type) (σ : Type u) where
  step : {β : Type} → Op β → σ → Except ε β → σ → Prop

namespace Machine

/-- Every operation has an answer in every state. -/
def Total (M : Machine Op ε σ) : Prop :=
  ∀ {β : Type} (op : Op β) (s : σ), ∃ r s', M.step op s r s'

/-- Every step of `N` is one of `M`. -/
def Refines (N M : Machine Op ε σ) : Prop :=
  ∀ {β : Type} (op : Op β) s r s', N.step op s r s' → M.step op s r s'

theorem Refines.rfl {M : Machine Op ε σ} : M.Refines M := fun _ _ _ _ => id

/-- The machine restricted to the steps that satisfy a condition. -/
def guard (M : Machine Op ε σ) (G : {β : Type} → Op β → σ → Except ε β → σ → Prop) :
    Machine Op ε σ where
  step op s r s' := M.step op s r s' ∧ G op s r s'

end Machine

namespace Prog

variable {Op : Type → Type} {ε α β γ : Type} {σ : Type u}

/-- Continue with the outcome of `p`, an exception included. -/
def andThen (p : Prog Op ε α) (f : Except ε α → Prog Op ε β) : Prog Op ε β :=
  match p with
  | ret a => f (.ok a)
  | raise e => f (.error e)
  | call op k => call op fun r => (k r).andThen f

/-- The finished program with a given outcome. -/
def ofExcept : Except ε α → Prog Op ε α
  | .ok a => ret a
  | .error e => raise e

/-- Sequencing: an exception of `p` skips `f`. -/
def bind (p : Prog Op ε α) (f : α → Prog Op ε β) : Prog Op ε β :=
  p.andThen fun
    | .ok a => f a
    | .error e => raise e

/-- Exception handling: `h` takes over when `p` raises. -/
def handle (p : Prog Op ε α) (h : ε → Prog Op ε α) : Prog Op ε α :=
  p.andThen fun
    | .ok a => ret a
    | .error e => h e

/-- `fin` runs after `p` whatever its outcome, which is kept unless `fin` raises. -/
def finally' (p : Prog Op ε α) (fin : Prog Op ε Unit) : Prog Op ε α :=
  p.andThen fun r => fin.bind fun _ => ofExcept r

/-- One operation as a program. -/
def perform (op : Op β) : Prog Op ε β := call op ofExcept

instance : Monad (Prog Op ε) where
  pure := ret
  bind := bind

instance : MonadExceptOf ε (Prog Op ε) where
  throw := raise
  tryCatch := handle

/-- Run `f` on every element in order. -/
def forEach : List β → (β → Prog Op ε Unit) → Prog Op ε Unit
  | [], _ => ret ()
  | x :: xs, f => (f x).bind fun _ => forEach xs f

@[simp] theorem pure_def (a : α) : (pure a : Prog Op ε α) = ret a := rfl
@[simp] theorem bind_def (p : Prog Op ε α) (f : α → Prog Op ε β) : (p >>= f) = p.bind f := rfl
@[simp] theorem throw_def (e : ε) : (throw e : Prog Op ε α) = raise e := rfl
@[simp] theorem throwThe_def (e : ε) : (throwThe ε e : Prog Op ε α) = raise e := rfl
@[simp] theorem tryCatch_def (p : Prog Op ε α) (h : ε → Prog Op ε α) :
    tryCatch p h = p.handle h := rfl
@[simp] theorem tryCatchThe_def (p : Prog Op ε α) (h : ε → Prog Op ε α) :
    tryCatchThe ε p h = p.handle h := rfl

@[simp] theorem ret_bind (a : α) (f : α → Prog Op ε β) : (ret a).bind f = f a := rfl
@[simp] theorem raise_bind (e : ε) (f : α → Prog Op ε β) : (raise e).bind f = raise e := rfl

/-! ## Executions -/

/-- `Exec M p s q t`: started in `s`, the program `p` has come to the remaining program `q`
and the state `t`. -/
inductive Exec (M : Machine Op ε σ) : Prog Op ε α → σ → Prog Op ε α → σ → Prop
  | refl : Exec M p s p s
  | step {δ : Type} {op : Op δ} {k r} : M.step op s r s' → Exec M (k r) s' q t → Exec M (call op k) s q t

/-- `t` is passed on some run of `p` from `s`: the program can be stopped there. -/
def Visits (M : Machine Op ε σ) (p : Prog Op ε α) (s t : σ) : Prop := ∃ q, Exec M p s q t

/-- Some complete run of `p` from `s` ends in `t` with outcome `r`. -/
def Returns (M : Machine Op ε σ) (p : Prog Op ε α) (s : σ) (r : Except ε α) (t : σ) : Prop :=
  Exec M p s (ofExcept r) t

theorem Exec.trans {M : Machine Op ε σ} {p q u : Prog Op ε α}
    (h : Exec M p s q t) (h' : Exec M q t u v) : Exec M p s u v := by
  induction h with
  | refl => exact h'
  | step hs _ ih => exact .step hs (ih h')

theorem Returns.visits {M : Machine Op ε σ} {p : Prog Op ε α} (h : p.Returns M s r t) :
    p.Visits M s t := ⟨_, h⟩

theorem Exec.andThen {M : Machine Op ε σ} {p q : Prog Op ε α} {f : Except ε α → Prog Op ε β}
    (h : Exec M p s q t) : Exec M (p.andThen f) s (q.andThen f) t := by
  induction h with
  | refl => exact .refl
  | step hs _ ih => exact .step hs ih

/-- A run of the first part and a run of the rest. -/
theorem Returns.bind {M : Machine Op ε σ} {p : Prog Op ε α} {f : α → Prog Op ε β} {q : Prog Op ε β}
    (h : p.Returns M s (.ok a) t) (hf : Exec M (f a) t q u) : Exec M (p.bind f) s q u :=
  Exec.trans (Exec.andThen h) hf

theorem Visits.bind {M : Machine Op ε σ} {p : Prog Op ε α} {f : α → Prog Op ε β}
    (h : p.Visits M s t) : (p.bind f).Visits M s t :=
  let ⟨_, hq⟩ := h; ⟨_, Exec.andThen hq⟩

theorem Returns.visits_bind {M : Machine Op ε σ} {p : Prog Op ε α} {f : α → Prog Op ε β}
    (h : p.Returns M s (.ok a) t) (hf : (f a).Visits M t u) : (p.bind f).Visits M s u :=
  let ⟨q, hq⟩ := hf; ⟨q, h.bind hq⟩

theorem Visits.start {M : Machine Op ε σ} {p : Prog Op ε α} : p.Visits M s s := ⟨p, .refl⟩

/-! ## Weakest preconditions -/

/-- `p.wp M I Q s`: from `s`, `I` holds in every state passed and every final state satisfies `Q`
of the outcome. -/
def wp (M : Machine Op ε σ) (I : σ → Prop) (p : Prog Op ε α)
    (Q : Except ε α → σ → Prop) (s : σ) : Prop :=
  match p with
  | ret a => I s ∧ Q (.ok a) s
  | raise e => I s ∧ Q (.error e) s
  | call op k => I s ∧ ∀ r s', M.step op s r s' → (k r).wp M I Q s'

/-- The postcondition of the first part of a sequence: its value goes on to `f`, its exception
is the exception of the whole. -/
def onOk (Q : Except ε β → σ → Prop) (f : α → σ → Prop) : Except ε α → σ → Prop
  | .ok a, s => f a s
  | .error e, s => Q (.error e) s

@[simp] theorem onOk_ok {Q : Except ε β → σ → Prop} {f : α → σ → Prop} :
    onOk Q f (.ok a) s = f a s := rfl
@[simp] theorem onOk_error {Q : Except ε β → σ → Prop} {f : α → σ → Prop} :
    onOk Q f (.error e) s = Q (.error e) s := rfl

/-- The postcondition of a guarded program: its exception goes on to the handler. -/
def onError (Q : Except ε α → σ → Prop) (h : ε → σ → Prop) : Except ε α → σ → Prop
  | .ok a, s => Q (.ok a) s
  | .error e, s => h e s

@[simp] theorem onError_ok {Q : Except ε α → σ → Prop} {h : ε → σ → Prop} :
    onError Q h (.ok a) s = Q (.ok a) s := rfl
@[simp] theorem onError_error {Q : Except ε α → σ → Prop} {h : ε → σ → Prop} :
    onError Q h (.error e) s = h e s := rfl

section
variable {M : Machine Op ε σ} {I : σ → Prop}

@[simp] theorem wp_ret {Q : Except ε α → σ → Prop} :
    (ret a : Prog Op ε α).wp M I Q s ↔ I s ∧ Q (.ok a) s := .rfl

@[simp] theorem wp_raise {Q : Except ε α → σ → Prop} :
    (raise e : Prog Op ε α).wp M I Q s ↔ I s ∧ Q (.error e) s := .rfl

theorem wp_ofExcept {Q : Except ε α → σ → Prop} :
    (ofExcept r : Prog Op ε α).wp M I Q s ↔ I s ∧ Q r s := by
  cases r <;> rfl

theorem wp.inv {p : Prog Op ε α} {Q : Except ε α → σ → Prop} (h : p.wp M I Q s) : I s := by
  cases p <;> exact h.1

theorem wp_andThen {p : Prog Op ε α} {f : Except ε α → Prog Op ε β}
    {Q : Except ε β → σ → Prop} :
    (p.andThen f).wp M I Q s ↔ p.wp M I (fun r => (f r).wp M I Q) s := by
  induction p generalizing s with
  | ret a => exact ⟨fun h => ⟨h.inv, h⟩, fun h => h.2⟩
  | raise e => exact ⟨fun h => ⟨h.inv, h⟩, fun h => h.2⟩
  | call op k ih => simp only [andThen, wp, ih]

@[simp] theorem wp_bind {p : Prog Op ε α} {f : α → Prog Op ε β} {Q : Except ε β → σ → Prop} :
    (p.bind f).wp M I Q s ↔ p.wp M I (onOk Q fun a => (f a).wp M I Q) s := by
  rw [bind, wp_andThen]
  induction p generalizing s with
  | ret a => rfl
  | raise e => simp [wp, onOk]
  | call op k ih => simp only [wp, ih]

@[simp] theorem wp_handle {p : Prog Op ε α} {h : ε → Prog Op ε α} {Q : Except ε α → σ → Prop} :
    (p.handle h).wp M I Q s ↔ p.wp M I (onError Q fun e => (h e).wp M I Q) s := by
  rw [handle, wp_andThen]
  induction p generalizing s with
  | ret a => simp [wp, onError]
  | raise e => rfl
  | call op k ih => simp only [wp, ih]

theorem wp_perform {op : Op β} {Q : Except ε β → σ → Prop} :
    (perform op : Prog Op ε β).wp M I Q s ↔ I s ∧ ∀ r s', M.step op s r s' → I s' ∧ Q r s' := by
  simp only [perform, wp, wp_ofExcept]

/-- Consequence: a weaker invariant and a weaker postcondition. -/
theorem wp.mono {p : Prog Op ε α} {J : σ → Prop} {Q R : Except ε α → σ → Prop}
    (h : p.wp M I Q s) (hI : ∀ s, I s → J s) (hQ : ∀ r s, I s → Q r s → R r s) :
    p.wp M J R s := by
  induction p generalizing s with
  | ret a => exact ⟨hI _ h.1, hQ _ _ h.1 h.2⟩
  | raise e => exact ⟨hI _ h.1, hQ _ _ h.1 h.2⟩
  | call op k ih => exact ⟨hI _ h.1, fun r s' hs => ih r (h.2 r s' hs)⟩

theorem wp.post {p : Prog Op ε α} {Q R : Except ε α → σ → Prop}
    (h : p.wp M I Q s) (hQ : ∀ r s, I s → Q r s → R r s) : p.wp M I R s :=
  h.mono (fun _ => id) hQ

theorem wp_finally' {p : Prog Op ε α} {fin : Prog Op ε Unit} {Q : Except ε α → σ → Prop} :
    (p.finally' fin).wp M I Q s ↔
      p.wp M I (fun r => fin.wp M I (onOk Q fun _ s => I s ∧ Q r s)) s := by
  rw [finally', wp_andThen]
  constructor <;> refine fun h => h.post fun r t _ hr => ?_
  · refine (wp_bind.mp hr).post fun u v _ hv => ?_
    cases u with
    | ok _ => exact wp_ofExcept.mp hv
    | error e => exact hv
  · refine wp_bind.mpr (hr.post fun u v _ hv => ?_)
    cases u with
    | ok _ => exact wp_ofExcept.mpr hv
    | error e => exact hv

/-- Two facts about the same runs hold together. -/
theorem wp.and {p : Prog Op ε α} {J : σ → Prop} {Q R : Except ε α → σ → Prop}
    (h : p.wp M I Q s) (h' : p.wp M J R s) :
    p.wp M (fun s => I s ∧ J s) (fun r s => Q r s ∧ R r s) s := by
  induction p generalizing s with
  | ret a => exact ⟨⟨h.1, h'.1⟩, h.2, h'.2⟩
  | raise e => exact ⟨⟨h.1, h'.1⟩, h.2, h'.2⟩
  | call op k ih =>
    exact ⟨⟨h.1, h'.1⟩, fun r s' hs => ih r (h.2 r s' hs) (h'.2 r s' hs)⟩

/-- Every run keeps and reaches something. -/
theorem wp_trivial (p : Prog Op ε α) (s : σ) : p.wp M (fun _ => True) (fun _ _ => True) s := by
  induction p generalizing s with
  | ret a => exact ⟨trivial, trivial⟩
  | raise e => exact ⟨trivial, trivial⟩
  | call op k ih => exact ⟨trivial, fun r s' _ => ih r s'⟩

/-- The loop rule: `J xs` holds before the elements `xs` are processed. -/
theorem wp_forEach {f : β → Prog Op ε Unit} {Q : Except ε Unit → σ → Prop}
    (J : List β → σ → Prop) (done : ∀ s, J [] s → I s ∧ Q (.ok ()) s)
    (step : ∀ x xs s, J (x :: xs) s → (f x).wp M I (onOk Q fun _ => J xs) s) :
    ∀ xs s, J xs s → (forEach xs f).wp M I Q s := by
  intro xs
  induction xs with
  | nil => exact done
  | cons x xs ih =>
    intro s h
    rw [forEach, wp_bind]
    refine (step x xs s h).post fun r s' _ hr => ?_
    cases r with
    | ok a => exact ih s' hr
    | error e => exact hr

/-! ## Soundness -/

theorem Exec.wp {p q : Prog Op ε α} {Q : Except ε α → σ → Prop}
    (h : Exec M p s q t) (hp : p.wp M I Q s) : q.wp M I Q t := by
  induction h with
  | refl => exact hp
  | step hs _ ih => exact ih (hp.2 _ _ hs)

theorem wp.visits {p : Prog Op ε α} {Q : Except ε α → σ → Prop}
    (hp : p.wp M I Q s) (h : p.Visits M s t) : I t :=
  let ⟨_, h⟩ := h; (h.wp hp).inv

theorem wp.returns {p : Prog Op ε α} {Q : Except ε α → σ → Prop}
    (hp : p.wp M I Q s) (h : p.Returns M s r t) : Q r t :=
  (wp_ofExcept.mp (Exec.wp h hp)).2

/-- The strongest invariant and the strongest postcondition. -/
theorem wp_runs (p : Prog Op ε α) (s : σ) : p.wp M (p.Visits M s) (p.Returns M s) s := by
  induction p generalizing s with
  | ret a => exact ⟨.start, .refl⟩
  | raise e => exact ⟨.start, .refl⟩
  | call op k ih =>
    refine ⟨.start, fun r s' hs => (ih r s').mono (fun t ht => ?_) fun r' t _ ht => .step hs ht⟩
    obtain ⟨q, hq⟩ := ht
    exact ⟨q, .step hs hq⟩

/-- Where every operation is answered, every program has a complete run. -/
theorem completes (hM : M.Total) (p : Prog Op ε α) (s : σ) : ∃ r t, p.Returns M s r t := by
  induction p generalizing s with
  | ret a => exact ⟨.ok a, s, .refl⟩
  | raise e => exact ⟨.error e, s, .refl⟩
  | call op k ih =>
    obtain ⟨r, s', hs⟩ := hM op s
    obtain ⟨r', t, h⟩ := ih r s'
    exact ⟨r', t, .step hs h⟩

end

/-- A run that keeps `I` is a run of the machine restricted to the steps into `I`. -/
theorem wp.exec_guard {M : Machine Op ε σ} {I : σ → Prop} {p q : Prog Op ε α}
    {Q : Except ε α → σ → Prop} (hp : p.wp M I Q s) (h : Exec M p s q t) :
    Exec (M.guard fun _ _ _ s' => I s') p s q t := by
  induction h with
  | refl => exact .refl
  | step hs _ ih =>
    have hp := hp.2 _ _ hs
    exact .step ⟨hs, hp.inv⟩ (ih hp)

/-- A machine with fewer steps. -/
theorem wp.machine_mono {M N : Machine Op ε σ} {I : σ → Prop} {p : Prog Op ε α}
    {Q : Except ε α → σ → Prop} (h : p.wp M I Q s) (hMN : N.Refines M) :
    p.wp N I Q s := by
  induction p generalizing s with
  | ret a => exact h
  | raise e => exact h
  | call op k ih => exact ⟨h.1, fun r s' hs => ih r (h.2 r s' (hMN op s r s' hs))⟩

/-- More steps, more runs. -/
theorem Exec.mono {M N : Machine Op ε σ} {p q : Prog Op ε α} (hMN : M.Refines N)
    (h : Exec M p s q t) : Exec N p s q t := by
  induction h with
  | refl => exact .refl
  | step hs _ ih => exact .step (hMN _ _ _ _ hs) ih

theorem Returns.mono {M N : Machine Op ε σ} {p : Prog Op ε α} (hMN : M.Refines N)
    (h : p.Returns M s r t) : p.Returns N s r t :=
  Exec.mono hMN h

/-! ## Programs that keep an invariant -/

/-- Every run of `p` from a state of `I` stays in `I`. -/
def Keeps (M : Machine Op ε σ) (I : σ → Prop) (p : Prog Op ε α) : Prop :=
  ∀ s, I s → p.wp M I (fun _ => I) s

section
variable {M : Machine Op ε σ} {I : σ → Prop} {p : Prog Op ε α}

theorem keeps_ret : (ret a : Prog Op ε α).Keeps M I := fun _ h => ⟨h, h⟩
theorem keeps_raise : (raise e : Prog Op ε α).Keeps M I := fun _ h => ⟨h, h⟩

theorem Keeps.andThen {f : Except ε α → Prog Op ε β} (hp : p.Keeps M I)
    (hf : ∀ r, (f r).Keeps M I) : (p.andThen f).Keeps M I :=
  fun s hs => wp_andThen.mpr ((hp s hs).post fun r t _ ht => hf r t ht)

theorem Keeps.bind {f : α → Prog Op ε β} (hp : p.Keeps M I) (hf : ∀ a, (f a).Keeps M I) :
    (p.bind f).Keeps M I :=
  hp.andThen fun
    | .ok a => hf a
    | .error _ => keeps_raise

theorem Keeps.handle {h : ε → Prog Op ε α} (hp : p.Keeps M I) (hh : ∀ e, (h e).Keeps M I) :
    (p.handle h).Keeps M I :=
  hp.andThen fun
    | .ok _ => keeps_ret
    | .error e => hh e

end

theorem Keeps.and {M : Machine Op ε σ} {I J : σ → Prop} {p : Prog Op ε α} (hI : p.Keeps M I)
    (hJ : p.Keeps M J) : p.Keeps M fun s => I s ∧ J s :=
  fun s hs => wp.and (hI s hs.1) (hJ s hs.2)

theorem keeps_forEach {M : Machine Op ε σ} {I : σ → Prop} {f : β → Prog Op ε Unit}
    (h : ∀ x, (f x).Keeps M I) : ∀ xs, (forEach xs f).Keeps M I
  | [] => keeps_ret
  | x :: xs => (h x).bind fun _ => keeps_forEach h xs

/-! ## Playing a program against an oracle -/

/-- The state after at most `n` operations, each answered by the oracle. -/
def play (oracle : {β : Type} → Op β → σ → Except ε β × σ) : Nat → Prog Op ε α → σ → σ
  | n + 1, call op k, s => play oracle n (k (oracle op s).1) (oracle op s).2
  | _, _, s => s

/-- An oracle that answers as the machine does plays a run of the machine. -/
theorem visits_play {M : Machine Op ε σ} {oracle : {β : Type} → Op β → σ → Except ε β × σ}
    (h : ∀ {β : Type} (op : Op β) s, M.step op s (oracle op s).1 (oracle op s).2)
    (n : Nat) (p : Prog Op ε α) (s : σ) : p.Visits M s (play oracle n p s) := by
  induction n generalizing p s with
  | zero => exact .start
  | succ n ih =>
    cases p with
    | ret a => exact .start
    | raise e => exact .start
    | call op k =>
      obtain ⟨q, hq⟩ := ih (k (oracle op s).1) (oracle op s).2
      exact ⟨q, .step (h op s) hq⟩

/-- The outcome and the state of a complete run of at most `n` operations. -/
def complete (oracle : {β : Type} → Op β → σ → Except ε β × σ) :
    Nat → Prog Op ε α → σ → Option (Except ε α × σ)
  | _, ret a, s => some (.ok a, s)
  | _, raise e, s => some (.error e, s)
  | 0, call _ _, _ => none
  | n + 1, call op k, s => complete oracle n (k (oracle op s).1) (oracle op s).2

theorem returns_complete {M : Machine Op ε σ}
    {oracle : {β : Type} → Op β → σ → Except ε β × σ}
    (h : ∀ {β : Type} (op : Op β) s, M.step op s (oracle op s).1 (oracle op s).2)
    (n : Nat) (p : Prog Op ε α) (s : σ) (r : Except ε α) (t : σ)
    (hc : complete oracle n p s = some (r, t)) : p.Returns M s r t := by
  induction n generalizing p s with
  | zero =>
    cases p with
    | ret a | raise e =>
      cases hc
      exact .refl
    | call op k => cases hc
  | succ n ih =>
    cases p with
    | ret a | raise e =>
      cases hc
      exact .refl
    | call op k => exact .step (h op s) (ih _ _ hc)

/-- A run of at most `n` operations against a host that may have no answer: the state it has come
to, and the outcome of a complete run. -/
def attempt (host : {β : Type} → Op β → σ → Option (Except ε β × σ)) :
    Nat → Prog Op ε α → σ → Option (Option (Except ε α) × σ)
  | _, ret a, s => some (some (.ok a), s)
  | _, raise e, s => some (some (.error e), s)
  | 0, call _ _, s => some (none, s)
  | n + 1, call op k, s => (host op s).bind fun (r, s') => attempt host n (k r) s'

section
variable {M : Machine Op ε σ} {host : {β : Type} → Op β → σ → Option (Except ε β × σ)}

/-- Where the host answers as the machine does, an attempt is a run of the machine. -/
theorem exec_attempt (h : ∀ {β : Type} (op : Op β) s x, host op s = some x → M.step op s x.1 x.2)
    (n : Nat) (p : Prog Op ε α) (s : σ) (hr : attempt host n p s = some (r, t)) :
    ∃ q, Exec M p s q t ∧ ∀ r', r = some r' → q = ofExcept r' := by
  induction n generalizing p s with
  | zero =>
    cases p with
    | ret a | raise e =>
      cases hr
      exact ⟨_, .refl, fun _ h => by cases h; rfl⟩
    | call op k =>
      cases hr
      exact ⟨_, .refl, nofun⟩
  | succ n ih =>
    cases p with
    | ret a | raise e =>
      cases hr
      exact ⟨_, .refl, fun _ h => by cases h; rfl⟩
    | call op k =>
      obtain ⟨⟨r₁, s₁⟩, hs, hr⟩ := Option.bind_eq_some_iff.mp hr
      obtain ⟨q, hq, hret⟩ := ih (k r₁) s₁ hr
      exact ⟨q, .step (h op s _ hs) hq, hret⟩

/-- A complete attempt that passes a test is a run that does. -/
theorem exists_returns (h : ∀ {β : Type} (op : Op β) s x, host op s = some x → M.step op s x.1 x.2)
    (n : Nat) (test : Except ε α → σ → Bool) {p : Prog Op ε α} {s : σ}
    (hr : (attempt host n p s).any (fun x => x.1.any fun r => test r x.2) = true) :
    ∃ r t, p.Returns M s r t ∧ test r t = true := by
  obtain ⟨⟨r, t⟩, hattempt, hany⟩ := (Option.any_eq_true _ _).mp hr
  obtain ⟨r, rfl, htest⟩ := (Option.any_eq_true _ _).mp hany
  obtain ⟨q, hq, hret⟩ := exec_attempt h n p s hattempt
  obtain rfl := hret r rfl
  exact ⟨r, t, hq, htest⟩

/-- A stopped attempt that passes a test passes a state that does. -/
theorem exists_visits (h : ∀ {β : Type} (op : Op β) s x, host op s = some x → M.step op s x.1 x.2)
    (n : Nat) (test : σ → Bool) {p : Prog Op ε α} {s : σ}
    (hr : (attempt host n p s).any (fun x => test x.2) = true) :
    ∃ t, p.Visits M s t ∧ test t = true := by
  obtain ⟨⟨r, t⟩, hattempt, htest⟩ := (Option.any_eq_true _ _).mp hr
  obtain ⟨q, hq, -⟩ := exec_attempt h n p s hattempt
  exact ⟨t, ⟨q, hq⟩, htest⟩

end

/-! ## Programs that keep to some operations -/

/-- Every operation the program can come to satisfies `P`. -/
def Only (P : {β : Type} → Op β → Prop) : Prog Op ε α → Prop
  | ret _ => True
  | raise _ => True
  | call op k => P op ∧ ∀ r, (k r).Only P

section
variable {P : {β : Type} → Op β → Prop} {p : Prog Op ε α}

@[simp] theorem only_ret : (ret a : Prog Op ε α).Only P := trivial
@[simp] theorem only_raise : (raise e : Prog Op ε α).Only P := trivial

@[simp] theorem only_ofExcept (r : Except ε α) : (ofExcept r : Prog Op ε α).Only P := by
  cases r <;> trivial

@[simp] theorem only_perform {op : Op β} : (perform op : Prog Op ε β).Only P ↔ P op :=
  ⟨And.left, fun h => ⟨h, only_ofExcept⟩⟩

theorem Only.andThen {f : Except ε α → Prog Op ε β} (hp : p.Only P) (hf : ∀ r, (f r).Only P) :
    (p.andThen f).Only P := by
  induction p with
  | ret a => exact hf _
  | raise e => exact hf _
  | call op k ih => exact ⟨hp.1, fun r => ih r (hp.2 r)⟩

@[simp] theorem Only.bind {f : α → Prog Op ε β} (hp : p.Only P) (hf : ∀ a, (f a).Only P) :
    (p.bind f).Only P :=
  hp.andThen fun r => by cases r <;> simp [hf]

@[simp] theorem Only.handle {h : ε → Prog Op ε α} (hp : p.Only P) (hh : ∀ e, (h e).Only P) :
    (p.handle h).Only P :=
  hp.andThen fun r => by cases r <;> simp [hh]

@[simp] theorem Only.finally' {fin : Prog Op ε Unit} (hp : p.Only P) (hf : fin.Only P) :
    (p.finally' fin).Only P :=
  hp.andThen fun r => hf.bind fun _ => only_ofExcept r

@[simp] theorem Only.ite {q : Prog Op ε α} [Decidable c] (hp : p.Only P) (hq : q.Only P) :
    (if c then p else q).Only P := by
  split
  · exact hp
  · exact hq

theorem only_forEach_mem {f : β → Prog Op ε Unit} :
    ∀ xs, (∀ x ∈ xs, (f x).Only P) → (forEach xs f).Only P
  | [], _ => only_ret
  | x :: xs, h => (h x List.mem_cons_self).bind fun _ =>
      only_forEach_mem xs fun y hy => h y (List.mem_cons_of_mem x hy)

@[simp] theorem only_forEach {f : β → Prog Op ε Unit} (h : ∀ x, (f x).Only P) (xs : List β) :
    (forEach xs f).Only P :=
  only_forEach_mem xs fun x _ => h x

theorem Only.mono {Q : {β : Type} → Op β → Prop} (hp : p.Only P)
    (h : ∀ {β : Type} (op : Op β), P op → Q op) : p.Only Q := by
  induction p with
  | ret a => trivial
  | raise e => trivial
  | call op k ih => exact ⟨h op hp.1, fun r => ih r (hp.2 r)⟩

theorem only_trivial (p : Prog Op ε α) : p.Only fun _ => True := by
  induction p with
  | ret a => trivial
  | raise e => trivial
  | call op k ih => exact ⟨trivial, ih⟩

/-- A program has a complete run where all its operations are answered. -/
theorem Only.completes {M : Machine Op ε σ} (hp : p.Only P)
    (hM : ∀ {β : Type} (op : Op β) s, P op → ∃ r s', M.step op s r s') (s : σ) :
    ∃ r t, p.Returns M s r t := by
  induction p generalizing s with
  | ret a => exact ⟨.ok a, s, .refl⟩
  | raise e => exact ⟨.error e, s, .refl⟩
  | call op k ih =>
    obtain ⟨r, s', hs⟩ := hM op s hp.1
    obtain ⟨r', t, h⟩ := ih r (hp.2 r) s'
    exact ⟨r', t, .step hs h⟩

/-- An invariant of the operations a program keeps to is an invariant of the program. -/
theorem Only.keeps {M : Machine Op ε σ} {I : σ → Prop} (hp : p.Only P)
    (hI : ∀ {β : Type} (op : Op β) s r s', P op → I s → M.step op s r s' → I s') :
    p.Keeps M I := by
  intro s hs
  induction p generalizing s with
  | ret a => exact ⟨hs, hs⟩
  | raise e => exact ⟨hs, hs⟩
  | call op k ih => exact ⟨hs, fun r s' h => ih r (hp.2 r) s' (hI op s r s' hp.1 hs h)⟩

end

end Prog
end Effect
