import ShuttleGate.Effect.Prog

/-! # What a program has done when it returns

Three forms of the weakest precondition without an invariant. `Yields`: whenever the program
returns a value, it has reached the postcondition; its exceptions are left open. `Throws`: the same
of its exceptions. `Succeeds`: every complete run returns a value and reaches the postcondition. They follow the
program's structure, and an invariant of the program can be added. `Settles` is `Yields` with an
invariant from the start. -/

namespace Effect.Prog

variable {Op : Type → Type} {ε α β : Type} {σ : Type u} {M : Machine Op ε σ}

/-! ## Yields -/

def Yields (M : Machine Op ε σ) (p : Prog Op ε α) (Q : α → σ → Prop) (s : σ) : Prop :=
  p.wp M (fun _ => True) (fun r t => ∀ a, r = .ok a → Q a t) s

theorem Yields.mono {p : Prog Op ε α} {Q R : α → σ → Prop} (h : p.Yields M Q s)
    (hQ : ∀ a t, Q a t → R a t) : p.Yields M R s :=
  h.post fun _ _ _ hr a ha => hQ a _ (hr a ha)

theorem yields_ret {Q : α → σ → Prop} (h : Q a s) : (ret a : Prog Op ε α).Yields M Q s :=
  ⟨trivial, fun _ ha => by cases ha; exact h⟩

theorem yields_raise {Q : α → σ → Prop} : (raise e : Prog Op ε α).Yields M Q s :=
  ⟨trivial, nofun⟩

theorem yields_trivial (p : Prog Op ε α) (s : σ) : p.Yields M (fun _ _ => True) s :=
  (wp_trivial p s).post fun _ _ _ _ _ _ => trivial

theorem yields_perform {op : Op β} {Q : β → σ → Prop}
    (h : ∀ a t, M.step op s (.ok a) t → Q a t) : (perform op : Prog Op ε β).Yields M Q s :=
  wp_perform.mpr ⟨trivial, fun _ t hs => ⟨trivial, fun a ha => h a t (ha ▸ hs)⟩⟩

theorem yields_bind {p : Prog Op ε α} {f : α → Prog Op ε β} {Q : β → σ → Prop}
    (h : p.Yields M (fun a => (f a).Yields M Q) s) : (p.bind f).Yields M Q s := by
  refine wp_bind.mpr (h.post fun r t _ hr => ?_)
  cases r with
  | ok a => exact hr a rfl
  | error e => exact nofun

/-- Whatever the first part does, the rest reaches the postcondition. -/
theorem yields_bind_any {p : Prog Op ε α} {f : α → Prog Op ε β} {Q : β → σ → Prop}
    (h : ∀ a t, (f a).Yields M Q t) : (p.bind f).Yields M Q s :=
  yields_bind ((yields_trivial p s).mono fun a t _ => h a t)

theorem yields_handle {p : Prog Op ε α} {h : ε → Prog Op ε α} {Q : α → σ → Prop}
    (hp : p.Yields M Q s) (hh : ∀ e t, (h e).Yields M Q t) : (p.handle h).Yields M Q s := by
  refine wp_handle.mpr (hp.post fun r t _ hr => ?_)
  cases r with
  | ok a => exact hr
  | error e => exact hh e t

/-- A handler that raises again does not return. -/
theorem yields_handle_raise {p : Prog Op ε α} {h : ε → Prog Op ε Unit} {Q : α → σ → Prop}
    (hp : p.Yields M Q s) : (p.handle fun e => (h e).bind fun _ => raise e).Yields M Q s :=
  yields_handle hp fun _ _ => yields_bind_any fun _ _ => yields_raise

theorem yields_ite {c : Prop} [Decidable c] {p q : Prog Op ε α} {Q : α → σ → Prop}
    (hp : c → p.Yields M Q s) (hq : ¬ c → q.Yields M Q s) : (if c then p else q).Yields M Q s := by
  split
  · exact hp ‹_›
  · exact hq ‹_›

theorem yields_forEach {f : β → Prog Op ε Unit} (J : List β → σ → Prop)
    (step : ∀ x xs t, J (x :: xs) t → (f x).Yields M (fun _ => J xs) t) :
    ∀ xs s, J xs s → (forEach xs f).Yields M (fun _ => J []) s
  | [], _, h => yields_ret h
  | x :: xs, s, h => yields_bind ((step x xs s h).mono fun _ t ht => yields_forEach J step xs t ht)

theorem Yields.and_keeps {p : Prog Op ε α} {Q : α → σ → Prop} {I : σ → Prop}
    (h : p.Yields M Q s) (hI : p.Keeps M I) (hs : I s) :
    p.Yields M (fun a t => Q a t ∧ I t) s :=
  ((wp.and h (hI s hs)).mono (fun _ _ => trivial)) fun _ _ _ hr a ha => ⟨hr.1 a ha, hr.2⟩

/-- The first part of a sequence keeps `F` and reaches `R` when it returns; the invariant `I`
follows from `F` meanwhile. What is known of the first part may be known of a machine with more
steps. -/
theorem wp_bind_refines {N : Machine Op ε σ} {p : Prog Op ε α} {f : α → Prog Op ε β}
    {I F : σ → Prop} {R : α → σ → Prop} {Q : Except ε β → σ → Prop} (hN : N.Refines M)
    (hp : p.Keeps M F) (h : p.Yields M R s)
    (hs : F s) (hI : ∀ t, F t → I t) (herror : ∀ e t, F t → Q (.error e) t)
    (hf : ∀ a t, F t → R a t → (f a).wp N I Q t) : (p.bind f).wp N I Q s := by
  refine wp_bind.mpr (((wp.and h (hp s hs)).machine_mono hN).mono (fun t ht => hI t ht.2)
    fun r t ht hr => ?_)
  cases r with
  | ok a => exact hf a t ht.2 (hr.1 a rfl)
  | error e => exact herror e t ht.2

/-- The first part of a sequence keeps `F`; its run is known to the rest. -/
theorem wp_bind_returns {N : Machine Op ε σ} {p : Prog Op ε α} {f : α → Prog Op ε β}
    {I F : σ → Prop} {Q : Except ε β → σ → Prop} (hN : N.Refines M) (hp : p.Keeps M F) (hs : F s)
    (hI : ∀ t, F t → I t) (herror : ∀ e t, F t → Q (.error e) t)
    (hf : ∀ a t, F t → p.Returns N s (.ok a) t → (f a).wp N I Q t) : (p.bind f).wp N I Q s := by
  refine wp_bind.mpr ((((hp s hs).machine_mono hN).and (wp_runs p s)).mono
    (fun t ht => hI t ht.1) fun r t ht hr => ?_)
  cases r with
  | ok a => exact hf a t ht.1 hr.2
  | error e => exact herror e t ht.1

theorem wp_bind_keeps {p : Prog Op ε α} {f : α → Prog Op ε β} {I F : σ → Prop}
    {R : α → σ → Prop} {Q : Except ε β → σ → Prop} (hp : p.Keeps M F) (h : p.Yields M R s)
    (hs : F s) (hI : ∀ t, F t → I t) (herror : ∀ e t, F t → Q (.error e) t)
    (hf : ∀ a t, F t → R a t → (f a).wp M I Q t) : (p.bind f).wp M I Q s :=
  wp_bind_refines Machine.Refines.rfl hp h hs hI herror hf

theorem Yields.returns {p : Prog Op ε α} {Q : α → σ → Prop} (h : p.Yields M Q s)
    (hr : p.Returns M s (.ok a) t) : Q a t :=
  wp.returns h hr a rfl

theorem yields_returns (p : Prog Op ε α) (s : σ) :
    p.Yields M (fun a t => p.Returns M s (.ok a) t) s :=
  (wp_runs p s).mono (fun _ _ => trivial) fun r _ _ hr _ ha => by
    subst ha
    exact hr

theorem yields_finally' {p : Prog Op ε α} {fin : Prog Op ε Unit} {Q : α → σ → Prop}
    (hp : p.Yields M Q s) (hfin : ∀ a, fin.Keeps M (Q a)) : (p.finally' fin).Yields M Q s := by
  refine wp_finally'.mpr (hp.post fun r t _ hr => ?_)
  cases r with
  | ok a =>
    refine ((hfin a) t (hr a rfl)).mono (fun _ _ => trivial) fun u v hv _ => ?_
    cases u with
    | ok _ => exact ⟨trivial, fun b hb => by cases hb; exact hv⟩
    | error e => exact nofun
  | error e =>
    refine (wp_trivial fin t).post fun u v _ _ => ?_
    cases u with
    | ok _ => exact ⟨trivial, nofun⟩
    | error e => exact nofun

/-! ## Throws -/

/-- Whenever the program raises, it has reached the postcondition. -/
def Throws (M : Machine Op ε σ) (p : Prog Op ε α) (K : ε → σ → Prop) (s : σ) : Prop :=
  p.wp M (fun _ => True) (fun r t => ∀ e, r = .error e → K e t) s

theorem Throws.mono {p : Prog Op ε α} {K L : ε → σ → Prop} (h : p.Throws M K s)
    (hK : ∀ e t, K e t → L e t) : p.Throws M L s :=
  h.post fun _ _ _ hr e he => hK e _ (hr e he)

theorem throws_ret {K : ε → σ → Prop} : (ret a : Prog Op ε α).Throws M K s := ⟨trivial, nofun⟩

theorem throws_raise {K : ε → σ → Prop} (h : K e s) : (raise e : Prog Op ε α).Throws M K s :=
  ⟨trivial, fun _ he => by cases he; exact h⟩

theorem throws_perform {op : Op β} {K : ε → σ → Prop}
    (h : ∀ e t, M.step op s (.error e) t → K e t) : (perform op : Prog Op ε β).Throws M K s :=
  wp_perform.mpr ⟨trivial, fun _ t hs => ⟨trivial, fun e he => h e t (he ▸ hs)⟩⟩

theorem throws_bind {p : Prog Op ε α} {f : α → Prog Op ε β} {K : ε → σ → Prop}
    (hp : p.Throws M K s) (hf : ∀ a t, (f a).Throws M K t) : (p.bind f).Throws M K s := by
  refine wp_bind.mpr (hp.post fun r t _ hr => ?_)
  cases r with
  | ok a => exact hf a t
  | error e => exact fun e' he => by cases he; exact hr e rfl

theorem throws_handle {p : Prog Op ε α} {h : ε → Prog Op ε α} {K L : ε → σ → Prop}
    (hp : p.Throws M K s) (hh : ∀ e t, K e t → (h e).Throws M L t) : (p.handle h).Throws M L s := by
  refine wp_handle.mpr (hp.post fun r t _ hr => ?_)
  cases r with
  | ok a => exact nofun
  | error e => exact hh e t (hr e rfl)

theorem throws_ite {c : Prop} [Decidable c] {p q : Prog Op ε α} {K : ε → σ → Prop}
    (hp : c → p.Throws M K s) (hq : ¬ c → q.Throws M K s) : (if c then p else q).Throws M K s := by
  split
  · exact hp ‹_›
  · exact hq ‹_›

/-! ## Succeeds -/

def Succeeds (M : Machine Op ε σ) (p : Prog Op ε α) (Q : α → σ → Prop) (s : σ) : Prop :=
  p.wp M (fun _ => True) (fun r t => ∃ a, r = .ok a ∧ Q a t) s

theorem Succeeds.mono {p : Prog Op ε α} {Q R : α → σ → Prop} (h : p.Succeeds M Q s)
    (hQ : ∀ a t, Q a t → R a t) : p.Succeeds M R s :=
  h.post fun _ _ _ ⟨a, ha, hq⟩ => ⟨a, ha, hQ a _ hq⟩

theorem succeeds_ret {Q : α → σ → Prop} (h : Q a s) : (ret a : Prog Op ε α).Succeeds M Q s :=
  ⟨trivial, a, rfl, h⟩

theorem succeeds_perform {op : Op β} {Q : β → σ → Prop}
    (h : ∀ r t, M.step op s r t → ∃ a, r = .ok a ∧ Q a t) :
    (perform op : Prog Op ε β).Succeeds M Q s :=
  wp_perform.mpr ⟨trivial, fun r t hs => ⟨trivial, h r t hs⟩⟩

theorem succeeds_bind {p : Prog Op ε α} {f : α → Prog Op ε β} {Q : β → σ → Prop}
    (h : p.Succeeds M (fun a => (f a).Succeeds M Q) s) : (p.bind f).Succeeds M Q s := by
  refine wp_bind.mpr (h.post fun r t _ hr => ?_)
  obtain ⟨a, rfl, hr⟩ := hr
  exact hr

theorem succeeds_handle {p : Prog Op ε α} {h : ε → Prog Op ε α} {Q : α → σ → Prop}
    (hp : p.Succeeds M Q s) : (p.handle h).Succeeds M Q s := by
  refine wp_handle.mpr (hp.post fun r t _ hr => ?_)
  obtain ⟨a, rfl, hr⟩ := hr
  exact ⟨a, rfl, hr⟩

theorem succeeds_ite {c : Prop} [Decidable c] {p q : Prog Op ε α} {Q : α → σ → Prop}
    (hp : c → p.Succeeds M Q s) (hq : ¬ c → q.Succeeds M Q s) :
    (if c then p else q).Succeeds M Q s := by
  split
  · exact hp ‹_›
  · exact hq ‹_›

theorem succeeds_forEach {f : β → Prog Op ε Unit} (J : List β → σ → Prop)
    (step : ∀ x xs t, J (x :: xs) t → (f x).Succeeds M (fun _ => J xs) t) :
    ∀ xs s, J xs s → (forEach xs f).Succeeds M (fun _ => J []) s
  | [], _, h => succeeds_ret h
  | x :: xs, s, h =>
    succeeds_bind ((step x xs s h).mono fun _ t ht => succeeds_forEach J step xs t ht)

theorem Succeeds.and_keeps {p : Prog Op ε α} {Q : α → σ → Prop} {I : σ → Prop}
    (h : p.Succeeds M Q s) (hI : p.Keeps M I) (hs : I s) :
    p.Succeeds M (fun a t => Q a t ∧ I t) s :=
  ((wp.and h (hI s hs)).mono (fun _ _ => trivial)) fun _ _ _ ⟨⟨a, ha, hq⟩, hi⟩ => ⟨a, ha, hq, hi⟩

theorem Succeeds.yields {p : Prog Op ε α} {Q : α → σ → Prop} (h : p.Succeeds M Q s) :
    p.Yields M Q s :=
  h.post fun _ _ _ ⟨_, ha, hq⟩ b hb => by
    cases ha.symm.trans hb
    exact hq

/-- A program that must succeed and would have done something when it did has done it. -/
theorem Succeeds.and_yields {p : Prog Op ε α} {Q R : α → σ → Prop} (h : p.Succeeds M Q s)
    (h' : p.Yields M R s) : p.Succeeds M (fun a t => Q a t ∧ R a t) s :=
  ((wp.and h h').mono (fun _ _ => trivial)) fun _ _ _ ⟨⟨a, ha, hq⟩, hr⟩ => ⟨a, ha, hq, hr a ha⟩

/-- The run of a program that must succeed. -/
theorem Succeeds.returns {p : Prog Op ε α} {Q : α → σ → Prop} (h : p.Succeeds M Q s)
    (hr : p.Returns M s r t) : ∃ a, r = .ok a ∧ Q a t :=
  wp.returns h hr

/-! ## Settles -/

/-- Wherever the program is stopped `K` holds, and whenever it returns a value it has reached the
postcondition. -/
def Settles (M : Machine Op ε σ) (K : σ → Prop) (p : Prog Op ε α) (Q : α → σ → Prop) (s : σ) : Prop :=
  p.wp M K (fun r t => ∀ a, r = .ok a → Q a t) s

section
variable {K : σ → Prop}

theorem Settles.mono {p : Prog Op ε α} {L : σ → Prop} {Q R : α → σ → Prop} (h : p.Settles M K Q s)
    (hK : ∀ t, K t → L t) (hQ : ∀ a t, K t → Q a t → R a t) : p.Settles M L R s :=
  wp.mono h hK fun _ t ht hr a ha => hQ a t ht (hr a ha)

theorem settles_ret {Q : α → σ → Prop} (hs : K s) (h : Q a s) : (ret a : Prog Op ε α).Settles M K Q s :=
  ⟨hs, fun _ ha => by cases ha; exact h⟩

theorem settles_raise {Q : α → σ → Prop} (hs : K s) : (raise e : Prog Op ε α).Settles M K Q s :=
  ⟨hs, nofun⟩

theorem settles_bind {p : Prog Op ε α} {f : α → Prog Op ε β} {Q : β → σ → Prop}
    (h : p.Settles M K (fun a => (f a).Settles M K Q) s) : (p.bind f).Settles M K Q s := by
  refine wp_bind.mpr (wp.post h fun r t _ hr => ?_)
  cases r with
  | ok a => exact hr a rfl
  | error e => exact nofun

theorem settles_ite {c : Prop} [Decidable c] {p q : Prog Op ε α} {Q : α → σ → Prop}
    (hp : c → p.Settles M K Q s) (hq : ¬ c → q.Settles M K Q s) :
    (if c then p else q).Settles M K Q s := by
  split
  · exact hp ‹_›
  · exact hq ‹_›

/-- What a program keeps, and what it reaches. -/
theorem Yields.settles {p : Prog Op ε α} {Q : α → σ → Prop} (h : p.Yields M Q s) (hp : p.Keeps M K)
    (hs : K s) : p.Settles M K (fun a t => K t ∧ Q a t) s :=
  (wp.and h (hp s hs)).mono (fun _ ht => ht.2) fun _ _ _ hr a ha => ⟨hr.2, hr.1 a ha⟩

theorem Keeps.settles {p : Prog Op ε α} (h : p.Keeps M K) (hs : K s) :
    p.Settles M K (fun _ => K) s :=
  (h s hs).post fun _ _ ht _ _ _ => ht

theorem Settles.and_yields {p : Prog Op ε α} {Q R : α → σ → Prop} (h : p.Settles M K Q s)
    (h' : p.Yields M R s) : p.Settles M K (fun a t => Q a t ∧ R a t) s :=
  (wp.and h h').mono (fun _ ht => ht.1) fun _ _ _ hr a ha => ⟨hr.1 a ha, hr.2 a ha⟩

theorem settles_finally' {p : Prog Op ε α} {fin : Prog Op ε Unit} {Q : α → σ → Prop}
    (hp : p.Settles M K Q s) (hK : fin.Keeps M K) (hfin : ∀ a, fin.Keeps M (Q a)) :
    (p.finally' fin).Settles M K Q s := by
  refine wp_finally'.mpr (wp.post hp fun r t ht hr => ?_)
  cases r with
  | ok a =>
    refine (wp.and (hK t ht) (hfin a t (hr a rfl))).mono (fun _ hu => hu.1) fun u v hv _ => ?_
    cases u with
    | ok _ => exact ⟨hv.1, fun b hb => by cases hb; exact hv.2⟩
    | error e => exact nofun
  | error e =>
    refine (hK t ht).post fun u v hv _ => ?_
    cases u with
    | ok _ => exact ⟨hv, nofun⟩
    | error e => exact nofun

theorem Settles.visits {p : Prog Op ε α} {Q : α → σ → Prop} (h : p.Settles M K Q s)
    (ht : p.Visits M s t) : K t :=
  wp.visits h ht

theorem Settles.returns {p : Prog Op ε α} {Q : α → σ → Prop} (h : p.Settles M K Q s)
    (hr : p.Returns M s (.ok a) t) : Q a t :=
  wp.returns h hr a rfl

end

end Effect.Prog
