import ShuttleGate.Effect.Outcome

/-! # One program in place of another

`p` follows `q` when whatever a run of `p` passes or returns, a run of `q` passes or returns, too:
what is known of every run of `q` is known of `p`. The relation goes through sequences, handlers
and finalisers, where the parts have to follow only in the states the parts before them leave. -/

namespace Effect

variable {Op : Type → Type} {ε α β : Type} {σ : Type u} {M : Machine Op ε σ}

namespace Prog

/-- A run of a sequence is one of its first part, or comes to the rest. -/
theorem Exec.of_andThen {p : Prog Op ε α} {f : Except ε α → Prog Op ε β} {q : Prog Op ε β}
    (h : Exec M (p.andThen f) s q t) :
    (∃ p', Exec M p s p' t ∧ q = p'.andThen f) ∨ ∃ r u, p.Returns M s r u ∧ Exec M (f r) u q t := by
  induction p generalizing s with
  | ret a => exact .inr ⟨.ok a, s, .refl, h⟩
  | raise e => exact .inr ⟨.error e, s, .refl, h⟩
  | call op k ih =>
    cases h with
    | refl => exact .inl ⟨.call op k, .refl, rfl⟩
    | step hstep h =>
      rcases ih _ h with ⟨p', hp, rfl⟩ | ⟨r, u, hp, hf⟩
      · exact .inl ⟨p', .step hstep hp, rfl⟩
      · exact .inr ⟨r, u, .step hstep hp, hf⟩

theorem Returns.andThen {p : Prog Op ε α} {f : Except ε α → Prog Op ε β} {q : Prog Op ε β}
    (h : p.Returns M s r t) (hf : Exec M (f r) t q u) : Exec M (p.andThen f) s q u := by
  refine Exec.trans (Exec.andThen h) ?_
  cases r <;> exact hf

/-- A complete run of a sequence is one of each part. -/
theorem Returns.of_andThen {p : Prog Op ε α} {f : Except ε α → Prog Op ε β}
    (h : (p.andThen f).Returns M s r t) : ∃ r' u, p.Returns M s r' u ∧ (f r').Returns M u r t := by
  rcases Exec.of_andThen h with ⟨p', hp, heq⟩ | hrest
  · have finished {r' : Except ε α} (heq : ofExcept r = f r') : (f r').Returns M t r t := by
      rw [Returns, heq]
      exact .refl
    -- only a finished first part leaves a finished sequence
    cases p' with
    | ret a => exact ⟨.ok a, t, hp, finished heq⟩
    | raise e => exact ⟨.error e, t, hp, finished heq⟩
    | call op k => cases r <;> cases heq
  · exact hrest

/-- Whatever `p` passes or returns from `s`, `q` does. -/
structure Follows (M : Machine Op ε σ) (p q : Prog Op ε α) (s : σ) : Prop where
  visits : ∀ {t}, p.Visits M s t → q.Visits M s t
  returns : ∀ {r t}, p.Returns M s r t → q.Returns M s r t

theorem Follows.refl (p : Prog Op ε α) (s : σ) : Follows M p p s := ⟨id, id⟩

theorem Follows.andThen {p q : Prog Op ε α} {f g : Except ε α → Prog Op ε β} (h : Follows M p q s)
    (hf : ∀ r t, p.Returns M s r t → Follows M (f r) (g r) t) :
    Follows M (p.andThen f) (q.andThen g) s where
  visits := by
    rintro t ⟨u, hu⟩
    rcases Exec.of_andThen hu with ⟨p', hp, -⟩ | ⟨r, v, hp, hrest⟩
    · obtain ⟨q', hq⟩ := h.visits ⟨p', hp⟩
      exact ⟨_, Exec.andThen hq⟩
    · obtain ⟨w, hw⟩ := (hf r v hp).visits ⟨u, hrest⟩
      exact ⟨w, Returns.andThen (h.returns hp) hw⟩
  returns := by
    intro r t hr
    obtain ⟨r', u, hp, hrest⟩ := Returns.of_andThen hr
    exact Returns.andThen (h.returns hp) ((hf r' u hp).returns hrest)

/-- The first part is the same: what it leaves is known by its postcondition. -/
theorem follows_bind {p : Prog Op ε α} {f g : α → Prog Op ε β}
    (h : p.Yields M (fun a t => Follows M (f a) (g a) t) s) : Follows M (p.bind f) (p.bind g) s := by
  refine (Follows.refl p s).andThen fun r t hr => ?_
  cases r with
  | ok a => exact h.returns hr
  | error e => exact .refl _ _

theorem Follows.bind {p q : Prog Op ε α} (h : Follows M p q s) (f : α → Prog Op ε β) :
    Follows M (p.bind f) (q.bind f) s :=
  h.andThen fun _ _ _ => .refl _ _

theorem Follows.handle {p q : Prog Op ε α} (h : Follows M p q s) (f : ε → Prog Op ε α) :
    Follows M (p.handle f) (q.handle f) s :=
  h.andThen fun _ _ _ => .refl _ _

theorem Follows.finally' {p q : Prog Op ε α} (h : Follows M p q s) (fin : Prog Op ε Unit) :
    Follows M (p.finally' fin) (q.finally' fin) s :=
  h.andThen fun _ _ _ => .refl _ _

/-- A program that passes no other state follows one that can return as it does. -/
theorem follows_of_still {p q : Prog Op ε α} (hp : p.wp M (fun t => t = s) (fun _ t => t = s) s)
    (hq : ∀ r, q.Returns M s r s) : Follows M p q s where
  visits h := hp.visits h ▸ .start
  returns h := hp.returns h ▸ hq _

end Prog
end Effect
