import Mathlib.Data.List.Nodup

/-! # Steps that log entries

A system whose steps log entries. Where what is known of a key is never lost and only entries of
unknown keys are logged, no key is logged twice in a whole run. -/

namespace Effect

variable {σ ε κ : Type*} {step : σ → List ε → σ → Prop} {s t u : σ} {es : List ε}

/-- Steps one after the other, with all they have logged. -/
inductive Logged (step : σ → List ε → σ → Prop) (s : σ) : List ε → σ → Prop
  | start : Logged step s [] s
  | step {es new : List ε} {t u : σ} (h : Logged step s es t) (hs : step t new u) :
      Logged step s (es ++ new) u

/-- What every step keeps holds in the whole run. -/
theorem Logged.invariant {J : σ → Prop} (hstart : J s)
    (hstep : ∀ t new u, step t new u → J t → J u) (h : Logged step s es t) : J t := by
  induction h with
  | start => exact hstart
  | step _ hs ih => exact hstep _ _ _ hs ih

/-- What is true of an entry when it is logged, and kept by every step, is true at the end. -/
theorem Logged.entries {P : ε → σ → Prop} (hnew : ∀ t new u, step t new u → ∀ e ∈ new, P e u)
    (hkeeps : ∀ t new u e, step t new u → P e t → P e u) (h : Logged step s es t) :
    ∀ e ∈ es, P e t := by
  induction h with
  | start => exact fun _ he => absurd he List.not_mem_nil
  | step _ hs ih =>
    intro e he
    rcases List.mem_append.mp he with he | he
    · exact hkeeps _ _ _ e hs (ih e he)
    · exact hnew _ _ _ hs e he

/-- A key is known from the step that logs it on. -/
structure OnceKnown (step : σ → List ε → σ → Prop) (key : ε → κ) (known : σ → κ → Prop) : Prop where
  keeps : ∀ {s es t k}, step s es t → known s k → known t k
  unknown : ∀ {s es t}, step s es t → ∀ e ∈ es, ¬ known s (key e)
  known : ∀ {s es t}, step s es t → ∀ e ∈ es, known t (key e)
  nodup : ∀ {s es t}, step s es t → (es.map key).Nodup

/-- No key is logged twice, and none that was known at the start. -/
theorem Logged.once {key : ε → κ} {known : σ → κ → Prop} (hk : OnceKnown step key known)
    (h : Logged step s es t) :
    (es.map key).Nodup ∧ ∀ e ∈ es, ¬ known s (key e) ∧ known t (key e) := by
  induction h with
  | start => exact ⟨.nil, fun _ he => absurd he List.not_mem_nil⟩
  | step h hs ih =>
    obtain ⟨hnodup, hlogged⟩ := ih
    constructor
    · rw [List.map_append]
      refine hnodup.append (hk.nodup hs) fun k hold hnew => ?_
      -- an old key is known, a new one is not
      obtain ⟨e, he, rfl⟩ := List.mem_map.mp hold
      obtain ⟨e', he', heq⟩ := List.mem_map.mp hnew
      exact hk.unknown hs e' he' (heq ▸ (hlogged e he).2)
    · intro e he
      rcases List.mem_append.mp he with he | he
      · exact ⟨(hlogged e he).1, hk.keeps hs (hlogged e he).2⟩
      · refine ⟨fun hknown => hk.unknown hs e he ?_, hk.known hs e he⟩
        exact h.invariant (J := fun t => known t (key e)) hknown fun _ _ _ hs => hk.keeps hs

end Effect
