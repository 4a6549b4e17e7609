import ShuttleGate.Effect.Prog
import Mathlib.Logic.Function.Basic
import Mathlib.Logic.Relation

/-! # Programs side by side

A pool of programs over one state: a step is one operation of one of them. `Prog.assures` is the
rely-guarantee form of `Prog.wp`: the program may count on what the others leave alone (`R`),
and each of its steps keeps the common invariant and stays within what it grants them (`G`).
Where every program of a pool is assured and the grants meet the reliances, the invariant holds
in every reachable state and every program is still assured there (`Pool.Reach.assures`). -/

namespace Effect

/-- A program for every index, and the state they share. -/
structure Pool (ι : Type) (Op : Type → Type) (ε α σ : Type) where
  threads : ι → Prog Op ε α
  state : σ

namespace Pool

variable {ι : Type} {Op : Type → Type} {ε α σ : Type} [DecidableEq ι]

/-- One operation of the program of `i`. -/
inductive Step (M : ι → Machine Op ε σ) : Pool ι Op ε α σ → Pool ι Op ε α σ → Prop
  | step {δ : Type} (i : ι) {op : Op δ} {k r} : P.threads i = .call op k →
    (M i).step op P.state r s' → Step M P ⟨Function.update P.threads i (k r), s'⟩

/-- The pools an interleaving comes to. -/
def Reach (M : ι → Machine Op ε σ) : Pool ι Op ε α σ → Pool ι Op ε α σ → Prop :=
  Relation.ReflTransGen (Step M)

end Pool

namespace Prog

variable {Op : Type → Type} {ε α β σ : Type}

/-- What one program of a pool relies on and grants: `rely` holds between two states when only
the others have acted in between, `grant` when the program itself has made one step. -/
structure Contract (σ : Type) where
  rely : σ → σ → Prop
  grant : σ → σ → Prop
  rely_refl : ∀ s, rely s s
  rely_trans : ∀ {s t u}, rely s t → rely t u → rely s u

variable {M : Machine Op ε σ} {I : σ → Prop} {C : Contract σ}

/-- From `s` on, whatever the others do between its operations, the program keeps its contract
and the common invariant `I`, and ends with `Q`. -/
def assures (M : Machine Op ε σ) (I : σ → Prop) (C : Contract σ) (p : Prog Op ε α)
    (Q : Except ε α → σ → Prop) (s : σ) : Prop :=
  match p with
  | ret a => ∀ t, C.rely s t → I t → Q (.ok a) t
  | raise e => ∀ t, C.rely s t → I t → Q (.error e) t
  | call op k => ∀ t, C.rely s t → I t → ∀ r t', M.step op t r t' →
    I t' ∧ C.grant t t' ∧ (k r).assures M I C Q t'

/-- What the others do in between is already allowed for. -/
theorem assures.rely {p : Prog Op ε α} {Q : Except ε α → σ → Prop} (h : p.assures M I C Q s)
    (hst : C.rely s t) : p.assures M I C Q t := by
  cases p <;> exact fun u hu => h u (C.rely_trans hst hu)

theorem assures_andThen {p : Prog Op ε α} {f : Except ε α → Prog Op ε β}
    {Q : Except ε β → σ → Prop} (h : p.assures M I C (fun r s => (f r).assures M I C Q s) s)
    (hs : I s) : (p.andThen f).assures M I C Q s := by
  induction p generalizing s with
  | ret a => exact h s (C.rely_refl s) hs
  | raise e => exact h s (C.rely_refl s) hs
  | call op k ih =>
    intro t hst ht r t' hop
    obtain ⟨ht', hg, hk⟩ := h t hst ht r t' hop
    exact ⟨ht', hg, ih r hk ht'⟩

/-- One operation, and what follows each of its answers. -/
theorem assures_call {op : Op β} {f : Except ε β → Prog Op ε α} {Q : Except ε α → σ → Prop}
    (h : ∀ t, C.rely s t → I t → ∀ r t', M.step op t r t' →
      I t' ∧ C.grant t t' ∧ (f r).assures M I C Q t') :
    ((perform op).andThen f).assures M I C Q s := by
  intro t hst ht r t' hop
  obtain ⟨ht', hg, hf⟩ := h t hst ht r t' hop
  refine ⟨ht', hg, ?_⟩
  cases r <;> exact hf

theorem assures_perform {op : Op β} {Q : Except ε β → σ → Prop}
    (h : ∀ t, C.rely s t → I t → ∀ r t', M.step op t r t' →
      I t' ∧ C.grant t t' ∧ ∀ u, C.rely t' u → I u → Q r u) :
    (perform op : Prog Op ε β).assures M I C Q s := by
  intro t hst ht r t' hop
  obtain ⟨ht', hg, hQ⟩ := h t hst ht r t' hop
  refine ⟨ht', hg, ?_⟩
  cases r <;> exact hQ

theorem assures.mono {p : Prog Op ε α} {Q Q' : Except ε α → σ → Prop} (h : p.assures M I C Q s)
    (hQ : ∀ r t, I t → Q r t → Q' r t) : p.assures M I C Q' s := by
  induction p generalizing s with
  | ret a => exact fun t hst ht => hQ _ _ ht (h t hst ht)
  | raise e => exact fun t hst ht => hQ _ _ ht (h t hst ht)
  | call op k ih =>
    intro t hst ht r t' hop
    obtain ⟨ht', hg, hk⟩ := h t hst ht r t' hop
    exact ⟨ht', hg, ih r hk⟩

theorem assures_bind {p : Prog Op ε α} {f : α → Prog Op ε β} {Q : Except ε β → σ → Prop}
    (h : p.assures M I C (fun r s => match r with
      | .ok a => (f a).assures M I C Q s
      | .error e => ∀ t, C.rely s t → I t → Q (.error e) t) s) (hs : I s) :
    (p.bind f).assures M I C Q s := by
  refine assures_andThen (h.mono fun r t _ ht => ?_) hs
  cases r <;> exact ht

/-- The handler takes over from whatever the program has come to. -/
theorem assures_handle {p : Prog Op ε α} {h : ε → Prog Op ε α} {A : σ → Prop}
    (hstable : ∀ s t, C.rely s t → A s → A t) (hp : p.assures M I C (fun _ => A) s)
    (hh : ∀ e t, I t → A t → (h e).assures M I C (fun _ => A) t) (hs : I s) :
    (p.handle h).assures M I C (fun _ => A) s := by
  refine assures_andThen (hp.mono fun r t ht hA => ?_) hs
  cases r with
  | ok a => exact fun u htu _ => hstable t u htu hA
  | error e => exact hh e t ht hA

theorem assures_finally' {p : Prog Op ε α} {fin : Prog Op ε Unit} {A : σ → Prop}
    (hstable : ∀ s t, C.rely s t → A s → A t) (hp : p.assures M I C (fun _ => A) s)
    (hfin : ∀ t, I t → A t → fin.assures M I C (fun _ => A) t) (hs : I s) :
    (p.finally' fin).assures M I C (fun _ => A) s := by
  refine assures_andThen (hp.mono fun r t ht hA => ?_) hs
  refine assures_bind ((hfin t ht hA).mono fun r' u _ hA => ?_) ht
  cases r' with
  | ok _ => cases r <;> exact fun v huv _ => hstable u v huv hA
  | error e => exact fun v huv _ => hstable u v huv hA

/-- A stable assertion kept by every operation a program keeps to is kept by the program. -/
theorem Only.assures {P : {β : Type} → Op β → Prop} {p : Prog Op ε α} {A : σ → Prop}
    (hp : p.Only P) (hstable : ∀ s t, C.rely s t → A s → A t)
    (hstep : ∀ {β : Type} (op : Op β) s r s', P op → A s → I s → M.step op s r s' →
      I s' ∧ C.grant s s' ∧ A s') (hs : A s) : p.assures M I C (fun _ => A) s := by
  induction p generalizing s with
  | ret a => exact fun t hst _ => hstable s t hst hs
  | raise e => exact fun t hst _ => hstable s t hst hs
  | call op k ih =>
    intro t hst ht r t' hop
    obtain ⟨ht', hg, hA⟩ := hstep op t r t' hp.1 (hstable s t hst hs) ht hop
    exact ⟨ht', hg, ih r (hp.2 r) hA⟩

end Prog

namespace Pool

variable {ι : Type} {Op : Type → Type} {ε α σ : Type} [DecidableEq ι]

/-- The parallel rule. -/
theorem Reach.assures {M : ι → Machine Op ε σ} {C : ι → Prog.Contract σ} {I : σ → Prop}
    {Q : ι → Except ε α → σ → Prop} {P P' : Pool ι Op ε α σ}
    (hmeet : ∀ i j s t, i ≠ j → (C i).grant s t → (C j).rely s t)
    (hP : ∀ i, (P.threads i).assures (M i) I (C i) (Q i) P.state) (hI : I P.state)
    (h : Reach M P P') :
    I P'.state ∧ ∀ i, (P'.threads i).assures (M i) I (C i) (Q i) P'.state := by
  induction h with
  | refl => exact ⟨hI, hP⟩
  | tail _ hstep ih =>
    obtain ⟨i, hi, hop⟩ := hstep
    obtain ⟨hs, hthreads⟩ := ih
    have hsi := hthreads i
    rw [hi] at hsi
    obtain ⟨hs', hg, hk⟩ := hsi _ ((C i).rely_refl _) hs _ _ hop
    refine ⟨hs', fun j => ?_⟩
    by_cases hj : j = i
    · subst hj
      simpa using hk
    · simpa [hj] using (hthreads j).rely (hmeet i j _ _ (Ne.symm hj) hg)

/-! ## Playing a schedule -/

/-- The pool after one operation of each scheduled program, answered by the oracle. -/
def play (oracle : ι → {β : Type} → Op β → σ → Except ε β × σ) :
    List ι → Pool ι Op ε α σ → Pool ι Op ε α σ
  | [], P => P
  | i :: schedule, P =>
    match P.threads i with
    | .call op k => play oracle schedule
        ⟨Function.update P.threads i (k (oracle i op P.state).1), (oracle i op P.state).2⟩
    | _ => play oracle schedule P

theorem reach_play {M : ι → Machine Op ε σ}
    {oracle : ι → {β : Type} → Op β → σ → Except ε β × σ}
    (h : ∀ i {β : Type} (op : Op β) s, (M i).step op s (oracle i op s).1 (oracle i op s).2)
    (schedule : List ι) (P : Pool ι Op ε α σ) : Reach M P (play oracle schedule P) := by
  induction schedule generalizing P with
  | nil => exact .refl
  | cons i schedule ih =>
    rw [play]
    split
    · rename_i op k hi
      exact .head (.step i hi (h i op P.state)) (ih _)
    · exact ih P

end Pool
end Effect
