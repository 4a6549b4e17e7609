import ShuttleGate.State.Finish
import ShuttleGate.State.Migration
import ShuttleGate.Os.Host

/-! # Refusals

A call that is refused leaves the active generation as it is, but for one case: the object of the
legacy state that is no directory is found after the publication. -/

namespace ShuttleGate

open Fs Effect Os Files

namespace State

section
variable {paths : InstancePaths} {t u : Tree}

/-- The pointer designates what it did, with the same content. -/
structure SameActive (paths : InstancePaths) (t u : Tree) : Prop where
  pointer : u.get (paths.state / currentLink) = t.get (paths.state / currentLink)
  data : ∀ g, designated paths t = some g →
    dataAt u (generationPath paths g) = dataAt t (generationPath paths g)

theorem Unchanged.sameActive (h : Unchanged paths t u) : SameActive paths t u := ⟨h.pointer, h.data⟩

/-- What holds of the calls that do not publish, and of those that do once they come to the
legacy state. -/
theorem refusal_rule (c : Call α) (hc : c.DependsOnData paths)
    {Q : Except Exn α → Tree → Prop} (hsame : ∀ r u, SameActive paths t u → Q r u)
    (hlegacy : ∀ a t₁ u, LegacyKept paths t t₁ → (designated paths t = none → LegacyDirectories paths t₁) →
      LegacyKept paths t₁ u → u.get paths.state ≠ none →
      ((cleanLegacyState paths).bind fun _ => (Prog.ret a : OsM α)).wp reliable (fun _ => True) Q u) :
    (c.run paths).wp reliable (fun _ => True) Q t := by
  refine run_rule reliable_refines c (fun _ _ => trivial) (fun _ _ hu => hsame _ _ hu.sameActive)
    (fun r u e _ hstep => ?_) fun u hu hkept => ?_
  · cases hstep.2
  refine mutateLocked_rule reliable_refines c (cleanUnreferencedGenerations_reliable paths)
    (fun _ _ => trivial) (fun _ _ hv => hsame _ _ (hu.trans hv).sameActive)
    (fun _ _ hv _ => hsame _ _ (hu.trans hv).sameActive)
    (fun a uid t₁ v hclean hmade => ⟨trivial, ?_⟩) fun e a uid t₁ v hclean hmade hstep => ?_
  · exact finish_rule hc hclean hmade fun w hw hthere => hlegacy a t₁ w
      (hkept.trans hclean.legacy) (fun hnone => hmade.1 (hu.designated.trans hnone)) hw hthere
  · -- the directory of the pointer can be synced
    exfalso
    obtain ⟨m, hstate⟩ := Tree.dir_of_child (show v.get (paths.state / currentLink) ≠ none by
      rw [(hmade.published reliable_refines hclean).pointer]; nofun)
    obtain ⟨-, hanswer⟩ := hstep
    rw [hstate] at hanswer
    cases hanswer

/-- Nothing that has been published is refused where the legacy state can be removed. -/
theorem refused_wp (c : Call α) (hc : c.DependsOnData paths)
    (h : designated paths t = none ∨ LegacyDirectories paths t) :
    (c.run paths).wp reliable (fun _ => True)
      (fun r u => ∀ m, r = .error (.state m) → SameActive paths t u) t := by
  refine refusal_rule c hc (fun _ _ hs _ _ => hs) fun a t₁ u hkept hnone hkept' hthere => ?_
  have hdirs : LegacyDirectories paths u :=
    hkept'.directories (h.elim hnone hkept.directories)
  refine (Prog.succeeds_bind ((cleanLegacyState_succeeds hthere hdirs).mono fun _ _ _ =>
    Prog.succeeds_ret (Q := fun b _ => b = a) rfl)).post fun r v _ ⟨b, hb, _⟩ m hm => ?_
  cases hb.symm.trans hm

/-- Where it cannot, whatever is published is refused. -/
theorem published_refused (c : Call α) (hc : c.DependsOnData paths)
    (hdirs : ¬ LegacyDirectories paths t) :
    (c.run paths).wp reliable (fun _ => True)
      (fun r u => SameActive paths t u ∨ ∃ m, r = .error (.state m)) t := by
  refine refusal_rule c hc (fun _ _ => .inl) fun a t₁ u hkept _ hkept' _ => ?_
  have hrefused : ¬ LegacyDirectories paths u := fun hu =>
    hdirs ((hkept.trans hkept').directories_iff.mp hu)
  refine Prog.wp_bind.mpr ((cleanLegacyState_refuses hrefused).post fun r v _ ⟨m, hr⟩ => ?_)
  subst hr
  exact .inr ⟨m, rfl⟩

/-- A call that changes nothing and accepts everything. -/
def idleCall : Call Unit where
  mutator _ := .ret ()
  validator _ := .ret ()
  publishIf := none
  operation := none
  mutator_within _ _ := Prog.only_ret
  validator_reads _ := Prog.only_ret

theorem idleCall_dependsOnData : idleCall.DependsOnData paths := by
  intro t t' d d' _ r r' u u' hr hr'
  cases r with
  | error e => cases hr
  | ok _ =>
    cases r' with
    | error e => cases hr'
    | ok _ => exact iff_of_true rfl rfl

def exampleGeneration : String := "gen-00000000000000000000000000000000"

/-- A published generation, beside which a file has the name of a legacy directory. -/
def strayTree : Tree := .ofEntries
  [([], .dir 0o755), (["state"], .dir 0o700), (["generations", "state"], .dir 0o700),
    ([exampleGeneration, "generations", "state"], .dir 0o700),
    (["manifest.json", exampleGeneration, "generations", "state"],
      .file 0o600 (encodeUtf8 (jsonText (manifest exampleGeneration)))),
    (["current", "state"], .link (pointerTo exampleGeneration)),
    (["server", "state"], .file 0o600 [])] (by decide)

/-- The outcome is a `StateError`. -/
def isStateError : Except Exn α → Bool
  | .error (.state _) => true
  | _ => false

theorem exists_of_isStateError {r : Except Exn α} (h : isStateError r = true) :
    ∃ m, r = .error (.state m) := by
  cases r with
  | ok a => cases h
  | error e =>
    cases e with
    | state m => exact ⟨m, rfl⟩
    | _ => cases h

end

end State
end ShuttleGate
