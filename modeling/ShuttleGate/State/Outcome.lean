import ShuttleGate.State.Operations

/-! # What a call returns

A result is one that a receipt holds, one that is not to be published, or one that has been
published. -/

namespace ShuttleGate

open Fs Effect Os Files

namespace State

/-- The mutator has come to `a` on a copy of the data `f`, and that is not to be published. -/
def Declined (c : Call α) (paths : InstancePaths) (f : Path → Option Obj) (a : α) : Prop :=
  ∃ uid t₁ t₂, dataAt t₁ (stagingPath paths uid) = f ∧
    (c.mutator (paths.withData (stagingPath paths uid))).Returns machine t₁ (.ok a) t₂ ∧
    ∃ accept ∈ c.publishIf, accept a = false

/-- Where the result of a call comes from, and what it has left. -/
inductive Outcome (c : Call α) (paths : InstancePaths) (t : Tree) (a : α) (u : Tree) : Prop
  | replayed (unchanged : Unchanged paths t u) {o : StateOperation α} (operation : c.operation = some o)
      (recorded : Recorded o (content paths t (operationPath [] o.requestId)) a)
  | declined (unchanged : Unchanged paths t u) (declined : Declined c paths (content paths t) a)
  | published {uid : String} (published : Published c paths t a uid u) (legacy : LegacyGone paths u)

section
variable {paths : InstancePaths} {t : Tree} {uid : String}

theorem publish_yields (staging : Path) (generation : String) (t : Tree) :
    (publish paths staging generation).Yields machine
      (fun final _ => final = generationPath paths generation) t := by
  -- the new generation's path is known from the start
  refine Prog.yields_bind_any fun _ _ => Prog.yields_bind_any fun _ _ => ?_
  refine Prog.yields_bind_any fun _ _ => Prog.yields_bind_any fun _ _ => ?_
  refine Prog.yields_bind_any fun _ _ => Prog.yields_bind_any fun _ _ => ?_
  exact Prog.yields_bind_any fun _ _ => Prog.yields_bind_any fun _ _ => Prog.yields_ret rfl

/-- A staged result that is not to be published, or the new generation. -/
theorem stage_yields (c : Call α) (hstaging : active ≠ some (".staging-" ++ uid))
    (hd : t.get (paths.state / generationsDir) ≠ none) :
    (stage paths c.mutator c.validator c.publishIf c.operation
      (active.map fun g => (generationPath paths g, g)) (stagingPath paths uid) ("gen-" ++ uid)).Yields
      machine (fun r _ => (r.2 = none → ∃ t₁ t₂, dataAt t₁ (stagingPath paths uid) = base paths t active ∧
        (c.mutator (paths.withData (stagingPath paths uid))).Returns machine t₁ (.ok r.1) t₂ ∧
        ∃ accept ∈ c.publishIf, accept r.1 = false) ∧
        ∀ final, r.2 = some final → final = generationPath paths ("gen-" ++ uid)) t := by
  refine Prog.yields_bind ((copyState_yields hstaging hd).mono fun _ t₁ hcopied => ?_)
  refine Prog.yields_bind ((Prog.yields_returns _ t₁).mono fun a t₂ hmutated => ?_)
  refine Prog.yields_ite (fun hrejected => ?_) fun _ => ?_
  · refine Prog.yields_bind_any fun _ _ => Prog.yields_bind (Prog.yields_ret (Prog.yields_ret ⟨fun _ => ?_, nofun⟩))
    refine ⟨t₁, t₂, hcopied.1, hmutated, ?_⟩
    cases haccept : c.publishIf with
    | none =>
      rw [haccept] at hrejected
      cases hrejected
    | some accept =>
      rw [haccept] at hrejected
      exact ⟨accept, rfl, by simpa using hrejected⟩
  · refine Prog.yields_bind_any fun _ t₃ => Prog.yields_bind_any fun _ t₄ => ?_
    refine Prog.yields_bind ((publish_yields _ _ t₄).mono fun final t₅ hfinal => ?_)
    refine Prog.yields_ret ⟨nofun, fun final' h => ?_⟩
    cases h
    exact hfinal

/-- What is verified is the generation the pointer names. -/
theorem verify_yields (validator : InstancePaths → OsM Unit)
    (hvalidator : ∀ paths, (validator paths).Only OsOp.Reads) (g : String) (t : Tree) :
    (verify paths validator (generationPath paths g)).Yields machine
      (fun _ u => designated paths u = some g) t := by
  refine Prog.yields_bind ((activeGeneration_yields paths true t).mono fun active u h => ?_)
  obtain ⟨rfl, hactive, hsome⟩ := h
  cases active with
  | none => exact absurd rfl (hsome rfl)
  | some r =>
    obtain ⟨root, g'⟩ := r
    obtain ⟨rfl, hanswer⟩ := hactive
    refine Prog.yields_ite (fun _ => Prog.yields_bind Prog.yields_raise) fun heq => ?_
    obtain rfl : g' = g := (List.cons.inj (not_not.mp heq)).1
    have hdesignated : designated paths u = some g' := by
      obtain ⟨target, htarget, hpointed⟩ := hanswer.pointer
      rw [designated, htarget]
      exact hpointed
    refine (yields_of_reads (hvalidator _) (Prog.yields_trivial _ u)).mono fun _ v hv => ?_
    rw [hv.1]
    exact hdesignated

theorem designated_keeps {W : Path → Prop} {p : OsM α} {u : Tree}
    (h : p.Only (Within W (paths.state / currentLink))) (hW : ¬ W (paths.state / currentLink))
    (hg : designated paths u = some g) : p.Yields machine (fun _ v => designated paths v = some g) u := by
  have hthere : u.get (paths.state / currentLink) ≠ none := fun hn => by
    rw [designated, hn] at hg
    cases hg
  refine ((Prog.yields_trivial p u).and_keeps (keeps_of_within h hthere) fun _ _ => rfl).mono
    fun _ v hv => ?_
  rw [designated, hv.2 _ hW]
  exact hg

/-- The end of a call that has published. -/
theorem finish_yields (c : Call α) (uid : String) (a : α) (t : Tree) :
    (finish paths c.validator (stagingPath paths uid) (generationPath paths ("gen-" ++ uid)) a).Yields
      machine (fun _ u => designated paths u = some ("gen-" ++ uid)) t := by
  refine Prog.yields_bind ((Prog.yields_handle_raise
    (verify_yields c.validator c.validator_reads ("gen-" ++ uid) t)).mono fun _ t₁ h₁ => ?_)
  have hold : (cleanOldGenerations paths (generationPath paths ("gen-" ++ uid))).Only
      (Within (BelowChild (paths.state / generationsDir) fun _ => True) (paths.state / currentLink)) :=
    cleanOldGenerations_within _ fun q ⟨n, _, hq⟩ => ⟨n, trivial, hq⟩
  refine Prog.yields_bind ((designated_keeps hold (fun ⟨n, _, hs⟩ => ?_) h₁).mono fun _ t₂ h₂ => ?_)
  · exact absurd hs.length_le (by simp [Path.div_def])
  have hlegacy : (cleanLegacyState paths).Only
      (Within (BelowChild paths.state (· ∈ legacyDataDirectories)) (paths.state / currentLink)) :=
    cleanLegacyState_within fun _ => id
  refine Prog.yields_bind ((designated_keeps hlegacy (fun hc => ?_) h₂).mono fun _ t₃ h₃ =>
    Prog.yields_ret h₃)
  exact absurd (belowChild_append (l := []).mp hc) (by decide)

/-- What a new generation comes to: the staged result is declined, or the pointer has changed. -/
theorem renewal_yields (c : Call α) (hroom : Room paths t) :
    (renewal paths c ((designated paths t).map fun g => (generationPath paths g, g))).Yields machine
      (fun a u => Declined c paths (content paths t) a ∨ designated paths u ≠ designated paths t) t := by
  refine Prog.yields_bind (Prog.yields_perform fun uid t₁ h₁ => ?_)
  obtain ⟨rfl, uid', huid, -, hfresh⟩ := Step.ok h₁
  cases huid
  have hnew : some ("gen-" ++ uid) ≠ designated paths t₁ := fun hg => by
    refine hfresh _ (hroom.2 _ hg.symm) _ List.mem_cons_self ?_
    rw [String.toList_append]
    exact List.infix_append_of_infix_right List.infix_rfl
  refine Prog.yields_bind ((Prog.yields_handle_raise
    (stage_yields c (designated_ne_staging uid) hroom.1)).mono fun r t₂ ⟨hnone, hsome⟩ => ?_)
  obtain ⟨a, published⟩ := r
  cases published with
  | none =>
    obtain ⟨s₁, s₂, hcopied, hmutated, hrejected⟩ := hnone rfl
    exact Prog.yields_ret (.inl ⟨uid, s₁, s₂, hcopied, hmutated, hrejected⟩)
  | some final =>
    obtain rfl := hsome final rfl
    refine (finish_yields c uid a t₂).mono fun b u hu => .inr ?_
    rw [hu]
    exact hnew

/-- What the call under the lock comes to. -/
theorem mutateLocked_yields (c : Call α) (paths : InstancePaths) (t : Tree) :
    (mutateLocked paths c.mutator c.validator c.publishIf c.operation).Yields machine (fun a u =>
      (∃ o, c.operation = some o ∧ Recorded o (content paths t (operationPath [] o.requestId)) a) ∨
      Declined c paths (content paths t) a ∨ designated paths u ≠ designated paths t) t := by
  rw [mutateLocked_eq]
  have hopening : (opening paths c.operation).Yields machine (fun found u => Unchanged paths t u ∧
      Opened paths t c.operation found.1 found.2 ∧ Room paths u) t :=
    (opening_wp paths c.operation t).mono (fun _ _ => trivial) fun r u _ hr found hfound =>
      ⟨hr.1, hr.2 found hfound⟩
  refine Prog.yields_bind (hopening.mono fun found t₁ ⟨hu, hopened, hroom⟩ => ?_)
  obtain ⟨active, recorded⟩ := found
  obtain ⟨hactive, -, hrecorded⟩ := hopened
  have hrenewal := (renewal_yields c hroom).mono fun a u hu' => Or.inr (a :=
    ∃ o, c.operation = some o ∧ Recorded o (content paths t (operationPath [] o.requestId)) a) hu'
  rw [hu.designated, hu.content] at hrenewal
  cases recorded with
  | none =>
    obtain rfl : active = _ := hactive
    cases hg : designated paths t with
    | none =>
      rw [hg] at hrenewal
      exact hrenewal
    | some g =>
      rw [hg] at hrenewal
      exact hrenewal
  | some result =>
    obtain ⟨hsome, o, ho, hholds⟩ := hrecorded result rfl
    obtain ⟨g, hg⟩ := Option.ne_none_iff_exists'.mp hsome
    obtain rfl : active = some (generationPath paths g, g) := hactive.trans (by rw [hg]; rfl)
    exact Prog.yields_bind_any fun _ _ => Prog.yields_bind_any fun _ _ => Prog.yields_ret
      (.inl ⟨o, ho, hholds⟩)

/-- What a call has come to whenever it returns. -/
theorem run_outcome (c : Call α) (paths : InstancePaths) (t : Tree) :
    (c.run paths).Yields machine (Outcome c paths t) t := by
  have horigin : (c.run paths).wp machine (fun _ => True) (fun r u => ∀ a, r = .ok a →
      (∃ o, c.operation = some o ∧ Recorded o (content paths t (operationPath [] o.requestId)) a) ∨
      Declined c paths (content paths t) a ∨ designated paths u ≠ designated paths t) t := by
    refine run_rule Machine.Refines.rfl c (fun _ _ => trivial) (fun _ _ _ => nofun)
      (fun _ _ _ _ _ => nofun) fun t₁ h₁ _ => ?_
    have hlocked := mutateLocked_yields c paths t₁
    rw [h₁.content, h₁.designated] at hlocked
    exact hlocked
  refine (horigin.and (run_wp c paths t)).mono (fun _ _ => trivial) fun r u _ ⟨hfrom, _, hto⟩ a ha => ?_
  rcases hto a ha with hu | ⟨uid, hp, hlegacy⟩
  · rcases hfrom a ha with ⟨o, ho, hrecorded⟩ | hdeclined | hne
    · exact .replayed hu ho hrecorded
    · exact .declined hu hdeclined
    · exact absurd hu.designated hne
  · exact .published hp hlegacy

end

end State
end ShuttleGate
