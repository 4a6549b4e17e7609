import ShuttleGate.State.Migration
import ShuttleGate.Effect.Follows
import ShuttleGate.Files.Making

/-! # What a generation holds

The content of the persistent state: the active generation without its manifest, or the legacy
state where there is none. A call leaves it as it is, or puts what its mutator has made of it in its
place. -/

namespace ShuttleGate

open Fs Effect Os Files

namespace State

/-- What a call starts from. -/
def content (paths : InstancePaths) (t : Tree) : Path → Option Obj :=
  base paths t (designated paths t)

section
variable {paths : InstancePaths} {t u : Tree}

theorem Unchanged.content (h : Unchanged paths t u) : content paths u = content paths t := by
  rw [State.content, h.designated]
  exact h.base

theorem content_nil (paths : InstancePaths) (t : Tree) : content paths t [] = some (.dir 0o700) := by
  unfold content
  cases designated paths t <;> rfl

theorem content_manifest (paths : InstancePaths) (t : Tree) (l : Path) :
    content paths t (l ++ [manifestFile]) = none := by
  unfold content
  cases designated paths t with
  | none =>
    simp only [base, migrated, filled_concat]
    exact if_neg (by decide)
  | some g => simp [base, copied]

/-- The content is below the active generation. -/
theorem content_active (h : designated paths t = some g) (l : Path) {n : String} (hn : n ≠ manifestFile) :
    content paths t (l ++ [n]) = t.get (l ++ n :: generationPath paths g) := by
  rw [content, h]
  simp [base, copied, hn]

theorem content_legacy (h : designated paths t = none) (l : Path) {n : String}
    (hn : n ∈ legacyDataDirectories) : content paths t (l ++ [n]) = t.get (l ++ n :: paths.state) := by
  rw [content, h]
  simp [base, migrated, hn]

/-- The places of a call's receipt. -/
def Call.Records (c : Call α) (l : Path) : Prop :=
  ∃ operation ∈ c.operation, l = ["operations"] ∨ l = operationPath [] operation.requestId

/-- The receipt is all that is written after the mutator. -/
theorem Receipted.frame {c : Call α} {staging : Path} (h : Receipted c staging a t u) {l : Path}
    (hnil : l ≠ []) (hl : ¬ c.Records l) : dataAt u staging l = dataAt t staging l := by
  unfold Receipted at h
  split at h
  · rw [h]
  · rename_i operation hop
    refine h.2 _ (fun he => hnil (List.self_eq_append_left.mp he.symm)) (fun he => hl ?_) fun he => hl ?_
    · refine ⟨operation, hop, .inl ?_⟩
      exact List.append_cancel_right (he.trans (List.singleton_append (l := staging)).symm)
    · refine ⟨operation, hop, .inr ?_⟩
      have hsplit : operationPath staging operation.requestId =
          operationPath [] operation.requestId ++ staging := rfl
      exact List.append_cancel_right (he.trans hsplit)

/-- A call that publishes makes the new content of the old one. -/
theorem Published.content {c : Call α} (h : Published c paths t a uid u) : ∃ t₁ t₂ t₃,
    Stages machine c paths (stagingPath paths uid) (content paths t) a t₁ t₂ t₃ ∧
    (∀ l n, n ≠ manifestFile →
      State.content paths u (l ++ [n]) = dataAt t₃ (stagingPath paths uid) (l ++ [n])) ∧
    ∀ l, l ≠ [] → ¬ c.Records l →
      dataAt t₃ (stagingPath paths uid) l = dataAt t₂ (stagingPath paths uid) l := by
  obtain ⟨t₁, t₂, t₃, hs, hdata⟩ := h.stages
  refine ⟨t₁, t₂, t₃, hs, fun l n hn => ?_, fun l hnil hl => hs.receipted.frame hnil hl⟩
  have hfinal := congrFun hdata (l ++ [n])
  have hmanifest : l ++ [n] ≠ [manifestFile] := fun he => by
    have := congrArg List.getLast? he
    simp only [List.getLast?_concat, List.getLast?_singleton, Option.some.injEq] at this
    exact hn this
  rw [finished, if_neg (by simp), if_neg hmanifest] at hfinal
  rw [content_active h.designated l hn, ← hfinal]
  simp [dataAt]

/-- A copy of the content is there. -/
theorem there_of_copied {D : Path} {t₁ : Tree} (h : dataAt t₁ D = content paths t) :
    t₁.get D ≠ none := by
  have htop := congrFun h []
  rw [content_nil, dataAt, List.nil_append] at htop
  rw [htop]
  exact Option.some_ne_none _

/-- The staging directory of a call that has published was made. -/
theorem Stages.there {c : Call α} {M : Machine OsOp Exn Tree} {staging : Path} {t₁ t₂ t₃ : Tree}
    (h : Stages M c paths staging (State.content paths t) a t₁ t₂ t₃) : t₁.get staging ≠ none :=
  there_of_copied h.copied

end

/-! ## Another mutator in its place -/

section
variable {paths : InstancePaths} {t : Tree}

/-- The directories a call works in. -/
def Prepared (paths : InstancePaths) (t : Tree) : Prop :=
  t.get paths.state = some (.dir 0o700) ∧ t.get (paths.state / generationsDir) ≠ none

theorem not_scratch_top (paths : InstancePaths) : ¬ Scratch paths none paths.state := by
  rintro (⟨n, -, hs⟩ | ⟨n, -, hs⟩)
  · have := hs.length_le
    simp only [Path.div_def, List.length_cons] at this
    omega
  · have := hs.length_le
    simp only [List.length_cons] at this
    omega

theorem Prepared.keeps {p : OsM α}
    (h : p.Only (Within (Scratch paths none) (paths.state / generationsDir))) :
    p.Keeps machine (Prepared paths) := by
  intro t ht
  have hkept {u : Tree} (hu : Kept (Scratch paths none) t u) : Prepared paths u :=
    ⟨(hu _ (not_scratch_top paths)).trans ht.1, by
      rw [hu _ not_scratch_generations]
      exact ht.2⟩
  exact ((kept_of_within h ht.2) t .refl).mono (fun _ => hkept) fun _ _ _ => hkept

theorem Prepared.yields {p : OsM α} (ht : Prepared paths t)
    (h : p.Only (Within (Scratch paths none) (paths.state / generationsDir))) :
    p.Yields machine (fun _ => Prepared paths) t :=
  ((Prog.yields_trivial p t).and_keeps (Prepared.keeps h) ht).mono fun _ _ hu => hu.2

/-- The directory of the lock has been ensured. -/
theorem lockDescriptor_yields (paths : InstancePaths) (t : Tree) :
    (lockDescriptor paths true).Yields machine
      (fun _ u => u.get paths.state = some (.dir 0o700)) t := by
  refine Prog.yields_bind ((ensurePrivateDirectory_yields paths.state t).mono fun _ u hu => ?_)
  have hrest : (do
      let st ← tryCatch (Prog.perform (.openCreate (lockPath paths) 0o600)) fun e =>
        if e.isFileNotFound then throw (.state "persistent state is not initialized") else throw e
      if st.kind ≠ .regular then
        throw (.state "persistent-state lock must be a regular file")
      Prog.perform (.chmod (lockPath paths) 0o600) : OsM Unit).Only
      (Within (· = lockPath paths) paths.state) := by
    have hlock {β : Type} {op : OsOp β} (hop : ∀ q, op.touches q → q = lockPath paths) :
        (Prog.perform op : OsM β).Only (Within (· = lockPath paths) paths.state) :=
      Prog.only_perform.mpr fun q hq => .inl (hop q hq)
    refine Prog.Only.bind ((hlock fun _ => id).handle fun _ =>
      Prog.only_raise.ite Prog.only_raise) fun st => ?_
    exact Prog.Only.ite Prog.only_raise (hlock fun _ => id)
  have hthere : u.get paths.state ≠ none := by
    rw [hu]
    nofun
  refine ((Prog.yields_trivial _ u).and_keeps (keeps_of_within hrest hthere) fun _ _ => rfl).mono
    fun _ v ⟨_, hv⟩ => (hv _ fun he => ?_).trans hu
  have := congrArg List.length he
  simp [lockPath, Path.div_def] at this

/-- A call whose mutator follows another one follows the call with that. -/
theorem mutateState_follows {mutator mutator' : InstancePaths → OsM α}
    {validator : InstancePaths → OsM Unit} {publishIf : Option (α → Bool)}
    {operation : Option (StateOperation α)} (t : Tree)
    (h : ∀ uid u, u.get paths.state = some (.dir 0o700) →
      Prog.Follows machine (mutator (paths.withData (stagingPath paths uid)))
        (mutator' (paths.withData (stagingPath paths uid))) u) :
    Prog.Follows machine (mutateState paths mutator validator publishIf operation)
      (mutateState paths mutator' validator publishIf operation) t := by
  have hscratch {q : Path} {n : String} (hq : BelowChild (paths.state / generationsDir) (· = n) q) :
      Scratch paths none q := by
    obtain ⟨m, -, hs⟩ := hq
    exact .inl ⟨m, nofun, hs⟩
  refine Prog.follows_bind ((lockDescriptor_yields paths t).mono fun _ t₁ h₁ => ?_)
  refine Prog.Follows.finally' ?_ _
  have hflock : (acquireLock paths true false).Only OsOp.Reads :=
    (reads_only).handle fun _ => Prog.only_raise.ite Prog.only_raise
  refine Prog.follows_bind ((yields_of_reads hflock (Prog.yields_trivial _ t₁)).mono
    fun _ t₂ ⟨h₂, _⟩ => ?_)
  subst h₂
  -- the two calls are the same up to the mutator
  have hprivate : (ensurePrivateDirectory (paths.state / generationsDir)).Yields machine
      (fun _ u => Prepared paths u) t₂ := by
    refine (ensurePrivateDirectory_adds _ t₂).mono fun _ u ⟨hdir, _, hthere⟩ => ⟨?_, ?_⟩
    · rw [hthere _ (fun he => by simpa [Path.div_def] using congrArg List.length he) (by
        rw [h₁]
        nofun)]
      exact h₁
    · rw [hdir]
      nofun
  refine Prog.follows_bind (hprivate.mono fun _ t₃ h₃ => ?_)
  have hincomplete : (cleanIncomplete paths).Only
      (Within (Scratch paths none) (paths.state / generationsDir)) :=
    cleanIncomplete_within (fun q ⟨n, _, hs⟩ => .inl ⟨n, nofun, hs⟩) fun q hq => .inr hq
  refine Prog.follows_bind ((h₃.yields hincomplete).mono fun _ t₄ h₄ => ?_)
  refine Prog.follows_bind ((h₄.yields (reads_to_within (activeGeneration_reads _ _))).mono
    fun active t₅ h₅ => ?_)
  have hunreferenced : (cleanUnreferencedGenerations paths (active.map (·.1))).Only
      (Within (Scratch paths none) (paths.state / generationsDir)) :=
    cleanUnreferencedGenerations_within fun q ⟨n, _, hs⟩ => .inl ⟨n, nofun, hs⟩
  refine Prog.follows_bind ((h₅.yields hunreferenced).mono fun _ t₆ h₆ => ?_)
  refine Prog.follows_bind ((h₆.yields (reads_to_within (completed_reads _ _))).mono
    fun result t₇ h₇ => ?_)
  split
  · exact .refl _ _
  refine Prog.follows_bind ((h₇.yields reads_within).mono fun uid t₈ h₈ => ?_)
  refine Prog.Follows.bind (Prog.Follows.handle ?_ _) _
  have hcopy : (copyState paths active (stagingPath paths uid)).Only
      (Within (Scratch paths none) (paths.state / generationsDir)) :=
    (copyState_within active).mono fun op hop q hq => (hop q hq).imp_left fun hs =>
      .inl ⟨_, nofun, hs⟩
  refine Prog.follows_bind ((h₈.yields hcopy).mono fun _ t₉ h₉ => ?_)
  exact (h uid t₉ h₉.1).bind _

end

end State
end ShuttleGate
