import ShuttleGate.State.Mutation

/-! # A whole call

The rule for `mutate_state`: whatever holds of the trees with the active generation unchanged, and
of the end of a call that has published a new one, holds of the call. -/

namespace ShuttleGate

open Fs Effect Os Files

namespace State

/-- What is left of the legacy state once it is cleaned. -/
def LegacyGone (paths : InstancePaths) (t : Tree) : Prop :=
  ∀ name ∈ legacyDataDirectories, ∀ l, t.get (l ++ paths.state / name) = none

section
variable {paths : InstancePaths} {active : Option String} {uid : String} {t₀ t : Tree}

/-! ## What is active -/

/-- What the answer about the active generation is made of. -/
theorem ActiveAnswer.eq {answer : Option (Path × String)} (h : ActiveAnswer paths t answer) :
    answer = (designated paths t).map (fun g => (generationPath paths g, g)) ∧
      ∀ g, designated paths t = some g → Active paths t g := by
  cases answer with
  | none =>
    have hd : designated paths t = none := by
      rw [designated, show t.get (paths.state / currentLink) = none from h]
    exact ⟨by rw [hd]; rfl, fun g hg => by rw [hd] at hg; cases hg⟩
  | some r =>
    obtain ⟨root, g⟩ := r
    obtain ⟨rfl, hactive⟩ := h
    obtain ⟨target, htarget, hp⟩ := hactive.pointer
    have hd : designated paths t = some g := by
      rw [designated, htarget]
      exact hp
    refine ⟨by rw [hd]; rfl, fun g' hg => ?_⟩
    cases hd.symm.trans hg
    exact hactive

theorem isGeneration_of_designated (h : designated paths t = some g) : isGeneration g = true := by
  unfold designated at h
  split at h
  · exact isGeneration_of_pointed h
  · cases h

theorem designated_ne_staging (uid : String) :
    designated paths t ≠ some (".staging-" ++ uid) := fun h => by
  have := isGeneration_of_designated h
  rw [not_isGeneration_staging] at this
  cases this

/-- A staging directory is none of the generations. -/
theorem not_isGeneration_of_isStaging (h : isStaging n = true) : isGeneration n = false := by
  by_contra hg
  obtain ⟨r, hr⟩ := head_of_matchesId h
  obtain ⟨r', hr'⟩ : "gen-".toList <+: n.toList :=
    head_of_matchesId (by simpa [isGeneration] using hg)
  have := hr.trans hr'.symm
  simp at this

/-! ## The parts before a new generation -/

theorem generations_unchanged (h : ∀ q, ¬ q <:+ paths.state / generationsDir → t.get q = t₀.get q) :
    Unchanged paths t₀ t ∧ LegacyKept paths t₀ t := by
  have hstate {n : String} (hn : n ≠ generationsDir) (l : Path) :
      ¬ l ++ paths.state / n <:+ paths.state / generationsDir := fun hs =>
    Path.not_below_sibling hn [] paths.state ((List.suffix_append l _).trans hs)
  have hlegacy : LegacyKept paths t₀ t := legacyKept_of fun n l hn _ _ _ => h _ (hstate hn l)
  refine ⟨⟨h _ (hstate (by decide) []), fun g _ => funext fun l => h _ fun hs => ?_,
    fun _ => hlegacy⟩, hlegacy⟩
  exact Path.not_below_parent _ _ ((List.suffix_append l _).trans hs)

/-- The legacy state does not matter once there is a generation. -/
theorem legacy_unchanged (hg : designated paths t₀ = some g)
    (h : ∀ q, ¬ BelowChild paths.state (· ∈ legacyDataDirectories) q → t.get q = t₀.get q) :
    Unchanged paths t₀ t := by
  refine ⟨h _ fun hc => ?_, fun g' _ => funext fun l => h _ fun hl => ?_, fun hn => ?_⟩
  · exact absurd (belowChild_append (l := []).mp hc) (by decide)
  · have := (belowChild_append (l := l ++ [g']) (n := generationsDir)).mp
      (by simpa [Path.div_def] using hl)
    exact absurd this (by decide)
  · cases hg.symm.trans hn

/-- The tree a new generation is made in: `P` is known of the generations there are. -/
structure Cleaned (paths : InstancePaths) (P : Option Path → String → Prop) (t₀ : Tree)
    (uid : String) (t : Tree) : Prop where
  unchanged : Unchanged paths t₀ t
  legacy : LegacyKept paths t₀ t
  children : ∀ n, t.get (paths.state / generationsDir / n) ≠ none →
    P ((designated paths t₀).map (generationPath paths)) n
  directory : ∃ m, t.get (paths.state / generationsDir) = some (.dir m)
  active : ∀ g, designated paths t₀ = some g → Active paths t g
  unique : IsUuid uid
  fresh : ∀ p, t.get p ≠ none → ∀ n ∈ p, ¬ uid.toList <:+: n.toList

theorem Cleaned.new {P : Option Path → String → Prop} (h : Cleaned paths P t₀ uid t) :
    designated paths t₀ ≠ some ("gen-" ++ uid) := fun hg => by
  obtain ⟨mode, hdir⟩ := (h.active _ hg).directory
  refine h.fresh (generationPath paths ("gen-" ++ uid)) (by rw [hdir]; nofun) _
    List.mem_cons_self ?_
  rw [String.toList_append]
  exact List.infix_append_of_infix_right List.infix_rfl

theorem Active.of_kept (h : Active paths t₀ g) (hk : Kept (Scratch paths (some g)) t₀ t) :
    Active paths t g := by
  have hsame (l : Path) : t.get (l ++ generationPath paths g) = t₀.get (l ++ generationPath paths g) :=
    hk _ (not_scratch_active g l)
  obtain ⟨⟨target, htarget, hp⟩, ⟨mode, hdir⟩, ⟨m, content, value, hfile, hrest⟩⟩ := h
  exact ⟨⟨target, (hk _ (not_scratch_state (by decide) (by decide) [])).trans htarget, hp⟩,
    ⟨mode, (hsame []).trans hdir⟩, ⟨m, content, value, (hsame [manifestFile]).trans hfile, hrest⟩⟩

end

/-! ## The rule -/

section
variable {paths : InstancePaths} {uid : String} {t : Tree} {M : Machine OsOp Exn Tree}
  {I : Tree → Prop} {P : Option Path → String → Prop}

/-- The active generation holds the receipt: only the legacy state may go. -/
theorem replay_rule {α : Type} (hM : M.Refines machine) (c : Call α) {Q : Except Exn α → Tree → Prop}
    (hg : designated paths t = some g) (root : Path) (result : α)
    (hI : ∀ u, Unchanged paths t u → I u) (herror : ∀ e u, Unchanged paths t u → Q (.error e) u)
    (hok : ∀ u, (∀ q, ¬ BelowChild paths.state (· ∈ legacyDataDirectories) q → u.get q = t.get q) →
      Q (.ok result) u) :
    ((c.validator (paths.withData root)).bind fun _ => (cleanLegacyState paths).bind fun _ =>
      (Prog.ret result : OsM α)).wp M I Q t := by
  have hthere : t.get (paths.state / currentLink) ≠ none := fun hn => by
    rw [designated, hn] at hg
    cases hg
  refine Prog.wp_bind_refines hM (keeps_of_reads (c.validator_reads (paths.withData root)) t)
    (Prog.yields_trivial _ t) rfl (fun u hu => hI u (hu ▸ .refl))
    (fun e u hu => herror e u (hu ▸ .refl)) fun _ u hu _ => ?_
  subst hu
  have hlegacy := keeps_of_within (cleanLegacyState_within (W := BelowChild paths.state (· ∈ legacyDataDirectories)) fun _ => id) hthere
  exact Prog.wp_bind_refines hM hlegacy (Prog.yields_trivial _ u) (fun _ _ => rfl)
    (fun v hv => hI v (legacy_unchanged hg hv)) (fun e v hv => herror e v (legacy_unchanged hg hv))
    fun _ v hv _ => ⟨hI v (legacy_unchanged hg hv), hok v hv⟩

/-- The making of a new generation and what follows it. -/
theorem renew_rule {α : Type} (hM : M.Refines machine) (c : Call α)
    {Q : Except Exn α → Tree → Prop} {t₀ : Tree} (hclean : Cleaned paths P t₀ uid t)
    (hI : ∀ u, Unchanged paths t₀ u → I u) (herror : ∀ e u, Unchanged paths t₀ u → Q (.error e) u)
    (hok : ∀ a u, Unchanged paths t₀ u → (∀ n, u.get (paths.state / generationsDir / n) ≠ none →
      P ((designated paths t₀).map (generationPath paths)) n) → Q (.ok a) u)
    (hmade : ∀ a u, Made M c paths (designated paths t₀) uid t a u → I u ∧
      (finish paths c.validator (stagingPath paths uid) (generationPath paths ("gen-" ++ uid)) a).wp
        M I Q u)
    (hlast : ∀ e a u, Made M c paths (designated paths t₀) uid t a u →
      M.step (.fsync paths.state) u (.error e) u →
      (rollback paths (stagingPath paths uid) none).wp M I (fun r v => match r with
        | .ok _ => I v ∧ Q (.error e) v
        | .error e' => Q (.error e') v) u) :
    (Prog.bind (tryCatch (stage paths c.mutator c.validator c.publishIf c.operation
        ((designated paths t₀).map fun g => (generationPath paths g, g)) (stagingPath paths uid)
        ("gen-" ++ uid)) fun e => do
          rollback paths (stagingPath paths uid) none
          throw e : OsM (α × Option Path)) fun (result, published) =>
      match published with
      | none => Prog.ret result
      | some final => finish paths c.validator (stagingPath paths uid) final result).wp M I Q t := by
  obtain ⟨mode, hdir⟩ := hclean.directory
  have hd : t.get (paths.state / generationsDir) ≠ none := by
    rw [hdir]
    nofun
  have hwork {u : Tree} (h : Kept (Work paths uid) t u) : Unchanged paths t₀ u := by
    refine hclean.unchanged.trans (unchanged_of_scratch fun q hq => h q fun hw => hq ?_)
    rw [hclean.unchanged.designated]
    exact work_scratch hclean.unique hclean.new (designated_ne_staging uid) hw
  refine Prog.wp_bind.mpr (Prog.wp_handle.mpr ((stage_wp hM c (designated_ne_staging uid) hd).mono
    (fun u hu => hu.elim (fun hk => hI u (hwork hk)) fun ⟨a, ha⟩ => (hmade a u ha).1)
    fun r u _ hr => ?_))
  cases r with
  | error e =>
    -- what the failed call has left goes, what it has published stays
    refine Prog.wp_bind.mpr ?_
    rcases hr with hk | ⟨a, ha, hstep⟩
    · have hrollback : (rollback paths (stagingPath paths uid) none).Only
          (Within (Work paths uid) (paths.state / generationsDir)) :=
        (suppressed_within fun q hq => work_staging hq).bind fun _ => Prog.only_ret
      refine (((kept_of_within hrollback hd) u hk).machine_mono hM).mono
        (fun v hv => hI v (hwork hv)) fun r v _ hv => ?_
      cases r with
      | ok _ => exact ⟨hI v (hwork hv), herror e v (hwork hv)⟩
      | error e' => exact herror e' v (hwork hv)
    · refine (hlast e a u ha hstep).post fun r v _ hv => ?_
      cases r with
      | ok _ => exact hv
      | error e' => exact hv
  | ok r =>
    obtain ⟨a, published⟩ := r
    cases published with
    | none =>
      obtain ⟨hk, hgone⟩ := hr
      have hunchanged : Unchanged paths t₀ u := hwork fun q hq => hk q fun hs => hq (work_staging hs)
      refine ⟨hI u hunchanged, hok a u hunchanged fun n hn => hclean.children n ?_⟩
      by_cases hne : n = ".staging-" ++ uid
      · subst hne
        exact absurd (hgone []) hn
      · rwa [hk] at hn
        exact Path.not_below_sibling (fun he => hne he.symm) [] _
    | some final =>
      obtain ⟨rfl, ha⟩ := hr
      exact (hmade a u ha).2

theorem mutateLocked_rule {α : Type} (hM : M.Refines machine) (c : Call α)
    {Q : Except Exn α → Tree → Prop}
    (hP : ∀ active u, (cleanUnreferencedGenerations paths active).Yields M (fun _ v => ∀ n,
      v.get (paths.state / generationsDir / n) ≠ none → P active n) u)
    (hI : ∀ u, Unchanged paths t u → I u) (herror : ∀ e u, Unchanged paths t u → Q (.error e) u)
    (hok : ∀ a u, Unchanged paths t u → (∀ n, u.get (paths.state / generationsDir / n) ≠ none →
      P ((designated paths t).map (generationPath paths)) n) → Q (.ok a) u)
    (hmade : ∀ a uid u v, Cleaned paths P t uid u → Made M c paths (designated paths t) uid u a v →
      I v ∧ (finish paths c.validator (stagingPath paths uid)
        (generationPath paths ("gen-" ++ uid)) a).wp M I Q v)
    (hlast : ∀ e a uid u v, Cleaned paths P t uid u → Made M c paths (designated paths t) uid u a v →
      M.step (.fsync paths.state) v (.error e) v →
      (rollback paths (stagingPath paths uid) none).wp M I (fun r w => match r with
        | .ok _ => I w ∧ Q (.error e) w
        | .error e' => Q (.error e') w) v) :
    (mutateLocked paths c.mutator c.validator c.publishIf c.operation).wp M I Q t := by
  -- the directory of the generations
  have hprivate : (ensurePrivateDirectory (paths.state / generationsDir)).Keeps machine
      fun u => ∀ q, ¬ q <:+ paths.state / generationsDir → u.get q = t.get q :=
    keeps_outside (d := []) (ensurePrivateDirectory_within (fun q => .inl) List.suffix_rfl)
      (fun q hq => (List.suffix_nil.mp hq) ▸ List.nil_suffix) t
  refine Prog.wp_bind_refines hM hprivate (ensurePrivateDirectory_yields _ t) (fun _ _ => rfl)
    (fun u hu => hI u (generations_unchanged hu).1)
    (fun e u hu => herror e u (generations_unchanged hu).1) fun _ t₁ h₁ hdir => ?_
  have hd : t₁.get (paths.state / generationsDir) ≠ none := by
    rw [hdir]
    nofun
  obtain ⟨hsame, hlegacy⟩ := generations_unchanged h₁
  -- from here on the scratch objects change
  have hscratch {u : Tree} (h : Kept (Scratch paths (designated paths t)) t₁ u) :
      Unchanged paths t u := by
    refine hsame.trans (unchanged_of_scratch fun q hq => h q ?_)
    rwa [hsame.designated] at hq
  have hinv (u : Tree) (h : Kept (Scratch paths (designated paths t)) t₁ u) : I u :=
    hI u (hscratch h)
  have hfail (e : Exn) (u : Tree) (h : Kept (Scratch paths (designated paths t)) t₁ u) :
      Q (.error e) u := herror e u (hscratch h)
  have hincomplete : (cleanIncomplete paths).Only
      (Within (Scratch paths (designated paths t)) (paths.state / generationsDir)) := by
    refine cleanIncomplete_within (fun q ⟨n, hn, hq⟩ => ?_) fun q hq => .inr hq
    refine scratch_child (fun hg => ?_) hq
    have := isGeneration_of_designated hg
    rw [not_isGeneration_of_isStaging hn] at this
    cases this
  refine Prog.wp_bind_refines hM (kept_of_within hincomplete hd) (Prog.yields_trivial _ t₁)
    .refl hinv hfail fun _ t₂ hk₂ _ => ?_
  refine Prog.wp_bind_refines hM (kept_of_within (reads_to_within (activeGeneration_reads _ _)) hd)
    (activeGeneration_yields paths false t₂) hk₂ hinv hfail fun active t₃ hk₃ ⟨h₃, hanswer, _⟩ => ?_
  subst h₃
  obtain ⟨rfl, hactive⟩ := hanswer.eq
  rw [(hscratch hk₂).designated] at hactive ⊢
  -- the generations that are not referenced
  have hunreferenced : (cleanUnreferencedGenerations paths (Option.map (·.1)
      ((designated paths t).map fun g => (generationPath paths g, g)))).Only
      (Within (Scratch paths (designated paths t)) (paths.state / generationsDir)) := by
    refine cleanUnreferencedGenerations_within fun q ⟨n, ⟨_, hn⟩, hq⟩ => scratch_child (fun hg => ?_) hq
    rw [hg] at hn
    exact hn rfl
  have hthere₃ : t₃.get (paths.state / generationsDir) ≠ none := by
    rw [hk₃ _ not_scratch_generations]
    exact hd
  refine Prog.wp_bind.mpr (((((kept_of_within hunreferenced hthere₃) t₃ .refl).machine_mono hM).and
    (hP _ t₃)).mono (fun u hu => hinv u (hk₃.trans hu.1 fun _ => id)) fun r t₄ _ hr => ?_)
  cases r with
  | error e => exact hfail e t₄ (hk₃.trans hr.1 fun _ => id)
  | ok _ =>
    obtain ⟨hkept, hchildren⟩ := hr
    have hk₄ := hk₃.trans hkept fun _ => id
    have hchildren := hchildren () rfl
    rw [Option.map_map] at hchildren
    refine Prog.wp_bind_refines hM (keeps_of_reads (completed_reads _ _) t₄)
      (Prog.yields_trivial _ t₄) rfl (fun u hu => hinv u (hu ▸ hk₄)) (fun e u hu => hfail e u (hu ▸ hk₄))
      fun result t₅ h₅ _ => ?_
    subst h₅
    split
    · rename_i root g result' hmap
      obtain ⟨g, hg, -⟩ := Option.map_eq_some_iff.mp hmap
      have hg₅ : designated paths t₅ = some g := (hscratch hk₄).designated.trans hg
      refine replay_rule hM c hg₅ root result' (fun u hu => hI u ((hscratch hk₄).trans hu))
        (fun e u hu => herror e u ((hscratch hk₄).trans hu)) fun u hu => ?_
      refine hok _ u ((hscratch hk₄).trans (legacy_unchanged hg₅ hu)) fun n hn => hchildren n ?_
      rwa [hu] at hn
      intro hl
      exact absurd ((belowChild_append (l := [n]) (n := generationsDir)).mp hl) (by decide)
    · refine Prog.wp_bind.mpr (Prog.wp_perform.mpr ⟨hinv _ hk₄, fun r t₆ h => ?_⟩)
      have hreads : t₆ = t₅ := OsOp.Reads.step (fun _ => id) (hM _ _ _ _ h)
      subst hreads
      cases r with
      | error e => exact ⟨hinv _ hk₄, hfail e _ hk₄⟩
      | ok uid =>
        obtain ⟨-, uid', huid, hu, hnew⟩ := Step.ok (hM _ _ _ _ h)
        cases huid
        obtain ⟨m, hdir₆⟩ : ∃ m, t₆.get (paths.state / generationsDir) = some (.dir m) :=
          ⟨_, (hk₄ _ not_scratch_generations).trans hdir⟩
        have hclean : Cleaned paths P t uid t₆ := by
          refine ⟨hscratch hk₄, hlegacy.trans (legacyKept_of_scratch hk₄), hchildren, ⟨m, hdir₆⟩, fun g hg => ?_, hu, hnew⟩
          refine (hactive g hg).of_kept ?_
          rw [hg] at hkept
          exact hkept
        exact ⟨hinv _ hk₄, renew_rule hM c hclean hI herror hok (fun a u => hmade a uid t₆ u hclean)
          fun e a u => hlast e a uid t₆ u hclean⟩

end

/-! ## Whatever fails -/

section
variable {paths : InstancePaths} {uid : String} {t₀ t : Tree}

/-- A program that works on neither the pointer nor the new generation keeps it published. -/
theorem Published.keeps {c : Call α} {W : Path → Prop} {p : OsM β}
    (h : p.Only (Within W (paths.state / currentLink)))
    (hcurrent : ¬ W (paths.state / currentLink))
    (hdata : ∀ l, ¬ W (l ++ generationPath paths ("gen-" ++ uid))) :
    p.Keeps machine (Published c paths t₀ a uid) := by
  intro t hp
  have hthere : t.get (paths.state / currentLink) ≠ none := by
    rw [hp.pointer]
    nofun
  refine ((keeps_of_within h hthere) t fun _ _ => rfl).mono (fun u hu => ?_) fun _ u _ hu => ?_
  all_goals
    obtain ⟨hunique, hnew, ⟨s₁, s₂, s₃, hs, hd⟩, hpointer⟩ := hp
    exact ⟨hunique, hnew, ⟨s₁, s₂, s₃, hs, (funext fun l => hu _ (hdata l)).trans hd⟩,
      (hu _ hcurrent).trans hpointer⟩

/-- Once published, the pointer leads to the new generation. -/
theorem Published.pathExists {c : Call α} (h : Published c paths t₀ a uid t) :
    (follow t (paths.state / currentLink)).isSome = true := by
  obtain ⟨_, _, _, -, hdata⟩ := h.stages
  have hdir : t.get (generationPath paths ("gen-" ++ uid)) = some (.dir 0o700) :=
    congrFun hdata []
  rw [follow, h.pointer]
  simp only [ofText_pointerTo (isGeneration_uuid h.unique)]
  simp [PurePath.isAbsolute, Path.join, Path.parent_div, hdir]

/-- What is left after a failed call does not touch the new generation. -/
theorem rollback_published {c : Call α} (uid' : String) (final : Option Path) :
    (rollback paths (stagingPath paths uid') final).Keeps machine (Published c paths t₀ a uid) := by
  have hstaging : (suppressOSError (removeOwned (stagingPath paths uid'))).Keeps machine
      (Published c paths t₀ a uid) := by
    refine Published.keeps (W := BelowChild (paths.state / generationsDir) (· = ".staging-" ++ uid'))
      (suppressed_within fun q hq => ⟨_, rfl, hq⟩) ?_ fun l => ?_
    · rintro ⟨_, -, hs⟩
      exact absurd hs.length_le (by simp [Path.div_def])
    · exact fun h => ne_generation_staging uid uid'
        ((belowChild_append (P := (· = ".staging-" ++ uid'))).mp h)
  refine hstaging.bind fun _ => ?_
  cases final with
  | none => exact Prog.keeps_ret
  | some final =>
    intro t h
    refine Prog.wp_bind.mpr (Prog.wp_perform.mpr ⟨h, fun r t' hstep => ?_⟩)
    cases hstep with
    | raised hraise => exact hraise.elim
    | answered hanswer =>
      obtain ⟨rfl, rfl⟩ := hanswer
      rw [h.pathExists]
      exact ⟨h, h, h⟩

theorem verify_reads (c : Call α) (final : Path) :
    (verify paths c.validator final).Only OsOp.Reads := by
  refine (activeGeneration_reads paths true).bind fun active => ?_
  split
  · split
    · simp
    · exact c.validator_reads _
  · simp

/-- The state after a part of a call: as before, or with the new generation. -/
def Settled (c : Call α) (paths : InstancePaths) (t₀ t : Tree) : Prop :=
  Unchanged paths t₀ t ∨ ∃ a uid, Published c paths t₀ a uid t

/-- What a call that returns has come to. -/
def Returned (c : Call α) (paths : InstancePaths) (t₀ : Tree) (a : α) (t : Tree) : Prop :=
  Unchanged paths t₀ t ∨ ∃ uid, Published c paths t₀ a uid t ∧ LegacyGone paths t

theorem Settled.of_unchanged {c : Call α} (h : Unchanged paths t₀ t) (hs : Settled c paths t t') :
    Settled c paths t₀ t' :=
  hs.imp h.trans fun ⟨a, uid, hp⟩ => ⟨a, uid, hp.of_unchanged h⟩

theorem Returned.of_unchanged {c : Call α} (h : Unchanged paths t₀ t)
    (hr : Returned c paths t a t') : Returned c paths t₀ a t' :=
  hr.imp h.trans fun ⟨uid, hp, hl⟩ => ⟨uid, hp.of_unchanged h, hl⟩

/-- The end of a call that has published: the old generations and the legacy state go. -/
theorem finish_wp (c : Call α) (h : Published c paths t₀ a uid t) :
    (finish paths c.validator (stagingPath paths uid) (generationPath paths ("gen-" ++ uid)) a).wp
      machine (Published c paths t₀ a uid) (fun r u => Published c paths t₀ a uid u ∧
        ∀ b, r = .ok b → b = a ∧ LegacyGone paths u) t := by
  have hverify : (verify paths c.validator (generationPath paths ("gen-" ++ uid))).Keeps machine
      (Published c paths t₀ a uid) := Published.keeps (W := fun _ => False)
    (reads_to_within (verify_reads c _)) id fun _ => id
  have hold : (cleanOldGenerations paths (generationPath paths ("gen-" ++ uid))).Keeps machine
      (Published c paths t₀ a uid) := by
    refine Published.keeps (cleanOldGenerations_within _ fun q => id) ?_ fun l hl => ?_
    · rintro ⟨_, -, hs⟩
      exact absurd hs.length_le (by simp [Path.div_def])
    · exact (belowChild_append.mp hl).2 rfl
  have hlegacy : (cleanLegacyState paths).Keeps machine (Published c paths t₀ a uid) := by
    refine Published.keeps (cleanLegacyState_within fun q => id) ?_ fun l hl => ?_
    · exact fun hc => absurd (belowChild_append (l := []).mp hc) (by decide)
    · have := (belowChild_append (l := l ++ ["gen-" ++ uid]) (n := generationsDir)).mp
        (by simpa [Path.div_def] using hl)
      exact absurd this (by decide)
  have hchecked := hverify.handle fun e => (rollback_published uid
    (some (generationPath paths ("gen-" ++ uid)))).bind fun _ => Prog.keeps_raise (e := e)
  refine Prog.wp_bind_keeps hchecked (Prog.yields_trivial _ t) h (fun _ => id)
    (fun _ _ hp => ⟨hp, nofun⟩) fun _ t₂ h₂ _ => ?_
  refine Prog.wp_bind_keeps hold (Prog.yields_trivial _ t₂) h₂ (fun _ => id)
    (fun _ _ hp => ⟨hp, nofun⟩) fun _ t₃ h₃ _ => ?_
  refine Prog.wp_bind_keeps hlegacy (cleanLegacyState_yields paths t₃) h₃ (fun _ => id)
    (fun _ _ hp => ⟨hp, nofun⟩) fun _ t₄ h₄ hgone => ⟨h₄, h₄, fun b hb => ?_⟩
  cases hb
  exact ⟨rfl, hgone⟩

theorem Made.published {M : Machine OsOp Exn Tree} (hM : M.Refines machine) {c : Call α}
    {P : Option Path → String → Prop} {u : Tree} (hclean : Cleaned paths P t₀ uid t)
    (h : Made M c paths (designated paths t₀) uid t a u) : Published c paths t₀ a uid u :=
  let ⟨_, s₁, s₂, s₃, hstages, hs⟩ := h
  have hbase := hclean.unchanged.base
  ⟨hclean.unique, hclean.new, ⟨s₁, s₂, s₃, hbase ▸ hstages.mono hM, hs.data⟩, hs.pointer⟩

/-- A call under the lock. -/
theorem mutateLocked_wp (c : Call α) (paths : InstancePaths) (t : Tree) :
    (mutateLocked paths c.mutator c.validator c.publishIf c.operation).wp machine
      (Settled c paths t) (fun r u => Settled c paths t u ∧ ∀ a, r = .ok a →
        Returned c paths t a u) t := by
  refine mutateLocked_rule (P := fun _ _ => True) Machine.Refines.rfl c
    (fun _ _ => (Prog.yields_trivial _ _).mono fun _ _ _ _ _ => trivial) (fun _ => .inl)
    (fun _ _ hu => ⟨.inl hu, nofun⟩) (fun _ _ hu _ => ⟨.inl hu, fun _ _ => .inl hu⟩)
    (fun a uid u v hclean hv => ?_) fun e a uid u v hclean hv _ => ?_
  · have hp := hv.published Machine.Refines.rfl hclean
    refine ⟨.inr ⟨a, uid, hp⟩, (finish_wp c hp).mono (fun _ hp => .inr ⟨a, uid, hp⟩)
      fun r w _ hw => ⟨.inr ⟨a, uid, hw.1⟩, fun b hb => .inr ⟨uid, ?_⟩⟩⟩
    obtain ⟨rfl, hgone⟩ := hw.2 b hb
    exact ⟨hw.1, hgone⟩
  · refine ((rollback_published uid none) v (hv.published Machine.Refines.rfl hclean)).mono
      (fun _ hp => .inr ⟨a, uid, hp⟩) fun r w _ hw => ?_
    cases r with
    | ok _ => exact ⟨.inr ⟨a, uid, hw⟩, .inr ⟨a, uid, hw⟩, nofun⟩
    | error e' => exact ⟨.inr ⟨a, uid, hw⟩, nofun⟩

end

/-! ## The lock -/

theorem lockDescriptor_within (paths : InstancePaths) (create : Bool) :
    (lockDescriptor paths create).Only
      (Within (fun q => q <:+ paths.state ∨ q = lockPath paths) []) := by
  have hmissing (e : Exn) : (if e.isFileNotFound then
      throw (.state "persistent state is not initialized") else throw e : OsM Stat).Only
      (Within (fun q => q <:+ paths.state ∨ q = lockPath paths) []) :=
    Prog.only_raise.ite Prog.only_raise
  cases create with
  | true =>
    refine (ensurePrivateDirectory_within (fun q hq => .inl (.inl hq)) (.inl List.suffix_rfl)).bind
      fun _ => Prog.Only.bind ((at_within (.inr rfl)).handle hmissing) fun st => ?_
    exact Prog.Only.ite Prog.only_raise (at_within (.inr rfl))
  | false =>
    exact Prog.Only.bind ((reads_within).handle hmissing) fun st =>
      Prog.Only.ite Prog.only_raise Prog.only_ret

/-- Taking the lock changes nothing of the state. -/
theorem lockDescriptor_unchanged (paths : InstancePaths) (create : Bool) (t : Tree) :
    (lockDescriptor paths create).Keeps machine
      fun u => Unchanged paths t u ∧ LegacyKept paths t u := by
  intro u ⟨hu, hlegacy⟩
  have hframe := keeps_outside (lockDescriptor_within paths create)
    (fun q hq => .inl ((List.suffix_nil.mp hq) ▸ List.nil_suffix)) u
  have hkeeps {v : Tree} (h : ∀ q, ¬ (q <:+ paths.state ∨ q = lockPath paths) →
      v.get q = u.get q) : Unchanged paths t v ∧ LegacyKept paths t v := by
    have hbelow {n : String} (hn : n ≠ lockFile) (l : Path) :
        ¬ (l ++ paths.state / n <:+ paths.state ∨ l ++ paths.state / n = lockPath paths) := by
      rintro (hs | hs)
      · exact Path.not_below_parent n paths.state ((List.suffix_append l _).trans hs)
      · exact Path.not_below_sibling hn [] paths.state ((List.suffix_append l _).trans
          (hs ▸ List.suffix_rfl))
    have hkept : LegacyKept paths u v := legacyKept_of fun n l _ _ hn _ => h _ (hbelow hn l)
    refine ⟨hu.trans ⟨h _ (hbelow (by decide) []), fun g _ => funext fun l => ?_, fun _ => hkept⟩,
      hlegacy.trans hkept⟩
    refine h (l ++ generationPath paths g) ?_
    have := hbelow (n := generationsDir) (by decide) (l ++ [g])
    simpa [Path.div_def] using this
  exact (hframe u fun _ _ => rfl).mono (fun _ => hkeeps) fun _ _ _ => hkeeps

section
variable {paths : InstancePaths} {t : Tree}

/-- A call is its body under the lock; without the lock nothing happens. -/
theorem run_rule {α : Type} {M : Machine OsOp Exn Tree} (hM : M.Refines machine) (c : Call α)
    {I : Tree → Prop} {Q : Except Exn α → Tree → Prop} (hI : ∀ u, Unchanged paths t u → I u)
    (herror : ∀ e u, Unchanged paths t u → Q (.error e) u)
    (hunlock : ∀ r u e, Q r u → M.step (.unlock (lockPath paths)) u (.error e) u → Q (.error e) u)
    (hbody : ∀ u, Unchanged paths t u → LegacyKept paths t u →
      (mutateLocked paths c.mutator c.validator c.publishIf c.operation).wp M I Q u) :
    (c.run paths).wp M I Q t := by
  refine Prog.wp_bind_refines hM (lockDescriptor_unchanged paths true t) (Prog.yields_trivial _ t)
    ⟨.refl, fun _ _ => rfl⟩ (fun u hu => hI u hu.1) (fun e u hu => herror e u hu.1)
    fun _ t₁ ⟨h₁, hlegacy₁⟩ _ => ?_
  have hflock : (acquireLock paths true false).Only OsOp.Reads :=
    (reads_only).handle fun _ => Prog.only_raise.ite Prog.only_raise
  have hlocked := Prog.wp_bind_refines hM (keeps_of_reads hflock t₁) (Prog.yields_trivial _ t₁) rfl
    (fun u hu => hI u (hu ▸ h₁)) (fun e u hu => herror e u (hu ▸ h₁)) fun _ u hu _ =>
      hbody u (hu ▸ h₁) (hu ▸ hlegacy₁)
  refine Prog.wp_finally'.mpr (hlocked.post fun r u hs hr => ?_)
  refine Prog.wp_handle.mpr (Prog.wp_perform.mpr ⟨hs, fun r' v hstep => ?_⟩)
  have hsame : v = u := OsOp.Reads.step (fun _ => id) (hM _ _ _ _ hstep)
  subst hsame
  refine ⟨hs, ?_⟩
  cases r' with
  | ok _ => exact ⟨hs, hr⟩
  | error e =>
    simp only [Prog.onError_error]
    split
    · exact ⟨hs, hs, hr⟩
    · exact ⟨hs, hunlock r v e hr hstep⟩

/-- A call of `mutate_state`, whatever fails and wherever it is stopped. -/
theorem run_wp (c : Call α) (paths : InstancePaths) (t : Tree) :
    (c.run paths).wp machine (Settled c paths t)
      (fun r u => Settled c paths t u ∧ ∀ a, r = .ok a → Returned c paths t a u) t :=
  run_rule Machine.Refines.rfl c (fun _ => .inl) (fun _ _ hu => ⟨.inl hu, nofun⟩)
    (fun _ _ _ hr _ => ⟨hr.1, nofun⟩) fun u hu _ => (mutateLocked_wp c paths u).mono
      (fun _ => Settled.of_unchanged hu) fun _ _ _ hr =>
        ⟨hr.1.of_unchanged hu, fun a ha => (hr.2 a ha).of_unchanged hu⟩

end

end State
end ShuttleGate
