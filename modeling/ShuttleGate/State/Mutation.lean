import ShuttleGate.State.Staging

/-! # One mutation

Wherever a call of `mutate_state` is stopped, the pointer designates what it did before, with the
same content, or the new generation: a copy of the old one that the mutator has worked on and the
validator has accepted. -/

namespace ShuttleGate

open Fs Effect Os Files

namespace State

/-! ## Names -/

theorem matchesId_append (pre : String) {uid : String} (h : IsUuid uid) :
    matchesId pre (pre ++ uid) = true := by
  have hdrop : (pre ++ uid).toList.drop pre.length = uid.toList := by
    rw [String.toList_append, ← String.length_toList, List.drop_left]
  rw [matchesId, decide_eq_true_iff, hdrop, String.length_toList]
  exact ⟨by simp, h.1, h.2⟩

theorem isGeneration_uuid (h : IsUuid uid) : isGeneration ("gen-" ++ uid) = true :=
  matchesId_append "gen-" h

theorem isTemporaryCurrent_uuid (h : IsUuid uid) :
    isTemporaryCurrent (".current-" ++ ("gen-" ++ uid)) = true := by
  have heq : ".current-" ++ ("gen-" ++ uid) = ".current-gen-" ++ uid := by
    rw [← String.append_assoc]
    rfl
  exact heq ▸ matchesId_append ".current-gen-" h

theorem head_of_matchesId (h : matchesId pre name = true) : pre.toList <+: name.toList :=
  (of_decide_eq_true h).1

theorem not_isGeneration_staging (uid : String) : isGeneration (".staging-" ++ uid) = false := by
  by_contra h
  have hpre : "gen-".toList <+: _ := head_of_matchesId (by simpa [isGeneration] using h)
  rw [String.toList_append] at hpre
  simp [List.cons_prefix_cons] at hpre

/-- The characters of a generation's name. -/
theorem isPart_of_isGeneration (h : isGeneration g = true) : IsPart g := by
  obtain ⟨⟨rest, hpre⟩, -, hhex⟩ := of_decide_eq_true h
  have hrest : g.toList.drop "gen-".length = rest := by
    rw [← hpre, ← String.length_toList, List.drop_left]
  refine ⟨fun hg => ?_, fun hg => ?_, fun hslash => ?_⟩
  · rw [hg] at hpre
    simp at hpre
  · rw [hg] at hpre
    simp at hpre
  · rw [← hpre] at hslash
    rcases List.mem_append.mp hslash with hs | hs
    · revert hs
      decide
    · exact absurd (hhex _ (hrest ▸ hs)) (by decide)

theorem plain_pointer (h : isGeneration g = true) : ∀ p ∈ [generationsDir, g], IsPart p := by
  simp only [List.mem_cons, List.not_mem_nil, or_false, forall_eq_or_imp, forall_eq]
  exact ⟨by decide, isPart_of_isGeneration h⟩

theorem ofText_pointerTo (h : isGeneration g = true) :
    PurePath.ofText (pointerTo g) = ⟨"", [generationsDir, g], plain_pointer h⟩ := by
  have htext : pointerTo g = (PurePath.mk "" [generationsDir, g] (plain_pointer h)).text := by
    simp [pointerTo, PurePath.text, String.append_assoc]
  rw [htext, PurePath.ofText_text (.inl rfl)]

theorem pointed_pointerTo (h : isGeneration g = true) : pointed (pointerTo g) = some g := by
  rw [pointed, ofText_pointerTo h]
  simp [PurePath.isAbsolute, h]

theorem ne_generation_staging (uid uid' : String) : "gen-" ++ uid ≠ ".staging-" ++ uid' := by
  intro h
  have := congrArg String.toList h
  simp [String.toList_append] at this

/-! ## Calls -/

/-- A call of `mutate_state`: the mutator keeps to the directory it is given, the validator only
looks. -/
structure Call (α : Type) where
  mutator : InstancePaths → OsM α
  validator : InstancePaths → OsM Unit
  publishIf : Option (α → Bool)
  operation : Option (StateOperation α)
  mutator_within : ∀ (paths : InstancePaths) (d : Path),
    (mutator (paths.withData d)).Only (Within (d <:+ ·) d)
  validator_reads : ∀ paths, (validator paths).Only OsOp.Reads

/-- The program of a call. -/
def Call.run (c : Call α) (paths : InstancePaths) : OsM α :=
  mutateState paths c.mutator c.validator c.publishIf c.operation

/-- The generation the pointer names. -/
def designated (paths : InstancePaths) (t : Tree) : Option String :=
  match t.get (paths.state / currentLink) with
  | some (.link target) => pointed target
  | _ => none

/-- The directory a call works in. -/
abbrev stagingPath (paths : InstancePaths) (uid : String) : Path :=
  paths.state / generationsDir / (".staging-" ++ uid)

/-- The receipt of a call's operation has been written, or there is none to write. -/
def Receipted (c : Call α) (staging : Path) (a : α) (t t' : Tree) : Prop :=
  match c.operation with
  | none => t' = t
  | some operation =>
    t'.get (operationPath staging operation.requestId) = some (.file 0o600 (encodeUtf8 (jsonText
      (receipt operation.requestId operation.kind (operation.encode a))))) ∧
    ∀ q, q ≠ staging → q ≠ staging / "operations" →
      q ≠ operationPath staging operation.requestId → t'.get q = t.get q

/-- The stages of a new generation: the start, what the mutator makes of it, and the tree with the
receipt, which the validator accepts. -/
structure Stages (M : Machine OsOp Exn Tree) (c : Call α) (paths : InstancePaths) (staging : Path)
    (start : Path → Option Obj) (a : α) (t₁ t₂ t₃ : Tree) : Prop where
  copied : dataAt t₁ staging = start
  mutated : (c.mutator (paths.withData staging)).Returns M t₁ (.ok a) t₂
  accepted : (c.publishIf.all fun accept => accept a) = true
  receipted : Receipted c staging a t₂ t₃
  validated : (c.validator (paths.withData staging)).Returns M t₃ (.ok ()) t₃

theorem Stages.mono {M N : Machine OsOp Exn Tree} (hM : M.Refines N) {c : Call α}
    (h : Stages M c paths staging start a t₁ t₂ t₃) : Stages N c paths staging start a t₁ t₂ t₃ :=
  ⟨h.copied, h.mutated.mono hM, h.accepted, h.receipted, h.validated.mono hM⟩

/-- A finished generation: private, with its manifest. -/
def finished (generation : String) (data : Path → Option Obj) (l : Path) : Option Obj :=
  if l = [] then some (.dir 0o700)
  else if l = [manifestFile] then
    some (.file 0o600 (encodeUtf8 (jsonText (manifest generation))))
  else data l

/-- The new generation of a call from `t₀` with result `a` is the active one. -/
structure Published (c : Call α) (paths : InstancePaths) (t₀ : Tree) (a : α) (uid : String)
    (t : Tree) : Prop where
  unique : IsUuid uid
  new : designated paths t₀ ≠ some ("gen-" ++ uid)
  stages : ∃ t₁ t₂ t₃, Stages machine c paths (stagingPath paths uid)
    (base paths t₀ (designated paths t₀)) a t₁ t₂ t₃ ∧
    dataAt t (generationPath paths ("gen-" ++ uid)) =
      finished ("gen-" ++ uid) (dataAt t₃ (stagingPath paths uid))
  pointer : t.get (paths.state / currentLink) = some (.link (pointerTo ("gen-" ++ uid)))

/-- The legacy state is what it was. -/
def LegacyKept (paths : InstancePaths) (t₀ t : Tree) : Prop :=
  ∀ name ∈ legacyDataDirectories, dataAt t (paths.state / name) = dataAt t₀ (paths.state / name)

theorem LegacyKept.trans (h : LegacyKept paths t₀ t) (h' : LegacyKept paths t t') :
    LegacyKept paths t₀ t' := fun name hname => (h' name hname).trans (h name hname)

theorem LegacyKept.directories (h : LegacyKept paths t₀ t) (hd : LegacyDirectories paths t₀) :
    LegacyDirectories paths t :=
  fun name hname o ho => hd name hname o ((congrFun (h name hname) []).symm.trans ho)

/-- The active generation is the one it was; before the first, so is the legacy state. -/
structure Unchanged (paths : InstancePaths) (t₀ t : Tree) : Prop where
  pointer : t.get (paths.state / currentLink) = t₀.get (paths.state / currentLink)
  data : ∀ g, designated paths t₀ = some g →
    dataAt t (generationPath paths g) = dataAt t₀ (generationPath paths g)
  legacy : designated paths t₀ = none → LegacyKept paths t₀ t

theorem Unchanged.designated (h : Unchanged paths t₀ t) :
    State.designated paths t = State.designated paths t₀ := by
  rw [State.designated, State.designated, h.pointer]

theorem Unchanged.refl : Unchanged paths t t := ⟨rfl, fun _ _ => rfl, fun _ _ _ => rfl⟩

theorem Unchanged.trans (h : Unchanged paths t₀ t) (h' : Unchanged paths t t') :
    Unchanged paths t₀ t' where
  pointer := h'.pointer.trans h.pointer
  data g hg := (h'.data g (h.designated.trans hg)).trans (h.data g hg)
  legacy hn := (h.legacy hn).trans (h'.legacy (h.designated.trans hn))

theorem Unchanged.base (h : Unchanged paths t₀ t) :
    State.base paths t (State.designated paths t₀) =
      State.base paths t₀ (State.designated paths t₀) := by
  cases hd : State.designated paths t₀ with
  | some g =>
    simp only [State.base, State.copied]
    refine congrArg filled (funext fun n => funext fun l => ?_)
    have := congrFun (h.data g hd) (l ++ [n])
    simp only [dataAt, List.append_assoc, List.singleton_append] at this
    exact congrArg (fun o => if n = manifestFile then none else o) this
  | none =>
    simp only [State.base, migrated]
    refine congrArg filled (funext fun n => funext fun l => ?_)
    split
    · exact congrFun (h.legacy hd n ‹_›) l
    · rfl

/-- A call from a tree with the same active generation publishes the same. -/
theorem Published.of_unchanged {c : Call α} (h : Unchanged paths t₀ t)
    (hp : Published c paths t a uid t') : Published c paths t₀ a uid t' := by
  obtain ⟨hu, hnew, ⟨t₁, t₂, t₃, hs, hdata⟩, hpointer⟩ := hp
  rw [h.designated] at hnew hs
  rw [h.base] at hs
  exact ⟨hu, hnew, ⟨t₁, t₂, t₃, hs, hdata⟩, hpointer⟩

/-! ## What a call leaves alone before it publishes -/

/-- What a call may work on before it publishes: the generations that are not active, and the
links that are to replace the pointer. -/
def Scratch (paths : InstancePaths) (active : Option String) (q : Path) : Prop :=
  BelowChild (paths.state / generationsDir) (some · ≠ active) q ∨
    BelowChild paths.state (isTemporaryCurrent · = true) q

section
variable {paths : InstancePaths} {active : Option String}

@[simp] theorem belowChild_append {P : String → Prop} {l d : Path} {n : String} :
    BelowChild d P (l ++ n :: d) ↔ P n := by
  constructor
  · rintro ⟨m, hm, hs⟩
    by_contra hn
    exact Path.not_below_sibling (fun (he : m = n) => hn (he ▸ hm)) l d hs
  · exact fun hn => ⟨n, hn, List.suffix_append l _⟩

theorem not_belowChild_sibling {P : String → Prop} {l d : Path} {m n : String} (h : m ≠ n) :
    ¬ BelowChild (m :: d) P (l ++ n :: d) := by
  rintro ⟨_, -, hs⟩
  exact Path.not_below_sibling h l d ((List.suffix_cons _ _).trans hs)

theorem not_scratch_active (g : String) (l : Path) :
    ¬ Scratch paths (some g) (l ++ generationPath paths g) := by
  rintro (h | h)
  · exact belowChild_append.mp h rfl
  · rw [show l ++ generationPath paths g = (l ++ [g]) ++ generationsDir :: paths.state by
      simp [Path.div_def]] at h
    exact absurd (belowChild_append.mp h) (by decide)

theorem not_scratch_state {n : String} (hn : n ≠ generationsDir) (ht : isTemporaryCurrent n = false)
    (l : Path) : ¬ Scratch paths active (l ++ paths.state / n) := by
  rintro (h | h)
  · exact not_belowChild_sibling hn.symm h
  · exact absurd (belowChild_append.mp h) (by simp [ht])

theorem not_scratch_generations : ¬ Scratch paths active (paths.state / generationsDir) := by
  rintro (⟨n, -, h⟩ | h)
  · exact Path.not_below_parent _ _ h
  · exact absurd (belowChild_append (l := []).mp h) (by decide)

theorem scratch_child {name : String} (h : active ≠ some name)
    (hq : (paths.state / generationsDir / name) <:+ q) : Scratch paths active q :=
  .inl ⟨name, h.symm, hq⟩

/-- The legacy state is apart from the generations, the pointer and the links beside it. -/
theorem legacyKept_of {t₀ t : Tree} (h : ∀ (n : String) (l : Path), n ≠ generationsDir →
    n ≠ currentLink → n ≠ lockFile → isTemporaryCurrent n = false →
    t.get (l ++ paths.state / n) = t₀.get (l ++ paths.state / n)) :
    LegacyKept paths t₀ t := by
  intro name hname
  simp only [legacyDataDirectories, List.mem_cons, List.not_mem_nil, or_false] at hname
  rcases hname with rfl | rfl
  · exact funext fun l => h _ l (by decide) (by decide) (by decide) (by decide)
  · exact funext fun l => h _ l (by decide) (by decide) (by decide) (by decide)

theorem legacyKept_of_scratch {t₀ t : Tree} (h : ∀ q, ¬ Scratch paths active q → t.get q = t₀.get q) :
    LegacyKept paths t₀ t :=
  legacyKept_of fun _ l hn _ _ ht => h _ (not_scratch_state hn ht l)

theorem unchanged_of_scratch {t₀ t : Tree}
    (h : ∀ q, ¬ Scratch paths (designated paths t₀) q → t.get q = t₀.get q) :
    Unchanged paths t₀ t where
  pointer := h _ (not_scratch_state (by decide) (by decide) [])
  data g hg := funext fun l => h _ (hg ▸ not_scratch_active g l)
  legacy _ := legacyKept_of_scratch h

end

/-! ## Publication -/

section
variable {paths : InstancePaths} {active : Option String} {uid : String} {t₁ t : Tree}

/-- What the making of one generation works on. -/
def Work (paths : InstancePaths) (uid : String) (q : Path) : Prop :=
  BelowChild (paths.state / generationsDir) (fun n => n = ".staging-" ++ uid ∨ n = "gen-" ++ uid) q ∨
    BelowChild paths.state (· = ".current-" ++ ("gen-" ++ uid)) q

/-- Nothing outside of `W` is different. -/
def Kept (W : Path → Prop) (t₁ t : Tree) : Prop := ∀ q, ¬ W q → t.get q = t₁.get q

theorem Kept.refl {W : Path → Prop} : Kept W t t := fun _ _ => rfl

theorem Kept.trans {W W' : Path → Prop} {t₂ : Tree} (h : Kept W t₁ t) (h' : Kept W' t t₂)
    (hW : ∀ q, W' q → W q) : Kept W t₁ t₂ :=
  fun q hq => (h' q fun hw => hq (hW q hw)).trans (h q hq)

/-- The pointer has been switched to a finished generation. -/
structure Switched (paths : InstancePaths) (uid : String) (data : Path → Option Obj)
    (t₁ t : Tree) : Prop where
  pointer : t.get (paths.state / currentLink) = some (.link (pointerTo ("gen-" ++ uid)))
  data : dataAt t (generationPath paths ("gen-" ++ uid)) = finished ("gen-" ++ uid) data
  kept : ∀ q, ¬ Work paths uid q → ¬ (paths.state / currentLink) <:+ q → t.get q = t₁.get q
  moved : ∀ l, t.get (l ++ stagingPath paths uid) = none

theorem work_staging (hq : stagingPath paths uid <:+ q) : Work paths uid q :=
  .inl ⟨_, .inl rfl, hq⟩

theorem work_generation (hq : generationPath paths ("gen-" ++ uid) <:+ q) : Work paths uid q :=
  .inl ⟨_, .inr rfl, hq⟩

theorem work_link (hq : (paths.state / (".current-" ++ ("gen-" ++ uid))) <:+ q) :
    Work paths uid q :=
  .inr ⟨_, rfl, hq⟩

theorem link_ne_generations : ".current-" ++ ("gen-" ++ uid) ≠ generationsDir := fun he => by
  have := congrArg String.toList he
  simp [String.toList_append, generationsDir] at this

theorem not_work_generations : ¬ Work paths uid (paths.state / generationsDir) := by
  rintro (⟨n, -, h⟩ | h)
  · exact Path.not_below_parent _ _ h
  · exact link_ne_generations (belowChild_append (l := []).mp h).symm

theorem work_scratch (hu : IsUuid uid) (hgen : active ≠ some ("gen-" ++ uid))
    (hstaging : active ≠ some (".staging-" ++ uid)) (h : Work paths uid q) :
    Scratch paths active q := by
  rcases h with ⟨n, hn, hs⟩ | ⟨n, rfl, hs⟩
  · refine .inl ⟨n, fun he => ?_, hs⟩
    rcases hn with rfl | rfl
    · exact hstaging he.symm
    · exact hgen he.symm
  · exact .inr ⟨_, isTemporaryCurrent_uuid hu, hs⟩

theorem kept_of_within {W : Path → Prop} {p : OsM α} (h : p.Only (Within W d))
    (hd : t₁.get d ≠ none) : p.Keeps machine (Kept W t₁) :=
  keeps_of_within h hd

/-- Writing the manifest finishes a generation. -/
theorem writeManifest_yields {d : Path} {name : String} (generation : String)
    (hd : t.get d ≠ none) :
    (atomicWriteJson (d / name / manifestFile) (manifest generation) 0o600).Yields machine
      (fun _ u => dataAt u (d / name) = finished generation (dataAt t (d / name))) t := by
  refine (atomicWriteBytes_yields (W := (· = name :: d)) (fun q hq => List.suffix_cons_iff.mp hq)
    rfl hd _ _ _).mono fun _ u ⟨hdir, hfile, hother⟩ => funext fun l => ?_
  unfold finished
  split
  · rename_i hl
    exact hl ▸ hdir
  · split
    · rename_i hl
      exact hl ▸ hfile
    · rename_i hnil hl
      refine hother _ (fun he => hnil ?_) fun he => hl ?_
      · exact List.self_eq_append_left.mp he.symm
      · exact List.append_cancel_right (he.trans (List.singleton_append (l := name :: d)).symm)

theorem publish_wp {M : Machine OsOp Exn Tree} (hM : M.Refines machine)
    (hd : t₁.get (paths.state / generationsDir) ≠ none) (hk : Kept (Work paths uid) t₁ t) :
    (publish paths (stagingPath paths uid) ("gen-" ++ uid)).wp M
      (fun u => Kept (Work paths uid) t₁ u ∨
        Switched paths uid (dataAt t (stagingPath paths uid)) t₁ u)
      (fun r u => match r with
        | .ok final => final = generationPath paths ("gen-" ++ uid) ∧
          Switched paths uid (dataAt t (stagingPath paths uid)) t₁ u
        | .error e => Kept (Work paths uid) t₁ u ∨
          Switched paths uid (dataAt t (stagingPath paths uid)) t₁ u ∧
          M.step (.fsync paths.state) u (.error e) u) t := by
  have hhere : t.get (paths.state / generationsDir) ≠ none := by
    rw [hk _ not_work_generations]
    exact hd
  -- the manifest
  refine Prog.wp_bind_refines hM (kept_of_within (atomicWriteBytes_within (fun q hq => ?_)
    (fun q hq => work_staging hq) _ _) hd) (writeManifest_yields _ hhere) hk
    (fun _ => .inl) (fun _ _ => .inl) fun _ t₂ hk₂ hdata₂ => ?_
  · refine (List.suffix_cons_iff.mp hq).imp_left fun he => ?_
    subst he
    exact work_staging List.suffix_rfl
  refine Prog.wp_bind_refines hM (kept_of_within (reads_to_within (fsyncTree_reads _)) hd)
    (yields_of_reads (fsyncTree_reads _) (Prog.yields_trivial _ t₂)) hk₂
    (fun _ => .inl) (fun _ _ => .inl) fun _ t₃ hk₃ ⟨h₃, _⟩ => ?_
  subst h₃
  -- the directory gets its name
  have hnames : stagingPath paths uid ≠ generationPath paths ("gen-" ++ uid) := fun he =>
    ne_generation_staging uid uid (List.cons.inj he).1.symm
  have hrename : (Prog.perform (.rename (stagingPath paths uid)
      (generationPath paths ("gen-" ++ uid))) : OsM Unit).Only
      (Within (Work paths uid) (paths.state / generationsDir)) :=
    Prog.only_perform.mpr fun q hq => .inl (hq.elim (work_staging) (work_generation))
  refine Prog.wp_bind_refines hM (kept_of_within hrename hd) (Prog.yields_perform (Q := fun _ u =>
    dataAt u (generationPath paths ("gen-" ++ uid)) = dataAt t₃ (stagingPath paths uid) ∧
      ∀ l, u.get (l ++ stagingPath paths uid) = none)
    fun _ u h => ?_) hk₃ (fun _ => .inl) (fun _ _ => .inl) fun _ t₄ hk₄ ⟨hdata₄, hmoved₄⟩ => ?_
  · obtain ⟨-, -, -, hmoved, hgone, -⟩ := (Step.ok h).rename hnames
    exact ⟨funext hmoved, fun l => hgone _ (List.suffix_append l _)⟩
  refine Prog.wp_bind_refines hM (kept_of_within reads_within hd) (yields_of_reads (reads_only)
    (Prog.yields_trivial _ t₄)) hk₄ (fun _ => .inl) (fun _ _ => .inl) fun _ t₅ hk₅ ⟨h₅, _⟩ => ?_
  subst h₅
  -- the link that is to replace the pointer
  have happart (n : String) (hn : n ≠ generationsDir) (m : String) (l : Path) :
      ¬ (paths.state / n) <:+ l ++ paths.state / generationsDir / m := by
    simpa [Path.div_def] using Path.not_below_sibling hn (l ++ [m]) paths.state
  refine Prog.wp_bind_refines hM (kept_of_within (at_within (work_link List.suffix_rfl)) hd)
    (Prog.yields_perform (Q := fun _ u =>
      u.get (paths.state / (".current-" ++ ("gen-" ++ uid))) =
        some (.link (pointerTo ("gen-" ++ uid))) ∧
      ∀ (m : String) (l : Path), u.get (l ++ paths.state / generationsDir / m) =
        t₅.get (l ++ paths.state / generationsDir / m)) fun _ u h => ?_) hk₅
    (fun _ => .inl) (fun _ _ => .inl) fun _ t₆ hk₆ ⟨hlink₆, hdata₆⟩ => ?_
  · have hget := (Step.ok h).symlink.2
    refine ⟨(hget _).trans (if_pos rfl), fun m l => (hget _).trans (if_neg fun he => ?_)⟩
    exact happart _ link_ne_generations m l ⟨[], he.symm⟩
  refine Prog.wp_bind_refines hM (kept_of_within reads_within hd) (yields_of_reads (reads_only)
    (Prog.yields_trivial _ t₆)) hk₆ (fun _ => .inl) (fun _ _ => .inl) fun _ t₇ hk₇ ⟨h₇, _⟩ => ?_
  subst h₇
  -- the switch is one rename
  refine Prog.wp_bind.mpr (Prog.wp_perform.mpr ⟨.inl hk₇, fun r t₈ h => ?_⟩)
  cases r with
  | error e =>
    obtain rfl := Step.failed (hM _ _ _ _ h)
    exact ⟨.inl hk₇, .inl hk₇⟩
  | ok _ =>
    have hne : paths.state / (".current-" ++ ("gen-" ++ uid)) ≠ paths.state / currentLink := by
      intro he
      have := congrArg String.toList (List.cons.inj he).1
      simp [String.toList_append, currentLink] at this
    obtain ⟨-, -, -, hmoved, hgone, hrest⟩ := (Step.ok (hM _ _ _ _ h)).rename hne
    have hbelow (m : String) (l : Path) : t₈.get (l ++ paths.state / generationsDir / m) =
        t₅.get (l ++ paths.state / generationsDir / m) :=
      (hrest _ (happart _ (by decide) m l) (happart _ link_ne_generations m l)).trans (hdata₆ m l)
    have hdone : Switched paths uid (dataAt t (stagingPath paths uid)) t₁ t₈ := by
      refine ⟨(hmoved []).trans hlink₆, funext fun l => (hbelow _ l).trans ?_, fun q hq hc => ?_,
        fun l => (hbelow _ l).trans (hmoved₄ l)⟩
      · exact congrFun (hdata₄.trans hdata₂) l
      · exact (hrest q hc fun hl => hq (work_link hl)).trans (hk₇ q hq)
    refine ⟨.inr hdone, Prog.wp_bind.mpr (Prog.wp_perform.mpr ⟨.inr hdone, fun r t₉ h => ?_⟩)⟩
    have hsame : t₉ = t₈ := OsOp.Reads.step (fun _ => id) (hM _ _ _ _ h)
    subst hsame
    cases r with
    | error e => exact ⟨.inr hdone, .inr ⟨hdone, h⟩⟩
    | ok _ => exact ⟨.inr hdone, .inr hdone, rfl, hdone⟩

/-! ## The new generation -/

/-- The copy a mutator is given; where it is one of the legacy state, that is made of directories. -/
theorem copyState_yields (hstaging : active ≠ some (".staging-" ++ uid))
    (hd : t.get (paths.state / generationsDir) ≠ none) :
    (copyState paths (active.map fun g => (generationPath paths g, g))
      (stagingPath paths uid)).Yields machine
      (fun _ u => dataAt u (stagingPath paths uid) = base paths t active ∧
        (active = none → LegacyDirectories paths t)) t := by
  have hne (g : String) (hg : active = some g) : g ≠ ".staging-" ++ uid :=
    fun he => hstaging (hg.trans (congrArg some he))
  have hcopy := copyActive_yields hne hd
  cases active with
  | some g =>
    refine Prog.yields_bind (hcopy.mono fun _ u hcopied => Prog.yields_ret ⟨hcopied.2, ?_⟩)
    intro hnone
    cases hnone
  | none =>
    refine Prog.yields_bind (hcopy.mono fun _ u hcopied => ?_)
    obtain ⟨hother, hdata⟩ := hcopied
    have hdst (n : String) (hn : n ∈ legacyDataDirectories) (l : Path) :
        ¬ stagingPath paths uid <:+ l ++ n :: paths.state ∧
          ¬ (n :: paths.state) <:+ l ++ stagingPath paths uid := by
      have hne : n ≠ generationsDir := by
        simp only [legacyDataDirectories, List.mem_cons, List.not_mem_nil, or_false] at hn
        rcases hn with rfl | rfl <;> decide
      refine ⟨fun hs => Path.not_below_sibling hne.symm l paths.state
        ((List.suffix_cons _ _).trans hs), ?_⟩
      simpa [Path.div_def] using Path.not_below_sibling hne (l ++ [".staging-" ++ uid]) paths.state
    have hsame (n : String) (hn : n ∈ legacyDataDirectories) (l : Path) :
        u.get (l ++ n :: paths.state) = t.get (l ++ n :: paths.state) := hother _ (hdst n hn l).1
    refine (copyLegacyState_yields paths hdst hdata).mono fun _ v hlegacy =>
      ⟨hlegacy.2.1.trans ?_, fun _ n hn o ho => hlegacy.2.2 n hn o ((hsame n hn []).trans ho)⟩
    simp only [base, migrated]
    refine congrArg filled (funext fun n => funext fun l => ?_)
    split
    · exact hsame n ‹_› l
    · rfl

theorem copyActive_within (source : Option Path) :
    (copyActive source (stagingPath paths uid)).Only
      (Within (stagingPath paths uid <:+ ·) (paths.state / generationsDir)) := by
  have child {name : String} {p : OsM Unit} (hp : p.Only (Below (stagingPath paths uid / name))) :
      p.Only (Within (stagingPath paths uid <:+ ·) (paths.state / generationsDir)) :=
    hp.mono fun _ hop => hop.within fun q hq => (List.suffix_cons name _).trans hq
  refine (mkdirNew_within (fun q hq => ?_) _).bind fun _ => ?_
  · refine (List.suffix_cons_iff.mp hq).imp_left fun he => ?_
    subst he
    exact List.suffix_rfl
  · cases source with
    | none => exact Prog.only_ret
    | some source =>
      refine (reads_within).bind fun names => Prog.only_forEach (fun name => ?_) names
      unfold copyChild
      split
      · exact Prog.only_ret
      · refine (reads_within).bind fun st => ?_
        cases st.kind with
        | directory => exact child (copytree_below _ _)
        | regular => exact child (copy2_below _ _)
        | symlink => exact Prog.only_raise
        | special => exact Prog.only_raise

theorem copyLegacyState_within :
    (copyLegacyState paths (stagingPath paths uid)).Only
      (Within (stagingPath paths uid <:+ ·) (paths.state / generationsDir)) := by
  refine Prog.only_forEach (fun name => ?_) _
  refine (reads_to_within (lstatMissing_reads _)).bind fun st => ?_
  split
  · exact Prog.only_ret
  · split
    · simp
    · exact (copytree_below _ _).mono fun _ hop => hop.within fun q hq =>
        (List.suffix_cons name _).trans hq

theorem copyState_within (source : Option (Path × String)) :
    (copyState paths source (stagingPath paths uid)).Only
      (Within (stagingPath paths uid <:+ ·) (paths.state / generationsDir)) :=
  (copyActive_within _).bind fun _ => copyLegacyState_within.ite Prog.only_ret

theorem writeReceipt_within (operation : Option (StateOperation α)) (a : α) :
    (writeReceipt operation (stagingPath paths uid) a).Only
      (Within (stagingPath paths uid <:+ ·) (paths.state / generationsDir)) := by
  unfold writeReceipt
  split
  · refine atomicWriteBytes_within (fun q hq => ?_) (fun q hq => (List.suffix_cons _ _).trans hq) _ _
    rcases List.suffix_cons_iff.mp hq with rfl | hq
    · exact .inl (List.suffix_cons _ _)
    · refine (List.suffix_cons_iff.mp hq).imp_left fun he => ?_
      subst he
      exact List.suffix_rfl
  · exact Prog.only_ret

theorem writeReceipt_yields (c : Call α) {d : Path} {name : String} (hd : t.get d ≠ none) (a : α) :
    (writeReceipt c.operation (d / name) a).Yields machine (fun _ u => Receipted c (d / name) a t u) t := by
  unfold writeReceipt Receipted
  cases c.operation with
  | none => exact Prog.yields_ret rfl
  | some operation =>
    refine (atomicWriteBytes_yields (W := fun q => q = "operations" :: name :: d ∨ q = name :: d)
      (fun q hq => ?_) (.inl rfl) hd _ _ _).mono fun _ u ⟨_, hfile, hother⟩ =>
        ⟨hfile, fun q hn hp hr => hother q (not_or.mpr ⟨hp, hn⟩) hr⟩
    rcases List.suffix_cons_iff.mp hq with rfl | hq
    · exact .inl (.inl rfl)
    · exact (List.suffix_cons_iff.mp hq).imp_left .inr

/-- What a call has made and published with result `a`. -/
def Made (M : Machine OsOp Exn Tree) (c : Call α) (paths : InstancePaths) (active : Option String)
    (uid : String) (t₁ : Tree) (a : α) (u : Tree) : Prop :=
  (active = none → LegacyDirectories paths t₁) ∧
  ∃ s₁ s₂ s₃, Stages M c paths (stagingPath paths uid) (base paths t₁ active) a s₁ s₂ s₃ ∧
    Switched paths uid (dataAt s₃ (stagingPath paths uid)) t₁ u

theorem stage_wp {M : Machine OsOp Exn Tree} (hM : M.Refines machine) (c : Call α)
    (hstaging : active ≠ some (".staging-" ++ uid))
    (hd : t.get (paths.state / generationsDir) ≠ none) :
    (stage paths c.mutator c.validator c.publishIf c.operation
      (active.map fun g => (generationPath paths g, g)) (stagingPath paths uid)
      ("gen-" ++ uid)).wp M
      (fun u => Kept (Work paths uid) t u ∨ ∃ a, Made M c paths active uid t a u)
      (fun r u => match r with
        | .ok (_, none) => Kept (stagingPath paths uid <:+ ·) t u ∧
          ∀ l, u.get (l ++ stagingPath paths uid) = none
        | .ok (a, some final) => final = generationPath paths ("gen-" ++ uid) ∧
          Made M c paths active uid t a u
        | .error e => Kept (Work paths uid) t u ∨ ∃ a, Made M c paths active uid t a u ∧
          M.step (.fsync paths.state) u (.error e) u) t := by
  -- up to the publication only the staging directory changes
  have hhere {u : Tree} (h : Kept (stagingPath paths uid <:+ ·) t u) :
      u.get (paths.state / generationsDir) ≠ none :=
    fun hn => hd ((h _ (Path.not_below_parent _ _)).symm.trans hn)
  have hinv {u : Tree} (h : Kept (stagingPath paths uid <:+ ·) t u) : Kept (Work paths uid) t u :=
    fun q hq => h q fun hs => hq (work_staging hs)
  refine Prog.wp_bind_refines hM (kept_of_within (copyState_within _) hd)
    (copyState_yields hstaging hd) .refl (fun _ hk => .inl (hinv hk)) (fun _ _ hk => .inl (hinv hk))
    fun _ t₂ hk₂ ⟨hcopied, hlegacy⟩ => ?_
  have hmutator : (c.mutator (paths.withData (stagingPath paths uid))).Only
      (Within (stagingPath paths uid <:+ ·) (paths.state / generationsDir)) := by
    refine (c.mutator_within paths _).mono fun op hop q hq => ?_
    rcases hop q hq with hs | ⟨hm, hs⟩
    · exact .inl hs
    · rcases List.suffix_cons_iff.mp hs with rfl | hs
      · exact .inl List.suffix_rfl
      · exact .inr ⟨hm, hs⟩
  refine Prog.wp_bind_returns hM (kept_of_within hmutator hd) hk₂
    (fun _ hk => .inl (hinv hk)) (fun _ _ hk => .inl (hinv hk)) fun a t₃ hk₃ hmutated => ?_
  split
  · -- not to be published
    have hremove := kept_of_within ((removeOwned_below (stagingPath paths uid)).mono fun _ hop =>
      hop.within fun q hq => hq) hd
    exact Prog.wp_bind_refines hM hremove (removeOwned_yields _ t₃) hk₃
      (fun _ hk => .inl (hinv hk)) (fun _ _ hk => .inl (hinv hk))
      fun _ t₄ hk₄ hgone => ⟨.inl (hinv hk₄), hk₄, hgone⟩
  rename_i haccepted
  refine Prog.wp_bind_refines hM (kept_of_within (writeReceipt_within c.operation a) hd)
    (writeReceipt_yields c (hhere hk₃) a) hk₃ (fun _ hk => .inl (hinv hk))
    (fun _ _ hk => .inl (hinv hk)) fun _ t₄ hk₄ hreceipted => ?_
  have hvalidator := c.validator_reads (paths.withData (stagingPath paths uid))
  refine Prog.wp_bind_returns hM ((kept_of_within (reads_to_within hvalidator) hd).and
    (keeps_of_reads hvalidator t₄)) ⟨hk₄, rfl⟩ (fun _ hk => .inl (hinv hk.1))
    (fun _ _ hk => .inl (hinv hk.1)) fun _ t₅ ⟨hk₅, h₅⟩ hvalidated => ?_
  subst h₅
  have hmade {u : Tree} (h : Switched paths uid (dataAt t₅ (stagingPath paths uid)) t u) :
      Made M c paths active uid t a u :=
    ⟨hlegacy, t₂, t₃, t₅, ⟨hcopied, hmutated, by simpa using haccepted, hreceipted, hvalidated⟩, h⟩
  refine Prog.wp_bind.mpr ((publish_wp hM hd (hinv hk₅)).mono
    (fun u h => h.imp_right fun h => ⟨a, hmade h⟩) fun r u _ hr => ?_)
  cases r with
  | ok final => exact ⟨.inr ⟨a, hmade hr.2⟩, hr.1, hmade hr.2⟩
  | error e => exact hr.imp_right fun h => ⟨a, hmade h.1, h.2⟩

end

end State
end ShuttleGate
