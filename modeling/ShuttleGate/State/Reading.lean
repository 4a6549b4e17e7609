import ShuttleGate.State.Store

/-! # What the state's readers and cleaners do

The readers leave the tree as it is and tell what is there; each cleaner leaves alone what it does
not own, and what it owns is gone when it returns. -/

namespace ShuttleGate

open Fs Effect Os Files

namespace State

/-! ## Readers only look -/

section

theorem reads_only {op : OsOp β} (h : op.Reads := by exact fun _ => id) :
    (Prog.perform op : OsM β).Only OsOp.Reads := Prog.only_perform.mpr h

theorem readText_reads (p : Path) : (readText p).Only OsOp.Reads :=
  (reads_only).bind fun content => by split <;> simp

theorem loadJson_reads (p : Path) : (loadJson p).Only OsOp.Reads :=
  (readText_reads p).bind fun s => by split <;> simp

theorem lstatMissing_reads (p : Path) : (lstatMissing p).Only OsOp.Reads :=
  ((reads_only).bind fun _ => Prog.only_ret).handle fun _ => Prog.only_ret.ite Prog.only_raise

theorem readManifest_reads (root : Path) (expected : String) :
    (readManifest root expected).Only OsOp.Reads := by
  refine Prog.Only.bind (Prog.Only.handle ((reads_only).bind fun st => ?_) fun e => ?_)
    fun value => Prog.only_raise.ite Prog.only_ret
  · split
    · simp
    · exact loadJson_reads _
  · split
    · simp
    · split <;> simp

theorem legacyStatePresent_go_reads (paths : InstancePaths) :
    ∀ names, (legacyStatePresent.go paths names).Only OsOp.Reads
  | [] => Prog.only_ret
  | _ :: names => (lstatMissing_reads _).bind fun _ =>
    Prog.only_ret.ite (legacyStatePresent_go_reads paths names)

theorem legacyStatePresent_reads (paths : InstancePaths) :
    (legacyStatePresent paths).Only OsOp.Reads := legacyStatePresent_go_reads paths _

theorem activeGeneration_reads (paths : InstancePaths) (required : Bool) :
    (activeGeneration paths required).Only OsOp.Reads := by
  refine (lstatMissing_reads _).bind fun st => ?_
  split
  · split
    · refine (legacyStatePresent_reads paths).bind fun present => ?_
      split <;> simp
    · simp
  · split
    · simp
    · refine (reads_only).bind fun target => ?_
      split
      · simp
      · refine (lstatMissing_reads _).bind fun st => ?_
        split
        · simp
        · split
          · simp
          · exact (readManifest_reads _ _).bind fun _ => Prog.only_ret

theorem readOperation_reads (root : Path) (operation : StateOperation α) :
    (readOperation root operation).Only OsOp.Reads := by
  refine (lstatMissing_reads _).bind fun st => ?_
  split
  · simp
  · split
    · simp
    · refine ((loadJson_reads _).handle fun e => Prog.only_raise.ite Prog.only_raise).bind
        fun value => ?_
      split
      · simp
      · exact (Prog.only_ofExcept _).bind fun _ => Prog.only_ret

theorem completed_reads (active : Option (Path × String)) (operation : Option (StateOperation α)) :
    (completed active operation).Only OsOp.Reads := by
  unfold completed
  split
  · exact readOperation_reads _ _
  · simp

theorem globCurrent_reads (p : Path) : (globCurrent p).Only OsOp.Reads :=
  ((reads_only).handle fun _ => Prog.only_ret.ite Prog.only_raise).bind fun _ => Prog.only_ret

theorem syncEntries_reads (directory : Path) :
    ∀ names, (syncEntries directory names).Only OsOp.Reads
  | [] => Prog.only_ret
  | name :: names => (reads_only).bind fun st => by
    have hrest : Prog.Only (@OsOp.Reads) (do
        let directories ← syncEntries directory names
        return if st.kind = .directory then name :: directories else directories : OsM _) :=
      (syncEntries_reads directory names).bind fun _ => Prog.only_ret
    exact Prog.Only.ite Prog.only_raise (((reads_only).bind fun _ => hrest).ite hrest)

theorem walkAll_reads {walk : Path → OsM (List Path)} (h : ∀ p, (walk p).Only OsOp.Reads) :
    ∀ ps, (walkAll walk ps).Only OsOp.Reads
  | [] => Prog.only_ret
  | p :: ps => (h p).bind fun _ => (walkAll_reads h ps).bind fun _ => Prog.only_ret

theorem syncWalk_reads : ∀ fuel directory, (syncWalk fuel directory).Only OsOp.Reads
  | 0, _ => Prog.only_raise
  | fuel + 1, directory => by
    refine (((reads_only).bind fun _ => Prog.only_ret).handle fun e =>
      Prog.only_ret.ite Prog.only_raise).bind fun names => ?_
    split
    · simp
    · exact (syncEntries_reads directory _).bind fun _ =>
        (walkAll_reads (syncWalk_reads fuel) _).bind fun _ => Prog.only_ret

theorem fsyncTree_reads (root : Path) : (fsyncTree root).Only OsOp.Reads :=
  (reads_only).bind fun _ => (syncWalk_reads _ root).bind fun _ =>
    Prog.only_forEach (fun _ => reads_only) _

/-- A reader's answer, with the tree as it was. -/
theorem yields_of_reads {p : OsM α} {Q : α → Prop} {t : Tree} (hp : p.Only OsOp.Reads)
    (h : p.Yields machine (fun a _ => Q a) t) : p.Yields machine (fun a t' => t' = t ∧ Q a) t :=
  (h.and_keeps (keeps_of_reads hp t) rfl).mono fun _ _ ⟨hq, ht⟩ => ⟨ht, hq⟩

end

/-! ## What they tell -/

theorem lstatMissing_yields (p : Path) (t : Tree) : (lstatMissing p).Yields machine
    (fun st t' => t' = t ∧ st = (t.get p).map statOf) t := by
  refine Prog.wp_handle.mpr (Prog.wp_bind.mpr (Prog.wp_perform.mpr ⟨trivial, fun r t' h =>
    ⟨trivial, ?_⟩⟩))
  cases r with
  | ok st =>
    obtain ⟨rfl, o, ho, rfl⟩ := (Step.ok h).lstat
    exact ⟨trivial, fun _ ha => by cases ha; simp [ho]⟩
  | error e =>
    simp only [Prog.onOk_error, Prog.onError_error]
    split
    · obtain ⟨rfl, hnone⟩ := Step.missing h ‹_›
      exact ⟨trivial, fun _ ha => by cases ha; simp [hnone]⟩
    · exact ⟨trivial, nofun⟩

theorem loadJson_yields (p : Path) (t : Tree) : (loadJson p).Yields machine
    (fun v t' => t' = t ∧ ∃ mode content, t.get p = some (.file mode content) ∧
      jsonOf content = some v) t := by
  refine yields_of_reads (loadJson_reads p) (Prog.yields_bind (Prog.yields_bind
    (Prog.yields_perform fun content t' h => ?_)))
  obtain ⟨rfl, mode, hp⟩ := (Step.ok h).read
  split
  · rename_i s hs
    refine Prog.yields_ret ?_
    split
    · rename_i v hv
      exact Prog.yields_ret ⟨mode, content, hp, by simp [jsonOf, hs, hv]⟩
    · exact Prog.yields_raise
  · exact Prog.yields_raise

/-- A generation's directory holds its manifest. -/
def Manifested (t : Tree) (root : Path) (generation : String) : Prop :=
  ∃ mode content value, t.get (root / manifestFile) = some (.file mode content) ∧
    content.length ≤ maxManifestBytes ∧ jsonOf content = some value ∧
    matchesManifest generation value = true

theorem readManifest_yields (root : Path) (expected : String) (t : Tree) :
    (readManifest root expected).Yields machine
      (fun _ t' => t' = t ∧ Manifested t root expected) t := by
  refine yields_of_reads (readManifest_reads root expected) (Prog.yields_bind (Prog.Yields.mono
    (Q := fun v _ => ∃ mode content, t.get (root / manifestFile) = some (.file mode content) ∧
      content.length ≤ maxManifestBytes ∧ jsonOf content = some v) (Prog.yields_handle
    (Prog.yields_bind (Prog.yields_perform fun st t' h => ?_)) fun e t' => ?_) fun v t' h => ?_))
  · obtain ⟨rfl, o, ho, rfl⟩ := (Step.ok h).lstat
    split
    · exact Prog.yields_raise
    · rename_i hst
      obtain ⟨hkind, hsize⟩ := not_or.mp hst
      obtain ⟨mode, content, rfl⟩ := kind_statOf_regular.mp (not_not.mp hkind)
      refine (loadJson_yields _ t').mono fun v t'' ⟨_, mode', content', hfile, hv⟩ => ?_
      obtain ⟨rfl, rfl⟩ : mode = mode' ∧ content = content' := by
        simpa [ho] using hfile
      exact ⟨mode, content, ho, Nat.le_of_not_gt hsize, hv⟩
  · split
    · exact Prog.yields_raise
    · exact Prog.yields_ite (fun _ => Prog.yields_raise) fun _ => Prog.yields_raise
  · obtain ⟨mode, content, hfile, hsize, hv⟩ := h
    refine Prog.yields_ite (fun _ => Prog.yields_raise) fun hm => Prog.yields_ret ?_
    exact ⟨mode, content, v, hfile, hsize, hv, by simpa using hm⟩

/-- The directory of a generation. -/
abbrev generationPath (paths : InstancePaths) (generation : String) : Path :=
  paths.state / generationsDir / generation

/-- The pointer designates a complete generation. -/
structure Active (paths : InstancePaths) (t : Tree) (generation : String) : Prop where
  pointer : ∃ target, t.get (paths.state / currentLink) = some (.link target) ∧
    pointed target = some generation
  directory : ∃ mode, t.get (generationPath paths generation) = some (.dir mode)
  manifest : Manifested t (generationPath paths generation) generation

theorem isGeneration_of_pointed (h : pointed target = some generation) :
    isGeneration generation = true := by
  simp only [pointed] at h
  split at h
  · split at h
    · cases h
      exact (‹_ ∧ _›).2
    · cases h
  · cases h

theorem Active.isGeneration (h : Active paths t generation) :
    State.isGeneration generation = true :=
  let ⟨_, _, ht⟩ := h.pointer; isGeneration_of_pointed ht

/-- What the answer about the active generation says. -/
def ActiveAnswer (paths : InstancePaths) (t : Tree) : Option (Path × String) → Prop
  | none => t.get (paths.state / currentLink) = none
  | some (root, generation) => root = generationPath paths generation ∧ Active paths t generation

theorem activeGeneration_yields (paths : InstancePaths) (required : Bool) (t : Tree) :
    (activeGeneration paths required).Yields machine
      (fun active t' => t' = t ∧ ActiveAnswer paths t active ∧
        (required = true → active ≠ none)) t := by
  refine yields_of_reads (activeGeneration_reads paths required) (Prog.yields_bind
    ((lstatMissing_yields _ t).mono fun st t' ⟨ht, hst⟩ => ?_))
  subst ht hst
  split
  · rename_i hnone
    split
    · exact Prog.yields_bind_any fun present _ => by
        split <;> exact Prog.yields_bind Prog.yields_raise
    · rename_i hrequired
      exact Prog.yields_ret ⟨Option.map_eq_none_iff.mp hnone, fun h => absurd h hrequired⟩
  · rename_i st hsome
    split
    · exact Prog.yields_raise
    · refine Prog.yields_bind (Prog.yields_perform fun target t'' h => ?_)
      obtain ⟨rfl, htarget⟩ := (Step.ok h).readlink
      split
      · exact Prog.yields_raise
      · rename_i generation hp
        refine Prog.yields_bind ((lstatMissing_yields _ t'').mono fun st' t''' ⟨ht, hst'⟩ => ?_)
        subst ht hst'
        split
        · exact Prog.yields_raise
        · rename_i st' hroot
          split
          · exact Prog.yields_raise
          · rename_i hdir
            obtain ⟨o, ho, rfl⟩ := Option.map_eq_some_iff.mp hroot
            obtain ⟨mode, rfl⟩ := kind_statOf_directory.mp (not_not.mp hdir)
            refine Prog.yields_bind ((readManifest_yields _ _ t''').mono fun _ u ⟨_, hm⟩ => ?_)
            exact Prog.yields_ret ⟨⟨rfl, ⟨target, htarget, hp⟩, ⟨mode, ho⟩, hm⟩, fun _ => nofun⟩

/-! ## Cleaning -/

/-- At or below a child of `d` whose name is one of `P`. -/
def BelowChild (d : Path) (P : String → Prop) (q : Path) : Prop := ∃ n, P n ∧ (n :: d) <:+ q

theorem removeOwned_below (p : Path) : (removeOwned p).Only (Below p) :=
  ((lstatMissing_reads p).mono fun _ h => h.below).bind fun st => by
    split
    · simp
    · exact (rmtree_below p).ite perform_at

theorem suppressed_within {W : Path → Prop} (h : ∀ q, p <:+ q → W q) :
    (suppressOSError (removeOwned p)).Only (Within W d) :=
  suppressOSError_only ((removeOwned_below p).mono fun _ hop => hop.within h)

section
variable {W : Path → Prop} {paths : InstancePaths}

theorem reads_to_within {p : OsM α} (h : p.Only OsOp.Reads) : p.Only (Within W d) :=
  h.mono fun _ hop => hop.within

theorem cleanIncomplete_within
    (hs : ∀ q, BelowChild (paths.state / generationsDir) (isStaging · = true) q → W q)
    (ht : ∀ q, BelowChild paths.state (isTemporaryCurrent · = true) q → W q) :
    (cleanIncomplete paths).Only (Within W d) := by
  have htemporary : (do
      let names ← globCurrent paths.state
      Prog.forEach names fun name => do
        if !isTemporaryCurrent name then
          throw (.state s!"unexpected persistent-state object: {(paths.state / name).text}")
        suppressOSError (removeOwned (paths.state / name)) : OsM Unit).Only (Within W d) := by
    refine (reads_to_within (globCurrent_reads _)).bind fun names =>
      Prog.only_forEach (fun name => ?_) names
    split
    · simp
    · rename_i hname
      exact suppressed_within fun q hq => ht q ⟨name, by simpa using hname, hq⟩
  refine (reads_within).bind fun directory => ?_
  split
  · refine (reads_within).bind fun names => Prog.Only.bind (Prog.only_forEach (fun name => ?_) names)
      fun _ => htemporary
    split
    · exact suppressed_within fun q hq => hs q ⟨name, ‹_›, hq⟩
    · simp
  · exact htemporary

/-- The names of the generations that are not the active one. -/
def Unreferenced (d : Path) (active : Option Path) (name : String) : Prop :=
  isGeneration name = true ∧ some (d / name) ≠ active

theorem removeGenerations_within {active : Option Path}
    (h : ∀ q, BelowChild p (Unreferenced p active) q → W q) (names : List String) :
    (removeGenerations p active names).Only (Within W d) := by
  refine Prog.Only.bind (Prog.only_forEach (fun name => ?_) names) fun _ =>
    suppressOSError_only reads_within
  split
  · simp
  · rename_i hactive
    split
    · simp
    · rename_i hname
      exact suppressed_within fun q hq => h q ⟨name, ⟨by simpa using hname, hactive⟩, hq⟩

theorem cleanUnreferencedGenerations_within {active : Option Path}
    (h : ∀ q, BelowChild (paths.state / generationsDir)
      (Unreferenced (paths.state / generationsDir) active) q → W q) :
    (cleanUnreferencedGenerations paths active).Only (Within W d) := by
  refine (reads_within).bind fun directory => ?_
  split
  · exact (reads_within).bind fun names => removeGenerations_within h names
  · simp

theorem cleanOldGenerations_within (active : Path)
    (h : ∀ q, BelowChild (paths.state / generationsDir)
      (Unreferenced (paths.state / generationsDir) (some active)) q → W q) :
    (cleanOldGenerations paths active).Only (Within W d) :=
  (reads_within).bind fun names => removeGenerations_within h names

/-- One directory of the old layout. -/
def removeLegacy (paths : InstancePaths) (name : String) : OsM Unit := do
  match ← lstatMissing (paths.state / name) with
  | none => pure ()
  | some st =>
    if st.kind ≠ .directory then
      throw (.state
        s!"refusing to remove unexpected legacy-state object: {(paths.state / name).text}")
    removeOwned (paths.state / name)

theorem cleanLegacyState_eq : cleanLegacyState paths =
    (Prog.forEach legacyDataDirectories (removeLegacy paths)).bind fun _ =>
      fsyncDirectory paths.state := rfl

theorem cleanLegacyState_within
    (h : ∀ q, BelowChild paths.state (· ∈ legacyDataDirectories) q → W q) :
    (cleanLegacyState paths).Only (Within W d) := by
  rw [cleanLegacyState_eq]
  refine Prog.Only.bind ?_ fun _ => reads_within
  -- the two directories, one after the other
  have hone {name : String} (hname : name ∈ legacyDataDirectories) :
      (removeLegacy paths name).Only (Within W d) := by
    refine (reads_to_within (lstatMissing_reads _)).bind fun st => ?_
    split
    · simp
    · split
      · simp
      · exact (removeOwned_below _).mono fun _ hop => hop.within fun q hq => h q ⟨name, hname, hq⟩
  exact (hone (by simp [legacyDataDirectories])).bind fun _ =>
    (hone (by simp [legacyDataDirectories])).bind fun _ => Prog.only_ret

end

/-! ## What is clean -/

/-- What is owned and removed is gone. -/
theorem removeOwned_yields (p : Path) (t : Tree) : (removeOwned p).Yields machine
    (fun _ t' => ∀ l, t'.get (l ++ p) = none) t := by
  refine Prog.yields_bind ((lstatMissing_yields p t).mono fun st t' ⟨ht, hst⟩ => ?_)
  subst ht hst
  split
  · rename_i hnone
    exact Prog.yields_ret (Tree.get_below_eq_none (Option.map_eq_none_iff.mp hnone))
  · refine Prog.yields_ite (fun _ => rmtree_yields p t') fun _ =>
      Prog.yields_perform fun _ u h l => ?_
    have hget := (Step.ok h).unlink.2
    exact Tree.get_below_eq_none (by rw [hget, if_pos rfl]) l

/-- Removing a child leaves the other children. -/
theorem get_other_child {t t' : Tree} {d : Path} (h : ∀ q, ¬ (x :: d) <:+ q → t'.get q = t.get q)
    (hne : n ≠ x) : t'.get (n :: d) = t.get (n :: d) := by
  exact h _ (Path.not_below_sibling hne.symm [] d)

theorem keeps_of_below {p : OsM α} (h : p.Only (Below d)) (t : Tree) :
    p.Keeps machine fun t' => ∀ q, ¬ d <:+ q → t'.get q = t.get q :=
  keeps_of_avoids (h.mono fun _ hop => hop.avoids fun _ hq => hq) t

/-- The generations there are, or the active one. -/
def Referenced (d : Path) (active : Option Path) (name : String) : Prop :=
  isGeneration name = true ∨ some (d / name) = active

/-- When the cleaning of generations returns, it has met nothing unexpected. -/
theorem removeGenerations_yields {active : Option Path} {names : List String} {t : Tree}
    (h : ∀ n, t.get (n :: d) ≠ none → n ∈ names) :
    (removeGenerations d active names).Yields machine
      (fun _ t' => ∀ n, t'.get (n :: d) ≠ none → Referenced d active n) t := by
  refine Prog.yields_bind ((Prog.yields_forEach
    (fun names t => ∀ n, t.get (n :: d) ≠ none → Referenced d active n ∨ n ∈ names)
    (fun x xs t' hx => ?_) names t fun n hn => .inr (h n hn)).mono fun _ t' ht => ?_)
  · -- what is known of the name at hand, and of the others
    have hnext (hgood : Referenced d active x) {u : Tree}
        (hu : ∀ q, ¬ (x :: d) <:+ q → u.get q = t'.get q) (n : String)
        (hn : u.get (n :: d) ≠ none) : Referenced d active n ∨ n ∈ xs := by
      by_cases hne : n = x
      · exact .inl (hne ▸ hgood)
      · rw [get_other_child hu hne] at hn
        exact (hx n hn).imp_right fun hmem => (List.mem_cons.mp hmem).resolve_left hne
    split
    · exact Prog.yields_ret (hnext (.inr ‹_›) fun _ _ => rfl)
    · split
      · exact Prog.yields_bind Prog.yields_raise
      · rename_i hname
        have hgood : Referenced d active x := .inl (by simpa using hname)
        have hbelow := suppressOSError_only (removeOwned_below (x :: d))
        exact ((Prog.yields_trivial _ t').and_keeps (keeps_of_below hbelow t') fun _ _ => rfl).mono
          fun _ u ⟨_, hu⟩ => hnext hgood hu
  · refine ((Prog.yields_trivial _ t').and_keeps (keeps_of_reads (suppressOSError_only reads_only)
      t') rfl).mono fun _ u ⟨_, hu⟩ n hn => ?_
    subst hu
    exact (ht n hn).resolve_right List.not_mem_nil

/-- When the legacy cleaning returns, nothing of the legacy state is left. -/
theorem cleanLegacyState_yields (paths : InstancePaths) (t : Tree) :
    (cleanLegacyState paths).Yields machine (fun _ t' => ∀ name ∈ legacyDataDirectories,
      ∀ l, t'.get (l ++ paths.state / name) = none) t := by
  refine Prog.yields_bind ((Prog.yields_forEach (fun names t' => ∀ name ∈ legacyDataDirectories,
    name ∉ names → t'.get (paths.state / name) = none) (fun x xs t' hx => ?_)
    legacyDataDirectories t fun _ h h' => absurd h h').mono fun _ t' ht => ?_)
  · have hnext {u : Tree} (hgone : u.get (paths.state / x) = none)
        (hu : ∀ q, ¬ (paths.state / x) <:+ q → u.get q = t'.get q) :
        ∀ name ∈ legacyDataDirectories, name ∉ xs → u.get (paths.state / name) = none := by
      intro name hname hxs
      by_cases hne : name = x
      · exact hne ▸ hgone
      · exact (get_other_child hu hne).trans (hx name hname (by simp [hne, hxs]))
    refine Prog.yields_bind ((lstatMissing_yields _ t').mono fun st t'' ⟨h, hst⟩ => ?_)
    subst h hst
    split
    · exact Prog.yields_ret (hnext (Option.map_eq_none_iff.mp ‹_›) fun _ _ => rfl)
    · split
      · exact Prog.yields_bind Prog.yields_raise
      · exact ((removeOwned_yields _ t'').and_keeps (keeps_of_below (removeOwned_below _) t'')
          fun _ _ => rfl).mono fun _ u ⟨hgone, hu⟩ => hnext (hgone []) hu
  · refine Prog.yields_perform fun _ u h name hname => ?_
    obtain ⟨rfl, -⟩ := Step.ok h
    exact Tree.get_below_eq_none (ht name hname List.not_mem_nil)

/-! ## Cleaning where nothing fails -/

theorem lstatMissing_succeeds (p : Path) (t : Tree) : (lstatMissing p).Succeeds reliable
    (fun st t' => t' = t ∧ st = (t.get p).map statOf) t := by
  refine Prog.wp_handle.mpr (Prog.wp_bind.mpr (Prog.wp_perform.mpr ⟨trivial, fun r t' h =>
    ⟨trivial, ?_⟩⟩))
  obtain ⟨rfl, hr⟩ := h
  split at hr
  · rename_i o ho
    subst hr
    exact ⟨trivial, _, rfl, rfl, by simp [ho]⟩
  · rename_i hnone
    subst hr
    exact ⟨trivial, none, rfl, rfl, by simp [hnone]⟩

/-- What is owned can be removed. -/
theorem removeOwned_succeeds (p : Path) (t : Tree) : (removeOwned p).Succeeds reliable
    (fun _ t' => ∀ q, t'.get q = if p <:+ q then none else t.get q) t := by
  refine Prog.succeeds_bind ((lstatMissing_succeeds p t).mono fun st t' ⟨ht, hst⟩ => ?_)
  subst ht hst
  cases ho : t'.get p with
  | none =>
    refine Prog.succeeds_ret fun q => ?_
    split
    · rename_i hq
      obtain ⟨l, rfl⟩ := hq
      exact Tree.get_below_eq_none ho l
    · rfl
  | some o =>
    refine Prog.succeeds_ite (fun hk => ?_) fun hk => ?_
    · obtain ⟨m, rfl⟩ := kind_statOf_directory.mp hk
      exact rmtree_succeeds ho
    · have hfile : o.isDir = false := by
        by_contra hd
        exact hk (kind_statOf_directory.mpr (Obj.isDir_iff.mp (by simpa using hd)))
      refine (unlink_succeeds ho hfile).mono fun _ u hu q => ?_
      rw [hu]
      by_cases hq : p <:+ q
      · obtain ⟨l, rfl⟩ := hq
        rw [if_pos (List.suffix_append l _)]
        by_cases hl : l = []
        · simp [hl]
        · have hne : l ++ p ≠ p := fun he => hl (List.self_eq_append_left.mp he.symm)
          rw [if_neg hne, get_below_of_not_dir ho hfile hl]
      · have hne : q ≠ p := fun he => hq (he ▸ List.suffix_rfl)
        rw [if_neg hne, if_neg hq]

/-- Where nothing fails, only the active generation is left. -/
theorem removeGenerations_reliable {active : Option Path} {d : Path} {names : List String} {t : Tree}
    (h : ∀ n, t.get (n :: d) ≠ none → n ∈ names) :
    (removeGenerations d active names).Yields reliable
      (fun _ t' => ∀ n, t'.get (n :: d) ≠ none → some (d / n) = active) t := by
  refine Prog.yields_bind ((Prog.yields_forEach
    (fun names t => ∀ n, t.get (n :: d) ≠ none → some (d / n) = active ∨ n ∈ names)
    (fun x xs t' hx => ?_) names t fun n hn => .inr (h n hn)).mono fun _ t' ht => ?_)
  · split
    · refine Prog.yields_ret fun n hn => (hx n hn).elim .inl fun hmem => ?_
      rcases List.mem_cons.mp hmem with rfl | hmem
      · exact .inl ‹_›
      · exact .inr hmem
    · split
      · exact Prog.yields_bind Prog.yields_raise
      · refine (Prog.succeeds_handle (removeOwned_succeeds (d / x) t')).yields.mono
          fun _ u hu n hn => ?_
        rw [hu] at hn
        split at hn
        · exact absurd rfl hn
        · rename_i hne
          refine (hx n hn).imp_right fun hmem => (List.mem_cons.mp hmem).resolve_left fun he => ?_
          exact hne (he ▸ List.suffix_rfl)
  · refine (Prog.Yields.and_keeps (Prog.yields_trivial _ t') (I := fun u => u = t') ?_ rfl).mono
      fun _ u ⟨_, hu⟩ n hn => ?_
    · intro u hu
      exact reliable_of_machine (keeps_of_reads (suppressOSError_only reads_only) t' u hu)
    · subst hu
      exact (ht n hn).resolve_right List.not_mem_nil

theorem cleanUnreferencedGenerations_reliable (paths : InstancePaths) (active : Option Path)
    (t : Tree) : (cleanUnreferencedGenerations paths active).Yields reliable
      (fun _ t' => ∀ n : String, t'.get (paths.state / generationsDir / n) ≠ none →
        some (paths.state / generationsDir / n) = active) t := by
  refine Prog.yields_bind (Prog.yields_perform fun directory t' h => ?_)
  obtain ⟨rfl, hdirectory⟩ := h
  split
  · refine Prog.yields_bind (Prog.yields_perform fun names t'' h' => ?_)
    obtain ⟨rfl, -, hperm⟩ := (Step.ok (reliable_refines _ _ _ _ h')).listdir
    exact removeGenerations_reliable fun n hn => hperm.mem_iff.mpr (Tree.mem_names.mpr hn)
  · refine Prog.yields_ret fun n hn => ?_
    obtain ⟨m, hm⟩ := Tree.dir_of_child hn
    simp [follow, hm, Obj.isDir] at hdirectory
    contradiction

theorem cleanOldGenerations_reliable (paths : InstancePaths) (active : Path) (t : Tree) :
    (cleanOldGenerations paths active).Yields reliable
      (fun _ t' => ∀ n : String, t'.get (paths.state / generationsDir / n) ≠ none →
        paths.state / generationsDir / n = active) t := by
  refine Prog.yields_bind (Prog.yields_perform fun names t'' h' => ?_)
  obtain ⟨rfl, -, hperm⟩ := (Step.ok (reliable_refines _ _ _ _ h')).listdir
  exact (removeGenerations_reliable fun n hn => hperm.mem_iff.mpr (Tree.mem_names.mpr hn)).mono
    fun _ _ hu n hn => Option.some.inj (hu n hn)

end State
end ShuttleGate
