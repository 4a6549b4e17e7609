import ShuttleGate.State.Run

/-! # After a publication

Where nothing fails, what has been published is found again and accepted, and what it replaces is
removed. -/

namespace ShuttleGate

open Fs Effect Os Files

namespace State

/-! ## The manifest that is written is the manifest that is read -/

theorem manifest_wellFormed (g : String) : (manifest g).WellFormed := by
  simp [manifest, Json.WellFormed, Json.FieldsWellFormed]

theorem sortKeys_manifest (g : String) : (manifest g).sortKeys = manifest g := by
  have h : "generation" ≤ "schema_version" := by decide
  simp [manifest, Json.sortKeys, Json.sortFields, List.insertionSort, h]

theorem matchesManifest_manifest (g : String) : matchesManifest g (manifest g) = true := by
  simp [matchesManifest, manifest, isOne, List.lookup_cons]

theorem length_of_isGeneration (h : isGeneration g = true) : g.length = 36 := by
  obtain ⟨-, hlen, -⟩ := of_decide_eq_true h
  rw [List.length_drop, String.length_toList] at hlen
  have : "gen-".length = 4 := by decide
  omega

theorem length_manifest (h : isGeneration g = true) :
    (encodeUtf8 (jsonText (manifest g))).length ≤ maxManifestBytes := by
  have hname := Json.length_strChars_le g
  rw [length_of_isGeneration h] at hname
  have hkeys : (Json.strChars "generation").length = 12 ∧
      (Json.strChars "schema_version").length = 16 := by decide
  have hone : (Nat.toDigits 10 1).length = 1 := by decide
  have hnewline : "\n".length = 1 := by decide
  rw [length_jsonText (manifest_wellFormed g), jsonText, Json.dumps, sortKeys_manifest,
    String.length_append, String.length_ofList]
  simp only [manifest, Json.chars, Json.fieldsChars, Json.intChars, Json.Style.newline,
    Json.Style.colon, Json.Style.comma, List.length_append, List.length_cons, List.length_nil,
    List.length_replicate, maxManifestBytes]
  omega

section
variable {paths : InstancePaths} {t t₀ : Tree}

theorem manifested_of_finished {root : Path} {data : Path → Option Obj}
    (hg : isGeneration g = true) (h : dataAt t root = finished g data) : Manifested t root g := by
  refine ⟨0o600, _, manifest g, congrFun h [manifestFile], length_manifest hg, ?_,
    matchesManifest_manifest g⟩
  rw [jsonOf_jsonText (manifest_wellFormed g), sortKeys_manifest]

/-- A published generation is complete. -/
theorem Published.active {c : Call α} (h : Published c paths t₀ a uid t) :
    Active paths t ("gen-" ++ uid) := by
  have hg := isGeneration_uuid h.unique
  obtain ⟨_, _, _, -, hdata⟩ := h.stages
  exact ⟨⟨_, h.pointer, pointed_pointerTo hg⟩, ⟨0o700, congrFun hdata []⟩,
    manifested_of_finished hg hdata⟩

/-! ## Reading where nothing fails -/

theorem suppressOSError_succeeds {p : OsM Unit} {Q : Tree → Prop}
    (h : p.wp reliable (fun _ => True) (fun r u => (∀ e, r = .error e → e.isOSError = true) ∧ Q u) t) :
    (suppressOSError p).Succeeds reliable (fun _ => Q) t := by
  refine Prog.wp_handle.mpr (h.post fun r u _ ⟨hr, hq⟩ => ?_)
  cases r with
  | ok _ => exact ⟨(), rfl, hq⟩
  | error e =>
    simp only [Prog.onError_error, hr e rfl, if_true]
    exact Prog.succeeds_ret hq

theorem suppressed_fsync_succeeds (p : Path) : (suppressOSError (fsyncDirectory p)).Succeeds reliable
    (fun _ u => u = t) t := by
  refine suppressOSError_succeeds (Prog.wp_perform.mpr ⟨trivial, fun r u ⟨hu, hr⟩ => ⟨trivial, ?_, hu⟩⟩)
  intro e he
  subst he
  split at hr
  · cases hr
    rfl
  · cases hr

theorem loadJson_succeeds {p : Path} (h : t.get p = some (.file m content))
    (hv : jsonOf content = some v) :
    (loadJson p).Succeeds reliable (fun w u => u = t ∧ w = v) t := by
  obtain ⟨s, hs, hl⟩ := Option.bind_eq_some_iff.mp hv
  refine Prog.succeeds_bind (Prog.succeeds_bind ((read_succeeds h).mono fun c u ⟨hu, hc⟩ => ?_))
  subst hu hc
  simp only [hs]
  refine Prog.succeeds_ret ?_
  simp only [hl]
  exact Prog.succeeds_ret ⟨rfl, rfl⟩

theorem readManifest_succeeds {root : Path} {g : String} (h : Manifested t root g) :
    (readManifest root g).Succeeds reliable (fun _ u => u = t) t := by
  obtain ⟨m, content, v, hfile, hlen, hv, hg⟩ := h
  refine Prog.succeeds_bind (Prog.Succeeds.mono (Q := fun w u => u = t ∧ w = v)
    (Prog.succeeds_handle (Prog.succeeds_bind ((lstat_succeeds hfile).mono fun st u ⟨hu, hst⟩ => ?_)))
    fun w u ⟨hu, hw⟩ => ?_)
  · subst hu hst
    refine Prog.succeeds_ite (fun hbad => ?_) fun _ => loadJson_succeeds hfile hv
    exact absurd hbad (not_or.mpr ⟨by simp, Nat.not_lt.mpr hlen⟩)
  · subst hu hw
    refine Prog.succeeds_ite (fun hbad => ?_) fun _ => Prog.succeeds_ret rfl
    simp [hg] at hbad

theorem activeGeneration_succeeds {paths : InstancePaths} {required : Bool}
    (h : Active paths t g) : (activeGeneration paths required).Succeeds reliable
      (fun active u => u = t ∧ active = some (generationPath paths g, g)) t := by
  obtain ⟨⟨target, htarget, hp⟩, ⟨mode, hdir⟩, hm⟩ := h
  refine Prog.succeeds_bind ((lstatMissing_succeeds _ t).mono fun st u ⟨hu, hst⟩ => ?_)
  subst hu
  rw [htarget] at hst
  subst hst
  refine Prog.succeeds_ite (fun hbad => absurd rfl hbad) fun _ => Prog.succeeds_bind
    ((readlink_succeeds htarget).mono fun s v ⟨hv, hs⟩ => ?_)
  subst hv hs
  simp only [hp]
  refine Prog.succeeds_bind ((lstatMissing_succeeds _ v).mono fun st w ⟨hw, hst⟩ => ?_)
  subst hw
  rw [hdir] at hst
  subst hst
  refine Prog.succeeds_ite (fun hbad => absurd rfl hbad) fun _ => Prog.succeeds_bind
    ((readManifest_succeeds hm).mono fun _ x hx => ?_)
  exact Prog.succeeds_ret ⟨hx, rfl⟩

theorem removeGenerations_succeeds {active : Option Path} {d : Path} {names : List String}
    (h : ∀ n ∈ names, Referenced d active n) :
    (removeGenerations d active names).Succeeds reliable (fun _ _ => True) t := by
  refine Prog.succeeds_bind ((Prog.succeeds_forEach (fun names _ => ∀ n ∈ names, Referenced d active n)
    (fun x xs u hx => ?_) names t h).mono fun _ u _ =>
      (suppressed_fsync_succeeds (t := u) d).mono fun _ _ _ => trivial)
  have hrest : ∀ n ∈ xs, Referenced d active n := fun n hn => hx n (List.mem_cons_of_mem x hn)
  refine Prog.succeeds_ite (fun _ => Prog.succeeds_ret hrest) fun hne => ?_
  have hname : isGeneration x = true := (hx x List.mem_cons_self).resolve_right hne
  simp only [hname, Bool.not_true, Bool.false_eq_true, if_false]
  exact (Prog.succeeds_handle (removeOwned_succeeds _ u)).mono fun _ _ _ => hrest

theorem cleanOldGenerations_succeeds {paths : InstancePaths} {active : Path} {m : Nat}
    (hdir : t.get (paths.state / generationsDir) = some (.dir m))
    (h : ∀ n, t.get (n :: paths.state / generationsDir) ≠ none →
      Referenced (paths.state / generationsDir) (some active) n) :
    (cleanOldGenerations paths active).Succeeds reliable (fun _ _ => True) t := by
  refine Prog.succeeds_bind ((listdir_succeeds hdir).mono fun names u ⟨hu, hperm⟩ => ?_)
  subst hu
  exact removeGenerations_succeeds fun n hn => h n (Tree.mem_names.mp (hperm.mem_iff.mp hn))

theorem cleanLegacyState_succeeds {paths : InstancePaths} (hstate : t.get paths.state ≠ none)
    (h : LegacyDirectories paths t) :
    (cleanLegacyState paths).Succeeds reliable (fun _ _ => True) t := by
  -- what is left to be met is as it was
  refine Prog.succeeds_bind ((Prog.succeeds_forEach (fun names u => names ⊆ legacyDataDirectories ∧
    LegacyDirectories paths u ∧ u.get paths.state ≠ none) (fun x xs u ⟨hxs, hu, hs⟩ => ?_)
    legacyDataDirectories t ⟨fun _ => id, h, hstate⟩).mono fun _ u ⟨_, _, hs⟩ =>
      (fsync_succeeds hs).mono fun _ _ _ => trivial)
  have hsub : xs ⊆ legacyDataDirectories := fun _ hn => hxs (List.mem_cons_of_mem x hn)
  refine Prog.succeeds_bind ((lstatMissing_succeeds _ u).mono fun st v ⟨hv, hst⟩ => ?_)
  subst hv hst
  cases ho : v.get (paths.state / x) with
  | none => exact Prog.succeeds_ret ⟨hsub, hu, hs⟩
  | some o =>
    obtain ⟨m, rfl⟩ := Obj.isDir_iff.mp (hu x (hxs List.mem_cons_self) o ho)
    refine Prog.succeeds_ite (fun hbad => absurd rfl hbad) fun _ =>
      (removeOwned_succeeds _ v).mono fun _ w hw => ⟨hsub, fun n hn o ho => ?_, ?_⟩
    · rw [hw] at ho
      split at ho
      · cases ho
      · exact hu n hn o ho
    · have hnot : ¬ (paths.state / x) <:+ paths.state := Path.not_below_parent x paths.state
      rw [hw, if_neg hnot]
      exact hs

/-! ## The end of a call -/

/-- Whether the validator accepts a generation depends on its objects alone, and not on the
manifest or on the permissions of its directory. -/
def Call.DependsOnData (c : Call α) (paths : InstancePaths) : Prop :=
  ∀ t t' d d', (∀ l, l ≠ [] → l ≠ [manifestFile] → dataAt t d l = dataAt t' d' l) →
    ∀ r r' u u', (c.validator (paths.withData d)).Returns reliable t r u →
      (c.validator (paths.withData d')).Returns reliable t' r' u' → (r = .ok () ↔ r' = .ok ())

/-- What the validator has accepted before the publication it accepts again. -/
theorem Made.validated {c : Call α} (hc : c.DependsOnData paths)
    (h : Made reliable c paths active uid t₀ a t) :
    (c.validator (paths.withData (generationPath paths ("gen-" ++ uid)))).Succeeds reliable
      (fun _ u => u = t) t := by
  obtain ⟨-, _, _, s, hs, hswitched⟩ := h
  have hreads := reliable_of_machine (keeps_of_reads (c.validator_reads
    (paths.withData (generationPath paths ("gen-" ++ uid)))) t t rfl)
  refine ((Prog.wp_runs _ t).and hreads).mono (fun _ _ => trivial) fun r u _ ⟨hr, hu⟩ =>
    ⟨(), (hc s t _ _ (fun l hl hm => ?_) _ _ _ _ hs.validated hr).mp rfl, hu⟩
  rw [hswitched.data, finished, if_neg hl, if_neg hm]

theorem verify_succeeds {c : Call α} (h : Active paths t g)
    (hv : (c.validator (paths.withData (generationPath paths g))).Succeeds reliable
      (fun _ u => u = t) t) :
    (verify paths c.validator (generationPath paths g)).Succeeds reliable (fun _ u => u = t) t := by
  refine Prog.succeeds_bind ((activeGeneration_succeeds h).mono fun active u ⟨hu, hactive⟩ => ?_)
  subst hu hactive
  exact Prog.succeeds_ite (fun hne => absurd rfl hne) fun _ => hv

/-- The generations there are once a new one is active. -/
theorem Made.children {c : Call α} (h : Made M c paths (designated paths t₀) uid t a u)
    (hclean : Cleaned paths (fun active n => some (paths.state / generationsDir / n) = active)
      t₀ uid t) (n : String) (hn : u.get (paths.state / generationsDir / n) ≠ none) :
    Referenced (paths.state / generationsDir) (some (generationPath paths ("gen-" ++ uid))) n := by
  obtain ⟨-, _, _, _, -, hs⟩ := h
  by_cases hnew : n = "gen-" ++ uid
  · exact .inr (congrArg _ (congrArg (paths.state / generationsDir / ·) hnew))
  by_cases hstaging : n = ".staging-" ++ uid
  · exact absurd (hstaging ▸ hs.moved []) hn
  have hsame : u.get (paths.state / generationsDir / n) = t.get (paths.state / generationsDir / n) := by
    refine hs.kept _ (fun hw => ?_) fun hc => ?_
    · rcases hw with hw | hw
      · exact (belowChild_append (l := []).mp hw).elim hstaging hnew
      · have := (belowChild_append (l := [n]) (n := generationsDir)).mp hw
        exact link_ne_generations this.symm
    · exact Path.not_below_sibling (n := generationsDir) (by decide) [n] paths.state hc
  obtain ⟨g, hg, heq⟩ := Option.map_eq_some_iff.mp (hclean.children n (hsame ▸ hn)).symm
  have hgn : g = n := (List.cons.inj heq).1
  exact .inl (hgn ▸ isGeneration_of_designated hg)

/-- After a publication the legacy state is still what it was. -/
theorem Made.legacyKept {c : Call α} (h : Made M c paths active uid t a u) (hu : IsUuid uid) :
    LegacyKept paths t u := by
  obtain ⟨-, _, _, _, -, hs⟩ := h
  refine legacyKept_of fun n l hn hcurrent _ htemporary => hs.kept _ (fun hw => ?_) ?_
  · have hscratch : Scratch paths (none : Option String) _ := work_scratch hu nofun nofun hw
    exact not_scratch_state hn htemporary l hscratch
  · exact Path.not_below_sibling hcurrent.symm l paths.state

/-- Where nothing fails, a publication is found again and the old generations are removed; what
becomes of the call is up to the legacy state. -/
theorem finish_rule {c : Call α} {Q : Except Exn α → Tree → Prop} (hc : c.DependsOnData paths)
    (hclean : Cleaned paths (fun active n => some (paths.state / generationsDir / n) = active)
      t₀ uid t) (h : Made reliable c paths (designated paths t₀) uid t a u)
    (hlegacy : ∀ v, LegacyKept paths t v → v.get paths.state ≠ none →
      ((cleanLegacyState paths).bind fun _ => (Prog.ret a : OsM α)).wp reliable (fun _ => True) Q v) :
    (finish paths c.validator (stagingPath paths uid) (generationPath paths ("gen-" ++ uid)) a).wp
      reliable (fun _ => True) Q u := by
  have hactive := (h.published reliable_refines hclean).active
  have hchildren := h.children hclean
  have hkept := h.legacyKept hclean.unique
  have hverified := Prog.succeeds_handle (h := fun e => (rollback paths (stagingPath paths uid)
    (some (generationPath paths ("gen-" ++ uid)))).bind fun _ => Prog.raise e)
    (verify_succeeds hactive (h.validated hc))
  refine Prog.wp_bind.mpr (hverified.post fun r v _ ⟨_, hr, hv⟩ => ?_)
  subst hr hv
  obtain ⟨_, hdir⟩ := hactive.directory
  obtain ⟨m, hgenerations⟩ := Tree.dir_of_child (show v.get (generationPath paths ("gen-" ++ uid)) ≠ none by
    rw [hdir]; nofun)
  have hthere : v.get paths.state ≠ none := fun hn => by
    have := Tree.get_below_eq_none hn [generationsDir]
    cases this.symm.trans hgenerations
  -- neither the legacy state nor its directory is among the generations
  have hframe := kept_of_within (W := BelowChild (paths.state / generationsDir) fun _ => True)
    (cleanOldGenerations_within (generationPath paths ("gen-" ++ uid)) (d := paths.state)
      fun q ⟨n, _, hq⟩ => ⟨n, trivial, hq⟩) hthere
  refine Prog.wp_bind.mpr (((cleanOldGenerations_succeeds hgenerations hchildren).and_keeps
    (fun x hx => reliable_of_machine (hframe x hx)) .refl).post fun r w _ ⟨_, hr, _, hw⟩ => ?_)
  subst hr
  refine hlegacy w (hkept.trans (legacyKept_of fun n l hn _ _ _ => ?_)) ?_
  · exact hw _ (not_belowChild_sibling hn.symm)
  · have hnot : ¬ BelowChild (paths.state / generationsDir) (fun _ => True) paths.state :=
      fun ⟨n, _, hs⟩ => by
        have := hs.length_le
        simp only [Path.div_def, List.length_cons] at this
        omega
    rw [hw _ hnot]
    exact hthere

theorem LegacyKept.directories_iff (h : LegacyKept paths t u) :
    LegacyDirectories paths u ↔ LegacyDirectories paths t :=
  ⟨LegacyKept.directories fun name hname => (h name hname).symm, h.directories⟩

/-- A legacy object that is no directory is refused, wherever it is met. -/
theorem cleanLegacyState_refuses (h : ¬ LegacyDirectories paths t) :
    (cleanLegacyState paths).wp reliable (fun _ => True) (fun r _ => ∃ m, r = .error (.state m)) t := by
  -- what has not been met yet holds the object
  have hloop : (Prog.forEach legacyDataDirectories (removeLegacy paths)).wp reliable (fun _ => True)
      (fun r _ => ∃ m, r = .error (.state m)) t := by
    refine Prog.wp_forEach (fun names u => names.Nodup ∧ ∃ name ∈ names, ∃ o,
      u.get (paths.state / name) = some o ∧ o.isDir = false) ?_ ?_ _ t ⟨by decide, ?_⟩
    · rintro u ⟨-, _, hn, -⟩
      cases hn
    · rintro x xs u ⟨hnodup, name, hname, o, ho, hdir⟩
      obtain ⟨hx, hnodup⟩ := List.nodup_cons.mp hnodup
      refine Prog.wp_bind.mpr ((lstatMissing_succeeds _ u).post fun r v _ hfound => ?_)
      obtain ⟨st, hr, hv, hst⟩ := hfound
      subst hr hv hst
      by_cases hne : name = x
      · subst hne
        rw [ho]
        have hkind : (statOf o).kind ≠ .directory := fun hk => by
          obtain ⟨m, rfl⟩ := kind_statOf_directory.mp hk
          cases hdir
        simp only [Prog.onOk_ok, Option.map_some, if_pos hkind]
        exact ⟨trivial, _, rfl⟩
      · have hxs : name ∈ xs := (List.mem_cons.mp hname).resolve_left hne
        cases hfound : v.get (paths.state / x) with
        | none => exact ⟨trivial, hnodup, name, hxs, o, ho, hdir⟩
        | some o' =>
          simp only [Prog.onOk_ok, Option.map_some]
          split
          · exact ⟨trivial, _, rfl⟩
          · refine (removeOwned_succeeds _ v).post fun r w _ hremoved => ?_
            obtain ⟨_, hr, hw⟩ := hremoved
            subst hr
            refine ⟨hnodup, name, hxs, o, ?_, hdir⟩
            exact (get_other_child (d := paths.state) (fun q hq => (hw q).trans (if_neg hq)) hne).trans ho
    · simp only [LegacyDirectories, not_forall] at h
      obtain ⟨name, hname, o, ho, hdir⟩ := h
      exact ⟨name, hname, o, ho, eq_false_of_ne_true hdir⟩
  rw [cleanLegacyState_eq]
  refine Prog.wp_bind.mpr (hloop.post fun r u _ hrefused => ?_)
  obtain ⟨m, rfl⟩ := hrefused
  exact ⟨m, rfl⟩

end

end State
end ShuttleGate
