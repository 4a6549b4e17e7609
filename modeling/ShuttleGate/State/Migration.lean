import ShuttleGate.State.Run

/-! # Sessions of calls, and the migration of the legacy state

Calls of `mutate_state` one after the other, each stopped anywhere. A file of the legacy state is
at its old path until the first publication and in the active generation from then on. -/

namespace ShuttleGate

open Fs Effect Os Files

namespace State

/-! ## Sessions -/

/-- Calls one after the other, each satisfying `P` and each stopped somewhere, at its end or
before it: a process that is killed gives its lock back. -/
inductive Session (paths : InstancePaths) (P : (α : Type) → Call α → Prop) (t₀ : Tree) :
    Tree → Prop
  | start : Session paths P t₀ t₀
  | call {α : Type} (c : Call α) {t u : Tree} (h : Session paths P t₀ t) (hc : P α c)
      (hv : (c.run paths).Visits machine t u) : Session paths P t₀ u

/-- What every call keeps wherever it is stopped holds in the whole session. -/
theorem Session.invariant {paths : InstancePaths} {P : (α : Type) → Call α → Prop}
    {J : Tree → Prop} (hstart : J t₀)
    (hcall : ∀ {α : Type} (c : Call α) t u, P α c → J t → Settled c paths t u → J u)
    (h : Session paths P t₀ t) : J t := by
  induction h with
  | start => exact hstart
  | call c _ hc hv ih => exact hcall c _ _ hc ih ((run_wp c paths _).visits hv)

/-! ## What is left when nothing fails -/

section
variable {paths : InstancePaths} {t : Tree}

/-- `generations/` holds the active generation and nothing else. -/
def Clean (paths : InstancePaths) (t : Tree) : Prop :=
  ∀ n, t.get (paths.state / generationsDir / n) ≠ none → designated paths t = some n

theorem Published.designated {c : Call α} (h : Published c paths t₀ a uid t) :
    State.designated paths t = some ("gen-" ++ uid) := by
  rw [State.designated, h.pointer]
  exact pointed_pointerTo (isGeneration_uuid h.unique)

/-- A call that returns leaves the active generation alone in its directory. -/
theorem run_clean (c : Call α) (paths : InstancePaths) (t : Tree) :
    (c.run paths).wp reliable (fun _ => True) (fun r u => ∀ a, r = .ok a → Clean paths u) t := by
  refine run_rule reliable_refines c (fun _ _ => trivial) (fun _ _ _ => nofun)
    (fun _ _ _ _ _ => nofun) fun t₁ ht₁ _ => ?_
  refine mutateLocked_rule (P := fun active n => some (paths.state / generationsDir / n) = active)
    reliable_refines c (cleanUnreferencedGenerations_reliable paths) (fun _ _ => trivial)
    (fun _ _ _ => nofun) (fun a u hu hchildren b _ n hn => ?_) (fun a uid u v hclean hv => ⟨trivial, ?_⟩)
    fun e a uid u v hclean hv hstep => ?_
  · obtain ⟨g, hg, heq⟩ := Option.map_eq_some_iff.mp (hchildren n hn).symm
    rw [hu.designated, hg, (List.cons.inj heq).1]
  · -- the old generations go last but for the legacy state
    have hold : (finish paths c.validator (stagingPath paths uid)
        (generationPath paths ("gen-" ++ uid)) a).Yields reliable (fun _ w => ∀ n : String,
          w.get (paths.state / generationsDir / n) ≠ none → n = "gen-" ++ uid) v := by
      refine Prog.yields_bind_any fun _ v => Prog.yields_bind
        ((cleanOldGenerations_reliable paths _ v).mono fun _ w hw => ?_)
      have hkeeps : (cleanLegacyState paths).Keeps machine fun x =>
          ∀ q, (∃ n : String, q = paths.state / generationsDir / n) → x.get q = w.get q := by
        refine keeps_of_avoids ((cleanLegacyState_within (d := []) fun _ => id).mono
          fun op hop q ⟨n, hq⟩ ht => ?_) w
        subst hq
        rcases hop _ ht with hl | ⟨-, hs⟩
        · exact absurd ((belowChild_append (l := [n]) (n := generationsDir)).mp hl) (by decide)
        · exact absurd (List.suffix_nil.mp hs) (List.cons_ne_nil _ _)
      refine Prog.yields_bind ((Prog.Yields.and_keeps (Prog.yields_trivial _ w)
        (fun x hx => reliable_of_machine (hkeeps x hx)) fun _ _ => rfl).mono fun _ x ⟨_, hx⟩ =>
          Prog.yields_ret fun n hn => ?_)
      rw [hx _ ⟨n, rfl⟩] at hn
      exact (List.cons.inj (hw n hn)).1
    refine ((reliable_of_machine (finish_wp c (hv.published reliable_refines hclean))).and hold).mono
      (fun _ _ => trivial) fun r w _ hw b hb n hn => ?_
    rw [hw.1.1.designated, hw.2 b hb n hn]
  · refine (Prog.wp_trivial _ v).post fun r w _ _ => ?_
    cases r with
    | ok _ => exact ⟨trivial, nofun⟩
    | error e' => exact nofun

end

/-! ## Migration -/

section
variable {paths : InstancePaths} {t u : Tree}

/-- Whenever the mutator returns, the object at a place of its directory is the one it was given. -/
def Call.Leaves (c : Call α) (paths : InstancePaths) (l : Path) : Prop :=
  ∀ uid t a t', (c.mutator (paths.withData (stagingPath paths uid))).Returns machine t (.ok a) t' →
    t'.get (l ++ stagingPath paths uid) = t.get (l ++ stagingPath paths uid)

/-- An object of the legacy state is at its legacy path, or in the active generation once there is
one. -/
def Held (paths : InstancePaths) (l : Path) (o : Obj) (t : Tree) : Prop :=
  match designated paths t with
  | none => t.get (l ++ paths.state) = some o
  | some g => t.get (l ++ generationPath paths g) = some o

/-- What a new generation starts from has the object. -/
theorem Held.base {l : Path} {name : String} (hname : name ∈ legacyDataDirectories)
    (h : Held paths (l ++ [name]) o t) :
    base paths t (designated paths t) (l ++ [name]) = some o := by
  unfold Held at h
  cases hd : designated paths t with
  | none =>
    rw [hd] at h
    simpa [State.base, migrated, hname] using h
  | some g =>
    have hmanifest : name ≠ manifestFile := by
      simp only [legacyDataDirectories, List.mem_cons, List.not_mem_nil, or_false] at hname
      rcases hname with rfl | rfl <;> decide
    rw [hd] at h
    simpa [State.base, State.copied, hmanifest] using h

/-- A new generation has the objects of the old one that its mutator leaves alone. -/
theorem Published.holds {c : Call α} {l : Path} {name : String}
    (hname : name ∈ legacyDataDirectories) (hc : c.Leaves paths (l ++ [name]))
    (h : Held paths (l ++ [name]) o t) (hp : Published c paths t a uid u) :
    u.get (l ++ [name] ++ generationPath paths ("gen-" ++ uid)) = some o := by
  obtain ⟨-, -, ⟨t₁, t₂, t₃, hs, hdata⟩, -⟩ := hp
  have hne : name ≠ manifestFile ∧ name ≠ "operations" := by
    simp only [legacyDataDirectories, List.mem_cons, List.not_mem_nil, or_false] at hname
    rcases hname with rfl | rfl <;> decide
  have hmanifest : l ++ [name] ≠ [manifestFile] := fun he => by
    have := congrArg List.getLast? he
    simp only [List.getLast?_concat, List.getLast?_singleton, Option.some.injEq] at this
    exact hne.1 this
  have h₁ : t₁.get (l ++ [name] ++ stagingPath paths uid) = some o :=
    (congrFun hs.copied (l ++ [name])).trans (h.base hname)
  have h₂ : t₂.get (l ++ [name] ++ stagingPath paths uid) = some o :=
    (hc uid t₁ a t₂ hs.mutated).trans h₁
  -- neither the receipt nor the manifest is where the object is
  have h₃ : t₃.get (l ++ [name] ++ stagingPath paths uid) = some o := by
    have hreceipted := hs.receipted
    unfold Receipted at hreceipted
    split at hreceipted
    · rw [hreceipted]
      exact h₂
    · have hbelow : ¬ (stagingPath paths uid / "operations") <:+
          l ++ [name] ++ stagingPath paths uid := by
        rw [List.append_assoc]
        exact Path.not_below_sibling hne.2.symm l (stagingPath paths uid)
      rw [hreceipted.2 _ (fun he => by simpa using List.self_eq_append_left.mp he.symm) (fun he => hbelow ⟨[], he.symm⟩) fun he => hbelow ⟨[_], he.symm⟩]
      exact h₂
  have hfinal := congrFun hdata (l ++ [name])
  have hnil : l ++ [name] ≠ [] := by simp
  rw [finished, if_neg hnil, if_neg hmanifest] at hfinal
  exact hfinal.trans h₃

/-- Wherever a call is stopped, the object is still held. -/
theorem Settled.holds {c : Call α} {l : Path} {name : String}
    (hname : name ∈ legacyDataDirectories) (hc : c.Leaves paths (l ++ [name]))
    (h : Held paths (l ++ [name]) o t) (hs : Settled c paths t u) :
    Held paths (l ++ [name]) o u := by
  rcases hs with hu | ⟨a, uid, hp⟩
  · unfold Held at h ⊢
    rw [hu.designated]
    cases hd : designated paths t with
    | none =>
      rw [hd] at h
      have hsame := congrFun (hu.legacy hd name hname) l
      simp only [dataAt] at hsame
      simpa [Path.div_def] using hsame.trans (by simpa [Path.div_def] using h)
    | some g =>
      rw [hd] at h
      exact (congrFun (hu.data g hd) (l ++ [name])).trans h
  · unfold Held
    rw [hp.designated]
    exact hp.holds hname hc h

/-- An instance at the root. -/
def examplePaths : InstancePaths := ⟨[], ["config.yaml"], ["state"], ["secrets"], none⟩

/-- A server key of the legacy layout. -/
def legacyTree : Tree := .ofEntries
  [([], .dir 0o755), (["state"], .dir 0o700), (["server", "state"], .dir 0o700),
    (["private.key", "server", "state"], .file 0o600 [107])] (by decide)

end

end State
end ShuttleGate
