import ShuttleGate.State.Reading

/-! # The staging directory

What a new generation starts from: a copy of the active one, or the legacy state where nothing has
been published. -/

namespace ShuttleGate

open Fs Effect Os Files

namespace State

/-- The objects at and below a directory, by their paths within it. -/
def dataAt (t : Tree) (d : Path) : Path → Option Obj := fun l => t.get (l ++ d)

/-- The objects of a new private directory without children but `f`. -/
def filled (f : String → Path → Option Obj) (l : Path) : Option Obj :=
  match l.getLast? with
  | none => some (.dir 0o700)
  | some n => f n l.dropLast

@[simp] theorem filled_nil (f : String → Path → Option Obj) : filled f [] = some (.dir 0o700) := rfl

@[simp] theorem filled_concat (f : String → Path → Option Obj) (l : Path) (n : String) :
    filled f (l ++ [n]) = f n l := by
  simp [filled]

/-- A copy of a generation: everything but the manifest. -/
def copied (t : Tree) (root : Path) : Path → Option Obj :=
  filled fun n l => if n = manifestFile then none else t.get (l ++ n :: root)

/-- A copy of the legacy state. -/
def migrated (t : Tree) (paths : InstancePaths) : Path → Option Obj :=
  filled fun n l => if n ∈ legacyDataDirectories then t.get (l ++ n :: paths.state) else none

/-- What the mutator of a call is given. -/
def base (paths : InstancePaths) (t : Tree) : Option String → Path → Option Obj
  | some generation => copied t (generationPath paths generation)
  | none => migrated t paths

/-- What there is of the legacy state is made of directories. -/
def LegacyDirectories (paths : InstancePaths) (t : Tree) : Prop :=
  ∀ name ∈ legacyDataDirectories, ∀ o, t.get (paths.state / name) = some o → o.isDir = true

/-! ## Copying -/

/-- A finished copy. -/
theorem dataAt_of_copying {t₀ t : Tree} {f : String → Path → Option Obj}
    (h : Copying t₀ 0o700 f dst [] t) : dataAt t dst = filled f := by
  funext l
  rcases List.eq_nil_or_concat l with rfl | ⟨l, n, rfl⟩
  · exact h.top
  · rw [List.concat_eq_append, filled_concat, ← h.done n List.not_mem_nil l]
    exact congrArg t.get (by simp)

theorem copyChild_yields {src dst : Path} {name : String} {t : Tree}
    (hsd : ¬ (name :: src) <:+ name :: dst) (hds : ¬ (name :: dst) <:+ name :: src)
    (hnone : t.get (name :: dst) = none) : (copyChild src dst name).Yields machine (fun _ t' =>
      (∀ q, ¬ (name :: dst) <:+ q → t'.get q = t.get q) ∧
      ∀ l, t'.get (l ++ name :: dst) =
        if name = manifestFile then none else t.get (l ++ name :: src)) t := by
  unfold copyChild
  split
  · exact Prog.yields_ret ⟨fun _ _ => rfl, Tree.get_below_eq_none hnone⟩
  · refine Prog.yields_bind (Prog.yields_perform fun st t' h => ?_)
    obtain ⟨rfl, o, ho, rfl⟩ := (Step.ok h).lstat
    have keeps {p : OsM Unit} (hp : p.Only (Below (name :: dst))) := keeps_of_below hp t'
    cases o with
    | dir mode =>
      exact ((copytree_yields hsd hds t').and_keeps (keeps (copytree_below _ _)) fun _ _ => rfl).mono
        fun _ u ⟨hcopy, hother⟩ => ⟨hother, hcopy⟩
    | file mode content =>
      have hne : name :: src ≠ name :: dst := fun he => hsd (he ▸ List.suffix_rfl)
      exact ((copy2_yields hne t').and_keeps (keeps (copy2_below _ _)) fun _ _ => rfl).mono
        fun _ u ⟨hcopy, hother⟩ => ⟨hother, get_below_object ho rfl (hcopy.trans ho)⟩
    | link target => exact Prog.yields_raise
    | special => exact Prog.yields_raise

theorem mkdirNew_within {W : Path → Prop} (h : ∀ q, q <:+ p → W q ∨ q <:+ d) (mode : Nat) :
    (mkdirNew p mode).Only (Within W d) := by
  refine (mkdir_within (h p List.suffix_rfl) mode).handle fun e => Prog.Only.ite ?_ Prog.only_raise
  refine (mkdirParents_within (fun q hq => ?_) _).bind fun _ =>
    mkdir_within (h p List.suffix_rfl) mode
  exact h q (hq.trans (List.tail_suffix p))

/-- The new directory is empty, and nothing but missing ancestors is new besides. -/
theorem mkdirNew_yields (n : String) (d : Path) (mode : Nat) (t : Tree)
    (hd : t.get d ≠ none) : (mkdirNew (n :: d) mode).Yields machine (fun _ t' =>
      t.get (n :: d) = none ∧ ∀ q, t'.get q = if q = n :: d then some (.dir mode) else t.get q) t := by
  refine Prog.wp_handle.mpr (Prog.wp_perform.mpr ⟨trivial, fun r t' h => ⟨trivial, ?_⟩⟩)
  cases r with
  | ok _ =>
    obtain ⟨hnone, hget⟩ := (Step.ok h).mkdir
    exact fun _ _ => ⟨hnone, hget⟩
  | error e =>
    simp only [Prog.onError_error]
    -- without an effect; the parents are there
    obtain rfl := Step.failed h
    split
    · refine Prog.yields_bind (((Prog.yields_trivial _ t').and_keeps (keeps_of_within
        (W := fun _ => False) (mkdirParents_within (fun q hq => .inr hq) _) hd)
        fun _ _ => rfl).mono fun _ u ⟨_, hu⟩ => Prog.yields_perform fun _ v hv => ?_)
      obtain ⟨hnone, hget⟩ := (Step.ok hv).mkdir
      exact ⟨(hu _ id).symm.trans hnone, fun q => (hget q).trans (by rw [hu q id])⟩
    · exact Prog.yields_raise

/-- The copy of the active generation, beside it. -/
theorem copyActive_yields {d : Path} {name : String} {active : Option String}
    (hne : ∀ g, active = some g → g ≠ name) {t : Tree} (hd : t.get d ≠ none) :
    (copyActive (active.map (d / ·)) (d / name)).Yields machine (fun _ t' =>
      (∀ q, ¬ (name :: d) <:+ q → t'.get q = t.get q) ∧ dataAt t' (d / name) =
        filled fun n l => match active with
          | some g => if n = manifestFile then none else t.get (l ++ n :: g :: d)
          | none => none) t := by
  refine Prog.yields_bind ((mkdirNew_yields name d 0o700 t hd).mono fun _ t₁ ⟨hnone, hget⟩ => ?_)
  cases active with
  | none =>
    have hcopy : Copying t 0o700 (fun _ _ => none) (name :: d) [] t₁ :=
      Copying.start List.nodup_nil hnone hget fun _ _ _ => rfl
    exact Prog.yields_ret ⟨hcopy.outside, dataAt_of_copying hcopy⟩
  | some g =>
    have hg : g ≠ name := hne g rfl
    have hsource (l : Path) : ¬ (name :: d) <:+ l ++ g :: d := Path.not_below_sibling hg.symm l d
    refine Prog.yields_bind (Prog.yields_perform fun names t₂ h₂ => ?_)
    obtain ⟨rfl, -, hperm⟩ := (Step.ok h₂).listdir
    have hstart : Copying t 0o700 (fun n l => if n = manifestFile then none else
        t.get (l ++ n :: g :: d)) (name :: d) names t₂ := by
      refine Copying.start (hperm.nodup_iff.mpr (Tree.nodup_names _ _)) hnone hget fun n hn l => ?_
      have hsrc : t₂.get (n :: g :: d) = none := by
        by_contra hne
        exact hn (hperm.mem_iff.mpr (Tree.mem_names.mpr hne))
      have hsame : t₂.get (n :: g :: d) = t.get (n :: g :: d) :=
        (hget _).trans (if_neg fun (he : n :: g :: d = name :: d) =>
          hsource [n] (he ▸ List.suffix_rfl))
      simp [Tree.get_below_eq_none (hsame.symm.trans hsrc)]
    refine (Prog.yields_forEach (Copying t 0o700 _ (name :: d)) (fun x xs u h => ?_) names t₂
      hstart).mono fun _ u h => ⟨h.outside, dataAt_of_copying h⟩
    have hbelow : ¬ (x :: g :: d) <:+ x :: name :: d := fun hs => by
      rcases List.suffix_cons_iff.mp hs with he | hs
      · exact hg (List.cons.inj (List.cons.inj he).2).1
      · exact absurd hs.length_le (by simp)
    refine (copyChild_yields hbelow (fun hs => ?_) (h.todo x List.mem_cons_self)).mono
      fun _ v ⟨hother, hcopy⟩ => h.next hother fun l => (hcopy l).trans ?_
    · exact hsource [x] ((List.suffix_cons x (name :: d)).trans hs)
    · have hsame : u.get (l ++ x :: g :: d) = t.get (l ++ x :: g :: d) :=
        h.outside _ (by simpa using hsource (l ++ [x]))
      rw [hsame]

/-- The copy of the legacy state into an empty directory that is not part of it. -/
theorem copyLegacyState_yields (paths : InstancePaths) {dst : Path} {t : Tree}
    (hdst : ∀ n ∈ legacyDataDirectories, ∀ l,
      ¬ dst <:+ l ++ n :: paths.state ∧ ¬ (n :: paths.state) <:+ l ++ dst)
    (ht : dataAt t dst = filled fun _ _ => none) :
    (copyLegacyState paths dst).Yields machine (fun _ t' =>
      (∀ q, ¬ dst <:+ q → t'.get q = t.get q) ∧ dataAt t' dst = migrated t paths ∧
        LegacyDirectories paths t) t := by
  have hempty (l : Path) (n : String) : t.get (l ++ n :: dst) = none := by
    have := congrFun ht (l ++ [n])
    rw [filled_concat] at this
    simpa [dataAt] using this
  have hstart : Copying t 0o700 (fun n l => if n ∈ legacyDataDirectories then
      t.get (l ++ n :: paths.state) else none) dst legacyDataDirectories t :=
    ⟨by decide, fun _ _ => rfl, congrFun ht [], fun n _ => hempty [] n,
      fun n hn l => by rw [hempty, if_neg hn]⟩
  -- the directories before `xs` have been met
  have met {xs : List String} {x : String} {u : Tree} (hxs : ∀ n ∈ legacyDataDirectories, n ∉ x :: xs →
      ∀ o, t.get (paths.state / n) = some o → o.isDir = true)
      (hx : ∀ o, t.get (paths.state / x) = some o → o.isDir = true) :
      ∀ n ∈ legacyDataDirectories, n ∉ xs → ∀ o, t.get (paths.state / n) = some o → o.isDir = true := by
    intro n hn hnot
    by_cases hne : n = x
    · exact hne ▸ hx
    · exact hxs n hn (by simp [hne, hnot])
  refine (Prog.yields_forEach (fun xs t' => (xs ⊆ legacyDataDirectories ∧
    ∀ n ∈ legacyDataDirectories, n ∉ xs → ∀ o, t.get (paths.state / n) = some o → o.isDir = true) ∧
    Copying t 0o700 _ dst xs t') (fun x xs u ⟨⟨hxs, hdirs⟩, h⟩ => ?_) _ t
    ⟨⟨fun _ => id, fun n hn hnot => absurd hn hnot⟩, hstart⟩).mono fun _ u h =>
      ⟨h.2.outside, dataAt_of_copying h.2, fun n hn => h.1.2 n hn List.not_mem_nil⟩
  have hx : x ∈ legacyDataDirectories := hxs List.mem_cons_self
  have hxs' : xs ⊆ legacyDataDirectories := fun _ hn => hxs (List.mem_cons_of_mem x hn)
  have hsource (l : Path) : u.get (l ++ x :: paths.state) = t.get (l ++ x :: paths.state) :=
    h.outside _ (hdst x hx l).1
  refine Prog.yields_bind ((lstatMissing_yields _ u).mono fun st u' ⟨hu, hst⟩ => ?_)
  subst hu hst
  split
  · rename_i hnone
    have hgone : u'.get (x :: paths.state) = none := Option.map_eq_none_iff.mp hnone
    refine Prog.yields_ret ⟨⟨hxs', met (u := u') hdirs fun o ho => ?_⟩, h.next (fun _ _ => rfl)
      fun l => ?_⟩
    · cases (hsource []).symm.trans hgone |>.symm.trans ho
    · rw [if_pos hx, ← hsource]
      rw [Tree.get_below_eq_none hgone, Tree.get_below_eq_none (h.todo x List.mem_cons_self)]
  · rename_i st hsome
    split
    · exact Prog.yields_bind Prog.yields_raise
    · rename_i hkind
      obtain ⟨o', ho', rfl⟩ := Option.map_eq_some_iff.mp hsome
      have hdir : o'.isDir = true := Obj.isDir_iff.mpr (kind_statOf_directory.mp (not_not.mp hkind))
      have hdirs' := met (u := u') hdirs fun o ho => by
        cases ((hsource []).symm.trans ho').symm.trans ho
        exact hdir
      have hsd : ¬ (x :: paths.state) <:+ x :: dst := (hdst x hx [x]).2
      have hds : ¬ (x :: dst) <:+ x :: paths.state := fun hs =>
        (hdst x hx []).1 ((List.suffix_cons x dst).trans hs)
      refine ((copytree_yields hsd hds u').and_keeps (keeps_of_below (copytree_below _ _) u')
        fun _ _ => rfl).mono fun _ v ⟨hcopy, hother⟩ => ⟨⟨hxs', hdirs'⟩, h.next hother fun l => ?_⟩
      rw [if_pos hx, ← hsource]
      exact hcopy l

end State
end ShuttleGate
