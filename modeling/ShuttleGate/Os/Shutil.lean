import ShuttleGate.Os.Ops
import ShuttleGate.Effect.Outcome

/-! # Trees of files

`shutil.rmtree`, `shutil.copytree` and the walk that makes a tree durable: what they leave alone
and what they have done when they return. -/

namespace ShuttleGate

open Fs Effect

namespace Os

/-- `RecursionError` -/
def recursionError : Exn := .error "RecursionError"

/-- An `OSError` that is not there any more does not matter. -/
def ignoreMissing (p : OsM Unit) : OsM Unit :=
  tryCatch p fun e => if e.isFileNotFound then pure () else throw e

/-- `with suppress(OSError)` -/
def suppressOSError (p : OsM Unit) : OsM Unit :=
  tryCatch p fun e => if e.isOSError then pure () else throw e

/-! ## Programs -/

def rmtreeAt : Nat → Path → OsM Unit
  | 0, _ => throw recursionError
  | fuel + 1, p => do
    let names ← Prog.perform (.listdir p)
    Prog.forEach names fun name => ignoreMissing do
      let st ← Prog.perform (.lstat (p / name))
      if st.kind = .directory then rmtreeAt fuel (p / name)
      else Prog.perform (.unlink (p / name))
    Prog.perform (.rmdir p)

def rmtree (p : Path) : OsM Unit := do
  let depth ← Prog.perform .depth
  rmtreeAt (depth + 1) p

/-- `shutil.copy2` of a regular file -/
def copy2 (src dst : Path) : OsM Unit := do
  let content ← Prog.perform (.read src)
  Prog.perform (.openWrite dst 0o644)
  Prog.perform (.write dst content)
  let st ← Prog.perform (.lstat src)
  Prog.perform (.chmod dst st.mode)

/-- `shutil.Error` -/
def copyError : Exn := .os (.other 0) "copying failed"

/-- Try every element; whether an `OSError` was met. -/
def collect (f : String → OsM Unit) : List String → OsM Bool
  | [] => pure false
  | x :: xs => do
    let failed ← tryCatch (do f x; pure false) fun e => if e.isOSError then pure true else throw e
    let rest ← collect f xs
    return failed || rest

/-- `shutil.copytree` with `symlinks=True` -/
def copytreeAt : Nat → Path → Path → OsM Unit
  | 0, _, _ => throw recursionError
  | fuel + 1, src, dst => do
    let names ← Prog.perform (.listdir src)
    Prog.perform (.mkdir dst 0o755)
    let failed ← collect (fun name => do
      let st ← Prog.perform (.lstat (src / name))
      match st.kind with
      | .symlink =>
        let target ← Prog.perform (.readlink (src / name))
        Prog.perform (.symlink target (dst / name))
      | .directory => copytreeAt fuel (src / name) (dst / name)
      | .regular => copy2 (src / name) (dst / name)
      | .special => throw copyError) names
    let failed' ← tryCatch (do
        let st ← Prog.perform (.lstat src)
        Prog.perform (.chmod dst st.mode)
        pure false)
      fun e => if e.isOSError then pure true else throw e
    if failed || failed' then throw copyError

def copytree (src dst : Path) : OsM Unit := do
  let depth ← Prog.perform .depth
  copytreeAt (depth + 1) src dst

/-! ## What they leave alone -/

section
variable {P : {β : Type} → OsOp β → Prop}

theorem perform_at {op : OsOp β} (h : ∀ q, op.touches q → q = p := by exact fun _ h => h) :
    (Prog.perform op : OsM β).Only (Below p) :=
  Prog.only_perform.mpr fun q hq => h q hq ▸ List.suffix_rfl

theorem perform_reads {op : OsOp β} (h : op.Reads := by exact fun _ => id) :
    (Prog.perform op : OsM β).Only (Below p) := Prog.only_perform.mpr h.below

theorem ignoreMissing_only {p : OsM Unit} (h : p.Only P) : (ignoreMissing p).Only P :=
  h.handle fun _ => Prog.only_ret.ite Prog.only_raise

theorem suppressOSError_only {p : OsM Unit} (h : p.Only P) : (suppressOSError p).Only P :=
  h.handle fun _ => Prog.only_ret.ite Prog.only_raise

theorem collect_only {f : String → OsM Unit} (h : ∀ x, (f x).Only P) :
    ∀ xs, (collect f xs).Only P
  | [] => Prog.only_ret
  | _ :: xs => Prog.Only.bind (((h _).bind fun _ => Prog.only_ret).handle fun _ =>
      Prog.only_ret.ite Prog.only_raise) fun _ => (collect_only h xs).bind fun _ => Prog.only_ret

theorem rmtreeAt_below (fuel : Nat) (p : Path) : (rmtreeAt fuel p).Only (Below p) := by
  induction fuel generalizing p with
  | zero => exact Prog.only_raise
  | succ fuel ih =>
    have child {α : Type} {name : String} {prog : OsM α} (h : prog.Only (Below (p / name))) :
        prog.Only (Below p) := h.mono fun _ h => h.parent
    unfold rmtreeAt
    refine (perform_reads).bind fun names => Prog.Only.bind ?_ fun _ => perform_at
    refine Prog.only_forEach (fun name => ignoreMissing_only ?_) names
    refine (perform_reads).bind fun st => Prog.Only.ite ?_ ?_
    · exact child (ih (p / name))
    · exact child perform_at

theorem rmtree_below (p : Path) : (rmtree p).Only (Below p) :=
  (perform_reads).bind fun _ => rmtreeAt_below _ p

theorem copy2_below (src dst : Path) : (copy2 src dst).Only (Below dst) :=
  (perform_reads).bind fun _ => (perform_at).bind fun _ => (perform_at).bind fun _ =>
    (perform_reads).bind fun _ => perform_at

theorem copytreeAt_below (fuel : Nat) (src dst : Path) :
    (copytreeAt fuel src dst).Only (Below dst) := by
  induction fuel generalizing src dst with
  | zero => exact Prog.only_raise
  | succ fuel ih =>
    have child {α : Type} {name : String} {p : OsM α} (h : p.Only (Below (dst / name))) :
        p.Only (Below dst) := h.mono fun _ h => h.parent
    unfold copytreeAt
    refine (perform_reads).bind fun names => (perform_at).bind fun _ =>
      (collect_only (fun name => ?_) names).bind fun failed => Prog.Only.bind ?_ fun failed' =>
      Prog.only_raise.ite Prog.only_ret
    · refine (perform_reads).bind fun st => ?_
      cases st.kind with
      | symlink =>
        exact (perform_reads).bind fun _ =>
          child perform_at
      | directory => exact child (ih _ _)
      | regular => exact child (copy2_below _ _)
      | special => exact Prog.only_raise
    · refine Prog.Only.handle ?_ fun _ => Prog.only_ret.ite Prog.only_raise
      exact (perform_reads).bind fun _ => (perform_at).bind fun _ =>
        Prog.only_ret

theorem copytree_below (src dst : Path) : (copytree src dst).Only (Below dst) :=
  (perform_reads).bind fun _ => copytreeAt_below _ src dst

end

/-! ## What they have done -/

/-- A removed tree is gone: its last directory could only be removed empty. -/
theorem rmtreeAt_yields (fuel : Nat) (p : Path) (t : Tree) :
    (rmtreeAt fuel p).Yields machine (fun _ t' => ∀ l, t'.get (l ++ p) = none) t := by
  cases fuel with
  | zero => exact Prog.yields_raise
  | succ fuel =>
    refine Prog.yields_bind_any fun names _ => Prog.yields_bind_any fun _ _ => ?_
    refine Prog.yields_perform fun _ t' h l => ?_
    obtain ⟨-, hchildless, hget⟩ := (Step.ok h).rmdir
    rw [hget]
    split
    · rfl
    · rename_i hne
      exact Tree.get_below_of_childless hchildless fun hl => hne (by simp [hl])

theorem rmtree_yields (p : Path) (t : Tree) :
    (rmtree p).Yields machine (fun _ t' => ∀ l, t'.get (l ++ p) = none) t :=
  Prog.yields_bind_any fun _ t' => rmtreeAt_yields _ p t'

/-- A copied file has the content and the permissions of its source. -/
theorem copy2_yields {src dst : Path} (hne : src ≠ dst) (t : Tree) :
    (copy2 src dst).Yields machine (fun _ t' => t'.get dst = t.get src) t := by
  refine Prog.yields_bind (Prog.yields_perform fun content t₁ h₁ => ?_)
  obtain ⟨rfl, mode, hsrc⟩ := (Step.ok h₁).read
  refine Prog.yields_bind (Prog.yields_perform fun _ t₂ h₂ => ?_)
  refine Prog.yields_bind (Prog.yields_perform fun _ t₃ h₃ => ?_)
  obtain ⟨mode₃, _, -, hget₃⟩ := (Step.ok h₃).write
  refine Prog.yields_bind (Prog.yields_perform fun st t₄ h₄ => ?_)
  obtain ⟨rfl, o, ho, rfl⟩ := (Step.ok h₄).lstat
  refine Prog.yields_perform fun _ t₅ h₅ => ?_
  -- the source is where it was
  have hsrc' : t₄.get src = some (.file mode content) := by
    rw [hget₃, if_neg hne, h₂.frame hne, hsrc]
  obtain rfl := Option.some.inj (ho.symm.trans hsrc')
  rcases (Step.ok h₅).chmod with ⟨_, c, hc, hget⟩ | ⟨_, hc, -⟩
  · rw [hget₃, if_pos rfl] at hc
    cases hc
    rw [hget, if_pos rfl, hsrc]
    rfl
  · rw [hget₃, if_pos rfl] at hc
    cases hc

/-- Where no failure was met, every element has been worked on. -/
theorem collect_yields {f : String → OsM Unit} (J : List String → Tree → Prop)
    (step : ∀ x xs t, J (x :: xs) t → (f x).Yields machine (fun _ => J xs) t) :
    ∀ xs t, J xs t → (collect f xs).Yields machine (fun failed t' => failed = false → J [] t') t
  | [], _, h => Prog.yields_ret fun _ => h
  | x :: xs, t, h => by
    have hfirst : (tryCatch (do f x; pure false) fun e =>
        if e.isOSError then pure true else throw e : OsM Bool).Yields machine
          (fun failed t' => failed = false → J xs t') t := by
      refine Prog.yields_handle (Prog.yields_bind ((step x xs t h).mono fun _ t' ht =>
        Prog.yields_ret fun _ => ht)) fun e t' => ?_
      exact Prog.yields_ite (fun _ => Prog.yields_ret nofun) fun _ => Prog.yields_raise
    refine Prog.yields_bind (hfirst.mono fun failed t' ht => ?_)
    cases failed with
    | true => exact Prog.yields_bind_any fun _ _ => Prog.yields_ret nofun
    | false => exact Prog.yields_bind ((collect_yields J step xs t' (ht rfl)).mono
        fun rest t'' h => Prog.yields_ret h)

/-- What the copying into a new directory has come to: the names of `xs` are still to be copied,
and `f` says what is to be there. -/
structure Copying (t₀ : Tree) (mode : Nat) (f : String → Path → Option Obj) (dst : Path)
    (xs : List String) (t : Tree) : Prop where
  nodup : xs.Nodup
  outside : ∀ q, ¬ dst <:+ q → t.get q = t₀.get q
  top : t.get dst = some (.dir mode)
  todo : ∀ n ∈ xs, t.get (n :: dst) = none
  done : ∀ n, n ∉ xs → ∀ l, t.get (l ++ n :: dst) = f n l

/-- Below the new directory there is nothing yet. -/
theorem Copying.start {t₀ t : Tree} {f : String → Path → Option Obj} (hnodup : xs.Nodup)
    (hnone : t₀.get dst = none)
    (hget : ∀ q, t.get q = if q = dst then some (.dir mode) else t₀.get q)
    (hf : ∀ n, n ∉ xs → ∀ l, f n l = none) : Copying t₀ mode f dst xs t := by
  have hbelow (n : String) (l : Path) : t.get (l ++ n :: dst) = none := by
    rw [hget, if_neg (Path.append_cons_ne_self l n dst)]
    simpa using Tree.get_below_eq_none hnone (l ++ [n])
  refine ⟨hnodup, fun q hq => ?_, ?_, fun n _ => hbelow n [], fun n hn l => ?_⟩
  · rw [hget, if_neg]
    rintro rfl
    exact hq List.suffix_rfl
  · rw [hget, if_pos rfl]
  · rw [hbelow, hf n hn]

/-- A child that is copied is done, and the others are as they were. -/
theorem Copying.next {t₀ t t' : Tree} {f : String → Path → Option Obj}
    (h : Copying t₀ mode f dst (x :: xs) t)
    (hother : ∀ q, ¬ (x :: dst) <:+ q → t'.get q = t.get q)
    (hcopy : ∀ l, t'.get (l ++ x :: dst) = f x l) : Copying t₀ mode f dst xs t' := by
  obtain ⟨hx, hnodup⟩ := List.nodup_cons.mp h.nodup
  have hchild {n : String} (hn : n ≠ x) (l : Path) : ¬ (x :: dst) <:+ l ++ n :: dst :=
    Path.not_below_sibling hn.symm l dst
  refine ⟨hnodup, fun q hq => ?_, ?_, fun n hn => ?_, fun n hn l => ?_⟩
  · exact (hother q fun hs => hq ((List.suffix_cons x dst).trans hs)).trans (h.outside q hq)
  · refine (hother dst fun hs => ?_).trans h.top
    exact absurd hs.length_le (by simp)
  · have hne : n ≠ x := fun he => hx (he ▸ hn)
    exact (hother _ (hchild hne [])).trans (h.todo n (List.mem_cons_of_mem x hn))
  · by_cases hne : n = x
    · exact hne ▸ hcopy l
    · exact (hother _ (hchild hne l)).trans (h.done n (by simp [hne, hn]) l)

theorem not_suffix_below {p q l : Path} (hpq : ¬ p <:+ q) (hqp : ¬ q <:+ p) :
    ¬ p <:+ l ++ q := by
  intro h
  rcases List.suffix_or_suffix_of_suffix h (List.suffix_append l q) with h | h
  · exact hpq h
  · exact hqp h

/-- An object that is no directory is all there is below its path. -/
theorem get_below_object {t t' : Tree} (h : t.get p = some o) (ho : o.isDir = false)
    (h' : t'.get q = some o) (l : Path) : t'.get (l ++ q) = t.get (l ++ p) := by
  cases l with
  | nil => exact h'.trans h.symm
  | cons n l =>
    have hnone {t : Tree} {p : Path} (h : t.get p = some o) : t.get ((n :: l) ++ p) = none := by
      by_contra hne
      obtain ⟨m, hm⟩ := Tree.dir_of_below hne (by simp)
      obtain rfl := Option.some.inj (h.symm.trans hm)
      cases ho
    rw [hnone h, hnone h']

/-- A copied tree has the objects of its source. -/
theorem copytreeAt_yields (fuel : Nat) {src dst : Path} (hsd : ¬ src <:+ dst) (hds : ¬ dst <:+ src)
    (t : Tree) : (copytreeAt fuel src dst).Yields machine
      (fun _ t' => ∀ l, t'.get (l ++ dst) = t.get (l ++ src)) t := by
  induction fuel generalizing src dst t with
  | zero => exact Prog.yields_raise
  | succ fuel ih =>
    unfold copytreeAt
    refine Prog.yields_bind (Prog.yields_perform fun names t₁ h₁ => ?_)
    obtain ⟨rfl, ⟨m, hm⟩, hperm⟩ := (Step.ok h₁).listdir
    refine Prog.yields_bind (Prog.yields_perform fun _ t₂ h₂ => ?_)
    obtain ⟨hnone, hget₂⟩ := (Step.ok h₂).mkdir
    have hstart : Copying t₁ 0o755 (fun n l => t₁.get (l ++ n :: src)) dst names t₂ := by
      refine Copying.start (hperm.nodup_iff.mpr (Tree.nodup_names _ _)) hnone hget₂ fun n hn l => ?_
      refine Tree.get_below_eq_none ?_ l
      by_contra hne
      exact hn (hperm.mem_iff.mpr (Tree.mem_names.mpr hne))
    refine Prog.yields_bind ((collect_yields (Copying t₁ 0o755 (fun n l => t₁.get (l ++ n :: src)) dst)
      (fun x xs t h => ?_) names t₂ hstart).mono fun failed t₃ hdone => ?_)
    · -- one child
      have hsrc (l : Path) : t.get (l ++ x :: src) = t₁.get (l ++ x :: src) := by
        refine h.outside _ ?_
        have := not_suffix_below (l := l ++ [x]) hds hsd
        simpa using this
      have hdisj : ¬ (x :: src) <:+ x :: dst ∧ ¬ (x :: dst) <:+ x :: src := by
        constructor <;> intro hs
        · rcases List.suffix_cons_iff.mp hs with he | hs
          · exact hsd ((List.cons.inj he).2 ▸ List.suffix_rfl)
          · exact hsd ((List.suffix_cons x src).trans hs)
        · rcases List.suffix_cons_iff.mp hs with he | hs
          · exact hds ((List.cons.inj he).2 ▸ List.suffix_rfl)
          · exact hds ((List.suffix_cons x dst).trans hs)
      refine Prog.yields_bind (Prog.yields_perform fun st t' hst => ?_)
      obtain ⟨rfl, o, ho, rfl⟩ := (Step.ok hst).lstat
      have ho₁ : t₁.get (x :: src) = some o := (hsrc []).symm.trans ho
      have keeps {p : OsM Unit} (hp : p.Only (Below (x :: dst))) : p.Keeps machine
          fun u => ∀ q, ¬ (x :: dst) <:+ q → u.get q = t'.get q :=
        keeps_of_avoids (hp.mono fun _ hop => hop.avoids fun q hq => hq) t'
      cases o with
      | link target =>
        refine Prog.yields_bind (Prog.yields_perform fun s u hs => ?_)
        obtain ⟨rfl, hs⟩ := (Step.ok hs).readlink
        cases (Option.some.inj (ho.symm.trans hs))
        refine Prog.yields_perform fun _ v hv => ?_
        obtain ⟨-, hget⟩ := (Step.ok hv).symlink
        refine h.next (fun q hq => ?_) (get_below_object ho₁ rfl ?_)
        · have hne : q ≠ dst / x := by
            rintro rfl
            exact hq List.suffix_rfl
          exact (hget q).trans (if_neg hne)
        · exact (hget _).trans (if_pos rfl)
      | dir mode =>
        refine ((ih hdisj.1 hdisj.2 t').and_keeps (keeps (copytreeAt_below fuel _ _))
          fun _ _ => rfl).mono fun _ u ⟨hcopy, hother⟩ => ?_
        exact h.next hother fun l => (hcopy l).trans (hsrc l)
      | file mode content =>
        have hne : x :: src ≠ x :: dst := fun he => hdisj.1 (he ▸ List.suffix_rfl)
        refine ((copy2_yields hne t').and_keeps (keeps (copy2_below _ _))
          fun _ _ => rfl).mono fun _ u ⟨hcopy, hother⟩ => ?_
        exact h.next hother (get_below_object ho₁ rfl (hcopy.trans ho))
      | special => exact Prog.yields_raise
    · -- the permissions of the directory itself
      refine Prog.yields_bind (Prog.Yields.mono (Q := fun failed' t₄ => failed = false →
        failed' = false → ∀ l, t₄.get (l ++ dst) = t₁.get (l ++ src)) ?_ fun failed' t₄ h => ?_)
      · refine Prog.yields_handle ?_ fun e t => Prog.yields_ite (fun _ => Prog.yields_ret nofun)
          fun _ => Prog.yields_raise
        refine Prog.yields_bind (Prog.yields_perform fun st t' hst => ?_)
        obtain ⟨rfl, o, ho, rfl⟩ := (Step.ok hst).lstat
        refine Prog.yields_bind (Prog.yields_perform fun _ t₄ h₄ => Prog.yields_ret
          fun hfailed _ l => ?_)
        have hcopied := hdone hfailed
        obtain rfl : o = .dir m := by
          rw [hcopied.outside src hds, hm] at ho
          exact (Option.some.inj ho).symm
        rcases (Step.ok h₄).chmod with ⟨_, _, hfile, -⟩ | ⟨_, -, hget⟩
        · cases hcopied.top.symm.trans hfile
        · rcases List.eq_nil_or_concat l with rfl | ⟨l, n, rfl⟩
          · exact (hget dst).trans ((if_pos rfl).trans hm.symm)
          · rw [List.concat_append, List.concat_append, hget, if_neg (Path.append_cons_ne_self l n dst)]
            exact hcopied.done n List.not_mem_nil l
      · refine Prog.yields_ite (fun _ => Prog.yields_raise) fun hn => Prog.yields_ret ?_
        cases failed <;> cases failed' <;> simp_all

theorem copytree_yields {src dst : Path} (hsd : ¬ src <:+ dst) (hds : ¬ dst <:+ src) (t : Tree) :
    (copytree src dst).Yields machine (fun _ t' => ∀ l, t'.get (l ++ dst) = t.get (l ++ src)) t :=
  Prog.yields_bind (Prog.yields_perform fun _ _ h => by
    obtain ⟨rfl, -⟩ := Step.ok h
    exact copytreeAt_yields _ hsd hds _)

/-! ## Where nothing fails -/

/-- An object with nothing below it. -/
theorem get_below_of_not_dir {t : Tree} (h : t.get p = some o) (ho : o.isDir = false)
    (hl : l ≠ []) : t.get (l ++ p) = none := by
  by_contra hne
  obtain ⟨m, hm⟩ := Tree.dir_of_below hne hl
  obtain rfl := Option.some.inj (h.symm.trans hm)
  cases ho

/-- What the removal of a directory's children has come to: those of `xs` are still there. -/
structure Removing (t₀ : Tree) (p : Path) (xs : List String) (t : Tree) : Prop where
  nodup : xs.Nodup
  there : ∀ n ∈ xs, t₀.get (n :: p) ≠ none
  gone : ∀ n, n ∉ xs → ∀ l, t.get (l ++ n :: p) = none
  kept : ∀ q, (∀ n, n ∉ xs → ¬ (n :: p) <:+ q) → t.get q = t₀.get q

theorem Removing.here {t₀ t : Tree} (h : Removing t₀ p xs t) (hx : x ∈ xs) (l : Path) :
    t.get (l ++ x :: p) = t₀.get (l ++ x :: p) :=
  h.kept _ fun n hn => Path.not_below_sibling (fun (he : n = x) => hn (he ▸ hx)) l p

theorem Removing.next {t₀ t u : Tree} (h : Removing t₀ p (x :: xs) t)
    (hu : ∀ q, u.get q = if (x :: p) <:+ q then none else t.get q) : Removing t₀ p xs u := by
  obtain ⟨hx, hnodup⟩ := List.nodup_cons.mp h.nodup
  refine ⟨hnodup, fun n hn => h.there n (List.mem_cons_of_mem x hn), fun n hn l => ?_, fun q hq => ?_⟩
  · rw [hu]
    split
    · rfl
    · rename_i hne
      refine h.gone n (fun hmem => ?_) l
      rcases List.mem_cons.mp hmem with rfl | hmem
      · exact hne (List.suffix_append l _)
      · exact hn hmem
  · rw [hu, if_neg (hq x hx)]
    exact h.kept q fun n hn => hq n fun hmem => hn (List.mem_cons_of_mem x hmem)

theorem rmtreeAt_succeeds (fuel : Nat) {p : Path} {t : Tree} (hdir : t.get p = some (.dir m))
    (hfuel : ∀ l, t.get (l ++ p) ≠ none → l.length < fuel) :
    (rmtreeAt fuel p).Succeeds reliable
      (fun _ t' => ∀ q, t'.get q = if p <:+ q then none else t.get q) t := by
  induction fuel generalizing p t m with
  | zero => exact absurd (hfuel [] (by simp [hdir])) (Nat.not_lt_zero _)
  | succ fuel ih =>
    refine Prog.succeeds_bind ((listdir_succeeds hdir).mono fun names t₁ ⟨h₁, hperm⟩ => ?_)
    subst h₁
    have hstart : Removing t₁ p names t₁ := by
      refine ⟨hperm.nodup_iff.mpr (Tree.nodup_names _ _),
        fun n hn => Tree.mem_names.mp (hperm.mem_iff.mp hn),
        fun n hn l => Tree.get_below_eq_none ?_ l, fun _ _ => rfl⟩
      by_contra hne
      exact hn (hperm.mem_iff.mpr (Tree.mem_names.mpr hne))
    refine Prog.succeeds_bind ((Prog.succeeds_forEach (Removing t₁ p) (fun x xs t' h => ?_) names t₁
      hstart).mono fun _ t₂ h => ?_)
    · obtain ⟨o, ho⟩ := Option.ne_none_iff_exists'.mp (h.there x List.mem_cons_self)
      have ho' : t'.get (x :: p) = some o := (h.here List.mem_cons_self []).trans ho
      refine Prog.succeeds_handle (Prog.succeeds_bind ((lstat_succeeds ho').mono
        fun st t'' ⟨he, hst⟩ => ?_))
      subst he hst
      refine Prog.succeeds_ite (fun hk => ?_) fun hk => ?_
      · obtain ⟨m', rfl⟩ := kind_statOf_directory.mp hk
        refine (ih ho' fun l hl => ?_).mono fun _ u hu => h.next hu
        rw [h.here List.mem_cons_self] at hl
        have := hfuel (l ++ [x]) (by simpa using hl)
        simpa using this
      · have hfile : o.isDir = false := by
          by_contra hd
          exact hk (kind_statOf_directory.mpr (Obj.isDir_iff.mp (by simpa using hd)))
        refine (unlink_succeeds ho' hfile).mono fun _ u hu => h.next fun q => ?_
        rw [hu]
        by_cases hq : (x :: p) <:+ q
        · obtain ⟨l, rfl⟩ := hq
          rw [if_pos (List.suffix_append l _)]
          by_cases hl : l = []
          · simp [hl]
          · have hne : l ++ x :: p ≠ x :: p := fun he => hl (List.self_eq_append_left.mp he.symm)
            rw [if_neg hne, get_below_of_not_dir ho' hfile hl]
        · have hne : q ≠ x :: p := fun he => hq (he ▸ List.suffix_rfl)
          rw [if_neg hne, if_neg hq]
    · have hp : t₂.get p = some (.dir m) :=
        (h.kept p fun n _ => Path.not_below_parent n p).trans hdir
      have hchildless (n : String) : t₂.get (n :: p) = none := h.gone n List.not_mem_nil []
      refine (rmdir_succeeds hp hchildless).mono fun _ t₃ h₃ q => ?_
      rw [h₃]
      by_cases hq : p <:+ q
      · rw [if_pos hq]
        obtain ⟨l, rfl⟩ := hq
        by_cases hl : l = []
        · simp [hl]
        · have hne : l ++ p ≠ p := fun he => hl (List.self_eq_append_left.mp he.symm)
          rw [if_neg hne, Tree.get_below_of_childless hchildless hl]
      · have hne : q ≠ p := fun he => hq (he ▸ List.suffix_rfl)
        rw [if_neg hne, if_neg hq]
        exact h.kept q fun n _ hs => hq ((List.suffix_cons n p).trans hs)

/-- A directory is removed with all that is below it. -/
theorem rmtree_succeeds {p : Path} {t : Tree} (hdir : t.get p = some (.dir m)) :
    (rmtree p).Succeeds reliable
      (fun _ t' => ∀ q, t'.get q = if p <:+ q then none else t.get q) t := by
  refine Prog.succeeds_bind (Prog.succeeds_perform fun r t' ⟨ht, hr⟩ => ⟨t.depth, hr, ?_⟩)
  subst ht
  refine rmtreeAt_succeeds _ hdir fun l hl => ?_
  have := Tree.length_le_depth hl
  rw [List.length_append] at this
  omega

end Os
end ShuttleGate
