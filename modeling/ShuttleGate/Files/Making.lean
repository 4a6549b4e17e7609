import ShuttleGate.Files.Atomic
import ShuttleGate.Os.Effects

/-! # Where a private directory can be made -/

namespace ShuttleGate

open Fs Effect Os

namespace Files

/-- The directory is there, or can be made below one that is. -/
def Makeable (t : Tree) : Path → Prop
  | [] => t.get [] = none ∨ ∃ m, t.get [] = some (.dir m)
  | n :: d => (∃ m, t.get (n :: d) = some (.dir m)) ∨ t.get (n :: d) = none ∧ Makeable t d

section
variable {t : Tree} {p : Path}

theorem Makeable.cases (h : Makeable t p) : t.get p = none ∨ ∃ m, t.get p = some (.dir m) := by
  cases p with
  | nil => exact h
  | cons n d => exact h.elim .inr fun h => .inl h.1

theorem makeable_of_dir (h : t.get p = some (.dir m)) : Makeable t p := by
  cases p with
  | nil => exact .inr ⟨m, h⟩
  | cons n d => exact .inl ⟨m, h⟩

/-- What has been made on the way to `p`. -/
def Made (t : Tree) (p : Path) (u : Tree) : Prop :=
  ∀ q, u.get q = t.get q ∨ q <:+ p ∧ t.get q = none ∧ ∃ m, u.get q = some (.dir m)

theorem Made.refl : Made t p t := fun _ => .inl rfl

theorem Made.child {u v : Tree} (h : Made t p u) {n : String} (hn : u.get (n :: p) = none)
    (hv : ∀ q, v.get q = if q = n :: p then some (.dir m) else u.get q) : Made t (n :: p) v := by
  intro q
  rw [hv q]
  by_cases hq : q = n :: p
  · subst hq
    rw [if_pos rfl]
    refine .inr ⟨List.suffix_rfl, ?_, m, rfl⟩
    rcases h (n :: p) with hu | ⟨-, ht, -⟩
    · exact hu.symm.trans hn
    · exact ht
  · rw [if_neg hq]
    exact (h q).imp_right fun ⟨hs, hrest⟩ => ⟨hs.trans (List.suffix_cons n p), hrest⟩

theorem isDir_succeeds (h : t.get p = some (.dir m)) (e : Exn) : (do
    unless ← Prog.perform (.isDir p) do throw e : OsM Unit).Succeeds reliable
      (fun _ u => u = t) t := by
  refine Prog.succeeds_bind (Prog.succeeds_perform fun r u ⟨hu, hr⟩ => ?_)
  refine ⟨true, by simpa [follow, h, Obj.isDir] using hr, ?_⟩
  exact Prog.succeeds_ret hu

/-- A missing directory is made, and one that is there is left alone. -/
theorem mkdir_or_dir {k : Exn → OsM Unit} {Q : Tree → Prop} {mode : Nat}
    (hmade : (∀ n d, p = n :: d → ∃ m, t.get d = some (.dir m)) → t.get p = none → ∀ u,
      (∀ q, u.get q = if q = p then some (.dir mode) else t.get q) → Q u)
    (hmissing : ∀ n d, p = n :: d → t.get p = none → t.get d = none →
      (k (osError .enoent)).Succeeds reliable (fun _ => Q) t)
    (hthere : ∀ m, t.get p = some (.dir m) → (k (osError .eexist)).Succeeds reliable (fun _ => Q) t)
    (h : Makeable t p) :
    (tryCatch (Prog.perform (.mkdir p mode)) k : OsM Unit).Succeeds reliable (fun _ => Q) t := by
  refine Prog.wp_handle.mpr (Prog.wp_perform.mpr ⟨trivial, fun r u hstep => ⟨trivial, ?_⟩⟩)
  have hstep : Updates (t.add p (.dir mode)) () t r u := hstep
  rcases h.cases with hnone | ⟨m, hdir⟩
  · by_cases hparent : ∀ n d, p = n :: d → ∃ m, t.get d = some (.dir m)
    · obtain ⟨t', ht'⟩ := Tree.add_succeeds (o := .dir mode) hnone hparent
      obtain rfl := hstep.isOk ⟨t', ht'⟩
      exact ⟨(), rfl, hmade hparent hnone u (Tree.add_eq_ok (Updates.ok hstep).1).2.2⟩
    · cases p with
      | nil => exact absurd (fun _ _ he => by cases he) hparent
      | cons n d =>
        have hd : t.get d = none := by
          rcases h with ⟨m, hdir⟩ | ⟨-, hd⟩
          · cases hnone.symm.trans hdir
          · refine hd.cases.resolve_right fun ⟨m, hm⟩ => hparent fun n' d' he => ?_
            exact ⟨m, (List.cons.inj he).2 ▸ hm⟩
        rw [Tree.add_of_orphan hd] at hstep
        obtain ⟨rfl, rfl⟩ := hstep
        exact hmissing n d rfl hnone hd
  · rw [Tree.add_of_there (by rw [hdir]; nofun)] at hstep
    obtain ⟨rfl, rfl⟩ := hstep
    exact hthere m hdir

theorem mkdirOne_succeeds (h : t.get p = none ∨ ∃ m, t.get p = some (.dir m))
    (hparent : ∀ n d, p = n :: d → ∃ m, t.get d = some (.dir m)) (mode : Nat) :
    (mkdirOne p mode).Succeeds reliable (fun _ u =>
      (∃ m, u.get p = some (.dir m)) ∧ ∀ q, u.get q = t.get q ∨
        q = p ∧ t.get p = none ∧ u.get p = some (.dir mode)) t := by
  refine mkdir_or_dir (fun _ hnone u hu => ⟨⟨mode, (hu p).trans (if_pos rfl)⟩, fun q => ?_⟩)
    (fun n d hp _ hd => ?_) (fun m hm => ?_) ?_
  · by_cases hq : q = p
    · exact .inr ⟨hq, hnone, (hu p).trans (if_pos rfl)⟩
    · exact .inl ((hu q).trans (if_neg hq))
  · obtain ⟨m, hm⟩ := hparent n d hp
    cases hd.symm.trans hm
  · rw [if_pos (by decide)]
    exact (isDir_succeeds hm _).mono fun _ u hu => by
      subst hu
      exact ⟨⟨m, hm⟩, fun _ => .inl rfl⟩
  · cases p with
    | nil => exact h
    | cons n d =>
      obtain ⟨m, hm⟩ := hparent n d rfl
      exact h.elim (fun hn => .inr ⟨hn, makeable_of_dir hm⟩) .inl

/-- A directory that can be made is made, with what is missing above it. -/
theorem mkdirParents_succeeds (h : Makeable t p) (mode : Nat) :
    (mkdirParents p mode).Succeeds reliable
      (fun _ u => (∃ m, u.get p = some (.dir m)) ∧ Made t p u) t := by
  induction p generalizing mode with
  | nil =>
    refine (mkdirOne_succeeds h.cases nofun mode).mono fun _ u ⟨hdir, hu⟩ => ⟨hdir, fun q => ?_⟩
    exact (hu q).imp_right fun ⟨hq, hnone, hmade⟩ => ⟨hq ▸ List.suffix_rfl, hq ▸ hnone, mode, hq ▸ hmade⟩
  | cons n d ih =>
    refine mkdir_or_dir (fun _ hnone u hu => ⟨⟨mode, (hu _).trans (if_pos rfl)⟩, ?_⟩)
      (fun n' d' he hnone hd => ?_) (fun m hm => ?_) h
    · exact fun q => (Made.refl (p := d)).child hnone hu q
    · obtain ⟨rfl, rfl⟩ := List.cons.inj he
      have hmake : Makeable t d := h.elim (fun ⟨m, hm⟩ => by cases hnone.symm.trans hm) And.right
      rw [if_pos (by decide)]
      refine Prog.succeeds_bind ((ih hmake 0o777).mono fun _ u ⟨⟨m, hm⟩, hu⟩ => ?_)
      have hnone' : u.get (n :: d) = none := by
        rcases hu (n :: d) with hsame | ⟨hs, -, -⟩
        · exact hsame.trans hnone
        · exact absurd hs (Path.not_below_parent n d)
      refine (mkdirOne_succeeds (.inl hnone') (fun _ _ he => ⟨m, (List.cons.inj he).2 ▸ hm⟩) mode).mono
        fun _ v ⟨hdir, hv⟩ => ⟨hdir, fun q => ?_⟩
      rcases hv q with hsame | ⟨rfl, -, hmade⟩
      · exact (hu q).imp (fun h => hsame.trans h) fun ⟨hs, ht, m', hm'⟩ =>
          ⟨hs.trans (List.suffix_cons n d), ht, m', hsame.trans hm'⟩
      · exact .inr ⟨List.suffix_rfl, hnone, mode, hmade⟩
    · rw [if_neg (by decide), if_pos (by decide)]
      exact (isDir_succeeds hm _).mono fun _ u hu => by
        subst hu
        exact ⟨⟨m, hm⟩, .refl⟩

theorem isSymlink_succeeds (h : t.get p = none ∨ ∃ m, t.get p = some (.dir m)) :
    (isSymlink p).Succeeds reliable (fun b u => u = t ∧ b = false) t := by
  refine Prog.wp_handle.mpr (Prog.wp_bind.mpr (Prog.wp_perform.mpr
    ⟨trivial, fun r u ⟨hu, hr⟩ => ⟨trivial, ?_⟩⟩))
  rcases h with hnone | ⟨m, hdir⟩
  · rw [hnone] at hr
    subst hr
    exact ⟨trivial, false, rfl, hu, rfl⟩
  · rw [hdir] at hr
    subst hr
    exact ⟨trivial, false, rfl, hu, rfl⟩

/-- A private directory that can be made is ensured. -/
theorem ensurePrivateDirectory_succeeds (h : Makeable t p) :
    (ensurePrivateDirectory p).Succeeds reliable (fun _ u => u.get p = some (.dir 0o700) ∧
      ∀ q, q ≠ p → u.get q = t.get q ∨ q <:+ p ∧ t.get q = none ∧ ∃ m, u.get q = some (.dir m)) t := by
  refine Prog.succeeds_bind ((isSymlink_succeeds h.cases).mono fun b u ⟨hu, hb⟩ => ?_)
  subst hu hb
  refine Prog.succeeds_bind (Prog.Succeeds.mono (Q := fun (st : Stat) v => st.kind = .directory ∧
    (∃ m, v.get p = some (.dir m)) ∧ Made u p v) (Prog.succeeds_handle (Prog.succeeds_bind
      ((mkdirParents_succeeds h 0o700).mono fun _ v ⟨⟨m, hm⟩, hv⟩ => Prog.succeeds_bind
        ((openRead_succeeds hm nofun).mono fun st w ⟨hw, hst⟩ => ?_)))) fun st v ⟨hkind, ⟨m, hm⟩, hv⟩ => ?_)
  · subst hw hst
    exact Prog.succeeds_ret ⟨rfl, ⟨m, hm⟩, hv⟩
  · refine Prog.succeeds_ite (fun hbad => absurd hkind hbad) fun _ => ?_
    refine (chmod_dir_succeeds hm).mono fun _ w hw => ⟨(hw p).trans (if_pos rfl), fun q hq => ?_⟩
    rw [hw q, if_neg hq]
    exact hv q

/-! ## Where none can be made -/

/-- No directory can be made on the way to `p`. -/
def Stuck (t : Tree) (p : Path) : Prop := ∀ q, q <:+ p → ∀ mode t', t.add q (.dir mode) ≠ .ok t'

theorem Stuck.parent {n : String} (h : Stuck t (n :: p)) : Stuck t p :=
  fun q hq => h q (hq.trans (List.suffix_cons n p))

theorem stuck_of_not_makeable (h : ¬ Makeable t p) : Stuck t p := by
  have hthere {q : Path} (hq : t.get q ≠ none) (mode : Nat) (t' : Tree) : t.add q (.dir mode) ≠ .ok t' :=
    fun hadd => hq (Tree.add_eq_ok hadd).1
  induction p with
  | nil =>
    intro q hq
    obtain rfl := List.suffix_nil.mp hq
    exact hthere fun hnone => h (.inl hnone)
  | cons n d ih =>
    intro q hq mode t' hadd
    by_cases hnone : t.get (n :: d) = none
    · have hd : ¬ Makeable t d := fun hd => h (.inr ⟨hnone, hd⟩)
      rcases List.suffix_cons_iff.mp hq with rfl | hq
      · obtain ⟨m, hm⟩ := (Tree.add_eq_ok hadd).2.1 n d rfl
        exact hd (makeable_of_dir hm)
      · exact ih hd q hq mode t' hadd
    · -- everything above is there
      refine hthere (fun hq' => hnone ?_) mode t' hadd
      obtain ⟨l, hl⟩ := hq
      exact hl ▸ Tree.get_below_eq_none hq' l

theorem isDir_quiet (p : Path) (e : Exn) : (do
    unless ← Prog.perform (.isDir p) do throw e : OsM Unit).Keeps machine.traced (Quiet t) :=
  reads_quiet (Prog.Only.bind (Prog.only_perform.mpr fun _ => id) fun _ => by split <;> simp) t

theorem mkdir_quiet (h : ∀ mode t', t.add p (.dir mode) ≠ .ok t') (mode : Nat) :
    (Prog.perform (.mkdir p mode) : OsM Unit).Keeps machine.traced (Quiet t) :=
  perform_quiet fun _ t' hstep => h mode t' (Updates.ok (Step.ok hstep)).1

theorem mkdirOne_quiet (h : Stuck t p) (mode : Nat) :
    (mkdirOne p mode).Keeps machine.traced (Quiet t) := by
  refine (mkdir_quiet (h p List.suffix_rfl) mode).handle fun e => ?_
  split
  · exact isDir_quiet p e
  · exact Prog.keeps_raise

theorem mkdirParents_quiet (h : Stuck t p) (mode : Nat) :
    (mkdirParents p mode).Keeps machine.traced (Quiet t) := by
  induction p generalizing mode with
  | nil => exact mkdirOne_quiet h mode
  | cons n d ih =>
    refine (mkdir_quiet (h _ List.suffix_rfl) mode).handle fun e => ?_
    split
    · exact (ih h.parent 0o777).bind fun _ => mkdirOne_quiet h mode
    split
    · exact isDir_quiet _ e
    · exact Prog.keeps_raise

/-- A private directory that cannot be made is refused, and nothing is done. -/
theorem ensurePrivateDirectory_refused (h : ¬ Makeable t p) {s : Tree × List (Event OsOp Exn)}
    (hs : Quiet t s) :
    (ensurePrivateDirectory p).wp machine.traced (Quiet t) (Refused t) s := by
  have hlink : (isSymlink p).Keeps machine.traced (Quiet t) :=
    reads_quiet ((Prog.only_perform.mpr fun _ => id).bind (fun _ => Prog.only_ret) |>.handle fun _ =>
      Prog.only_ret.ite Prog.only_raise) t
  refine quiet_bind hlink (Prog.yields_trivial _ t) hs (fun e _ hs => ⟨hs, e, rfl⟩) fun link s _ hs => ?_
  split
  · exact ⟨hs, hs, _, rfl⟩
  have hbody : (do
      mkdirParents p 0o700
      let st ← Prog.perform (.openRead p)
      if st.kind ≠ .directory then throw (osError .enotdir)
      return st : OsM Stat).wp machine.traced (Quiet t) (Refused t) s := by
    refine quiet_bind (mkdirParents_quiet (stuck_of_not_makeable h) 0o700) (Prog.yields_trivial _ t) hs
      (fun e _ hs => ⟨hs, e, rfl⟩) fun _ s _ hs => ?_
    refine quiet_bind (R := fun st => ∃ o, t.get p = some o ∧ st = statOf o)
      (reads_quiet (Prog.only_perform.mpr fun _ => id) t) (Prog.yields_perform fun st u hstep => ?_) hs
      (fun e _ hs => ⟨hs, e, rfl⟩) fun st s ⟨o, ho, hst⟩ hs => ?_
    · exact (Step.ok hstep).openRead.2
    · have hkind : st.kind ≠ .directory := fun hk => by
        obtain ⟨m, rfl⟩ := kind_statOf_directory.mp (hst ▸ hk)
        exact h (makeable_of_dir ho)
      rw [if_pos hkind]
      exact ⟨hs, hs, _, rfl⟩
  refine Prog.wp_bind.mpr (Prog.wp_handle.mpr (hbody.post fun r s _ ⟨hs, e, hr⟩ => ?_))
  subst hr
  show Prog.wp machine.traced (Quiet t) _ _ s
  split
  · exact ⟨hs, hs, _, rfl⟩
  · exact ⟨hs, hs, _, rfl⟩

end

/-! ## The operations of the file operations -/

section
variable {P : {β : Type} → OsOp β → Prop} {p d : Path}

theorem isDir_only (hreads : ∀ {β : Type} {op : OsOp β}, op.Reads → P op) (p : Path) (e : Exn) : (do
    unless ← Prog.perform (.isDir p) do throw e : OsM Unit).Only P :=
  (Prog.only_perform.mpr (hreads fun _ => id)).bind fun _ => by split <;> simp

theorem mkdirOne_only (hreads : ∀ {β : Type} {op : OsOp β}, op.Reads → P op)
    (hmkdir : ∀ mode, P (.mkdir p mode)) (mode : Nat) : (mkdirOne p mode).Only P :=
  (Prog.only_perform.mpr (hmkdir mode)).handle fun e => (isDir_only hreads p e).ite Prog.only_raise

theorem mkdirParents_only (hreads : ∀ {β : Type} {op : OsOp β}, op.Reads → P op)
    (hmkdir : ∀ q, q <:+ p → ∀ mode, P (.mkdir q mode)) (mode : Nat) : (mkdirParents p mode).Only P := by
  induction p generalizing mode with
  | nil => exact mkdirOne_only hreads (hmkdir [] List.suffix_rfl) mode
  | cons n d ih =>
    have hthis := hmkdir (n :: d) List.suffix_rfl
    have hparents := ih (fun q hq => hmkdir q (hq.trans (List.suffix_cons n d))) 0o777
    exact (Prog.only_perform.mpr (hthis mode)).handle fun e =>
      (hparents.bind fun _ => mkdirOne_only hreads hthis mode).ite
        ((isDir_only hreads _ e).ite Prog.only_raise)

theorem ensurePrivateDirectory_performs (hreads : ∀ {β : Type} {op : OsOp β}, op.Reads → P op)
    (hmkdir : ∀ q, q <:+ p → ∀ mode, P (.mkdir q mode)) (hchmod : P (.chmod p 0o700)) :
    (ensurePrivateDirectory p).Only P := by
  have hlook {β : Type} {op : OsOp β} (h : op.Reads) : (Prog.perform op : OsM β).Only P :=
    Prog.only_perform.mpr (hreads h)
  refine Prog.Only.bind (((hlook fun _ => id).bind fun _ => Prog.only_ret).handle fun _ =>
    Prog.only_ret.ite Prog.only_raise) fun link => ?_
  refine Prog.Only.ite Prog.only_raise (Prog.Only.bind (Prog.Only.handle
    ((mkdirParents_only hreads hmkdir _).bind fun _ => (hlook fun _ => id).bind fun st => ?_) fun e =>
      Prog.only_raise.ite Prog.only_raise) fun st => ?_)
  · exact Prog.Only.ite Prog.only_raise Prog.only_ret
  · exact Prog.Only.ite Prog.only_raise (Prog.only_perform.mpr hchmod)

theorem ensurePrivateDirectory_only (hreads : ∀ {β : Type} {op : OsOp β}, op.Reads → P op)
    (hmkdir : ∀ q, q <:+ p → ∀ mode, P (.mkdir q mode)) (hchmod : ∀ mode, P (.chmod p mode)) :
    (ensurePrivateDirectory p).Only P :=
  ensurePrivateDirectory_performs hreads hmkdir (hchmod _)

theorem atomicWriteBytes_only (hreads : ∀ {β : Type} {op : OsOp β}, op.Reads → P op)
    (hdir : (ensurePrivateDirectory d).Only P) (htemp : P (.mkstemp d s!".{n}."))
    (hchmod : ∀ m mode, P (.chmod (m :: d) mode)) (hwrite : ∀ m content, P (.write (m :: d) content))
    (hrename : ∀ m, P (.rename (m :: d) (n :: d))) (hunlink : ∀ m, P (.unlink (m :: d)))
    (content : Bytes) (mode : Nat) : (atomicWriteBytes (n :: d) content mode).Only P := by
  have hsync (p : Path) : (Prog.perform (.fsync p) : OsM Unit).Only P :=
    Prog.only_perform.mpr (hreads fun _ => id)
  refine hdir.bind fun _ => (Prog.only_perform.mpr htemp).bind fun name => Prog.Only.handle ?_ fun e => ?_
  · exact (Prog.only_perform.mpr (hchmod name mode)).bind fun _ =>
      (Prog.only_perform.mpr (hwrite name content)).bind fun _ => (hsync _).bind fun _ =>
        (Prog.only_perform.mpr (hrename name)).bind fun _ => hsync _
  · exact Prog.Only.bind ((Prog.only_perform.mpr (hunlink name)).handle fun e =>
      Prog.only_ret.ite Prog.only_raise) fun _ => Prog.only_raise

end

theorem ensurePrivateDirectory_keepsLinks (p : Path) : (ensurePrivateDirectory p).Only KeepsLinks :=
  ensurePrivateDirectory_only keepsLinks_of_reads (fun q _ mode => mkdir_keepsLinks q mode)
    fun mode => chmod_keepsLinks p mode

/-! ## What is there stays -/

/-- An operation that takes and changes nothing. -/
def Adds (op : OsOp β) : Prop :=
  ∀ t r u, Step op t r u → ∀ q, t.get q ≠ none → u.get q = t.get q

theorem adds_of_reads {op : OsOp β} (h : op.Reads) : Adds op :=
  fun _ _ _ hstep _ _ => by rw [h.step hstep]

theorem mkdir_adds (p : Path) (mode : Nat) : Adds (.mkdir p mode) := by
  intro t r u hstep q hq
  cases r with
  | error e => rw [Step.failed hstep]
  | ok _ =>
    obtain ⟨hnone, hget⟩ := (Step.ok hstep).mkdir
    rw [hget q, if_neg]
    rintro rfl
    exact hq hnone

theorem isSymlink_reads (p : Path) : (isSymlink p).Only OsOp.Reads :=
  ((Prog.only_perform.mpr fun _ => id).bind fun _ => Prog.only_ret).handle fun _ =>
    Prog.only_ret.ite Prog.only_raise

/-- A private directory that has been ensured was one before or has been made; nothing else that was
there has changed. -/
theorem ensurePrivateDirectory_adds (p : Path) (t : Tree) :
    (ensurePrivateDirectory p).Yields machine (fun _ u => u.get p = some (.dir 0o700) ∧
      (∀ o, t.get p = some o → o.isDir = true) ∧
      ∀ q, q ≠ p → t.get q ≠ none → u.get q = t.get q) t := by
  have hkeeps {α : Type} {r : OsM α} (h : r.Only Adds) :
      r.Keeps machine fun u => ∀ q, t.get q ≠ none → u.get q = t.get q := by
    refine h.keeps fun op v r u hop hv hstep q hq => ?_
    exact (hop v r u hstep q (by rwa [hv q hq])).trans (hv q hq)
  refine Prog.yields_bind (((Prog.yields_trivial (isSymlink p) t).and_keeps
    (keeps_of_reads (isSymlink_reads p) t) rfl).mono fun link t₁ ⟨_, h₁⟩ => ?_)
  subst h₁
  split
  · exact Prog.yields_bind Prog.yields_raise
  refine Prog.yields_bind (Prog.Yields.mono (Q := fun (_ : Stat) (u : Tree) =>
    (∃ m, u.get p = some (.dir m)) ∧ ∀ q, t₁.get q ≠ none → u.get q = t₁.get q)
    (Prog.yields_handle ?_ fun e u => ?_) fun st u ⟨hdir, hu⟩ => ?_)
  · have hparents : (mkdirParents p 0o700).Only Adds :=
      mkdirParents_only adds_of_reads (fun q _ mode => mkdir_adds q mode) 0o700
    refine Prog.yields_bind (((Prog.yields_trivial _ t₁).and_keeps (hkeeps hparents)
      fun _ _ => rfl).mono fun _ u ⟨_, hu⟩ => ?_)
    refine Prog.yields_bind (Prog.yields_perform fun st v h => ?_)
    obtain ⟨rfl, o, ho, rfl⟩ := (Step.ok h).openRead
    split
    · exact Prog.yields_bind Prog.yields_raise
    · rename_i hk
      obtain ⟨m, rfl⟩ := kind_statOf_directory.mp (not_not.mp hk)
      exact Prog.yields_ret ⟨⟨m, ho⟩, hu⟩
  · exact Prog.yields_ite (fun _ => Prog.yields_raise) fun _ => Prog.yields_raise
  · split
    · exact Prog.yields_bind Prog.yields_raise
    obtain ⟨m, hm⟩ := hdir
    refine Prog.yields_perform fun _ v h => ?_
    have hget : ∀ q, v.get q = if q = p then some (.dir 0o700) else u.get q := by
      rcases (Step.ok h).chmod with ⟨_, _, hfile, -⟩ | ⟨_, -, hget⟩
      · cases hm.symm.trans hfile
      · exact hget
    refine ⟨(hget p).trans (if_pos rfl), fun o ho => ?_, fun q hq hthere => ?_⟩
    · have hsame := hu p (by rw [ho]; nofun)
      rw [hm, ho] at hsame
      cases hsame
      rfl
    · rw [hget q, if_neg hq]
      exact hu q hthere

/-- A private directory that is there already is left as it is. -/
theorem ensurePrivateDirectory_still {p : Path} {t : Tree} (h : t.get p = some (.dir 0o700)) :
    (ensurePrivateDirectory p).wp machine (fun u => u = t) (fun _ u => u = t) t := by
  have hthere {q : Path} (hq : q <:+ p) : t.get q ≠ none := fun hn => by
    obtain ⟨l, hl⟩ := hq
    have := Tree.get_below_eq_none hn l
    rw [hl, h] at this
    cases this
  have honly : (ensurePrivateDirectory p).Only
      (fun {β} (op : OsOp β) => ∀ r u, machine.step op t r u → u = t) := by
    refine ensurePrivateDirectory_performs (fun hop _ _ hstep => hop.step hstep)
      (fun q hq mode r u hstep => ?_) fun r u hstep => ?_
    · cases r with
      | error e => exact Step.failed hstep
      | ok _ => exact absurd (Step.ok hstep).mkdir.1 (hthere hq)
    · cases r with
      | error e => exact Step.failed hstep
      | ok _ =>
        have hchmod : t.chmod p 0o700 = .ok t := by
          unfold Tree.chmod
          split
          · rename_i hfile
            cases h.symm.trans hfile
          · rename_i hdir
            cases h.symm.trans hdir
            rw [Tree.update, if_pos rfl]
          · rename_i hnot ho
            cases h.symm.trans ho
            exact absurd rfl (hnot _)
          · rename_i hnone
            cases h.symm.trans hnone
        exact Except.ok.inj ((Updates.ok (Step.ok hstep)).1.symm.trans hchmod)
  refine (honly.keeps fun op v r u hop hv hstep => ?_) t rfl
  subst hv
  exact hop r u hstep

end Files
end ShuttleGate
