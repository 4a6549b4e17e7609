import ShuttleGate.Files.Making

/-! # What a run leaves

The files that are there after a run and were not before, those that are gone, the links among them,
and what a file of its own may hold. Renaming apart, every operation works at one path. -/

namespace ShuttleGate

open Fs Effect

namespace Os

/-- There is a file, or something else that is no directory. -/
def FileAt (t : Tree) (q : Path) : Prop := ∃ o, t.get q = some o ∧ o.isDir = false

theorem FileAt.congr {t u : Tree} (h : u.get q = t.get q) : FileAt u q ↔ FileAt t q := by
  rw [FileAt, FileAt, h]

theorem fileAt_of_get {t : Tree} (h : t.get q = some (.file m content)) : FileAt t q := ⟨_, h, rfl⟩

/-! ## Single operations -/

/-- Everything but `rename`; links are not made. -/
def OsOp.Single : OsOp β → Prop
  | rename _ _ | symlink _ _ => False
  | _ => True

/-- The paths an operation may make a file at. -/
def OsOp.creates : OsOp β → Path → Prop
  | openWrite p _, q | openCreate p _, q | keygen p _, q => q = p
  | mkstemp d pre, q => ∃ suffix, IsTempSuffix suffix ∧ q = d / (pre ++ suffix)
  | _, _ => False

/-- The paths an operation may take a file from. -/
def OsOp.removes : OsOp β → Path → Prop
  | unlink p, q => q = p
  | _, _ => False

/-- The contents an operation may put into a file. -/
def OsOp.fills : OsOp β → Path → Bytes → Prop
  | write p content, q, c => q = p ∧ c = content
  | keygen p _, q, _ => q = p
  | _, _, _ => False

/-- What a single operation may do to the object at a path. -/
structure Alters (op : OsOp β) (q : Path) (t u : Tree) : Prop where
  made : FileAt u q → FileAt t q ∨ op.creates q
  kept : FileAt t q → FileAt u q ∨ op.removes q
  content : ∀ m c, u.get q = some (.file m c) →
    (∃ m', t.get q = some (.file m' c)) ∨ c = [] ∨ op.fills q c
  links : u.linkAt q = t.linkAt q ∨ op.removes q ∧ u.linkAt q = none

section
variable {t u : Tree} {op : OsOp β} {p : Path} {o : Option Obj}

theorem linkAt_of_get {o : Obj} (h : t.get q = some o) (ho : ∀ s, o ≠ .link s) : t.linkAt q = none := by
  rw [Tree.linkAt, h]
  cases o with
  | link s => exact absurd rfl (ho s)
  | _ => rfl

theorem linkAt_of_none (h : t.get q = none) : t.linkAt q = none := by
  rw [Tree.linkAt, h]

theorem Alters.same (h : u.get q = t.get q) : Alters op q t u where
  made hu := .inl ((FileAt.congr h).mp hu)
  kept ht := .inl ((FileAt.congr h).mpr ht)
  content m _ hc := .inl ⟨m, h ▸ hc⟩
  links := .inl (by rw [Tree.linkAt, Tree.linkAt, h])

theorem alters_of_get (hget : ∀ q, u.get q = if q = p then o else t.get q) (h : Alters op p t u)
    (q : Path) : Alters op q t u := by
  by_cases hq : q = p
  · exact hq ▸ h
  · exact .same ((hget q).trans (if_neg hq))

theorem alters_dir (hnone : t.get p = none) (hu : u.get p = some (.dir m)) : Alters op p t u where
  made := fun ⟨o, ho, hfile⟩ => by
    cases hu.symm.trans ho
    cases hfile
  kept := fun ⟨o, ho, _⟩ => by cases hnone.symm.trans ho
  content _ _ hc := by cases hu.symm.trans hc
  links := .inl ((linkAt_of_get hu nofun).trans (linkAt_of_none hnone).symm)

theorem alters_new (hnone : t.get p = none) (hu : u.get p = some (.file m c)) (hmade : op.creates p)
    (hcontent : c = [] ∨ op.fills p c) : Alters op p t u where
  made _ := .inr hmade
  kept := fun ⟨o, ho, _⟩ => by cases hnone.symm.trans ho
  content _ _ hc := by
    cases hu.symm.trans hc
    exact .inr hcontent
  links := .inl ((linkAt_of_get hu nofun).trans (linkAt_of_none hnone).symm)

theorem alters_file (ht : t.get p = some (.file m c)) (hu : u.get p = some (.file m' c'))
    (hcontent : c' = c ∨ c' = [] ∨ op.fills p c') : Alters op p t u where
  made _ := .inl (fileAt_of_get ht)
  kept _ := .inl (fileAt_of_get hu)
  content _ _ hc := by
    cases hu.symm.trans hc
    rcases hcontent with rfl | hc
    · exact .inl ⟨_, ht⟩
    · exact .inr hc
  links := .inl ((linkAt_of_get hu nofun).trans (linkAt_of_get ht nofun).symm)

theorem alters_unlinked (hu : u.get p = none) (hremoves : op.removes p) : Alters op p t u where
  made := fun ⟨o, ho, _⟩ => by cases hu.symm.trans ho
  kept _ := .inr hremoves
  content _ _ hc := by cases hu.symm.trans hc
  links := .inr ⟨hremoves, linkAt_of_none hu⟩

/-- A directory is changed, or is gone. -/
theorem alters_of_dir (ht : t.get p = some (.dir m)) (hu : u.get p = none ∨ ∃ m, u.get p = some (.dir m)) :
    Alters op p t u where
  made := fun ⟨o, ho, hfile⟩ => by
    rcases hu with hu | ⟨m, hu⟩ <;> cases hu.symm.trans ho
    cases hfile
  kept := fun ⟨o, ho, hfile⟩ => by
    cases ht.symm.trans ho
    cases hfile
  content _ _ hc := by rcases hu with hu | ⟨m, hu⟩ <;> cases hu.symm.trans hc
  links := by
    refine .inl (Eq.trans ?_ (linkAt_of_get ht nofun).symm)
    rcases hu with hu | ⟨m, hu⟩
    · exact linkAt_of_none hu
    · exact linkAt_of_get hu nofun

/-- One step of a single operation. -/
theorem Step.alters (hop : op.Single) (hstep : Step op t r u) (q : Path) : Alters op q t u := by
  cases r with
  | error e => exact .same (by rw [Step.failed hstep])
  | ok a =>
    have ha := Step.ok hstep
    have hadd {p : Path} {m : Nat} {c : Bytes} (h : t.add p (.file m c) = .ok u) (hmade : op.creates p)
        (hcontent : c = [] ∨ op.fills p c) : Alters op q t u :=
      have ⟨hnone, _, hget⟩ := Tree.add_eq_ok h
      alters_of_get hget (alters_new hnone ((hget p).trans (if_pos rfl)) hmade hcontent) q
    cases op with
    | rename src dst | symlink target p => exact hop.elim
    | mkdir p mode =>
      obtain ⟨hnone, hget⟩ := ha.mkdir
      exact alters_of_get hget (alters_dir hnone ((hget p).trans (if_pos rfl))) q
    | mkstemp d pre =>
      obtain ⟨suffix, hsuffix, -, hupdate⟩ := ha
      exact hadd (Updates.ok hupdate).1 ⟨suffix, hsuffix, rfl⟩ (.inl rfl)
    | openWrite p mode =>
      have hupdate := (Updates.ok ha).1
      split at hupdate
      · exact hadd hupdate rfl (.inl rfl)
      · obtain ⟨m, c, hp, hget⟩ := Tree.write_eq_ok hupdate
        exact alters_of_get hget (alters_file hp ((hget p).trans (if_pos rfl)) (.inr (.inl rfl))) q
    | openCreate p mode =>
      simp only [Answers] at ha
      split at ha
      · exact hadd (Updates.ok ha).1 rfl (.inl rfl)
      all_goals exact .same (by rw [ha.1])
    | write p content =>
      obtain ⟨m, c, hp, hget⟩ := ha.write
      have hfills : (OsOp.write p content).fills p content := ⟨rfl, rfl⟩
      exact alters_of_get hget (alters_file hp ((hget p).trans (if_pos rfl)) (.inr (.inr hfills))) q
    | chmod p mode =>
      rcases ha.chmod with ⟨m, c, hp, hget⟩ | ⟨m, hp, hget⟩
      · exact alters_of_get hget (alters_file hp ((hget p).trans (if_pos rfl)) (.inl rfl)) q
      · exact alters_of_get hget (alters_of_dir hp (.inr ⟨mode, (hget p).trans (if_pos rfl)⟩)) q
    | unlink p =>
      have hget := ha.unlink.2
      have hremoves : (OsOp.unlink p).removes p := rfl
      exact alters_of_get hget (alters_unlinked ((hget p).trans (if_pos rfl)) hremoves) q
    | rmdir p =>
      obtain ⟨⟨m, hm⟩, -, hget⟩ := ha.rmdir
      exact alters_of_get hget (alters_of_dir hm (.inl ((hget p).trans (if_pos rfl)))) q
    | keygen p comment =>
      obtain ⟨_, -, -, hupdate⟩ := ha
      exact hadd (Updates.ok hupdate).1 rfl (.inr rfl)
    | _ => exact .same (by rw [ha.1])

/-! ## Renaming a file -/

/-- A file that is renamed is at its new path, and nothing else changes. -/
theorem rename_file {src dst : Path} (hsrc : t.get src = some (.file m c))
    (hstep : Step (.rename src dst) t r u) : u = t ∨
      ∀ q, u.get q = if q = dst then some (.file m c) else if q = src then none else t.get q := by
  cases r with
  | error e => exact .inl (Step.failed hstep)
  | ok _ =>
    by_cases hne : src = dst
    · left
      have hok := (Updates.ok (Step.ok hstep)).1
      unfold Tree.rename at hok
      split at hok
      · cases hok
      · rw [if_pos hne] at hok
        cases hok
        rfl
    · right
      intro q
      obtain ⟨-, hapart, hchildless, hmoved, hgone, hrest⟩ := (Step.ok hstep).rename hne
      -- nothing is below the file or the path it comes to
      have hbelow {l : Path} (hl : l ≠ []) : t.get (l ++ src) = none := by
        by_contra hthere
        obtain ⟨m', hm'⟩ := Tree.dir_of_below hthere hl
        cases hsrc.symm.trans hm'
      by_cases hdst : dst <:+ q
      · obtain ⟨l, rfl⟩ := hdst
        by_cases hl : l = []
        · subst hl
          exact ((hmoved []).trans hsrc).trans (if_pos rfl).symm
        · have hother : l ++ dst ≠ dst := fun he => hl (by simpa using he)
          rw [if_neg hother, hmoved, hbelow hl, Tree.get_below_of_childless hchildless hl, ite_self]
      · have hother : q ≠ dst := fun he => hdst (he ▸ List.suffix_rfl)
        rw [if_neg hother]
        by_cases hs : src <:+ q
        · rw [hgone q hs]
          obtain ⟨l, rfl⟩ := hs
          by_cases hl : l = []
          · rw [if_pos (by simp [hl])]
          · rw [hbelow hl, ite_self]
        · have hneq : q ≠ src := fun he => hs (he ▸ List.suffix_rfl)
          rw [if_neg hneq, hrest q hdst hs]

end

/-! ## Runs -/

/-- A run from `t₀` has come to `t`: it has made no files but those of `A`, has taken away none but
those of `R`, has made no link, and what is in the file `J` satisfies `H`. -/
structure Leaves (t₀ : Tree) (A R : Path → Prop) (J : Path) (H : Bytes → Prop) (t : Tree) : Prop where
  made : ∀ q, FileAt t q → FileAt t₀ q ∨ A q
  kept : ∀ q, FileAt t₀ q → FileAt t q ∨ R q
  content : ∀ m c, t.get J = some (.file m c) → H c
  links : ∀ q, t.linkAt q = t₀.linkAt q ∨ (A q ∨ R q) ∧ t.linkAt q = none

/-- A single operation of such a run. -/
structure Fits (A R : Path → Prop) (J : Path) (H : Bytes → Prop) (op : OsOp β) : Prop where
  single : op.Single
  made : ∀ q, op.creates q → A q := by exact fun _ h => h.elim
  kept : ∀ q, op.removes q → R q := by exact fun _ h => h.elim
  content : ∀ c, op.fills J c → H c := by exact fun _ h => h.elim

section
variable {t₀ t u : Tree} {A R : Path → Prop} {J : Path} {H : Bytes → Prop}

theorem Leaves.start (h : ∀ m c, t.get J = some (.file m c) → H c) : Leaves t A R J H t :=
  ⟨fun _ => .inl, fun _ => .inl, h, fun _ => .inl rfl⟩

theorem Leaves.mono {A' R' : Path → Prop} (h : Leaves t₀ A R J H t) (hA : ∀ q, A q → A' q)
    (hR : ∀ q, R q → R' q) : Leaves t₀ A' R' J H t where
  made q hq := (h.made q hq).imp_right (hA q)
  kept q hq := (h.kept q hq).imp_right (hR q)
  content := h.content
  links q := (h.links q).imp_right fun hq => ⟨hq.1.imp (hA q) (hR q), hq.2⟩

/-- What is not there has not been made. -/
theorem Leaves.shrink {p : Path} (h : Leaves t₀ (fun q => A q ∨ q = p) R J H t) (hgone : t.get p = none)
    (hlink : (A p ∨ R p) ∨ t₀.linkAt p = none) : Leaves t₀ A R J H t where
  made q hq := by
    rcases h.made q hq with ht | hA | rfl
    · exact .inl ht
    · exact .inr hA
    · obtain ⟨o, ho, -⟩ := hq
      cases hgone.symm.trans ho
  kept := h.kept
  content := h.content
  links q := by
    rcases h.links q with hsame | ⟨(hA | rfl) | hR, hnone⟩
    · exact .inl hsame
    · exact .inr ⟨.inl hA, hnone⟩
    · exact hlink.elim (fun hp => .inr ⟨hp, hnone⟩) fun ht => .inl (hnone.trans ht.symm)
    · exact .inr ⟨.inr hR, hnone⟩

theorem Leaves.step {op : OsOp β} (h : Leaves t₀ A R J H t) (hempty : H []) (hop : Fits A R J H op)
    (hstep : Step op t r u) : Leaves t₀ A R J H u where
  made q hq := by
    rcases (hstep.alters hop.single q).made hq with ht | hmade
    · exact h.made q ht
    · exact .inr (hop.made q hmade)
  kept q hq := by
    rcases h.kept q hq with ht | hgone
    · exact ((hstep.alters hop.single q).kept ht).imp_right (hop.kept q)
    · exact .inr hgone
  content m c hc := by
    rcases (hstep.alters hop.single J).content m c hc with ⟨m', ht⟩ | rfl | hfills
    · exact h.content m' c ht
    · exact hempty
    · exact hop.content c hfills
  links q := by
    rcases (hstep.alters hop.single q).links with hsame | ⟨hgone, hnone⟩
    · rw [hsame]
      exact h.links q
    · exact .inr ⟨.inr (hop.kept q hgone), hnone⟩

theorem keeps_leaves {p : OsM α} (hp : p.Only (Fits A R J H)) (hempty : H []) (t₀ : Tree) :
    p.Keeps machine (Leaves t₀ A R J H) :=
  hp.keeps fun _ _ _ _ hop hs hstep => hs.step hempty hop hstep

theorem fits_of_reads {op : OsOp β} (h : op.Reads) : Fits A R J H op where
  single := by
    cases op with
    | rename src dst => exact h src (.inl List.suffix_rfl)
    | symlink target p => exact h p rfl
    | _ => trivial
  made q hq := by
    cases op with
    | openWrite | openCreate | keygen | mkstemp => exact absurd hq (h q)
    | _ => exact hq.elim
  kept q hq := by
    cases op with
    | unlink => exact absurd hq (h q)
    | _ => exact hq.elim
  content _ hq := by
    cases op with
    | write => exact absurd hq.1 (h J)
    | keygen => exact absurd hq (h J)
    | _ => exact hq.elim

theorem reads_fits {p : OsM α} (h : p.Only OsOp.Reads) : p.Only (Fits A R J H) :=
  h.mono fun _ => fits_of_reads

theorem fits_mkdir (p : Path) (mode : Nat) : Fits A R J H (.mkdir p mode) where
  single := trivial

theorem fits_chmod (p : Path) (mode : Nat) : Fits A R J H (.chmod p mode) where
  single := trivial

theorem fits_unlink {p : Path} (h : R p) : Fits A R J H (.unlink p) where
  single := trivial
  kept _ hq := hq ▸ h

/-- A file is renamed. -/
theorem Leaves.rename (h : Leaves t₀ A R J H t) {src dst : Path} (hsrc : t.get src = some (.file m c))
    (hA : A dst) (hR : R src) (hJ : dst = J → H c) (hstep : Step (.rename src dst) t r u) :
    Leaves t₀ A R J H u := by
  rcases rename_file hsrc hstep with rfl | hget
  · exact h
  refine ⟨fun q hq => ?_, fun q hq => ?_, fun m' c' hc => ?_, fun q => ?_⟩
  · by_cases hdst : q = dst
    · exact .inr (hdst ▸ hA)
    by_cases hs : q = src
    · obtain ⟨o, ho, -⟩ := hq
      rw [hget q, if_neg hdst, if_pos hs] at ho
      cases ho
    · exact h.made q ((FileAt.congr (by rw [hget q, if_neg hdst, if_neg hs])).mp hq)
  · by_cases hdst : q = dst
    · exact .inl (fileAt_of_get ((hget q).trans (if_pos hdst)))
    by_cases hs : q = src
    · exact .inr (hs ▸ hR)
    · exact (h.kept q hq).imp_left (FileAt.congr (by rw [hget q, if_neg hdst, if_neg hs])).mpr
  · rw [hget J] at hc
    split at hc
    · rename_i hdst
      cases hc
      exact hJ hdst.symm
    split at hc
    · cases hc
    · exact h.content m' c' hc
  · by_cases hdst : q = dst
    · exact .inr ⟨.inl (hdst ▸ hA), linkAt_of_get ((hget q).trans (if_pos hdst)) nofun⟩
    by_cases hs : q = src
    · exact .inr ⟨.inr (hs ▸ hR), linkAt_of_none (by rw [hget q, if_neg hdst, if_pos hs])⟩
    · have hsame : u.linkAt q = t.linkAt q := by
        rw [Tree.linkAt, Tree.linkAt, hget q, if_neg hdst, if_neg hs]
      rw [hsame]
      exact h.links q

end
end Os

/-! ## Replacing a file -/

namespace Files

open Os

/-- The names of the temporary files a file is replaced with. -/
def TempOf (p q : Path) : Prop :=
  ∃ suffix, IsTempSuffix suffix ∧ q = p.parent / (s!".{p.name}." ++ suffix)

section
variable {t₀ t u : Tree} {A R : Path → Prop} {J p temporary : Path} {H : Bytes → Prop}
  {content : Bytes}

theorem ensurePrivateDirectory_fits (p : Path) : (ensurePrivateDirectory p).Only (Fits A R J H) :=
  ensurePrivateDirectory_only fits_of_reads (fun q _ mode => fits_mkdir q mode) fun mode =>
    fits_chmod p mode

/-- A new file is being written beside the one it is to replace. -/
structure Drafted (t₀ : Tree) (A R : Path → Prop) (J : Path) (H : Bytes → Prop) (temporary : Path)
    (content : Bytes) (t : Tree) : Prop where
  leaves : Leaves t₀ (fun q => A q ∨ q = temporary) (fun q => R q ∨ q = temporary) J H t
  draft : ∀ o, t.get temporary = some o → ∃ m, o = .file m [] ∨ o = .file m content

/-- What is done meanwhile. -/
def Drafts (temporary p : Path) (content : Bytes) : OsOp β → Prop
  | .chmod q _ | .unlink q => q = temporary
  | .write q c => q = temporary ∧ c = content
  | .rename q q' => q = temporary ∧ q' = p
  | op => op.Reads

theorem Drafted.step {op : OsOp β} (h : Drafted t₀ A R J H temporary content t) (hempty : H [])
    (hcontent : H content) (hp : A p) (hop : Drafts temporary p content op)
    (hstep : Step op t r u) : Drafted t₀ A R J H temporary content u := by
  have hreads (hreads : op.Reads) : Drafted t₀ A R J H temporary content u := by
    rw [hreads.step hstep]
    exact h
  -- what is there after a step that has not failed
  have hset {o : Obj} (hget : ∀ q, u.get q = if q = temporary then some o else t.get q)
      (ho : ∃ m, o = .file m [] ∨ o = .file m content) (hfits : Fits (fun q => A q ∨ q = temporary)
        (fun q => R q ∨ q = temporary) J H op) : Drafted t₀ A R J H temporary content u := by
    refine ⟨h.leaves.step hempty hfits hstep, fun o' ho' => ?_⟩
    rw [hget temporary, if_pos rfl] at ho'
    cases ho'
    exact ho
  cases r with
  | error e =>
    rw [Step.failed hstep]
    exact h
  | ok a =>
    cases op with
    | chmod q mode =>
      obtain rfl : q = temporary := hop
      rcases (Step.ok hstep).chmod with ⟨m, c, hc, hget⟩ | ⟨m, hm, -⟩
      · obtain ⟨m', heq | heq⟩ := h.draft _ hc <;> cases heq
        · exact hset hget ⟨mode, .inl rfl⟩ (fits_chmod q mode)
        · exact hset hget ⟨mode, .inr rfl⟩ (fits_chmod q mode)
      · obtain ⟨m', heq | heq⟩ := h.draft _ hm <;> cases heq
    | write q c =>
      obtain ⟨rfl, rfl⟩ := hop
      obtain ⟨m, old, -, hget⟩ := (Step.ok hstep).write
      exact hset hget ⟨m, .inr rfl⟩ { single := trivial, content := fun _ hc => hc.2 ▸ hcontent }
    | unlink q =>
      obtain rfl : q = temporary := hop
      refine ⟨h.leaves.step hempty (fits_unlink (.inr rfl)) hstep, fun o ho => ?_⟩
      rw [(Step.ok hstep).unlink.2 q, if_pos rfl] at ho
      cases ho
    | rename q q' =>
      obtain ⟨rfl, rfl⟩ := hop
      by_cases hthere : t.get q = none
      · have := (Updates.ok (Step.ok hstep)).1
        unfold Tree.rename at this
        split at this
        · cases this
        · rename_i o ho
          cases hthere.symm.trans ho
      obtain ⟨o, ho⟩ := Option.ne_none_iff_exists'.mp hthere
      obtain ⟨m, c, rfl, hc⟩ : ∃ m c, o = .file m c ∧ (c = [] ∨ c = content) := by
        obtain ⟨m, rfl | rfl⟩ := h.draft o ho
        · exact ⟨m, [], rfl, .inl rfl⟩
        · exact ⟨m, content, rfl, .inr rfl⟩
      have hH : H c := hc.elim (fun he => he ▸ hempty) fun he => he ▸ hcontent
      refine ⟨h.leaves.rename ho (.inl hp) (.inr rfl) (fun _ => hH) hstep, fun o' ho' => ?_⟩
      rcases rename_file ho hstep with rfl | hget
      · exact h.draft o' ho'
      · rw [hget q] at ho'
        split at ho'
        · cases ho'
          rcases hc with rfl | rfl
          · exact ⟨m, .inl rfl⟩
          · exact ⟨m, .inr rfl⟩
        · rw [if_pos rfl] at ho'
          cases ho'
    | _ => exact hreads hop

theorem Drafted.kept (h : Drafted t₀ A R J H temporary content t)
    (hkept : FileAt t₀ temporary → R temporary) :
    Leaves t₀ (fun q => A q ∨ q = temporary) R J H t where
  links q := by
    rcases h.leaves.links q with hsame | ⟨hA | hR | htemp, hnone⟩
    · exact .inl hsame
    · exact .inr ⟨.inl hA, hnone⟩
    · exact .inr ⟨.inr hR, hnone⟩
    · exact .inr ⟨.inl (.inr htemp), hnone⟩
  made := h.leaves.made
  kept q hq := by
    rcases h.leaves.kept q hq with ht | hR | rfl
    · exact .inl ht
    · exact .inr hR
    · exact .inr (hkept hq)
  content := h.leaves.content

theorem drafted_of_get (h : Leaves t₀ A R J H t) (hempty : H []) {mode : Nat}
    (hget : ∀ q, u.get q = if q = temporary then some (.file mode []) else t.get q) :
    Drafted t₀ A R J H temporary content u := by
  have hother {q : Path} (hq : q ≠ temporary) : FileAt u q ↔ FileAt t q :=
    FileAt.congr ((hget q).trans (if_neg hq))
  refine ⟨⟨fun q hq => ?_, fun q hq => ?_, fun m c hc => ?_, fun q => ?_⟩, fun o ho => ?_⟩
  · by_cases htemp : q = temporary
    · exact .inr (.inr htemp)
    · exact (h.made q ((hother htemp).mp hq)).imp_right .inl
  · by_cases htemp : q = temporary
    · exact .inr (.inr htemp)
    · exact (h.kept q hq).imp (hother htemp).mpr .inl
  · rw [hget J] at hc
    split at hc
    · cases hc
      exact hempty
    · exact h.content m c hc
  · by_cases htemp : q = temporary
    · exact .inr ⟨.inl (.inr htemp), linkAt_of_get ((hget q).trans (if_pos htemp)) nofun⟩
    · rw [show u.linkAt q = t.linkAt q by rw [Tree.linkAt, Tree.linkAt, hget q, if_neg htemp]]
      exact (h.links q).imp_right fun hq => ⟨hq.1.imp .inl .inl, hq.2⟩
  · rw [hget, if_pos rfl] at ho
    cases ho
    exact ⟨mode, .inl rfl⟩

/-- A file that is replaced leaves nothing but itself, unless the replacement is stopped or fails. -/
theorem atomicWriteBytes_leaves {n : String} {d : Path} (hempty : H []) (hcontent : H content)
    (hA : A (n :: d)) (mode : Nat) (h : Leaves t₀ A R J H t) :
    (atomicWriteBytes (n :: d) content mode).Settles machine
      (Leaves t₀ (fun q => A q ∨ TempOf (n :: d) q) R J H) (fun _ => Leaves t₀ A R J H) t := by
  have hwiden {v : Tree} (hv : Leaves t₀ A R J H v) :
      Leaves t₀ (fun q => A q ∨ TempOf (n :: d) q) R J H v := hv.mono (fun _ => .inl) fun _ => id
  have hdir := (keeps_leaves (ensurePrivateDirectory_fits d) hempty t₀).settles h
  refine Prog.settles_bind (hdir.mono (fun _ => hwiden) fun _ t₁ h₁ _ => ?_)
  refine Prog.settles_bind (Prog.wp_perform.mpr ⟨hwiden h₁, fun r t₂ hstep => ?_⟩)
  cases r with
  | error e =>
    rw [Step.failed hstep]
    exact ⟨hwiden h₁, nofun⟩
  | ok name =>
    obtain ⟨suffix, hsuffix, hname, hnone, hget⟩ := (Step.ok hstep).mkstemp
    have htemp : TempOf (n :: d) (d / name) := ⟨suffix, hsuffix, by rw [hname]; rfl⟩
    -- a file of `t₀` at this path is gone already, and so is a link
    have hkept (hthere : FileAt t₀ (d / name)) : R (d / name) := by
      refine (h₁.kept _ hthere).resolve_left fun ⟨o, ho, _⟩ => ?_
      cases hnone.symm.trans ho
    have hlink : (A (d / name) ∨ R (d / name)) ∨ t₀.linkAt (d / name) = none := by
      rcases h₁.links (d / name) with hsame | ⟨hp, -⟩
      · exact .inr (hsame.symm.trans (linkAt_of_none hnone))
      · exact .inl hp
    have hdrafted : Drafted t₀ A R J H (d / name) content t₂ := drafted_of_get h₁ hempty hget
    have hne : d / name ≠ n :: d := fun he =>
      tempName_ne n suffix (hname.symm.trans (List.cons.inj he).1)
    have hdrop {v : Tree} (hv : Drafted t₀ A R J H (d / name) content v) :
        Leaves t₀ (fun q => A q ∨ TempOf (n :: d) q) R J H v :=
      (hv.kept hkept).mono (fun q hq => hq.imp_right fun he => by rw [he]; exact htemp) fun _ => id
    refine ⟨hdrop hdrafted, fun _ ha => ?_⟩
    cases ha
    refine Prog.Settles.mono (Prog.Yields.settles
      (show Prog.Yields machine _ (fun _ v => v.get (d / name) = none) t₂ from ?_)
      (Prog.Only.keeps (show Prog.Only (Drafts (d / name) (n :: d) content) _ from ?_)
        fun _ _ _ _ hop hs hstep => Drafted.step hs hempty hcontent hA hop hstep) hdrafted)
      (fun _ => hdrop) fun _ v _ ⟨hv, hgone⟩ => (hv.kept hkept).shrink hgone hlink
    · refine Prog.yields_handle_raise (Prog.yields_bind_any fun _ t₃ => Prog.yields_bind_any fun _ t₄ =>
        Prog.yields_bind_any fun _ t₅ => Prog.yields_bind (Prog.yields_perform fun _ t₆ h₆ =>
          Prog.yields_perform fun _ t₇ h₇ => ?_))
      obtain ⟨rfl, -⟩ := Step.ok h₇
      exact ((Step.ok h₆).rename hne).2.2.2.2.1 _ List.suffix_rfl
    · have hsync (p : Path) : (Prog.perform (.fsync p) : OsM Unit).Only
          (Drafts (d / name) (n :: d) content) := Prog.only_perform.mpr fun _ => id
      have hunlink : (unlinkMissingOk (d / name)).Only (Drafts (d / name) (n :: d) content) :=
        ignoreMissing_only (Prog.only_perform.mpr rfl)
      refine Prog.Only.handle ?_ fun e => hunlink.bind fun _ => Prog.only_raise
      exact Prog.Only.bind (Prog.only_perform.mpr rfl) fun _ =>
        Prog.Only.bind (Prog.only_perform.mpr ⟨rfl, rfl⟩) fun _ => (hsync _).bind fun _ =>
          Prog.Only.bind (Prog.only_perform.mpr ⟨rfl, rfl⟩) fun _ => hsync d

end
end Files
end ShuttleGate
