import ShuttleGate.Ssh.Journal
import ShuttleGate.State.Migration
import ShuttleGate.Os.Host

/-! # Recovery of an interrupted replacement

What the recovery does with keys that are neither the old nor the new ones of the journal. -/

namespace ShuttleGate

open Fs Effect Os Files State

namespace Ssh

/-! ## What the checks tell -/

/-- A key file with this digest. -/
def DigestIs (t : Tree) (p : Path) (digest : String) : Prop :=
  ∃ mode content, t.get p = some (.file mode content) ∧ IsKey content ∧ hexdigest content = digest

theorem DigestIs.unique (h : DigestIs t p d) (h' : DigestIs t p d') : d = d' := by
  obtain ⟨_, _, hp, -, rfl⟩ := h
  obtain ⟨_, _, hp', -, rfl⟩ := h'
  cases hp.symm.trans hp'
  rfl

theorem isBounded_iff {mode : Nat} {content : Bytes} :
    isBounded (statOf (.file mode content)) = true ↔ IsKey content := by
  rw [isBounded, Bool.and_eq_true, decide_eq_true_eq, decide_eq_true_eq]
  rfl

section
variable {t : Tree} {p : Path}

section
variable {P : {β : Type} → OsOp β → Prop} (hl : ∀ p, P (.lstat p)) (ho : ∀ p, P (.openRead p))
  (hr : ∀ p, P (.read p))
include hl

theorem pathExists_only (p : Path) : (pathExists p).Only P :=
  Prog.Only.bind (((Prog.only_perform.mpr (hl p)).bind fun _ => Prog.only_ret).handle fun _ =>
    Prog.only_ret.ite Prog.only_raise) fun _ => Prog.only_ret

include ho hr

theorem fileDigest_only (p : Path) (label : String) : (fileDigest p label).Only P := by
  refine Prog.Only.bind ((Prog.only_perform.mpr (ho p)).handle fun e =>
    Prog.only_raise.ite Prog.only_raise) fun st => ?_
  exact Prog.Only.ite Prog.only_raise ((Prog.only_perform.mpr (hr p)).bind fun _ => Prog.only_ret)

theorem matchesDigest_only (p : Path) (expected : Option String) (label : String) :
    (matchesDigest p expected label).Only P := by
  cases expected with
  | none => exact Prog.only_ret
  | some d => exact (pathExists_only hl p).bind fun _ =>
      ((fileDigest_only hl ho hr p label).bind fun _ => Prog.only_ret).ite Prog.only_ret

end

theorem pathExists_reads (p : Path) : (pathExists p).Only OsOp.Reads :=
  pathExists_only (fun _ _ => id) p

theorem matchesDigest_reads (p : Path) (expected : Option String) (label : String) :
    (matchesDigest p expected label).Only OsOp.Reads :=
  matchesDigest_only (fun _ _ => id) (fun _ _ => id) (fun _ _ => id) p expected label

theorem pathExists_yields (p : Path) (t : Tree) :
    (pathExists p).Yields machine (fun b u => u = t ∧ b = (t.get p).isSome) t :=
  Prog.yields_bind ((lstatMissing_yields p t).mono fun st u ⟨hu, hst⟩ =>
    Prog.yields_ret ⟨hu, by rw [hst, Option.isSome_map]⟩)

theorem fileDigest_yields (p : Path) (label : String) (t : Tree) :
    (fileDigest p label).Yields machine (fun d u => u = t ∧ DigestIs t p d) t := by
  refine Prog.yields_bind (Prog.Yields.mono (Q := fun (st : Stat) u => u = t ∧
    ∃ o, t.get p = some o ∧ st = statOf o) (Prog.yields_handle (Prog.yields_perform fun st u h => ?_)
    fun e u => Prog.yields_ite (fun _ => Prog.yields_raise) fun _ => Prog.yields_raise)
    fun st u ⟨hu, o, ho, hst⟩ => ?_)
  · obtain ⟨rfl, o, ho, rfl⟩ := (Step.ok h).openRead
    exact ⟨rfl, o, ho, rfl⟩
  · subst hu hst
    refine Prog.yields_ite (fun _ => Prog.yields_raise) fun hgood => ?_
    obtain ⟨hkind, hbounded⟩ := not_or.mp hgood
    obtain ⟨mode, content, rfl⟩ := kind_statOf_regular.mp (not_not.mp hkind)
    have hkey : IsKey content := isBounded_iff.mp (by simpa using hbounded)
    refine Prog.yields_bind (Prog.yields_perform fun content' v h => ?_)
    obtain ⟨rfl, mode', hread⟩ := (Step.ok h).read
    cases ho.symm.trans hread
    refine Prog.yields_ret ⟨rfl, mode, content, ho, hkey, ?_⟩
    have hall : content.take (maxKeyBytes + 1) = content :=
      List.take_of_length_le (Nat.le_succ_of_le hkey.2)
    rw [hall]

/-- The answer whether a file has a digest. -/
def Compares (t : Tree) (p : Path) (d : String) : Bool → Prop
  | true => DigestIs t p d
  | false => t.get p = none ∨ ∃ d', d' ≠ d ∧ DigestIs t p d'

theorem matchesDigest_yields (p : Path) (d label : String) (t : Tree) :
    (matchesDigest p (some d) label).Yields machine (fun b u => u = t ∧ Compares t p d b) t := by
  refine Prog.yields_bind ((pathExists_yields p t).mono fun b u ⟨hu, hb⟩ => ?_)
  subst hu hb
  refine Prog.yields_ite (fun _ => ?_) fun hnone => Prog.yields_ret ⟨rfl, .inl (by simpa using hnone)⟩
  refine Prog.yields_bind ((fileDigest_yields p label u).mono fun d' v ⟨hv, hd'⟩ => ?_)
  subst hv
  refine Prog.yields_ret ⟨rfl, ?_⟩
  by_cases hd : d' = d
  · simpa [hd, Compares] using hd ▸ hd'
  · simp only [hd, decide_false]
    exact .inr ⟨d', hd, hd'⟩

end

/-! ## Installing one file -/

/-- A content that is neither of the journal's for a path. -/
def Foreign (oldDigest : Option String) (newDigest : String) (content : Bytes) : Prop :=
  hexdigest content ≠ newDigest ∧ oldDigest ≠ some (hexdigest content)

section
variable {t u : Tree} {destination stage backup : Path} {oldDigest : Option String}
  {newDigest label : String}

/-- A foreign content of the destination is there or in the backup. -/
def Kept (t u : Tree) (destination backup : Path) (oldDigest : Option String) (newDigest : String) :
    Prop :=
  ∀ mode content, t.get destination = some (.file mode content) → Foreign oldDigest newDigest content →
    (∃ mode, u.get destination = some (.file mode content)) ∨
      ∃ mode, u.get backup = some (.file mode content)

/-- There is no foreign content at the destination. -/
def Known (t : Tree) (destination : Path) (oldDigest : Option String) (newDigest : String) : Prop :=
  ∀ mode content, t.get destination = some (.file mode content) → ¬ Foreign oldDigest newDigest content

theorem Known.kept (h : Known t destination oldDigest newDigest) :
    Kept t u destination backup oldDigest newDigest :=
  fun _ _ hc hf => absurd hf (h _ _ hc)

theorem Kept.refl : Kept t t destination backup oldDigest newDigest := fun mode _ h _ => .inl ⟨mode, h⟩

/-- The old file has been moved away and the new one is at hand, but a foreign key has taken the
destination meanwhile. -/
structure Overwritten (t : Tree) (destination stage backup : Path) (oldDigest : Option String)
    (newDigest : String) : Prop where
  foreign : ∃ mode content, t.get destination = some (.file mode content) ∧ IsKey content ∧
    Foreign oldDigest newDigest content
  staged : DigestIs t stage newDigest
  saved : ∃ d, oldDigest = some d ∧ DigestIs t backup d

/-- The installation goes through. -/
def Installable (t : Tree) (destination stage backup : Path) (oldDigest : Option String)
    (newDigest : String) : Prop :=
  DigestIs t destination newDigest ∨
    (t.get destination = none ∨ ∃ d, d ≠ newDigest ∧ DigestIs t destination d) ∧
    DigestIs t stage newDigest ∧
    match oldDigest with
    | none => t.get destination = none
    | some d => t.get backup = none ∧ DigestIs t destination d ∨ DigestIs t backup d

/-- An installation that goes through without overwriting anything meets nothing foreign. -/
theorem Installable.known (h : Installable t destination stage backup oldDigest newDigest)
    (hover : ¬ Overwritten t destination stage backup oldDigest newDigest) :
    Known t destination oldDigest newDigest := by
  rintro mode content hc ⟨hnew, hold⟩
  have hdigest {d : String} (hd : DigestIs t destination d) : IsKey content ∧ hexdigest content = d := by
    obtain ⟨_, _, hd, hkey, rfl⟩ := hd
    cases hc.symm.trans hd
    exact ⟨hkey, rfl⟩
  rcases h with hd | ⟨hd, hstage, hrest⟩
  · exact hnew (hdigest hd).2
  cases oldDigest with
  | none => cases hc.symm.trans hrest
  | some d =>
    rcases hrest with ⟨-, hd⟩ | hbackup
    · exact hold (congrArg some (hdigest hd).2.symm)
    · rcases hd with hnone | ⟨d', -, hd'⟩
      · cases hc.symm.trans hnone
      · exact hover ⟨⟨mode, content, hc, (hdigest hd').1, hnew, hold⟩, hstage, d, rfl, hbackup⟩

/-- What is not one of the three files is as it was. -/
def Outside (t u : Tree) (destination stage backup : Path) : Prop :=
  ∀ q, ¬ destination <:+ q → ¬ stage <:+ q → ¬ backup <:+ q → u.get q = t.get q

theorem Outside.refl : Outside t t destination stage backup := fun _ _ _ _ => rfl

theorem replaceAndSync_keeps {src dst : Path} (hs : ∀ q, src <:+ q → destination <:+ q ∨ stage <:+ q ∨ backup <:+ q)
    (hd : ∀ q, dst <:+ q → destination <:+ q ∨ stage <:+ q ∨ backup <:+ q) (t : Tree) :
    (replaceAndSync src dst).Keeps machine (Outside t · destination stage backup) := by
  have hrename : (replaceAndSync src dst).Only (Avoids fun q =>
      ¬ (destination <:+ q ∨ stage <:+ q ∨ backup <:+ q)) :=
    (Prog.only_perform.mpr fun q hq ht => hq (Or.elim ht (hs q) (hd q))).bind fun _ =>
      Prog.only_perform.mpr fun _ _ => id
  intro u hu
  refine (keeps_of_avoids hrename t u fun q hq => ?_).mono (fun v hv q h₁ h₂ h₃ => hv q ?_)
    fun r v _ hv q h₁ h₂ h₃ => hv q ?_
  · simp only [not_or] at hq
    exact hu q hq.1 hq.2.1 hq.2.2
  all_goals exact not_or.mpr ⟨h₁, not_or.mpr ⟨h₂, h₃⟩⟩

/-- Installing one file leaves everything else alone, and goes through only where it may. -/
theorem installTransactionFile_wp (hover : ¬ Overwritten t destination stage backup oldDigest newDigest) :
    (installTransactionFile destination stage backup oldDigest newDigest label).wp machine
      (fun u => Kept t u destination backup oldDigest newDigest ∧ Outside t u destination stage backup)
      (fun r u => (Kept t u destination backup oldDigest newDigest ∧
        Outside t u destination stage backup) ∧ (r = .ok () →
          Installable t destination stage backup oldDigest newDigest)) t := by
  -- up to the first replacement the tree is as it was
  have hstart : Kept t t destination backup oldDigest newDigest ∧ Outside t t destination stage backup :=
    ⟨.refl, .refl⟩
  have hraised (e : Exn) : (Kept t t destination backup oldDigest newDigest ∧
      Outside t t destination stage backup) ∧ ((.error e : Except Exn Unit) = .ok () →
        Installable t destination stage backup oldDigest newDigest) := ⟨hstart, nofun⟩
  -- from then on nothing foreign is at the destination
  have hreplace (h : Installable t destination stage backup oldDigest newDigest) {u : Tree}
      (hu : Outside t u destination stage backup) : (replaceAndSync stage destination).wp machine
      (fun u => Kept t u destination backup oldDigest newDigest ∧ Outside t u destination stage backup)
      (fun r u => (Kept t u destination backup oldDigest newDigest ∧
        Outside t u destination stage backup) ∧ (r = .ok () →
          Installable t destination stage backup oldDigest newDigest)) u :=
    (replaceAndSync_keeps (fun _ => .inr ∘ .inl) (fun _ => .inl) t u hu).mono
      (fun v hv => ⟨(h.known hover).kept, hv⟩) fun _ v _ hv => ⟨⟨(h.known hover).kept, hv⟩, fun _ => h⟩
  refine wp_bind_reads (matchesDigest_reads _ _ _) (matchesDigest_yields _ _ _ t) hstart hraised
    fun matched hmatched => ?_
  cases matched with
  | true => exact ⟨hstart, hstart, fun _ => .inl hmatched⟩
  | false =>
    refine wp_bind_reads (matchesDigest_reads _ _ _) (matchesDigest_yields _ _ _ t) hstart hraised
      fun staged hstaged => ?_
    cases staged with
    | false => exact ⟨hstart, hraised _⟩
    | true =>
      cases oldDigest with
      | none =>
        refine wp_bind_reads (pathExists_reads _) (pathExists_yields _ t) hstart hraised
          fun there hthere => ?_
        cases there with
        | true => exact ⟨hstart, hraised _⟩
        | false =>
          have hnone : t.get destination = none := by simpa using hthere.symm
          exact hreplace (.inr ⟨hmatched, hstaged, hnone⟩) .refl
      | some d =>
        refine wp_bind_reads (pathExists_reads _) (pathExists_yields _ t) hstart hraised
          fun saved hsaved => ?_
        cases saved with
        | false =>
          have hnone : t.get backup = none := by simpa using hsaved.symm
          refine wp_bind_reads (matchesDigest_reads _ _ _) (matchesDigest_yields _ _ _ t) hstart hraised
            fun old hold => ?_
          cases old with
          | false => exact ⟨hstart, hraised _⟩
          | true =>
            have hinstall : Installable t destination stage backup (some d) newDigest :=
              .inr ⟨hmatched, hstaged, .inl ⟨hnone, hold⟩⟩
            have hknown := hinstall.known hover
            exact Prog.wp_bind_keeps (replaceAndSync_keeps (fun _ => .inl) (fun _ => .inr ∘ .inr) t)
              (Prog.yields_trivial _ t) .refl (fun _ hu => ⟨hknown.kept, hu⟩)
              (fun _ _ hu => ⟨⟨hknown.kept, hu⟩, nofun⟩) fun _ _ hu _ => hreplace hinstall hu
        | true =>
          refine wp_bind_reads (matchesDigest_reads _ _ _) (matchesDigest_yields _ _ _ t) hstart hraised
            fun old hold => ?_
          cases old with
          | false => exact ⟨hstart, hraised _⟩
          | true => exact hreplace (.inr ⟨hmatched, hstaged, .inr hold⟩) .refl

end

/-! ## The files of a transaction -/

section
variable {identity : Path} {transaction : String}

theorem not_below_identity {m : String} (h : m ≠ identity.name) :
    ¬ (identity.parent / m) <:+ identity := by
  cases identity with
  | nil => exact fun hs => by simpa [Path.parent] using hs.length_le
  | cons n d => exact Path.not_below_sibling h [] d

theorem pub_ne_name (n : String) : n ++ ".pub" ≠ n := fun he => by
  have := congrArg String.length he
  rw [String.length_append] at this
  have hpub : ".pub".length = 4 := by decide
  omega

/-- The names of a transaction's files are longer than those of the keys. -/
theorem transactionName_ne (identity : Path) (transaction suffix : String) :
    transactionPrefix identity ++ transaction ++ suffix ≠ identity.name ∧
      transactionPrefix identity ++ transaction ++ suffix ≠ identity.name ++ ".pub" := by
  have hpre : (transactionPrefix identity).length = identity.name.length + 14 := by
    rw [transactionPrefix, String.length_append, String.length_append]
    have hdot : ".".length = 1 ∧ ".transaction-".length = 13 := by decide
    omega
  have hpub : ".pub".length = 4 := by decide
  constructor <;> intro he
  all_goals
    have := congrArg String.length he
    simp only [String.length_append] at this
    omega

theorem append_ne {x s s' : String} (h : s ≠ s') : x ++ s ≠ x ++ s' := fun he => h <| by
  have := congrArg String.toList he
  rw [String.toList_append, String.toList_append] at this
  exact String.toList_inj.mp (List.append_cancel_left this)

/-- The paths at which the public key is installed are apart from those of the private key. -/
theorem public_apart (transaction : String) {q : Path} (hq : q = identity ∨
      q = (transactionFiles identity transaction).privateStage ∨
      q = (transactionFiles identity transaction).privateBackup) :
    ¬ pubOf identity <:+ q ∧ ¬ (transactionFiles identity transaction).publicStage <:+ q ∧
      ¬ (transactionFiles identity transaction).publicBackup <:+ q := by
  have hname (suffix : String) := transactionName_ne identity transaction suffix
  rcases hq with rfl | rfl | rfl
  · exact ⟨not_below_identity (pub_ne_name _), not_below_identity (hname _).1,
      not_below_identity (hname _).1⟩
  all_goals
    exact ⟨Path.not_below_sibling (hname _).2.symm [] _,
      Path.not_below_sibling (append_ne (by decide)) [] _,
      Path.not_below_sibling (append_ne (by decide)) [] _⟩

end

/-! ## Finishing a transaction -/

section
variable {t u : Tree} {identity : Path} {j : Journal}

/-- The journal's files. -/
abbrev Journal.files (j : Journal) (identity : Path) : TransactionFiles :=
  transactionFiles identity j.transaction

/-- Foreign keys at the two places are there or in the backups. -/
def Preserved (identity : Path) (j : Journal) (t u : Tree) : Prop :=
  Kept t u identity (j.files identity).privateBackup j.privateOldDigest j.privateNewDigest ∧
    Kept t u (pubOf identity) (j.files identity).publicBackup j.publicOldDigest j.publicNewDigest

/-- The public key is overwritten. -/
def PublicOverwritten (identity : Path) (j : Journal) (t : Tree) : Prop :=
  Overwritten t (pubOf identity) (j.files identity).publicStage (j.files identity).publicBackup
    j.publicOldDigest j.publicNewDigest

/-- The public key is installed and the private key overwritten. -/
def PrivateOverwritten (identity : Path) (j : Journal) (t : Tree) : Prop :=
  Installable t (pubOf identity) (j.files identity).publicStage (j.files identity).publicBackup
    j.publicOldDigest j.publicNewDigest ∧
  Overwritten t identity (j.files identity).privateStage (j.files identity).privateBackup
    j.privateOldDigest j.privateNewDigest

theorem DigestIs.congr (h : u.get p = t.get p) : DigestIs u p d ↔ DigestIs t p d := by
  rw [DigestIs, DigestIs, h]

theorem Overwritten.congr {destination stage backup : Path}
    (hd : u.get destination = t.get destination) (hs : u.get stage = t.get stage)
    (hb : u.get backup = t.get backup) :
    Overwritten u destination stage backup old new → Overwritten t destination stage backup old new := by
  rintro ⟨hforeign, hstaged, d, hold, hsaved⟩
  exact ⟨hd ▸ hforeign, (DigestIs.congr hs).mp hstaged, d, hold, (DigestIs.congr hb).mp hsaved⟩

/-- A transaction that is finished has met nothing foreign, unless a key is overwritten. -/
theorem finishTransaction_wp (hpublic : ¬ PublicOverwritten identity j t)
    (hprivate : ¬ PrivateOverwritten identity j t) :
    (finishTransaction identity (pubOf identity) (j.files identity) j).wp machine
      (Preserved identity j t) (fun r u => Preserved identity j t u ∧
        (r = .ok () → ∀ v, Preserved identity j t v)) t := by
  refine Prog.wp_bind.mpr ((installTransactionFile_wp hpublic).mono (fun u ⟨hkept, hout⟩ => ?_)
    fun r u _ ⟨⟨hkept, hout⟩, hinstalled⟩ => ?_)
  · obtain ⟨h₁, h₂, h₃⟩ := public_apart j.transaction (.inl rfl)
    exact ⟨fun mode c hc _ => .inl ⟨mode, (hout _ h₁ h₂ h₃).trans hc⟩, hkept⟩
  have hsame {q : Path} (hq : q = identity ∨ q = (j.files identity).privateStage ∨
      q = (j.files identity).privateBackup) : u.get q = t.get q :=
    let ⟨h₁, h₂, h₃⟩ := public_apart _ hq
    hout q h₁ h₂ h₃
  have hidentity : u.get identity = t.get identity := hsame (.inl rfl)
  cases r with
  | error e => exact ⟨⟨fun mode c hc _ => .inl ⟨mode, hidentity.trans hc⟩, hkept⟩, nofun⟩
  | ok _ =>
    -- nothing foreign was at the place of the public key
    have hinstalled := hinstalled rfl
    have hknown := hinstalled.known hpublic
    have hover : ¬ Overwritten u identity (j.files identity).privateStage
        (j.files identity).privateBackup j.privateOldDigest j.privateNewDigest := fun h =>
      hprivate ⟨hinstalled, h.congr hidentity (hsame (.inr (.inl rfl))) (hsame (.inr (.inr rfl)))⟩
    have hpreserved {v : Tree} (h : Kept u v identity (j.files identity).privateBackup
        j.privateOldDigest j.privateNewDigest) : Preserved identity j t v :=
      ⟨fun mode c hc => h mode c (hidentity.trans hc), hknown.kept⟩
    refine Prog.wp_bind.mpr ((installTransactionFile_wp hover).mono (fun v hv => hpreserved hv.1)
      fun r v _ ⟨⟨hkept, _⟩, hinstalled⟩ => ?_)
    cases r with
    | error e => exact ⟨hpreserved hkept, nofun⟩
    | ok _ =>
      have hknown' := (hinstalled rfl).known hover
      have hall (w : Tree) : Preserved identity j t w := hpreserved hknown'.kept
      exact (Prog.wp_trivial _ v).mono (fun w _ => hall w) fun r w _ _ => ⟨hall w, fun _ => hall⟩

/-! ## Recovery -/

theorem readTransaction_reads (identity : Path) : (readTransaction identity).Only OsOp.Reads := by
  refine (lstatMissing_reads _).bind fun st => ?_
  split
  · simp
  · split
    · simp
    · refine Prog.Only.bind ((loadJson_reads _).handle fun e => Prog.only_raise.ite Prog.only_raise)
        fun value => (Prog.only_ofExcept _).bind fun j => Prog.only_ret

theorem yields_ofExcept {r : Except Exn α} {Q : α → Tree → Prop} (h : ∀ a, r = .ok a → Q a t) :
    (Prog.ofExcept r : OsM α).Yields machine Q t := by
  cases r with
  | ok a => exact Prog.yields_ret (h a rfl)
  | error e => exact Prog.yields_raise

/-- Where there is a journal, it is the one that is read. -/
theorem readTransaction_yields (h : Journaled t identity j) : (readTransaction identity).Yields machine
    (fun found u => u = t ∧ found = some (j.files identity, j)) t := by
  obtain ⟨mode, content, value, hfile, hsize, hvalue, hj⟩ := h
  refine yields_of_reads (readTransaction_reads identity) (Prog.yields_bind
    ((lstatMissing_yields _ t).mono fun st u ⟨hu, hst⟩ => ?_))
  subst hu
  rw [hfile] at hst
  subst hst
  refine Prog.yields_ite (fun _ => Prog.yields_bind Prog.yields_raise) fun _ => ?_
  refine Prog.yields_bind (Prog.Yields.mono (Q := fun v w => w = u ∧ v = value) (Prog.yields_handle
    ((loadJson_yields _ u).mono fun v w ⟨hw, m, c, hc, hv⟩ => ?_) fun e _ =>
      Prog.yields_ite (fun _ => Prog.yields_raise) fun _ => Prog.yields_raise) fun v w ⟨hw, hv⟩ => ?_)
  · cases hfile.symm.trans hc
    cases hvalue.symm.trans hv
    exact ⟨hw, rfl⟩
  · subst hw hv
    refine Prog.yields_bind (yields_ofExcept fun j' hj' => ?_)
    cases hj.symm.trans hj'
    exact Prog.yields_ret rfl

/-- Recovery keeps foreign keys, unless one is overwritten. -/
theorem recoverAt_wp (paths : InstancePaths) (hj : Journaled t identity j)
    (hpublic : ¬ PublicOverwritten identity j t) (hprivate : ¬ PrivateOverwritten identity j t) :
    (recoverAt paths identity (pubOf identity)).wp machine (Preserved identity j t)
      (fun _ => Preserved identity j t) t := by
  have hstart : Preserved identity j t t := ⟨.refl, .refl⟩
  refine wp_bind_reads (readTransaction_reads identity) (readTransaction_yields hj) hstart
    (fun _ => hstart) fun found hfound => ?_
  subst hfound
  refine Prog.wp_bind.mpr ((finishTransaction_wp hpublic hprivate).post fun r u _ ⟨hu, hall⟩ => ?_)
  cases r with
  | error e => exact hu
  | ok _ => exact (Prog.wp_trivial _ u).mono (fun v _ => hall rfl v) fun _ v _ _ => hall rfl v

end

/-! ## Overwriting -/

section
variable {t : Tree} {destination stage backup : Path} {oldDigest : Option String}
  {newDigest label : String}

theorem pathExists_succeeds (p : Path) : (pathExists p).Succeeds reliable
    (fun b u => u = t ∧ b = (t.get p).isSome) t :=
  Prog.succeeds_bind ((lstatMissing_succeeds p t).mono fun st u ⟨hu, hst⟩ =>
    Prog.succeeds_ret ⟨hu, by rw [hst, Option.isSome_map]⟩)

theorem fileDigest_succeeds {p : Path} (h : DigestIs t p d) :
    (fileDigest p label).Succeeds reliable (fun _ _ => True) t := by
  obtain ⟨mode, content, hfile, hkey, -⟩ := h
  refine Prog.succeeds_bind ((Prog.succeeds_handle (openRead_succeeds hfile nofun)).mono
    fun st u ⟨hu, hst⟩ => ?_)
  subst hu hst
  refine Prog.succeeds_ite (fun hbad => ?_) fun _ => Prog.succeeds_bind
    ((read_succeeds hfile).mono fun _ _ _ => Prog.succeeds_ret trivial)
  exact absurd hbad (not_or.mpr ⟨by simp, by simpa using isBounded_iff.mpr hkey⟩)

/-- The comparison with a file that can be read. -/
theorem matchesDigest_succeeds {p : Path} (h : t.get p = none ∨ ∃ d', DigestIs t p d') :
    (matchesDigest p (some d) label).Succeeds reliable (fun b u => u = t ∧ Compares t p d b) t := by
  refine Prog.Succeeds.mono (Q := fun b u => True ∧ u = t ∧ Compares t p d b) (Prog.Succeeds.and_yields
    (Prog.succeeds_bind ((pathExists_succeeds p).mono fun b u ⟨hu, hb⟩ => ?_))
    (reliable_of_machine (matchesDigest_yields p d label t))) fun _ _ => And.right
  subst hu hb
  refine Prog.succeeds_ite (fun hsome => ?_) fun _ => Prog.succeeds_ret trivial
  obtain ⟨d', hd'⟩ := h.resolve_left fun hnone => by simp [hnone] at hsome
  exact Prog.succeeds_bind ((fileDigest_succeeds hd').mono fun _ _ _ => Prog.succeeds_ret trivial)

theorem Compares.eq_true (h : Compares t p d b) (hd : DigestIs t p d) : b = true := by
  cases b with
  | true => rfl
  | false =>
    rcases h with hnone | ⟨d', hne, hd'⟩
    · obtain ⟨_, _, hp, -⟩ := hd
      cases hnone.symm.trans hp
    · exact absurd (hd'.unique hd) hne

/-- A file replaces another one, or nothing, beside it. -/
theorem replaceAndSync_succeeds {s d : String} {dir : Path} (hs : DigestIs t (s :: dir) digest)
    (hd : ∀ o, t.get (d :: dir) = some o → o.isDir = false) (hne : s ≠ d) :
    (replaceAndSync (s :: dir) (d :: dir)).Succeeds reliable (fun _ u => DigestIs u (d :: dir) digest ∧
      u.get (s :: dir) = none ∧
      ∀ q, ¬ (d :: dir) <:+ q → ¬ (s :: dir) <:+ q → u.get q = t.get q) t := by
  obtain ⟨mode, content, hfile, hkey, hdigest⟩ := hs
  obtain ⟨m, hdir⟩ := Tree.dir_of_child (show t.get (s :: dir) ≠ none by rw [hfile]; nofun)
  have hreplace : t.checkReplace (.file mode content) (d :: dir) = .ok () := by
    unfold Tree.checkReplace
    cases ho : t.get (d :: dir) with
    | none => rfl
    | some o =>
      have hfalse := hd o ho
      cases o with
      | dir _ => cases hfalse
      | _ => rfl
  refine Prog.succeeds_bind ((rename_succeeds hfile (Path.not_below_sibling hne [] dir)
    (fun n e he => ⟨m, (List.cons.inj he).2 ▸ hdir⟩) hreplace).mono fun _ u ⟨hmoved, hgone, hrest⟩ => ?_)
  have hparent : u.get dir = some (.dir m) :=
    (hrest dir (Path.not_below_parent d dir) (Path.not_below_parent s dir)).trans hdir
  refine (fsync_succeeds (by rw [Path.parent, List.tail_cons, hparent]; nofun)).mono fun _ v hv => ?_
  subst hv
  exact ⟨⟨mode, content, (hmoved []).trans hfile, hkey, hdigest⟩, hgone _ List.suffix_rfl, hrest⟩

/-- Three different names in one directory. -/
structure Siblings (destination stage backup : Path) : Prop where
  names : ∃ d s b dir, destination = d :: dir ∧ stage = s :: dir ∧ backup = b :: dir ∧
    d ≠ s ∧ d ≠ b ∧ s ≠ b

theorem DigestIs.not_dir {p : Path} (h : DigestIs t p d) : ∀ o, t.get p = some o → o.isDir = false := by
  obtain ⟨_, _, hp, -⟩ := h
  intro o ho
  cases hp.symm.trans ho
  rfl

/-- An installation that may go through does where nothing fails. -/
theorem installTransactionFile_succeeds (h : Installable t destination stage backup oldDigest newDigest)
    (hsiblings : Siblings destination stage backup) :
    (installTransactionFile destination stage backup oldDigest newDigest label).Succeeds reliable
      (fun _ u => DigestIs u destination newDigest ∧
        (∀ q, ¬ destination <:+ q → ¬ stage <:+ q → ¬ backup <:+ q → u.get q = t.get q) ∧
        ∀ d, oldDigest = some d → DigestIs t backup d → DigestIs u backup d) t := by
  obtain ⟨d, s, b, dir, rfl, rfl, rfl, hds, hdb, hsb⟩ := hsiblings
  rcases h with hd | ⟨hd, hstage, hrest⟩
  · refine Prog.succeeds_bind ((matchesDigest_succeeds (.inr ⟨_, hd⟩)).mono fun b u ⟨hu, hb⟩ => ?_)
    subst hu
    rw [hb.eq_true hd]
    exact Prog.succeeds_ret ⟨hd, fun _ _ _ _ => rfl, fun _ _ => id⟩
  · refine Prog.succeeds_bind ((matchesDigest_succeeds (hd.imp_right fun ⟨d, _, hd⟩ => ⟨d, hd⟩)).mono
      fun matched u ⟨hu, hmatched⟩ => ?_)
    subst hu
    cases matched with
    | true => exact Prog.succeeds_ret ⟨hmatched, fun _ _ _ _ => rfl, fun _ _ => id⟩
    | false =>
      have hnotdir : ∀ o, u.get (d :: dir) = some o → o.isDir = false := fun o ho => by
        rcases hd with hnone | ⟨_, _, hd⟩
        · cases hnone.symm.trans ho
        · exact hd.not_dir o ho
      refine Prog.succeeds_bind ((matchesDigest_succeeds (.inr ⟨_, hstage⟩)).mono
        fun staged u' ⟨hu, hstaged⟩ => ?_)
      subst hu
      rw [hstaged.eq_true hstage]
      cases oldDigest with
      | none =>
        refine Prog.succeeds_bind ((pathExists_succeeds _).mono fun there v ⟨hv, hthere⟩ => ?_)
        subst hv
        rw [show v.get (d :: dir) = none from hrest] at hthere
        subst hthere
        exact (replaceAndSync_succeeds hstage hnotdir hds.symm).mono fun _ w ⟨hw, _, hother⟩ =>
          ⟨hw, fun q hqd hqs _ => hother q hqd hqs, nofun⟩
      | some old =>
        refine Prog.succeeds_bind ((pathExists_succeeds _).mono fun saved v ⟨hv, hsaved⟩ => ?_)
        subst hv
        by_cases hbackup : v.get (b :: dir) = none
        · -- the old file is moved away first
          have hold : DigestIs v (d :: dir) old := by
            rcases hrest with ⟨-, hold⟩ | ⟨_, _, hb, -⟩
            · exact hold
            · cases hbackup.symm.trans hb
          rw [hbackup] at hsaved
          subst hsaved
          refine Prog.succeeds_bind ((matchesDigest_succeeds (.inr ⟨_, hold⟩)).mono
            fun matched x ⟨hx, hmatched⟩ => ?_)
          subst hx
          rw [hmatched.eq_true hold]
          refine Prog.succeeds_bind ((replaceAndSync_succeeds hold (fun o ho => by
            cases hbackup.symm.trans ho) hdb).mono fun _ y ⟨_, hgone, hother⟩ => ?_)
          have hstage' : DigestIs y (s :: dir) newDigest := (DigestIs.congr (hother _
            (Path.not_below_sibling hsb.symm [] dir) (Path.not_below_sibling hds [] dir))).mpr hstage
          refine (replaceAndSync_succeeds hstage' (fun o ho => by cases hgone.symm.trans ho) hds.symm).mono
            fun _ z ⟨hz, _, hother'⟩ => ⟨hz, fun q hqd hqs hqb => ?_, fun _ _ ⟨_, _, hb, _⟩ => ?_⟩
          · exact (hother' q hqd hqs).trans (hother q hqb hqd)
          · cases hbackup.symm.trans hb
        · have hsave : DigestIs v (b :: dir) old := by
            rcases hrest with ⟨hnone, -⟩ | hsave
            · exact absurd hnone hbackup
            · exact hsave
          rw [Option.isSome_iff_ne_none.mpr hbackup] at hsaved
          subst hsaved
          refine Prog.succeeds_bind ((matchesDigest_succeeds (.inr ⟨_, hsave⟩)).mono
            fun matched x ⟨hx, hmatched⟩ => ?_)
          subst hx
          rw [hmatched.eq_true hsave]
          refine (replaceAndSync_succeeds hstage hnotdir hds.symm).mono fun _ y ⟨hy, _, hother⟩ =>
            ⟨hy, fun q hqd hqs _ => hother q hqd hqs, fun _ _ hb => (DigestIs.congr ?_).mpr hb⟩
          exact hother _ (Path.not_below_sibling hdb [] dir) (Path.not_below_sibling hsb [] dir)

/-- A foreign key that is overwritten is gone. -/
theorem Overwritten.installable (h : Overwritten t destination stage backup oldDigest newDigest) :
    Installable t destination stage backup oldDigest newDigest := by
  obtain ⟨⟨mode, content, hfile, hkey, hnew, -⟩, hstaged, d, rfl, hsaved⟩ := h
  exact .inr ⟨.inr ⟨_, hnew, mode, content, hfile, hkey, rfl⟩, hstaged, .inr hsaved⟩

theorem Overwritten.not_kept (h : Overwritten t destination stage backup oldDigest newDigest)
    (hd : DigestIs u destination newDigest) (hb : ∀ d, oldDigest = some d → DigestIs t backup d → DigestIs u backup d) :
    ¬ Kept t u destination backup oldDigest newDigest := by
  intro hkept
  obtain ⟨⟨mode, content, hfile, hkey, hforeign⟩, -, d, rfl, hsaved⟩ := h
  rcases hkept mode content hfile hforeign with ⟨m, hm⟩ | ⟨m, hm⟩
  · obtain ⟨_, _, hc, -, hnew⟩ := hd
    cases hm.symm.trans hc
    exact hforeign.1 hnew
  · obtain ⟨_, _, hc, -, hold⟩ := hb d rfl hsaved
    cases hm.symm.trans hc
    exact hforeign.2 (congrArg some hold.symm)

end

/-! ## When recovery keeps foreign keys -/

section
variable {t : Tree} {config : SSHConfig} {paths : InstancePaths} {identity : Path} {j : Journal}

/-- Where the configured identity is. -/
def identityAt (config : SSHConfig) (paths : InstancePaths) (t : Tree) : Path :=
  t.resolve (if config.identityFile.isAbsolute then [] else paths.config.parent)
    config.identityFile.parts

/-- Resolving the paths changes nothing, and cannot fail. -/
theorem sshKeyPaths_wp {f : Path × Path → OsM α} {I : Tree → Prop} {Q : Except Exn α → Tree → Prop}
    (h : (f (identityAt config paths t, pubOf (identityAt config paths t))).wp machine I Q t) :
    ((sshKeyPaths config paths).bind f).wp machine I Q t := by
  refine ⟨h.inv, fun r u hstep => ?_⟩
  cases hstep with
  | raised hraise => exact hraise.elim
  | answered hanswer =>
    obtain ⟨rfl, rfl⟩ := hanswer
    exact h

theorem sshKeyPaths_returns (config : SSHConfig) (paths : InstancePaths) (t : Tree) :
    (sshKeyPaths config paths).Returns machine t
      (.ok (identityAt config paths t, pubOf (identityAt config paths t))) t :=
  .step (.answered ⟨rfl, rfl⟩) .refl

theorem readTransaction_succeeds (h : Journaled t identity j) :
    (readTransaction identity).Succeeds reliable (fun found u => u = t ∧ found = some (j.files identity, j)) t := by
  obtain ⟨mode, content, value, hfile, hsize, hvalue, hj⟩ := h
  refine Prog.succeeds_bind ((lstatMissing_succeeds _ t).mono fun st u ⟨hu, hst⟩ => ?_)
  subst hu
  rw [hfile] at hst
  subst hst
  refine Prog.succeeds_ite (fun hbad => absurd hbad (not_or.mpr ⟨by simp, Nat.not_lt.mpr hsize⟩))
    fun _ => Prog.succeeds_bind ((Prog.succeeds_handle (loadJson_succeeds hfile hvalue)).mono
      fun v w ⟨hw, hv⟩ => ?_)
  subst hw hv
  rw [hj]
  exact Prog.succeeds_bind (Prog.succeeds_ret (Prog.succeeds_ret ⟨rfl, rfl⟩))

theorem lstatMissing_answered (p : Path) : (lstatMissing p).Only OsOp.Answered :=
  Prog.Only.handle (Prog.Only.bind (Prog.only_perform.mpr trivial) fun _ => Prog.only_ret) fun _ =>
    Prog.only_ret.ite Prog.only_raise

theorem readTransaction_answered (identity : Path) :
    (readTransaction identity).Only OsOp.Answered := by
  refine (lstatMissing_answered _).bind fun st => ?_
  split
  · simp
  · split
    · simp
    · refine Prog.Only.bind (Prog.Only.handle (Prog.Only.bind (Prog.Only.bind
        (Prog.only_perform.mpr trivial) fun content => ?_) fun text => ?_) fun e => ?_) fun value =>
          (Prog.only_ofExcept _).bind fun j => Prog.only_ret
      · split <;> simp
      · split <;> simp
      · split <;> simp

theorem installTransactionFile_answered (destination stage backup : Path) (old : Option String)
    (new label : String) :
    (installTransactionFile destination stage backup old new label).Only OsOp.Answered := by
  have hmatches (p : Path) (d : Option String) (label : String) :
      (matchesDigest p d label).Only OsOp.Answered :=
    matchesDigest_only (fun _ => trivial) (fun _ => trivial) (fun _ => trivial) p d label
  have hexists (p : Path) : (pathExists p).Only OsOp.Answered := pathExists_only (fun _ => trivial) p
  have hreplace (s d : Path) : (replaceAndSync s d).Only OsOp.Answered :=
    Prog.Only.bind (Prog.only_perform.mpr trivial) fun _ => Prog.only_perform.mpr trivial
  have hstate {m : String} {f : Unit → OsM Unit} :
      ((throw (.state m) : OsM Unit).bind f).Only OsOp.Answered := Prog.only_raise
  refine (hmatches _ _ _).bind fun matched => Prog.only_ret.ite ((hmatches _ _ _).bind fun staged =>
    hstate.ite ?_)
  refine Prog.Only.ite ((hexists _).bind fun there => hstate.ite (hreplace _ _))
    ((hexists _).bind fun saved => Prog.Only.ite ?_ ?_)
  · exact (hmatches _ _ _).bind fun old => hstate.ite ((hreplace _ _).bind fun _ => hreplace _ _)
  · exact (hmatches _ _ _).bind fun old => hstate.ite (hreplace _ _)

/-- The places of the public key are three different names. -/
theorem public_siblings (identity : Path) (transaction : String) :
    Siblings (pubOf identity) (transactionFiles identity transaction).publicStage
      (transactionFiles identity transaction).publicBackup :=
  ⟨_, _, _, _, rfl, rfl, rfl, (transactionName_ne _ _ _).2.symm, (transactionName_ne _ _ _).2.symm,
    append_ne (by decide)⟩

theorem private_siblings {n : String} {dir : Path} (transaction : String) :
    Siblings (n :: dir) (transactionFiles (n :: dir) transaction).privateStage
      (transactionFiles (n :: dir) transaction).privateBackup :=
  ⟨_, _, _, _, rfl, rfl, rfl, (transactionName_ne (n :: dir) _ _).1.symm,
    (transactionName_ne (n :: dir) _ _).1.symm, append_ne (by decide)⟩

/-- The installation of the public key as the first step of a recovery. -/
theorem recover_installs_public (hj : Journaled t (identityAt config paths t) j)
    (h : Installable t (pubOf (identityAt config paths t))
      (j.files (identityAt config paths t)).publicStage (j.files (identityAt config paths t)).publicBackup
      j.publicOldDigest j.publicNewDigest) :
    ∃ u, (DigestIs u (pubOf (identityAt config paths t)) j.publicNewDigest ∧
      Outside t u (pubOf (identityAt config paths t)) (j.files (identityAt config paths t)).publicStage
        (j.files (identityAt config paths t)).publicBackup ∧
      ∀ d, j.publicOldDigest = some d → DigestIs t (j.files (identityAt config paths t)).publicBackup d →
        DigestIs u (j.files (identityAt config paths t)).publicBackup d) ∧
      ∀ v, (installTransactionFile (identityAt config paths t)
        (j.files (identityAt config paths t)).privateStage (j.files (identityAt config paths t)).privateBackup
        j.privateOldDigest j.privateNewDigest "SSH private key").Visits machine u v →
        (recoverTransaction config paths).Visits machine t v := by
  obtain ⟨found, t', hread, ht', hfound⟩ := exists_run (readTransaction_succeeds hj) (readTransaction_answered _)
  subst ht' hfound
  obtain ⟨_, u, hinstall, hu⟩ := exists_run (installTransactionFile_succeeds h
    (public_siblings _ _)) (installTransactionFile_answered _ _ _ _ _ "SSH public key")
  refine ⟨u, hu, fun v hv => ?_⟩
  refine (sshKeyPaths_returns config paths t').visits_bind
    ((Prog.Returns.mono reliable_refines hread).visits_bind (Prog.Visits.bind ?_))
  exact (Prog.Returns.mono reliable_refines hinstall).visits_bind (Prog.Visits.bind hv)

/-- Recovery keeps every foreign key, wherever it is stopped, if and only if neither key is
overwritten: that is, its old file is in the backup, its new file is at hand, and a foreign key has
come to its place. -/
theorem recovery_preserves_iff (hj : Journaled t (identityAt config paths t) j) :
    (∀ u, (recoverTransaction config paths).Visits machine t u →
      Preserved (identityAt config paths t) j t u) ↔
    ¬ PublicOverwritten (identityAt config paths t) j t ∧
      ¬ PrivateOverwritten (identityAt config paths t) j t := by
  constructor
  · refine fun h => ⟨fun hover => ?_, fun ⟨hinstall, hover⟩ => ?_⟩
    · obtain ⟨u, ⟨hnew, -, hbackup⟩, hvisits⟩ := recover_installs_public hj hover.installable
      exact hover.not_kept hnew hbackup (h u (hvisits u .start)).2
    · obtain ⟨u, ⟨-, hout, -⟩, hvisits⟩ := recover_installs_public hj hinstall
      have hsame {q : Path} (hq : q = identityAt config paths t ∨
          q = (j.files (identityAt config paths t)).privateStage ∨
          q = (j.files (identityAt config paths t)).privateBackup) : u.get q = t.get q :=
        let ⟨h₁, h₂, h₃⟩ := public_apart _ hq
        hout q h₁ h₂ h₃
      have hover' := hover.congr (u := t) (t := u) (hsame (.inl rfl)).symm
        (hsame (.inr (.inl rfl))).symm (hsame (.inr (.inr rfl))).symm
      -- the identity is a file, so it is no root
      obtain ⟨n, dir, hidentity⟩ : ∃ n dir, identityAt config paths t = n :: dir := by
        cases hid : identityAt config paths t with
        | cons n dir => exact ⟨n, dir, rfl⟩
        | nil =>
          obtain ⟨_, _, _, hjournal, -⟩ := hj
          obtain ⟨⟨_, _, hfile, -⟩, -⟩ := hover
          rw [hid] at hfile hjournal
          obtain ⟨m, hm⟩ := Tree.dir_of_child (show t.get (transactionPath []) ≠ none by
            rw [hjournal]; nofun)
          cases hfile.symm.trans hm
      have hsiblings : Siblings (identityAt config paths t)
          (j.files (identityAt config paths t)).privateStage
          (j.files (identityAt config paths t)).privateBackup := hidentity ▸ private_siblings _
      obtain ⟨_, v, hrun, hnew, -, hbackup⟩ := exists_run (installTransactionFile_succeeds
        hover'.installable hsiblings) (installTransactionFile_answered _ _ _ _ _ "SSH private key")
      refine hover'.not_kept hnew hbackup fun mode content hc => ?_
      exact (h v (hvisits v (Prog.Returns.mono reliable_refines hrun).visits)).1 mode content
        ((hsame (.inl rfl)).symm.trans hc)
  · rintro ⟨hpublic, hprivate⟩ u hv
    exact ((sshKeyPaths_wp (recoverAt_wp paths hj hpublic hprivate)).visits hv)

end

/-! ## An overwritten key -/

def exampleSsh : SSHConfig where
  host := "relay.example"
  user := "relay"
  identityFile := .ofText "secrets/id"
  knownHostsFile := .ofText "secrets/known_hosts"

/-- The keys `[1]` and `[3]` are replaced by `[2]` and `[4]`: these are their digests. -/
def exampleJournal : Journal where
  transaction := "00000000000000000000000000000000"
  operationId := "replace"
  operationKind := "ssh-key.force"
  privateOldDigest :=
    some "084fed08b978af4d7d196a7446a86b58009e636b611db16211b65a9aadff29c5"
  publicOldDigest :=
    some "4bf5122f344554c53bde2ebb8cd2b7e3d1600ad631c385a5d7cce23c7785459a"
  privateNewDigest := "e52d9c508c502347344d8c07ad91cbd6068afc75ff6292f062a09ca381c89e71"
  publicNewDigest := "dbc1b4c900ffe48d575b5da5c638040125f65db0fe3e24494b76ea986457d986"

/-- The replacement was interrupted after the old private key had been moved away, and the operator
has put the key `[5]` in its place. -/
def interruptedTree : Tree := .ofEntries
  [([], .dir 0o755), (["state"], .dir 0o700), (["secrets"], .dir 0o700),
    (["id", "secrets"], .file 0o600 [5]), (["id.pub", "secrets"], .file 0o644 [2]),
    ((exampleJournal.files ["id", "secrets"]).privateStage, .file 0o600 [4]),
    ((exampleJournal.files ["id", "secrets"]).privateBackup, .file 0o600 [3]),
    ((exampleJournal.files ["id", "secrets"]).publicBackup, .file 0o644 [1]),
    (transactionPath ["id", "secrets"], .file 0o600 (encodeUtf8 (jsonText exampleJournal.toJson)))]
  (by decide +kernel)

theorem identityAt_interrupted :
    identityAt exampleSsh examplePaths interruptedTree = ["id", "secrets"] := by
  decide +kernel

theorem exampleJournal_valid : exampleJournal.Valid where
  transaction := by decide
  operationId := by decide +kernel
  operationKind := by decide +kernel
  privateOld d hd := by cases hd; exact (isDigest_ofList _).trans (by decide)
  publicOld d hd := by cases hd; exact (isDigest_ofList _).trans (by decide)
  privateNew := (isDigest_ofList _).trans (by decide)
  publicNew := (isDigest_ofList _).trans (by decide)

theorem interrupted_journaled :
    Journaled interruptedTree (identityAt exampleSsh examplePaths interruptedTree) exampleJournal := by
  refine exampleJournal_valid.journaled (m := 0o600) ?_
  rw [identityAt_interrupted]
  exact List.lookup_eq_some_iff.mpr ⟨interruptedTree.entries.dropLast, [], rfl, by decide +kernel⟩

theorem recovery_preserves_iff_interrupted :
    (∀ u, (recoverTransaction exampleSsh examplePaths).Visits machine interruptedTree u →
      Preserved (identityAt exampleSsh examplePaths interruptedTree) exampleJournal interruptedTree u) ↔
    ¬ PublicOverwritten (identityAt exampleSsh examplePaths interruptedTree) exampleJournal
        interruptedTree ∧
      ¬ PrivateOverwritten (identityAt exampleSsh examplePaths interruptedTree) exampleJournal
        interruptedTree :=
  recovery_preserves_iff interrupted_journaled

/-- What the recovery does once the journal has been read. -/
def exampleFinish : OsM Unit := do
  finishTransaction ["id", "secrets"] (pubOf ["id", "secrets"])
    (exampleJournal.files ["id", "secrets"]) exampleJournal
  recordOperation examplePaths ["id", "secrets"] (pubOf ["id", "secrets"]) exampleJournal
  removeTransaction ["id", "secrets"] (exampleJournal.files ["id", "secrets"])
  cleanOrphanedFiles ["id", "secrets"]

/-- It is a file with that content. -/
def holds (content : List UInt8) : Obj → Bool
  | .file _ c => c = content
  | _ => false

/-- The recovery succeeds, and the key of the operator is nowhere. -/
theorem recovery_destroys :
    Journaled interruptedTree (identityAt exampleSsh examplePaths interruptedTree) exampleJournal ∧
      interruptedTree.get (identityAt exampleSsh examplePaths interruptedTree) =
        some (.file 0o600 [5]) ∧
      Foreign exampleJournal.privateOldDigest exampleJournal.privateNewDigest [5] ∧
      ∃ u, (recoverTransaction exampleSsh examplePaths).Returns machine interruptedTree (.ok ()) u ∧
        ∀ p mode, u.get p ≠ some (.file mode [5]) := by
  refine ⟨interrupted_journaled, by rw [identityAt_interrupted]; decide +kernel,
    ⟨by decide +kernel, by decide +kernel⟩, ?_⟩
  obtain ⟨found, t, hread, ht, hfound⟩ :=
    exists_run (readTransaction_succeeds interrupted_journaled) (readTransaction_answered _)
  subst ht hfound
  obtain ⟨r, u, hr, htest⟩ := Prog.exists_returns (s := interruptedTree) (p := exampleFinish)
    exampleHost.respond_answers 100 (fun r u => r.isOk && u.entries.all fun e => !holds [5] e.2)
    (by
      simp only [exampleFinish, recordOperation, atomicWriteJson, atomicWrite, encodeUtf8_jsonText]
      decide +kernel)
  obtain ⟨hok, hgone⟩ := Bool.and_eq_true_iff.mp htest
  cases r with
  | error e => cases hok
  | ok _ =>
    refine ⟨u, (sshKeyPaths_returns _ _ _).bind (Prog.Returns.mono reliable_refines (hread.bind ?_)),
      fun p mode hp => ?_⟩
    · rw [identityAt_interrupted]
      exact hr
    · obtain ⟨_, _, hentries, -⟩ := List.lookup_eq_some_iff.mp (show u.entries.lookup p = _ from hp)
      have := List.all_eq_true.mp hgone (p, .file mode [5]) (hentries ▸ List.mem_append_cons_self)
      simp [holds] at this

end Ssh
end ShuttleGate
