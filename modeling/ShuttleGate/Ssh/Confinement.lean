import ShuttleGate.Ssh.Recovery
import ShuttleGate.Files.Making

/-! # Confinement of the key

The key is made where the configured path leads to, and only its name in the receipt is checked
against the instance. -/

namespace ShuttleGate

open Fs Effect Os Files State

namespace Ssh

/-! ## What stays inside -/

/-- Whatever the operation touches is below the secrets or the state, or is made on the way there. -/
def Inside (paths : InstancePaths) (op : OsOp β) : Prop :=
  ∀ q, op.touches q → paths.secrets <:+ q ∨ paths.state <:+ q ∨
    op.makes q ∧ (q <:+ paths.secrets ∨ q <:+ paths.state)

section
variable {paths : InstancePaths} {identity : Path}

/-- At or below one of the two directories. -/
def Owned (paths : InstancePaths) (q : Path) : Prop := paths.secrets <:+ q ∨ paths.state <:+ q

theorem inside_of_secrets {op : OsOp β} (h : Within (Owned paths) paths.secrets op) :
    Inside paths op := fun q hq => by
  rcases h q hq with (hs | hs) | ⟨hm, hs⟩
  · exact .inl hs
  · exact .inr (.inl hs)
  · exact .inr (.inr ⟨hm, .inl hs⟩)

theorem inside_of_state {op : OsOp β} (h : Within (Owned paths) paths.state op) : Inside paths op :=
  fun q hq => by
  rcases h q hq with (hs | hs) | ⟨hm, hs⟩
  · exact .inl hs
  · exact .inr (.inl hs)
  · exact .inr (.inr ⟨hm, .inr hs⟩)

theorem reads_inside {p : OsM α} (h : p.Only OsOp.Reads) : p.Only (Inside paths) :=
  h.mono fun _ hop q hq => absurd hq (hop q)

theorem at_inside {op : OsOp β} {p : Path} (hp : paths.secrets <:+ p)
    (h : ∀ q, op.touches q → q = p := by exact fun _ h => h) :
    (Prog.perform op : OsM β).Only (Inside paths) :=
  Prog.only_perform.mpr fun q hq => .inl (h q hq ▸ hp)

theorem rename_inside {src dst : Path} (hs : paths.secrets <:+ src) (hd : paths.secrets <:+ dst) :
    (Prog.perform (.rename src dst) : OsM Unit).Only (Inside paths) :=
  Prog.only_perform.mpr fun _ hq => .inl (Or.elim hq hs.trans hd.trans)

theorem fsync_inside (p : Path) : (Prog.perform (.fsync p) : OsM Unit).Only (Inside paths) :=
  reads_inside (Prog.only_perform.mpr fun _ => id)

theorem replaceAndSync_inside {src dst : Path} (hs : paths.secrets <:+ src)
    (hd : paths.secrets <:+ dst) : (replaceAndSync src dst).Only (Inside paths) :=
  (rename_inside hs hd).bind fun _ => fsync_inside _

theorem installTransactionFile_inside {destination stage backup : Path}
    (hd : paths.secrets <:+ destination) (hs : paths.secrets <:+ stage)
    (hb : paths.secrets <:+ backup) (old : Option String) (new label : String) :
    (installTransactionFile destination stage backup old new label).Only (Inside paths) := by
  have hmatches (p : Path) (d : Option String) (label : String) :
      (matchesDigest p d label).Only (Inside paths) := reads_inside (matchesDigest_reads p d label)
  have hexists (p : Path) : (pathExists p).Only (Inside paths) := reads_inside (pathExists_reads p)
  have hstate {m : String} {f : Unit → OsM Unit} :
      ((throw (.state m) : OsM Unit).bind f).Only (Inside paths) := Prog.only_raise
  have hreplace := replaceAndSync_inside hs hd
  refine (hmatches _ _ _).bind fun matched => Prog.only_ret.ite ((hmatches _ _ _).bind fun staged =>
    hstate.ite ?_)
  refine Prog.Only.ite ((hexists _).bind fun there => hstate.ite hreplace)
    ((hexists _).bind fun saved => Prog.Only.ite ?_ ?_)
  · exact (hmatches _ _ _).bind fun old => hstate.ite
      ((replaceAndSync_inside hd hb).bind fun _ => hreplace)
  · exact (hmatches _ _ _).bind fun old => hstate.ite hreplace

theorem syncRegularFile_inside (p : Path) : (syncRegularFile p).Only (Inside paths) :=
  reads_inside ((Prog.only_perform.mpr fun _ => id).bind fun _ => Prog.only_perform.mpr fun _ => id)

/-- Every file of a transaction is below the secrets. -/
structure Beside (paths : InstancePaths) (identity : Path) (files : TransactionFiles) : Prop where
  destination : paths.secrets <:+ identity
  publicKey : paths.secrets <:+ pubOf identity
  journal : paths.secrets <:+ transactionPath identity
  privateStage : paths.secrets <:+ files.privateStage
  publicStage : paths.secrets <:+ files.publicStage
  privateBackup : paths.secrets <:+ files.privateBackup
  publicBackup : paths.secrets <:+ files.publicBackup

theorem suffix_child {p : Path} (h : paths.secrets <:+ p) (n : String) : paths.secrets <:+ p / n :=
  h.trans (List.suffix_cons n p)

theorem beside_transactionFiles (h : paths.secrets <:+ identity.parent) (transaction : String) :
    Beside paths identity (transactionFiles identity transaction) where
  destination := h.trans (List.tail_suffix identity)
  publicKey := suffix_child h _
  journal := suffix_child h _
  privateStage := suffix_child h _
  publicStage := suffix_child h _
  privateBackup := suffix_child h _
  publicBackup := suffix_child h _

theorem finishTransaction_inside {files : TransactionFiles} (h : Beside paths identity files)
    (j : Journal) : (finishTransaction identity (pubOf identity) files j).Only (Inside paths) := by
  have hmatches (p : Path) (d : Option String) (label : String) :
      (matchesDigest p d label).Only (Inside paths) := reads_inside (matchesDigest_reads p d label)
  have hstate {m : String} {f : Unit → OsM Unit} :
      ((throw (.state m) : OsM Unit).bind f).Only (Inside paths) := Prog.only_raise
  refine (installTransactionFile_inside h.publicKey h.publicStage h.publicBackup _ _ _).bind fun _ =>
    (installTransactionFile_inside h.destination h.privateStage h.privateBackup _ _ _).bind fun _ => ?_
  refine (hmatches _ _ _).bind fun _ => hstate.ite ((hmatches _ _ _).bind fun _ => hstate.ite ?_)
  exact (at_inside h.destination).bind fun _ => (at_inside h.publicKey).bind fun _ =>
    (syncRegularFile_inside _).bind fun _ => syncRegularFile_inside _

theorem operationCompleted_reads (paths : InstancePaths) (identity publicKey : Path)
    (operationId operationKind : String) :
    (operationCompleted paths identity publicKey operationId operationKind).Only OsOp.Reads := by
  have hstate {m : String} {f : Unit → OsM Bool} :
      ((throw (.state m) : OsM Unit).bind f).Only OsOp.Reads := Prog.only_raise
  refine (lstatMissing_reads _).bind fun st => ?_
  cases st with
  | none => exact Prog.only_ret
  | some st =>
    refine Prog.Only.ite hstate (Prog.Only.bind ((loadJson_reads _).handle fun e =>
      Prog.only_raise.ite Prog.only_raise) fun value => (Prog.only_ofExcept _).bind fun name => ?_)
    refine Prog.Only.ite hstate ?_
    split
    · refine (matchesDigest_reads _ _ _).bind fun _ => hstate.ite ?_
      exact (matchesDigest_reads _ _ _).bind fun _ => hstate.ite Prog.only_ret
    · exact Prog.only_raise

theorem recordOperation_inside (paths : InstancePaths) (identity publicKey : Path) (j : Journal) :
    (recordOperation paths identity publicKey j).Only (Inside paths) := by
  refine (reads_inside (operationCompleted_reads _ _ _ _ _)).bind fun _ => Prog.only_ret.ite ?_
  refine (Prog.only_ofExcept _).bind fun name => ?_
  refine (atomicWriteBytes_within (W := Owned paths) (d := paths.state) (fun q hq => ?_)
    (fun q hq => .inr ((List.suffix_cons _ _).trans hq)) _ _).mono fun _ => inside_of_state
  refine (List.suffix_cons_iff.mp hq).imp (fun he => ?_) id
  subst he
  exact .inr (List.suffix_cons _ _)

theorem removeTransaction_inside {files : TransactionFiles} (h : Beside paths identity files) :
    (removeTransaction identity files).Only (Inside paths) := by
  refine (Prog.only_forEach_mem _ fun obsolete hmem => ?_).bind fun _ => fsync_inside _
  have hbelow : paths.secrets <:+ obsolete := by
    simp only [List.mem_cons, List.not_mem_nil, or_false] at hmem
    rcases hmem with rfl | rfl | rfl | rfl | rfl
    · exact h.privateStage
    · exact h.publicStage
    · exact h.privateBackup
    · exact h.publicBackup
    · exact h.journal
  exact ignoreMissing_only (at_inside hbelow)

theorem cleanOrphanedFiles_inside (h : paths.secrets <:+ identity.parent) :
    (cleanOrphanedFiles identity).Only (Inside paths) := by
  refine (reads_inside (Prog.only_perform.mpr fun _ => id)).bind fun _ => Prog.only_ret.ite ?_
  refine (reads_inside (Prog.only_perform.mpr fun _ => id)).bind fun names =>
    (Prog.only_forEach (fun name => ?_) names).bind fun _ => fsync_inside _
  refine Prog.Only.ite (ignoreMissing_only ?_) Prog.only_ret
  refine (reads_inside (Prog.only_perform.mpr fun _ => id)).bind fun st => ?_
  have hstate {m : String} {f : Unit → OsM Unit} :
      ((throw (.state m) : OsM Unit).bind f).Only (Inside paths) := Prog.only_raise
  exact hstate.ite (at_inside (suffix_child h name))

/-- The files of a transaction that is read have the names of one. -/
theorem readTransaction_files (identity : Path) (t : Tree) : (readTransaction identity).Yields machine
    (fun found _ => ∀ files j, found = some (files, j) → files = transactionFiles identity j.transaction)
    t := by
  refine Prog.yields_bind_any fun st t => ?_
  cases st with
  | none => exact Prog.yields_ret nofun
  | some st =>
    refine Prog.yields_ite (fun _ => Prog.yields_bind Prog.yields_raise) fun _ =>
      Prog.yields_bind_any fun value t => Prog.yields_bind_any fun j t => Prog.yields_ret ?_
    rintro files j' he
    cases he
    rfl

/-- The events so far are inside. -/
def EventsInside (paths : InstancePaths) (s : Tree × List (Event OsOp Exn)) : Prop :=
  ∀ e ∈ s.2, Inside paths e.op

theorem recoverAt_inside (h : paths.secrets <:+ identity.parent) :
    (recoverAt paths identity (pubOf identity)).Keeps machine.traced (EventsInside paths) := by
  intro s hs
  refine Prog.wp_bind_keeps (reads_inside (readTransaction_reads identity)).events
    (Prog.wp.traced (readTransaction_files identity s.1) s.2) hs (fun _ => id) (fun _ _ => id)
    fun found s hs hfiles => ?_
  cases found with
  | none => exact (cleanOrphanedFiles_inside h).events s hs
  | some found =>
    obtain ⟨files, j⟩ := found
    obtain rfl := hfiles files j rfl
    have hbeside := beside_transactionFiles h j.transaction
    refine Prog.Only.events (P := Inside paths) ?_ s hs
    exact (finishTransaction_inside hbeside j).bind fun _ => (recordOperation_inside _ _ _ j).bind
      fun _ => (removeTransaction_inside hbeside).bind fun _ => cleanOrphanedFiles_inside h

theorem sshKeygen_inside {stage : Path} (hs : paths.secrets <:+ stage)
    (hp : paths.secrets <:+ pubOf stage) (comment : String) :
    (sshKeygen stage comment).Only (Inside paths) :=
  Prog.Only.handle ((at_inside hs).bind fun _ => (at_inside hp).bind fun _ => at_inside hp)
    fun _ => Prog.only_raise

theorem requireBoundedRegular_reads (p : Path) (label : String) :
    (requireBoundedRegular p label).Only OsOp.Reads := by
  refine Prog.Only.bind ((Prog.only_perform.mpr fun _ => id).handle fun e =>
    Prog.only_raise.ite Prog.only_raise) fun st => ?_
  have hstate {m : String} {f : Unit → OsM Unit} :
      ((throw (.state m) : OsM Unit).bind f).Only OsOp.Reads := Prog.only_raise
  exact hstate.ite (Prog.only_raise.ite Prog.only_ret)

theorem newTransaction_reads (identity publicKey : Path) (files : TransactionFiles)
    (transaction operationId operationKind : String) :
    (newTransaction identity publicKey files transaction operationId operationKind).Only
      OsOp.Reads := by
  have hdigest (p : Path) (label : String) : (fileDigest p label).Only OsOp.Reads :=
    fileDigest_only (fun _ _ => id) (fun _ _ => id) (fun _ _ => id) p label
  have hoptional (p : Path) (label : String) : (optionalDigest p label).Only OsOp.Reads :=
    (pathExists_reads p).bind fun _ => ((hdigest p label).bind fun _ => Prog.only_ret).ite Prog.only_ret
  exact (hoptional _ _).bind fun _ => (hoptional _ _).bind fun _ => (hdigest _ _).bind fun _ =>
    (hdigest _ _).bind fun _ => Prog.only_ret

theorem atomicWriteJson_inside {n : String} {d : Path} (h : paths.secrets <:+ d) (value : Json)
    (mode : Nat) : (atomicWriteJson (n :: d) value mode).Only (Inside paths) := by
  refine (atomicWriteBytes_within (W := Owned paths) (d := paths.secrets) (fun q hq => ?_)
    (fun q hq => .inl (h.trans hq)) _ _).mono fun _ => inside_of_secrets
  exact (List.suffix_or_suffix_of_suffix h hq).imp .inl id

/-- Everything after the first recovery is below the secrets or the state. -/
theorem stageTransaction_inside (h : paths.secrets <:+ identity.parent)
    (project operationId operationKind : String) :
    (stageTransaction project identity (pubOf identity) operationId operationKind).Only
      (Inside paths) := by
  refine (reads_inside (Prog.only_perform.mpr fun _ => id)).bind fun transaction => ?_
  have hbeside := beside_transactionFiles h transaction
  have hgenerated : paths.secrets <:+ pubOf (transactionFiles identity transaction).privateStage :=
    suffix_child h _
  refine (sshKeygen_inside hbeside.privateStage hgenerated _).bind fun _ =>
    (reads_inside (requireBoundedRegular_reads _ _)).bind fun _ =>
    (reads_inside (requireBoundedRegular_reads _ _)).bind fun _ =>
    (at_inside hbeside.privateStage).bind fun _ => (at_inside hgenerated).bind fun _ =>
    (rename_inside hgenerated hbeside.publicStage).bind fun _ =>
    (syncRegularFile_inside _).bind fun _ => (syncRegularFile_inside _).bind fun _ =>
    (fsync_inside _).bind fun _ => (reads_inside (newTransaction_reads _ _ _ _ _ _)).bind fun j =>
    (atomicWriteJson_inside h _ _).bind fun _ => Prog.only_ret

theorem stageTransaction_files (project : String) (identity publicKey : Path)
    (operationId operationKind : String) (t : Tree) :
    (stageTransaction project identity publicKey operationId operationKind).Yields machine
      (fun found _ => ∃ transaction, found.1 = transactionFiles identity transaction) t := by
  refine Prog.yields_bind_any fun transaction t => ?_
  refine Prog.yields_bind_any fun _ t => Prog.yields_bind_any fun _ t => Prog.yields_bind_any fun _ t =>
    Prog.yields_bind_any fun _ t => Prog.yields_bind_any fun _ t => Prog.yields_bind_any fun _ t =>
    Prog.yields_bind_any fun _ t => Prog.yields_bind_any fun _ t => Prog.yields_bind_any fun _ t =>
    Prog.yields_bind_any fun j t => Prog.yields_bind_any fun _ t => Prog.yields_ret ⟨transaction, rfl⟩

/-- The replacement itself, once nothing of an earlier one is left. -/
theorem replace_inside (h : paths.secrets <:+ identity.parent)
    (project operationId operationKind : String) : (do
      let (files, journal) ←
        stageTransaction project identity (pubOf identity) operationId operationKind
      finishTransaction identity (pubOf identity) files journal
      recordOperation paths identity (pubOf identity) journal
      removeTransaction identity files
      return identity : OsM Path).Keeps machine.traced (EventsInside paths) := by
  intro s hs
  refine Prog.wp_bind_keeps (stageTransaction_inside h project operationId operationKind).events
    (Prog.wp.traced (stageTransaction_files project identity _ operationId operationKind s.1) s.2) hs
    (fun _ => id) (fun _ _ => id) fun found s hs hfiles => ?_
  obtain ⟨files, j⟩ := found
  obtain ⟨transaction, rfl⟩ := hfiles
  have hbeside := beside_transactionFiles h transaction
  refine Prog.Only.events (P := Inside paths) ?_ s hs
  exact (finishTransaction_inside hbeside j).bind fun _ => (recordOperation_inside _ _ _ j).bind
    fun _ => (removeTransaction_inside hbeside).bind fun _ => Prog.only_ret

end

/-! ## Where the identity is -/

section
variable {config : SSHConfig} {paths : InstancePaths} {t u : Tree}

/-- The identity is where the mount of the secrets has it. -/
def Literal (config : SSHConfig) (paths : InstancePaths) (t : Tree) : Prop :=
  mountedSecretPath paths config.identityFile = .ok (identityAt config paths t)

theorem Literal.inside (h : Literal config paths t) :
    paths.secrets <:+ (identityAt config paths t).parent := by
  obtain ⟨parts, hparts, hpath⟩ := bind_eq_ok.mp h
  rw [secretRelativePath, raiseIf_bind_eq_ok, raiseIf_bind_eq_ok] at hparts
  obtain ⟨-, hbad, hparts⟩ := hparts
  have hlength : 0 < parts.length := by
    cases hparts
    rw [List.length_drop]
    omega
  have hjoin : identityAt config paths t = parts.reverse ++ paths.secrets :=
    (Except.ok.inj hpath).symm.trans (Path.join_eq_append paths.secrets parts)
  rw [hjoin]
  cases hreverse : parts.reverse with
  | nil => simp [List.reverse_eq_nil_iff.mp hreverse] at hlength
  | cons n rest => exact List.suffix_append rest paths.secrets

end

end Ssh
end ShuttleGate
