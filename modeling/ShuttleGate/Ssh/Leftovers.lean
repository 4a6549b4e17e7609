import ShuttleGate.Ssh.Confinement
import ShuttleGate.Files.Leaving

/-! # What an interrupted operation leaves

The files an operation on the keys makes, wherever it is stopped, and which of them are there when
it has been recovered. -/

namespace ShuttleGate

open Fs Effect Os Files State

namespace Ssh

/-! ## Names -/

/-- A name that the recovery takes for an interrupted operation's. -/
def isTransient (identity : Path) (name : String) : Bool :=
  (transactionPrefix identity).isPrefixOf name ||
    ("." ++ (transactionPath identity).name ++ ".").isPrefixOf name

/-- The stages, the backups, the journal and its temporary files. -/
def Transient (identity q : Path) : Prop :=
  q = transactionPath identity ∨
    ∃ name, q = identity.parent / name ∧ isTransient identity name = true

/-- Where the files of a transaction are, the journal included. -/
def transactionPaths (identity : Path) (files : TransactionFiles) : List Path :=
  [files.privateStage, files.publicStage, files.privateBackup, files.publicBackup,
    transactionPath identity]

section
variable {identity : Path}

theorem isPrefixOf_iff {s r : String} : s.isPrefixOf r = true ↔ s.toList <+: r.toList :=
  String.startsWith_string_iff

theorem isPrefixOf_append (s r : String) : s.isPrefixOf (s ++ r) = true := by
  rw [isPrefixOf_iff, String.toList_append]
  exact List.prefix_append _ _

theorem transient_of_prefix (r : String) :
    Transient identity (identity.parent / (transactionPrefix identity ++ r)) :=
  .inr ⟨_, rfl, Bool.or_eq_true_iff.mpr (.inl (isPrefixOf_append _ _))⟩

theorem transient_transactionPaths (transaction : String) {q : Path}
    (hq : q ∈ transactionPaths identity (transactionFiles identity transaction)) :
    Transient identity q := by
  simp only [transactionPaths, List.mem_cons, List.not_mem_nil, or_false] at hq
  rcases hq with rfl | rfl | rfl | rfl | rfl
  · simpa [transactionFiles, String.append_assoc] using
      transient_of_prefix (transaction ++ ".private.new")
  · simpa [transactionFiles, String.append_assoc] using
      transient_of_prefix (transaction ++ ".public.new")
  · simpa [transactionFiles, String.append_assoc] using
      transient_of_prefix (transaction ++ ".private.old")
  · simpa [transactionFiles, String.append_assoc] using
      transient_of_prefix (transaction ++ ".public.old")
  · exact .inl rfl

/-- The public key as `ssh-keygen` names it. -/
def generatedPublic (identity : Path) (transaction : String) : Path :=
  pubOf (transactionFiles identity transaction).privateStage

theorem transient_generatedPublic (transaction : String) :
    Transient identity (generatedPublic identity transaction) := by
  simpa [generatedPublic, pubOf, transactionFiles, Path.name, Path.parent, Path.div_def,
    String.append_assoc] using transient_of_prefix (transaction ++ (".private.new" ++ ".pub"))

theorem transient_temp {q : Path} (h : TempOf (transactionPath identity) q) : Transient identity q := by
  obtain ⟨suffix, -, rfl⟩ := h
  exact .inr ⟨_, rfl, Bool.or_eq_true_iff.mpr (.inr (isPrefixOf_append _ _))⟩

theorem child_ne_identity {m : String} (h : m ≠ identity.name) : identity.parent / m ≠ identity :=
  fun he => not_below_identity h ⟨[], he⟩

/-- The journal's name is longer than the keys'. -/
theorem transactionPath_ne : identity ≠ transactionPath identity ∧
    pubOf identity ≠ transactionPath identity := by
  have hlength : ("." ++ identity.name ++ ".transaction.json").length = identity.name.length + 18 := by
    rw [String.length_append, String.length_append]
    have hdot : ".".length = 1 ∧ ".transaction.json".length = 17 := by decide
    omega
  constructor <;> intro he
  · refine child_ne_identity (fun hn => ?_) he.symm
    have := congrArg String.length hn
    omega
  · have hn : identity.name ++ ".pub" = "." ++ identity.name ++ ".transaction.json" :=
      (List.cons.inj he).1
    have := congrArg String.length hn
    have hpub : ".pub".length = 4 := by decide
    rw [String.length_append] at this
    omega

theorem prefixed_ne_transactionPath (identity : Path) (r : String) :
    identity.parent / (transactionPrefix identity ++ r) ≠ transactionPath identity := fun he => by
  have hn : transactionPrefix identity ++ r = "." ++ identity.name ++ ".transaction.json" :=
    (List.cons.inj he).1
  have := congrArg String.toList hn
  simp [transactionPrefix] at this

/-- No other file of a transaction has the journal's name. -/
theorem transactionFiles_ne (identity : Path) (transaction : String) :
    (transactionFiles identity transaction).privateStage ≠ transactionPath identity ∧
      generatedPublic identity transaction ≠ transactionPath identity ∧
      (transactionFiles identity transaction).publicStage ≠ transactionPath identity ∧
      (transactionFiles identity transaction).privateBackup ≠ transactionPath identity ∧
      (transactionFiles identity transaction).publicBackup ≠ transactionPath identity := by
  have hne (r : String) : identity.parent / (transactionPrefix identity ++ transaction ++ r) ≠
      transactionPath identity := by
    rw [String.append_assoc]
    exact prefixed_ne_transactionPath identity _
  refine ⟨hne _, ?_, hne _, hne _, hne _⟩
  have hgenerated := hne (".private.new" ++ ".pub")
  rwa [← String.append_assoc] at hgenerated

theorem generatedPublic_ne (identity : Path) (transaction : String) :
    generatedPublic identity transaction ≠ (transactionFiles identity transaction).publicStage :=
  fun he => by
  have hn : transactionPrefix identity ++ transaction ++ ".private.new" ++ ".pub" =
      transactionPrefix identity ++ transaction ++ ".public.new" := (List.cons.inj he).1
  rw [String.append_assoc] at hn
  exact append_ne (by decide) hn

end

/-! ### What they are not -/

section
variable {identity q : Path} {n : String}

theorem length_le_of_isPrefixOf {s r : String} (h : s.isPrefixOf r = true) : s.length ≤ r.length := by
  have := (isPrefixOf_iff.mp h).length_le
  rwa [String.length_toList, String.length_toList] at this

/-- A name of an interrupted operation's is longer than those of the keys. -/
theorem length_of_isTransient (h : isTransient identity n = true) :
    identity.name.length + 14 ≤ n.length := by
  have hdot : ".".length = 1 ∧ ".transaction-".length = 13 ∧ ".transaction.json".length = 17 := by decide
  rcases Bool.or_eq_true_iff.mp h with h | h
  all_goals
    have := length_le_of_isPrefixOf h
    simp only [transactionPrefix, transactionPath, Path.name_div, String.length_append] at this
    omega

theorem length_of_transient (h : Transient identity (identity.parent / n)) :
    identity.name.length + 14 ≤ n.length := by
  rcases h with he | ⟨m, he, hm⟩
  · have hn : n = "." ++ identity.name ++ ".transaction.json" := (List.cons.inj he).1
    have hdot : ".".length = 1 ∧ ".transaction.json".length = 17 := by decide
    rw [hn, String.length_append, String.length_append]
    omega
  · rw [(List.cons.inj he).1]
    exact length_of_isTransient hm

theorem not_transient_identity : ¬ Transient identity identity := by
  rintro (he | ⟨m, he, hm⟩)
  · exact transactionPath_ne.1 he
  · have hname : m ≠ identity.name := fun hn => by
      have := length_of_isTransient hm
      rw [hn] at this
      omega
    exact child_ne_identity hname he.symm

theorem not_transient_pub : ¬ Transient identity (pubOf identity) := fun h => by
  have := length_of_transient h
  have hpub : ".pub".length = 4 := by decide
  rw [String.length_append] at this
  omega

theorem not_transient_lock {paths : InstancePaths} : ¬ Transient identity (lockPath paths) := by
  have hlock : lockFile.length = 11 := by decide
  rintro (he | ⟨m, he, hm⟩)
  · have hn : lockFile = "." ++ identity.name ++ ".transaction.json" := (List.cons.inj he).1
    have hdot : ".".length = 1 ∧ ".transaction.json".length = 17 := by decide
    rw [hn, String.length_append, String.length_append] at hlock
    omega
  · have := length_of_isTransient hm
    rw [← (List.cons.inj he).1] at this
    omega

/-- The names of an interrupted operation's begin with a dot. -/
theorem dot_of_transient {d : Path} (h : Transient identity (n :: d)) : ['.'] <+: n.toList := by
  have hdot (r : String) (hr : ("." ++ r).toList <+: n.toList) : ['.'] <+: n.toList := by
    rw [String.toList_append] at hr
    exact (List.prefix_append _ _).trans hr
  rcases h with he | ⟨m, he, hm⟩
  · have hn : n = "." ++ identity.name ++ ".transaction.json" := (List.cons.inj he).1
    rw [String.append_assoc] at hn
    exact hdot _ ⟨[], by rw [hn, List.append_nil]⟩
  · obtain rfl : n = m := (List.cons.inj he).1
    rcases Bool.or_eq_true_iff.mp hm with hm | hm
    · rw [transactionPrefix, String.append_assoc] at hm
      exact hdot _ (isPrefixOf_iff.mp hm)
    · rw [String.append_assoc] at hm
      exact hdot _ (isPrefixOf_iff.mp hm)

theorem not_transient_operationPath {paths : InstancePaths} {id : String} :
    ¬ Transient identity (operationPath paths id) := fun h => by
  have hs : "s".toList <+: ("ssh-" ++ Crypto.Sha256.hexdigest (Crypto.Sha256.ascii id) ++
      ".json").toList := by
    rw [String.append_assoc, String.toList_append]
    exact (show "s".toList <+: "ssh-".toList by decide).trans (List.prefix_append _ _)
  obtain ⟨r, hr⟩ := hs
  obtain ⟨r', hr'⟩ := dot_of_transient h
  cases hr.trans hr'.symm

/-- What is in no name `tempfile` chooses. -/
theorem no_dot_of_isTempSuffix {suffix : String} (h : IsTempSuffix suffix) : '.' ∉ suffix.toList := by
  intro hmem
  have hdot : ¬ (('a' ≤ '.' ∧ '.' ≤ 'z') ∨ '.'.isDigit ∨ '.' = '_') := by decide
  exact hdot (h.2 '.' hmem)

/-- There is no room for `.transaction-` from a dot of such a name on. -/
theorem not_prefix_of_tail {a x suf r : List Char} (ha : '.' ∉ a) (hsuf : suf.length = 8) :
    x ++ ".transaction-".toList ++ r ≠ a ++ (".json.".toList ++ suf) := by
  have hlength : ".transaction-".toList.length = 13 ∧ ".json.".toList.length = 6 := by decide
  intro he
  rw [List.append_assoc, List.append_eq_append_iff] at he
  rcases he with ⟨a', hx, hr⟩ | ⟨x', hx, hr⟩
  · cases a' with
    | nil => simp at hr
    | cons c a' =>
      obtain rfl : '.' = c := (List.cons.inj hr).1
      exact ha (by simp [hx])
  · match x' with
    | [] => simp at hr
    | [c] => simp at hr
    | _ :: _ :: x' =>
      have := congrArg List.length hr
      simp only [List.length_append, List.length_cons] at this
      omega

theorem toList_receiptTemp (id name suffix : String)
    (hname : name = "ssh-" ++ Crypto.Sha256.hexdigest (Crypto.Sha256.ascii id) ++ ".json") :
    (s!".{name}." ++ suffix).toList =
      '.' :: ("ssh-".toList ++ (Crypto.Sha256.hexdigest (Crypto.Sha256.ascii id)).toList ++
        (".json.".toList ++ suffix.toList)) := by
  subst hname
  simp [toString]

/-- A temporary file of a receipt is taken for nothing of an interrupted operation's. -/
theorem not_transient_receiptTemp {paths : InstancePaths} {id : String}
    (h : TempOf (operationPath paths id) q) : ¬ Transient identity q := by
  obtain ⟨suffix, hsuffix, rfl⟩ := h
  have hdigest : '.' ∉ "ssh-".toList ++ (Crypto.Sha256.hexdigest (Crypto.Sha256.ascii id)).toList := by
    intro hmem
    rcases List.mem_append.mp hmem with hmem | hmem
    · revert hmem
      decide
    · exact absurd (Crypto.Sha256.isHex_hexdigest _ hmem) (by decide)
  have hlength : suffix.toList.length = 8 := by
    rw [String.length_toList]
    exact hsuffix.1
  rintro (he | ⟨m, he, hm⟩)
  · -- the journal's name ends in what is no suffix
    have hn := congrArg String.toList (List.cons.inj he).1
    rw [String.toList_append] at hn
    have htail : ("." ++ identity.name ++ ".transaction.json").toList =
        ("." ++ identity.name ++ ".transact").toList ++ "ion.json".toList := by simp
    have hsame := (List.append_inj' (hn.trans htail) (by rw [hlength]; rfl)).2
    exact no_dot_of_isTempSuffix hsuffix (hsame ▸ by decide)
  · have hn := (congrArg String.toList (List.cons.inj he).1).symm.trans (toList_receiptTemp id _ suffix rfl)
    rcases Bool.or_eq_true_iff.mp hm with hm | hm
    · obtain ⟨r, hr⟩ := isPrefixOf_iff.mp hm
      have hcut : '.' :: (identity.name.toList ++ ".transaction-".toList ++ r) = m.toList := by
        rw [← hr, transactionPrefix]
        simp
      exact not_prefix_of_tail hdigest hlength (List.cons.inj (hcut.trans hn)).2
    · obtain ⟨r, hr⟩ := isPrefixOf_iff.mp hm
      rw [hn] at hr
      simp [transactionPath] at hr

end

/-! ## Installation -/

/-- There is a regular file. -/
def IsFile (t : Tree) (q : Path) : Prop := ∃ m c, t.get q = some (.file m c)

theorem DigestIs.isFile {t : Tree} (h : DigestIs t q d) : IsFile t q :=
  let ⟨m, c, hq, _⟩ := h
  ⟨m, c, hq⟩

section
variable {t₀ t u : Tree} {A R : Path → Prop} {J identity : Path} {H : Bytes → Prop}

/-- What a program that only looks tells. -/
theorem settles_bind_reads {p : OsM α} {f : α → OsM β} {K : Tree → Prop} {S : α → Prop}
    {Q : β → Tree → Prop} (hp : p.Only OsOp.Reads) (h : p.Yields machine (fun a u => u = t ∧ S a) t)
    (hK : K t) (hf : ∀ a, S a → (f a).Settles machine K Q t) : (p.bind f).Settles machine K Q t :=
  wp_bind_reads hp h hK (fun _ => nofun) hf

theorem settles_bind_look {p : OsM α} {f : α → OsM β} {K : Tree → Prop} {Q : β → Tree → Prop}
    (hp : p.Only OsOp.Reads) (hK : K t) (hf : ∀ a, (f a).Settles machine K Q t) :
    (p.bind f).Settles machine K Q t :=
  settles_bind_reads (S := fun _ => True) hp
    ((Prog.yields_trivial p t).and_keeps (keeps_of_reads hp t) rfl |>.mono fun _ _ h => ⟨h.2, trivial⟩)
    hK fun a _ => hf a

theorem replaceAndSync_leaves {src dst : Path} (h : Leaves t₀ A R J H t) (hsrc : IsFile t src)
    (hA : A dst) (hR : R src) (hJ : dst ≠ J) :
    (replaceAndSync src dst).Settles machine (Leaves t₀ A R J H) (fun _ u => Leaves t₀ A R J H u ∧
      ∀ q, q ≠ src → IsFile t q → IsFile u q) t := by
  obtain ⟨m, c, hfile⟩ := hsrc
  refine Prog.settles_bind (Prog.wp_perform.mpr ⟨h, fun r u hstep => ?_⟩)
  have hu : Leaves t₀ A R J H u := h.rename hfile hA hR (fun he => absurd he hJ) hstep
  refine ⟨hu, fun _ _ => ?_⟩
  refine Prog.wp_perform.mpr ⟨hu, fun r v hsync => ?_⟩
  obtain rfl : v = u := OsOp.Reads.step (fun _ => id) hsync
  refine ⟨hu, fun _ _ => ⟨hu, fun q hq hthere => ?_⟩⟩
  rcases rename_file hfile hstep with rfl | hget
  · exact hthere
  · by_cases hdst : q = dst
    · exact ⟨m, c, (hget q).trans (if_pos hdst)⟩
    · rw [IsFile, hget q, if_neg hdst, if_neg hq]
      exact hthere

theorem installTransactionFile_leaves {destination stage backup : Path} {old : Option String}
    {new label : String} (h : Leaves t₀ A R J H t) (hdestination : A destination ∧ R destination)
    (hstage : R stage) (hbackup : A backup) (hJ : destination ≠ J ∧ backup ≠ J)
    (hne : stage ≠ destination) :
    (installTransactionFile destination stage backup old new label).Settles machine
      (Leaves t₀ A R J H) (fun _ => Leaves t₀ A R J H) t := by
  -- the stage comes to the destination
  have hreplace {u : Tree} (hu : Leaves t₀ A R J H u) (hfile : IsFile u stage) :
      (replaceAndSync stage destination).Settles machine (Leaves t₀ A R J H)
        (fun _ => Leaves t₀ A R J H) u :=
    (replaceAndSync_leaves hu hfile hdestination.1 hstage hJ.1).mono (fun _ => id) fun _ _ hv _ => hv
  refine settles_bind_look (matchesDigest_reads _ _ _) h fun matched => Prog.settles_ite
    (fun _ => Prog.settles_ret h h) fun _ => ?_
  refine settles_bind_reads (matchesDigest_reads _ _ _) (matchesDigest_yields _ _ _ t) h
    fun staged hstaged => ?_
  cases staged with
  | false => exact Prog.settles_raise h
  | true =>
    have hfile : IsFile t stage := hstaged.isFile
    cases old with
    | none =>
      exact settles_bind_look (pathExists_reads _) h fun there => Prog.settles_ite
        (fun _ => Prog.settles_raise h) fun _ => hreplace h hfile
    | some d =>
      refine settles_bind_look (pathExists_reads _) h fun saved => ?_
      cases saved with
      | false =>
        refine settles_bind_reads (matchesDigest_reads _ _ _) (matchesDigest_yields _ _ _ t) h
          fun matched hmatched => ?_
        cases matched with
        | false => exact Prog.settles_raise h
        | true =>
          refine Prog.settles_bind ((replaceAndSync_leaves h hmatched.isFile hbackup hdestination.2
            hJ.2).mono (fun _ => id) fun _ u hu ⟨_, hfiles⟩ => ?_)
          exact hreplace hu (hfiles stage hne hfile)
      | true =>
        exact settles_bind_look (matchesDigest_reads _ _ _) h fun matched => Prog.settles_ite
          (fun _ => Prog.settles_raise h) fun _ => hreplace h hfile

end

/-! ## The transaction -/

/-- The files of a transaction may be made and taken away. -/
structure Covers (A R : Path → Prop) (identity : Path) (files : TransactionFiles) : Prop where
  made : ∀ q ∈ identity :: pubOf identity :: transactionPaths identity files, A q
  kept : ∀ q ∈ identity :: pubOf identity :: transactionPaths identity files, R q

section
variable {t₀ t u : Tree} {A R : Path → Prop} {J identity : Path} {H : Bytes → Prop}
  {transaction : String}

theorem matchesDigest_fits (p : Path) (expected : Option String) (label : String) :
    (matchesDigest p expected label).Only (Fits A R J H) :=
  reads_fits (matchesDigest_reads p expected label)

theorem syncRegularFile_fits (p : Path) : (syncRegularFile p).Only (Fits A R J H) :=
  reads_fits ((Prog.only_perform.mpr fun _ => id).bind fun _ => Prog.only_perform.mpr fun _ => id)

theorem chmod_fits (p : Path) (mode : Nat) :
    (Prog.perform (.chmod p mode) : OsM Unit).Only (Fits A R J H) :=
  Prog.only_perform.mpr (fits_chmod p mode)

theorem finishTransaction_leaves (h : Leaves t₀ A R (transactionPath identity) H t) (hempty : H [])
    (hfiles : Covers A R identity (transactionFiles identity transaction)) (j : Journal) :
    (finishTransaction identity (pubOf identity) (transactionFiles identity transaction) j).Settles
      machine (Leaves t₀ A R (transactionPath identity) H)
      (fun _ => Leaves t₀ A R (transactionPath identity) H) t := by
  have hname (r : String) := transactionName_ne identity transaction r
  have hnames := transactionFiles_ne identity transaction
  have hmade := hfiles.made
  have hkept := hfiles.kept
  simp only [transactionPaths, List.forall_mem_cons] at hmade hkept
  obtain ⟨hmadeIdentity, hmadePublic, -, -, hprivateBackup, hpublicBackup, -⟩ := hmade
  obtain ⟨hkeptIdentity, hkeptPublic, hprivateStage, hpublicStage, -⟩ := hkept
  refine Prog.settles_bind ((installTransactionFile_leaves h ⟨hmadePublic, hkeptPublic⟩ hpublicStage
    hpublicBackup ⟨transactionPath_ne.2, hnames.2.2.2.2⟩ fun he => (hname _).2 (List.cons.inj he).1).mono
    (fun _ => id) fun _ u hu _ => ?_)
  refine Prog.settles_bind ((installTransactionFile_leaves hu ⟨hmadeIdentity, hkeptIdentity⟩
    hprivateStage hprivateBackup ⟨transactionPath_ne.1, hnames.2.2.2.1⟩
    (child_ne_identity (hname _).1)).mono (fun _ => id) fun _ v hv _ => ?_)
  -- what follows makes no file
  refine (keeps_leaves ?_ hempty t₀).settles hv
  have hstate {m : String} {f : Unit → OsM Unit} :
      ((throw (.state m) : OsM Unit).bind f).Only (Fits A R (transactionPath identity) H) :=
    Prog.only_raise
  refine (matchesDigest_fits _ _ _).bind fun _ => hstate.ite ((matchesDigest_fits _ _ _).bind fun _ =>
    hstate.ite ?_)
  exact (chmod_fits _ _).bind fun _ => (chmod_fits _ _).bind fun _ =>
    (syncRegularFile_fits _).bind fun _ => syncRegularFile_fits _

theorem removeTransaction_fits {files : TransactionFiles}
    (hR : ∀ q ∈ transactionPaths identity files, R q) :
    (removeTransaction identity files).Only (Fits A R J H) :=
  (Prog.only_forEach_mem (transactionPaths identity files) fun q hq =>
    ignoreMissing_only (Prog.only_perform.mpr (fits_unlink (hR q hq)))).bind fun _ =>
      reads_fits (Prog.only_perform.mpr fun _ => id)

theorem cleanOrphanedFiles_fits (hR : ∀ q, Transient identity q → R q) :
    (cleanOrphanedFiles identity).Only (Fits A R J H) := by
  have hlook {β : Type} {op : OsOp β} (h : op.Reads) : (Prog.perform op : OsM β).Only (Fits A R J H) :=
    reads_fits (Prog.only_perform.mpr h)
  refine (hlook fun _ => id).bind fun _ => Prog.only_ret.ite ((hlook fun _ => id).bind fun names =>
    (Prog.only_forEach (fun name => ?_) names).bind fun _ => hlook fun _ => id)
  split
  · rename_i hname
    refine ignoreMissing_only ((hlook fun _ => id).bind fun st => ?_)
    have hstate {m : String} {f : Unit → OsM Unit} :
        ((throw (.state m) : OsM Unit).bind f).Only (Fits A R J H) := Prog.only_raise
    exact hstate.ite (Prog.only_perform.mpr (fits_unlink (hR _ (.inr ⟨name, rfl, hname⟩))))
  · exact Prog.only_ret

theorem recordOperation_leaves {paths : InstancePaths} {j : Journal} (h : Leaves t₀ A R J H t)
    (hempty : H []) (hreceipt : ∀ name, H (encodeUtf8 (jsonText (receiptJson j name))))
    (hA : A (operationPath paths j.operationId)) :
    (recordOperation paths identity (pubOf identity) j).Settles machine
      (Leaves t₀ (fun q => A q ∨ TempOf (operationPath paths j.operationId) q) R J H)
      (fun _ => Leaves t₀ A R J H) t := by
  have hstart : Leaves t₀ (fun q => A q ∨ TempOf (operationPath paths j.operationId) q) R J H t :=
    h.mono (fun _ => .inl) fun _ => id
  refine settles_bind_look (operationCompleted_reads _ _ _ _ _) hstart fun done => Prog.settles_ite
    (fun _ => Prog.settles_ret hstart h) fun _ => ?_
  cases hname : identityValue paths identity with
  | error e => exact Prog.settles_raise hstart
  | ok name => exact atomicWriteBytes_leaves hempty (hreceipt name) hA 0o600 h

/-! ## Staging -/

theorem sshKeygen_fits {stage : Path} (hA : A stage ∧ A (pubOf stage))
    (hJ : stage ≠ J ∧ pubOf stage ≠ J) (comment : String) :
    (sshKeygen stage comment).Only (Fits A R J H) := by
  have hkeygen : Fits A R J H (.keygen stage comment) :=
    { single := trivial, made := fun _ hq => hq ▸ hA.1, content := fun _ hq => absurd hq.symm hJ.1 }
  have hopen : Fits A R J H (.openWrite (pubOf stage) 0o644) :=
    { single := trivial, made := fun _ hq => hq ▸ hA.2 }
  have hwrite (content : Bytes) : Fits A R J H (.write (pubOf stage) content) :=
    { single := trivial, content := fun _ hq => absurd hq.1.symm hJ.2 }
  exact Prog.Only.handle ((Prog.only_perform.mpr hkeygen).bind fun pair =>
    (Prog.only_perform.mpr hopen).bind fun _ => Prog.only_perform.mpr (hwrite pair.2))
    fun _ => Prog.only_raise

theorem requireBoundedRegular_yields (p : Path) (label : String) (t : Tree) :
    (requireBoundedRegular p label).Yields machine (fun _ u => u = t ∧ IsFile t p) t := by
  refine Prog.yields_bind (Prog.Yields.mono (Q := fun (st : Stat) u => u = t ∧
    ∃ o, t.get p = some o ∧ st = statOf o) (Prog.yields_handle (Prog.yields_perform fun st u h => ?_)
    fun e u => Prog.yields_ite (fun _ => Prog.yields_raise) fun _ => Prog.yields_raise)
    fun st u ⟨hu, o, ho, hst⟩ => ?_)
  · exact (Step.ok h).lstat
  · subst hu hst
    refine Prog.yields_ite (fun _ => Prog.yields_bind Prog.yields_raise) fun hkind => ?_
    refine Prog.yields_ite (fun _ => Prog.yields_raise) fun _ => Prog.yields_ret ⟨rfl, ?_⟩
    obtain ⟨m, c, rfl⟩ := kind_statOf_regular.mp (not_not.mp hkind)
    exact ⟨m, c, ho⟩

theorem chmod_isFile (p q : Path) (mode : Nat) :
    (Prog.perform (.chmod p mode) : OsM Unit).Keeps machine (IsFile · q) := by
  intro t h
  refine Prog.wp_perform.mpr ⟨h, fun r u hstep => ?_⟩
  have hu : IsFile u q := by
    cases r with
    | error e => exact Step.failed hstep ▸ h
    | ok _ =>
      obtain ⟨m, c, hq⟩ := h
      rcases (Step.ok hstep).chmod with ⟨m', c', hp, hget⟩ | ⟨m', hp, hget⟩
      all_goals
        by_cases he : q = p
        · subst he
          cases hq.symm.trans hp
          try exact ⟨mode, c, (hget q).trans (if_pos rfl)⟩
        · exact ⟨m, c, ((hget q).trans (if_neg he)).trans hq⟩
  exact ⟨hu, hu⟩

theorem newTransaction_yields (identity publicKey : Path) (files : TransactionFiles)
    (transaction operationId operationKind : String) (t : Tree) :
    (newTransaction identity publicKey files transaction operationId operationKind).Yields machine
      (fun j u => u = t ∧ j.operationId = operationId) t := by
  refine yields_of_reads (newTransaction_reads _ _ _ _ _ _) ?_
  exact Prog.yields_bind_any fun _ _ => Prog.yields_bind_any fun _ _ => Prog.yields_bind_any fun _ _ =>
    Prog.yields_bind_any fun _ _ => Prog.yields_ret rfl

/-- What a replacement may make and take away: `A` before it, `C` of its transaction from then on,
and `B` where it is stopped. -/
structure Replaces (paths : InstancePaths) (identity : Path) (operationId : String)
    (A B R : Path → Prop) (C : String → Path → Prop) : Prop where
  start : ∀ transaction q, A q → C transaction q
  covers : ∀ transaction, Covers (C transaction) R identity (transactionFiles identity transaction)
  generated : ∀ transaction, R (generatedPublic identity transaction)
  receipt : ∀ transaction, C transaction (operationPath paths operationId)
  stopped : ∀ transaction q, C transaction q ∨ q = generatedPublic identity transaction ∨
    TempOf (transactionPath identity) q ∨ TempOf (operationPath paths operationId) q → B q

section
variable {project operationId operationKind : String} {paths : InstancePaths} {B : Path → Prop}
  {C : String → Path → Prop}

/-- What is staged: the two new files and the journal, in the end. -/
theorem stageTransaction_leaves (hreplaces : Replaces paths identity operationId A B R C)
    (h : Leaves t₀ A R (transactionPath identity) H t) (hempty : H [])
    (hjournal : ∀ j : Journal, j.operationId = operationId → H (encodeUtf8 (jsonText j.toJson))) :
    (stageTransaction project identity (pubOf identity) operationId operationKind).Settles machine
      (Leaves t₀ B R (transactionPath identity) H) (fun found u => ∃ transaction,
        found.1 = transactionFiles identity transaction ∧ found.2.operationId = operationId ∧
          Leaves t₀ (C transaction) R (transactionPath identity) H u) t := by
  have hstaged {transaction : String} {u : Tree}
      (hu : Leaves t₀ (C transaction) R (transactionPath identity) H u) :
      Leaves t₀ B R (transactionPath identity) H u :=
    hu.mono (fun q hq => hreplaces.stopped transaction q (.inl hq)) fun _ => id
  have hbegin (transaction : String) : Leaves t₀ (C transaction) R (transactionPath identity) H t :=
    h.mono (hreplaces.start transaction) fun _ => id
  refine Prog.settles_bind (Prog.wp_perform.mpr ⟨hstaged (hbegin ""), fun r t₁ hstep => ?_⟩)
  obtain rfl : t₁ = t := OsOp.Reads.step (fun _ => id) hstep
  refine ⟨hstaged (hbegin ""), fun transaction _ => ?_⟩
  clear hstep
  have hmade := (hreplaces.covers transaction).made
  simp only [transactionPaths, List.forall_mem_cons] at hmade
  obtain ⟨-, -, hprivateStage, hpublicStage, -, -, hjournalPath, -⟩ := hmade
  -- until the public key has been renamed
  have hinner {u : Tree} (hu : Leaves t₀ (fun q => C transaction q ∨ q = generatedPublic identity transaction)
      R (transactionPath identity) H u) : Leaves t₀ B R (transactionPath identity) H u :=
    hu.mono (fun q hq => hreplaces.stopped transaction q (hq.imp_right .inl)) fun _ => id
  have hstart : Leaves t₀ (fun q => C transaction q ∨ q = generatedPublic identity transaction) R
      (transactionPath identity) H t₁ := (hbegin transaction).mono (fun _ => .inl) fun _ => id
  obtain ⟨hstageNe, hgeneratedNe, hpublicNe, -⟩ := transactionFiles_ne identity transaction
  have hkeygen := (keeps_leaves (sshKeygen_fits ⟨.inl hprivateStage, .inr rfl⟩
    ⟨hstageNe, hgeneratedNe⟩ s!"shuttle-gate:{project}") hempty t₀).settles hstart
  refine Prog.settles_bind (hkeygen.mono (fun _ => hinner) fun _ t₂ h₂ _ => ?_)
  refine settles_bind_look (requireBoundedRegular_reads _ _) (hinner h₂) fun _ => ?_
  refine settles_bind_reads (requireBoundedRegular_reads _ _) (requireBoundedRegular_yields _ _ t₂)
    (hinner h₂) fun _ hfile => ?_
  have hchmod (p : Path) (mode : Nat) : (Prog.perform (.chmod p mode) : OsM Unit).Keeps machine fun u =>
      Leaves t₀ (fun q => C transaction q ∨ q = generatedPublic identity transaction) R
        (transactionPath identity) H u ∧ IsFile u (generatedPublic identity transaction) :=
    (keeps_leaves (chmod_fits p mode) hempty t₀).and (chmod_isFile p _ mode)
  refine Prog.settles_bind (((hchmod _ _).settles ⟨h₂, hfile⟩).mono (fun _ hu => hinner hu.1)
    fun _ t₃ h₃ _ => ?_)
  refine Prog.settles_bind (((hchmod _ _).settles h₃).mono (fun _ hu => hinner hu.1)
    fun _ t₄ h₄ _ => ?_)
  obtain ⟨h₄, m, c, hgenerated⟩ := h₄
  refine Prog.settles_bind (Prog.wp_perform.mpr ⟨hinner h₄, fun r t₅ hstep => ?_⟩)
  have h₅ := h₄.rename hgenerated (.inl hpublicStage) (hreplaces.generated transaction)
    (fun he => absurd he hpublicNe) hstep
  refine ⟨hinner h₅, fun _ hr => ?_⟩
  subst hr
  have hgone : t₅.get (generatedPublic identity transaction) = none :=
    ((Step.ok hstep).rename (generatedPublic_ne identity transaction)).2.2.2.2.1 _ List.suffix_rfl
  have h₆ := h₅.shrink hgone (.inl (.inr (hreplaces.generated transaction)))
  have hlook {β : Type} {op : OsOp β} (hop : op.Reads) : (Prog.perform op : OsM β).Only OsOp.Reads :=
    Prog.only_perform.mpr hop
  have hsync (p : Path) : (syncRegularFile p).Only OsOp.Reads :=
    (hlook fun _ => id).bind fun _ => hlook fun _ => id
  refine settles_bind_look (hsync _) (hstaged h₆) fun _ => settles_bind_look (hsync _) (hstaged h₆)
    fun _ => settles_bind_look (hlook fun _ => id) (hstaged h₆) fun _ => ?_
  refine settles_bind_reads (newTransaction_reads _ _ _ _ _ _) (newTransaction_yields _ _ _ _ _ _ t₅)
    (hstaged h₆) fun j hj => ?_
  have hwrite := atomicWriteBytes_leaves (n := "." ++ identity.name ++ ".transaction.json")
    (d := identity.parent) hempty (hjournal j hj) hjournalPath 0o600 h₆
  refine Prog.settles_bind (hwrite.mono (fun u hu => hu.mono (fun q hq => ?_) fun _ => id)
    fun _ u hu h₇ => ?_)
  · exact hreplaces.stopped transaction q (hq.imp_right fun ht => .inr (.inl ht))
  · exact Prog.settles_ret (hstaged h₇) ⟨transaction, rfl, hj, h₇⟩

end
end

/-! ## Cleaning -/

section
variable {t u : Tree} {identity : Path}

/-- No file of an interrupted operation is in the directory of the keys. -/
def Clean (identity : Path) (t : Tree) : Prop := ∀ q, Transient identity q → ¬ FileAt t q

theorem not_fileAt_of_none {q : Path} (h : t.get q = none) : ¬ FileAt t q :=
  fun ⟨_, ho, _⟩ => by cases h.symm.trans ho

theorem ignoreMissing_yields {p : OsM Unit} {Q : Tree → Prop} (h : p.Yields machine (fun _ => Q) t)
    (hmissing : p.Throws machine (fun e u => e.isFileNotFound = true → Q u) t) :
    (ignoreMissing p).Yields machine (fun _ => Q) t := by
  refine Prog.wp_handle.mpr ((Prog.wp.and h hmissing).mono (fun _ _ => trivial)
    fun r u _ ⟨hok, herror⟩ => ?_)
  cases r with
  | ok a => exact hok
  | error e => exact Prog.yields_ite (fun he => Prog.yields_ret (herror e rfl he)) fun _ =>
      Prog.yields_raise

/-- A file is reported missing by `unlink` only where it is. -/
theorem unlink_missing {p : Path} (h : machine.step (.unlink p) t (.error e) u)
    (he : e.isFileNotFound = true) : u = t ∧ t.get p = none := by
  cases h with
  | raised h => cases he.symm.trans h
  | answered h =>
    rcases Updates.cases h with ⟨-, hr⟩ | ⟨e', hunlink, hr, rfl⟩
    · cases hr
    · cases hr
      refine ⟨rfl, ?_⟩
      by_contra hthere
      obtain ⟨o, ho⟩ := Option.ne_none_iff_exists'.mp hthere
      unfold Tree.unlink at hunlink
      split at hunlink
      · exact hthere ‹_›
      · split at hunlink
        · cases hunlink
          cases he
        · cases hunlink

theorem perform_unlink_gone (p : Path) (t : Tree) :
    (Prog.perform (.unlink p) : OsM Unit).Yields machine (fun _ u => ¬ FileAt u p) t ∧
      (Prog.perform (.unlink p) : OsM Unit).Throws machine
        (fun e u => e.isFileNotFound = true → ¬ FileAt u p) t := by
  refine ⟨Prog.yields_perform fun _ u hstep => ?_, Prog.throws_perform fun e u hstep he => ?_⟩
  · exact not_fileAt_of_none (((Step.ok hstep).unlink.2 p).trans (if_pos rfl))
  · obtain ⟨rfl, hnone⟩ := unlink_missing hstep he
    exact not_fileAt_of_none hnone

/-- An operation that makes no file. -/
abbrev MakesNothing (op : OsOp β) : Prop := Fits (fun _ => False) (fun _ => True) [] (fun _ => True) op

theorem keeps_fewer {p : OsM α} (h : p.Only MakesNothing) (t₀ : Tree) :
    p.Keeps machine fun t => ∀ q, FileAt t q → FileAt t₀ q := by
  intro t ht
  have hstart : Leaves t (fun _ => False) (fun _ => True) [] (fun _ => True) t :=
    .start fun _ _ _ => trivial
  have hfewer {u : Tree} (hu : Leaves t (fun _ => False) (fun _ => True) [] (fun _ => True) u)
      (q : Path) (hq : FileAt u q) : FileAt t₀ q :=
    ht q ((hu.made q hq).elim id False.elim)
  exact (keeps_leaves h trivial t t hstart).mono (fun _ => hfewer) fun _ _ _ => hfewer

theorem removeTransaction_yields (files : TransactionFiles) (t : Tree) :
    (removeTransaction identity files).Yields machine
      (fun _ u => ∀ q ∈ transactionPaths identity files, ¬ FileAt u q) t := by
  have hloop := Prog.yields_forEach (M := machine) (f := unlinkMissingOk)
    (fun xs u => ∀ q ∈ transactionPaths identity files, q ∈ xs ∨ ¬ FileAt u q) (fun x xs u hu => ?_)
    (transactionPaths identity files) t fun _ => .inl
  · refine Prog.yields_bind (hloop.mono fun _ u hu => Prog.yields_perform fun _ v hstep => ?_)
    obtain rfl : v = u := OsOp.Reads.step (fun _ => id) hstep
    exact fun q hq => (hu q hq).resolve_left List.not_mem_nil
  · have hgone : (unlinkMissingOk x).Yields machine (fun _ v => ¬ FileAt v x) u :=
      ignoreMissing_yields (perform_unlink_gone x u).1 (perform_unlink_gone x u).2
    have honly : (unlinkMissingOk x).Only MakesNothing :=
      ignoreMissing_only (Prog.only_perform.mpr (fits_unlink trivial))
    have hfewer := keeps_fewer honly u
    refine (hgone.and_keeps hfewer fun _ => id).mono fun _ v ⟨hx, hv⟩ q hq => ?_
    rcases hu q hq with hmem | hthere
    · rcases List.mem_cons.mp hmem with rfl | hmem
      · exact .inr hx
      · exact .inl hmem
    · exact .inr fun hq => hthere (hv q hq)

/-- One file of the loop over the directory. -/
def cleanOrphanedFile (p : Path) : OsM Unit := ignoreMissing do
  let st ← Prog.perform (.lstat p)
  if st.kind = .directory then
    throw (.state s!"unexpected SSH transaction directory: {p.text}")
  Prog.perform (.unlink p)

theorem cleanOrphanedFile_yields (p : Path) (t : Tree) :
    (cleanOrphanedFile p).Yields machine (fun _ u => ¬ FileAt u p) t := by
  refine ignoreMissing_yields ?_ ?_
  · exact Prog.yields_bind_any fun st u => Prog.yields_ite
      (fun _ => Prog.yields_bind Prog.yields_raise) fun _ => (perform_unlink_gone p u).1
  · have hlstat : (Prog.perform (.lstat p) : OsM Stat).Throws machine
        (fun e u => e.isFileNotFound = true → ¬ FileAt u p) t :=
      Prog.throws_perform fun e u hstep he => by
        obtain ⟨rfl, hnone⟩ := Step.missing hstep he
        exact not_fileAt_of_none hnone
    refine Prog.throws_bind hlstat fun st u => Prog.throws_ite (fun _ => ?_) fun _ =>
      (perform_unlink_gone p u).2
    exact Prog.throws_raise fun he => by cases he

theorem cleanOrphanedFile_only (p : Path) : (cleanOrphanedFile p).Only MakesNothing := by
  refine ignoreMissing_only (Prog.Only.bind (reads_fits (Prog.only_perform.mpr fun _ => id)) fun st =>
    ?_)
  exact Prog.Only.ite Prog.only_raise (Prog.only_perform.mpr (fits_unlink trivial))

/-- Without a journal, nothing of an interrupted operation is left. -/
theorem cleanOrphanedFiles_yields (hjournal : ¬ FileAt t (transactionPath identity)) :
    (cleanOrphanedFiles identity).Yields machine (fun _ => Clean identity) t := by
  have honly : (cleanOrphanedFiles identity).Only MakesNothing :=
    cleanOrphanedFiles_fits fun _ _ => trivial
  have hfewer := keeps_fewer honly t
  have hnames : (cleanOrphanedFiles identity).Yields machine (fun _ u => ∀ name,
      isTransient identity name = true → ¬ FileAt u (identity.parent / name)) t := by
    refine Prog.yields_bind (Prog.yields_perform fun isDir u hstep => ?_)
    obtain ⟨rfl, hisDir⟩ := Step.ok hstep
    refine Prog.yields_ite (fun hnot => Prog.yields_ret fun name _ hthere => ?_) fun _ => ?_
    · -- what is below no directory is not there
      obtain ⟨o, ho, -⟩ := hthere
      obtain ⟨m, hm⟩ := Tree.dir_of_child (show u.get (name :: identity.parent) ≠ none by
        rw [show u.get (name :: identity.parent) = some o from ho]
        nofun)
      rw [follow, hm] at hisDir
      cases hisDir
      cases hnot
    · refine Prog.yields_bind (Prog.yields_perform fun names v hstep => ?_)
      obtain ⟨rfl, -, hperm⟩ := (Step.ok hstep).listdir
      refine Prog.yields_bind (Prog.Yields.mono (Prog.yields_forEach (fun xs w => ∀ name,
        isTransient identity name = true → FileAt w (identity.parent / name) → name ∈ xs)
        (fun x xs w hw => ?_) names v fun name _ hthere => ?_) fun _ w hw =>
          Prog.yields_perform fun _ w' hstep => ?_)
      · split
        · have hloop : (cleanOrphanedFile (identity.parent / x)).Yields machine (fun _ w' =>
              ∀ name, isTransient identity name = true → FileAt w' (identity.parent / name) →
                name ∈ xs) w := by
            refine ((cleanOrphanedFile_yields _ w).and_keeps (keeps_fewer (cleanOrphanedFile_only _) w)
              fun _ => id).mono fun _ w' hw' name hname hthere => ?_
            rcases List.mem_cons.mp (hw name hname (hw'.2 _ hthere)) with rfl | hmem
            · exact absurd hthere hw'.1
            · exact hmem
          exact hloop
        · rename_i hx
          refine Prog.yields_ret fun name hname hthere => ?_
          rcases List.mem_cons.mp (hw name hname hthere) with rfl | hmem
          · exact absurd hname hx
          · exact hmem
      · obtain ⟨o, ho, -⟩ := hthere
        refine hperm.mem_iff.mpr (Tree.mem_names.mpr ?_)
        rw [show v.get (name :: identity.parent) = some o from ho]
        nofun
      · obtain rfl : w' = w := OsOp.Reads.step (fun _ => id) hstep
        exact fun name hname hthere => List.not_mem_nil (hw name hname hthere)
  refine (hnames.and_keeps hfewer fun _ => id).mono fun _ u hu q hq hthere => ?_
  rcases hq with rfl | ⟨name, rfl, hname⟩
  · exact hjournal (hu.2 _ hthere)
  · exact hu.1 name hname hthere

end

/-! ## The operations that are named -/

section
variable {t : Tree} {paths : InstancePaths} {identity : Path} {named : String → Prop} {j : Journal}

/-- A journal with this content is that of a named operation. -/
def Names (named : String → Prop) (identity : Path) (content : Bytes) : Prop :=
  ∀ value j, content.length ≤ maxTransactionBytes → jsonOf content = some value →
    Journal.ofJson (transactionPath identity) value = .ok j → named j.operationId

/-- What the checks of a journal find in it. -/
theorem Journal.ofJson_fields {p : Path} {value : Json} (h : Journal.ofJson p value = .ok j) :
    field "transaction" value = some (.str j.transaction) ∧
      field "operation_id" value = some (.str j.operationId) := by
  rw [Journal.ofJson, raiseIf_bind_eq_ok] at h
  obtain ⟨-, h⟩ := h
  split at h
  · rename_i transaction htransaction
    rw [raiseIf_bind_eq_ok] at h
    obtain ⟨-, h⟩ := h
    split at h
    · rename_i operationId operationKind hid hkind
      obtain ⟨_, -, h⟩ := bind_eq_ok.mp h
      obtain ⟨_, -, h⟩ := bind_eq_ok.mp h
      obtain ⟨_, -, h⟩ := bind_eq_ok.mp h
      obtain ⟨_, -, h⟩ := bind_eq_ok.mp h
      obtain ⟨_, -, h⟩ := bind_eq_ok.mp h
      split at h
      · cases h
        exact ⟨htransaction, hid⟩
      · cases h
    · cases h
  · cases h

theorem names_nil : Names named identity [] := by
  intro value j _ hvalue
  have hnone : jsonOf [] = none := by decide +kernel
  cases hnone.symm.trans hvalue

theorem names_journal (h : named j.operationId) :
    Names named identity (encodeUtf8 (jsonText j.toJson)) := by
  intro value j' _ hvalue hj
  rw [jsonOf_jsonText j.toJson_wellFormed] at hvalue
  cases hvalue
  have hfield : field "operation_id" j.toJson.sortKeys = some (.str j.operationId) := by
    rw [Journal.sortKeys_toJson]
    rfl
  have hid : j.operationId = j'.operationId := by
    simpa using hfield.symm.trans (Journal.ofJson_fields hj).2
  exact hid ▸ h

/-- Sorting adds no key. -/
theorem field_sortKeys_eq_none {key : String} {fields : List (String × Json)}
    (h : key ∉ fields.map (·.1)) : field key (Json.obj fields).sortKeys = none := by
  rw [Json.sortKeys, field, List.lookup_eq_none_iff]
  intro entry hentry
  have hmem := (List.perm_insertionSort _ _).mem_iff.mp hentry
  have hkey : entry.1 ∈ fields.map (·.1) := Json.keys_sortFields fields ▸ List.mem_map_of_mem hmem
  exact bne_iff_ne.mpr fun he => h (he ▸ hkey)

theorem receiptJson_wellFormed (j : Journal) (name : String) : (receiptJson j name).WellFormed := by
  simp [receiptJson, Json.WellFormed, Json.FieldsWellFormed]

/-- A receipt is no journal: it has no transaction. -/
theorem names_receipt (j : Journal) (name : String) :
    Names named identity (encodeUtf8 (jsonText (receiptJson j name))) := by
  intro value j' _ hvalue hj
  rw [jsonOf_jsonText (receiptJson_wellFormed j name)] at hvalue
  cases hvalue
  have hfield : field "transaction" (receiptJson j name).sortKeys = none :=
    field_sortKeys_eq_none (by simp)
  cases hfield.symm.trans (Journal.ofJson_fields hj).1

end

/-! ## Recovery -/

/-- The key pair, and the receipts of named operations. -/
def Ours (paths : InstancePaths) (identity : Path) (named : String → Prop) (q : Path) : Prop :=
  q = identity ∨ q = pubOf identity ∨ ∃ id, named id ∧ q = operationPath paths id

/-- The temporary files of their receipts. -/
def ReceiptTemp (paths : InstancePaths) (named : String → Prop) (q : Path) : Prop :=
  ∃ id, named id ∧ TempOf (operationPath paths id) q

section
variable {t₀ t u : Tree} {A R : Path → Prop} {paths : InstancePaths} {identity : Path}
  {named : String → Prop} {project operationId operationKind : String}

/-- What a run has left, of which every journal is that of a named operation. -/
abbrev Remains (t₀ : Tree) (A R : Path → Prop) (identity : Path) (named : String → Prop) : Tree → Prop :=
  Leaves t₀ A R (transactionPath identity) (Names named identity)

/-- What the operations of a run may make and take away, the temporary files of receipts apart. -/
structure Spans (paths : InstancePaths) (identity : Path) (named : String → Prop)
    (A R : Path → Prop) : Prop where
  made : ∀ q, Ours paths identity named q ∨ Transient identity q → A q
  kept : ∀ q, q = identity ∨ q = pubOf identity ∨ Transient identity q → R q

theorem Spans.covers (h : Spans paths identity named A R) (transaction : String) :
    Covers A R identity (transactionFiles identity transaction) where
  made q hq := by
    rcases List.mem_cons.mp hq with rfl | hq
    · exact h.made q (.inl (.inl rfl))
    rcases List.mem_cons.mp hq with rfl | hq
    · exact h.made _ (.inl (.inr (.inl rfl)))
    · exact h.made q (.inr (transient_transactionPaths transaction hq))
  kept q hq := by
    rcases List.mem_cons.mp hq with rfl | hq
    · exact h.kept q (.inl rfl)
    rcases List.mem_cons.mp hq with rfl | hq
    · exact h.kept _ (.inr (.inl rfl))
    · exact h.kept q (.inr (.inr (transient_transactionPaths transaction hq)))

/-- What is read is there: no journal, or a journal with its files. -/
theorem readTransaction_tells (identity : Path) (t : Tree) : (readTransaction identity).Yields machine
    (fun found u => u = t ∧ match found with
      | none => t.get (transactionPath identity) = none
      | some (files, j) => files = transactionFiles identity j.transaction ∧ Journaled t identity j) t := by
  refine yields_of_reads (readTransaction_reads identity) (Prog.yields_bind
    ((lstatMissing_yields _ t).mono fun st u ⟨hu, hst⟩ => ?_))
  subst hu
  cases hfile : u.get (transactionPath identity) with
  | none =>
    rw [hfile] at hst
    subst hst
    exact Prog.yields_ret rfl
  | some o =>
    rw [hfile] at hst
    subst hst
    refine Prog.yields_ite (fun _ => Prog.yields_bind Prog.yields_raise) fun hgood => ?_
    refine Prog.yields_bind (Prog.Yields.mono (Prog.yields_handle (loadJson_yields _ u) fun e _ =>
      Prog.yields_ite (fun _ => Prog.yields_raise) fun _ => Prog.yields_raise)
      fun value w ⟨_, m, c, hc, hvalue⟩ => ?_)
    refine Prog.yields_bind (yields_ofExcept fun j hj => Prog.yields_ret ⟨rfl, m, c, value, hc, ?_,
      hvalue, hj⟩)
    cases hfile.symm.trans hc
    exact Nat.not_lt.mp (not_or.mp hgood).2

theorem named_of_journaled {j : Journal}
    (h : Remains t₀ A R identity named t)
    (hj : Journaled t identity j) : named j.operationId := by
  obtain ⟨m, c, value, hfile, hlength, hvalue, hof⟩ := hj
  exact h.content m c hfile value j hlength hvalue hof

/-- The recovery leaves nothing but the key pair and the receipt, unless it is stopped or fails. -/
theorem recoverAt_leaves (hspans : Spans paths identity named A R)
    (h : Remains t₀ A R identity named t) :
    (recoverAt paths identity (pubOf identity)).Settles machine
      (Remains t₀ (fun q => A q ∨ ReceiptTemp paths named q) R identity named)
      (fun _ u => Remains t₀ A R identity named u ∧
        Clean identity u) t := by
  have hwiden {u : Tree} (hu : Remains t₀ A R identity named u) :
      Remains t₀ (fun q => A q ∨ ReceiptTemp paths named q) R identity named u := hu.mono (fun _ => .inl) fun _ => id
  have hclean {u : Tree} (hu : Remains t₀ A R identity named u)
      (hjournal : ¬ FileAt u (transactionPath identity)) :
      (cleanOrphanedFiles identity).Settles machine
        (Remains t₀ (fun q => A q ∨ ReceiptTemp paths named q) R identity named)
        (fun _ u => Remains t₀ A R identity named u ∧
          Clean identity u) u :=
    ((cleanOrphanedFiles_yields hjournal).settles (keeps_leaves (cleanOrphanedFiles_fits fun q hq =>
      hspans.kept q (.inr (.inr hq))) names_nil t₀) hu).mono (fun _ => hwiden) fun _ _ _ hv => hv
  refine settles_bind_reads (readTransaction_reads identity) (readTransaction_tells identity t)
    (hwiden h) fun found hfound => ?_
  cases found with
  | none => exact hclean h (not_fileAt_of_none hfound)
  | some found =>
    obtain ⟨files, j⟩ := found
    obtain ⟨rfl, hj⟩ := hfound
    have hnamed : named j.operationId := named_of_journaled h hj
    have hcovers := hspans.covers j.transaction
    refine Prog.settles_bind ((finishTransaction_leaves h names_nil hcovers j).mono (fun _ => hwiden)
      fun _ t₁ _ h₁ => ?_)
    refine Prog.settles_bind ((recordOperation_leaves h₁ names_nil (fun name => names_receipt j name)
      (hspans.made _ (.inl (.inr (.inr ⟨_, hnamed, rfl⟩))))).mono (fun u hu => hu.mono
        (fun q hq => hq.imp_right fun ht => ⟨_, hnamed, ht⟩) fun _ => id) fun _ t₂ _ h₂ => ?_)
    have hremove : (removeTransaction identity (transactionFiles identity j.transaction)).Only
        (Fits A R (transactionPath identity) (Names named identity)) :=
      removeTransaction_fits fun q hq => hspans.kept q (.inr (.inr (transient_transactionPaths _ hq)))
    refine Prog.settles_bind (((removeTransaction_yields _ t₂).settles (keeps_leaves hremove names_nil t₀)
      h₂).mono (fun _ => hwiden) fun _ t₃ _ ⟨h₃, hgone⟩ => ?_)
    exact hclean h₃ (hgone _ (by simp [transactionPaths]))

/-! ## Generation -/

/-- The end of `generate_ssh_key`, once the request is known to be a new one. -/
def replaceKeys (project : String) (paths : InstancePaths) (identity : Path)
    (operationId operationKind : String) : OsM Path := do
  let (files, journal) ←
    stageTransaction project identity (pubOf identity) operationId operationKind
  finishTransaction identity (pubOf identity) files journal
  recordOperation paths identity (pubOf identity) journal
  removeTransaction identity files
  return identity

theorem replaceKeys_leaves {H : Bytes → Prop} {B : Path → Prop} {C : String → Path → Prop}
    (hreplaces : Replaces paths identity operationId A B R C)
    (h : Leaves t₀ A R (transactionPath identity) H t) (hempty : H [])
    (hjournal : ∀ j : Journal, j.operationId = operationId → H (encodeUtf8 (jsonText j.toJson)))
    (hreceipt : ∀ j name, H (encodeUtf8 (jsonText (receiptJson j name)))) :
    (replaceKeys project paths identity operationId operationKind).Settles machine
      (Leaves t₀ B R (transactionPath identity) H)
      (fun _ u => ∃ transaction, Leaves t₀ (C transaction) R (transactionPath identity) H u ∧
        ∀ q ∈ transactionPaths identity (transactionFiles identity transaction), ¬ FileAt u q) t := by
  have hstaged {transaction : String} {u : Tree}
      (hu : Leaves t₀ (C transaction) R (transactionPath identity) H u) :
      Leaves t₀ B R (transactionPath identity) H u :=
    hu.mono (fun q hq => hreplaces.stopped transaction q (.inl hq)) fun _ => id
  refine Prog.settles_bind ((stageTransaction_leaves hreplaces h hempty hjournal).mono (fun _ => id)
    fun found t₁ _ hfound => ?_)
  obtain ⟨files, j⟩ := found
  obtain ⟨transaction, rfl, hj, h₁⟩ := hfound
  obtain rfl : j.operationId = operationId := hj
  have hcovers := hreplaces.covers transaction
  refine Prog.settles_bind ((finishTransaction_leaves h₁ hempty hcovers j).mono (fun _ => hstaged)
    fun _ t₂ _ h₂ => ?_)
  refine Prog.settles_bind ((recordOperation_leaves h₂ hempty (hreceipt j)
    (hreplaces.receipt transaction)).mono (fun u hu => hu.mono (fun q hq =>
      hreplaces.stopped transaction q (hq.imp_right fun ht => .inr (.inr ht))) fun _ => id)
    fun _ t₃ _ h₃ => ?_)
  have hremove : (removeTransaction identity (transactionFiles identity transaction)).Only
      (Fits (C transaction) R (transactionPath identity) H) :=
    removeTransaction_fits fun q hq => hcovers.kept q (.tail _ (.tail _ hq))
  refine Prog.settles_bind (((removeTransaction_yields _ t₃).settles (keeps_leaves hremove hempty t₀)
    h₃).mono (fun _ => hstaged) fun _ t₄ _ ⟨h₄, hgone⟩ => ?_)
  exact Prog.settles_ret (hstaged h₄) ⟨transaction, h₄, hgone⟩

theorem Spans.replaces (h : Spans paths identity named A R) (hnamed : named operationId) :
    Replaces paths identity operationId A (fun q => A q ∨ ReceiptTemp paths named q) R fun _ => A where
  start _ _ := id
  covers := h.covers
  generated transaction := h.kept _ (.inr (.inr (transient_generatedPublic transaction)))
  receipt _ := h.made _ (.inl (.inr (.inr ⟨operationId, hnamed, rfl⟩)))
  stopped transaction q hq := by
    rcases hq with hq | rfl | hq | hq
    · exact .inl hq
    · exact .inl (h.made _ (.inr (transient_generatedPublic transaction)))
    · exact .inl (h.made q (.inr (transient_temp hq)))
    · exact .inr ⟨operationId, hnamed, hq⟩

/-- Of what the recovery takes for an interrupted operation's, a replacement makes its own files. -/
theorem replaces_transient (paths : InstancePaths) (identity : Path) (operationId : String) :
    Replaces paths identity operationId (fun q => ¬ Transient identity q) (fun _ => True)
      (fun _ => True) fun transaction q => ¬ Transient identity q ∨
        q ∈ transactionPaths identity (transactionFiles identity transaction) where
  start _ _ := .inl
  covers transaction :=
    { made := fun q hq => by
        rcases List.mem_cons.mp hq with rfl | hq
        · exact .inl not_transient_identity
        rcases List.mem_cons.mp hq with rfl | hq
        · exact .inl not_transient_pub
        · exact .inr hq
      kept := fun _ _ => trivial }
  generated _ := trivial
  receipt _ := .inl not_transient_operationPath
  stopped _ _ _ := trivial

/-- A replacement that returns has cleaned up after itself. -/
theorem replaceKeys_clean (hclean : Clean identity t) :
    (replaceKeys project paths identity operationId operationKind).Yields machine
      (fun _ => Clean identity) t := by
  have hstart : Leaves t (fun q => ¬ Transient identity q) (fun _ => True) (transactionPath identity)
      (fun _ => True) t := .start fun _ _ _ => trivial
  refine Prog.Settles.mono (replaceKeys_leaves (replaces_transient paths identity operationId) hstart
    trivial (fun _ _ => trivial) fun _ _ => trivial) (fun _ _ => trivial)
    fun _ u _ ⟨transaction, hu, hgone⟩ q hq hthere => ?_
  rcases hu.made q hthere with ht | hnot | hmem
  · exact hclean q hq ht
  · exact hnot hq
  · exact hgone q hmem hthere

theorem replaceKeys_settles (hspans : Spans paths identity named A R) (hnamed : named operationId)
    (h : Remains t₀ A R identity named t)
    (hclean : Clean identity t) :
    (replaceKeys project paths identity operationId operationKind).Settles machine
      (Remains t₀ (fun q => A q ∨ ReceiptTemp paths named q) R identity named)
      (fun _ u => Remains t₀ A R identity named u ∧
        Clean identity u) t :=
  ((replaceKeys_leaves (hspans.replaces hnamed) h names_nil (fun _ hj => names_journal (hj ▸ hnamed))
    names_receipt).and_yields (replaceKeys_clean hclean)).mono (fun _ => id)
    fun _ _ _ ⟨⟨_, hu, _⟩, hc⟩ => ⟨hu, hc⟩

variable {config : SSHConfig}

theorem identityAt_congr (h : ∀ q, u.linkAt q = t.linkAt q) :
    identityAt config paths u = identityAt config paths t :=
  Tree.resolve_congr h _ _

theorem recoverTransaction_leaves (hspans : Spans paths identity named A R)
    (hidentity : identityAt config paths t = identity)
    (h : Remains t₀ A R identity named t) :
    (recoverTransaction config paths).Settles machine
      (Remains t₀ (fun q => A q ∨ ReceiptTemp paths named q) R identity named)
      (fun _ u => Remains t₀ A R identity named u ∧
        Clean identity u) t := by
  refine sshKeyPaths_wp ?_
  rw [hidentity]
  exact recoverAt_leaves hspans h

theorem generateLocked_leaves {force : Bool} (hspans : Spans paths identity named A R)
    (hnamed : named operationId) (hidentity : identityAt config paths t = identity)
    (h : Remains t₀ A R identity named t) :
    (generateLocked project config paths force operationId).Settles machine
      (Remains t₀ (fun q => A q ∨ ReceiptTemp paths named q) R identity named)
      (fun _ u => Remains t₀ A R identity named u ∧
        Clean identity u) t := by
  have hwiden {u : Tree} (hu : Remains t₀ A R identity named u) :
      Remains t₀ (fun q => A q ∨ ReceiptTemp paths named q) R identity named u := hu.mono (fun _ => .inl) fun _ => id
  refine sshKeyPaths_wp ?_
  rw [hidentity]
  have hdir : (ensurePrivateDirectory identity.parent).Keeps machine fun u =>
      Remains t₀ A R identity named u ∧ ∀ q, u.linkAt q = t.linkAt q :=
    (keeps_leaves (ensurePrivateDirectory_fits _) names_nil t₀).and
      (keeps_links (ensurePrivateDirectory_keepsLinks _) t)
  refine Prog.settles_bind ((hdir.settles ⟨h, fun _ => rfl⟩).mono (fun _ hu => hwiden hu.1)
    fun _ t₁ ⟨h₁, hlinks⟩ _ => ?_)
  have hrecover := recoverTransaction_leaves hspans ((identityAt_congr hlinks).trans hidentity) h₁
  refine Prog.settles_bind (hrecover.mono (fun _ => id) fun _ t₂ _ ⟨h₂, hclean⟩ => ?_)
  refine settles_bind_look (Prog.only_ofExcept _) (hwiden h₂) fun _ =>
    settles_bind_look (operationCompleted_reads _ _ _ _ _) (hwiden h₂) fun done =>
      Prog.settles_ite (fun _ => Prog.settles_ret (hwiden h₂) ⟨h₂, hclean⟩) fun _ => ?_
  refine settles_bind_look (pathExists_reads _) (hwiden h₂) fun there => Prog.settles_ite (fun _ => ?_)
    fun _ => settles_bind_look (pathExists_reads _) (hwiden h₂) fun there' => ?_
  · exact Prog.settles_ite (fun _ => Prog.settles_raise (hwiden h₂)) fun _ =>
      replaceKeys_settles hspans hnamed h₂ hclean
  · exact Prog.settles_ite (fun _ => Prog.settles_raise (hwiden h₂)) fun _ =>
      replaceKeys_settles hspans hnamed h₂ hclean

/-! ### Under the lock -/

theorem lockDescriptor_fits {J : Path} {H : Bytes → Prop} (hA : A (lockPath paths)) :
    (lockDescriptor paths true).Only (Fits A R J H) := by
  have hcreate : Fits A R J H (.openCreate (lockPath paths) 0o600) :=
    { single := trivial, made := fun _ hq => hq ▸ hA }
  exact (ensurePrivateDirectory_fits _).bind fun _ => Prog.Only.bind
    ((Prog.only_perform.mpr hcreate).handle fun _ => Prog.only_raise.ite Prog.only_raise) fun st =>
      Prog.Only.ite Prog.only_raise (chmod_fits _ _)

theorem lockDescriptor_keepsLinks (paths : InstancePaths) :
    (lockDescriptor paths true).Only KeepsLinks :=
  (ensurePrivateDirectory_keepsLinks _).bind fun _ => Prog.Only.bind
    ((Prog.only_perform.mpr (openCreate_keepsLinks _ _)).handle fun _ =>
      Prog.only_raise.ite Prog.only_raise) fun _ =>
        Prog.Only.ite Prog.only_raise (Prog.only_perform.mpr (chmod_keepsLinks _ _))

/-- What only looks keeps everything. -/
theorem keeps_of_look {p : OsM α} (h : p.Only OsOp.Reads) (I : Tree → Prop) : p.Keeps machine I :=
  fun t ht => (keeps_of_reads h t t rfl).mono (fun _ hu => hu ▸ ht) fun _ _ _ hu => hu ▸ ht

theorem generateSshKey_leaves {force : Bool} (hspans : Spans paths identity named A R)
    (hlock : A (lockPath paths)) (hnamed : named operationId)
    (hidentity : identityAt config paths t = identity) (h : Remains t₀ A R identity named t) :
    (generateSshKey project config paths force operationId).Settles machine
      (Remains t₀ (fun q => A q ∨ ReceiptTemp paths named q) R identity named)
      (fun _ u => Remains t₀ A R identity named u ∧ Clean identity u) t := by
  have hwiden {u : Tree} (hu : Remains t₀ A R identity named u) :
      Remains t₀ (fun q => A q ∨ ReceiptTemp paths named q) R identity named u :=
    hu.mono (fun _ => .inl) fun _ => id
  have hdescriptor : (lockDescriptor paths true).Keeps machine fun u =>
      Remains t₀ A R identity named u ∧ ∀ q, u.linkAt q = t.linkAt q :=
    (keeps_leaves (lockDescriptor_fits hlock) names_nil t₀).and
      (keeps_links (lockDescriptor_keepsLinks paths) t)
  refine Prog.settles_bind ((hdescriptor.settles ⟨h, fun _ => rfl⟩).mono (fun _ hu => hwiden hu.1)
    fun _ t₁ ⟨h₁, hlinks⟩ _ => ?_)
  have hunlock : (suppressOSError (Prog.perform (.unlock (lockPath paths)))).Only OsOp.Reads :=
    suppressOSError_only (Prog.only_perform.mpr fun _ => id)
  have hflock : (acquireLock paths true false).Only OsOp.Reads :=
    Prog.Only.handle (Prog.only_perform.mpr fun _ => id) fun _ => Prog.only_raise.ite Prog.only_raise
  refine Prog.settles_finally' ?_ (keeps_of_look hunlock _) fun _ => keeps_of_look hunlock _
  exact settles_bind_look hflock (hwiden h₁) fun _ =>
    generateLocked_leaves hspans hnamed ((identityAt_congr hlinks).trans hidentity) h₁

end

/-! ## Interrupted operations -/

section
variable {config : SSHConfig} {paths : InstancePaths} {operationId : String} {t u v : Tree}

/-- An attempt at the operation, or at its recovery, is stopped somewhere. -/
def Stops (config : SSHConfig) (paths : InstancePaths) (operationId : String) (t u : Tree) : Prop :=
  (∃ project force, (generateSshKey project config paths force operationId).Visits machine t u) ∨
    (recoverTransaction config paths).Visits machine t u

/-- The operation is retried, or recovered, and that completes. -/
def Completes (config : SSHConfig) (paths : InstancePaths) (operationId : String) (t u : Tree) : Prop :=
  (∃ project force p, (generateSshKey project config paths force operationId).Returns machine t
    (.ok p) u) ∨
    (recoverTransaction config paths).Returns machine t (.ok ()) u

/-- From `t`, the operation and its recoveries have been stopped any number of times, and the
configured path still leads to where it led. -/
inductive Interrupted (config : SSHConfig) (paths : InstancePaths) (operationId : String) (t : Tree) :
    Tree → Prop
  | start : Interrupted config paths operationId t t
  | again {u v : Tree} (h : Interrupted config paths operationId t u) (hstop : Stops config paths operationId u v)
    (hidentity : identityAt config paths v = identityAt config paths t) :
    Interrupted config paths operationId t v

/-- The operation itself, and that of the journal it finds. -/
def NamedAt (config : SSHConfig) (paths : InstancePaths) (operationId : String) (t : Tree)
    (id : String) : Prop :=
  id = operationId ∨ ∃ j, Journaled t (identityAt config paths t) j ∧ j.operationId = id

/-- All that an operation may have left when it is stopped, the temporary files of receipts apart. -/
def Expected (paths : InstancePaths) (identity : Path) (named : String → Prop) (q : Path) : Prop :=
  Ours paths identity named q ∨ Transient identity q ∨ q = lockPath paths

/-- What it may have taken away. -/
def Replaced (identity q : Path) : Prop :=
  q = identity ∨ q = pubOf identity ∨ Transient identity q

section
variable {t₀ : Tree} {A : Path → Prop} {identity : Path} {named : String → Prop}

theorem spans_expected (h : ∀ q, Expected paths identity named q → A q) :
    Spans paths identity named A (Replaced identity) where
  made q hq := h q (hq.imp_right .inl)
  kept _ := id

/-- An attempt that is stopped. -/
theorem Stops.remains (hstop : Stops config paths operationId u v)
    (hA : ∀ q, Expected paths identity named q ∨ ReceiptTemp paths named q → A q)
    (hnamed : named operationId) (hidentity : identityAt config paths u = identity)
    (h : Remains t₀ A (Replaced identity) identity named u) :
    Remains t₀ A (Replaced identity) identity named v := by
  have hspans : Spans paths identity named A (Replaced identity) :=
    spans_expected fun q hq => hA q (.inl hq)
  have hfold (hv : Remains t₀ (fun q => A q ∨ ReceiptTemp paths named q) (Replaced identity) identity
      named v) : Remains t₀ A (Replaced identity) identity named v :=
    hv.mono (fun q hq => hq.elim id fun ht => hA q (.inr ht)) fun _ => id
  rcases hstop with ⟨project, force, hvisits⟩ | hvisits
  · have hlock : A (lockPath paths) := hA _ (.inl (.inr (.inr rfl)))
    exact hfold ((generateSshKey_leaves hspans hlock hnamed hidentity h).visits hvisits)
  · exact hfold ((recoverTransaction_leaves hspans hidentity h).visits hvisits)

/-- An attempt that completes. -/
theorem Completes.remains (hdone : Completes config paths operationId u v)
    (hA : ∀ q, Expected paths identity named q → A q) (hnamed : named operationId)
    (hidentity : identityAt config paths u = identity)
    (h : Remains t₀ A (Replaced identity) identity named u) :
    Remains t₀ A (Replaced identity) identity named v ∧ Clean identity v := by
  have hspans : Spans paths identity named A (Replaced identity) := spans_expected hA
  rcases hdone with ⟨project, force, p, hreturns⟩ | hreturns
  · have hlock : A (lockPath paths) := hA _ (.inr (.inr rfl))
    exact (generateSshKey_leaves hspans hlock hnamed hidentity h).returns hreturns
  · exact (recoverTransaction_leaves hspans hidentity h).returns hreturns

end

/-- Wherever the attempts are stopped, nothing unexpected is there but temporary files of receipts. -/
theorem Interrupted.remains (h : Interrupted config paths operationId t u) :
    identityAt config paths u = identityAt config paths t ∧
      Remains t (fun q => Expected paths (identityAt config paths t) (NamedAt config paths operationId t) q ∨
        ReceiptTemp paths (NamedAt config paths operationId t) q) (Replaced (identityAt config paths t))
        (identityAt config paths t) (NamedAt config paths operationId t) u := by
  induction h with
  | start =>
    refine ⟨rfl, .start fun m c hfile value j hlength hvalue hj => .inr ⟨j, ?_, rfl⟩⟩
    exact ⟨m, c, value, hfile, hlength, hvalue, hj⟩
  | again h hstop hidentity ih => exact ⟨hidentity, hstop.remains (fun _ => id) (.inl rfl) ih.1 ih.2⟩

/-- The configured path still leads to where it led, unless a link was where the operation makes a
file. -/
theorem Interrupted.again_of_no_link (h : Interrupted config paths operationId t u)
    (hlinks : ∀ q, Expected paths (identityAt config paths t) (NamedAt config paths operationId t) q ∨
      ReceiptTemp paths (NamedAt config paths operationId t) q → t.linkAt q = none)
    (hstop : Stops config paths operationId u v) : Interrupted config paths operationId t v := by
  obtain ⟨hidentity, hremains⟩ := h.remains
  have hv := hstop.remains (fun _ => id) (.inl rfl) hidentity hremains
  refine h.again hstop (identityAt_congr fun q => ?_)
  rcases hv.links q with hsame | ⟨hq | hq, hnone⟩
  · exact hsame
  · exact hnone.trans (hlinks q hq).symm
  · refine hnone.trans (hlinks q (.inl ?_)).symm
    rcases hq with rfl | rfl | htransient
    · exact .inl (.inl rfl)
    · exact .inl (.inr (.inl rfl))
    · exact .inr (.inl htransient)

/-- Nothing of the interrupted operation is left: every file was there before, or is of the key pair
or a receipt, or is the lock that the last attempt has made; and nothing is in the directory of the
keys that the recovery takes for an interrupted operation's. -/
structure LeavesNothing (config : SSHConfig) (paths : InstancePaths) (operationId : String)
    (t u v : Tree) : Prop where
  files : ∀ q, FileAt v q → FileAt t q ∨
    Ours paths (identityAt config paths t) (NamedAt config paths operationId t) q ∨
      q = lockPath paths ∧ ¬ FileAt u q
  clean : Clean (identityAt config paths t) v

/-- An operation that was interrupted leaves nothing once it has been recovered, if and only if it
had left no temporary file of a receipt when it was stopped, and had not been the first to take the
lock. -/
theorem recovered_leaves_nothing_iff (hinterrupted : Interrupted config paths operationId t u)
    (hdone : Completes config paths operationId u v) :
    LeavesNothing config paths operationId t u v ↔ ∀ q,
      ReceiptTemp paths (NamedAt config paths operationId t) q ∨ q = lockPath paths → FileAt u q →
        FileAt t q ∨ Ours paths (identityAt config paths t) (NamedAt config paths operationId t) q := by
  obtain ⟨hidentity, hu⟩ := hinterrupted.remains
  have hnamed : NamedAt config paths operationId t operationId := .inl rfl
  -- from the start, and from where the attempts were stopped
  obtain ⟨hall, hclean⟩ := hdone.remains (fun _ => .inl) hnamed hidentity hu
  have hlast : Remains u (Expected paths (identityAt config paths t) (NamedAt config paths operationId t))
      (Replaced (identityAt config paths t)) (identityAt config paths t)
      (NamedAt config paths operationId t) v :=
    (hdone.remains (fun _ => id) hnamed hidentity (.start hu.content)).1
  constructor
  · intro hnothing q hq hthere
    have hkept : FileAt v q ∨ Replaced (identityAt config paths t) q := hlast.kept q hthere
    rcases hkept with hv | rfl | rfl | htransient
    · rcases hnothing.files q hv with ht | hours | ⟨-, hnew⟩
      · exact .inl ht
      · exact .inr hours
      · exact absurd hthere hnew
    · exact .inr (.inl rfl)
    · exact .inr (.inr (.inl rfl))
    · rcases hq with ⟨id, -, htemp⟩ | rfl
      · exact absurd htransient (not_transient_receiptTemp htemp)
      · exact absurd htransient not_transient_lock
  · intro hcondition
    refine ⟨fun q hv => ?_, hclean⟩
    rcases hall.made q hv with ht | (hours | htransient | rfl) | htemp
    · exact .inl ht
    · exact .inr (.inl hours)
    · exact absurd hv (hclean q htransient)
    · by_cases hthere : FileAt u (lockPath paths)
      · exact (hcondition _ (.inr rfl) hthere).imp_right .inl
      · exact .inr (.inr ⟨rfl, hthere⟩)
    · -- the last attempt has left no temporary file of its own
      rcases hlast.made q hv with hthere | hours | htransient | rfl
      · exact (hcondition q (.inl htemp) hthere).imp_right .inl
      · exact .inr (.inl hours)
      · exact absurd hv (hclean q htransient)
      · by_cases hthere : FileAt u (lockPath paths)
        · exact (hcondition _ (.inr rfl) hthere).imp_right .inl
        · exact .inr (.inr ⟨rfl, hthere⟩)

end

/-! ## A receipt that is being written -/

/-- An instance without keys. -/
def keylessTree : Tree := .ofEntries
  [([], .dir 0o755), (["state"], .dir 0o700), (["secrets"], .dir 0o700),
    (lockPath examplePaths, .file 0o600 [])]
  (by decide +kernel)

/-- The keys `[1]` and `[2]` are new. -/
def newJournal : Journal where
  transaction := "11111111111111111111111111111111"
  operationId := "create"
  operationKind := "ssh-key.generate"
  privateOldDigest := none
  publicOldDigest := none
  privateNewDigest := "4bf5122f344554c53bde2ebb8cd2b7e3d1600ad631c385a5d7cce23c7785459a"
  publicNewDigest := "dbc1b4c900ffe48d575b5da5c638040125f65db0fe3e24494b76ea986457d986"

/-- The temporary file of the receipt. -/
def receiptTemporary (suffix : String) : Path :=
  examplePaths.state / "operations" / ("." ++ (operationPath examplePaths "create").name ++ "." ++ suffix)

/-- The keys are installed and the receipt is being written. The entries that have been replaced are
still listed, behind the new ones. -/
def stoppedTree : Tree := .ofEntries
  [(receiptTemporary "aaaaaaaa", .file 0o600 []), (["operations", "state"], .dir 0o700),
    (transactionPath ["id", "secrets"], .file 0o600 (encodeUtf8 (jsonText newJournal.toJson))),
    (transactionPath ["id", "secrets"], .file 0o600 []),
    (["id.pub", "secrets"], .file 0o644 [2]), (["id.pub", "secrets"], .file 0o644 []),
    (["id", "secrets"], .file 0o600 [1]), ([], .dir 0o755), (["state"], .dir 0o700),
    (["secrets"], .dir 0o700), (lockPath examplePaths, .file 0o600 [])]
  (by decide +kernel)

theorem newJournal_valid : newJournal.Valid where
  transaction := by decide
  operationId := by decide +kernel
  operationKind := by decide +kernel
  privateOld d hd := by cases hd
  publicOld d hd := by cases hd
  privateNew := (isDigest_ofList _).trans (by decide)
  publicNew := (isDigest_ofList _).trans (by decide)

/-- The run is stopped once the temporary file of its receipt is there. -/
theorem generate_stopped : (generateSshKey "home" exampleSsh examplePaths false "create").Visits machine
    keylessTree stoppedTree := by
  obtain ⟨t, ⟨q, hrun⟩, ht⟩ := Prog.exists_visits (s := keylessTree)
    (p := generateSshKey "home" exampleSsh examplePaths false "create") exampleHost.respond_answers 85
    (fun t => decide (t.entries = stoppedTree.entries))
    (by
      simp only [generateSshKey, stateLock, generateLocked, stageTransaction, recordOperation,
        atomicWriteJson, atomicWrite, encodeUtf8_jsonText, stoppedTree]
      decide +kernel)
  obtain rfl : t = stoppedTree := by
    cases t
    cases of_decide_eq_true ht
    rfl
  exact ⟨q, hrun.mono reliable_refines⟩

theorem identityAt_keyless : identityAt exampleSsh examplePaths keylessTree = ["id", "secrets"] := by
  decide +kernel

theorem identityAt_stopped : identityAt exampleSsh examplePaths stoppedTree = ["id", "secrets"] := by
  decide +kernel

theorem stopped_journaled : Journaled stoppedTree ["id", "secrets"] newJournal := by
  refine newJournal_valid.journaled (m := 0o600) ?_
  exact List.lookup_eq_some_iff.mpr ⟨stoppedTree.entries.take 2, stoppedTree.entries.drop 3, rfl,
    by decide +kernel⟩

/-- What the recovery does once that journal has been read. -/
def newFinish : OsM Unit := do
  finishTransaction ["id", "secrets"] (pubOf ["id", "secrets"])
    (newJournal.files ["id", "secrets"]) newJournal
  recordOperation examplePaths ["id", "secrets"] (pubOf ["id", "secrets"]) newJournal
  removeTransaction ["id", "secrets"] (newJournal.files ["id", "secrets"])
  cleanOrphanedFiles ["id", "secrets"]

theorem stopped_recovers : ∃ v, (recoverTransaction exampleSsh examplePaths).Returns machine stoppedTree
    (.ok ()) v ∧ FileAt v (receiptTemporary "aaaaaaaa") := by
  obtain ⟨found, t, hread, ht, hfound⟩ :=
    exists_run (readTransaction_succeeds stopped_journaled) (readTransaction_answered _)
  subst ht hfound
  obtain ⟨r, v, hr, htest⟩ := Prog.exists_returns (s := stoppedTree) (p := newFinish)
    (Host.respond_answers { exampleHost with suffix := "bbbbbbbb" }) 100
    (fun r v => r.isOk && (v.get (receiptTemporary "aaaaaaaa")).any fun o => !o.isDir)
    (by
      simp only [newFinish, recordOperation, atomicWriteJson, atomicWrite, encodeUtf8_jsonText, stoppedTree]
      decide +kernel)
  obtain ⟨hok, hthere⟩ := Bool.and_eq_true_iff.mp htest
  cases r with
  | error e => cases hok
  | ok _ =>
    refine ⟨v, (sshKeyPaths_returns _ _ _).bind (Prog.Returns.mono reliable_refines ?_), ?_⟩
    · rw [identityAt_stopped]
      exact hread.bind hr
    · obtain ⟨o, ho, hfile⟩ := (Option.any_eq_true _ _).mp hthere
      exact ⟨o, ho, by simpa using hfile⟩

/-- The receipt's name is that of no key. -/
theorem not_ours_receiptTemporary {named : String → Prop} :
    ¬ Ours examplePaths ["id", "secrets"] named (receiptTemporary "aaaaaaaa") := by
  rintro (h | h | ⟨id, -, h⟩)
  · revert h
    decide +kernel
  · revert h
    decide +kernel
  · have hn := congrArg String.toList (List.cons.inj h).1
    simp [String.append_assoc] at hn

/-- The temporary file is there when the recovery has completed. -/
theorem recovered_leaves_temporary :
    (generateSshKey "home" exampleSsh examplePaths false "create").Visits machine keylessTree stoppedTree ∧
      identityAt exampleSsh examplePaths stoppedTree = identityAt exampleSsh examplePaths keylessTree ∧
      ∃ v, (recoverTransaction exampleSsh examplePaths).Returns machine stoppedTree (.ok ()) v ∧
        ¬ LeavesNothing exampleSsh examplePaths "create" keylessTree stoppedTree v := by
  obtain ⟨v, hreturns, hthere⟩ := stopped_recovers
  refine ⟨generate_stopped, identityAt_stopped.trans identityAt_keyless.symm, v, hreturns, fun h => ?_⟩
  rcases h.files _ hthere with ⟨o, ho, -⟩ | hours | ⟨hlock, -⟩
  · have hnone : keylessTree.get (receiptTemporary "aaaaaaaa") = none := by decide +kernel
    cases hnone.symm.trans ho
  · exact not_ours_receiptTemporary (identityAt_keyless ▸ hours)
  · revert hlock
    decide +kernel

/-- The run is stopped before the public key has been written. -/
def stagedTree : Tree := .ofEntries
  [((newJournal.files ["id", "secrets"]).privateStage, .file 0o600 [1]), ([], .dir 0o755),
    (["state"], .dir 0o700), (["secrets"], .dir 0o700), (lockPath examplePaths, .file 0o600 [])]
  (by decide +kernel)

theorem generate_staged : (generateSshKey "home" exampleSsh examplePaths false "create").Visits machine
    keylessTree stagedTree := by
  obtain ⟨t, ⟨q, hrun⟩, ht⟩ := Prog.exists_visits (s := keylessTree)
    (p := generateSshKey "home" exampleSsh examplePaths false "create") exampleHost.respond_answers 24
    (fun t => decide (t.entries = stagedTree.entries)) (by decide +kernel)
  obtain rfl : t = stagedTree := by
    cases t
    cases of_decide_eq_true ht
    rfl
  exact ⟨q, hrun.mono reliable_refines⟩

theorem staged_recovers : ∃ v, (recoverTransaction exampleSsh examplePaths).Returns machine stagedTree
    (.ok ()) v := by
  obtain ⟨r, v, hr, hok⟩ := Prog.exists_returns (s := stagedTree)
    (p := recoverTransaction exampleSsh examplePaths) exampleHost.respond_answers 100
    (fun r _ => r.isOk) (by decide +kernel)
  cases r with
  | error e => cases hok
  | ok _ => exact ⟨v, Prog.Returns.mono reliable_refines hr⟩

theorem fileAt_staged (h : FileAt stagedTree q) :
    q = (newJournal.files ["id", "secrets"]).privateStage ∨ q = lockPath examplePaths := by
  obtain ⟨o, ho, hfile⟩ := h
  obtain ⟨l, r, hentries, -⟩ := List.lookup_eq_some_iff.mp (show stagedTree.entries.lookup q = some o from ho)
  have hmem : (q, o) ∈ stagedTree.entries := hentries ▸ List.mem_append_cons_self
  simp only [stagedTree, Tree.ofEntries, List.mem_cons, List.not_mem_nil, or_false, Prod.mk.injEq] at hmem
  rcases hmem with ⟨rfl, rfl⟩ | ⟨rfl, rfl⟩ | ⟨rfl, rfl⟩ | ⟨rfl, rfl⟩ | ⟨rfl, rfl⟩
  · exact .inl rfl
  · cases hfile
  · cases hfile
  · cases hfile
  · exact .inr rfl

/-- That run leaves nothing. -/
theorem staged_leaves_nothing : ∃ v,
    (recoverTransaction exampleSsh examplePaths).Returns machine stagedTree (.ok ()) v ∧
      LeavesNothing exampleSsh examplePaths "create" keylessTree stagedTree v := by
  obtain ⟨v, hreturns⟩ := staged_recovers
  have hidentity : identityAt exampleSsh examplePaths stagedTree = ["id", "secrets"] := by decide +kernel
  refine ⟨v, hreturns, (recovered_leaves_nothing_iff (.again .start (.inl ⟨_, _, generate_staged⟩)
    (hidentity.trans identityAt_keyless.symm)) (.inr hreturns)).mpr fun q hq hthere => ?_⟩
  have hlock : FileAt keylessTree (lockPath examplePaths) :=
    ⟨.file 0o600 [], by decide +kernel, rfl⟩
  rcases fileAt_staged hthere with rfl | rfl
  · rcases hq with ⟨id, -, htemp⟩ | hq
    · exact absurd (transient_transactionPaths _ List.mem_cons_self) (not_transient_receiptTemp htemp)
    · exact .inl (hq ▸ hlock)
  · exact .inl hlock

end Ssh
end ShuttleGate
