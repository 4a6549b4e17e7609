import ShuttleGate.Keys.Loaders
import ShuttleGate.State.Migration

/-! # The listing and the check before a start

A row of the listing says complete and current for the peers that pass the check of the phone
configurations, and for no other. -/

namespace ShuttleGate

open Fs Effect Os Files State

namespace Keys

section
variable {config : ProjectConfig} {paths : InstancePaths} {peer : PeerConfig}
  {peers : List PeerConfig} {t : Tree} {p q : Path}

/-! ## What is a file -/

theorem value_isFile (h : t.get p = some (.file m c)) : (isFile p).value (seen t) = .ok true := by
  simp only [isFile, Prog.bind_def, Prog.tryCatch_def, Prog.value_handle, Prog.value_bind,
    Prog.value_perform]
  rw [seen_lstat_some h]
  rfl

/-- Whether there is a file can always be told. -/
theorem isFile_answers (p : Path) (t : Tree) : ∃ b, (isFile p).value (seen t) = .ok b := by
  simp only [isFile, Prog.bind_def, Prog.tryCatch_def, Prog.value_handle, Prog.value_bind,
    Prog.value_perform, Prog.value_ite, Prog.pure_def, Prog.value_ret]
  cases h : t.get p with
  | none =>
    rw [seen_lstat_none h]
    exact ⟨false, rfl⟩
  | some o =>
    rw [seen_lstat_some h]
    cases o with
    | file m c => exact ⟨true, rfl⟩
    | dir m => exact ⟨false, rfl⟩
    | special => exact ⟨false, rfl⟩
    | link s =>
      have hlink : seen t (.readlink p) = .ok s := by simp [seen, Host.respond, h]
      rw [hlink]
      by_cases habsolute : (PurePath.ofText s).isAbsolute = true
      · exact ⟨false, by simp [Except.bind, Except.tryCatch, habsolute, statOf]⟩
      · cases htarget : t.get (p.parent.join (PurePath.ofText s).parts) with
        | none => exact ⟨false, by simp [Except.bind, Except.tryCatch, habsolute, statOf,
            seen_lstat_none htarget, osError, Exn.isOSError]⟩
        | some o => exact ⟨_, by simp [Except.bind, Except.tryCatch, habsolute, statOf,
            seen_lstat_some htarget]; rfl⟩

theorem areFiles_answers (p q : Path) (t : Tree) : ∃ b, (areFiles p q).value (seen t) = .ok b := by
  obtain ⟨first, hfirst⟩ := isFile_answers p t
  obtain ⟨second, hsecond⟩ := isFile_answers q t
  simp only [areFiles, Prog.bind_def, Prog.value_bind, hfirst, Except.bind, Prog.value_ite, hsecond,
    Prog.pure_def, Prog.value_ret]
  cases first
  · exact ⟨false, rfl⟩
  · exact ⟨second, rfl⟩

theorem areFiles_of_files (hp : t.get p = some (.file m c)) (hq : t.get q = some (.file m' c')) :
    (areFiles p q).value (seen t) = .ok true := by
  simp only [areFiles, Prog.bind_def, Prog.value_bind, value_isFile hp, Except.bind, if_true,
    value_isFile hq]

theorem presence_answers (d : Path) (t : Tree) :
    ∀ names, ∃ present, (presence d names).value (seen t) = .ok present
  | [] => ⟨[], rfl⟩
  | name :: names => by
    obtain ⟨present, h⟩ := presence_answers d t names
    refine ⟨(follow t (d / name)).isSome :: present, ?_⟩
    simp only [presence, Prog.bind_def, Prog.value_bind, Prog.value_perform, seen_pathExists,
      Except.bind, h, Prog.pure_def, Prog.value_ret]

theorem peerKeyStatus_answers (d : Path) (t : Tree) :
    ∃ status, (peerKeyStatus d).value (seen t) = .ok status := by
  obtain ⟨present, h⟩ := presence_answers d t [privateKey, publicKey, presharedKey]
  refine ⟨statusOf present, ?_⟩
  rw [peerKeyStatus, keyStatus, Prog.bind_def, Prog.value_bind, h]
  rfl

/-! ## What the check has found -/

/-- A bounded file of one's own is a file. -/
theorem file_of_lstat {st : Stat} (h : seen t (.lstat p) = .ok st) (hst : isBoundedPrivate st = true) :
    ∃ m c, t.get p = some (.file m c) := by
  cases hp : t.get p with
  | none =>
    rw [seen_lstat_none hp] at h
    cases h
  | some o =>
    rw [seen_lstat_some hp] at h
    cases h
    simp only [isBoundedPrivate, Bool.and_eq_true, decide_eq_true_eq] at hst
    obtain ⟨m, c, rfl⟩ := kind_statOf_regular.mp hst.1.1
    exact ⟨m, c, rfl⟩

theorem file_of_readPhone {name : String} (h : (readPhone paths name).value (seen t) = .ok text) :
    ∃ m c, t.get (paths.peerDir name / phoneConfig) = some (.file m c) := by
  have hread := Prog.value_of_handle (fun e a => ?_) h
  · obtain ⟨st, hst, hrest⟩ := Prog.value_bind_eq_ok.mp hread
    rw [Prog.value_perform] at hst
    rw [Prog.value_ite] at hrest
    split at hrest
    · cases hrest
    · rename_i hbounded
      exact file_of_lstat hst (by simpa using hbounded)
  · intro hok
    split at hok
    · cases hok
    · cases hok

theorem files_of_stored {name : String} (h : (storedArtifacts paths name).value (seen t) = .ok stored) :
    (areFiles (paths.peerDir name / phoneConfig) (paths.peerDir name / fingerprintFile)).value
      (seen t) = .ok true := by
  have hread := Prog.value_of_handle (fun e a => ?_) h
  · obtain ⟨st, hst, hrest⟩ := Prog.value_bind_eq_ok.mp hread
    rw [Prog.value_perform] at hst
    rw [Prog.value_ite] at hrest
    split at hrest
    · cases hrest
    · rename_i hbounded
      obtain ⟨value, -, hrest⟩ := Prog.value_bind_eq_ok.mp hrest
      obtain ⟨text, hphone, -⟩ := Prog.value_bind_eq_ok.mp hrest
      obtain ⟨m, c, hfile⟩ := file_of_readPhone hphone
      obtain ⟨m', c', hfile'⟩ := file_of_lstat hst (by simpa using hbounded)
      exact areFiles_of_files hfile hfile'
  · intro hok
    split at hok
    · cases hok
    · cases hok

theorem complete_of_loadPeer {name : String} (h : (loadPeer paths name).value (seen t) = .ok keys) :
    (peerKeyStatus (paths.peerDir name)).value (seen t) = .ok .complete := by
  obtain ⟨status, hstatus, hrest⟩ := Prog.value_bind_eq_ok.mp h
  rw [Prog.value_ite] at hrest
  split at hrest
  · cases hrest
  · rename_i hcomplete
    rw [hstatus, not_not.mp hcomplete]

/-- Who passes the check has all keys and both files. -/
theorem row_of_requirePhone {server : KeyPair}
    (h : (requirePhone config paths server peer).value (seen t) = .ok ()) :
    (peerKeyStatus (paths.peerDir peer.name)).value (seen t) = .ok .complete ∧
      (areFiles (paths.peerDir peer.name / phoneConfig)
        (paths.peerDir peer.name / fingerprintFile)).value (seen t) = .ok true := by
  obtain ⟨artifacts, hartifacts, hrest⟩ := Prog.value_bind_eq_ok.mp h
  obtain ⟨stored, hstored, -⟩ := Prog.value_bind_eq_ok.mp hrest
  obtain ⟨keys, hkeys, -⟩ := Prog.value_bind_eq_ok.mp hartifacts
  exact ⟨complete_of_loadPeer hkeys, files_of_stored hstored⟩

/-- The check of several peers is that of each one, with the server's keys. -/
theorem requireSelected_iff : (requireSelected config paths peers).value (seen t) = .ok () ↔
    ∃ server, (loadServer paths).value (seen t) = .ok server ∧
      ∀ peer ∈ peers, (requirePhone config paths server peer).value (seen t) = .ok () := by
  rw [requireSelected, Prog.bind_def, Prog.value_bind_eq_ok]
  exact exists_congr fun server => and_congr_right fun _ => Prog.value_forEach_eq_ok

theorem requireSelected_iff_each : (requireSelected config paths peers).value (seen t) = .ok () ↔
    (∃ server, (loadServer paths).value (seen t) = .ok server) ∧
      ∀ peer ∈ peers, (requireSelected config paths [peer]).value (seen t) = .ok () := by
  constructor
  · intro h
    obtain ⟨server, hserver, hall⟩ := requireSelected_iff.mp h
    refine ⟨⟨server, hserver⟩, fun peer hpeer => requireSelected_iff.mpr ⟨server, hserver, ?_⟩⟩
    exact List.forall_mem_singleton.mpr (hall peer hpeer)
  · rintro ⟨⟨server, hserver⟩, hall⟩
    refine requireSelected_iff.mpr ⟨server, hserver, fun peer hpeer => ?_⟩
    obtain ⟨server', hserver', hone⟩ := requireSelected_iff.mp (hall peer hpeer)
    cases hserver.symm.trans hserver'
    exact hone peer List.mem_cons_self

theorem row_of_requireSelected (h : (requireSelected config paths [peer]).value (seen t) = .ok ()) :
    (peerKeyStatus (paths.peerDir peer.name)).value (seen t) = .ok .complete ∧
      (areFiles (paths.peerDir peer.name / phoneConfig)
        (paths.peerDir peer.name / fingerprintFile)).value (seen t) = .ok true := by
  obtain ⟨server, -, hone⟩ := requireSelected_iff.mp h
  exact row_of_requirePhone (hone peer List.mem_cons_self)

/-! ## The rows -/

/-- What a row of the listing says. -/
theorem row_agrees {row : String × KeyStatus × PhoneState}
    (h : (peerRow config paths peer).value (seen t) = .ok row) : row.1 = peer.name ∧
      (row.2 = (.complete, .current) ↔ (requireSelected config paths [peer]).value (seen t) = .ok ()) := by
  obtain ⟨keys, hkeys, h⟩ := Prog.value_bind_eq_ok.mp h
  obtain ⟨there, hthere, h⟩ := Prog.value_bind_eq_ok.mp h
  cases there with
  | false =>
    cases h
    refine ⟨rfl, fun hmissing => ?_, fun hcurrent => ?_⟩
    · cases hmissing
    · cases hthere.symm.trans (row_of_requireSelected hcurrent).2
  | true =>
    obtain ⟨state, hstate, h⟩ := Prog.value_bind_eq_ok.mp h
    cases h
    refine ⟨rfl, ?_⟩
    rw [Prog.tryCatch_def, Prog.value_handle, Prog.bind_def, Prog.value_bind] at hstate
    cases hrequired : (requireSelected config paths [peer]).value (seen t) with
    | ok u =>
      rw [hrequired] at hstate
      cases hstate
      cases hkeys.symm.trans (row_of_requireSelected hrequired).1
      exact ⟨fun _ => rfl, fun _ => rfl⟩
    | error e =>
      rw [hrequired] at hstate
      cases e with
      | state m =>
        cases hstate
        refine ⟨fun hstale => ?_, fun hcurrent => ?_⟩
        · cases hstale
        · cases hcurrent
      | _ => cases hstate

/-- A row is made unless the check of its peer, whose two files are there, raises another error than
a `StateError`. -/
theorem row_answers : (∃ row, (peerRow config paths peer).value (seen t) = .ok row) ↔
    ((areFiles (paths.peerDir peer.name / phoneConfig)
      (paths.peerDir peer.name / fingerprintFile)).value (seen t) = .ok true →
    ∀ e, (requireSelected config paths [peer]).value (seen t) = .error e → ∃ m, e = .state m) := by
  obtain ⟨keys, hkeys⟩ := peerKeyStatus_answers (paths.peerDir peer.name) t
  obtain ⟨there, hthere⟩ := areFiles_answers (paths.peerDir peer.name / phoneConfig)
    (paths.peerDir peer.name / fingerprintFile) t
  rw [hthere]
  simp only [peerRow, Prog.bind_def, Prog.value_bind, hkeys, hthere, Except.bind]
  cases there with
  | false =>
    refine ⟨fun _ h => ?_, fun _ => ⟨_, rfl⟩⟩
    cases h
  | true =>
    simp only [Bool.not_true, Bool.false_eq_true, if_false, Prog.value_bind, Prog.tryCatch_def,
      Prog.value_handle]
    cases hrequired : (requireSelected config paths [peer]).value (seen t) with
    | ok u =>
      refine ⟨fun _ _ e h => ?_, fun _ => ⟨_, rfl⟩⟩
      cases h
    | error e =>
      cases e with
      | state m =>
        refine ⟨fun _ _ e h => ⟨m, ?_⟩, fun _ => ⟨_, rfl⟩⟩
        cases h
        rfl
      | _ =>
        constructor
        · rintro ⟨_, h⟩
          cases h
        · intro h
          obtain ⟨m, hm⟩ := h trivial _ rfl
          cases hm

/-- The rows of the peers, in their order. -/
theorem rows_agree {rows : List (String × KeyStatus × PhoneState)}
    (h : (rowsOf config paths peers).value (seen t) = .ok rows) :
    List.Forall₂ (fun peer row => row.1 = peer.name ∧ (row.2 = (.complete, .current) ↔
      (requireSelected config paths [peer]).value (seen t) = .ok ())) peers rows := by
  induction peers generalizing rows with
  | nil =>
    cases h
    exact .nil
  | cons peer peers ih =>
    obtain ⟨row, hrow, h⟩ := Prog.value_bind_eq_ok.mp h
    obtain ⟨rest, hrest, h⟩ := Prog.value_bind_eq_ok.mp h
    cases h
    exact .cons (row_agrees hrow) (ih hrest)

/-- What goes with the rows one by one goes with all of them. -/
theorem forall_mem_of_rows {P : α → Prop} {Q : β → Prop} {xs : List α} {ys : List β}
    (h : List.Forall₂ (fun x y => Q y ↔ P x) xs ys) : (∀ x ∈ xs, P x) ↔ ∀ y ∈ ys, Q y := by
  induction h with
  | nil => exact ⟨fun _ _ hy => absurd hy List.not_mem_nil, fun _ _ hx => absurd hx List.not_mem_nil⟩
  | cons hxy _ ih => rw [List.forall_mem_cons, List.forall_mem_cons, ih, hxy]

/-- All rows are made when every one is. -/
theorem rows_answer : (∃ rows, (rowsOf config paths peers).value (seen t) = .ok rows) ↔
    ∀ peer ∈ peers, ∃ row, (peerRow config paths peer).value (seen t) = .ok row := by
  induction peers with
  | nil => exact ⟨fun _ _ hpeer => absurd hpeer List.not_mem_nil, fun _ => ⟨[], rfl⟩⟩
  | cons peer peers ih =>
    rw [List.forall_mem_cons, ← ih]
    constructor
    · rintro ⟨rows, h⟩
      obtain ⟨row, hrow, h⟩ := Prog.value_bind_eq_ok.mp h
      obtain ⟨rest, hrest, -⟩ := Prog.value_bind_eq_ok.mp h
      exact ⟨⟨row, hrow⟩, rest, hrest⟩
    · rintro ⟨⟨row, hrow⟩, rest, hrest⟩
      exact ⟨row :: rest, Prog.value_bind_eq_ok.mpr ⟨row, hrow, Prog.value_bind_eq_ok.mpr
        ⟨rest, hrest, rfl⟩⟩⟩

/-! ## Over the runs -/

theorem areFiles_looks (p q : Path) : (areFiles p q).Only OsOp.Looks :=
  (isFile_looks p).bind fun _ => (isFile_looks q).ite Prog.only_ret

theorem peerRow_looks (config : ProjectConfig) (paths : InstancePaths) (peer : PeerConfig) :
    (peerRow config paths peer).Only OsOp.Looks := by
  refine (keyStatus_looks _ _).bind fun _ => (areFiles_looks _ _).bind fun _ => Prog.only_ret.ite ?_
  refine Prog.Only.bind (Prog.Only.handle ?_ fun e => ?_) fun _ => Prog.only_ret
  · exact (requireSelected_looks config paths [peer]).bind fun _ => Prog.only_ret
  · split
    · exact Prog.only_ret
    · exact Prog.only_raise

theorem rowsOf_looks (config : ProjectConfig) (paths : InstancePaths) :
    ∀ peers, (rowsOf config paths peers).Only OsOp.Looks
  | [] => Prog.only_ret
  | peer :: peers => (peerRow_looks config paths peer).bind fun _ =>
    (rowsOf_looks config paths peers).bind fun _ => Prog.only_ret

/-- In one generation, whatever its files are, a listing that is made has one row for each declared
peer, in order. A row says complete and current exactly for the peers that alone pass the check
before a start; all do, and the server's keys are loaded, exactly when the whole check passes. A
listing is made unless the check of a peer, whose two files are there, raises another error than a
`StateError`. -/
theorem listing_agrees (config : ProjectConfig) (paths : InstancePaths) (t : Tree) :
    (∀ rows u, (rowsOf config paths config.wireguard.peers).Returns reliable t (.ok rows) u →
      List.Forall₂ (fun peer row => row.1 = peer.name ∧ (row.2 = (.complete, .current) ↔
        (requireSelected config paths [peer]).Returns reliable t (.ok ()) t))
        config.wireguard.peers rows ∧
      ((requireCurrent config paths).Returns reliable t (.ok ()) t ↔
        (∃ server, (loadServer paths).Returns reliable t (.ok server) t) ∧
          ∀ row ∈ rows, row.2 = (.complete, .current))) ∧
    ((∃ rows, (rowsOf config paths config.wireguard.peers).Returns reliable t (.ok rows) t) ↔
      ∀ peer ∈ config.wireguard.peers,
        (areFiles (paths.peerDir peer.name / phoneConfig)
          (paths.peerDir peer.name / fingerprintFile)).Returns reliable t (.ok true) t →
        ∀ e, (requireSelected config paths [peer]).Returns reliable t (.error e) t →
          ∃ m, e = .state m) := by
  have hvalue {α : Type} {p : OsM α} (hp : p.Only OsOp.Looks) {r : Except Exn α} :
      p.Returns reliable t r t ↔ p.value (seen t) = r :=
    (looks_returns hp).trans ⟨fun h => h.1.symm, fun h => ⟨h.symm, rfl⟩⟩
  have hrequired (peers : List PeerConfig) := hvalue (requireSelected_looks config paths peers)
    (r := .ok ())
  constructor
  · intro rows u hreturns
    obtain ⟨hrows, -⟩ := (looks_returns (rowsOf_looks config paths _)).mp hreturns
    have hagree := rows_agree hrows.symm
    refine ⟨hagree.imp fun peer row hrow => ⟨hrow.1, hrow.2.trans (hrequired _).symm⟩, ?_⟩
    rw [requireCurrent, hrequired, requireSelected_iff_each]
    refine and_congr (exists_congr fun server => (hvalue (loadServer_looks paths)).symm) ?_
    exact forall_mem_of_rows (hagree.imp fun _ _ hrow => hrow.2)
  · have hlisting := exists_congr fun rows =>
      hvalue (rowsOf_looks config paths config.wireguard.peers) (r := .ok rows)
    rw [hlisting, rows_answer]
    refine forall₂_congr fun peer _ => row_answers.trans ?_
    rw [hvalue (areFiles_looks _ _)]
    exact imp_congr_right fun _ => forall_congr' fun e =>
      imp_congr_left (hvalue (requireSelected_looks config paths [peer])).symm

end

/-! ## An example -/

/-- A legacy state with the empty files of a phone configuration. -/
def listedTree : Tree := .ofEntries
  [([], .dir 0o755), (["state"], .dir 0o700), (["peers", "state"], .dir 0o700),
    (["phone", "peers", "state"], .dir 0o700),
    (["phone.conf", "phone", "peers", "state"], .file 0o600 []),
    (["fingerprint.json", "phone", "peers", "state"], .file 0o600 [])] (by decide)

/-- A configuration that is stale and one that is missing. -/
theorem listing_agrees_stale :
    (rowsOf exampleProject (examplePaths.withData ["state"]) exampleProject.wireguard.peers).Returns
      reliable listedTree
      (.ok [("phone", .missing, .stale), ("tablet", .missing, .missing)]) listedTree ∧
    ¬ (requireCurrent exampleProject (examplePaths.withData ["state"])).Returns reliable listedTree
      (.ok ()) listedTree := by
  have hreturns : (rowsOf exampleProject (examplePaths.withData ["state"])
      exampleProject.wireguard.peers).Returns reliable listedTree
      (.ok [("phone", .missing, .stale), ("tablet", .missing, .missing)]) listedTree :=
    (looks_returns (rowsOf_looks _ _ _)).mpr ⟨rfl, rfl⟩
  refine ⟨hreturns, fun hcurrent => ?_⟩
  have hall := (((listing_agrees _ _ _).1 _ _ hreturns).2.mp hcurrent).2
  cases hall _ List.mem_cons_self

end Keys
end ShuttleGate
