import ShuttleGate.Config
import ShuttleGate.Files.Making
import ShuttleGate.Os.Host

/-! # The instance directory

The launcher mounts one directory for an instance, and refuses those that are too broad. -/

namespace ShuttleGate

open Fs Effect Os Files

namespace Host

/-- What the launcher reads of its process. -/
structure Environment where
  /-- `XDG_CONFIG_HOME` -/
  xdgConfigHome : Option String := none
  /-- `HOME` -/
  home : Option String := none
  /-- `pwd.getpwuid(os.getuid()).pw_dir` -/
  pwDir : String
  /-- `Path.cwd()` -/
  cwd : Path := []

/-- Where the resolution of a path begins, and the parts that follow. -/
abbrev Location := Path × List String

/-- A path in a working directory. -/
def locate (cwd : Location) (p : PurePath) : Location :=
  if p.isAbsolute then ([], p.parts) else (cwd.1, cwd.2 ++ p.parts)

def Environment.locate (env : Environment) (p : PurePath) : Location := Host.locate (env.cwd, []) p

/-- `str.isprintable` -/
def isPrintable [UnicodeDb] (s : String) : Bool := s.toList.all UnicodeDb.isPrintable

def defaultInstanceParts : List String := ["shuttle-gate", "default"]

/-- The per-user configuration directory. -/
def configBase [UnicodeDb] (env : Environment) : Except Exn PurePath := do
  let configured := env.xdgConfigHome.getD ""
  raiseIf (configured ≠ "" ∧ isPrintable configured = false)
    (.host "XDG_CONFIG_HOME must contain only printable characters")
  if configured ≠ "" ∧ (PurePath.ofText configured).isAbsolute = true then
    return PurePath.ofText configured
  let homeValue := env.home.getD ""
  raiseIf (homeValue ≠ "" ∧ isPrintable homeValue = false)
    (.host "HOME must contain only printable characters")
  if homeValue ≠ "" then
    raiseIf ((PurePath.ofText homeValue).isAbsolute = false) (.host "HOME must be an absolute path")
    return (PurePath.ofText homeValue).join ".config"
  return (PurePath.ofText env.pwDir).join ".config"

/-- `except (OSError, RuntimeError)` -/
def unresolved (e : Exn) : Bool := e.isOSError || e = .error "RuntimeError"

/-- `default_instance_root` -/
def defaultInstanceRoot [UnicodeDb] (env : Environment) : OsM Path := do
  let base ← Prog.ofExcept (configBase env)
  let location := env.locate base
  tryCatch (Prog.perform (.resolve location.1 (location.2 ++ defaultInstanceParts))) fun e =>
    if unresolved e then throw (.host "default instance path cannot be resolved") else throw e

/-- `_validate_root_separation` -/
def validateRootSeparation (application instance' : Path) : Except Exn Unit :=
  raiseIf (instance' = application ∨ application <:+ instance' ∨ instance' <:+ application)
    (.host "instance and application directories must be separate and non-overlapping")

/-- Whether the directory is there; anything else there is an error. -/
def parentThere (p : Path) : OsM Bool := do
  let found ← tryCatch (do return some (← Prog.perform (.lstat p))) fun e =>
    if e.isFileNotFound then pure none
    else if e.isOSError then throw (.host "default instance parent cannot be inspected")
    else throw e
  match found with
  | none => return false
  | some info => do
    if info.kind ≠ .directory then throw (.host "default instance parent must be a directory")
    return true

/-- The directories that are missing, from the path up. -/
def missingParents : Path → OsM (List Path)
  | [] => do
    unless ← parentThere [] do
      throw (.host "default instance has no existing directory ancestor")
    return []
  | n :: d => do
    if ← parentThere (n :: d) then return []
    return (n :: d) :: (← missingParents d)

/-- One missing directory; another process may have made it meanwhile. -/
def makeParent (directory : Path) : OsM Unit := do
  tryCatch (Prog.perform (.mkdir directory 0o700)) fun e => do
    if e.isFileExists then
      let info ← tryCatch (Prog.perform (.lstat directory)) fun e =>
        if e.isOSError then throw (.host "default instance parent cannot be inspected") else throw e
      if info.kind ≠ .directory then throw (.host "default instance parent must be a directory")
    else if e.isOSError then throw (.host "default instance parent cannot be created")
    else throw e
  fsyncDirectory directory.parent

/-- `_create_directory_parents` -/
def createDirectoryParents (path : Path) : OsM Unit := do
  let missing ← missingParents path
  Prog.forEach missing.reverse makeParent

/-- `_create_default_instance` -/
def createDefaultInstance (root : Path) : OsM Unit := do
  let namespace' := root.parent
  createDirectoryParents namespace'.parent
  ensurePrivateDirectory namespace'
  fsyncDirectory namespace'.parent
  ensurePrivateDirectory root
  fsyncDirectory namespace'

/-- The directory asked for, or the default. -/
def candidate [UnicodeDb] (env : Environment) (requested : Option String) (cwd : Option PurePath) :
    OsM Location :=
  match requested with
  | none => do return (← defaultInstanceRoot env, [])
  | some requested =>
    let base := (cwd.map env.locate).getD (env.cwd, [])
    return locate base (PurePath.ofText requested)

/-- `resolve_instance_root` -/
def resolveInstanceRoot [UnicodeDb] (env : Environment) (applicationRoot : PurePath)
    (requested : Option String) (cwd : Option PurePath := none) (createDefault : Bool := false) :
    OsM Path := do
  let root := env.locate applicationRoot
  let application ← Prog.perform (.resolveStrict root.1 root.2)
  if isPrintable application.text = false then
    throw (.host "application paths must contain only printable characters")
  if requested.any fun s => s = "" || !isPrintable s then
    throw (.host "instance paths must contain only printable characters")
  let location ← candidate env requested cwd
  if requested = none ∧ createDefault = true then
    let prospective ← Prog.perform (.resolve location.1 location.2)
    Prog.ofExcept (validateRootSeparation application prospective)
    createDefaultInstance prospective
  let resolved ← tryCatch (Prog.perform (.resolveStrict location.1 location.2)) fun e =>
    if unresolved e then
      if requested = none then
        throw (.host (withCommandHint "default instance is not initialized" ["init"]))
      else throw (.host "instance directory does not exist or cannot be resolved")
    else throw e
  if isPrintable resolved.text = false then
    throw (.host "instance paths must contain only printable characters")
  let info ← tryCatch (Prog.perform (.lstat resolved)) fun e =>
    if e.isOSError then throw (.host "instance directory cannot be inspected") else throw e
  if info.kind ≠ .directory then throw (.host "instance path must resolve to a directory")
  let home := env.locate (PurePath.ofText env.pwDir)
  let home ← Prog.perform (.resolve home.1 home.2)
  if resolved = [] ∨ resolved = home then
    throw (.host "refusing to use a broad system or home directory as an instance")
  Prog.ofExcept (validateRootSeparation application resolved)
  return resolved

/-! ## What is resolved -/

/-- Where a location leads to. -/
def Location.at (l : Location) (t : Tree) : Path := t.resolve l.1 l.2

/-- The canonical application directory. -/
def Environment.applicationAt (env : Environment) (applicationRoot : PurePath) (t : Tree) : Path :=
  (env.locate applicationRoot).at t

/-- The canonical home directory. -/
def Environment.homeAt (env : Environment) (t : Tree) : Path :=
  (env.locate (PurePath.ofText env.pwDir)).at t

/-- The location a request denotes. -/
def candidateAt [UnicodeDb] (env : Environment) (requested : Option String) (cwd : Option PurePath)
    (t : Tree) : Except Exn Location :=
  match requested with
  | none => do
    let location := env.locate (← configBase env)
    return (t.resolve location.1 (location.2 ++ defaultInstanceParts), [])
  | some requested => .ok (locate ((cwd.map env.locate).getD (env.cwd, [])) (PurePath.ofText requested))

/-- The canonical directory a request leads to. -/
def targetAt [UnicodeDb] (env : Environment) (requested : Option String) (cwd : Option PurePath)
    (t : Tree) : Option Path :=
  (candidateAt env requested cwd t).toOption.map fun l => l.at t

/-- The request leads to a directory above the home directory, below the root. -/
def AboveHome [UnicodeDb] (env : Environment) (requested : Option String) (cwd : Option PurePath)
    (t : Tree) : Prop :=
  ∃ p ∈ targetAt env requested cwd t, p ≠ [] ∧ p ≠ env.homeAt t ∧ p <:+ env.homeAt t

/-- A directory of its own: `resolved` in `u`, where the application and the home directory are what
they are in `t`. -/
structure Dedicated (env : Environment) (applicationRoot : PurePath) (t : Tree) (resolved : Path)
    (u : Tree) : Prop where
  canonical : u.resolveStrict [] resolved.reverse = .ok resolved
  directory : ∃ m, u.get resolved = some (.dir m)
  notApplication : resolved ≠ env.applicationAt applicationRoot t
  notBelow : ¬ env.applicationAt applicationRoot t <:+ resolved
  notAbove : ¬ resolved <:+ env.applicationAt applicationRoot t
  notRoot : resolved ≠ []
  notHome : resolved ≠ env.homeAt t
  notAboveHome : ¬ resolved <:+ env.homeAt t

section
variable [UnicodeDb] {env : Environment} {applicationRoot : PurePath} {requested : Option String}
  {cwd : Option PurePath} {createDefault : Bool} {t : Tree}

theorem resolve_yields (l : Location) (t : Tree) : (Prog.perform (.resolve l.1 l.2) : OsM Path).Yields
    machine (fun p u => u = t ∧ p = l.at t) t :=
  Prog.yields_perform fun p u hstep => by
    obtain ⟨hu, hr⟩ := Step.ok hstep
    exact ⟨hu, Except.ok.inj hr⟩

/-- What is resolved with `strict` is what is resolved without. -/
theorem resolveStrict_yields (l : Location) (t : Tree) :
    (Prog.perform (.resolveStrict l.1 l.2) : OsM Path).Yields machine (fun p u => u = t ∧ p = l.at t) t :=
  Prog.yields_perform fun p u hstep => by
    obtain ⟨hu, hr⟩ := Step.ok hstep
    cases hstrict : t.resolveStrict l.1 l.2 with
    | ok q =>
      rw [hstrict] at hr
      exact ⟨hu, (Except.ok.inj hr).trans (Tree.resolve_of_strict hstrict).symm⟩
    | error e =>
      rw [hstrict] at hr
      cases hr

theorem ofExcept_yields (x : Except Exn α) (t : Tree) :
    (Prog.ofExcept x : OsM α).Yields machine (fun a u => u = t ∧ x = .ok a) t := by
  cases x with
  | ok a => exact Prog.yields_ret ⟨rfl, rfl⟩
  | error e => exact Prog.yields_raise

theorem candidate_yields (env : Environment) (requested : Option String) (cwd : Option PurePath)
    (t : Tree) : (candidate env requested cwd).Yields machine
      (fun l u => u = t ∧ candidateAt env requested cwd t = .ok l) t := by
  cases requested with
  | some requested => exact Prog.yields_ret ⟨rfl, rfl⟩
  | none =>
    refine Prog.yields_bind (Prog.yields_bind ((ofExcept_yields _ t).mono fun base u ⟨hu, hbase⟩ => ?_))
    subst hu
    let location := env.locate base
    refine (Prog.yields_handle (Q := fun p v => v = u ∧
      p = u.resolve location.1 (location.2 ++ defaultInstanceParts))
      (resolve_yields (location.1, location.2 ++ defaultInstanceParts) u) fun e v => ?_).mono
      fun p v ⟨hv, hp⟩ => Prog.yields_ret ⟨hv, ?_⟩
    · exact Prog.yields_ite (fun _ => Prog.yields_raise) fun _ => Prog.yields_raise
    · simp only [candidateAt, hbase]
      rw [hp]
      rfl

/-! ## What is kept -/

theorem parentThere_reads (p : Path) : (parentThere p).Only OsOp.Reads := by
  refine Prog.Only.bind (((Prog.only_perform.mpr fun _ => id).bind fun _ => Prog.only_ret).handle fun e =>
    Prog.only_ret.ite (Prog.only_raise.ite Prog.only_raise)) fun found => ?_
  cases found with
  | none => exact Prog.only_ret
  | some info => exact Prog.Only.ite Prog.only_raise Prog.only_ret

theorem missingParents_reads (p : Path) : (missingParents p).Only OsOp.Reads := by
  induction p with
  | nil =>
    refine (parentThere_reads []).bind fun there => ?_
    split
    · exact Prog.only_ret
    · exact Prog.only_raise
  | cons n d ih =>
    exact (parentThere_reads (n :: d)).bind fun there =>
      Prog.Only.ite Prog.only_ret (ih.bind fun _ => Prog.only_ret)

theorem makeParent_keepsLinks (p : Path) : (makeParent p).Only KeepsLinks := by
  have hreads {β : Type} {op : OsOp β} (h : op.Reads) : (Prog.perform op : OsM β).Only KeepsLinks :=
    Prog.only_perform.mpr (keepsLinks_of_reads h)
  refine Prog.Only.bind (Prog.Only.handle (Prog.only_perform.mpr (mkdir_keepsLinks p _)) fun e => ?_)
    fun _ => hreads fun _ => id
  refine Prog.Only.ite (Prog.Only.bind ((hreads fun _ => id).handle fun e =>
    Prog.only_raise.ite Prog.only_raise) fun info => ?_) (Prog.only_raise.ite Prog.only_raise)
  exact Prog.Only.ite Prog.only_raise Prog.only_ret

theorem createDefaultInstance_keepsLinks (p : Path) :
    (createDefaultInstance p).Only KeepsLinks := by
  have hsync (p : Path) : (fsyncDirectory p).Only KeepsLinks :=
    Prog.only_perform.mpr (keepsLinks_of_reads fun _ => id)
  have hparents : (createDirectoryParents p.parent.parent).Only KeepsLinks :=
    ((missingParents_reads _).mono fun _ => keepsLinks_of_reads).bind fun missing =>
      Prog.only_forEach makeParent_keepsLinks _
  exact hparents.bind fun _ => (ensurePrivateDirectory_keepsLinks _).bind fun _ =>
    (hsync _).bind fun _ => (ensurePrivateDirectory_keepsLinks _).bind fun _ => hsync _

/-! ## What is returned -/

/-- What the checks of a returned directory say. -/
structure Checked (env : Environment) (applicationRoot : PurePath) (t : Tree) (resolved : Path)
    (u : Tree) : Prop where
  dots : ".." ∉ resolved
  directory : ∃ m, u.get resolved = some (.dir m)
  notApplication : resolved ≠ env.applicationAt applicationRoot t
  notBelow : ¬ env.applicationAt applicationRoot t <:+ resolved
  notAbove : ¬ resolved <:+ env.applicationAt applicationRoot t
  notRoot : resolved ≠ []
  notHome : resolved ≠ env.homeAt t

/-- The checks, on a tree with the links of the first. -/
theorem checks_yields {u : Tree} (hlinks : ∀ q, u.linkAt q = t.linkAt q) (l : Location) : (do
      let resolved ← tryCatch (Prog.perform (.resolveStrict l.1 l.2)) fun e =>
        if unresolved e then
          if requested = none then
            throw (.host (withCommandHint "default instance is not initialized" ["init"]))
          else throw (.host "instance directory does not exist or cannot be resolved")
        else throw e
      if isPrintable resolved.text = false then
        throw (.host "instance paths must contain only printable characters")
      let info ← tryCatch (Prog.perform (.lstat resolved)) fun e =>
        if e.isOSError then throw (.host "instance directory cannot be inspected") else throw e
      if info.kind ≠ .directory then throw (.host "instance path must resolve to a directory")
      let home := env.locate (PurePath.ofText env.pwDir)
      let home ← Prog.perform (.resolve home.1 home.2)
      if resolved = [] ∨ resolved = home then
        throw (.host "refusing to use a broad system or home directory as an instance")
      Prog.ofExcept (validateRootSeparation (env.applicationAt applicationRoot t) resolved)
      return resolved : OsM Path).Yields machine
        (fun p v => p = l.at t ∧ Checked env applicationRoot t p v) u := by
  have hsame (l : Location) : l.at u = l.at t := Tree.resolve_congr hlinks l.1 l.2
  have hnone {P : Path → Tree → Prop} {m : String} {f : Unit → OsM Path} :
      ((throw (.host m) : OsM Unit).bind f).Yields machine P u := Prog.yields_bind Prog.yields_raise
  refine Prog.yields_bind (Prog.Yields.mono (Prog.yields_handle (resolveStrict_yields l u) fun e v => ?_)
    fun resolved v ⟨hv, hresolved⟩ => ?_)
  · exact Prog.yields_ite (fun _ => Prog.yields_ite (fun _ => Prog.yields_raise) fun _ =>
      Prog.yields_raise) fun _ => Prog.yields_raise
  subst hv
  refine Prog.yields_ite (fun _ => hnone) fun _ => Prog.yields_bind (Prog.Yields.mono
    (Q := fun info w => w = v ∧ ∃ o, v.get resolved = some o ∧ info = statOf o)
    (Prog.yields_handle (Prog.yields_perform fun info w hstep => (Step.ok hstep).lstat) fun e w => ?_)
    fun info w ⟨hw, o, ho, hinfo⟩ => ?_)
  · exact Prog.yields_ite (fun _ => Prog.yields_raise) fun _ => Prog.yields_raise
  subst hw
  refine Prog.yields_ite (fun _ => hnone) fun hkind => Prog.yields_bind
    ((resolve_yields (env.locate (PurePath.ofText env.pwDir)) w).mono fun home v ⟨hv, hhome⟩ => ?_)
  subst hv
  refine Prog.yields_ite (fun _ => hnone) fun hbroad => Prog.yields_bind
    ((ofExcept_yields _ v).mono fun _ w ⟨hw, hseparate⟩ => Prog.yields_ret ?_)
  subst hw
  rw [validateRootSeparation, raiseIf_eq_ok] at hseparate
  obtain ⟨m, rfl⟩ := kind_statOf_directory.mp (hinfo ▸ of_not_not hkind)
  rw [hsame] at hresolved hhome
  refine ⟨hresolved, ?_, ⟨m, ho⟩, ?_, ?_, ?_, ?_, ?_⟩
  · exact hresolved ▸ Tree.dots_notMem_resolve l.1 l.2
  · exact fun h => hseparate (.inl h)
  · exact fun h => hseparate (.inr (.inl h))
  · exact fun h => hseparate (.inr (.inr h))
  · exact fun h => hbroad (.inl h)
  · exact fun h => hbroad (.inr (h.trans hhome.symm))

/-- A returned directory is where the request leads to and has been checked. -/
theorem resolveInstanceRoot_yields (t : Tree) :
    (resolveInstanceRoot env applicationRoot requested cwd createDefault).Yields machine
      (fun p u => targetAt env requested cwd t = some p ∧ Checked env applicationRoot t p u) t := by
  have hnone {P : Path → Tree → Prop} {m : String} {f : Unit → OsM Path} :
      ((throw (.host m) : OsM Unit).bind f).Yields machine P t := Prog.yields_bind Prog.yields_raise
  refine Prog.yields_bind ((resolveStrict_yields (env.locate applicationRoot) t).mono
    fun application u ⟨hu, happlication⟩ => ?_)
  subst hu happlication
  refine Prog.yields_ite (fun _ => hnone) fun _ => Prog.yields_ite (fun _ => hnone) fun _ =>
    Prog.yields_bind ((candidate_yields env requested cwd u).mono fun l v ⟨hv, hl⟩ => ?_)
  subst hv
  have htarget {p : Path} (hp : p = l.at v) : targetAt env requested cwd v = some p := by
    rw [targetAt, hl, hp]
    rfl
  refine Prog.yields_ite (fun _ => ?_) fun _ =>
    (checks_yields (fun _ => rfl) l).mono fun p w ⟨hp, hchecked⟩ => ⟨htarget hp, hchecked⟩
  refine Prog.yields_bind ((resolve_yields l v).mono fun prospective w ⟨hw, _⟩ => ?_)
  subst hw
  refine Prog.yields_bind ((ofExcept_yields _ w).mono fun _ v ⟨hv, _⟩ => ?_)
  subst hv
  refine Prog.yields_bind (((Prog.yields_trivial _ v).and_keeps
    (keeps_links (createDefaultInstance_keepsLinks prospective) v) fun _ => rfl).mono fun _ w hw => ?_)
  exact (checks_yields hw.2 l).mono fun p w ⟨hp, hchecked⟩ => ⟨htarget hp, hchecked⟩

/-- Without the default to create, nothing is done. -/
theorem resolveInstanceRoot_reads (h : requested ≠ none ∨ createDefault = false) :
    (resolveInstanceRoot env applicationRoot requested cwd createDefault).Only OsOp.Reads := by
  have hreads {β : Type} {op : OsOp β} (h : op.Reads) : (Prog.perform op : OsM β).Only OsOp.Reads :=
    Prog.only_perform.mpr h
  have hnone {m : String} {f : Unit → OsM Path} :
      ((throw (.host m) : OsM Unit).bind f).Only OsOp.Reads := Prog.only_raise
  refine (hreads fun _ => id).bind fun application => hnone.ite (hnone.ite (Prog.Only.bind ?_ fun l => ?_))
  · cases requested with
    | some requested => exact Prog.only_ret
    | none =>
      refine Prog.Only.bind ((Prog.only_ofExcept _).bind fun base => ?_) fun _ => Prog.only_ret
      exact (hreads fun _ => id).handle fun e => Prog.only_raise.ite Prog.only_raise
  · rw [if_neg fun hboth => h.elim (· hboth.1) fun hno => by rw [hno] at hboth; cases hboth.2]
    refine Prog.Only.bind ((hreads fun _ => id).handle fun e =>
      (Prog.only_raise.ite Prog.only_raise).ite Prog.only_raise) fun resolved => hnone.ite ?_
    refine Prog.Only.bind ((hreads fun _ => id).handle fun e => Prog.only_raise.ite Prog.only_raise)
      fun info => hnone.ite ((hreads fun _ => id).bind fun home => hnone.ite ?_)
    exact (Prog.only_ofExcept _).bind fun _ => Prog.only_ret

/-- A returned directory is dedicated, and nothing was done that was not asked for, exactly when the
request does not lead to a directory above the home directory. -/
theorem dedicated_iff {resolved : Path} {u : Tree} {es : List (Event OsOp Exn)}
    (h : (resolveInstanceRoot env applicationRoot requested cwd createDefault).Returns machine.traced
      (t, []) (.ok resolved) (u, es)) :
    Dedicated env applicationRoot t resolved u ∧
        (requested ≠ none ∨ createDefault = false → ∀ e ∈ es, e.op.Reads) ↔
      ¬ AboveHome env requested cwd t := by
  obtain ⟨htarget, hchecked⟩ :=
    ((resolveInstanceRoot_yields t).returns h.untraced : _ ∧ Checked _ _ _ _ _)
  constructor
  · rintro ⟨hdedicated, -⟩ ⟨p, hp, -, -, habove⟩
    obtain rfl := Option.some.inj (htarget.symm.trans hp)
    exact hdedicated.notAboveHome habove
  · intro hnot
    refine ⟨⟨Tree.resolveStrict_self hchecked.dots hchecked.directory, hchecked.directory,
      hchecked.notApplication, hchecked.notBelow, hchecked.notAbove, hchecked.notRoot,
      hchecked.notHome, fun habove => hnot ⟨resolved, htarget, hchecked.notRoot, hchecked.notHome, habove⟩⟩,
      fun hquiet => ?_⟩
    have hreads : (resolveInstanceRoot env applicationRoot requested cwd createDefault).Only
        OsOp.Reads := resolveInstanceRoot_reads hquiet
    exact (hreads.events (t, []) (List.forall_mem_nil _)).returns h

end

/-! ## The directory above the home directory -/

section

local instance : UnicodeDb := asciiDb

def exampleEnvironment : Environment where
  pwDir := "/home/user"

/-- The application, a home directory with a link in it, and a directory for the instance. -/
def exampleTree : Tree := .ofEntries
  [([], .dir 0o755), (["opt"], .dir 0o755), (["gate", "opt"], .dir 0o755), (["home"], .dir 0o755),
    (["user", "home"], .dir 0o700), (["gate", "user", "home"], .link "../../srv/gate"),
    (["srv"], .dir 0o755), (["gate", "srv"], .dir 0o700)] (by decide)

def exampleCall (requested : String) : OsM Path :=
  resolveInstanceRoot exampleEnvironment (PurePath.ofText "/opt/gate") (some requested)

/-- The link leads to a directory of its own. -/
theorem dedicated_link : ∃ u es,
    (exampleCall "/home/user/gate").Returns machine.traced (exampleTree, []) (.ok ["gate", "srv"])
      (u, es) ∧
    Dedicated exampleEnvironment (PurePath.ofText "/opt/gate") exampleTree ["gate", "srv"] u := by
  obtain ⟨r, u, hr, htest⟩ := Prog.exists_returns (s := exampleTree) (p := exampleCall "/home/user/gate")
    exampleHost.respond_answers 100 (fun r _ => r.toOption == some ["gate", "srv"])
    (by decide +kernel)
  match r with
  | .ok p =>
    obtain rfl : p = ["gate", "srv"] := Option.some.inj (beq_iff_eq.mp htest)
    obtain ⟨es, hes⟩ := (hr.mono reliable_refines).exists_trace []
    refine ⟨u, es, hes, ((dedicated_iff hes).mpr ?_).1⟩
    rintro ⟨q, hq, -, -, habove⟩
    have htarget : targetAt exampleEnvironment (some "/home/user/gate") none exampleTree =
        some ["gate", "srv"] := by decide +kernel
    obtain rfl := Option.some.inj (htarget.symm.trans hq)
    exact absurd habove (by decide +kernel)

/-- `/home` is accepted as an instance. -/
theorem homeParent_accepted : ∃ u es,
    (exampleCall "/home").Returns machine.traced (exampleTree, []) (.ok ["home"]) (u, es) ∧
    exampleEnvironment.homeAt exampleTree = ["user", "home"] ∧
    ¬ Dedicated exampleEnvironment (PurePath.ofText "/opt/gate") exampleTree ["home"] u := by
  obtain ⟨r, u, hr, htest⟩ := Prog.exists_returns (s := exampleTree) (p := exampleCall "/home")
    exampleHost.respond_answers 100 (fun r _ => r.toOption == some ["home"]) (by decide +kernel)
  match r with
  | .ok p =>
    obtain rfl : p = ["home"] := Option.some.inj (beq_iff_eq.mp htest)
    obtain ⟨es, hes⟩ := (hr.mono reliable_refines).exists_trace []
    have hhome : exampleEnvironment.homeAt exampleTree = ["user", "home"] := by decide +kernel
    refine ⟨u, es, hes, hhome, fun h => h.notAboveHome ?_⟩
    rw [hhome]
    decide

end

end Host
end ShuttleGate
