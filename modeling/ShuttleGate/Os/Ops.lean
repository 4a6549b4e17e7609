import ShuttleGate.Effect.Outcome
import ShuttleGate.Errors
import ShuttleGate.Crypto.Sha256
import ShuttleGate.Fs.Resolve

/-! # Operations on the host

The system calls the persistent state is written with, over a file-system tree. An operation has
its documented answer and effect, or raises without an effect; a process can end between any
two of them. -/

namespace ShuttleGate

open Fs Effect

namespace Os

inductive Kind
  | regular
  | directory
  | symlink
  | special
  deriving DecidableEq, Repr

/-- The part of `os.stat_result` the program looks at. -/
structure Stat where
  kind : Kind
  mode : Nat
  size : Nat
  deriving DecidableEq, Repr

def statOf : Obj → Stat
  | .file mode content => ⟨.regular, mode, content.length⟩
  | .dir mode => ⟨.directory, mode, 0⟩
  | .link target => ⟨.symlink, 0o777, target.utf8ByteSize⟩
  | .special => ⟨.special, 0o600, 0⟩

@[simp] theorem kind_statOf_regular : (statOf o).kind = .regular ↔ ∃ m c, o = .file m c := by
  cases o <;> simp [statOf]

@[simp] theorem kind_statOf_directory : (statOf o).kind = .directory ↔ ∃ m, o = .dir m := by
  cases o <;> simp [statOf]

@[simp] theorem kind_statOf_symlink : (statOf o).kind = .symlink ↔ ∃ s, o = .link s := by
  cases o <;> simp [statOf]

structure CommandResult where
  returncode : Int
  stdout : String
  stderr : String
  deriving DecidableEq

/-- The characters and the length `tempfile` chooses its names with. -/
def IsTempSuffix (s : String) : Prop :=
  s.length = 8 ∧ ∀ c ∈ s.toList, ('a' ≤ c ∧ c ≤ 'z') ∨ c.isDigit ∨ c = '_'

/-- `uuid.uuid4().hex` -/
def IsUuid (s : String) : Prop := s.length = 32 ∧ ∀ c ∈ s.toList, Crypto.Sha256.IsHex c

/-- The size of a key file. -/
def IsKey (content : Bytes) : Prop := 0 < content.length ∧ content.length ≤ 64 * 1024

inductive OsOp : Type → Type
  | lstat (p : Path) : OsOp Stat
  | readlink (p : Path) : OsOp String
  | listdir (p : Path) : OsOp (List String)
  /-- The content of a regular file. -/
  | read (p : Path) : OsOp Bytes
  /-- `Path.exists`, which follows a link. -/
  | pathExists (p : Path) : OsOp Bool
  /-- `Path.is_dir`, which follows a link. -/
  | isDir (p : Path) : OsOp Bool
  | mkdir (p : Path) (mode : Nat) : OsOp Unit
  /-- `tempfile.mkstemp(prefix=.., dir=..)`: the name of the new file. -/
  | mkstemp (d : Path) (pre : String) : OsOp String
  /-- `open(p, "wb")` -/
  | openWrite (p : Path) (mode : Nat) : OsOp Unit
  /-- `open(p, O_RDONLY | O_NOFOLLOW)`, and what it opened. -/
  | openRead (p : Path) : OsOp Stat
  /-- `open(p, O_RDWR | O_CREAT | O_NOFOLLOW, mode)`, and what it opened. -/
  | openCreate (p : Path) (mode : Nat) : OsOp Stat
  | write (p : Path) (content : Bytes) : OsOp Unit
  | chmod (p : Path) (mode : Nat) : OsOp Unit
  | symlink (target : String) (p : Path) : OsOp Unit
  | rename (src dst : Path) : OsOp Unit
  | unlink (p : Path) : OsOp Unit
  | rmdir (p : Path) : OsOp Unit
  | fsync (p : Path) : OsOp Unit
  /-- `fcntl.flock` on the open file `p`; other processes may hold the lock. -/
  | flock (p : Path) (exclusive blocking : Bool) : OsOp Unit
  | unlock (p : Path) : OsOp Unit
  | uuid : OsOp String
  /-- `os.urandom(16).hex()` -/
  | token : OsOp String
  /-- `(base / parts).resolve()` -/
  | resolve (base : Path) (parts : List String) : OsOp Path
  /-- `(base / parts).resolve(strict=True)` -/
  | resolveStrict (base : Path) (parts : List String) : OsOp Path
  /-- What `ssh-keygen` does first: the new private key, and what is to be its public key. -/
  | keygen (p : Path) (comment : String) : OsOp (Bytes × Bytes)
  | run (arguments : List String) (input : Option String) : OsOp CommandResult
  /-- A bound on the nesting of the tree, no operation of the program: how far its recursion over
  directories goes. -/
  | depth : OsOp Nat

/-- An `OSError` with its usual text. -/
def osError : Errno → Exn
  | .enoent => .os .enoent "[Errno 2] No such file or directory"
  | .eexist => .os .eexist "[Errno 17] File exists"
  | .enotdir => .os .enotdir "[Errno 20] Not a directory"
  | .eisdir => .os .eisdir "[Errno 21] Is a directory"
  | .enotempty => .os .enotempty "[Errno 39] Directory not empty"
  | .einval => .os .einval "[Errno 22] Invalid argument"
  | .eloop => .os .eloop "[Errno 40] Too many levels of symbolic links"
  | .eagain => .os .eagain "[Errno 11] Resource temporarily unavailable"
  | .other n => .os (.other n) s!"[Errno {n}]"

@[simp] theorem isOSError_osError (e : Errno) : (osError e).isOSError = true := by
  cases e <;> rfl

/-- An update of the tree with its error. -/
def Updates (result : Except Errno Tree) (a : α) (t : Tree) (r : Except Exn α) (t' : Tree) : Prop :=
  match result with
  | .ok new => r = .ok a ∧ t' = new
  | .error e => r = .error (osError e) ∧ t' = t

/-- The object a path leads to when its last component may be a relative link. -/
def follow (t : Tree) (p : Path) : Option Obj :=
  match t.get p with
  | some (.link target) =>
    let target := PurePath.ofText target
    if target.isAbsolute then none else t.get (p.parent.join target.parts)
  | o => o

/-- The documented answer and effect of an operation. -/
def Answers : {β : Type} → OsOp β → Tree → Except Exn β → Tree → Prop
  | _, .lstat p, t, r, t' => t' = t ∧ match t.get p with
    | some o => r = .ok (statOf o)
    | none => r = .error (osError .enoent)
  | _, .readlink p, t, r, t' => t' = t ∧ match t.get p with
    | some (.link target) => r = .ok target
    | some _ => r = .error (osError .einval)
    | none => r = .error (osError .enoent)
  | _, .listdir p, t, r, t' => t' = t ∧ match t.get p with
    | some (.dir _) => ∃ names, r = .ok names ∧ names.Perm (t.names p)
    | some _ => r = .error (osError .enotdir)
    | none => r = .error (osError .enoent)
  | _, .read p, t, r, t' => t' = t ∧ match t.get p with
    | some (.file _ content) => r = .ok content
    | some (.dir _) => r = .error (osError .eisdir)
    | some _ => r = .error (osError .eloop)
    | none => r = .error (osError .enoent)
  | _, .pathExists p, t, r, t' => t' = t ∧ r = .ok (follow t p).isSome
  | _, .isDir p, t, r, t' => t' = t ∧ r = .ok ((follow t p).any Obj.isDir)
  | _, .mkdir p mode, t, r, t' => Updates (t.add p (.dir mode)) () t r t'
  | _, .mkstemp d pre, t, r, t' => ∃ suffix, IsTempSuffix suffix ∧
    t.get (d / (pre ++ suffix)) = none ∧
    Updates (t.add (d / (pre ++ suffix)) (.file 0o600 [])) (pre ++ suffix) t r t'
  | _, .openWrite p mode, t, r, t' => Updates
    (if t.get p = none then t.add p (.file mode []) else t.write p []) () t r t'
  | _, .openRead p, t, r, t' => t' = t ∧ match t.get p with
    | some (.link _) => r = .error (osError .eloop)
    | some o => r = .ok (statOf o)
    | none => r = .error (osError .enoent)
  | _, .openCreate p mode, t, r, t' => match t.get p with
    | none => Updates (t.add p (.file mode [])) (statOf (.file mode [])) t r t'
    | some (.link _) => t' = t ∧ r = .error (osError .eloop)
    | some (.dir _) => t' = t ∧ r = .error (osError .eisdir)
    | some o => t' = t ∧ r = .ok (statOf o)
  | _, .write p content, t, r, t' => Updates (t.write p content) () t r t'
  | _, .chmod p mode, t, r, t' => Updates (t.chmod p mode) () t r t'
  | _, .symlink target p, t, r, t' => Updates (t.add p (.link target)) () t r t'
  | _, .rename src dst, t, r, t' => Updates (t.rename src dst) () t r t'
  | _, .unlink p, t, r, t' => Updates (t.unlink p) () t r t'
  | _, .rmdir p, t, r, t' => Updates (t.rmdir p) () t r t'
  | _, .fsync p, t, r, t' => t' = t ∧ if t.get p = none then r = .error (osError .enoent)
    else r = .ok ()
  | _, .flock _ _ blocking, t, r, t' =>
    t' = t ∧ (r = .ok () ∨ blocking = false ∧ r = .error (osError .eagain))
  | _, .unlock _, t, r, t' => t' = t ∧ r = .ok ()
  -- a new identifier occurs in no name
  | _, .uuid, t, r, t' => t' = t ∧ ∃ s, r = .ok s ∧ IsUuid s ∧
    ∀ p, t.get p ≠ none → ∀ n ∈ p, ¬ s.toList <:+: n.toList
  | _, .token, t, r, t' => t' = t ∧ ∃ s, r = .ok s ∧ IsUuid s
  | _, .resolve base parts, t, r, t' => t' = t ∧ r = .ok (t.resolve base parts)
  | _, .resolveStrict base parts, t, r, t' => t' = t ∧ match t.resolveStrict base parts with
    | .ok p => r = .ok p
    | .error e => r = .error (osError e)
  | _, .keygen p _, t, r, t' => ∃ pair : Bytes × Bytes, IsKey pair.1 ∧ IsKey pair.2 ∧
    Updates (t.add p (.file 0o600 pair.1)) pair t r t'
  | _, .run _ _, t, r, t' => t' = t ∧ ∃ result, r = .ok result
  | _, .depth, t, r, t' => t' = t ∧ r = .ok t.depth

/-- The failures without an effect: `Path.exists`, `Path.is_dir` and `Path.resolve` do not raise, and
a file is reported missing only where it is. -/
def OsOp.CanRaise : OsOp β → Exn → Prop
  | pathExists _, _ | isDir _, _ | resolve _ _, _ => False
  | run _ _, _ => True
  | _, e => e.isFileNotFound = false

/-- One step: the documented answer, or an exception without an effect. -/
inductive Step : {β : Type} → OsOp β → Tree → Except Exn β → Tree → Prop
  | answered {op : OsOp β} (h : Answers op t r t') : Step op t r t'
  | raised {op : OsOp β} (h : op.CanRaise e) : Step op t (.error e) t

/-- The machine on which anything may fail. -/
def machine : Machine OsOp Exn Tree := ⟨Step⟩

/-- The machine on which every operation has its documented answer. -/
def reliable : Machine OsOp Exn Tree := ⟨Answers⟩

abbrev OsM := Prog OsOp Exn

/-! ## What a value tells -/

theorem Step.ok {op : OsOp β} (h : machine.step op t (.ok a) t') : Answers op t (.ok a) t' := by
  cases h
  assumption

/-- A missing file is reported as documented. -/
theorem Step.missing {p : Path} (h : machine.step (.lstat p) t (.error e) t')
    (he : e.isFileNotFound = true) : t' = t ∧ t.get p = none := by
  cases h with
  | raised h => cases he.symm.trans h
  | answered h =>
    obtain ⟨rfl, h⟩ := h
    split at h
    · cases h
    · exact ⟨rfl, ‹_›⟩

theorem Updates.cases {result : Except Errno Tree} {a : α} (h : Updates result a t r t') :
    (result = .ok t' ∧ r = .ok a) ∨ ∃ e, result = .error e ∧ r = .error (osError e) ∧ t' = t := by
  cases result with
  | ok new => exact .inl ⟨congrArg _ h.2.symm, h.1⟩
  | error e => exact .inr ⟨e, rfl, h⟩

/-- An operation that raises has no effect. -/
theorem Step.failed {op : OsOp β} (h : machine.step op t (.error e) t') : t' = t := by
  have update {result : Except Errno Tree} {α : Type} {a : α}
      (h : Updates result a t (.error e) t') : t' = t := by
    rcases h.cases with ⟨-, hr⟩ | ⟨_, -, -, h⟩
    · cases hr
    · exact h
  cases h with
  | raised _ => rfl
  | answered h =>
    cases op with
    | mkdir p mode | write p content | chmod p mode | symlink target p | rename src dst | unlink p
    | rmdir p | openWrite p mode => exact update h
    | mkstemp d pre | keygen d pre =>
      obtain ⟨_, -, -, h⟩ := h
      exact update h
    | openCreate p mode =>
      simp only [Answers] at h
      split at h
      · exact update h
      all_goals exact h.1
    | _ => exact h.1

theorem Updates.ok {result : Except Errno Tree} {a b : α} (h : Updates result a t (.ok b) t') :
    result = .ok t' ∧ a = b := by
  rcases h.cases with ⟨h, hr⟩ | ⟨_, -, hr, -⟩
  · exact ⟨h, (Except.ok.inj hr).symm⟩
  · cases hr

namespace Answers

theorem lstat (h : Answers (.lstat p) t (.ok st) t') :
    t' = t ∧ ∃ o, t.get p = some o ∧ st = statOf o := by
  obtain ⟨rfl, h⟩ := h
  split at h
  · rename_i o ho
    exact ⟨rfl, o, ho, Except.ok.inj h⟩
  · cases h

theorem readlink (h : Answers (.readlink p) t (.ok target) t') :
    t' = t ∧ t.get p = some (.link target) := by
  obtain ⟨rfl, h⟩ := h
  split at h
  · rename_i s hs
    cases h
    exact ⟨rfl, hs⟩
  all_goals cases h

theorem listdir (h : Answers (.listdir p) t (.ok names) t') :
    t' = t ∧ (∃ m, t.get p = some (.dir m)) ∧ names.Perm (t.names p) := by
  obtain ⟨rfl, h⟩ := h
  split at h
  · rename_i m hm
    obtain ⟨_, h, hperm⟩ := h
    cases h
    exact ⟨rfl, ⟨m, hm⟩, hperm⟩
  all_goals cases h

theorem read (h : Answers (.read p) t (.ok content) t') :
    t' = t ∧ ∃ m, t.get p = some (.file m content) := by
  obtain ⟨rfl, h⟩ := h
  split at h
  · rename_i m c hc
    cases h
    exact ⟨rfl, m, hc⟩
  all_goals cases h

theorem mkdir (h : Answers (.mkdir p mode) t (.ok ()) t') : t.get p = none ∧
    ∀ q, t'.get q = if q = p then some (.dir mode) else t.get q :=
  let h := Tree.add_eq_ok (Updates.ok h).1
  ⟨h.1, h.2.2⟩

theorem mkstemp (h : Answers (.mkstemp d pre) t (.ok name) t') :
    ∃ suffix, IsTempSuffix suffix ∧ name = pre ++ suffix ∧ t.get (d / name) = none ∧
      ∀ q, t'.get q = if q = d / name then some (.file 0o600 []) else t.get q := by
  obtain ⟨suffix, hs, hnone, h⟩ := h
  obtain ⟨hadd, rfl⟩ := Updates.ok h
  exact ⟨suffix, hs, rfl, hnone, (Tree.add_eq_ok hadd).2.2⟩

theorem openRead (h : Answers (.openRead p) t (.ok st) t') :
    t' = t ∧ ∃ o, t.get p = some o ∧ st = statOf o := by
  obtain ⟨rfl, h⟩ := h
  split at h
  · cases h
  · rename_i o _ ho
    exact ⟨rfl, o, ho, Except.ok.inj h⟩
  · cases h

theorem write (h : Answers (.write p content) t (.ok ()) t') :
    ∃ mode old, t.get p = some (.file mode old) ∧
      ∀ q, t'.get q = if q = p then some (.file mode content) else t.get q :=
  Tree.write_eq_ok (Updates.ok h).1

theorem chmod (h : Answers (.chmod p mode) t (.ok ()) t') :
    (∃ m content, t.get p = some (.file m content) ∧
        ∀ q, t'.get q = if q = p then some (.file mode content) else t.get q) ∨
      ∃ m, t.get p = some (.dir m) ∧
        ∀ q, t'.get q = if q = p then some (.dir mode) else t.get q :=
  Tree.chmod_eq_ok (Updates.ok h).1

theorem symlink (h : Answers (.symlink target p) t (.ok ()) t') : t.get p = none ∧
    ∀ q, t'.get q = if q = p then some (.link target) else t.get q :=
  let h := Tree.add_eq_ok (Updates.ok h).1
  ⟨h.1, h.2.2⟩

theorem unlink (h : Answers (.unlink p) t (.ok ()) t') :
    (∃ o, t.get p = some o ∧ o.isDir = false) ∧
      ∀ q, t'.get q = if q = p then none else t.get q :=
  Tree.unlink_eq_ok (Updates.ok h).1

theorem rmdir (h : Answers (.rmdir p) t (.ok ()) t') :
    (∃ m, t.get p = some (.dir m)) ∧ (∀ n, t.get (n :: p) = none) ∧
      ∀ q, t'.get q = if q = p then none else t.get q :=
  Tree.rmdir_eq_ok (Updates.ok h).1

theorem rename (h : Answers (.rename src dst) t (.ok ()) t') (hne : src ≠ dst) :
    (∃ o, t.get src = some o) ∧ ¬ src <:+ dst ∧ (∀ n, t.get (n :: dst) = none) ∧
      (∀ l, t'.get (l ++ dst) = t.get (l ++ src)) ∧ (∀ q, src <:+ q → t'.get q = none) ∧
      ∀ q, ¬ dst <:+ q → ¬ src <:+ q → t'.get q = t.get q :=
  Tree.rename_eq_ok (Updates.ok h).1 hne

end Answers

/-! ## When an operation succeeds -/

theorem Updates.isOk {result : Except Errno Tree} {a : α} (hr : ∃ t₁, result = .ok t₁)
    (h : Updates result a t r t') : r = .ok a := by
  obtain ⟨t₁, rfl⟩ := hr
  exact h.1

/-- Where an operation has its documented answer, what a value tells is known. -/
theorem succeeds_answers (op : OsOp β) (h : ∀ r t', Answers op t r t' → ∃ a, r = .ok a) :
    (Prog.perform op : OsM β).Succeeds reliable (fun a t' => Answers op t (.ok a) t') t :=
  Prog.succeeds_perform fun r t' hs => by
    obtain ⟨a, rfl⟩ := h r t' hs
    exact ⟨a, rfl, hs⟩

theorem reliable_refines : reliable.Refines machine := fun _ _ _ _ => .answered

/-- What holds whatever may fail holds where nothing does. -/
theorem reliable_of_machine {p : OsM α} {I : Tree → Prop} {Q : Except Exn α → Tree → Prop}
    (h : p.wp machine I Q t) : p.wp reliable I Q t :=
  h.machine_mono reliable_refines

section
variable {t : Tree}

theorem lstat_succeeds (h : t.get p = some o) : (Prog.perform (.lstat p) : OsM Stat).Succeeds
    reliable (fun st t' => t' = t ∧ st = statOf o) t :=
  Prog.succeeds_perform fun r t' ⟨ht, hr⟩ => ⟨statOf o, by simpa [h] using hr, ht, rfl⟩

theorem readlink_succeeds (h : t.get p = some (.link target)) :
    (Prog.perform (.readlink p) : OsM String).Succeeds reliable
      (fun s t' => t' = t ∧ s = target) t :=
  Prog.succeeds_perform fun r t' ⟨ht, hr⟩ => ⟨target, by simpa [h] using hr, ht, rfl⟩

theorem listdir_succeeds (h : t.get p = some (.dir m)) :
    (Prog.perform (.listdir p) : OsM (List String)).Succeeds reliable
      (fun names t' => t' = t ∧ names.Perm (t.names p)) t :=
  Prog.succeeds_perform fun r t' ⟨ht, hr⟩ => by
    simp only [h] at hr
    obtain ⟨names, hr, hperm⟩ := hr
    exact ⟨names, hr, ht, hperm⟩

theorem read_succeeds (h : t.get p = some (.file m content)) :
    (Prog.perform (.read p) : OsM Bytes).Succeeds reliable
      (fun c t' => t' = t ∧ c = content) t :=
  Prog.succeeds_perform fun r t' ⟨ht, hr⟩ => ⟨content, by simpa [h] using hr, ht, rfl⟩

theorem openRead_succeeds (h : t.get p = some o) (ho : ∀ s, o ≠ .link s) :
    (Prog.perform (.openRead p) : OsM Stat).Succeeds reliable
      (fun st t' => t' = t ∧ st = statOf o) t :=
  Prog.succeeds_perform fun r t' ⟨ht, hr⟩ => ⟨statOf o, by
    cases o <;> simp_all, ht, rfl⟩

theorem fsync_succeeds (h : t.get p ≠ none) : (Prog.perform (.fsync p) : OsM Unit).Succeeds
    reliable (fun _ t' => t' = t) t :=
  Prog.succeeds_perform fun r t' ⟨ht, hr⟩ => ⟨(), by simpa [h] using hr, ht⟩

theorem mkdir_succeeds (h : t.get p = none)
    (hp : ∀ n d, p = n :: d → ∃ m, t.get d = some (.dir m)) :
    (Prog.perform (.mkdir p mode) : OsM Unit).Succeeds reliable
      (fun _ t' => ∀ q, t'.get q = if q = p then some (.dir mode) else t.get q) t :=
  (succeeds_answers (.mkdir p mode) fun _ _ ha => ⟨(), Updates.isOk (Tree.add_succeeds h hp) ha⟩).mono
    fun _ _ ha => ha.mkdir.2

theorem symlink_succeeds (h : t.get p = none)
    (hp : ∀ n d, p = n :: d → ∃ m, t.get d = some (.dir m)) :
    (Prog.perform (.symlink target p) : OsM Unit).Succeeds reliable
      (fun _ t' => ∀ q, t'.get q = if q = p then some (.link target) else t.get q) t :=
  (succeeds_answers (.symlink target p) fun _ _ ha => ⟨(), Updates.isOk (Tree.add_succeeds h hp) ha⟩).mono
    fun _ _ ha => ha.symlink.2

theorem mkstemp_succeeds (h : t.get d = some (.dir m)) :
    (Prog.perform (.mkstemp d pre) : OsM String).Succeeds reliable
      (fun name t' => ∃ suffix, IsTempSuffix suffix ∧ name = pre ++ suffix ∧
        t.get (d / name) = none ∧
        ∀ q, t'.get q = if q = d / name then some (.file 0o600 []) else t.get q) t :=
  (succeeds_answers (.mkstemp d pre) fun _ _ ⟨suffix, _, hnone, hu⟩ => ⟨pre ++ suffix,
    Updates.isOk (Tree.add_succeeds hnone fun _ _ he => ⟨m, (List.cons.inj he).2 ▸ h⟩) hu⟩).mono
    fun _ _ ha => ha.mkstemp

theorem write_succeeds (h : t.get p = some (.file m old)) :
    (Prog.perform (.write p content) : OsM Unit).Succeeds reliable
      (fun _ t' => ∀ q, t'.get q = if q = p then some (.file m content) else t.get q) t :=
  (succeeds_answers (.write p content) fun _ _ ha => ⟨(), Updates.isOk (Tree.write_succeeds h) ha⟩).mono
    fun _ _ ha => by
      obtain ⟨m', old', h', hget⟩ := ha.write
      cases h.symm.trans h'
      exact hget

theorem chmod_file_succeeds (h : t.get p = some (.file m content)) :
    (Prog.perform (.chmod p mode) : OsM Unit).Succeeds reliable
      (fun _ t' => ∀ q, t'.get q = if q = p then some (.file mode content) else t.get q) t :=
  (succeeds_answers (.chmod p mode) fun _ _ ha =>
    ⟨(), Updates.isOk (Tree.chmod_succeeds h (.inl ⟨_, _, rfl⟩)) ha⟩).mono
    fun _ _ ha => by
      rcases ha.chmod with ⟨_, _, h', hget⟩ | ⟨_, h', -⟩ <;> cases h.symm.trans h'
      exact hget

theorem chmod_dir_succeeds (h : t.get p = some (.dir m)) :
    (Prog.perform (.chmod p mode) : OsM Unit).Succeeds reliable
      (fun _ t' => ∀ q, t'.get q = if q = p then some (.dir mode) else t.get q) t :=
  (succeeds_answers (.chmod p mode) fun _ _ ha =>
    ⟨(), Updates.isOk (Tree.chmod_succeeds h (.inr ⟨_, rfl⟩)) ha⟩).mono
    fun _ _ ha => by
      rcases ha.chmod with ⟨_, _, h', -⟩ | ⟨_, h', hget⟩ <;> cases h.symm.trans h'
      exact hget

theorem unlink_succeeds (h : t.get p = some o) (ho : o.isDir = false) :
    (Prog.perform (.unlink p) : OsM Unit).Succeeds reliable
      (fun _ t' => ∀ q, t'.get q = if q = p then none else t.get q) t :=
  (succeeds_answers (.unlink p) fun _ _ ha => ⟨(), Updates.isOk (Tree.unlink_succeeds h ho) ha⟩).mono
    fun _ _ ha => ha.unlink.2

theorem rmdir_succeeds (h : t.get p = some (.dir m)) (hc : ∀ n, t.get (n :: p) = none) :
    (Prog.perform (.rmdir p) : OsM Unit).Succeeds reliable
      (fun _ t' => ∀ q, t'.get q = if q = p then none else t.get q) t :=
  (succeeds_answers (.rmdir p) fun _ _ ha => ⟨(), Updates.isOk (Tree.rmdir_succeeds h hc) ha⟩).mono
    fun _ _ ha => ha.rmdir.2.2

theorem openWrite_succeeds (h : t.get p = none)
    (hp : ∀ n d, p = n :: d → ∃ m, t.get d = some (.dir m)) :
    (Prog.perform (.openWrite p mode) : OsM Unit).Succeeds reliable
      (fun _ t' => ∀ q, t'.get q = if q = p then some (.file mode []) else t.get q) t :=
  Prog.succeeds_perform fun r t' ha => by
    simp only [reliable, Answers, if_pos h] at ha
    have hr := Updates.isOk (Tree.add_succeeds h hp) ha
    subst hr
    exact ⟨(), rfl, (Tree.add_eq_ok (Updates.ok ha).1).2.2⟩

theorem rename_succeeds (hsrc : t.get src = some o) (hs : ¬ src <:+ dst)
    (hp : ∀ n d, dst = n :: d → ∃ m, t.get d = some (.dir m))
    (hr : t.checkReplace o dst = .ok ()) :
    (Prog.perform (.rename src dst) : OsM Unit).Succeeds reliable
      (fun _ t' => (∀ l, t'.get (l ++ dst) = t.get (l ++ src)) ∧
        (∀ q, src <:+ q → t'.get q = none) ∧
        ∀ q, ¬ dst <:+ q → ¬ src <:+ q → t'.get q = t.get q) t :=
  (succeeds_answers (.rename src dst) fun _ _ ha =>
    ⟨(), Updates.isOk (Tree.rename_succeeds hsrc hs hp hr) ha⟩).mono fun _ _ ha =>
      (ha.rename fun he => hs (he ▸ List.suffix_rfl)).2.2.2

end

/-! ## What an operation touches -/

/-- The paths an operation may put another object at. -/
def OsOp.touches : OsOp β → Path → Prop
  | mkdir p _, q | openWrite p _, q | openCreate p _, q | write p _, q | chmod p _, q
  | symlink _ p, q | unlink p, q | rmdir p, q | keygen p _, q => q = p
  | mkstemp d pre, q => ∃ suffix, IsTempSuffix suffix ∧ q = d / (pre ++ suffix)
  | rename src dst, q => src <:+ q ∨ dst <:+ q
  | _, _ => False

/-- An answered operation leaves alone what it does not touch. -/
theorem Answers.frame {op : OsOp β} (h : Answers op t r t') (hq : ¬ op.touches q) :
    t'.get q = t.get q := by
  have update {result : Except Errno Tree} {α : Type} {a : α} {r : Except Exn α}
      (h : Updates result a t r t') (hget : ∀ t', result = .ok t' → t'.get q = t.get q) :
      t'.get q = t.get q := by
    rcases h.cases with ⟨h, -⟩ | ⟨e, -, -, rfl⟩
    · exact hget t' h
    · rfl
  cases op with
  | mkdir p mode | symlink target p =>
    exact update h fun t' h => ((Tree.add_eq_ok h).2.2 q).trans (if_neg hq)
  | mkstemp d pre =>
    obtain ⟨suffix, hs, -, h⟩ := h
    exact update h fun t' h => ((Tree.add_eq_ok h).2.2 q).trans (if_neg fun he => hq ⟨suffix, hs, he⟩)
  | keygen p comment =>
    obtain ⟨_, -, -, h⟩ := h
    exact update h fun t' h => ((Tree.add_eq_ok h).2.2 q).trans (if_neg hq)
  | openWrite p mode =>
    refine update h fun t' h => ?_
    split at h
    · exact ((Tree.add_eq_ok h).2.2 q).trans (if_neg hq)
    · obtain ⟨_, _, -, h⟩ := Tree.write_eq_ok h
      exact (h q).trans (if_neg hq)
  | openCreate p mode =>
    simp only [Answers] at h
    split at h
    · exact update h fun t' h => ((Tree.add_eq_ok h).2.2 q).trans (if_neg hq)
    all_goals exact congrArg (Fs.Tree.get · q) h.1
  | write p content =>
    refine update h fun t' h => ?_
    obtain ⟨_, _, -, h⟩ := Tree.write_eq_ok h
    exact (h q).trans (if_neg hq)
  | chmod p mode =>
    refine update h fun t' h => ?_
    rcases Tree.chmod_eq_ok h with ⟨_, _, -, h⟩ | ⟨_, -, h⟩ <;> exact (h q).trans (if_neg hq)
  | unlink p => exact update h fun t' h => ((Tree.unlink_eq_ok h).2 q).trans (if_neg hq)
  | rmdir p => exact update h fun t' h => ((Tree.rmdir_eq_ok h).2.2 q).trans (if_neg hq)
  | rename src dst =>
    refine update h fun t' h => ?_
    by_cases hne : src = dst
    · subst hne
      unfold Tree.rename at h
      split at h
      · cases h
      · rw [if_pos rfl] at h
        cases h
        rfl
    · exact (Tree.rename_eq_ok h hne).2.2.2.2.2 q (fun hd => hq (.inr hd)) fun hs => hq (.inl hs)
  | _ => exact congrArg (Fs.Tree.get · q) h.1

theorem Step.frame {op : OsOp β} (h : Step op t r t') (hq : ¬ op.touches q) :
    t'.get q = t.get q := by
  cases h with
  | answered h => exact h.frame hq
  | raised _ => rfl

/-- The operation leaves the paths of `R` alone. -/
def Avoids (R : Path → Prop) (op : OsOp β) : Prop := ∀ q, R q → ¬ op.touches q

/-- A program that leaves the paths of `R` alone keeps what is there. -/
theorem keeps_of_avoids {R : Path → Prop} {p : OsM α} (h : p.Only (Avoids R)) (t₀ : Tree) :
    p.Keeps machine fun t => ∀ q, R q → t.get q = t₀.get q :=
  h.keeps fun _ _ _ _ hop hs hstep q hq => (Step.frame hstep (hop q hq)).trans (hs q hq)

/-- An operation that only looks. -/
def OsOp.Reads (op : OsOp β) : Prop := ∀ q, ¬ op.touches q

theorem OsOp.Reads.avoids {op : OsOp β} (h : op.Reads) : Avoids R op := fun q _ => h q

/-- An operation at or below a path leaves alone what is elsewhere. -/
def Below (p : Path) (op : OsOp β) : Prop := ∀ q, op.touches q → p <:+ q

theorem Below.avoids {op : OsOp β} (h : Below p op) (hR : ∀ q, R q → ¬ p <:+ q) : Avoids R op :=
  fun q hq ht => hR q hq (h q ht)

theorem OsOp.Reads.below {op : OsOp β} (h : op.Reads) : Below p op := fun q ht => absurd ht (h q)

/-- An operation below a child is below the directory. -/
theorem Below.parent {op : OsOp β} (h : Below (n :: p) op) : Below p op :=
  fun q ht => (List.suffix_cons n p).trans (h q ht)

/-- An operation that only looks leaves the tree as it is. -/
theorem OsOp.Reads.step {op : OsOp β} (hop : op.Reads) (h : Step op t r t') : t' = t := by
  cases h with
  | raised _ => rfl
  | answered h =>
    cases op with
    | mkdir p _ | openWrite p _ | openCreate p _ | write p _ | chmod p _ | symlink _ p | unlink p
    | rmdir p | keygen p _ => exact absurd rfl (hop p)
    | mkstemp d pre =>
      obtain ⟨suffix, hs, -⟩ := h
      exact absurd ⟨suffix, hs, rfl⟩ (hop (d / (pre ++ suffix)))
    | rename src dst => exact absurd (.inl List.suffix_rfl) (hop src)
    | _ => exact h.1

/-- A program that only looks leaves the tree as it is. -/
theorem keeps_of_reads {p : OsM α} (h : p.Only OsOp.Reads) (t₀ : Tree) :
    p.Keeps machine fun t => t = t₀ :=
  h.keeps fun _ _ _ _ hop hs hstep => (hop.step hstep).trans hs

/-- A program that only looks, and what it tells. -/
theorem wp_bind_reads {p : OsM α} {f : α → OsM β} {I : Tree → Prop} {R : α → Prop}
    {Q : Except Exn β → Tree → Prop} (hp : p.Only OsOp.Reads)
    (h : p.Yields machine (fun a u => u = t ∧ R a) t) (hI : I t) (herror : ∀ e, Q (.error e) t)
    (hf : ∀ a, R a → (f a).wp machine I Q t) : (p.bind f).wp machine I Q t :=
  Prog.wp_bind_keeps (keeps_of_reads hp t) h rfl (fun _ hu => hu ▸ hI) (fun e _ hu => hu ▸ herror e)
    fun a u hu ha => by
      subst hu
      exact hf a ha.2

/-- `mkdir` of a path that may already be there. -/
def OsOp.makes : OsOp β → Path → Prop
  | mkdir p _, q => q = p
  | _, _ => False

/-- An operation within `W`, or one that makes an ancestor of `d`. -/
def Within (W : Path → Prop) (d : Path) (op : OsOp β) : Prop :=
  ∀ q, op.touches q → W q ∨ op.makes q ∧ q <:+ d

theorem Within.mono {W W' : Path → Prop} {op : OsOp β} (h : Within W d op) (hW : ∀ q, W q → W' q) :
    Within W' d op :=
  fun q hq => (h q hq).imp_left (hW q)

theorem OsOp.Reads.within {op : OsOp β} (h : op.Reads) : Within W d op := fun q ht => absurd ht (h q)

theorem Below.within {W : Path → Prop} {op : OsOp β} (h : Below p op) (hW : ∀ q, p <:+ q → W q) :
    Within W d op :=
  fun q ht => .inl (hW q (h q ht))

/-- Making a directory leaves what is there. -/
theorem Step.makes {op : OsOp β} (h : Step op t r t') (hm : op.makes q) (hq : t.get q ≠ none) :
    t'.get q = t.get q := by
  cases h with
  | raised _ => rfl
  | answered h =>
    cases op with
    | mkdir p mode =>
      obtain rfl : q = p := hm
      rcases Updates.cases h with ⟨h, -⟩ | ⟨_, -, -, rfl⟩
      · exact absurd (Tree.add_eq_ok h).1 hq
      · rfl
    | _ => exact hm.elim

/-- A program within `W` leaves everything else alone, where `W` has all that it may make. -/
theorem keeps_outside {W : Path → Prop} {p : OsM α} (h : p.Only (Within W d))
    (hd : ∀ q, q <:+ d → W q) (t₀ : Tree) :
    p.Keeps machine fun t => ∀ q, ¬ W q → t.get q = t₀.get q :=
  keeps_of_avoids (h.mono fun _ hop q hq ht => hq ((hop q ht).elim id fun hm => hd q hm.2)) t₀

/-- A program within `W` leaves everything else alone, where `d` is a directory outside of `W`. -/
theorem keeps_of_within {W : Path → Prop} {p : OsM α} (h : p.Only (Within W d)) {t₀ : Tree}
    (hd : t₀.get d ≠ none) :
    p.Keeps machine fun t => ∀ q, ¬ W q → t.get q = t₀.get q := by
  refine h.keeps fun op t r t' hop hs hstep q hq => ?_
  by_cases ht : op.touches q
  · obtain ⟨hm, l, rfl⟩ := (hop q ht).resolve_left hq
    have hthere : t₀.get q ≠ none := fun hn => hd (Tree.get_below_eq_none hn l)
    exact (hstep.makes hm (hs q hq ▸ hthere)).trans (hs q hq)
  · exact (hstep.frame ht).trans (hs q hq)

end Os
end ShuttleGate
