import ShuttleGate.Os.Look
import ShuttleGate.State.Reading
import Mathlib.Data.String.Basic

/-! # Checks of single files

What the readers of secrets and inputs require of a file before they use it, and the text they
make of its bytes. -/

namespace ShuttleGate

open Fs Effect Os State

namespace Files

/-- `stat.S_IMODE(mode) & 0o077` -/
def openToOthers (mode : Nat) : Bool := mode &&& 0o077 ≠ 0

/-- `path.stat(follow_symlinks=False)` of a file that has to be there. -/
def statRequired (p : Path) (label : String) : OsM Stat :=
  tryCatch (Prog.perform (.lstat p)) fun e =>
    if e.isFileNotFound then throw (.configuration s!"{label} does not exist: {p.text}") else throw e

/-- `require_regular_file` -/
def requireRegularFile (p : Path) (label : String) : OsM Unit := do
  let st ← statRequired p label
  if st.kind ≠ .regular then
    throw (.configuration s!"{label} must be a regular non-symlink file: {p.text}")

/-- `require_private_file` -/
def requirePrivateFile (p : Path) (label : String) : OsM Unit := do
  let st ← statRequired p label
  if st.kind ≠ .regular then
    throw (.configuration s!"{label} must be a regular non-symlink file: {p.text}")
  if openToOthers st.mode then
    throw (.configuration
      s!"{label} permissions must not allow group or other access: {p.text}")

/-- `path.read_text(encoding="ascii")` -/
def readAscii (p : Path) : OsM String := do
  let content ← Prog.perform (.read p)
  if content.all fun b => decide (b.toNat < 128) then
    return .ofList (universalNewlines (asciiChars content))
  else throw (.error "UnicodeDecodeError")

/-- `except (OSError, UnicodeError)` -/
def isTextError (e : Exn) : Bool := e.isOSError || e = .error "UnicodeDecodeError"

/-- The line of a small file. The file is known to be regular: `path.stat()` has nothing to
follow. -/
def readLine (p : Path) (label : String) : OsM String :=
  tryCatch (do
      let st ← Prog.perform (.lstat p)
      if st.size > 4096 then
        throw (.state s!"{label} is unexpectedly large")
      return strip (← readAscii p)) fun e =>
    if isTextError e then throw (.state s!"cannot read {label}: {e.message}") else throw e

/-- `read_text_secret` -/
def readTextSecret (p : Path) (label : String) : OsM String := do
  requirePrivateFile p label
  let value ← readLine p label
  if value = "" ∨ '\n' ∈ value.toList ∨ '\r' ∈ value.toList then
    throw (.state s!"{label} must contain exactly one non-empty line")
  return value

/-- `path.is_file()`, which follows a link as `follow` does and answers `False` to any `OSError`. -/
def isFile (p : Path) : OsM Bool :=
  tryCatch (do
      let st ← Prog.perform (.lstat p)
      if st.kind ≠ .symlink then
        return st.kind = .regular
      let target := PurePath.ofText (← Prog.perform (.readlink p))
      if target.isAbsolute then
        return false
      let st ← Prog.perform (.lstat (p.parent.join target.parts))
      return st.kind = .regular) fun e =>
    if e.isOSError then pure false else throw e

/-- `validate_ssh_files`, up to its resolution of the two paths. -/
def requireSshFiles (identity knownHosts expectedIdentity expectedKnownHosts : Path) :
    OsM (Path × Path) := do
  if identity ≠ expectedIdentity ∨ knownHosts ≠ expectedKnownHosts then
    throw (.configuration "SSH files must resolve below the instance secrets directory")
  requirePrivateFile identity "SSH identity"
  requireRegularFile knownHosts "SSH known-hosts file"
  return (identity, knownHosts)

/-! ## They only look -/

theorem lstat_looks (p : Path) : (Prog.perform (.lstat p) : OsM Stat).Only OsOp.Looks :=
  Prog.only_perform.mpr trivial

theorem readlink_looks (p : Path) : (Prog.perform (.readlink p) : OsM String).Only OsOp.Looks :=
  Prog.only_perform.mpr trivial

theorem read_looks (p : Path) : (Prog.perform (.read p) : OsM Bytes).Only OsOp.Looks :=
  Prog.only_perform.mpr trivial

theorem pathExists_looks (p : Path) : (Prog.perform (.pathExists p) : OsM Bool).Only OsOp.Looks :=
  Prog.only_perform.mpr trivial

theorem statRequired_looks (p : Path) (label : String) : (statRequired p label).Only OsOp.Looks :=
  (lstat_looks p).handle fun _ => Prog.only_raise.ite Prog.only_raise

theorem requireRegularFile_looks (p : Path) (label : String) :
    (requireRegularFile p label).Only OsOp.Looks :=
  (statRequired_looks p label).bind fun _ => Prog.only_raise.ite Prog.only_ret

theorem requirePrivateFile_looks (p : Path) (label : String) :
    (requirePrivateFile p label).Only OsOp.Looks :=
  (statRequired_looks p label).bind fun _ =>
    Prog.only_raise.ite (Prog.only_raise.ite Prog.only_ret)

theorem readAscii_looks (p : Path) : (readAscii p).Only OsOp.Looks :=
  (read_looks p).bind fun _ => Prog.only_ret.ite Prog.only_raise

theorem readLine_looks (p : Path) (label : String) : (readLine p label).Only OsOp.Looks := by
  refine Prog.Only.handle ((lstat_looks p).bind fun st => ?_) fun e =>
    Prog.only_raise.ite Prog.only_raise
  exact Prog.only_raise.ite ((readAscii_looks p).bind fun _ => Prog.only_ret)

theorem readTextSecret_looks (p : Path) (label : String) :
    (readTextSecret p label).Only OsOp.Looks :=
  (requirePrivateFile_looks p label).bind fun _ => (readLine_looks p label).bind fun _ =>
    Prog.only_raise.ite Prog.only_ret

theorem isFile_looks (p : Path) : (isFile p).Only OsOp.Looks := by
  refine Prog.Only.handle ((lstat_looks p).bind fun st => ?_) fun e =>
    Prog.only_ret.ite Prog.only_raise
  refine Prog.only_ret.ite ((readlink_looks p).bind fun target => ?_)
  exact Prog.only_ret.ite ((lstat_looks _).bind fun _ => Prog.only_ret)

/-! ## What they have seen -/

section
variable {t : Tree} {p : Path} {label : String}

/-- The line a file holds. -/
def lineOf (content : Bytes) : String := strip (.ofList (universalNewlines (asciiChars content)))

/-- A regular file with a small ASCII content, of which this is the line. -/
def Line (o : Option Obj) (value : String) : Prop :=
  ∃ mode content, o = some (.file mode content) ∧ content.length ≤ 4096 ∧
    (∀ b ∈ content, b.toNat < 128) ∧ lineOf content = value

/-- The file at `p` has this line. -/
abbrev HoldsLine (t : Tree) (p : Path) (value : String) : Prop := Line (t.get p) value

theorem Line.unique {o : Option Obj} (h : Line o v) (h' : Line o v') : v = v' := by
  obtain ⟨m, c, rfl, -, -, rfl⟩ := h
  obtain ⟨m', c', ho, -, -, rfl⟩ := h'
  cases ho
  rfl

theorem statRequired_yields (p : Path) (label : String) (t : Tree) :
    (statRequired p label).Yields machine (fun st u => u = t ∧ ∃ o, t.get p = some o ∧ st = statOf o) t :=
  Prog.yields_handle (Prog.yields_perform fun _ _ h => (Step.ok h).lstat) fun _ _ =>
    Prog.yields_ite (fun _ => Prog.yields_raise) fun _ => Prog.yields_raise

theorem requireRegularFile_yields (p : Path) (label : String) (t : Tree) :
    (requireRegularFile p label).Yields machine
      (fun _ u => u = t ∧ ∃ m c, t.get p = some (.file m c)) t := by
  refine Prog.yields_bind ((statRequired_yields p label t).mono fun st u ⟨hu, o, ho, hst⟩ => ?_)
  subst hst
  refine Prog.yields_ite (fun _ => Prog.yields_raise) fun hkind => Prog.yields_ret ⟨hu, ?_⟩
  obtain ⟨m, c, rfl⟩ := kind_statOf_regular.mp (not_not.mp hkind)
  exact ⟨m, c, ho⟩

theorem requirePrivateFile_yields (p : Path) (label : String) (t : Tree) :
    (requirePrivateFile p label).Yields machine
      (fun _ u => u = t ∧ ∃ m c, t.get p = some (.file m c) ∧ openToOthers m = false) t := by
  refine Prog.yields_bind ((statRequired_yields p label t).mono fun st u ⟨hu, o, ho, hst⟩ => ?_)
  subst hst
  refine Prog.yields_ite (fun _ => Prog.yields_bind Prog.yields_raise) fun hkind => ?_
  obtain ⟨m, c, rfl⟩ := kind_statOf_regular.mp (not_not.mp hkind)
  refine Prog.yields_ite (fun _ => Prog.yields_raise) fun hopen => Prog.yields_ret ⟨hu, m, c, ho, ?_⟩
  exact eq_false_of_ne_true hopen

theorem readAscii_yields (p : Path) (t : Tree) : (readAscii p).Yields machine
    (fun s u => u = t ∧ ∃ m c, t.get p = some (.file m c) ∧ (∀ b ∈ c, b.toNat < 128) ∧
      s = .ofList (universalNewlines (asciiChars c))) t := by
  refine Prog.yields_bind (Prog.yields_perform fun content u h => ?_)
  obtain ⟨hu, m, hp⟩ := (Step.ok h).read
  refine Prog.yields_ite (fun hascii => Prog.yields_ret ⟨hu, m, content, hp, ?_, rfl⟩) fun _ =>
    Prog.yields_raise
  exact fun b hb => of_decide_eq_true (List.all_eq_true.mp hascii b hb)

theorem readLine_yields (p : Path) (label : String) (t : Tree) :
    (readLine p label).Yields machine (fun value u => u = t ∧ HoldsLine t p value) t := by
  refine Prog.yields_handle (Prog.yields_bind (Prog.yields_perform fun st u h => ?_)) fun _ _ =>
    Prog.yields_ite (fun _ => Prog.yields_raise) fun _ => Prog.yields_raise
  obtain ⟨rfl, o, ho, rfl⟩ := (Step.ok h).lstat
  refine Prog.yields_ite (fun _ => Prog.yields_bind Prog.yields_raise) fun hsize => ?_
  refine Prog.yields_bind ((readAscii_yields p u).mono fun s v ⟨hv, m, c, hc, hascii, hs⟩ => ?_)
  cases ho.symm.trans hc
  exact Prog.yields_ret ⟨hv, m, c, hc, Nat.le_of_not_gt hsize, hascii, congrArg strip hs.symm⟩

theorem readTextSecret_yields (p : Path) (label : String) (t : Tree) :
    (readTextSecret p label).Yields machine (fun value u => u = t ∧ HoldsLine t p value) t := by
  refine Prog.yields_bind ((requirePrivateFile_yields p label t).mono fun _ u ⟨hu, _⟩ => ?_)
  subst hu
  refine Prog.yields_bind ((readLine_yields p label u).mono fun value v hv => ?_)
  exact Prog.yields_ite (fun _ => Prog.yields_raise) fun _ => Prog.yields_ret hv

/-! ## What they answer -/

theorem value_requireRegularFile : (requireRegularFile p label).value (seen t) =
    match t.get p with
    | some (.file _ _) => .ok ()
    | some _ => .error (.configuration s!"{label} must be a regular non-symlink file: {p.text}")
    | none => .error (.configuration s!"{label} does not exist: {p.text}") := by
  simp only [requireRegularFile, statRequired, Prog.bind_def, Prog.tryCatch_def, Prog.value_bind,
    Prog.value_handle, Prog.value_perform]
  cases h : t.get p with
  | none => rw [seen_lstat_none h]; rfl
  | some o => rw [seen_lstat_some h]; cases o <;> rfl

theorem value_requirePrivateFile : (requirePrivateFile p label).value (seen t) =
    match t.get p with
    | some (.file m _) => if openToOthers m then .error (.configuration
        s!"{label} permissions must not allow group or other access: {p.text}") else .ok ()
    | some _ => .error (.configuration s!"{label} must be a regular non-symlink file: {p.text}")
    | none => .error (.configuration s!"{label} does not exist: {p.text}") := by
  simp only [requirePrivateFile, statRequired, Prog.bind_def, Prog.tryCatch_def, Prog.value_bind,
    Prog.value_handle, Prog.value_perform]
  cases h : t.get p with
  | none => rw [seen_lstat_none h]; rfl
  | some o =>
    rw [seen_lstat_some h]
    cases o with
    | file m c =>
      by_cases hopen : openToOthers m = true
      · simp only [Except.tryCatch, Except.bind, statOf, ne_eq, not_true_eq_false, if_false, hopen,
          if_true]
        rfl
      · simp only [Except.tryCatch, Except.bind, statOf, ne_eq, not_true_eq_false, if_false, hopen,
          Bool.false_eq_true]
        rfl
    | _ => rfl

end

end Files
end ShuttleGate
