import ShuttleGate.Os.Shutil
import ShuttleGate.Json.Text
import ShuttleGate.Files.Paths

/-! # Atomic file operations

Private directories, and files that are replaced as a whole: the new content is written beside the
file and renamed over it, so the file is absent, old or new at every moment. -/

namespace ShuttleGate

open Fs Effect Os

/-! ## Texts as bytes -/

/-- `s.encode("utf-8")` -/
def encodeUtf8 (s : String) : Bytes := s.toByteArray.data.toList

/-- `content.decode("utf-8")` -/
def decodeUtf8 (content : Bytes) : Option String := String.fromUTF8? ⟨content.toArray⟩

@[simp] theorem decodeUtf8_encodeUtf8 (s : String) : decodeUtf8 (encodeUtf8 s) = some s := by
  have hvalid : s.toByteArray.IsValidUTF8 := s.isValidUTF8
  rw [decodeUtf8, encodeUtf8, Array.toArray_toList, String.fromUTF8?, dif_pos hvalid]
  rfl

/-- Universal newlines: what `open(path)` makes of the ends of lines. -/
def universalNewlines : List Char → List Char
  | '\r' :: '\n' :: cs => '\n' :: universalNewlines cs
  | '\r' :: cs => '\n' :: universalNewlines cs
  | c :: cs => c :: universalNewlines cs
  | [] => []

theorem universalNewlines_eq : ∀ {cs : List Char}, '\r' ∉ cs → universalNewlines cs = cs
  | [], _ => rfl
  | c :: cs, h => by
    have hc : c ≠ '\r' := fun he => h (he ▸ List.mem_cons_self)
    have htail := universalNewlines_eq fun hcs => h (List.mem_cons_of_mem c hcs)
    rw [universalNewlines.eq_3 c cs (fun _ he => absurd he hc) hc, htail]

theorem encodeUtf8_ofList (cs : List Char) :
    encodeUtf8 (.ofList cs) = cs.flatMap String.utf8EncodeChar := by
  rw [encodeUtf8, String.toByteArray_ofList, List.utf8Encode, List.data_toByteArray,
    List.toList_toArray]

/-- An ASCII text has as many bytes as characters. -/
theorem length_encodeUtf8 {s : String} (h : ∀ c ∈ s.toList, c.toNat ≤ 0x7f) :
    (encodeUtf8 s).length = s.length := by
  obtain ⟨cs, rfl⟩ : ∃ cs, s = .ofList cs := ⟨s.toList, (String.ofList_toList).symm⟩
  rw [String.toList_ofList] at h
  rw [encodeUtf8_ofList, String.length_ofList]
  induction cs with
  | nil => rfl
  | cons c cs ih =>
    obtain ⟨hc, hcs⟩ := List.forall_mem_cons.mp h
    have hone : (String.utf8EncodeChar c).length = 1 := by
      rw [String.length_utf8EncodeChar, Char.utf8Size, if_pos]
      exact UInt32.le_iff_toNat_le.mpr hc
    rw [List.flatMap_cons, List.length_append, hone, ih hcs, List.length_cons, Nat.add_comm]

/-- The characters of ASCII bytes. -/
def asciiChars (content : Bytes) : List Char := content.map fun b => Char.ofNat b.toNat

theorem utf8EncodeChar_ascii {b : UInt8} (h : b.toNat < 128) :
    String.utf8EncodeChar (Char.ofNat b.toNat) = [b] := by
  have hall : ∀ n < 128, String.utf8EncodeChar (Char.ofNat n) = [UInt8.ofNat n] := by decide +kernel
  rw [hall _ h, UInt8.ofNat_toNat]

theorem encodeUtf8_asciiChars {content : Bytes} (h : ∀ b ∈ content, b.toNat < 128) :
    encodeUtf8 (.ofList (asciiChars content)) = content := by
  rw [encodeUtf8_ofList]
  induction content with
  | nil => rfl
  | cons b bs ih =>
    obtain ⟨hb, hbs⟩ := List.forall_mem_cons.mp h
    rw [asciiChars, List.map_cons, List.flatMap_cons, utf8EncodeChar_ascii hb]
    exact congrArg (b :: ·) (ih hbs)

theorem decodeUtf8_ascii {content : Bytes} (h : ∀ b ∈ content, b.toNat < 128) :
    decodeUtf8 content = some (.ofList (asciiChars content)) := by
  have hdecode := decodeUtf8_encodeUtf8 (.ofList (asciiChars content))
  rwa [encodeUtf8_asciiChars h] at hdecode

/-! ## JSON files -/

/-- The text of a JSON file. -/
def jsonText (value : Json) : String := Json.dumps .indented value ++ "\n"

/-- The value a JSON file holds. -/
def jsonOf (content : Bytes) : Option Json :=
  (decodeUtf8 content).bind fun s => Json.loads (.ofList (universalNewlines s.toList))

/-- The bytes of a JSON file, without the text between: a text is slow to evaluate. -/
theorem encodeUtf8_jsonText (v : Json) : encodeUtf8 (jsonText v) =
    (v.sortKeys.chars .indented 0 ++ ['\n']).flatMap String.utf8EncodeChar := by
  rw [← encodeUtf8_ofList, String.ofList_append]
  rfl

theorem textChar_jsonText {v : Json} (h : v.WellFormed) :
    ∀ c ∈ (jsonText v).toList, Json.TextChar c := by
  rw [jsonText, String.toList_append, List.forall_mem_append]
  exact ⟨Json.textChar_dumps h _, by decide⟩

/-- What is written as JSON is read back with its keys sorted. -/
theorem jsonOf_jsonText {v : Json} (h : v.WellFormed) :
    jsonOf (encodeUtf8 (jsonText v)) = some v.sortKeys := by
  have hreturn : '\r' ∉ (jsonText v).toList := fun hr => by
    have := textChar_jsonText h _ hr
    revert this
    decide
  rw [jsonOf, decodeUtf8_encodeUtf8, Option.bind_some, universalNewlines_eq hreturn,
    String.ofList_toList]
  exact Json.loads_dumps h .indented (by decide)

theorem length_jsonText {v : Json} (h : v.WellFormed) :
    (encodeUtf8 (jsonText v)).length = (jsonText v).length := by
  refine length_encodeUtf8 fun c hc => ?_
  rcases textChar_jsonText h c hc with rfl | hc
  · decide
  · omega

namespace Files

/-- `path.read_text(encoding="utf-8")` -/
def readText (p : Path) : OsM String := do
  let content ← Prog.perform (.read p)
  match decodeUtf8 content with
  | some s => return .ofList (universalNewlines s.toList)
  | none => throw (.error "UnicodeDecodeError")

/-- `path.is_symlink()` -/
def isSymlink (p : Path) : OsM Bool :=
  tryCatch (do
    let st ← Prog.perform (.lstat p)
    return st.kind = .symlink)
    fun e => if e.isOSError then pure false else throw e

/-- `os.mkdir` where a directory may be there already. -/
def mkdirOne (p : Path) (mode : Nat) : OsM Unit :=
  tryCatch (Prog.perform (.mkdir p mode)) fun e => do
    if e.isOSError && !e.isFileNotFound then
      unless ← Prog.perform (.isDir p) do throw e
    else throw e

/-- `path.mkdir(mode=mode, parents=True, exist_ok=True)` -/
def mkdirParents : Path → Nat → OsM Unit
  | [], mode => mkdirOne [] mode
  | n :: d, mode => tryCatch (Prog.perform (.mkdir (n :: d) mode)) fun e => do
    if e.isFileNotFound then
      mkdirParents d 0o777
      mkdirOne (n :: d) mode
    else if e.isOSError then
      unless ← Prog.perform (.isDir (n :: d)) do throw e
    else throw e

/-- Create a private directory that is no symbolic link. -/
def ensurePrivateDirectory (p : Path) : OsM Unit := do
  if ← isSymlink p then
    throw (.state s!"private directory must not be a symlink: {p.text}")
  let st ← tryCatch (do
      mkdirParents p 0o700
      let st ← Prog.perform (.openRead p)
      if st.kind ≠ .directory then throw (osError .enotdir)
      return st) fun e =>
    if e.isOSError then throw (.state s!"cannot create or open private directory: {p.text}")
    else throw e
  if st.kind ≠ .directory then
    throw (.state s!"private directory ownership or type is invalid: {p.text}")
  Prog.perform (.chmod p 0o700)

/-- `fsync_directory` -/
def fsyncDirectory (p : Path) : OsM Unit := Prog.perform (.fsync p)

/-- `temporary.unlink(missing_ok=True)` -/
def unlinkMissingOk (p : Path) : OsM Unit := ignoreMissing (Prog.perform (.unlink p))

/-- Replace a file. -/
def atomicWriteBytes (p : Path) (content : Bytes) (mode : Nat) : OsM Unit := do
  ensurePrivateDirectory p.parent
  let name ← Prog.perform (.mkstemp p.parent s!".{p.name}.")
  let temporary := p.parent / name
  tryCatch (do
      Prog.perform (.chmod temporary mode)
      Prog.perform (.write temporary content)
      Prog.perform (.fsync temporary)
      Prog.perform (.rename temporary p)
      fsyncDirectory p.parent)
    fun e => do
      unlinkMissingOk temporary
      throw e

def atomicWrite (p : Path) (content : String) (mode : Nat) : OsM Unit :=
  atomicWriteBytes p (encodeUtf8 content) mode

def atomicWriteJson (p : Path) (value : Json) (mode : Nat := 0o600) : OsM Unit :=
  atomicWrite p (jsonText value) mode

/-! ## What they leave alone -/

theorem reads_within {W : Path → Prop} {op : OsOp β} (h : op.Reads := by exact fun _ => id) :
    (Prog.perform op : OsM β).Only (Within W d) := Prog.only_perform.mpr h.within

theorem at_within {W : Path → Prop} {op : OsOp β} (hp : W p)
    (h : ∀ q, op.touches q → q = p := by exact fun _ h => h) :
    (Prog.perform op : OsM β).Only (Within W d) :=
  Prog.only_perform.mpr fun q hq => .inl (h q hq ▸ hp)

theorem isSymlink_within {W : Path → Prop} (p : Path) : (isSymlink p).Only (Within W d) :=
  ((reads_within).bind fun _ => Prog.only_ret).handle fun _ => Prog.only_ret.ite Prog.only_raise

section
variable {W : Path → Prop} {d p : Path}

theorem isDir_within (p : Path) (e : Exn) : (do
    unless ← Prog.perform (.isDir p) do throw e : OsM Unit).Only (Within W d) :=
  (reads_within).bind fun _ => by split <;> simp

theorem mkdir_within (h : W p ∨ p <:+ d) (mode : Nat) :
    (Prog.perform (.mkdir p mode) : OsM Unit).Only (Within W d) :=
  Prog.only_perform.mpr fun q hq => by
    obtain rfl : q = p := hq
    exact h.imp_right fun h => ⟨rfl, h⟩

theorem mkdirOne_within (h : W p ∨ p <:+ d) (mode : Nat) :
    (mkdirOne p mode).Only (Within W d) :=
  (mkdir_within h mode).handle fun e => (isDir_within p e).ite Prog.only_raise

theorem mkdirParents_within : ∀ {p : Path}, (∀ q, q <:+ p → W q ∨ q <:+ d) → ∀ mode,
    (mkdirParents p mode).Only (Within W d)
  | [], h, mode => mkdirOne_within (h [] List.suffix_rfl) mode
  | n :: p, h, mode => by
    have hparent := mkdirParents_within (p := p) (fun q hq => h q (hq.trans (List.suffix_cons n p)))
      0o777
    exact (mkdir_within (h _ List.suffix_rfl) mode).handle fun e =>
      (hparent.bind fun _ => mkdirOne_within (h _ List.suffix_rfl) mode).ite
        ((isDir_within _ e).ite Prog.only_raise)

theorem ensurePrivateDirectory_within (h : ∀ q, q <:+ p → W q ∨ q <:+ d) (hp : W p) :
    (ensurePrivateDirectory p).Only (Within W d) := by
  refine (isSymlink_within p).bind fun link => ?_
  split
  · simp
  refine Prog.Only.bind (Prog.Only.handle ((mkdirParents_within h 0o700).bind fun _ =>
    (reads_within).bind fun st => ?_) fun e => ?_) fun st => ?_
  · split <;> simp
  · split <;> simp
  · split
    · simp
    · exact at_within hp

theorem atomicWriteBytes_within (h : ∀ q, q <:+ p → W q ∨ q <:+ d) (hb : ∀ q, p <:+ q → W q)
    (content : Bytes) (mode : Nat) :
    (atomicWriteBytes (n :: p) content mode).Only (Within W d) := by
  have child (m : String) : W (m :: p) := hb _ (List.suffix_cons m p)
  refine (ensurePrivateDirectory_within h (hb p List.suffix_rfl)).bind fun _ =>
    Prog.Only.bind (Prog.only_perform.mpr ?_) fun name => Prog.Only.handle ?_ fun e => ?_
  · rintro q ⟨suffix, -, rfl⟩
    exact .inl (child _)
  · refine (at_within (child name)).bind fun _ => (at_within (child name)).bind fun _ =>
      (reads_within).bind fun _ => Prog.Only.bind (Prog.only_perform.mpr ?_) fun _ => reads_within
    rintro q (hq | hq)
    · exact .inl (hb q ((List.suffix_cons name p).trans hq))
    · exact .inl (hb q ((List.suffix_cons n p).trans hq))
  · exact (ignoreMissing_only (at_within (child name))).bind fun _ => Prog.only_raise

end

/-! ## What they have done -/

section
variable {W : Path → Prop} {d p : Path} {t : Tree}

/-- A private directory that has been ensured is there. -/
theorem ensurePrivateDirectory_yields (p : Path) (t : Tree) :
    (ensurePrivateDirectory p).Yields machine (fun _ t' => t'.get p = some (.dir 0o700)) t := by
  refine Prog.yields_bind_any fun link t => ?_
  split
  · exact Prog.yields_bind Prog.yields_raise
  refine Prog.yields_bind (Prog.Yields.mono (Q := fun (_ : Stat) (t' : Tree) =>
    ∃ m, t'.get p = some (.dir m)) (Prog.yields_handle ?_ fun e t => ?_) fun st t' ht => ?_)
  · refine Prog.yields_bind_any fun _ t => Prog.yields_bind (Prog.yields_perform fun st t' h => ?_)
    obtain ⟨rfl, o, ho, rfl⟩ := (Step.ok h).openRead
    split
    · exact Prog.yields_bind Prog.yields_raise
    · rename_i hk
      obtain ⟨m, rfl⟩ := kind_statOf_directory.mp (not_not.mp hk)
      exact Prog.yields_ret ⟨m, ho⟩
  · exact Prog.yields_ite (fun _ => Prog.yields_raise) fun _ => Prog.yields_raise
  · split
    · exact Prog.yields_bind Prog.yields_raise
    · refine Prog.yields_perform fun _ t'' h => ?_
      obtain ⟨m, hm⟩ := ht
      rcases (Step.ok h).chmod with ⟨_, _, hfile, -⟩ | ⟨_, -, hget⟩
      · cases hm.symm.trans hfile
      · exact (hget p).trans (if_pos rfl)

theorem tempName_ne (n suffix : String) : s!".{n}." ++ suffix ≠ n := by
  intro h
  have := congrArg String.length h
  simp only [String.length_append] at this
  have h1 : ".".length = 1 := rfl
  simp [toString] at this
  omega

/-- Once its directory is ensured, the replacing of a file changes nothing else. -/
theorem atomicWriteBytes_after {R : Tree → Prop} (h : (ensurePrivateDirectory p).Yields machine
    (fun _ u => u.get p = some (.dir 0o700) ∧ R u) t) (n : String) (content : Bytes) (mode : Nat) :
    (atomicWriteBytes (n :: p) content mode).Yields machine (fun _ t' =>
      t'.get p = some (.dir 0o700) ∧ t'.get (n :: p) = some (.file mode content) ∧
        ∃ u, R u ∧ ∀ q, q ≠ n :: p → t'.get q = u.get q) t := by
  refine Prog.yields_bind (h.mono fun _ t₁ ⟨hdir, hR⟩ => ?_)
  refine Prog.yields_bind (Prog.yields_perform fun name t₂ h₂ => ?_)
  obtain ⟨suffix, -, hname, hnone, hget₂⟩ := (Step.ok h₂).mkstemp
  have hne : name ≠ n := hname ▸ tempName_ne n suffix
  have hpath : name :: p ≠ n :: p := fun he => hne (List.cons.inj he).1
  refine Prog.yields_handle_raise ?_
  refine Prog.yields_bind (Prog.yields_perform fun _ t₃ h₃ => ?_)
  refine Prog.yields_bind (Prog.yields_perform fun _ t₄ h₄ => ?_)
  refine Prog.yields_bind (Prog.yields_perform fun _ t₅ h₅ => ?_)
  obtain ⟨rfl, -⟩ := Step.ok h₅
  refine Prog.yields_bind (Prog.yields_perform fun _ t₆ h₆ => ?_)
  refine Prog.yields_perform fun _ t₇ h₇ => ?_
  obtain ⟨rfl, -⟩ := Step.ok h₇
  -- the temporary file and everything else before the rename
  have htemp : t₂.get (name :: p) = some (.file 0o600 []) := (hget₂ _).trans (if_pos rfl)
  have hother₂ (q : Path) (hq : q ≠ name :: p) : t₂.get q = t₁.get q :=
    (hget₂ q).trans (if_neg hq)
  obtain ⟨hchmod, hother₃⟩ : t₃.get (name :: p) = some (.file mode []) ∧
      ∀ q, q ≠ name :: p → t₃.get q = t₂.get q := by
    rcases (Step.ok h₃).chmod with ⟨_, c, hc, hget⟩ | ⟨_, hm, -⟩
    · cases htemp.symm.trans hc
      exact ⟨(hget _).trans (if_pos rfl), fun q hq => (hget q).trans (if_neg hq)⟩
    · cases htemp.symm.trans hm
  obtain ⟨hwrite, hother₄⟩ : t₅.get (name :: p) = some (.file mode content) ∧
      ∀ q, q ≠ name :: p → t₅.get q = t₃.get q := by
    obtain ⟨m, old, hold, hget⟩ := (Step.ok h₄).write
    cases hchmod.symm.trans hold
    exact ⟨(hget _).trans (if_pos rfl), fun q hq => (hget q).trans (if_neg hq)⟩
  have hbefore (q : Path) (hq : q ≠ name :: p) : t₅.get q = t₁.get q :=
    (hother₄ q hq).trans ((hother₃ q hq).trans (hother₂ q hq))
  obtain ⟨-, -, hchildless, hmoved, hgone, hrest⟩ := (Step.ok h₆).rename hpath
  have hapart {m : String} : ¬ (m :: p) <:+ p := fun hs => by
    simpa using hs.length_le
  refine ⟨?_, (hmoved []).trans hwrite, t₁, hR, fun q hqn => ?_⟩
  · rw [hrest p hapart hapart, hbefore p (List.cons_ne_self name p).symm]
    exact hdir
  · by_cases hs : (name :: p) <:+ q
    · obtain ⟨l, rfl⟩ := hs
      have hafter : t₇.get (l ++ name :: p) = none := hgone _ (List.suffix_append l _)
      exact hafter.trans (Tree.get_below_eq_none hnone l).symm
    · have hqt : q ≠ name :: p := fun he => hs (he ▸ List.suffix_rfl)
      by_cases hn : (n :: p) <:+ q
      · -- nothing lies below a file that is replaced or replaces
        obtain ⟨l, rfl⟩ := hn
        have hl : l ≠ [] := fun he => hqn (by simp [he])
        rw [hmoved, ← hbefore _ hqt, Tree.get_below_of_childless hchildless hl]
        by_contra hne'
        obtain ⟨m, hm⟩ := Tree.dir_of_below hne' hl
        cases hwrite.symm.trans hm
      · rw [hrest q hn hs, hbefore q hqt]

/-- A file that has been replaced has the new content, and what is beside it is as it was. -/
theorem atomicWriteBytes_yields (h : ∀ q, q <:+ p → W q ∨ q <:+ d) (hp : W p)
    (hd : t.get d ≠ none) (n : String) (content : Bytes) (mode : Nat) :
    (atomicWriteBytes (n :: p) content mode).Yields machine (fun _ t' =>
      t'.get p = some (.dir 0o700) ∧ t'.get (n :: p) = some (.file mode content) ∧
        ∀ q, ¬ W q → q ≠ n :: p → t'.get q = t.get q) t := by
  have hensured := (ensurePrivateDirectory_yields p t).and_keeps
    (keeps_of_within (ensurePrivateDirectory_within h hp) hd) fun _ _ => rfl
  refine (atomicWriteBytes_after hensured n content mode).mono fun _ t' ⟨hdir, hfile, u, hu, hrest⟩ => ?_
  exact ⟨hdir, hfile, fun q hq hqn => (hrest q hqn).trans (hu q hq)⟩

end

end Files
end ShuttleGate
