import ShuttleGate.Os.Ops

/-! # A host to run on

The documented answers as a function, where the names the host chooses are given: what a program
does on a tree can be computed. -/

namespace ShuttleGate

open Fs Effect

namespace Os

/-- The names a host chooses, and what its commands print. -/
structure Host where
  uuid : String
  suffix : String
  keys : Bytes × Bytes
  command : List String → Option String → CommandResult

def updated (result : Except Errno Tree) (a : α) (t : Tree) : Except Exn α × Tree :=
  match result with
  | .ok new => (.ok a, new)
  | .error e => (.error (osError e), t)

theorem updates_updated (result : Except Errno Tree) (a : α) (t : Tree) :
    Updates result a t (updated result a t).1 (updated result a t).2 := by
  cases result <;> exact ⟨rfl, rfl⟩

instance : Decidable (IsUuid s) := inferInstanceAs (Decidable (_ ∧ _))
instance : Decidable (IsTempSuffix s) := inferInstanceAs (Decidable (_ ∧ _))
instance : Decidable (IsKey content) := inferInstanceAs (Decidable (_ ∧ _))

/-- No name contains the identifier. -/
def isFresh (uid : String) (t : Tree) : Bool :=
  t.entries.all fun e => e.1.all fun n => !decide (uid.toList <:+: n.toList)

theorem isFresh_iff {t : Tree} (h : isFresh uid t = true) :
    ∀ p, t.get p ≠ none → ∀ n ∈ p, ¬ uid.toList <:+: n.toList := by
  intro p hp n hn
  obtain ⟨e, he, rfl⟩ := List.mem_map.mp (mem_keys_iff.mpr hp)
  have := List.all_eq_true.mp (List.all_eq_true.mp h e he) n hn
  simpa using this

/-- The answer of the host, unless it has no name to choose. -/
def Host.respond (host : Host) : {β : Type} → OsOp β → Tree → Option (Except Exn β × Tree)
  | _, .lstat p, t => some (match t.get p with
    | some o => .ok (statOf o)
    | none => .error (osError .enoent), t)
  | _, .readlink p, t => some (match t.get p with
    | some (.link target) => .ok target
    | some _ => .error (osError .einval)
    | none => .error (osError .enoent), t)
  | _, .listdir p, t => some (match t.get p with
    | some (.dir _) => .ok (t.names p)
    | some _ => .error (osError .enotdir)
    | none => .error (osError .enoent), t)
  | _, .read p, t => some (match t.get p with
    | some (.file _ content) => .ok content
    | some (.dir _) => .error (osError .eisdir)
    | some _ => .error (osError .eloop)
    | none => .error (osError .enoent), t)
  | _, .pathExists p, t => some (.ok (follow t p).isSome, t)
  | _, .isDir p, t => some (.ok ((follow t p).any Obj.isDir), t)
  | _, .mkdir p mode, t => some (updated (t.add p (.dir mode)) () t)
  | _, .mkstemp d pre, t =>
    if IsTempSuffix host.suffix ∧ t.get (d / (pre ++ host.suffix)) = none then
      some (updated (t.add (d / (pre ++ host.suffix)) (.file 0o600 [])) (pre ++ host.suffix) t)
    else none
  | _, .openWrite p mode, t =>
    some (updated (if t.get p = none then t.add p (.file mode []) else t.write p []) () t)
  | _, .openRead p, t => some (match t.get p with
    | some (.link _) => .error (osError .eloop)
    | some o => .ok (statOf o)
    | none => .error (osError .enoent), t)
  | _, .openCreate p mode, t => some (match t.get p with
    | none => updated (t.add p (.file mode [])) (statOf (.file mode [])) t
    | some (.link _) => (.error (osError .eloop), t)
    | some (.dir _) => (.error (osError .eisdir), t)
    | some o => (.ok (statOf o), t))
  | _, .write p content, t => some (updated (t.write p content) () t)
  | _, .chmod p mode, t => some (updated (t.chmod p mode) () t)
  | _, .symlink target p, t => some (updated (t.add p (.link target)) () t)
  | _, .rename src dst, t => some (updated (t.rename src dst) () t)
  | _, .unlink p, t => some (updated (t.unlink p) () t)
  | _, .rmdir p, t => some (updated (t.rmdir p) () t)
  | _, .fsync p, t =>
    some (if t.get p = none then .error (osError .enoent) else .ok (), t)
  | _, .flock _ _ _, t => some (.ok (), t)
  | _, .unlock _, t => some (.ok (), t)
  | _, .uuid, t =>
    if IsUuid host.uuid ∧ isFresh host.uuid t = true then some (.ok host.uuid, t) else none
  | _, .token, t => if IsUuid host.uuid then some (.ok host.uuid, t) else none
  | _, .resolve base parts, t => some (.ok (t.resolve base parts), t)
  | _, .resolveStrict base parts, t => some (match t.resolveStrict base parts with
    | .ok p => .ok p
    | .error e => .error (osError e), t)
  | _, .keygen p _, t =>
    if IsKey host.keys.1 ∧ IsKey host.keys.2 then
      some (updated (t.add p (.file 0o600 host.keys.1)) host.keys t)
    else none
  | _, .run arguments input, t => some (.ok (host.command arguments input), t)
  | _, .depth, t => some (.ok t.depth, t)

/-- The host answers as documented. -/
theorem Host.respond_answers (host : Host) {β : Type} (op : OsOp β) (t : Tree)
    (x : Except Exn β × Tree) (h : host.respond op t = some x) : reliable.step op t x.1 x.2 := by
  cases op with
  | mkstemp d pre =>
    simp only [Host.respond] at h
    split at h
    · cases h
      exact ⟨host.suffix, ‹_ ∧ _›.1, ‹_ ∧ _›.2, updates_updated _ _ _⟩
    · cases h
  | uuid =>
    simp only [Host.respond] at h
    split at h
    · cases h
      exact ⟨rfl, _, rfl, ‹_ ∧ _›.1, isFresh_iff ‹_ ∧ _›.2⟩
    · cases h
  | token =>
    simp only [Host.respond] at h
    split at h
    · cases h
      exact ⟨rfl, _, rfl, ‹_›⟩
    · cases h
  | keygen p comment =>
    simp only [Host.respond] at h
    split at h
    · cases h
      exact ⟨host.keys, ‹_ ∧ _›.1, ‹_ ∧ _›.2, updates_updated _ _ _⟩
    · cases h
  | mkdir p mode | openWrite p mode | write p content | chmod p mode | symlink target p
  | rename src dst | unlink p | rmdir p =>
    cases h
    exact updates_updated _ _ _
  | openCreate p mode =>
    cases h
    simp only [reliable, Answers]
    cases t.get p with
    | none => exact updates_updated _ _ _
    | some o => cases o <;> exact ⟨rfl, rfl⟩
  | flock p exclusive blocking =>
    cases h
    exact ⟨rfl, .inl rfl⟩
  | run arguments input =>
    cases h
    exact ⟨rfl, _, rfl⟩
  | listdir p =>
    cases h
    refine ⟨rfl, ?_⟩
    cases t.get p with
    | none => rfl
    | some o =>
      cases o with
      | dir mode => exact ⟨_, rfl, .refl _⟩
      | _ => rfl
  | pathExists p | isDir p | unlock p | depth | resolve base parts =>
    cases h
    exact ⟨rfl, rfl⟩
  | lstat p | readlink p | read p | openRead p =>
    cases h
    refine ⟨rfl, ?_⟩
    cases t.get p with
    | none => rfl
    | some o => cases o <;> rfl
  | fsync p =>
    cases h
    exact ⟨rfl, by split <;> rfl⟩
  | resolveStrict base parts =>
    cases h
    exact ⟨rfl, by split <;> simp_all⟩

def exampleHost : Host :=
  ⟨"11111111111111111111111111111111", "aaaaaaaa", ([1], [2]), fun _ _ => ⟨0, "", ""⟩⟩

/-- An operation for which no name has to be chosen. -/
def OsOp.Answered : OsOp β → Prop
  | mkstemp _ _ | uuid => False
  | _ => True

theorem OsOp.Answered.step {op : OsOp β} (h : op.Answered) (t : Tree) :
    ∃ r t', reliable.step op t r t' := by
  have htoken : IsUuid "00000000000000000000000000000000" := by decide
  have hkey : IsKey [0] := by decide
  cases op with
  | mkstemp d pre | uuid => exact h.elim
  | token => exact ⟨_, _, rfl, _, rfl, htoken⟩
  | keygen p comment => exact ⟨_, _, ([0], [0]), hkey, hkey, updates_updated _ _ _⟩
  | _ => exact ⟨_, _, (Host.mk "" "" ([], []) fun _ _ => ⟨0, "", ""⟩).respond_answers _ t _ rfl⟩

/-- A program that must succeed has a run that does. -/
theorem exists_run {p : OsM α} {Q : α → Tree → Prop} (h : p.Succeeds reliable Q t)
    (hp : p.Only OsOp.Answered) : ∃ a u, p.Returns reliable t (.ok a) u ∧ Q a u := by
  obtain ⟨r, u, hr⟩ := hp.completes (fun _ s hop => hop.step s) t
  obtain ⟨a, rfl, hq⟩ := h.returns hr
  exact ⟨a, u, hr, hq⟩

end Os
end ShuttleGate
