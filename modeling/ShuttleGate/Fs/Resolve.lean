import ShuttleGate.Fs.Tree
import ShuttleGate.Fs.PurePath
import Mathlib.Algebra.BigOperators.Group.Finset.Basic
import Mathlib.Algebra.GroupWithZero.Nat

/-! # Resolution of symbolic links

`os.path.realpath`: every link on the way is followed once. What cannot be followed is kept as it
is, or with `strict` an error; where both give a path, it is the same. -/

namespace Fs.Tree

/-- A name that is still to be resolved, or the end of a link's target. -/
inductive Pending
  | name (n : String)
  | resolved (link : Path)

/-- The target of the link at a path. -/
def linkAt (t : Tree) (p : Path) : Option String :=
  match t.get p with
  | some (.link target) => some target
  | _ => none

/-- The rest of a path from the resolved `path`. A link that has been seen has been resolved to
what is recorded, or is being resolved. -/
def resolveFrom (t : Tree) : Nat → List (Path × Option Path) → Path → List Pending → Path
  | 0, _, path, _ => path
  | _ + 1, _, path, [] => path
  | fuel + 1, seen, path, .resolved link :: rest =>
    resolveFrom t fuel ((link, some path) :: seen) path rest
  | fuel + 1, seen, path, .name n :: rest =>
    if n = ".." then resolveFrom t fuel seen path.parent rest
    else
      match t.linkAt (path / n), seen.lookup (path / n) with
      | some _, some (some path) => resolveFrom t fuel seen path rest
      -- a loop
      | some _, some none => resolveFrom t fuel seen (path / n) rest
      | some target, none =>
        let target := PurePath.ofText target
        resolveFrom t fuel ((path / n, none) :: seen) (if target.isAbsolute then [] else path)
          (target.parts.map .name ++ .resolved (path / n) :: rest)
      | none, _ => resolveFrom t fuel seen (path / n) rest

/-- The names that following the link at a path adds. -/
def partsAt (t : Tree) (p : Path) : Nat :=
  match t.linkAt p with
  | some target => (PurePath.ofText target).parts.length + 1
  | none => 0

/-- The names that following every link once adds. -/
def linkParts (t : Tree) : Nat := ((t.entries.map Prod.fst).dedup.map t.partsAt).sum

/-- `(base / parts).resolve()` -/
def resolve (t : Tree) (base : Path) (parts : List String) : Path :=
  let names := base.reverse ++ parts
  t.resolveFrom (names.length + t.linkParts) [] [] (names.map .name)

/-- A text that ends in an empty part or in `.`. -/
def trailingPart (target : String) : Bool :=
  !decide (IsPart (((target.toList.splitOn '/').map String.ofList).getLast?.getD ""))

/-- A part of the path comes before anything else is resolved: a name, or what a link's target ends
in. -/
def isPart (t : Tree) : Pending → Bool
  | .name _ => true
  | .resolved link => (t.linkAt link).any trailingPart

/-- The rest of a path with `strict`: what is not there, a loop, and a file where a directory has to
be are errors. -/
def resolveStrictFrom (t : Tree) :
    Nat → List (Path × Option Path) → Path → List Pending → Except Errno Path
  | 0, _, path, _ => .ok path
  | _ + 1, _, path, [] => .ok path
  | fuel + 1, seen, path, .resolved link :: rest =>
    resolveStrictFrom t fuel ((link, some path) :: seen) path rest
  | fuel + 1, seen, path, .name n :: rest =>
    if n = ".." then resolveStrictFrom t fuel seen path.parent rest
    else
      match t.get (path / n) with
      | none => .error .enoent
      | some (.link target) =>
        match seen.lookup (path / n) with
        | some (some path) => resolveStrictFrom t fuel seen path rest
        | some none => .error .eloop
        | none =>
          let target := PurePath.ofText target
          resolveStrictFrom t fuel ((path / n, none) :: seen) (if target.isAbsolute then [] else path)
            (target.parts.map .name ++ .resolved (path / n) :: rest)
      | some o =>
        if rest.any t.isPart && !o.isDir then .error .enotdir
        else resolveStrictFrom t fuel seen (path / n) rest

/-- `(base / parts).resolve(strict=True)` -/
def resolveStrict (t : Tree) (base : Path) (parts : List String) : Except Errno Path :=
  let names := base.reverse ++ parts
  t.resolveStrictFrom (names.length + t.linkParts) [] [] (names.map .name)

/-! ## Strict and lenient resolution -/

section
variable {t : Tree}

theorem resolveFrom_of_strict {seen : List (Path × Option Path)}
    (h : t.resolveStrictFrom fuel seen path pending = .ok p) :
    t.resolveFrom fuel seen path pending = p := by
  induction fuel generalizing seen path pending with
  | zero => exact Except.ok.inj h
  | succ fuel ih =>
    cases pending with
    | nil => exact Except.ok.inj h
    | cons next rest =>
      cases next with
      | resolved link => exact ih h
      | name n =>
        rw [resolveStrictFrom] at h
        rw [resolveFrom]
        split at h
        · rw [if_pos ‹_›]
          exact ih h
        · rw [if_neg ‹_›]
          cases hget : t.get (path / n) with
          | none => rw [hget] at h; cases h
          | some o =>
            rw [hget] at h
            cases o with
            | link target =>
              have hlink : t.linkAt (path / n) = some target := by rw [linkAt, hget]
              rw [hlink]
              cases hseen : seen.lookup (path / n) with
              | none => rw [hseen] at h; exact ih h
              | some known =>
                rw [hseen] at h
                cases known with
                | none => cases h
                | some known => exact ih h
            | _ =>
              have hlink : t.linkAt (path / n) = none := by rw [linkAt, hget]
              rw [hlink]
              dsimp only at h
              split at h
              · cases h
              · exact ih h

theorem resolve_of_strict (h : t.resolveStrict base parts = .ok p) : t.resolve base parts = p :=
  resolveFrom_of_strict h

/-- A path of directories is its own resolution. -/
theorem resolveStrict_self {p : Path} (hdots : ".." ∉ p) (h : ∃ m, t.get p = some (.dir m)) :
    t.resolveStrict [] p.reverse = .ok p := by
  have hwalk (names : List String) (path : Path) (fuel : Nat) (hfuel : names.length ≤ fuel)
      (hdots : ".." ∉ names) (hdir : ∃ m, t.get (names.reverse ++ path) = some (.dir m)) :
      t.resolveStrictFrom fuel [] path (names.map .name) = .ok (names.reverse ++ path) := by
    induction names generalizing path fuel with
    | nil => cases fuel <;> rfl
    | cons n names ih =>
      obtain ⟨fuel, rfl⟩ : ∃ f, fuel = f + 1 := ⟨fuel - 1, by simp at hfuel; omega⟩
      rw [List.reverse_cons, List.append_assoc] at hdir ⊢
      have hn : n ≠ ".." := fun he => hdots (he ▸ List.mem_cons_self)
      obtain ⟨m, hm⟩ : ∃ m, t.get (path / n) = some (.dir m) := by
        by_cases hnames : names.reverse = []
        · rw [hnames] at hdir
          exact hdir
        · obtain ⟨m, hm⟩ := hdir
          have hthere : t.get (names.reverse ++ path / n) ≠ none := fun hn => by
            cases hn.symm.trans hm
          exact dir_of_below hthere hnames
      rw [List.map_cons, resolveStrictFrom, if_neg hn, hm]
      simp only [Obj.isDir, Bool.not_true, Bool.and_false, Bool.false_eq_true, if_false]
      exact ih _ fuel (by simpa using hfuel) (fun h => hdots (List.mem_cons_of_mem n h)) hdir
  have hself := hwalk p.reverse [] (p.reverse.length + t.linkParts) (Nat.le_add_right _ _)
    (by simpa using hdots) (by simpa using h)
  simpa [resolveStrict] using hself

/-- A resolution has no `..`. -/
theorem dots_notMem_resolveFrom {seen : List (Path × Option Path)} {pending : List Pending}
    (hseen : ∀ e ∈ seen, ∀ q ∈ e.2, ".." ∉ q) (hpath : ".." ∉ path) :
    ".." ∉ t.resolveFrom fuel seen path pending := by
  induction fuel generalizing seen path pending with
  | zero => exact hpath
  | succ fuel ih =>
    cases pending with
    | nil => exact hpath
    | cons next rest =>
      cases next with
      | resolved link =>
        refine ih (List.forall_mem_cons.mpr ⟨fun q hq => ?_, hseen⟩) hpath
        exact Option.some.inj hq ▸ hpath
      | name n =>
        rw [resolveFrom]
        split
        · exact ih hseen fun h => hpath (List.mem_of_mem_tail h)
        · next hn =>
          have hchild : ".." ∉ path / n := fun h => (List.mem_cons.mp h).elim (fun h => hn h.symm) hpath
          split
          · next hlookup =>
            obtain ⟨pre, post, rfl, -⟩ := List.lookup_eq_some_iff.mp hlookup
            exact ih hseen (hseen _ (List.mem_append_right _ List.mem_cons_self) _ rfl)
          · exact ih hseen hchild
          · refine ih (List.forall_mem_cons.mpr ⟨nofun, hseen⟩) ?_
            split
            · exact List.not_mem_nil
            · exact hpath
          · exact ih hseen hchild

theorem dots_notMem_resolve (base : Path) (parts : List String) : ".." ∉ t.resolve base parts :=
  dots_notMem_resolveFrom (List.forall_mem_nil _) List.not_mem_nil

end

/-! ## What a resolution depends on -/

section
variable {t u : Tree}

theorem resolveFrom_congr (h : ∀ p, u.linkAt p = t.linkAt p) (fuel : Nat)
    (seen : List (Path × Option Path)) (path : Path) (pending : List Pending) :
    u.resolveFrom fuel seen path pending = t.resolveFrom fuel seen path pending := by
  induction fuel generalizing seen path pending with
  | zero => rfl
  | succ fuel ih =>
    cases pending with
    | nil => rfl
    | cons next rest =>
      cases next with
      | resolved link => exact ih _ _ _
      | name n => simp only [resolveFrom, h, ih]

theorem partsAt_eq_zero (h : t.get p = none) : t.partsAt p = 0 := by
  rw [partsAt, linkAt, h]

/-- The sum may range over more paths than there are. -/
theorem linkParts_eq_sum {s : Finset Path} (h : ∀ p, t.get p ≠ none → p ∈ s) :
    t.linkParts = ∑ p ∈ s, t.partsAt p := by
  rw [linkParts, ← List.sum_toFinset _ (List.nodup_dedup _)]
  refine Finset.sum_subset (fun p hp => h p ?_) fun p _ hp => partsAt_eq_zero ?_
  · rw [List.mem_toFinset, List.mem_dedup] at hp
    exact mem_keys_iff.mp hp
  · rw [List.mem_toFinset, List.mem_dedup] at hp
    by_contra hthere
    exact hp (mem_keys_iff.mpr hthere)

/-- A resolution depends on the links only. -/
theorem resolve_congr (h : ∀ p, u.linkAt p = t.linkAt p) (base : Path) (parts : List String) :
    u.resolve base parts = t.resolve base parts := by
  let keys (t : Tree) : Finset Path := (t.entries.map Prod.fst).toFinset
  have hkeys (t : Tree) (p : Path) (hp : t.get p ≠ none) : p ∈ keys t :=
    List.mem_toFinset.mpr (mem_keys_iff.mpr hp)
  have hparts : u.linkParts = t.linkParts := by
    rw [linkParts_eq_sum fun p hp => Finset.mem_union_left (keys t) (hkeys u p hp),
      linkParts_eq_sum fun p hp => Finset.mem_union_right (keys u) (hkeys t p hp)]
    exact Finset.sum_congr rfl fun p _ => by rw [partsAt, partsAt, h p]
  rw [resolve, resolve, hparts]
  exact resolveFrom_congr h _ _ _ _

end

end Fs.Tree
