import ShuttleGate.Fs.Path
import Mathlib.Data.List.Dedup

/-! # File-system trees

A finite tree of objects addressed by absolute paths: every object lies in a directory. The
operations are those of a POSIX file system on paths taken literally, each with the error it
fails with and a lemma about what is where afterwards. -/

namespace Fs

/-- The errors the operations tell apart. -/
inductive Errno
  | enoent
  | eexist
  | enotdir
  | eisdir
  | enotempty
  | einval
  | eloop
  | eagain
  | other (number : Nat)
  deriving DecidableEq, Repr

abbrev Bytes := List UInt8

inductive Obj
  | file (mode : Nat) (content : Bytes)
  | dir (mode : Nat)
  | link (target : String)
  /-- A device, a socket or a pipe. -/
  | special
  deriving DecidableEq, Repr

def Obj.isDir : Obj → Bool
  | dir _ => true
  | _ => false

@[simp] theorem Obj.isDir_iff {o : Obj} : o.isDir = true ↔ ∃ m, o = dir m := by
  cases o <;> simp [isDir]

/-- The first entry of a path is its object. -/
structure Tree where
  entries : List (Path × Obj)
  parents : ∀ n p, entries.lookup (n :: p) ≠ none → ∃ m, entries.lookup p = some (.dir m)

/-! ## Association lists -/

theorem lookup_cons_ite (k : Path) (o : Obj) (l : List (Path × Obj)) (p : Path) :
    ((k, o) :: l).lookup p = if p = k then some o else l.lookup p := by
  by_cases hp : p = k
  · simp [hp]
  · have hbeq : (p == k) = false := by simpa using hp
    rw [List.lookup_cons, hbeq, if_neg hp]

theorem lookup_filter {l : List (Path × Obj)} {f : Path → Bool} (p : Path) :
    (l.filter fun e => f e.1).lookup p = if f p then l.lookup p else none := by
  induction l with
  | nil => simp
  | cons e l ih =>
    obtain ⟨k, o⟩ := e
    rw [List.filter_cons, lookup_cons_ite]
    by_cases hp : p = k
    · subst hp
      cases hk : f p <;> simp [hk, ih]
    · cases hk : f k <;> simp [hp, ih, lookup_cons_ite]

theorem lookup_map_key {l : List (Path × Obj)} {f : Path → Path} (p : Path)
    (hf : ∀ e ∈ l, f e.1 = f p → e.1 = p) :
    (l.map fun e => (f e.1, e.2)).lookup (f p) = l.lookup p := by
  induction l with
  | nil => rfl
  | cons e l ih =>
    obtain ⟨k, o⟩ := e
    obtain ⟨he, hl⟩ := List.forall_mem_cons.mp hf
    have hkey : f p = f k ↔ p = k := ⟨fun h => (he h.symm).symm, congrArg f⟩
    simp only [List.map_cons, lookup_cons_ite, hkey, ih hl]

theorem lookup_map_key_eq_none {l : List (Path × Obj)} {f : Path → Path} {p : Path}
    (hf : ∀ e ∈ l, f e.1 ≠ p) : (l.map fun e => (f e.1, e.2)).lookup p = none := by
  rw [List.lookup_eq_none_iff]
  intro e he
  obtain ⟨e', he', rfl⟩ := List.mem_map.mp he
  simpa using (hf e' he').symm

theorem mem_keys_iff {l : List (Path × Obj)} {p : Path} :
    p ∈ l.map Prod.fst ↔ l.lookup p ≠ none := by
  induction l with
  | nil => simp
  | cons e l ih =>
    obtain ⟨k, o⟩ := e
    rw [lookup_cons_ite, List.map_cons, List.mem_cons, ih]
    by_cases hp : p = k <;> simp [hp]

namespace Tree

/-- The object at a path. -/
def get (t : Tree) (p : Path) : Option Obj := t.entries.lookup p

theorem dir_of_child {t : Tree} (h : t.get (n :: p) ≠ none) : ∃ m, t.get p = some (.dir m) :=
  t.parents n p h

/-- Every ancestor of an object is a directory. -/
theorem dir_of_below {t : Tree} (h : t.get (l ++ p) ≠ none) (hl : l ≠ []) :
    ∃ m, t.get p = some (.dir m) := by
  induction l with
  | nil => exact absurd rfl hl
  | cons n l ih =>
    obtain ⟨m, hm⟩ := dir_of_child h
    by_cases hl' : l = []
    · subst hl'
      exact ⟨m, hm⟩
    · exact ih (fun hn => by cases hn.symm.trans hm) hl'

/-- Nothing lies below a path without an object. -/
theorem get_below_eq_none {t : Tree} (h : t.get p = none) (l : Path) : t.get (l ++ p) = none := by
  by_contra hne
  by_cases hl : l = []
  · subst hl
    exact hne h
  · obtain ⟨m, hm⟩ := dir_of_below hne hl
    rw [h] at hm
    cases hm

/-- Nothing lies below a path without children. -/
theorem get_below_of_childless {t : Tree} (h : ∀ n, t.get (n :: p) = none) {l : Path}
    (hl : l ≠ []) : t.get (l ++ p) = none := by
  rw [← List.dropLast_append_getLast hl, List.append_assoc]
  exact get_below_eq_none (h _) _

/-- The tree with the given entries, where they are closed under parents. -/
def ofEntries (l : List (Path × Obj)) (h : (l.all fun e => match e.1 with
    | [] => true
    | _ :: p => (l.lookup p).any Obj.isDir) = true) : Tree where
  entries := l
  parents n p hn := by
    obtain ⟨e, he, hp⟩ := List.mem_map.mp (mem_keys_iff.mpr hn)
    have := List.all_eq_true.mp h e he
    rw [hp] at this
    obtain ⟨o, ho, hd⟩ := (Option.any_eq_true _ _).mp this
    obtain ⟨m, rfl⟩ := Obj.isDir_iff.mp hd
    exact ⟨m, ho⟩

/-- The names in a directory. -/
def names (t : Tree) (p : Path) : List String :=
  ((t.entries.map Prod.fst).filterMap fun
    | n :: q => if q = p then some n else none
    | [] => none).dedup

theorem mem_names {t : Tree} : n ∈ t.names p ↔ t.get (n :: p) ≠ none := by
  rw [names, List.mem_dedup, List.mem_filterMap, get, ← mem_keys_iff]
  constructor
  · rintro ⟨q, hq, h⟩
    cases q with
    | nil => cases h
    | cons m q =>
      simp only [Option.ite_none_right_eq_some, Option.some.injEq] at h
      obtain ⟨rfl, rfl⟩ := h
      exact hq
  · intro h
    exact ⟨n :: p, h, by simp⟩

theorem nodup_names (t : Tree) (p : Path) : (t.names p).Nodup := List.nodup_dedup _

/-- A bound on the length of the paths. -/
def depth (t : Tree) : Nat := (t.entries.map fun e => e.1.length).foldr max 0

theorem length_le_depth {t : Tree} (h : t.get p ≠ none) : p.length ≤ t.depth := by
  have le_foldr {l : List Nat} {k : Nat} (hk : k ∈ l) : k ≤ l.foldr max 0 := by
    induction l with
    | nil => cases hk
    | cons m l ih =>
      rcases List.mem_cons.mp hk with rfl | hk
      · exact le_max_left _ _
      · exact (ih hk).trans (le_max_right _ _)
  obtain ⟨e, he, rfl⟩ := List.mem_map.mp (mem_keys_iff.mpr h)
  exact le_foldr (List.mem_map_of_mem he)

/-! ## Updates -/

/-- Put an object at a path: below a directory, and over children only as a directory. -/
def set (t : Tree) (p : Path) (o : Obj) (hp : ∀ n d, p = n :: d → ∃ m, t.get d = some (.dir m))
    (hc : o.isDir = true ∨ ∀ n, t.get (n :: p) = none) : Tree where
  entries := (p, o) :: t.entries
  parents n q h := by
    rw [lookup_cons_ite] at h ⊢
    by_cases hq : q = p
    · subst hq
      rw [if_neg (List.cons_ne_self n q)] at h
      rw [if_pos rfl]
      rcases hc with hc | hc
      · obtain ⟨m, rfl⟩ := Obj.isDir_iff.mp hc
        exact ⟨m, rfl⟩
      · exact absurd (hc n) h
    · rw [if_neg hq]
      by_cases hn : n :: q = p
      · exact hp n q hn.symm
      · rw [if_neg hn] at h
        exact dir_of_child h

@[simp] theorem get_set {t : Tree} {hp hc} (q : Path) :
    (t.set p o hp hc).get q = if q = p then some o else t.get q :=
  lookup_cons_ite _ _ _ _

/-- Take away an object without children. -/
def erase (t : Tree) (p : Path) (hc : ∀ n, t.get (n :: p) = none) : Tree where
  entries := t.entries.filter fun e => e.1 ≠ p
  parents n q h := by
    rw [lookup_filter (f := fun r => r ≠ p)] at h ⊢
    simp only [decide_not, Bool.not_eq_true', decide_eq_false_iff_not, ite_not] at h ⊢
    split at h
    · exact absurd rfl h
    · have hq : q ≠ p := by
        rintro rfl
        exact h (hc n)
      rw [if_neg hq]
      exact dir_of_child h

@[simp] theorem get_erase {t : Tree} {hc} (q : Path) :
    (t.erase p hc).get q = if q = p then none else t.get q := by
  rw [get, erase, lookup_filter (f := fun r => r ≠ p)]
  by_cases hq : q = p <;> simp [hq, get]

/-- Where a path goes when the objects at and below `src` move to `dst`. -/
def relocate (src dst p : Path) : Path :=
  if src <:+ p then p.take (p.length - src.length) ++ dst else p

@[simp] theorem relocate_append (src dst l : Path) : relocate src dst (l ++ src) = l ++ dst := by
  rw [relocate, if_pos (List.suffix_append l src)]
  simp

theorem relocate_of_not_below (h : ¬ src <:+ p) : relocate src dst p = p := if_neg h

theorem relocate_eq (h : relocate src dst p = q) : (∃ l, p = l ++ src ∧ q = l ++ dst) ∨
    ¬ src <:+ p ∧ q = p := by
  by_cases hs : src <:+ p
  · obtain ⟨l, rfl⟩ := hs
    rw [relocate_append] at h
    exact .inl ⟨l, rfl, h.symm⟩
  · rw [relocate_of_not_below hs] at h
    exact .inr ⟨hs, h.symm⟩

/-- The entries after everything at and below `src` has moved over `dst`. -/
def moved (t : Tree) (src dst : Path) : List (Path × Obj) :=
  (t.entries.filter fun e => !decide (dst <:+ e.1)).map fun e => (relocate src dst e.1, e.2)

theorem lookup_moved_dst {t : Tree} (h : ¬ src <:+ dst) (h' : ¬ dst <:+ src) (l : Path) :
    (t.moved src dst).lookup (l ++ dst) = t.get (l ++ src) := by
  rw [moved, ← relocate_append src dst l, lookup_map_key,
    lookup_filter (f := fun p => !decide (dst <:+ p)), if_pos]
  · rfl
  · rw [Bool.not_eq_true', decide_eq_false_iff_not]
    intro hd
    rcases List.suffix_or_suffix_of_suffix hd (List.suffix_append l src) with hd | hd
    · exact h' hd
    · exact h hd
  · intro e he heq
    have hkept : ¬ dst <:+ e.1 := by simpa using (List.mem_filter.mp he).2
    rw [relocate_append] at heq
    rcases relocate_eq heq with ⟨l', hl, hl'⟩ | ⟨-, hl⟩
    · rw [hl, List.append_cancel_right hl']
    · exact absurd (hl ▸ List.suffix_append l dst) hkept

theorem lookup_moved_src {t : Tree} (hq : ¬ dst <:+ q) (hs : src <:+ q) :
    (t.moved src dst).lookup q = none := by
  refine lookup_map_key_eq_none fun e _ heq => ?_
  rcases relocate_eq heq with ⟨l, -, rfl⟩ | ⟨hn, rfl⟩
  · exact hq (List.suffix_append l dst)
  · exact hn hs

theorem lookup_moved_other {t : Tree} (hq : ¬ dst <:+ q) (hs : ¬ src <:+ q) :
    (t.moved src dst).lookup q = t.get q := by
  have hself : relocate src dst q = q := relocate_of_not_below hs
  have hmap := lookup_map_key (l := t.entries.filter fun e => !decide (dst <:+ e.1))
    (f := relocate src dst) q fun e _ heq => by
      rw [hself] at heq
      rcases relocate_eq heq with ⟨l, -, rfl⟩ | ⟨-, hl⟩
      · exact absurd (List.suffix_append l dst) hq
      · exact hl.symm
  rw [hself, lookup_filter (f := fun p => !decide (dst <:+ p)), if_pos (by simpa using hq)]
    at hmap
  exact hmap

theorem not_suffix_of_cons {d q : Path} (h : ¬ d <:+ n :: q) : ¬ d <:+ q :=
  fun hd => h (hd.trans (List.suffix_cons n q))

/-- Move everything at and below `src` to `dst`. -/
def move (t : Tree) (src dst : Path) (h : ¬ src <:+ dst) (h' : ¬ dst <:+ src)
    (hp : ∀ n d, dst = n :: d → ∃ m, t.get d = some (.dir m)) : Tree where
  entries := t.moved src dst
  parents n q hq := by
    by_cases hd : dst <:+ n :: q
    · obtain ⟨l, hl⟩ := hd
      cases l with
      | nil =>
        obtain rfl : dst = n :: q := hl
        -- the destination itself lies in a directory that stays where it is
        have hsq : ¬ src <:+ q := fun hs => h (hs.trans (List.suffix_cons n q))
        have hdq : ¬ n :: q <:+ q := fun hd => Nat.not_succ_le_self _ hd.length_le
        rw [lookup_moved_other hdq hsq]
        exact hp n q rfl
      | cons m l =>
        obtain ⟨rfl, rfl⟩ : m = n ∧ l ++ dst = q := List.cons.inj hl
        rw [← List.cons_append, lookup_moved_dst h h'] at hq
        rw [lookup_moved_dst h h']
        exact dir_of_child hq
    · have hdq := not_suffix_of_cons hd
      by_cases hs : src <:+ n :: q
      · exact absurd (lookup_moved_src hd hs) hq
      · have hsq := not_suffix_of_cons hs
        rw [lookup_moved_other hd hs] at hq
        rw [lookup_moved_other hdq hsq]
        exact dir_of_child hq

section
variable {t : Tree} {h : ¬ src <:+ dst} {h' : ¬ dst <:+ src}
  {hp : ∀ n d, dst = n :: d → ∃ m, t.get d = some (.dir m)}

theorem get_move_dst (l : Path) : (t.move src dst h h' hp).get (l ++ dst) = t.get (l ++ src) :=
  lookup_moved_dst h h' l

theorem get_move_src (hs : src <:+ q) : (t.move src dst h h' hp).get q = none := by
  refine lookup_moved_src (fun hd => ?_) hs
  rcases List.suffix_or_suffix_of_suffix hd hs with hd | hd
  · exact h' hd
  · exact h hd

theorem get_move_other (hd : ¬ dst <:+ q) (hs : ¬ src <:+ q) :
    (t.move src dst h h' hp).get q = t.get q :=
  lookup_moved_other hd hs

end

/-! ## Operations -/

/-- The directory a new object is put into must be there. -/
def checkParent (t : Tree) : Path → Except Errno Unit
  | [] => .ok ()
  | _ :: d =>
    match t.get d with
    | some (.dir _) => .ok ()
    | some _ => .error .enotdir
    | none => .error .enoent

theorem checkParent_eq_ok {t : Tree} : t.checkParent p = .ok () ↔
    ∀ n d, p = n :: d → ∃ m, t.get d = some (.dir m) := by
  cases p with
  | nil => simp [checkParent]
  | cons n d =>
    rw [checkParent]
    split <;> simp_all

/-- A new object where none is: `mkdir`, `symlink`, and `open` with `O_CREAT | O_EXCL`. -/
def add (t : Tree) (p : Path) (o : Obj) : Except Errno Tree :=
  if h : t.get p = none then
    match hp : t.checkParent p with
    | .ok () => .ok (t.set p o (checkParent_eq_ok.mp hp) (.inr fun n => get_below_eq_none h [n]))
    | .error e => .error e
  else .error .eexist

theorem add_eq_ok {t t' : Tree} (h : t.add p o = .ok t') : t.get p = none ∧
    (∀ n d, p = n :: d → ∃ m, t.get d = some (.dir m)) ∧
    ∀ q, t'.get q = if q = p then some o else t.get q := by
  unfold add at h
  split at h
  · rename_i hnone
    split at h
    · rename_i hp
      cases h
      exact ⟨hnone, checkParent_eq_ok.mp hp, get_set⟩
    · cases h
  · cases h

/-- Another object of the same kind in the place of one; the tree is the same when the object is. -/
def update (t : Tree) (p : Path) (o' : Obj) (h : t.get p = some o) (hk : o.isDir = o'.isDir) :
    Tree :=
  if o = o' then t
  else t.set p o' (fun n d hd => dir_of_child (n := n) (by simp [← hd, h])) <| by
    by_cases ho : o'.isDir = true
    · exact .inl ho
    · refine .inr fun n => ?_
      by_contra hn
      obtain ⟨m, hm⟩ := dir_of_child hn
      obtain rfl := Option.some.inj (h.symm.trans hm)
      exact ho hk.symm

@[simp] theorem get_update {t : Tree} {h : t.get p = some o} {hk} (q : Path) :
    (t.update p o' h hk).get q = if q = p then some o' else t.get q := by
  unfold update
  split
  · rename_i ho
    subst ho
    split
    · rename_i hq
      rw [hq, h]
    · rfl
  · exact get_set q

/-- Other permissions on a file or a directory. -/
def chmod (t : Tree) (p : Path) (mode : Nat) : Except Errno Tree :=
  match h : t.get p with
  | some (.file _ content) => .ok (t.update p (.file mode content) h rfl)
  | some (.dir _) => .ok (t.update p (.dir mode) h rfl)
  | some _ => .error .eloop
  | none => .error .enoent

/-- Other content in a file. -/
def write (t : Tree) (p : Path) (content : Bytes) : Except Errno Tree :=
  match h : t.get p with
  | some (.file mode _) => .ok (t.update p (.file mode content) h rfl)
  | some (.dir _) => .error .eisdir
  | some _ => .error .eloop
  | none => .error .enoent

/-- Take away an object that is no directory. -/
def unlink (t : Tree) (p : Path) : Except Errno Tree :=
  match h : t.get p with
  | none => .error .enoent
  | some o =>
    if ho : o.isDir = true then .error .eisdir
    else .ok <| t.erase p fun n => by
      by_contra hn
      obtain ⟨m, hm⟩ := dir_of_child hn
      obtain rfl := Option.some.inj (h.symm.trans hm)
      exact ho rfl

/-- Take away an empty directory. -/
def rmdir (t : Tree) (p : Path) : Except Errno Tree :=
  match t.get p with
  | none => .error .enoent
  | some (.dir _) =>
    if h : t.names p = [] then
      .ok <| t.erase p fun n => by
        by_contra hn
        simpa [h] using mem_names.mpr hn
    else .error .enotempty
  | some _ => .error .enotdir

/-- What `rename` requires of the object at the destination. -/
def checkReplace (t : Tree) (o : Obj) (dst : Path) : Except Errno Unit :=
  match t.get dst with
  | none => .ok ()
  | some o' =>
    if o.isDir then
      if o'.isDir then if t.names dst = [] then .ok () else .error .enotempty
      else .error .enotdir
    else if o'.isDir then .error .eisdir else .ok ()

/-- A destination that may be replaced has no children. -/
theorem childless_of_checkReplace {t : Tree} (h : t.checkReplace o dst = .ok ()) (n : String) :
    t.get (n :: dst) = none := by
  by_contra hn
  obtain ⟨m, hm⟩ := dir_of_child hn
  simp only [checkReplace, hm, Obj.isDir] at h
  have := mem_names.mpr hn
  split at h
  · simp_all
  · cases h

/-- Move an object and what is below it, over a file or an empty directory. -/
def rename (t : Tree) (src dst : Path) : Except Errno Tree :=
  match hsrc : t.get src with
  | none => .error .enoent
  | some o =>
    if src = dst then .ok t
    else if h : src <:+ dst then .error .einval
    else
      match hp : t.checkParent dst, hr : t.checkReplace o dst with
      | .ok (), .ok () => .ok <| t.move src dst h (fun ⟨l, hl⟩ => by
          cases l with
          | nil => exact h (hl ▸ List.suffix_rfl)
          | cons n l =>
            have hne : t.get ((n :: l) ++ dst) ≠ none := by simp [hl, hsrc]
            exact hne (get_below_of_childless (childless_of_checkReplace hr) (by simp)))
          (checkParent_eq_ok.mp hp)
      | .error e, _ => .error e
      | .ok (), .error e => .error e

/-! ### What the operations do -/

theorem chmod_eq_ok {t t' : Tree} (h : t.chmod p mode = .ok t') :
    ((∃ m content, t.get p = some (.file m content) ∧
        ∀ q, t'.get q = if q = p then some (.file mode content) else t.get q) ∨
      ∃ m, t.get p = some (.dir m) ∧
        ∀ q, t'.get q = if q = p then some (.dir mode) else t.get q) := by
  unfold chmod at h
  split at h
  · rename_i m content hp
    cases h
    exact .inl ⟨m, content, hp, get_update⟩
  · rename_i m hp
    cases h
    exact .inr ⟨m, hp, get_update⟩
  · cases h
  · cases h

theorem write_eq_ok {t t' : Tree} (h : t.write p content = .ok t') :
    ∃ mode old, t.get p = some (.file mode old) ∧
      ∀ q, t'.get q = if q = p then some (.file mode content) else t.get q := by
  unfold write at h
  split at h
  · rename_i m old hp
    cases h
    exact ⟨m, old, hp, get_update⟩
  all_goals cases h

theorem unlink_eq_ok {t t' : Tree} (h : t.unlink p = .ok t') :
    (∃ o, t.get p = some o ∧ o.isDir = false) ∧
      ∀ q, t'.get q = if q = p then none else t.get q := by
  unfold unlink at h
  split at h
  · cases h
  · rename_i o hp
    split at h
    · cases h
    · rename_i ho
      cases h
      exact ⟨⟨o, hp, Bool.eq_false_iff.mpr ho⟩, get_erase⟩

theorem rmdir_eq_ok {t t' : Tree} (h : t.rmdir p = .ok t') :
    (∃ m, t.get p = some (.dir m)) ∧ (∀ n, t.get (n :: p) = none) ∧
      ∀ q, t'.get q = if q = p then none else t.get q := by
  unfold rmdir at h
  split at h
  · cases h
  · rename_i m hp
    split at h
    · rename_i hnames
      cases h
      refine ⟨⟨m, hp⟩, fun n => ?_, get_erase⟩
      by_contra hn
      simpa [hnames] using mem_names.mpr hn
    · cases h
  · cases h

theorem rename_eq_ok {t t' : Tree} (h : t.rename src dst = .ok t') (hne : src ≠ dst) :
    (∃ o, t.get src = some o) ∧ ¬ src <:+ dst ∧ (∀ n, t.get (n :: dst) = none) ∧
      (∀ l, t'.get (l ++ dst) = t.get (l ++ src)) ∧ (∀ q, src <:+ q → t'.get q = none) ∧
      ∀ q, ¬ dst <:+ q → ¬ src <:+ q → t'.get q = t.get q := by
  unfold rename at h
  split at h
  · cases h
  · rename_i o hsrc
    rw [if_neg hne] at h
    split at h
    · cases h
    · rename_i hs
      split at h
      · rename_i hp hr
        cases h
        exact ⟨⟨o, hsrc⟩, hs, childless_of_checkReplace hr, get_move_dst,
          fun q => get_move_src, fun q => get_move_other⟩
      · cases h
      · cases h

/-! ### When the operations succeed -/

theorem add_of_there {t : Tree} (h : t.get p ≠ none) : t.add p o = .error .eexist := by
  rw [add, dif_neg h]

theorem add_of_orphan {t : Tree} (h : t.get d = none) : t.add (n :: d) o = .error .enoent := by
  have hparent : t.checkParent (n :: d) = .error .enoent := by rw [checkParent, h]
  unfold add
  rw [dif_pos (show t.get (n :: d) = none from get_below_eq_none h [n])]
  split
  · rename_i hp
    cases hparent.symm.trans hp
  · rename_i e hp
    exact congrArg Except.error (Except.error.inj (hp.symm.trans hparent))

theorem add_succeeds {t : Tree} (h : t.get p = none)
    (hp : ∀ n d, p = n :: d → ∃ m, t.get d = some (.dir m)) : ∃ t', t.add p o = .ok t' := by
  unfold add
  rw [dif_pos h]
  split
  · exact ⟨_, rfl⟩
  · rename_i he
    rw [checkParent_eq_ok.mpr hp] at he
    cases he

theorem write_succeeds {t : Tree} (h : t.get p = some (.file m c)) :
    ∃ t', t.write p content = .ok t' := by
  unfold write
  split
  · exact ⟨_, rfl⟩
  all_goals simp_all

theorem chmod_succeeds {t : Tree} (h : t.get p = some o)
    (ho : (∃ m c, o = .file m c) ∨ ∃ m, o = .dir m) : ∃ t', t.chmod p mode = .ok t' := by
  unfold chmod
  split
  · exact ⟨_, rfl⟩
  · exact ⟨_, rfl⟩
  all_goals simp_all

theorem unlink_succeeds {t : Tree} (h : t.get p = some o) (ho : o.isDir = false) :
    ∃ t', t.unlink p = .ok t' := by
  unfold unlink
  split
  · simp_all
  · split
    · simp_all
    · exact ⟨_, rfl⟩

theorem rmdir_succeeds {t : Tree} (h : t.get p = some (.dir m)) (hc : ∀ n, t.get (n :: p) = none) :
    ∃ t', t.rmdir p = .ok t' := by
  have hnames : t.names p = [] :=
    List.eq_nil_iff_forall_not_mem.mpr fun n hn => mem_names.mp hn (hc n)
  unfold rmdir
  rw [h]
  exact ⟨_, dif_pos hnames⟩

theorem rename_succeeds {t : Tree} (hsrc : t.get src = some o) (hs : ¬ src <:+ dst)
    (hp : ∀ n d, dst = n :: d → ∃ m, t.get d = some (.dir m))
    (hr : t.checkReplace o dst = .ok ()) : ∃ t', t.rename src dst = .ok t' := by
  have hne : src ≠ dst := fun he => hs (he ▸ List.suffix_rfl)
  unfold rename
  split
  · simp_all
  · rename_i o' ho'
    obtain rfl := Option.some.inj (hsrc.symm.trans ho')
    rw [if_neg hne, dif_neg hs]
    split
    · exact ⟨_, rfl⟩
    · rename_i he
      rw [checkParent_eq_ok.mpr hp] at he
      cases he
    · rename_i he
      rw [hr] at he
      cases he

end Tree
end Fs
