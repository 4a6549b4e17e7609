import ShuttleGate.Keys.Loaders
import ShuttleGate.Files.Making

/-! # Whose files

The server and every peer have a directory of their own in a generation. Writing one of its files
changes no other file, and makes no more than directories on the way. -/

namespace ShuttleGate

open Fs Effect Os Files State

namespace Keys

inductive Owner
  | server
  | peer (name : String)
  deriving DecidableEq

/-- The directory of an owner in a generation. -/
def Owner.dir : Owner → Path
  | server => serverAt
  | peer name => peerAt name

theorem Owner.dir_injective : Function.Injective Owner.dir := by
  intro o o' h
  cases o <;> cases o' <;> simp_all [dir, serverAt, peerAt]

/-- A file of an owner lies on the way to no owner. -/
theorem file_not_above (n : String) (o o' : Owner) : ¬ n :: o.dir <:+ o'.dir := by
  intro h
  have hlength := h.length_le
  cases o with
  | server =>
    cases o' with
    | server => simp [Owner.dir, serverAt] at hlength
    | peer name =>
      have := h.eq_of_length (by simp [Owner.dir, serverAt, peerAt])
      simp [Owner.dir, serverAt, peerAt] at this
  | peer name => cases o' <;> simp [Owner.dir, serverAt, peerAt] at hlength

theorem file_inj {n n' : String} {o o' : Owner} : n :: o.dir = n' :: o'.dir ↔ n = n' ∧ o = o' := by
  rw [List.cons.injEq, Owner.dir_injective.eq_iff]

/-- A directory the files of some owner lie in. -/
def OnTheWay (l : Path) : Prop := ∃ o : Owner, l <:+ o.dir

/-- Outside `P` the data are what they were, but for directories on the way to the files of an
owner. -/
def Changes (P : Path → Prop) (f f' : Data) : Prop :=
  ∀ l, ¬ P l → f' l = f l ∨
    OnTheWay l ∧ (∀ o, f l = some o → o.isDir = true) ∧ ∃ m, f' l = some (.dir m)

section
variable {P Q : Path → Prop} {f f' f'' : Data} {o : Owner} {n : String}

theorem Changes.refl : Changes P f f := fun _ _ => .inl rfl

theorem Changes.mono (h : Changes P f f') (hPQ : ∀ l, P l → Q l) : Changes Q f f' :=
  fun l hl => h l fun hp => hl (hPQ l hp)

theorem Changes.trans (h : Changes P f f') (h' : Changes P f' f'') : Changes P f f'' := by
  intro l hl
  rcases h l hl with heq | ⟨hway, hdir, -⟩
  · rw [← heq]
    exact h' l hl
  · rcases h' l hl with heq' | ⟨-, -, hdir'⟩
    · rw [heq']
      exact h l hl
    · exact .inr ⟨hway, hdir, hdir'⟩

/-- The files of the owners outside `P` have not changed at all. -/
theorem Changes.file (h : Changes P f f') (hP : ¬ P (n :: o.dir)) : f' (n :: o.dir) = f (n :: o.dir) :=
  (h _ hP).resolve_right fun ⟨⟨o', ho'⟩, _⟩ => file_not_above n o o' ho'

/-- No other file has changed. -/
theorem Changes.object (h : Changes P f f') (hP : ¬ P l) {x : Obj} (hx : x.isDir = false) :
    f' l = some x ↔ f l = some x := by
  rcases h l hP with heq | ⟨-, hdir, m, hm⟩
  · rw [heq]
  · constructor
    · intro hl
      cases hm.symm.trans hl
      cases hx
    · intro hl
      rw [hdir x hl] at hx
      cases hx

end

/-! ## Writing a file -/

section
variable {D : Path} {t : Tree}

theorem append_suffix_iff {l d : Path} : l ++ D <:+ d ++ D ↔ l <:+ d := by
  rw [← List.reverse_prefix, List.reverse_append, List.reverse_append, List.prefix_append_right_inj,
    List.reverse_prefix]

/-- A file of an owner is replaced. -/
theorem atomicWriteBytes_changes (o : Owner) (n : String) (content : Bytes) (mode : Nat)
    (hD : t.get D ≠ none) :
    (atomicWriteBytes (n :: (o.dir ++ D)) content mode).Yields machine (fun _ u =>
      u.get D ≠ none ∧ dataAt u D (n :: o.dir) = some (.file mode content) ∧
        Changes (· = n :: o.dir) (dataAt t D) (dataAt u D)) t := by
  have hne : o.dir ≠ [] := by cases o <;> simp [Owner.dir, serverAt, peerAt]
  -- only what is missing on the way is made
  have hway : (ensurePrivateDirectory (o.dir ++ D)).Only
      (Within (fun q => q <:+ o.dir ++ D ∧ ¬ q <:+ D) D) := by
    refine ensurePrivateDirectory_within (fun q hq => ?_)
      ⟨List.suffix_rfl, fun hs => hne (by simpa using hs.length_le)⟩
    by_cases hqD : q <:+ D
    · exact .inr hqD
    · exact .inl ⟨hq, hqD⟩
  have hensured : (ensurePrivateDirectory (o.dir ++ D)).Yields machine (fun _ u =>
      u.get (o.dir ++ D) = some (.dir 0o700) ∧
      ((∀ x, t.get (o.dir ++ D) = some x → x.isDir = true) ∧
        (∀ q, q ≠ o.dir ++ D → t.get q ≠ none → u.get q = t.get q) ∧
        ∀ q, ¬ (q <:+ o.dir ++ D ∧ ¬ q <:+ D) → u.get q = t.get q)) t :=
    ((ensurePrivateDirectory_adds (o.dir ++ D) t).and_keeps (keeps_of_within hway hD)
      fun _ _ => rfl).mono fun _ u ⟨⟨hdir, hwas, hthere⟩, hother⟩ => ⟨hdir, hwas, hthere, hother⟩
  refine (atomicWriteBytes_after hensured n content mode).mono fun _ u ⟨hdir, hfile, v, hv, hrest⟩ => ?_
  obtain ⟨hwas, hthere, hother⟩ := hv
  have hdirs {l : Path} (hl : l <:+ o.dir) : ∃ m, u.get (l ++ D) = some (.dir m) := by
    obtain ⟨k, hk⟩ := hl
    by_cases hnil : k = []
    · subst hnil
      rw [List.nil_append] at hk
      exact ⟨_, hk ▸ hdir⟩
    · refine Tree.dir_of_below (l := k) ?_ hnil
      rw [← List.append_assoc, hk, hdir]
      nofun
  refine ⟨?_, hfile, fun l hl => ?_⟩
  · obtain ⟨m, hm⟩ := hdirs (l := []) List.nil_suffix
    rw [List.nil_append] at hm
    rw [hm]
    nofun
  · have hrest' : u.get (l ++ D) = v.get (l ++ D) := hrest _ fun he => hl (by
      have : l ++ D = (n :: o.dir) ++ D := he
      exact List.append_cancel_right this)
    by_cases hway : l <:+ o.dir
    · refine .inr ⟨⟨o, hway⟩, fun x hx => ?_, hdirs hway⟩
      by_cases hlo : l = o.dir
      · subst hlo
        exact hwas x hx
      · have hsame := hthere (l ++ D) (fun he => hlo (List.append_cancel_right he)) (by
          rw [show t.get (l ++ D) = some x from hx]
          nofun)
        obtain ⟨m, hm⟩ := hdirs hway
        rw [hrest', hsame, show t.get (l ++ D) = some x from hx] at hm
        cases hm
        rfl
    · exact .inl (hrest'.trans (hother _ fun hs => hway (append_suffix_iff.mp hs.1)))

end

end Keys
end ShuttleGate
