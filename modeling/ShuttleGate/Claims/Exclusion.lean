import ShuttleGate.Claims.Sockets
import ShuttleGate.Effect.Pool
import Mathlib.Data.Finset.Max

/-! # Supervisors side by side

Any number of supervisors over common claim files. While a command runs its claims are locked, so
no two running commands share one; and since every supervisor locks in ascending order, a refused
one has met a holder that was refused at a later claim, or was not refused at all. -/

namespace ShuttleGate

open Fs Effect

namespace Claims

variable {ι : Type}

/-- Supervisor `i` has been refused a claim. -/
def World.Refused (w : World ι) (i : ι) : Prop := ∃ c j, (i, c, j) ∈ w.refusals

/-- What holds of the locks, the running commands and the refusals of supervisors with the given
claims. -/
structure Inv (claims : ι → List PurePath) (w : World ι) : Prop where
  held : ∀ {c i d}, w.holder c = some (i, d) → c ∈ claims i
  exclusive : ∀ {i}, w.running i → ∀ c ∈ claims i, ∃ d, w.holder c = some (i, d)
  refused : ∀ {i c j}, (i, c, j) ∈ w.refusals → i ≠ j ∧ c ∈ claims i ∧ c ∈ claims j
  /-- A refused supervisor holds only claims below the one it was refused. -/
  below : ∀ {c j d c' k}, w.holder c = some (j, d) → (j, c', k) ∈ w.refusals → c.text < c'.text
  /-- Along the chain of refusals the claims ascend. -/
  ascending : ∀ {i c j c' k}, (i, c, j) ∈ w.refusals → (j, c', k) ∈ w.refusals → c.text < c'.text
  /-- The holder that refused another still holds the claim, or was refused or disturbed since. -/
  kept : ∀ {i c j}, (i, c, j) ∈ w.refusals →
    (∃ d, w.holder c = some (j, d)) ∨ w.Refused j ∨ w.disturbed j

/-- The part of the world that belongs to supervisor `i` is the same. -/
structure SameFor (i : ι) (w w' : World ι) : Prop where
  files : w'.files i = w.files i
  running : w'.running i ↔ w.running i
  disturbed : w'.disturbed i ↔ w.disturbed i
  holder : ∀ c d, w'.holder c = some (i, d) ↔ w.holder c = some (i, d)
  refusals : ∀ c j, (i, c, j) ∈ w'.refusals ↔ (i, c, j) ∈ w.refusals

theorem SameFor.refl (i : ι) (w : World ι) : SameFor i w w :=
  ⟨rfl, .rfl, .rfl, fun _ _ => .rfl, fun _ _ => .rfl⟩

theorem SameFor.trans {i : ι} {w w' w'' : World ι} (h : SameFor i w w') (h' : SameFor i w' w'') :
    SameFor i w w'' where
  files := h'.files.trans h.files
  running := h'.running.trans h.running
  disturbed := h'.disturbed.trans h.disturbed
  holder c d := (h'.holder c d).trans (h.holder c d)
  refusals c j := (h'.refusals c j).trans (h.refusals c j)

theorem SameFor.refused {i : ι} {w w' : World ι} (h : SameFor i w w') :
    w'.Refused i ↔ w.Refused i :=
  exists_congr fun c => exists_congr fun j => h.refusals c j

/-- A supervisor relies on its part being left alone and leaves the parts of the others alone. -/
def contract (i : ι) : Prog.Contract (World ι) where
  rely := SameFor i
  grant w w' := ∀ j, i ≠ j → SameFor j w w'
  rely_refl := SameFor.refl i
  rely_trans := SameFor.trans

variable {claims : ι → List PurePath} {i : ι} {w w' : World ι}

/-! ## Where a supervisor stands -/

/-- Supervisor `i` holds the claims `done` and has met no failure yet. -/
structure Acquiring (i : ι) (done : List PurePath) (w : World ι) : Prop where
  idle : ¬ w.running i
  calm : ¬ w.disturbed i
  fresh : ¬ w.Refused i
  holds : ∀ c, (∃ d, w.holder c = some (i, d)) ↔ c ∈ done

/-- Supervisor `i` runs no command any more. -/
def Ended (i : ι) (w : World ι) : Prop := ¬ w.running i ∧ (w.Refused i ∨ w.disturbed i)

theorem Acquiring.stable (h : SameFor i w w') (hw : Acquiring i done w) : Acquiring i done w' where
  idle := by rw [h.running]; exact hw.idle
  calm := by rw [h.disturbed]; exact hw.calm
  fresh := by rw [h.refused]; exact hw.fresh
  holds c := (exists_congr fun d => h.holder c d).trans (hw.holds c)

theorem Ended.stable (h : SameFor i w w') (hw : Ended i w) : Ended i w' := by
  rwa [Ended, h.running, h.refused, h.disturbed]

theorem Acquiring.locked (h : Acquiring i done w) :
    Acquiring i (done ++ [c]) (w.locked i d c) where
  idle := h.idle
  calm := h.calm
  fresh := h.fresh
  holds b := by
    by_cases hb : b = c
    · simp [World.locked, hb]
    · simpa [World.locked, hb] using h.holds b

/-! ## Steps -/

theorem grant_locked (hfree : w.holder c = none ∨ w.holder c = some (i, d)) :
    (contract i).grant w (w.locked i d c) := by
  intro j hj
  refine ⟨rfl, .rfl, .rfl, fun c' d' => ?_, fun _ _ => .rfl⟩
  simp only [World.locked, Function.update_apply]
  split
  · subst c'
    rcases hfree with hn | hn <;> simp [hn, hj]
  · rfl

theorem Inv.locked (h : Inv claims w) (hc : c ∈ claims i)
    (hfree : w.holder c = none ∨ w.holder c = some (i, d)) (hi : ¬ w.Refused i) :
    Inv claims (w.locked i d c) := by
  -- whoever held a claim still does
  have mono {c' j d'} (hh : w.holder c' = some (j, d')) :
      ∃ e, (w.locked i d c).holder c' = some (j, e) := by
    by_cases hcc : c' = c
    · subst hcc
      rcases hfree with hn | hn <;> simp_all [World.locked]
    · exact ⟨d', by simpa [World.locked, hcc] using hh⟩
  have back {c' j d'} (hh : (w.locked i d c).holder c' = some (j, d')) :
      (c' = c ∧ j = i) ∨ w.holder c' = some (j, d') := by
    by_cases hcc : c' = c
    · subst hcc
      simp only [World.locked, Function.update_self, Option.some.injEq, Prod.mk.injEq] at hh
      exact .inl ⟨rfl, hh.1.symm⟩
    · exact .inr (by simpa [World.locked, hcc] using hh)
  refine ⟨fun hh => ?_, fun hr c' hc' => ?_, h.refused, fun hh hr => ?_, h.ascending, fun hr => ?_⟩
  · rcases back hh with ⟨rfl, rfl⟩ | hh
    · exact hc
    · exact h.held hh
  · obtain ⟨d', hd'⟩ := h.exclusive hr c' hc'
    exact mono hd'
  · rcases back hh with ⟨rfl, rfl⟩ | hh
    · exact absurd ⟨_, _, hr⟩ hi
    · exact h.below hh hr
  · rcases h.kept hr with ⟨d', hd'⟩ | hr
    · exact .inl (mono hd')
    · exact .inr hr

theorem grant_refuse : (contract i).grant w (w.refuse i c j) := fun k hk =>
  ⟨rfl, .rfl, .rfl, fun _ _ => .rfl, by simp [World.refuse, Ne.symm hk]⟩

/-- `i` is refused the claim after those it holds. -/
theorem Inv.refuse (h : Inv claims w) (hc : c ∈ claims i) (hj : w.holder c = some (j, d))
    (hij : i ≠ j) (hi : ¬ w.Refused i) (hcalm : ¬ w.disturbed i)
    (hlt : ∀ b e, w.holder b = some (i, e) → b.text < c.text) : Inv claims (w.refuse i c j) := by
  have back {a b k} (hr : (a, b, k) ∈ (w.refuse i c j).refusals) :
      (a = i ∧ b = c ∧ k = j) ∨ (a, b, k) ∈ w.refusals := by
    simpa [World.refuse] using hr
  have mono {a} (hr : w.Refused a) : (w.refuse i c j).Refused a :=
    hr.imp fun _ => .imp fun _ => List.mem_cons_of_mem _
  refine ⟨h.held, h.exclusive, fun hr => ?_, fun hh hr => ?_, fun hr hr' => ?_, fun hr => ?_⟩
  · rcases back hr with ⟨rfl, rfl, rfl⟩ | hr
    · exact ⟨hij, hc, h.held hj⟩
    · exact h.refused hr
  · rcases back hr with ⟨rfl, rfl, rfl⟩ | hr
    · exact hlt _ _ hh
    · exact h.below hh hr
  · rcases back hr with ⟨rfl, rfl, rfl⟩ | hold <;> rcases back hr' with ⟨rfl, rfl, rfl⟩ | hold'
    · exact absurd rfl hij
    · exact h.below hj hold'
    · rcases h.kept hold with ⟨e, he⟩ | hr | hd
      · exact hlt _ _ he
      · exact absurd hr hi
      · exact absurd hd hcalm
    · exact h.ascending hold hold'
  · rcases back hr with ⟨rfl, rfl, rfl⟩ | hr
    · exact .inl ⟨d, hj⟩
    · exact (h.kept hr).imp id (Or.imp mono id)

variable [DecidableEq ι]

theorem grant_disturb : (contract i).grant w (w.disturb i) := fun j hj =>
  ⟨rfl, .rfl, by simp [World.disturb, Function.update_of_ne (Ne.symm hj)], fun _ _ => .rfl,
    fun _ _ => .rfl⟩

theorem Inv.disturb (h : Inv claims w) : Inv claims (w.disturb i) where
  __ := h
  kept hr := by
    rcases h.kept hr with hd | hr | hd
    · exact .inl hd
    · exact .inr (.inl hr)
    · refine .inr (.inr ?_)
      simp only [World.disturb, Function.update_apply]
      split <;> trivial

theorem grant_opened : (contract i).grant w (w.opened i d c) := fun j hj =>
  ⟨by simp [World.opened, Function.update_of_ne (Ne.symm hj)], .rfl, .rfl, fun _ _ => .rfl,
    fun _ _ => .rfl⟩

theorem Inv.opened (h : Inv claims w) : Inv claims (w.opened i d c) := { h with }

theorem grant_launched : (contract i).grant w (w.launched i) := fun j hj =>
  ⟨rfl, by simp [World.launched, Function.update_of_ne (Ne.symm hj)], .rfl, fun _ _ => .rfl,
    fun _ _ => .rfl⟩

theorem Inv.launched (h : Inv claims w) (hall : ∀ c ∈ claims i, ∃ d, w.holder c = some (i, d)) :
    Inv claims (w.launched i) := by
  refine { h with exclusive := fun {j} hr => ?_ }
  by_cases hj : j = i
  · exact hj ▸ hall
  · exact h.exclusive (by simpa [World.launched, hj] using hr)

theorem grant_exited : (contract i).grant w (w.exited i) := fun j hj =>
  ⟨rfl, by simp [World.exited, Function.update_of_ne (Ne.symm hj)], .rfl, fun _ _ => .rfl,
    fun _ _ => .rfl⟩

theorem Inv.exited (h : Inv claims w) : Inv claims (w.exited i) := by
  refine { h with exclusive := fun {j} hr => ?_ }
  by_cases hj : j = i
  · simp [World.exited, hj] at hr
  · exact h.exclusive (by simpa [World.exited, hj] using hr)

theorem holder_closed : (w.closed i d).holder c = some (j, e) ↔
    w.holder c = some (j, e) ∧ (j, e) ≠ (i, d) := by
  simp only [World.closed]
  split
  · rename_i hh
    simp [hh, eq_comm]
  · rename_i hh
    exact ⟨fun hj => ⟨hj, fun heq => hh (heq ▸ hj)⟩, And.left⟩

theorem grant_closed : (contract i).grant w (w.closed i d) := fun j hj =>
  ⟨by simp [World.closed, Function.update_of_ne (Ne.symm hj)], .rfl, .rfl,
    by simp [holder_closed, Ne.symm hj], fun _ _ => .rfl⟩

/-- Only a supervisor whose command is not running, and that was refused or disturbed, closes. -/
theorem Inv.closed (h : Inv claims w) (hidle : ¬ w.running i)
    (hend : w.Refused i ∨ w.disturbed i) : Inv claims (w.closed i d) := by
  have keep {c j e} (hh : w.holder c = some (j, e)) (hj : j ≠ i) :
      ∃ e, (w.closed i d).holder c = some (j, e) :=
    ⟨e, holder_closed.mpr ⟨hh, by simp [hj]⟩⟩
  refine ⟨fun hh => h.held (holder_closed.mp hh).1, fun {j} hr c hc => ?_, h.refused,
    fun hh => h.below (holder_closed.mp hh).1, h.ascending, fun {_ _ j} hr => ?_⟩
  · have hj : j ≠ i := fun hj => hidle (hj ▸ hr)
    obtain ⟨e, he⟩ := h.exclusive hr c hc
    exact keep he hj
  · by_cases hj : j = i
    · exact .inr (hj ▸ hend)
    · exact (h.kept hr).imp (fun ⟨_, he⟩ => keep he hj) id

/-! ## One supervisor -/

theorem Acquiring.opened (h : Acquiring i done w) : Acquiring i done (w.opened i d c) := { h with }

theorem Acquiring.ended (h : Acquiring i done w) : Ended i (w.disturb i) :=
  ⟨h.idle, .inr (by simp [World.disturb])⟩

theorem closeAll_assures (ds : List Nat) (h : Ended i w) :
    (closeAll ds).assures (machine i) (Inv claims) (contract i) (fun _ => Ended i) w := by
  have honly : (closeAll ds).Only fun op => op.isClose = true := by
    refine Prog.only_forEach (fun d => ?_) ds
    refine Prog.Only.handle (Prog.only_perform.mpr rfl) fun e => ?_
    split <;> simp
  refine honly.assures (fun _ _ hst hs => hs.stable hst) ?_ h
  intro β op s r s' hop hs hinv hstep
  cases op with
  | close d =>
    obtain rfl : s' = s.closed i d := hstep
    exact ⟨hinv.closed hs.1 hs.2, grant_closed, hs⟩
  | _ => cases hop

theorem Ended.disturb (h : Ended i w) : Ended i (w.disturb i) :=
  ⟨h.1, .inr (by simp [World.disturb])⟩

/-- How the acquisition has come out: with every claim of `done` locked, or not at all. -/
def Acquired (i : ι) (done : List PurePath) (locked : Except Exn Bool) (w : World ι) : Prop :=
  match locked with
  | .ok true => Acquiring i done w
  | _ => Ended i w

omit [DecidableEq ι] in
theorem Acquired.stable {locked} (h : SameFor i w w') (hw : Acquired i done locked w) :
    Acquired i done locked w' := by
  unfold Acquired at *
  split at hw
  · exact hw.stable h
  · exact hw.stable h

theorem tryFlock_assures (h : Acquiring i done w) (hfile : w.files i d = some c)
    (hc : c ∈ claims i) (hlt : ∀ b ∈ done, b.text < c.text) :
    (tryFlock d).assures (machine i) (Inv claims) (contract i)
      (fun r w => Acquired i (done ++ [c]) r w) w := by
  refine Prog.assures_call fun t hst ht r t' hop => ?_
  replace h := h.stable hst
  replace hfile : t.files i d = some c := (congrFun hst.files d).trans hfile
  cases r with
  | ok _ =>
    obtain ⟨c', hc', hfree, rfl⟩ := hop
    obtain rfl : c' = c := Option.some.inj (hc'.symm.trans hfile)
    exact ⟨ht.locked hc hfree h.fresh, grant_locked hfree, fun u hu _ => h.locked.stable hu⟩
  | error e =>
    by_cases he : e.isBlocking = true
    · simp only [machine, Answers, he, if_true] at hop ⊢
      obtain ⟨c', j, e, hc', hj, hne, rfl⟩ := hop
      obtain rfl : c' = c := Option.some.inj (hc'.symm.trans hfile)
      -- the claim is above all it holds, so another holds it
      have hij : i ≠ j := by
        rintro rfl
        exact lt_irrefl _ (hlt _ ((h.holds _).mp ⟨e, hj⟩))
      have hended : Ended i (t.refuse i c' j) := ⟨h.idle, .inl ⟨c', j, List.mem_cons_self⟩⟩
      refine ⟨ht.refuse hc hj hij h.fresh h.calm fun b e hb => hlt b ((h.holds b).mp ⟨e, hb⟩),
        grant_refuse, Prog.assures_call fun u hu hinv r u' hop => ?_⟩
      replace hended := hended.stable hu
      cases r with
      | ok _ =>
        obtain rfl : u' = u := hop
        exact ⟨hinv, fun j _ => .refl j u', fun v hv _ => hended.stable hv⟩
      | error _ =>
        obtain rfl : u' = u.disturb i := hop
        exact ⟨hinv.disturb, grant_disturb, fun v hv _ => hended.disturb.stable hv⟩
    · simp only [machine, Answers, he] at hop ⊢
      obtain rfl : t' = t.disturb i := hop
      exact ⟨ht.disturb, grant_disturb, fun u hu _ => h.ended.stable hu⟩

theorem lockDescriptor_assures (h : Acquiring i done w) (hfile : w.files i d = some c)
    (hc : c ∈ claims i) (hlt : ∀ b ∈ done, b.text < c.text) :
    (lockDescriptor d).assures (machine i) (Inv claims) (contract i)
      (fun r w => Acquired i (done ++ [c]) r w) w := by
  refine Prog.assures_call fun t hst ht r t' hop => ?_
  replace h := h.stable hst
  replace hfile : t.files i d = some c := (congrFun hst.files d).trans hfile
  cases r with
  | error e =>
    obtain rfl : t' = t.disturb i := hop
    exact ⟨ht.disturb, grant_disturb, fun u hu _ => h.ended.stable hu⟩
  | ok info =>
    obtain rfl : t' = if info.valid then t else t.disturb i := hop
    cases hv : info.valid with
    | false =>
      simp only [hv]
      exact ⟨ht.disturb, grant_disturb, fun u hu _ => h.ended.stable hu⟩
    | true =>
      simp only [hv, if_true]
      exact ⟨ht, fun j _ => .refl j t, tryFlock_assures h hfile hc hlt⟩

/-- The loop, entered with the claims `done` locked and the rest ahead. -/
theorem acquire_assures (rest : List PurePath) (ds : List Nat) (hw : Acquiring i done w)
    (hI : Inv claims w) (hclaims : claims i = done ++ rest)
    (hsorted : (claims i).Pairwise fun a b => a.text < b.text) :
    (acquire rest ds).assures (machine i) (Inv claims) (contract i)
      (fun r w => ∃ ds locked, r = .ok (ds, locked) ∧ Acquired i (claims i) locked w) w := by
  induction rest generalizing done ds w with
  | nil =>
    intro t hst _
    refine ⟨ds, .ok true, rfl, ?_⟩
    rw [hclaims, List.append_nil]
    exact hw.stable hst
  | cons c rest ih =>
    have hc : c ∈ claims i := by simp [hclaims]
    have hlt : ∀ b ∈ done, b.text < c.text := fun b hb => by
      rw [hclaims] at hsorted
      exact (List.pairwise_append.mp hsorted).2.2 b hb c List.mem_cons_self
    refine Prog.assures_call fun t hst ht r t' hop => ?_
    replace hw := hw.stable hst
    cases r with
    | error e =>
      obtain rfl : t' = t.disturb i := hop
      exact ⟨ht.disturb, grant_disturb, fun u hu _ => ⟨_, _, rfl, hw.ended.stable hu⟩⟩
    | ok d =>
      obtain ⟨-, rfl⟩ := hop
      refine ⟨ht.opened, grant_opened, Prog.assures_andThen ?_ ht.opened⟩
      have hfile : (t.opened i d c).files i d = some c := by simp [World.opened]
      refine (lockDescriptor_assures hw.opened hfile hc hlt).mono fun r u hu hr => ?_
      match r, hr with
      | .ok true, hr => exact ih _ hr hu (by simp [hclaims])
      | .ok false, hr => exact fun v hv _ => ⟨_, _, rfl, Ended.stable hv hr⟩
      | .error e, hr => exact fun v hv _ => ⟨_, _, rfl, Ended.stable hv hr⟩

theorem runCommand_assures (command : List String) (hw : Acquiring i (claims i) w)
    (hI : Inv claims w) : (runCommand command).assures (machine i) (Inv claims) (contract i)
      (fun _ => Ended i) w := by
  refine Prog.assures_handle (fun _ _ => Ended.stable) ?_ (fun e u _ hu => ?_) hI
  · refine Prog.assures_call fun t hst ht r t' hop => ?_
    replace hw := hw.stable hst
    cases r with
    | error e =>
      obtain rfl : t' = t.disturb i := hop
      exact ⟨ht.disturb, grant_disturb, fun u hu _ => hw.ended.stable hu⟩
    | ok _ =>
      obtain rfl : t' = t.launched i := hop
      refine ⟨ht.launched fun c hc => (hw.holds c).mpr hc, grant_launched, ?_⟩
      refine Prog.assures_perform fun u hu hinv r u' hop => ?_
      obtain rfl : u' = (u.exited i).disturb i := hop
      refine ⟨hinv.exited.disturb, fun j hj => (grant_exited j hj).trans (grant_disturb j hj),
        fun v hv _ => Ended.stable hv ?_⟩
      exact ⟨by simp [World.exited, World.disturb], .inr (by simp [World.disturb])⟩
  · split <;> exact fun v hv _ => hu.stable hv

/-- A supervisor keeps the invariant, and at its end it has been refused or disturbed. -/
theorem runClaimed_assures (command : List String) (hw : Acquiring i [] w) (hI : Inv claims w)
    (hsorted : (claims i).Pairwise fun a b => a.text < b.text) :
    (runClaimed (claims i) command).assures (machine i) (Inv claims) (contract i)
      (fun _ => Ended i) w := by
  refine Prog.assures_bind ((acquire_assures _ _ hw hI rfl hsorted).mono fun r u hu hr => ?_) hI
  obtain ⟨ds, locked, rfl, hr⟩ := hr
  refine Prog.assures_finally' (fun _ _ => Ended.stable) ?_ (fun t _ => closeAll_assures ds) hu
  cases locked with
  | error e => exact fun v hv _ => Ended.stable hv hr
  | ok locked =>
    cases locked with
    | false => exact fun v hv _ => Ended.stable hv hr
    | true => exact runCommand_assures command hr hu

/-! ## Every interleaving -/

/-- Supervisors at their start, with no claim held. -/
def pool (claims : ι → List PurePath) (command : ι → List String) :
    Pool ι ClaimOp Exn Int (World ι) :=
  ⟨fun i => runClaimed (claims i) (command i), World.initial⟩

omit [DecidableEq ι] in
theorem inv_initial (claims : ι → List PurePath) : Inv claims World.initial := by
  constructor <;> intros <;> contradiction

omit [DecidableEq ι] in
theorem acquiring_initial (i : ι) : Acquiring i [] World.initial where
  idle := id
  calm := id
  fresh := fun ⟨_, _, h⟩ => by cases h
  holds c := by simp [World.initial]

/-- In every pool reached the invariant holds, and a supervisor at its end has been refused or
disturbed. -/
theorem inv_of_reach {command : ι → List String} {P : Pool ι ClaimOp Exn Int (World ι)}
    (hsorted : ∀ i, (claims i).Pairwise fun a b => a.text < b.text)
    (h : Pool.Reach machine (pool claims command) P) :
    Inv claims P.state ∧ ∀ i r, P.threads i = Prog.ofExcept r → Ended i P.state := by
  obtain ⟨hinv, hthreads⟩ := Pool.Reach.assures (C := contract) (fun i j s t hij hg => hg j hij)
    (fun i => runClaimed_assures (command i) (acquiring_initial i) (inv_initial claims) (hsorted i))
    (inv_initial claims) h
  refine ⟨hinv, fun i r hr => ?_⟩
  have hi := hthreads i
  rw [hr] at hi
  cases r <;> exact hi _ (SameFor.refl i _) hinv

/-- Among finitely many refusals along ascending claims some supervisor was not refused. -/
theorem Inv.exists_not_refused (hinv : Inv claims w) [Nonempty ι] : ∃ i, ¬ w.Refused i := by
  by_contra! hall
  have hne : w.refusals.toFinset.Nonempty := by
    obtain ⟨c, j, h⟩ := hall (Classical.arbitrary ι)
    exact ⟨_, List.mem_toFinset.mpr h⟩
  -- the refusal at the highest claim has a holder that was refused above it
  obtain ⟨⟨i, c, j⟩, hmem, hmax⟩ := w.refusals.toFinset.exists_max_image (fun r => r.2.1.text) hne
  obtain ⟨c', k, h'⟩ := hall j
  have hlt := hinv.ascending (List.mem_toFinset.mp hmem) h'
  exact absurd (hmax _ (List.mem_toFinset.mpr h')) (not_le.mpr hlt)

/-! ### A machine to play against -/

/-- A claim file opens on descriptor 3. -/
def answerOpen (i : ι) (claim : PurePath) (w : World ι) : Except Exn Nat × World ι :=
  match w.files i 3 with
  | none => (.ok 3, w.opened i 3 claim)
  | some _ => (.error (.interrupt "KeyboardInterrupt"), w.disturb i)

/-- A free claim is locked, a held one refused. -/
def answerFlock (i : ι) (descriptor : Nat) (w : World ι) : Except Exn Unit × World ι :=
  match w.files i descriptor with
  | none => (.error (.interrupt "KeyboardInterrupt"), w.disturb i)
  | some claim =>
    match w.holder claim with
    | none => (.ok (), w.locked i descriptor claim)
    | some (j, d) =>
      if (j, d) = (i, descriptor) then (.ok (), w.locked i descriptor claim)
      else (.error (.os .eagain "Resource temporarily unavailable"), w.refuse i claim j)

def oracle (i : ι) : {β : Type} → ClaimOp β → World ι → Except Exn β × World ι
  | _, .openFile claim, w => answerOpen i claim w
  | _, .fstat _, w => (.ok ⟨true, true, 0o600⟩, w)
  | _, .flock descriptor, w => answerFlock i descriptor w
  | _, .report _, w => (.ok (), w)
  | _, .launch _, w => (.ok (), w.launched i)
  | _, .awaitExit, w => (.ok 0, (w.exited i).disturb i)
  | _, .close descriptor, w => (.ok (), w.closed i descriptor)

theorem answers_oracle (i : ι) {β : Type} (op : ClaimOp β) (w : World ι) :
    (machine i).step op w (oracle i op w).1 (oracle i op w).2 := by
  cases op with
  | openFile claim =>
    change Answers i _ w (answerOpen i claim w).1 (answerOpen i claim w).2
    unfold answerOpen
    split
    · rename_i hfree
      exact ⟨hfree, rfl⟩
    · exact rfl
  | flock descriptor =>
    change Answers i _ w (answerFlock i descriptor w).1 (answerFlock i descriptor w).2
    unfold answerFlock
    split
    · exact rfl
    · rename_i claim hfile
      split
      · rename_i hfree
        exact ⟨claim, hfile, .inl hfree, rfl⟩
      · rename_i j d hheld
        split
        · rename_i hown
          exact ⟨claim, hfile, .inr (hheld.trans (congrArg _ hown)), rfl⟩
        · rename_i hother
          exact ⟨claim, j, d, hfile, hheld, hother, rfl⟩
  | _ => exact rfl

/-! ### Exclusion and progress -/

/-- Supervisors over common claim files, in any interleaving: (1) running commands share no
claim, so instances that share a bind tuple never run together, and a refusal comes from an
instance with a common tuple; (2) once every supervisor runs, was refused or has ended, with no
command ended and no other failure, one is running. -/
theorem exclusion_and_progress {arguments : ι → List String} {command : ι → List String}
    {P : Pool ι ClaimOp Exn Int (World ι)}
    (hparse : ∀ i, parseArguments (arguments i) = .ok (claims i, command i))
    (h : Pool.Reach machine (pool claims command) P) :
    (∀ i j, i ≠ j → P.state.running i → P.state.running j → (claims i).Disjoint (claims j)) ∧
    (∀ i j root root' config config', i ≠ j → root.parent = root'.parent →
      socketClaimPaths root config = some (claims i) →
      socketClaimPaths root' config' = some (claims j) →
      (P.state.running i → P.state.running j → ¬ SharesTuple config config') ∧
      (NoCollision config config' → ∀ c, (i, c, j) ∈ P.state.refusals →
        SharesTuple config config')) ∧
    (∀ i c j, (i, c, j) ∈ P.state.refusals → i ≠ j ∧ c ∈ claims i ∧ c ∈ claims j) ∧
    (Nonempty ι → (∀ i, ¬ P.state.disturbed i) →
      (∀ i, P.state.running i ∨ P.state.Refused i ∨ ∃ r, P.threads i = Prog.ofExcept r) →
      ∃ i, P.state.running i) := by
  obtain ⟨hinv, hended⟩ := inv_of_reach (fun i => ascending_of_parseArguments (hparse i)) h
  have disjoint : ∀ i j, i ≠ j → P.state.running i → P.state.running j →
      (claims i).Disjoint (claims j) := by
    intro i j hij hi hj c hci hcj
    obtain ⟨d, hd⟩ := hinv.exclusive hi c hci
    obtain ⟨e, he⟩ := hinv.exclusive hj c hcj
    exact hij (congrArg Prod.fst (Option.some.inj (hd.symm.trans he)))
  refine ⟨disjoint, ?_, fun i c j hr => hinv.refused hr, ?_⟩
  · intro i j root root' config config' hij hroot hi hj
    constructor
    · intro hri hrj hshare
      obtain ⟨c, hc, hc'⟩ := claim_of_sharesTuple hroot hi hj hshare
      exact disjoint i j hij hri hrj hc hc'
    · intro hcoll c hr
      obtain ⟨-, hc, hc'⟩ := hinv.refused hr
      exact sharesTuple_of_claim hi hj hcoll hc hc'
  · intro _ hcalm hdone
    obtain ⟨i, hi⟩ := hinv.exists_not_refused
    rcases hdone i with hrun | hr | ⟨r, hr⟩
    · exact ⟨i, hrun⟩
    · exact absurd hr hi
    · exact ((hended i r hr).2.elim hi (hcalm i)).elim

/-- Two supervisors of one claim: the first runs its command, the second is refused. -/
def contest : Pool Bool ClaimOp Exn Int (World Bool) :=
  Pool.play oracle [true, true, true, true, false, false, false]
    (pool (fun _ => [.ofText "/run/claims/0000000000000000000000000000000000000000000000000000000000000000.lock"])
      fun _ => ["/bin/true"])

theorem contest_running : ∃ i, contest.state.running i := by
  have hparse : ∀ _ : Bool, parseArguments ["--claim",
      "/run/claims/0000000000000000000000000000000000000000000000000000000000000000.lock", "--",
      "/bin/true"] = .ok ([.ofText
        "/run/claims/0000000000000000000000000000000000000000000000000000000000000000.lock"],
      ["/bin/true"]) := by decide +kernel
  obtain ⟨-, -, -, progress⟩ := exclusion_and_progress hparse (Pool.reach_play answers_oracle _ _)
  refine progress ⟨true⟩ (fun i => id) fun i => ?_
  cases i with
  | false => exact .inr (.inl ⟨_, true, .head _⟩)
  | true => exact .inl trivial

end Claims
end ShuttleGate
