import ShuttleGate.Fs.Path
import Mathlib.Data.List.Induction

/-! # Mount tables

Mounts replayed in order: a mount hides what was at and below its target. What is at a path is
therefore decided by the last mount that covers it (`replay_of_last`), and whatever is there comes
from some mount that covers it (`exists_of_replay`). -/

namespace Fs

/-- What is mounted or found at a path: a file system of its own, or an object of the host. -/
inductive Content
  | synthetic
  | host (path : Path) (writable : Bool)
  deriving DecidableEq

structure Mount where
  target : Path
  content : Content

namespace Mount

/-- What a mount has at a path below its target. -/
def look (m : Mount) (p : Path) : Content :=
  match m.content with
  | .synthetic => .synthetic
  | .host source writable => .host (p.take (p.length - m.target.length) ++ source) writable

/-- A mount on top of what there is. -/
def onTop (m : Mount) (below : Path → Option Content) (p : Path) : Option Content :=
  if m.target <:+ p then some (m.look p) else below p

theorem look_host {m : Mount} (h : m.content = .host source writable) (rest : Path) :
    m.look (rest ++ m.target) = .host (rest ++ source) writable := by
  rw [look, h, List.length_append, Nat.add_sub_cancel, List.take_left]

end Mount

/-- The mounts from first to last. -/
def replay (mounts : List Mount) : Path → Option Content :=
  mounts.foldl (fun below m => m.onTop below) fun _ => none

/-- The path is an object of the host that can be written through the mounts. -/
def Writable (mounts : List Mount) (p : Path) : Prop := ∃ q, replay mounts p = some (.host q true)

/-- The object of the host can be seen through the mounts. -/
def Visible (mounts : List Mount) (q : Path) : Prop :=
  ∃ p writable, replay mounts p = some (.host q writable)

theorem replay_concat (mounts : List Mount) (m : Mount) :
    replay (mounts ++ [m]) = m.onTop (replay mounts) := by
  rw [replay, List.foldl_append]
  rfl

/-- Mounts elsewhere do not matter. -/
theorem replay_append_miss {later : List Mount} (h : ∀ m ∈ later, ¬ m.target <:+ p) :
    replay (mounts ++ later) p = replay mounts p := by
  induction later using List.reverseRecOn with
  | nil => rw [List.append_nil]
  | append_singleton later m ih =>
    have hm := h m (List.mem_append_right _ (List.mem_singleton_self m))
    rw [← List.append_assoc, replay_concat, Mount.onTop, if_neg hm]
    exact ih fun m' hm' => h m' (List.mem_append_left _ hm')

/-- The last mount that covers a path decides. -/
theorem replay_of_last {m : Mount} (h : m.target <:+ p) (hafter : ∀ m' ∈ after, ¬ m'.target <:+ p) :
    replay (before ++ m :: after) p = some (m.look p) := by
  have hsplit : before ++ m :: after = (before ++ [m]) ++ after := by simp
  rw [hsplit, replay_append_miss hafter, replay_concat, Mount.onTop, if_pos h]

/-- What is at a path comes from a mount that covers it. -/
theorem exists_of_replay (h : replay mounts p = some c) :
    ∃ m ∈ mounts, m.target <:+ p ∧ m.look p = c := by
  induction mounts using List.reverseRecOn with
  | nil => cases h
  | append_singleton mounts m ih =>
    rw [replay_concat, Mount.onTop] at h
    split at h
    · next hm => exact ⟨m, List.mem_append_right _ (List.mem_singleton_self m), hm, Option.some.inj h⟩
    · obtain ⟨m', hmem, hm'⟩ := ih h
      exact ⟨m', List.mem_append_left _ hmem, hm'⟩

theorem exists_of_writable (h : Writable mounts p) :
    ∃ m ∈ mounts, m.target <:+ p ∧ ∃ source, m.content = .host source true := by
  obtain ⟨q, hq⟩ := h
  obtain ⟨m, hmem, hm, hlook⟩ := exists_of_replay hq
  refine ⟨m, hmem, hm, ?_⟩
  unfold Mount.look at hlook
  split at hlook
  · cases hlook
  · next source writable hc =>
    obtain ⟨-, rfl⟩ := Content.host.inj hlook
    exact ⟨source, hc⟩

theorem writable_of_last {m : Mount} (hc : m.content = .host source true) (h : m.target <:+ p)
    (hafter : ∀ m' ∈ after, ¬ m'.target <:+ p) : Writable (before ++ m :: after) p := by
  obtain ⟨rest, rfl⟩ := h
  exact ⟨rest ++ source, by rw [replay_of_last ⟨rest, rfl⟩ hafter, m.look_host hc]⟩

/-- A visible object lies at or below the source of a mount. -/
theorem exists_of_visible (h : Visible mounts q) :
    ∃ m ∈ mounts, ∃ source writable, m.content = .host source writable ∧ source <:+ q := by
  obtain ⟨p, writable, hp⟩ := h
  obtain ⟨m, hmem, -, hlook⟩ := exists_of_replay hp
  unfold Mount.look at hlook
  split at hlook
  · cases hlook
  · next source writable' hc =>
    obtain ⟨rfl, -⟩ := Content.host.inj hlook
    exact ⟨m, hmem, source, writable', hc, List.suffix_append _ _⟩

/-- Below the source of a mount an object is visible where no later mount is in the way. -/
theorem visible_of_last {m : Mount} (hc : m.content = .host source writable) (rest : Path)
    (hafter : ∀ m' ∈ after, ¬ m'.target <:+ rest ++ m.target) :
    Visible (before ++ m :: after) (rest ++ source) :=
  ⟨rest ++ m.target, writable, by rw [replay_of_last ⟨rest, rfl⟩ hafter, m.look_host hc]⟩

/-- Neither path lies at or below the other. -/
def Apart (p q : Path) : Prop := ¬ p <:+ q ∧ ¬ q <:+ p

instance : Decidable (Apart p q) := inferInstanceAs (Decidable (_ ∧ _))

/-- Below paths that are apart there is nothing in common. -/
theorem Apart.not_below {p q : Path} (h : Apart p q) (hp : p <:+ x) : ¬ q <:+ x := fun hq =>
  (List.suffix_or_suffix_of_suffix hp hq).elim h.1 h.2

end Fs
