import ShuttleGate.Keys.History

/-! # The scope of the key commands

A key that is there stays until it is rotated or pruned, and commands for one peer change nothing of
another one, over whole histories. -/

namespace ShuttleGate

open Fs Effect Os Files State

namespace Keys

/-- A command for one peer. -/
def Command.For (name : String) : Command → Prop
  | generate _ _ (some peer) | regenerate _ peer | rotatePeer _ _ peer _ => peer = name
  | generate _ _ none | rotateServer .. | prune _ => False

section
variable {paths : InstancePaths} {t₀ t : Tree} {cmd : Command} {f f' : Data} {o : Owner}
  {name : String} {l : Path}

theorem Gone.congr (h : ∀ n ∈ o.keyFiles, f' (n :: o.dir) = f (n :: o.dir)) : Gone f' o ↔ Gone f o := by
  constructor
  · intro hgone n hn x hx
    exact hgone n hn x ((h n hn).trans hx)
  · intro hgone n hn x hx
    exact hgone n hn x ((h n hn).symm.trans hx)

/-- The keys that are there when one command is stopped. -/
theorem Command.keeps_keys (hthere : ¬ Gone f o) (hc : ¬ cmd.Replaces o)
    (h : Changes (fun l => cmd.Touches f l ∨ cmd.Records l) f f') :
    ∀ n ∈ o.keyFiles, f' (n :: o.dir) = f (n :: o.dir) :=
  fun _ hn => h.file fun htouches => hc (Command.touches_key hthere hn htouches)

/-- A command for one peer writes its files, its receipt and, where there is none, the server's
keys. -/
theorem Command.For.touches (hc : cmd.For name) (h : cmd.Touches f l ∨ cmd.Records l) :
    peerAt name <:+ l ∨ ["operations"] <:+ l ∨ Gone f .server ∧ serverAt <:+ l := by
  have hrecords {operationId : String} (hl : l = ["operations"] ∨ l = operationPath [] operationId) :
      ["operations"] <:+ l := by
    rcases hl with rfl | rfl
    · exact List.suffix_rfl
    · exact List.suffix_cons _ _
  have hfile {names : List String} (hl : Of (.peer name) names l) : peerAt name <:+ l := by
    obtain ⟨n, -, rfl⟩ := hl
    exact List.suffix_cons _ _
  cases cmd with
  | generate config runner peerName =>
    cases peerName with
    | none => exact hc.elim
    | some peer =>
      obtain rfl : peer = name := hc
      obtain ⟨selected, hselected, hl⟩ := h.resolve_right id
      obtain ⟨peer', -, rfl, rfl⟩ := selectedPeers_some hselected
      rcases hl with ⟨o, ho, hgone, hof⟩ | ⟨p, hp, hof⟩
      · rcases List.mem_cons.mp ho with rfl | ho
        · obtain ⟨n, -, rfl⟩ := hof
          exact .inr (.inr ⟨hgone, List.suffix_cons _ _⟩)
        · obtain rfl := List.mem_singleton.mp ho
          exact .inl (hfile hof)
      · obtain rfl := List.mem_singleton.mp hp
        exact .inl (hfile hof)
  | regenerate config peer =>
    obtain rfl : peer = name := hc
    exact .inl (hfile (h.resolve_right id))
  | rotatePeer config runner peer operationId =>
    obtain rfl : peer = name := hc
    exact h.imp hfile fun hl => .inl (hrecords hl)
  | rotateServer config runner operationId => exact hc.elim
  | prune config => exact hc.elim

theorem Command.For.not_replaces (hc : cmd.For name) : ¬ cmd.Replaces .server := by
  cases cmd with
  | generate config runner peerName => exact id
  | regenerate config peer => exact id
  | rotatePeer config runner peer operationId => exact nofun
  | rotateServer config runner operationId => exact hc.elim
  | prune config => exact hc.elim

/-- What commands for one peer leave alone. -/
structure Apart (name : String) (f f' : Data) : Prop where
  server : ¬ Gone f .server → ∀ n ∈ Owner.server.keyFiles,
    f' (n :: Owner.server.dir) = f (n :: Owner.server.dir)
  object : ∀ l x, ¬ peerAt name <:+ l → ¬ ["operations"] <:+ l →
    (serverAt <:+ l → ¬ Gone f .server) → x.isDir = false → (f' l = some x ↔ f l = some x)

end

end Keys
end ShuttleGate
