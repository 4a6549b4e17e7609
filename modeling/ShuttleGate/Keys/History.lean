import ShuttleGate.Keys.Commands

/-! # Histories of key commands

What a command may change of the content, and what any history of commands leaves: each command with
a configuration of its own, and stopped anywhere. -/

namespace ShuttleGate

open Fs Effect Os Files State

namespace Keys

namespace Command

/-- The files a command may write, where it starts from `f`. -/
def Touches (f : Data) : Command → Path → Prop
  | generate config _ peerName, l => ∃ selected, selectedPeers config peerName = .ok selected ∧
    (Missing f (ownersOf selected) l ∨ PhoneOf selected l)
  | regenerate _ name, l => Of (.peer name) phoneFiles l
  | rotatePeer _ _ name _, l => Of (.peer name) ((Owner.peer name).keyFiles ++ phoneFiles) l
  | rotateServer config _ _, l =>
    Of .server Owner.server.keyFiles l ∨ PhoneOf config.wireguard.peers l
  | prune config, l => Orphaned config l

/-- The places of its receipt. -/
def Records : Command → Path → Prop
  | rotatePeer _ _ _ operationId, l | rotateServer _ _ operationId, l =>
    l = ["operations"] ∨ l = operationPath [] operationId
  | _, _ => False

/-- The owner whose keys a command replaces or takes away. -/
def Replaces (o : Owner) : Command → Prop
  | generate .. | regenerate .. => False
  | rotatePeer _ _ name _ => o = .peer name
  | rotateServer .. => o = .server
  | prune config => ∃ name, o = .peer name ∧ name ∉ config.wireguard.peers.map (·.name)

end Command

/-! ## What the arguments select -/

theorem selectedPeer_ok {config : ProjectConfig} {name : String} (h : selectedPeer config name = .ok peer) :
    peer ∈ config.wireguard.peers ∧ peer.name = name := by
  unfold selectedPeer at h
  split at h
  · rename_i found hfound
    cases h
    exact ⟨List.mem_of_find?_eq_some hfound, by simpa using List.find?_some hfound⟩
  · cases h

theorem selectedPeers_some {config : ProjectConfig} {name : String}
    (h : selectedPeers config (some name) = .ok selected) :
    ∃ peer ∈ config.wireguard.peers, peer.name = name ∧ selected = [peer] := by
  change (selectedPeer config name).map ([·]) = .ok selected at h
  cases hpeer : selectedPeer config name with
  | error e =>
    rw [hpeer] at h
    cases h
  | ok peer =>
    rw [hpeer] at h
    cases h
    exact ⟨peer, (selectedPeer_ok hpeer).1, (selectedPeer_ok hpeer).2, rfl⟩

theorem voidOperation_ok {requestId kind : String} (h : voidOperation requestId kind = .ok operation) :
    operation.requestId = requestId ∧ operation.kind = kind := by
  unfold voidOperation at h
  split at h
  · split at h
    · cases h
      exact ⟨rfl, rfl⟩
    · cases h
  · cases h

/-- A call is in a larger universe than what it is made from. -/
theorem bind_ok {α : Type} {β : Type 1} {x : Except Exn α} {f : α → Except Exn β} {b : β}
    (h : x.bind f = .ok b) : ∃ a, x = .ok a ∧ f a = .ok b := by
  cases x with
  | error e => cases h
  | ok a => exact ⟨a, rfl, h⟩

/-! ## One command -/

section
variable {cmd : Command} {c : Call cmd.Result} {paths : InstancePaths} {D : Path} {t u : Tree}

/-- What the mutator of a command's call has done. -/
theorem Command.mutator_yields (paths : InstancePaths) (h : cmd.call = .ok c) (hD : t.get D ≠ none) :
    (c.mutator (paths.withData D)).Yields machine (fun _ u =>
      Changes (cmd.Touches (dataAt t D)) (dataAt t D) (dataAt u D) ∧
        Renews cmd.runner (dataAt t D) (dataAt u D)) t := by
  cases cmd with
  | generate config runner peerName =>
    obtain ⟨selected, hselected, hc⟩ := bind_ok h
    cases hc
    refine Prog.yields_bind ((yields_of_reads (reads_only) (Prog.yields_trivial _ t)).mono
      fun _ t' ⟨ht, _⟩ => ?_)
    subst ht
    exact (generateFrom_yields config runner selected paths hD).mono fun _ u ⟨hchanges, hrenews⟩ =>
      ⟨hchanges.mono fun l hl => ⟨selected, hselected, hl⟩, hrenews⟩
  | regenerate config name =>
    obtain ⟨selected, hselected, hc⟩ := bind_ok h
    cases hc
    obtain ⟨peer, -, rfl, rfl⟩ := selectedPeers_some hselected
    refine (renderPhoneConfigs_yields config paths [peer] hD).mono fun _ u ⟨_, hchanges⟩ => ⟨?_, ?_⟩
    · refine hchanges.mono fun l ⟨peer', hpeer', hl⟩ => ?_
      obtain rfl := List.mem_singleton.mp hpeer'
      exact hl
    · exact hchanges.renews fun o n hn => not_phoneOf_key hn
  | rotatePeer config runner name operationId =>
    obtain ⟨peer, hpeer, hc⟩ := bind_ok h
    obtain ⟨operation, -, hc⟩ := bind_ok hc
    cases hc
    obtain ⟨-, rfl⟩ := selectedPeer_ok hpeer
    exact rotatePeerIn_yields config runner peer paths hD
  | rotateServer config runner operationId =>
    obtain ⟨operation, -, hc⟩ := bind_ok h
    cases hc
    exact rotateServerIn_yields config runner paths hD
  | prune config =>
    cases h
    refine (pruneIn_yields config paths hD).mono fun _ u ⟨hgone, hsame, _⟩ => ?_
    exact ⟨fun l hl => .inl (hsame l hl), renews_of_pruned hgone hsame⟩

theorem Command.records (h : cmd.call = .ok c) {l : Path} (hl : c.Records l) : cmd.Records l := by
  obtain ⟨operation, hoperation, hl⟩ := hl
  cases cmd with
  | generate config runner peerName =>
    obtain ⟨selected, -, hc⟩ := bind_ok h
    cases hc
    cases hoperation
  | regenerate config name =>
    obtain ⟨selected, -, hc⟩ := bind_ok h
    cases hc
    cases hoperation
  | rotatePeer config runner name operationId =>
    obtain ⟨peer, -, hc⟩ := bind_ok h
    obtain ⟨operation', hvoid, hc⟩ := bind_ok hc
    cases hc
    obtain rfl : operation' = operation := Option.some.inj hoperation
    rwa [(voidOperation_ok hvoid).1] at hl
  | rotateServer config runner operationId =>
    obtain ⟨operation', hvoid, hc⟩ := bind_ok h
    cases hc
    obtain rfl : operation' = operation := Option.some.inj hoperation
    rwa [(voidOperation_ok hvoid).1] at hl
  | prune config =>
    cases h
    cases hoperation

/-- No receipt is one of an owner's files. -/
theorem file_ne_receipt (n : String) (o : Owner) (operationId : String) :
    ¬ (n :: o.dir = ["operations"] ∨ n :: o.dir = operationPath [] operationId) := by
  rintro (hl | hl) <;>
    cases o <;> simp [Owner.dir, serverAt, peerAt, operationPath, Path.div_def] at hl

theorem content_key {f : Data} (h : ∀ l n, n ≠ manifestFile →
    content paths u (l ++ [n]) = f (l ++ [n])) (n : String) (o : Owner) :
    content paths u (n :: o.dir) = f (n :: o.dir) := by
  cases o with
  | server => exact h [n] "server" (by decide)
  | peer name => exact h [n, name] "peers" (by decide)

/-- Wherever a command is stopped, the content has changed where the command writes, and in no other
place. -/
theorem Command.changes (h : cmd.call = .ok c) (hs : Settled c paths t u) :
    Changes (fun l => cmd.Touches (content paths t) l ∨ cmd.Records l)
        (content paths t) (content paths u) ∧
      Renews cmd.runner (content paths t) (content paths u) := by
  rcases hs with hu | ⟨a, uid, hp⟩
  · rw [hu.content]
    exact ⟨.refl, .refl⟩
  obtain ⟨t₁, t₂, t₃, hstages, hnew, hsame⟩ := hp.content
  obtain ⟨hchanges, hrenews⟩ := (Command.mutator_yields paths h hstages.there).returns
    hstages.mutated
  rw [hstages.copied] at hchanges hrenews
  constructor
  · intro l hl
    obtain ⟨htouches, hrecords⟩ := not_or.mp hl
    rcases List.eq_nil_or_concat l with rfl | ⟨k, n, rfl⟩
    · exact .inl ((content_nil paths u).trans (content_nil paths t).symm)
    rw [List.concat_eq_append] at htouches hrecords ⊢
    by_cases hn : n = manifestFile
    · subst hn
      exact .inl ((content_manifest paths u k).trans (content_manifest paths t k).symm)
    rw [hnew k n hn, hsame _ (by simp) fun hr => hrecords (Command.records h hr)]
    exact hchanges _ htouches
  · have hfile (n : String) (o : Owner) :
        content paths u (n :: o.dir) = dataAt t₂ (stagingPath paths uid) (n :: o.dir) := by
      refine (content_key hnew n o).trans (hsame _ (List.cons_ne_nil _ _) fun hr => ?_)
      obtain ⟨operation, -, hl⟩ := hr
      exact file_ne_receipt n o operation.requestId hl
    intro o
    rcases hrenews o with hold | ⟨r, hr, pair, hpair, hnewPair⟩ | hnone
    · exact .inl fun n hn => (hfile n o).trans (hold n hn)
    · exact .inr (.inl ⟨r, hr, pair, hpair, (hfile _ o).trans hnewPair.priv,
        (hfile _ o).trans hnewPair.pub⟩)
    · exact .inr (.inr ((hfile _ o).trans hnone))

/-- A key file that is there is only written when its owner gets new keys, or none. -/
theorem Command.touches_key {f : Data} {o : Owner} (hthere : ¬ Gone f o) {n : String}
    (hn : n ∈ o.keyFiles) (h : cmd.Touches f (n :: o.dir) ∨ cmd.Records (n :: o.dir)) :
    cmd.Replaces o := by
  cases cmd with
  | generate config runner peerName =>
    rcases h with ⟨selected, -, ⟨o', -, hgone, hof⟩ | hphone⟩ | hfalse
    · exact absurd ((of_file.mp hof).1 ▸ hgone) hthere
    · exact not_phoneOf_key hn hphone
    · exact hfalse
  | regenerate config name =>
    rcases h with hof | hfalse
    · exact not_mem_phoneFiles hn (of_file.mp hof).2
    · exact hfalse
  | rotatePeer config runner name operationId =>
    exact (of_file.mp (h.resolve_right (file_ne_receipt n o operationId))).1
  | rotateServer config runner operationId =>
    rcases h.resolve_right (file_ne_receipt n o operationId) with hof | hphone
    · exact (of_file.mp hof).1
    · exact absurd hphone (not_phoneOf_key hn)
  | prune config => exact orphaned_file.mp (h.resolve_right id)

/-- A command goes by its call, where there is one. -/
theorem Command.visits (hv : (cmd.run paths).Visits machine t u) :
    u = t ∨ ∃ c : Call cmd.Result, cmd.call = .ok c ∧ (c.run paths).Visits machine t u := by
  have hissue := (Command.follows cmd paths t).visits hv
  cases hcall : cmd.call with
  | error e =>
    rw [hcall] at hissue
    have hstill : (Prog.raise e : OsM cmd.Result).wp machine (fun v => v = t) (fun _ _ => True) t :=
      ⟨rfl, trivial⟩
    exact .inl (hstill.visits hissue)
  | ok c =>
    rw [hcall] at hissue
    exact .inr ⟨c, rfl, hissue⟩

/-- What is known of a command wherever it is stopped. -/
theorem Command.visited (hv : (cmd.run paths).Visits machine t u) :
    Changes (fun l => cmd.Touches (content paths t) l ∨ cmd.Records l)
        (content paths t) (content paths u) ∧
      Renews cmd.runner (content paths t) (content paths u) := by
  rcases Command.visits hv with rfl | ⟨c, hcall, hv⟩
  · exact ⟨.refl, .refl⟩
  · exact Command.changes hcall ((run_wp c paths t).visits hv)

end

/-! ## Histories -/

/-- Commands one after the other, each satisfying `P` and each stopped somewhere. -/
inductive History (paths : InstancePaths) (P : Command → Prop) (t₀ : Tree) : Tree → Prop
  | start : History paths P t₀ t₀
  | run (cmd : Command) {t u : Tree} (h : History paths P t₀ t) (hc : P cmd)
      (hv : (cmd.run paths).Visits machine t u) : History paths P t₀ u

/-- What every command keeps wherever it is stopped holds in the whole history. -/
theorem History.invariant {paths : InstancePaths} {P : Command → Prop} {J : Data → Prop}
    (hstart : J (content paths t₀)) (hstep : ∀ cmd f f', P cmd → J f →
      Changes (fun l => cmd.Touches f l ∨ cmd.Records l) f f' → Renews cmd.runner f f' → J f')
    (h : History paths P t₀ t) : J (content paths t) := by
  induction h with
  | start => exact hstart
  | run cmd _ hc hv ih =>
    obtain ⟨hchanges, hrenews⟩ := Command.visited hv
    exact hstep cmd _ _ hc ih hchanges hrenews

end Keys
end ShuttleGate
