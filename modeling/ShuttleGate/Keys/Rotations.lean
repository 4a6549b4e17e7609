import ShuttleGate.Keys.Tunnel
import ShuttleGate.State.Operations

/-! # Rotations are done once

The key commands leave the receipts alone, so that a rotation that has published is never done
again, whatever commands there are in between. -/

namespace ShuttleGate

open Fs Effect Os Files State

namespace Keys

/-- The operation ID of a rotation and whose keys it replaces. -/
def Command.request : Command → Option (String × Owner)
  | rotatePeer _ _ name operationId => some (operationId, .peer name)
  | rotateServer _ _ operationId => some (operationId, .server)
  | _ => none

/-- `operation.kind` -/
def Owner.kind : Owner → String
  | server => "keys.rotate-server"
  | peer name => s!"keys.rotate-peer.{name}"

theorem Owner.kind_peer (name : String) :
    (Owner.kind (.peer name)).toList = "keys.rotate-peer.".toList ++ name.toList :=
  String.toList_append

theorem Owner.kind_injective : Function.Injective Owner.kind := by
  have hne (name : String) : Owner.kind (.peer name) ≠ Owner.kind .server := fun h => by
    have hstart : "keys.rotate-peer.".toList <+: "keys.rotate-server".toList :=
      ⟨name.toList, (Owner.kind_peer name).symm.trans (congrArg String.toList h)⟩
    exact absurd hstart (by decide)
  intro o o' h
  cases o with
  | server =>
    cases o' with
    | server => rfl
    | peer name => exact absurd h.symm (hne name)
  | peer name =>
    cases o' with
    | server => exact absurd h (hne name)
    | peer name' =>
      have hlist := (Owner.kind_peer name).symm.trans ((congrArg String.toList h).trans (Owner.kind_peer name'))
      rw [String.toList_injective (List.append_cancel_left hlist)]

theorem voidOperation_encode {requestId kind : String} {operation : StateOperation Unit}
    (h : voidOperation requestId kind = .ok operation) (a : Unit) : operation.encode a = .null := by
  unfold voidOperation at h
  split at h
  · split at h
    · cases h
      rfl
    · cases h
  · cases h

/-- The operation of a command's call is that of its request, and its results are written as null. -/
theorem Command.operation {cmd : Command} {c : Call cmd.Result} (h : cmd.call = .ok c) :
    (c.operation.map fun o => (o.requestId, o.kind)) = (cmd.request.map fun r => (r.1, r.2.kind)) ∧
      ∀ o ∈ c.operation, ∀ a, o.encode a = .null := by
  cases cmd with
  | generate config runner peerName =>
    obtain ⟨selected, -, hc⟩ := bind_ok h
    cases hc
    exact ⟨rfl, fun o ho => absurd ho (Option.not_mem_none o)⟩
  | regenerate config name =>
    obtain ⟨selected, -, hc⟩ := bind_ok h
    cases hc
    exact ⟨rfl, fun o ho => absurd ho (Option.not_mem_none o)⟩
  | rotatePeer config runner name operationId =>
    obtain ⟨peer, -, hc⟩ := bind_ok h
    obtain ⟨operation, hoperation, hc⟩ := bind_ok hc
    cases hc
    obtain ⟨hid, hkind⟩ := voidOperation_ok hoperation
    refine ⟨congrArg some (Prod.ext hid hkind), fun o ho a => ?_⟩
    obtain rfl : operation = o := Option.some.inj ho
    exact voidOperation_encode hoperation a
  | rotateServer config runner operationId =>
    obtain ⟨operation, hoperation, hc⟩ := bind_ok h
    cases hc
    obtain ⟨hid, hkind⟩ := voidOperation_ok hoperation
    refine ⟨congrArg some (Prod.ext hid hkind), fun o ho a => ?_⟩
    obtain rfl : operation = o := Option.some.inj ho
    exact voidOperation_encode hoperation a
  | prune config =>
    cases h
    exact ⟨rfl, fun o ho => absurd ho (Option.not_mem_none o)⟩

theorem Command.encodes {cmd : Command} {c : Call cmd.Result} (h : cmd.call = .ok c) :
    ∀ o ∈ c.operation, ∀ a, (o.encode a).WellFormed := by
  intro o ho a
  rw [(Command.operation h).2 o ho a]
  trivial

/-- The operation of the call of a command with a request. -/
theorem Command.operation_some {cmd : Command} {c : Call cmd.Result} (h : cmd.call = .ok c)
    {r : String × Owner} (hr : cmd.request = some r) :
    ∃ o, c.operation = some o ∧ o.requestId = r.1 ∧ o.kind = r.2.kind := by
  have hoperation := (Command.operation h).1
  rw [hr] at hoperation
  obtain ⟨o, ho, hrequest⟩ := Option.map_eq_some_iff.mp hoperation
  exact ⟨o, ho, congrArg Prod.fst hrequest, congrArg Prod.snd hrequest⟩

/-! ## The receipts are left alone -/

/-- What a command touches is the server's or a peer's. -/
theorem Command.Touches.last {f : Data} {cmd : Command} {l : Path} (h : cmd.Touches f l) :
    l.getLast? = some "server" ∨ l.getLast? = some "peers" := by
  have hfile {o : Owner} {names : List String} (hl : Of o names l) :
      l.getLast? = some "server" ∨ l.getLast? = some "peers" := by
    obtain ⟨n, -, rfl⟩ := hl
    cases o with
    | server => exact .inl rfl
    | peer name => exact .inr rfl
  have hphone {peers : List PeerConfig} (hl : PhoneOf peers l) :
      l.getLast? = some "server" ∨ l.getLast? = some "peers" := by
    obtain ⟨peer, -, hof⟩ := hl
    exact hfile hof
  cases cmd with
  | generate config runner peerName =>
    obtain ⟨selected, -, ⟨o, -, -, hof⟩ | hl⟩ := h
    · exact hfile hof
    · exact hphone hl
  | regenerate config name => exact hfile h
  | rotatePeer config runner name operationId => exact hfile h
  | rotateServer config runner operationId =>
    rcases h with hof | hl
    · exact hfile hof
    · exact hphone hl
  | prune config =>
    obtain ⟨name, -, k, rfl⟩ := h
    exact .inr (by simp [peerAt])

theorem OnTheWay.last {l : Path} (h : OnTheWay l) :
    l = [] ∨ l.getLast? = some "server" ∨ l.getLast? = some "peers" := by
  obtain ⟨o, k, hk⟩ := h
  by_cases hnil : l = []
  · exact .inl hnil
  · have hlast : l.getLast? = o.dir.getLast? := by
      rw [← hk, List.getLast?_append_of_ne_nil _ hnil]
    rw [hlast]
    cases o with
    | server => exact .inr (.inl rfl)
    | peer name => exact .inr (.inr rfl)

/-- The call of a command leaves the receipts alone. -/
theorem Command.orderly {cmd : Command} {c : Call cmd.Result} (h : cmd.call = .ok c)
    (paths : InstancePaths) : c.Orderly paths where
  leaves {uid t a t'} hthere hr l hl := by
    have hchanges := ((Command.mutator_yields paths h hthere).returns hr).1
    obtain ⟨k, rfl⟩ := hl
    refine (hchanges _ fun htouches => ?_).resolve_right fun ⟨hway, _⟩ => ?_
    · have := htouches.last
      simp at this
    · have := hway.last
      simp at this
  encodes := Command.encodes h

/-! ## Over a history -/

section
variable {paths : InstancePaths} {P : Command → Prop} {t u v : Tree} {cmd : Command} {e : Entry}

/-- A receipt stays over every history of commands. -/
theorem History.held (h : History paths P t u) (he : e.Held paths t) : e.Held paths u := by
  induction h with
  | start => exact he
  | run cmd _ _ hv ih =>
    rcases Command.visits hv with rfl | ⟨c, hcall, hv⟩
    · exact ih
    · obtain ⟨es, hstep⟩ := (Command.orderly hcall paths).step hv
      exact ih.kept hstep

theorem Command.returns {b : cmd.Result} (hr : (cmd.run paths).Returns machine t (.ok b) u) :
    ∃ c : Call cmd.Result, cmd.call = .ok c ∧ (c.run paths).Returns machine t (.ok b) u := by
  have hissue := (Command.follows cmd paths t).returns hr
  cases hcall : cmd.call with
  | error e =>
    rw [hcall] at hissue
    have hraise : (Prog.raise e : OsM cmd.Result).Yields machine (fun _ _ => False) t :=
      Prog.yields_raise
    exact (hraise.returns hissue).elim
  | ok c =>
    rw [hcall] at hissue
    exact ⟨c, rfl, hissue⟩

/-- What a command publishes is recorded under its request. -/
theorem Command.recorded {r : String × Owner} (hr : cmd.request = some r)
    (hv : (cmd.run paths).Visits machine t u) (hpublished : ¬ Unchanged paths t u) :
    ∃ e : Entry, e.requestId = r.1 ∧ e.kind = r.2.kind ∧ e.Held paths u := by
  rcases Command.visits hv with rfl | ⟨c, hcall, hv⟩
  · exact absurd .refl hpublished
  obtain ⟨a, uid, hp, -⟩ := (c.visited hv).resolve_left hpublished
  obtain ⟨o, ho, hid, hkind⟩ := Command.operation_some hcall hr
  exact ⟨⟨o.requestId, o.kind, o.encode a⟩, hid, hkind, Command.encodes hcall o ho a, hp.receipt ho⟩

/-- A rotation that has published, even if it was stopped right after, is done: whatever history
follows, a command with its operation ID changes nothing of the active generation, wherever it is
stopped, and returns only if it is a rotation of the same keys. -/
theorem rotated_once {operationId : String} {o : Owner} (hr : cmd.request = some (operationId, o))
    (hv : (cmd.run paths).Visits machine t u) (hpublished : ¬ Unchanged paths t u)
    (h : History paths P u v) {cmd' : Command} {o' : Owner}
    (hr' : cmd'.request = some (operationId, o')) :
    (∀ w, (cmd'.run paths).Visits machine v w → Unchanged paths v w) ∧
      ∀ b w, (cmd'.run paths).Returns machine v (.ok b) w → o' = o := by
  obtain ⟨e, hid, hkind, he⟩ := Command.recorded hr hv hpublished
  have he := h.held he
  -- the operation of the other command's call
  have hother {c : Call cmd'.Result} (hcall : cmd'.call = .ok c) :
      ∃ operation, c.operation = some operation ∧ operation.requestId = e.requestId ∧
        operation.kind = o'.kind := by
    obtain ⟨operation, hoperation, hid', hkind'⟩ := Command.operation_some hcall hr'
    exact ⟨operation, hoperation, hid'.trans hid.symm, hkind'⟩
  constructor
  · intro w hv'
    rcases Command.visits hv' with rfl | ⟨c, hcall, hv'⟩
    · exact .refl
    · obtain ⟨operation, hoperation, hid', -⟩ := hother hcall
      exact (he.repeated hoperation hid').1 w hv'
  · intro b w hreturns
    obtain ⟨c, hcall, hreturns⟩ := Command.returns hreturns
    obtain ⟨operation, hoperation, hid', hkind'⟩ := hother hcall
    have hsame := ((he.repeated hoperation hid').2 b w hreturns).1
    exact Owner.kind_injective (hkind'.symm.trans (hsame.trans hkind))

end

/-! ## An example -/

/-- The rotation of a server that has no peers. -/
def exampleRotation : Command :=
  .rotateServer { exampleProject with wireguard := { exampleProject.wireguard with peers := [] } }
    exampleRunner "first"

theorem exampleRotation_publishes : ∃ u, (exampleRotation.run examplePaths).Visits machine freshTree u ∧
    ¬ Unchanged examplePaths freshTree u := by
  obtain ⟨r, u, hr, htest⟩ := Prog.exists_returns (s := freshTree)
    (p := exampleRotation.run examplePaths) exampleHost.respond_answers 150 (fun _ u =>
      u.get ["current", "state"] ≠ none) (by
      simp only [exampleRotation, Command.run, Keys.rotateServer, mutateState, mutateLocked, stage,
        publish, finish, verify, activeGeneration, readManifest, loadJson_eq, atomicWriteJson,
        atomicWrite, freshTree, encodeUtf8_jsonText, writeReceipt, writeOperation]
      decide +kernel)
  refine ⟨u, ⟨_, Prog.Returns.mono reliable_refines hr⟩, fun hu => ?_⟩
  exact absurd hu.pointer (of_decide_eq_true htest)

/-- The server's keys are rotated once. -/
theorem rotated_once_first : ∃ u, (exampleRotation.run examplePaths).Visits machine freshTree u ∧
    ¬ Unchanged examplePaths freshTree u ∧
      ∀ w, (exampleRotation.run examplePaths).Visits machine u w → Unchanged examplePaths u w := by
  obtain ⟨u, hv, hpublished⟩ := exampleRotation_publishes
  have hnone : History examplePaths (fun _ => True) u u := .start
  exact ⟨u, hv, hpublished, (rotated_once rfl hv hpublished hnone rfl).1⟩

end Keys
end ShuttleGate
