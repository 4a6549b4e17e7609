import ShuttleGate.State.Content
import ShuttleGate.State.Refusal
import ShuttleGate.Effect.Ledger

/-! # Operations are done once

A call with an operation publishes its receipt with its effect. A call that finds a receipt in the
active generation publishes nothing, and returns only what the receipt holds: over any run of calls,
each stopped anywhere, an operation ID is published at most once. -/

namespace ShuttleGate

open Fs Effect Os Files

namespace State

/-- A receipt of an operation, with its result. -/
def Recorded (operation : StateOperation α) (o : Option Obj) (a : α) : Prop :=
  ∃ mode content value result, o = some (.file mode content) ∧ jsonOf content = some value ∧
    receiptResult operation.requestId operation.kind value = some result ∧
    operation.decode result = .ok a

/-- What `_read_operation` has found. -/
theorem readOperation_yields (root : Path) (operation : StateOperation α) (t : Tree) :
    (readOperation root operation).Yields machine (fun recorded u => u = t ∧
      (recorded = none → t.get (operationPath root operation.requestId) = none) ∧
      ∀ a, recorded = some a →
        Recorded operation (t.get (operationPath root operation.requestId)) a) t := by
  refine yields_of_reads (readOperation_reads root operation) ?_
  refine Prog.yields_bind ((lstatMissing_yields _ t).mono fun st u ⟨hu, hst⟩ => ?_)
  subst hu
  cases st with
  | none =>
    refine Prog.yields_ret ⟨fun _ => ?_, nofun⟩
    exact Option.map_eq_none_iff.mp hst.symm
  | some st =>
    refine Prog.yields_ite (fun _ => Prog.yields_raise) fun _ => ?_
    refine Prog.yields_bind ((Prog.yields_handle (loadJson_yields _ u) fun _ _ =>
      Prog.yields_ite (fun _ => Prog.yields_raise) fun _ => Prog.yields_raise).mono
      fun value v ⟨hv, mode, content, hfile, hvalue⟩ => ?_)
    subst hv
    cases hresult : receiptResult operation.requestId operation.kind value with
    | none => exact Prog.yields_raise
    | some result =>
      refine Prog.yields_bind ?_
      cases hdecode : operation.decode result with
      | error e => exact Prog.yields_raise
      | ok a =>
        refine Prog.yields_ret (Prog.yields_ret ⟨nofun, fun b hb => ?_⟩)
        cases hb
        exact ⟨mode, content, value, result, hfile, hvalue, hresult, hdecode⟩

/-! ## Up to the receipt -/

/-- A call under the lock, up to the look for its receipt. -/
def opening (paths : InstancePaths) (operation : Option (StateOperation α)) :
    OsM (Option (Path × String) × Option α) := do
  ensurePrivateDirectory (paths.state / generationsDir)
  cleanIncomplete paths
  let active ← activeGeneration paths false
  cleanUnreferencedGenerations paths (active.map (·.1))
  let recorded ← completed active operation
  return (active, recorded)

/-- The making of a new generation. -/
def renewal (paths : InstancePaths) (c : Call α) (active : Option (Path × String)) : OsM α := do
  let identifier ← Prog.perform .uuid
  let generation := "gen-" ++ identifier
  let staging := paths.state / generationsDir / (".staging-" ++ identifier)
  let (result, published) ← tryCatch
    (stage paths c.mutator c.validator c.publishIf c.operation active staging generation)
    fun e => do
      rollback paths staging none
      throw e
  match published with
  | none => return result
  | some final => finish paths c.validator staging final result

/-- The rest of the call. -/
def remainder (paths : InstancePaths) (c : Call α) : Option (Path × String) × Option α → OsM α
  | (some (root, _), some result) => do
    c.validator (paths.withData root)
    cleanLegacyState paths
    return result
  | (active, _) => renewal paths c active

theorem bind_assoc (p : OsM α) (f : α → OsM β) (g : β → OsM γ) :
    (p.bind f).bind g = p.bind fun a => (f a).bind g := by
  induction p with
  | ret a => rfl
  | raise e => rfl
  | call op k ih => exact congrArg (Prog.call op) (funext ih)

theorem bind_congr {p : OsM α} {f g : α → OsM β} (h : ∀ a, f a = g a) : p.bind f = p.bind g :=
  congrArg p.bind (funext h)

theorem mutateLocked_eq (c : Call α) (paths : InstancePaths) :
    mutateLocked paths c.mutator c.validator c.publishIf c.operation =
      (opening paths c.operation).bind (remainder paths c) := by
  simp only [mutateLocked, opening, Prog.bind_def, bind_assoc]
  refine bind_congr fun _ => bind_congr fun _ => bind_congr fun active => bind_congr fun _ =>
    bind_congr fun recorded => ?_
  cases active with
  | none => rfl
  | some r =>
    obtain ⟨root, g⟩ := r
    cases recorded <;> rfl

section
variable {paths : InstancePaths} {t : Tree}

/-- Taking care of what interrupted calls have left keeps what is active. -/
theorem cleaning_keeps {p : OsM α} (hp : p.Only
      (Within (Scratch paths (designated paths t)) (paths.state / generationsDir))) :
    p.Keeps machine fun u => Unchanged paths t u ∧ u.get (paths.state / generationsDir) ≠ none := by
  intro u ⟨hu, hthere⟩
  have hkept {v : Tree} (h : Kept (Scratch paths (designated paths t)) u v) :
      Unchanged paths t v ∧ v.get (paths.state / generationsDir) ≠ none := by
    refine ⟨hu.trans (unchanged_of_scratch fun q hq => h q ?_), ?_⟩
    · rwa [hu.designated] at hq
    · rw [h _ not_scratch_generations]
      exact hthere
  exact ((kept_of_within hp hthere) u .refl).mono (fun _ => hkept) fun _ _ _ => hkept

/-- What `opening` has found. -/
structure Opened (paths : InstancePaths) (t : Tree) (operation : Option (StateOperation α))
    (active : Option (Path × String)) (recorded : Option α) : Prop where
  active : active = (designated paths t).map fun g => (generationPath paths g, g)
  fresh : recorded = none → ∀ o ∈ operation, content paths t (operationPath [] o.requestId) = none
  recorded : ∀ a, recorded = some a → designated paths t ≠ none ∧ ∃ o ∈ operation,
    Recorded o (content paths t (operationPath [] o.requestId)) a

theorem content_operation (hg : designated paths t = some g) (requestId : String) :
    t.get (operationPath (generationPath paths g) requestId) =
      content paths t (operationPath [] requestId) :=
  (content_active hg [_] (by decide)).symm

theorem content_operation_none (hg : designated paths t = none) (requestId : String) :
    content paths t (operationPath [] requestId) = none := by
  rw [content, hg, base, migrated, show operationPath [] requestId = [_] ++ ["operations"] from rfl,
    filled_concat]
  exact if_neg (by decide)

theorem completed_yields (operation : Option (StateOperation α)) (t₀ : Tree)
    (hu : Unchanged paths t₀ t) :
    (completed ((designated paths t₀).map fun g => (generationPath paths g, g)) operation).Yields
      machine (fun recorded u => u = t ∧ Opened paths t₀ operation
        ((designated paths t₀).map fun g => (generationPath paths g, g)) recorded) t := by
  cases operation with
  | none =>
    have hopened : Opened paths t₀ (none : Option (StateOperation α))
        ((designated paths t₀).map fun g => (generationPath paths g, g)) none :=
      ⟨rfl, fun _ _ => nofun, nofun⟩
    revert hopened
    cases designated paths t₀ <;> exact fun hopened => Prog.yields_ret ⟨rfl, hopened⟩
  | some operation =>
    cases hg : designated paths t₀ with
    | none =>
      refine Prog.yields_ret ⟨rfl, by rw [hg], fun _ o ho => ?_, nofun⟩
      exact content_operation_none hg _
    | some g =>
      refine (readOperation_yields (generationPath paths g) operation t).mono
        fun recorded u ⟨ht, hnone, hsome⟩ => ⟨ht, by rw [hg], fun hr o ho => ?_, fun a ha => ?_⟩
      · obtain rfl := Option.some.inj ho
        rw [← hu.content, ← content_operation (hu.designated.trans hg)]
        exact hnone hr
      · refine ⟨by rw [hg]; exact nofun, operation, rfl, ?_⟩
        rw [← hu.content, ← content_operation (hu.designated.trans hg)]
        exact hsome a ha

/-- The generations are there, and the active one among them. -/
def Room (paths : InstancePaths) (t : Tree) : Prop :=
  t.get (paths.state / generationsDir) ≠ none ∧
    ∀ g, designated paths t = some g → t.get (generationPath paths g) ≠ none

/-- Up to the receipt nothing changes. -/
theorem opening_wp (paths : InstancePaths) (operation : Option (StateOperation α)) (t : Tree) :
    (opening paths operation).wp machine (Unchanged paths t) (fun r u => Unchanged paths t u ∧
      ∀ found, r = .ok found → Opened paths t operation found.1 found.2 ∧ Room paths u) t := by
  have hprivate : (ensurePrivateDirectory (paths.state / generationsDir)).Keeps machine
      fun u => ∀ q, ¬ q <:+ paths.state / generationsDir → u.get q = t.get q :=
    keeps_outside (d := []) (ensurePrivateDirectory_within (fun q => .inl) List.suffix_rfl)
      (fun q hq => (List.suffix_nil.mp hq) ▸ List.nil_suffix) t
  refine Prog.wp_bind_keeps hprivate (ensurePrivateDirectory_yields _ t) (fun _ _ => rfl)
    (fun u hu => (generations_unchanged hu).1)
    (fun e u hu => ⟨(generations_unchanged hu).1, nofun⟩) fun _ t₁ h₁ hdir => ?_
  have h₁ : Unchanged paths t t₁ ∧ t₁.get (paths.state / generationsDir) ≠ none := by
    refine ⟨(generations_unchanged h₁).1, ?_⟩
    rw [hdir]
    nofun
  have hincomplete : (cleanIncomplete paths).Only
      (Within (Scratch paths (designated paths t)) (paths.state / generationsDir)) := by
    refine cleanIncomplete_within (fun q ⟨n, hn, hq⟩ => ?_) fun q hq => .inr hq
    refine scratch_child (fun hg => ?_) hq
    have := isGeneration_of_designated hg
    rw [not_isGeneration_of_isStaging hn] at this
    cases this
  refine Prog.wp_bind_keeps (cleaning_keeps hincomplete) (Prog.yields_trivial _ t₁) h₁
    (fun _ hu => hu.1) (fun _ _ hu => ⟨hu.1, nofun⟩) fun _ t₂ h₂ _ => ?_
  refine Prog.wp_bind_keeps (cleaning_keeps (reads_to_within (activeGeneration_reads _ _)))
    (activeGeneration_yields paths false t₂) h₂ (fun _ hu => hu.1) (fun _ _ hu => ⟨hu.1, nofun⟩)
    fun active t₃ h₃ ⟨ht, hanswer, _⟩ => ?_
  subst ht
  obtain ⟨rfl, hactive⟩ := hanswer.eq
  rw [h₃.1.designated] at hactive ⊢
  have hunreferenced : (cleanUnreferencedGenerations paths (Option.map (·.1)
      ((designated paths t).map fun g => (generationPath paths g, g)))).Only
      (Within (Scratch paths (designated paths t)) (paths.state / generationsDir)) := by
    refine cleanUnreferencedGenerations_within fun q ⟨n, ⟨_, hn⟩, hq⟩ => scratch_child (fun hg => ?_) hq
    rw [hg] at hn
    exact hn rfl
  refine Prog.wp_bind_keeps (cleaning_keeps hunreferenced) (Prog.yields_trivial _ t₃) h₃
    (fun _ hu => hu.1) (fun _ _ hu => ⟨hu.1, nofun⟩) fun _ t₄ h₄ _ => ?_
  refine Prog.wp_bind_keeps (keeps_of_reads (completed_reads _ _) t₄) (completed_yields operation t h₄.1)
    rfl (fun u hu => hu ▸ h₄.1) (fun _ u hu => ⟨hu ▸ h₄.1, nofun⟩) fun recorded t₅ h₅ ⟨_, hopened⟩ => ?_
  subst h₅
  refine ⟨h₄.1, h₄.1, fun found hfound => ?_⟩
  cases hfound
  refine ⟨hopened, h₄.2, fun g hg => ?_⟩
  rw [h₄.1.designated] at hg
  obtain ⟨mode, hdir⟩ := (hactive g hg).directory
  have hsame := congrFun ((h₄.1.data g hg).trans (h₃.1.data g hg).symm) []
  rw [show t₅.get (generationPath paths g) = t₃.get (generationPath paths g) from hsame, hdir]
  exact Option.some_ne_none _

/-! ## Where there is a receipt -/

/-- A call whose receipt is there publishes nothing, and returns what the receipt holds. -/
theorem replayed_wp {c : Call α} {operation : StateOperation α} (hop : c.operation = some operation)
    (hthere : content paths t (operationPath [] operation.requestId) ≠ none) :
    (c.run paths).wp machine (Unchanged paths t) (fun r u => Unchanged paths t u ∧ ∀ a, r = .ok a →
      Recorded operation (content paths t (operationPath [] operation.requestId)) a) t := by
  refine run_rule Machine.Refines.rfl c (fun _ => id) (fun _ _ hu => ⟨hu, nofun⟩)
    (fun _ _ _ hr _ => ⟨hr.1, nofun⟩) fun t₁ h₁ _ => ?_
  rw [mutateLocked_eq]
  refine Prog.wp_bind.mpr (((opening_wp paths c.operation t₁).mono (fun _ => h₁.trans)
    fun r u _ hr => ?_))
  cases r with
  | error e => exact ⟨h₁.trans hr.1, nofun⟩
  | ok found =>
    obtain ⟨hu, hopened⟩ := hr
    obtain ⟨active, recorded⟩ := found
    obtain ⟨⟨hactive, hfresh, hrecorded⟩, -⟩ := hopened _ rfl
    cases recorded with
    | none =>
      rw [← h₁.content] at hthere
      exact absurd (hfresh rfl operation hop) hthere
    | some a =>
      obtain ⟨hsome, o, ho, hholds⟩ := hrecorded a rfl
      obtain ⟨g, hg⟩ := Option.ne_none_iff_exists'.mp hsome
      obtain rfl : operation = o := Option.some.inj (hop.symm.trans ho)
      rw [h₁.content] at hholds
      obtain rfl : active = some (generationPath paths g, g) := hactive.trans (by rw [hg]; rfl)
      have hu' := h₁.trans hu
      refine replay_rule Machine.Refines.rfl c (hu.designated.trans hg) _ a (fun _ => hu'.trans)
        (fun _ _ hv => ⟨hu'.trans hv, nofun⟩) fun v hv => ?_
      refine ⟨hu'.trans (legacy_unchanged (hu.designated.trans hg) hv), fun b hb => ?_⟩
      cases hb
      exact hholds

/-- A call is stopped with the state as it was, or has published an operation that had no receipt. -/
theorem Call.visited {c : Call α} (hv : (c.run paths).Visits machine t u) :
    Unchanged paths t u ∨ ∃ a uid, Published c paths t a uid u ∧
      ∀ o ∈ c.operation, content paths t (operationPath [] o.requestId) = none := by
  rcases (run_wp c paths t).visits hv with hu | ⟨a, uid, hp⟩
  · exact .inl hu
  · by_cases hthere : ∃ o ∈ c.operation, content paths t (operationPath [] o.requestId) ≠ none
    · obtain ⟨o, ho, hthere⟩ := hthere
      exact .inl ((replayed_wp ho hthere).visits hv)
    · refine .inr ⟨a, uid, hp, fun o ho => ?_⟩
      by_contra hne
      exact hthere ⟨o, ho, hne⟩

end

/-! ## The published operations -/

/-- A published operation, with the result it has recorded. -/
structure Entry where
  requestId : String
  kind : String
  result : Json

/-- What a call with a result has recorded. -/
def Call.entry (c : Call α) (a : α) : Option Entry :=
  c.operation.map fun o => ⟨o.requestId, o.kind, o.encode a⟩

/-- The receipt of an entry. -/
def Entry.receipt (e : Entry) : Obj :=
  .file 0o600 (encodeUtf8 (jsonText (State.receipt e.requestId e.kind e.result)))

/-- A mutator leaves the receipts alone, and what it records is JSON. -/
structure Call.Orderly (c : Call α) (paths : InstancePaths) : Prop where
  leaves : ∀ {uid t a t'}, t.get (stagingPath paths uid) ≠ none →
    (c.mutator (paths.withData (stagingPath paths uid))).Returns machine t (.ok a) t' →
    ∀ l, ["operations"] <:+ l → dataAt t' (stagingPath paths uid) l = dataAt t (stagingPath paths uid) l
  encodes : ∀ o ∈ c.operation, ∀ a, (o.encode a).WellFormed

/-- A call, stopped anywhere, and the operation it has published. -/
def CallStep (paths : InstancePaths) (t : Tree) (es : List Entry) (u : Tree) : Prop :=
  ∃ (α : Type) (c : Call α), c.Orderly paths ∧ (c.run paths).Visits machine t u ∧
    (Unchanged paths t u ∧ es = [] ∨
      ∃ a uid, Published c paths t a uid u ∧ es = (c.entry a).toList)

section
variable {paths : InstancePaths} {t u : Tree} {es : List Entry}

/-- Every run of an orderly call is such a step. -/
theorem Call.Orderly.step {c : Call α} (hc : c.Orderly paths) (hv : (c.run paths).Visits machine t u) :
    ∃ es, CallStep paths t es u := by
  rcases c.visited hv with hu | ⟨a, uid, hp, -⟩
  · exact ⟨[], α, c, hc, hv, .inl ⟨hu, rfl⟩⟩
  · exact ⟨_, α, c, hc, hv, .inr ⟨a, uid, hp, rfl⟩⟩

/-- The receipt that a call has published. -/
theorem Published.receipt {c : Call α} (h : Published c paths t a uid u) {o : StateOperation α}
    (ho : c.operation = some o) : State.content paths u (operationPath [] o.requestId) =
      some (.file 0o600 (encodeUtf8 (jsonText (State.receipt o.requestId o.kind (o.encode a))))) := by
  obtain ⟨t₁, t₂, t₃, hs, hnew, -⟩ := h.content
  have hreceipted := hs.receipted
  rw [Receipted, ho] at hreceipted
  exact (hnew [_] "operations" (by decide)).trans hreceipted.1

/-- The other receipts. -/
theorem Published.others {c : Call α} (hc : c.Orderly paths) (h : Published c paths t a uid u)
    (requestId : String)
    (hother : ∀ o ∈ c.operation, operationPath [] requestId ≠ operationPath [] o.requestId) :
    State.content paths u (operationPath [] requestId) = State.content paths t (operationPath [] requestId) := by
  obtain ⟨t₁, t₂, t₃, hs, hnew, hsame⟩ := h.content
  have hleaves := hc.leaves hs.there hs.mutated (operationPath [] requestId) (List.suffix_cons _ _)
  refine ((hnew [_] "operations" (by decide)).trans ?_).trans
    (hleaves.trans (congrFun hs.copied (operationPath [] requestId)))
  refine hsame _ (List.cons_ne_nil _ _) ?_
  rintro ⟨o, ho, hl | hl⟩
  · exact absurd (congrArg List.length hl) (by simp)
  · exact hother o ho hl

theorem CallStep.kept (h : CallStep paths t es u) {requestId : String}
    (hthere : content paths t (operationPath [] requestId) ≠ none) :
    content paths u (operationPath [] requestId) = content paths t (operationPath [] requestId) := by
  obtain ⟨α, c, hc, hv, -⟩ := h
  rcases c.visited hv with hu | ⟨a, uid, hp, hfresh⟩
  · rw [hu.content]
  · refine hp.others hc requestId fun o ho heq => hthere ?_
    rw [heq]
    exact hfresh o ho

theorem CallStep.published (h : CallStep paths t es u) : ∀ e ∈ es,
    content paths t (operationPath [] e.requestId) = none ∧
      content paths u (operationPath [] e.requestId) = some e.receipt := by
  intro e he
  obtain ⟨α, c, hc, hv, ⟨-, rfl⟩ | ⟨a, uid, hp, rfl⟩⟩ := h
  · cases he
  · obtain ⟨o, ho, rfl⟩ := Option.map_eq_some_iff.mp (Option.mem_toList.mp he)
    refine ⟨?_, hp.receipt ho⟩
    by_contra hthere
    have hu := (replayed_wp ho hthere).visits hv
    exact hp.new (hu.designated.symm.trans hp.designated)

theorem callStep_once (paths : InstancePaths) : OnceKnown (CallStep paths) Entry.requestId
    fun t requestId => content paths t (operationPath [] requestId) ≠ none where
  keeps h hthere := by
    rw [h.kept hthere]
    exact hthere
  unknown h e he := not_not_intro (h.published e he).1
  known h e he := by
    rw [(h.published e he).2]
    exact nofun
  nodup h := by
    obtain ⟨α, c, -, -, ⟨-, rfl⟩ | ⟨a, uid, -, rfl⟩⟩ := h
    · exact .nil
    · cases c.entry a with
      | none => exact .nil
      | some e => exact List.nodup_singleton _

end

/-! ## What a receipt says -/

theorem receipt_wellFormed (requestId kind : String) {result : Json} (h : result.WellFormed) :
    (receipt requestId kind result).WellFormed := by
  simp [receipt, Json.WellFormed, Json.FieldsWellFormed, h]

theorem sortKeys_receipt (requestId kind : String) (result : Json) :
    (receipt requestId kind result).sortKeys = .obj [("kind", .str kind),
      ("request_id", .str requestId), ("result", result.sortKeys), ("schema_version", .int 1)] := by
  have h : ¬ "schema_version" ≤ "request_id" ∧ ¬ "request_id" ≤ "kind" := by decide
  have h' : ¬ "schema_version" ≤ "kind" ∧ ¬ "schema_version" ≤ "result" ∧ ¬ "result" ≤ "kind" := by decide
  simp [receipt, Json.sortKeys, Json.sortFields, List.insertionSort, h, h']

/-- The receipt of an operation says no more than its result to the same request. -/
theorem receiptResult_receipt {requestId kind requestId' kind' : String} {result result' : Json}
    (h : receiptResult requestId kind (receipt requestId' kind' result).sortKeys = some result') :
    kind = kind' ∧ result' = result.sortKeys := by
  rw [sortKeys_receipt] at h
  simp only [receiptResult, field, List.lookup_cons] at h
  simp at h
  obtain ⟨⟨-, -, hkind⟩, hresult⟩ := h
  exact ⟨hkind.symm, hresult.symm⟩

theorem Entry.recorded {e : Entry} {o : StateOperation α} {a : α} (he : e.result.WellFormed)
    (h : Recorded o (some e.receipt) a) : o.kind = e.kind ∧ o.decode e.result.sortKeys = .ok a := by
  obtain ⟨mode, content, value, result, hfile, hvalue, hresult, hdecode⟩ := h
  cases hfile
  rw [jsonOf_jsonText (receipt_wellFormed _ _ he)] at hvalue
  cases hvalue
  obtain ⟨hkind, rfl⟩ := receiptResult_receipt hresult
  exact ⟨hkind, hdecode⟩

/-- An entry whose receipt is there. -/
def Entry.Held (paths : InstancePaths) (t : Tree) (e : Entry) : Prop :=
  e.result.WellFormed ∧ content paths t (operationPath [] e.requestId) = some e.receipt

section
variable {paths : InstancePaths} {t₀ t u : Tree} {es : List Entry} {e : Entry}

theorem CallStep.held (h : CallStep paths t es u) : ∀ e ∈ es, e.Held paths u := by
  intro e he
  refine ⟨?_, (h.published e he).2⟩
  obtain ⟨α, c, hc, -, ⟨-, rfl⟩ | ⟨a, uid, -, rfl⟩⟩ := h
  · cases he
  · obtain ⟨o, ho, rfl⟩ := Option.map_eq_some_iff.mp (Option.mem_toList.mp he)
    exact hc.encodes o ho a

theorem Entry.Held.kept (he : e.Held paths t) (h : CallStep paths t es u) : e.Held paths u := by
  refine ⟨he.1, (h.kept ?_).trans he.2⟩
  rw [he.2]
  exact nofun

/-- A call that repeats the request of a published entry. -/
theorem Entry.Held.repeated (he : e.Held paths t) {c : Call α} {o : StateOperation α}
    (ho : c.operation = some o) (hid : o.requestId = e.requestId) :
    (∀ u, (c.run paths).Visits machine t u → Unchanged paths t u) ∧
      ∀ a u, (c.run paths).Returns machine t (.ok a) u →
        o.kind = e.kind ∧ o.decode e.result.sortKeys = .ok a := by
  have hthere : content paths t (operationPath [] o.requestId) ≠ none := by
    rw [hid, he.2]
    exact nofun
  refine ⟨fun u hv => (replayed_wp ho hthere).visits hv, fun a u hr => ?_⟩
  have hrecorded := ((replayed_wp ho hthere).returns hr).2 a rfl
  rw [hid, he.2] at hrecorded
  exact Entry.recorded he.1 hrecorded

/-- In a run of calls, each stopped anywhere, no request is published twice, and none that had a
receipt at the start. The receipt of a published request is always there: a call that repeats it
changes nothing of the active generation, and returns only for the same kind, with the result that
is recorded. -/
theorem operations_once (h : Logged (CallStep paths) t₀ es t) :
    (es.map Entry.requestId).Nodup ∧
      (∀ e ∈ es, content paths t₀ (operationPath [] e.requestId) = none) ∧
      ∀ e ∈ es, content paths t (operationPath [] e.requestId) = some e.receipt ∧
        ∀ {α : Type} (c : Call α) (o : StateOperation α), c.operation = some o →
          o.requestId = e.requestId →
          (∀ u, (c.run paths).Visits machine t u → Unchanged paths t u) ∧
          ∀ a u, (c.run paths).Returns machine t (.ok a) u →
            o.kind = e.kind ∧ o.decode e.result.sortKeys = .ok a := by
  obtain ⟨hnodup, hfresh⟩ := h.once (callStep_once paths)
  refine ⟨hnodup, fun e he => not_not.mp (hfresh e he).1, fun e he => ?_⟩
  have hheld : e.Held paths t := h.entries (P := fun e t => e.Held paths t)
    (fun _ _ _ hs => hs.held) (fun _ _ _ _ hs he => he.kept hs) e he
  exact ⟨hheld.2, fun c o => hheld.repeated⟩

end

/-! ## An example -/

def exampleOperation : StateOperation Unit where
  requestId := "create"
  kind := "example"
  encode _ := .null
  decode _ := .ok ()
  id_ok := by decide
  kind_ok := by decide

/-- A call that only publishes its receipt. -/
def stampCall : Call Unit := { idleCall with operation := some exampleOperation }

theorem stampCall_orderly : stampCall.Orderly paths := by
  constructor
  · intro uid t a t' _ hr l _
    have hsame : (stampCall.mutator (paths.withData (stagingPath paths uid))).Yields machine
        (fun _ u => u = t) t := Prog.yields_ret rfl
    rw [hsame.returns hr]
  · intro o ho _
    obtain rfl := Option.some.inj ho
    trivial

def emptyTree : Tree := .ofEntries [([], .dir 0o700)] (by decide)

theorem stampCall_publishes : ∃ a uid u, (stampCall.run examplePaths).Visits machine emptyTree u ∧
    Published stampCall examplePaths emptyTree a uid u := by
  obtain ⟨r, u, hr, htest⟩ := Prog.exists_returns (s := emptyTree)
    (p := stampCall.run examplePaths) exampleHost.respond_answers 150 (fun _ u =>
      u.get ["current", "state"] ≠ none) (by
      simp only [Call.run, mutateState, mutateLocked, stage, publish, finish, verify,
        activeGeneration, readManifest, loadJson_eq, atomicWriteJson, atomicWrite, emptyTree,
        encodeUtf8_jsonText, writeReceipt, writeOperation, stampCall, exampleOperation, idleCall]
      decide +kernel)
  have hv : (stampCall.run examplePaths).Visits machine emptyTree u :=
    ⟨_, Prog.Returns.mono reliable_refines hr⟩
  rcases (run_wp stampCall examplePaths emptyTree).visits hv with hu | ⟨a, uid, hp⟩
  · exact absurd hu.pointer (of_decide_eq_true htest)
  · exact ⟨a, uid, u, hv, hp⟩

/-- The first call publishes, a second one does not. -/
theorem stamped_once : ∃ u, (stampCall.run examplePaths).Visits machine emptyTree u ∧
    content examplePaths u (operationPath [] "create") ≠ none ∧
      ∀ v, (stampCall.run examplePaths).Visits machine u v → Unchanged examplePaths u v := by
  obtain ⟨a, uid, u, hv, hp⟩ := stampCall_publishes
  have hrun : Logged (CallStep examplePaths) emptyTree
      ([] ++ [⟨"create", "example", .null⟩]) u :=
    .step .start ⟨_, stampCall, stampCall_orderly, hv, .inr ⟨a, uid, hp, rfl⟩⟩
  obtain ⟨hreceipt, hagain⟩ := (operations_once hrun).2.2 _ List.mem_cons_self
  refine ⟨u, hv, ?_, (hagain stampCall exampleOperation rfl rfl).1⟩
  rw [hreceipt]
  nofun

end State
end ShuttleGate
