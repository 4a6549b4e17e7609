import ShuttleGate.Ssh.Transaction
import ShuttleGate.State.Finish

/-! # The journal of a transaction

The journal that is written is the journal that is read. -/

namespace ShuttleGate

open Fs Effect Os Files State

namespace Ssh

/-- What the checks of a journal ask for. -/
structure Journal.Valid (j : Journal) : Prop where
  transaction : matchesId "" j.transaction = true
  operationId : isOperationId j.operationId = true
  operationKind : isOperationKind j.operationKind = true
  privateOld : ∀ d, j.privateOldDigest = some d → isDigest d = true
  publicOld : ∀ d, j.publicOldDigest = some d → isDigest d = true
  privateNew : isDigest j.privateNewDigest = true
  publicNew : isDigest j.publicNewDigest = true

theorem voidOperation_ok (h : isOperationId requestId = true) (hk : isOperationKind kind = true) :
    voidOperation requestId kind = .ok () := by
  simp [voidOperation, raiseIf, h, hk, bind, Except.bind]

section
variable {j : Journal}

theorem digestJson_wellFormed (d : Option String) : (digestJson d).WellFormed := by
  cases d <;> simp [digestJson, Json.WellFormed]

theorem Journal.toJson_wellFormed (j : Journal) : j.toJson.WellFormed := by
  simp [Journal.toJson, Json.WellFormed, Json.FieldsWellFormed, digestJson_wellFormed]

/-- The journal, its keys in order. -/
theorem Journal.sortKeys_toJson (j : Journal) : j.toJson.sortKeys = .obj [
    ("operation_id", .str j.operationId),
    ("operation_kind", .str j.operationKind),
    ("private_new_digest", .str j.privateNewDigest),
    ("private_old_digest", digestJson j.privateOldDigest),
    ("public_new_digest", .str j.publicNewDigest),
    ("public_old_digest", digestJson j.publicOldDigest),
    ("schema_version", .int 1),
    ("transaction", .str j.transaction)] := by
  have hd (d : Option String) : (digestJson d).sortKeys = digestJson d := by
    cases d <;> simp [digestJson, Json.sortKeys]
  have h : ¬ "schema_version" ≤ "operation_id" := by decide
  simp [Journal.toJson, Json.sortKeys, Json.sortFields, List.insertionSort, hd, h]

theorem digestOf_digestJson (path : Path) (key : String) (d : Option String) {v : Json}
    (hfield : field key v = some (digestJson d)) (h : ∀ x, d = some x → isDigest x = true) :
    digestOf path key v = .ok d := by
  rw [digestOf, hfield]
  cases d with
  | none => rfl
  | some d => simp [digestJson, h d rfl]

/-- A valid journal is read back as it was written. -/
theorem Journal.Valid.ofJson (h : j.Valid) (path : Path) :
    Journal.ofJson path j.toJson.sortKeys = .ok j := by
  have hprivateOld := digestOf_digestJson path "private_old_digest" j.privateOldDigest
    (v := j.toJson.sortKeys) (by rw [sortKeys_toJson]; rfl) h.privateOld
  have hpublicOld := digestOf_digestJson path "public_old_digest" j.publicOldDigest
    (v := j.toJson.sortKeys) (by rw [sortKeys_toJson]; rfl) h.publicOld
  have hprivateNew := digestOf_digestJson path "private_new_digest" (some j.privateNewDigest)
    (v := j.toJson.sortKeys) (by rw [sortKeys_toJson]; rfl) (by simpa using h.privateNew)
  have hpublicNew := digestOf_digestJson path "public_new_digest" (some j.publicNewDigest)
    (v := j.toJson.sortKeys) (by rw [sortKeys_toJson]; rfl) (by simpa using h.publicNew)
  have hversion : ((field "schema_version" j.toJson.sortKeys).any isOne) = true := by
    rw [sortKeys_toJson]; rfl
  have htransaction : field "transaction" j.toJson.sortKeys = some (.str j.transaction) := by
    rw [sortKeys_toJson]; rfl
  have hid : field "operation_id" j.toJson.sortKeys = some (.str j.operationId) := by
    rw [sortKeys_toJson]; rfl
  have hkind : field "operation_kind" j.toJson.sortKeys = some (.str j.operationKind) := by
    rw [sortKeys_toJson]; rfl
  simp [Journal.ofJson, raiseIf, hversion, htransaction, hid, hkind, h.transaction, hprivateOld,
    hpublicOld, hprivateNew, hpublicNew, voidOperation_ok h.operationId h.operationKind, bind,
    Except.bind]

theorem length_of_isDigest (h : isDigest d = true) : d.length = 64 :=
  (of_decide_eq_true h).1

theorem length_of_isOperationId (h : isOperationId s = true) : s.length ≤ 128 := by
  rw [← String.length_toList]
  unfold isOperationId at h
  split at h
  · next c cs hs =>
    rw [hs, List.length_cons]
    simp only [Bool.and_eq_true, decide_eq_true_eq] at h
    omega
  · cases h

theorem length_of_isOperationKind (h : isOperationKind s = true) : s.length ≤ 128 := by
  rw [← String.length_toList]
  unfold isOperationKind at h
  split at h
  · next c cs hs =>
    rw [hs, List.length_cons]
    simp only [Bool.and_eq_true, decide_eq_true_eq] at h
    omega
  · cases h

theorem length_of_matchesId {name : String} (h : matchesId "" name = true) : name.length = 32 := by
  obtain ⟨-, hlen, -⟩ := of_decide_eq_true h
  rw [List.length_drop, String.length_toList] at hlen
  have : "".length = 0 := by decide
  omega

theorem length_digestJson {d : Option String} (h : ∀ x, d = some x → isDigest x = true)
    (st : Json.Style) (n : Nat) : ((digestJson d).chars st n).length ≤ 770 := by
  cases d with
  | none => simp [digestJson, Json.chars]
  | some d =>
    have := Json.length_strChars_le d
    rw [length_of_isDigest (h d rfl)] at this
    rw [digestJson, Json.chars]
    omega

/-- A valid journal is not too long for its reader. -/
theorem Journal.Valid.length_toJson (h : j.Valid) :
    (encodeUtf8 (jsonText j.toJson)).length ≤ maxTransactionBytes := by
  have hid := Json.length_strChars_le j.operationId
  have hkind := Json.length_strChars_le j.operationKind
  have htransaction := Json.length_strChars_le j.transaction
  have hprivateNew := Json.length_strChars_le j.privateNewDigest
  have hpublicNew := Json.length_strChars_le j.publicNewDigest
  rw [length_of_isDigest h.privateNew] at hprivateNew
  rw [length_of_isDigest h.publicNew] at hpublicNew
  rw [length_of_matchesId h.transaction] at htransaction
  have hidLength := length_of_isOperationId h.operationId
  have hkindLength := length_of_isOperationKind h.operationKind
  have hprivateOld := length_digestJson h.privateOld
  have hpublicOld := length_digestJson h.publicOld
  have hone : (Nat.toDigits 10 1).length = 1 := by decide
  have hnewline : "\n".length = 1 := by decide
  have hkeys : (Json.strChars "operation_id").length = 14 ∧
      (Json.strChars "operation_kind").length = 16 ∧
      (Json.strChars "private_new_digest").length = 20 ∧
      (Json.strChars "private_old_digest").length = 20 ∧
      (Json.strChars "public_new_digest").length = 19 ∧
      (Json.strChars "public_old_digest").length = 19 ∧
      (Json.strChars "schema_version").length = 16 ∧ (Json.strChars "transaction").length = 13 := by
    decide
  rw [length_jsonText j.toJson_wellFormed, jsonText, Json.dumps, sortKeys_toJson,
    String.length_append, String.length_ofList]
  simp only [Json.chars, Json.fieldsChars, Json.intChars, Json.Style.newline,
    Json.Style.colon, Json.Style.comma, List.length_append, List.length_cons, List.length_nil,
    List.length_replicate, maxTransactionBytes]
  have h₁ := hprivateOld .indented (0 + 1)
  have h₂ := hpublicOld .indented (0 + 1)
  omega

/-- A well-formed journal. -/
def Journaled (t : Tree) (identity : Path) (j : Journal) : Prop :=
  ∃ mode content value, t.get (transactionPath identity) = some (.file mode content) ∧
    content.length ≤ maxTransactionBytes ∧ jsonOf content = some value ∧
    Journal.ofJson (transactionPath identity) value = .ok j

/-- A journal that has been written is well-formed. -/
theorem Journal.Valid.journaled {t : Tree} {identity : Path} {m : Nat} (h : j.Valid)
    (hfile : t.get (transactionPath identity) =
      some (.file m (encodeUtf8 (jsonText j.toJson)))) : Journaled t identity j :=
  ⟨m, _, _, hfile, h.length_toJson, jsonOf_jsonText j.toJson_wellFormed, h.ofJson _⟩

end

end Ssh
end ShuttleGate
