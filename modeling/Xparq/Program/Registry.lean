import Xparq.Program.Code
import Xparq.Lib.GroupIndex
import Mathlib.Data.Prod.Lex

/-!
# Deployed programs

The registry keeps one record per program and a lookup of used `(owner, nonce)` pairs. After
deployment only a record's state slot and its storage change, through `setState` and
`setStorage`; `setState_eq_some` and `setStorage_eq_ok` say what they do, without the case
where the source skips a write of the same value. `rollbackProgram` undoes a journal.
-/

namespace Xparq

open Machine Outcome OrderedMap

abbrev ProgramHash := Hash

structure ProgramRecord where
  codeHash : ProgramHash
  code : List Byte
  owner : ProgramId
  nonce : U64
  deployedAt : Height
  stateValue : I64
  storage : Storage
  deriving DecidableEq

structure ProgramRegistry where
  programs : OrderedMap ProgramId ProgramRecord
  deployments : OrderedSet (ProgramId ×ₗ U64)
  deriving DecidableEq

inductive RegistryError
  | alreadyExists | encoding | invalidRecord
  deriving DecidableEq, Repr

inductive DeployError
  | emptyProgram | programTooLarge | invalidCode | invalidPayment | invalidAuthorization | encoding
  | missingProgram
  | registry (error : RegistryError)
  deriving DecidableEq, Repr

def maxProgramCodeSize : Nat := 1048576

structure DeployProgram where
  owner : ProgramId
  nonce : U64
  code : List Byte
  deriving DecidableEq

def DeployProgram.validateStructure (d : DeployProgram) : Except DeployError Unit := do
  rejectIf (d.code = []) .emptyProgram
  rejectIf (d.code.length > maxProgramCodeSize) .programTooLarge
  let _ ← orError (validateCode d.code) .invalidCode
  return ()

/-- What undoes one operation's registry change. -/
inductive ProgramJournal
  | deploy (programId : ProgramId)
  | state (programId : ProgramId) (previous : I64)
  | calls (states : List (ProgramId × I64))
      (storage : List (ProgramId × List Byte × Option (List Byte)))
  deriving DecidableEq

/-! ## Canonical bytes -/

def encodeStorage (s : Storage) : Option (List Byte) := do
  let count ← encodeLen s.length
  let entries ← s.entries.mapM fun e => do
    let key ← encodeBytes e.1
    let value ← encodeBytes e.2
    return key ++ value
  return count ++ entries.flatten

/-- Storage is part of the bytes of application code only. -/
def ProgramRecord.encode (r : ProgramRecord) : Option (List Byte) := do
  let code ← encodeBytes r.code
  let head := r.codeHash.bytes ++ code ++ r.owner.bytes ++ leBytes 8 r.nonce.val ++
    leBytes 8 r.deployedAt.val ++ r.stateValue.encode
  if r.code[4]? = some applicationVersion then
    let storage ← encodeStorage r.storage
    return head ++ storage
  else return head

def ProgramRegistry.encodeEntry (id : ProgramId) (r : ProgramRecord) : Option (List Byte) :=
  r.encode.map (id.bytes ++ ·)

def ProgramRegistry.encode (r : ProgramRegistry) : Option (List Byte) := do
  let count ← encodeLen r.programs.length
  let entries ← r.programs.entries.mapM fun e => encodeEntry e.1 e.2
  return count ++ entries.flatten

/-! ## The registry -/

namespace ProgramRegistry

def empty : ProgramRegistry := ⟨∅, ∅⟩

def program (r : ProgramRegistry) (id : ProgramId) : Option ProgramRecord := r.programs.get? id

def contains (r : ProgramRegistry) (id : ProgramId) : Bool := r.programs.contains id

def checkAvailable (r : ProgramRegistry) (id owner : ProgramId) (nonce : U64) :
    Except RegistryError Unit :=
  rejectIf (r.contains id = true ∨ r.deployments.contains (toLex (owner, nonce)) = true)
    .alreadyExists

def insert (r : ProgramRegistry) (id : ProgramId) (record : ProgramRecord) :
    Except RegistryError ProgramRegistry := do
  r.checkAvailable id record.owner record.nonce
  return ⟨r.programs.insert id record, r.deployments.insert (toLex (record.owner, record.nonce)) ()⟩

def remove (r : ProgramRegistry) (id : ProgramId) : Option (ProgramRecord × ProgramRegistry) := do
  let record ← r.programs.get? id
  return (record, ⟨r.programs.erase id, r.deployments.erase (toLex (record.owner, record.nonce))⟩)

def setStorage (r : ProgramRegistry) (id : ProgramId) (key : List Byte)
    (value : Option (List Byte)) : Except RegistryError ProgramRegistry := do
  let record ← okOr (r.programs.get? id) .invalidRecord
  if record.storage.get? key = value then return r
  let changed := { record with storage := record.storage.put key value }
  return { r with programs := r.programs.insert id changed }

def setState (r : ProgramRegistry) (id : ProgramId) (value : I64) :
    Option (I64 × ProgramRegistry) := do
  let record ← r.programs.get? id
  if record.stateValue = value then return (record.stateValue, r)
  let changed := { record with stateValue := value }
  return (record.stateValue, { r with programs := r.programs.insert id changed })

variable {r r' : ProgramRegistry} {id : ProgramId}

theorem checkAvailable_eq_ok {owner : ProgramId} {nonce : U64} {u : Unit} :
    r.checkAvailable id owner nonce = .ok u ↔ r.programs.get? id = none ∧
      r.deployments.get? (toLex (owner, nonce)) = none := by
  rw [checkAvailable, rejectIf_eq_ok, not_or, Bool.not_eq_true, Bool.not_eq_true, contains,
    contains_eq_false_iff, contains_eq_false_iff]

theorem insert_eq_ok {record : ProgramRecord} :
    r.insert id record = .ok r' ↔ r.programs.get? id = none ∧
      r.deployments.get? (toLex (record.owner, record.nonce)) = none ∧
      r' = ⟨r.programs.insert id record,
      r.deployments.insert (toLex (record.owner, record.nonce)) ()⟩ := by
  simp only [insert, bind_eq_ok, checkAvailable_eq_ok, return_eq_ok, exists_const, and_assoc]
  rw [eq_comm (a := r')]

/-- A program's state slot is replaced. -/
theorem setState_eq_some {value before : I64} :
    r.setState id value = some (before, r') ↔ ∃ record, r.programs.get? id = some record ∧
      before = record.stateValue ∧
      r' = { r with programs := r.programs.insert id { record with stateValue := value } } := by
  unfold setState
  cases hget : r.programs.get? id with
  | none => simp
  | some record =>
    by_cases hsame : record.stateValue = value
    · subst hsame
      have hinsert : r.programs.insert id { record with stateValue := record.stateValue } =
          r.programs :=
        insert_of_get? hget
      simp only [Option.pure_def, some_bind, if_true, Option.some.injEq, Prod.mk.injEq,
        exists_eq_left', hinsert]
      exact and_congr eq_comm eq_comm
    · simp only [Option.pure_def, some_bind, if_neg hsame, Option.some.injEq, Prod.mk.injEq,
        exists_eq_left']
      exact and_congr eq_comm eq_comm

/-- A program's storage key is written or deleted. -/
theorem setStorage_eq_ok {key : List Byte} {value : Option (List Byte)} :
    r.setStorage id key value = .ok r' ↔ ∃ record, r.programs.get? id = some record ∧
      r' = { r with programs :=
        r.programs.insert id { record with storage := record.storage.put key value } } := by
  unfold setStorage
  cases hget : r.programs.get? id with
  | none => simp [okOr]
  | some record =>
    by_cases hsame : record.storage.get? key = value
    · subst hsame
      have hinsert : r.programs.insert id { record with
          storage := record.storage.put key (record.storage.get? key) } = r.programs := by
        rw [put_get?]
        exact insert_of_get? hget
      simp only [okOr, ok_bind, if_true, return_eq_ok, Option.some.injEq, exists_eq_left',
        hinsert]
      exact eq_comm
    · simp only [okOr, ok_bind, if_neg hsame, return_eq_ok, Option.some.injEq,
        exists_eq_left']
      exact eq_comm

end ProgramRegistry

section Derivation
variable [Crypto]

def ProgramHash.derive (code : List Byte) : Except RegistryError ProgramHash := do
  let bytes ← okOr (encodeBytes code) .encoding
  return domain .xparqArtifact (ascii "xparq:program-code:v1" ++ bytes)

def programIdBytes (owner : ProgramId) (nonce : U64) (codeHash : ProgramHash) : List Byte :=
  ascii "xparq:program-id:v2" ++ owner.bytes ++ leBytes 8 nonce.val ++ codeHash.bytes

def ProgramId.derive (owner : ProgramId) (nonce : U64) (codeHash : ProgramHash) : ProgramId :=
  domain .xparqArtifact (programIdBytes owner nonce codeHash)

def prepareDeployment (deploy : DeployProgram) (height : Height) :
    Except DeployError (ProgramId × ProgramRecord) := do
  deploy.validateStructure
  let codeHash ← (ProgramHash.derive deploy.code).mapError .registry
  return (ProgramId.derive deploy.owner deploy.nonce codeHash,
    ⟨codeHash, deploy.code, deploy.owner, deploy.nonce, height, I64.zero, ∅⟩)

def deployProgram (registry : ProgramRegistry) (deploy : DeployProgram) (height : Height) :
    Except DeployError (ProgramId × ProgramJournal × ProgramRegistry) := do
  let (programId, record) ← prepareDeployment deploy height
  let registry ← (registry.insert programId record).mapError .registry
  return (programId, .deploy programId, registry)

end Derivation

namespace ProgramRegistry
variable [Crypto]

def validateRecord (id : ProgramId) (record : ProgramRecord) : Except RegistryError Unit := do
  orError (DeployProgram.validateStructure ⟨record.owner, record.nonce, record.code⟩) .invalidRecord
  rejectIf (validStorage record.storage = false ∨
    (record.code[4]? ≠ some applicationVersion ∧ record.storage.isEmpty = false)) .invalidRecord
  let hash ← ProgramHash.derive record.code
  rejectIf (hash ≠ record.codeHash ∨ ProgramId.derive record.owner record.nonce hash ≠ id)
    .invalidRecord

/-- Audit one record and note its deployment. -/
def validateEntry (tip : Height) (deployments : OrderedSet (ProgramId ×ₗ U64))
    (entry : ProgramId × ProgramRecord) : Except RegistryError (OrderedSet (ProgramId ×ₗ U64)) := do
  let deployment := toLex (entry.2.owner, entry.2.nonce)
  validateRecord entry.1 entry.2
  rejectIf (entry.2.deployedAt > tip ∨ deployments.contains deployment = true) .invalidRecord
  return deployments.insert deployment ()

/-- Audit restored state, including the derived owner/nonce lookup. -/
def validate (r : ProgramRegistry) (tip : Height) : Except RegistryError Unit := do
  let deployments ← r.programs.entries.foldlM (validateEntry tip) ∅
  rejectIf (deployments.keys ≠ r.deployments.keys) .invalidRecord

end ProgramRegistry

def rollbackStates (registry : ProgramRegistry) (states : List (ProgramId × I64)) :
    Except DeployError ProgramRegistry :=
  states.foldlM (fun r e => okOr ((r.setState e.1 e.2).map Prod.snd) .missingProgram) registry

def rollbackStorage (registry : ProgramRegistry)
    (storage : List (ProgramId × List Byte × Option (List Byte))) :
    Except DeployError ProgramRegistry :=
  storage.foldlM (fun r e => (r.setStorage e.1 e.2.1 e.2.2).mapError .registry) registry

def rollbackProgram (registry : ProgramRegistry) :
    ProgramJournal → Except DeployError ProgramRegistry
  | .calls states storage => do rollbackStorage (← rollbackStates registry states) storage
  | .deploy programId => okOr ((registry.remove programId).map Prod.snd) .missingProgram
  | .state programId previous => rollbackStates registry [(programId, previous)]

end Xparq
