import Xparq.Program.Engine
import Xparq.Program.Authorization

/-!
# VM invocations

`applyVm` runs the signed root call on a staging state and returns what the ledger needs: the
quote that prices the call and the journals that undo it. `previewVm` is what validation
prices the call with; legacy code without monetary effects takes a shortcut there.
-/

namespace Xparq

open Machine Outcome OrderedMap

/-- `AppliedVm`. The last two fields are the engine's, for statements about runs. -/
structure AppliedVm where
  value : U128
  fuelUsed : Nat
  quote : TransferQuote
  coin : CoinRollbackJournal
  asset : Option AssetJournal
  program : Option ProgramJournal
  entered : List ProgramId
  issued : List CoinShare

def Engine.start (state : LedgerState) : Engine where
  state := state
  fuel := maxCallFuel
  calls := 0
  actions := 0
  active := []
  accountsReady := ∅
  coins := ∅
  assets := ∅
  consumed := ∅
  created := ∅
  asset := none
  states := ∅
  storage := ∅
  entered := []
  issued := []

/-- The coins a payment deposits with the called program. -/
def depositOf (payment : CoinTransition) (id : ProgramId) : Except ExecutionError U64 :=
  okOr (((payment.outputs.filter fun o => o.output = .program id).map CoinOutput.amount).foldlM
    checkedAdd 0) .arithmeticOverflow

namespace Engine

def storageWidth (key : List Byte) (value : Option (List Byte)) : Int :=
  ((value.map fun v => 8 + key.length + v.length).getD 0 : Nat)

/-- Add the size changes of the touched storage keys to an `i128`. -/
def storageDelta (e : Engine) (delta : Int) : Except ExecutionError Int :=
  e.storage.entries.foldlM (fun delta entry => do
    let record ← e.record (ofLex entry.1).1
    let key := (ofLex entry.1).2
    orError (AssetJournal.checkedAddI128 delta
      (storageWidth key (record.storage.get? key) - storageWidth key entry.2)) .arithmeticOverflow)
        delta

/-- The size change of the canonical state, coins aside. -/
def stateDelta (e : Engine) : Except ExecutionError Int := do
  let delta ← match e.asset with
    | some journal => orError (journal.canonicalDelta e.state.assets) .settlementFailed
    | none => .ok 0
  e.storageDelta delta

/-- `None` when nothing changed; the single-state form is kept for historical encodings. -/
def programJournal (e : Engine) : Option ProgramJournal :=
  if e.states.isEmpty ∧ e.storage.isEmpty then none
  else match e.states.entries, e.storage.isEmpty with
    | [(programId, previous)], true => some (.state programId previous)
    | states, _ => some (.calls states
        (e.storage.entries.map fun entry => ((ofLex entry.1).1, (ofLex entry.1).2, entry.2)))

/-- What a finished engine reports. -/
def report (e : Engine) (value : U128) : Except ExecutionError AppliedVm := do
  let delta ← e.stateDelta
  let weight ← okOr (ofNat? (2 ^ 64) (max delta 0).toNat) .resourceLimit
  return {
    value
    fuelUsed := maxCallFuel - e.fuel
    quote := ⟨e.created.length, e.consumed.length, weight⟩
    coin := ⟨e.consumed.entries, e.created.keys, 0, 0⟩
    asset := e.asset
    program := e.programJournal
    entered := e.entered
    issued := e.issued }

end Engine

variable [Crypto]

/-- `vm_app::apply`. -/
def applyVm (state : LedgerState) (tx : AuthorizedProgramInvocation) (height : U64)
    (commitment : AuthorizationCommitment) (apps : ApplicationExecutor) :
    Except ExecutionError (AppliedVm × LedgerState) := do
  let (id, data) ← orError (callInput tx.call) .invalidOperand
  let deposit ← depositOf tx.payment id
  let (value, e) ← Engine.call ⟨apps, tx.signer, height, commitment⟩ (maxCallDepth + 1) id
    (.program tx.signer) data deposit (.start state)
  let applied ← e.report value
  return (applied, e.state)

/-- The receipt of the scalar shortcut. -/
def AppliedVm.ofScalar (id : ProgramId) (result : ExecutionResult) : AppliedVm where
  value := result.value.toU128
  fuelUsed := result.fuelUsed
  quote := .zero
  coin := .empty
  asset := none
  program := none
  entered := [id]
  issued := []

/-- `vm_app::preview`. -/
def previewVm (state : LedgerState) (tx : AuthorizedProgramInvocation) (height : U64)
    (commitment : AuthorizationCommitment) (apps : ApplicationExecutor) :
    Except ExecutionError AppliedVm := do
  let (id, data) ← orError (callInput tx.call) .invalidOperand
  let record ← okOr (state.programs.program id) .unknownProgram
  if record.code[4]? ≠ some applicationVersion then
    rejectIf (data ≠ []) .invalidOperand
    let result ← executeCodeWithState record.code record.stateValue maxCallFuel
    if result.hasMonetaryEffects = false then return .ofScalar id result
  let (applied, _) ← applyVm state tx height commitment apps
  return applied

end Xparq
