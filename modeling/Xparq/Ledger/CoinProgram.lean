import Xparq.Program.Application
import Xparq.Ledger.State

/-!
# Payment execution

The kernel's coin host checks every request of the application against one payment, and
`executeCoinProgram` accepts the application's run only if it consumed, created and burned
exactly what the payment says; otherwise the journal is rolled back.
-/

namespace Xparq

open Machine Outcome

/-- What the host holds while a payment runs. -/
structure CoinHostState where
  state : LedgerState
  journal : CoinRollbackJournal

/-- The payment a coin host is bound to. -/
structure BoundPayment where
  allowedInputs : List CoinShare
  outputs : List (Owner × Zeno)
  miner : ProgramId
  minerFee : Zeno
  expectedBurn : Zeno
  commitment : AuthorizationCommitment

/-- The owner and amount the payment has at an index; the miner's fee comes last. -/
def BoundPayment.outputAt (p : BoundPayment) (index : U32) : Option (Owner × Zeno) :=
  match p.outputs[index.val]? with
  | some output => some output
  | none => if index.val = p.outputs.length ∧ p.minerFee ≠ 0
    then some (.program p.miner, p.minerFee)
      else none

def inputTotal (utxos : UtxoSet) (inputs : List CoinShare) : Except StateError Zeno :=
  inputs.foldlM (fun total id => do
    let coin ← okOr (utxos.coin id) .invalidTransition
    okOr (checkedAdd total coin.amount) .amountOverflow) 0

section
variable [Crypto]

/-- `KernelCoinHost`. -/
def kernelCoinHost (p : BoundPayment) : RequestTree.Server CoinHost CoinHostState
  | .inputAmount id, host =>
    ((if id ∉ p.allowedInputs then .error .invalidTransition
      else (okOr (host.state.utxos.coin id) StateError.invalidTransition).map CoinUtxo.amount :
        Except StateError Zeno), host)
  | .consume id, host =>
    if id ∉ p.allowedInputs then (Except.error StateError.invalidTransition, host)
    else match host.state.utxos.consumeCoin id with
      | .error e => (Except.error (StateError.utxo e), host)
      | .ok (coin, utxos) => (Except.ok (), ⟨{ host.state with utxos },
          { host.journal with consumedCoins := host.journal.consumedCoins ++ [(id, coin)] }⟩)
  | .create index owner amount, host =>
    if p.outputAt index ≠ some (owner, amount)
      then (Except.error StateError.invalidTransition, host)
    else
      let id := CoinShare.fromOutput p.commitment index
      match host.state.utxos.insertCoin id ⟨amount, owner⟩ with
      | .error e => (Except.error (StateError.utxo e), host)
      | .ok utxos => (Except.ok (), ⟨{ host.state with utxos },
          { host.journal with createdCoinIds := host.journal.createdCoinIds ++ [id] }⟩)
  | .burn amount, host =>
    if amount ≠ p.expectedBurn ∨ host.journal.burned ≠ 0 then
      (Except.error StateError.invalidTransition, host)
    else match host.state.recordProtocolBurn amount host.journal with
      | .error e => (Except.error e, host)
      | .ok (state, journal) => (Except.ok (), ⟨state, journal⟩)

def StateError.ofTransfer : TransferError → StateError
  | .host error => error
  | .invalidBalance => .invalidTransition
  | .amountOverflow => .amountOverflow
  | .outputIndexOverflow => .outputIndexOverflow

def CoinTransition.outputPairs (t : CoinTransition) : List (Owner × Zeno) :=
  t.outputs.map fun output => (output.output, output.amount)

/-- The payment's host before the application runs. -/
def bindPayment (s : LedgerState) (intent : CoinTransition) (commitment : AuthorizationCommitment)
    (miner : ProgramId) : Except StateError BoundPayment := do
  let inputTotal ← inputTotal s.utxos intent.inputs
  let outputTotal ← okOr ((intent.outputs.map CoinOutput.amount).foldlM checkedAdd
    intent.charges.minerFee) .amountOverflow
  let expectedBurn ← okOr (checkedSub inputTotal outputTotal) .invalidTransition
  return ⟨intent.inputs, intent.outputPairs, miner, intent.charges.minerFee, expectedBurn,
    commitment⟩

/-- `execute_coin_program_with_applications`. A failed run is rolled back; if even that fails,
its error is the one reported. -/
def executeCoinProgram (s : LedgerState) (intent : CoinTransition)
    (commitment : AuthorizationCommitment) (miner : ProgramId) (apps : ApplicationExecutor) :
    Except StateError (CoinRollbackJournal × LedgerState) := do
  let payment ← bindPayment s intent commitment miner
  let (result, host) := (apps.executeCoin intent.inputs intent.outputPairs miner
    intent.charges.minerFee).serve (kernelCoinHost payment) ⟨s, .empty⟩
  let result := do
    result.mapError StateError.ofTransfer
    rejectIf (host.journal.consumedCoins.length ≠ intent.inputs.length ∨
      host.journal.createdCoinIds.length ≠
        intent.outputs.length + (if intent.charges.minerFee = 0 then 0 else 1) ∨
      host.journal.burned ≠ payment.expectedBurn) StateError.invalidTransition
  match result with
  | .ok () => return (host.journal, host.state)
  | .error e =>
    let _ ← host.state.rollbackCoin host.journal
    throw e

end

end Xparq
