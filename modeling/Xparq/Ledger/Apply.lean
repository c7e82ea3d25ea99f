import Xparq.Consensus.Operation

/-!
# Application of validated operations

The staged application of a program call (VM or asset part first, then the payment) and of a
deployment. Both return the journal that `LedgerState.rollbackState` undoes, and both end
with the supply check.
-/

namespace Xparq

open Machine Outcome

variable [Crypto]

namespace LedgerState

/-- What a call does besides its payment. -/
structure CallEffect where
  coin : CoinRollbackJournal
  program : Option ProgramJournal
  extension : Option AssetJournal

def applyCall (s : LedgerState) (tx : AuthorizedProgramInvocation) (height : U64)
    (commitment : AuthorizationCommitment) (chain : ChainContext) (apps : ApplicationExecutor) :
    Except LedgerError (CallEffect × LedgerState) := do
  match ← orError (decodeProgram tx.call) (.state .invalidTransition) with
  | .xpqTransfer => return (⟨.empty, none, none⟩, s)
  | .vm _ =>
    let (applied, s) ← orError (applyVm s tx height commitment apps) (.state .invalidTransition)
    return (⟨applied.coin, applied.program, applied.asset⟩, s)
  | .asset call =>
    let bytes ← okOr (assetCommitmentBytes tx chain) (.consensus .serialization)
    let (journal, assets) ← orError ((executeAsset apps call
      ⟨.program tx.signer, domain .assetIntent bytes⟩).staged s.assets) (.state .invalidTransition)
    return (⟨.empty, none, some journal⟩, { s with assets })

/-- `apply_prepared_program_call_in_staged_state`. -/
def applyPreparedProgramCall (s : LedgerState) (prepared : PreparedProgramInvocation)
    (miner : ProgramId) (chain : ChainContext) (apps : ApplicationExecutor) :
    Except LedgerError (StateRollbackJournal × LedgerState) := do
  let tx := prepared.invocation
  let commitment ← (programInvocationCommitment tx.signer tx.call tx.payment chain).mapError
    fun e => .programCall (.intent e)
  let (effect, s) ← s.applyCall tx prepared.height commitment chain apps
  let (coin, s) ← (executeCoinProgram s tx.payment commitment miner apps).mapError .state
  let coin := { coin with
    consumedCoins := coin.consumedCoins ++ effect.coin.consumedCoins
    createdCoinIds := coin.createdCoinIds ++ effect.coin.createdCoinIds }
  let s ← s.validateSupplyInvariants
  return (⟨some coin, effect.program, effect.extension⟩, s)

/-- `apply_prepared_deploy_in_staged_state`. -/
def applyPreparedDeploy (s : LedgerState) (prepared : PreparedDeploy) (miner : ProgramId)
    (apps : ApplicationExecutor) : Except LedgerError (StateRollbackJournal × LedgerState) := do
  let (coin, s) ← (executeCoinProgram s prepared.signed.payment prepared.commitment
    miner apps).mapError
    .state
  let (id, program, programs) ← orError (deployProgram s.programs prepared.signed.deploy
    prepared.height)
    (.state .invalidTransition)
  rejectIf (id ≠ prepared.programId) (.state .invalidTransition)
  let s ← { s with programs }.validateSupplyInvariants
  return (⟨some coin, some program, none⟩, s)

/-- `expected_coin_burn`. -/
def expectedCoinBurn (s : LedgerState) (intent : CoinTransition) : Except LedgerError Zeno := do
  let inputTotal ← intent.inputs.foldlM (fun total id => do
    let coin ← okOr (s.utxos.coin id) .blockAccountingMismatch
    okOr (checkedAdd total coin.amount) .supplyOverflow) (0 : Zeno)
  let outputTotal ← okOr ((intent.outputs.map CoinOutput.amount).foldlM checkedAdd
    intent.charges.minerFee) .supplyOverflow
  okOr (checkedSub inputTotal outputTotal) .blockAccountingMismatch

end LedgerState

end Xparq
