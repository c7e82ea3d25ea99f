import Xparq.Consensus.Burn
import Xparq.Operation
import Xparq.Ledger.CoinProgram

/-!
# Validation of operations

An operation is validated against the ledger state it will change: structure, size,
authorization, ownership and conservation of the payment, and the exact protocol burn. Program
calls are priced by a preview of their execution, deployments by the registry entry they add.
-/

namespace Xparq

open Machine Outcome

/-- Created outputs, the miner's fee included. -/
def countCoinOutputs (t : CoinTransition) : Nat :=
  t.outputs.length + if t.charges.minerFee = 0 then 0 else 1

/-- Ownership and conservation; the result is what the payment leaves to burn. -/
def validateCoinInputs (payment : CoinTransition) (signer : ProgramId) (state : LedgerState) :
    Except ProgramConsensusError Zeno := do
  rejectIf (¬ payment.inputs.Nodup) (.intent .duplicateInput)
  -- a registered program must execute its own policy
  rejectIf (state.programs.contains signer = true) .invalidAuthorization
  let inputTotal ← payment.inputs.foldlM (fun total id => do
    let input ← okOr (state.utxos.coin id) .utxoNotFound
    rejectIf (input.owner ≠ .program signer) .recipientMismatch
    okOr (checkedAdd total input.amount) .zenoOverflow) (0 : Zeno)
  let outputTotal ← okOr (sumAmounts (payment.outputs.map CoinOutput.amount)) .zenoOverflow
  okOr ((checkedSub inputTotal outputTotal).bind fun value =>
    checkedSub value payment.charges.minerFee) .valueMismatch

structure PreparedProgramInvocation where
  invocation : AuthorizedProgramInvocation
  requiredBurn : Zeno
  createdStateWeight : U64
  height : U64

structure PreparedDeploy where
  signed : AuthorizedDeployProgram
  commitment : AuthorizationCommitment
  programId : ProgramId
  height : Height
  requiredBurn : Zeno

variable [Crypto]

/-- The commitment of an asset call: the payment is part of it. -/
def assetCommitmentBytes (tx : AuthorizedProgramInvocation) (chain : ChainContext) :
    Option (List Byte) := do
  let call ← tx.call.encode
  let payment ← tx.payment.encode
  return chain.genesisHash.bytes ++ tx.signer.bytes ++ call ++ payment

/-- `program_created_state_weight_with_applications`: state growth quoted on a sparse view. -/
def programCreatedStateWeight (tx : AuthorizedProgramInvocation) (chain : ChainContext)
    (assets : AssetState) (apps : ApplicationExecutor) : Except ProgramConsensusError U64 := do
  tx.validateStructure.mapError .intent
  match ← orError (decodeProgram tx.call) (.intent .invalidAssetCall) with
  | .xpqTransfer => return 0
  | .vm _ => return 0
  | .asset call =>
    let bytes ← okOr (assetCommitmentBytes tx chain) .encoding
    let context : ExecutionContext := ⟨.program tx.signer, domain .assetIntent bytes⟩
    let preview ← orError (assets.operationView call context) (.intent .invalidAssetCall)
    let (journal, preview) ← orError ((executeAsset apps call context).staged preview)
      (.intent .invalidAssetCall)
    let delta ← orError (journal.canonicalDelta preview) .encoding
    okOr (ofNat? (2 ^ 64) (max delta 0).toNat) (.burn .weightOverflow)

/-- What the VM part of a call costs. -/
def vmQuote (tx : AuthorizedProgramInvocation) (chain : ChainContext) (height : U64)
    (state : LedgerState) (apps : ApplicationExecutor) (decoded : DecodedProgramCall) :
    Except ProgramConsensusError (TransferQuote × Nat) :=
  match decoded with
  | .vm _ => do
      tx.validateStructure.mapError .intent
      let _ ← validateCoinInputs tx.payment tx.signer state
      let commitment ← (programInvocationCommitment tx.signer tx.call tx.payment chain).mapError
        .intent
      let result ← (previewVm state tx height commitment apps).mapError .vm
      return (result.quote, result.fuelUsed)
  | _ => .ok (.zero, 0)

def callStateWeight (tx : AuthorizedProgramInvocation) (chain : ChainContext) (state : LedgerState)
    (apps : ApplicationExecutor) (decoded : DecodedProgramCall) (quote : TransferQuote) :
    Except ProgramConsensusError U64 :=
  match decoded with
  | .asset _ => programCreatedStateWeight tx chain state.assets apps
  | _ => .ok quote.createdStateWeight

/-- `validate_program_call_with_applications`. -/
def validateProgramCall (tx : AuthorizedProgramInvocation) (chain : ChainContext) (height : U64)
    (state : LedgerState) (apps : ApplicationExecutor) :
    Except ProgramConsensusError PreparedProgramInvocation := do
  tx.validateStructure.mapError .intent
  let size ← orError (BlockOperation.programCall tx).canonicalLen .encoding
  rejectIf (size > maxProgramInvocationSize) .invocationTooLarge
  let valid ← (tx.verifyAuthorizations chain).mapError .intent
  rejectIf (valid = false) .invalidAuthorization
  let decoded ← orError (decodeProgram tx.call) (.intent .invalidAssetCall)
  let (quote, fuel) ← vmQuote tx chain height state apps decoded
  let createdStateWeight ← callStateWeight tx chain state apps decoded quote
  let actual ← validateCoinInputs tx.payment tx.signer state
  let transition : StateTransitionWeight :=
    ⟨countCoinOutputs tx.payment + quote.createdCoinUtxos,
      tx.payment.inputs.length + quote.consumedCoinUtxos, createdStateWeight.val⟩
  let burn ← (ProtocolBurn.forProgramCall transition size).mapError .burn
  let total ← burn.total.mapError .burn
  let requiredBurn ← okOr ((ofNat? (2 ^ 64) fuel).bind (checkedAdd total)) .zenoOverflow
  (validateExactBurn actual requiredBurn).mapError .burn
  return ⟨tx, requiredBurn, createdStateWeight, height⟩

def maxBlockSize : Nat := 2 * 1024 * 1024
def maxOperationSize : Nat := maxBlockSize

/-- The structural rules of a deployment. -/
def checkDeploy (signed : AuthorizedDeployProgram) : Except DeployConsensusError Unit := do
  signed.deploy.validateStructure.mapError .deploy
  orError signed.payment.validate (.deploy .invalidPayment)
  rejectIf (signed.deploy.owner ≠ signed.payment.signer) (.deploy .invalidPayment)

def quoteDeployBurn (signed : AuthorizedDeployProgram) (height : Height) (state : LedgerState) :
    Except DeployConsensusError (ProgramId × Zeno) := do
  checkDeploy signed
  let size ← orError (BlockOperation.deployProgram signed).canonicalLen (.deploy .encoding)
  rejectIf (size > maxOperationSize) (.deploy .programTooLarge)
  let (programId, record) ← (prepareDeployment signed.deploy height).mapError .deploy
  (state.programs.checkAvailable programId record.owner record.nonce).mapError
    fun e => .deploy (.registry e)
  let growth ← orError (canonicalLength (ProgramRegistry.encodeEntry programId record))
    (.deploy .encoding)
  let transition : StateTransitionWeight :=
    ⟨countCoinOutputs signed.payment, signed.payment.inputs.length, growth⟩
  let burn ← (ProtocolBurn.forProgramCall transition size).mapError fun e => .program (.burn e)
  let requiredBurn ← burn.total.mapError fun e => .program (.burn e)
  return (programId, requiredBurn)

def validateDeploy (signed : AuthorizedDeployProgram) (chain : ChainContext) (height : Height)
    (state : LedgerState) : Except DeployConsensusError PreparedDeploy := do
  checkDeploy signed
  let commitment ← orError (signed.commitment chain) (.deploy .encoding)
  rejectIf (signed.authorization.verifyCommitment signed.deploy.owner commitment = false)
    (.deploy .invalidAuthorization)
  let (programId, requiredBurn) ← quoteDeployBurn signed height state
  let actual ← (validateCoinInputs signed.payment signed.deploy.owner state).mapError .program
  (validateExactBurn actual requiredBurn).mapError fun e => .program (.burn e)
  return ⟨signed, commitment, programId, height, requiredBurn⟩

end Xparq
