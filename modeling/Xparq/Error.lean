import Xparq.Ledger.AssetState
import Xparq.Ledger.Utxo
import Xparq.Program.Registry

/-!
# Errors of the kernel

One enumeration per layer, as in the source; an outer error wraps the inner ones.
-/

namespace Xparq

inductive StateError
  | utxo (error : UtxoError)
  | invalidTransition | outputIndexOverflow | burnOverflow | burnUnderflow | amountOverflow
  deriving DecidableEq, Repr

inductive IntentError
  | emptyInputs | emptyOutputs | zeroAmount | duplicateInput | tooManyItems | invalidAssetCall
  | encoding
  deriving DecidableEq, Repr

inductive BurnError
  | weightOverflow | zenoOverflow
  | incorrectBurn (required actual : U64)
  deriving DecidableEq, Repr

inductive ProgramConsensusError
  | unknownProgram
  | vm (error : ExecutionError)
  | encoding | invocationTooLarge
  | intent (error : IntentError)
  | invalidAuthorization | utxoNotFound | recipientMismatch | zenoOverflow | valueMismatch
  | burn (error : BurnError)
  deriving DecidableEq, Repr

inductive DeployConsensusError
  | deploy (error : DeployError)
  | program (error : ProgramConsensusError)
  deriving DecidableEq, Repr

inductive EmissionError
  | missingEmission | invalidSubsidy | arithmeticOverflow | serialization
  deriving DecidableEq, Repr

inductive BlockError
  | missingEmission | unexpectedEmission | blockTooHeavy | invalidOperation | duplicateOperation
  | invalidMerkleRoot | invalidBlockWeight
  | serialization (error : CodecError)
  deriving DecidableEq, Repr

inductive ChainError
  | duplicateBlock | invalidHeight | invalidParent | missingBody
  | serialization (error : CodecError)
  deriving DecidableEq, Repr

inductive ConsensusError
  | invalidBlock (error : BlockError)
  | invalidEmission (error : EmissionError)
  | invalidDifficulty | unexpectedDifficulty | invalidPoWParameters | poWHashFailed | invalidHeight
  | invalidPreviousHash | genesisRequired | wrongGenesis | insufficientPoW | serialization
  deriving DecidableEq, Repr

inductive LedgerError
  | consensus (error : ConsensusError)
  | programCall (error : ProgramConsensusError)
  | deploy (error : DeployConsensusError)
  | state (error : StateError)
  | chain (error : ChainError)
  | emission (error : EmissionError)
  | emptyChain | missingRollbackJournal | invalidStateRoot | invalidPriorStateRoot
  | invalidRollbackStateRoot | invalidBlockWeight | supplyOverflow | coinSupplyMismatch
  | invalidCoinState | invalidAssetState | invalidProgramState | blockAccountingMismatch
  | assetSupplyMismatch | unknownAssetShare
  deriving DecidableEq, Repr

/-- The asset audit reports ledger errors. -/
def LedgerError.ofSupply : AssetState.SupplyError → LedgerError
  | .unknownAssetShare => .unknownAssetShare
  | .invalidAssetState => .invalidAssetState
  | .assetSupplyMismatch => .assetSupplyMismatch
  | .supplyOverflow => .supplyOverflow

/-- Encoding failures surface as consensus errors. -/
def LedgerError.ofCodec (_ : CodecError) : LedgerError := .consensus .serialization

end Xparq
