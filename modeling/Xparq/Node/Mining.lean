import Xparq.Ledger.Canonical

/-!
# Block building

A node builds the next block on its own ledger: expected difficulty and subsidy, then the
commitments that a preview of the execution yields.
-/

namespace Xparq

open Machine Outcome

/-- The errors of the node are texts; those of the kernel are shown as they are. -/
inductive NodeError
  | message (text : String)
  | codec (error : CodecError)
  | consensus (error : ConsensusError)
  | emission (error : EmissionError)
  | ledger (error : LedgerError)
  | invalidProgramCall (error : LedgerError)
  | invalidDeploy (error : LedgerError)
  deriving DecidableEq, Repr

namespace Ledger

/-- The height of the block to come; zero without blocks. -/
def nextHeight (l : Ledger) : Height := (l.chain.tipHeight.map Height.next).getD 0

def expectedNextEmission (l : Ledger) (operations : List BlockOperation) : Except NodeError Zeno :=
  (expectedEmissionForOperations l.nextHeight operations).mapError .emission

variable [Crypto]

def candidateOperationBlock (l : Ledger) (miner : ProgramId) (operations : List BlockOperation) :
    Except NodeError Block := do
  let previous ← okOr l.chain.tipHash (.message "canonical genesis is missing")
  let difficulty ← (expectedNextDifficulty l.chain).mapError .consensus
  let subsidy ← l.expectedNextEmission operations
  let block ← (Block.fromProtocolOperations l.nextHeight previous difficulty 0
    (some ⟨miner, subsidy⟩)
    operations).mapError .codec
  let (stateRoot, blockWeight) ← (l.previewBlockCommitments block).mapError .ledger
  return { block with header := { block.header with stateRoot, blockWeight } }

end Ledger

end Xparq
