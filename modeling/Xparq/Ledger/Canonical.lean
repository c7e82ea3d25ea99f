import Xparq.Ledger.Apply
import Xparq.Consensus.Difficulty
import Xparq.Consensus.Emission

/-!
# The canonical ledger

A block is executed on a copy of the state: emission first, then each operation is validated
on the staged state and applied to it. The result replaces the ledger's state only after
every check. `rollbackTip` undoes the tip from the journals its execution left.
-/

namespace Xparq

open Machine Outcome OrderedMap

structure Ledger where
  applications : ApplicationExecutor
  chain : Chain
  state : LedgerState
  journals : OrderedMap Height (List StateRollbackJournal)
  chainContext : Option ChainContext

structure ExecutedBlock where
  state : LedgerState
  journals : List StateRollbackJournal
  stateRoot : StateRoot
  blockWeight : U32
  chainContext : ChainContext

/-- `validate_block_accounting`. -/
def validateBlockAccounting (before : Zeno) (after : LedgerState) (subsidy burns : Zeno) :
    Except LedgerError Unit := do
  let expected ← okOr ((checkedAdd before subsidy).bind fun total => checkedSub total burns)
    .blockAccountingMismatch
  rejectIf (after.utxos.totalValue ≠ expected) .blockAccountingMismatch

/-- What the staged execution of a block carries along. -/
structure Staged where
  state : LedgerState
  expectedBurns : Zeno
  journals : List StateRollbackJournal

def Ledger.new (applications : ApplicationExecutor) : Ledger :=
  ⟨applications, Chain.empty, LedgerState.empty, ∅, none⟩

section Execution
variable [Crypto]

/-- The emission coin, unless it would be worth nothing. -/
def emissionCoin (utxos : UtxoSet) (emission : ValidatedEmission) :
    Except LedgerError (List CoinShare × UtxoSet) :=
  let id := CoinShare.fromEmission emission.origin
  if emission.minerEmission = 0 then .ok ([], utxos)
  else ((utxos.insertCoin id ⟨emission.minerEmission, .program emission.recipient⟩).mapError
    fun e => LedgerError.state (.utxo e)).map fun utxos => ([id], utxos)

/-- Create the emission coin and account for subsidy and miner burn. -/
def applyEmission (state : LedgerState) (emission : ValidatedEmission) :
    Except LedgerError (StateRollbackJournal × LedgerState) := do
  let (created, utxos) ← emissionCoin state.utxos emission
  let totalMined ← okOr (checkedAdd state.coin.totalMined emission.subsidy) (.state .amountOverflow)
  let state := { state with utxos, coin := { state.coin with totalMined } }
  let coin :=
    { CoinRollbackJournal.empty with createdCoinIds := created, mined := emission.subsidy }
  let (state, coin) ← (state.recordProtocolBurn emission.protocolBurn coin).mapError .state
  return (⟨some coin, none, none⟩, state)

/-- Validate one operation on the staged state and apply it. -/
def stageOperation (apps : ApplicationExecutor) (chain : ChainContext) (height : Height)
    (miner : ProgramId) (staged : Staged) (op : BlockOperation) : Except LedgerError Staged :=
  match op with
  | .programCall tx => do
      let prepared ← (validateProgramCall tx chain height staged.state apps).mapError .programCall
      let burn ← staged.state.expectedCoinBurn prepared.invocation.payment
      let expectedBurns ← okOr (checkedAdd staged.expectedBurns burn) .supplyOverflow
      let (journal, state) ← orError
        (staged.state.applyPreparedProgramCall prepared miner chain apps)
          (.state .invalidTransition)
      return ⟨state, expectedBurns, staged.journals ++ [journal]⟩
  | .deployProgram signed => do
      let prepared ← (validateDeploy signed chain height staged.state).mapError .deploy
      let burn ← staged.state.expectedCoinBurn prepared.signed.payment
      let expectedBurns ← okOr (checkedAdd staged.expectedBurns burn) .supplyOverflow
      let (journal, state) ← staged.state.applyPreparedDeploy prepared miner apps
      return ⟨state, expectedBurns, staged.journals ++ [journal]⟩

/-- The emission of a block, if it has one; the subsidy is returned with the staged state. -/
def stageEmission (state : LedgerState) (b : Block) : Except LedgerError (Zeno × Staged) :=
  if b.isGenesis then .ok (0, ⟨state, 0, []⟩)
  else do
    let emission ← (validateEmission b).mapError .emission
    let (journal, state) ← applyEmission state emission
    return (emission.subsidy, ⟨state, emission.protocolBurn, [journal]⟩)

namespace Ledger

def stateRoot (l : Ledger) : Except LedgerError StateRoot := l.state.applicationStateRoot

/-- The state has to be the one the tip committed to. -/
def checkPriorRoot (l : Ledger) : Except LedgerError Unit :=
  match l.chain.tipHeight with
  | some height => do
      let tip ← okOr (l.chain.block height) .emptyChain
      let root ← l.stateRoot
      rejectIf (root ≠ tip.header.stateRoot) .invalidPriorStateRoot
  | none => do
      let root ← l.stateRoot
      rejectIf (root ≠ 0) .invalidPriorStateRoot

def contextFor (l : Ledger) (b : Block) : Except LedgerError ChainContext :=
  match l.chainContext with
  | some context => .ok context
  | none => if b.isGenesis then .ok ⟨b.hash⟩ else .error .emptyChain

def executeBlock (l : Ledger) (b : Block) : Except LedgerError ExecutedBlock := do
  (l.chain.validateNextBlock b).mapError .chain
  l.checkPriorRoot
  let weight ← b.weight.mapError LedgerError.ofCodec
  let blockWeight ← okOr (ofNat? (2 ^ 32) weight) .invalidBlockWeight
  let chainContext ← l.contextFor b
  let (subsidy, staged) ← stageEmission l.state b
  let staged ← b.operations.foldlM
    (stageOperation l.applications chainContext b.height b.minerProgramId) staged
  validateBlockAccounting l.state.utxos.totalValue staged.state subsidy staged.expectedBurns
  let state ← staged.state.validateSupplyInvariants
  let stateRoot ← state.applicationStateRoot
  return ⟨state, staged.journals, stateRoot, blockWeight, chainContext⟩

def previewBlockCommitments (l : Ledger) (b : Block) : Except LedgerError (StateRoot × U32) :=
  (l.executeBlock b).map fun executed => (executed.stateRoot, executed.blockWeight)

/-- `apply_validated_block`. -/
def applyValidatedBlock (l : Ledger) (b : Block) : Except LedgerError Ledger := do
  let executed ← l.executeBlock b
  rejectIf (executed.blockWeight ≠ b.header.blockWeight) .invalidBlockWeight
  rejectIf (b.header.stateRoot ≠ executed.stateRoot) .invalidStateRoot
  let chain ← (l.chain.insertBlock b).mapError .chain
  return { l with
    chain, state := executed.state, chainContext := some executed.chainContext
    journals := l.journals.insert b.height executed.journals }

end Ledger

/-! ## Admission -/

def ConsensusError.ofChain : ChainError → ConsensusError
  | .invalidHeight | .duplicateBlock => .invalidHeight
  | _ => .invalidPreviousHash

/-- `validate_for_apply`; mining candidates are checked without their proof of work. -/
def validateForApply (b : Block) (chain : Chain) (enforcePow : Bool) :
    Except ConsensusError Unit := do
  b.validateStructure.mapError .invalidBlock
  (chain.validateNextBlock b).mapError ConsensusError.ofChain
  if b.isGenesis then return ()
  let expected ← expectedDifficulty chain b.height
  if enforcePow then validatePowAtTargetBits b.header expected
  else rejectIf (b.header.targetBits ≠ expected) .unexpectedDifficulty
  let _ ← (validateEmission b).mapError .invalidEmission
  return ()

namespace Ledger

def applyBlock (l : Ledger) (b : Block) : Except LedgerError Ledger := do
  rejectIf (l.chain.hasBlocks = false) (.consensus .genesisRequired)
  (validateForApply b l.chain true).mapError .consensus
  l.applyValidatedBlock b

def applyGenesis (l : Ledger) (b : Block) (expectedHash : BlockHash) :
    Except LedgerError Ledger := do
  rejectIf (l.chain.hasBlocks = true) (.consensus .invalidHeight)
  b.validateStructure.mapError fun e => .consensus (.invalidBlock e)
  rejectIf (b.height ≠ 0 ∨ b.header.previousHash ≠ 0) (.consensus .invalidHeight)
  rejectIf (b.hash ≠ expectedHash) (.consensus .wrongGenesis)
  (validateForApply b l.chain true).mapError .consensus
  l.applyValidatedBlock b

/-! ## Rollback -/

/-- All journals above the ancestor are present. -/
def canRollbackTo (l : Ledger) (ancestor : Height) : Bool :=
  (l.chain.headers.entries.reverse.takeWhile fun e => e.1 > ancestor).all fun e =>
    l.journals.contains e.1

def pruneRollbackJournalsBefore (l : Ledger) (height : Height) : Ledger :=
  let height := match l.chain.tipHeight with
    | some tip => min height tip
    | none => height
  { l with journals := l.journals.retain fun key _ => height ≤ key }

/-- The root the tip's header commits to; zero without blocks. -/
def committedRoot (chain : Chain) : Except LedgerError StateRoot :=
  match chain.tipHeight with
  | some height => (okOr (chain.header height) .emptyChain).map Header.stateRoot
  | none => .ok 0

def rollbackTip (l : Ledger) : Except LedgerError (Block × Ledger) := do
  let height ← okOr l.chain.tipHeight .emptyChain
  let hash ← okOr l.chain.tipHash .emptyChain
  let tip ← okOr (l.chain.block height) .emptyChain
  let root ← l.stateRoot
  rejectIf (root ≠ tip.header.stateRoot) .invalidPriorStateRoot
  let journals ← okOr (l.journals.get? height) .missingRollbackJournal
  let state ← (journals.reverse.foldlM LedgerState.rollbackState l.state).mapError .state
  let (block, chain) ← (l.chain.removeTip hash).mapError .chain
  let state ← state.validateSupplyInvariants
  let expectedRoot ← committedRoot chain
  let root ← state.applicationStateRoot
  rejectIf (root ≠ expectedRoot) .invalidRollbackStateRoot
  return (block, { l with
    chain, state, journals := l.journals.erase height
    chainContext := if chain.tipHeight = none then none else l.chainContext })

end Ledger

end Execution

end Xparq
