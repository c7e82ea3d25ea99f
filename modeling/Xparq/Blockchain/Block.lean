import Xparq.Consensus.Operation
import Xparq.Lib.Levels

/-!
# Blocks

Header, emission and operations, with the rules that depend on the block alone.
-/

namespace Xparq

open Machine Outcome

structure Header where
  previousHash : Hash
  merkleRoot : Hash
  stateRoot : StateRoot
  targetBits : U32
  blockWeight : U32
  nonce : U64
  deriving DecidableEq

structure Emission where
  recipient : ProgramId
  subsidy : Zeno
  deriving DecidableEq, Repr

structure Block where
  header : Header
  height : Height
  emission : Option Emission
  operations : List BlockOperation
  deriving DecidableEq

def maxBlockOperations : Nat := 4096
def genesisTargetBits : U32 := 0x207fffff

def Header.encode (h : Header) : List Byte :=
  h.previousHash.bytes ++ h.merkleRoot.bytes ++ h.stateRoot.bytes ++ leBytes 4 h.targetBits.val ++
    leBytes 4 h.blockWeight.val ++ leBytes 8 h.nonce.val

def Emission.encode (e : Emission) : List Byte := e.recipient.bytes ++ leBytes 8 e.subsidy.val

namespace Block

def isGenesis (b : Block) : Bool := b.height = 0

def minerProgramId (b : Block) : ProgramId := (b.emission.map Emission.recipient).getD 0

def encodeEmission : Option Emission → List Byte
  | none => [0]
  | some emission => 1 :: emission.encode

def encode (b : Block) : Option (List Byte) := do
  let count ← encodeLen b.operations.length
  let operations ← b.operations.mapM BlockOperation.encode
  return b.header.encode ++ leBytes 8 b.height.val ++ encodeEmission b.emission ++ count ++
    operations.flatten

/-- `serialized_size`. -/
def weight (b : Block) : Except CodecError Nat :=
  okOr (b.encode.map List.length) .encodeFailed

def refreshBlockWeight (b : Block) : Except CodecError Block := do
  let weight ← b.weight
  let blockWeight ← okOr (ofNat? (2 ^ 32) weight) .encodeFailed
  return { b with header := { b.header with blockWeight } }

end Block

section
variable [Crypto]

def Header.hash (h : Header) : BlockHash := domain .header h.encode

def Emission.hash (e : Emission) : Hash := domain .emission e.encode

def Block.hash (b : Block) : BlockHash := b.header.hash

/-! ## Merkle root -/

def merkleParent (left right : Hash) : Hash := domain .merkleNode (left.bytes ++ right.bytes)

/-- The loop of `merkle_root`, over `merkle_parent_level`. -/
def merkleReduce : Nat → List Hash → List Hash := Levels.collapse merkleParent

def merkleRoot (leaves : List Hash) : Option Hash := (merkleReduce leaves.length leaves).head?

def merkleLeaves (emission : Option Emission) (operations : List BlockOperation) :
    Except CodecError (List Hash) :=
  (operations.mapM BlockOperation.id).map ((emission.map Emission.hash).toList ++ ·)

def calculateMerkleRoot (emission : Option Emission) (operations : List BlockOperation) :
    Except CodecError Hash :=
  if emission = none ∧ operations = [] then .ok 0
  else do
    let leaves ← merkleLeaves emission operations
    okOr (merkleRoot leaves) .invalidBlock

/-- `from_protocol_operations`. -/
def Block.fromProtocolOperations (height : Height) (previousHash : Hash) (targetBits : U32)
    (nonce : U64) (emission : Option Emission) (operations : List BlockOperation) :
    Except CodecError Block := do
  let merkleRoot ← calculateMerkleRoot emission operations
  let block : Block :=
    ⟨⟨previousHash, merkleRoot, 0, targetBits, 0, nonce⟩, height, emission, operations⟩
  block.refreshBlockWeight

/-! ## Structure -/

def checkEmissionPresence (b : Block) : Except BlockError Unit :=
  if b.isGenesis then do
    rejectIf (b.emission ≠ none) .unexpectedEmission
    rejectIf (b.operations ≠ []) .invalidOperation
  else rejectIf (b.emission = none) .missingEmission

/-- Rules that depend on the block itself; signatures, values and the state root are left to
consensus and the ledger. -/
def Block.validateStructure (b : Block) : Except BlockError Unit := do
  rejectIf (b.operations.length > maxBlockOperations) .invalidOperation
  checkEmissionPresence b
  orError (b.operations.forM fun op => op.validateStructure) .invalidOperation
  rejectIf (b.header.blockWeight.val > maxBlockSize) .blockTooHeavy
  let serialized ← orError b.weight .blockTooHeavy
  rejectIf (serialized > maxBlockSize) .blockTooHeavy
  rejectIf (b.header.blockWeight.val < serialized) .invalidBlockWeight
  orError (b.operations.forM fun op => do
    let size ← op.canonicalLen
    rejectIf (size > maxOperationSize) .encodeFailed) .invalidOperation
  let ids ← (b.operations.mapM BlockOperation.id).mapError .serialization
  rejectIf (¬ ids.Nodup) .duplicateOperation
  let root ← (calculateMerkleRoot b.emission b.operations).mapError .serialization
  rejectIf (b.header.merkleRoot ≠ root) .invalidMerkleRoot

end

end Xparq
