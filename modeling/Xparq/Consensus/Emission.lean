import Xparq.Blockchain.Block

/-!
# Emission

The scheduled subsidy doubles five times, then halves to a permanent tail. From the tail on,
the fees of a block's operations offset the net issuance. The miner protocol burn is part of
every subsidy.
-/

namespace Xparq

open Machine Outcome

def blockEmissionStart : Nat := 156250000
def maxBlockEmission : Nat := 5000000000
def tailBlockEmission : Nat := 78125000
def emissionRisingSteps : Nat := 5
def emissionHalvingsToTail : Nat := 6
def emissionInterval : Nat := 100000

def foteActivationHeight : Nat :=
  (emissionRisingSteps + emissionHalvingsToTail) * emissionInterval + 1

def scheduledEmission (completedIntervals : Nat) : Nat :=
  if completedIntervals ≤ emissionRisingSteps then
    min (blockEmissionStart * 2 ^ completedIntervals) maxBlockEmission
  else
    let halvings := completedIntervals - emissionRisingSteps
    if halvings ≥ emissionHalvingsToTail then tailBlockEmission
    else max (maxBlockEmission / 2 ^ halvings) tailBlockEmission

theorem scheduledEmission_lt (n : Nat) : scheduledEmission n < 2 ^ 64 := by
  unfold scheduledEmission
  split
  · exact lt_of_le_of_lt (min_le_right _ _) (by decide)
  · dsimp only
    split
    · decide
    · exact max_lt (lt_of_le_of_lt (Nat.div_le_self _ _) (by decide)) (by decide)

def blockEmissionForHeight (h : Height) : Zeno :=
  ⟨scheduledEmission ((h.val - 1) / emissionInterval), scheduledEmission_lt _⟩

structure ValidatedEmission where
  recipient : ProgramId
  subsidy : Zeno
  minerEmission : Zeno
  protocolBurn : Zeno
  origin : Hash
  deriving DecidableEq, Repr

def BlockOperation.minerFee (op : BlockOperation) : Zeno := op.payment.charges.minerFee

/-- The canonical subsidy of a block with these operations. -/
def expectedEmissionForOperations (height : Height) (operations : List BlockOperation) :
    Except EmissionError Zeno :=
  let scheduled := blockEmissionForHeight height
  if height.val < foteActivationHeight then .ok scheduled
  else do
    let fees ← okOr ((operations.map BlockOperation.minerFee).foldlM checkedAdd 0)
      .arithmeticOverflow
    let netTail ← okOr (checkedSub scheduled minerProtocolBurn) .invalidSubsidy
    let netIssuance := (checkedSub netTail fees).getD 0
    okOr (checkedAdd minerProtocolBurn netIssuance) .arithmeticOverflow

section
variable [Crypto]

def emissionOriginBytes (b : Block) (emission : Emission) : List Byte :=
  ascii "emission" ++ b.header.previousHash.bytes ++ leBytes 8 b.height.val ++
    emission.recipient.bytes ++ leBytes 8 emission.subsidy.val

def emissionOrigin (b : Block) : Except EmissionError Hash :=
  (okOr b.emission .missingEmission).map fun emission =>
    domain .emission (emissionOriginBytes b emission)

/-- `authorize_emission`. -/
def validateEmission (b : Block) : Except EmissionError ValidatedEmission := do
  let emission ← okOr b.emission .missingEmission
  let expected ← expectedEmissionForOperations b.height b.operations
  rejectIf (emission.subsidy ≠ expected) .invalidSubsidy
  let minerEmission ← okOr (checkedSub emission.subsidy minerProtocolBurn) .invalidSubsidy
  let origin ← emissionOrigin b
  return ⟨emission.recipient, emission.subsidy, minerEmission, minerProtocolBurn, origin⟩

end

end Xparq
