import Xparq.Program.Invocation
import Xparq.Ledger.State

/-!
# Protocol burn

Every operation burns one zeno per byte it adds: its own canonical bytes, which are archived,
and the growth of the canonical state.
-/

namespace Xparq

open Machine Outcome

/-- Canonical key and value size of one coin entry. -/
def coinUtxoStateWeight : Nat := 32 + 8 + 1 + 32

/-- Header, height, emission and the operation count of a block without operations. -/
def emptyBlockArchivalBytes : Nat := (3 * 32 + 2 * 4 + 8) + 8 + (1 + 32 + 8) + 4

def minerProtocolBurn : Zeno := ⟨emptyBlockArchivalBytes + coinUtxoStateWeight, by decide⟩

structure StateTransitionWeight where
  createdCoinUtxos : Nat
  consumedCoinUtxos : Nat
  createdStateWeight : Nat
  deriving DecidableEq, Repr

/-- The subtraction saturates: net destruction of coins earns nothing. -/
def StateTransitionWeight.stateGrowthBurn (w : StateTransitionWeight) : Except BurnError Zeno :=
  okOr (ofNat? (2 ^ 64) ((w.createdCoinUtxos - w.consumedCoinUtxos) * coinUtxoStateWeight +
    w.createdStateWeight)) .weightOverflow

structure ProtocolBurn where
  archival : Zeno
  stateGrowth : Zeno
  deriving DecidableEq, Repr

def ProtocolBurn.forProgramCall (transition : StateTransitionWeight) (canonicalBytes : Nat) :
    Except BurnError ProtocolBurn := do
  let archival ← okOr (ofNat? (2 ^ 64) canonicalBytes) .zenoOverflow
  let stateGrowth ← transition.stateGrowthBurn
  return ⟨archival, stateGrowth⟩

def ProtocolBurn.total (b : ProtocolBurn) : Except BurnError Zeno :=
  okOr (checkedAdd b.archival b.stateGrowth) .zenoOverflow

def validateExactBurn (actual required : Zeno) : Except BurnError Unit :=
  rejectIf (actual ≠ required) (.incorrectBurn required actual)

end Xparq
