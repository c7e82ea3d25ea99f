import Xparq.Program.Authorization
import Xparq.Lib.RequestTree

/-!
# Application capabilities

Applications never see the ledger. A coin application talks to a host that reads, consumes,
creates and burns coins of one payment; an asset application talks to a host bound to one
authenticated call. `systemApplications` is the set the node installs.

`executeAsset_system` says that with it the bound host does exactly what `AssetState.apply`
does.
-/

namespace Xparq

open Machine Outcome

/-! ## The two interfaces -/

inductive CoinRequest
  | inputAmount (id : CoinShare)
  | consume (id : CoinShare)
  | create (index : U32) (owner : Owner) (amount : Zeno)
  | burn (amount : Zeno)

def CoinRequest.Answer : CoinRequest → Type
  | inputAmount _ => Zeno
  | _ => Unit

/-- The restricted coin capability: a refusal is an answer. -/
abbrev CoinHost : HostInterface where
  Request := CoinRequest
  Answer := fun r => Except StateError r.Answer

/-- Registering, minting, transferring and burning are the four calls. -/
abbrev AssetHost : HostInterface where
  Request := AssetCall
  Answer := fun _ => Except AssetError Unit

inductive TransferError
  | host (error : StateError)
  | invalidBalance | amountOverflow | outputIndexOverflow
  deriving DecidableEq, Repr

structure ApplicationExecutor where
  executeCoin (inputs : List CoinShare) (outputs : List (Owner × Zeno)) (miner : ProgramId)
    (minerFee : Zeno) : RequestTree CoinHost TransferError Unit
  executeAsset (call : AssetCall) : RequestTree AssetHost AssetError Unit

/-- A bare kernel fails closed until the node installs its applications. -/
def noApplications : ApplicationExecutor where
  executeCoin _ _ _ _ := .fail (.host .invalidTransition)
  executeAsset _ := .fail .invalidProgram

/-! ## The installed applications -/

/-- Ask the coin host and give up on a refusal. -/
def askCoin (r : CoinRequest) : RequestTree CoinHost TransferError r.Answer := do
  let answer ← RequestTree.request (I := CoinHost) r
  RequestTree.lift (Except.mapError TransferError.host answer)

def askInputTotal : List CoinShare → Zeno → RequestTree CoinHost TransferError Zeno
  | [], total => pure total
  | id :: rest, total => do
      let amount ← askCoin (.inputAmount id)
      let total ← RequestTree.lift (okOr (checkedAdd total amount) .amountOverflow)
      askInputTotal rest total

def askConsume : List CoinShare → RequestTree CoinHost TransferError Unit
  | [] => pure ()
  | id :: rest => do
      let _ ← askCoin (.consume id)
      askConsume rest

def askCreate : Nat → List (Owner × Zeno) → RequestTree CoinHost TransferError Unit
  | _, [] => pure ()
  | index, (owner, amount) :: rest => do
      let index' ← RequestTree.lift (okOr (ofNat? (2 ^ 32) index) .outputIndexOverflow)
      let _ ← askCoin (.create index' owner amount)
      askCreate (index + 1) rest

/-- The sum of a list of amounts, if it fits. -/
def sumAmounts (amounts : List Zeno) : Option Zeno := amounts.foldlM checkedAdd 0

/-- `execute_transfer`. -/
def executeTransfer (inputs : List CoinShare) (outputs : List (Owner × Zeno)) (miner : ProgramId)
    (minerFee : Zeno) : RequestTree CoinHost TransferError Unit := do
  let inputTotal ← askInputTotal inputs 0
  let outputTotal ← RequestTree.lift (okOr (sumAmounts (outputs.map Prod.snd)) .amountOverflow)
  let burn ← RequestTree.lift (okOr ((checkedSub inputTotal outputTotal).bind fun remaining =>
    checkedSub remaining minerFee) .invalidBalance)
  askConsume inputs
  askCreate 0 (outputs ++ if minerFee = 0 then [] else [(.program miner, minerFee)])
  let _ ← askCoin (.burn burn)
  return ()

def systemApplications : ApplicationExecutor where
  executeCoin := executeTransfer
  executeAsset call := do
    let answer ← RequestTree.request (I := AssetHost) call
    RequestTree.lift answer

/-! ## The bound asset host -/

structure BoundAssetHost where
  state : AssetState
  journal : Option AssetJournal

variable [Crypto]

/-- Only the expected call is accepted, and only once. -/
def BoundAssetHost.apply (expected : AssetCall) (context : ExecutionContext) :
    RequestTree.Server AssetHost BoundAssetHost := fun (operation : AssetCall) host =>
  if operation ≠ expected ∨ host.journal.isSome = true then (.error .invalidProgram, host)
  else match AssetState.apply operation context host.state with
    | (.error e, state) => (.error e, { host with state })
    | (.ok journal, state) => (.ok (), ⟨state, some journal⟩)

/-- Dropping the host undoes what was not taken over. -/
def BoundAssetHost.drop (host : BoundAssetHost) : AssetState :=
  match host.journal with
  | some journal => host.state.rollback journal
  | none => host.state

def executeAsset (apps : ApplicationExecutor) (call : AssetCall) (context : ExecutionContext) :
    InPlace AssetState AssetError AssetJournal := fun state =>
  match (apps.executeAsset call).serve (BoundAssetHost.apply call context) ⟨state, none⟩ with
  | (.error e, host) => (.error e, host.drop)
  | (.ok (), host) =>
    match host.journal with
    | none => (.error .invalidProgram, host.state)
    | some journal => (.ok journal, host.state)

theorem executeAsset_system (call : AssetCall) (context : ExecutionContext) :
    executeAsset systemApplications call context = AssetState.apply call context := by
  funext state
  simp only [executeAsset, systemApplications, bind, RequestTree.bind, RequestTree.request,
    RequestTree.serve, BoundAssetHost.apply]
  rcases h : AssetState.apply call context state with ⟨_ | journal, state'⟩ <;>
    simp [RequestTree.lift, RequestTree.serve, BoundAssetHost.drop]

end Xparq
