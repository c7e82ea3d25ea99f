import Xparq.Program.Interpreter
import Xparq.Program.Settlement

/-!
# The invocation engine

The state of one VM invocation: the staged ledger, the shared budgets, the active frames, the
per-invocation account cache and what has to be undone. `Engine.handle` answers the requests
of a frame, and `Engine.call` enters a program: legacy code runs to its proposals and is
settled, application code runs as a frame whose nested calls come back here.

Two fields exist for the statements about runs only and are read by nothing: the programs
entered so far, and the coin identifiers issued so far.
-/

namespace Xparq

open Machine Outcome OrderedMap Selection

/-- A balance with its entries, largest amount first, then by identifier. -/
structure Account (n : Nat) where
  total : Fin n
  entries : OrderedSet ((Fin n)ᵒᵈ ×ₗ Hash)
  deriving DecidableEq

namespace Account

variable {n : Nat}

def entry (amount : Fin n) (id : Hash) : (Fin n)ᵒᵈ ×ₗ Hash := toLex (OrderDual.toDual amount, id)

def deposit (a : Account n) (amount : Fin n) (id : Hash) : Except ExecutionError (Account n) :=
  (okOr (checkedAdd a.total amount) .arithmeticOverflow).map fun total =>
    ⟨total, a.entries.insert (entry amount id) ()⟩

def withdraw (a : Account n) (amount : Fin n) (id : Hash) : Except ExecutionError (Account n) :=
  (okOr (checkedSub a.total amount) .settlementFailed).map fun total =>
    ⟨total, a.entries.erase (entry amount id)⟩

/-- The identifiers in cache order. -/
def ids (a : Account n) : List Hash := a.entries.keys.map fun e => (ofLex e).2

end Account

def Account.zero (n : Nat) [NeZero n] : Account n := ⟨0, ∅⟩

/-- What an invocation fixes for all its frames. -/
structure CallContext where
  apps : ApplicationExecutor
  signer : ProgramId
  height : U64
  commitment : AuthorizationCommitment

structure Engine where
  state : LedgerState
  fuel : Nat
  calls : Nat
  actions : Nat
  active : List ProgramId
  accountsReady : OrderedSet ProgramId
  coins : OrderedMap ProgramId (Account (2 ^ 64))
  assets : OrderedMap (ProgramId ×ₗ AssetContract) (Account (2 ^ 128))
  consumed : OrderedMap CoinShare CoinUtxo
  created : OrderedSet CoinShare
  asset : Option AssetJournal
  states : OrderedMap ProgramId I64
  storage : UndoLog (ProgramId ×ₗ List Byte) (List Byte)
  entered : List ProgramId
  issued : List CoinShare

namespace Engine

def charge (e : Engine) (n : Nat) : Except ExecutionError Engine :=
  if n ≤ e.fuel then .ok { e with fuel := e.fuel - n } else .error .outOfFuel

def action (e : Engine) : Except ExecutionError Engine :=
  if e.actions + 1 > maxActions then .error .resourceLimit
    else .ok { e with actions := e.actions + 1 }

/-! ## The account cache -/

def coinAccount (e : Engine) (id : ProgramId) : Account (2 ^ 64) := (e.coins.get? id).getD (.zero _)

def assetAccount (e : Engine) (id : ProgramId) (asset : AssetContract) : Account (2 ^ 128) :=
  (e.assets.get? (toLex (id, asset))).getD (.zero _)

def depositCoin (e : Engine) (id : ProgramId) (amount : Zeno) (share : CoinShare) :
    Except ExecutionError Engine :=
  ((e.coinAccount id).deposit amount share).map fun account =>
    { e with coins := e.coins.insert id account }

def withdrawCoin (e : Engine) (id : ProgramId) (amount : Zeno) (share : CoinShare) :
    Except ExecutionError Engine :=
  ((e.coinAccount id).withdraw amount share).map fun account =>
    { e with coins := e.coins.insert id account }

def depositShare (e : Engine) (id : ProgramId) (share : Share) (value : AssetShare) :
    Except ExecutionError Engine :=
  ((e.assetAccount id value.asset).deposit value.amount share).map fun account =>
    { e with assets := e.assets.insert (toLex (id, value.asset)) account }

def withdrawShare (e : Engine) (id : ProgramId) (share : Share) (value : AssetShare) :
    Except ExecutionError Engine :=
  ((e.assetAccount id value.asset).withdraw value.amount share).map fun account =>
    { e with assets := e.assets.insert (toLex (id, value.asset)) account }

/-- Fill the cache for a program once, from the canonical state. -/
def ensureAccounts (e : Engine) (id : ProgramId) : Except ExecutionError Engine :=
  if e.accountsReady.contains id then .ok e
  else do
    let e ← (e.state.utxos.coinsByOwner (.program id)).foldlM
      (fun e c => e.depositCoin id c.2.amount c.1) e
    let e ← (e.state.assets.sharesByOwner (.program id)).foldlM
      (fun e c => e.depositShare id c.1 c.2) e
    return { e with accountsReady := e.accountsReady.insert id () }

/-- The cache follows a share whose owner's account is filled. -/
def retractShare (e : Engine) (share : Share) : Option AssetShare → Except ExecutionError Engine
  | some value =>
    if e.accountsReady.contains value.owner.programId then
      e.withdrawShare value.owner.programId share value
    else .ok e
  | none => .ok e

def assertShare (e : Engine) (share : Share) : Option AssetShare → Except ExecutionError Engine
  | some value =>
    if e.accountsReady.contains value.owner.programId then
      e.depositShare value.owner.programId share value
    else .ok e
  | none => .ok e

def mergeAsset (e : Engine) (journal : AssetJournal) : Except ExecutionError Engine := do
  let e ← journal.shares.entries.foldlM (fun e change => do
    let e ← e.retractShare change.1 change.2
    e.assertShare change.1 (e.state.assets.shares.get? change.1)) e
  return { e with asset := some (mergeJournal e.asset journal) }

/-- A settlement may have no asset part. -/
def mergeSettled (e : Engine) : Option AssetJournal → Except ExecutionError Engine
  | some journal => e.mergeAsset journal
  | none => .ok e

/-! ## Settlement -/

/-- The cache follows a coin whose owner's account is filled. -/
def retractCoin (e : Engine) (share : CoinShare) (value : CoinUtxo) :
    Except ExecutionError Engine :=
  if e.accountsReady.contains value.owner.programId then
    e.withdrawCoin value.owner.programId value.amount share
  else .ok e

def assertCoin (e : Engine) (share : CoinShare) (value : CoinUtxo) : Except ExecutionError Engine :=
  if e.accountsReady.contains value.owner.programId then
    e.depositCoin value.owner.programId value.amount share
  else .ok e

/-- A consumed coin leaves the cache; a coin created in this invocation is simply gone. -/
def noteConsumed (e : Engine) (share : CoinShare) (value : CoinUtxo) :
    Except ExecutionError Engine := do
  let e ← e.retractCoin share value
  if e.created.contains share then return { e with created := e.created.erase share }
  else return { e with consumed := e.consumed.orInsert share value }

def noteCreated (e : Engine) (share : CoinShare) : Except ExecutionError Engine := do
  let value ← okOr (e.state.utxos.coin share) .settlementFailed
  let e ← e.assertCoin share value
  return { e with created := e.created.insert share (), issued := e.issued ++ [share] }

def coinAmount (e : Engine) (share : CoinShare) : Except ExecutionError Zeno :=
  (okOr (e.state.utxos.coin share) .settlementFailed).map CoinUtxo.amount

def shareAmount (e : Engine) (share : Share) : Except ExecutionError Units :=
  (okOr (e.state.assets.shares.get? share) .settlementFailed).map AssetShare.amount

/-- Legacy root code selects by identifier, everything else largest amount first. -/
def coinCandidateIds (e : Engine) (id : ProgramId) (legacyRoot : Bool) : List CoinShare :=
  if legacyRoot then
    ((e.state.utxos.coinsByOwner (.program id)).take maxTransferInputs).map Prod.fst
  else (e.coinAccount id).ids.take maxTransferInputs

/-- The inputs of legacy root code are free. -/
def chargeInputs (e : Engine) (inputs : Nat) (legacyRoot : Bool) : Except ExecutionError Engine :=
  if legacyRoot then .ok e else e.charge inputs

def selectCoins (e : Engine) (id : ProgramId) (request : Option TransferRequest)
    (legacyRoot : Bool) : Except ExecutionError (List CoinShare × Engine) :=
  match request with
  | none => .ok ([], e)
  | some request => do
      let (selected, _) ← gather e.coinAmount .arithmeticOverflow request.amount
        (e.coinCandidateIds id legacyRoot) 0
      let e ← e.chargeInputs selected.length legacyRoot
      return (selected, e)

/-- Inputs that cover an amount, largest first; the number of inputs is charged. -/
def selectShares (e : Engine) (id : ProgramId) (asset : AssetContract) (amount : Units) :
    Except ExecutionError (List Share × Units × Engine) := do
  let (inputs, total) ← gather e.shareAmount .arithmeticOverflow amount
    ((e.assetAccount id asset).ids.take maxTransferInputs) 0
  let e ← e.charge inputs.length
  let change ← okOr (checkedSub total amount) .settlementFailed
  return (inputs, change, e)

variable [Crypto]

/-- The hash of a tag, the commitment and the action counter. -/
def actionOrigin (tag : String) (commitment : AuthorizationCommitment) (actions : Nat) : Hash :=
  domain .assetIntent (ascii tag ++ commitment.bytes ++ leBytes 8 actions)

def effectCommitment (ctx : CallContext) (legacyRoot : Bool) (actions : Nat) :
    AuthorizationCommitment :=
  if legacyRoot then ctx.commitment else actionOrigin "xparq:vm-effects:v4" ctx.commitment actions

def settle (ctx : CallContext) (id : ProgramId) (result : ExecutionResult) (legacyRoot : Bool)
    (e : Engine) : Except ExecutionError Engine := do
  let e ← e.ensureAccounts id
  let (selected, e) ← e.selectCoins id result.coinTransfer legacyRoot
  let e ← e.action
  let (coin, asset, state) ← orError (settleWithInputs e.state id result
    (effectCommitment ctx legacyRoot e.actions) ctx.apps (some selected)) .settlementFailed
  let e ← coin.consumedCoins.foldlM (fun e c => e.noteConsumed c.1 c.2) { e with state }
  let e ← coin.createdCoinIds.foldlM noteCreated e
  e.mergeSettled asset

/-- Execute one asset call of the program on the staged assets and merge its journal. -/
def applyAsset (ctx : CallContext) (id : ProgramId) (call : AssetCall) (commitment : Hash)
    (e : Engine) : Except ExecutionError Engine := do
  let (journal, assets) ← orError (executeAssetFor ctx.apps e.state.assets call (.program id)
    commitment) .settlementFailed
  mergeAsset { e with state := { e.state with assets } } journal

def transferAssetOutputs (ctx : CallContext) (id : ProgramId) (asset : AssetContract)
    (outputs : List AssetOutput) (multiple : Bool) (e : Engine) : Except ExecutionError Engine := do
  let e ← e.ensureAccounts id
  let amount ← sumOutputs .invalidOperand .arithmeticOverflow outputs
  rejectIf (amount = 0) .invalidOperand
  let e ← e.action
  let (inputs, change, e) ← e.selectShares id asset amount
  let outputs := if change = 0 then outputs else outputs ++ [⟨.program id, change⟩]
  rejectIf (outputs.length > maxAssetOutputs) .resourceLimit
  let tag := if multiple then "xparq:vm-asset-transfer-many:v1" else "xparq:vm-asset-transfer:v4"
  e.applyAsset ctx id (.transfer { asset, inputs, outputs })
    (actionOrigin tag ctx.commitment e.actions)

def transferAsset (ctx : CallContext) (id : ProgramId) (asset : AssetContract) (recipient : Owner)
    (amount : Units) (e : Engine) : Except ExecutionError Engine :=
  e.transferAssetOutputs ctx id asset [⟨recipient, amount⟩] false

def transferAssetMany (ctx : CallContext) (id : ProgramId) (asset : AssetContract)
    (outputs : List AssetOutput) (e : Engine) : Except ExecutionError Engine := do
  rejectIf (outputs = [] ∨ outputs.length > maxAssetTransferOutputs) .resourceLimit
  let e ← e.charge outputs.length
  e.transferAssetOutputs ctx id asset outputs true

def burnAsset (ctx : CallContext) (id : ProgramId) (asset : AssetContract) (amount : Units)
    (e : Engine) : Except ExecutionError Engine := do
  let e ← e.ensureAccounts id
  rejectIf (amount = 0) .invalidOperand
  let e ← e.action
  let (inputs, output, e) ← e.selectShares id asset amount
  e.applyAsset ctx id (.burn { asset, inputs, amount, output })
    (actionOrigin "xparq:vm-asset-burn:v4" ctx.commitment e.actions)

/-! ## Program state -/

def setState (e : Engine) (id : ProgramId) (value : I64) : Except ExecutionError Engine :=
  (okOr (e.state.programs.setState id value) .unknownProgram).map fun (before, programs) =>
    { e with state := { e.state with programs }, states := e.states.orInsert id before }

/-- The record of an active program. -/
def record (e : Engine) (id : ProgramId) : Except ExecutionError ProgramRecord :=
  okOr (e.state.programs.program id) .unknownProgram

def storeStorage (e : Engine) (id : ProgramId) (key : List Byte) (value : Option (List Byte)) :
    Except ExecutionError Engine := do
  let previous ← e.record id
  let programs ← orError (e.state.programs.setStorage id key value) .settlementFailed
  let e := { e with
    storage := e.storage.remember (toLex (id, key)) (previous.storage.get? key)
    state := { e.state with programs } }
  let record ← e.record id
  rejectIf (validStorage record.storage = false) .resourceLimit
  return e

/-! ## Frames and calls -/

/-- How a nested call is executed. -/
abbrev Callee := ProgramId → Owner → List Byte → U64 → Engine → Except ExecutionError
    (U128 × Engine)

/-- A request without an answer. -/
def answered (x : Except ExecutionError Engine) :
    Except ExecutionError (Unit × Engine) := x.map fun e => ((), e)

/-- How the engine answers the frame of program `id`. -/
def handle (ctx : CallContext) (callee : Callee) (id : ProgramId) :
    RequestTree.Handler FrameHost ExecutionError Engine
  | .charge n, e => answered (e.charge n)
  | .action, e => answered e.action
  | .stateValue, e => (e.record id).map fun r => (r.stateValue, e)
  | .setState value, e => answered (e.setState id value)
  | .loadStorage key, e => (e.record id).map fun r => (r.storage.get? key, e)
  | .storeStorage key value, e => answered (e.storeStorage id key value)
  | .owner, e => (e.record id).map fun r => (r.owner, e)
  | .ensureAccounts, e => answered (e.ensureAccounts id)
  | .assetBalance asset, e => .ok ((e.assetAccount id asset).total, e)
  | .coinBalance, e => .ok ((e.coinAccount id).total, e)
  | .settle result, e => answered (e.settle ctx id result false)
  | .transferAsset asset recipient amount, e =>
    answered (e.transferAsset ctx id asset recipient amount)
  | .transferAssetMany asset outputs, e => answered (e.transferAssetMany ctx id asset outputs)
  | .burnAsset asset amount, e => answered (e.burnAsset ctx id asset amount)
  | .call target input deposit, e => callee target (.program id) input deposit e

/-- What legacy code proposes for its program: a settlement. -/
def settleProposal (ctx : CallContext) (id : ProgramId) (result : ExecutionResult) (e : Engine) :
    Except ExecutionError Engine :=
  if result.hasMonetaryEffects then e.settle ctx id result (e.active.length = 1) else .ok e

/-- What legacy code proposes for its program: a state write. -/
def setProposed (e : Engine) (id : ProgramId) : Option I64 → Except ExecutionError Engine
  | some value => e.setState id value
  | none => .ok e

/-- Version 1 to 3 code: no calldata, one settlement, one state write. -/
def runLegacy (ctx : CallContext) (id : ProgramId) (record : ProgramRecord) (data : List Byte)
    (e : Engine) : Except ExecutionError (U128 × Engine) := do
  rejectIf (data ≠ []) .invalidOperand
  let result ← executeCodeWithState record.code record.stateValue e.fuel
  let e ← e.charge result.fuelUsed
  let e ← e.settleProposal ctx id result
  let e ← e.setProposed id result.proposedEffect
  return (result.value.toU128, e)

/-- The checks that precede every frame; the frame is entered on success. -/
def enter (e : Engine) (id : ProgramId) (data : List Byte) :
    Except ExecutionError (ProgramRecord × Engine) := do
  rejectIf (data.length > maxDataBytes ∨ e.active.length ≥ maxCallDepth ∨ e.calls ≥ maxCalls)
    .resourceLimit
  rejectIf (id ∈ e.active) .reentrantCall
  let record ← e.record id
  return (record, { e with
    calls := e.calls + 1, active := id :: e.active, entered := e.entered ++ [id] })

/-- The entered program runs: application code as a frame, older code at once. -/
def runEntered (ctx : CallContext) (callee : Callee) (id : ProgramId) (caller : Owner)
    (data : List Byte) (deposit : U64) (record : ProgramRecord) (e : Engine) :
    Except ExecutionError (U128 × Engine) :=
  if record.code[4]? ≠ some applicationVersion then e.runLegacy ctx id record data
  else (interpret ⟨id, caller, ctx.signer, ctx.height, data, deposit⟩ record.code).run
    (handle ctx callee id) e

/-- `Engine::call`, for at most the given number of nested levels; `maxCallDepth + 1` levels are
never used up. -/
def call (ctx : CallContext) : Nat → Callee
  | 0, _, _, _, _, _ => .error .resourceLimit
  | depth + 1, id, caller, data, deposit, e => do
      let (record, e) ← e.enter id data
      let (value, e) ← e.runEntered ctx (call ctx depth) id caller data deposit record
      return (value, { e with active := e.active.tail })

end Engine

end Xparq
