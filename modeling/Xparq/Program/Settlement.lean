import Xparq.Program.Application
import Xparq.Ledger.State
import Xparq.Lib.Selection

/-!
# Settlement of monetary proposals

What deployed code proposes is settled by the kernel: first the coin transfer, then the
asset registration, mint and transfer. The program whose code it is pays from its own coins
and shares and receives the change. All of this runs on staging state.
-/

namespace Xparq

open Machine Outcome Selection

def maxTransferInputs : Nat := 256

structure TransferQuote where
  createdCoinUtxos : Nat
  consumedCoinUtxos : Nat
  createdStateWeight : U64
  deriving DecidableEq, Repr

def TransferQuote.zero : TransferQuote := ⟨0, 0, 0⟩

/-- Take the listed coins out of the set, with the values they had. -/
def consumeCoins (utxos : UtxoSet) : List CoinShare →
    Except StateError (List (CoinShare × CoinUtxo) × UtxoSet)
  | [] => .ok ([], utxos)
  | id :: rest => do
      let (coin, utxos) ← (utxos.consumeCoin id).mapError .utxo
      let (coins, utxos) ← consumeCoins utxos rest
      return ((id, coin) :: coins, utxos)

section
variable [Crypto]

/-- Insert outputs under the identifiers that their origin and position determine. -/
def createCoins (origin : Hash) : Nat → UtxoSet → List (Owner × Zeno) →
    Except StateError (List CoinShare × UtxoSet)
  | _, utxos, [] => .ok ([], utxos)
  | index, utxos, (owner, amount) :: rest => do
      let id := CoinShare.fromOutput origin (Fin.ofNat (2 ^ 32) index)
      let utxos ← (utxos.insertCoin id ⟨amount, owner⟩).mapError .utxo
      let (ids, utxos) ← createCoins origin (index + 1) utxos rest
      return (id :: ids, utxos)

def coinCandidates (s : LedgerState) (actor : Owner) (selected : Option (List CoinShare)) :
    Except StateError (List (CoinShare × CoinUtxo)) :=
  match selected with
  | some ids => do
      rejectIf (ids.length > maxTransferInputs) .invalidTransition
      ids.mapM fun id => do
        let coin ← okOr (s.utxos.coin id) .invalidTransition
        rejectIf (coin.owner ≠ actor) .invalidTransition
        return (id, coin)
  | none => .ok ((s.utxos.coinsByOwner actor).take maxTransferInputs)

/-- The recipient's output and, unless the inputs fit exactly, the change. -/
def withChange {A : Type} [DecidableEq A] [Zero A] (recipient actor : Owner) (amount change : A) :
    List (Owner × A) :=
  (recipient, amount) :: if change = 0 then [] else [(actor, change)]

/-- `vm_transfer::coin::settle`. -/
def settleCoin (s : LedgerState) (actor : Owner) (result : ExecutionResult) (origin : Hash)
    (selected : Option (List CoinShare)) : Except StateError (CoinRollbackJournal × LedgerState) :=
  match result.coinTransfer with
  | none => .ok (.empty, s)
  | some request => do
      let candidates ← coinCandidates s actor selected
      let (inputs, total) ← gather (fun e => .ok e.2.amount) .amountOverflow request.amount
        candidates 0
      let change ← okOr (checkedSub total request.amount) .invalidTransition
      let (consumed, utxos) ← consumeCoins s.utxos (inputs.map Prod.fst)
      let (created, utxos) ← createCoins origin 0 utxos
        (withChange request.recipient actor request.amount change)
      return ({ CoinRollbackJournal.empty with
          consumedCoins := consumed, createdCoinIds := created }, { s with utxos })

/-- Join a later journal of the same settlement. -/
def mergeJournal (previous : Option AssetJournal) (journal : AssetJournal) : AssetJournal :=
  match previous with
  | some previous => previous.merge journal
  | none => journal

def issuanceOrigin (id : ProgramId) (commitment : AuthorizationCommitment) (opcode : Byte) : Hash :=
  domain .assetIntent (ascii "xparq:vm-asset:v3" ++ id.bytes ++ commitment.bytes ++ [opcode])

/-- Execute one call of the program on the assets. -/
def executeAssetFor (apps : ApplicationExecutor) (assets : AssetState) (call : AssetCall)
    (actor : Owner) (commitment : Hash) : Except StateError (AssetJournal × AssetState) :=
  orError ((executeAsset apps call ⟨actor, commitment⟩).staged assets) .invalidTransition

/-- The asset a request registers, and its metadata. -/
def registeredAsset (actor : Owner) (request : RegisterAssetRequest) :
    Except AssetError (Metadata × AssetContract) := do
  let metadata ← Metadata.new request.name request.maxSupply actor actor
  let asset ← AssetContract.derive metadata request.nonce
  return (metadata, asset)

/-- The program is creator and mint authority of what it registers. -/
def registerCall (id : ProgramId) (request : RegisterAssetRequest) : Register where
  name := request.name
  maxSupply := request.maxSupply
  initialMint := request.initialMint
  mintAuthority := .program id
  nonce := request.nonce

/-- Registration: an existing asset is an error unless the request skips it and the metadata
agree. -/
def settleRegister (assets : AssetState) (id : ProgramId) (request : RegisterAssetRequest)
    (commitment : AuthorizationCommitment) (apps : ApplicationExecutor) :
    Except StateError (AssetContract × Option AssetJournal × AssetState) := do
  let (metadata, asset) ← orError (registeredAsset (.program id) request) .invalidTransition
  match assets.records.get? asset with
  | some record =>
    rejectIf (¬ (request.skipIfExists = true ∧ record.metadata = metadata)) .invalidTransition
    return (asset, none, assets)
  | none =>
    let (journal, assets) ← executeAssetFor apps assets (.register (registerCall id request))
      (.program id) (issuanceOrigin id commitment 0x08)
    return (asset, some journal, assets)

/-- The asset a mint is about. -/
def mintTarget (request : MintAssetRequest) (registered : Option AssetContract) :
    Except StateError AssetContract :=
  match request.asset with
  | .existing asset => .ok asset
  | .registered => okOr registered .invalidTransition

/-- The nonce of a mint is the kernel's choice. -/
def settleMint (assets : AssetState) (id : ProgramId) (request : MintAssetRequest)
    (registered : Option AssetContract) (commitment : AuthorizationCommitment)
    (apps : ApplicationExecutor) : Except StateError (AssetJournal × AssetState) := do
  let asset ← mintTarget request registered
  let record ← okOr (assets.records.get? asset) .invalidTransition
  let nonce ← okOr (checkedAdd record.mintNonce 1) .invalidTransition
  let call :=
    AssetCall.mint { asset, nonce, recipient := request.recipient, amount := request.amount }
  executeAssetFor apps assets call (.program id) (issuanceOrigin id commitment 0x09)

/-- `as u128`. -/
def unitsOfZeno (amount : U64) : Units :=
  ⟨amount.val, lt_u128 amount⟩

def settleTransfer (assets : AssetState) (id : ProgramId) (asset : AssetContract)
    (request : TransferRequest) (apps : ApplicationExecutor) (origin : Hash) :
    Except StateError (AssetJournal × AssetState) := do
  let amount := unitsOfZeno request.amount
  let (inputs, total) ← gather (fun e => .ok e.2.amount) .amountOverflow amount
    ((assets.sharesByOwnerAsset (.program id) asset).take maxTransferInputs) 0
  let change ← okOr (checkedSub total amount) .invalidTransition
  let outputs := (withChange request.recipient (.program id) amount change).map fun o =>
    AssetOutput.mk o.1 o.2
  executeAssetFor apps assets (.transfer { asset, inputs := inputs.map Prod.fst, outputs })
    (.program id) origin

/-- The registration of a result, if it has one. -/
def settleRegisterRequest (assets : AssetState) (id : ProgramId)
    (request : Option RegisterAssetRequest) (commitment : AuthorizationCommitment)
    (apps : ApplicationExecutor) :
    Except StateError (Option AssetContract × Option AssetJournal × AssetState) :=
  match request with
  | none => .ok (none, none, assets)
  | some request => (settleRegister assets id request commitment apps).map fun r =>
      (some r.1, r.2.1, r.2.2)

/-- Settle a request on top of what was settled before, if there is one. -/
def settleOptional {R : Type} (request : Option R) (previous : Option AssetJournal × AssetState)
    (settle : R → AssetState → Except StateError (AssetJournal × AssetState)) :
    Except StateError (Option AssetJournal × AssetState) :=
  match request with
  | none => .ok previous
  | some request =>
    (settle request previous.2).map fun r => (some (mergeJournal previous.1 r.1), r.2)

/-- `vm_transfer::asset::settle`. -/
def settleAsset (s : LedgerState) (id : ProgramId) (result : ExecutionResult)
    (commitment : AuthorizationCommitment) (apps : ApplicationExecutor) (origin : Hash) :
    Except StateError (Option AssetJournal × LedgerState) := do
  let (registered, afterRegister) ← settleRegisterRequest s.assets id result.assetRegister
    commitment apps
  let afterMint ← settleOptional result.assetMint afterRegister fun request assets =>
    settleMint assets id request registered commitment apps
  let (journal, assets) ← settleOptional result.assetTransfer afterMint fun request assets =>
    settleTransfer assets id request.1 request.2 apps origin
  return (journal, { s with assets })

def settlementOrigin (id : ProgramId) (commitment : AuthorizationCommitment) : Hash :=
  domain .assetIntent (ascii "xparq:vm-transfer:v2" ++ id.bytes ++ commitment.bytes)

/-- `vm_transfer::settle_with_inputs`. -/
def settleWithInputs (s : LedgerState) (id : ProgramId) (result : ExecutionResult)
    (commitment : AuthorizationCommitment) (apps : ApplicationExecutor)
    (selected : Option (List CoinShare)) :
    Except StateError (CoinRollbackJournal × Option AssetJournal × LedgerState) := do
  let origin := settlementOrigin id commitment
  let (coin, s) ← settleCoin s (.program id) result origin selected
  let (asset, s) ← settleAsset s id result commitment apps origin
  return (coin, asset, s)

end

end Xparq
