import Xparq.Consensus.Operation
import Mathlib.Data.List.Sort

/-!
# Spends signed by the wallet

`sign_spend` builds a coin payment whose fee and burn depend on the size of the payment, which
depends on what is spent and on whether there is change. It builds the payment again and again,
each time for the fee and the archival burn the last size calls for, until they repeat. Inputs
are selected automatically from what a node reports of the wallet's accounts, or given
explicitly together with the change they leave before fee and burn.

The answers of the node are the parameter `fetchAccount`. Option texts are already parsed;
coin identifiers that a node reports are texts, given by their bytes.
-/

namespace Xparq

open Machine Outcome

def automaticFeeZenoPerByte : U64 := 8
def stateBurnRateZenoPerByte : U64 := 1
def maxFeeConvergenceRounds : Nat := 8
def maxBatchTransferOutputs : Nat := 255
def maxWalletAccounts : Nat := 256

inductive WalletError
  | message (text : String)
  | intent (error : IntentError)
  | burn (error : BurnError)
  | codec (error : CodecError)
  | invalidPublicKeyLength
  | insufficientLegacyBalance (available : U64)
  | noFundedAccount (balances : List (ProgramId × U64))
  deriving DecidableEq, Repr

/-! ## Identifiers as text -/

def hexNibble (digit : Byte) : Option Nat :=
  if 0x30 ≤ digit.val ∧ digit.val ≤ 0x39 then some (digit.val - 0x30)
  else if 0x61 ≤ digit.val ∧ digit.val ≤ 0x66 then some (digit.val - 0x61 + 10)
  else if 0x41 ≤ digit.val ∧ digit.val ≤ 0x46 then some (digit.val - 0x41 + 10)
  else none

def hexBytes : List Byte → Option (List Byte)
  | [] => some []
  | [_] => none
  | high :: low :: rest => do
      let high ← hexNibble high
      let low ← hexNibble low
      let bytes ← hexBytes rest
      return Fin.ofNat 256 (high * 16 + low) :: bytes

/-- `CoinShare::from_str`. -/
def CoinShare.fromStr (text : List Byte) : Option CoinShare :=
  if text.length = 64 then (hexBytes text).map Hash.ofBytes else none

/-! ## The wallet -/

structure AccountSalt where
  bytes : List Byte
  length_eq : bytes.length = 16
  deriving DecidableEq, Repr

/-- Padded with zeros at the end. -/
def AccountSalt.authorizationSalt (salt : AccountSalt) : Hash :=
  Hash.ofBytes (salt.bytes ++ List.replicate 16 0)

/-- Signing is deterministic in every scheme. -/
structure SigningSeed where
  scheme : AccountSignatureScheme
  sign : List Byte → List Byte

structure AccountWallet where
  programId : ProgramId
  publicKey : SchemeBytes
  accountSalt : AccountSalt
  accountSalts : List AccountSalt
  signingSeed : SigningSeed

def transferCall : ProgramCall := ⟨.monetary, 1, [0]⟩

/-- `CoinTransition::coin_with_charges`. -/
def CoinTransition.coinWithCharges (signer : ProgramId) (inputs : List CoinShare)
    (outputs : List CoinOutput) (charges : CoinCharges) : Except IntentError CoinTransition := do
  let transition : CoinTransition := ⟨signer, inputs, outputs, charges⟩
  transition.validate
  return transition

section
variable [Crypto]

def programIdFromPublicKey (publicKey : SchemeBytes) (salt : Hash) : Except WalletError ProgramId :=
  okOr (signatureAccount publicKey salt) .invalidPublicKeyLength

namespace AccountWallet

def validateAccountMetadata (w : AccountWallet) : Except WalletError Unit := do
  rejectIf (w.accountSalts = [] ∨ w.accountSalts.length > maxWalletAccounts ∨
    ¬ w.accountSalts.Nodup ∨ w.accountSalt ∉ w.accountSalts)
    (.message "invalid wallet account salt list")
  let expected ← programIdFromPublicKey w.publicKey w.accountSalt.authorizationSalt
  rejectIf (expected ≠ w.programId)
    (.message "wallet program-id does not match its public key and salt")

def selectAccount (w : AccountWallet) (salt : AccountSalt) : Except WalletError AccountWallet := do
  w.validateAccountMetadata
  let programId ← programIdFromPublicKey w.publicKey salt.authorizationSalt
  rejectIf (salt ∉ w.accountSalts ∧ w.accountSalts.length ≥ maxWalletAccounts)
    (.message "wallet account limit reached")
  let accountSalts := if salt ∈ w.accountSalts then w.accountSalts else w.accountSalts ++ [salt]
  return { w with accountSalt := salt, programId, accountSalts }

def signProgramCallAs (w : AccountWallet) (chain : ChainContext) (call : ProgramCall)
    (payment : CoinTransition) (signer : ProgramId) (authorizationSalt : Hash) :
    Except WalletError AuthorizedProgramInvocation := do
  let commitment ← (programInvocationCommitment signer call payment chain).mapError .intent
  return ⟨signer, call, payment,
    ⟨authorizationSalt, w.publicKey, ⟨w.signingSeed.scheme, w.signingSeed.sign commitment.bytes⟩⟩⟩

def signXpqTransfer (w : AccountWallet) (chain : ChainContext) (payment : CoinTransition) :
    Except WalletError AuthorizedProgramInvocation := do
  w.validateAccountMetadata
  w.signProgramCallAs chain transferCall payment w.programId w.accountSalt.authorizationSalt

def signXpqTransferWithLegacySalt (w : AccountWallet) (chain : ChainContext) (salt : Hash)
    (payment : CoinTransition) : Except WalletError AuthorizedProgramInvocation := do
  w.validateAccountMetadata
  let signer ← programIdFromPublicKey w.publicKey salt
  rejectIf (payment.signer ≠ signer)
    (.message "transfer signer does not match the legacy salt account")
  w.signProgramCallAs chain transferCall payment signer salt

def signSpendIntent (w : AccountWallet) (chain : ChainContext) (legacySalt : Option Hash)
    (payment : CoinTransition) : Except WalletError AuthorizedProgramInvocation :=
  match legacySalt with
  | some salt => w.signXpqTransferWithLegacySalt chain salt payment
  | none => w.signXpqTransfer chain payment

end AccountWallet

end

/-! ## Selection of inputs -/

structure AccountUtxo where
  id : List Byte
  amount : U64
  reserved : Bool
  deriving DecidableEq, Repr

structure WalletAccountInputCandidates where
  salt : AccountSalt
  programId : ProgramId
  utxos : List AccountUtxo

/-- Larger amounts first, then by identifier. -/
def AccountUtxo.before (left right : AccountUtxo) : Prop :=
  right.amount < left.amount ∨ left.amount = right.amount ∧ left.id ≤ right.id

instance : DecidableRel AccountUtxo.before := fun left right =>
  inferInstanceAs (Decidable (right.amount < left.amount ∨ left.amount = right.amount ∧
    left.id ≤ right.id))

abbrev FetchAccount := ProgramId → Except WalletError (List AccountUtxo)

def accountInputCandidatesForProgram (fetchAccount : FetchAccount) (programId : ProgramId) :
    Except WalletError (List AccountUtxo) :=
  (fetchAccount programId).map fun utxos =>
    (utxos.filter fun utxo => !utxo.reserved).insertionSort AccountUtxo.before

def walletAccountInputCandidates [Crypto] (fetchAccount : FetchAccount) (w : AccountWallet) :
    Except WalletError (List WalletAccountInputCandidates) :=
  w.accountSalts.mapM fun salt => do
    let programId ← programIdFromPublicKey w.publicKey salt.authorizationSalt
    let utxos ← accountInputCandidatesForProgram fetchAccount programId
    return ⟨salt, programId, utxos⟩

structure Selection where
  inputs : List CoinShare
  total : U64
  burn : U64
  change : U64

/-- What a selection has to pay for besides its own inputs. -/
structure SelectionRequest where
  baseRequired : U64
  createdCoinWithoutChange : U64
  createdStateWeight : U64
  archivalBurn : U64
  vmConsumedCoinUtxos : U64

/-- Does the selection fit, with a change output or without? -/
def SelectionRequest.settle (r : SelectionRequest) (selected : List CoinShare) (total : U64)
    (hasChange : Bool) : Except WalletError (Option Selection) := do
  let created ← okOr (checkedAdd r.createdCoinWithoutChange (if hasChange then 1 else 0))
    (.message "state output count overflow")
  let count ← okOr (ofNat? (2 ^ 64) selected.length) (.message "coin input count overflow")
  let consumed ← okOr (checkedAdd count r.vmConsumedCoinUtxos) (.message "VM input count overflow")
  let ledgerBurn ← (StateTransitionWeight.stateGrowthBurn
    ⟨created.val, consumed.val, r.createdStateWeight.val⟩).mapError .burn
  let burn ← okOr (checkedAdd ledgerBurn r.archivalBurn)
    (.message "state burn plus transaction archival burn overflow")
  let required ← okOr (checkedAdd r.baseRequired burn)
    (.message "required amount plus state burn overflow")
  return if (if hasChange then required < total else total = required)
    then some ⟨selected, total, burn, total - required⟩ else none

/-- Without change if the total fits exactly, with change if it is more than enough. -/
def SelectionRequest.settleAny (r : SelectionRequest) (selected : List CoinShare) (total : U64) :
    Except WalletError (Option Selection) := do
  match ← r.settle selected total false with
  | some selection => return some selection
  | none => r.settle selected total true

def SelectionRequest.select (r : SelectionRequest) :
    List AccountUtxo → List CoinShare → U64 → Except WalletError (Option Selection)
  | [], _, _ => .ok none
  | utxo :: rest, selected, total => do
      let id ← okOr (CoinShare.fromStr utxo.id) (.message "node returned an invalid coin id")
      let total ← okOr (checkedAdd total utxo.amount) (.message "selected input amount overflow")
      match ← r.settleAny (selected ++ [id]) total with
      | some selection => return some selection
      | none => r.select rest (selected ++ [id]) total

/-- A prefix of the candidates that pays for everything. -/
def selectInputsFromCandidates (candidates : List AccountUtxo) (r : SelectionRequest) :
    Except WalletError (Option Selection) :=
  r.select candidates [] 0

def availableBalance (utxos : List AccountUtxo) : Except WalletError U64 :=
  okOr ((utxos.map AccountUtxo.amount).foldlM checkedAdd 0)
    (.message "available account balance overflow")

/-- Least change, then fewest inputs, then the active account. -/
def preference (activeSalt : AccountSalt) (account : WalletAccountInputCandidates)
    (selection : Selection) : U64 ×ₗ Nat ×ₗ Bool :=
  toLex (selection.change, toLex (selection.inputs.length, decide (account.salt ≠ activeSalt)))

/-- The better of the best account so far and the next one. -/
def betterAccount (activeSalt : AccountSalt)
    (best : Option (WalletAccountInputCandidates × Selection))
    (account : WalletAccountInputCandidates) (selection : Selection) :
    Option (WalletAccountInputCandidates × Selection) :=
  match best with
  | none => some (account, selection)
  | some held =>
    if preference activeSalt account selection < preference activeSalt held.1 held.2
    then some (account, selection) else some held

def bestAccount (r : SelectionRequest) (activeSalt : AccountSalt) :
    List WalletAccountInputCandidates → Option (WalletAccountInputCandidates × Selection) →
      List (ProgramId × U64) →
      Except WalletError (Option (WalletAccountInputCandidates × Selection) × List
      (ProgramId × U64))
  | [], best, balances => .ok (best, balances)
  | account :: rest, best, balances => do
      let available ← availableBalance account.utxos
      let balances := balances ++ [(account.programId, available)]
      match ← selectInputsFromCandidates account.utxos r with
      | none => bestAccount r activeSalt rest best balances
      | some selection =>
        bestAccount r activeSalt rest (betterAccount activeSalt best account selection) balances

/-- `select_wallet_account_inputs_with_state_burn`: no selection mixes accounts. -/
def selectWalletAccountInputs (accounts : List WalletAccountInputCandidates) (r : SelectionRequest)
    (activeSalt : AccountSalt) : Except WalletError (WalletAccountInputCandidates × Selection) := do
  let (best, balances) ← bestAccount r activeSalt accounts none []
  okOr best (.noFundedAccount balances)

/-! ## The fee loop -/

/-- `canonical_length` of the envelope, whose only variant is the program call. -/
def envelopeLength (tx : AuthorizedProgramInvocation) : Except CodecError Nat :=
  canonicalLength (tx.encode.map (0 :: ·))

/-- Rounds of `automatic_fee_transaction_at_rates`. What `build` changes outside of the
transaction is the state that it passes on. -/
def feeRounds {σ : Type}
    (build : σ → U64 → U64 → Except WalletError (AuthorizedProgramInvocation × σ))
    (minerFeeRate archivalBurnRate : U64) :
    Nat → σ → U64 → U64 → Except WalletError AuthorizedProgramInvocation
  | 0, _, _, _ => .error (.message "automatic transaction fee did not converge")
  | rounds + 1, s, fee, archivalBurn => do
      let (tx, s) ← build s fee archivalBurn
      let size ← (envelopeLength tx).mapError .codec
      let requiredFee ← okOr ((ofNat? (2 ^ 64) size).bind (checkedMul · minerFeeRate))
        (.message "automatic transaction fee overflow")
      let requiredArchival ← okOr ((ofNat? (2 ^ 64) size).bind (checkedMul · archivalBurnRate))
        (.message "transaction archival burn overflow")
      if requiredFee = fee ∧ requiredArchival = archivalBurn then return tx
      else feeRounds build minerFeeRate archivalBurnRate rounds s requiredFee requiredArchival

def automaticFeeTransaction {σ : Type}
    (build : σ → U64 → U64 → Except WalletError (AuthorizedProgramInvocation × σ)) (s : σ) :
    Except WalletError AuthorizedProgramInvocation :=
  feeRounds build automaticFeeZenoPerByte stateBurnRateZenoPerByte maxFeeConvergenceRounds s
    automaticFeeZenoPerByte 0

/-! ## Spends -/

/-- The options of `sign-spend`; of `--miner` and `--salt`, which are refused, only their
presence. -/
structure SpendOptions where
  miner : Bool
  salt : Bool
  recipient : Option Owner
  amount : Option Zeno
  outputs : List (ProgramId × Zeno)
  inputs : List CoinShare
  legacySalt : Option Hash
  change : Option Zeno
  changeTo : Option ProgramId

/-- `parse_coin_output_options`. -/
def parseCoinOutputOptions (entries : List (ProgramId × Zeno)) :
    Except WalletError (List CoinOutput × U64) := do
  rejectIf (entries.length > maxBatchTransferOutputs)
    (.message "coin batch transfer supports at most 255 recipients")
  let outputs := entries.map fun entry => CoinOutput.mk (.program entry.1) entry.2
  let total ← okOr (sumAmounts (outputs.map CoinOutput.amount))
    (.message "coin batch transfer total overflow")
  return (outputs, total)

def coinTransferOutputs (o : SpendOptions) : Except WalletError (List CoinOutput × U64) :=
  if o.outputs = [] then do
    let recipient ← okOr o.recipient (.message "missing --to or --output")
    let amount ← okOr o.amount (.message "missing --amount")
    return ([⟨recipient, amount⟩], amount)
  else do
    rejectIf (o.recipient.isSome = true ∨ o.amount.isSome = true)
      (.message "do not combine --output with --to or --amount")
    parseCoinOutputOptions o.outputs

/-- What `sign_spend` has gathered before the first round. -/
structure SpendContext where
  outputs : List CoinOutput
  totalAmount : U64
  createdCoinWithoutChange : U64
  legacyProgramId : Option ProgramId
  accountCandidates : Option (List WalletAccountInputCandidates)
  legacyCandidates : Option (List AccountUtxo)
  initiallyActiveSalt : AccountSalt

/-- What one round spends, and for whom. -/
structure SpendPlan where
  selected : List CoinShare
  change : U64
  changeProgramId : ProgramId
  signer : ProgramId

namespace SpendContext

def request (c : SpendContext) (required archivalBurn : U64) : SelectionRequest :=
  ⟨required, c.createdCoinWithoutChange, 0, archivalBurn, 0⟩

def planLegacy (c : SpendContext) (legacyProgramId : ProgramId) (required archivalBurn : U64) :
    Except WalletError SpendPlan := do
  let candidates ← okOr c.legacyCandidates
    (.message "legacy transfer account candidates are unavailable")
  let available ← availableBalance candidates
  let found ← selectInputsFromCandidates candidates (c.request required archivalBurn)
  let selection ← okOr found (.insufficientLegacyBalance available)
  return ⟨selection.inputs, selection.change, legacyProgramId, legacyProgramId⟩

/-- The wallet moves to the account it pays from. -/
def planAccount [Crypto] (c : SpendContext) (w : AccountWallet) (required archivalBurn : U64) :
    Except WalletError (SpendPlan × AccountWallet) := do
  let accounts ← okOr c.accountCandidates (.message "wallet account candidates are unavailable")
  let (account, selection) ← selectWalletAccountInputs accounts (c.request required archivalBurn)
    c.initiallyActiveSalt
  let w ← w.selectAccount account.salt
  return (⟨selection.inputs, selection.change, account.programId, account.programId⟩, w)

/-- The stated change pays fee and burn. A change output is counted as soon as the stated
change exceeds the fee, before the burn is known. -/
def planExplicit (c : SpendContext) (o : SpendOptions) (w : AccountWallet)
    (fee archivalBurn : U64) : Except WalletError SpendPlan := do
  let grossChange := o.change.getD 0
  let created := c.createdCoinWithoutChange.val + if fee < grossChange then 1 else 0
  let consumed ← okOr (ofNat? (2 ^ 64) o.inputs.length) (.message "coin input count overflow")
  let growth ← (StateTransitionWeight.stateGrowthBurn ⟨created, consumed.val, 0⟩).mapError .burn
  let stateBurn ← okOr (checkedAdd growth archivalBurn)
    (.message "state burn plus transaction archival burn overflow")
  let change ← okOr ((checkedSub grossChange fee).bind (checkedSub · stateBurn))
    (.message "explicit change is smaller than the automatic fee and state burn")
  let signer := c.legacyProgramId.getD w.programId
  return ⟨o.inputs, change, o.changeTo.getD signer, signer⟩

def plan [Crypto] (c : SpendContext) (o : SpendOptions) (w : AccountWallet)
    (fee archivalBurn : U64) : Except WalletError (SpendPlan × AccountWallet) := do
  let required ← okOr (checkedAdd c.totalAmount fee)
    (.message "transaction amount plus fee overflow")
  if o.inputs = [] then
    match c.legacyProgramId with
    | some legacyProgramId => (c.planLegacy legacyProgramId required archivalBurn).map (·, w)
    | none => c.planAccount w required archivalBurn
  else (c.planExplicit o w fee archivalBurn).map (·, w)

/-- The payments and, if there is any, the change. -/
def planned (c : SpendContext) (p : SpendPlan) : List CoinOutput :=
  c.outputs ++ if 0 < p.change then [⟨.program p.changeProgramId, p.change⟩] else []

/-- One round. -/
def build [Crypto] (c : SpendContext) (chain : ChainContext) (o : SpendOptions) (w : AccountWallet)
    (fee archivalBurn : U64) :
    Except WalletError (AuthorizedProgramInvocation × AccountWallet) := do
  let (p, w) ← c.plan o w fee archivalBurn
  let intent ← (CoinTransition.coinWithCharges p.signer p.selected (c.planned p) ⟨fee⟩).mapError
    .intent
  let signed ← w.signSpendIntent chain o.legacySalt intent
  return (signed, w)

end SpendContext

section
variable [Crypto]

def legacyProgramId (w : AccountWallet) : Option Hash → Except WalletError (Option ProgramId)
  | none => .ok none
  | some salt => (programIdFromPublicKey w.publicKey salt).map some

/-- Candidates are fetched only if there are no explicit inputs. -/
def fetchAccountCandidates (fetchAccount : FetchAccount) (w : AccountWallet) (o : SpendOptions) :
    Except WalletError (Option (List WalletAccountInputCandidates)) :=
  if o.inputs = [] ∧ o.legacySalt = none then (walletAccountInputCandidates fetchAccount w).map some
  else .ok none

def fetchLegacyCandidates (fetchAccount : FetchAccount) (o : SpendOptions) :
    Option ProgramId → Except WalletError (Option (List AccountUtxo))
  | none => .ok none
  | some programId =>
    if o.inputs = [] then (accountInputCandidatesForProgram fetchAccount programId).map some
    else .ok none

def prepareSpend (fetchAccount : FetchAccount) (w : AccountWallet) (o : SpendOptions) :
    Except WalletError SpendContext := do
  rejectIf (o.miner = true)
    (.message "--miner is no longer supported; wallet fee is automatic at 8 zeno/byte")
  rejectIf (o.salt = true)
    (.message "sign-spend does not accept --salt; use --legacy-salt for one legacy transfer")
  let (outputs, totalAmount) ← coinTransferOutputs o
  let createdCoinWithoutChange ← okOr ((ofNat? (2 ^ 64) outputs.length).bind (checkedAdd · 1))
    (.message "coin output count overflow")
  let legacyProgramId ← legacyProgramId w o.legacySalt
  rejectIf (o.inputs = [] ∧ (o.change.isSome = true ∨ o.changeTo.isSome = true))
    (.message "automatic input selection also calculates change automatically")
  let accountCandidates ← fetchAccountCandidates fetchAccount w o
  let legacyCandidates ← fetchLegacyCandidates fetchAccount o legacyProgramId
  return ⟨outputs, totalAmount, createdCoinWithoutChange, legacyProgramId, accountCandidates,
    legacyCandidates, w.accountSalt⟩

/-- `sign_spend`, up to the submission of what it built. -/
def signSpend (fetchAccount : FetchAccount) (chain : ChainContext) (w : AccountWallet)
    (o : SpendOptions) : Except WalletError AuthorizedProgramInvocation := do
  let c ← prepareSpend fetchAccount w o
  automaticFeeTransaction (c.build chain o) w

end

end Xparq
