import Xparq.Error

/-!
# Program calls, payments and authorizations

The signed envelope of a program call: the call itself, the coin payment that funds it and
the proof of the signer. A call is decoded before any state changes (`decodeProgram`); the
commitment the proof signs binds call and payment to one chain.
-/

namespace Xparq

open Machine Outcome

structure ChainContext where
  genesisHash : Hash
  deriving DecidableEq, Repr

/-! ## Payments -/

structure CoinCharges where
  minerFee : Zeno
  deriving DecidableEq, Repr

structure CoinTransition where
  signer : ProgramId
  inputs : List CoinShare
  outputs : List CoinOutput
  charges : CoinCharges
  deriving DecidableEq, Repr

def maxProgramItems : Nat := 4096
def maxProgramInvocationSize : Nat := 256 * 1024

namespace CoinTransition

def validate (t : CoinTransition) : Except IntentError Unit := do
  rejectIf (t.inputs.length > maxProgramItems ∨ t.outputs.length > maxProgramItems) .tooManyItems
  rejectIf (t.inputs = []) .emptyInputs
  rejectIf (t.outputs = [] ∧ t.charges.minerFee = 0) .emptyOutputs
  rejectIf (¬ t.inputs.Nodup) .duplicateInput
  rejectIf (∃ output ∈ t.outputs, output.amount = 0) .zeroAmount

def encode (t : CoinTransition) : Option (List Byte) := do
  let inputs ← encodeLen t.inputs.length
  let outputs ← encodeLen t.outputs.length
  return t.signer.bytes ++ inputs ++ (t.inputs.map Hash.bytes).flatten ++ outputs ++
    (t.outputs.map CoinOutput.encode).flatten ++ leBytes 8 t.charges.minerFee.val

theorem validate_ok {t : CoinTransition} (h : t.validate = .ok ()) :
    t.inputs.length ≤ maxProgramItems ∧ t.outputs.length ≤ maxProgramItems ∧ t.inputs ≠ [] ∧
      t.inputs.Nodup ∧ ∀ output ∈ t.outputs, output.amount ≠ 0 := by
  simp only [validate, bind_eq_ok, rejectIf_eq_ok, not_or, not_lt, not_exists, not_and,
    Decidable.not_not] at h
  obtain ⟨_, ⟨hin, hout⟩, _, hne, _, _, _, hnodup, hzero⟩ := h
  exact ⟨hin, hout, hne, hnodup, hzero⟩

end CoinTransition

/-! ## Calls -/

/-- A numeric route of the built-in applications. -/
abbrev SystemProgramId := U32

def SystemProgramId.monetary : SystemProgramId := 0
def SystemProgramId.asset : SystemProgramId := 1
def SystemProgramId.vm : SystemProgramId := 2

structure ProgramCall where
  program : SystemProgramId
  opcode : Byte
  payload : List Byte
  deriving DecidableEq, Repr

def ProgramCall.encode (c : ProgramCall) : Option (List Byte) :=
  (encodeBytes c.payload).map fun payload => leBytes 4 c.program.val ++ c.opcode :: payload

inductive MonetaryCall
  | transferCoin
  | asset (call : AssetCall)
  deriving DecidableEq, Repr

/-- `coin_program::decode`. -/
def decodeCoinProgram (opcode : Byte) (payload : List Byte) : Except ProgramError Unit := do
  rejectIf (opcode ≠ 1) .unknownOpcode
  rejectIf (payload ≠ [] ∧ payload ≠ [0]) .invalidPayload

/-- Transfers and burns name their currency first; the historical coin transfer has no payload. -/
def decodeCurrencyCall (opcode : Byte) (payload : List Byte) :
    Except ProgramError MonetaryCall := do
  let (currency, data) ← if opcode = 1 ∧ payload = [] then .ok ((0 : Byte), [])
    else match payload with
      | [] => .error .invalidPayload
      | currency :: data => .ok (currency, data)
  if currency = 0 then
    if opcode = 1 then
      rejectIf (data ≠ []) .invalidPayload
      decodeCoinProgram 1 data
      return .transferCoin
    else throw .executionNotImplemented
  else if currency = 1 then
    let call ← AssetCall.decode
      (if opcode = 1 then AssetOpcode.transfer.code else AssetOpcode.burn.code) data
    return .asset call
  else throw .invalidPayload

/-- `monetary::decode`. -/
def decodeMonetary (opcode : Byte) (payload : List Byte) : Except ProgramError MonetaryCall :=
  match opcode.val with
  | 1 | 4 => decodeCurrencyCall opcode payload
  | 2 => (AssetCall.decode AssetOpcode.register.code payload).map .asset
  | 3 => (AssetCall.decode AssetOpcode.mint.code payload).map .asset
  | _ => .error .unknownOpcode

/-- `vm_app::call_input`: opcode 0 carries an identifier only, opcode 1 adds calldata. -/
def callInput (call : ProgramCall) : Except CodeError (ProgramId × List Byte) := do
  rejectIf (call.program ≠ .vm ∨ ¬ (call.opcode = 0 ∨ call.opcode = 1) ∨ call.payload.length < 32 ∨
    call.payload.length > 32 + maxDataBytes ∨ (call.opcode = 0 ∧ call.payload.length ≠ 32))
    .invalidInstruction
  return (Hash.ofBytes (call.payload.take 32), call.payload.drop 32)

inductive DecodedProgramCall
  | xpqTransfer
  | asset (call : AssetCall)
  | vm (id : ProgramId)
  deriving DecidableEq, Repr

def decodeProgram (call : ProgramCall) : Except ProgramError DecodedProgramCall :=
  if call.program = .monetary then
    (decodeMonetary call.opcode call.payload).map fun
      | .transferCoin => .xpqTransfer
      | .asset call => .asset call
  else if call.program = .asset then (AssetCall.decode call.opcode call.payload).map .asset
  else if call.program = .vm then
    (orError (callInput call) .invalidPayload).map fun input => .vm input.1
  else .error .unknownProgram

/-! ## Proofs of authority -/

namespace AccountSignatureScheme

def id : AccountSignatureScheme → Byte
  | mlDsa44 => 1
  | mlDsa65 => 2
  | mlDsa87 => 3
  | slhDsaShake128s => 5
  | slhDsaShake192s => 6
  | slhDsaShake256s => 7

def publicKeySize : AccountSignatureScheme → Nat
  | mlDsa44 => 1312
  | mlDsa65 => 1952
  | mlDsa87 => 2592
  | slhDsaShake128s => 32
  | slhDsaShake192s => 48
  | slhDsaShake256s => 64

def signatureSize : AccountSignatureScheme → Nat
  | mlDsa44 => 2420
  | mlDsa65 => 3309
  | mlDsa87 => 4627
  | slhDsaShake128s => 7856
  | slhDsaShake192s => 16224
  | slhDsaShake256s => 29792

end AccountSignatureScheme

/-- A public key or a signature: the scheme and its bytes. -/
structure SchemeBytes where
  scheme : AccountSignatureScheme
  bytes : List Byte
  deriving DecidableEq, Repr

/-- Bytes of the wrong size are not encodable. -/
def SchemeBytes.encode (size : AccountSignatureScheme → Nat) (b : SchemeBytes) :
    Option (List Byte) :=
  if b.bytes.length = size b.scheme then (encodeBytes b.bytes).map (b.scheme.id :: ·) else none

/-- The salt is a fixed 32-byte field. Every scheme is supported at every height. -/
structure AccountAuthorization where
  salt : Hash
  publicKey : SchemeBytes
  signature : SchemeBytes
  deriving DecidableEq, Repr

namespace AccountAuthorization

def activeAtHeight (a : AccountAuthorization) : Bool := a.publicKey.scheme = a.signature.scheme

def validEncoding (a : AccountAuthorization) : Bool :=
  a.publicKey.bytes.length = a.publicKey.scheme.publicKeySize &&
    a.signature.bytes.length = a.signature.scheme.signatureSize

def encode (a : AccountAuthorization) : Option (List Byte) := do
  let publicKey ← a.publicKey.encode AccountSignatureScheme.publicKeySize
  let signature ← a.signature.encode AccountSignatureScheme.signatureSize
  return a.salt.bytes ++ publicKey ++ signature

end AccountAuthorization

structure AuthorizedProgramInvocation where
  signer : ProgramId
  call : ProgramCall
  payment : CoinTransition
  authorization : AccountAuthorization
  deriving DecidableEq, Repr

def AuthorizedProgramInvocation.encode (tx : AuthorizedProgramInvocation) : Option (List Byte) := do
  let call ← tx.call.encode
  let payment ← tx.payment.encode
  let authorization ← tx.authorization.encode
  return tx.signer.bytes ++ call ++ payment ++ authorization

/-- The structural rules that the commitment and the envelope share. -/
def checkInvocation (signer : ProgramId) (call : ProgramCall) (payment : CoinTransition) :
    Except IntentError Unit := do
  let _ ← orError (decodeProgram call) .invalidAssetCall
  payment.validate
  rejectIf (signer ≠ payment.signer) .invalidAssetCall

def AuthorizedProgramInvocation.validateStructure (tx : AuthorizedProgramInvocation) :
    Except IntentError Unit :=
  checkInvocation tx.signer tx.call tx.payment

section Commitments
variable [Crypto]

/-- `signature_account_with_authorization_salt`: the identity a key and a salt stand for. -/
def signatureAccount (publicKey : SchemeBytes) (salt : Hash) : Option ProgramId :=
  if publicKey.bytes.length = publicKey.scheme.publicKeySize then
    some (domain .programAccount (ascii "xparq:signature-policy:v2" ++ publicKey.scheme.id ::
      (publicKey.bytes ++ salt.bytes)))
  else none

/-- `crypto::verify`. -/
def verifySignature (publicKey : SchemeBytes) (message : List Byte) (signature : SchemeBytes) :
    Bool :=
  publicKey.scheme = signature.scheme &&
  publicKey.bytes.length = publicKey.scheme.publicKeySize &&
  signature.bytes.length = signature.scheme.signatureSize &&
  Crypto.verify publicKey.scheme publicKey.bytes message signature.bytes

/-- `signature_policy::authorize`. -/
def AccountAuthorization.verifyCommitment (a : AccountAuthorization) (sender : ProgramId)
    (commitment : AuthorizationCommitment) : Bool :=
  a.activeAtHeight && signatureAccount a.publicKey a.salt = some sender &&
    verifySignature a.publicKey commitment.bytes a.signature

def programInvocationBytes (signer : ProgramId) (call : ProgramCall) (payment : CoinTransition)
    (chain : ChainContext) : Option (List Byte) := do
  let call ← call.encode
  let payment ← payment.encode
  -- the role byte is `AuthorizationRole::Principal`
  return chain.genesisHash.bytes ++ 1 ::
    (ascii "xparq:program-transaction:v1" ++ signer.bytes ++ call ++
    payment)

/-- One signature binds the program call and its payment to this chain. -/
def programInvocationCommitment (signer : ProgramId) (call : ProgramCall) (payment : CoinTransition)
    (chain : ChainContext) : Except IntentError AuthorizationCommitment := do
  checkInvocation signer call payment
  let bytes ← okOr (programInvocationBytes signer call payment chain) .encoding
  return domain .assetIntent bytes

def AuthorizedProgramInvocation.verifyAuthorizations (tx : AuthorizedProgramInvocation)
    (chain : ChainContext) : Except IntentError Bool := do
  if ¬ (tx.authorization.activeAtHeight = true ∧ tx.authorization.validEncoding = true) then
    return false
  let commitment ← programInvocationCommitment tx.signer tx.call tx.payment chain
  return tx.authorization.verifyCommitment tx.signer commitment

end Commitments

end Xparq
