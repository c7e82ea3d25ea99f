import Xparq.Crypto
import Xparq.Lib.Reader

/-!
# Coins and assets

Amounts, identifiers and the canonical bytes of the monetary records, and the calls of the
asset program with their bounded decoder. A coin or share identifier is the domain hash of
the place it was created at: an emission origin, or a commitment and an output index.

Text fields are byte strings: the source's `String` is valid UTF-8 and every check on it is
a check on its bytes.
-/

namespace Xparq

open Machine Outcome

/-! ## Native coin -/

abbrev Zeno := U64
abbrev CoinShare := Hash
abbrev Height := U64

/-- The unique native contract: 32 zero bytes. -/
def coinContract : Hash := 0

def CoinShare.emissionBytes (origin : Hash) : List Byte := coinContract.bytes ++ origin.bytes

def CoinShare.outputBytes (commitment : Hash) (index : U32) : List Byte :=
  coinContract.bytes ++ commitment.bytes ++ leBytes 4 index.val

section

variable [Crypto]

def CoinShare.fromEmission (origin : Hash) : CoinShare := domain .emission (emissionBytes origin)

def CoinShare.fromOutput (commitment : Hash) (index : U32) : CoinShare :=
  domain .output (outputBytes commitment index)

end

structure CoinOutput where
  output : Owner
  amount : Zeno
  deriving DecidableEq, Repr

def CoinOutput.encode (o : CoinOutput) : List Byte := o.output.encode ++ leBytes 8 o.amount.val

@[simp] theorem CoinOutput.length_encode (o : CoinOutput) : o.encode.length = 41 := by
  simp [CoinOutput.encode]

/-! ## Assets -/

abbrev Units := U128
abbrev AssetContract := Hash
abbrev Share := Hash

inductive AssetError
  | invalidAmount | invalidProgram | assetAlreadyExists | shareAlreadyExists | unknownAsset
  | unknownObject | assetMismatch | unauthorized | invalidMintNonce | supplyOverflow
  | balanceOverflow | encoding
  deriving DecidableEq, Repr

def assetNameMaxLen : Nat := 64

/-- Any byte that `trim` could remove other than a space fails the last condition. -/
def validateAssetName (name : List Byte) : Except AssetError Unit :=
  rejectIf (name = [] ∨ name.length > assetNameMaxLen ∨
    name.head? = some 0x20 ∨ name.getLast? = some 0x20 ∨
    ¬ ∀ byte ∈ name, byte = 0x20 ∨ (0x21 ≤ byte ∧ byte ≤ 0x7e)) .invalidProgram

structure Metadata where
  name : List Byte
  maxSupply : Units
  creator : Owner
  mintAuthority : Owner
  deriving DecidableEq, Repr

def Metadata.validate (m : Metadata) : Except AssetError Unit := do
  validateAssetName m.name
  rejectIf (m.maxSupply = 0) .invalidProgram

def Metadata.new (name : List Byte) (maxSupply : Units) (creator mintAuthority : Owner) :
    Except AssetError Metadata := do
  let metadata : Metadata := ⟨name, maxSupply, creator, mintAuthority⟩
  metadata.validate
  return metadata

def Metadata.encode (m : Metadata) : Option (List Byte) :=
  (encodeBytes m.name).map fun name =>
    name ++ leBytes 16 m.maxSupply.val ++ m.creator.encode ++ m.mintAuthority.encode

structure AssetRecord where
  metadata : Metadata
  supply : Units
  totalMinted : Units
  mintNonce : U64
  totalBurned : Units
  deriving DecidableEq, Repr

def AssetRecord.encode (r : AssetRecord) : Option (List Byte) :=
  r.metadata.encode.map fun metadata =>
    metadata ++ leBytes 16 r.supply.val ++ leBytes 16 r.totalMinted.val ++
      leBytes 8 r.mintNonce.val ++ leBytes 16 r.totalBurned.val

structure AssetShare where
  asset : AssetContract
  amount : Units
  owner : Owner
  deriving DecidableEq, Repr

def AssetShare.encode (s : AssetShare) : List Byte :=
  s.asset.bytes ++ leBytes 16 s.amount.val ++ s.owner.encode

structure AssetOutput where
  recipient : Owner
  amount : Units
  deriving DecidableEq, Repr

def AssetOutput.encode (o : AssetOutput) :
    List Byte := o.recipient.encode ++ leBytes 16 o.amount.val

def ensureUniqueAssetInputs (inputs : List Share) : Except AssetError Unit :=
  rejectIf (¬ inputs.Nodup) .invalidProgram

section

variable [Crypto]

def AssetContract.derive (metadata : Metadata) (nonce : U64) : Except AssetError AssetContract := do
  let bytes ← okOr metadata.encode .encoding
  return domain .asset (bytes ++ leBytes 8 nonce.val)

def Share.derive (asset : AssetContract) (commitment : Hash) (index : U32) : Share :=
  domain .share (asset.bytes ++ commitment.bytes ++ leBytes 4 index.val)

end

/-! ## Calls of the asset program -/

inductive ProgramError
  | unknownProgram | unknownOpcode | invalidPayload | payloadTooLarge | noInputs | tooManyInputs
  | noOutputs | tooManyOutputs | duplicateInput | zeroAmount | invalidMetadata | amountOverflow
  | executionNotImplemented
  deriving DecidableEq, Repr

structure Register where
  name : List Byte
  maxSupply : Units
  initialMint : Units
  mintAuthority : Owner
  nonce : U64
  deriving DecidableEq, Repr

structure Mint where
  asset : AssetContract
  nonce : U64
  recipient : Owner
  amount : Units
  deriving DecidableEq, Repr

structure Transfer where
  asset : AssetContract
  inputs : List Share
  outputs : List AssetOutput
  deriving DecidableEq, Repr

structure Burn where
  asset : AssetContract
  inputs : List Share
  amount : Units
  output : Units
  deriving DecidableEq, Repr

inductive AssetCall
  | register (call : Register)
  | mint (call : Mint)
  | transfer (call : Transfer)
  | burn (call : Burn)
  deriving DecidableEq, Repr

inductive AssetOpcode
  | register | mint | transfer | burn
  deriving DecidableEq, Repr

def AssetOpcode.code : AssetOpcode → Byte
  | register => 0x01
  | mint => 0x02
  | transfer => 0x03
  | burn => 0x04

def AssetOpcode.ofByte (b : Byte) : Except ProgramError AssetOpcode :=
  if b = 0x01 then .ok .register
  else if b = 0x02 then .ok .mint
  else if b = 0x03 then .ok .transfer
  else if b = 0x04 then .ok .burn
  else .error .unknownOpcode

def AssetOpcode.maxPayloadSize : AssetOpcode → Nat
  | register => 4 * 1024
  | mint => 1024
  | transfer => 64 * 1024
  | burn => 32 * 1024

def maxAssetInputs : Nat := 256
def maxAssetOutputs : Nat := 256

/-- The payload `borsh::to_vec` produces for a call. -/
def AssetCall.encode : AssetCall → Option (AssetOpcode × List Byte)
  | register c => (encodeBytes c.name).map fun name =>
      (.register, name ++ leBytes 16 c.maxSupply.val ++ leBytes 16 c.initialMint.val ++
        c.mintAuthority.encode ++ leBytes 8 c.nonce.val)
  | mint c => some (.mint, c.asset.bytes ++ leBytes 8 c.nonce.val ++ c.recipient.encode ++
      leBytes 16 c.amount.val)
  | transfer c => do
      let inputs ← encodeLen c.inputs.length
      let outputs ← encodeLen c.outputs.length
      return (.transfer, c.asset.bytes ++ inputs ++ (c.inputs.map Hash.bytes).flatten ++ outputs ++
        (c.outputs.map AssetOutput.encode).flatten)
  | burn c => (encodeLen c.inputs.length).map fun inputs =>
      (.burn, c.asset.bytes ++ inputs ++ (c.inputs.map Hash.bytes).flatten ++
        leBytes 16 c.amount.val ++ leBytes 16 c.output.val)

/-! ### Readers

Each reader takes a value off the front of a byte string; Borsh's `try_from_slice` is
`Reader.all`, which uses the whole of it. -/

def readU64 (l : List Byte) : Option (U64 × List Byte) := do
  let (v, rest) ← readLe 8 l
  let v ← ofNat? (2 ^ 64) v
  return (v, rest)

def readUnits (l : List Byte) : Option (Units × List Byte) := do
  let (v, rest) ← readLe 16 l
  let v ← ofNat? (2 ^ 128) v
  return (v, rest)

def readAssetOutput (l : List Byte) : Option (AssetOutput × List Byte) := do
  let (recipient, l) ← Owner.decode l
  let (amount, l) ← readUnits l
  return (⟨recipient, amount⟩, l)

/-- Well-formed UTF-8, as `String` decoding requires: the lead byte fixes the number of
continuation bytes, and the second byte is bounded so that overlong forms, surrogates and
code points beyond U+10FFFF are excluded. -/
def validUtf8 : List Byte → Bool
  | [] => true
  | a :: rest =>
    if a < 0x80 then validUtf8 rest
    else match rest with
      | b :: rest₁ =>
        if 0xc2 ≤ a ∧ a ≤ 0xdf then (0x80 ≤ b ∧ b ≤ 0xbf) && validUtf8 rest₁
        else match rest₁ with
          | c :: rest₂ =>
            let low : Byte := if a = 0xe0 then 0xa0 else 0x80
            let high : Byte := if a = 0xed then 0x9f else 0xbf
            if 0xe0 ≤ a ∧ a ≤ 0xef then
              (low ≤ b ∧ b ≤ high) && (0x80 ≤ c ∧ c ≤ 0xbf) && validUtf8 rest₂
            else match rest₂ with
              | d :: rest₃ =>
                let low : Byte := if a = 0xf0 then 0x90 else 0x80
                let high : Byte := if a = 0xf4 then 0x8f else 0xbf
                (0xf0 ≤ a ∧ a ≤ 0xf4) && (low ≤ b ∧ b ≤ high) && (0x80 ≤ c ∧ c ≤ 0xbf) &&
                  (0x80 ≤ d ∧ d ≤ 0xbf) && validUtf8 rest₃
              | [] => false
          | [] => false
      | [] => false

def readString (l : List Byte) : Option (List Byte × List Byte) := do
  let (n, l) ← readLe 4 l
  let (name, l) ← takeBytes n l
  if validUtf8 name then some (name, l) else none

def readRegister (l : List Byte) : Option (Register × List Byte) := do
  let (name, l) ← readString l
  let (maxSupply, l) ← readUnits l
  let (initialMint, l) ← readUnits l
  let (mintAuthority, l) ← Owner.decode l
  let (nonce, l) ← readU64 l
  return (⟨name, maxSupply, initialMint, mintAuthority, nonce⟩, l)

def readMint (l : List Byte) : Option (Mint × List Byte) := do
  let (asset, l) ← Hash.decode l
  let (nonce, l) ← readU64 l
  let (recipient, l) ← Owner.decode l
  let (amount, l) ← readUnits l
  return (⟨asset, nonce, recipient, amount⟩, l)

/-! ### The bounded decoder -/

def boundedVec {α : Type} (read : List Byte → Option (α × List Byte)) (max : Nat)
    (excess : ProgramError) (l : List Byte) : Except ProgramError (List α × List Byte) := do
  let (count, l) ← okOr (readLe 4 l) .invalidPayload
  rejectIf (count > max) excess
  okOr (Reader.many read count l) .invalidPayload

def decodeTransfer (payload : List Byte) : Except ProgramError AssetCall := do
  let (asset, reader) ← okOr (Hash.decode payload) .invalidPayload
  let (inputs, reader) ← boundedVec Hash.decode maxAssetInputs .tooManyInputs reader
  let (outputs, reader) ← boundedVec readAssetOutput maxAssetOutputs .tooManyOutputs reader
  rejectIf (reader ≠ []) .invalidPayload
  return .transfer ⟨asset, inputs, outputs⟩

def decodeBurn (payload : List Byte) : Except ProgramError AssetCall := do
  let (asset, reader) ← okOr (Hash.decode payload) .invalidPayload
  let (inputs, reader) ← boundedVec Hash.decode maxAssetInputs .tooManyInputs reader
  let (amount, reader) ← okOr (readUnits reader) .invalidPayload
  let (output, reader) ← okOr (readUnits reader) .invalidPayload
  rejectIf (reader ≠ []) .invalidPayload
  return .burn ⟨asset, inputs, amount, output⟩

def validateInputs (inputs : List Share) : Except ProgramError Unit := do
  rejectIf (inputs = []) .noInputs
  rejectIf (inputs.length > maxAssetInputs) .tooManyInputs
  orError (ensureUniqueAssetInputs inputs) .duplicateInput

/-- The checked sum of the outputs; every output must be nonzero. -/
def sumOutputs {ε : Type} (zero overflow : ε) (outputs : List AssetOutput) : Except ε Units :=
  outputs.foldlM (fun total output => do
    rejectIf (output.amount = 0) zero
    okOr (checkedAdd total output.amount) overflow) 0

def AssetCall.validate : AssetCall → Except ProgramError Unit
  | register c => do
      orError (validateAssetName c.name) .invalidMetadata
      rejectIf (c.maxSupply = 0 ∨ c.initialMint = 0) .zeroAmount
      rejectIf (c.initialMint > c.maxSupply) .amountOverflow
  | mint c => rejectIf (c.amount = 0) .zeroAmount
  | transfer c => do
      validateInputs c.inputs
      rejectIf (c.outputs = []) .noOutputs
      rejectIf (c.outputs.length > maxAssetOutputs) .tooManyOutputs
      let _ ← sumOutputs .zeroAmount .amountOverflow c.outputs
  | burn c => do
      validateInputs c.inputs
      rejectIf (c.amount = 0) .zeroAmount

/-- `asset_program::decode`. -/
def AssetCall.decode (opcode : Byte) (payload : List Byte) : Except ProgramError AssetCall := do
  let opcode ← AssetOpcode.ofByte opcode
  rejectIf (payload.length > opcode.maxPayloadSize) .payloadTooLarge
  let call ← match opcode with
    | .register => okOr ((Reader.all readRegister payload).map AssetCall.register) .invalidPayload
    | .mint => okOr ((Reader.all readMint payload).map AssetCall.mint) .invalidPayload
    | .transfer => decodeTransfer payload
    | .burn => decodeBurn payload
  call.validate
  return call

end Xparq
