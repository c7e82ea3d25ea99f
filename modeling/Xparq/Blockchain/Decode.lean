import Xparq.Borsh
import Xparq.Blockchain.Block

/-!
# The block decoder

`decodeBlock` reads a block from the wire. Every variable-length part has a bound that is
checked before its members are read: operations per block, inputs and outputs per payment,
payload and code sizes, the fixed sizes of keys and signatures, and the bytes one operation
may use. `readBlock_reads` says that the decoder accepts exactly the canonical bytes of the
blocks within these bounds. A structurally valid block is within them, also where the rule
that implies a bound lies elsewhere: the payload limit follows from the payload's own decoder.
-/

namespace Xparq

open Machine Outcome Reader List

def maxProgramPayloadSize : Nat := 64 * 1024

/-! ## Payments and calls -/

def readCoinOutput : Reader Byte CoinOutput := do
  let output ← Owner.decode
  let amount ← readU64
  return { output, amount }

def readCoinTransition : Reader Byte CoinTransition := do
  let signer ← Hash.decode
  let inputs ← deserializeBoundedVec Hash.decode maxProgramItems
  let outputs ← deserializeBoundedVec readCoinOutput maxProgramItems
  let minerFee ← readU64
  return { signer, inputs, outputs, charges := { minerFee } }

def readProgramCall : Reader Byte ProgramCall := do
  let program ← readU32
  let opcode ← readU8
  let payload ← readBytes (· ≤ maxProgramPayloadSize)
  return { program, opcode, payload }

def readDeployProgram : Reader Byte DeployProgram := do
  let owner ← Hash.decode
  let nonce ← readU64
  let code ← readBytes (· ≤ maxProgramCodeSize)
  return { owner, nonce, code }

theorem readCoinOutput_reads : Reads readCoinOutput (fun o code => code = o.encode) := by
  refine (Owner.decode_reads.field fun _ => readU64_reads.field fun _ => Reads.pure _).congr
    fun o code => ?_
  cases o
  simp [CoinOutput.encode]

/-- The payments the decoder admits. -/
def CoinTransition.Bounded (t : CoinTransition) : Prop :=
  t.inputs.length ≤ maxProgramItems ∧ t.outputs.length ≤ maxProgramItems

/-- A payment is read whatever the bound on its inputs and outputs is. -/
theorem readCoinTransition_reads_within (limit : Nat) :
    Reads (do
      let signer ← Hash.decode
      let inputs ← deserializeBoundedVec Hash.decode limit
      let outputs ← deserializeBoundedVec readCoinOutput limit
      let minerFee ← readU64
      return ({ signer, inputs, outputs, charges := { minerFee } } : CoinTransition))
    (fun t code => t.encode = some code ∧ t.inputs.length ≤ limit ∧ t.outputs.length ≤ limit) := by
  refine (Hash.decode_reads.field fun _ =>
    (deserializeBoundedVec_reads Hash.decode_reads limit).bind fun _ =>
    (deserializeBoundedVec_reads readCoinOutput_reads limit).bind fun _ =>
    readU64_reads.map _).congr fun t code => ?_
  obtain ⟨signer, inputs, outputs, ⟨fee⟩⟩ := t
  simp only [sequence_total, CoinTransition.encode, bind_eq_some, return_eq_some]
  grind

theorem readCoinTransition_reads :
    Reads readCoinTransition (fun t code => t.encode = some code ∧ t.Bounded) :=
  readCoinTransition_reads_within maxProgramItems

variable {payload : List Byte} {t : CoinTransition} {α : Type} {w : Nat} {call : AssetCall}
  {opcode : Byte}

theorem CoinTransition.encode_injective {t' : CoinTransition} {code : List Byte}
    (h : t.encode = some code) (h' : t'.encode = some code) : t = t' := by
  let limit := t.inputs.length + t.outputs.length + (t'.inputs.length + t'.outputs.length)
  exact (readCoinTransition_reads_within limit).unique ⟨h, by omega, by omega⟩ ⟨h',
    by omega, by omega⟩

theorem readProgramCall_reads : Reads readProgramCall
    (fun c code => c.encode = some code ∧ c.payload.length ≤ maxProgramPayloadSize) := by
  refine (readU32_reads.field fun _ => readU8_reads.field fun _ =>
    (readBytes_reads (· ≤ maxProgramPayloadSize)).map _).congr fun c code => ?_
  cases c
  simp only [ProgramCall.encode, Option.map_eq_some_iff]
  grind

theorem readDeployProgram_reads : Reads readDeployProgram
    (fun d code => d.encode = some code ∧ d.code.length ≤ maxProgramCodeSize) := by
  refine (Hash.decode_reads.field fun _ => readU64_reads.field fun _ =>
    (readBytes_reads (· ≤ maxProgramCodeSize)).map _).congr fun d code => ?_
  cases d
  simp only [DeployProgram.encode, Option.map_eq_some_iff]
  grind

/-! ## Authorizations -/

/-- The scheme byte. -/
def AccountSignatureScheme.ofId (id : Byte) : Option AccountSignatureScheme :=
  match id.val with
  | 1 => some mlDsa44
  | 2 => some mlDsa65
  | 3 => some mlDsa87
  | 5 => some slhDsaShake128s
  | 6 => some slhDsaShake192s
  | 7 => some slhDsaShake256s
  | _ => none

def readScheme : Reader Byte AccountSignatureScheme := do
  let id ← readU8
  match AccountSignatureScheme.ofId id with
  | some scheme => return scheme
  | none => failure

/-- A key or a signature has exactly the size its scheme fixes. -/
def readSchemeBytes (size : AccountSignatureScheme → Nat) : Reader Byte SchemeBytes := do
  let scheme ← readScheme
  let bytes ← readBytes (· = size scheme)
  return { scheme, bytes }

def readAccountAuthorization : Reader Byte AccountAuthorization := do
  let salt ← Hash.decode
  let publicKey ← readSchemeBytes AccountSignatureScheme.publicKeySize
  let signature ← readSchemeBytes AccountSignatureScheme.signatureSize
  return { salt, publicKey, signature }

theorem AccountSignatureScheme.ofId_eq_some {id : Byte} {scheme : AccountSignatureScheme} :
    ofId id = some scheme ↔ id = scheme.id := by
  constructor
  · intro h
    unfold ofId at h
    split at h <;> cases h <;> exact Fin.ext ‹_›
  · rintro rfl
    cases scheme <;> rfl

theorem readScheme_reads : Reads readScheme (fun scheme code => code = [scheme.id]) := by
  have hnext : ∀ id, Reads (match AccountSignatureScheme.ofId id with
      | some scheme => pure scheme
      | none => failure : Reader Byte AccountSignatureScheme)
      (fun scheme code => id = scheme.id ∧ code = []) := by
    intro id
    split
    · rename_i found hfound
      refine (Reads.pure found).congr fun scheme code => ?_
      rw [← AccountSignatureScheme.ofId_eq_some, hfound, Option.some.injEq, eq_comm]
    · rename_i hnone
      refine Reads.failure.congr fun scheme code => ?_
      simp [← AccountSignatureScheme.ofId_eq_some, hnone]
  refine (readU8_reads.field hnext).congr fun scheme code => ?_
  simp

theorem readSchemeBytes_reads (size : AccountSignatureScheme → Nat) :
    Reads (readSchemeBytes size) (fun b code => b.encode size = some code) := by
  refine (readScheme_reads.field fun scheme =>
    (readBytes_reads (· = size scheme)).map _).congr fun b code => ?_
  obtain ⟨scheme, bytes⟩ := b
  simp only [SchemeBytes.encode, Option.ite_none_right_eq_some, Option.map_eq_some_iff]
  grind

theorem readAccountAuthorization_reads :
    Reads readAccountAuthorization (fun a code => a.encode = some code) := by
  refine (Hash.decode_reads.field fun _ => (readSchemeBytes_reads _).bind fun _ =>
    (readSchemeBytes_reads _).map _).congr fun a code => ?_
  cases a
  simp only [AccountAuthorization.encode, bind_eq_some, return_eq_some]
  grind

/-! ## Operations -/

def readAuthorizedDeployProgram : Reader Byte AuthorizedDeployProgram := do
  let deploy ← readDeployProgram
  let payment ← readCoinTransition
  let authorization ← readAccountAuthorization
  return { deploy, payment, authorization }

def readAuthorizedProgramInvocation : Reader Byte AuthorizedProgramInvocation := do
  let signer ← Hash.decode
  let call ← readProgramCall
  let payment ← readCoinTransition
  let authorization ← readAccountAuthorization
  return { signer, call, payment, authorization }

def readBlockOperation : Reader Byte BlockOperation := do
  let tag ← readU8
  if tag = 0 then return .deployProgram (← readAuthorizedDeployProgram)
  else if tag = 1 then return .programCall (← readAuthorizedProgramInvocation)
  else failure

def AuthorizedDeployProgram.Bounded (s : AuthorizedDeployProgram) : Prop :=
  s.deploy.code.length ≤ maxProgramCodeSize ∧ s.payment.Bounded

def AuthorizedProgramInvocation.Bounded (tx : AuthorizedProgramInvocation) : Prop :=
  tx.call.payload.length ≤ maxProgramPayloadSize ∧ tx.payment.Bounded

/-- The operations the decoder admits. -/
def BlockOperation.Bounded : BlockOperation → Prop
  | deployProgram signed => signed.Bounded
  | programCall tx => tx.Bounded

theorem readAuthorizedDeployProgram_reads : Reads readAuthorizedDeployProgram
    (fun s code => s.encode = some code ∧ s.Bounded) := by
  refine (readDeployProgram_reads.bind fun _ => readCoinTransition_reads.bind fun _ =>
    readAccountAuthorization_reads.map _).congr fun s code => ?_
  cases s
  simp only [AuthorizedDeployProgram.encode, AuthorizedDeployProgram.Bounded, bind_eq_some,
    return_eq_some]
  grind

theorem readAuthorizedProgramInvocation_reads : Reads readAuthorizedProgramInvocation
    (fun tx code => tx.encode = some code ∧ tx.Bounded) := by
  refine (Hash.decode_reads.field fun _ => readProgramCall_reads.bind fun _ =>
    readCoinTransition_reads.bind fun _ => readAccountAuthorization_reads.map _).congr
      fun tx code => ?_
  cases tx
  simp only [AuthorizedProgramInvocation.encode, AuthorizedProgramInvocation.Bounded, bind_eq_some,
    return_eq_some]
  grind

theorem readBlockOperation_reads :
    Reads readBlockOperation (fun op code => op.encode = some code ∧ op.Bounded) := by
  refine (readTagged_reads
    (readAuthorizedDeployProgram_reads.map _) (readAuthorizedProgramInvocation_reads.map _)).congr
      fun op code => ?_
  cases op with
  | deployProgram signed =>
    simp [BlockOperation.encode, BlockOperation.Bounded, and_right_comm, @eq_comm _ code]
  | programCall tx =>
    simp [BlockOperation.encode, BlockOperation.Bounded, and_right_comm, @eq_comm _ code]

/-! ## Blocks -/

def readHeader : Reader Byte Header := do
  let previousHash ← Hash.decode
  let merkleRoot ← Hash.decode
  let stateRoot ← Hash.decode
  let targetBits ← readU32
  let blockWeight ← readU32
  let nonce ← readU64
  return { previousHash, merkleRoot, stateRoot, targetBits, blockWeight, nonce }

def readEmission : Reader Byte Emission := do
  let recipient ← Hash.decode
  let subsidy ← readU64
  return { recipient, subsidy }

/-- `deserialize_block_operations`: one operation may use `maxOperationSize` bytes. -/
def readBlockOperations : Reader Byte (List BlockOperation) :=
  deserializeBoundedVec (limited maxOperationSize readBlockOperation) maxBlockOperations

def readBlock : Reader Byte Block := do
  let header ← readHeader
  let height ← readU64
  let emission ← readOption readEmission
  let operations ← readBlockOperations
  return { header, height, emission, operations }

def decodeBlock [Crypto] (bytes : List Byte) : Except CodecError Block := do
  rejectIf (bytes.length > maxBlockSize) .invalidBlock
  let block ← okOr (all readBlock bytes) .invalidBlock
  orError block.validateStructure .invalidBlock
  return block

theorem readHeader_reads : Reads readHeader (fun h code => code = h.encode) := by
  refine (Hash.decode_reads.field fun _ => Hash.decode_reads.field fun _ =>
    Hash.decode_reads.field fun _ => readU32_reads.field fun _ => readU32_reads.field fun _ =>
    readU64_reads.field fun _ => Reads.pure _).congr fun h code => ?_
  cases h
  simp [Header.encode]

theorem readEmission_reads : Reads readEmission (fun e code => code = e.encode) := by
  refine (Hash.decode_reads.field fun _ => readU64_reads.field fun _ => Reads.pure _).congr
    fun e code => ?_
  cases e
  simp [Emission.encode]

theorem readOption_readEmission_reads :
    Reads (readOption readEmission) (fun emission code => code =
      Block.encodeEmission emission) := by
  refine (readOption_reads readEmission_reads).congr fun emission code => ?_
  cases emission <;> simp [Block.encodeEmission]

/-- The operation lists the decoder admits. -/
def BoundedOperations (operations : List BlockOperation) : Prop :=
  operations.length ≤ maxBlockOperations ∧
    ∀ op ∈ operations, op.Bounded ∧ ∀ bytes, op.encode = some bytes →
      bytes.length ≤ maxOperationSize

theorem readBlockOperations_reads : Reads readBlockOperations (fun operations code =>
    BoundedOperations operations ∧ ∃ count, encodeLen operations.length = some count ∧
      ∃ parts, operations.mapM BlockOperation.encode = some parts ∧
      code = count ++ parts.flatten) := by
  refine (deserializeBoundedVec_reads (readBlockOperation_reads.limited maxOperationSize)
    maxBlockOperations).congr fun operations code => ?_
  constructor
  · rintro ⟨hlength, count, hcount, items, hitems, rfl⟩
    obtain ⟨hitems, hsizes⟩ := sequence_and hitems
    obtain ⟨hitems, hbounds⟩ := sequence_and hitems
    obtain ⟨parts, hparts, rfl⟩ := sequence_mapM.mp hitems
    refine ⟨⟨hlength, fun op hop => ⟨?_, fun bytes hbytes => ?_⟩⟩, count, hcount,
      parts, hparts, rfl⟩
    · obtain ⟨_, _, hbounded⟩ := hbounds op hop
      exact hbounded
    · obtain ⟨part, ⟨hpart, -⟩, hsize⟩ := hsizes op hop
      rw [hbytes, Option.some.injEq] at hpart
      exact hpart ▸ hsize
  · rintro ⟨⟨hlength, hall⟩, count, hcount, parts, hparts, rfl⟩
    refine ⟨hlength, count, hcount, parts.flatten, ?_, rfl⟩
    refine (sequence_congr fun op hop bytes => ?_).mp (sequence_mapM.mpr ⟨parts, hparts, rfl⟩)
    constructor
    · intro hbytes
      exact ⟨⟨hbytes, (hall op hop).1⟩, (hall op hop).2 bytes hbytes⟩
    · exact fun h => h.1.1

/-- The decoder accepts exactly the canonical bytes of the blocks within its bounds. -/
theorem readBlock_reads :
    Reads readBlock (fun b code => b.encode = some code ∧ BoundedOperations b.operations) := by
  refine (readHeader_reads.field fun _ => readU64_reads.field fun _ =>
    readOption_readEmission_reads.field fun _ => readBlockOperations_reads.map _).congr
      fun b code => ?_
  cases b
  simp only [Block.encode, bind_eq_some, return_eq_some]
  grind

/-! ## Structurally valid blocks are within the bounds -/

theorem length_sequence {encode : α → List Byte} (h : ∀ a, (encode a).length = w)
    (as : List α) : ((as.map encode).flatten).length = w * as.length := by
  induction as with
  | nil => rfl
  | cons a as ih =>
    rw [map_cons, flatten_cons, length_append, h, ih, length_cons]
    ring

theorem readAssetOutput_reads : Reads readAssetOutput (fun o code => code = o.encode) := by
  refine (Owner.decode_reads.field fun _ => readUnits_reads.field fun _ => Reads.pure _).congr
    fun o code => ?_
  cases o
  simp [AssetOutput.encode]

theorem AssetOutput.length_encode (o : AssetOutput) : o.encode.length = 49 := by
  simp [AssetOutput.encode]

theorem boundedVec_length {read : List Byte → Option (α × List Byte)} {encode : α → List Byte}
    {max : Nat} {excess : ProgramError} {l rest : List Byte} {as : List α}
    (hread : Reads read (fun a code => code = encode a)) (hw : ∀ a, (encode a).length = w)
    (h : boundedVec read max excess l = .ok (as, rest)) :
    as.length ≤ max ∧ l.length = 4 + w * as.length + rest.length := by
  simp only [boundedVec, bind_eq_ok, okOr_eq_ok, rejectIf_eq_ok, Prod.exists, not_lt] at h
  obtain ⟨count, body, hcount, _, hmax, hmany⟩ := h
  obtain ⟨_, ⟨-, rfl⟩, rfl⟩ := (readLe_reads 4 _ _ _).mp hcount
  obtain ⟨items, ⟨rfl, hitems⟩, rfl⟩ := (hread.many _ _ _ _).mp hmany
  rw [sequence_total] at hitems
  refine ⟨hmax, ?_⟩
  rw [length_append, length_append, length_leBytes, hitems, length_sequence hw]
  omega

theorem length_of_decodeTransfer (h : decodeTransfer payload = .ok call) :
    payload.length ≤ 32 + (4 + 32 * 256) + (4 + 49 * 256) := by
  simp only [decodeTransfer, bind_eq_ok, okOr_eq_ok, rejectIf_eq_ok, Prod.exists,
    Decidable.not_not] at h
  obtain ⟨asset, reader, hasset, inputs, reader', hinputs, outputs, _, houtputs, _, rfl, -⟩ := h
  obtain ⟨_, rfl, rfl⟩ := (Hash.decode_reads _ _ _).mp hasset
  obtain ⟨hin, hlength⟩ := boundedVec_length Hash.decode_reads Hash.length_bytes hinputs
  obtain ⟨hout, hlength'⟩ := boundedVec_length readAssetOutput_reads
    AssetOutput.length_encode houtputs
  simp only [maxAssetInputs, maxAssetOutputs, length_nil] at hin hout hlength'
  rw [length_append, Hash.length_bytes]
  omega

theorem length_of_decodeAsset (h : AssetCall.decode opcode payload = .ok call) :
    payload.length ≤ maxProgramPayloadSize := by
  simp only [AssetCall.decode, bind_eq_ok, rejectIf_eq_ok, not_lt] at h
  obtain ⟨code, -, _, hsize, -⟩ := h
  refine hsize.trans ?_
  cases code <;> decide

/-- Naming the currency first does not take a transfer over the limit. -/
theorem length_of_decodeCurrencyCall {call : MonetaryCall}
    (h : decodeCurrencyCall opcode payload = .ok call) :
    payload.length ≤ maxProgramPayloadSize := by
  match payload with
  | [] => exact Nat.zero_le _
  | currency :: data =>
    simp only [decodeCurrencyCall, reduceCtorEq, and_false, if_false, ok_bind] at h
    rw [length_cons]
    split_ifs at h with hcoin hop hasset hop
    · simp only [bind_eq_ok, rejectIf_eq_ok, Decidable.not_not] at h
      obtain ⟨_, rfl, -⟩ := h
      decide
    · rw [bind_eq_ok] at h
      obtain ⟨call, hcall, -⟩ := h
      simp only [AssetCall.decode, bind_eq_ok] at hcall
      obtain ⟨code, hcode, _, -, hrest⟩ := hcall
      cases hcode
      obtain ⟨_, hdecode, -⟩ := bind_eq_ok.mp hrest
      have := length_of_decodeTransfer hdecode
      simp only [maxProgramPayloadSize]
      omega
    · rw [bind_eq_ok] at h
      obtain ⟨call, hcall, -⟩ := h
      simp only [AssetCall.decode, bind_eq_ok, rejectIf_eq_ok, not_lt] at hcall
      obtain ⟨code, hcode, _, hsize, -⟩ := hcall
      cases hcode
      simp only [AssetOpcode.maxPayloadSize] at hsize
      simp only [maxProgramPayloadSize]
      omega

theorem length_of_decodeProgram {call : ProgramCall} {d : DecodedProgramCall}
    (h : decodeProgram call = .ok d) : call.payload.length ≤ maxProgramPayloadSize := by
  unfold decodeProgram at h
  split_ifs at h
  · rw [exceptMap_eq_ok] at h
    obtain ⟨m, hm, -⟩ := h
    unfold decodeMonetary at hm
    split at hm
    · exact length_of_decodeCurrencyCall hm
    · exact length_of_decodeCurrencyCall hm
    · rw [exceptMap_eq_ok] at hm
      obtain ⟨_, hasset, -⟩ := hm
      exact length_of_decodeAsset hasset
    · rw [exceptMap_eq_ok] at hm
      obtain ⟨_, hasset, -⟩ := hm
      exact length_of_decodeAsset hasset
    · cases hm
  · rw [exceptMap_eq_ok] at h
    obtain ⟨_, hasset, -⟩ := h
    exact length_of_decodeAsset hasset
  · simp only [exceptMap_eq_ok, orError_eq_ok, callInput, bind_eq_ok, rejectIf_eq_ok] at h
    obtain ⟨_, ⟨_, hinput, -⟩, -⟩ := h
    simp only [not_or, not_lt] at hinput
    exact hinput.2.2.2.1.trans (by decide)

theorem CoinTransition.bounded_of_validate (h : t.validate = .ok ()) : t.Bounded :=
  ⟨(validate_ok h).1, (validate_ok h).2.1⟩

theorem BlockOperation.bounded_of_validateStructure {op : BlockOperation}
    (h : op.validateStructure = .ok ()) : op.Bounded := by
  cases op with
  | deployProgram signed =>
    simp only [validateStructure, DeployProgram.validateStructure, bind_eq_ok, orError_eq_ok,
      rejectIf_eq_ok, not_lt] at h
    obtain ⟨_, ⟨_, -, _, hcode, -⟩, hpayment⟩ := h
    exact ⟨hcode, CoinTransition.bounded_of_validate hpayment⟩
  | programCall tx =>
    simp only [validateStructure, AuthorizedProgramInvocation.validateStructure, checkInvocation,
      orError_eq_ok, bind_eq_ok] at h
    obtain ⟨_, hcall, _, hpayment, -⟩ := h
    exact ⟨length_of_decodeProgram hcall, CoinTransition.bounded_of_validate hpayment⟩

section
variable [Crypto]

theorem Block.encode_of_validateStructure {b : Block} (h : b.validateStructure = .ok ()) :
    ∃ bytes, b.encode = some bytes ∧ bytes.length ≤ maxBlockSize ∧
      BoundedOperations b.operations := by
  simp only [Block.validateStructure, bind_eq_ok, rejectIf_eq_ok, orError_eq_ok, not_lt] at h
  obtain ⟨_, hcount, _, -, _, hops, _, -, _, hweight, _, hsize, _, -, _, hsizes, -⟩ := h
  simp only [Block.weight, okOr_eq_ok, Option.map_eq_some_iff] at hweight
  obtain ⟨bytes, hbytes, rfl⟩ := hweight
  refine ⟨bytes, hbytes, hsize, hcount, fun op hop => ⟨?_, fun code hcode => ?_⟩⟩
  · exact BlockOperation.bounded_of_validateStructure (forM_eq_ok.mp hops op hop)
  · obtain ⟨_, hlen, hle⟩ := bind_eq_ok.mp (forM_eq_ok.mp hsizes op hop)
    rw [rejectIf_eq_ok, not_lt] at hle
    simp only [BlockOperation.canonicalLen, canonicalLength, hcode, okOr_eq_ok, Option.bind_some,
      Option.map_eq_some_iff, ofNat?_eq_some] at hlen
    obtain ⟨_, hval, rfl⟩ := hlen
    exact hval ▸ hle

/-- The wire form of a block is canonical: the decoder accepts only canonical bytes, and it
accepts the bytes of every structurally valid block. -/
theorem decodeBlock_canonical :
    (∀ bytes block, decodeBlock bytes = .ok block → block.encode = some bytes) ∧
      ∀ block : Block, block.validateStructure = .ok () →
        ∃ bytes, block.encode = some bytes ∧ decodeBlock bytes = .ok block := by
  constructor
  · intro bytes block h
    simp only [decodeBlock, bind_eq_ok, okOr_eq_ok, pure_eq_ok, Except.ok.injEq] at h
    obtain ⟨_, -, _, hread, _, -, rfl⟩ := h
    exact (readBlock_reads.all.mp hread).1
  · intro block h
    obtain ⟨bytes, hbytes, hsize, hbounds⟩ := block.encode_of_validateStructure h
    refine ⟨bytes, hbytes, ?_⟩
    simp only [decodeBlock, bind_eq_ok, okOr_eq_ok, pure_eq_ok, rejectIf_eq_ok, orError_eq_ok,
      Except.ok.injEq, not_lt]
    exact ⟨(), hsize, block, readBlock_reads.all.mpr ⟨hbytes, hbounds⟩, (), h, rfl⟩

end

section
attribute [local instance] Crypto.checksum

/-- A coin transfer with a full-size signature. -/
def sampleOperation : BlockOperation :=
  .programCall ⟨0, ⟨.monetary, 1, []⟩, ⟨0, [1], [⟨.program 5, 1⟩], ⟨1⟩⟩,
    ⟨0, ⟨.mlDsa44, List.replicate 1312 0⟩, ⟨.mlDsa44, List.replicate 2420 0⟩⟩⟩

def sampleBlock : Except CodecError Block :=
  Block.fromProtocolOperations 1 0 genesisTargetBits 0 (some ⟨7, 1⟩) [sampleOperation]

theorem decodeBlock_sample : ∃ block, sampleBlock = .ok block ∧ block.validateStructure = .ok () ∧
    ∃ bytes, block.encode = some bytes ∧ decodeBlock bytes = .ok block := by
  have hvalid : sampleBlock.toOption.map Block.validateStructure = some (.ok ()) := by
    decide +kernel
  obtain ⟨block, hblock⟩ := exists_of_isOk (show sampleBlock.isOk = true by decide +kernel)
  rw [hblock, Except.toOption, Option.map_some, Option.some.injEq] at hvalid
  exact ⟨block, hblock, hvalid, decodeBlock_canonical.2 block hvalid⟩

end

end Xparq
