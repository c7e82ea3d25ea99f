import Xparq.Ledger.Authority
import Xparq.Ledger.Issuance
import Xparq.Program.Issued
import Xparq.Blockchain.Decode

/-!
# Where coin identifiers come from

A coin identifier is made once: by the emission of a block, by a payment, or by a program that
the operation's call runs. `BlockOperation.coins` are the identifiers one operation can make, and
`coins_disjoint` says that operations with different payments make different ones, because the
commitment of an operation hashes its payment.

`Provenance` carries this along a chain: what was made so far has no duplicates and contains
every live coin, and the inputs of every operation so far were made and are spent. An operation
is staged only on live inputs, so its payment is a new one and everything it makes is new.
-/

namespace Xparq

open Machine Outcome OrderedMap LedgerState List

section
variable [Crypto]

/-! ## Commitments -/

namespace BlockOperation

/-- What the commitment of an operation hashes. -/
def commitmentInput (chain : ChainContext) : BlockOperation → Option (List Byte)
  | .programCall tx =>
    (programInvocationBytes tx.signer tx.call tx.payment chain).map (preimage .assetIntent)
  | .deployProgram signed => do
      let codeHash ← (ProgramHash.derive signed.deploy.code).toOption
      (deployBytes signed codeHash chain).map (preimage .xparqArtifact)

variable {chain : ChainContext} {op op' : BlockOperation} {c c' : AuthorizationCommitment}

theorem commitment_ok (h : op.commitment chain = .ok c) :
    ∃ x, op.commitmentInput chain = some x ∧ c = Crypto.sha3 x := by
  cases op with
  | programCall tx =>
    simp only [commitment, programInvocationCommitment, mapError_eq_ok, bind_eq_ok, okOr_eq_ok,
      return_eq_ok] at h
    obtain ⟨_, _, bytes, hbytes, rfl⟩ := h
    exact ⟨_, by rw [commitmentInput, hbytes]; rfl, rfl⟩
  | deployProgram signed =>
    simp only [commitment, AuthorizedDeployProgram.commitment, orError_eq_ok, bind_eq_ok,
      okOr_eq_ok, return_eq_ok] at h
    obtain ⟨codeHash, hcode, bytes, hbytes, rfl⟩ := h
    refine ⟨preimage .xparqArtifact bytes, ?_, rfl⟩
    rw [commitmentInput, hcode]
    change (deployBytes signed codeHash chain).map _ = _
    rw [hbytes]
    rfl

variable {bytes : List Byte} {tx : AuthorizedProgramInvocation}

omit [Crypto] in
theorem payment_of_programInvocationBytes {tx' : AuthorizedProgramInvocation}
    (hsize : tx.call.payload.length ≤ maxProgramPayloadSize)
    (hsize' : tx'.call.payload.length ≤ maxProgramPayloadSize)
    (h : programInvocationBytes tx.signer tx.call tx.payment chain = some bytes)
    (h' : programInvocationBytes tx'.signer tx'.call tx'.payment chain = some bytes) :
    tx.payment = tx'.payment := by
  simp only [programInvocationBytes, bind_eq_some, return_eq_some] at h h'
  obtain ⟨call, hcall, payment, hpayment, rfl⟩ := h
  obtain ⟨call', hcall', payment', hpayment', heq⟩ := h'
  have htail := (List.cons.inj (append_cancel_left heq)).2
  simp only [append_assoc] at htail
  obtain ⟨_, hrest⟩ := append_inj (append_cancel_left htail) (by simp)
  have hread :=
    (readProgramCall_reads (call ++ payment) tx.call payment).mpr ⟨call, ⟨hcall, hsize⟩, rfl⟩
  rw [(readProgramCall_reads (call ++ payment) tx'.call payment').mpr ⟨call', ⟨hcall', hsize'⟩,
    hrest.symm⟩] at hread
  obtain ⟨_, rfl⟩ := Prod.mk.inj (Option.some.inj hread)
  exact CoinTransition.encode_injective hpayment hpayment'

omit [Crypto] in
theorem payment_of_deployBytes {signed signed' : AuthorizedDeployProgram}
    {codeHash codeHash' : ProgramHash} (h : deployBytes signed codeHash chain = some bytes)
    (h' : deployBytes signed' codeHash' chain = some bytes) : signed.payment = signed'.payment := by
  simp only [deployBytes, Option.map_eq_some_iff] at h h'
  obtain ⟨payment, hpayment, rfl⟩ := h
  obtain ⟨payment', hpayment', heq⟩ := h'
  obtain ⟨_, rfl⟩ := append_inj heq (by simp)
  exact CoinTransition.encode_injective hpayment hpayment'

theorem payload_of_commitment (h : commitment chain (.programCall tx) = .ok c) :
    tx.call.payload.length ≤ maxProgramPayloadSize := by
  simp only [commitment, programInvocationCommitment, checkInvocation, mapError_eq_ok, bind_eq_ok,
    orError_eq_ok] at h
  obtain ⟨_, ⟨_, hcall, _⟩, _⟩ := h
  exact length_of_decodeProgram hcall

theorem payment_of_commitmentInput {x : List Byte} (hc : op.commitment chain = .ok c)
    (hc' : op'.commitment chain = .ok c') (h : op.commitmentInput chain = some x)
    (h' : op'.commitmentInput chain = some x) : op.payment = op'.payment := by
  cases op with
  | programCall tx =>
    obtain ⟨bytes, hbytes, rfl⟩ := Option.map_eq_some_iff.mp h
    cases op' with
    | programCall tx' =>
      obtain ⟨bytes', hbytes', heq⟩ := Option.map_eq_some_iff.mp h'
      rw [preimage_injective heq] at hbytes'
      exact payment_of_programInvocationBytes (payload_of_commitment hc) (payload_of_commitment hc')
        hbytes hbytes'
    | deployProgram signed' =>
      simp only [commitmentInput, bind_eq_some, Option.map_eq_some_iff] at h'
      obtain ⟨_, _, _, _, heq⟩ := h'
      exact absurd heq.symm (preimage_assetIntent_ne_xparqArtifact _ _)
  | deployProgram signed =>
    simp only [commitmentInput, bind_eq_some, Option.map_eq_some_iff] at h
    obtain ⟨codeHash, _, bytes, hbytes, rfl⟩ := h
    cases op' with
    | programCall tx' =>
      obtain ⟨_, _, heq⟩ := Option.map_eq_some_iff.mp h'
      exact absurd heq (preimage_assetIntent_ne_xparqArtifact _ _)
    | deployProgram signed' =>
      simp only [commitmentInput, bind_eq_some, Option.map_eq_some_iff] at h'
      obtain ⟨codeHash', _, bytes', hbytes', heq⟩ := h'
      rw [preimage_injective heq] at hbytes'
      exact payment_of_deployBytes hbytes hbytes'

theorem commitmentInput_ne_short (hshort : bytes.length < 93) :
    op.commitmentInput chain ≠ some (preimage .assetIntent bytes) := by
  intro h
  cases op with
  | programCall tx =>
    obtain ⟨long, hlong, heq⟩ := Option.map_eq_some_iff.mp h
    simp only [programInvocationBytes, bind_eq_some, return_eq_some] at hlong
    obtain ⟨call, _, payment, _, rfl⟩ := hlong
    rw [← preimage_injective heq] at hshort
    have htag : (ascii "xparq:program-transaction:v1").length = 28 := by decide
    simp only [length_append, length_cons, Hash.length_bytes, htag] at hshort
    omega
  | deployProgram signed =>
    simp only [commitmentInput, bind_eq_some, Option.map_eq_some_iff] at h
    obtain ⟨_, _, _, _, heq⟩ := h
    exact preimage_assetIntent_ne_xparqArtifact _ _ heq.symm

/-! ## The identifiers of one operation -/

/-- The identifiers an operation can make when these programs can run. -/
def coins (chain : ChainContext) (programs : Set ProgramId) (op : BlockOperation) : Set CoinShare :=
  {share | ∃ c, op.commitment chain = .ok c ∧ (share ∈ vmCoins programs c ∨
    ∃ index : U32, index.val ≤ op.payment.outputs.length ∧ share = CoinShare.fromOutput c index)}

/-- What is hashed for them. -/
def idInputs (chain : ChainContext) (programs : Set ProgramId) (op : BlockOperation) :
    Set (List Byte) :=
  {x | op.commitmentInput chain = some x ∨ ∃ c, op.commitment chain = .ok c ∧
    (x ∈ vmInputs programs c ∨
    ∃ index : U32, index.val ≤ op.payment.outputs.length ∧ x = outputInput c index)}

variable {S : Set (List Byte)} {programs : Set ProgramId}

theorem vmInputs_subset (hop : op.idInputs chain programs ⊆ S) (hc : op.commitment chain = .ok c) :
    vmInputs programs c ⊆ S :=
  fun _ hx => hop (.inr ⟨c, hc, .inl hx⟩)

section
variable (hS : Set.InjOn Crypto.sha3 S) (hop : op.idInputs chain programs ⊆ S)
  (hop' : op'.idInputs chain programs ⊆ S) (hc : op.commitment chain = .ok c)
    (hc' : op'.commitment chain = .ok c')
include hS hop' hc'

theorem domain_ne_commitment {bytes : List Byte} (hmem : preimage .assetIntent bytes ∈ S)
    (hshort : bytes.length < 93) : domain .assetIntent bytes ≠ c' := by
  intro heq
  obtain ⟨x, hx, rfl⟩ := commitment_ok hc'
  exact commitmentInput_ne_short hshort
    (hx.trans (congrArg some (hS hmem (hop' (.inl hx)) heq).symm))

include hop hc

/-- The commitment of an operation is not what its settlements are bound to instead. -/
theorem actionOrigin_ne_commitment (hsome : programs.Nonempty) {k : Nat} (hk : k ≤ maxActions) :
    Engine.actionOrigin effectTag c k ≠ c' := by
  obtain ⟨id, hid⟩ := hsome
  have htag : (ascii effectTag).length = 19 := by decide
  exact domain_ne_commitment hS hop' hc' (vmInputs_subset hop hc ⟨id, hid, .inl ⟨k, hk, rfl⟩⟩)
    (by simp [htag])

theorem settlementOrigin_ne_commitment {id : ProgramId} (hid : id ∈ programs) {base : Hash}
    (hbase : base ∈ effectBases c) : settlementOrigin id base ≠ c' := by
  have htag : (ascii "xparq:vm-transfer:v2").length = 20 := by decide
  exact domain_ne_commitment hS hop' hc'
    (vmInputs_subset hop hc ⟨id, hid, .inr ⟨base, hbase, .inl rfl⟩⟩)
    (by simp [htag])

theorem vmCoin_ne_output {share : CoinShare} (hshare : share ∈ vmCoins programs c) {index : U32}
    (hindex : index.val ≤ op'.payment.outputs.length) : share ≠ CoinShare.fromOutput c' index := by
  rintro heq
  obtain ⟨id, hid, base, hbase, i, hi, rfl⟩ := hshare
  have hinput : outputInput (settlementOrigin id base) i = outputInput c' index :=
    hS (vmInputs_subset hop hc ⟨id, hid, .inr ⟨base, hbase, .inr ⟨i, hi, rfl⟩⟩⟩)
      (hop' (.inr ⟨c', hc', .inr ⟨index, hindex, rfl⟩⟩)) heq
  exact settlementOrigin_ne_commitment hS hop hop' hc hc' hid hbase (outputInput_injective hinput).1

theorem commitment_eq_of_base (hsome : programs.Nonempty) {base : Hash}
    (hbase : base ∈ effectBases c) (hbase' : base ∈ effectBases c') : c = c' := by
  rcases hbase with rfl | ⟨k, hk, rfl⟩
  · rcases hbase' with heq | ⟨k', hk', heq⟩
    · exact heq
    · exact absurd heq.symm (actionOrigin_ne_commitment hS hop' hop hc' hc hsome hk')
  · rcases hbase' with heq | ⟨k', hk', heq⟩
    · exact absurd heq (actionOrigin_ne_commitment hS hop hop' hc hc' hsome hk)
    · exact (actionOrigin_injective hS (vmInputs_subset hop hc) (vmInputs_subset hop' hc')
        hsome hk hk' heq).1

end

/-- Operations that can make the same identifier have the same payment. -/
theorem coins_disjoint (hS : Set.InjOn Crypto.sha3 S) (hop : op.idInputs chain programs ⊆ S)
    (hop' : op'.idInputs chain programs ⊆ S) {share : CoinShare}
    (h : share ∈ op.coins chain programs) (h' : share ∈ op'.coins chain programs) :
    op.payment = op'.payment := by
  obtain ⟨c, hc, h⟩ := h
  obtain ⟨c', hc', h'⟩ := h'
  suffices hsame : c = c' by
    obtain ⟨x, hx, rfl⟩ := commitment_ok hc
    obtain ⟨x', hx', heq⟩ := commitment_ok hc'
    obtain rfl : x = x' := hS (hop (.inl hx)) (hop' (.inl hx')) (hsame.trans heq)
    exact payment_of_commitmentInput hc hc' hx hx'
  rcases h with hvm | ⟨index, hindex, rfl⟩
  · rcases h' with hvm' | ⟨index', hindex', heq⟩
    · obtain ⟨id, hid, base, hbase, i, hi, rfl⟩ := hvm
      obtain ⟨id', hid', base', hbase', i', hi', heq⟩ := hvm'
      obtain ⟨_, rfl, _⟩ :=
        vmCoin_injective hS (vmInputs_subset hop hc) (vmInputs_subset hop' hc') hid hid' hbase
        hbase' hi hi' heq
      exact commitment_eq_of_base hS hop hop' hc hc' ⟨id, hid⟩ hbase hbase'
    · exact absurd heq (vmCoin_ne_output hS hop hop' hc hc' hvm hindex')
  · rcases h' with hvm' | ⟨index', hindex', heq⟩
    · exact absurd rfl (vmCoin_ne_output hS hop' hop hc' hc hvm' hindex)
    · have hinput : outputInput c index = outputInput c' index' :=
        hS (hop (.inr ⟨c, hc, .inr ⟨index, hindex, rfl⟩⟩))
          (hop' (.inr ⟨c', hc', .inr ⟨index', hindex', rfl⟩⟩)) heq
      exact (outputInput_injective hinput).1

end BlockOperation

/-! ## The identifiers of an emission -/

namespace Block

/-- What is hashed for the emission coin of a block. -/
def emissionInputs (b : Block) : Set (List Byte) :=
  {x | ∃ e, b.emission = some e ∧ (x = preimage .emission (emissionOriginBytes b e) ∨
    x = preimage .emission (CoinShare.emissionBytes (domain .emission (emissionOriginBytes b e))))}

/-- The identifier the emission of a block makes. -/
def emissionCoin (b : Block) : Set CoinShare :=
  {share | ∃ e, b.emission = some e ∧
    share = CoinShare.fromEmission (domain .emission (emissionOriginBytes b e))}

/-- What is hashed for the identifiers of a block. -/
def idInputs (chain : ChainContext) (programs : Set ProgramId) (b : Block) : Set (List Byte) :=
  {x | x ∈ b.emissionInputs ∨ ∃ op ∈ b.operations, x ∈ op.idInputs chain programs}

variable {S : Set (List Byte)} {programs : Set ProgramId} {chain : ChainContext} {b b' : Block}
  {share : CoinShare}

theorem height_of_emissionCoin (hS : Set.InjOn Crypto.sha3 S) (hb : b.emissionInputs ⊆ S)
    (hb' : b'.emissionInputs ⊆ S) (h : share ∈ b.emissionCoin) (h' : share ∈ b'.emissionCoin) :
    b.height = b'.height := by
  obtain ⟨e, he, rfl⟩ := h
  obtain ⟨e', he', heq⟩ := h'
  have hcoin := preimage_injective (hS (hb ⟨e, he, .inr rfl⟩) (hb' ⟨e', he', .inr rfl⟩) heq)
  have horigin := Hash.bytes_injective (append_cancel_left hcoin)
  have hbytes := preimage_injective (hS (hb ⟨e, he, .inl rfl⟩) (hb' ⟨e', he', .inl rfl⟩) horigin)
  simp only [emissionOriginBytes, append_assoc] at hbytes
  obtain ⟨_, hrest⟩ := append_inj (append_cancel_left hbytes) (by simp)
  obtain ⟨hheight, _⟩ := append_inj hrest (by simp)
  exact Fin.ext (leBytes_injective (lt_of_lt_of_eq b.height.isLt (by decide))
    (lt_of_lt_of_eq b'.height.isLt (by decide)) hheight)

theorem emissionCoin_ne_coins {op : BlockOperation} (hS : Set.InjOn Crypto.sha3 S)
    (hb : b.emissionInputs ⊆ S) (hop : op.idInputs chain programs ⊆ S)
    (h : share ∈ b.emissionCoin) : share ∉ op.coins chain programs := by
  obtain ⟨e, he, rfl⟩ := h
  rintro ⟨c, hc, hvm | ⟨index, hindex, heq⟩⟩
  · obtain ⟨id, hid, base, hbase, i, hi, heq⟩ := hvm
    exact preimage_emission_ne_output _ _ (hS (hb ⟨e, he, .inr rfl⟩)
      (hop (.inr ⟨c, hc, .inl ⟨id, hid, .inr ⟨base, hbase, .inr ⟨i, hi, rfl⟩⟩⟩⟩)) heq)
  · exact preimage_emission_ne_output _ _ (hS (hb ⟨e, he, .inr rfl⟩)
      (hop (.inr ⟨c, hc, .inr ⟨index, hindex, rfl⟩⟩)) heq)

end Block

/-! ## What an operation makes -/

namespace BlockOperation

/-- The identifiers the programs of a call issue. -/
def issuedIds (apps : ApplicationExecutor) (height : Height) (s : LedgerState)
    (commitment : AuthorizationCommitment) : BlockOperation → Except LedgerError (List CoinShare)
  | .deployProgram _ => .ok []
  | .programCall tx => do
      match ← orError (decodeProgram tx.call) (.state .invalidTransition) with
      | .vm _ =>
        let (applied, _) ← orError (applyVm s tx height commitment apps) (.state .invalidTransition)
        return applied.issued
      | _ => return []

/-- All identifiers an operation makes on a state. -/
def createdIds (apps : ApplicationExecutor) (chain : ChainContext) (height : Height)
    (miner : ProgramId) (s : LedgerState) (op : BlockOperation) :
    Except LedgerError (List CoinShare) := do
  let (commitment, s₁) ← op.paymentStart apps chain height s
  let issued ← op.issuedIds apps height s commitment
  let (journal, _) ← (executeCoinProgram s₁ op.payment commitment miner apps).mapError .state
  return issued ++ journal.createdCoinIds

variable {chain : ChainContext} {height : Height} {op : BlockOperation}
  {c : AuthorizationCommitment} {s s₁ : LedgerState} {S : Set (List Byte)}
    {programs : Set ProgramId}

theorem commitment_of_paymentStart {apps : ApplicationExecutor}
    (h : op.paymentStart apps chain height s = .ok (c, s₁)) : op.commitment chain = .ok c := by
  simp only [paymentStart, bind_eq_ok] at h
  obtain ⟨commitment, hcommitment, h⟩ := h
  cases op with
  | programCall tx =>
    simp only [bind_eq_ok, Prod.exists, return_eq_ok, Prod.mk.injEq] at h
    obtain ⟨_, _, _, rfl, _⟩ := h
    exact hcommitment
  | deployProgram signed =>
    cases h
    exact hcommitment

/-- What a call does before it is paid for: its programs issue distinct identifiers of its
commitment, and no other coin becomes live. -/
theorem paymentStart_issues (hS : Set.InjOn Crypto.sha3 S) (hop : op.idInputs chain programs ⊆ S)
    (hknown : s.registered ⊆ programs) (hs : s.Sound)
    (h : op.paymentStart systemApplications chain height s = .ok (c, s₁)) :
    ∃ issued, op.issuedIds systemApplications height s c = .ok issued ∧ issued.Nodup ∧
      (∀ share ∈ issued, share ∈ vmCoins programs c) ∧
      ∀ share ∈ s₁.utxos.coins.keys, share ∈ s.utxos.coins.keys ∨ share ∈ issued := by
  have hc := commitment_of_paymentStart h
  simp only [paymentStart, hc, ok_bind] at h
  cases op with
  | deployProgram signed =>
    cases h
    exact ⟨[], rfl, nodup_nil, by simp, fun share hshare => .inl hshare⟩
  | programCall tx =>
    simp only [bind_eq_ok, Prod.exists, pure_eq_ok, Except.ok.injEq, Prod.mk.injEq, applyCall,
      orError_eq_ok] at h
    obtain ⟨effect, s', ⟨decoded, hdecoded, h⟩, _, rfl⟩ := h
    have horError : orError (decodeProgram tx.call) (LedgerError.state .invalidTransition) =
        .ok decoded :=
      orError_eq_ok.mpr hdecoded
    cases decoded with
    | xpqTransfer =>
      cases h
      exact ⟨[], by
        rw [issuedIds, horError]; rfl, nodup_nil, by simp, fun share hshare => .inl hshare⟩
    | asset call =>
      simp only [bind_eq_ok, Prod.exists, Except.ok.injEq, Prod.mk.injEq] at h
      obtain ⟨_, _, _, _, _, _, rfl⟩ := h
      exact ⟨[], by
        rw [issuedIds, horError]; rfl, nodup_nil, by simp, fun share hshare => .inl hshare⟩
    | vm call =>
      simp only [bind_eq_ok, Prod.exists, Except.ok.injEq, Prod.mk.injEq, orError_eq_ok] at h
      obtain ⟨applied, s₂, hvm, _, rfl⟩ := h
      have hbases : programs.Nonempty → ∀ k ≤ maxActions, Engine.actionOrigin effectTag c k ≠ c :=
        fun hsome k hk => actionOrigin_ne_commitment hS hop hop hc hc hsome hk
      obtain ⟨hnodup, hmade, hlive⟩ := applyVm_issues hS (vmInputs_subset hop hc) hbases
        (fun id record hrecord => hknown (mem_keys_iff.mpr ⟨record, hrecord⟩)) hs hvm
      refine ⟨applied.issued, ?_, hnodup, hmade, hlive⟩
      rw [issuedIds, horError, ok_bind]
      simp only [bind_eq_ok, Prod.exists, pure_eq_ok, Except.ok.injEq, orError_eq_ok]
      exact ⟨applied, s₂, hvm, rfl⟩

end BlockOperation

variable {s s' : LedgerState} {miner : ProgramId} {chain : ChainContext} {staged staged' : Staged}
  {c : AuthorizationCommitment} {height : Height}

/-- The outputs of a payment are new coins; what is live after it was live before and not spent, or
is an output. -/
theorem Paid.outputs {intent : CoinTransition} {coins : List (CoinShare × CoinUtxo)} {burn : Zeno}
    (h : Paid s intent c miner coins burn s') :
    (paymentJournal intent c miner coins burn).createdCoinIds.Nodup ∧
      (∀ share ∈ (paymentJournal intent c miner coins burn).createdCoinIds, ∃ index : U32,
        index.val ≤ intent.outputs.length ∧ share = CoinShare.fromOutput c index) ∧
      ∀ share ∈ s'.utxos.coins.keys, (share ∈ s.utxos.coins.keys ∧ share ∉ intent.inputs) ∨
        share ∈ (paymentJournal intent c miner coins burn).createdCoinIds := by
  obtain ⟨ids, mid, hconsume, hcreate⟩ := h.moved
  obtain ⟨-, -, -, hcoins, -, -⟩ := consumeCoins_ok hconsume
  obtain ⟨rfl, hnodup, -, hcoins', -, -⟩ := createCoins_ok hcreate
  refine ⟨hnodup, ?_, ?_⟩
  · intro share hshare
    obtain ⟨index, hindex, heq⟩ := exists_output_index hshare
    have hlength := intent.length_allOutputs_le miner
    exact ⟨index, by omega, heq⟩
  · intro share hshare
    by_cases hout : share ∈ (paymentJournal intent c miner coins burn).createdCoinIds
    · exact .inr hout
    · rw [mem_keys_iff, hcoins', get?_insertAll_of_notMem hout, hcoins, get?_eraseAll] at hshare
      obtain ⟨coin, hcoin⟩ := hshare
      split_ifs at hcoin with hin
      exact .inl ⟨mem_keys_iff.mpr ⟨coin, hcoin⟩, hin⟩

/-! ## Provenance -/

/-- What a chain of blocks and operations has made, up to a state. -/
structure Provenance (chain : ChainContext) (programs : Set ProgramId) (blocks : List Block)
    (ops : List BlockOperation) (made : List CoinShare) (s : LedgerState) : Prop where
  nodup : made.Nodup
  live : ∀ share ∈ s.utxos.coins.keys, share ∈ made
  source : ∀ share ∈ made, (∃ b ∈ blocks, share ∈ b.emissionCoin) ∨ ∃ op ∈ ops,
    share ∈ op.coins chain programs
  spent : ∀ op ∈ ops, op.payment.inputs ≠ [] ∧
    ∀ share ∈ op.payment.inputs, share ∈ made ∧ share ∉ s.utxos.coins.keys
  distinct : ops.Nodup

/-- The hash does not collide on what the chain so far hashed for identifiers. -/
structure CollisionFree (S : Set (List Byte)) (chain : ChainContext) (programs : Set ProgramId)
    (blocks : List Block) (ops : List BlockOperation) : Prop where
  injective : Set.InjOn Crypto.sha3 S
  blocks : ∀ b ∈ blocks, b.emissionInputs ⊆ S
  operations : ∀ op ∈ ops, op.idInputs chain programs ⊆ S

section
variable {chain : ChainContext} {programs : Set ProgramId} {blocks : List Block}
  {ops : List BlockOperation} {made : List CoinShare} {s s₁ : LedgerState} {S : Set (List Byte)}
    {op : BlockOperation}
  {c : AuthorizationCommitment}

theorem provenance_empty : Provenance chain programs [] [] [] LedgerState.empty where
  nodup := nodup_nil
  live _ h := by cases h
  source _ h := by cases h
  spent _ h := by cases h
  distinct := nodup_nil

/-- An operation that spends a live coin has not been executed before. -/
theorem Provenance.payment_new (h : Provenance chain programs blocks ops made s) {share : CoinShare}
    (hin : share ∈ op.payment.inputs) (hlive : share ∈ s.utxos.coins.keys) :
    ∀ op' ∈ ops, op'.payment ≠ op.payment := by
  intro op' hop' heq
  exact ((h.spent op' hop').2 share (heq ▸ hin)).2 hlive

/-- What a step adds: new identifiers, and operations whose inputs were live and are spent. -/
theorem Provenance.extend (h : Provenance chain programs blocks ops made s) {blocks' : List Block}
    (added : List BlockOperation) {ids : List CoinShare} (hblocks : blocks ⊆ blocks')
    (hnodup : ids.Nodup) (hfresh : ∀ share ∈ ids, share ∉ made)
    (hsource : ∀ share ∈ ids, (∃ b ∈ blocks', share ∈ b.emissionCoin) ∨ ∃ op ∈ added,
      share ∈ op.coins chain programs)
    (hnow : ∀ share ∈ s₁.utxos.coins.keys,
      (share ∈ s.utxos.coins.keys ∧ ∀ op ∈ added, share ∉ op.payment.inputs) ∨ share ∈ ids)
    (hadded : ∀ op ∈ added, op.payment.inputs ≠ [] ∧ ∀ share ∈ op.payment.inputs,
      share ∈ s.utxos.coins.keys)
    (hdistinct : added.Nodup) :
    Provenance chain programs blocks' (ops ++ added) (made ++ ids) s₁ := by
  refine ⟨h.nodup.append hnodup fun share hold hshare => hfresh share hshare hold, ?_, ?_, ?_, ?_⟩
  · intro share hshare
    rcases hnow share hshare with ⟨hbefore, _⟩ | hshare
    · exact mem_append_left _ (h.live share hbefore)
    · exact mem_append_right _ hshare
  · intro share hshare
    rcases mem_append.mp hshare with hold | hshare
    · rcases h.source share hold with ⟨b, hb, hemission⟩ | ⟨op, hop, hcoin⟩
      · exact .inl ⟨b, hblocks hb, hemission⟩
      · exact .inr ⟨op, mem_append_left _ hop, hcoin⟩
    · rcases hsource share hshare with hemission | ⟨op, hop, hcoin⟩
      · exact .inl hemission
      · exact .inr ⟨op, mem_append_right _ hop, hcoin⟩
  · -- an input is made already, so it is not among the new identifiers
    have hdead : ∀ share ∈ made, (share ∈ s.utxos.coins.keys → ∃ op ∈ added,
        share ∈ op.payment.inputs) →
        share ∉ s₁.utxos.coins.keys := by
      intro share hold hspent hnew
      rcases hnow share hnew with ⟨hbefore, hnot⟩ | hmem
      · obtain ⟨op, hop, hin⟩ := hspent hbefore
        exact hnot op hop hin
      · exact hfresh share hmem hold
    intro op hop
    rcases mem_append.mp hop with hop | hop
    · refine ⟨(h.spent op hop).1, fun share hshare => ?_⟩
      obtain ⟨hold, hnot⟩ := (h.spent op hop).2 share hshare
      exact ⟨mem_append_left _ hold, hdead share hold fun hbefore => absurd hbefore hnot⟩
    · refine ⟨(hadded op hop).1, fun share hshare => ?_⟩
      have hold := h.live share ((hadded op hop).2 share hshare)
      exact ⟨mem_append_left _ hold, hdead share hold fun _ => ⟨op, hop, hshare⟩⟩
  · refine h.distinct.append hdistinct fun op hop hnew => ?_
    obtain ⟨share, hshare⟩ := exists_mem_of_ne_nil _ (hadded op hnew).1
    exact h.payment_new hshare ((hadded op hnew).2 share hshare) op hop rfl

theorem Provenance.fresh (h : Provenance chain programs blocks ops made s)
    (hS : CollisionFree S chain programs blocks ops) (hop : op.idInputs chain programs ⊆ S)
    {share spent : CoinShare} (hin : spent ∈ op.payment.inputs) (hlive : spent ∈ s.utxos.coins.keys)
    (hshare : share ∈ op.coins chain programs) : share ∉ made := by
  intro hmade
  rcases h.source share hmade with ⟨b, hb, hemission⟩ | ⟨op', hop', hcoins⟩
  · exact Block.emissionCoin_ne_coins hS.injective (hS.blocks b hb) hop hemission hshare
  · exact h.payment_new hin hlive op' hop'
      (BlockOperation.coins_disjoint hS.injective (hS.operations op' hop') hop hcoins hshare)

theorem Provenance.emission {b : Block} {subsidy : Zeno} {staged : Staged}
    (h : Provenance chain programs blocks ops made s)
    (hS : CollisionFree S chain programs (b :: blocks) ops)
    (hheight : ∀ b' ∈ blocks, b'.height ≠ b.height)
    (hstage : stageEmission s b = .ok (subsidy, staged)) :
    Provenance chain programs (b :: blocks) ops (made ++ staged.createdCoinIds) staged.state := by
  have hnew : staged.createdCoinIds.Nodup ∧ (∀ share ∈ staged.createdCoinIds,
      share ∈ b.emissionCoin) ∧
      ∀ share ∈ staged.state.utxos.coins.keys, share ∈ s.utxos.coins.keys ∨
        share ∈ staged.createdCoinIds := by
    unfold stageEmission at hstage
    split_ifs at hstage
    · cases hstage
      exact ⟨nodup_nil, by simp [Staged.createdCoinIds], fun share hshare => .inl hshare⟩
    · simp only [bind_eq_ok, Prod.exists, mapError_eq_ok, return_eq_ok, Prod.mk.injEq] at hstage
      obtain ⟨emission, hvalid, journal, state, happly, _, rfl⟩ := hstage
      obtain ⟨_, hemission, _, _, horigin⟩ := validateEmission_ok hvalid
      have hemitted := applyEmission_ok happly
      have hids : Staged.createdCoinIds ⟨state, emission.protocolBurn, [journal]⟩ =
          (emissionCoins emission).map Prod.fst := by
        rw [hemitted.journal]
        simp [Staged.createdCoinIds]
      rw [hids]
      refine ⟨nodup_emissionCoins emission, ?_, ?_⟩
      · intro share hshare
        unfold emissionCoins at hshare
        split_ifs at hshare
        · cases hshare
        · rw [map_singleton, mem_singleton] at hshare
          exact ⟨_, hemission, hshare.trans (by rw [horigin])⟩
      · intro share hshare
        by_cases hmem : share ∈ (emissionCoins emission).map Prod.fst
        · exact .inr hmem
        · rw [mem_keys_iff, hemitted.coins, get?_insertAll_of_notMem hmem] at hshare
          exact .inl (mem_keys_iff.mpr hshare)
  obtain ⟨hnodup, hmade, hlive⟩ := hnew
  have hfresh : ∀ share ∈ staged.createdCoinIds, share ∉ made := by
    intro share hshare hold
    have hb := hS.blocks b mem_cons_self
    rcases h.source share hold with ⟨b', hb', hemission⟩ | ⟨op, hop, hcoins⟩
    · exact hheight b' hb' (Block.height_of_emissionCoin hS.injective
        (hS.blocks b' (mem_cons_of_mem _ hb')) hb
        hemission (hmade share hshare))
    · exact Block.emissionCoin_ne_coins hS.injective hb (hS.operations op hop) (hmade share hshare)
        hcoins
  rw [← append_nil ops]
  exact h.extend [] (subset_cons_self _ _) hnodup hfresh
    (fun share hshare => .inl ⟨b, mem_cons_self, hmade share hshare⟩)
    (fun share hshare => (hlive share hshare).imp_left fun hold => ⟨hold, nofun⟩) nofun nodup_nil

theorem Provenance.operation {height : Height} {miner : ProgramId} {staged staged' : Staged}
    (h : Provenance chain programs blocks ops made staged.state)
    (hS : CollisionFree S chain programs blocks ops) (hop : op.idInputs chain programs ⊆ S)
    (hknown : staged.state.registered ⊆ programs) (hs : staged.state.Sound)
    (hstage : stageOperation systemApplications chain height miner staged op = .ok staged') :
    ∃ ids, op.createdIds systemApplications chain height miner staged.state = .ok ids ∧
      Provenance chain programs blocks (ops ++ [op]) (made ++ ids) staged'.state := by
  obtain ⟨c, s₁, coins, burn, s₂, hpayment, _, hcoins⟩ := stageOperation_paid hs hstage
  have hc := BlockOperation.commitment_of_paymentStart hpayment.start
  obtain ⟨issued, hissued, hnodup, hmade, hlive⟩ :=
    BlockOperation.paymentStart_issues hS.injective hop hknown hs hpayment.start
  obtain ⟨hnodup', hmade', hlive'⟩ := hpayment.paid.outputs
  set outputs := (paymentJournal op.payment c miner coins burn).createdCoinIds with houtputs
  have hown : ∀ share ∈ issued ++ outputs, share ∈ op.coins chain programs := by
    intro share hshare
    rcases mem_append.mp hshare with hshare | hshare
    · exact ⟨c, hc, .inl (hmade share hshare)⟩
    · exact ⟨c, hc, .inr (hmade' share hshare)⟩
  obtain ⟨spent, hspent⟩ := exists_mem_of_ne_nil _ hpayment.spends
  have hfresh : ∀ share ∈ issued ++ outputs, share ∉ made := fun share hshare =>
    h.fresh hS hop hspent (hpayment.live spent hspent) (hown share hshare)
  refine ⟨issued ++ outputs, ?_,
    h.extend [op] (List.Subset.refl _) (hnodup.append hnodup' ?_) hfresh ?_ ?_ ?_
    (nodup_singleton op)⟩
  · simp only [BlockOperation.createdIds, bind_eq_ok, Prod.exists, mapError_eq_ok, return_eq_ok]
    exact ⟨c, s₁, hpayment.start, issued, hissued, _, s₂, hpayment.run, rfl⟩
  · intro share hshare hout
    obtain ⟨index, hindex, heq⟩ := hmade' share hout
    exact BlockOperation.vmCoin_ne_output hS.injective hop hop hc hc (hmade share hshare) hindex heq
  · exact fun share hshare => .inr ⟨op, mem_singleton_self _, hown share hshare⟩
  · intro share hshare
    rw [hcoins] at hshare
    rcases hlive' share hshare with ⟨hbefore, hnot⟩ | hshare
    · rcases hlive share hbefore with hbefore | hshare
      · exact .inl ⟨hbefore, by simpa using hnot⟩
      · exact .inr (mem_append_left _ hshare)
    · exact .inr (mem_append_right _ hshare)
  · exact forall_mem_singleton.mpr ⟨hpayment.spends, hpayment.live⟩

end

/-! ## More programs -/

section
variable {chain : ChainContext} {programs programs' : Set ProgramId} {blocks : List Block}
  {ops ops' : List BlockOperation} {made made' : List CoinShare} {s t : LedgerState}
    {S : Set (List Byte)}

theorem BlockOperation.coins_mono (hsub : programs ⊆ programs') (op : BlockOperation) :
    op.coins chain programs ⊆ op.coins chain programs' := by
  rintro share ⟨c, hc, ⟨id, hid, hmade⟩ | houtput⟩
  · exact ⟨c, hc, .inl ⟨id, hsub hid, hmade⟩⟩
  · exact ⟨c, hc, .inr houtput⟩

theorem BlockOperation.idInputs_mono (hsub : programs ⊆ programs') (op : BlockOperation) :
    op.idInputs chain programs ⊆ op.idInputs chain programs' := by
  rintro x (hcommitment | ⟨c, hc, ⟨id, hid, hinput⟩ | houtput⟩)
  · exact .inl hcommitment
  · exact .inr ⟨c, hc, .inl ⟨id, hsub hid, hinput⟩⟩
  · exact .inr ⟨c, hc, .inr houtput⟩

theorem CollisionFree.subset {blocks' : List Block}
    (h : CollisionFree S chain programs blocks' ops') (hblocks : blocks ⊆ blocks')
    (hops : ops ⊆ ops') : CollisionFree S chain programs blocks ops :=
  ⟨h.injective, fun b hb => h.blocks b (hblocks hb), fun op hop => h.operations op (hops hop)⟩

theorem CollisionFree.mono (hsub : programs ⊆ programs')
    (h : CollisionFree S chain programs' blocks ops) : CollisionFree S chain programs blocks ops :=
  ⟨h.injective, h.blocks, fun op hop => (op.idInputs_mono hsub).trans (h.operations op hop)⟩

theorem Provenance.mono (hsub : programs ⊆ programs')
    (h : Provenance chain programs blocks ops made s) :
    Provenance chain programs' blocks ops made s := by
  refine ⟨h.nodup, h.live, fun share hshare => ?_, h.spent, h.distinct⟩
  rcases h.source share hshare with hemission | ⟨op, hop, hcoins⟩
  · exact .inl hemission
  · exact .inr ⟨op, hop, op.coins_mono hsub hcoins⟩

theorem Provenance.perm (h : Provenance chain programs blocks ops made s) (hops : ops.Perm ops')
    (hmade : made.Perm made') : Provenance chain programs blocks ops' made' s where
  nodup := hmade.nodup h.nodup
  live share hshare := hmade.subset (h.live share hshare)
  source share hshare := by
    rcases h.source share (hmade.symm.subset hshare) with hemission | ⟨op, hop, hcoins⟩
    · exact .inl hemission
    · exact .inr ⟨op, hops.subset hop, hcoins⟩
  spent op hop := by
    obtain ⟨hne, hspent⟩ := h.spent op (hops.symm.subset hop)
    exact ⟨hne, fun share hshare => ⟨hmade.subset (hspent share hshare).1, (hspent share hshare).2⟩⟩
  distinct := hops.nodup h.distinct

theorem Provenance.of_coins (h : Provenance chain programs blocks ops made s)
    (hcoins : t.utxos.coins = s.utxos.coins) : Provenance chain programs blocks ops made t :=
  ⟨h.nodup, hcoins ▸ h.live, h.source, hcoins ▸ h.spent, h.distinct⟩

end

/-! ## Blocks and histories -/

namespace Ledger

/-- The identifiers the execution of a block makes. -/
def createdIds (l : Ledger) (b : Block) : Except LedgerError (List CoinShare) := do
  let chain ← l.contextFor b
  let (_, staged) ← stageEmission l.state b
  let (ids, _) ← observeOperations (BlockOperation.createdIds l.applications chain b.height
    b.minerProgramId)
    l.applications chain b.height b.minerProgramId b.operations staged
  return staged.createdCoinIds ++ ids.flatten

/-- What was hashed for the identifiers of the chain. -/
def idInputs (l : Ledger) (trace : List (Ledger × Block)) : Set (List Byte) :=
  {x | ∃ chain, l.chainContext = some chain ∧ ∃ e ∈ trace,
    x ∈ e.2.idInputs chain l.state.registered}

end Ledger

/-- Operation by operation, with what each of them makes appended to what was made before. -/
theorem Provenance.operations {programs : Set ProgramId} {blocks : List Block}
    {ops operations : List BlockOperation} {made : List CoinShare} {S : Set (List Byte)}
    (h : Provenance chain programs blocks ops made staged.state)
    (hS : CollisionFree S chain programs blocks (ops ++ operations))
    (hknown : staged'.state.registered ⊆ programs) (hs : staged.state.Sound)
    (hstage : operations.foldlM (stageOperation systemApplications chain height miner) staged =
      .ok staged') :
    ∃ ids, observeOperations (BlockOperation.createdIds systemApplications chain height miner)
      systemApplications
        chain height miner operations staged = .ok (ids, staged') ∧
      Provenance chain programs blocks (ops ++ operations) (made ++ ids.flatten) staged'.state := by
  induction operations generalizing ops made staged with
  | nil =>
    cases hstage
    exact ⟨[], rfl, by simpa using h⟩
  | cons op rest ih =>
    rw [foldlM_cons, bind_eq_ok] at hstage
    obtain ⟨middle, hone, hrest⟩ := hstage
    obtain ⟨_, _, _, happlied⟩ := stageOperation_ok hs hone
    have hmiddle := (stageOperations_spares happlied.sound hrest).registered.trans hknown
    have hbefore := hS.subset (List.Subset.refl _) (subset_append_left _ _)
    obtain ⟨ids, hids, hnext⟩ := h.operation hbefore (hS.operations op (by simp))
      ((stageOperation_acts hs hone).spares.registered.trans hmiddle) hs hone
    rw [append_cons] at hS
    obtain ⟨others, hothers, hfinal⟩ := ih hnext hS happlied.sound hrest
    refine ⟨ids :: others, ?_, by simpa using hfinal⟩
    rw [observeOperations, hids, ok_bind, hone, ok_bind, hothers]
    rfl

namespace Ledger

variable {l l' : Ledger} {b : Block} {trace : List (Ledger × Block)}

theorem Commits.provenance (hl : Consistent l) (hcommits : Commits l b l') {chain : ChainContext}
    (hcontext : l'.chainContext = some chain) {blocks : List Block} {ops : List BlockOperation}
    {made : List CoinShare} {S : Set (List Byte)}
    (hS : CollisionFree S chain l'.state.registered (b :: blocks) (ops ++ b.operations))
    (hheight : ∀ b' ∈ blocks, b'.height ≠ b.height)
    (h : Provenance chain l'.state.registered blocks ops made l.state) :
    ∃ ids, l.createdIds b = .ok ids ∧
      Provenance chain l'.state.registered (b :: blocks) (ops ++ b.operations)
      (made ++ ids) l'.state := by
  obtain ⟨executed, subsidy, start, final, hrun, rfl, hstate⟩ := hcommits.executed hl hcontext
  have hregistered : l'.state.registered = final.state.registered := by
    unfold registered
    rw [hstate, hrun.same.programs]
  have hbefore := hS.subset (List.Subset.refl _) (subset_append_left _ _)
  have hemitted := h.emission hbefore hheight hrun.emission
  obtain ⟨ids, hids, hfinal⟩ := hemitted.operations hS hregistered.ge hrun.started hrun.operations
  refine ⟨start.createdCoinIds ++ ids.flatten, ?_, ?_⟩
  · simp only [createdIds, bind_eq_ok, Prod.exists, pure_eq_ok, Except.ok.injEq, hl.applications]
    exact ⟨_, hrun.context, subsidy, start, hrun.emission, ids, final, hids, rfl⟩
  · rw [← append_assoc]
    exact hfinal.of_coins (hstate ▸ hrun.same.coins)

/-- Everything that was made along the history of a ledger. -/
def Traced (l : Ledger) (trace : List (Ledger × Block)) : Prop :=
  ∀ chain S, (l.chainContext = some chain ∨ trace = []) →
    CollisionFree S chain l.state.registered (trace.map Prod.snd) (operationsOf trace) →
    ∃ created, trace.mapM (fun e => e.1.createdIds e.2) = .ok created ∧
      Provenance chain l.state.registered (trace.map Prod.snd) (operationsOf trace) created.flatten
        l.state

/-- A commit extends the provenance of a chain by what its block makes; pruning does not change it.
-/
theorem History.traced (h : History l trace) : Traced l trace := by
  refine History.keeps ?_ ?_ ?_ h
  · intro chain S _ _
    exact ⟨[], rfl, provenance_empty⟩
  · intro l b l' trace hl htraced hcommits chain S hcontext hS
    obtain ⟨hlinks, _, _⟩ := hcommits.links hl.consistent
    have hcontext' : l'.chainContext = some chain := by
      rcases hcontext with hcontext | hnil
      · exact hcontext
      · cases hnil
    have hgrow := (hcommits.spares hl.consistent hcontext').registered
    have hbefore : l.chainContext = some chain ∨ trace = [] := by
      cases hl with
      | nil _ _ => exact .inr rfl
      | cons _ hprior _ =>
        exact .inl ((hlinks.context (by rw [hprior.chain]; nofun)).symm.trans hcontext')
    have hold := hS.subset (subset_cons_self _ _) (subset_append_right _ _)
    obtain ⟨created, hcreated, hprior⟩ := htraced chain S hbefore (hold.mono hgrow)
    have hheight : ∀ b' ∈ trace.map Prod.snd, b'.height ≠ b.height :=
      fun b' hb' => ne_of_lt (hl.height_lt hlinks.next hb')
    have hall := hS.subset (List.Subset.refl _) perm_append_comm.subset
    obtain ⟨ids, hids, hnow⟩ :=
      hcommits.provenance hl.consistent hcontext' hall hheight (hprior.mono hgrow)
    refine ⟨ids :: created, ?_, hnow.perm perm_append_comm perm_append_comm⟩
    rw [mapM_cons, hids, ok_bind, hcreated]
    rfl
  · intro l m trace hagrees htraced chain S hcontext hS
    have hregistered : l.state.registered = m.state.registered := by
      unfold registered
      rw [hagrees.state.programs]
    rw [hregistered] at hS
    obtain ⟨created, hcreated, hprior⟩ := htraced chain S (hagrees.context ▸ hcontext) hS
    exact ⟨created, hcreated, hregistered ▸ hprior.of_coins hagrees.state.coins⟩

theorem History.exists_context (h : History l trace) :
    ∃ chain, l.chainContext = some chain ∨ trace = [] := by
  refine History.keeps (J := fun l trace => ∃ chain, l.chainContext = some chain ∨ trace = [])
    ⟨⟨0⟩, .inr rfl⟩ ?_ ?_ h
  · intro l b l' trace _ _ hcommits
    obtain ⟨executed, _, _, _, _, rfl⟩ := applyValidatedBlock_eq_ok.mp hcommits.applyValidatedBlock
    exact ⟨executed.chainContext, .inl rfl⟩
  · intro l m trace hagrees hm
    rw [hagrees.context]
    exact hm

theorem collisionFree_of_idInputs {chain : ChainContext} {S : Set (List Byte)}
    (hS : Set.InjOn Crypto.sha3 S) (hinputs : l.idInputs trace ⊆ S)
    (hcontext : l.chainContext = some chain ∨ trace = []) :
    CollisionFree S chain l.state.registered (trace.map Prod.snd) (operationsOf trace) := by
  rcases hcontext with hcontext | rfl
  · refine ⟨hS, ?_, ?_⟩
    · intro b hb x hx
      obtain ⟨e, he, rfl⟩ := mem_map.mp hb
      exact hinputs ⟨chain, hcontext, e, he, .inl hx⟩
    · intro op hop x hx
      obtain ⟨e, he, hop⟩ := mem_flatMap.mp hop
      exact hinputs ⟨chain, hcontext, e, he, .inr ⟨op, hop, hx⟩⟩
  · exact ⟨hS, by simp, by simp [operationsOf]⟩

/-- Along every chain of committed blocks no identifier is made twice, every live coin has been
made, and no operation is executed twice. The invariant is `Provenance`: the inputs of every
executed operation have been made and are spent. So an operation whose inputs are live is a new one,
and what it makes has not been made before. -/
theorem History.made_once (h : History l trace) (hhash : Set.InjOn Crypto.sha3 (l.idInputs trace)) :
    ∃ created, trace.mapM (fun e => e.1.createdIds e.2) = .ok created ∧ created.flatten.Nodup ∧
      (∀ share coin, l.state.utxos.coin share = some coin → share ∈ created.flatten) ∧
      (operationsOf trace).Nodup := by
  obtain ⟨chain, hcontext⟩ := h.exists_context
  have hS := collisionFree_of_idInputs hhash subset_rfl hcontext
  obtain ⟨created, hcreated, hprovenance⟩ := h.traced chain _ hcontext hS
  refine ⟨created, hcreated, hprovenance.nodup, ?_, hprovenance.distinct⟩
  intro share coin hcoin
  exact hprovenance.live share (mem_keys_iff.mpr ⟨coin, hcoin⟩)

end Ledger

end

namespace Ledger

section Sample

attribute [local instance] Crypto.checksum

/-- What the emission of a block hashes. -/
def minedInputs (b : Block) : List (List Byte) :=
  b.emission.toList.flatMap fun e => [preimage .emission (emissionOriginBytes b e),
    preimage .emission (CoinShare.emissionBytes (domain .emission (emissionOriginBytes b e)))]

/-- What a payment with one output hashes where no program is registered. -/
def paymentInputs (chain : ChainContext) (c : AuthorizationCommitment) (op : BlockOperation) :
    List (List Byte) :=
  (op.commitmentInput chain).toList ++ [outputInput c 0, outputInput c 1]

theorem emissionInputs_subset (b : Block) : b.emissionInputs ⊆ {x | x ∈ minedInputs b} := by
  rintro x ⟨e, he, hx⟩
  exact mem_flatMap.mpr ⟨e, Option.mem_toList.mpr he, by simpa using hx⟩

theorem idInputs_subset_paymentInputs {chain : ChainContext} {c : AuthorizationCommitment}
    {op : BlockOperation} {s : LedgerState} (hc : op.commitment chain = .ok c)
    (hprograms : s.programs.programs.keys = []) (hone : op.payment.outputs.length = 1) :
    op.idInputs chain s.registered ⊆ {x | x ∈ paymentInputs chain c op} := by
  rintro x (hx | ⟨c', hc', ⟨id, hid, _⟩ | ⟨index, hindex, rfl⟩⟩)
  · exact mem_append_left _ (Option.mem_toList.mpr hx)
  · change id ∈ s.programs.programs.keys at hid
    rw [hprograms] at hid
    cases hid
  · obtain rfl : c = c' := Except.ok.inj (hc.symm.trans hc')
    rw [hone] at hindex
    have hcase : index = 0 ∨ index = 1 := by
      rcases Nat.le_one_iff_eq_zero_or_eq_one.mp hindex with hzero | hone
      · exact .inl (Fin.ext hzero)
      · exact .inr (Fin.ext hone)
    rcases hcase with rfl | rfl <;> simp [paymentInputs]

/-- What is hashed on the chain with the payment. -/
def paidInputs (b₁ b : Block) (chain : ChainContext) (c : AuthorizationCommitment) :
    List (List Byte) :=
  minedInputs b ++ minedInputs b₁ ++ paymentInputs chain c (payerPayment b₁)

/-- The block with the payment makes three coins: its emission, the output and the fee. -/
theorem samplePaid_made_once : ∃ b₁ l b l' p created, samplePaid = .ok ((b₁, l), (b, l'), p) ∧
    l.createdIds b = .ok created ∧ created.Nodup ∧ created.length = 3 := by
  obtain ⟨start, b₁, l, b, l', _, _, hsample, hhistory, hpaid, _⟩ := exists_samplePaid
  have hshape : (samplePaid.toOption.any fun p => p.2.1.2.chainContext.any fun chain =>
      ((payerPayment p.1.1).commitment chain).toOption.any fun c =>
        decide (((paidInputs p.1.1 p.2.1.1 chain c).map Crypto.sha3).Nodup ∧
          p.2.1.1.operations = [payerPayment p.1.1] ∧ p.1.1.operations = [] ∧
          p.2.1.2.state.programs.programs.keys = [] ∧
          ((p.1.2.createdIds p.2.1.1).toOption.map List.length) = some 3)) = true := by
            decide +kernel
  rw [hsample] at hshape
  obtain ⟨chain, hchain, hshape⟩ :=
    Option.any_eq_true _ _ |>.mp (show l'.chainContext.any _ = true from hshape)
  obtain ⟨c, hc, hshape⟩ := exists_of_any hshape
  obtain ⟨hnodup, hops, hnone, hprograms, hlength⟩ := of_decide_eq_true hshape
  have hinputs : l'.idInputs [(l, b), (start, b₁), (Ledger.new systemApplications, sampleGenesis)] ⊆
      {x | x ∈ paidInputs b₁ b chain c} := by
    rintro x ⟨chain', hchain', e, he, hx⟩
    obtain rfl : chain = chain' := Option.some.inj (hchain.symm.trans hchain')
    simp only [mem_cons, not_mem_nil, or_false] at he
    rcases he with rfl | rfl | rfl
    · rcases hx with hx | ⟨op, hop, hx⟩
      · exact mem_append_left _ (mem_append_left _ (emissionInputs_subset _ hx))
      · rw [hops, mem_singleton] at hop
        subst hop
        exact mem_append_right _ (idInputs_subset_paymentInputs hc hprograms rfl hx)
    · rcases hx with hx | ⟨op, hop, _⟩
      · exact mem_append_left _ (mem_append_right _ (emissionInputs_subset _ hx))
      · rw [hnone] at hop
        cases hop
    · rcases hx with ⟨_, hemission, _⟩ | ⟨op, hop, _⟩
      · cases hemission
      · cases hop
  have hhash : Set.InjOn Crypto.sha3 {x | x ∈ paidInputs b₁ b chain c} :=
    fun x hx y hy => inj_on_of_nodup_map hnodup hx hy
  obtain ⟨created, hcreated, hdistinct, _⟩ :=
    History.made_once (hhistory.commit hpaid) (hhash.mono hinputs)
  simp only [mapM_cons, bind_eq_ok, pure_eq_ok, Except.ok.injEq] at hcreated
  obtain ⟨ids, hids, others, _, rfl⟩ := hcreated
  rw [hids] at hlength
  rw [flatten_cons] at hdistinct
  exact ⟨b₁, l, b, l', _, ids, hsample, hids, hdistinct.of_append_left, Option.some.inj hlength⟩

end Sample

end Ledger

end Xparq
