import Xparq.Ledger.Canonical
import Xparq.Program.Effects

/-!
# What an applied operation does

`validateCoinInputs_eq_ok` reads the validation of a payment as facts about the coins it
spends. `StagedBy` lists the steps of a staged operation once, for every later result about
blocks. From them, an operation (`StagedBy.applied`) and an emission (`applyEmission_ok`) lead to
a sound state, and their journal leads back. `executeBlock_ok` says so for a whole block.
-/

namespace Xparq

open Machine Outcome OrderedMap Selection

/-! ## Validated payments -/

/-- The signer is not a program and owns the coins the payment spends. -/
structure Spendable (payment : CoinTransition) (signer : ProgramId) (s : LedgerState)
    (coins : List (CoinShare × CoinUtxo)) : Prop where
  nodup : payment.inputs.Nodup
  unregistered : s.programs.contains signer = false
  inputs : coins.map Prod.fst = payment.inputs
  live : ∀ e ∈ coins, s.utxos.coins.get? e.1 = some e.2
  owned : ∀ e ∈ coins, e.2.owner = .program signer

theorem validateCoinInputs_eq_ok {payment : CoinTransition} {signer : ProgramId} {s : LedgerState}
    {actual : Zeno} : validateCoinInputs payment signer s = .ok actual ↔ ∃ coins,
      Spendable payment signer s coins ∧ sumCoins coins < 2 ^ 64 ∧
      sumCoins coins = payment.outputSum + payment.charges.minerFee.val + actual.val := by
  have hf : ∀ (total : Zeno) (id : CoinShare) (t : Zeno), (do
      let input ← okOr (s.utxos.coin id) ProgramConsensusError.utxoNotFound
      rejectIf (input.owner ≠ Owner.program signer) .recipientMismatch
      okOr (checkedAdd total input.amount) .zenoOverflow) = .ok t ↔
      ∃ coin, s.utxos.coins.get? id = some coin ∧ coin.owner = .program signer ∧
        t.val = total.val + coin.amount.val := by
    intro total id t
    simp [bind_eq_ok, UtxoSet.coin]
  have hsum : ∀ t : Zeno, sumAmounts (payment.outputs.map CoinOutput.amount) = some t ↔
      t.val = payment.outputSum := by
    intro t
    rw [sumAmounts, foldlM_checkedAdd, CoinTransition.outputSum, List.map_map]
    simp [Function.comp_def]
  simp only [validateCoinInputs, bind_eq_ok, rejectIf_eq_ok, not_not, Bool.not_eq_true,
    foldlM_lookup CoinUtxo.amount (fun c => c.owner = .program signer) hf, okOr_eq_ok, hsum,
    Option.bind_eq_some_iff, checkedSub_eq_some]
  have h0 : (0 : Zeno).val = 0 := rfl
  constructor
  · rintro ⟨_, hnodup, _, hunreg, inputTotal, ⟨coins, hmap, hall, hin⟩, outputTotal, hout,
      rest, hrest, hactual⟩
    have hin' : inputTotal.val = sumCoins coins := by rw [hin, h0, zero_add]; rfl
    refine ⟨coins, ⟨hnodup, hunreg, hmap, fun e he => (hall e he).1, fun e he => (hall e he).2⟩,
      hin' ▸ inputTotal.isLt, ?_⟩
    omega
  · rintro ⟨coins, ⟨hnodup, hunreg, hmap, hlive, howned⟩, hlt, hbalance⟩
    refine ⟨(), hnodup, (), hunreg, ⟨sumCoins coins, hlt⟩,
      ⟨coins, hmap, fun e he => ⟨hlive e he, howned e he⟩, by rw [h0, zero_add]; rfl⟩,
        ⟨payment.outputSum, by omega⟩, rfl,
      ⟨payment.charges.minerFee.val + actual.val, by omega⟩, ?_, ?_⟩
    · simp only
      omega
    · simp only
      omega

theorem validateExactBurn_eq_ok {actual required : Zeno} {u : Unit} :
    validateExactBurn actual required = .ok u ↔ actual = required := by
  rw [validateExactBurn, rejectIf_eq_ok, not_not]

section
variable [Crypto] {s s' : LedgerState}

variable {chain : ChainContext} {height : Height} {miner : ProgramId}
  {journal : StateRollbackJournal} {emission : ValidatedEmission}
  {coins : List (CoinShare × CoinUtxo)} {b : Block} {staged : Staged}

variable {staged' : Staged} {op : BlockOperation} {tx : AuthorizedProgramInvocation}
  {commitment : AuthorizationCommitment} {effect : LedgerState.CallEffect}
  {registry registry' : ProgramRegistry} {deploy : DeployProgram} {id : ProgramId}

theorem validateProgramCall_ok {height : U64} {apps : ApplicationExecutor}
    {prepared : PreparedProgramInvocation}
    (h : validateProgramCall tx chain height s apps = .ok prepared) :
    prepared.invocation = tx ∧ prepared.height = height ∧
      validateCoinInputs tx.payment tx.signer s = .ok prepared.requiredBurn := by
  simp only [validateProgramCall, bind_eq_ok, mapError_eq_ok, validateExactBurn_eq_ok,
    return_eq_ok] at h
  obtain ⟨_, _, _, _, _, _, _, _, _, _, _, _, _, _, _, _, actual, hactual, _, _, _, _, required, _,
    _, rfl, rfl⟩ := h
  exact ⟨rfl, rfl, hactual⟩

theorem validateDeploy_ok {signed : AuthorizedDeployProgram} {prepared : PreparedDeploy}
    (h : validateDeploy signed chain height s = .ok prepared) :
    prepared.signed = signed ∧ prepared.height = height ∧
      signed.commitment chain = .ok prepared.commitment ∧
      quoteDeployBurn signed height s = .ok (prepared.programId, prepared.requiredBurn) ∧
      validateCoinInputs signed.payment signed.deploy.owner s = .ok prepared.requiredBurn := by
  simp only [validateDeploy, bind_eq_ok, mapError_eq_ok, validateExactBurn_eq_ok,
    Prod.exists, orError_eq_ok, return_eq_ok] at h
  obtain ⟨_, _, commitment, hcommitment, _, _, id, required, hquote, actual, hactual,
    _, rfl, rfl⟩ := h
  exact ⟨rfl, rfl, hcommitment, hquote, hactual⟩

/-! ## Calls -/

/-- What a call does besides its payment, as its journals record it. -/
structure CallDid (s : LedgerState) (effect : LedgerState.CallEffect) (s' : LedgerState) :
    Prop where
  net : NetChange effect.coin.consumedCoins effect.coin.createdCoinIds s.utxos.coins s'.utxos.coins
  coin : s'.coin = s.coin
  totalValue : s'.utxos.totalValue = s.utxos.totalValue
  program : ProgramUndoes effect.program s'.programs s.programs
  extension : ExtensionUndoes effect.extension s'.assets s.assets
  sound : s'.Sound
  owned : ∀ c ∈ effect.coin.consumedCoins, ∃ id, s.programs.contains id = true ∧
    c.2.owner = .program id

omit [Crypto] in
theorem VmEffect.callDid {applied : AppliedVm} (h : VmEffect s applied s') :
    CallDid s ⟨applied.coin, applied.program, applied.asset⟩ s' := by
  refine ⟨h.net, h.coin, h.totalValue, h.program, h.extension, h.sound, ?_⟩
  intro c hc
  obtain ⟨id, hid, howner⟩ := h.owned c hc
  exact ⟨id, h.registered id hid, howner⟩

omit [Crypto] in
theorem callDid_of_assets {assets : AssetState} {extension : Option AssetJournal}
    (hs : LedgerState.Sound { s with assets }) (hext : ExtensionUndoes extension assets s.assets) :
    CallDid s ⟨.empty, none, extension⟩ { s with assets } :=
  ⟨NetChange.refl _, rfl, rfl, rfl, hext, hs, by simp [CoinRollbackJournal.empty]⟩

theorem applyCall_cases {height : U64}
    (h : s.applyCall tx height commitment chain systemApplications = .ok (effect, s')) :
    (effect = ⟨.empty, none, none⟩ ∧ s' = s) ∨
    (∃ applied, applyVm s tx height commitment systemApplications = .ok (applied, s') ∧
      effect = ⟨applied.coin, applied.program, applied.asset⟩) ∨
    ∃ call digest journal assets,
      AssetState.apply call ⟨.program tx.signer, digest⟩ s.assets = (.ok journal, assets) ∧
      effect = ⟨.empty, none, some journal⟩ ∧ s' = { s with assets } := by
  simp only [LedgerState.applyCall, bind_eq_ok, orError_eq_ok] at h
  obtain ⟨decoded, _, h⟩ := h
  cases decoded with
  | xpqTransfer =>
    cases h
    exact .inl ⟨rfl, rfl⟩
  | vm call =>
    simp only [bind_eq_ok, Prod.exists, orError_eq_ok, return_eq_ok, Prod.mk.injEq] at h
    obtain ⟨applied, t, hvm, rfl, rfl⟩ := h
    exact .inr (.inl ⟨applied, hvm, rfl⟩)
  | asset call =>
    simp only [bind_eq_ok, Prod.exists, orError_eq_ok, okOr_eq_ok, executeAsset_system,
      InPlace.staged_eq_ok, return_eq_ok, Prod.mk.injEq] at h
    obtain ⟨bytes, _, journal, assets, happly, rfl, rfl⟩ := h
    exact .inr (.inr ⟨call, _, journal, assets, happly, rfl, rfl⟩)

theorem applyCall_did {height : U64} (hs : s.Sound)
    (h : s.applyCall tx height commitment chain systemApplications = .ok (effect, s')) :
    CallDid s effect s' := by
  rcases applyCall_cases h with
    ⟨rfl, rfl⟩ | ⟨applied, hvm, rfl⟩ | ⟨call, _, journal, assets, happly, rfl, rfl⟩
  · exact callDid_of_assets hs ⟨rfl, rfl⟩
  · exact (applyVm_effect hs hvm).callDid
  · exact callDid_of_assets ⟨hs.utxos, hs.coin, hs.indexed.apply happly, hs.supplied.apply happly,
      hs.summarized.apply happly⟩ (AssetState.apply_undoes happly)

theorem Paid.sound {intent : CoinTransition} {burn : Zeno}
    (h : Paid s intent commitment miner coins burn s') (hs : s.Sound) : s'.Sound := by
  refine ⟨h.wellFormed hs.utxos, ?_, h.assets ▸ hs.indexed, h.assets ▸ hs.supplied,
    h.assets ▸ hs.summarized⟩
  have hcoin := hs.coin
  have htotal := h.totalValue
  have hburned := h.burned
  rw [h.mined]
  omega

/-- What the applied operation did: a sound state, the way back, and the burn. -/
structure Applied (s : LedgerState) (journal : StateRollbackJournal) (burn : Zeno)
    (s' : LedgerState) : Prop where
  sound : s'.Sound
  undoes : journal.Undoes s' s
  burned : s'.coin.totalBurned.val = s.coin.totalBurned.val + burn.val
  journal_burn : journal.protocolBurn = burn
  totalValue : s'.utxos.totalValue.val + burn.val = s.utxos.totalValue.val

omit [Crypto] in
/-- Coins that the signer can spend were not created by the call itself. -/
theorem CallDid.spendable_notMem (h : CallDid s effect s')
    {payment : CoinTransition} {signer : ProgramId} (hspend : Spendable payment signer s coins) :
    ∀ k ∈ payment.inputs, k ∉ effect.coin.createdCoinIds := by
  intro k hk hcreated
  rw [← hspend.inputs] at hk
  obtain ⟨e, he, rfl⟩ := List.mem_map.mp hk
  have hlive := hspend.live e he
  by_cases hremoved : e.1 ∈ effect.coin.consumedCoins.map Prod.fst
  · -- a coin the call consumed belonged to a program, and the signer is none
    obtain ⟨c, hc, hfst⟩ := List.mem_map.mp hremoved
    have hstart := h.net.removed_start c hc
    rw [hfst, hlive, Option.some.injEq] at hstart
    obtain ⟨id, hid, howner⟩ := h.owned c hc
    rw [← hstart, hspend.owned e he] at howner
    cases howner
    rw [hspend.unregistered] at hid
    cases hid
  · rw [h.net.added_start e.1 hcreated hremoved] at hlive
    cases hlive

/-! ## Deployments -/

theorem deployProgram_ok {journal : ProgramJournal}
    (h : deployProgram registry deploy height = .ok (id, journal, registry')) :
    ∃ record, prepareDeployment deploy height = .ok (id, record) ∧
      registry.programs.get? id = none ∧
      registry.deployments.get? (toLex (record.owner, record.nonce)) = none ∧ journal = .deploy id ∧
      registry' = ⟨registry.programs.insert id record,
        registry.deployments.insert (toLex (record.owner, record.nonce)) ()⟩ := by
  simp only [deployProgram, bind_eq_ok, Prod.exists, mapError_eq_ok, ProgramRegistry.insert_eq_ok,
    return_eq_ok, Prod.mk.injEq] at h
  obtain ⟨id', record, hprepare, r, ⟨hfree, hunused, rfl⟩, rfl, rfl, rfl⟩ := h
  exact ⟨record, hprepare, hfree, hunused, rfl, rfl⟩

theorem deployProgram_undoes {journal : ProgramJournal}
    (h : deployProgram registry deploy height = .ok (id, journal, registry')) :
    ProgramUndoes (some journal) registry' registry := by
  obtain ⟨record, _, hfree, hunused, rfl, rfl⟩ := deployProgram_ok h
  simp only [ProgramUndoes, rollbackProgram, ProgramRegistry.remove, get?_insert, if_true]
  simp [erase_insert hfree, erase_insert hunused, okOr]

/-! ## Emission -/

theorem validateEmission_ok (h : validateEmission b = .ok emission) :
    emission.minerEmission.val + emission.protocolBurn.val = emission.subsidy.val ∧
      b.emission = some ⟨emission.recipient, emission.subsidy⟩ ∧
      expectedEmissionForOperations b.height b.operations = .ok emission.subsidy ∧
      emission.protocolBurn = minerProtocolBurn ∧
      emission.origin = domain .emission (emissionOriginBytes b ⟨emission.recipient,
      emission.subsidy⟩) := by
  simp only [validateEmission, bind_eq_ok, okOr_eq_ok, rejectIf_eq_ok, not_not, checkedSub_eq_some,
    emissionOrigin, exceptMap_eq_ok, return_eq_ok] at h
  obtain ⟨e, he, expected, hexpected, _, rfl, minerEmission, hminer, origin, ⟨e', he', rfl⟩, rfl⟩ :=
    h
  obtain rfl : e = e' := Option.some.inj (he.symm.trans he')
  exact ⟨hminer, he, hexpected, rfl, rfl⟩

/-- The coins an emission creates. -/
def emissionCoins (emission : ValidatedEmission) : List (CoinShare × CoinUtxo) :=
  if emission.minerEmission = 0 then []
  else [(CoinShare.fromEmission emission.origin,
    ⟨emission.minerEmission, .program emission.recipient⟩)]

theorem emissionCoin_ok {utxos utxos' : UtxoSet} {ids : List CoinShare}
    (h : emissionCoin utxos emission = .ok (ids, utxos')) :
    ids = (emissionCoins emission).map Prod.fst ∧
      (∀ id ∈ (emissionCoins emission).map Prod.fst, utxos.coins.get? id = none) ∧
      utxos'.coins = utxos.coins.insertAll (emissionCoins emission) ∧
      utxos'.totalValue.val = utxos.totalValue.val + emission.minerEmission.val ∧
      (utxos.WellFormed → utxos'.WellFormed) := by
  unfold emissionCoin at h
  unfold emissionCoins
  split_ifs at h ⊢ with hzero
  · cases h
    refine ⟨rfl, by simp, rfl, ?_, fun hwf => hwf⟩
    rw [hzero]
    rfl
  · rw [exceptMap_eq_ok] at h
    obtain ⟨utxos₁, hinsert, heq⟩ := h
    cases heq
    rw [mapError_eq_ok] at hinsert
    obtain ⟨_, hfresh, hcoins, htotal, _⟩ := UtxoSet.insertCoin_ok hinsert
    exact ⟨rfl, by simpa using hfresh, hcoins, htotal, fun hwf => hwf.insertCoin hinsert⟩

theorem nodup_emissionCoins (emission : ValidatedEmission) :
    ((emissionCoins emission).map Prod.fst).Nodup := by
  unfold emissionCoins
  split_ifs <;> simp

/-- What an applied emission did. -/
structure Emitted (s : LedgerState) (emission : ValidatedEmission) (journal : StateRollbackJournal)
    (s' : LedgerState) : Prop where
  coins : s'.utxos.coins = s.utxos.coins.insertAll (emissionCoins emission)
  fresh : ∀ id ∈ (emissionCoins emission).map Prod.fst, s.utxos.coins.get? id = none
  totalValue : s'.utxos.totalValue.val = s.utxos.totalValue.val + emission.minerEmission.val
  mined : s'.coin.totalMined.val = s.coin.totalMined.val + emission.subsidy.val
  burned : s'.coin.totalBurned.val = s.coin.totalBurned.val + emission.protocolBurn.val
  programs : s'.programs = s.programs
  assets : s'.assets = s.assets
  wellFormed : s.utxos.WellFormed → s'.utxos.WellFormed
  journal : journal = ⟨some ⟨[], (emissionCoins emission).map Prod.fst, emission.subsidy,
    emission.protocolBurn⟩, none, none⟩

theorem applyEmission_ok (h : applyEmission s emission = .ok (journal, s')) :
    Emitted s emission journal s' := by
  simp only [applyEmission, bind_eq_ok, Prod.exists, okOr_eq_ok, checkedAdd_eq_some, mapError_eq_ok,
    LedgerState.recordProtocolBurn, return_eq_ok, Prod.mk.injEq] at h
  obtain ⟨ids, utxos, hcoin, totalMined, hmined, state, coin, ⟨totalBurned, hburned, journalBurned,
    hjournal, rfl, rfl⟩, rfl, rfl⟩ := h
  obtain ⟨rfl, hfresh, hcoins, htotal, hwf⟩ := emissionCoin_ok hcoin
  have hburn : journalBurned = emission.protocolBurn := by
    apply Fin.ext
    rw [hjournal]
    simp [CoinRollbackJournal.empty]
  exact ⟨hcoins, hfresh, htotal, hmined, hburned, rfl, rfl, hwf, by rw [hburn]; rfl⟩

theorem Emitted.sound (h : Emitted s emission journal s') (hs : s.Sound)
    (hsplit : emission.minerEmission.val + emission.protocolBurn.val = emission.subsidy.val) :
    s'.Sound := by
  refine ⟨h.wellFormed hs.utxos, ?_, h.assets ▸ hs.indexed, h.assets ▸ hs.supplied,
    h.assets ▸ hs.summarized⟩
  have hcoin := hs.coin
  rw [h.totalValue, h.mined, h.burned]
  omega

theorem Emitted.undoes (h : Emitted s emission journal s') : journal.Undoes s' s := by
  rw [h.journal]
  refine ⟨⟨_, rfl, ?_, h.mined.symm, h.burned.symm⟩, h.programs, ?_⟩
  · rw [h.coins]
    exact NetChange.inserted (nodup_emissionCoins emission) h.fresh
  · rw [h.assets]
    exact ⟨rfl, rfl⟩

/-! ## Blocks -/

open LedgerState

/-- How an operation is staged: its payment is validated on the state before it, a call takes
effect, the payment is made, a program is deployed, and the supply check changes nothing more. -/
inductive StagedBy (chain : ChainContext) (height : Height) (miner : ProgramId) (s : LedgerState) :
    BlockOperation → StateRollbackJournal → LedgerState → Prop
  | call {tx : AuthorizedProgramInvocation} {prepared : PreparedProgramInvocation}
      {effect : CallEffect} {commitment : AuthorizationCommitment}
      {spent coins : List (CoinShare × CoinUtxo)} {burn : Zeno} {s₁ s₂ s' : LedgerState}
      (hvalid : validateProgramCall tx chain height s systemApplications = .ok prepared)
      (hspend : Spendable tx.payment tx.signer s spent)
      (hcommitment : programInvocationCommitment tx.signer tx.call tx.payment chain =
        .ok commitment)
      (hcall : s.applyCall tx height commitment chain systemApplications = .ok (effect, s₁))
      (hdid : CallDid s effect s₁)
      (hpay : executeCoinProgram s₁ tx.payment commitment miner systemApplications =
        .ok (paymentJournal tx.payment commitment miner coins burn, s₂))
      (hpaid : Paid s₁ tx.payment commitment miner coins burn s₂) (hs' : s'.Sound)
      (hsame : Same s' s₂) :
      StagedBy chain height miner s (.programCall tx)
        ⟨some ⟨coins ++ effect.coin.consumedCoins,
          (outputCoins commitment 0 (tx.payment.allOutputs miner)).map Prod.fst ++
            effect.coin.createdCoinIds, 0, burn⟩,
          effect.program, effect.extension⟩ s'
  | deploy {signed : AuthorizedDeployProgram} {prepared : PreparedDeploy}
      {spent coins : List (CoinShare × CoinUtxo)} {burn : Zeno} {id : ProgramId}
      {program : ProgramJournal} {programs : ProgramRegistry} {s₁ s' : LedgerState}
      (hvalid : validateDeploy signed chain height s = .ok prepared)
      (hspend : Spendable signed.payment signed.deploy.owner s spent)
      (hpay : executeCoinProgram s signed.payment prepared.commitment miner systemApplications =
        .ok (paymentJournal signed.payment prepared.commitment miner coins burn, s₁))
      (hpaid : Paid s signed.payment prepared.commitment miner coins burn s₁)
      (hdeploy : deployProgram s.programs signed.deploy height = .ok (id, program, programs))
      (hs' : s'.Sound) (hsame : Same s' { s₁ with programs }) :
      StagedBy chain height miner s (.deployProgram signed)
        ⟨some (paymentJournal signed.payment prepared.commitment miner coins burn), some program,
          none⟩ s'

theorem stageOperation_by (hs : staged.state.Sound)
    (h : stageOperation systemApplications chain height miner staged op = .ok staged') :
    ∃ journal, staged'.journals = staged.journals ++ [journal] ∧
      StagedBy chain height miner staged.state op journal staged'.state := by
  cases op with
  | programCall tx =>
    simp only [stageOperation, applyPreparedProgramCall, bind_eq_ok, Prod.exists, mapError_eq_ok,
      orError_eq_ok, return_eq_ok, Prod.mk.injEq] at h
    obtain ⟨prepared, hvalid, _, _, _, _, journal, state,
      ⟨commitment, hcommitment, effect, s₁, hcall, coin, s₂, hpay, s₃, hsupply, rfl, rfl⟩, rfl⟩ := h
    obtain ⟨rfl, rfl, hinputs⟩ := validateProgramCall_ok hvalid
    obtain ⟨spent, hspend, _⟩ := validateCoinInputs_eq_ok.mp hinputs
    have hdid := applyCall_did hs hcall
    obtain ⟨coins, burn, rfl, hpaid⟩ := executeCoinProgram_ok hpay
    obtain ⟨hs₃, hsame⟩ := (hpaid.sound hdid.sound).validateSupplyInvariants hsupply
    exact ⟨_, rfl, .call hvalid hspend hcommitment hcall hdid hpay hpaid hs₃ hsame⟩
  | deployProgram signed =>
    simp only [stageOperation, applyPreparedDeploy, bind_eq_ok, Prod.exists, mapError_eq_ok,
      orError_eq_ok, return_eq_ok, Prod.mk.injEq] at h
    obtain ⟨prepared, hvalid, _, _, _, _, journal, state,
      ⟨coin, s₁, hpay, id, program, programs, hdeploy, _, _, s₂, hsupply, rfl, rfl⟩, rfl⟩ := h
    obtain ⟨rfl, rfl, _, _, hinputs⟩ := validateDeploy_ok hvalid
    obtain ⟨spent, hspend, _⟩ := validateCoinInputs_eq_ok.mp hinputs
    obtain ⟨coins, burn, rfl, hpaid⟩ := executeCoinProgram_ok hpay
    obtain ⟨hs₂, hsame⟩ := ((hpaid.sound hs).withPrograms programs).validateSupplyInvariants hsupply
    exact ⟨_, rfl, .deploy hvalid hspend hpay hpaid (hpaid.programs ▸ hdeploy) hs₂ hsame⟩

theorem StagedBy.applied (h : StagedBy chain height miner s op journal s') :
    ∃ burn, Applied s journal burn s' := by
  cases h with
  | @call _ _ _ _ _ _ burn _ _ _ _ hspend _ _ hdid _ hpaid hs' hsame =>
    have hnet := hdid.net.trans hpaid.netChange (by
      rw [hpaid.inputs_eq]
      exact hdid.spendable_notMem hspend)
    have hburned := hpaid.burned
    have htotal := hpaid.totalValue
    rw [hdid.coin] at hburned
    rw [hdid.totalValue] at htotal
    refine ⟨burn, hs', hsame.undoes ⟨⟨_, rfl, hnet, ?_, hburned.symm⟩, ?_, ?_⟩, ?_, rfl, ?_⟩
    · change _ + 0 = _
      rw [hpaid.mined, hdid.coin, add_zero]
    · rw [hpaid.programs]
      exact hdid.program
    · rw [hpaid.assets]
      exact hdid.extension
    · rw [hsame.coin]
      exact hburned
    · rw [hsame.totalValue]
      exact htotal
  | @deploy _ _ _ _ burn _ _ _ _ _ _ _ _ hpaid hdeploy hs' hsame =>
    refine ⟨burn, hs', hsame.undoes ⟨⟨_, rfl, hpaid.netChange, ?_, hpaid.burned.symm⟩,
      deployProgram_undoes hdeploy, ?_⟩, ?_, rfl, ?_⟩
    · change _ + 0 = _
      rw [hpaid.mined, add_zero]
    · rw [hpaid.assets]
      exact ⟨rfl, rfl⟩
    · rw [hsame.coin]
      exact hpaid.burned
    · rw [hsame.totalValue]
      exact hpaid.totalValue

theorem stageOperation_ok (hs : staged.state.Sound)
    (h : stageOperation systemApplications chain height miner staged op = .ok staged') :
    ∃ journal burn, staged'.journals = staged.journals ++ [journal] ∧
      Applied staged.state journal burn staged'.state := by
  obtain ⟨journal, hjournals, hstaged⟩ := stageOperation_by hs h
  obtain ⟨burn, happlied⟩ := hstaged.applied
  exact ⟨journal, burn, hjournals, happlied⟩

theorem stageEmission_ok {subsidy : Zeno} (hs : s.Sound)
    (h : stageEmission s b = .ok (subsidy, staged)) :
    staged.state.Sound ∧ JournalsUndo staged.journals staged.state s := by
  unfold stageEmission at h
  split_ifs at h
  · cases h
    exact ⟨hs, .nil (.refl s)⟩
  · simp only [bind_eq_ok, Prod.exists, mapError_eq_ok, return_eq_ok, Prod.mk.injEq] at h
    obtain ⟨emission, hvalid, journal, state, happly, rfl, rfl⟩ := h
    have hemitted := applyEmission_ok happly
    have hsound := hemitted.sound hs (validateEmission_ok hvalid).1
    have hundo : JournalsUndo ([] ++ [journal]) state s := .snoc hemitted.undoes hs (.nil (.refl s))
    exact ⟨hsound, hundo⟩

theorem stageOperations_ok {operations : List BlockOperation} (hs : staged.state.Sound)
    (hundo : JournalsUndo staged.journals staged.state s)
    (h : operations.foldlM (stageOperation systemApplications chain height miner) staged =
      .ok staged') :
    staged'.state.Sound ∧ JournalsUndo staged'.journals staged'.state s := by
  refine foldlM_invariant (fun staged => staged.state.Sound ∧
    JournalsUndo staged.journals staged.state s)
    ?_ ⟨hs, hundo⟩ h
  rintro staged staged' op _ ⟨hs, hundo⟩ hstep
  obtain ⟨journal, burn, hjournals, happlied⟩ := stageOperation_ok hs hstep
  rw [hjournals]
  exact ⟨happlied.sound, .snoc happlied.undoes hs hundo⟩

/-- How a block is executed: the emission is staged, then the operations, and the supply check
changes nothing more. The state is sound and the journals lead back. -/
structure Ledger.ExecutedBy (l : Ledger) (b : Block) (executed : ExecutedBlock) (subsidy : Zeno)
    (start final : Staged) : Prop where
  context : l.contextFor b = .ok executed.chainContext
  emission : stageEmission l.state b = .ok (subsidy, start)
  started : start.state.Sound
  operations : b.operations.foldlM (stageOperation systemApplications executed.chainContext b.height
    b.minerProgramId)
    start = .ok final
  journals : executed.journals = final.journals
  same : Same executed.state final.state
  sound : executed.state.Sound
  undo : JournalsUndo executed.journals executed.state l.state
  root : executed.state.applicationStateRoot = .ok executed.stateRoot

theorem executeBlock_ok {l : Ledger} {executed : ExecutedBlock}
    (hsys : l.applications = systemApplications) (hs : l.state.Sound)
    (h : l.executeBlock b = .ok executed) :
    ∃ subsidy start final, l.ExecutedBy b executed subsidy start final := by
  simp only [Ledger.executeBlock, bind_eq_ok, Prod.exists, return_eq_ok, hsys] at h
  obtain ⟨_, _, _, _, _, _, _, _, _, hcontext, subsidy, start, hemission, final, hoperations, _,
    _, state, hvalid, root, hroot, rfl⟩ := h
  obtain ⟨hs₁, hundo₁⟩ := stageEmission_ok hs hemission
  obtain ⟨hs₂, hundo₂⟩ := stageOperations_ok hs₁ hundo₁ hoperations
  obtain ⟨hs₃, hsame⟩ := hs₂.validateSupplyInvariants hvalid
  exact ⟨subsidy, start, final, hcontext, hemission, hs₁, hoperations, rfl, hsame, hs₃,
    hsame.journalsUndo hundo₂, hroot⟩

end

end Xparq
