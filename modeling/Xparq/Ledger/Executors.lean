import Xparq.Ledger.AssetView
import Xparq.Ledger.Origins

/-!
# Arbitrary application executors

An application is handed a host and may do anything with it: leave requests out, repeat or
reorder them, ask for something else, go on after a refusal, and report success or failure as
it likes. Here the payment is modelled with the state it leaves behind in every case
(`executeCoinProgramInPlace`), and `CoinHosted` is what the host keeps whatever it is asked.

A reported success is the payment itself and a failure leaves the state as it was
(`executeCoinProgramInPlace_cases`), as long as no live input of the payment has the identifier of
one of its own outputs. On a chain that is so, because such a coin would have been made before by
the same payment (`Ledger.Staging.apart`). For assets no such condition is needed
(`executeAsset_cases`).
-/

namespace Xparq

open Machine Outcome OrderedMap RequestTree Selection List

/-! ## The state after a payment, successful or not -/

namespace LedgerState

/-- Change the coins entry by entry, up to the first failure. -/
def changeEach {α : Type} (change : UtxoSet → α → Except UtxoError UtxoSet) :
    List α → InPlace LedgerState StateError Unit
  | [] => pure ()
  | entry :: rest => do
      InPlace.atomic fun s => ((change s.utxos entry).mapError StateError.utxo).map fun utxos =>
        ((), { s with utxos })
      changeEach change rest

/-- Take the listed coins out one by one. -/
def consumeEach : List CoinShare → InPlace LedgerState StateError Unit :=
  changeEach fun utxos id => (utxos.consumeCoin id).map Prod.snd

/-- Put the listed coins back one by one. -/
def insertEach : List (CoinShare × CoinUtxo) → InPlace LedgerState StateError Unit :=
  changeEach fun utxos e => utxos.insertCoin e.1 e.2

/-- `rollback_coin`, with the state that a failure part-way leaves. -/
def rollbackCoinInPlace (journal : CoinRollbackJournal) : InPlace LedgerState StateError Unit := do
  let s ← InPlace.read
  let totalMined ← InPlace.check (okOr (checkedSub s.coin.totalMined journal.mined) .amountOverflow)
  let totalBurned ← InPlace.check
    (okOr (checkedSub s.coin.totalBurned journal.burned) .burnUnderflow)
  InPlace.check (rejectIf (¬ journal.createdCoinIds.Nodup ∨
    ∃ id ∈ journal.createdCoinIds, s.utxos.coin id = none) .invalidTransition)
  InPlace.check (rejectIf (¬ (journal.consumedCoins.map Prod.fst).Nodup ∨
    ∃ e ∈ journal.consumedCoins, s.utxos.coin e.1 ≠ none ∧ e.1 ∉ journal.createdCoinIds)
      .invalidTransition)
  InPlace.update fun s => { s with coin := ⟨totalMined, totalBurned⟩ }
  consumeEach journal.createdCoinIds
  insertEach journal.consumedCoins

theorem staged_changeEach {α : Type} (change : UtxoSet → α → Except UtxoError UtxoSet)
    (entries : List α) (s : LedgerState) : (changeEach change entries).staged s =
      ((entries.foldlM change s.utxos).mapError StateError.utxo).map fun utxos =>
      ((), { s with utxos }) := by
  induction entries generalizing s with
  | nil => rfl
  | cons entry rest ih =>
    rw [changeEach, InPlace.staged_bind, InPlace.staged_atomic, foldlM_cons]
    cases hc : change s.utxos entry with
    | error e => rfl
    | ok utxos => exact ih { s with utxos }

theorem staged_rollbackCoinInPlace (journal : CoinRollbackJournal) (s : LedgerState) :
    (rollbackCoinInPlace journal).staged s = (s.rollbackCoin journal).map fun s => ((), s) := by
  have hmoves : ∀ coin : CoinRecord, (consumeEach journal.createdCoinIds >>= fun _ =>
      insertEach journal.consumedCoins).staged { s with coin } = (do
        let utxos ← (consumeAll s.utxos journal.createdCoinIds).mapError StateError.utxo
        let utxos ← (insertAll utxos journal.consumedCoins).mapError StateError.utxo
        return ((), { s with utxos, coin })) := by
    intro coin
    rw [InPlace.staged_bind, consumeEach, staged_changeEach]
    change ((consumeAll s.utxos journal.createdCoinIds).mapError StateError.utxo).map _ >>= _ = _
    cases consumeAll s.utxos journal.createdCoinIds with
    | error e => rfl
    | ok utxos =>
      refine (staged_changeEach _ _ { s with utxos, coin }).trans ?_
      change ((insertAll utxos journal.consumedCoins).mapError StateError.utxo).map _ =
        (insertAll utxos journal.consumedCoins).mapError StateError.utxo >>= _
      cases insertAll utxos journal.consumedCoins <;> rfl
  simp only [rollbackCoinInPlace, rollbackCoin, InPlace.staged_read_bind, InPlace.staged_check_bind,
    InPlace.staged_update_bind, hmoves, exceptMap_bind]
  rfl

end LedgerState

section
variable [Crypto]

open LedgerState

/-- `finish_coin_transition`. -/
def finishCoinTransition (journal : CoinRollbackJournal) :
    Except StateError Unit → InPlace LedgerState StateError CoinRollbackJournal
  | .ok () => pure journal
  | .error e => do
      rollbackCoinInPlace journal
      InPlace.check (.error e)

/-- The kernel's own check of what the application did. -/
def checkCoinTransition (intent : CoinTransition) (payment : BoundPayment)
    (journal : CoinRollbackJournal) : Except StateError Unit :=
  rejectIf (journal.consumedCoins.length ≠ intent.inputs.length ∨
    journal.createdCoinIds.length ≠ intent.outputs.length + (if intent.charges.minerFee = 0
      then 0 else 1) ∨
    journal.burned ≠ payment.expectedBurn) .invalidTransition

/-- `execute_coin_program_with_applications`, with the state it leaves in every case. -/
def executeCoinProgramInPlace (intent : CoinTransition) (commitment : AuthorizationCommitment)
    (miner : ProgramId) (apps : ApplicationExecutor) :
    InPlace LedgerState StateError CoinRollbackJournal :=
  fun s => match bindPayment s intent commitment miner with
    | .error e => finishCoinTransition .empty (.error e) s
    | .ok payment =>
      let (result, host) := (apps.executeCoin intent.inputs intent.outputPairs miner
        intent.charges.minerFee).serve (kernelCoinHost payment) ⟨s, .empty⟩
      finishCoinTransition host.journal (do
        result.mapError StateError.ofTransfer
        checkCoinTransition intent payment host.journal) host.state

theorem staged_executeCoinProgramInPlace (intent : CoinTransition)
    (commitment : AuthorizationCommitment) (miner : ProgramId) (apps : ApplicationExecutor)
    (s : LedgerState) :
    (executeCoinProgramInPlace intent commitment miner apps).staged s =
      executeCoinProgram s intent commitment miner apps := by
  have hfinish : ∀ (journal : CoinRollbackJournal) (e : StateError) (s : LedgerState),
      (finishCoinTransition journal (.error e)).staged s =
        s.rollbackCoin journal >>= fun _ =>
          (throw e : Except StateError (CoinRollbackJournal × LedgerState)) := by
    intro journal e s
    rw [finishCoinTransition, InPlace.staged_bind, staged_rollbackCoinInPlace]
    cases s.rollbackCoin journal <;> rfl
  have hempty : ∀ s : LedgerState, ∃ s', s.rollbackCoin .empty = .ok s' := by
    intro s
    simp [LedgerState.rollbackCoin, bind_eq_ok, CoinRollbackJournal.empty, LedgerState.consumeAll,
      LedgerState.insertAll]
  cases hbind : bindPayment s intent commitment miner with
  | error e =>
    obtain ⟨s', hs'⟩ := hempty s
    have hrun : executeCoinProgramInPlace intent commitment miner apps s =
        finishCoinTransition .empty (.error e) s := by
      rw [executeCoinProgramInPlace, hbind]
    have hstaged := hfinish .empty e s
    rw [hs', ok_bind, throw_eq_error] at hstaged
    rw [executeCoinProgram, hbind, error_bind, ← hstaged, InPlace.staged, InPlace.staged, hrun]
  | ok payment =>
    rw [executeCoinProgram, hbind, ok_bind]
    rcases hserve : (apps.executeCoin intent.inputs intent.outputPairs miner
      intent.charges.minerFee).serve
      (kernelCoinHost payment) ⟨s, .empty⟩ with ⟨result, host⟩
    have hrun : executeCoinProgramInPlace intent commitment miner apps s =
        finishCoinTransition host.journal (result.mapError StateError.ofTransfer >>= fun _ =>
          checkCoinTransition intent payment host.journal) host.state := by
      simp only [executeCoinProgramInPlace, hbind, hserve]
    rw [InPlace.staged, hrun]
    cases hr : (result.mapError StateError.ofTransfer >>= fun _ =>
      checkCoinTransition intent payment host.journal) with
    | ok u =>
      rw [checkCoinTransition] at hr
      dsimp only
      rw [hr]
      rfl
    | error e =>
      rw [checkCoinTransition] at hr
      dsimp only
      rw [hr]
      exact hfinish host.journal e host.state

/-! ## What the coin host keeps -/

/-- Whatever a host bound to the payment was asked: its journal is the net change of the coins, only
inputs were consumed, only outputs of the payment were created, and at most the burn was recorded.
-/
structure CoinHosted (s : LedgerState) (p : BoundPayment) (host : CoinHostState) : Prop where
  net : NetChange host.journal.consumedCoins host.journal.createdCoinIds s.utxos.coins
    host.state.utxos.coins
  wellFormed : host.state.utxos.WellFormed
  inputs : ∀ e ∈ host.journal.consumedCoins, e.1 ∈ p.allowedInputs
  outputs : ∀ id ∈ host.journal.createdCoinIds, ∃ index o, id = .fromOutput p.commitment index ∧
    p.outputAt index = some o ∧ host.state.utxos.coins.get? id = some ⟨o.2, o.1⟩
  mined : host.state.coin.totalMined = s.coin.totalMined ∧ host.journal.mined = 0
  burned : host.state.coin.totalBurned.val = s.coin.totalBurned.val + host.journal.burned.val
  programs : host.state.programs = s.programs
  assets : host.state.assets = s.assets

variable {s : LedgerState} {p : BoundPayment} {host : CoinHostState}

theorem coinHosted_start (hwf : s.utxos.WellFormed) : CoinHosted s p ⟨s, .empty⟩ where
  net := NetChange.refl _
  wellFormed := hwf
  inputs _ h := absurd h not_mem_nil
  outputs _ h := absurd h not_mem_nil
  mined := ⟨rfl, rfl⟩
  burned := rfl
  programs := rfl
  assets := rfl

/-- No output of the payment has the identifier of an input. -/
def BoundPayment.Apart (p : BoundPayment) : Prop :=
  ∀ index o, p.outputAt index = some o → CoinShare.fromOutput p.commitment index ∉ p.allowedInputs

variable {utxos : UtxoSet} {index : U32} {amount : Zeno}

theorem CoinHosted.consume (h : CoinHosted s p host) (hp : p.Apart) {id : CoinShare}
    {coin : CoinUtxo} (hid : id ∈ p.allowedInputs)
    (hc : host.state.utxos.consumeCoin id = .ok (coin, utxos)) :
    CoinHosted s p (host.consumed [(id, coin)] utxos) := by
  obtain ⟨hlive, hcoins, _, _⟩ := UtxoSet.consumeCoin_ok hc
  have hnew : id ∉ host.journal.createdCoinIds := by
    intro hmem
    obtain ⟨index, o, rfl, hat, _⟩ := h.outputs id hmem
    exact hp index o hat hid
  have hnet := h.net.remove_kept hlive hnew
  rw [← hcoins] at hnet
  refine ⟨?_, h.wellFormed.consumeCoin hc, ?_, ?_, h.mined, h.burned, h.programs, h.assets⟩
  · exact hnet.perm (perm_append_singleton _ _) (.refl _)
  · intro e he
    rcases mem_append.mp he with he | he
    · exact h.inputs e he
    · rw [mem_singleton.mp he]
      exact hid
  · intro id' hid'
    obtain ⟨index, o, rfl, hat, hget⟩ := h.outputs id' hid'
    refine ⟨index, o, rfl, hat, ?_⟩
    change utxos.coins.get? _ = _
    rw [hcoins, get?_erase, if_neg (ne_of_mem_of_not_mem hid' hnew)]
    exact hget

theorem CoinHosted.create (h : CoinHosted s p host) {owner : Owner}
    (hat : p.outputAt index = some (owner, amount))
    (hc : host.state.utxos.insertCoin (.fromOutput p.commitment index) ⟨amount, owner⟩ =
      .ok utxos) :
    CoinHosted s p (host.created [.fromOutput p.commitment index] utxos) := by
  obtain ⟨_, hfresh, hcoins, _, _⟩ := UtxoSet.insertCoin_ok hc
  have hnet := h.net.add hfresh ⟨amount, owner⟩
  rw [← hcoins] at hnet
  refine ⟨?_, h.wellFormed.insertCoin hc, h.inputs, ?_, h.mined, h.burned, h.programs, h.assets⟩
  · exact hnet.perm (.refl _) (perm_append_singleton _ _)
  · intro id hid
    change ∃ index' o, _ ∧ _ ∧ utxos.coins.get? id = _
    rw [hcoins, get?_insert]
    rcases mem_append.mp hid with hid | hid
    · obtain ⟨index', o, rfl, hat', hget⟩ := h.outputs id hid
      refine ⟨index', o, rfl, hat', ?_⟩
      rw [if_neg]
      · exact hget
      · intro heq
        rw [heq, hfresh] at hget
        cases hget
    · obtain rfl := mem_singleton.mp hid
      exact ⟨index, (owner, amount), rfl, hat, if_pos rfl⟩

theorem CoinHosted.burn (h : CoinHosted s p host) {state : LedgerState}
    {journal : CoinRollbackJournal}
    (hrecord : host.state.recordProtocolBurn amount host.journal = .ok (state, journal)) :
    CoinHosted s p ⟨state, journal⟩ := by
  simp only [LedgerState.recordProtocolBurn, bind_eq_ok, okOr_eq_ok, checkedAdd_eq_some,
    return_eq_ok, Prod.mk.injEq] at hrecord
  obtain ⟨totalBurned, htotal, journalBurned, hjournal, rfl, rfl⟩ := hrecord
  refine ⟨h.net, h.wellFormed, h.inputs, h.outputs, h.mined, ?_, h.programs, h.assets⟩
  have hburned := h.burned
  change totalBurned.val = s.coin.totalBurned.val + journalBurned.val
  omega

theorem CoinHosted.step (hp : p.Apart) (r : CoinRequest) (h : CoinHosted s p host) :
    CoinHosted s p (kernelCoinHost p r host).2 := by
  cases r with
  | inputAmount id => exact h
  | consume id =>
    simp only [kernelCoinHost]
    split_ifs with hid
    · split
      · exact h
      · rename_i coin utxos hc
        exact h.consume hp hid hc
    · exact h
  | create index owner amount =>
    simp only [kernelCoinHost]
    split_ifs with hat
    · exact h
    · split
      · exact h
      · rename_i utxos hc
        exact h.create (not_not.mp hat) hc
  | burn amount =>
    simp only [kernelCoinHost]
    split_ifs with hbad
    · exact h
    · split
      · exact h
      · rename_i state journal hrecord
        exact h.burn hrecord

/-! ## The two ends of a payment -/

omit [Crypto] in
theorem outputAt_bound {intent : CoinTransition} {commitment : AuthorizationCommitment}
    {miner : ProgramId} {burn : Zeno} {o : Owner × Zeno}
    (h : BoundPayment.outputAt ⟨intent.inputs, intent.outputPairs, miner,
      intent.charges.minerFee, burn,
      commitment⟩ index = some o) : (intent.allOutputs miner)[index.val]? = some o := by
  unfold BoundPayment.outputAt at h
  dsimp only at h
  unfold CoinTransition.allOutputs
  split at h
  · rename_i output houtput
    rw [getElem?_append_left (List.getElem?_eq_some_iff.mp houtput).1, houtput]
    exact h
  · split_ifs at h with hlast
    rw [hlast.1, getElem?_append_right (le_refl _), Nat.sub_self, if_neg hlast.2]
    exact h

variable {intent : CoinTransition} {commitment : AuthorizationCommitment} {miner : ProgramId}
  {burn : Zeno}

/-- The payment a host is bound to. -/
abbrev boundTo (intent : CoinTransition) (commitment : AuthorizationCommitment) (miner : ProgramId)
    (burn : Zeno) : BoundPayment :=
  ⟨intent.inputs, intent.outputPairs, miner, intent.charges.minerFee, burn, commitment⟩

theorem CoinHosted.created_mem (h : CoinHosted s (boundTo intent commitment miner burn) host) :
    ∀ id ∈ host.journal.createdCoinIds, ∃ e ∈ outputCoins commitment 0 (intent.allOutputs miner),
      e.1 = id ∧ host.state.utxos.coins.get? id = some e.2 := by
  intro id hid
  obtain ⟨index, o, rfl, hat, hget⟩ := h.outputs id hid
  refine ⟨_, mem_outputCoins.mpr ⟨index.val, o, outputAt_bound hat, rfl⟩, ?_, hget⟩
  rw [Nat.zero_add, Fin.ofNat_val_eq_self]

theorem CoinHosted.created_perm (h : CoinHosted s (boundTo intent commitment miner burn) host)
    (hlength : host.journal.createdCoinIds.length = (intent.allOutputs miner).length) :
    host.journal.createdCoinIds.Perm ((outputCoins commitment 0 (intent.allOutputs miner)).map
      Prod.fst) := by
  have hsubset : host.journal.createdCoinIds ⊆
      (outputCoins commitment 0 (intent.allOutputs miner)).map Prod.fst := by
    intro id hid
    obtain ⟨e, he, rfl, _⟩ := h.created_mem id hid
    exact mem_map_of_mem he
  refine (subperm_of_subset h.net.added_nodup hsubset).perm_of_length_le ?_
  rw [length_map, length_outputCoins, hlength]

theorem CoinHosted.created_length (h : CoinHosted s p host) :
    host.journal.createdCoinIds.length ≤ 2 ^ 32 := by
  have hsubset : host.journal.createdCoinIds ⊆
      (List.finRange (2 ^ 32)).map (CoinShare.fromOutput p.commitment) := by
    intro id hid
    obtain ⟨index, _, rfl, _⟩ := h.outputs id hid
    exact mem_map_of_mem (mem_finRange index)
  have hle := (subperm_of_subset h.net.added_nodup hsubset).length_le
  rwa [length_map, length_finRange] at hle

/-- The journal lists what the payment consumed, created and burned, in any order. -/
structure CoinRollbackJournal.Records (journal : CoinRollbackJournal) (intent : CoinTransition)
    (commitment : AuthorizationCommitment) (miner : ProgramId) (coins : List (CoinShare × CoinUtxo))
    (burn : Zeno) : Prop where
  consumed : journal.consumedCoins.Perm coins
  created : journal.createdCoinIds.Perm
    ((outputCoins commitment 0 (intent.allOutputs miner)).map Prod.fst)
  mined : journal.mined = 0
  burned : journal.burned = burn

theorem CoinHosted.paid {coins : List (CoinShare × CoinUtxo)}
    (h : CoinHosted s (boundTo intent commitment miner burn) host)
    (hp : (boundTo intent commitment miner burn).Apart) (hwf : s.utxos.WellFormed)
    (hmap : coins.map Prod.fst = intent.inputs)
    (hlive : ∀ e ∈ coins, s.utxos.coins.get? e.1 = some e.2)
    (hsum : sumCoins coins = intent.outputSum + intent.charges.minerFee.val + burn.val)
    (hcheck : checkCoinTransition intent (boundTo intent commitment miner burn) host.journal =
      .ok ()) :
    Paid s intent commitment miner coins burn host.state ∧
      host.journal.Records intent commitment miner coins burn := by
  simp only [checkCoinTransition, rejectIf_eq_ok, not_or, not_not] at hcheck
  obtain ⟨hconsumed, hcreated, hburned⟩ := hcheck
  have hlength := intent.length_allOutputs miner
  have hcreatedPerm := h.created_perm (hcreated.trans hlength.symm)
  have hinputs : (host.journal.consumedCoins.map Prod.fst).Perm intent.inputs := by
    refine (subperm_of_subset h.net.removed_nodup ?_).perm_of_length_le ?_
    · intro id hid
      obtain ⟨e, he, rfl⟩ := mem_map.mp hid
      exact h.inputs e he
    · rw [length_map, hconsumed]
  have hnodup : intent.inputs.Nodup := hinputs.nodup_iff.mp h.net.removed_nodup
  have hconsumedPerm : host.journal.consumedCoins.Perm coins := by
    rw [← hmap] at hinputs hnodup
    refine (perm_ext_iff_of_nodup h.net.removed_nodup.of_map hnodup.of_map).mpr fun e => ?_
    exact ⟨fun he => mem_of_lookup hinputs.subset h.net.removed_start hlive he,
      fun he => mem_of_lookup hinputs.symm.subset hlive h.net.removed_start he⟩
  have hids := hcreatedPerm.nodup_iff.mp h.net.added_nodup
  have hall : ∀ e ∈ outputCoins commitment 0 (intent.allOutputs miner),
      host.state.utxos.coins.get? e.1 = some e.2 := by
    intro e he
    obtain ⟨e', he', heq, hget⟩ := h.created_mem e.1 (hcreatedPerm.mem_iff.mpr (mem_map_of_mem he))
    rwa [inj_on_of_nodup_map hids he' he heq] at hget
  have hfresh : ∀ id ∈ (outputCoins commitment 0 (intent.allOutputs miner)).map Prod.fst,
      s.utxos.coins.get? id = none := by
    intro id hid
    have hmem := hcreatedPerm.mem_iff.mpr hid
    refine h.net.added_start id hmem fun hold => ?_
    obtain ⟨index, o, rfl, hat, _⟩ := h.outputs id hmem
    exact hp index o hat (hinputs.mem_iff.mp hold)
  have hzero : ∀ o ∈ intent.outputs, o.amount ≠ 0 := by
    intro o ho
    have hmem : (o.output, o.amount) ∈ intent.allOutputs miner :=
      mem_append_left _ (mem_map_of_mem ho)
    obtain ⟨i, hi⟩ := mem_iff_getElem?.mp hmem
    exact h.wellFormed.nonzero _ _ (hall _ (mem_outputCoins.mpr ⟨i, _, hi, rfl⟩))
  have htotal := h.burned
  rw [hburned] at htotal
  obtain ⟨s', hpaid⟩ := exists_paid hwf hmap hnodup hlive hsum hzero hids hfresh
    (hlength ▸ hcreated ▸ h.created_length) (htotal ▸ host.state.coin.totalBurned.isLt)
  have hsame : host.state = s' := by
    have hcoins : host.state.utxos.coins = s'.utxos.coins := by
      refine h.net.now_eq hpaid.netChange (fun k => ?_) (fun k => hcreatedPerm.mem_iff)
        fun k hk => ?_
      · exact (hconsumedPerm.map Prod.fst).mem_iff
      · obtain ⟨e, he, rfl⟩ := mem_map.mp (hcreatedPerm.mem_iff.mp hk)
        rw [hall e he, hpaid.get?_output he]
    have hutxos := h.wellFormed.ext (hpaid.wellFormed hwf) hcoins
    have hmined := h.mined.1.trans hpaid.mined.symm
    have hburn : host.state.coin.totalBurned = s'.coin.totalBurned :=
      Fin.ext (htotal.trans hpaid.burned.symm)
    have hprograms := h.programs.trans hpaid.programs.symm
    have hassets := h.assets.trans hpaid.assets.symm
    rcases hhost : host.state with ⟨utxos, ⟨mined, burned⟩, programs, assets⟩
    rcases s' with ⟨utxos', ⟨mined', burned'⟩, programs', assets'⟩
    rw [hhost] at hutxos hmined hburn hprograms hassets
    simp only at hutxos hmined hburn hprograms hassets
    rw [hutxos, hmined, hburn, hprograms, hassets]
  exact ⟨hsame ▸ hpaid, ⟨hconsumedPerm, hcreatedPerm, h.mined.2, hburned⟩⟩

theorem CoinHosted.finish_error (h : CoinHosted s p host) (hwf : s.utxos.WellFormed)
    (e : StateError) : finishCoinTransition host.journal (.error e) host.state = (.error e, s) := by
  have hmined : s.coin.totalMined.val + host.journal.mined.val =
      host.state.coin.totalMined.val := by
    rw [h.mined.1, h.mined.2]
    rfl
  obtain ⟨utxos, hroll, hcoins, hwf'⟩ :=
    exists_rollbackCoin h.wellFormed hwf h.net hmined h.burned.symm
  have hback : (⟨utxos, s.coin, host.state.programs, host.state.assets⟩ : LedgerState) = s := by
    rw [hwf'.ext hwf hcoins, h.programs, h.assets]
  rw [hback] at hroll
  have hstaged := staged_rollbackCoinInPlace host.journal host.state
  rw [hroll] at hstaged
  exact InPlace.bind_of_ok (InPlace.staged_eq_ok.mp hstaged)

/-- Whatever the application does, a payment either fails and leaves the state as it was, or it
succeeds and is the payment itself. A payment that would spend an output of its own is no
exception if it is not live. -/
theorem executeCoinProgramInPlace_cases (apps : ApplicationExecutor) (hwf : s.utxos.WellFormed)
    (hapart : (∀ share ∈ intent.inputs, share ∈ s.utxos.coins.keys) → ∀ index : U32,
      index.val ≤ intent.outputs.length → CoinShare.fromOutput commitment index ∉ intent.inputs) :
    (∃ e, executeCoinProgramInPlace intent commitment miner apps s = (.error e, s)) ∨
      ∃ journal s' coins burn,
      executeCoinProgramInPlace intent commitment miner apps s = (.ok journal, s') ∧
        Paid s intent commitment miner coins burn s' ∧
        journal.Records intent commitment miner coins burn := by
  cases hbind : bindPayment s intent commitment miner with
  | error e =>
    have hstart : CoinHosted s (boundTo intent commitment miner 0) ⟨s, .empty⟩ :=
      coinHosted_start hwf
    refine .inl ⟨e, ?_⟩
    rw [executeCoinProgramInPlace, hbind]
    exact hstart.finish_error hwf e
  | ok payment =>
    obtain ⟨coins, burn, hmap, hlive, _, hsum, rfl⟩ := bindPayment_eq_ok.mp hbind
    have hp : (boundTo intent commitment miner burn).Apart := by
      intro index o hat
      refine hapart ?_ index ?_
      · intro share hshare
        rw [← hmap] at hshare
        obtain ⟨e, he, rfl⟩ := mem_map.mp hshare
        exact mem_keys_iff.mpr ⟨e.2, hlive e he⟩
      · have hlt := (List.getElem?_eq_some_iff.mp (outputAt_bound hat)).1
        have hlength := intent.length_allOutputs_le miner
        omega
    have hstart : CoinHosted s (boundTo intent commitment miner burn) ⟨s, .empty⟩ :=
      coinHosted_start hwf
    have hhosted := serve_invariant (CoinHosted s (boundTo intent commitment miner burn))
      (fun r host h => CoinHosted.step hp r h)
      (apps.executeCoin intent.inputs intent.outputPairs miner intent.charges.minerFee) hstart
    rcases hserve : (apps.executeCoin intent.inputs intent.outputPairs miner
      intent.charges.minerFee).serve
      (kernelCoinHost (boundTo intent commitment miner burn)) ⟨s, .empty⟩ with ⟨result, host⟩
    rw [hserve] at hhosted
    have hrun : executeCoinProgramInPlace intent commitment miner apps s =
        finishCoinTransition host.journal (result.mapError StateError.ofTransfer >>= fun _ =>
          checkCoinTransition intent (boundTo intent commitment miner burn) host.journal)
            host.state := by
      simp only [executeCoinProgramInPlace, hbind, hserve]
    cases hr : (result.mapError StateError.ofTransfer >>= fun _ =>
      checkCoinTransition intent (boundTo intent commitment miner burn) host.journal) with
    | error e =>
      rw [hr] at hrun
      exact .inl ⟨e, hrun.trans (hhosted.finish_error hwf e)⟩
    | ok u =>
      rw [hr] at hrun
      obtain ⟨_, _, hcheck⟩ := bind_eq_ok.mp hr
      obtain ⟨hpaid, hrecords⟩ := hhosted.paid hp hwf hmap hlive hsum hcheck
      exact .inr ⟨host.journal, host.state, coins, burn, hrun, hpaid, hrecords⟩

/-! ## Assets -/

open AssetState in
theorem AssetState.apply_fails {a b : AssetState} {call : AssetCall} {context : ExecutionContext}
    {e : AssetError} {a' : AssetState} (h : apply call context a = (.error e, a'))
    (hrecords : b.records = a.records) (hshares : b.shares = a.shares) :
    ∃ e' b', apply call context b = (.error e', b') := by
  rcases hb : apply call context b with ⟨e' | journal, b'⟩
  · exact ⟨e', b', rfl⟩
  · exfalso
    have hok := hb
    rw [apply] at hok
    split at hok
    · cases (Prod.mk.inj hok).1
    · rename_i snapshot hsnapshot
      obtain ⟨_, _, hsnapshot⟩ := bind_eq_ok.mp hsnapshot
      obtain ⟨⟨asset, ids⟩, hfoot, _⟩ := bind_eq_ok.mp hsnapshot
      have hsame : SameOn asset ids b a := ⟨by rw [hrecords], fun id _ => by rw [hshares]⟩
      have halike := hsame.apply hfoot
      rw [hb, h] at halike
      exact halike

/-- Whatever the bound host was asked: the call was not applied yet and the records and shares are
as they were, or it was applied once and nothing else happened. -/
def AssetHosted (a : AssetState) (call : AssetCall) (context : ExecutionContext)
    (host : BoundAssetHost) : Prop :=
  (host = ⟨a, none⟩) ∨
  (host.journal = none ∧ host.state.records = a.records ∧ host.state.shares = a.shares ∧
    ∃ e a', AssetState.apply call context a = (.error e, a')) ∨
  ∃ journal, host.journal = some journal ∧
    AssetState.apply call context a = (.ok journal, host.state)

variable {a : AssetState} {call : AssetCall} {context : ExecutionContext}

theorem AssetHosted.step {host : BoundAssetHost} (r : AssetCall)
    (h : AssetHosted a call context host) :
    AssetHosted a call context (BoundAssetHost.apply call context r host).2 := by
  simp only [BoundAssetHost.apply]
  split_ifs with hrefused
  · exact h
  · obtain ⟨hcall, hnone⟩ := not_or.mp hrefused
    rw [not_not] at hcall
    subst hcall
    rcases h with rfl | ⟨hjournal, hrecords, hshares, e, a', hfails⟩ | ⟨journal, hjournal, _⟩
    · rcases happly : AssetState.apply r context a with ⟨e | journal, a'⟩
      · obtain ⟨hrecords, hshares⟩ := AssetState.apply_error happly
        exact .inr (.inl ⟨rfl, hrecords, hshares, e, a', happly⟩)
      · exact .inr (.inr ⟨journal, rfl, happly⟩)
    · obtain ⟨e', b', hagain⟩ := AssetState.apply_fails hfails hrecords hshares
      obtain ⟨hrecords', hshares'⟩ := AssetState.apply_error hagain
      rw [hagain]
      exact .inr (.inl ⟨hjournal, hrecords'.trans hrecords, hshares'.trans hshares, e, a', hfails⟩)
    · rw [hjournal] at hnone
      exact absurd rfl hnone

/-- Whatever the application does, its call is applied exactly once, or it fails and the records
and shares are as they were. -/
theorem executeAsset_cases (apps : ApplicationExecutor) (a : AssetState) (call : AssetCall)
    (context : ExecutionContext) :
    (∃ e a', executeAsset apps call context a = (.error e, a') ∧ a'.records = a.records ∧
      a'.shares = a.shares) ∨
    ∃ journal a', executeAsset apps call context a = (.ok journal, a') ∧
      AssetState.apply call context a = (.ok journal, a') := by
  have hhosted := serve_invariant (AssetHosted a call context)
    (fun r host h => AssetHosted.step r h) (apps.executeAsset call) (.inl rfl)
  rcases hserve : (apps.executeAsset call).serve (BoundAssetHost.apply call context) ⟨a, none⟩ with
    ⟨e | ⟨⟩, host⟩ <;> rw [hserve] at hhosted <;> change AssetHosted a call context host at hhosted
  · -- the application failed, and the host is dropped
    refine .inl ⟨e, host.drop, by simp only [executeAsset, hserve], ?_⟩
    rcases hhosted with rfl | ⟨hjournal, hrecords, hshares, _⟩ | ⟨journal, hjournal, happly⟩
    · exact ⟨rfl, rfl⟩
    · simp only [BoundAssetHost.drop, hjournal]
      exact ⟨hrecords, hshares⟩
    · simp only [BoundAssetHost.drop, hjournal]
      obtain ⟨hrecords, hshares⟩ := AssetState.apply_undoes happly
      exact ⟨(AssetState.rollback_records _ _).trans hrecords.restore,
        (AssetState.rollback_shares _ _).trans hshares.restore⟩
  · rcases hhosted with rfl | ⟨hjournal, hrecords, hshares, _⟩ | ⟨journal, hjournal, happly⟩
    · exact .inl ⟨.invalidProgram, a, by simp only [executeAsset, hserve], rfl, rfl⟩
    · exact .inl ⟨.invalidProgram, host.state,
        by simp only [executeAsset, hserve, hjournal], hrecords, hshares⟩
    · exact .inr ⟨journal, host.state, by simp only [executeAsset, hserve, hjournal], happly⟩

/-! ## Payments of a chain -/

namespace Ledger

variable {l : Ledger} {trace : List (Ledger × Block)} {chain : ChainContext} {height : Height}
  {blocks : List Block} {ops : List BlockOperation}

/-- The states operations are executed on, with the block and the operations since the ledger's
own state: that state, what the emission of a next block makes of it, and what operations make of
that. -/
inductive Staging (l : Ledger) (chain : ChainContext) (height : Height) (miner : ProgramId) :
    List Block → List BlockOperation → LedgerState → Prop
  | ledger (hcontext : l.chainContext = some chain) : Staging l chain height miner [] [] l.state
  | emission {b : Block} {subsidy : Zeno} {staged : Staged} (hcontext : l.contextFor b = .ok chain)
      (hnext : l.chain.validateNextBlock b = .ok ())
      (hstage : stageEmission l.state b = .ok (subsidy, staged)) :
      Staging l chain height miner [b] [] staged.state
  | operation {blocks : List Block} {ops : List BlockOperation} {op : BlockOperation}
      {staged staged' : Staged} (h : Staging l chain height miner blocks ops staged.state)
      (hstage : stageOperation systemApplications chain height miner staged op = .ok staged') :
      Staging l chain height miner blocks (ops ++ [op]) staged'.state

theorem Staging.sound_registered (hl : Consistent l)
    (h : Staging l chain height miner blocks ops s) :
    s.Sound ∧ l.state.registered ⊆ s.registered := by
  induction h with
  | ledger _ => exact ⟨hl.sound, subset_rfl⟩
  | emission _ _ hstage =>
    exact ⟨(stageEmission_ok hl.sound hstage).1, (stageEmission_spares hstage).registered⟩
  | operation _ hstage ih =>
    obtain ⟨_, _, _, happlied⟩ := stageOperation_ok ih.1 hstage
    exact ⟨happlied.sound, ih.2.trans (stageOperation_acts ih.1 hstage).spares.registered⟩

/-- What is hashed for the identifiers of blocks and operations. -/
def stagingInputs (chain : ChainContext) (programs : Set ProgramId) (blocks : List Block)
    (ops : List BlockOperation) : Set (List Byte) :=
  {x | (∃ b ∈ blocks, x ∈ b.emissionInputs) ∨ ∃ op ∈ ops, x ∈ op.idInputs chain programs}

/-- In the middle of a block too: the provenance of the ledger is carried through the staged
emission and the operations staged so far. -/
theorem Staging.provenance (h : History l trace) {programs : Set ProgramId} {S : Set (List Byte)}
    (hstaging : Staging l chain height miner blocks ops s) (hknown : s.registered ⊆ programs)
    (hS : CollisionFree S chain programs (blocks ++ trace.map Prod.snd)
      (operationsOf trace ++ ops)) :
    ∃ made, Provenance chain programs (blocks ++ trace.map Prod.snd) (operationsOf trace ++ ops)
      made s := by
  have hl := h.backed.consistent
  induction hstaging with
  | ledger hcontext =>
    rw [append_nil] at hS ⊢
    obtain ⟨created, _, htraced⟩ := h.traced chain S (.inl hcontext) (hS.mono hknown)
    exact ⟨_, htraced.mono hknown⟩
  | @emission b _ staged hcontext hnext hstage =>
    have hprograms := (stageEmission_spares hstage).registered.trans hknown
    have hbefore : l.chainContext = some chain ∨ trace = [] := by
      obtain ⟨chain', hsome | hnil⟩ := h.exists_context
      · rw [contextFor, hsome, Except.ok.injEq] at hcontext
        exact .inl (hcontext ▸ hsome)
      · exact .inr hnil
    rw [append_nil] at hS ⊢
    have hold := hS.subset (subset_cons_self _ _) (List.Subset.refl _)
    obtain ⟨created, _, htraced⟩ := h.traced chain S hbefore (hold.mono hprograms)
    refine ⟨_, (htraced.mono hprograms).emission hS ?_ hstage⟩
    exact fun b' hb' => ne_of_lt (h.backed.height_lt hnext hb')
  | @operation blocks ops op staged staged' hprior hstage ih =>
    obtain ⟨hs, _⟩ := hprior.sound_registered hl
    have hbefore := (stageOperation_acts hs hstage).spares.registered.trans hknown
    rw [← append_assoc] at hS ⊢
    have hold := hS.subset (List.Subset.refl _) (subset_append_left _ _)
    obtain ⟨made, hmade⟩ := ih hbefore hold
    obtain ⟨ids, _, hnow⟩ := hmade.operation hold (hS.operations op (by simp)) hbefore hs hstage
    exact ⟨_, hnow⟩

variable {op : BlockOperation} {s₁ : LedgerState}

/-- No live input of an operation is one of its own outputs: such a coin would have been made by
an operation with the same payment, and its inputs are spent. -/
theorem Staging.apart (h : History l trace) (hstaging : Staging l chain height miner blocks ops s)
    (hstart : op.paymentStart systemApplications chain height s = .ok (commitment, s₁))
    (hhash : Set.InjOn Crypto.sha3 (stagingInputs chain s.registered (blocks ++ trace.map Prod.snd)
      (operationsOf trace ++ ops ++ [op])))
    (hlive : ∀ share ∈ op.payment.inputs, share ∈ s₁.utxos.coins.keys) {index : U32}
    (hindex : index.val ≤ op.payment.outputs.length) :
    CoinShare.fromOutput commitment index ∉ op.payment.inputs := by
  intro hmem
  set S := stagingInputs chain s.registered (blocks ++ trace.map Prod.snd)
    (operationsOf trace ++ ops ++ [op])
  have hS : CollisionFree S chain s.registered (blocks ++ trace.map Prod.snd)
      (operationsOf trace ++ ops) :=
    ⟨hhash, fun b hb x hx => .inl ⟨b, hb, hx⟩, fun o ho x hx => .inr ⟨o, mem_append_left _ ho, hx⟩⟩
  have hop : op.idInputs chain s.registered ⊆ S := fun x hx => .inr ⟨op, by simp, hx⟩
  have hc := BlockOperation.commitment_of_paymentStart hstart
  obtain ⟨hs, _⟩ := hstaging.sound_registered h.backed.consistent
  obtain ⟨issued, _, _, hmade, hbefore⟩ :=
    BlockOperation.paymentStart_issues hhash hop subset_rfl hs hstart
  rcases hbefore _ (hlive _ hmem) with hold | hissued
  · obtain ⟨made, hprovenance⟩ := hstaging.provenance h subset_rfl hS
    have hown : CoinShare.fromOutput commitment index ∈ op.coins chain s.registered :=
      ⟨commitment, hc, .inr ⟨index, hindex, rfl⟩⟩
    exact hprovenance.fresh hS hop hmem hold hown (hprovenance.live _ hold)
  · exact BlockOperation.vmCoin_ne_output hhash hop hop hc hc (hmade _ hissued) hindex rfl

theorem paymentStart_sound (hs : s.Sound)
    (h : op.paymentStart systemApplications chain height s = .ok (commitment, s₁)) : s₁.Sound := by
  simp only [BlockOperation.paymentStart, bind_eq_ok] at h
  obtain ⟨_, _, h⟩ := h
  cases op with
  | programCall tx =>
    simp only [bind_eq_ok, Prod.exists] at h
    obtain ⟨effect, _, hcall, heq⟩ := h
    cases heq
    exact (applyCall_did hs hcall).sound
  | deployProgram signed =>
    cases h
    exact hs

/-- Whatever the application does, on every state a chain leads to: the payment of an operation
fails and the state is as it was, or it is the payment itself; and on any asset state a call fails
and leaves records and shares, or is applied exactly once. The payment that a ledger stages is the
one modelled here. -/
theorem History.executors_canonical (h : History l trace)
    (hstaging : Staging l chain height miner blocks ops s) {op : BlockOperation} {s₁ : LedgerState}
    (hstart : op.paymentStart systemApplications chain height s = .ok (commitment, s₁))
    (hhash : Set.InjOn Crypto.sha3 (stagingInputs chain s.registered (blocks ++ trace.map Prod.snd)
      (operationsOf trace ++ ops ++ [op]))) (apps : ApplicationExecutor) :
    ((∃ e, executeCoinProgramInPlace op.payment commitment miner apps s₁ = (.error e, s₁)) ∨
      ∃ journal s' coins burn,
      executeCoinProgramInPlace op.payment commitment miner apps s₁ = (.ok journal, s') ∧
        Paid s₁ op.payment commitment miner coins burn s' ∧
        journal.Records op.payment commitment miner coins burn) ∧
    (executeCoinProgramInPlace op.payment commitment miner apps).staged s₁ =
      executeCoinProgram s₁ op.payment commitment miner apps ∧
    ∀ assets call context,
      (∃ e a', executeAsset apps call context assets = (.error e, a') ∧
        a'.records = assets.records ∧ a'.shares = assets.shares) ∨
      ∃ journal a', executeAsset apps call context assets = (.ok journal, a') ∧
        AssetState.apply call context assets = (.ok journal, a') := by
  obtain ⟨hs, _⟩ := hstaging.sound_registered h.backed.consistent
  refine ⟨?_, staged_executeCoinProgramInPlace .., executeAsset_cases apps⟩
  exact executeCoinProgramInPlace_cases apps (paymentStart_sound hs hstart).utxos
    fun hlive index hindex =>
    hstaging.apart h hstart hhash hlive hindex

end Ledger

end

namespace Ledger

section Sample

attribute [local instance] Crypto.checksum

/-- An application that first asks for a coin that is not the payment's, and does not care about the
refusal. -/
def carelessApplications : ApplicationExecutor where
  executeCoin inputs outputs miner minerFee := do
    let _ ← RequestTree.request (I := CoinHost) (.consume 0)
    executeTransfer inputs outputs miner minerFee
  executeAsset := systemApplications.executeAsset

/-- The miner of the sample chain spends the first mined coin. -/
def spendMined (b : Block) : BlockOperation :=
  .programCall ⟨7, ⟨.monetary, 1, []⟩, ⟨7, (b.emission.toList.map fun e => CoinShare.fromEmission
      (domain .emission (emissionOriginBytes b e))), [⟨.program 5, 1⟩], ⟨1⟩⟩,
        ⟨0, ⟨.mlDsa44, []⟩, ⟨.mlDsa44, []⟩⟩⟩

/-- What is hashed on the sample chain and for that payment. -/
def spendInputs (b : Block) (chain : ChainContext) (c : AuthorizationCommitment) :
    List (List Byte) :=
  minedInputs b ++ paymentInputs chain c (spendMined b)

/-- On the sample chain nothing collides, no program is registered, and the careless application
makes the payment. -/
theorem exists_spendMined {b : Block} {l : Ledger} (hmined : sampleMined = .ok (b, l)) :
    ∃ chain c s, l.chainContext = some chain ∧
      (spendMined b).paymentStart systemApplications chain 2 l.state = .ok (c, s) ∧
      ((spendInputs b chain c).map Crypto.sha3).Nodup ∧ b.operations = [] ∧
      l.state.programs.programs.keys = [] ∧
      (executeCoinProgramInPlace (spendMined b).payment c 7 carelessApplications s).1.isOk =
      true := by
  have hspends : (sampleMined.toOption.any fun p => p.2.chainContext.any fun chain =>
      ((spendMined p.1).paymentStart systemApplications chain 2 p.2.state).toOption.any fun r =>
        decide (((spendInputs p.1 chain r.1).map Crypto.sha3).Nodup ∧ p.1.operations = [] ∧
          p.2.state.programs.programs.keys = [] ∧
          (executeCoinProgramInPlace (spendMined p.1).payment r.1 7 carelessApplications
            r.2).1.isOk = true)) = true := by
    decide +kernel
  rw [hmined] at hspends
  obtain ⟨chain, hchain, hspends⟩ :=
    (Option.any_eq_true _ _).mp (show l.chainContext.any _ = true from hspends)
  obtain ⟨⟨c, s⟩, hstart, hspends⟩ := exists_of_any hspends
  exact ⟨chain, c, s, hchain, hstart, of_decide_eq_true hspends⟩

theorem sampleMined_executors : ∃ b l chain c s, sampleMined = .ok (b, l) ∧
    (spendMined b).paymentStart systemApplications chain 2 l.state = .ok (c, s) ∧
    ∃ journal s' coins burn, executeCoinProgramInPlace (spendMined b).payment c 7
      carelessApplications s =
        (.ok journal, s') ∧ Paid s (spendMined b).payment c 7 coins burn s' := by
  obtain ⟨l, b, l', hl, hmined, hcommits⟩ := exists_sampleMined
  obtain ⟨chain, c, s, hchain, hstart, hnodup, hnone, hprograms, hok⟩ := exists_spendMined hmined
  have hinputs : stagingInputs chain l'.state.registered
      ([] ++ [(l, b), (Ledger.new systemApplications, sampleGenesis)].map Prod.snd)
      (operationsOf [(l, b), (Ledger.new systemApplications, sampleGenesis)] ++ [] ++
        [spendMined b]) ⊆
      {x | x ∈ spendInputs b chain c} := by
    have hc := BlockOperation.commitment_of_paymentStart hstart
    rintro x (⟨b', hb', hx⟩ | ⟨op, hop, hx⟩)
    · simp only [nil_append, map_cons, map_nil, mem_cons, not_mem_nil, or_false] at hb'
      rcases hb' with rfl | rfl
      · exact mem_append_left _ (emissionInputs_subset _ hx)
      · obtain ⟨_, he, _⟩ := hx
        cases he
    · simp only [operationsOf, flatMap_cons, hnone, sampleGenesis, flatMap_nil, append_nil,
        nil_append, mem_singleton] at hop
      subst hop
      exact mem_append_right _ (idInputs_subset_paymentInputs hc hprograms rfl hx)
  have hhash : Set.InjOn Crypto.sha3 {x | x ∈ spendInputs b chain c} :=
    fun x hx y hy => inj_on_of_nodup_map hnodup hx hy
  have hstaging : Staging l' chain 2 7 [] [] l'.state := .ledger hchain
  rcases (History.executors_canonical ((history_sampleStart hl).commit hcommits) hstaging hstart
    (hhash.mono hinputs) carelessApplications).1 with ⟨e, hfailed⟩ | ⟨journal, s', coins,
      burn, hrun, hpaid, _⟩
  · rw [hfailed] at hok
    cases hok
  · exact ⟨b, l', chain, c, s, hmined, hstart, journal, s', coins, burn, hrun, hpaid⟩

end Sample

end Ledger

end Xparq
