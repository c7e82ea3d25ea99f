import Xparq.Ledger.Trace
import Mathlib.Algebra.BigOperators.Intervals

/-!
# Issuance

What a block adds to the mined total is fixed by its height and the fees of its operations
(`Block.issuance`). Along every history the mined total is the sum of these amounts, and the
coins a block creates for its miner, the emission coin and the fee coins, are worth the issuance
without the protocol burn, and the fees (`Reachable.mined_and_credited`).
-/

namespace Xparq

open Machine Outcome OrderedMap LedgerState List

/-! ## The schedule with its fee offset -/

/-- The fees of a block's operations. -/
def Block.minerFees (b : Block) : Nat := (b.operations.map fun op => op.minerFee.val).sum

/-- The scheduled emission; from the activation height on, the protocol burn and what the fees
leave of the net tail. -/
def Block.issuance (b : Block) : Nat :=
  if b.height.val < foteActivationHeight then (blockEmissionForHeight b.height).val
  else minerProtocolBurn.val + (tailBlockEmission - minerProtocolBurn.val - b.minerFees)

theorem blockEmissionForHeight_tail {h : Height} (hactive : foteActivationHeight ≤ h.val) :
    (blockEmissionForHeight h).val = tailBlockEmission := by
  have hintervals : emissionRisingSteps + emissionHalvingsToTail ≤
      (h.val - 1) / emissionInterval := by
    rw [Nat.le_div_iff_mul_le (by decide)]
    unfold foteActivationHeight at hactive
    omega
  change scheduledEmission ((h.val - 1) / emissionInterval) = tailBlockEmission
  unfold emissionRisingSteps emissionHalvingsToTail at hintervals
  unfold scheduledEmission emissionRisingSteps emissionHalvingsToTail
  rw [if_neg (by omega)]
  dsimp only
  rw [if_pos (by omega)]

theorem getD_checkedSub {n : Nat} [NeZero n] (a b : Fin n) :
    ((checkedSub a b).getD 0).val = a.val - b.val := by
  cases h : checkedSub a b with
  | none =>
    by_contra hne
    rw [Option.getD_none, Fin.val_zero] at hne
    have hlt : a.val - b.val < n := lt_of_le_of_lt (Nat.sub_le _ _) a.isLt
    have hsome : checkedSub a b = some ⟨a.val - b.val, hlt⟩ :=
      checkedSub_eq_some.mpr (by simp only; omega)
    rw [hsome] at h
    cases h
  | some c =>
    rw [checkedSub_eq_some] at h
    rw [Option.getD_some]
    omega

theorem expectedEmission_eq_issuance {b : Block} {subsidy : Zeno}
    (h : expectedEmissionForOperations b.height b.operations = .ok subsidy) :
    subsidy.val = b.issuance := by
  unfold expectedEmissionForOperations at h
  unfold Block.issuance
  dsimp only at h
  split_ifs at h ⊢ with hactive
  · cases h
    rfl
  · simp only [bind_eq_ok, okOr_eq_ok, foldlM_checkedAdd, checkedSub_eq_some, checkedAdd_eq_some,
      map_map] at h
    obtain ⟨fees, hfees, netTail, htail, htotal⟩ := h
    rw [blockEmissionForHeight_tail (not_lt.mp hactive)] at htail
    rw [getD_checkedSub] at htotal
    have hsum : fees.val = b.minerFees := by
      rw [hfees]
      exact Nat.zero_add _
    omega

/-! ## What the miner is credited with -/

/-- The worth of those of the listed coins that the program owns. -/
def UtxoSet.creditOf (utxos : UtxoSet) (owner : ProgramId) (ids : List CoinShare) : Nat :=
  (((ids.filterMap utxos.coin).filter fun c => c.owner = .program owner).map fun c =>
    c.amount.val).sum

section
variable [Crypto]

theorem outputCoins_append (origin : Hash) (index : Nat) (front back : List (Owner × Zeno)) :
    outputCoins origin index (front ++ back) =
      outputCoins origin index front ++ outputCoins origin (index + front.length) back := by
  induction front generalizing index with
  | nil => rfl
  | cons o rest ih =>
    simp only [cons_append, outputCoins, ih, length_cons]
    rw [Nat.add_right_comm, Nat.add_assoc]

/-- The worth of the miner's coins among those a payment creates after its declared outputs. -/
def feeCredit (apps : ApplicationExecutor) (chain : ChainContext) (height : Height)
    (miner : ProgramId) (s : LedgerState) (op : BlockOperation) : Except LedgerError Nat := do
  let (commitment, s) ← op.paymentStart apps chain height s
  let (journal, s) ← (executeCoinProgram s op.payment commitment miner apps).mapError .state
  return s.utxos.creditOf miner (journal.createdCoinIds.drop op.payment.outputs.length)

/-- The identifiers an emission created. -/
def Staged.createdCoinIds (staged : Staged) : List CoinShare :=
  staged.journals.flatMap fun journal => (journal.coin.map (·.createdCoinIds)).getD []

/-- The worth of the coins that the execution of a block creates for its miner as emission and as
fees, each taken when it is created. -/
def Ledger.minerCredit (l : Ledger) (b : Block) : Except LedgerError Nat := do
  let chain ← l.contextFor b
  let (_, staged) ← stageEmission l.state b
  let emitted := staged.state.utxos.creditOf b.minerProgramId staged.createdCoinIds
  let (fees, _) ← observeOperations (feeCredit l.applications chain b.height b.minerProgramId)
    l.applications
    chain b.height b.minerProgramId b.operations staged
  return emitted + fees.sum

/-! ## Payments and emissions -/

variable {s s' : LedgerState}

variable {coins : List (CoinShare × CoinUtxo)} {miner : ProgramId} {staged : Staged}

omit [Crypto] in
theorem UtxoSet.creditOf_eq {utxos : UtxoSet} {owner : ProgramId}
    (hcoins : ∀ e ∈ coins, utxos.coins.get? e.1 = some e.2 ∧ e.2.owner = .program owner) :
    utxos.creditOf owner (coins.map Prod.fst) = sumCoins coins := by
  induction coins with
  | nil => rfl
  | cons e rest ih =>
    obtain ⟨⟨hlive, howner⟩, hrest⟩ := forall_mem_cons.mp hcoins
    have hcoin : utxos.coin e.1 = some e.2 := hlive
    have hih := ih hrest
    unfold UtxoSet.creditOf at hih ⊢
    rw [map_cons, filterMap_cons_some hcoin, filter_cons_of_pos (by simpa using howner),
      map_cons, sum_cons, hih, sumCoins_cons]

theorem Paid.creditOf_fee {intent : CoinTransition} {commitment : AuthorizationCommitment}
    {burn : Zeno}
    (h : Paid s intent commitment miner coins burn s') :
    s'.utxos.creditOf miner ((paymentJournal intent commitment miner coins burn).createdCoinIds.drop
      intent.outputs.length) = intent.charges.minerFee.val := by
  have hlive := fun e => h.get?_output (e := e)
  unfold paymentJournal
  unfold CoinTransition.allOutputs at hlive ⊢
  rw [outputCoins_append] at hlive ⊢
  have hlength : (outputCoins commitment 0 intent.outputPairs).length = intent.outputs.length := by
    rw [length_outputCoins, CoinTransition.outputPairs, length_map]
  rw [map_append, ← hlength, drop_left' (by rw [length_map]), UtxoSet.creditOf_eq]
  · rw [sumCoins_outputCoins]
    split_ifs with hfee
    · rw [hfee]
      rfl
    · simp
  · intro e he
    refine ⟨hlive e (mem_append_right _ he), ?_⟩
    split_ifs at he with hfee
    · cases he
    · obtain rfl := mem_singleton.mp he
      rfl

theorem feeCredit_ok {chain : ChainContext} {height : Height} {staged' : Staged}
    {op : BlockOperation} (hs : staged.state.Sound)
    (h : stageOperation systemApplications chain height miner staged op = .ok staged') :
    feeCredit systemApplications chain height miner staged.state op = .ok op.minerFee.val ∧
      staged'.state.coin.totalMined = staged.state.coin.totalMined := by
  obtain ⟨commitment, s₁, coins, burn, s₂, hpayment, hafter, _⟩ := stageOperation_paid hs h
  refine ⟨?_, by rw [hafter, hpayment.paid.mined, hpayment.coin]⟩
  simp only [feeCredit, bind_eq_ok, Prod.exists, mapError_eq_ok, return_eq_ok]
  exact ⟨commitment, s₁, hpayment.start, _, s₂, hpayment.run, hpayment.paid.creditOf_fee⟩

theorem stageEmission_credit {b : Block} {subsidy : Zeno} (hgenesis : b.isGenesis = false)
    (h : stageEmission s b = .ok (subsidy, staged)) :
    subsidy.val = b.issuance ∧ minerProtocolBurn.val ≤ b.issuance ∧
      staged.state.coin.totalMined.val = s.coin.totalMined.val + b.issuance ∧
      staged.state.utxos.creditOf b.minerProgramId staged.createdCoinIds =
        b.issuance - minerProtocolBurn.val := by
  simp only [stageEmission, hgenesis, Bool.false_eq_true, if_false, bind_eq_ok,
    Prod.exists, mapError_eq_ok, return_eq_ok, Prod.mk.injEq] at h
  obtain ⟨emission, hvalid, journal, state, happly, rfl, rfl⟩ := h
  obtain ⟨hsplit, hemission, hexpected, hburn, _⟩ := validateEmission_ok hvalid
  have hemitted := applyEmission_ok happly
  have hissued := expectedEmission_eq_issuance hexpected
  rw [hburn] at hsplit
  refine ⟨hissued, by omega, by rw [hemitted.mined, hissued], ?_⟩
  have hminer : b.minerProgramId = emission.recipient := by
    rw [Block.minerProgramId, hemission]; rfl
  rw [hemitted.journal]
  simp only [Staged.createdCoinIds, flatMap_cons, flatMap_nil, Option.map_some, Option.getD_some,
    append_nil]
  rw [UtxoSet.creditOf_eq]
  · unfold emissionCoins
    split_ifs with hzero
    · rw [hzero] at hsplit
      change 0 = _
      have : (0 : Zeno).val = 0 := rfl
      omega
    · simp only [sumCoins_cons]
      change _ + 0 = _
      omega
  · intro e he
    refine ⟨?_, ?_⟩
    · rw [hemitted.coins]
      exact get?_insertAll_of_mem (nodup_emissionCoins emission) he
    · unfold emissionCoins at he
      split_ifs at he
      · cases he
      · obtain rfl := mem_singleton.mp he
        rw [hminer]

/-! ## Commits and histories -/

/-- What a committed block adds to the mined total; the first one adds nothing. -/
def Block.mined (b : Block) : Nat := if b.isGenesis then 0 else b.issuance

namespace Ledger

variable {l l' : Ledger} {b : Block} {trace : List (Ledger × Block)}

theorem Commits.issues (hl : Consistent l) (h : Commits l b l') :
    l'.state.coin.totalMined.val = l.state.coin.totalMined.val + b.mined ∧
      (b.isGenesis = false → minerProtocolBurn.val ≤ b.issuance ∧
        l.minerCredit b = .ok (b.issuance - minerProtocolBurn.val + b.minerFees)) := by
  obtain ⟨executed, hexecute, _, _, _, rfl⟩ := applyValidatedBlock_eq_ok.mp h.applyValidatedBlock
  obtain ⟨subsidy, staged, staged', hrun⟩ := executeBlock_ok hl.applications hl.sound hexecute
  -- the fees seen so far are those of the operations done, and the mined total is the emission's
  obtain ⟨fees, hobserve, hfees, hmined⟩ := observeOperations_ok
    (fun done seen s => seen = done.map (fun op => op.minerFee.val) ∧
      s.state.coin.totalMined = staged.state.coin.totalMined)
    (fun done seen s op s' hs hK hstage => by
      obtain ⟨hlook, hkeep⟩ := feeCredit_ok hs hstage
      exact ⟨_, hlook, by rw [hK.1, map_append]; rfl, hkeep.trans hK.2⟩)
    [] [] hrun.started ⟨rfl, rfl⟩ hrun.operations
  have hemission := hrun.emission
  have htotal : executed.state.coin.totalMined = staged.state.coin.totalMined := by
    rw [hrun.same.coin, hmined]
  simp only [htotal]
  cases hgenesis : b.isGenesis with
  | true =>
    simp only [stageEmission, hgenesis, if_true, Except.ok.injEq, Prod.mk.injEq] at hemission
    obtain ⟨_, rfl⟩ := hemission
    simp [Block.mined, hgenesis]
  | false =>
    obtain ⟨_, hburn, hissued, hcredit⟩ := stageEmission_credit hgenesis hemission
    refine ⟨by simp [Block.mined, hgenesis, hissued], fun _ => ⟨hburn, ?_⟩⟩
    simp only [minerCredit, bind_eq_ok, Prod.exists, return_eq_ok, hl.applications]
    exact ⟨_, hrun.context, subsidy, staged, hemission, fees, staged', hobserve,
      by rw [hcredit, show fees = _ from hfees]; rfl⟩

theorem History.totalMined (h : History l trace) :
    l.state.coin.totalMined.val = (trace.map fun e => e.2.mined).sum := by
  refine History.keeps (J := fun l trace => l.state.coin.totalMined.val =
    (trace.map fun e => e.2.mined).sum)
    rfl ?_ ?_ h
  · intro l b l' trace hl hJ hcommits
    rw [(hcommits.issues hl.consistent).1, hJ, map_cons, sum_cons, Nat.add_comm]
  · intro l m trace hagrees hJ
    rw [hagrees.state.coin, hJ]

end Ledger

/-- The issuance of the block at a height. -/
def Chain.issuanceAt (c : Chain) (h : Nat) : Nat :=
  ((ofNat? (2 ^ 64) h).bind c.block).elim 0 Block.issuance

namespace Ledger

variable {l l' : Ledger} {b : Block} {trace : List (Ledger × Block)}

omit [Crypto] in
theorem issuanceAt_of_block {c : Chain} {h : Height} (hb : c.block h = some b) :
    c.issuanceAt h.val = b.issuance := by
  have hfits : ofNat? (2 ^ 64) h.val = some h := ofNat?_eq_some.mpr rfl
  rw [Chain.issuanceAt, hfits, Option.bind_some, hb]
  rfl

/-- By induction on the trace: the newest block adds its issuance at its own height, and below it
the bodies are those of the ledger before. -/
theorem Backed.sum_mined (h : Backed l trace) {tip : Height} (htip : l.chain.tipHeight = some tip) :
    (∀ k ≤ tip, ∃ b, l.chain.block k = some b ∧ b.height = k) ∧
      (trace.map fun e => e.2.mined).sum = ∑ k ∈ Finset.Icc 1 tip.val, l.chain.issuanceAt k := by
  induction trace generalizing l tip with
  | nil =>
    cases h with
    | nil _ hempty =>
      rw [hempty] at htip
      cases htip
  | cons entry rest ih =>
    obtain ⟨p, b⟩ := entry
    obtain ⟨hlinks, hp⟩ := h.uncons
    have hheight : tip = b.height := by
      rw [hlinks.chain] at htip
      exact (Option.some.inj htip).symm
    subst hheight
    have hblock : ∀ k, l.chain.block k = if k = b.height then some b else p.chain.block k := by
      intro k
      rw [hlinks.chain]
      exact get?_insert _ _ _ _
    have htop : l.chain.block b.height = some b := by rw [hblock, if_pos rfl]
    cases hpt : p.chain.tipHeight with
    | none =>
      have hzero := hp.consistent.linked.height_zero hlinks.next hpt
      obtain rfl : rest = [] := by
        cases hp with
        | nil _ _ => rfl
        | cons _ hlinks' _ =>
          rw [hlinks'.chain] at hpt
          cases hpt
      refine ⟨fun k hk => ⟨b, ?_, ?_⟩, ?_⟩
      · rw [hzero] at hk
        rw [Fin.ext (Nat.le_zero.mp (Fin.le_def.mp hk)) (b := (0 : Height)), ← hzero]
        exact htop
      · rw [hzero] at hk ⊢
        exact (Fin.ext (Nat.le_zero.mp (Fin.le_def.mp hk))).symm
      · simp [Block.mined, Block.isGenesis, hzero]
    | some t =>
      obtain ⟨hbodies, hsum⟩ := ih hp hpt
      have hnext := (hp.consistent.linked.next hlinks.next hpt).1
      have hlower : ∀ k : Height, k ≤ t → l.chain.block k = p.chain.block k := by
        intro k hk
        rw [hblock, if_neg]
        rintro rfl
        have := Fin.le_def.mp hk
        omega
      constructor
      · intro k hk
        rcases eq_or_ne k b.height with rfl | hne
        · exact ⟨b, htop, rfl⟩
        · have hkt : k ≤ t := by
            have := Fin.le_def.mp hk
            have := Fin.val_ne_of_ne hne
            exact Fin.le_def.mpr (by omega)
          rw [hlower k hkt]
          exact hbodies k hkt
      · have hgenesis : b.isGenesis = false := by
          rw [Block.isGenesis, decide_eq_false_iff_not]
          intro hzero
          rw [hzero] at hnext
          cases hnext
        rw [map_cons, sum_cons, hsum, hnext, Finset.sum_Icc_succ_top (by omega), ← hnext,
          issuanceAt_of_block htop, Nat.add_comm]
        congr 1
        · apply Finset.sum_congr rfl
          intro k hk
          have hkt := (Finset.mem_Icc.mp hk).2
          have hlt : k < 2 ^ 64 := lt_of_le_of_lt hkt t.isLt
          obtain ⟨body, hbody, _⟩ := hbodies ⟨k, hlt⟩ (Fin.le_def.mpr hkt)
          rw [issuanceAt_of_block (h := ⟨k, hlt⟩) hbody,
            issuanceAt_of_block (h := ⟨k, hlt⟩)
              ((hlower ⟨k, hlt⟩ (Fin.le_def.mpr hkt)).trans hbody)]
        · simp [Block.mined, hgenesis]

/-- The mined total is the sum of what the blocks above the first one issue, and every block
credits its miner with its issuance without the protocol burn, and the fees. From the activation
height on the miner gets the net tail or the fees, whichever is more. -/
theorem Reachable.mined_and_credited (h : Reachable l) :
    (∀ tip, l.chain.tipHeight = some tip →
      (∀ k ≤ tip, ∃ b, l.chain.block k = some b ∧ b.height = k) ∧
      l.state.coin.totalMined.val = ∑ k ∈ Finset.Icc 1 tip.val, l.chain.issuanceAt k) ∧
    ∀ b l', Commits l b l' → b.isGenesis = false →
      minerProtocolBurn.val ≤ b.issuance ∧
      l.minerCredit b = .ok (b.issuance - minerProtocolBurn.val + b.minerFees) ∧
      (foteActivationHeight ≤ b.height.val →
        l.minerCredit b = .ok (max (tailBlockEmission - minerProtocolBurn.val) b.minerFees)) := by
  obtain ⟨trace, h⟩ := h
  constructor
  · intro tip htip
    obtain ⟨hbodies, hsum⟩ := h.backed.sum_mined htip
    exact ⟨hbodies, h.totalMined.trans hsum⟩
  · intro b l' hcommit hgenesis
    obtain ⟨hburn, hcredit⟩ := (hcommit.issues h.backed.consistent).2 hgenesis
    refine ⟨hburn, hcredit, ?_⟩
    intro hactive
    rw [hcredit, Block.issuance, if_neg (not_lt.mpr hactive)]
    congr 1
    omega

end Ledger

end

namespace Ledger

section Sample

attribute [local instance] Crypto.checksum

/-- The block with a payment: its miner is credited with the fee as well. -/
theorem samplePaid_issuance :
    ∃ b₁ l b l' p, samplePaid = .ok ((b₁, l), (b, l'), p) ∧ l'.chain.tipHeight = some 2 ∧
    l'.state.coin.totalMined.val = blockEmissionStart + blockEmissionStart ∧
    l.minerCredit b = .ok (blockEmissionStart - minerProtocolBurn.val + 40000) := by
  obtain ⟨_, b₁, l, b, l', _, _, hsample, hhistory, hpaid, _⟩ := exists_samplePaid
  have hshape : (samplePaid.toOption.any fun p => let b := p.2.1.1
      decide (p.2.1.2.chain.tipHeight = some 2 ∧ p.2.1.2.chain.issuanceAt 1 = blockEmissionStart ∧
        p.2.1.2.chain.issuanceAt 2 = blockEmissionStart ∧ b.isGenesis = false ∧
        b.issuance = blockEmissionStart ∧ b.minerFees = 40000)) = true := by decide +kernel
  rw [hsample] at hshape
  obtain ⟨htip, hfirst, hsecond, hgenesis, hissued, hfees⟩ := of_decide_eq_true hshape
  refine ⟨b₁, l, b, l', _, hsample, htip, ?_, ?_⟩
  · rw [((Reachable.mined_and_credited ⟨_, hhistory.commit hpaid⟩).1 2 htip).2]
    change ∑ k ∈ Finset.Icc 1 2, _ = _
    rw [Finset.sum_Icc_succ_top (by decide), Finset.Icc_self, Finset.sum_singleton, hfirst, hsecond]
  · rw [((Reachable.mined_and_credited ⟨_, hhistory⟩).2 b l' hpaid hgenesis).2.1, hissued, hfees]

end Sample

end Ledger

end Xparq
