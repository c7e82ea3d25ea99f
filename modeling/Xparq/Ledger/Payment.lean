import Xparq.Ledger.CoinMoves

/-!
# What a payment does

With the installed applications, `executeCoinProgram` consumes the payment's inputs, creates
its outputs and the miner's fee, and burns the rest (`executeCoinProgram_ok`). The checks of
the host and the final check of the kernel add nothing: they hold by construction
(`executeCoinProgram_of_paid`).

`Paid` names the coins a payment consumed and what it burned; its lemmas say what follows for
the coin map and the totals, and `exists_paid` when a payment can be made.
-/

namespace Xparq

open Machine Outcome OrderedMap RequestTree Selection List

/-- The outputs a payment creates, the miner's fee last. -/
def CoinTransition.allOutputs (t : CoinTransition) (miner : ProgramId) : List (Owner × Zeno) :=
  t.outputPairs ++ if t.charges.minerFee = 0 then [] else [(.program miner, t.charges.minerFee)]

theorem CoinTransition.length_allOutputs (t : CoinTransition) (miner : ProgramId) :
    (t.allOutputs miner).length = t.outputs.length + if t.charges.minerFee = 0 then 0 else 1 := by
  unfold CoinTransition.allOutputs CoinTransition.outputPairs
  split_ifs <;> simp

theorem CoinTransition.length_allOutputs_le (t : CoinTransition) (miner : ProgramId) :
    (t.allOutputs miner).length ≤ t.outputs.length + 1 := by
  rw [t.length_allOutputs]
  split_ifs <;> omega

/-- The sum of the declared outputs. -/
def CoinTransition.outputSum (t : CoinTransition) : Nat := (t.outputs.map fun o => o.amount.val).sum

theorem CoinTransition.sum_allOutputs (t : CoinTransition) (miner : ProgramId) :
    ((t.allOutputs miner).map fun o => o.2.val).sum = t.outputSum + t.charges.minerFee.val := by
  unfold allOutputs outputPairs outputSum
  split_ifs with hfee <;> simp [hfee, Function.comp_def]

/-! ## Sums of inputs -/

theorem inputTotal_eq_ok {utxos : UtxoSet} {ids : List CoinShare} {t : Zeno} :
    inputTotal utxos ids = .ok t ↔ ∃ coins : List (CoinShare × CoinUtxo), coins.map Prod.fst = ids ∧
      (∀ e ∈ coins, utxos.coins.get? e.1 = some e.2) ∧ t.val = sumCoins coins := by
  have hf : ∀ (total : Zeno) (id : CoinShare) (t : Zeno), (do
      let coin ← okOr (utxos.coin id) StateError.invalidTransition
      okOr (checkedAdd total coin.amount) .amountOverflow) = .ok t ↔
      ∃ coin, utxos.coins.get? id = some coin ∧ True ∧ t.val = total.val + coin.amount.val := by
    intro total id t
    simp [bind_eq_ok, UtxoSet.coin]
  rw [inputTotal, foldlM_lookup CoinUtxo.amount (fun _ => True) hf]
  simp [sumCoins]

/-! ## The application's run -/

theorem serve_askCoin {σ : Type} {h : Server CoinHost σ} {r : CoinRequest} {x : r.Answer}
    {s s' : σ} : serve h (askCoin r) s = (.ok x, s') ↔ h r s = (.ok x, s') := by
  rw [askCoin, serve_bind_ok]
  constructor
  · rintro ⟨answer, u, hreq, hlift⟩
    rw [serve_request_ok] at hreq
    rw [serve_lift_ok, mapError_eq_ok] at hlift
    obtain ⟨rfl, rfl⟩ := hlift
    exact hreq
  · intro hreq
    exact ⟨.ok x, s', serve_request_ok.mpr hreq, serve_lift_ok.mpr ⟨rfl, rfl⟩⟩

section
variable [Crypto] {p : BoundPayment} {host host' : CoinHostState}

variable {amount : Zeno} {id : CoinShare} {ids : List CoinShare} {u : Unit} {index : Nat}
  {outputs : List (Owner × Zeno)}

theorem kernelCoinHost_inputAmount :
    kernelCoinHost p (.inputAmount id) host = (.ok amount, host') ↔ id ∈ p.allowedInputs ∧
      ∃ coin, host.state.utxos.coins.get? id = some coin ∧ coin.amount = amount ∧ host = host' := by
  simp only [kernelCoinHost]
  by_cases hid : id ∈ p.allowedInputs
  · cases hc : host.state.utxos.coins.get? id with
    | none =>
      simp only [hid, not_true_eq_false, if_false, UtxoSet.coin, hc, reduceCtorEq,
        false_and, exists_false, and_false, iff_false]
      intro h
      cases congrArg Prod.fst h
    | some coin =>
      simp only [hid, not_true_eq_false, if_false, UtxoSet.coin, hc, Option.some.injEq, true_and,
        exists_eq_left']
      constructor
      · intro h
        exact ⟨Except.ok.inj (congrArg Prod.fst h), congrArg Prod.snd h⟩
      · rintro ⟨rfl, rfl⟩
        rfl
  · simp only [hid, not_false_eq_true, if_true, false_and, iff_false]
    intro h
    cases congrArg Prod.fst h

/-- The kernel's answers along a list of inputs: all are allowed and live, and the total is their
sum. -/
theorem serve_askInputTotal {total t : Zeno} :
    serve (kernelCoinHost p) (askInputTotal ids total) host = (.ok t, host') ↔
      host = host' ∧ (∀ id ∈ ids, id ∈ p.allowedInputs) ∧
      ∃ coins : List (CoinShare × CoinUtxo), coins.map Prod.fst = ids ∧
        (∀ e ∈ coins, host.state.utxos.coins.get? e.1 = some e.2) ∧
        t.val = total.val + sumCoins coins := by
  induction ids generalizing total with
  | nil =>
    rw [askInputTotal, serve_pure_ok]
    constructor
    · rintro ⟨rfl, rfl⟩
      exact ⟨rfl, by simp, [], rfl, by simp, rfl⟩
    · rintro ⟨rfl, _, coins, hmap, _, ht⟩
      obtain rfl := map_eq_nil_iff.mp hmap
      exact ⟨Fin.ext ht.symm, rfl⟩
  | cons id rest ih =>
    simp only [askInputTotal, serve_bind_ok, serve_askCoin, serve_lift_ok, okOr_eq_ok]
    constructor
    · rintro ⟨amount, _, hreq, sum, _, ⟨hsum, rfl⟩, hrest⟩
      obtain ⟨hid, coin, hcoin, rfl, rfl⟩ := kernelCoinHost_inputAmount.mp hreq
      obtain ⟨rfl, hall, coins, hmap, hlive, ht⟩ := ih.mp hrest
      rw [checkedAdd_eq_some] at hsum
      refine ⟨rfl, ?_, (id, coin) :: coins, by simp [hmap], ?_, ?_⟩
      · intro id' hid'
        rcases mem_cons.mp hid' with rfl | hid'
        · exact hid
        · exact hall id' hid'
      · intro e he
        rcases mem_cons.mp he with rfl | he
        · exact hcoin
        · exact hlive e he
      · simp only [sumCoins_cons]
        omega
    · rintro ⟨rfl, hall, coins, hmap, hlive, ht⟩
      obtain ⟨e, coins, rfl, rfl, htail⟩ := map_eq_cons_iff.mp hmap
      rw [sumCoins_cons] at ht
      have hlt : total.val + e.2.amount.val < 2 ^ 64 := by have := t.isLt; omega
      refine ⟨e.2.amount, host, kernelCoinHost_inputAmount.mpr ⟨hall e.1 mem_cons_self, e.2,
        hlive e mem_cons_self, rfl, rfl⟩, ⟨_, hlt⟩, host, ⟨checkedAdd_eq_some.mpr rfl, rfl⟩,
        ih.mpr ⟨rfl, ?_, coins, htail, ?_, ?_⟩⟩
      · exact fun id hid => hall id (mem_cons_of_mem _ hid)
      · exact fun d hd => hlive d (mem_cons_of_mem _ hd)
      · simp only
        omega

/-- The host after the listed coins were consumed. -/
def CoinHostState.consumed (host : CoinHostState) (coins : List (CoinShare × CoinUtxo))
    (utxos : UtxoSet) : CoinHostState :=
  ⟨{ host.state with utxos },
    { host.journal with consumedCoins := host.journal.consumedCoins ++ coins }⟩

/-- The host after the listed coins were created. -/
def CoinHostState.created (host : CoinHostState) (ids : List CoinShare) (utxos : UtxoSet) :
    CoinHostState :=
  ⟨{ host.state with utxos },
    { host.journal with createdCoinIds := host.journal.createdCoinIds ++ ids }⟩

theorem kernelCoinHost_consume :
    kernelCoinHost p (.consume id) host = (.ok (), host') ↔ id ∈ p.allowedInputs ∧
      ∃ coin utxos, host.state.utxos.consumeCoin id = .ok (coin, utxos) ∧
        host' = host.consumed [(id, coin)] utxos := by
  simp only [kernelCoinHost]
  by_cases hid : id ∈ p.allowedInputs
  · rcases hc : host.state.utxos.consumeCoin id with e | ⟨coin, utxos⟩
    · simp [hid]
    · simp [hid, CoinHostState.consumed, eq_comm]
  · simp [hid]

theorem serve_askConsume :
    serve (kernelCoinHost p) (askConsume ids) host = (.ok u, host') ↔
      (∀ id ∈ ids, id ∈ p.allowedInputs) ∧ ∃ coins utxos,
        consumeCoins host.state.utxos ids = .ok (coins, utxos) ∧
        host' = host.consumed coins utxos := by
  induction ids generalizing host with
  | nil =>
    rw [askConsume, serve_pure_ok]
    simp [consumeCoins, CoinHostState.consumed, eq_comm]
  | cons id rest ih =>
    simp only [askConsume, serve_bind_ok, serve_askCoin, ih, forall_mem_cons, consumeCoins,
      bind_eq_ok, mapError_eq_ok, return_eq_ok, Prod.mk.injEq]
    constructor
    · rintro ⟨_, _, hreq, hall, coins, utxos, hrest, rfl⟩
      obtain ⟨hid, coin, utxos₁, hone, rfl⟩ := kernelCoinHost_consume.mp hreq
      refine ⟨⟨hid, hall⟩, (id, coin) :: coins, utxos,
        ⟨(coin, utxos₁), hone, (coins, utxos), hrest, rfl, rfl⟩, ?_⟩
      simp [CoinHostState.consumed]
    · rintro ⟨⟨hid, hall⟩, _, _, ⟨⟨coin, utxos₁⟩, hone, ⟨coins, utxos⟩, hrest, rfl, rfl⟩, rfl⟩
      refine ⟨(), host.consumed [(id, coin)] utxos₁,
        kernelCoinHost_consume.mpr ⟨hid, coin, utxos₁, hone, rfl⟩, hall, coins, utxos, hrest, ?_⟩
      simp [CoinHostState.consumed]

theorem kernelCoinHost_create {index : U32} {owner : Owner} :
    kernelCoinHost p (.create index owner amount) host = (.ok (), host') ↔
      p.outputAt index = some (owner, amount) ∧
      ∃ utxos, host.state.utxos.insertCoin (.fromOutput p.commitment index) ⟨amount, owner⟩ =
      .ok utxos ∧
        host' = host.created [.fromOutput p.commitment index] utxos := by
  simp only [kernelCoinHost]
  by_cases hout : p.outputAt index = some (owner, amount)
  · rcases hc : host.state.utxos.insertCoin (.fromOutput p.commitment index) ⟨amount, owner⟩
      with e | utxos
    · simp [hout]
    · simp [hout, CoinHostState.created, eq_comm]
  · simp [hout]

/-- Every listed output is the payment's output at its position. -/
def BoundPayment.Lists (p : BoundPayment) (index : Nat) (outputs : List (Owner × Zeno)) : Prop :=
  ∀ i o, outputs[i]? = some o → ∃ j : U32, j.val = index + i ∧ p.outputAt j = some o

omit [Crypto] in
theorem BoundPayment.lists_cons {o : Owner × Zeno} {rest : List (Owner × Zeno)} :
    p.Lists index (o :: rest) ↔
      (∃ j : U32, j.val = index ∧ p.outputAt j = some o) ∧ p.Lists (index + 1) rest := by
  constructor
  · intro h
    refine ⟨h 0 o rfl, ?_⟩
    intro i o' ho'
    obtain ⟨j, hj, hat⟩ := h (i + 1) o' (by simpa using ho')
    exact ⟨j, by omega, hat⟩
  · rintro ⟨hhead, htail⟩ i o' ho'
    cases i with
    | zero =>
      obtain rfl : o = o' := by simpa using ho'
      exact hhead
    | succ i =>
      obtain ⟨j, hj, hat⟩ := htail i o' (by simpa using ho')
      exact ⟨j, by omega, hat⟩

theorem serve_askCreate :
    serve (kernelCoinHost p) (askCreate index outputs) host = (.ok u, host') ↔
      p.Lists index outputs ∧ ∃ ids utxos,
        createCoins p.commitment index host.state.utxos outputs = .ok (ids, utxos) ∧
          host' = host.created ids utxos := by
  induction outputs generalizing host index with
  | nil =>
    rw [askCreate, serve_pure_ok]
    simp [createCoins, CoinHostState.created, BoundPayment.Lists, eq_comm]
  | cons o rest ih =>
    obtain ⟨owner, amount⟩ := o
    simp only [askCreate, serve_bind_ok, serve_askCoin, serve_lift_ok, okOr_eq_ok,
      ofNat?_eq_some, ih, BoundPayment.lists_cons, createCoins, bind_eq_ok, mapError_eq_ok,
        return_eq_ok,
      Prod.mk.injEq]
    have hindex : ∀ {j : U32}, j.val = index → Fin.ofNat (2 ^ 32) index = j := by
      rintro j rfl
      exact Fin.ofNat_val_eq_self j
    constructor
    · rintro ⟨j, _, ⟨hj, rfl⟩, _, _, hreq, hlists, ids, utxos, hrest, rfl⟩
      obtain ⟨hat, utxos₁, hone, rfl⟩ := kernelCoinHost_create.mp hreq
      refine ⟨⟨⟨j, hj, hat⟩, hlists⟩, .fromOutput p.commitment j :: ids, utxos,
        ⟨utxos₁, by rw [hindex hj]; exact hone, (ids, utxos), hrest, by rw [hindex hj], rfl⟩, ?_⟩
      simp [CoinHostState.created]
    · rintro ⟨⟨⟨j, hj, hat⟩, hlists⟩, _, _, ⟨utxos₁, hone, ⟨ids, utxos⟩, hrest, rfl, rfl⟩, rfl⟩
      rw [hindex hj] at hone ⊢
      refine ⟨j, host, ⟨hj, rfl⟩, (), host.created [.fromOutput p.commitment j] utxos₁,
        kernelCoinHost_create.mpr ⟨hat, utxos₁, hone, rfl⟩, hlists, ids, utxos, hrest, ?_⟩
      simp [CoinHostState.created]

theorem kernelCoinHost_burn :
    kernelCoinHost p (.burn amount) host = (.ok (), host') ↔
      amount = p.expectedBurn ∧ host.journal.burned = 0 ∧
        host.state.recordProtocolBurn amount host.journal = .ok (host'.state, host'.journal) := by
  simp only [kernelCoinHost]
  by_cases hbad : amount ≠ p.expectedBurn ∨ host.journal.burned ≠ 0
  · simp only [if_pos hbad, Prod.mk.injEq, reduceCtorEq, false_and, false_iff]
    rintro ⟨h, h', _⟩
    exact hbad.elim (fun hne => hne h) fun hne => hne h'
  · obtain ⟨hamount, hburned⟩ := not_or.mp hbad
    rcases hc : host.state.recordProtocolBurn amount host.journal with e | ⟨state, journal⟩
    · simp [if_neg hbad]
    · obtain ⟨state', journal'⟩ := host'
      simp [not_not.mp hamount, not_not.mp hburned]

omit [Crypto] in
theorem BoundPayment.lists_outputs {fee : List (Owner × Zeno)}
    (hfee : fee = if p.minerFee = 0 then [] else [(.program p.miner, p.minerFee)]) :
    p.Lists 0 (p.outputs ++ fee) ↔ (p.outputs ++ fee).length ≤ 2 ^ 32 := by
  constructor
  · intro h
    by_contra hlen
    have hlast : (2 ^ 32 : Nat) < (p.outputs ++ fee).length := not_le.mp hlen
    obtain ⟨j, hj, _⟩ := h (2 ^ 32) _ (getElem?_eq_getElem hlast)
    have := j.isLt
    omega
  · intro hlen i o ho
    have hi := (List.getElem?_eq_some_iff.mp ho).1
    refine ⟨⟨i, by omega⟩, by simp, ?_⟩
    rw [BoundPayment.outputAt]
    rcases lt_or_ge i p.outputs.length with hlt | hge
    · rw [getElem?_append_left hlt] at ho
      simp [ho]
    · rw [getElem?_append_right hge, hfee] at ho
      split_ifs at ho with hzero
      · cases ho
      · have hone := (List.getElem?_eq_some_iff.mp ho).1
        rw [length_singleton] at hone
        obtain rfl : i = p.outputs.length := by omega
        obtain rfl : (Owner.program p.miner, p.minerFee) = o := by simpa using ho
        simp [hzero]

theorem serve_executeTransfer {inputs : List CoinShare} {miner : ProgramId} {fee : Zeno} :
    serve (kernelCoinHost p) (executeTransfer inputs outputs miner fee) host = (.ok (), host') ↔
      (∀ id ∈ inputs, id ∈ p.allowedInputs) ∧
      p.Lists 0 (outputs ++ if fee = 0 then [] else [(.program miner, fee)]) ∧
      ∃ (burn : Zeno) (coins : List (CoinShare × CoinUtxo)) (utxos : UtxoSet) (ids : List CoinShare)
        (utxos' : UtxoSet),
        consumeCoins host.state.utxos inputs = .ok (coins, utxos) ∧
        createCoins p.commitment 0 utxos (outputs ++ if fee = 0 then []
        else [(.program miner, fee)]) =
          .ok (ids, utxos') ∧
        sumCoins coins = (outputs.map fun o => o.2.val).sum + fee.val + burn.val ∧
        kernelCoinHost p (.burn burn) ((host.consumed coins utxos).created ids utxos') =
        (.ok (), host') := by
  have hsums : ∀ amounts : List Zeno, ∀ t : Zeno,
      sumAmounts amounts = some t ↔ t.val = (amounts.map Fin.val).sum := by
    intro amounts t
    rw [sumAmounts, foldlM_checkedAdd]
    simp
  simp only [executeTransfer, serve_bind_ok, serve_askInputTotal, serve_lift_ok, okOr_eq_ok,
    serve_askConsume, serve_askCreate, serve_askCoin, hsums, map_map, Option.bind_eq_some_iff,
      checkedSub_eq_some,
    serve_pure_ok]
  constructor
  · rintro ⟨inputTotal, _, ⟨rfl, _, coins, hmap, hlive, hin⟩, outputTotal, _, ⟨hout, rfl⟩, burn, _,
      ⟨⟨remaining, hrem, hburn⟩, rfl⟩, _, _, ⟨hall, coins', utxos, hconsume, rfl⟩, _, _,
      ⟨hlists, ids, utxos', hcreate, rfl⟩, _, _, hlast, ⟨⟩, rfl⟩
    obtain ⟨hmap', _, hlive', _⟩ := consumeCoins_ok hconsume
    obtain rfl := lookup_unique (hmap'.trans hmap.symm) hlive' hlive
    refine ⟨hall, hlists, burn, coins', utxos, ids, utxos', hconsume, hcreate, ?_, hlast⟩
    simp only [Function.comp_def] at hout
    have h0 : (0 : Zeno).val = 0 := rfl
    omega
  · rintro ⟨hall, hlists, burn, coins, utxos, ids, utxos', hconsume, hcreate, hsum, hlast⟩
    obtain ⟨hmap, _, hlive, _, htotal, _⟩ := consumeCoins_ok hconsume
    have h0 : (0 : Zeno).val = 0 := rfl
    have hlt := host.state.utxos.totalValue.isLt
    refine ⟨⟨sumCoins coins, by omega⟩, host, ⟨rfl, hall, coins, hmap, hlive, by simp⟩,
      ⟨(outputs.map fun o => o.2.val).sum, by omega⟩, host, ⟨by simp [Function.comp_def], rfl⟩,
      burn, host, ⟨⟨⟨fee.val + burn.val, by omega⟩, ?_, ?_⟩, rfl⟩,
      (), _, ⟨hall, coins, utxos, hconsume, rfl⟩, (), _,
      ⟨hlists, ids, utxos', hcreate, rfl⟩, (), host', hlast, trivial, rfl⟩
    · simp only
      omega
    · simp only
      omega

end

/-! ## The whole payment -/

section
variable [Crypto]

/-- The payment `intent` consumed `coins`, burned `burn` and led from `s` to `s'`. -/
structure Paid (s : LedgerState) (intent : CoinTransition) (commitment : AuthorizationCommitment)
    (miner : ProgramId) (coins : List (CoinShare × CoinUtxo)) (burn : Zeno)
    (s' : LedgerState) : Prop where
  moved : ∃ ids utxos, consumeCoins s.utxos intent.inputs = .ok (coins, utxos) ∧
    createCoins commitment 0 utxos (intent.allOutputs miner) = .ok (ids, s'.utxos)
  balanced : sumCoins coins = intent.outputSum + intent.charges.minerFee.val + burn.val
  burned : s'.coin.totalBurned.val = s.coin.totalBurned.val + burn.val
  mined : s'.coin.totalMined = s.coin.totalMined
  programs : s'.programs = s.programs
  assets : s'.assets = s.assets
  indexed : (intent.allOutputs miner).length ≤ 2 ^ 32

/-- The journal of a payment. -/
def paymentJournal (intent : CoinTransition) (commitment : AuthorizationCommitment)
    (miner : ProgramId) (coins : List (CoinShare × CoinUtxo)) (burn : Zeno) : CoinRollbackJournal :=
  ⟨coins, (outputCoins commitment 0 (intent.allOutputs miner)).map Prod.fst, 0, burn⟩

variable {s s' : LedgerState} {intent : CoinTransition} {commitment : AuthorizationCommitment}
  {miner : ProgramId} {coins : List (CoinShare × CoinUtxo)} {burn : Zeno}

omit [Crypto] in
theorem bindPayment_eq_ok {p : BoundPayment} : bindPayment s intent commitment miner = .ok p ↔
    ∃ (coins : List (CoinShare × CoinUtxo)) (burn : Zeno), coins.map Prod.fst = intent.inputs ∧
      (∀ e ∈ coins, s.utxos.coins.get? e.1 = some e.2) ∧ sumCoins coins < 2 ^ 64 ∧
      sumCoins coins = intent.outputSum + intent.charges.minerFee.val + burn.val ∧
      p = ⟨intent.inputs, intent.outputPairs, miner, intent.charges.minerFee, burn,
      commitment⟩ := by
  simp only [bindPayment, bind_eq_ok, inputTotal_eq_ok, okOr_eq_ok, foldlM_checkedAdd,
    checkedSub_eq_some, return_eq_ok, map_map]
  constructor
  · rintro ⟨inputTotal, ⟨coins, hmap, hlive, hin⟩, outputTotal, hout, burn, hburn, rfl⟩
    refine ⟨coins, burn, hmap, hlive, hin ▸ inputTotal.isLt, ?_, rfl⟩
    simp only [Function.comp_def] at hout
    rw [CoinTransition.outputSum]
    omega
  · rintro ⟨coins, burn, hmap, hlive, hlt, hsum, rfl⟩
    refine ⟨⟨sumCoins coins, hlt⟩, ⟨coins, hmap, hlive, rfl⟩,
      ⟨intent.outputSum + intent.charges.minerFee.val, by omega⟩, ?_, burn, ?_, rfl⟩
    · simp only [Function.comp_def, CoinTransition.outputSum]
      omega
    · simp only
      omega

/-- What a successful payment did. -/
theorem executeCoinProgram_ok {journal : CoinRollbackJournal}
    (h : executeCoinProgram s intent commitment miner systemApplications = .ok (journal, s')) :
    ∃ coins burn, journal = paymentJournal intent commitment miner coins burn ∧
      Paid s intent commitment miner coins burn s' := by
  rw [executeCoinProgram, bind_eq_ok] at h
  obtain ⟨p, hbind, h⟩ := h
  obtain ⟨coins, burn, hmap, hlive, _, hsum, rfl⟩ := bindPayment_eq_ok.mp hbind
  dsimp only [systemApplications] at h
  rcases hrun : serve (kernelCoinHost ⟨intent.inputs, intent.outputPairs, miner,
    intent.charges.minerFee, burn, commitment⟩) (executeTransfer intent.inputs intent.outputPairs
      miner intent.charges.minerFee)
    ⟨s, .empty⟩ with ⟨_ | ⟨⟩, host⟩
  · rw [hrun] at h
    simp only [Except.mapError, error_bind, bind_eq_ok] at h
    obtain ⟨_, _, h⟩ := h
    cases h
  · rw [hrun] at h
    simp only [Except.mapError, ok_bind] at h
    split at h
    · simp only [return_eq_ok, Prod.mk.injEq] at h
      obtain ⟨rfl, rfl⟩ := h
      obtain ⟨_, hlists, burn', coins', utxos, ids, utxos', hconsume, hcreate, hsum', hburn⟩ :=
        serve_executeTransfer.mp hrun
      obtain ⟨hburn', _, hrecord⟩ := kernelCoinHost_burn.mp hburn
      simp only at hburn'
      subst hburn'
      obtain ⟨hmap', _, hlive', _⟩ := consumeCoins_ok hconsume
      obtain rfl := lookup_unique (hmap'.trans hmap.symm) hlive' hlive
      simp only [LedgerState.recordProtocolBurn, bind_eq_ok, okOr_eq_ok, checkedAdd_eq_some,
        return_eq_ok, Prod.mk.injEq] at hrecord
      obtain ⟨totalBurned, htotal, journalBurned, hjournal, hstate, hjournal'⟩ := hrecord
      refine ⟨coins', burn', ?_, ⟨⟨ids, utxos, hconsume, ?_⟩, hsum, ?_, ?_, ?_, ?_, ?_⟩⟩
      · rw [← hjournal']
        obtain rfl := (createCoins_ok hcreate).1
        have : journalBurned = burn' := by
          apply Fin.ext
          rw [hjournal]
          simp [CoinHostState.consumed, CoinHostState.created, CoinRollbackJournal.empty]
        simp [CoinHostState.consumed, CoinHostState.created, CoinRollbackJournal.empty,
          paymentJournal, this, CoinTransition.allOutputs]
      · rw [← hstate]
        exact hcreate
      · rw [← hstate]
        exact htotal
      · rw [← hstate]
        rfl
      · rw [← hstate]
        rfl
      · rw [← hstate]
        rfl
      · exact (BoundPayment.lists_outputs rfl).mp hlists
    · simp only [bind_eq_ok] at h
      obtain ⟨_, _, h⟩ := h
      cases h

/-- A payment that can be made is made. -/
theorem executeCoinProgram_of_paid (h : Paid s intent commitment miner coins burn s') :
    executeCoinProgram s intent commitment miner systemApplications =
      .ok (paymentJournal intent commitment miner coins burn, s') := by
  obtain ⟨ids, utxos, hconsume, hcreate⟩ := h.moved
  obtain ⟨hmap, _, hlive, _, htotal, _⟩ := consumeCoins_ok hconsume
  obtain ⟨hids, _⟩ := createCoins_ok hcreate
  have hlt := s.utxos.totalValue.isLt
  have hbind : bindPayment s intent commitment miner = .ok ⟨intent.inputs, intent.outputPairs,
      miner, intent.charges.minerFee, burn, commitment⟩ :=
    bindPayment_eq_ok.mpr ⟨coins, burn, hmap, hlive, by omega, h.balanced, rfl⟩
  have hrecord : LedgerState.recordProtocolBurn
      (((CoinHostState.consumed ⟨s, .empty⟩ coins utxos).created ids s'.utxos).state) burn
      (((CoinHostState.consumed ⟨s, .empty⟩ coins utxos).created ids s'.utxos).journal) =
        .ok (s', paymentJournal intent commitment miner coins burn) := by
    simp only [LedgerState.recordProtocolBurn, bind_eq_ok, okOr_eq_ok, checkedAdd_eq_some,
      return_eq_ok, Prod.mk.injEq]
    refine ⟨s'.coin.totalBurned, h.burned, burn, ?_, ?_, ?_⟩
    · simp [CoinHostState.consumed, CoinHostState.created, CoinRollbackJournal.empty]
    · obtain ⟨utxos', ⟨mined, burned⟩, programs, assets⟩ := s'
      obtain rfl := h.mined
      obtain rfl := h.programs
      obtain rfl := h.assets
      rfl
    · simp [CoinHostState.consumed, CoinHostState.created, CoinRollbackJournal.empty,
        paymentJournal, hids]
  have hsum : sumCoins coins = (intent.outputPairs.map fun o => o.2.val).sum +
      intent.charges.minerFee.val + burn.val := by
    rw [h.balanced, CoinTransition.outputSum, CoinTransition.outputPairs, map_map]
    rfl
  have hrun : serve (kernelCoinHost ⟨intent.inputs, intent.outputPairs, miner,
      intent.charges.minerFee, burn, commitment⟩) (executeTransfer intent.inputs intent.outputPairs
        miner intent.charges.minerFee)
      ⟨s, .empty⟩ = (.ok (), ⟨s', paymentJournal intent commitment miner coins burn⟩) :=
    serve_executeTransfer.mpr ⟨fun _ hid => hid, (BoundPayment.lists_outputs rfl).mpr h.indexed,
      burn, coins, utxos, ids, s'.utxos, hconsume, hcreate, hsum,
        kernelCoinHost_burn.mpr ⟨rfl, rfl, hrecord⟩⟩
  have hlen := intent.length_allOutputs miner
  have hcoins : coins.length = intent.inputs.length := by rw [← hmap, length_map]
  rw [executeCoinProgram, hbind]
  simp only [ok_bind, systemApplications, hrun, Except.mapError]
  rw [rejectIf, if_neg]
  · rfl
  · simp [paymentJournal, length_outputCoins, hlen, hcoins]

/-- The kernel makes exactly the payments that can be made, and records them as they are. -/
theorem executeCoinProgram_eq_ok {journal : CoinRollbackJournal} :
    executeCoinProgram s intent commitment miner systemApplications = .ok (journal, s') ↔
      ∃ coins burn, journal = paymentJournal intent commitment miner coins burn ∧
        Paid s intent commitment miner coins burn s' := by
  constructor
  · exact executeCoinProgram_ok
  · rintro ⟨coins, burn, rfl, hpaid⟩
    exact executeCoinProgram_of_paid hpaid

/-! ## What follows from a payment -/

theorem Paid.inputs_eq (h : Paid s intent commitment miner coins burn s') :
    coins.map Prod.fst = intent.inputs := by
  obtain ⟨_, _, hconsume, _⟩ := h.moved
  exact (consumeCoins_ok hconsume).1

theorem Paid.netChange (h : Paid s intent commitment miner coins burn s') :
    NetChange coins ((outputCoins commitment 0 (intent.allOutputs miner)).map Prod.fst)
      s.utxos.coins
      s'.utxos.coins := by
  obtain ⟨ids, utxos, hconsume, hcreate⟩ := h.moved
  obtain ⟨hmap, hnodup, hlive, hcoins, -, -⟩ := consumeCoins_ok hconsume
  obtain ⟨rfl, hfresh_nodup, hfresh, hcoins', -, -⟩ := createCoins_ok hcreate
  rw [← hmap] at hcoins hnodup
  rw [hcoins] at hfresh hcoins'
  rw [hcoins']
  have := (NetChange.erased hnodup hlive).trans (NetChange.inserted hfresh_nodup hfresh) (by simp)
  simpa using this

theorem Paid.wellFormed (h : Paid s intent commitment miner coins burn s')
    (hs : s.utxos.WellFormed) : s'.utxos.WellFormed := by
  obtain ⟨ids, utxos, hconsume, hcreate⟩ := h.moved
  exact (createCoins_ok hcreate).2.2.2.2.2 ((consumeCoins_ok hconsume).2.2.2.2.2 hs)

theorem Paid.totalValue (h : Paid s intent commitment miner coins burn s') :
    s'.utxos.totalValue.val + burn.val = s.utxos.totalValue.val := by
  obtain ⟨ids, utxos, hconsume, hcreate⟩ := h.moved
  have hin := (consumeCoins_ok hconsume).2.2.2.2.1
  have hout := (createCoins_ok hcreate).2.2.2.2.1
  rw [sumCoins_outputCoins, CoinTransition.sum_allOutputs] at hout
  have := h.balanced
  omega

theorem Paid.get?_output (h : Paid s intent commitment miner coins burn s')
    {e : CoinShare × CoinUtxo} (he : e ∈ outputCoins commitment 0 (intent.allOutputs miner)) :
    s'.utxos.coins.get? e.1 = some e.2 := by
  obtain ⟨ids, utxos, _, hcreate⟩ := h.moved
  obtain ⟨rfl, hnodup, -, hcoins, -, -⟩ := createCoins_ok hcreate
  rw [hcoins]
  exact get?_insertAll_of_mem hnodup he

/-- A balanced payment of live coins with nonzero outputs under fresh identifiers can be made. -/
theorem exists_paid (hwf : s.utxos.WellFormed) (hmap : coins.map Prod.fst = intent.inputs)
    (hnodup : intent.inputs.Nodup) (hlive : ∀ e ∈ coins, s.utxos.coins.get? e.1 = some e.2)
    (hsum : sumCoins coins = intent.outputSum + intent.charges.minerFee.val + burn.val)
    (hzero : ∀ o ∈ intent.outputs, o.amount ≠ 0)
    (hids : ((outputCoins commitment 0 (intent.allOutputs miner)).map Prod.fst).Nodup)
    (hfresh : ∀ id ∈ (outputCoins commitment 0 (intent.allOutputs miner)).map Prod.fst,
      s.utxos.coins.get? id = none)
    (hindexed : (intent.allOutputs miner).length ≤ 2 ^ 32)
    (hburned : s.coin.totalBurned.val + burn.val < 2 ^ 64) :
    ∃ s', Paid s intent commitment miner coins burn s' := by
  obtain ⟨utxos, hconsume⟩ := exists_consumeCoins hwf (hmap ▸ hnodup) hlive
  rw [hmap] at hconsume
  obtain ⟨-, -, -, hcoins, htotal, -⟩ := consumeCoins_ok hconsume
  have hnonzero : ∀ o ∈ intent.allOutputs miner, o.2 ≠ 0 := by
    intro o ho
    unfold CoinTransition.allOutputs CoinTransition.outputPairs at ho
    rcases mem_append.mp ho with ho | ho
    · obtain ⟨output, houtput, rfl⟩ := mem_map.mp ho
      exact hzero output houtput
    · split_ifs at ho with hfee
      · cases ho
      · rw [mem_singleton.mp ho]
        exact hfee
  have hfresh' : ∀ id ∈ (outputCoins commitment 0 (intent.allOutputs miner)).map Prod.fst,
      utxos.coins.get? id = none := by
    intro id hid
    rw [hcoins, get?_eraseAll, hfresh id hid]
    split <;> rfl
  have hlt := s.utxos.totalValue.isLt
  obtain ⟨ids, utxos', hcreate⟩ := exists_createCoins hnonzero hids hfresh' (by
    rw [CoinTransition.sum_allOutputs]
    omega)
  exact ⟨{ s with utxos := utxos', coin := { s.coin with totalBurned := ⟨_, hburned⟩ } },
    ⟨ids, utxos, hconsume, hcreate⟩, hsum, rfl, rfl, rfl, rfl, hindexed⟩

end

end Xparq
