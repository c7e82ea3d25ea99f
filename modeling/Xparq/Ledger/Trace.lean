import Xparq.Ledger.Snapshot

/-!
# Blocks of a history, operation by operation

`History.keeps` is the induction over histories that can roll back: what a commit adds on top of
a trace, and what depends on the canonical state only, holds of every history.

Inside a block, `paymentStart` is the state an operation's payment is made on, and
`stageOperation_paid` says that a staged operation is paid for on it. `observeOperations` runs the
operations of a block and collects what an observer reads off each of them; it changes nothing
(`observeOperations_ok`).
-/

namespace Xparq

open Machine Outcome OrderedMap LedgerState

section
variable [Crypto]

/-! ## Histories -/

namespace Ledger

variable {l : Ledger} {trace : List (Ledger × Block)}

/-- A rollback leads to a ledger below, so the property is carried along for all of them. -/
theorem History.keeps {J : Ledger → List (Ledger × Block) → Prop}
    (hnew : J (Ledger.new systemApplications) [])
    (hcommit : ∀ l b l' trace, Backed l trace → J l trace → Commits l b l' → J l' ((l, b) :: trace))
    (hagrees : ∀ l m trace, Agrees l m → J m trace → J l trace) (h : History l trace) :
    J l trace := by
  suffices hall : J l trace ∧ ∀ front p b rest, trace = front ++ (p, b) :: rest → J p rest
      from hall.1
  induction h with
  | new => exact ⟨hnew, by simp⟩
  | @commit l l' trace b h hcommits ih =>
    refine ⟨hcommit l b l' trace h.backed ih.1 hcommits, ?_⟩
    intro front p b' rest heq
    cases front with
    | nil =>
      cases heq
      exact ih.1
    | cons e front => exact ih.2 front p b' rest (List.cons.inj heq).2
  | rollback h hrollback ih =>
    obtain ⟨p, rest, rfl, hback, _⟩ := h.backed.rollbackTip_ok hrollback
    refine ⟨hagrees _ p rest hback (ih.2 [] p _ rest rfl), ?_⟩
    intro front p' b' rest' heq
    exact ih.2 (_ :: front) p' b' rest' (congrArg _ heq)
  | @prune l trace _ height ih =>
    have hsame : Agrees (l.pruneRollbackJournalsBefore height) l := ⟨rfl, rfl, .refl _⟩
    exact ⟨hagrees _ l trace hsame ih.1, ih.2⟩

end Ledger

/-! ## Operations and their payments -/

namespace BlockOperation

/-- What the payment of an operation is bound to. -/
def commitment (chain : ChainContext) : BlockOperation → Except LedgerError AuthorizationCommitment
  | .programCall tx => (programInvocationCommitment tx.signer tx.call tx.payment chain).mapError
      fun e => .programCall (.intent e)
  | .deployProgram signed => orError (signed.commitment chain) (.state .invalidTransition)

/-- The commitment of an operation and the state its payment is made on: a call takes effect
before it is paid for. -/
def paymentStart (apps : ApplicationExecutor) (chain : ChainContext) (height : Height)
    (s : LedgerState) (op : BlockOperation) :
    Except LedgerError (AuthorizationCommitment × LedgerState) := do
  let commitment ← op.commitment chain
  match op with
  | .programCall tx =>
    let (_, s) ← s.applyCall tx height commitment chain apps
    return (commitment, s)
  | .deployProgram _ => return (commitment, s)

end BlockOperation

/-- The payment of an operation on a state: it is made after the call's effect, from coins that were
live before it. -/
structure PaymentOf (chain : ChainContext) (height : Height) (miner : ProgramId) (s : LedgerState)
    (op : BlockOperation) (commitment : AuthorizationCommitment) (s₁ : LedgerState)
    (coins : List (CoinShare × CoinUtxo)) (burn : Zeno) (s₂ : LedgerState) : Prop where
  start : op.paymentStart systemApplications chain height s = .ok (commitment, s₁)
  run : executeCoinProgram s₁ op.payment commitment miner systemApplications =
    .ok (paymentJournal op.payment commitment miner coins burn, s₂)
  paid : Paid s₁ op.payment commitment miner coins burn s₂
  coin : s₁.coin = s.coin
  spends : op.payment.inputs ≠ []
  live : ∀ share ∈ op.payment.inputs, share ∈ s.utxos.coins.keys

omit [Crypto] in
theorem Spendable.mem_keys {payment : CoinTransition} {signer : ProgramId} {s : LedgerState}
    {coins : List (CoinShare × CoinUtxo)} (h : Spendable payment signer s coins) :
    ∀ share ∈ payment.inputs, share ∈ s.utxos.coins.keys := by
  intro share hshare
  rw [← h.inputs] at hshare
  obtain ⟨e, he, rfl⟩ := List.mem_map.mp hshare
  exact mem_keys_iff.mpr ⟨e.2, h.live e he⟩

variable {chain : ChainContext} {height : Height} {miner : ProgramId} {staged staged' : Staged}

/-- A staged operation is paid for, and nothing else of it changes the coin record or, after the
payment, the coins. -/
theorem stageOperation_paid {op : BlockOperation} (hs : staged.state.Sound)
    (h : stageOperation systemApplications chain height miner staged op = .ok staged') :
    ∃ commitment s₁ coins burn s₂, PaymentOf chain height miner staged.state op commitment
      s₁ coins burn s₂ ∧
      staged'.state.coin = s₂.coin ∧ staged'.state.utxos.coins = s₂.utxos.coins := by
  obtain ⟨journal, _, hstaged⟩ := stageOperation_by hs h
  cases hstaged with
  | @call tx _ effect commitment _ coins burn s₁ s₂ _ _ hspend hcommitment hcall hdid hpay
    hpaid _ hsame =>
    refine ⟨commitment, s₁, coins, burn, s₂, ⟨?_, hpay, hpaid, hdid.coin, ?_, hspend.mem_keys⟩,
      hsame.coin, hsame.coins⟩
    · simp only [BlockOperation.paymentStart, BlockOperation.commitment, bind_eq_ok,
        Prod.exists, mapError_eq_ok, return_eq_ok, Prod.mk.injEq]
      exact ⟨commitment, hcommitment, effect, s₁, hcall, rfl, rfl⟩
    · simp only [programInvocationCommitment, checkInvocation, bind_eq_ok] at hcommitment
      obtain ⟨_, ⟨_, _, _, hpayment, _⟩, _⟩ := hcommitment
      exact (CoinTransition.validate_ok hpayment).2.2.1
  | @deploy signed prepared _ coins burn _ _ _ s₁ _ hvalid hspend hpay hpaid _ _ hsame =>
    obtain ⟨_, _, hcommitment, hquote, _⟩ := validateDeploy_ok hvalid
    refine ⟨prepared.commitment, staged.state, coins, burn, s₁,
      ⟨?_, hpay, hpaid, rfl, ?_, hspend.mem_keys⟩, hsame.coin, hsame.coins⟩
    · simp only [BlockOperation.paymentStart, BlockOperation.commitment, bind_eq_ok, orError_eq_ok,
        return_eq_ok]
      exact ⟨_, hcommitment, rfl⟩
    · simp only [quoteDeployBurn, checkDeploy, bind_eq_ok, orError_eq_ok] at hquote
      obtain ⟨_, ⟨_, _, _, hpayment, _⟩, _⟩ := hquote
      exact (CoinTransition.validate_ok hpayment).2.2.1

/-! ## Observing a block -/

variable {α : Type}

/-- Run the operations and collect what is read off each of them, on the state before it. -/
def observeOperations (look : LedgerState → BlockOperation → Except LedgerError α)
    (apps : ApplicationExecutor) (chain : ChainContext) (height : Height) (miner : ProgramId) :
    List BlockOperation → Staged → Except LedgerError (List α × Staged)
  | [], staged => .ok ([], staged)
  | op :: rest, staged => do
      let seen ← look staged.state op
      let staged ← stageOperation apps chain height miner staged op
      let (others, staged) ← observeOperations look apps chain height miner rest staged
      return (seen :: others, staged)

/-- An observer that can look at every operation that is staged sees the whole block; what holds of
the operations done and seen is carried along. -/
theorem observeOperations_ok {look : LedgerState → BlockOperation → Except LedgerError α}
    (K : List BlockOperation → List α → Staged → Prop)
    (hstep : ∀ done seen staged op staged', staged.state.Sound → K done seen staged →
      stageOperation systemApplications chain height miner staged op = .ok staged' →
      ∃ a, look staged.state op = .ok a ∧ K (done ++ [op]) (seen ++ [a]) staged')
    {operations : List BlockOperation} (done : List BlockOperation) (seen : List α)
    (hs : staged.state.Sound) (hK : K done seen staged)
    (h : operations.foldlM (stageOperation systemApplications chain height miner) staged =
      .ok staged') :
    ∃ seen', observeOperations look systemApplications chain height miner operations staged =
      .ok (seen', staged') ∧ K (done ++ operations) (seen ++ seen') staged' := by
  induction operations generalizing done seen staged with
  | nil =>
    cases h
    exact ⟨[], rfl, by simpa using hK⟩
  | cons op rest ih =>
    rw [List.foldlM_cons, bind_eq_ok] at h
    obtain ⟨middle, hone, hrest⟩ := h
    obtain ⟨a, hlook, hK'⟩ := hstep done seen staged op middle hs hK hone
    obtain ⟨_, _, _, happlied⟩ := stageOperation_ok hs hone
    obtain ⟨seen', hobserve, hfinal⟩ := ih _ _ happlied.sound hK' hrest
    refine ⟨a :: seen', ?_, by simpa using hfinal⟩
    rw [observeOperations, hlook, ok_bind, hone, ok_bind, hobserve]
    rfl

end

end Xparq
