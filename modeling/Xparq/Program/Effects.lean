import Xparq.Program.Steps

/-!
# The effects of an invocation

`Engine.Effects start e` says how the engine's notes account for the difference between its
state and the state it started from: the consumed and created coins, the asset journal and the
registry logs lead back, the coins keep their value, and what was consumed belonged to programs
that were entered. Every step keeps it, so `applyVm_effect` gives it for every successful
invocation in the form of the journals that `applyVm` returns.
-/

namespace Xparq

open Machine Outcome OrderedMap

variable [Crypto]

/-! ## Coin moves -/

section
variable {id : ProgramId} {origin : Hash} {coins : List (CoinShare × CoinUtxo)}
  {outputs : List (Owner × Zeno)} {utxos utxos' : UtxoSet}

theorem CoinMove.consumed_live (h : CoinMove id origin coins outputs utxos utxos') :
    (coins.map Prod.fst).Nodup ∧ ∀ c ∈ coins, utxos.coins.get? c.1 = some c.2 := by
  obtain ⟨mid, hconsume, _⟩ := h.moved
  exact ⟨(consumeCoins_ok hconsume).2.1, (consumeCoins_ok hconsume).2.2.1⟩

theorem CoinMove.tracks (h : CoinMove id origin coins outputs utxos utxos')
    {log : NetLog CoinShare CoinUtxo} {start : OrderedMap CoinShare CoinUtxo}
    (htracks : log.Tracks start utxos.coins) :
    (((outputCoins origin 0 outputs).map Prod.fst).foldl NetLog.add
      (coins.foldl NetLog.remove log)).Tracks start utxos'.coins := by
  obtain ⟨hnodup, hlive⟩ := h.consumed_live
  obtain ⟨mid, hconsume, hcreate⟩ := h.moved
  obtain ⟨-, -, -, hcoins, -, -⟩ := consumeCoins_ok hconsume
  obtain ⟨-, hnodup', hfresh, hcoins', -, -⟩ := createCoins_ok hcreate
  rw [hcoins] at hcoins' hfresh
  rw [hcoins']
  exact (htracks.removeAll hnodup hlive).addAll hnodup' hfresh

theorem CoinMove.wellFormed (h : CoinMove id origin coins outputs utxos utxos')
    (hwf : utxos.WellFormed) : utxos'.WellFormed := by
  obtain ⟨mid, hconsume, hcreate⟩ := h.moved
  exact (createCoins_ok hcreate).2.2.2.2.2 ((consumeCoins_ok hconsume).2.2.2.2.2 hwf)

theorem CoinMove.totalValue (h : CoinMove id origin coins outputs utxos utxos') :
    utxos'.totalValue = utxos.totalValue := by
  obtain ⟨mid, hconsume, hcreate⟩ := h.moved
  have hin := (consumeCoins_ok hconsume).2.2.2.2.1
  have hout := (createCoins_ok hcreate).2.2.2.2.1
  rw [sumCoins_outputCoins, ← h.balanced] at hout
  apply Fin.ext
  omega

end

/-! ## Asset calls -/

variable {journal : AssetJournal} {s : LedgerState} {applied : AppliedVm}

theorem AssetState.apply_undoes {call : AssetCall} {context : ExecutionContext} {s s' : AssetState}
    (h : AssetState.apply call context s = (.ok journal, s')) :
    journal.Undoes s' s := by
  obtain ⟨plan, s₁, _, _, hundo, rfl⟩ := AssetState.apply_ok h
  exact hundo

omit [Crypto] in
theorem ExtensionUndoes.merge {previous : Option AssetJournal} {start mid now : AssetState}
    (h : ExtensionUndoes previous mid start) (hnext : journal.Undoes now mid) :
    ExtensionUndoes (some (mergeJournal previous journal)) now start := by
  cases previous with
  | none =>
    obtain ⟨hrecords, hshares⟩ := h
    refine ⟨?_, ?_⟩
    · rw [← hrecords]
      exact hnext.1
    · rw [← hshares]
      exact hnext.2
  | some p => exact ⟨h.1.merge hnext.1, h.2.merge hnext.2⟩

/-! ## The engine -/

namespace Engine

structure Effects (start : LedgerState) (e : Engine) : Prop where
  net : e.notes.Tracks start.utxos.coins e.state.utxos.coins
  coin : e.state.coin = start.coin
  totalValue : e.state.utxos.totalValue = start.utxos.totalValue
  extension : ExtensionUndoes e.asset e.state.assets start.assets
  programs : ProgramRegistry.Undoes e.states e.storage e.state.programs start.programs
  sound : e.state.Sound
  owned : ∀ k c, e.consumed.get? k = some c → ∃ id ∈ e.entered, c.owner = .program id
  registered : ∀ id ∈ e.entered, ∃ r, start.programs.programs.get? id = some r

omit [Crypto] in
theorem effects_start {s : LedgerState} (hs : s.Sound) : Effects s (.start s) where
  net := NetChange.refl s.utxos.coins
  coin := rfl
  totalValue := rfl
  extension := ⟨rfl, rfl⟩
  programs := .refl _
  sound := hs
  owned _ _ h := by cases h
  registered _ h := by cases h

omit [Crypto] in
theorem removed_of_foldl {coins : List (CoinShare × CoinUtxo)} {log : NetLog CoinShare CoinUtxo}
    {k : CoinShare} {c : CoinUtxo} (h : (coins.foldl NetLog.remove log).removed.get? k = some c) :
    log.removed.get? k = some c ∨ (k, c) ∈ coins := by
  induction coins generalizing log with
  | nil => exact .inl h
  | cons d rest ih =>
    rcases ih h with hlog | hmem
    · unfold NetLog.remove at hlog
      split_ifs at hlog
      · exact .inl hlog
      · rw [get?_orInsert] at hlog
        split_ifs at hlog with hk
        · cases hget : log.removed.get? d.1 with
          | none =>
            rw [hget, Option.getD_none, Option.some.injEq] at hlog
            subst hk hlog
            exact .inr List.mem_cons_self
          | some v =>
            rw [hget, Option.getD_some] at hlog
            rw [hk, hget]
            exact .inl hlog
        · exact .inl hlog
    · exact .inr (List.mem_cons_of_mem _ hmem)

omit [Crypto] in
theorem removed_foldl_add (ids : List CoinShare) (log : NetLog CoinShare CoinUtxo) :
    (ids.foldl NetLog.add log).removed = log.removed := by
  induction ids generalizing log with
  | nil => rfl
  | cons id rest ih => exact ih _

variable {ctx : CallContext} {start : LedgerState} {e e' : Engine}

theorem Effects.step (h : Effects start e) (hstep : Step ctx e e') : Effects start e' := by
  obtain ⟨hnet, hcoin, htotal, hext, hprog, hsound, howned, hreg⟩ := h
  cases hstep with
  | cached hcached =>
    obtain ⟨_, _, _, _, rfl⟩ := hcached
    exact ⟨hnet, hcoin, htotal, hext, hprog, hsound, howned, hreg⟩
  | action _ | leave => exact ⟨hnet, hcoin, htotal, hext, hprog, hsound, howned, hreg⟩
  | @enter id record _ hget =>
    refine ⟨hnet, hcoin, htotal, hext, hprog, hsound, ?_, ?_⟩
    · intro k c hk
      obtain ⟨id', hid', howner⟩ := howned k c hk
      exact ⟨id', List.mem_append_left _ hid', howner⟩
    · intro id' hid'
      rcases List.mem_append.mp hid' with hid' | hid'
      · exact hreg id' hid'
      · rw [List.mem_singleton.mp hid']
        obtain ⟨old, hold, _⟩ := hprog.records id record hget
        exact ⟨old, hold⟩
  | @coin id legacyRoot coins outputs utxos origin hid _ hmove _ _ =>
    refine ⟨hmove.tracks hnet, hcoin, hmove.totalValue.trans htotal, hext, hprog, ?_, ?_, hreg⟩
    · refine ⟨hmove.wellFormed hsound.utxos, ?_, hsound.indexed, hsound.supplied, hsound.summarized⟩
      change utxos.totalValue.val + _ = _
      rw [hmove.totalValue]
      exact hsound.coin
    · intro k c hk
      change ((_ : List CoinShare).foldl NetLog.add _).removed.get? k = some c at hk
      rw [removed_foldl_add] at hk
      rcases removed_of_foldl hk with hold | hnew
      · exact howned k c hold
      · exact ⟨id, hid, hmove.owned _ hnew⟩
  | asset _ _ happly =>
    refine ⟨hnet, hcoin, htotal, hext.merge (AssetState.apply_undoes happly),
      hprog, ?_, howned, hreg⟩
    exact ⟨hsound.utxos, hsound.coin, hsound.indexed.apply happly, hsound.supplied.apply happly,
      hsound.summarized.apply happly⟩
  | setState _ hget value =>
    exact ⟨hnet, hcoin, htotal, hext, hprog.setState hget value,
      ⟨hsound.utxos, hsound.coin, hsound.indexed, hsound.supplied, hsound.summarized⟩, howned, hreg⟩
  | @store id record _ hget _ key _ _ value _ =>
    exact ⟨hnet, hcoin, htotal, hext, hprog.setStorage hget key value,
      ⟨hsound.utxos, hsound.coin, hsound.indexed, hsound.supplied, hsound.summarized⟩, howned, hreg⟩

theorem Effects.steps (h : Effects start e) (hsteps : Steps ctx e e') : Effects start e' := by
  induction hsteps with
  | refl => exact h
  | tail _ hstep ih => exact ih.step hstep

/-! ## The journals of a finished engine -/

omit [Crypto] in
theorem programJournal_undoes
    (h : ProgramRegistry.Undoes e.states e.storage e.state.programs start.programs) :
    ProgramUndoes e.programJournal e.state.programs start.programs := by
  unfold programJournal
  split_ifs with hempty
  · rw [OrderedMap.isEmpty_iff, OrderedMap.isEmpty_iff] at hempty
    rw [hempty.1, hempty.2] at h
    exact h.eq_of_empty
  · have hroll := h.rollback
    split
    · -- a single state write: the journal of calls has the same effect
      rename_i id previous hstates hstorage
      rw [OrderedMap.isEmpty_iff] at hstorage
      rw [hstates, hstorage] at hroll
      simp only [rollbackProgram, bind_eq_ok] at hroll
      obtain ⟨r, hr, hnothing⟩ := hroll
      cases hnothing
      exact hr
    · exact hroll

end Engine

/-- What a successful invocation did to the ledger state, as its journals record it. -/
structure VmEffect (s : LedgerState) (applied : AppliedVm) (s' : LedgerState) : Prop where
  net : NetChange applied.coin.consumedCoins applied.coin.createdCoinIds s.utxos.coins
    s'.utxos.coins
  mined : applied.coin.mined = 0
  burned : applied.coin.burned = 0
  coin : s'.coin = s.coin
  totalValue : s'.utxos.totalValue = s.utxos.totalValue
  program : ProgramUndoes applied.program s'.programs s.programs
  extension : ExtensionUndoes applied.asset s'.assets s.assets
  sound : s'.Sound
  owned : ∀ c ∈ applied.coin.consumedCoins, ∃ id ∈ applied.entered, c.2.owner = .program id
  registered : ∀ id ∈ applied.entered, s.programs.contains id = true

omit [Crypto] in
theorem Engine.Effects.report {e : Engine} {value : U128} (h : e.Effects s)
    (hreport : e.report value = .ok applied) : VmEffect s applied e.state := by
  simp only [Engine.report, bind_eq_ok, return_eq_ok] at hreport
  obtain ⟨_, _, _, _, rfl⟩ := hreport
  refine ⟨h.net, rfl, rfl, h.coin, h.totalValue, Engine.programJournal_undoes h.programs,
    h.extension, h.sound, ?_, ?_⟩
  · intro c hc
    exact h.owned c.1 c.2 (get?_eq_some_iff.mpr hc)
  · intro id hid
    exact contains_eq_true_iff.mpr (h.registered id hid)

theorem applyVm_effect {s' : LedgerState} {tx : AuthorizedProgramInvocation} {height : U64}
    {commitment : AuthorizationCommitment} (hs : s.Sound)
    (h : applyVm s tx height commitment systemApplications = .ok (applied, s')) :
    VmEffect s applied s' := by
  obtain ⟨e, value, hsteps, hreport, rfl⟩ := Engine.applyVm_steps h
  exact ((Engine.effects_start hs).steps hsteps).report hreport

end Xparq
