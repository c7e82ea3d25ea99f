import Xparq.Ledger.Payment
import Xparq.Ledger.AssetSupply
import Xparq.Program.RegistryUndo

/-!
# Sound ledger states

`LedgerState.Sound` collects what every reachable state satisfies: coin set and totals fit,
assets are indexed, supplied and summarized. On a sound state all supply audits succeed
(`Sound.exists_validateSupplyInvariants`, `Sound.auditSupplyInvariants`).

`LedgerState.Same` compares the canonical components only; the state root depends on nothing
else (`Same.applicationStateRoot`). `StateRollbackJournal.Undoes` says what the journal of one
operation records, and `exists_rollbackState` that it is undone on any state with the same
canonical components.
-/

namespace Xparq

open Machine Outcome OrderedMap List

namespace LedgerState

structure Sound (s : LedgerState) : Prop where
  utxos : s.utxos.WellFormed
  coin : s.utxos.totalValue.val + s.coin.totalBurned.val = s.coin.totalMined.val
  indexed : s.assets.Indexed
  supplied : s.assets.Supplied
  summarized : s.assets.Summarized

theorem Sound.withPrograms {s : LedgerState} (h : Sound s) (programs : ProgramRegistry) :
    Sound { s with programs } :=
  ⟨h.utxos, h.coin, h.indexed, h.supplied, h.summarized⟩

theorem sound_empty : Sound empty where
  utxos := UtxoSet.wellFormed_empty
  coin := rfl
  indexed := AssetState.indexed_empty
  supplied := AssetState.supplied_empty
  summarized := AssetState.summarized_empty

/-- The canonical components agree. Owner lookups and the supply summary may differ. -/
structure Same (s t : LedgerState) : Prop where
  coins : s.utxos.coins = t.utxos.coins
  totalValue : s.utxos.totalValue = t.utxos.totalValue
  coin : s.coin = t.coin
  programs : s.programs = t.programs
  records : s.assets.records = t.assets.records
  shares : s.assets.shares = t.assets.shares

variable {s s' t : LedgerState}

theorem Same.refl (s : LedgerState) : Same s s := ⟨rfl, rfl, rfl, rfl, rfl, rfl⟩

theorem Same.trans {u : LedgerState} (h : Same s t) (h' : Same t u) : Same s u :=
  ⟨h.coins.trans h'.coins, h.totalValue.trans h'.totalValue, h.coin.trans h'.coin,
    h.programs.trans h'.programs, h.records.trans h'.records, h.shares.trans h'.shares⟩

/-! ## Audits -/

theorem Sound.supply (h : Sound s) : s.coin.supply = some s.utxos.totalValue := by
  rw [CoinRecord.supply, checkedSub_eq_some]
  exact h.coin

theorem Sound.isEmpty_iff (h : Sound s) :
    s.utxos.coins.isEmpty = true ↔ s.utxos.totalValue = 0 := by
  rw [OrderedMap.isEmpty_iff]
  constructor
  · intro hempty
    apply Fin.ext
    rw [h.utxos.total, UtxoSet.sumAmounts, hempty, sumBy_empty]
    rfl
  · intro hzero
    apply ext_get?
    intro id
    cases hget : s.utxos.coins.get? id with
    | none => rfl
    | some c =>
      have hle := le_sumBy (f := fun _ (c : CoinUtxo) => c.amount.val) hget
      have htotal := h.utxos.total
      rw [hzero, UtxoSet.sumAmounts] at htotal
      have hamount : c.amount ≠ 0 := h.utxos.nonzero id c hget
      rw [← htotal] at hle
      exact absurd (Fin.ext (Nat.le_zero.mp hle)) hamount

theorem Sound.checkCoinTotals (h : Sound s) : s.checkCoinTotals = .ok () := by
  rw [LedgerState.checkCoinTotals, rejectIf_eq_ok]
  rintro (hne | hiff)
  · exact hne h.supply
  · rw [h.isEmpty_iff] at hiff
    exact iff_not_self hiff

theorem Sound.withCache (h : Sound s) {cache : Option ValidatedAssetRoots}
    (hsum : AssetState.Summarized { s.assets with supplyCache := cache }) :
    Sound { s with assets := { s.assets with supplyCache := cache } } where
  utxos := h.utxos
  coin := h.coin
  indexed := h.indexed.withCache cache
  supplied := ⟨h.supplied.nonzero, h.supplied.recorded, h.supplied.valid⟩
  summarized := hsum

theorem Sound.exists_auditAssetSupply (h : Sound s) :
    ∃ cache, s.auditAssetSupply = .ok { s with assets := { s.assets with supplyCache := cache } } ∧
      AssetState.Summarized { s.assets with supplyCache := cache } := by
  obtain ⟨totals, haudit, hsum⟩ := AssetState.exists_auditAssetSupply h.supplied
  refine ⟨_, ?_, hsum⟩
  rw [LedgerState.auditAssetSupply, haudit]
  rfl

theorem Sound.exists_validateSupply (h : Sound s) (allowCached : Bool) :
    ∃ cache, s.validateSupplyWithAssetCache allowCached =
        .ok { s with assets := { s.assets with supplyCache := cache } } ∧
      AssetState.Summarized { s.assets with supplyCache := cache } := by
  obtain ⟨cache, haudit, hsum⟩ := h.exists_auditAssetSupply
  rw [validateSupplyWithAssetCache, h.checkCoinTotals, ok_bind]
  split
  · rename_i result hcached
    split_ifs at hcached with hallow
    obtain ⟨cache', rfl, hsum'⟩ :=
      AssetState.exists_validateIncrementalSupply h.supplied h.summarized hcached
    exact ⟨cache', rfl, hsum'⟩
  · exact ⟨cache, haudit, hsum⟩

/-- The supply check of a sound state succeeds and changes no canonical component. -/
theorem Sound.exists_validateSupplyInvariants (h : Sound s) :
    ∃ s', s.validateSupplyInvariants = .ok s' ∧ Sound s' ∧ Same s' s := by
  obtain ⟨cache, hvalid, hsum⟩ := h.exists_validateSupply true
  exact ⟨_, hvalid, h.withCache hsum, ⟨rfl, rfl, rfl, rfl, rfl, rfl⟩⟩

theorem Sound.validateSupplyInvariants (h : Sound s) (hs : s.validateSupplyInvariants = .ok s') :
    Sound s' ∧ Same s' s := by
  obtain ⟨t, ht, hsound, hsame⟩ := h.exists_validateSupplyInvariants
  rw [ht, Except.ok.injEq] at hs
  exact hs ▸ ⟨hsound, hsame⟩

theorem foldlM_coins {l : List (CoinShare × CoinUtxo)} (hzero : ∀ e ∈ l, e.2.amount ≠ 0)
    {total result : Zeno} (hsum : result.val = total.val + sumCoins l) :
    l.foldlM (fun total e => do
      rejectIf (e.2.amount = 0) LedgerError.invalidCoinState
      okOr (checkedAdd total e.2.amount) .supplyOverflow) total = .ok result := by
  induction l generalizing total with
  | nil =>
    rw [foldlM_nil, return_eq_ok]
    exact Fin.ext hsum.symm
  | cons e rest ih =>
    simp only [sumCoins_cons] at hsum
    have hlt := result.isLt
    have hfit : total.val + e.2.amount.val < 2 ^ 64 := by omega
    rw [foldlM_cons, bind_eq_ok]
    refine ⟨⟨_, hfit⟩, ?_, ih (fun d hd => hzero d (mem_cons_of_mem _ hd)) ?_⟩
    · simp only [bind_eq_ok, rejectIf_eq_ok, okOr_eq_ok, checkedAdd_eq_some]
      exact ⟨(), hzero e mem_cons_self, trivial⟩
    · simp only
      omega

/-- The uncached audit of a sound state succeeds. -/
theorem Sound.auditSupplyInvariants (h : Sound s) : s.auditSupplyInvariants = .ok () := by
  obtain ⟨cache, hvalid, -⟩ := h.exists_validateSupply false
  have hzero : ∀ e ∈ s.utxos.coins.entries, e.2.amount ≠ 0 := fun e he =>
    h.utxos.nonzero e.1 e.2 (get?_eq_some_iff.mpr he)
  have hsum : s.utxos.totalValue.val = (0 : Zeno).val + sumCoins s.utxos.coins.entries := by
    rw [h.utxos.total]
    simp [UtxoSet.sumAmounts, sumBy, sumCoins]
  have hfold := foldlM_coins hzero hsum
  rw [LedgerState.auditSupplyInvariants, hvalid, ok_bind, auditCoinSupply, hfold, ok_bind,
    rejectIf_eq_ok]
  rintro (hne | hne)
  · exact hne rfl
  · exact hne h.supply

/-! ## The state root -/

theorem Same.isDefault_iff (h : Same s t) (hs : Sound s) (ht : Sound t) :
    s.assets.IsDefault ↔ t.assets.IsDefault := by
  constructor
  · intro hdef
    exact ht.indexed.isDefault (h.records ▸ hdef.1) (h.shares ▸ hdef.2.1)
  · intro hdef
    exact hs.indexed.isDefault (h.records.trans hdef.1) (h.shares.trans hdef.2.1)

theorem Same.canonicalEncodedLen (h : Same s t) :
    s.canonicalEncodedLen = t.canonicalEncodedLen := by
  simp only [LedgerState.canonicalEncodedLen, UtxoSet.canonicalEncodedLen,
    AssetState.canonicalEncodedLen, AssetState.encodeRecords, h.coins, h.programs,
      h.records, h.shares]

theorem Same.encode (h : Same s t) : s.encode = t.encode := by
  simp only [LedgerState.encode, UtxoSet.encode, AssetState.encode, AssetState.encodeRecords,
    h.coins, h.totalValue, h.coin, h.programs, h.records, h.shares]

/-- The root of a sound state depends on its canonical components only. -/
theorem Same.applicationStateRoot [Crypto] (h : Same s t) (hs : Sound s) (ht : Sound t) :
    s.applicationStateRoot = t.applicationStateRoot := by
  have hdef := h.isDefault_iff hs ht
  simp only [LedgerState.applicationStateRoot, hashCanonicalState, h.canonicalEncodedLen,
    h.encode, hdef, h.coins, h.programs, h.coin]

end LedgerState

/-! ## Undoing one operation -/

/-- A program journal leads from `now` back to `start`. -/
def ProgramUndoes (journal : Option ProgramJournal) (now start : ProgramRegistry) : Prop :=
  match journal with
  | some program => rollbackProgram now program = .ok start
  | none => now = start

/-- An asset journal leads from the maps of `now` back to those of `start`. -/
def ExtensionUndoes (journal : Option AssetJournal) (now start : AssetState) : Prop :=
  match journal with
  | some extension => extension.Undoes now start
  | none => now.records = start.records ∧ now.shares = start.shares

/-- The coin journal lists the change of the coin map and of the record. -/
structure CoinRollbackJournal.Undoes (journal : CoinRollbackJournal) (now start : LedgerState) :
    Prop where
  net : NetChange journal.consumedCoins journal.createdCoinIds start.utxos.coins now.utxos.coins
  mined : start.coin.totalMined.val + journal.mined.val = now.coin.totalMined.val
  burned : start.coin.totalBurned.val + journal.burned.val = now.coin.totalBurned.val

structure StateRollbackJournal.Undoes (journal : StateRollbackJournal) (now start : LedgerState) :
    Prop where
  coin : ∃ coin, journal.coin = some coin ∧ coin.Undoes now start
  program : ProgramUndoes journal.program now.programs start.programs
  extension : ExtensionUndoes journal.extension now.assets start.assets

namespace LedgerState

variable {s s' now start : LedgerState} {journal : StateRollbackJournal}

variable {extension : Option AssetJournal} {journals : List StateRollbackJournal}

theorem Same.extensionUndoes (h : Same s now)
    (hundo : ExtensionUndoes extension now.assets start.assets) :
    ExtensionUndoes extension s.assets start.assets := by
  cases extension with
  | none => exact ⟨h.records.trans hundo.1, h.shares.trans hundo.2⟩
  | some j =>
    obtain ⟨hrecords, hshares⟩ := hundo
    rw [← h.records] at hrecords
    rw [← h.shares] at hshares
    exact ⟨hrecords, hshares⟩

theorem Same.undoes (h : Same s now) (hundo : journal.Undoes now start) :
    journal.Undoes s start := by
  obtain ⟨coin, hcoin, hnet, hmined, hburned⟩ := hundo.coin
  refine ⟨⟨coin, hcoin, ?_, ?_, ?_⟩, ?_, h.extensionUndoes hundo.extension⟩
  · rw [h.coins]
    exact hnet
  · rw [h.coin]
    exact hmined
  · rw [h.coin]
    exact hburned
  · rw [h.programs]
    exact hundo.program

theorem Sound.rollbackAssets (hs : Sound s) (hstart : Sound start)
    (hundo : ExtensionUndoes extension s.assets start.assets) :
    ∃ assets, (match extension with
      | some extension => s.assets.rollback extension
      | none => s.assets) = assets ∧ assets.records = start.assets.records ∧
      assets.shares = start.assets.shares ∧ assets.Indexed ∧ assets.Supplied ∧
      assets.Summarized := by
  have hsupplied : ∀ assets : AssetState, assets.records = start.assets.records →
      assets.shares = start.assets.shares → assets.Supplied := by
    intro assets hr hsh
    have h := hstart.supplied
    refine ⟨hsh ▸ h.nonzero, hsh ▸ hr ▸ h.recorded, ?_⟩
    intro a r hget
    rw [hr] at hget
    rw [AssetState.supplyOf, hsh]
    exact h.valid a r hget
  cases extension with
  | none =>
    exact ⟨s.assets, rfl, hundo.1, hundo.2, hs.indexed, hs.supplied, hs.summarized⟩
  | some j =>
    have hr : (s.assets.rollback j).records = start.assets.records := by
      rw [AssetState.rollback_records, hundo.1.restore]
    have hsh : (s.assets.rollback j).shares = start.assets.shares := by
      rw [AssetState.rollback_shares, hundo.2.restore]
    exact ⟨_, rfl, hr, hsh, hs.indexed.rollback j, hsupplied _ hr hsh, hs.summarized.rollback j⟩

/-- A journalled operation is undone on every sound state with the same canonical components. -/
theorem exists_rollbackState (hundo : journal.Undoes now start) (hsame : Same s now) (hs : Sound s)
    (hstart : Sound start) :
    ∃ s', s.rollbackState journal = .ok s' ∧ Sound s' ∧ Same s' start := by
  have hundo := hsame.undoes hundo
  obtain ⟨coin, hcoin, hnet, hmined, hburned⟩ := hundo.coin
  obtain ⟨assets, hassets, hrecords, hshares, hindexed, hsupplied, hsummarized⟩ :=
    hs.rollbackAssets hstart hundo.extension
  obtain ⟨utxos, hrollback, hcoins, hwf⟩ := exists_rollbackCoin
    (s := { s with programs := start.programs, assets }) hs.utxos hstart.utxos hnet hmined hburned
  have htotal : utxos.totalValue = start.utxos.totalValue := by
    apply Fin.ext
    rw [hwf.total, hstart.utxos.total, UtxoSet.sumAmounts, UtxoSet.sumAmounts, hcoins]
  refine ⟨⟨utxos, start.coin, start.programs, assets⟩, ?_, ?_,
    ⟨hcoins, htotal, rfl, rfl, hrecords, hshares⟩⟩
  · have hprogram := hundo.program
    subst hassets
    rw [rollbackState, hcoin]
    cases hp : journal.program with
    | none =>
      rw [hp] at hprogram
      simp only [ok_bind, show s.programs = start.programs from hprogram]
      exact hrollback
    | some program =>
      rw [hp] at hprogram
      have hroll : orError (rollbackProgram s.programs program) StateError.invalidTransition =
          .ok start.programs := orError_eq_ok.mpr hprogram
      simp only [hroll, ok_bind]
      exact hrollback
  · refine ⟨hwf, ?_, hindexed, hsupplied, hsummarized⟩
    change utxos.totalValue.val + start.coin.totalBurned.val = start.coin.totalMined.val
    rw [htotal]
    exact hstart.coin

/-! ## Undoing a sequence of operations -/

/-- The journals, oldest first, lead step by step from `now` back to `start`. -/
inductive JournalsUndo : List StateRollbackJournal → LedgerState → LedgerState → Prop
  | nil {now start : LedgerState} (h : Same now start) : JournalsUndo [] now start
  | snoc {journals : List StateRollbackJournal} {journal : StateRollbackJournal}
      {now mid start : LedgerState} (hlast : journal.Undoes now mid) (hmid : Sound mid)
      (hrest : JournalsUndo journals mid start) : JournalsUndo (journals ++ [journal]) now start

theorem Same.journalsUndo (h : Same s now)
    (hundo : JournalsUndo journals now start) : JournalsUndo journals s start := by
  cases hundo with
  | nil hsame => exact .nil (h.trans hsame)
  | snoc hlast hmid hrest => exact .snoc (h.undoes hlast) hmid hrest

theorem JournalsUndo.exists_rollback (hundo : JournalsUndo journals now start) (hsame : Same s now)
    (hs : Sound s) (hstart : Sound start) :
    ∃ s', journals.reverse.foldlM rollbackState s = .ok s' ∧ Sound s' ∧ Same s' start := by
  induction hundo generalizing s with
  | nil h => exact ⟨s, rfl, hs, hsame.trans h⟩
  | @snoc journals journal now mid start hlast hmid hrest ih =>
    obtain ⟨s₁, hroll, hs₁, hsame₁⟩ := exists_rollbackState hlast hsame hs hmid
    obtain ⟨s', hfold, hs', hsame'⟩ := ih hsame₁ hs₁ hstart
    refine ⟨s', ?_, hs', hsame'⟩
    rw [reverse_append, reverse_singleton, singleton_append, foldlM_cons, hroll, ok_bind]
    exact hfold

end LedgerState

end Xparq
