import Xparq.Ledger.CoinProgram
import Xparq.Program.Settlement
import Xparq.Lib.NetChange

/-!
# Coins consumed and created in a row

What the loops over coins do to the coin map: `consumeCoins` erases live coins and
`createCoins` inserts fresh ones (`consumeCoins_ok`, `createCoins_ok`, with converses). A coin
journal that is the net change of an operation is undone by `rollbackCoin`
(`exists_rollbackCoin`).
-/

namespace Xparq

open Machine Outcome OrderedMap List

/-- The sum of the amounts of listed coins. -/
def sumCoins (coins : List (CoinShare × CoinUtxo)) : Nat := (coins.map fun e => e.2.amount.val).sum

@[simp] theorem sumCoins_cons (e : CoinShare × CoinUtxo) (coins : List (CoinShare × CoinUtxo)) :
    sumCoins (e :: coins) = e.2.amount.val + sumCoins coins := rfl

/-! ## Consuming -/

variable {utxos : UtxoSet} {coins : List (CoinShare × CoinUtxo)}

/-- A list of coins that is consumed was live, without repetition, and exactly these coins are gone.
-/
theorem consumeCoins_ok {utxos' : UtxoSet} {ids : List CoinShare}
    (h : consumeCoins utxos ids = .ok (coins, utxos')) :
    coins.map Prod.fst = ids ∧ ids.Nodup ∧ (∀ e ∈ coins, utxos.coins.get? e.1 = some e.2) ∧
      utxos'.coins = utxos.coins.eraseAll ids ∧
      utxos'.totalValue.val + sumCoins coins = utxos.totalValue.val ∧
      (utxos.WellFormed → utxos'.WellFormed) := by
  induction ids generalizing utxos coins with
  | nil =>
    cases h
    exact ⟨rfl, nodup_nil, by simp, rfl, rfl, id⟩
  | cons id rest ih =>
    simp only [consumeCoins, bind_eq_ok, mapError_eq_ok, return_eq_ok, Prod.mk.injEq] at h
    obtain ⟨⟨coin, utxos₁⟩, hone, ⟨coins₁, utxos₂⟩, hrest, rfl, rfl⟩ := h
    obtain ⟨hget, hcoins, htotal, _⟩ := UtxoSet.consumeCoin_ok hone
    obtain ⟨hmap, hnodup, hlive, hend, hsum, hwf⟩ := ih hrest
    simp only at hget hcoins htotal hend hsum hwf hlive ⊢
    have hid : id ∉ rest := by
      intro hm
      rw [← hmap] at hm
      obtain ⟨e, he, rfl⟩ := mem_map.mp hm
      have := hlive e he
      rw [hcoins, get?_erase, if_pos rfl] at this
      cases this
    refine ⟨by simp [hmap],
      nodup_cons.mpr ⟨hid, hnodup⟩, ?_, ?_, ?_, fun h => hwf (h.consumeCoin hone)⟩
    · intro e he
      rcases mem_cons.mp he with rfl | he
      · exact hget
      · have := hlive e he
        rw [hcoins, get?_erase] at this
        split_ifs at this
        exact this
    · rw [hend, hcoins]
      rfl
    · simp only [sumCoins_cons]
      omega

theorem exists_consumeCoins (hwf : utxos.WellFormed)
    (hn : (coins.map Prod.fst).Nodup)
    (hlive : ∀ e ∈ coins, utxos.coins.get? e.1 = some e.2) :
    ∃ utxos', consumeCoins utxos (coins.map Prod.fst) = .ok (coins, utxos') := by
  induction coins generalizing utxos with
  | nil => exact ⟨utxos, rfl⟩
  | cons e rest ih =>
    obtain ⟨he, hn⟩ := nodup_cons.mp hn
    have hget := hlive e mem_cons_self
    have hle : e.2.amount.val ≤ utxos.totalValue.val := by
      rw [hwf.total]
      exact le_sumBy (f := fun _ c => c.amount.val) hget
    obtain ⟨utxos₁, hone⟩ := UtxoSet.exists_consumeCoin hget hle
    have hcoins := (UtxoSet.consumeCoin_ok hone).2.1
    obtain ⟨utxos', hrest⟩ := ih (hwf.consumeCoin hone) hn (by
      intro d hd
      have hne : d.1 ≠ e.1 := ne_of_mem_of_not_mem (mem_map_of_mem hd) he
      rw [hcoins, get?_erase, if_neg hne]
      exact hlive d (mem_cons_of_mem _ hd))
    refine ⟨utxos', ?_⟩
    simp only [map_cons, consumeCoins, bind_eq_ok, mapError_eq_ok, return_eq_ok,
      Prod.mk.injEq]
    exact ⟨(e.2, utxos₁), hone, (rest, utxos'), hrest, rfl, rfl⟩

/-! ## Inserting -/

namespace LedgerState

variable {utxos utxos' : UtxoSet} {coins : List (CoinShare × CoinUtxo)}

theorem insertAll_ok (h : insertAll utxos coins = .ok utxos') :
    (coins.map Prod.fst).Nodup ∧ (∀ id ∈ coins.map Prod.fst, utxos.coins.get? id = none) ∧
      utxos'.coins = utxos.coins.insertAll coins ∧
      utxos'.totalValue.val = utxos.totalValue.val + sumCoins coins ∧
      (utxos.WellFormed → utxos'.WellFormed) := by
  induction coins generalizing utxos with
  | nil =>
    cases h
    exact ⟨nodup_nil, by simp, rfl, rfl, id⟩
  | cons e rest ih =>
    rw [insertAll, foldlM_cons, bind_eq_ok] at h
    obtain ⟨utxos₁, hone, hrest⟩ := h
    obtain ⟨_, hfresh, hcoins, htotal, _⟩ := UtxoSet.insertCoin_ok hone
    obtain ⟨hnodup, hall, hend, hsum, hwf⟩ := ih hrest
    have hnew : ∀ id ∈ rest.map Prod.fst, id ≠ e.1 := by
      rintro _ hid rfl
      have := hall _ hid
      rw [hcoins, get?_insert, if_pos rfl] at this
      cases this
    refine ⟨nodup_cons.mpr ⟨fun hm => hnew _ hm rfl, hnodup⟩,
      forall_mem_cons.mpr ⟨hfresh, fun id hid => ?_⟩, ?_, ?_, fun h => hwf (h.insertCoin hone)⟩
    · have := hall id hid
      rwa [hcoins, get?_insert, if_neg (hnew id hid)] at this
    · rw [hend, hcoins]
      rfl
    · rw [hsum, htotal, sumCoins_cons, Nat.add_assoc]

theorem exists_insertAll (hn : (coins.map Prod.fst).Nodup)
    (hfresh : ∀ id ∈ coins.map Prod.fst, utxos.coins.get? id = none)
    (hzero : ∀ e ∈ coins, e.2.amount ≠ 0) (hsum : utxos.totalValue.val + sumCoins coins < 2 ^ 64) :
    ∃ utxos', insertAll utxos coins = .ok utxos' := by
  induction coins generalizing utxos with
  | nil => exact ⟨utxos, rfl⟩
  | cons e rest ih =>
    obtain ⟨he, hn⟩ := nodup_cons.mp hn
    rw [sumCoins_cons] at hsum
    obtain ⟨utxos₁, hone⟩ := UtxoSet.exists_insertCoin (hzero e mem_cons_self)
      (hfresh e.1 mem_cons_self) (by omega)
    obtain ⟨_, _, hcoins, htotal, _⟩ := UtxoSet.insertCoin_ok hone
    obtain ⟨utxos', hrest⟩ := ih hn (by
      intro id hid
      rw [hcoins, get?_insert, if_neg (ne_of_mem_of_not_mem hid he)]
      exact hfresh id (mem_cons_of_mem _ hid))
      (fun d hd => hzero d (mem_cons_of_mem _ hd)) (by omega)
    exact ⟨utxos', by rw [insertAll, foldlM_cons, hone]; exact hrest⟩

end LedgerState

/-! ## Creating -/

section
variable [Crypto]

/-- The coins that outputs become when they are created from an index on. -/
def outputCoins (origin : Hash) : Nat → List (Owner × Zeno) → List (CoinShare × CoinUtxo)
  | _, [] => []
  | index, (owner, amount) :: rest =>
    (CoinShare.fromOutput origin (Fin.ofNat (2 ^ 32) index), ⟨amount, owner⟩) ::
      outputCoins origin (index + 1) rest

theorem length_outputCoins (origin : Hash) (index : Nat) (outputs : List (Owner × Zeno)) :
    (outputCoins origin index outputs).length = outputs.length := by
  induction outputs generalizing index with
  | nil => rfl
  | cons o rest ih => simp [outputCoins, ih]

theorem sumCoins_outputCoins (origin : Hash) (index : Nat) (outputs : List (Owner × Zeno)) :
    sumCoins (outputCoins origin index outputs) = (outputs.map fun o => o.2.val).sum := by
  induction outputs generalizing index with
  | nil => rfl
  | cons o rest ih => simp [outputCoins, ih]

variable {origin : Hash} {index : Nat} {outputs : List (Owner × Zeno)} {utxos utxos' : UtxoSet}

theorem mem_outputCoins {e : CoinShare × CoinUtxo} : e ∈ outputCoins origin index outputs ↔
    ∃ i o, outputs[i]? = some o ∧ e = (.fromOutput origin (Fin.ofNat (2 ^ 32) (index + i)),
      ⟨o.2, o.1⟩) := by
  induction outputs generalizing index with
  | nil => simp [outputCoins]
  | cons o rest ih =>
    rw [outputCoins, mem_cons, ih]
    constructor
    · rintro (rfl | ⟨i, o', ho', rfl⟩)
      · exact ⟨0, o, rfl, rfl⟩
      · exact ⟨i + 1, o', ho', by rw [Nat.add_assoc, Nat.add_comm 1 i]⟩
    · rintro ⟨i, o', ho', rfl⟩
      cases i with
      | zero =>
        cases ho'
        exact .inl rfl
      | succ i => exact .inr ⟨i, o', ho', by rw [Nat.add_assoc, Nat.add_comm 1 i]⟩

theorem exists_output_index {share : CoinShare}
    (h : share ∈ (outputCoins origin 0 outputs).map Prod.fst) :
    ∃ index : U32, index.val < outputs.length ∧ share = .fromOutput origin index := by
  obtain ⟨e, he, rfl⟩ := mem_map.mp h
  obtain ⟨i, o, ho, rfl⟩ := mem_outputCoins.mp he
  refine ⟨_, lt_of_le_of_lt (Nat.mod_le _ _) ?_, rfl⟩
  rw [Nat.zero_add]
  exact (List.getElem?_eq_some_iff.mp ho).1

/-- To create outputs is to insert their coins. -/
theorem createCoins_eq_ok {ids : List CoinShare} :
    createCoins origin index utxos outputs = .ok (ids, utxos') ↔
    ids = (outputCoins origin index outputs).map Prod.fst ∧
      LedgerState.insertAll utxos (outputCoins origin index outputs) = .ok utxos' := by
  induction outputs generalizing utxos utxos' index ids with
  | nil => simp [createCoins, outputCoins, LedgerState.insertAll, eq_comm]
  | cons o rest ih =>
    simp only [createCoins, bind_eq_ok, mapError_eq_ok, return_eq_ok, Prod.exists, Prod.mk.injEq,
      ih, outputCoins, LedgerState.insertAll, foldlM_cons, map_cons]
    constructor
    · rintro ⟨utxos₁, hone, _, _, ⟨rfl, hrest⟩, rfl, rfl⟩
      exact ⟨rfl, utxos₁, hone, hrest⟩
    · rintro ⟨rfl, utxos₁, hone, hrest⟩
      exact ⟨utxos₁, hone, _, utxos', ⟨rfl, hrest⟩, rfl, rfl⟩

theorem createCoins_ok {ids : List CoinShare}
    (h : createCoins origin index utxos outputs = .ok (ids, utxos')) :
    ids = (outputCoins origin index outputs).map Prod.fst ∧ ids.Nodup ∧
      (∀ id ∈ ids, utxos.coins.get? id = none) ∧
      utxos'.coins = utxos.coins.insertAll (outputCoins origin index outputs) ∧
      utxos'.totalValue.val = utxos.totalValue.val + sumCoins (outputCoins origin index outputs) ∧
      (utxos.WellFormed → utxos'.WellFormed) := by
  obtain ⟨rfl, hinsert⟩ := createCoins_eq_ok.mp h
  exact ⟨rfl, LedgerState.insertAll_ok hinsert⟩

theorem exists_createCoins (hzero : ∀ o ∈ outputs, o.2 ≠ 0)
    (hn : ((outputCoins origin index outputs).map Prod.fst).Nodup)
    (hfresh : ∀ id ∈ (outputCoins origin index outputs).map Prod.fst, utxos.coins.get? id = none)
    (hsum : utxos.totalValue.val + (outputs.map fun o => o.2.val).sum < 2 ^ 64) :
    ∃ ids utxos', createCoins origin index utxos outputs = .ok (ids, utxos') := by
  rw [← sumCoins_outputCoins origin index] at hsum
  obtain ⟨utxos', h⟩ := LedgerState.exists_insertAll hn hfresh (fun e he => by
    obtain ⟨i, o, ho, rfl⟩ := mem_outputCoins.mp he
    exact hzero o (mem_of_getElem? ho)) hsum
  exact ⟨_, utxos', createCoins_eq_ok.mpr ⟨rfl, h⟩⟩

end

/-! ## Rolling back -/

namespace LedgerState

theorem exists_consumeAll {utxos : UtxoSet} (hwf : utxos.WellFormed) {ids : List CoinShare}
    (hn : ids.Nodup) (hlive : ∀ id ∈ ids, ∃ c, utxos.coins.get? id = some c) :
    ∃ utxos', consumeAll utxos ids = .ok utxos' ∧ utxos'.coins = utxos.coins.eraseAll ids ∧
      utxos'.WellFormed := by
  induction ids generalizing utxos with
  | nil => exact ⟨utxos, rfl, rfl, hwf⟩
  | cons id rest ih =>
    obtain ⟨hid, hn⟩ := nodup_cons.mp hn
    obtain ⟨c, hget⟩ := hlive id mem_cons_self
    have hle : c.amount.val ≤ utxos.totalValue.val := by
      rw [hwf.total]
      exact le_sumBy (f := fun _ c => c.amount.val) hget
    obtain ⟨utxos₁, hone⟩ := UtxoSet.exists_consumeCoin hget hle
    have hcoins := (UtxoSet.consumeCoin_ok hone).2.1
    obtain ⟨utxos', hrest, hend, hwf'⟩ := ih (hwf.consumeCoin hone) hn (by
      intro id' hid'
      rw [hcoins, get?_erase, if_neg (ne_of_mem_of_not_mem hid' hid)]
      exact hlive id' (mem_cons_of_mem _ hid'))
    refine ⟨utxos', ?_, ?_, hwf'⟩
    · rw [consumeAll, foldlM_cons, hone]
      exact hrest
    · rw [hend, hcoins]
      rfl

/-- A journal that holds the net change of the coin map leads back to the map before it. -/
theorem exists_rollbackCoin {s : LedgerState} {journal : CoinRollbackJournal} {start : UtxoSet}
    {record : CoinRecord} (hwf : s.utxos.WellFormed) (hstart : start.WellFormed)
    (hnet : NetChange journal.consumedCoins journal.createdCoinIds start.coins s.utxos.coins)
    (hmined : record.totalMined.val + journal.mined.val = s.coin.totalMined.val)
    (hburned : record.totalBurned.val + journal.burned.val = s.coin.totalBurned.val) :
    ∃ utxos, s.rollbackCoin journal = .ok { s with utxos, coin := record } ∧
      utxos.coins = start.coins ∧ utxos.WellFormed := by
  obtain ⟨utxos₁, hconsume, hcoins₁, hwf₁⟩ := exists_consumeAll hwf hnet.added_nodup hnet.added_now
  have hfresh : ∀ id ∈ journal.consumedCoins.map Prod.fst, utxos₁.coins.get? id = none := by
    intro id hid
    rw [hcoins₁]
    exact hnet.get?_eraseAll_removed hid
  have hzero : ∀ e ∈ journal.consumedCoins, e.2.amount ≠ 0 := fun e he =>
    hstart.nonzero e.1 e.2 (hnet.removed_start e he)
  -- the restored coins are all of the first map, whose sum fits
  have hsum : utxos₁.totalValue.val + sumCoins journal.consumedCoins = start.totalValue.val := by
    have := sumBy_insertAll (fun _ (c : CoinUtxo) => c.amount.val) hnet.removed_nodup hfresh
    rw [hcoins₁, hnet.undo_eq] at this
    rw [hwf₁.total, hstart.total, UtxoSet.sumAmounts, UtxoSet.sumAmounts, this, hcoins₁]
    rfl
  obtain ⟨utxos₂, hinsert⟩ :=
    exists_insertAll hnet.removed_nodup hfresh hzero (hsum ▸ start.totalValue.isLt)
  obtain ⟨-, -, hcoins₂, -, hwf₂⟩ := insertAll_ok hinsert
  refine ⟨utxos₂, ?_, by rw [hcoins₂, hcoins₁, hnet.undo_eq], hwf₂ hwf₁⟩
  have hlive : ¬ (¬ journal.createdCoinIds.Nodup ∨
      ∃ id ∈ journal.createdCoinIds, s.utxos.coin id = none) := by
    rintro (hnot | ⟨id, hid, hnone⟩)
    · exact hnot hnet.added_nodup
    · obtain ⟨c, hc⟩ := hnet.added_now id hid
      rw [UtxoSet.coin, hc] at hnone
      cases hnone
  have hgone : ¬ (¬ (journal.consumedCoins.map Prod.fst).Nodup ∨ ∃ e ∈ journal.consumedCoins,
      s.utxos.coin e.1 ≠ none ∧ e.1 ∉ journal.createdCoinIds) := by
    rintro (hnot | ⟨e, he, hsome, hnew⟩)
    · exact hnot hnet.removed_nodup
    · exact hsome (hnet.removed_now e.1 (mem_map_of_mem he) hnew)
  simp only [rollbackCoin, bind_eq_ok, okOr_eq_ok, checkedSub_eq_some, rejectIf_eq_ok,
    mapError_eq_ok, return_eq_ok]
  exact ⟨record.totalMined, hmined, record.totalBurned, hburned, (), hlive, (), hgone,
    utxos₁, hconsume, utxos₂, hinsert, rfl⟩

end LedgerState

end Xparq
