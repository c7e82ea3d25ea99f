import Xparq.Ledger.StateCodec

/-!
# Runs of the coin set

The methods of the coin set change it in place, in several writes: the coin map, the owner lookup,
the total. All their checks come before the first write, so they are the two changes of `UtxoSet`
made atomically (`insertCoinInPlace_eq`, `consumeCoinInPlace_eq`), and a call that fails has written
nothing. `UtxoRun` is every set that such calls and decodings of the set's own encoding lead to, and
`UtxoRun.derived_exact` says what its derived parts hold.
-/

namespace Xparq

open Machine Outcome OrderedMap InPlace

namespace UtxoSet

def insertCoinInPlace (id : CoinShare) (coin : CoinUtxo) : InPlace UtxoSet UtxoError Unit := do
  check (rejectIf (coin.amount = 0) .zeroAmount)
  let s ← InPlace.read
  check (rejectIf (s.coins.contains id = true) .coinCollision)
  let totalValue ← check (okOr (checkedAdd s.totalValue coin.amount) .valueOverflow)
  update fun s => { s with coins := s.coins.insert id coin }
  update fun s => { s with byOwner := s.byOwner.add coin.owner id }
  update fun s => { s with totalValue }

def consumeCoinInPlace (id : CoinShare) : InPlace UtxoSet UtxoError CoinUtxo := do
  let s ← InPlace.read
  let coin ← check (okOr (s.coins.get? id) .notFound)
  let totalValue ← check (okOr (checkedSub s.totalValue coin.amount) .valueUnderflow)
  update fun s => { s with coins := s.coins.erase id }
  update fun s => { s with byOwner := s.byOwner.remove coin.owner id }
  update fun s => { s with totalValue }
  return coin

theorem insertCoinInPlace_eq (id : CoinShare) (coin : CoinUtxo) :
    insertCoinInPlace id coin = atomic fun s => (s.insertCoin id coin).map fun s' => ((), s') := by
  funext s
  unfold insertCoinInPlace insertCoin atomic
  cases rejectIf (coin.amount = 0) UtxoError.zeroAmount with
  | error e => rfl
  | ok u =>
    simp only [bind, Except.bind, check, InPlace.read]
    cases rejectIf (s.coins.contains id = true) UtxoError.coinCollision with
    | error e => rfl
    | ok u =>
      cases okOr (checkedAdd s.totalValue coin.amount) UtxoError.valueOverflow with
      | error e => rfl
      | ok totalValue => rfl

theorem consumeCoinInPlace_eq (id : CoinShare) :
    consumeCoinInPlace id = atomic fun s => s.consumeCoin id := by
  funext s
  unfold consumeCoinInPlace consumeCoin atomic
  simp only [bind, Except.bind, check, InPlace.read]
  cases okOr (s.coins.get? id) UtxoError.notFound with
  | error e => rfl
  | ok coin =>
    dsimp only
    cases okOr (checkedSub s.totalValue coin.amount) UtxoError.valueUnderflow with
    | error e => rfl
    | ok totalValue => rfl

/-! ## Runs -/

/-- The sets that calls, successful or not, and decodings lead to. -/
inductive UtxoRun : UtxoSet → Prop
  | empty : UtxoRun .empty
  | insertCoin {s : UtxoSet} (h : UtxoRun s) (id : CoinShare) (coin : CoinUtxo) :
      UtxoRun (insertCoinInPlace id coin s).2
  | consumeCoin {s : UtxoSet} (h : UtxoRun s) (id : CoinShare) : UtxoRun (consumeCoinInPlace id s).2
  | decode {s s' : UtxoSet} {bytes rest rest' : List Byte} (h : UtxoRun s)
      (hbytes : s.encode = some bytes)
      (hread : readUtxoSet (bytes ++ rest) = some (s', rest')) : UtxoRun s'

/-- A call that fails leaves the set, and decoding what was encoded gives the same set again. -/
theorem UtxoRun.wellFormed {s : UtxoSet} (h : UtxoRun s) : s.WellFormed := by
  induction h with
  | empty => exact wellFormed_empty
  | @insertCoin s _ id coin ih =>
    rw [insertCoinInPlace_eq, atomic]
    cases hinsert : s.insertCoin id coin with
    | error e => exact ih
    | ok s' => exact ih.insertCoin hinsert
  | @consumeCoin s _ id ih =>
    rw [consumeCoinInPlace_eq, atomic]
    cases hconsume : s.consumeCoin id with
    | error e => exact ih
    | ok p => exact ih.consumeCoin hconsume
  | @decode s s' bytes rest rest' _ hbytes hread ih =>
    rw [readUtxoSet_accepts s bytes rest ⟨hbytes, ih⟩] at hread
    cases hread
    exact ih

/-- In every run the total is the sum of the live amounts, the lookup has exactly the live coins of
each owner and no empty entry, and lists each owner's coins once, in share order. A call that fails
leaves the set as it is, and so does decoding. -/
theorem UtxoRun.derived_exact {s : UtxoSet} (h : UtxoRun s) :
    s.totalValue.val = s.sumAmounts ∧
    (∀ owner id, (∃ ids, s.byOwner.get? owner = some ids ∧ ids.get? id = some ()) ↔
      ∃ coin, s.coins.get? id = some coin ∧ coin.owner = owner) ∧
    (∀ owner ids, s.byOwner.get? owner = some ids → ids ≠ ∅) ∧
    (∀ owner, ((s.coinsByOwner owner).Pairwise fun a b => a.1 < b.1) ∧
      ∀ id coin, (id, coin) ∈ s.coinsByOwner owner ↔ s.coins.get? id = some coin ∧
      coin.owner = owner) ∧
    (∀ id coin e s', insertCoinInPlace id coin s = (.error e, s') → s' = s) ∧
    (∀ id e s', consumeCoinInPlace id s = (.error e, s') → s' = s) ∧
    ∀ bytes rest, s.encode = some bytes → readUtxoSet (bytes ++ rest) = some (s, rest) := by
  have hwf := h.wellFormed
  refine ⟨hwf.total, fun owner id => ?_, hwf.compact, fun owner => ⟨sorted_coinsByOwner s owner,
    fun id coin => ?_⟩, fun id coin e s' hfails => ?_, fun id e s' hfails => ?_,
      fun bytes rest hbytes => ?_⟩
  · rw [← hwf.indexed, GroupIndex.members]
    constructor
    · rintro ⟨ids, hids, hid⟩
      rwa [hids]
    · intro hid
      cases hids : s.byOwner.get? owner with
      | none =>
        rw [hids] at hid
        cases hid
      | some ids =>
        rw [hids] at hid
        exact ⟨ids, rfl, hid⟩
  · exact mem_coinsByOwner hwf
  · rw [insertCoinInPlace_eq] at hfails
    exact atomic_error hfails
  · rw [consumeCoinInPlace_eq] at hfails
    exact atomic_error hfails
  · exact readUtxoSet_accepts s bytes rest ⟨hbytes, hwf⟩

/-- A coin is inserted, an insertion under its identifier fails, and the set is decoded. -/
theorem sample_utxoRun :
    ∃ s s' bytes, insertCoinInPlace 1 ⟨5, .program 2⟩ UtxoSet.empty = (.ok (), s) ∧
    insertCoinInPlace 1 ⟨7, .program 3⟩ s = (.error .coinCollision, s) ∧ s.encode = some bytes ∧
    readUtxoSet bytes = some (s', []) ∧ s'.coins.length = 1 ∧
      s'.totalValue.val = s'.sumAmounts := by
  let s : UtxoSet := (insertCoinInPlace 1 ⟨5, .program 2⟩ UtxoSet.empty).2
  have hinserted : UtxoRun s := .insertCoin .empty 1 _
  have hagain : UtxoRun (insertCoinInPlace 1 ⟨7, .program 3⟩ s).2 := .insertCoin hinserted 1 _
  have hcollision : insertCoinInPlace 1 ⟨7, .program 3⟩ s = (.error .coinCollision, s) := by
    decide +kernel
  rw [hcollision] at hagain
  have hbytes : ∃ bytes, s.encode = some bytes := Option.isSome_iff_exists.mp (by decide +kernel)
  obtain ⟨bytes, hbytes⟩ := hbytes
  have hread := (UtxoRun.derived_exact hagain).2.2.2.2.2.2 bytes [] hbytes
  have hdecoded : UtxoRun s := .decode hagain hbytes hread
  rw [List.append_nil] at hread
  exact ⟨s, s, bytes, by decide +kernel, hcollision, hbytes, hread, by decide +kernel,
    (UtxoRun.derived_exact hdecoded).1⟩

end UtxoSet

end Xparq
