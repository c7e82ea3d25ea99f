import Xparq.Monetary
import Xparq.Lib.GroupIndex

/-!
# Native coin UTXOs

The live coins with their checked total and the owner lookup. Every change goes through
`insertCoin` and `consumeCoin`; their inversion lemmas (`insertCoin_ok`, `consumeCoin_ok`)
say everything a successful call did, and `UtxoSet.WellFormed` is what the two keep.

The owner lookup is reduced to the coin map: an owner's candidates are the live coins with that
owner (`mem_coinsByOwner`), in identifier order (`sorted_coinsByOwner`).
-/

namespace Xparq

open Machine Outcome OrderedMap

structure CoinUtxo where
  amount : Zeno
  owner : Owner
  deriving DecidableEq, Repr

structure UtxoSet where
  coins : OrderedMap CoinShare CoinUtxo
  totalValue : Zeno
  byOwner : GroupIndex Owner CoinShare
  deriving DecidableEq

inductive UtxoError
  | zeroAmount | notFound | coinCollision | valueOverflow | valueUnderflow
  deriving DecidableEq, Repr

namespace UtxoSet

def empty : UtxoSet := ⟨∅, 0, ∅⟩

def coin (s : UtxoSet) (id : CoinShare) : Option CoinUtxo := s.coins.get? id

def insertCoin (s : UtxoSet) (id : CoinShare) (coin : CoinUtxo) : Except UtxoError UtxoSet := do
  rejectIf (coin.amount = 0) .zeroAmount
  rejectIf (s.coins.contains id = true) .coinCollision
  let totalValue ← okOr (checkedAdd s.totalValue coin.amount) .valueOverflow
  return { coins := s.coins.insert id coin, totalValue, byOwner := s.byOwner.add coin.owner id }

def consumeCoin (s : UtxoSet) (id : CoinShare) : Except UtxoError (CoinUtxo × UtxoSet) := do
  let coin ← okOr (s.coins.get? id) .notFound
  let totalValue ← okOr (checkedSub s.totalValue coin.amount) .valueUnderflow
  return (coin,
    { coins := s.coins.erase id, totalValue, byOwner := s.byOwner.remove coin.owner id })

/-- Sorted candidate identifiers; values and ownership are read from the coin map. -/
def coinsByOwner (s : UtxoSet) (owner : Owner) : List (CoinShare × CoinUtxo) :=
  (s.byOwner.members owner).keys.filterMap fun id =>
    (s.coins.get? id).bind fun coin => if coin.owner = owner then some (id, coin) else none

/-- Identifier, amount and owner (tag and payload) of one entry. -/
def entryWidth : Nat := 32 + 8 + 1 + 32

def canonicalEncodedLen (s : UtxoSet) : Except CodecError Nat := do
  let coins ← canonicalFixedMapLength s.coins.length entryWidth
  okOr ((ofNat? (2 ^ 64) (coins + 8)).map Fin.val) .encodeFailed

def encodeEntry (id : CoinShare) (coin : CoinUtxo) : List Byte :=
  id.bytes ++ leBytes 8 coin.amount.val ++ coin.owner.encode

/-- The canonical bytes: the coin map and the total. The owner lookup is not encoded. -/
def encode (s : UtxoSet) : Option (List Byte) :=
  (encodeLen s.coins.length).map fun count =>
    count ++ (s.coins.entries.map fun e => encodeEntry e.1 e.2).flatten ++ leBytes 8
      s.totalValue.val

/-! ## What the two changes do -/

variable {s s' : UtxoSet} {id : CoinShare} {c : CoinUtxo}

theorem insertCoin_ok (h : s.insertCoin id c = .ok s') :
    c.amount ≠ 0 ∧ s.coins.get? id = none ∧ s'.coins = s.coins.insert id c ∧
      s'.totalValue.val = s.totalValue.val + c.amount.val ∧
      s'.byOwner = s.byOwner.add c.owner id := by
  simp only [insertCoin, bind_eq_ok, rejectIf_eq_ok, okOr_eq_ok, checkedAdd_eq_some,
    Bool.not_eq_true, contains_eq_false_iff, return_eq_ok] at h
  obtain ⟨_, hzero, _, hfresh, total, htotal, rfl⟩ := h
  exact ⟨hzero, hfresh, rfl, htotal, rfl⟩

theorem exists_insertCoin (hzero : c.amount ≠ 0) (hfresh : s.coins.get? id = none)
    (htotal : s.totalValue.val + c.amount.val < 2 ^ 64) : ∃ s', s.insertCoin id c = .ok s' := by
  refine ⟨⟨s.coins.insert id c, ⟨_, htotal⟩, s.byOwner.add c.owner id⟩, ?_⟩
  simp only [insertCoin, bind_eq_ok, rejectIf_eq_ok, okOr_eq_ok, checkedAdd_eq_some,
    Bool.not_eq_true, contains_eq_false_iff, return_eq_ok]
  exact ⟨(), hzero, (), hfresh, ⟨_, htotal⟩, rfl, rfl⟩

theorem consumeCoin_ok (h : s.consumeCoin id = .ok (c, s')) :
    s.coins.get? id = some c ∧ s'.coins = s.coins.erase id ∧
      s'.totalValue.val + c.amount.val = s.totalValue.val ∧
      s'.byOwner = s.byOwner.remove c.owner id := by
  simp only [consumeCoin, bind_eq_ok, okOr_eq_ok, checkedSub_eq_some, return_eq_ok,
    Prod.mk.injEq] at h
  obtain ⟨coin, hcoin, total, htotal, rfl, rfl⟩ := h
  exact ⟨hcoin, rfl, htotal, rfl⟩

theorem exists_consumeCoin (hcoin : s.coins.get? id = some c)
    (htotal : c.amount.val ≤ s.totalValue.val) : ∃ s', s.consumeCoin id = .ok (c, s') := by
  have hlt : s.totalValue.val - c.amount.val < 2 ^ 64 := by
    have := s.totalValue.isLt
    omega
  refine ⟨⟨s.coins.erase id, ⟨_, hlt⟩, s.byOwner.remove c.owner id⟩, ?_⟩
  simp only [consumeCoin, bind_eq_ok, okOr_eq_ok, checkedSub_eq_some, return_eq_ok, Prod.mk.injEq]
  exact ⟨c, hcoin, ⟨_, hlt⟩, by simp only; omega, rfl, rfl⟩

/-! ## Well-formed sets -/

/-- The sum of all live amounts. -/
def sumAmounts (s : UtxoSet) : Nat := sumBy (fun _ c => c.amount.val) s.coins

structure WellFormed (s : UtxoSet) : Prop where
  nonzero : ∀ id c, s.coins.get? id = some c → c.amount ≠ 0
  total : s.totalValue.val = s.sumAmounts
  indexed : ∀ o id, (s.byOwner.members o).get? id = some () ↔
    ∃ c, s.coins.get? id = some c ∧ c.owner = o
  compact : s.byOwner.Compact

theorem wellFormed_empty : WellFormed empty where
  nonzero _ _ h := by cases h
  total := rfl
  indexed o id := by simp [empty]
  compact := GroupIndex.compact_empty

theorem WellFormed.insertCoin (hs : WellFormed s) (h : s.insertCoin id c = .ok s') :
    WellFormed s' := by
  obtain ⟨hzero, hfresh, hcoins, htotal, hindex⟩ := insertCoin_ok h
  refine ⟨?_, ?_, ?_, hindex ▸ hs.compact.add c.owner id⟩
  · intro id' c' hget
    rw [hcoins, get?_insert] at hget
    split_ifs at hget with hid
    · cases hget
      exact hzero
    · exact hs.nonzero id' c' hget
  · rw [htotal, sumAmounts, hcoins, sumBy_insert_of_get?_none _ hfresh, hs.total, sumAmounts]
    omega
  · intro o id'
    rw [hindex, hcoins, GroupIndex.mem_add, hs.indexed, get?_insert]
    grind

theorem WellFormed.consumeCoin (hs : WellFormed s) (h : s.consumeCoin id = .ok (c, s')) :
    WellFormed s' := by
  obtain ⟨hget, hcoins, htotal, hindex⟩ := consumeCoin_ok h
  refine ⟨?_, ?_, ?_, hindex ▸ hs.compact.remove c.owner id⟩
  · intro id' c' hget'
    rw [hcoins, get?_erase] at hget'
    split_ifs at hget' with hid
    exact hs.nonzero id' c' hget'
  · have hsum := sumBy_erase (fun _ (c : CoinUtxo) => c.amount.val) s.coins id
    rw [hget, optionSum_some] at hsum
    have hold := hs.total
    rw [sumAmounts] at hold
    rw [sumAmounts, hcoins]
    omega
  · intro o id'
    rw [hindex, hcoins, GroupIndex.mem_remove, hs.indexed, get?_erase]
    grind

theorem WellFormed.ext (hs : WellFormed s) (hs' : WellFormed s') (h : s.coins = s'.coins) :
    s = s' := by
  have htotal : s.totalValue = s'.totalValue := by
    apply Fin.ext
    rw [hs.total, hs'.total, sumAmounts, sumAmounts, h]
  have hindex : s.byOwner = s'.byOwner := by
    refine hs.compact.ext hs'.compact fun o id => ?_
    rw [hs.indexed, hs'.indexed, h]
  rcases s with ⟨coins, total, index⟩
  rcases s' with ⟨coins', total', index'⟩
  simp only at h htotal hindex
  rw [h, htotal, hindex]

/-! ## The owner lookup -/

theorem mem_coinsByOwner (hs : WellFormed s) {o : Owner} {e : CoinShare × CoinUtxo} :
    e ∈ s.coinsByOwner o ↔ s.coins.get? e.1 = some e.2 ∧ e.2.owner = o := by
  obtain ⟨id, c⟩ := e
  simp only [coinsByOwner, List.mem_filterMap, mem_keys_iff]
  constructor
  · rintro ⟨id', _, hbind⟩
    obtain ⟨c', hc', hif⟩ := Option.bind_eq_some_iff.mp hbind
    split_ifs at hif with ho
    cases hif
    exact ⟨hc', ho⟩
  · rintro ⟨hget, ho⟩
    refine ⟨id, ⟨(), (hs.indexed o id).mpr ⟨c, hget, ho⟩⟩, ?_⟩
    rw [hget, Option.bind_some, if_pos ho]

theorem sorted_coinsByOwner (s : UtxoSet) (o : Owner) :
    (s.coinsByOwner o).Pairwise fun a b => a.1 < b.1 := by
  have hkeys : ((s.byOwner.members o).keys).Pairwise (· < ·) :=
    List.pairwise_map.mpr (s.byOwner.members o).sorted
  refine List.Pairwise.filterMap _ ?_ hkeys
  intro a b hab x hx y hy
  have hfst : ∀ {id : CoinShare} {e : CoinShare × CoinUtxo},
      ((s.coins.get? id).bind fun coin => if coin.owner = o then some (id, coin) else none) =
        some e →
        e.1 = id := by
    intro id e he
    obtain ⟨coin, _, hif⟩ := Option.bind_eq_some_iff.mp he
    split_ifs at hif
    cases hif
    rfl
  rw [hfst hx, hfst hy]
  exact hab

end UtxoSet

end Xparq
