import Xparq.Consensus.Difficulty
import Mathlib.Order.Compare
import Mathlib.Data.Prod.Lex

/-!
# Chain work and the order of chain tips

The work of a block is the expected number of hashes below its target. Chain tips are compared
by cumulative work, then cumulative weight, then hash, where the smaller hash is preferred.
`compareTips_eq_gt` reads the comparison as the order of one key, so that it is a strict
total order on tips with distinct hashes.

The eight limbs of the source are one 512-bit number here, and its binary long division is the
division of numbers.
-/

namespace Xparq

open Machine

/-- The numbers of 512 bits are below this one; it is never unfolded by unification. -/
@[irreducible] def workLimit : Nat := 2 ^ 512

abbrev Work := Fin workLimit

theorem two_pow_lt_workLimit : 2 ^ 256 < workLimit := by
  unfold workLimit
  gcongr <;> decide

instance : NeZero workLimit := ⟨(lt_trans (Nat.two_pow_pos 256) two_pow_lt_workLimit).ne'⟩

/-- `floor(2^256 / (target + 1))`. -/
def PoWTarget.work (t : PoWTarget) : Work :=
  ⟨2 ^ 256 / (t.val + 1), lt_of_le_of_lt (Nat.div_le_self _ _) two_pow_lt_workLimit⟩

def blockWork (targetBits : U32) :
    Option Work := (PoWTarget.fromCompact targetBits).map PoWTarget.work

def compareChainTips (leftWork : Work) (leftWeight : U64) (leftHash : BlockHash) (rightWork : Work)
    (rightWeight : U64) (rightHash : BlockHash) : Ordering :=
  (compare leftWork rightWork).then
    ((compare leftWeight rightWeight).then (compare rightHash leftHash))

/-- The totals of a chain and the hash of its tip. -/
structure ChainTip where
  work : Work
  weight : U64
  hash : BlockHash
  deriving DecidableEq

namespace ChainTip

/-- The order of the keys is the order of the tips: a smaller hash makes a larger key. -/
def key (t : ChainTip) : Work ×ₗ U64 ×ₗ BlockHashᵒᵈ :=
  toLex (t.work, toLex (t.weight, OrderDual.toDual t.hash))

def compareTips (t u : ChainTip) : Ordering :=
  compareChainTips t.work t.weight t.hash u.work u.weight u.hash

theorem key_lt_iff {t u : ChainTip} : t.key < u.key ↔
    t.work < u.work ∨ t.work = u.work ∧ (t.weight < u.weight ∨ t.weight = u.weight ∧
      u.hash < t.hash) := by
  simp only [key, Prod.Lex.toLex_lt_toLex, OrderDual.toDual_lt_toDual]

theorem key_injective : Function.Injective key := by
  rintro ⟨w, g, h⟩ ⟨w', g', h'⟩ heq
  simpa [key] using heq

theorem compareTips_eq_gt {t u : ChainTip} : t.compareTips u = .gt ↔ u.key < t.key := by
  rw [key_lt_iff, compareTips, compareChainTips, Ordering.then_eq_gt, Ordering.then_eq_gt,
    compare_gt_iff_gt, compare_eq_iff_eq, compare_gt_iff_gt, compare_eq_iff_eq, compare_gt_iff_gt]
  simp only [eq_comm]

end ChainTip

end Xparq
