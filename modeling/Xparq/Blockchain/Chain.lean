import Xparq.Blockchain.Block

/-!
# The chain

Headers by height, the bodies that are resident, and the tip. Only `insertBlock` and
`removeTip` move the tip.
-/

namespace Xparq

open Machine Outcome OrderedMap

structure Chain where
  headers : OrderedMap Height Header
  blocks : OrderedMap Height Block
  tipHeight : Option Height
  tipHash : Option BlockHash
  deriving DecidableEq

/-- `saturating_add(1)`. -/
def Height.next (h : Height) : Height := saturatingAdd h 1

theorem Height.le_next (h : Height) : h ≤ h.next := by
  rw [Fin.le_def, Height.next, val_saturatingAdd, Fin.val_one]
  omega

theorem Height.val_next {h : Height} (hroom : h.val + 1 < 2 ^ 64) : h.next.val = h.val + 1 := by
  rw [Height.next, val_saturatingAdd, Fin.val_one]
  omega

/-- Only at the last height is the next one the same. -/
theorem Height.val_of_eq_next {h h' : Height} (hnext : h' = h.next) (hne : h' ≠ h) :
    h'.val = h.val + 1 := by
  have hval : h'.val = min (h.val + 1) (2 ^ 64 - 1) := hnext ▸ val_saturatingAdd h 1
  have hne' := Fin.val_ne_of_ne hne
  omega

namespace Chain

def empty : Chain := ⟨∅, ∅, none, none⟩

def block (c : Chain) (h : Height) : Option Block := c.blocks.get? h

def header (c : Chain) (h : Height) : Option Header := c.headers.get? h

def hasBlocks (c : Chain) : Bool := c.tipHeight.isSome

def validateNextBlock (c : Chain) (b : Block) : Except ChainError Unit := do
  rejectIf (c.headers.contains b.height = true) .duplicateBlock
  match c.tipHeight, c.tipHash with
  | none, none => rejectIf (b.height ≠ 0 ∨ b.header.previousHash ≠ 0) .invalidHeight
  | some tipHeight, some tipHash => do
      rejectIf (b.height ≠ Height.next tipHeight) .invalidHeight
      rejectIf (b.header.previousHash ≠ tipHash) .invalidParent
  | _, _ => throw .invalidParent

variable [Crypto]

def insertBlock (c : Chain) (b : Block) : Except ChainError Chain := do
  c.validateNextBlock b
  return ⟨c.headers.insert b.height b.header, c.blocks.insert b.height b, some b.height,
    some b.hash⟩

def removeTip (c : Chain) (expectedHash : BlockHash) : Except ChainError (Block × Chain) := do
  rejectIf (c.tipHash ≠ some expectedHash) .invalidParent
  let height ← okOr c.tipHeight .invalidHeight
  let block ← okOr (c.blocks.get? height) .missingBody
  let headers := c.headers.erase height
  let previousHeight := checkedSub height 1
  return (block, ⟨headers, c.blocks.erase height, previousHeight,
    (previousHeight.bind headers.get?).map Header.hash⟩)

/-! ### Resident bodies -/

omit [Crypto] in
/-- From the newest body down: whether it stays, given the bytes and the number of those that do.
Genesis and tip always stay. -/
def retainStep (c : Chain) (maxBytes maxBlocks : Nat) (r : Nat × Nat × List Height)
    (e : Height × Block) : Except ChainError (Nat × Nat × List Height) := do
  let size ← e.2.weight.mapError .serialization
  let (bytes, count, remove) := r
  if (e.1 = 0 ∨ c.tipHeight = some e.1) ∨ (count < maxBlocks ∧ size ≤ maxBytes - bytes) then
    return (bytes + size, count + 1, remove)
  else return (bytes, count, remove ++ [e.1])

omit [Crypto] in
def retainRecentBodies (c : Chain) (maxBytes maxBlocks : Nat) : Except ChainError Chain := do
  let (_, _, remove) ← c.blocks.entries.reverse.foldlM (c.retainStep maxBytes maxBlocks) (0, 0, [])
  return { c with blocks := remove.foldl OrderedMap.erase c.blocks }

end Chain

end Xparq
