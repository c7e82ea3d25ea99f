import Xparq.Consensus.Header
import Xparq.Lib.ParentForest

/-!
# The fork graph

Every block whose parent is known becomes a node; the best tip is kept by one comparison per
insertion. `insertBlock_ok` says everything an accepted insertion did, and `ForkChoice.Forest` is
what insertions keep: each node has a lineage down to genesis, its totals are those of its parent
plus its own, and the best tip is the largest node.

A forest is determined by the blocks in it (`Forest.ext`), so the order of the insertions does
not matter (`insertAll_order`).

The parent walks of the source have no bound. Here they stop after as many steps as there are
nodes, which in a forest is never before they end.
-/

namespace Xparq

open Machine Outcome OrderedMap ParentForest List

@[ext] structure BlockNode where
  block : Block
  hash : BlockHash
  parent : BlockHash
  height : Height
  work : Work
  cumulativeWork : Work
  weight : U64
  cumulativeWeight : U64
  deriving DecidableEq

structure ForkChoice where
  expectedGenesis : BlockHash
  nodes : OrderedMap BlockHash BlockNode
  bestTip : Option BlockHash
  deriving DecidableEq

def BlockNode.tip (n : BlockNode) : ChainTip := ⟨n.cumulativeWork, n.cumulativeWeight, n.hash⟩

namespace ForkChoice

def new (expectedGenesis : BlockHash) : ForkChoice := ⟨expectedGenesis, ∅, none⟩

/-! ## Parent walks -/

/-- The walk of `ancestor_hashes`. -/
def ancestorsFrom (f : ForkChoice) : Nat → BlockHash → List BlockHash
  | 0, _ => []
  | fuel + 1, current =>
    match f.nodes.get? current with
    | none => []
    | some node => current :: if node.height = 0 then [] else f.ancestorsFrom fuel node.parent

def ancestorHashes (f : ForkChoice) (hash : BlockHash) : List BlockHash :=
  f.ancestorsFrom f.nodes.length hash

/-- The walk of `ancestor_at_height`. -/
def ancestorAtFrom (f : ForkChoice) (height : Height) : Nat → BlockHash → Option BlockNode
  | 0, _ => none
  | fuel + 1, current => do
    let node ← f.nodes.get? current
    if node.height = height then some node
    else if node.height < height ∨ node.height = 0 then none
    else f.ancestorAtFrom height fuel node.parent

def ancestorAtHeight (f : ForkChoice) (hash : BlockHash) (height : Height) : Option BlockNode :=
  f.ancestorAtFrom height f.nodes.length hash

/-! ## Insertion -/

def expectedDifficultyFor (f : ForkChoice) (block : Block) (parent : BlockHash) :
    Except ForkChoiceError U32 :=
  if block.height = 0 then .ok genesisTargetBits
  else do
    let parentNode ← okOr (f.nodes.get? parent) .missingParent
    let bits ← expectedDifficultyForHeight block.height.val parentNode.block.header.targetBits
      fun height =>
      (okOr ((ofNat? (2 ^ 64) height).bind (f.ancestorAtHeight parent))
        ForkChoiceError.missingParent).map
        fun node => node.block.header.blockWeight.val
    okOr bits .invalidDifficulty

/-- `update_best_tip`. -/
def updateBestTip (f : ForkChoice) (candidateHash : BlockHash) : ForkChoice :=
  match f.nodes.get? candidateHash with
  | none => f
  | some candidate =>
    match f.bestTip.bind f.nodes.get? with
    | none => { f with bestTip := some candidateHash }
    | some best =>
      if compareChainTips candidate.cumulativeWork candidate.cumulativeWeight candidate.hash
          best.cumulativeWork best.cumulativeWeight best.hash = .gt then
        { f with bestTip := some candidateHash }
      else f

def difficultyIsValid (block : Block) : Bool :=
  if block.isGenesis then block.header.targetBits = genesisTargetBits
  else (PoWTarget.fromCompact block.header.targetBits).isSome

section
variable [Crypto]

/-- The totals the new node builds on. -/
def parentTotals (f : ForkChoice) (block : Block) : Except ForkChoiceError (Work × U64) :=
  if block.height = 0 then do
    rejectIf (block.hash ≠ f.expectedGenesis) .unexpectedGenesis
    rejectIf (block.header.previousHash ≠ 0) .missingParent
    return (0, 0)
  else do
    let parentNode ← okOr (f.nodes.get? block.header.previousHash) .missingParent
    rejectIf (block.height ≠ parentNode.height.next) .invalidHeight
    return (parentNode.cumulativeWork, parentNode.cumulativeWeight)

/-- The work of the block itself; the genesis block has none. -/
def checkWork (block : Block) (expectedDifficulty : U32) : Except ForkChoiceError Work :=
  if block.isGenesis then .ok 0
  else do
    rejectIf (block.header.targetBits ≠ expectedDifficulty) .invalidDifficulty
    (validatePowAtTargetBits block.header expectedDifficulty).mapError .invalidProofOfWork
    okOr (blockWork expectedDifficulty) .invalidDifficulty

def ownWeight (block : Block) : U64 :=
  if block.isGenesis then 0 else block.header.blockWeight.castLE u32_le_u64

def insertBlock (f : ForkChoice) (block : Block) :
    Except ForkChoiceError (BlockHash × ForkChoice) := do
  block.validateStructure.mapError .invalidBlock
  let hash := block.hash
  rejectIf (f.nodes.contains hash = true) .duplicateBlock
  rejectIf (difficultyIsValid block = false) .invalidDifficulty
  rejectIf (block.isGenesis = false ∧
    (block.header.blockWeight = 0 ∨ block.header.blockWeight.val > maxBlockSize)) .invalidHeader
  let parent := block.header.previousHash
  let (parentWork, parentWeight) ← f.parentTotals block
  let expectedDifficulty ← f.expectedDifficultyFor block parent
  let work ← checkWork block expectedDifficulty
  let weight := ownWeight block
  let node : BlockNode := {
    block, hash, parent, height := block.height, work
    cumulativeWork := saturatingAdd parentWork work, weight
    cumulativeWeight := saturatingAdd parentWeight weight }
  return (hash, { f with nodes := f.nodes.insert hash node }.updateBestTip hash)

/-- Insert blocks one after another. -/
def insertAll (f : ForkChoice) (blocks : List Block) : Except ForkChoiceError ForkChoice :=
  blocks.foldlM (fun f block => (f.insertBlock block).map Prod.snd) f

/-! ## What an insertion does -/

/-- The fields of a node, from its block and its parent's node. -/
structure NodeOf (f : ForkChoice) (node : BlockNode) : Prop where
  hash : node.hash = node.block.hash
  parent : node.parent = node.block.header.previousHash
  height : node.height = node.block.height
  weight : node.weight = ownWeight node.block
  totals : (node.height = 0 ∧ node.hash = f.expectedGenesis ∧ node.work = 0 ∧
    node.cumulativeWork = 0 ∧
      node.cumulativeWeight = 0) ∨
    (node.height ≠ 0 ∧ ∃ p, f.nodes.get? node.parent = some p ∧ node.height = p.height.next ∧
      blockWork node.block.header.targetBits = some node.work ∧
      node.cumulativeWork = saturatingAdd p.cumulativeWork node.work ∧
      node.cumulativeWeight = saturatingAdd p.cumulativeWeight node.weight)

variable {f f' : ForkChoice} {b : Block} {h : BlockHash}

theorem insertBlock_ok (hinsert : f.insertBlock b = .ok (h, f')) :
    h = b.hash ∧ f.nodes.get? b.hash = none ∧ ∃ node, node.block = b ∧ f.NodeOf node ∧
      f' = { f with nodes := f.nodes.insert b.hash node }.updateBestTip b.hash := by
  simp only [insertBlock, bind_eq_ok, rejectIf_eq_ok, Bool.not_eq_true, contains_eq_false_iff,
    Prod.exists, return_eq_ok, Prod.mk.injEq] at hinsert
  obtain ⟨_, _, _, hfree, _, _, _, _, parentWork, parentWeight, htotals, expected, hexpected, work,
    hwork, rfl, rfl⟩ :=
    hinsert
  refine ⟨rfl, hfree, _, rfl, ⟨rfl, rfl, rfl, rfl, ?_⟩, rfl⟩
  by_cases hzero : b.height = 0
  · left
    have hgenesis : b.isGenesis = true := by simp [Block.isGenesis, hzero]
    rw [parentTotals, if_pos hzero] at htotals
    simp only [bind_eq_ok, rejectIf_eq_ok, not_not, return_eq_ok, Prod.mk.injEq] at htotals
    obtain ⟨_, hhash, _, _, rfl, rfl⟩ := htotals
    rw [checkWork, if_pos hgenesis, Except.ok.injEq] at hwork
    refine ⟨hzero, hhash, hwork.symm, ?_, ?_⟩
    · rw [← hwork, saturatingAdd_zero]
    · rw [ownWeight, if_pos hgenesis, saturatingAdd_zero]
  · right
    have hgenesis : ¬ b.isGenesis = true := by simp [Block.isGenesis, hzero]
    rw [parentTotals, if_neg hzero] at htotals
    simp only [bind_eq_ok, okOr_eq_ok, rejectIf_eq_ok, not_not, return_eq_ok,
      Prod.mk.injEq] at htotals
    obtain ⟨p, hp, _, hheight, rfl, rfl⟩ := htotals
    rw [checkWork, if_neg hgenesis] at hwork
    simp only [bind_eq_ok, okOr_eq_ok, rejectIf_eq_ok, not_not] at hwork
    obtain ⟨_, htarget, _, _, hwork⟩ := hwork
    rw [← htarget] at hwork
    exact ⟨hzero, p, hp, hheight, hwork, rfl, rfl⟩

omit [Crypto] in
@[simp] theorem updateBestTip_nodes (f : ForkChoice) (h : BlockHash) :
    (f.updateBestTip h).nodes = f.nodes := by
  unfold updateBestTip
  split
  · rfl
  · split
    · rfl
    · split_ifs <;> rfl

omit [Crypto] in
@[simp] theorem updateBestTip_expectedGenesis (f : ForkChoice) (h : BlockHash) :
    (f.updateBestTip h).expectedGenesis = f.expectedGenesis := by
  unfold updateBestTip
  split
  · rfl
  · split
    · rfl
    · split_ifs <;> rfl

/-! ## Forests -/

/-- The parent of a node that is not genesis. -/
def up (f : ForkChoice) (h : BlockHash) : Option BlockHash :=
  (f.nodes.get? h).bind fun node => if node.height = 0 then none else some node.parent

/-- The best tip is a node, and no node is better. -/
structure BestTip (f : ForkChoice) : Prop where
  node : ∀ best, f.bestTip = some best → ∃ n, f.nodes.get? best = some n
  largest : ∀ h m, f.nodes.get? h = some m →
    ∃ best n, f.bestTip = some best ∧ f.nodes.get? best = some n ∧ m.tip.key ≤ n.tip.key

structure Forest (f : ForkChoice) : Prop where
  node : ∀ h n, f.nodes.get? h = some n → n.hash = h ∧ f.NodeOf n
  lineage : ∀ h n, f.nodes.get? h = some n →
    ∃ l, Lineage f.up h l ∧ ∀ x ∈ l, ∃ m, f.nodes.get? x = some m
  best : f.BestTip

theorem forest_new (genesis : BlockHash) : Forest (new genesis) where
  node _ _ h := by cases h
  lineage _ _ h := by cases h
  best := ⟨nofun, fun _ _ h => by cases h⟩

omit [Crypto] in
theorem exists_updateBestTip {candidate : BlockNode} (hcandidate : f.nodes.get? h = some candidate)
    (hnode : ∀ best, f.bestTip = some best → ∃ n, f.nodes.get? best = some n) :
    ∃ best n, (f.updateBestTip h).bestTip = some best ∧ f.nodes.get? best = some n ∧
      candidate.tip.key ≤ n.tip.key ∧
      ∀ old m, f.bestTip = some old → f.nodes.get? old = some m → m.tip.key ≤ n.tip.key := by
  cases hbest : f.bestTip with
  | none => exact ⟨h, candidate,
    by simp [updateBestTip, hcandidate, hbest], hcandidate, le_rfl, nofun⟩
  | some best =>
    obtain ⟨n, hn⟩ := hnode best hbest
    have hold : ∀ old m, some best = some old → f.nodes.get? old = some m → m = n := by
      rintro old m ⟨⟩ hm
      exact Option.some.inj (hm.symm.trans hn)
    simp only [updateBestTip, hcandidate, hbest, Option.bind_some, hn]
    change ∃ best' n', (if candidate.tip.compareTips n.tip = .gt then { f with bestTip := some h }
      else f).bestTip =
      some best' ∧ _
    by_cases hgt : candidate.tip.compareTips n.tip = .gt
    · rw [if_pos hgt]
      refine ⟨h, candidate, rfl, hcandidate, le_rfl, ?_⟩
      intro old m hsome hm
      rw [hold old m hsome hm]
      exact (ChainTip.compareTips_eq_gt.mp hgt).le
    · rw [if_neg hgt]
      refine ⟨best, n, hbest, hn, not_lt.mp fun hlt => hgt (ChainTip.compareTips_eq_gt.mpr hlt), ?_⟩
      intro old m hsome hm
      rw [hold old m hsome hm]

variable {node : BlockNode} {l : List BlockHash}

omit [Crypto] in
theorem BestTip.insert (hf : f.BestTip) (hfree : f.nodes.get? h = none) :
    ({ f with nodes := f.nodes.insert h node }.updateBestTip h).BestTip := by
  have hkeep : ∀ x m, f.nodes.get? x = some m → (f.nodes.insert h node).get? x = some m := by
    intro x m hm
    rw [get?_insert, if_neg, hm]
    rintro rfl
    rw [hfree] at hm
    cases hm
  have hnode : ∀ best, f.bestTip = some best → ∃ n, (f.nodes.insert h node).get? best = some n := by
    intro best hbest
    obtain ⟨n, hn⟩ := hf.node best hbest
    exact ⟨n, hkeep best n hn⟩
  obtain ⟨best, n, hbest, hn, hcandidate, hold⟩ :=
    exists_updateBestTip (f := { f with nodes := f.nodes.insert h node }) (h := h)
      (get?_insert_self _ _ _) hnode
  refine ⟨?_, ?_⟩
  · intro best' hbest'
    rw [hbest] at hbest'
    cases hbest'
    exact ⟨n, by rw [updateBestTip_nodes]; exact hn⟩
  · intro x m hm
    rw [updateBestTip_nodes] at hm
    refine ⟨best, n, hbest, by rw [updateBestTip_nodes]; exact hn, ?_⟩
    change (f.nodes.insert h node).get? x = some m at hm
    rw [get?_insert] at hm
    split_ifs at hm
    · cases hm
      exact hcandidate
    · obtain ⟨old, o, hsome, ho, hle⟩ := hf.largest x m hm
      exact hle.trans (hold old o hsome (hkeep old o ho))

theorem NodeOf.mono (hnode : f.NodeOf node) (hgenesis : f'.expectedGenesis = f.expectedGenesis)
    (hkeep : ∀ x m, f.nodes.get? x = some m → f'.nodes.get? x = some m) : f'.NodeOf node := by
  refine ⟨hnode.hash, hnode.parent, hnode.height, hnode.weight, ?_⟩
  rcases hnode.totals with ⟨hzero, hhash, hrest⟩ | ⟨hzero, p, hp, hrest⟩
  · exact .inl ⟨hzero, hhash.trans hgenesis.symm, hrest⟩
  · exact .inr ⟨hzero, p, hkeep _ p hp, hrest⟩

theorem Forest.insertBlock (hf : f.Forest) (hinsert : f.insertBlock b = .ok (h, f')) :
    f'.Forest := by
  obtain ⟨rfl, hfree, node, hblock, hnode, rfl⟩ := insertBlock_ok hinsert
  have hhash : node.hash = b.hash := by rw [hnode.hash, hblock]
  have hne : ∀ x m, f.nodes.get? x = some m → x ≠ b.hash := by
    rintro x m hm rfl
    rw [hfree] at hm
    cases hm
  have hkeep : ∀ x m, f.nodes.get? x = some m → (f.nodes.insert b.hash node).get? x = some m := by
    intro x m hm
    rw [get?_insert, if_neg (hne x m hm), hm]
  have hmono : ∀ n, f.NodeOf n →
      ({ f with nodes := f.nodes.insert b.hash node }.updateBestTip b.hash).NodeOf n := by
    intro n hn
    refine hn.mono (by simp) fun x m hm => ?_
    rw [updateBestTip_nodes]
    exact hkeep x m hm
  have hup : ∀ x, ({ f with nodes := f.nodes.insert b.hash node }.updateBestTip b.hash).up x =
      ((f.nodes.insert b.hash node).get? x).bind fun n => if n.height = 0 then none
        else some n.parent := by
    intro x
    rw [up, updateBestTip_nodes]
  -- old lineages do not pass the new node
  have hold : ∀ x m, f.nodes.get? x = some m →
      ∃ l, Lineage ({ f with nodes := f.nodes.insert b.hash node }.updateBestTip b.hash).up x l ∧
        ∀ y ∈ l, ∃ m, (f.nodes.insert b.hash node).get? y = some m := by
    intro x m hm
    obtain ⟨l, hl, hnodes⟩ := hf.lineage x m hm
    refine ⟨l, hl.congr ?_, ?_⟩
    · intro y hy
      obtain ⟨n, hn⟩ := hnodes y hy
      rw [hup, hkeep y n hn, up, hn]
    · intro y hy
      obtain ⟨n, hn⟩ := hnodes y hy
      exact ⟨n, hkeep y n hn⟩
  refine ⟨?_, ?_, hf.best.insert hfree⟩
  · intro x n hn
    rw [updateBestTip_nodes] at hn
    change (f.nodes.insert b.hash node).get? x = some n at hn
    rw [get?_insert] at hn
    split_ifs at hn with hx
    · cases hn
      exact ⟨hhash.trans hx.symm, hmono node hnode⟩
    · obtain ⟨hkey, hof⟩ := hf.node x n hn
      exact ⟨hkey, hmono n hof⟩
  · intro x n hn
    rw [updateBestTip_nodes] at hn ⊢
    change (f.nodes.insert b.hash node).get? x = some n at hn
    have hn' := hn
    rw [get?_insert] at hn'
    split_ifs at hn' with hx
    · cases hn'
      subst hx
      rcases hnode.totals with ⟨hzero, _⟩ | ⟨hzero, p, hp, _⟩
      · refine ⟨[b.hash], .root ?_, ?_⟩
        · rw [hup, hn, Option.bind_some, if_pos hzero]
        · intro y hy
          obtain rfl := mem_singleton.mp hy
          exact ⟨node, hn⟩
      · obtain ⟨l, hl, hnodes⟩ := hold _ p hp
        refine ⟨b.hash :: l, .step ?_ hl, ?_⟩
        · rw [hup, hn, Option.bind_some, if_neg hzero]
        · intro y hy
          rcases mem_cons.mp hy with rfl | hy
          · exact ⟨node, hn⟩
          · exact hnodes y hy
    · exact hold x n hn'

variable {n : BlockNode} {blocks : List Block}

theorem Forest.insertAll (hf : f.Forest) (hinsert : f.insertAll blocks = .ok f') : f'.Forest := by
  refine foldlM_invariant Forest ?_ hf hinsert
  intro f f' b _ hf hstep
  simp only [exceptMap_eq_ok, Prod.exists] at hstep
  obtain ⟨h, f'', hinsert, rfl⟩ := hstep
  exact hf.insertBlock hinsert

/-! ## Walks in a forest -/

theorem Forest.lineage_length (hf : f.Forest) (hn : f.nodes.get? h = some n)
    (hl : Lineage f.up h l) : l.length ≤ f.nodes.length := by
  obtain ⟨l', hl', hnodes⟩ := hf.lineage h n hn
  obtain rfl := hl.unique hl'
  have hsubset : l ⊆ f.nodes.keys := by
    intro x hx
    exact mem_keys_iff.mpr (hnodes x hx)
  have hlength := (subperm_of_subset hl.nodup hsubset).length_le
  rwa [OrderedMap.keys, length_map] at hlength

omit [Crypto] in
theorem ancestorsFrom_eq (hl : Lineage f.up h l) (hn : f.nodes.get? h = some n)
    (hnodes : ∀ x ∈ l, ∃ m, f.nodes.get? x = some m) {fuel : Nat} (hfuel : l.length ≤ fuel) :
    f.ancestorsFrom fuel h = l := by
  induction hl generalizing n fuel with
  | @root k hroot =>
    obtain ⟨fuel, rfl⟩ := Nat.exists_eq_add_of_le' hfuel
    rw [up, hn, Option.bind_some] at hroot
    have hzero : n.height = 0 := by
      by_contra hzero
      rw [if_neg hzero] at hroot
      cases hroot
    rw [length_singleton, ancestorsFrom, hn]
    simp only [if_pos hzero]
  | @step k p l hup hp ih =>
    obtain ⟨fuel, rfl⟩ := Nat.exists_eq_add_of_le' (Nat.le_trans (Nat.le_add_left 1 l.length) hfuel)
    rw [up, hn, Option.bind_some] at hup
    split_ifs at hup with hzero
    obtain rfl := Option.some.inj hup
    obtain ⟨m, hm⟩ := hnodes n.parent (mem_cons_of_mem _ hp.mem_self)
    rw [ancestorsFrom, hn]
    simp only [if_neg hzero]
    rw [ih hm (fun x hx => hnodes x (mem_cons_of_mem _ hx)) (Nat.le_of_succ_le_succ hfuel)]

theorem Forest.lineage_ancestorHashes (hf : f.Forest) (hn : f.nodes.get? h = some n) :
    Lineage f.up h (f.ancestorHashes h) ∧ ∀ x ∈ f.ancestorHashes h, ∃ m,
      f.nodes.get? x = some m := by
  obtain ⟨l, hl, hnodes⟩ := hf.lineage h n hn
  have heq : f.ancestorHashes h = l := ancestorsFrom_eq hl hn hnodes (hf.lineage_length hn hl)
  rw [heq]
  exact ⟨hl, hnodes⟩

/-- The nodes on the walk. -/
def ancestorNodes (f : ForkChoice) (h : BlockHash) :
    List BlockNode := (f.ancestorHashes h).filterMap f.nodes.get?

/-- By induction on the line of ancestors: a node's totals are those of its parent and its own,
saturated. -/
theorem Forest.totals (hf : f.Forest) (hn : f.nodes.get? h = some n) :
    n.cumulativeWork.val = min ((f.ancestorNodes h).map fun a => a.work.val).sum (workLimit - 1) ∧
      n.cumulativeWeight.val = min ((f.ancestorNodes h).map fun a => a.weight.val).sum
      (2 ^ 64 - 1) := by
  obtain ⟨hl, hnodes⟩ := hf.lineage_ancestorHashes hn
  unfold ancestorNodes
  generalize f.ancestorHashes h = l at hl hnodes
  induction hl generalizing n with
  | @root k hroot =>
    rw [up, hn, Option.bind_some] at hroot
    rcases (hf.node k n hn).2.totals with ⟨hzero, _, hwork, htotal, hweight⟩ | ⟨hzero, _⟩
    · have hgenesis : n.block.isGenesis = true := by
        rw [Block.isGenesis, ← (hf.node k n hn).2.height, hzero]
        rfl
      have hown : n.weight = 0 := by rw [(hf.node k n hn).2.weight, ownWeight, if_pos hgenesis]
      simp only [filterMap_cons, hn, filterMap_nil, map_cons, map_nil, sum_cons,
        sum_nil, htotal, hwork, hweight, hown]
      exact ⟨rfl, rfl⟩
    · rw [if_neg hzero] at hroot
      cases hroot
  | @step k p l hup hp ih =>
    rw [up, hn, Option.bind_some] at hup
    split_ifs at hup with hzero
    obtain rfl := Option.some.inj hup
    rcases (hf.node k n hn).2.totals with ⟨hzero', _⟩ | ⟨_, p, hparent, _, _, hwork, hweight⟩
    · exact absurd hzero' hzero
    · obtain ⟨ihWork, ihWeight⟩ := ih hparent fun x hx => hnodes x (mem_cons_of_mem _ hx)
      simp only [filterMap_cons, hn, map_cons, sum_cons, hwork, hweight, val_saturatingAdd, ihWork,
        ihWeight]
      constructor <;> omega

/-! ## The order of insertion -/

/-- Insertions add a node for each block and replace none. -/
theorem insertAll_nodes (hinsert : f.insertAll blocks = .ok f') :
    f'.expectedGenesis = f.expectedGenesis ∧
      (∀ x n, f'.nodes.get? x = some n → f.nodes.get? x = some n ∨ n.block ∈ blocks ∧
      n.block.hash = x) ∧
      (∀ x n, f.nodes.get? x = some n → f'.nodes.get? x = some n) ∧
      ∀ b ∈ blocks, ∃ n, f'.nodes.get? b.hash = some n ∧ n.block = b := by
  induction blocks generalizing f with
  | nil =>
    cases hinsert
    exact ⟨rfl, fun _ _ h => .inl h, fun _ _ h => h, nofun⟩
  | cons b blocks ih =>
    simp only [insertAll, foldlM_cons, bind_eq_ok, exceptMap_eq_ok, Prod.exists] at hinsert
    obtain ⟨mid, ⟨h, f'', hb, rfl⟩, hrest⟩ := hinsert
    obtain ⟨rfl, hfree, node, hblock, _, rfl⟩ := insertBlock_ok hb
    obtain ⟨ihGenesis, ihNodes, ihKeep, ihBlocks⟩ := ih hrest
    simp only [updateBestTip_expectedGenesis, updateBestTip_nodes] at ihGenesis ihNodes ihKeep
    refine ⟨ihGenesis, ?_, ?_, ?_⟩
    · intro x n hn
      rcases ihNodes x n hn with hmid | ⟨hmem, hhash⟩
      · rw [get?_insert] at hmid
        split_ifs at hmid with hx
        · cases hmid
          exact .inr ⟨by simp [hblock], by rw [hblock, hx]⟩
        · exact .inl hmid
      · exact .inr ⟨mem_cons_of_mem _ hmem, hhash⟩
    · intro x n hn
      refine ihKeep x n ?_
      rw [get?_insert, if_neg, hn]
      rintro rfl
      rw [hfree] at hn
      cases hn
    · intro c hc
      rcases mem_cons.mp hc with rfl | hc
      · exact ⟨node, ihKeep c.hash node (get?_insert_self _ _ _), hblock⟩
      · exact ihBlocks c hc

/-- One forest has the blocks of another. -/
def HasBlocksOf (f' f : ForkChoice) : Prop :=
  ∀ x n, f.nodes.get? x = some n → ∃ m, f'.nodes.get? x = some m ∧ m.block = n.block

theorem NodeOf.eq {m : BlockNode} (hn : f.NodeOf n) (hm : f'.NodeOf m) (hblock : m.block = n.block)
    (hparent : ∀ p, n.height ≠ 0 → f.nodes.get? n.parent = some p →
      f'.nodes.get? n.parent = some p) :
    m = n := by
  have hheight : m.height = n.height := by rw [hm.height, hn.height, hblock]
  have hsame : m.parent = n.parent := by rw [hm.parent, hn.parent, hblock]
  have hweight : m.weight = n.weight := by rw [hm.weight, hn.weight, hblock]
  have htotals : m.work = n.work ∧ m.cumulativeWork = n.cumulativeWork ∧
      m.cumulativeWeight = n.cumulativeWeight := by
    rcases hn.totals with ⟨hzero, _, hw, hcw, hcg⟩ | ⟨hzero, p, hp, _, hw, hcw, hcg⟩
    · rcases hm.totals with ⟨_, _, hw', hcw', hcg'⟩ | ⟨hzero', _⟩
      · exact ⟨hw'.trans hw.symm, hcw'.trans hcw.symm, hcg'.trans hcg.symm⟩
      · exact absurd (hheight.trans hzero) hzero'
    · rcases hm.totals with ⟨hzero', _⟩ | ⟨_, p', hp', _, hw', hcw', hcg'⟩
      · exact absurd (hheight.symm.trans hzero') hzero
      · rw [hsame, hparent p hzero hp, Option.some.injEq] at hp'
        subst hp'
        rw [hblock, hw, Option.some.injEq] at hw'
        exact ⟨hw'.symm, by rw [hcw', hcw, hw'], by rw [hcg', hcg, hweight]⟩
  refine BlockNode.ext hblock ?_ hsame hheight htotals.1 htotals.2.1 hweight htotals.2.2
  rw [hm.hash, hn.hash, hblock]

theorem Forest.node_eq (hf : f.Forest) (hf' : f'.Forest) (hblocks : f'.HasBlocksOf f)
    (hn : f.nodes.get? h = some n) : f'.nodes.get? h = some n := by
  obtain ⟨l, hl, -⟩ := hf.lineage h n hn
  induction hl generalizing n with
  | @root k hroot =>
    obtain ⟨m, hm, hblock⟩ := hblocks k n hn
    rw [hm, (hf.node k n hn).2.eq (hf'.node k m hm).2 hblock]
    intro p hzero _
    rw [up, hn, Option.bind_some, if_neg hzero] at hroot
    cases hroot
  | @step k p l hup hp ih =>
    obtain ⟨m, hm, hblock⟩ := hblocks k n hn
    rw [hm, (hf.node k n hn).2.eq (hf'.node k m hm).2 hblock]
    intro q hzero hq
    rw [up, hn, Option.bind_some, if_neg hzero] at hup
    obtain rfl := Option.some.inj hup
    exact ih hq

theorem Forest.bestTip_eq (hf : f.Forest) (hf' : f'.Forest) (hnodes : f.nodes = f'.nodes) :
    f.bestTip = f'.bestTip := by
  cases hbest : f.bestTip with
  | none =>
    cases hbest' : f'.bestTip with
    | none => rfl
    | some best =>
      obtain ⟨n, hn⟩ := hf'.best.node best hbest'
      obtain ⟨_, _, hsome, _⟩ := hf.best.largest best n (hnodes ▸ hn)
      rw [hbest] at hsome
      cases hsome
  | some best =>
    obtain ⟨n, hn⟩ := hf.best.node best hbest
    obtain ⟨best', n', hbest', hn', hle⟩ := hf'.best.largest best n (hnodes ▸ hn)
    obtain ⟨best'', n'', hbest'', hn'', hle'⟩ := hf.best.largest best' n' (hnodes ▸ hn')
    rw [hbest] at hbest''
    cases hbest''
    rw [hn] at hn''
    cases hn''
    have htip := ChainTip.key_injective (le_antisymm hle hle')
    have hhash : n.hash = n'.hash := congrArg ChainTip.hash htip
    rw [hbest', ← (hf.node best n hn).1, hhash, (hf'.node best' n' hn').1]

theorem Forest.ext (hf : f.Forest) (hf' : f'.Forest)
    (hgenesis : f.expectedGenesis = f'.expectedGenesis) (hblocks : f'.HasBlocksOf f)
    (hblocks' : f.HasBlocksOf f') : f = f' := by
  have hnodes : f.nodes = f'.nodes := by
    apply ext_get?
    intro x
    cases hx : f.nodes.get? x with
    | some n => rw [hf.node_eq hf' hblocks hx]
    | none =>
      cases hx' : f'.nodes.get? x with
      | none => rfl
      | some n =>
        rw [hf'.node_eq hf hblocks' hx'] at hx
        cases hx
  have hbest := hf.bestTip_eq hf' hnodes
  cases f
  cases f'
  simp_all

theorem hasBlocksOf_insertAll {genesis : BlockHash} {blocks' : List Block}
    (hsubset : ∀ b ∈ blocks, b ∈ blocks') (hinsert : (new genesis).insertAll blocks = .ok f)
    (hinsert' : (new genesis).insertAll blocks' = .ok f') :
    f'.HasBlocksOf f := by
  intro x n hn
  obtain ⟨_, hnodes, _, _⟩ := insertAll_nodes hinsert
  obtain ⟨_, _, _, hblocks'⟩ := insertAll_nodes hinsert'
  rcases hnodes x n hn with hnone | ⟨hmem, rfl⟩
  · cases hnone
  · exact hblocks' n.block (hsubset n.block hmem)

/-- The order of the insertions does not matter. Totals are sums over the ancestors, and the best
tip beats every other node. -/
theorem insertAll_order {genesis : BlockHash} {blocks blocks' : List Block}
    (hblocks : ∀ b, b ∈ blocks ↔ b ∈ blocks') (hinsert : (new genesis).insertAll blocks = .ok f)
    (hinsert' : (new genesis).insertAll blocks' = .ok f') :
    f = f' ∧
    (∀ x n, f.nodes.get? x = some n →
      n.cumulativeWork.val = min ((f.ancestorNodes x).map fun a => a.work.val).sum (workLimit - 1) ∧
      n.cumulativeWeight.val = min ((f.ancestorNodes x).map fun a => a.weight.val).sum
      (2 ^ 64 - 1)) ∧
    (∀ x n, f.nodes.get? x = some n → ∃ best m, f.bestTip = some best ∧ f.nodes.get? best = some m ∧
      (x ≠ best → compareChainTips m.cumulativeWork m.cumulativeWeight m.hash
        n.cumulativeWork n.cumulativeWeight n.hash = .gt)) := by
  have hf : f.Forest := (forest_new genesis).insertAll hinsert
  have hf' : f'.Forest := (forest_new genesis).insertAll hinsert'
  refine ⟨?_, fun x n hn => hf.totals hn, ?_⟩
  · refine hf.ext hf' ?_ ?_ ?_
    · rw [(insertAll_nodes hinsert).1, (insertAll_nodes hinsert').1]
    · exact hasBlocksOf_insertAll (fun b => (hblocks b).mp) hinsert hinsert'
    · exact hasBlocksOf_insertAll (fun b => (hblocks b).mpr) hinsert' hinsert
  · intro x n hn
    obtain ⟨best, m, hbest, hm, hle⟩ := hf.best.largest x n hn
    refine ⟨best, m, hbest, hm, fun hne => ?_⟩
    have hlt : n.tip.key < m.tip.key := by
      refine lt_of_le_of_ne hle fun heq => hne ?_
      have hhash : n.hash = m.hash := congrArg ChainTip.hash (ChainTip.key_injective heq)
      rw [← (hf.node x n hn).1, hhash, (hf.node best m hm).1]
    exact ChainTip.compareTips_eq_gt.mpr hlt

/-! ## A fork

A genesis block with two children, over the checksum. -/

def forkGenesis : Block := ⟨⟨0, 0, 0, genesisTargetBits, 125, 0⟩, 0, none, []⟩

def forkChild (miner : ProgramId) : Block :=
  let emission : Emission := ⟨miner, 156250000⟩
  ⟨⟨forkGenesis.hash, emission.hash, 0, targetBitsStart, 165, 0⟩, 1, some emission, []⟩

end

section Sample

attribute [local instance] Crypto.checksum

theorem fork_order :
    ∃ f, (new forkGenesis.hash).insertAll [forkGenesis, forkChild 1, forkChild 2] = .ok f ∧
    (new forkGenesis.hash).insertAll [forkGenesis, forkChild 2, forkChild 1] = .ok f := by
  have hok : ((new forkGenesis.hash).insertAll [forkGenesis, forkChild 1, forkChild 2]).isOk =
      true := by
    decide +kernel
  have hok' : ((new forkGenesis.hash).insertAll [forkGenesis, forkChild 2, forkChild 1]).isOk =
      true := by
    decide +kernel
  obtain ⟨f, hf⟩ := exists_of_isOk hok
  obtain ⟨f', hf'⟩ := exists_of_isOk hok'
  have hsame : f = f' := (insertAll_order (by simp [or_comm]) hf hf').1
  exact ⟨f, hf, hsame ▸ hf'⟩

end Sample

end ForkChoice

end Xparq
