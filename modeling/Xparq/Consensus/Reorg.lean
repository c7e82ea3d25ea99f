import Xparq.Consensus.ForkChoice

/-!
# Reorganization plans

`planReorg` finds the first ancestor of the new tip that is also one of the old tip, and the
blocks on the two branches above it. `planReorg_spec`: in a graph built by insertions the plan
always exists, its ancestor is the lowest common one, and the branches share no block.
-/

namespace Xparq

open Machine Outcome OrderedMap ParentForest List

inductive ReorgError
  | invalidBranch
  deriving DecidableEq, Repr

structure ReorgPlan where
  ancestor : BlockHash
  oldTip : Option BlockHash
  newTip : BlockHash
  disconnect : List Block
  apply : List Block
  deriving DecidableEq

/-- The walk of `branch_from_ancestor`, bounded as the other parent walks are. -/
def ForkChoice.branchDown (f : ForkChoice) (ancestor : BlockHash) :
    Nat → BlockHash → Option (List Block)
  | 0, current => if current = ancestor then some [] else none
  | fuel + 1, current =>
    if current = ancestor then some []
    else do
      let node ← f.nodes.get? current
      let rest ← f.branchDown ancestor fuel node.parent
      return node.block :: rest

def ForkChoice.branchFromAncestor (f : ForkChoice) (ancestor tip : BlockHash) :
    Option (List Block) :=
  (f.branchDown ancestor f.nodes.length tip).map List.reverse

def commonAncestor (oldTip : Option BlockHash) (newTip : BlockHash) (f : ForkChoice) :
    Option BlockHash := do
  let old ← oldTip
  let oldAncestors := f.ancestorHashes old
  (f.ancestorHashes newTip).find? fun hash => hash ∈ oldAncestors

section
variable [Crypto]

def validateDisconnect (ancestor : BlockHash) (oldTip : Option BlockHash)
    (disconnect : List Block) : Except ReorgError Unit :=
  if disconnect = [] then rejectIf (oldTip ≠ some ancestor) .invalidBranch
  else do
    rejectIf (disconnect.head?.map Block.hash ≠ oldTip) .invalidBranch
    (disconnect.zip disconnect.tail).forM fun pair =>
      rejectIf (pair.1.header.previousHash ≠ pair.2.hash) ReorgError.invalidBranch
    rejectIf (disconnect.getLast?.map (fun b => b.header.previousHash) ≠ some ancestor)
      .invalidBranch

def validateApply (ancestor newTip : BlockHash) (apply : List Block) : Except ReorgError Unit :=
  if apply = [] then rejectIf (newTip ≠ ancestor) .invalidBranch
  else do
    let expectedParent ← apply.foldlM (fun expectedParent block => do
      rejectIf (block.header.previousHash ≠ expectedParent) ReorgError.invalidBranch
      return block.hash) ancestor
    rejectIf (expectedParent ≠ newTip) .invalidBranch

def ReorgPlan.new (ancestor : BlockHash) (oldTip : Option BlockHash) (newTip : BlockHash)
    (disconnect apply : List Block) : Except ReorgError ReorgPlan := do
  validateDisconnect ancestor oldTip disconnect
  validateApply ancestor newTip apply
  return ⟨ancestor, oldTip, newTip, disconnect, apply⟩

def planReorg (oldTip : Option BlockHash) (f : ForkChoice) (newTip : BlockHash) :
    Except ReorgError ReorgPlan := do
  let ancestor ← okOr (commonAncestor oldTip newTip f) .invalidBranch
  let apply ← okOr (f.branchFromAncestor ancestor newTip) .invalidBranch
  let oldTip' ← okOr oldTip .invalidBranch
  let disconnect ← okOr (f.branchFromAncestor ancestor oldTip') .invalidBranch
  ReorgPlan.new ancestor oldTip newTip disconnect.reverse apply

/-! ## Branches -/

namespace ForkChoice

/-- The blocks from the tip down to, but excluding, the ancestor. -/
inductive Branch (f : ForkChoice) : BlockHash → List Block → BlockHash → Prop
  | nil {a : BlockHash} {n : BlockNode} (hn : f.nodes.get? a = some n) : Branch f a [] a
  | cons {h a : BlockHash} {n : BlockNode} {blocks : List Block} (hn : f.nodes.get? h = some n)
      (hzero : n.height ≠ 0) (hrest : Branch f n.parent blocks a) : Branch f h (n.block :: blocks) a

/-- An ancestor, or the block itself. -/
def IsAncestor (f : ForkChoice) (a h : BlockHash) : Prop := ∃ blocks, f.Branch h blocks a

variable {f : ForkChoice} {h a : BlockHash} {blocks : List Block}

theorem Forest.up_eq_some (hf : f.Forest) {p : BlockHash} (hup : f.up h = some p) :
    ∃ n, f.nodes.get? h = some n ∧ n.height ≠ 0 ∧ n.parent = p ∧ n.block.hash = h ∧
      n.block.header.previousHash = p := by
  obtain ⟨n, hn, hif⟩ := Option.bind_eq_some_iff.mp hup
  split_ifs at hif with hzero
  obtain ⟨hkey, hnode⟩ := hf.node h n hn
  refine ⟨n, hn, hzero, Option.some.inj hif, ?_, ?_⟩
  · rw [← hnode.hash, hkey]
  · rw [← hnode.parent, Option.some.inj hif]

variable {n : BlockNode} {l : List BlockHash}

/-- The branch between a node and one of its ancestors is read off in as many steps as it has
blocks. -/
theorem Forest.exists_branch (hf : f.Forest) {front rest : List BlockHash}
    (hl : Lineage f.up h (front ++ a :: rest)) (ha : a ∉ front) (hn : f.nodes.get? a = some n) :
    ∃ blocks, f.Branch h blocks a ∧ blocks.map Block.hash = front ∧
      ∀ fuel, front.length ≤ fuel → f.branchDown a fuel h = some blocks := by
  induction front generalizing h with
  | nil =>
    obtain ⟨_, heq⟩ := hl.exists_cons
    cases heq
    refine ⟨[], .nil hn, rfl, fun fuel _ => ?_⟩
    cases fuel <;> simp [branchDown]
  | cons x front ih =>
    rw [mem_cons, not_or] at ha
    generalize heq : x :: front ++ a :: rest = l at hl
    cases hl with
    | root => simp at heq
    | step hup hp =>
      cases heq
      obtain ⟨m, hm, hzero, hparent, hhash, _⟩ := hf.up_eq_some hup
      obtain ⟨blocks, hbranch, hhashes, hwalk⟩ := ih hp ha.2
      rw [← hparent] at hbranch
      refine ⟨m.block :: blocks, .cons hm hzero hbranch, by rw [map_cons, hhash, hhashes], ?_⟩
      intro fuel hfuel
      obtain ⟨fuel, rfl⟩ := Nat.exists_eq_add_of_le' (Nat.le_trans (Nat.le_add_left 1 _) hfuel)
      rw [branchDown, if_neg (Ne.symm ha.1), hm]
      simp only [some_bind, hparent, hwalk fuel (Nat.le_of_succ_le_succ hfuel)]
      rfl

omit [Crypto] in
theorem Branch.node (hb : f.Branch h blocks a) :
    (∃ n, f.nodes.get? h = some n) ∧ ∃ n, f.nodes.get? a = some n := by
  induction hb with
  | nil hn => exact ⟨⟨_, hn⟩, _, hn⟩
  | cons hn _ _ ih => exact ⟨⟨_, hn⟩, ih.2⟩

omit [Crypto] in
theorem Branch.mem_lineage (hb : f.Branch h blocks a) (hl : Lineage f.up h l) : a ∈ l := by
  induction hb generalizing l with
  | nil => exact hl.mem_self
  | @cons h a n blocks hn hzero _ ih =>
    have hup : f.up h = some n.parent := by rw [up, hn, Option.bind_some, if_neg hzero]
    cases hl with
    | root hroot =>
      rw [hroot] at hup
      cases hup
    | step hup' hp =>
      rw [hup, Option.some.injEq] at hup'
      subst hup'
      exact mem_cons_of_mem _ (ih hp)

theorem Forest.height_le (hf : f.Forest) (hb : f.Branch h blocks a) {m : BlockNode}
    (hn : f.nodes.get? h = some n) (hm : f.nodes.get? a = some m) : m.height ≤ n.height := by
  induction hb generalizing n with
  | nil =>
    obtain rfl := Option.some.inj (hn.symm.trans hm)
    exact le_rfl
  | @cons h a n' blocks hn' hzero hrest ih =>
    obtain rfl := Option.some.inj (hn.symm.trans hn')
    rcases (hf.node h n hn).2.totals with ⟨hzero', _⟩ | ⟨_, p, hp, hheight, _⟩
    · exact absurd hzero' hzero
    · refine (ih hp hm).trans ?_
      rw [hheight]
      exact p.height.le_next

/-! ## The checks of the plan pass -/

theorem Forest.branch_head (hf : f.Forest) (hb : f.Branch h blocks a) :
    (blocks = [] ∧ h = a) ∨ blocks.head?.map Block.hash = some h := by
  cases hb with
  | nil => exact .inl ⟨rfl, rfl⟩
  | @cons _ _ n blocks hn _ _ =>
    right
    obtain ⟨hkey, hnode⟩ := hf.node h n hn
    rw [head?_cons, Option.map_some, ← hnode.hash, hkey]

theorem Forest.branch_pairs (hf : f.Forest) (hb : f.Branch h blocks a) :
    ∀ pair ∈ blocks.zip blocks.tail, pair.1.header.previousHash = pair.2.hash := by
  induction hb with
  | nil => nofun
  | @cons h a n blocks hn _ hrest ih =>
    rw [tail_cons]
    cases blocks with
    | nil => nofun
    | cons next blocks =>
      rw [zip_cons_cons, forall_mem_cons]
      refine ⟨?_, ih⟩
      have hhead : next.hash = n.parent := by
        rcases hf.branch_head hrest with ⟨hnil, _⟩ | hhead
        · cases hnil
        · exact Option.some.inj hhead
      rw [hhead, (hf.node h n hn).2.parent]

theorem Forest.branch_last (hf : f.Forest) (hb : f.Branch h blocks a) (hne : blocks ≠ []) :
    blocks.getLast?.map (fun b => b.header.previousHash) = some a := by
  induction hb with
  | nil => exact absurd rfl hne
  | @cons h a n blocks hn _ hrest ih =>
    cases blocks with
    | nil =>
      cases hrest
      rw [getLast?_singleton, Option.map_some, (hf.node h n hn).2.parent]
    | cons next blocks =>
      rw [getLast?_cons_cons]
      exact ih (cons_ne_nil _ _)

theorem Forest.validateDisconnect (hf : f.Forest) (hb : f.Branch h blocks a) :
    validateDisconnect a (some h) blocks = .ok () := by
  unfold Xparq.validateDisconnect
  split_ifs with hnil
  · rcases hf.branch_head hb with ⟨_, rfl⟩ | hhead
    · simp
    · rw [hnil] at hhead
      cases hhead
  · rcases hf.branch_head hb with ⟨hnil', _⟩ | hhead
    · exact absurd hnil' hnil
    · rw [hhead, hf.branch_last hb hnil]
      have hpairs : (blocks.zip blocks.tail).forM (fun pair =>
          rejectIf (pair.1.header.previousHash ≠ pair.2.hash) ReorgError.invalidBranch) =
            .ok () := by
        rw [forM_eq_ok]
        intro pair hpair
        simpa using hf.branch_pairs hb pair hpair
      rw [hpairs]
      simp [rejectIf]

theorem Forest.branch_connects (hf : f.Forest) (hb : f.Branch h blocks a) :
    blocks.reverse.foldlM (fun expectedParent block => do
      rejectIf (block.header.previousHash ≠ expectedParent) ReorgError.invalidBranch
      return block.hash) a = .ok h := by
  induction hb with
  | nil => rfl
  | @cons h a n blocks hn _ hrest ih =>
    obtain ⟨hkey, hnode⟩ := hf.node h n hn
    have hhash : n.block.hash = h := by rw [← hnode.hash, hkey]
    rw [reverse_cons, foldlM_append, ih]
    simp [hnode.parent, hhash, rejectIf]

theorem Forest.validateApply (hf : f.Forest) (hb : f.Branch h blocks a) :
    validateApply a h blocks.reverse = .ok () := by
  unfold Xparq.validateApply
  split_ifs with hnil
  · cases hb with
    | nil => simp
    | cons => simp at hnil
  · rw [hf.branch_connects hb]
    simp

/-! ## The plan -/

theorem Forest.genesis_mem (hf : f.Forest) (hn : f.nodes.get? h = some n)
    (hl : Lineage f.up h l) : f.expectedGenesis ∈ l := by
  induction hl generalizing n with
  | @root k hroot =>
    rw [up, hn, Option.bind_some] at hroot
    obtain ⟨hkey, hnode⟩ := hf.node k n hn
    rcases hnode.totals with ⟨_, hgenesis, _⟩ | ⟨hzero, _⟩
    · rw [← hgenesis, hkey]
      exact mem_cons_self
    · rw [if_neg hzero] at hroot
      cases hroot
  | @step k p l hup _ ih =>
    obtain ⟨n', hn', hzero, hparent, _⟩ := hf.up_eq_some hup
    rcases (hf.node k n' hn').2.totals with ⟨hzero', _⟩ | ⟨_, m, hm, _⟩
    · exact absurd hzero' hzero
    · rw [hparent] at hm
      exact mem_cons_of_mem _ (ih hm)

/-- Between two nodes of a graph built by insertions there is always a plan: its ancestor is the
lowest common one, it reverts the blocks from the old tip down to it and connects those above it
up to the new tip, and no block is on both sides. -/
theorem planReorg_spec {genesis : BlockHash} {inserted : List Block}
    (hf : (ForkChoice.new genesis).insertAll inserted = .ok f) {old new : BlockHash}
    {o n : BlockNode} (hold : f.nodes.get? old = some o) (hnew : f.nodes.get? new = some n) :
    ∃ plan, planReorg (some old) f new = .ok plan ∧ plan.oldTip = some old ∧ plan.newTip = new ∧
      f.IsAncestor plan.ancestor old ∧ f.IsAncestor plan.ancestor new ∧
      (∀ c, f.IsAncestor c old → f.IsAncestor c new → f.IsAncestor c plan.ancestor ∧
        ∀ m m', f.nodes.get? c = some m → f.nodes.get? plan.ancestor = some m' →
        m.height ≤ m'.height) ∧
      f.Branch old plan.disconnect plan.ancestor ∧ f.Branch new plan.apply.reverse plan.ancestor ∧
      plan.disconnect.Disjoint plan.apply := by
  have hf : f.Forest := (forest_new genesis).insertAll hf
  obtain ⟨hl, hnodes⟩ := hf.lineage_ancestorHashes hold
  obtain ⟨hl', hnodes'⟩ := hf.lineage_ancestorHashes hnew
  obtain ⟨a, front, front', rest, hfind, hsplit, hsplit', hdisjoint, ha, ha', hlowest⟩ :=
    exists_lowestCommon hl hl' (hf.genesis_mem hold hl) (hf.genesis_mem hnew hl')
  obtain ⟨m, hm⟩ := hnodes a (by rw [hsplit]; simp)
  have hlength := hf.lineage_length hold hl
  have hlength' := hf.lineage_length hnew hl'
  rw [hsplit] at hl hlength
  rw [hsplit'] at hl' hlength'
  rw [length_append] at hlength hlength'
  obtain ⟨disconnect, hdisconnect, hhashes, hwalk⟩ := hf.exists_branch hl ha hm
  obtain ⟨apply, happly, hhashes', hwalk'⟩ := hf.exists_branch hl' ha' hm
  have hbranch : f.branchFromAncestor a old = some disconnect.reverse := by
    rw [branchFromAncestor, hwalk _ (Nat.le_of_add_right_le hlength), Option.map_some]
  have hbranch' : f.branchFromAncestor a new = some apply.reverse := by
    rw [branchFromAncestor, hwalk' _ (Nat.le_of_add_right_le hlength'), Option.map_some]
  refine ⟨⟨a, some old, new, disconnect, apply.reverse⟩, ?_, rfl, rfl, ⟨_, hdisconnect⟩,
    ⟨_, happly⟩, ?_, hdisconnect, by rw [reverse_reverse]; exact happly, ?_⟩
  · simp only [planReorg, commonAncestor, some_bind, hfind, okOr, ok_bind, hbranch, hbranch',
      reverse_reverse, ReorgPlan.new, hf.validateDisconnect hdisconnect,
      hf.validateApply happly]
    rfl
  · rintro c ⟨blocks, hc⟩ ⟨blocks', hc'⟩
    have hmem : c ∈ a :: rest :=
      hlowest c (hsplit ▸ hc.mem_lineage hl) (hsplit' ▸ hc'.mem_lineage hl')
    obtain ⟨mid, rest', hmid⟩ := append_of_mem hmem
    have hsuffix := hl.suffix
    rw [hmid] at hsuffix
    obtain ⟨nc, hnc⟩ := hc.node.2
    obtain ⟨between, hbetween, _⟩ := hf.exists_branch hsuffix (notMem_front hsuffix.nodup) hnc
    exact ⟨⟨between, hbetween⟩, fun m m' hm hm' => hf.height_le hbetween hm' hm⟩
  · intro b hb hb'
    have hfront : b.hash ∈ front := hhashes ▸ mem_map_of_mem hb
    have hfront' : b.hash ∈ front' := hhashes' ▸ mem_map_of_mem (mem_reverse.mp hb')
    exact hdisjoint hfront hfront'

end ForkChoice

end

section Sample

attribute [local instance] Crypto.checksum

open ForkChoice

theorem fork_planReorg :
    ∃ f plan, (ForkChoice.new forkGenesis.hash).insertAll [forkGenesis, forkChild 1, forkChild 2] =
      .ok f ∧ planReorg (some (forkChild 1).hash) f (forkChild 2).hash = .ok plan ∧
    f.Branch (forkChild 1).hash plan.disconnect plan.ancestor := by
  have hok : ((ForkChoice.new forkGenesis.hash).insertAll [forkGenesis, forkChild 1,
      forkChild 2]).isOk = true := by
    decide +kernel
  obtain ⟨f, hf⟩ := exists_of_isOk hok
  obtain ⟨o, ho, _⟩ := (insertAll_nodes hf).2.2.2 (forkChild 1) (by simp)
  obtain ⟨n, hn, _⟩ := (insertAll_nodes hf).2.2.2 (forkChild 2) (by simp)
  obtain ⟨plan, hplan, _, _, _, _, _, hdisconnect, _⟩ := planReorg_spec hf ho hn
  exact ⟨f, plan, hf, hplan, hdisconnect⟩

end Sample

end Xparq
