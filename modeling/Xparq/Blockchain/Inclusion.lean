import Xparq.Blockchain.Block
import Xparq.Lib.MerkleProof

/-!
# Inclusion proofs of block operations

`MerkleInclusionProof` for the node domain of block trees. Its loops are those of the library, at
`merkleParent`. A proof made by `create` verifies; and a proof that verifies, whatever count,
index and siblings it claims, is one of a leaf (`create_verify`).
-/

namespace Xparq

open Machine Outcome List

structure MerkleInclusionProof where
  leafIndex : U32
  leafCount : U32
  siblings : List Hash
  deriving DecidableEq

section
variable [Crypto]

namespace MerkleInclusionProof

def create (leaves : List Hash) (leafIndex : Nat) : Option MerkleInclusionProof :=
  if leaves = [] ∨ leafIndex ≥ leaves.length then none
  else do
    let leafIndexU32 ← ofNat? (2 ^ 32) leafIndex
    let leafCount ← ofNat? (2 ^ 32) leaves.length
    return ⟨leafIndexU32, leafCount,
      MerkleProof.partners merkleParent leaves.length leaves leafIndex⟩

def verify (proof : MerkleInclusionProof) (leaf root : Hash) : Bool :=
  let index := proof.leafIndex.val
  let width := proof.leafCount.val
  if width = 0 ∨ index ≥ width ∨ proof.siblings.length > 64 then false
  else
    match MerkleProof.climb merkleParent width index width leaf proof.siblings with
    | none => false
    | some (hash, unused) => unused = [] ∧ hash = root

/-- The pairs that are hashed for the root of the leaves or by the verification of a leaf. -/
def hashedPairs (proof : MerkleInclusionProof) (leaf : Hash) (leaves : List Hash) :
    Set (Hash × Hash) :=
  { p | p ∈ MerkleProof.collapsePairs merkleParent leaves.length leaves ∨
    p ∈ MerkleProof.climbPairs merkleParent proof.leafCount.val proof.leafIndex.val
      proof.leafCount.val leaf
      proof.siblings }

end MerkleInclusionProof

variable {leaves : List Hash} {leaf root : Hash} {proof : MerkleInclusionProof}

theorem exists_merkleRoot (hne : leaves ≠ []) : ∃ root, merkleRoot leaves = some root ∧
    Levels.collapse merkleParent leaves.length leaves = [root] := by
  obtain ⟨root, hroot⟩ := Levels.exists_collapse merkleParent (le_refl _) hne
  refine ⟨root, ?_, hroot⟩
  rw [merkleRoot, merkleReduce, hroot, head?_cons]

namespace MerkleInclusionProof

theorem create_eq_some {index : Nat} : create leaves index = some proof ↔
    index < leaves.length ∧ proof.leafIndex.val = index ∧ proof.leafCount.val = leaves.length ∧
      proof.siblings = MerkleProof.partners merkleParent leaves.length leaves index := by
  obtain ⟨leafIndex, leafCount, siblings⟩ := proof
  unfold create
  split_ifs with hempty
  · simp only [false_iff]
    rintro ⟨hindex, _⟩
    rcases hempty with rfl | hge
    · exact absurd hindex (Nat.not_lt_zero _)
    · exact absurd hindex (not_lt.mpr hge)
  · obtain ⟨_, hindex⟩ := not_or.mp hempty
    simp only [bind_eq_some, ofNat?_eq_some, return_eq_some, mk.injEq]
    constructor
    · rintro ⟨_, hleafIndex, _, hleafCount, rfl, rfl, rfl⟩
      exact ⟨not_le.mp hindex, hleafIndex, hleafCount, rfl⟩
    · rintro ⟨_, hleafIndex, hleafCount, rfl⟩
      exact ⟨leafIndex, hleafIndex, leafCount, hleafCount, rfl, rfl, rfl⟩

theorem isSome_create {index : Nat} :
    (create leaves index).isSome ↔ index < leaves.length ∧ leaves.length < 2 ^ 32 := by
  rw [Option.isSome_iff_exists]
  constructor
  · rintro ⟨proof, hproof⟩
    obtain ⟨hindex, _, hcount, _⟩ := create_eq_some.mp hproof
    exact ⟨hindex, hcount ▸ proof.leafCount.isLt⟩
  · rintro ⟨hindex, hcount⟩
    exact ⟨⟨⟨index, hindex.trans hcount⟩, ⟨leaves.length, hcount⟩, _⟩,
      create_eq_some.mpr ⟨hindex, rfl, rfl, rfl⟩⟩

theorem verify_eq_true : proof.verify leaf root = true ↔
    proof.leafIndex.val < proof.leafCount.val ∧ proof.siblings.length ≤ 64 ∧
      MerkleProof.climb merkleParent proof.leafCount.val proof.leafIndex.val
      proof.leafCount.val leaf
        proof.siblings = some (root, []) := by
  unfold verify
  dsimp only
  split_ifs with hrange
  · simp only [false_iff]
    rintro ⟨hindex, hsiblings, _⟩
    omega
  · have hindex : proof.leafIndex.val < proof.leafCount.val := by omega
    have hsiblings : proof.siblings.length ≤ 64 := by omega
    simp only [hindex, hsiblings, true_and]
    split
    · next hnone => simp [hnone]
    · next hash unused hsome => simp [hsome, and_comm]

theorem verify_of_create {index : Nat}
    (hroot : Levels.collapse merkleParent leaves.length leaves = [root])
    (hproof : create leaves index = some proof) (hleaf : leaves[index]? = some leaf) :
    proof.verify leaf root = true := by
  obtain ⟨hindex, hleafIndex, hleafCount, hsiblings⟩ := create_eq_some.mp hproof
  have hwidth : leaves.length ≤ 2 ^ 64 := (hleafCount ▸ proof.leafCount.isLt.le).trans (by decide)
  refine verify_eq_true.mpr ⟨hleafIndex ▸ hleafCount ▸ hindex, ?_, ?_⟩
  · rw [hsiblings]
    exact MerkleProof.length_partners _ _ hwidth
  · have hclimb := MerkleProof.climb_partners [] hleaf hroot
    rw [append_nil] at hclimb
    rw [hleafIndex, hleafCount, hsiblings]
    exact hclimb

end MerkleInclusionProof

/-! ## Operations of a block -/

def Block.operationInclusionProof (b : Block) (operationIndex : Nat) :
    Except CodecError MerkleInclusionProof := do
  rejectIf (operationIndex ≥ b.operations.length) .invalidBlock
  let leaves ← merkleLeaves b.emission b.operations
  let leafIndex := (if b.emission.isSome then 1 else 0) + operationIndex
  okOr (MerkleInclusionProof.create leaves leafIndex) .invalidBlock

/-- The emission, if there is one, is the first leaf; the operations follow in their order. -/
theorem merkleLeaves_ok {emission : Option Emission} {operations : List BlockOperation}
    (h : merkleLeaves emission operations = .ok leaves) :
    leaves.length = emission.toList.length + operations.length ∧
    ∀ index op, operations[index]? = some op →
      ∃ id, op.id = .ok id ∧ leaves[(if emission.isSome then 1 else 0) + index]? = some id := by
  rw [merkleLeaves, exceptMap_eq_ok] at h
  obtain ⟨ids, hids, rfl⟩ := h
  constructor
  · rw [length_append, length_of_mapM hids]
    cases emission <;> rfl
  · intro index op hop
    obtain ⟨id, hget, hid⟩ := getElem?_of_mapM hids hop
    refine ⟨id, hid, ?_⟩
    cases emission with
    | none => simpa using hget
    | some emission => simpa [Nat.add_comm 1] using hget

/-- Where a block has a root, every operation has a proof, unless the leaves are too many for a
32-bit count, and the proof verifies against the root. -/
theorem Block.operationInclusionProof_verify {b : Block} {index : Nat} {op : BlockOperation}
    (hroot : calculateMerkleRoot b.emission b.operations = .ok root)
    (hop : b.operations[index]? = some op) :
    ((b.operationInclusionProof index).isOk ↔
      b.emission.toList.length + b.operations.length < 2 ^ 32) ∧
    ∃ id, op.id = .ok id ∧ ∀ proof, b.operationInclusionProof index = .ok proof →
      proof.verify id root = true := by
  obtain ⟨hindex, _⟩ := List.getElem?_eq_some_iff.mp hop
  have hne : b.operations ≠ [] := ne_nil_of_length_pos (Nat.zero_lt_of_lt hindex)
  rw [calculateMerkleRoot, if_neg fun hboth => hne hboth.2, bind_eq_ok] at hroot
  obtain ⟨leaves, hleaves, hroot⟩ := hroot
  obtain ⟨hcount, hids⟩ := merkleLeaves_ok hleaves
  obtain ⟨id, hid, hleaf⟩ := hids index op hop
  obtain ⟨hlt, _⟩ := List.getElem?_eq_some_iff.mp hleaf
  have hproof : b.operationInclusionProof index =
      okOr (MerkleInclusionProof.create leaves ((if b.emission.isSome then 1 else 0) + index))
        .invalidBlock := by
    rw [operationInclusionProof, rejectIf_eq_ok (u := ()).mpr (Nat.not_le.mpr hindex), hleaves]
    rfl
  constructor
  · have hsome : (b.operationInclusionProof index).isOk =
        (MerkleInclusionProof.create leaves ((if b.emission.isSome then 1 else 0) +
          index)).isSome := by
      rw [hproof]
      cases MerkleInclusionProof.create leaves _ <;> rfl
    rw [hsome, MerkleInclusionProof.isSome_create, ← hcount]
    exact and_iff_right hlt
  · refine ⟨id, hid, ?_⟩
    intro proof hok
    obtain ⟨root', hmerkle, hcollapse⟩ :=
      exists_merkleRoot (ne_nil_of_length_pos (Nat.zero_lt_of_lt hlt))
    obtain rfl : root' = root := Option.some.inj (hmerkle.symm.trans (okOr_eq_ok.mp hroot))
    exact MerkleInclusionProof.verify_of_create hcollapse
      (okOr_eq_ok.mp (hproof.symm.trans hok)) hleaf

/-! ## Only leaves verify -/

namespace MerkleInclusionProof

theorem mem_of_verify (hroot : Levels.collapse merkleParent leaves.length leaves = [root])
    (hinj : Set.InjOn (fun p => merkleParent p.1 p.2) (hashedPairs proof leaf leaves))
    (hfresh : ∀ x ∈ leaf :: leaves, ∀ p ∈ hashedPairs proof leaf leaves, merkleParent p.1 p.2 ≠ x)
    (h : proof.verify leaf root = true) :
    leaf ∈ leaves ∧ (proof.leafCount.val = leaves.length →
      leaves[proof.leafIndex.val]? = some leaf) := by
  obtain ⟨hindex, _, hclimb⟩ := verify_eq_true.mp h
  constructor
  · exact MerkleProof.mem_of_climb hinj (fun p hp => .inl hp) (fun p hp => .inr hp)
      (fun x hx => hfresh x (mem_cons_of_mem _ hx)) (hfresh leaf mem_cons_self) hroot hclimb
  · intro hcount
    have hpairs : ∀ p ∈ MerkleProof.climbPairs merkleParent proof.leafCount.val proof.leafIndex.val
        proof.leafCount.val leaf proof.siblings, p ∈ hashedPairs proof leaf leaves :=
          fun p hp => .inr hp
    rw [hcount] at hindex hclimb hpairs
    exact MerkleProof.getElem?_of_climb hinj (fun p hp => .inl hp) hpairs hindex hroot hclimb

/-- Proofs exist for all indices of a list that a 32-bit count can name, and verify. Conversely,
where the node hash is injective on the pairs that are hashed and neither the leaves nor the
claimed leaf are hashes of such pairs, what verifies is a leaf, at its index if the count is right.
-/
theorem create_verify (hne : leaves ≠ []) : ∃ root, merkleRoot leaves = some root ∧
    (∀ index, (create leaves index).isSome ↔ index < leaves.length ∧ leaves.length < 2 ^ 32) ∧
    (∀ index proof leaf, create leaves index = some proof → leaves[index]? = some leaf →
      proof.verify leaf root = true) ∧
    ∀ proof leaf, Set.InjOn (fun p => merkleParent p.1 p.2) (hashedPairs proof leaf leaves) →
      (∀ x ∈ leaf :: leaves, ∀ p ∈ hashedPairs proof leaf leaves, merkleParent p.1 p.2 ≠ x) →
      proof.verify leaf root = true →
      leaf ∈ leaves ∧ (proof.leafCount.val = leaves.length →
      leaves[proof.leafIndex.val]? = some leaf) := by
  obtain ⟨root, hmerkle, hroot⟩ := exists_merkleRoot hne
  refine ⟨root, hmerkle, fun index => isSome_create, ?_, ?_⟩
  · exact fun index proof leaf hproof hleaf => verify_of_create hroot hproof hleaf
  · exact fun proof leaf hinj hfresh h => mem_of_verify hroot hinj hfresh h

end MerkleInclusionProof

end

section
attribute [local instance] Crypto.checksum

namespace MerkleInclusionProof

/-- For the third of three leaves, as if it was the second of two. -/
def shortProof : MerkleInclusionProof := ⟨1, 2, [merkleParent 4 5]⟩

theorem shortProof_leaf :
    ∃ root, merkleRoot [4, 5, 6] = some root ∧ shortProof.verify 6 root = true ∧
    (6 : Hash) ∈ [4, 5, 6] := by
  obtain ⟨root, hroot, _, _, hsound⟩ := create_verify (show ([4, 5, 6] : List Hash) ≠ [] by simp)
  have hverify : (merkleRoot [4, 5, 6]).any (fun root => shortProof.verify 6 root) = true := by
    decide +kernel
  have hnodup : ([((4 : Hash), (5 : Hash)), (merkleParent 4 5, 6)].map fun p =>
      merkleParent p.1 p.2).Nodup := by
    decide +kernel
  have hfresh : ([((4 : Hash), (5 : Hash)), (merkleParent 4 5, 6)].all fun p =>
      merkleParent p.1 p.2 ∉ ([6, 4, 5, 6] : List Hash)) = true := by
    decide +kernel
  have hpairs : ∀ p ∈ hashedPairs shortProof 6 [4, 5, 6], p ∈ [((4 : Hash), (5 : Hash)),
      (merkleParent 4 5, 6)] := by
    rintro p (hp | hp)
    · simpa [MerkleProof.collapsePairs, MerkleProof.pairs, Levels.parents] using hp
    · have hlast : p = (merkleParent 4 5, 6) := by
        simpa [MerkleProof.climbPairs, MerkleProof.ordered, shortProof] using hp
      simp [hlast]
  rw [hroot, Option.any_some] at hverify
  exact ⟨root, hroot, hverify, (hsound shortProof 6
    (fun p hp q hq h => inj_on_of_nodup_map hnodup (hpairs p hp) (hpairs q hq) h)
    (fun x hx p hp heq => of_decide_eq_true (all_eq_true.mp hfresh p (hpairs p hp)) (heq ▸ hx))
      hverify).1⟩

end MerkleInclusionProof

/-- A block with an emission and one operation. -/
def includingBlock : Block :=
  ⟨⟨0, 0, 0, 0, 0, 0⟩, 1, some ⟨7, 1⟩,
    [.programCall ⟨0, ⟨.monetary, 1, []⟩, ⟨0, [1], [⟨.program 5, 1⟩], ⟨1⟩⟩,
      ⟨0, ⟨.mlDsa44, List.replicate 1312 0⟩, ⟨.mlDsa44, List.replicate 2420 0⟩⟩⟩]⟩

theorem includingBlock_operationInclusionProof :
    ∃ op id proof root, includingBlock.operations = [op] ∧
    op.id = .ok id ∧
      calculateMerkleRoot includingBlock.emission includingBlock.operations = .ok root ∧
    includingBlock.operationInclusionProof 0 = .ok proof ∧ proof.verify id root = true := by
  obtain ⟨root, hroot⟩ := exists_of_isOk (show (calculateMerkleRoot includingBlock.emission
    includingBlock.operations).isOk = true by decide +kernel)
  obtain ⟨hsome, id, hid, hverify⟩ :=
    Block.operationInclusionProof_verify hroot (getElem?_cons_zero ..)
  obtain ⟨proof, hproof⟩ := exists_of_isOk (hsome.mpr (by decide))
  exact ⟨_, id, proof, root, rfl, hid, hroot, hproof, hverify proof hproof⟩

end

end Xparq
