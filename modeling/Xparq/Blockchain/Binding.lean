import Xparq.Blockchain.Decode
import Xparq.Lib.MerkleTree

/-!
# The header binds the block

The header's Merkle root is the root of a tree whose leaves are the inputs of the emission hash
and of the operation hashes (`merkleRoot_eq`). `Block.hashInputs` lists everything that is
hashed for a block: header, leaves and nodes. Where SHA3-256 has no collision on the inputs of
two structurally valid blocks, blocks of equal height and equal header hash are equal. The
framing of the domains keeps the leaves apart from the nodes, and the height fixes whether the
first leaf is an emission.
-/

namespace Xparq

open Machine Outcome Reader MerkleTree List

/-- What is hashed for an inner node. -/
def merkleNodeInput (left right : Hash) :
    List Byte := preimage .merkleNode (left.bytes ++ right.bytes)

/-- What is hashed for the leaves: the emission first, then the operations. -/
def leafInputs (emission : Option Emission) (operations : List BlockOperation) :
    Option (List (List Byte)) :=
  (operations.mapM BlockOperation.encode).map fun encoded =>
    (emission.map fun e => preimage .emission e.encode).toList ++ encoded.map (preimage .operation)

/-- The tree over the leaves; none without leaves. -/
def merkleTrees (leaves : List (List Byte)) : List (MerkleTree (List Byte)) :=
  Levels.collapse .node leaves.length (leaves.map .leaf)

theorem merkleNodeInput_injective {a b c d : Hash} (h : merkleNodeInput a b = merkleNodeInput c d) :
    a = c ∧ b = d := by
  obtain ⟨hleft, hright⟩ := append_inj (preimage_injective h) (by simp)
  exact ⟨Hash.bytes_injective hleft, Hash.bytes_injective hright⟩

variable {operations operations' : List BlockOperation} {leaves : List (List Byte)}

theorem leafInputs_ne_node {emission : Option Emission}
    (h : leafInputs emission operations = some leaves) {x : List Byte} (hx : x ∈ leaves)
    (a b : Hash) : x ≠ merkleNodeInput a b := by
  simp only [leafInputs, Option.map_eq_some_iff] at h
  obtain ⟨encoded, -, rfl⟩ := h
  simp only [mem_append, Option.mem_toList, Option.map_eq_some_iff, mem_map] at hx
  rcases hx with ⟨e, -, rfl⟩ | ⟨op, -, rfl⟩
  · simp [merkleNodeInput, preimage, HashDomain.tag, ascii]
  · simp [merkleNodeInput, preimage, HashDomain.tag, ascii]

theorem operations_eq_of_encode_eq {encoded : List (List Byte)} (hb : ∀ op ∈ operations, op.Bounded)
    (hb' : ∀ op ∈ operations', op.Bounded)
    (h : operations.mapM BlockOperation.encode = some encoded)
    (h' : operations'.mapM BlockOperation.encode = some encoded) : operations = operations' := by
  induction operations generalizing operations' encoded with
  | nil =>
    cases h
    cases operations' with
    | nil => rfl
    | cons op operations' =>
      simp only [mapM_cons, bind_eq_some] at h'
      obtain ⟨_, _, _, _, h'⟩ := h'
      cases h'
  | cons op operations ih =>
    simp only [mapM_cons, bind_eq_some] at h
    obtain ⟨bytes, hop, rest, hrest, h⟩ := h
    cases h
    cases operations' with
    | nil => cases h'
    | cons op' operations' =>
      simp only [mapM_cons, bind_eq_some] at h'
      obtain ⟨bytes', hop', rest', hrest', h'⟩ := h'
      cases h'
      rw [readBlockOperation_reads.unique ⟨hop, hb op mem_cons_self⟩
          ⟨hop', hb' op' mem_cons_self⟩,
        ih (fun o ho => hb o (mem_cons_of_mem _ ho))
          (fun o ho => hb' o (mem_cons_of_mem _ ho)) hrest hrest']

theorem body_eq_of_leafInputs {e e' : Emission} (hb : ∀ op ∈ operations, op.Bounded)
    (hb' : ∀ op ∈ operations', op.Bounded) (h : leafInputs (some e) operations = some leaves)
    (h' : leafInputs (some e') operations' = some leaves) : e = e' ∧ operations = operations' := by
  simp only [leafInputs, Option.map_eq_some_iff, Option.map_some, Option.toList_some] at h h'
  obtain ⟨encoded, hencoded, rfl⟩ := h
  obtain ⟨encoded', hencoded', heq⟩ := h'
  obtain ⟨hemission, hrest⟩ := List.cons.inj heq
  have hsame : encoded' = encoded := map_injective_iff.mpr (fun _ _ => preimage_injective) hrest
  refine ⟨?_, operations_eq_of_encode_eq hb hb' hencoded (hsame ▸ hencoded')⟩
  exact readEmission_reads.unique rfl (preimage_injective hemission).symm

section
variable [Crypto]

/-- Everything that is hashed for a block. -/
def Block.hashInputs (b : Block) : List (List Byte) :=
  preimage .header b.header.encode ::
    (merkleTrees ((leafInputs b.emission b.operations).getD [])).flatMap
      (MerkleTree.inputs Crypto.sha3 merkleNodeInput)

/-! ## The Merkle root as the root of a tree -/

theorem merkleRoot_eq (leaves : List (List Byte)) : merkleRoot (leaves.map Crypto.sha3) =
    (merkleTrees leaves).head?.map (root Crypto.sha3 merkleNodeInput) := by
  have hroots : leaves.map Crypto.sha3 =
      (leaves.map MerkleTree.leaf).map (root Crypto.sha3 merkleNodeInput) := by
    rw [map_map]
    rfl
  have hnode : ∀ t u : MerkleTree (List Byte), root Crypto.sha3 merkleNodeInput (.node t u) =
      merkleParent (root Crypto.sha3 merkleNodeInput t) (root Crypto.sha3 merkleNodeInput u) :=
        fun _ _ => rfl
  rw [merkleRoot, merkleReduce, length_map, hroots, ← Levels.map_collapse hnode, head?_map]
  rfl

variable {operations : List BlockOperation} {emission : Option Emission}

theorem mapM_id_eq {ids : List Hash}
    (h : operations.mapM BlockOperation.id = .ok ids) :
    ∃ encoded, operations.mapM BlockOperation.encode = some encoded ∧
      ids = encoded.map fun bytes => domain .operation bytes := by
  induction operations generalizing ids with
  | nil =>
    cases h
    exact ⟨[], rfl, rfl⟩
  | cons op operations ih =>
    rw [mapM_cons, bind_eq_ok] at h
    obtain ⟨id, hid, h⟩ := h
    rw [bind_eq_ok] at h
    obtain ⟨rest, hrest, h⟩ := h
    cases h
    obtain ⟨encoded, hencoded, rfl⟩ := ih hrest
    simp only [BlockOperation.id, exceptMap_eq_ok, okOr_eq_ok] at hid
    obtain ⟨bytes, hbytes, rfl⟩ := hid
    exact ⟨bytes :: encoded, by simp [hbytes, hencoded], rfl⟩

theorem merkleLeaves_eq {leaves : List Hash} (h : merkleLeaves emission operations = .ok leaves) :
    ∃ inputs, leafInputs emission operations = some inputs ∧ leaves = inputs.map Crypto.sha3 := by
  rw [merkleLeaves, exceptMap_eq_ok] at h
  obtain ⟨ids, hids, rfl⟩ := h
  obtain ⟨encoded, hencoded, rfl⟩ := mapM_id_eq hids
  refine ⟨_, by rw [leafInputs, hencoded, Option.map_some], ?_⟩
  rw [map_append, map_map]
  congr 1
  cases emission <;> rfl

theorem exists_merkleTree {merkleRoot : Hash}
    (hne : emission ≠ none) (h : calculateMerkleRoot emission operations = .ok merkleRoot) :
    ∃ leaves t, leafInputs emission operations = some leaves ∧ merkleTrees leaves = [t] ∧
      t.fringe = leaves ∧ t.root Crypto.sha3 merkleNodeInput = merkleRoot := by
  rw [calculateMerkleRoot, if_neg fun hnone => hne hnone.1, bind_eq_ok] at h
  obtain ⟨_, hleaves, hroot⟩ := h
  obtain ⟨leaves, hinputs, rfl⟩ := merkleLeaves_eq hleaves
  have hnonempty : leaves.map MerkleTree.leaf ≠ [] := by
    obtain ⟨e, rfl⟩ := Option.ne_none_iff_exists'.mp hne
    simp only [leafInputs, Option.map_eq_some_iff] at hinputs
    obtain ⟨_, -, rfl⟩ := hinputs
    nofun
  obtain ⟨t, ht⟩ := Levels.exists_collapse .node (by rw [length_map]) hnonempty
  have hfringe := fringe_collapse leaves.length (leaves.map MerkleTree.leaf)
  rw [ht, flatMap_singleton, flatMap_map] at hfringe
  rw [merkleRoot_eq, okOr_eq_ok, merkleTrees, ht, head?_cons, Option.map_some,
    Option.some.injEq] at hroot
  refine ⟨leaves, t, hinputs, ht, hfringe.trans ?_, hroot⟩
  simp [fringe, flatMap_singleton']

/-! ## Structurally valid blocks -/

theorem Block.body_of_validateStructure {b : Block} (h : b.validateStructure = .ok ()) :
    calculateMerkleRoot b.emission b.operations = .ok b.header.merkleRoot ∧
      (b.height = 0 → b.emission = none ∧ b.operations = []) ∧
      (b.height ≠ 0 → b.emission ≠ none) := by
  simp only [Block.validateStructure, bind_eq_ok, rejectIf_eq_ok, orError_eq_ok, mapError_eq_ok,
    Decidable.not_not] at h
  obtain ⟨_, -, _, hpresence, _, -, _, -, _, -, _, -, _, -, _, -, _, -, _, -, root, hroot, heq⟩ := h
  refine ⟨heq ▸ hroot, fun hzero => ?_, fun hne => ?_⟩
  · simp only [checkEmissionPresence, Block.isGenesis, hzero, decide_true, if_true, bind_eq_ok,
      rejectIf_eq_ok, Decidable.not_not] at hpresence
    obtain ⟨_, hemission, hoperations⟩ := hpresence
    exact ⟨hemission, hoperations⟩
  · simp only [checkEmissionPresence, Block.isGenesis, hne, decide_false, Bool.false_eq_true,
      if_false, rejectIf_eq_ok] at hpresence
    exact hpresence

/-- Equal height and equal header hash make two structurally valid blocks equal, if nothing that
is hashed for them collides. -/
theorem Block.eq_of_hash_eq {b b' : Block}
    (hcollision : Set.InjOn Crypto.sha3 {x | x ∈ b.hashInputs ∨ x ∈ b'.hashInputs})
    (h : b.validateStructure = .ok ()) (h' : b'.validateStructure = .ok ())
    (hheight : b.height = b'.height) (hhash : b.hash = b'.hash) : b = b' := by
  have hheader : b.header = b'.header := by
    have hinput := hcollision (.inl mem_cons_self) (.inr mem_cons_self) hhash
    exact readHeader_reads.unique rfl (preimage_injective hinput)
  obtain ⟨hroot, hgenesis, hmined⟩ := b.body_of_validateStructure h
  obtain ⟨hroot', hgenesis', hmined'⟩ := b'.body_of_validateStructure h'
  obtain ⟨header, height, emission, operations⟩ := b
  obtain ⟨header', height', emission', operations'⟩ := b'
  obtain rfl : header = header' := hheader
  obtain rfl : height = height' := hheight
  by_cases hzero : height = 0
  · obtain ⟨rfl, rfl⟩ := hgenesis hzero
    obtain ⟨rfl, rfl⟩ := hgenesis' hzero
    rfl
  · obtain ⟨e, rfl⟩ := Option.ne_none_iff_exists'.mp (hmined hzero)
    obtain ⟨e', rfl⟩ := Option.ne_none_iff_exists'.mp (hmined' hzero)
    obtain ⟨leaves, t, hleaves, ht, hfringe, hrootOf⟩ := exists_merkleTree (by nofun) hroot
    obtain ⟨leaves', t', hleaves', ht', hfringe', hrootOf'⟩ := exists_merkleTree (by nofun) hroot'
    -- both trees have the root the common header names
    have htree : t = t' := by
      refine eq_of_root_eq hcollision (fun _ _ _ _ => merkleNodeInput_injective)
        (fun x hx => .inl ?_)
        (fun x hx => .inr ?_) (fun x hx => leafInputs_ne_node hleaves (hfringe ▸ hx))
        (fun x hx => leafInputs_ne_node hleaves' (hfringe' ▸ hx)) (hrootOf.trans hrootOf'.symm)
      · simp [Block.hashInputs, hleaves, ht, hx]
      · simp [Block.hashInputs, hleaves', ht', hx]
    obtain rfl : leaves = leaves' := by rw [← hfringe, ← hfringe', htree]
    obtain ⟨_, _, _, _, hbounds⟩ := Block.encode_of_validateStructure h
    obtain ⟨_, _, _, _, hbounds'⟩ := Block.encode_of_validateStructure h'
    obtain ⟨rfl, rfl⟩ := body_eq_of_leafInputs (fun op hop => (hbounds op hop).1)
      (fun op hop => (hbounds' op hop).1) hleaves hleaves'
    rfl

end

section
attribute [local instance] Crypto.checksum

/-- The block of `sampleBlock`, written out. -/
def writtenBlock : Block where
  header := ⟨0,
    merkleParent (Emission.hash ⟨7, 1⟩) (domain .operation (sampleOperation.encode.getD [])), 0,
      genesisTargetBits, 4102, 0⟩
  height := 1
  emission := some ⟨7, 1⟩
  operations := [sampleOperation]

theorem sampleBlock_eq_written : sampleBlock = .ok writtenBlock := by
  have hfacts : (sampleBlock.toOption.any fun block => decide (
      (∀ x ∈ block.hashInputs ++ writtenBlock.hashInputs,
        ∀ y ∈ block.hashInputs ++ writtenBlock.hashInputs, Crypto.sha3 x = Crypto.sha3 y → x = y) ∧
      block.validateStructure = .ok () ∧ writtenBlock.validateStructure = .ok () ∧
      block.height = writtenBlock.height ∧ block.hash = writtenBlock.hash)) = true := by
    decide +kernel
  obtain ⟨block, hblock, hfacts⟩ := (Option.any_eq_true _ _).mp hfacts
  obtain ⟨hcollision, hvalid, hvalid', hheight, hhash⟩ := of_decide_eq_true hfacts
  have heq : block = writtenBlock := by
    refine Block.eq_of_hash_eq (fun x hx y hy => hcollision x ?_ y ?_) hvalid hvalid' hheight hhash
    · exact mem_append.mpr hx
    · exact mem_append.mpr hy
  cases hsample : sampleBlock with
  | error e =>
    rw [hsample] at hblock
    cases hblock
  | ok assembled =>
    rw [hsample] at hblock
    cases hblock
    rw [heq]

end

end Xparq
