import Mathlib.Data.Set.Function
import Xparq.Lib.Levels

/-!
# Merkle trees with promoted odd nodes

A tree over leaf inputs `X`, hashed by `hash : X → H`; a node's input is `join` of the roots of
its children. Trees are levelled as hashes are, with `node` for the join of two neighbours. Neither
pairing nor promotion touches the order of the leaves (`fringe_collapse`), so the whole reduction
is a tree over the given leaves.

`eq_of_root_eq` is the binding property: where `hash` has no collision on the inputs of two
trees and no leaf input is a node input, equal roots have equal trees, so equal leaves, also
when the two trees start with different numbers of leaves.
-/

inductive MerkleTree (X : Type)
  | leaf (x : X)
  | node (left right : MerkleTree X)

namespace MerkleTree

open Levels List

variable {X H : Type}

def fringe : MerkleTree X → List X
  | leaf x => [x]
  | node left right => left.fringe ++ right.fringe

section Roots

variable (hash : X → H) (join : H → H → X)

def root : MerkleTree X → H
  | leaf x => hash x
  | node left right => hash (join left.root right.root)

/-- Everything that is hashed for the root. -/
def inputs : MerkleTree X → List X
  | leaf x => [x]
  | node left right =>
    join (left.root hash join) (right.root hash join) :: (left.inputs ++ right.inputs)

end Roots

/-! ## The reduction keeps the leaves -/

theorem fringe_parents (level : List (MerkleTree X)) :
    (parents node level).flatMap fringe = level.flatMap fringe := by
  fun_induction parents node level with
  | case1 left right rest ih => simp [fringe, ih]
  | case2 => rfl

theorem fringe_collapse (n : Nat) (level : List (MerkleTree X)) :
    (collapse node n level).flatMap fringe = level.flatMap fringe := by
  induction n generalizing level with
  | zero => rfl
  | succ n ih =>
    rw [collapse]
    split
    · rw [ih, fringe_parents]
    · rfl

/-! ## Binding -/

/-- Without collisions among what is hashed, the root determines the tree. -/
theorem eq_of_root_eq {hash : X → H} {join : H → H → X} {S : Set X} (hS : Set.InjOn hash S)
    (hjoin : ∀ a b c d, join a b = join c d → a = c ∧ b = d) {t t' : MerkleTree X}
    (ht : ∀ x ∈ t.inputs hash join, x ∈ S) (ht' : ∀ x ∈ t'.inputs hash join, x ∈ S)
    (hleaf : ∀ x ∈ t.fringe, ∀ a b, x ≠ join a b) (hleaf' : ∀ x ∈ t'.fringe, ∀ a b, x ≠ join a b)
    (hroot : t.root hash join = t'.root hash join) : t = t' := by
  induction t generalizing t' with
  | leaf x =>
    cases t' with
    | leaf y => rw [hS (ht x (by simp [inputs])) (ht' y (by simp [inputs])) hroot]
    | node left right =>
      have hx := hS (ht x (by simp [inputs])) (ht' _ mem_cons_self) hroot
      exact absurd hx (hleaf x (by simp [fringe]) _ _)
  | node left right ihl ihr =>
    cases t' with
    | leaf y =>
      have hy := hS (ht _ mem_cons_self) (ht' y (by simp [inputs])) hroot
      exact absurd hy.symm (hleaf' y (by simp [fringe]) _ _)
    | node left' right' =>
      have hnode := hS (ht _ mem_cons_self) (ht' _ mem_cons_self) hroot
      obtain ⟨hl, hr⟩ := hjoin _ _ _ _ hnode
      simp only [inputs, mem_cons, mem_append, fringe] at ht ht' hleaf hleaf'
      rw [ihl (fun x hx => ht x (.inr (.inl hx))) (fun x hx => ht' x (.inr (.inl hx)))
          (fun x hx => hleaf x (.inl hx)) (fun x hx => hleaf' x (.inl hx)) hl,
        ihr (fun x hx => ht x (.inr (.inr hx))) (fun x hx => ht' x (.inr (.inr hx)))
          (fun x hx => hleaf x (.inr hx)) (fun x hx => hleaf' x (.inr hx)) hr]

end MerkleTree
