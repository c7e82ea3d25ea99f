import Mathlib.Algebra.GroupWithZero.Nat
import Mathlib.Data.Set.Function
import Xparq.Lib.Levels

/-!
# Inclusion proofs over promoted odd nodes

Levels of hashes are joined by `node` until one hash is left. A proof for an index lists the
partners met on the way up (`partners`); its verification (`climb`) knows the index and the width of
the level only.

* `climb_partners`: the listed partners lead to the root.
* `mem_of_climb`: where `node` has no collision on the pairs that are hashed and no leaf is the
  hash of such a pair, whatever climbs to the root is a leaf, also along a path of another width.
* `getElem?_of_climb`: along a path of the right width it is the leaf at the index.
-/

namespace MerkleProof

open Levels List

variable {H : Type} (node : H → H → H)

def partnerIndex (index : Nat) : Nat := if index % 2 = 0 then index + 1 else index - 1

/-- The partners met on the way up; a promoted hash has none. -/
def partners : Nat → List H → Nat → List H
  | 0, _, _ => []
  | n + 1, level, index =>
    if level.length > 1 then
      level[partnerIndex index]?.toList ++ partners n (parents node level) (index / 2)
    else []

/-- A hash and its partner, in the order of the level. -/
def ordered (index : Nat) (hash sibling : H) : H × H :=
  if index % 2 = 0 then (hash, sibling) else (sibling, hash)

/-- Go up from a hash at an index of a level, by the partners given; what is left of them is
returned as well. -/
def climb : Nat → (index width : Nat) → H → List H → Option (H × List H)
  | 0, _, _, hash, siblings => some (hash, siblings)
  | n + 1, index, width, hash, siblings =>
    if width > 1 then
      if index % 2 = 1 ∨ index + 1 < width then
        match siblings with
        | [] => none
        | sibling :: siblings =>
          climb n (index / 2) ((width + 1) / 2)
            (node (ordered index hash sibling).1 (ordered index hash sibling).2) siblings
      else climb n (index / 2) ((width + 1) / 2) hash siblings
    else some (hash, siblings)

/-! ## The pairs that are hashed -/

def pairs : List H → List (H × H)
  | left :: right :: rest => (left, right) :: pairs rest
  | _ => []

/-- The pairs hashed for the root. -/
def collapsePairs : Nat → List H → List (H × H)
  | 0, _ => []
  | n + 1, level => if level.length > 1 then pairs level ++ collapsePairs n (parents node level)
    else []

/-- The pairs hashed by a verification. -/
def climbPairs : Nat → (index width : Nat) → H → List H → List (H × H)
  | 0, _, _, _, _ => []
  | n + 1, index, width, hash, siblings =>
    if width > 1 then
      if index % 2 = 1 ∨ index + 1 < width then
        match siblings with
        | [] => []
        | sibling :: siblings =>
          ordered index hash sibling :: climbPairs n (index / 2) ((width + 1) / 2)
            (node (ordered index hash sibling).1 (ordered index hash sibling).2) siblings
      else climbPairs n (index / 2) ((width + 1) / 2) hash siblings
    else []

variable {node} {n index width : Nat} {level siblings rest : List H} {hash root : H}

/-! ## Levels -/

theorem parents_over (node : H → H → H) (hindex : index < level.length) :
    (index % 2 = 1 ∨ index + 1 < level.length →
      ∃ p ∈ pairs level, level[index / 2 * 2]? = some p.1 ∧ level[index / 2 * 2 + 1]? = some p.2 ∧
        (parents node level)[index / 2]? = some (node p.1 p.2)) ∧
    (¬ (index % 2 = 1 ∨ index + 1 < level.length) →
      (parents node level)[index / 2]? = level[index]?) := by
  fun_induction pairs level generalizing index with
  | case1 left right rest ih =>
    rw [parents]
    by_cases hfirst : index < 2
    · have hzero : index / 2 = 0 := by omega
      rw [hzero]
      refine ⟨fun _ => ⟨(left, right), mem_cons_self, rfl, rfl, rfl⟩, fun hnone => ?_⟩
      simp only [length_cons] at hnone
      omega
    · obtain ⟨index, rfl⟩ := Nat.exists_eq_add_of_le' (not_lt.mp hfirst)
      simp only [length_cons, Nat.add_lt_add_iff_right] at hindex
      have hhalf : (index + 2) / 2 = index / 2 + 1 := by omega
      have hdouble : (index / 2 + 1) * 2 = index / 2 * 2 + 2 := by omega
      have hodd : (index + 2) % 2 = index % 2 := by omega
      have hmore : index + 2 + 1 < (left :: right :: rest).length ↔ index + 1 < rest.length := by
        simp only [length_cons]
        omega
      rw [hhalf, hdouble, hodd, hmore]
      simp only [getElem?_cons_succ, mem_cons]
      obtain ⟨hpair, hpromoted⟩ := ih hindex
      refine ⟨fun hpartner => ?_, hpromoted⟩
      obtain ⟨p, hmem, hmembers⟩ := hpair hpartner
      exact ⟨p, .inr hmem, hmembers⟩
  | case2 level hshort =>
    rcases level with _ | ⟨left, _ | ⟨right, rest⟩⟩
    · exact absurd hindex (Nat.not_lt_zero _)
    · obtain rfl : index = 0 := Nat.lt_one_iff.mp hindex
      exact ⟨fun h => by simp at h, fun _ => rfl⟩
    · exact (hshort left right rest rfl).elim

variable {p : H × H} {x sibling : H} {V : H → Prop} {S : Set (H × H)}

theorem ordered_of_pair (hhash : level[index]? = some hash)
    (hleft : level[index / 2 * 2]? = some p.1) (hright : level[index / 2 * 2 + 1]? = some p.2) :
    ∃ sibling, level[partnerIndex index]? = some sibling ∧ ordered index hash sibling = p := by
  unfold partnerIndex ordered
  by_cases heven : index % 2 = 0
  · rw [if_pos heven]
    have hhere : index / 2 * 2 = index := by omega
    rw [hhere] at hleft hright
    exact ⟨p.2, hright, by rw [if_pos heven, Option.some.inj (hhash.symm.trans hleft)]⟩
  · rw [if_neg heven]
    have hhere : index / 2 * 2 + 1 = index := by omega
    have hbefore : index / 2 * 2 = index - 1 := by omega
    rw [hhere] at hright
    rw [hbefore] at hleft
    exact ⟨p.1, hleft, by rw [if_neg heven, Option.some.inj (hhash.symm.trans hright)]⟩

theorem getElem?_of_ordered (hleft : level[index / 2 * 2]? = some (ordered index hash sibling).1)
    (hright : level[index / 2 * 2 + 1]? = some (ordered index hash sibling).2) :
    level[index]? = some hash := by
  unfold ordered at hleft hright
  by_cases heven : index % 2 = 0
  · rw [if_pos heven] at hleft
    have hhere : index / 2 * 2 = index := by omega
    exact hhere ▸ hleft
  · rw [if_neg heven] at hright
    have hhere : index / 2 * 2 + 1 = index := by omega
    exact hhere ▸ hright

theorem mem_ordered (h : V (ordered index hash sibling).1 ∧ V (ordered index hash sibling).2) :
    V hash := by
  unfold ordered at h
  split at h
  · exact h.1
  · exact h.2

/-! ## The partners lead to the root -/

theorem climb_partners (rest : List H) (hhash : level[index]? = some hash)
    (hroot : collapse node n level = [root]) :
    climb node n index level.length hash (partners node n level index ++ rest) =
      some (root, rest) := by
  induction n generalizing level index hash with
  | zero =>
    rw [collapse] at hroot
    subst hroot
    obtain ⟨rfl, rfl⟩ : index = 0 ∧ root = hash := by simpa [getElem?_singleton] using hhash
    rfl
  | succ n ih =>
    have hindex : index < level.length := (List.getElem?_eq_some_iff.mp hhash).1
    rw [collapse] at hroot
    rw [climb.eq_def, partners]
    dsimp only
    split_ifs at hroot ⊢ with hwidth hpartner
    · obtain ⟨p, _, hleft, hright, hparent⟩ := (parents_over node hindex).1 hpartner
      obtain ⟨sibling, hsibling, rfl⟩ := ordered_of_pair hhash hleft hright
      rw [hsibling, Option.toList_some, cons_append, nil_append, ← length_parents node]
      exact ih hparent hroot
    · have hparent := (parents_over node hindex).2 hpartner
      have hnone : level[partnerIndex index]? = none := by
        rw [List.getElem?_eq_none_iff, partnerIndex, if_pos (by omega)]
        omega
      rw [← length_parents node, hnone, Option.toList_none, nil_append]
      exact ih (hparent.trans hhash) hroot
    · obtain rfl : level = [root] := hroot
      obtain ⟨rfl, rfl⟩ : index = 0 ∧ root = hash := by simpa [getElem?_singleton] using hhash
      rfl

theorem length_partners (n index : Nat) {k : Nat} (hlevel : level.length ≤ 2 ^ k) :
    (partners node n level index).length ≤ k := by
  induction n generalizing level index k with
  | zero => exact Nat.zero_le _
  | succ n ih =>
    rw [partners]
    split
    · next hwidth =>
      cases k with
      | zero => omega
      | succ k =>
        have hhalf : (parents node level).length ≤ 2 ^ k := by
          rw [length_parents]
          rw [Nat.pow_succ] at hlevel
          omega
        have hone : level[partnerIndex index]?.toList.length ≤ 1 := by
          cases level[partnerIndex index]? <;> simp
        rw [length_append]
        have hrest := ih (index / 2) hhalf
        omega
    · exact Nat.zero_le _

/-! ## Only leaves climb to the root -/

theorem mem_parents (h : x ∈ parents node level) :
    x ∈ level ∨ ∃ p ∈ pairs level, node p.1 p.2 = x := by
  fun_induction pairs level with
  | case1 left right rest ih =>
    rw [parents, mem_cons] at h
    rcases h with rfl | h
    · exact .inr ⟨(left, right), mem_cons_self, rfl⟩
    · rcases ih h with hmem | ⟨p, hp, rfl⟩
      · exact .inl (mem_cons_of_mem _ (mem_cons_of_mem _ hmem))
      · exact .inr ⟨p, mem_cons_of_mem _ hp, rfl⟩
  | case2 level hshort =>
    rw [parents] at h
    · exact .inl h
    · exact hshort

theorem mem_of_mem_pairs (h : p ∈ pairs level) : p.1 ∈ level ∧ p.2 ∈ level := by
  fun_induction pairs level with
  | case1 left right rest ih =>
    rcases mem_cons.mp h with rfl | h
    · simp
    · exact ⟨mem_cons_of_mem _ (mem_cons_of_mem _ (ih h).1),
        mem_cons_of_mem _ (mem_cons_of_mem _ (ih h).2)⟩
  | case2 => exact absurd h not_mem_nil

/-- The hashes of a reduction: the leaves, and what the pairs hash to. -/
def Occurs (node : H → H → H) (n : Nat) (level : List H) (x : H) : Prop :=
  x ∈ level ∨ ∃ p ∈ collapsePairs node n level, node p.1 p.2 = x

theorem Occurs.of_parents (hwidth : level.length > 1) (h : Occurs node n (parents node level) x) :
    Occurs node (n + 1) level x := by
  unfold Occurs
  rw [collapsePairs, if_pos hwidth]
  rcases h with hmem | ⟨p, hp, rfl⟩
  · refine (mem_parents hmem).imp_right fun ⟨p, hp, heq⟩ => ⟨p, mem_append_left _ hp, heq⟩
  · exact .inr ⟨p, mem_append_right _ hp, rfl⟩

theorem occurs_collapse (h : x ∈ collapse node n level) : Occurs node n level x := by
  induction n generalizing level with
  | zero => exact .inl h
  | succ n ih =>
    rw [collapse] at h
    split at h
    · next hwidth => exact (ih h).of_parents hwidth
    · exact .inl h

theorem occurs_of_mem_collapsePairs (h : p ∈ collapsePairs node n level) :
    Occurs node n level p.1 ∧ Occurs node n level p.2 := by
  induction n generalizing level with
  | zero => exact absurd h not_mem_nil
  | succ n ih =>
    have hpairs := h
    rw [collapsePairs] at hpairs
    split at hpairs
    · next hwidth =>
      rcases mem_append.mp hpairs with hp | hp
      · exact (mem_of_mem_pairs hp).imp .inl .inl
      · exact (ih hp).imp (·.of_parents hwidth) (·.of_parents hwidth)
    · exact absurd hpairs not_mem_nil

theorem mem_of_climb_mem
    (hV : ∀ p ∈ climbPairs node n index width hash siblings, V (node p.1 p.2) → V p.1 ∧ V p.2)
    (h : climb node n index width hash siblings = some (root, rest)) (hroot : V root) : V hash := by
  induction n generalizing index width hash siblings with
  | zero =>
    cases h
    exact hroot
  | succ n ih =>
    rw [climb.eq_def] at h
    rw [climbPairs.eq_def] at hV
    dsimp only at h hV
    split_ifs at h hV with hwidth hpartner
    · cases siblings with
      | nil => cases h
      | cons sibling siblings =>
        have hnext := ih (fun p hp => hV p (mem_cons_of_mem _ hp)) h
        exact mem_ordered (hV _ mem_cons_self hnext)
    · exact ih hV h
    · cases h
      exact hroot

/-- The root of a reduction is reached from its leaves only. -/
theorem mem_of_climb {m : Nat} (hinj : Set.InjOn (fun p => node p.1 p.2) S)
    (hcollapse : ∀ p ∈ collapsePairs node n level, p ∈ S)
    (hclimb : ∀ p ∈ climbPairs node m index width hash siblings, p ∈ S)
    (hleaves : ∀ x ∈ level, ∀ p ∈ S, node p.1 p.2 ≠ x) (hhash : ∀ p ∈ S, node p.1 p.2 ≠ hash)
    (hroot : collapse node n level = [root])
    (h : climb node m index width hash siblings = some (root, rest)) : hash ∈ level := by
  have hoccurs : Occurs node n level hash := by
    refine mem_of_climb_mem (V := Occurs node n level) ?_ h
      (occurs_collapse (hroot ▸ mem_singleton_self root))
    rintro p hp (hmem | ⟨q, hq, heq⟩)
    · exact absurd rfl (hleaves _ hmem p (hclimb p hp))
    · obtain rfl : q = p := hinj (hcollapse q hq) (hclimb p hp) heq
      exact occurs_of_mem_collapsePairs hq
  rcases hoccurs with hmem | ⟨q, hq, heq⟩
  · exact hmem
  · exact absurd heq (hhash q (hcollapse q hq))

/-- A path of the right width starts at the leaf of its index. -/
theorem getElem?_of_climb (hinj : Set.InjOn (fun p => node p.1 p.2) S)
    (hcollapse : ∀ p ∈ collapsePairs node n level, p ∈ S)
    (hclimb : ∀ p ∈ climbPairs node n index level.length hash siblings, p ∈ S)
    (hindex : index < level.length) (hroot : collapse node n level = [root])
    (h : climb node n index level.length hash siblings = some (root, rest)) :
    level[index]? = some hash := by
  induction n generalizing level index hash siblings with
  | zero =>
    rw [collapse] at hroot
    subst hroot
    cases h
    obtain rfl : index = 0 := Nat.lt_one_iff.mp hindex
    rfl
  | succ n ih =>
    rw [collapse] at hroot
    rw [collapsePairs] at hcollapse
    rw [climb.eq_def] at h
    rw [climbPairs.eq_def] at hclimb
    dsimp only at h hclimb
    have hhalf : index / 2 < (parents node level).length := by
      rw [length_parents]
      omega
    split_ifs at hroot hcollapse h hclimb with hwidth hpartner
    · rw [← length_parents node] at h hclimb
      obtain ⟨p, hmem, hleft, hright, hparent⟩ := (parents_over node hindex).1 hpartner
      cases siblings with
      | nil => cases h
      | cons sibling siblings =>
        have hnext := ih (fun p hp => hcollapse p (mem_append_right _ hp))
          (fun p hp => hclimb p (mem_cons_of_mem _ hp)) hhalf hroot h
        obtain rfl := hinj (hcollapse _ (mem_append_left _ hmem)) (hclimb _ mem_cons_self)
          (Option.some.inj (hparent.symm.trans hnext))
        exact getElem?_of_ordered hleft hright
    · rw [← length_parents node] at h hclimb
      have hparent := (parents_over node hindex).2 hpartner
      exact hparent.symm.trans (ih (fun p hp => hcollapse p (mem_append_right _ hp))
        hclimb hhalf hroot h)
    · subst hroot
      cases h
      obtain rfl : index = 0 := Nat.lt_one_iff.mp hindex
      rfl

end MerkleProof
