import Mathlib.Tactic.Common

/-!
# Levels with promoted odd nodes

A level is halved by joining neighbours with `node`; a last element without a partner is promoted
as it is (`parents`). This is repeated until one element is left (`collapse`). Hashes and trees
are levelled in the same way, and a map that commutes with `node` carries one reduction to the
other (`map_collapse`).
-/

namespace Levels

open List

variable {H K : Type} (node : H → H → H)

/-- One level up. -/
def parents : List H → List H
  | left :: right :: rest => node left right :: parents rest
  | rest => rest

/-- Go up until at most one element is left; the first argument bounds the rounds. -/
def collapse : Nat → List H → List H
  | 0, level => level
  | n + 1, level => if level.length > 1 then collapse n (parents node level) else level

theorem length_parents (level : List H) :
    (parents node level).length = (level.length + 1) / 2 := by
  fun_induction parents node level with
  | case1 left right rest ih =>
    simp only [length_cons, ih]
    omega
  | case2 level hshort =>
    match level with
    | [] => simp
    | [_] => simp
    | left :: right :: rest => exact (hshort left right rest rfl).elim

/-- As many rounds as there are elements are enough. -/
theorem exists_collapse {n : Nat} {level : List H} (hn : level.length ≤ n) (hne : level ≠ []) :
    ∃ root, collapse node n level = [root] := by
  induction n generalizing level with
  | zero =>
    rw [Nat.le_zero, length_eq_zero_iff] at hn
    exact absurd hn hne
  | succ n ih =>
    have hpos := length_pos_iff.mpr hne
    rw [collapse]
    split
    · have hlength := length_parents node level
      refine ih (by omega) fun hnil => ?_
      rw [hnil, length_nil] at hlength
      omega
    · exact length_eq_one_iff.mp (by omega)

variable {node} {node' : K → K → K} {f : H → K}

theorem map_parents (hf : ∀ a b, f (node a b) = node' (f a) (f b)) (level : List H) :
    (parents node level).map f = parents node' (level.map f) := by
  fun_induction parents node level with
  | case1 left right rest ih => rw [map_cons, ih, hf, map_cons, map_cons, parents]
  | case2 level hshort =>
    match level with
    | [] => rfl
    | [_] => rfl
    | left :: right :: rest => exact (hshort left right rest rfl).elim

theorem map_collapse (hf : ∀ a b, f (node a b) = node' (f a) (f b)) (n : Nat) (level : List H) :
    (collapse node n level).map f = collapse node' n (level.map f) := by
  induction n generalizing level with
  | zero => rfl
  | succ n ih =>
    rw [collapse, collapse, length_map]
    split
    · rw [ih, map_parents hf]
    · rfl

end Levels
