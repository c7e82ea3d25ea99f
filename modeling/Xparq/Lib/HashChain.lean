import Mathlib.Data.Set.Function
import Mathlib.Tactic.Common

/-!
# Lists in which each member names the one before it

`Linked id prev l` says that every member but the first carries the identity of its predecessor.
Where identities are unique and the first members can be told from later ones, two members with
one identity stand at the same position, and everything below them agrees (`Linked.take_eq`).
-/

universe u v

namespace HashChain

open List

variable {α : Type u} {K : Type v} {id prev : α → K} {S : Set α} {l m : List α}
  {a b : α} {i j : Nat}

/-- Each member names the one before it. -/
def Linked (id prev : α → K) (l : List α) : Prop :=
  ∀ i a b, l[i]? = some a → l[i + 1]? = some b → prev b = id a

/-- The first member of the one list is no later member of the other. -/
def RootApart (l m : List α) : Prop := ∀ a j, l[0]? = some a → m[j + 1]? ≠ some a

/-- Members with one identity have the same members below them. -/
theorem Linked.take_eq (hinj : S.InjOn id) (hl : Linked id prev l) (hm : Linked id prev m)
    (hlS : ∀ a ∈ l, a ∈ S) (hmS : ∀ a ∈ m, a ∈ S) (hlm : RootApart l m) (hml : RootApart m l)
    (ha : l[i]? = some a) (hb : m[j]? = some b) (hid : id a = id b) :
    i = j ∧ l.take (i + 1) = m.take (i + 1) := by
  induction i generalizing j a b with
  | zero =>
    obtain rfl := hinj (hlS a (mem_of_getElem? ha)) (hmS b (mem_of_getElem? hb)) hid
    cases j with
    | zero => exact ⟨rfl, by rw [take_add_one, take_add_one, ha, hb, take_zero, take_zero]⟩
    | succ j => exact absurd hb (hlm a j ha)
  | succ i ih =>
    obtain rfl := hinj (hlS a (mem_of_getElem? ha)) (hmS b (mem_of_getElem? hb)) hid
    cases j with
    | zero => exact absurd ha (hml a i hb)
    | succ j =>
      -- the predecessors have one identity too
      obtain ⟨hi, _⟩ := List.getElem?_eq_some_iff.mp ha
      obtain ⟨hj, _⟩ := List.getElem?_eq_some_iff.mp hb
      have hpa : l[i]? = some l[i] := getElem?_eq_getElem (Nat.lt_of_succ_lt hi)
      have hpb : m[j]? = some m[j] := getElem?_eq_getElem (Nat.lt_of_succ_lt hj)
      obtain ⟨rfl, htake⟩ := ih hpa hpb ((hl i _ a hpa ha).symm.trans (hm j _ a hpb hb))
      exact ⟨rfl, by rw [take_add_one, htake, ha, ← hb, ← take_add_one]⟩

end HashChain
