import Mathlib.Data.List.Nodup
import Mathlib.Tactic.Common

/-!
# Parent pointers

A partial function `up` sends a key to its parent. `Lineage up k l` says that `l` lists the
ancestors of `k`, itself first, up to a key without parent. A lineage is determined by its key
(`Lineage.unique`), and every member starts a suffix of it that is its own lineage
(`Lineage.suffix`), so a key with a lineage lies on no cycle.

The first member of one lineage that lies on another is the lowest common ancestor
(`exists_lowestCommon`): below it the lineages are disjoint and from it on they are the same.
-/

universe u

namespace ParentForest

open List

variable {K : Type u}

/-- The ancestors of a key, itself first. -/
inductive Lineage (up : K → Option K) : K → List K → Prop
  | root {k : K} (h : up k = none) : Lineage up k [k]
  | step {k p : K} {l : List K} (h : up k = some p) (hp : Lineage up p l) : Lineage up k (k :: l)

variable {up : K → Option K} {k x y : K} {l l' : List K}

theorem Lineage.exists_cons (h : Lineage up k l) : ∃ rest, l = k :: rest := by
  cases h with
  | root => exact ⟨[], rfl⟩
  | step _ _ => exact ⟨_, rfl⟩

theorem Lineage.mem_self (h : Lineage up k l) : k ∈ l := by
  obtain ⟨rest, rfl⟩ := h.exists_cons
  exact mem_cons_self

theorem Lineage.unique (h : Lineage up k l) (h' : Lineage up k l') : l = l' := by
  induction h generalizing l' with
  | root hroot =>
    cases h' with
    | root => rfl
    | step hup _ =>
      rw [hroot] at hup
      cases hup
  | step hup _ ih =>
    cases h' with
    | root hroot =>
      rw [hroot] at hup
      cases hup
    | step hup' hp' =>
      rw [hup, Option.some.injEq] at hup'
      subst hup'
      rw [ih hp']

/-- Every member starts its own lineage. -/
theorem Lineage.suffix {front rest : List K} (h : Lineage up k (front ++ x :: rest)) :
    Lineage up x (x :: rest) := by
  induction front generalizing k with
  | nil =>
    obtain ⟨_, heq⟩ := h.exists_cons
    cases heq
    exact h
  | cons z front ih =>
    generalize hl : z :: front ++ x :: rest = l at h
    cases h with
    | root => simp at hl
    | step _ hp =>
      cases hl
      exact ih hp

theorem Lineage.nodup (h : Lineage up k l) : l.Nodup := by
  induction h with
  | root => simp
  | @step k p l hup hp ih =>
    refine nodup_cons.mpr ⟨?_, ih⟩
    intro hk
    obtain ⟨front, rest, rfl⟩ := append_of_mem hk
    have hlength := congrArg List.length (hp.suffix.unique (.step hup hp))
    simp only [length_append, length_cons] at hlength
    omega

theorem Lineage.congr {up' : K → Option K} (h : Lineage up k l) (hup : ∀ x ∈ l, up' x = up x) :
    Lineage up' k l := by
  induction h with
  | @root k hroot => exact .root ((hup k mem_cons_self).trans hroot)
  | @step k p l hstep _ ih =>
    exact .step ((hup k mem_cons_self).trans hstep) (ih fun x hx => hup x (mem_cons_of_mem _ hx))

theorem notMem_front {front rest : List K} (h : (front ++ x :: rest).Nodup) : x ∉ front :=
  fun hmem => disjoint_of_nodup_append h hmem mem_cons_self

/-- Two lineages with a common member meet at the first one, and share everything from there. -/
theorem exists_lowestCommon [DecidableEq K] (h : Lineage up k l) (h' : Lineage up y l') (hx : x ∈ l)
    (hx' : x ∈ l') :
    ∃ a front front' rest, l'.find? (fun c => c ∈ l) = some a ∧ l = front ++ a :: rest ∧
      l' = front' ++ a :: rest ∧ front.Disjoint front' ∧ a ∉ front ∧ a ∉ front' ∧
      ∀ c ∈ l, c ∈ l' → c ∈ a :: rest := by
  obtain ⟨a, ha⟩ : ∃ a, l'.find? (fun c => c ∈ l) = some a := by
    have hsome : (l'.find? fun c => c ∈ l).isSome := find?_isSome.mpr ⟨x, hx', by simpa using hx⟩
    exact Option.isSome_iff_exists.mp hsome
  obtain ⟨hal, front', rest, rfl, hfirst⟩ := find?_eq_some_iff_append.mp ha
  have hfront' : ∀ c ∈ front', c ∉ l := fun c hc => by simpa using hfirst c hc
  obtain ⟨front, rest', rfl⟩ := append_of_mem (of_decide_eq_true hal)
  -- the suffix at `a` is the same in both
  have hrest : rest' = rest := (List.cons.inj (h.suffix.unique h'.suffix)).2
  subst hrest
  refine ⟨a, front, front', rest', ha, rfl, rfl, ?_, notMem_front h.nodup,
    notMem_front h'.nodup, ?_⟩
  · intro c hc hc'
    exact hfront' c hc' (mem_append_left _ hc)
  · intro c hc hc'
    rcases mem_append.mp hc' with hc' | hc'
    · exact absurd hc (hfront' c hc')
    · exact hc'

end ParentForest
