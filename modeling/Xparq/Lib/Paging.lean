import Mathlib.Data.List.Basic
import Mathlib.Data.List.Flatten
import Mathlib.Order.Lattice
import Mathlib.Tactic.Common

/-!
# Pages with cursors

A page is filled by a loop that stops one entry past the limit; the entry too many says that there
is more, and the key of the last entry kept is the cursor of the next page. Over a list sorted by
that key, a page is what comes first strictly after the cursor, and following the cursors visits
every entry once (`Paging.exists_visits`, `Paging.paged_of_cut`).
-/

universe u v w

namespace Paging

open List

/-! ## Filling a page -/

section
variable {α : Type u} {β : Type v} {γ : Type w}

/-- Push what `f` finds, until there is one more than `limit`. -/
def fill (limit : Nat) (f : α → Option β) : List α → List β → List β
  | [], page => page
  | a :: items, page =>
    match f a with
    | none => fill limit f items page
    | some b => if limit < (page ++ [b]).length then page ++ [b]
      else fill limit f items (page ++ [b])

/-- The same over groups of items. -/
def fillGroups (limit : Nat) (items : γ → List α) (f : γ → α → Option β) : List γ → List β → List β
  | [], page => page
  | group :: groups, page =>
    let page := fill limit (f group) (items group) page
    if limit < page.length then page else fillGroups limit items f groups page

/-- Cut a filled page to the limit; the cursor is there when something was cut off. -/
def cut (limit : Nat) (key : β → γ) (page : List β) : List β × Option γ :=
  (page.take limit, if limit < page.length then (page.take limit).getLast?.map key else none)

theorem fill_eq (limit : Nat) (f : α → Option β) (items : List α) {page : List β}
    (h : page.length ≤ limit) :
    fill limit f items page = (page ++ items.filterMap f).take (limit + 1) := by
  induction items generalizing page with
  | nil =>
    rw [fill, filterMap_nil, append_nil, take_of_length_le (Nat.le_succ_of_le h)]
  | cons a items ih =>
    rw [fill]
    cases hf : f a with
    | none => rw [filterMap_cons_none hf, ih h]
    | some b =>
      have hmore : page ++ (a :: items).filterMap f = page ++ [b] ++ items.filterMap f := by
        rw [filterMap_cons_some hf, append_cons]
      dsimp only
      rw [hmore]
      split_ifs with hlimit
      · have hlength : (page ++ [b]).length = limit + 1 := by
          rw [length_append, length_singleton] at hlimit ⊢
          omega
        rw [← hlength, take_left]
      · exact ih (Nat.le_of_not_lt hlimit)

theorem fillGroups_eq (limit : Nat) (items : γ → List α) (f : γ → α → Option β) (groups : List γ)
    {page : List β} (h : page.length ≤ limit) : fillGroups limit items f groups page =
      (page ++ groups.flatMap fun group => (items group).filterMap (f group)).take (limit + 1) := by
  induction groups generalizing page with
  | nil =>
    rw [fillGroups, flatMap_nil, append_nil, take_of_length_le (Nat.le_succ_of_le h)]
  | cons group groups ih =>
    rw [fillGroups, fill_eq limit (f group) (items group) h, flatMap_cons, ← append_assoc]
    split_ifs with hlimit
    · rw [length_take] at hlimit
      exact (take_append_of_le_length (by omega)).symm
    · rw [length_take] at hlimit
      rw [take_of_length_le (by omega), ih (by omega)]

@[simp] theorem cut_nil (limit : Nat) (key : β → γ) : cut limit key [] = ([], none) := by
  simp [cut]

theorem cut_take (limit : Nat) (key : β → γ) (l : List β) :
    cut limit key (l.take (limit + 1)) = cut limit key l := by
  have htake : (l.take (limit + 1)).take limit = l.take limit := by
    rw [take_take, Nat.min_eq_left (Nat.le_succ _)]
  have hmore : limit < (l.take (limit + 1)).length ↔ limit < l.length := by
    rw [length_take]
    omega
  simp only [cut, htake, hmore]

theorem flatMap_filter {p : γ → Bool} {f g : γ → List β} {groups : List γ}
    (hkept : ∀ group ∈ groups, p group = true → f group = g group)
    (hpassed : ∀ group ∈ groups, p group = false → g group = []) :
    (groups.filter p).flatMap f = groups.flatMap g := by
  induction groups with
  | nil => rfl
  | cons group groups ih =>
    have hrest := ih (fun group h => hkept group (mem_cons_of_mem _ h))
      fun group h => hpassed group (mem_cons_of_mem _ h)
    rw [flatMap_cons, ← hrest]
    cases hp : p group with
    | true => rw [filter_cons_of_pos hp, flatMap_cons, hkept group mem_cons_self hp]
    | false =>
      rw [filter_cons_of_neg (by simp [hp]), hpassed group mem_cons_self hp, nil_append]

end

/-! ## Following the cursors -/

section
variable {α : Type u} {κ : Type v}

/-- The pages seen when each cursor is used for the next page, until there is none. -/
inductive Visits (next : Option κ → List α × Option κ) : Option κ → List (List α) → Prop
  | last {cursor : Option κ} (h : (next cursor).2 = none) : Visits next cursor [(next cursor).1]
  | more {cursor : Option κ} {cursor' : κ} {pages : List (List α)}
      (h : (next cursor).2 = some cursor')
      (hrest : Visits next (some cursor') pages) : Visits next cursor ((next cursor).1 :: pages)

variable {key : α → κ} {l : List α} {next : Option κ → List α × Option κ} {cursor : Option κ}
  {limit : Nat}

theorem Visits.unique {pages pages' : List (List α)}
    (h : Visits next cursor pages) (h' : Visits next cursor pages') : pages' = pages := by
  induction h generalizing pages' with
  | last hnone =>
    cases h' with
    | last _ => rfl
    | more hsome _ => rw [hnone] at hsome; cases hsome
  | more hsome _ ih =>
    cases h' with
    | last hnone => rw [hnone] at hsome; cases hsome
    | more hsome' hrest' =>
      rw [hsome, Option.some.injEq] at hsome'
      subst hsome'
      rw [ih hrest']

variable [LinearOrder κ]

/-- What comes strictly after a cursor. -/
def following (key : α → κ) (l : List α) : Option κ → List α
  | none => l
  | some cursor => l.filter fun a => cursor < key a

theorem following_eq (key : α → κ) (l : List α) (cursor : Option κ) :
    following key l cursor = l.filter fun a => cursor.all fun c => c < key a := by
  cases cursor with
  | none => simp [following]
  | some c => rfl

theorem following_last (hsorted : l.Pairwise fun a b => key a < key b) {front back : List α} {b : α}
    (h : following key l cursor = front ++ [b] ++ back) :
    following key l (some (key b)) = back := by
  have hrest : (following key l cursor).Pairwise fun a b => key a < key b := by
    cases cursor with
    | none => exact hsorted
    | some c => exact hsorted.filter _
  have hkeep : following key l (some (key b)) = (following key l cursor).filter fun a =>
      key b < key a := by
    cases cursor with
    | none => rfl
    | some c =>
      have hb : b ∈ following key l (some c) := by
        rw [h]
        simp
      have hc : c < key b := by simpa using (mem_filter.mp hb).2
      rw [following, following, filter_filter]
      refine filter_congr fun a _ => ?_
      by_cases ha : key b < key a
      · simp [ha, lt_trans hc ha]
      · simp [ha]
  rw [h, pairwise_append] at hrest
  obtain ⟨hfront, _, hcross⟩ := hrest
  rw [pairwise_append] at hfront
  rw [hkeep, h, filter_append]
  have hnone : ((front ++ [b]).filter fun a => key b < key a) = [] := by
    refine filter_eq_nil_iff.mpr fun a ha => ?_
    rcases mem_append.mp ha with ha | ha
    · simpa using le_of_lt (hfront.2.2 a ha b (by simp))
    · simp [mem_singleton.mp ha]
  have hall : (back.filter fun a => key b < key a) = back :=
    filter_eq_self.mpr fun a ha => by simpa using hcross b (by simp) a ha
  rw [hnone, hall, nil_append]

/-- With pages cut from a sorted list, following the cursors ends, visits every entry once and in
order, and only the last page can be short. -/
theorem exists_visits (hsorted : l.Pairwise fun a b => key a < key b) (hlimit : 1 ≤ limit)
    (cursor : Option κ) :
    ∃ pages, Visits (fun cursor => cut limit key (following key l cursor)) cursor pages ∧
      pages.flatten = following key l cursor ∧ (∀ page ∈ pages.dropLast, page.length = limit) ∧
      ∀ page ∈ pages, page.length ≤ limit := by
  induction hn : (following key l cursor).length using Nat.strongRecOn generalizing cursor with
  | _ n ih =>
    rcases Nat.lt_or_ge limit n with hmore | hend
    · -- the last of the `limit` entries kept is the next cursor
      have hkept : ((following key l cursor).take limit).length = limit := by
        rw [length_take]
        omega
      obtain ⟨front, b, hfront⟩ : ∃ front b,
        (following key l cursor).take limit = front ++ [b] := by
        rcases eq_nil_or_concat' ((following key l cursor).take limit) with hnil | h
        · rw [hnil, length_nil] at hkept
          omega
        · exact h
      have hsplit := take_append_drop limit (following key l cursor)
      rw [hfront] at hsplit
      have hnext := following_last hsorted hsplit.symm
      obtain ⟨pages, hvisits, hflat, hfull, hle⟩ := ih ((following key l cursor).drop limit).length
        (by rw [length_drop]; omega) (some (key b)) (by rw [hnext])
      have hcursor : (cut limit key (following key l cursor)).2 = some (key b) := by
        rw [cut, if_pos (by omega), hfront, getLast?_concat, Option.map_some]
      refine ⟨_, .more hcursor hvisits, ?_, ?_, ?_⟩
      · rw [flatten_cons, hflat, hnext]
        exact take_append_drop limit _
      · have hne : pages ≠ [] := by
          rintro rfl
          cases hvisits
        rw [dropLast_cons_of_ne_nil hne]
        intro page hp
        rcases mem_cons.mp hp with rfl | hp
        · exact hkept
        · exact hfull page hp
      · intro page hp
        rcases mem_cons.mp hp with rfl | hp
        · exact Nat.le_of_eq hkept
        · exact hle page hp
    · have hwhole : (cut limit key (following key l cursor)).1 = following key l cursor :=
        take_of_length_le (by omega)
      have hnone : (cut limit key (following key l cursor)).2 = none := if_neg (by omega)
      refine ⟨_, .last hnone, ?_, by simp, ?_⟩
      · rw [hwhole, flatten_singleton]
      · intro page hp
        rw [mem_singleton.mp hp, hwhole]
        omega

/-- `next` pages through the members in order: each page is what comes first strictly after its
cursor, and the cursors lead through all pages, of which only the last can be short. -/
structure Paged (key : α → κ) (member : α → Prop) (limit : Nat)
    (next : Option κ → List α × Option κ) (l : List α) : Prop where
  sorted : l.Pairwise fun a b => key a < key b
  mem_iff : ∀ a, a ∈ l ↔ member a
  page_eq : ∀ cursor, (next cursor).1 = (following key l cursor).take limit
  visits : ∃ pages, Visits next none pages ∧ (∀ pages', Visits next none pages' → pages' = pages) ∧
    pages.flatten = l ∧ (∀ page ∈ pages.dropLast, page.length = limit) ∧ ∀ page ∈ pages,
      page.length ≤ limit

theorem paged_of_cut {member : α → Prop} (hsorted : l.Pairwise fun a b => key a < key b)
    (hmem : ∀ a, a ∈ l ↔ member a) (hlimit : 1 ≤ limit)
    (hnext : ∀ cursor, next cursor = cut limit key (following key l cursor)) :
    Paged key member limit next l := by
  refine ⟨hsorted, hmem, fun cursor => by rw [hnext]; rfl, ?_⟩
  obtain ⟨pages, hvisits, hflat, hfull, hle⟩ := exists_visits hsorted hlimit none
  rw [← funext hnext] at hvisits
  exact ⟨pages, hvisits, fun _ h' => hvisits.unique h', hflat, hfull, hle⟩

end

end Paging
