import Mathlib.Algebra.BigOperators.Group.List.Basic
import Mathlib.Algebra.GroupWithZero.Nat
import Mathlib.Algebra.Order.BigOperators.Group.List
import Mathlib.Data.List.Induction
import Mathlib.Data.List.Nodup
import Mathlib.Order.Defs.LinearOrder
import Mathlib.Tactic.Common
import Mathlib.Algebra.Order.Group.Nat

/-!
# Finite maps kept as strictly sorted entry lists

`OrderedMap K V` is the observable content of an ordered search tree: the entries in
strictly increasing key order. Two maps with the same lookups are equal
(`OrderedMap.ext_get?`), so a map is determined by `get?` and iteration order carries no
further information.

* `get?_insert`, `get?_erase`, `get?_put`: lookups after the three updates. `put` writes
  an optional value: `some v` inserts and `none` erases.
* `sumBy`: a sum over all entries in any commutative monoid, with the balance law
  `sumBy_put` that says what one update changes.
-/

universe u v w

/-- The entries of an ordered map, in strictly increasing key order. -/
structure OrderedMap (K : Type u) (V : Type v) [LinearOrder K] where
  entries : List (K × V)
  sorted : entries.Pairwise fun a b => a.1 < b.1

namespace OrderedMap

open List

variable {K : Type u} {V : Type v} [LinearOrder K]

instance [DecidableEq V] : DecidableEq (OrderedMap K V) := fun a b =>
  decidable_of_iff (a.entries = b.entries)
    ⟨fun h => by cases a; cases b; cases h; rfl, fun h => h ▸ rfl⟩

/-! ## Entry lists -/

/-- The value of the first entry with the given key. -/
def find (k : K) : List (K × V) → Option V
  | [] => none
  | e :: rest => if e.1 = k then some e.2 else find k rest

/-- Insertion in key order; an entry with the same key is replaced. -/
def insertEntry (k : K) (v : V) : List (K × V) → List (K × V)
  | [] => [(k, v)]
  | e :: rest =>
    if k < e.1 then (k, v) :: e :: rest
    else if e.1 < k then e :: insertEntry k v rest
    else (k, v) :: rest

/-- The entries without the given key. -/
def eraseEntry (k : K) (l : List (K × V)) : List (K × V) := l.filter fun e => e.1 ≠ k

theorem find_insertEntry (k k' : K) (v : V) (l : List (K × V)) :
    find k' (insertEntry k v l) = if k' = k then some v else find k' l := by
  induction l with
  | nil => simp [find, insertEntry, eq_comm]
  | cons e rest ih =>
    simp only [insertEntry]
    by_cases hlt : k < e.1
    · simp only [if_pos hlt, find, eq_comm (a := k) (b := k')]
    · by_cases hgt : e.1 < k
      · simp only [if_neg hlt, if_pos hgt, find, ih]
        by_cases he : e.1 = k'
        · simp [← he, hgt.ne]
        · simp [he]
      · have he : e.1 = k := le_antisymm (not_lt.mp hlt) (not_lt.mp hgt)
        rw [if_neg hlt, if_neg hgt, find, find, he]
        by_cases hk : k = k'
        · simp [hk]
        · simp [hk, Ne.symm hk]

variable {k : K} {m m' : OrderedMap K V} {l : List (K × V)} {v : V} {f : K → V → Nat}

theorem mem_of_find (h : find k l = some v) : (k, v) ∈ l := by
  induction l with
  | nil => simp [find] at h
  | cons e rest ih =>
    simp only [find] at h
    by_cases he : e.1 = k
    · simp only [he, if_true, Option.some.injEq] at h
      exact mem_cons.mpr (Or.inl (Prod.ext he.symm h.symm))
    · rw [if_neg he] at h
      exact mem_cons_of_mem _ (ih h)

theorem find_eq_none_of_forall (h : ∀ e ∈ l, e.1 ≠ k) : find k l = none := by
  induction l with
  | nil => rfl
  | cons e rest ih =>
    rw [find, if_neg (h e mem_cons_self), ih fun e' he' => h e' (mem_cons_of_mem _ he')]

theorem find_eq_none_of_lt (h : ∀ e ∈ l, k < e.1) :
    find k l = none := find_eq_none_of_forall fun e he => (h e he).ne'

theorem find_of_mem (hs : l.Pairwise fun a b => a.1 < b.1) (h : (k, v) ∈ l) :
    find k l = some v := by
  induction l with
  | nil => cases h
  | cons e rest ih =>
    obtain ⟨hlt, hs⟩ := pairwise_cons.mp hs
    rcases mem_cons.mp h with rfl | h
    · simp [find]
    · have hne : e.1 ≠ k := (hlt _ h).ne
      rw [find, if_neg hne, ih hs h]

theorem mem_insertEntry {e : K × V} (h : e ∈ insertEntry k v l) : e = (k, v) ∨ e ∈ l := by
  induction l with
  | nil => exact Or.inl (by simpa [insertEntry] using h)
  | cons d rest ih =>
    simp only [insertEntry] at h
    split_ifs at h with hlt hgt
    · rcases mem_cons.mp h with h | h
      · exact Or.inl h
      · exact Or.inr h
    · rcases mem_cons.mp h with rfl | h
      · exact Or.inr mem_cons_self
      · exact (ih h).imp_right (mem_cons_of_mem _)
    · rcases mem_cons.mp h with h | h
      · exact Or.inl h
      · exact Or.inr (mem_cons_of_mem _ h)

theorem sorted_insertEntry (k : K) (v : V) (hs : l.Pairwise fun a b => a.1 < b.1) :
    (insertEntry k v l).Pairwise fun a b => a.1 < b.1 := by
  induction l with
  | nil => simp [insertEntry]
  | cons d rest ih =>
    obtain ⟨hd, hrest⟩ := pairwise_cons.mp hs
    simp only [insertEntry]
    split_ifs with hlt hgt
    · refine pairwise_cons.mpr ⟨?_, hs⟩
      intro e he
      rcases mem_cons.mp he with rfl | he
      · exact hlt
      · exact hlt.trans (hd e he)
    · refine pairwise_cons.mpr ⟨?_, ih hrest⟩
      intro e he
      rcases mem_insertEntry he with rfl | he
      · exact hgt
      · exact hd e he
    · have hk : d.1 = k := le_antisymm (not_lt.mp hlt) (not_lt.mp hgt)
      exact pairwise_cons.mpr ⟨fun e he => hk ▸ hd e he, hrest⟩

theorem find_filter (p : K → V → Bool) (k : K) (l : List (K × V))
    (hs : l.Pairwise fun a b => a.1 < b.1) :
    find k (l.filter fun e => p e.1 e.2) = (find k l).filter (p k) := by
  induction l with
  | nil => rfl
  | cons e rest ih =>
    obtain ⟨hlt, hs⟩ := pairwise_cons.mp hs
    rw [filter_cons, find]
    by_cases hk : e.1 = k
    · have hnone : find k rest = none := find_eq_none_of_lt (hk ▸ hlt)
      rw [if_pos hk, Option.filter_some, hk]
      split
      · rw [find, if_pos hk]
      · rw [ih hs, hnone]
        rfl
    · rw [if_neg hk]
      split
      · rw [find, if_neg hk, ih hs]
      · exact ih hs

/-! ## Entries around a key

Below and above one of its entries a sorted list is searched and changed on one side only. -/

/-- A sorted list split at one of its entries. -/
structure SplitAt (l : List (K × V)) (e : K × V) (r : List (K × V)) : Prop where
  left : l.Pairwise fun a b => a.1 < b.1
  right : r.Pairwise fun a b => a.1 < b.1
  below : ∀ d ∈ l, d.1 < e.1
  above : ∀ d ∈ r, e.1 < d.1

theorem find_append (k : K) (l r : List (K × V)) : find k (l ++ r) = (find k l).or (find k r) := by
  induction l with
  | nil => rfl
  | cons d l ih =>
    rw [cons_append, find, find]
    split
    · rfl
    · exact ih

theorem insertEntry_append_left {e : K × V} (h : k < e.1) (v : V) (l r : List (K × V)) :
    insertEntry k v (l ++ e :: r) = insertEntry k v l ++ e :: r := by
  induction l with
  | nil => simp [insertEntry, h]
  | cons d l ih =>
    simp only [cons_append, insertEntry]
    split_ifs
    · rfl
    · rw [ih, cons_append]
    · rfl

theorem insertEntry_append_right (h : ∀ d ∈ l, d.1 < k) (v : V) (r : List (K × V)) :
    insertEntry k v (l ++ r) = l ++ insertEntry k v r := by
  induction l with
  | nil => rfl
  | cons d l ih =>
    have hd := h d mem_cons_self
    rw [cons_append, insertEntry, if_neg hd.asymm, if_pos hd,
      ih fun d hd => h d (mem_cons_of_mem _ hd), cons_append]

theorem eraseEntry_of_forall_ne (h : ∀ d ∈ l, d.1 ≠ k) : eraseEntry k l = l :=
  filter_eq_self.mpr fun d hd => by simpa using h d hd

namespace SplitAt

variable {l r : List (K × V)} {e : K × V} {k : K}

theorem of_sorted (h : (l ++ e :: r).Pairwise fun a b => a.1 < b.1) : SplitAt l e r := by
  obtain ⟨hl, hr, hlr⟩ := pairwise_append.mp h
  obtain ⟨hr', hright⟩ := pairwise_cons.mp hr
  exact ⟨hl, hright, fun d hd => hlr d hd e mem_cons_self, hr'⟩

theorem left_ne (h : SplitAt l e r) (hk : e.1 ≤ k) : ∀ d ∈ l, d.1 ≠ k :=
  fun d hd => ((h.below d hd).trans_le hk).ne

theorem right_ne (h : SplitAt l e r) (hk : k ≤ e.1) : ∀ d ∈ r, d.1 ≠ k :=
  fun d hd => (hk.trans_lt (h.above d hd)).ne'

theorem find_left (h : SplitAt l e r) (hk : k < e.1) : find k (l ++ e :: r) = find k l := by
  rw [find_append, find, if_neg hk.ne', find_eq_none_of_forall (h.right_ne hk.le), Option.or_none]

theorem find_right (h : SplitAt l e r) (hk : e.1 < k) : find k (l ++ e :: r) = find k r := by
  rw [find_append, find_eq_none_of_forall (h.left_ne hk.le), find, if_neg hk.ne, Option.none_or]

theorem find_self (h : SplitAt l e r) : find e.1 (l ++ e :: r) = some e.2 := by
  rw [find_append, find_eq_none_of_forall (h.left_ne le_rfl), find, if_pos rfl, Option.none_or]

theorem insert_right (h : SplitAt l e r) (hk : e.1 < k) (v : V) :
    insertEntry k v (l ++ e :: r) = l ++ e :: insertEntry k v r := by
  rw [insertEntry_append_right (fun d hd => (h.below d hd).trans hk), insertEntry, if_neg hk.asymm,
    if_pos hk]

theorem insert_self (h : SplitAt l e r) (v : V) :
    insertEntry e.1 v (l ++ e :: r) = l ++ (e.1, v) :: r := by
  rw [insertEntry_append_right h.below, insertEntry, if_neg (lt_irrefl _), if_neg (lt_irrefl _)]

theorem erase_left (h : SplitAt l e r) (hk : k < e.1) :
    eraseEntry k (l ++ e :: r) = eraseEntry k l ++ e :: r := by
  rw [eraseEntry, filter_append, filter_cons_of_pos (by simpa using hk.ne')]
  exact congrArg (eraseEntry k l ++ e :: ·) (eraseEntry_of_forall_ne (h.right_ne hk.le))

theorem erase_right (h : SplitAt l e r) (hk : e.1 < k) :
    eraseEntry k (l ++ e :: r) = l ++ e :: eraseEntry k r := by
  rw [eraseEntry, filter_append, filter_cons_of_pos (by simpa using hk.ne)]
  exact congrArg (· ++ e :: eraseEntry k r) (eraseEntry_of_forall_ne (h.left_ne hk.le))

theorem erase_self (h : SplitAt l e r) : eraseEntry e.1 (l ++ e :: r) = l ++ r := by
  rw [eraseEntry, filter_append, filter_cons_of_neg (by simp)]
  exact congrArg₂ (· ++ ·) (eraseEntry_of_forall_ne (h.left_ne le_rfl))
    (eraseEntry_of_forall_ne (h.right_ne le_rfl))

end SplitAt

/-! ## The map -/

def empty : OrderedMap K V := ⟨[], List.Pairwise.nil⟩

instance : EmptyCollection (OrderedMap K V) := ⟨empty⟩

instance : Inhabited (OrderedMap K V) := ⟨empty⟩

def get? (m : OrderedMap K V) (k : K) : Option V := find k m.entries

def contains (m : OrderedMap K V) (k : K) : Bool := (m.get? k).isSome

def insert (m : OrderedMap K V) (k : K) (v : V) : OrderedMap K V :=
  ⟨insertEntry k v m.entries, sorted_insertEntry k v m.sorted⟩

def erase (m : OrderedMap K V) (k : K) : OrderedMap K V :=
  ⟨eraseEntry k m.entries, m.sorted.filter _⟩

/-- Write an optional value: `none` erases the key. -/
def put (m : OrderedMap K V) (k : K) : Option V → OrderedMap K V
  | some v => m.insert k v
  | none => m.erase k

/-- Write a value unless the key has one. -/
def orInsert (m : OrderedMap K V) (k : K) (v : V) : OrderedMap K V :=
  if m.contains k then m else m.insert k v

def length (m : OrderedMap K V) : Nat := m.entries.length

def isEmpty (m : OrderedMap K V) : Bool := m.entries.isEmpty

def keys (m : OrderedMap K V) : List K := m.entries.map Prod.fst

@[simp] theorem get?_empty (k : K) : (empty : OrderedMap K V).get? k = none := rfl

@[simp] theorem get?_emptyc (k : K) : (∅ : OrderedMap K V).get? k = none := rfl

@[simp] theorem get?_insert (m : OrderedMap K V) (k k' : K) (v : V) :
    (m.insert k v).get? k' = if k' = k then some v else m.get? k' :=
  find_insertEntry k k' v m.entries

theorem get?_insert_self (m : OrderedMap K V) (k : K) (v : V) : (m.insert k v).get? k = some v := by
  rw [get?_insert, if_pos rfl]

@[simp] theorem get?_erase (m : OrderedMap K V) (k k' : K) :
    (m.erase k).get? k' = if k' = k then none else m.get? k' := by
  refine (find_filter (fun key _ => key ≠ k) k' m.entries m.sorted).trans ?_
  rw [← get?]
  cases m.get? k' <;> by_cases hk : k' = k <;> simp [hk]

@[simp] theorem get?_put (m : OrderedMap K V) (k k' : K) (o : Option V) :
    (m.put k o).get? k' = if k' = k then o else m.get? k' := by
  cases o <;> simp [put]

theorem get?_eq_some_iff :
    m.get? k = some v ↔ (k, v) ∈ m.entries :=
  ⟨mem_of_find, find_of_mem m.sorted⟩

theorem mem_keys_iff : k ∈ m.keys ↔ ∃ v, m.get? k = some v := by
  constructor
  · intro h
    obtain ⟨e, he, rfl⟩ := mem_map.mp h
    exact ⟨e.2, get?_eq_some_iff.mpr he⟩
  · rintro ⟨v, hv⟩
    exact mem_map.mpr ⟨(k, v), get?_eq_some_iff.mp hv, rfl⟩

theorem contains_eq_true_iff : m.contains k = true ↔ ∃ v, m.get? k = some v := by
  simp [contains, Option.isSome_iff_exists]

theorem contains_eq_false_iff : m.contains k = false ↔ m.get? k = none := by
  simp [contains]

theorem get?_orInsert (m : OrderedMap K V) (k k' : K) (v : V) :
    (m.orInsert k v).get? k' = if k' = k then some ((m.get? k).getD v) else m.get? k' := by
  unfold orInsert
  split
  · obtain ⟨w, hw⟩ := contains_eq_true_iff.mp ‹_›
    split_ifs with hk
    · rw [hk, hw, Option.getD_some]
    · rfl
  · rename_i h
    have hnone := contains_eq_false_iff.mp (Bool.eq_false_iff.mpr h)
    rw [get?_insert, hnone, Option.getD_none]

theorem keys_sorted (m : OrderedMap K V) : m.keys.Pairwise (· < ·) := pairwise_map.mpr m.sorted

theorem keys_nodup (m : OrderedMap K V) : m.keys.Nodup := m.keys_sorted.imp ne_of_lt

theorem entries_injective (h : m.entries = m'.entries) : m = m' := by
  cases m; cases m'; cases h; rfl

theorem nodup_of_sorted (hs : l.Pairwise fun a b => a.1 < b.1) : l.Nodup :=
  hs.imp fun hlt heq => absurd (congrArg Prod.fst heq) hlt.ne

theorem entries_eq_of_mem_iff {l' : List (K × V)} (hs : l.Pairwise fun a b => a.1 < b.1)
    (hs' : l'.Pairwise fun a b => a.1 < b.1) (h : ∀ e, e ∈ l ↔ e ∈ l') : l = l' := by
  have hperm := (perm_ext_iff_of_nodup (nodup_of_sorted hs) (nodup_of_sorted hs')).mpr h
  exact hperm.eq_of_pairwise (fun _ _ _ _ hab hba => absurd hba hab.asymm) hs hs'

theorem ext_get? (h : ∀ k, m.get? k = m'.get? k) : m = m' := by
  apply entries_injective
  apply entries_eq_of_mem_iff m.sorted m'.sorted
  rintro ⟨k, v⟩
  rw [← get?_eq_some_iff, ← get?_eq_some_iff, h k]

theorem isEmpty_iff : m.isEmpty = true ↔ m = ∅ := by
  rw [isEmpty, List.isEmpty_iff]
  exact ⟨fun h => entries_injective h, fun h => h ▸ rfl⟩

theorem forall_mem_insert {P : K × V → Prop} {k : K} {v : V} (hnew : P (k, v))
    (h : ∀ e ∈ m.entries, P e) : ∀ e ∈ (m.insert k v).entries, P e := by
  rintro ⟨k', v'⟩ he
  rw [← get?_eq_some_iff, get?_insert] at he
  split_ifs at he with hk
  · cases he
    exact hk ▸ hnew
  · exact h _ (get?_eq_some_iff.mp he)

theorem insert_ne_empty (m : OrderedMap K V) (k : K) (v : V) : m.insert k v ≠ ∅ := by
  intro h
  have hget := congrArg (fun m => m.get? k) h
  simp at hget

theorem put_get? (m : OrderedMap K V) (k : K) : m.put k (m.get? k) = m := by
  apply ext_get?
  intro k'
  rw [get?_put]
  split_ifs with h
  · rw [h]
  · rfl

theorem insert_of_get? (h : m.get? k = some v) : m.insert k v = m := by
  have := put_get? m k
  rwa [h] at this

/-! ## Sums over entries -/

section Sums

variable {M : Type w} [AddCommMonoid M]

/-- The sum of `f` over all entries. -/
def sumBy (f : K → V → M) (m : OrderedMap K V) : M := (m.entries.map fun e => f e.1 e.2).sum

/-- The contribution of an optional value at one key. -/
def optionSum (f : K → V → M) (k : K) : Option V → M
  | some v => f k v
  | none => 0

omit [LinearOrder K] in
@[simp] theorem optionSum_some (f : K → V → M) (k : K) (v : V) :
    optionSum f k (some v) = f k v := rfl

omit [LinearOrder K] in
@[simp] theorem optionSum_none (f : K → V → M) (k : K) : optionSum f k none = 0 := rfl

@[simp] theorem sumBy_empty (f : K → V → M) : sumBy f (∅ : OrderedMap K V) = 0 := rfl

theorem sum_insertEntry (f : K → V → M) (k : K) (v : V) :
    ∀ l : List (K × V), find k l = none →
      ((insertEntry k v l).map fun e => f e.1 e.2).sum = f k v + (l.map fun e => f e.1 e.2).sum
  | [], _ => by simp [insertEntry]
  | e :: rest, h => by
    simp only [find] at h
    have he : e.1 ≠ k := by
      intro he
      simp [he] at h
    rw [if_neg he] at h
    simp only [insertEntry]
    split_ifs with hlt hgt
    · simp
    · simp only [map_cons, sum_cons, sum_insertEntry f k v rest h]
      rw [add_left_comm]
    · exact absurd (le_antisymm (not_lt.mp hlt) (not_lt.mp hgt)) he

theorem sum_eraseEntry (f : K → V → M) (k : K) :
    ∀ l : List (K × V), l.Pairwise (fun a b => a.1 < b.1) →
      optionSum f k (find k l) + ((eraseEntry k l).map fun e => f e.1 e.2).sum =
        (l.map fun e => f e.1 e.2).sum
  | [], _ => by simp [find, eraseEntry]
  | e :: rest, hs => by
    obtain ⟨hlt, hs⟩ := pairwise_cons.mp hs
    have ih := sum_eraseEntry f k rest hs
    simp only [eraseEntry, filter_cons, find] at ih ⊢
    by_cases he : e.1 = k
    · have hnone : find k rest = none := find_eq_none_of_lt (he ▸ hlt)
      rw [hnone, optionSum_none, zero_add] at ih
      rw [if_pos he, optionSum_some, if_neg (by simp [he]), ih, map_cons, sum_cons, he]
    · simp only [he, if_false, ne_eq, not_false_eq_true, decide_true, if_true, map_cons,
        sum_cons]
      rw [add_left_comm, ih]

theorem sumBy_erase (f : K → V → M) (m : OrderedMap K V) (k : K) :
    optionSum f k (m.get? k) + sumBy f (m.erase k) = sumBy f m :=
  sum_eraseEntry f k m.entries m.sorted

variable {m : OrderedMap K V} {k : K}

theorem erase_of_get?_none (h : m.get? k = none) : m.erase k = m := by
  apply ext_get?
  intro k'
  rw [get?_erase]
  split_ifs with hk
  · rw [hk, h]
  · rfl

theorem erase_insert (h : m.get? k = none) (v : V) : (m.insert k v).erase k = m := by
  apply ext_get?
  intro k'
  rw [get?_erase, get?_insert]
  split_ifs with heq
  · rw [heq, h]
  · rfl

theorem insert_erase (m : OrderedMap K V) (k : K) (v : V) :
    (m.erase k).insert k v = m.insert k v := by
  apply ext_get?
  intro k'
  simp only [get?_insert, get?_erase]
  split_ifs <;> rfl

theorem insert_insert (m : OrderedMap K V) (k : K) (v v' : V) :
    (m.insert k v).insert k v' = m.insert k v' := by
  apply ext_get?
  intro k'
  simp only [get?_insert]
  split_ifs <;> rfl

theorem sumBy_insert_of_get?_none (f : K → V → M) (h : m.get? k = none) (v : V) :
    sumBy f (m.insert k v) = f k v + sumBy f m :=
  sum_insertEntry f k v m.entries h

/-- One write changes the sum by the old and the new contribution of its key. -/
theorem sumBy_put (f : K → V → M) (m : OrderedMap K V) (k : K) (o : Option V) :
    optionSum f k (m.get? k) + sumBy f (m.put k o) = optionSum f k o + sumBy f m := by
  have herase := sumBy_erase f m k
  cases o with
  | none =>
    rw [put, herase, optionSum_none, zero_add]
  | some v =>
    have hnone : (m.erase k).get? k = none := by simp
    rw [put, ← insert_erase, sumBy_insert_of_get?_none f hnone, optionSum_some, add_left_comm,
      herase]

theorem sumBy_congr {f g : K → V → M} (h : ∀ k v, m.get? k = some v → f k v = g k v) :
    sumBy f m = sumBy g m := by
  unfold sumBy
  congr 1
  apply map_congr_left
  intro e he
  exact h e.1 e.2 (get?_eq_some_iff.mpr he)

end Sums

theorem length_eq_sumBy (m : OrderedMap K V) : m.length = sumBy (fun _ _ => 1) m := by
  simp [length, sumBy]

theorem length_orInsert_le (m : OrderedMap K V) (k : K) (v : V) :
    (m.orInsert k v).length ≤ m.length + 1 := by
  unfold orInsert
  split
  · omega
  · rename_i h
    have hnone := contains_eq_false_iff.mp (Bool.eq_false_iff.mpr h)
    rw [length_eq_sumBy, length_eq_sumBy, sumBy_insert_of_get?_none _ hnone, add_comm]

theorem mem_keys_orInsert {k' : K} : k' ∈ (m.orInsert k v).keys ↔ k' = k ∨ k' ∈ m.keys := by
  rw [mem_keys_iff, mem_keys_iff, get?_orInsert]
  split_ifs with h <;> simp [h]

theorem length_le_of_keys_subset {l : List K} (h : m.keys ⊆ l) : m.length ≤ l.length := by
  have hle := (subperm_of_subset m.keys_nodup h).length_le
  rwa [OrderedMap.keys, length_map] at hle

theorem sumBy_le_of_mem {l₁ l₂ : List (K × V)} (h : ∀ e ∈ m.entries, e ∈ l₁ ∨ e ∈ l₂) :
    sumBy f m ≤ (l₁.map fun e => f e.1 e.2).sum + (l₂.map fun e => f e.1 e.2).sum := by
  obtain ⟨l, hperm, hsub⟩ :=
    subperm_of_subset (nodup_of_sorted m.sorted) fun e he => mem_append.mpr (h e he)
  rw [sumBy, ← (hperm.map _).sum_eq, ← sum_append, ← map_append]
  exact (hsub.map _).sum_le_sum fun _ _ => Nat.zero_le _

theorem le_sumBy (h : m.get? k = some v) : f k v ≤ sumBy f m := by
  have := sumBy_erase f m k
  rw [h, optionSum_some] at this
  omega

/-! ## Maps from entry lists -/

/-- Insert the entries one by one. -/
def ofEntries (l : List (K × V)) : OrderedMap K V := l.foldl (fun m e => m.insert e.1 e.2) ∅

theorem ofEntries_append (l : List (K × V)) (e : K × V) :
    ofEntries (l ++ [e]) = (ofEntries l).insert e.1 e.2 := by
  rw [ofEntries, foldl_append]
  rfl

theorem entries_insert_of_lt (h : ∀ e ∈ m.entries, e.1 < k) (v : V) :
    (m.insert k v).entries = m.entries ++ [(k, v)] := by
  have hsorted : (m.entries ++ [(k, v)]).Pairwise fun a b => a.1 < b.1 :=
    pairwise_append.mpr ⟨m.sorted, pairwise_singleton _ _, by simpa using h⟩
  have hnone : m.get? k = none := find_eq_none_of_forall fun e he => ne_of_lt (h e he)
  refine entries_eq_of_mem_iff (m.insert k v).sorted hsorted ?_
  rintro ⟨k', v'⟩
  rw [← get?_eq_some_iff, get?_insert, mem_append, mem_singleton, ← get?_eq_some_iff]
  split_ifs with hk
  · simp [hk, hnone, eq_comm]
  · simp [hk]

theorem entries_ofEntries (hs : l.Pairwise fun a b => a.1 < b.1) : (ofEntries l).entries = l := by
  induction l using List.reverseRecOn with
  | nil => rfl
  | append_singleton l e ih =>
    obtain ⟨hl, -, hlt⟩ := pairwise_append.mp hs
    rw [ofEntries_append, entries_insert_of_lt, ih hl]
    intro d hd
    rw [ih hl] at hd
    exact hlt d hd e (mem_singleton_self e)

theorem ofEntries_entries (m : OrderedMap K V) : ofEntries m.entries = m :=
  entries_injective (entries_ofEntries m.sorted)

/-! ## Filtering -/

/-- The entries from a bound on. -/
def iterFrom (m : OrderedMap K V) (bound : K) :
    List (K × V) := m.entries.filter fun e => bound ≤ e.1

/-- Keep the entries that satisfy `p`. -/
def retain (p : K → V → Bool) (m : OrderedMap K V) : OrderedMap K V :=
  ⟨m.entries.filter fun e => p e.1 e.2, m.sorted.filter _⟩

theorem get?_retain (p : K → V → Bool) (m : OrderedMap K V) (k : K) :
    (m.retain p).get? k = (m.get? k).filter (p k) :=
  find_filter p k m.entries m.sorted

theorem retain_congr {p q : K → V → Bool} (h : ∀ k v, m.get? k = some v → p k v = q k v) :
    m.retain p = m.retain q := by
  apply ext_get?
  intro k
  rw [get?_retain, get?_retain]
  cases hk : m.get? k with
  | none => rfl
  | some v => rw [Option.filter_some, Option.filter_some, h k v hk]

omit [LinearOrder K] in
theorem mem_takeWhile_of_pairwise {p : K → Bool} {l : List K}
    (hl : l.Pairwise fun a b => p b = true → p a = true) (hk : k ∈ l) (hp : p k = true) :
    k ∈ l.takeWhile p := by
  induction l with
  | nil => cases hk
  | cons a l ih =>
    obtain ⟨ha, hl⟩ := pairwise_cons.mp hl
    rcases mem_cons.mp hk with rfl | hk
    · rw [takeWhile_cons_of_pos hp]
      exact mem_cons_self
    · rw [takeWhile_cons_of_pos (ha k hk hp)]
      exact mem_cons_of_mem _ (ih hl hk)

theorem mem_takeWhile_keys {bound : K} (hk : m.get? k = some v) (hlt : k < bound) :
    k ∈ m.keys.takeWhile fun key => key < bound := by
  refine mem_takeWhile_of_pairwise (m.keys_sorted.imp fun hab hb => ?_) (mem_keys_iff.mpr ⟨v, hk⟩)
    (decide_eq_true hlt)
  exact decide_eq_true (hab.trans (of_decide_eq_true hb))

end OrderedMap
