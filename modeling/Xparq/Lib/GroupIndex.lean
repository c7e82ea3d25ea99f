import Xparq.Lib.OrderedMap

/-!
# Grouped lookup indexes

A map of maps, in which a group that becomes empty is removed. `group` reads a group, the empty
one when there is none, so that no lemma has to tell an absent group from an empty one; a map
that stores no empty group is determined by its groups (`Tight.ext`).

A `GroupIndex A K` lists keys by group, and a `NestedIndex A B K` is an index of indexes. What an
index lists after a change is an equivalence (`mem_add`, `mem_remove`). A `Compact` index stores
no empty group.
-/

universe u v w

abbrev OrderedSet (K : Type u) [LinearOrder K] := OrderedMap K Unit

namespace OrderedMap

/-! ## Maps of maps -/

variable {A : Type u} {B : Type v} {V : Type w} [LinearOrder A] [LinearOrder B]
  {m m' : OrderedMap A (OrderedMap B V)}

def group (m : OrderedMap A (OrderedMap B V)) (a : A) : OrderedMap B V := (m.get? a).getD ∅

/-- Change a group that is there; it goes when nothing is left of it. -/
def changeGroup (m : OrderedMap A (OrderedMap B V)) (a : A) (f : OrderedMap B V → OrderedMap B V) :
    OrderedMap A (OrderedMap B V) :=
  match m.get? a with
  | none => m
  | some g =>
    let g := f g
    if g.isEmpty then m.erase a else m.insert a g

theorem group_insert (m : OrderedMap A (OrderedMap B V)) (a b : A) (g : OrderedMap B V) :
    (m.insert a g).group b = if b = a then g else m.group b := by
  unfold group
  rw [get?_insert]
  split <;> rfl

theorem group_changeGroup (m : OrderedMap A (OrderedMap B V)) (a b : A)
    {f : OrderedMap B V → OrderedMap B V} (hf : f ∅ = ∅) :
    (m.changeGroup a f).group b = if b = a then f (m.group a) else m.group b := by
  unfold changeGroup
  split
  · rename_i hnone
    split_ifs with hb
    · rw [hb, group, hnone, Option.getD_none, hf]
    · rfl
  · rename_i g hg
    have hgroup : m.group a = g := by rw [group, hg, Option.getD_some]
    dsimp only
    split
    · rename_i hempty
      rw [group, get?_erase, hgroup, isEmpty_iff.mp hempty]
      split_ifs <;> rfl
    · rw [group_insert, hgroup]

/-- No stored group is empty. -/
def Tight (m : OrderedMap A (OrderedMap B V)) : Prop := ∀ a g, m.get? a = some g → g ≠ ∅

theorem tight_empty : Tight (∅ : OrderedMap A (OrderedMap B V)) := by
  intro a g h
  cases h

theorem Tight.insert (h : Tight m) (a : A) {g : OrderedMap B V} (hg : g ≠ ∅) :
    Tight (m.insert a g) := by
  intro b g' hb
  rw [get?_insert] at hb
  split_ifs at hb
  · cases hb
    exact hg
  · exact h b g' hb

theorem Tight.changeGroup (h : Tight m) (a : A) (f : OrderedMap B V → OrderedMap B V) :
    Tight (m.changeGroup a f) := by
  unfold OrderedMap.changeGroup
  split
  · exact h
  · dsimp only
    split
    · intro b g hb
      rw [get?_erase] at hb
      split_ifs at hb
      exact h b g hb
    · rename_i hne
      exact h.insert a fun hempty => hne (isEmpty_iff.mpr hempty)

theorem Tight.ext (h : Tight m) (h' : Tight m') (hm : ∀ a, m.group a = m'.group a) : m = m' := by
  apply ext_get?
  intro a
  have hgroup := hm a
  unfold group at hgroup
  cases ha : m.get? a with
  | none =>
    cases ha' : m'.get? a with
    | none => rfl
    | some g' =>
      rw [ha, ha'] at hgroup
      exact absurd hgroup.symm (h' a g' ha')
  | some g =>
    cases ha' : m'.get? a with
    | none =>
      rw [ha, ha'] at hgroup
      exact absurd hgroup (h a g ha)
    | some g' =>
      rw [ha, ha'] at hgroup
      exact congrArg some hgroup

end OrderedMap

/-! ## Keys by group -/

abbrev GroupIndex (A : Type u) (K : Type v) [LinearOrder A] [LinearOrder K] :=
  OrderedMap A (OrderedSet K)

namespace GroupIndex

open OrderedMap

variable {A : Type u} {K : Type v} [LinearOrder A] [LinearOrder K] {index index' : GroupIndex A K}

def members (index : GroupIndex A K) (a : A) : OrderedSet K := (index.get? a).getD ∅

def add (index : GroupIndex A K) (a : A) (k : K) : GroupIndex A K :=
  index.insert a ((index.members a).insert k ())

def remove (index : GroupIndex A K) (a : A) (k : K) :
    GroupIndex A K := index.changeGroup a fun group => group.erase k

theorem mem_add {a b : A} {k x : K} : ((index.add a k).members b).get? x = some () ↔
    b = a ∧ x = k ∨ (index.members b).get? x = some () := by
  change ((index.insert a _).group b).get? x = _ ↔ _
  rw [group_insert]
  split_ifs with hb
  · rw [get?_insert, hb]
    split_ifs with hx <;> simp [hx]
  · simp [hb, members, group]

theorem mem_remove {a b : A} {k x : K} : ((index.remove a k).members b).get? x = some () ↔
    ¬ (b = a ∧ x = k) ∧ (index.members b).get? x = some () := by
  change ((index.changeGroup a _).group b).get? x = _ ↔ _
  rw [group_changeGroup _ _ _ (erase_of_get?_none (get?_emptyc k))]
  split_ifs with hb
  · rw [get?_erase, hb]
    split_ifs with hx <;> simp [hx, members, group]
  · simp [hb, members, group]

@[simp] theorem members_empty (a : A) : (∅ : GroupIndex A K).members a = ∅ := rfl

def Compact (index : GroupIndex A K) : Prop := Tight index

theorem compact_empty : Compact (∅ : GroupIndex A K) := tight_empty

theorem Compact.add (h : Compact index) (a : A) (k : K) : Compact (index.add a k) :=
  Tight.insert h a (insert_ne_empty _ _ _)

theorem Compact.remove (h : Compact index) (a : A) (k : K) :
    Compact (index.remove a k) := Tight.changeGroup h a _

theorem Compact.ext (h : Compact index) (h' : Compact index')
    (hm : ∀ a k, (index.members a).get? k = some () ↔ (index'.members a).get? k = some ()) :
    index = index' :=
  Tight.ext h h' fun a => ext_get? fun k => Option.ext fun _ => hm a k

theorem foldl_add {V : Type w} (group : V → A) (l : List (K × V)) (index : GroupIndex A K) :
    (∀ a k, ((l.foldl (fun index e => index.add (group e.2) e.1) index).members a).get? k =
      some () ↔
      (index.members a).get? k = some () ∨ ∃ v, (k, v) ∈ l ∧ group v = a) ∧
    (Compact index → Compact (l.foldl (fun index e => index.add (group e.2) e.1) index)) := by
  induction l generalizing index with
  | nil => simp
  | cons e rest ih =>
    obtain ⟨hmembers, hcompact⟩ := ih (index.add (group e.2) e.1)
    refine ⟨fun a k => ?_, fun h => hcompact (h.add _ _)⟩
    rw [List.foldl_cons, hmembers a k, mem_add]
    simp only [List.mem_cons]
    grind

end GroupIndex

/-! ## Indexes of indexes -/

abbrev NestedIndex (A : Type u) (B : Type v) (K : Type w)
    [LinearOrder A] [LinearOrder B] [LinearOrder K] := OrderedMap A (GroupIndex B K)

namespace NestedIndex

open OrderedMap

variable {A : Type u} {B : Type v} {K : Type w} [LinearOrder A] [LinearOrder B] [LinearOrder K]
  {index index' : NestedIndex A B K}

def groups (index : NestedIndex A B K) (a : A) : GroupIndex B K := (index.get? a).getD ∅

def members (index : NestedIndex A B K) (a : A) (b : B) : OrderedSet K := (index.groups a).members b

def add (index : NestedIndex A B K) (a : A) (b : B) (k : K) : NestedIndex A B K :=
  index.insert a ((index.groups a).add b k)

def remove (index : NestedIndex A B K) (a : A) (b : B) (k : K) : NestedIndex A B K :=
  index.changeGroup a fun groups => GroupIndex.remove groups b k

theorem mem_add {a a' : A} {b b' : B} {k x : K} :
    ((index.add a b k).members a' b').get? x = some () ↔
    a' = a ∧ b' = b ∧ x = k ∨ (index.members a' b').get? x = some () := by
  change (GroupIndex.members ((index.insert a _).group a') b').get? x = _ ↔ _
  rw [group_insert]
  split_ifs with ha
  · rw [GroupIndex.mem_add, members, ha]
    simp
  · simp [ha, members, groups, group]

theorem mem_remove {a a' : A} {b b' : B} {k x : K} :
    ((index.remove a b k).members a' b').get? x = some () ↔
    ¬ (a' = a ∧ b' = b ∧ x = k) ∧ (index.members a' b').get? x = some () := by
  change (GroupIndex.members ((index.changeGroup a _).group a') b').get? x = _ ↔ _
  rw [group_changeGroup _ _ _ rfl]
  split_ifs with ha
  · rw [GroupIndex.mem_remove, members, ha]
    simp [groups, group]
  · simp [ha, members, groups, group]

@[simp] theorem members_empty (a : A) (b : B) : (∅ : NestedIndex A B K).members a b = ∅ := rfl

structure Compact (index : NestedIndex A B K) : Prop where
  tight : Tight index
  groups : ∀ a, GroupIndex.Compact (index.groups a)

theorem compact_empty :
    Compact (∅ : NestedIndex A B K) := ⟨tight_empty, fun _ => GroupIndex.compact_empty⟩

theorem Compact.add (h : Compact index) (a : A) (b : B) (k : K) : Compact (index.add a b k) := by
  refine ⟨h.tight.insert a (insert_ne_empty _ _ _), fun a' => ?_⟩
  change GroupIndex.Compact ((index.insert a _).group a')
  rw [group_insert]
  split_ifs
  · exact (h.groups a).add b k
  · exact h.groups a'

theorem Compact.remove (h : Compact index) (a : A) (b : B) (k : K) :
    Compact (index.remove a b k) := by
  refine ⟨h.tight.changeGroup a _, fun a' => ?_⟩
  change GroupIndex.Compact ((index.changeGroup a _).group a')
  rw [group_changeGroup _ _ _ rfl]
  split_ifs
  · exact (h.groups a).remove b k
  · exact h.groups a'

theorem Compact.ext (h : Compact index) (h' : Compact index')
    (hm : ∀ a b k, (index.members a b).get? k = some () ↔ (index'.members a b).get? k = some ()) :
    index = index' :=
  h.tight.ext h'.tight fun a => (h.groups a).ext (h'.groups a) (hm a)

end NestedIndex
