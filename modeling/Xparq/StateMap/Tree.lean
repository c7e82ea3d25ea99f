import Xparq.Lib.OrderedMap
import Xparq.Lib.Outcome
import Mathlib.Data.Nat.Size

/-!
# The search tree of a state map

Every map of the ledger state is an AVL tree whose nodes store the height and the size of their
subtree. The functions follow the source; an `unwrap` or `expect` of an absent child is `none`.

A tree means the list of its entries in order. `Balanced` is the shape invariant. Each write has
one lemma: on a balanced tree it does not fail, the new tree is balanced, its height moves by at
most one, and its entries are those of the write on the sorted list (`insert_spec`,
`remove_spec`, `getMut_spec`, `build_spec`).
-/

namespace Xparq

open OrderedMap Outcome List

universe u v

/-- `Link` and `Node`; `height` and `len` are what the node stores. -/
inductive Link (K : Type u) (V : Type v)
  | absent
  | node (key : K) (value : V) (left right : Link K V) (height len : Nat)
  deriving DecidableEq

namespace Link

variable {K : Type u} {V : Type v}

def height : Link K V → Nat
  | absent => 0
  | node _ _ _ _ height _ => height

def length : Link K V → Nat
  | absent => 0
  | node _ _ _ _ _ len => len

def isAbsent : Link K V → Bool
  | absent => true
  | node .. => false

/-- `Option::or`. -/
def or : Link K V → Link K V → Link K V
  | absent, other => other
  | node key value left right height len, _ => node key value left right height len

def refresh : Link K V → Link K V
  | absent => absent
  | node key value left right _ _ =>
    node key value left right (1 + max left.height right.height) (1 + left.length + right.length)

/-! ## Balancing -/

def rotateLeft : Link K V → Option (Link K V)
  | node key value left (node pivotKey pivotValue middle right pivotHeight pivotLen) height len =>
    let root := refresh (node key value left middle height len)
    some (refresh (node pivotKey pivotValue root right pivotHeight pivotLen))
  | _ => none

def rotateRight : Link K V → Option (Link K V)
  | node key value (node pivotKey pivotValue left middle pivotHeight pivotLen) right height len =>
    let root := refresh (node key value middle right height len)
    some (refresh (node pivotKey pivotValue left root pivotHeight pivotLen))
  | _ => none

/-- The left child before a rotation to the right: rotated itself when it is higher inside. -/
def straightenLeft : Link K V → Option (Link K V)
  | absent => none
  | node key value left right height len =>
    if left.height < right.height then rotateLeft (node key value left right height len)
    else some (node key value left right height len)

/-- The right child before a rotation to the left. -/
def straightenRight : Link K V → Option (Link K V)
  | absent => none
  | node key value left right height len =>
    if right.height < left.height then rotateRight (node key value left right height len)
    else some (node key value left right height len)

def rebalance (root : Link K V) : Option (Link K V) :=
  match root.refresh with
  | absent => none
  | node key value left right height len =>
    let balance : Int := left.height - right.height
    if balance > 1 then do
      let left ← left.straightenLeft
      rotateRight (node key value left right height len)
    else if balance < -1 then do
      let right ← right.straightenRight
      rotateLeft (node key value left right height len)
    else some (node key value left right height len)

/-! ## Reads and writes -/

def popMin : Link K V → Option (Link K V × K × V)
  | absent => none
  | node key value left right height len =>
    if left.isAbsent then some (right, key, value)
    else do
      let (left, minKey, minValue) ← left.popMin
      let root ← rebalance (node key value left right height len)
      return (root, minKey, minValue)

/-- `From<BTreeMap>`: the nodes of a subtree of `len` entries come from the front of `items`. -/
def build (items : List (K × V)) (len : Nat) : Option (Link K V × List (K × V)) :=
  if len = 0 then some (absent, items)
  else do
    let (left, items) ← build items (len / 2)
    match items with
    | [] => none
    | (key, value) :: items => do
      let (right, items) ← build items (len - len / 2 - 1)
      return (refresh (node key value left right 0 0), items)
termination_by len

section
variable [LinearOrder K]

def get (key : K) : Link K V → Option V
  | absent => none
  | node nodeKey value left right _ _ =>
    if key < nodeKey then left.get key
    else if nodeKey < key then right.get key
    else some value

def insert (key : K) (value : V) : Link K V → Option (Link K V × Option V)
  | absent => some (node key value absent absent 1 1, none)
  | node nodeKey nodeValue left right height len =>
    if key < nodeKey then do
      let (left, previous) ← left.insert key value
      let root ← rebalance (node nodeKey nodeValue left right height len)
      return (root, previous)
    else if nodeKey < key then do
      let (right, previous) ← right.insert key value
      let root ← rebalance (node nodeKey nodeValue left right height len)
      return (root, previous)
    else do
      let root ← rebalance (node nodeKey value left right height len)
      return (root, some nodeValue)

def remove (key : K) : Link K V → Option (Link K V × V)
  | absent => none
  | node nodeKey nodeValue left right height len =>
    if key < nodeKey then do
      let (left, previous) ← left.remove key
      let root ← rebalance (node nodeKey nodeValue left right height len)
      return (root, previous)
    else if nodeKey < key then do
      let (right, previous) ← right.remove key
      let root ← rebalance (node nodeKey nodeValue left right height len)
      return (root, previous)
    else if left.isAbsent ∨ right.isAbsent then some (left.or right, nodeValue)
    else do
      let (right, minKey, minValue) ← right.popMin
      let root ← rebalance (node minKey minValue left right height len)
      return (root, nodeValue)

/-- The loop of `get_mut`; `write` is what the caller does through the reference. -/
def getMut (key : K) (write : V → V) : Link K V → Option (Link K V)
  | absent => none
  | node nodeKey value left right height len =>
    if key < nodeKey then do
      let left ← left.getMut key write
      return node nodeKey value left right height len
    else if nodeKey < key then do
      let right ← right.getMut key write
      return node nodeKey value left right height len
    else some (node nodeKey (write value) left right height len)

end

/-! ## Shape -/

/-- The entries in key order. -/
def entries : Link K V → List (K × V)
  | absent => []
  | node key value left right _ _ => left.entries ++ (key, value) :: right.entries

/-- Stored heights and sizes are right, and the sides of a node differ in height by at most one. -/
def Balanced : Link K V → Prop
  | absent => True
  | node _ _ left right height len => left.Balanced ∧ right.Balanced ∧
    height = 1 + max left.height right.height ∧ len = 1 + left.length + right.length ∧
    left.height ≤ right.height + 1 ∧ right.height ≤ left.height + 1

@[simp] theorem refresh_node (key : K) (value : V) (left right : Link K V) (height len : Nat) :
    refresh (node key value left right height len) =
      node key value left right (1 + max left.height right.height)
      (1 + left.length + right.length) := rfl

@[simp] theorem height_absent : (absent : Link K V).height = 0 := rfl

@[simp] theorem height_node (key : K) (value : V) (left right : Link K V) (height len : Nat) :
    (node key value left right height len).height = height := rfl

@[simp] theorem length_node (key : K) (value : V) (left right : Link K V) (height len : Nat) :
    (node key value left right height len).length = len := rfl

@[simp] theorem entries_node (key : K) (value : V) (left right : Link K V) (height len : Nat) :
    (node key value left right height len).entries = left.entries ++ (key, value) ::
      right.entries := rfl

variable {t left right : Link K V} {key : K} {value : V} {len height : Nat}

theorem Balanced.length_eq (h : t.Balanced) : t.length = t.entries.length := by
  induction t with
  | absent => rfl
  | node key value left right height len ihl ihr =>
    obtain ⟨hleft, hright, _, hlen, _⟩ := h
    rw [length_node, entries_node, length_append, length_cons, hlen, ihl hleft, ihr hright]
    omega

theorem Balanced.refresh (hleft : left.Balanced) (hright : right.Balanced)
    (h : left.height ≤ right.height + 1) (h' : right.height ≤ left.height + 1) (key : K) (value : V)
    (height len : Nat) : (refresh (node key value left right height len)).Balanced :=
  ⟨hleft, hright, rfl, rfl, h, h'⟩

/-- The tree `t` holds `left`, an entry and `right`, and is at most one higher than both. -/
structure Joined (left : Link K V) (key : K) (value : V) (right t : Link K V) : Prop where
  balanced : t.Balanced
  entries : t.entries = left.entries ++ (key, value) :: right.entries
  le : max left.height right.height ≤ t.height
  ge : t.height ≤ 1 + max left.height right.height
  eq : left.height ≤ right.height + 1 → right.height ≤ left.height + 1 →
    t.height = 1 + max left.height right.height

theorem exists_rotateRight (hleft : left.Balanced) (hright : right.Balanced)
    (hheight : left.height = right.height + 2) (key : K) (value : V) (height len : Nat) :
    ∃ child t, left.straightenLeft = some child ∧
      rotateRight (node key value child right height len) = some t ∧
      Joined left key value right t := by
  cases left with
  | absent => simp at hheight
  | node leftKey leftValue outer inner leftHeight leftLen =>
    obtain ⟨houter, hinner, hh, _, hle, hge⟩ := hleft
    rw [height_node] at hheight
    by_cases hlean : outer.height < inner.height
    · -- the inner grandchild is the higher one and becomes the root
      cases inner with
      | absent => simp at hlean
      | node innerKey innerValue innerLeft innerRight innerHeight innerLen =>
        obtain ⟨hil, hir, hih, _, hile, hige⟩ := hinner
        refine ⟨_, _, if_pos hlean, rfl, ?_⟩
        simp only [height_node] at hh hle hge hlean
        have hb := Balanced.refresh (Balanced.refresh houter hil (by omega) (by omega)
          leftKey leftValue 0 0)
          (Balanced.refresh hir hright (by omega) (by omega) key value 0 0)
          (by simp only [refresh_node, height_node]; omega)
          (by simp only [refresh_node, height_node]; omega)
          innerKey innerValue 0 0
        exact ⟨hb, by simp, by simp only [refresh_node, height_node]; omega,
          by simp only [refresh_node, height_node]; omega, by simp only [height_node]; omega⟩
    · refine ⟨_, _, if_neg hlean, rfl, ?_⟩
      have hb := Balanced.refresh houter (Balanced.refresh hinner hright (by omega)
        (by omega) key value 0 0)
        (by simp only [refresh_node, height_node]; omega)
        (by simp only [refresh_node, height_node]; omega)
        leftKey leftValue 0 0
      exact ⟨hb, by simp, by simp only [refresh_node, height_node]; omega,
        by simp only [refresh_node, height_node]; omega, by simp only [height_node]; omega⟩

/-! The other direction is the mirror image. -/

def mirror : Link K V → Link K V
  | absent => absent
  | node key value left right height len => node key value right.mirror left.mirror height len

@[simp] theorem height_mirror (t : Link K V) : t.mirror.height = t.height := by
  cases t <;> rfl

@[simp] theorem length_mirror (t : Link K V) : t.mirror.length = t.length := by
  cases t <;> rfl

@[simp] theorem mirror_mirror (t : Link K V) : t.mirror.mirror = t := by
  induction t with
  | absent => rfl
  | node key value left right height len ihl ihr => rw [mirror, mirror, ihl, ihr]

@[simp] theorem entries_mirror (t : Link K V) : t.mirror.entries = t.entries.reverse := by
  induction t with
  | absent => rfl
  | node key value left right height len ihl ihr =>
    rw [mirror, entries_node, entries_node, ihl, ihr, reverse_append, reverse_cons,
      append_assoc, singleton_append]

theorem refresh_mirror (t : Link K V) : t.mirror.refresh = t.refresh.mirror := by
  cases t with
  | absent => rfl
  | node key value left right height len =>
    simp only [mirror, refresh_node, height_mirror, length_mirror, max_comm, add_right_comm]

theorem Balanced.mirror (h : t.Balanced) : t.mirror.Balanced := by
  induction t with
  | absent => trivial
  | node key value left right height len ihl ihr =>
    obtain ⟨hleft, hright, hheight, hlen, hle, hge⟩ := h
    refine ⟨ihr hright, ihl hleft, ?_, ?_, ?_, ?_⟩ <;>
      simp only [height_mirror, length_mirror] <;> omega

theorem rotateLeft_mirror (t : Link K V) : rotateLeft t.mirror = (rotateRight t).map mirror := by
  cases t with
  | absent => rfl
  | node key value left right height len =>
    cases left with
    | absent => rfl
    | node pivotKey pivotValue left middle pivotHeight pivotLen =>
      simp only [mirror, rotateLeft, rotateRight, Option.map_some, ← refresh_mirror]

theorem rotateRight_mirror (t : Link K V) : rotateRight t.mirror = (rotateLeft t).map mirror := by
  have h := rotateLeft_mirror t.mirror
  rw [mirror_mirror] at h
  rw [h, Option.map_map, show mirror ∘ mirror = (id : Link K V → Link K V)
    from funext mirror_mirror, Option.map_id, id]

theorem straightenRight_mirror (t : Link K V) :
    straightenRight t.mirror = (straightenLeft t).map mirror := by
  cases t with
  | absent => rfl
  | node key value left right height len =>
    have hrotate := rotateRight_mirror (node key value left right height len)
    simp only [mirror, straightenRight, straightenLeft, height_mirror] at hrotate ⊢
    split
    · exact hrotate
    · rfl

theorem Joined.mirror (h : Joined left key value right t) :
    Joined right.mirror key value left.mirror t.mirror := by
  refine ⟨h.balanced.mirror, ?_, ?_, ?_, ?_⟩
  · rw [entries_mirror, h.entries]
    simp
  · simpa [max_comm] using h.le
  · simpa [max_comm] using h.ge
  · simpa [max_comm] using fun h₁ h₂ => h.eq h₂ h₁

theorem exists_rotateLeft (hleft : left.Balanced) (hright : right.Balanced)
    (hheight : right.height = left.height + 2) (key : K) (value : V) (height len : Nat) :
    ∃ child t, right.straightenRight = some child ∧
      rotateLeft (node key value left child height len) = some t ∧
      Joined left key value right t := by
  obtain ⟨child, t, hchild, ht, hjoined⟩ := exists_rotateRight hright.mirror hleft.mirror
    (by simpa using hheight) key value height len
  refine ⟨child.mirror, t.mirror, ?_, ?_, by simpa using hjoined.mirror⟩
  · have := straightenRight_mirror right.mirror
    rwa [mirror_mirror, hchild] at this
  · have := rotateLeft_mirror (node key value child left.mirror height len)
    rwa [ht, mirror, mirror_mirror] at this

theorem rebalance_spec (hleft : left.Balanced) (hright : right.Balanced)
    (hle : left.height ≤ right.height + 2) (hge : right.height ≤ left.height + 2) (key : K)
    (value : V) (height len : Nat) :
    ∃ t, rebalance (node key value left right height len) = some t ∧
      Joined left key value right t := by
  rw [rebalance, refresh_node]
  dsimp only
  split_ifs with hhigh hlow
  · obtain ⟨child, t, hchild, ht, hjoined⟩ :=
      exists_rotateRight hleft hright (by omega) key value _ _
    exact ⟨t, by rw [hchild]; exact ht, hjoined⟩
  · obtain ⟨child, t, hchild, ht, hjoined⟩ :=
      exists_rotateLeft hleft hright (by omega) key value _ _
    exact ⟨t, by rw [hchild]; exact ht, hjoined⟩
  · refine ⟨_, rfl, Balanced.refresh hleft hright (by omega) (by omega) key value 0 0,
      rfl, ?_, ?_, ?_⟩
    · rw [height_node]
      omega
    · rw [height_node]
    · intro _ _
      rw [height_node]

/-! ## Writes

An insertion makes a tree one higher at most, a removal one lower at most; one bound on both sides
carries the induction, because a write changes only one child of each node it passes. -/

/-- The tree `t'` is balanced, at most one higher or lower than `t`, and holds `l`. -/
structure Near (t : Link K V) (l : List (K × V)) (t' : Link K V) : Prop where
  balanced : t'.Balanced
  entries : t'.entries = l
  le : t'.height ≤ t.height + 1
  ge : t.height ≤ t'.height + 1

theorem Near.refl (h : t.Balanced) : Near t t.entries t :=
  ⟨h, rfl, Nat.le_succ _, Nat.le_succ _⟩

theorem rebalance_near {left' right' : Link K V} {l r : List (K × V)}
    (hb : (node key value left right height len).Balanced) (hleft : Near left l left')
    (hright : Near right r right')
    (hone : left'.height = left.height ∨ right'.height = right.height) (newKey : K) (newValue : V) :
    ∃ t, rebalance (node newKey newValue left' right' height len) = some t ∧
      Near (node key value left right height len) (l ++ (newKey, newValue) :: r) t := by
  obtain ⟨_, _, hheight, _, hle, hge⟩ := hb
  obtain ⟨hlb, hl, hlle, hlge⟩ := hleft
  obtain ⟨hrb, hr, hrle, hrge⟩ := hright
  obtain ⟨t, ht, hjoined⟩ := rebalance_spec hlb hrb (by omega) (by omega) newKey newValue height len
  have hlow := hjoined.le
  have hhigh := hjoined.ge
  have hexact := hjoined.eq
  refine ⟨t, ht, hjoined.balanced, by rw [hjoined.entries, hl, hr], ?_, ?_⟩
  · rw [height_node]
    omega
  · rw [height_node]
    omega

theorem isAbsent_iff : t.isAbsent = true ↔ t = absent := by
  cases t <;> simp [isAbsent]

theorem popMin_spec (hb : t.Balanced) (hne : t ≠ absent) :
    ∃ t' key value l, t.popMin = some (t', key, value) ∧ t.entries = (key, value) :: l ∧
      Near t l t' := by
  induction t with
  | absent => exact absurd rfl hne
  | node key value left right height len ihl _ =>
    rw [popMin]
    split_ifs with habsent
    · obtain rfl := isAbsent_iff.mp habsent
      obtain ⟨_, hright, hheight, _, _, hge⟩ := hb
      rw [height_absent] at hheight hge
      exact ⟨right, key, value, _, rfl, rfl, hright, rfl,
        by rw [height_node]; omega, by rw [height_node]; omega⟩
    · obtain ⟨left', minKey, minValue, l, hpop, hentries, hnear⟩ :=
        ihl hb.1 fun h => habsent (isAbsent_iff.mpr h)
      obtain ⟨t, ht, h⟩ := rebalance_near hb hnear (.refl hb.2.1) (.inr rfl) key value
      refine ⟨t, minKey, minValue, _, ?_, ?_, h⟩
      · simp only [hpop, ht, some_bind, Option.pure_def]
      · rw [entries_node, hentries, cons_append]

theorem Balanced.near_or (hb : (node key value left right height len).Balanced)
    (h : left.isAbsent ∨ right.isAbsent) :
    Near (node key value left right height len) (left.entries ++ right.entries)
      (left.or right) := by
  obtain ⟨hleft, hright, hheight, _, hle, hge⟩ := hb
  rw [isAbsent_iff, isAbsent_iff] at h
  cases left with
  | absent =>
    rw [height_absent] at hheight hge
    exact ⟨hright, rfl, by rw [Link.or, height_node]; omega, by rw [Link.or, height_node]; omega⟩
  | node =>
    obtain rfl : right = absent := h.resolve_left nofun
    rw [height_absent] at hheight hle
    rw [height_node] at hheight hle
    exact ⟨hleft, (append_nil _).symm, by simp only [Link.or, height_node]; omega,
      by simp only [Link.or, height_node]; omega⟩

section
variable [LinearOrder K]

theorem get_eq {t : Link K V} (hs : t.entries.Pairwise fun a b => a.1 < b.1) (key : K) :
    t.get key = find key t.entries := by
  induction t with
  | absent => rfl
  | node nodeKey value left right height len ihl ihr =>
    have hsplit := SplitAt.of_sorted hs
    rw [get, entries_node]
    rcases lt_trichotomy key nodeKey with hlt | rfl | hgt
    · rw [if_pos hlt, ihl hsplit.left, hsplit.find_left hlt]
    · rw [if_neg (lt_irrefl _), if_neg (lt_irrefl _)]
      exact hsplit.find_self.symm
    · rw [if_neg hgt.asymm, if_pos hgt, ihr hsplit.right, hsplit.find_right hgt]

theorem insert_spec {t : Link K V} (hb : t.Balanced) (hs : t.entries.Pairwise fun a b => a.1 < b.1)
    (key : K) (value : V) :
    ∃ t', t.insert key value = some (t', find key t.entries) ∧
      Near t (insertEntry key value t.entries) t' := by
  induction t with
  | absent => exact ⟨_, rfl, ⟨trivial, trivial, rfl, rfl, by simp, by simp⟩, rfl, by simp, by simp⟩
  | node nodeKey nodeValue left right height len ihl ihr =>
    have hsplit := SplitAt.of_sorted hs
    rw [insert, entries_node]
    rcases lt_trichotomy key nodeKey with hlt | rfl | hgt
    · obtain ⟨left', hinsert, hnear⟩ := ihl hb.1 hsplit.left
      obtain ⟨t', ht', h⟩ := rebalance_near hb hnear (.refl hb.2.1) (.inr rfl) nodeKey nodeValue
      refine ⟨t', ?_, by rwa [insertEntry_append_left hlt]⟩
      simp only [if_pos hlt, hinsert, ht', hsplit.find_left hlt, some_bind, Option.pure_def]
    · obtain ⟨t', ht', h⟩ := rebalance_near hb (.refl hb.1) (.refl hb.2.1) (.inl rfl) key value
      refine ⟨t', ?_, by rwa [hsplit.insert_self]⟩
      simp only [lt_irrefl, if_false, ht', hsplit.find_self, some_bind, Option.pure_def]
    · obtain ⟨right', hinsert, hnear⟩ := ihr hb.2.1 hsplit.right
      obtain ⟨t', ht', h⟩ := rebalance_near hb (.refl hb.1) hnear (.inl rfl) nodeKey nodeValue
      refine ⟨t', ?_, by rwa [hsplit.insert_right hgt]⟩
      simp only [if_neg hgt.asymm, if_pos hgt, hinsert, ht', hsplit.find_right hgt, some_bind,
        Option.pure_def]

/-- Along the path to the key: the subtree stays near its old height, and `rebalance_near` restores
the balance above it. -/
theorem remove_spec {t : Link K V} (hb : t.Balanced) (hs : t.entries.Pairwise fun a b => a.1 < b.1)
    {key : K} {value : V} (hfind : find key t.entries = some value) :
    ∃ t', t.remove key = some (t', value) ∧ Near t (eraseEntry key t.entries) t' := by
  induction t with
  | absent => cases hfind
  | node nodeKey nodeValue left right height len ihl ihr =>
    have hsplit := SplitAt.of_sorted hs
    rw [entries_node] at hfind
    rw [remove, entries_node]
    rcases lt_trichotomy key nodeKey with hlt | rfl | hgt
    · rw [hsplit.find_left hlt] at hfind
      obtain ⟨left', hremove, hnear⟩ := ihl hb.1 hsplit.left hfind
      obtain ⟨t', ht', h⟩ := rebalance_near hb hnear (.refl hb.2.1) (.inr rfl) nodeKey nodeValue
      refine ⟨t', ?_, by rwa [hsplit.erase_left hlt]⟩
      simp only [if_pos hlt, hremove, ht', some_bind, Option.pure_def]
    · rw [hsplit.find_self, Option.some.injEq] at hfind
      rw [if_neg (lt_irrefl _), if_neg (lt_irrefl _), hsplit.erase_self, ← hfind]
      split_ifs with habsent
      · exact ⟨_, rfl, hb.near_or habsent⟩
      · -- two children: the least entry on the right takes the place of the removed one
        rw [not_or, isAbsent_iff, isAbsent_iff] at habsent
        obtain ⟨right', minKey, minValue, l, hpop, hentries, hnear⟩ := popMin_spec hb.2.1 habsent.2
        obtain ⟨t', ht', h⟩ := rebalance_near hb (.refl hb.1) hnear (.inl rfl) minKey minValue
        refine ⟨t', ?_, by rwa [hentries]⟩
        simp only [hpop, ht', some_bind, Option.pure_def]
    · rw [hsplit.find_right hgt] at hfind
      obtain ⟨right', hremove, hnear⟩ := ihr hb.2.1 hsplit.right hfind
      obtain ⟨t', ht', h⟩ := rebalance_near hb (.refl hb.1) hnear (.inl rfl) nodeKey nodeValue
      refine ⟨t', ?_, by rwa [hsplit.erase_right hgt]⟩
      simp only [if_neg hgt.asymm, if_pos hgt, hremove, ht', some_bind, Option.pure_def]

theorem getMut_spec {t : Link K V} (hb : t.Balanced) (hs : t.entries.Pairwise fun a b => a.1 < b.1)
    {key : K} {value : V} (hfind : find key t.entries = some value) (write : V → V) :
    ∃ t', t.getMut key write = some t' ∧ t'.Balanced ∧
      t'.entries = insertEntry key (write value) t.entries ∧
      t'.height = t.height ∧ t'.length = t.length := by
  induction t with
  | absent => cases hfind
  | node nodeKey nodeValue left right height len ihl ihr =>
    obtain ⟨hleft, hright, hheight, hlen, hle, hge⟩ := hb
    have hsplit := SplitAt.of_sorted hs
    rw [entries_node] at hfind
    rw [getMut, entries_node]
    rcases lt_trichotomy key nodeKey with hlt | rfl | hgt
    · rw [hsplit.find_left hlt] at hfind
      obtain ⟨left', hwrite, hleft', hentries, hheight', hlength'⟩ := ihl hleft hsplit.left hfind
      refine ⟨node nodeKey nodeValue left' right height len, by rw [if_pos hlt, hwrite]; rfl,
        ⟨hleft', hright, ?_⟩, ?_, rfl, rfl⟩
      · rw [hheight', hlength']
        exact ⟨hheight, hlen, hle, hge⟩
      · rw [entries_node, hentries, insertEntry_append_left hlt]
    · rw [hsplit.find_self, Option.some.injEq] at hfind
      refine ⟨node key (write nodeValue) left right height len,
        by rw [if_neg (lt_irrefl _), if_neg (lt_irrefl _)],
        ⟨hleft, hright, hheight, hlen, hle, hge⟩, ?_, rfl, rfl⟩
      rw [entries_node, hsplit.insert_self, ← hfind]
    · rw [hsplit.find_right hgt] at hfind
      obtain ⟨right', hwrite, hright', hentries, hheight', hlength'⟩ :=
        ihr hright hsplit.right hfind
      refine ⟨node nodeKey nodeValue left right' height len,
        by rw [if_neg hgt.asymm, if_pos hgt, hwrite]; rfl, ⟨hleft, hright', ?_⟩, ?_, rfl, rfl⟩
      · rw [hheight', hlength']
        exact ⟨hheight, hlen, hle, hge⟩
      · rw [entries_node, hentries, hsplit.insert_right hgt]

end

/-! ## Trees of a given size -/

theorem size_of_pos {n : Nat} (h : 0 < n) : n.size = (n / 2).size + 1 := by
  have hbit := Nat.bit_bodd_div2 n
  have hsize := Nat.size_bit (b := n.bodd) (n := n.div2) (by omega)
  rwa [hbit, Nat.div2_val] at hsize

theorem size_succ_le (n : Nat) : (n + 1).size ≤ n.size + 1 := by
  have hlt := Nat.lt_size_self n
  rw [Nat.size_le, pow_succ]
  omega

/-- The two sides of a built node differ by at most one entry, so their heights do too. -/
theorem build_spec (items : List (K × V)) (h : len ≤ items.length) :
    ∃ t, build items len = some (t, items.drop len) ∧ t.Balanced ∧ t.entries = items.take len ∧
      t.height = len.size := by
  induction len using Nat.strong_induction_on generalizing items with
  | _ len ih =>
    rw [build]
    split_ifs with hzero
    · subst hzero
      exact ⟨absent, rfl, trivial, rfl, Nat.size_zero.symm⟩
    · obtain ⟨left, hleft, hlb, hle, hlh⟩ := ih (len / 2) (by omega) items (by omega)
      have hlt : len / 2 < items.length := by omega
      have hsplit : items.drop (len / 2) = items[len / 2] :: items.drop (len / 2 + 1) :=
        drop_eq_getElem_cons hlt
      obtain ⟨right, hright, hrb, hre, hrh⟩ := ih (len - len / 2 - 1) (by omega)
        (items.drop (len / 2 + 1)) (by rw [length_drop]; omega)
      have hlow : (len - len / 2 - 1).size ≤ (len / 2).size := Nat.size_le_size (by omega)
      have hhigh : (len / 2).size ≤ (len - len / 2 - 1).size + 1 :=
        (Nat.size_le_size (by omega)).trans (size_succ_le _)
      refine ⟨refresh (node items[len / 2].1 items[len / 2].2 left right 0 0), ?_,
        Balanced.refresh hlb hrb (by omega) (by omega) _ _ _ _, ?_, ?_⟩
      · simp only [hleft, hsplit, hright, some_bind, Option.pure_def, drop_drop]
        congr 3
        omega
      · rw [refresh_node, entries_node, hle, hre]
        have htake : items.take len = items.take (len / 2 + (1 + (len - len / 2 - 1))) := by
          congr 1
          omega
        rw [htake, take_add, hsplit, Nat.add_comm 1, take_succ_cons]
      · rw [refresh_node, height_node, size_of_pos (by omega : 0 < len)]
        omega

/-- A tree of height `h` has at least `2 ^ (h / 2) - 1` nodes: both sides of a node are at most two
lower than the node. -/
theorem Balanced.two_pow_le (h : t.Balanced) : 2 ^ (t.height / 2) ≤ t.length + 1 := by
  induction t with
  | absent => simp
  | node key value left right height len ihl ihr =>
    obtain ⟨hleft, hright, hheight, hlen, hle, hge⟩ := h
    rw [height_node, length_node, hlen]
    rcases Nat.lt_or_ge height 2 with hsmall | hlarge
    · rw [Nat.div_eq_of_lt hsmall]
      omega
    · have hl : 2 ^ ((height - 2) / 2) ≤ left.length + 1 :=
        (Nat.pow_le_pow_right Nat.two_pos (by omega)).trans (ihl hleft)
      have hr : 2 ^ ((height - 2) / 2) ≤ right.length + 1 :=
        (Nat.pow_le_pow_right Nat.two_pos (by omega)).trans (ihr hright)
      rw [show height / 2 = (height - 2) / 2 + 1 by omega, pow_succ]
      omega

/-- The `u16` of the height does not overflow while the size fits its `usize`. -/
theorem Balanced.height_lt (h : t.Balanced) (hlen : t.length < 2 ^ 64) : t.height < 2 ^ 16 := by
  have hpow : 2 ^ (t.height / 2) ≤ 2 ^ 64 := h.two_pow_le.trans hlen
  have hle := (Nat.pow_le_pow_iff_right Nat.one_lt_two).mp hpow
  omega

end Link

end Xparq
