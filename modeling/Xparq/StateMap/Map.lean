import Xparq.StateMap.Tree
import Xparq.Borsh

/-!
# State maps

`StateMap` over the tree: iteration with a stack of nodes, writes, equality, and the Borsh codec. A
map stands for the `OrderedMap` with the same entries; `MapCommand.runAll_represents` says that this
stays so over every sequence of commands on any number of live maps, clones among them, and what
each of them then answers.
-/

namespace Xparq

open OrderedMap Machine Outcome Reader List

variable {K V : Type}

/-! ## Iteration -/

namespace Link

/-- `push_left`; the top of the stack is the head of the list. -/
def pushLeft : Link K V → List (Link K V) → List (Link K V)
  | absent, stack => stack
  | node key value left right height len, stack =>
    left.pushLeft (node key value left right height len :: stack)

/-- The loop of `iter_from`. -/
def seek [LinearOrder K] (bound : K) : Link K V → List (Link K V) → List (Link K V)
  | absent, stack => stack
  | node key value left right height len, stack =>
    if key < bound then right.seek bound stack
    else left.seek bound (node key value left right height len :: stack)

/-- The common part of both `next`: the top node gives its entry and makes room for its right side.
-/
def popNode : List (Link K V) → Option ((K × V) × List (Link K V))
  | node key value _ right _ _ :: stack => some ((key, value), right.pushLeft stack)
  | _ => none

/-- What a stack has still to give. -/
def pending : List (Link K V) → List (K × V)
  | node key value _ right _ _ :: stack => (key, value) :: (right.entries ++ pending stack)
  | _ => []

theorem pending_pushLeft (t : Link K V) (stack : List (Link K V)) :
    pending (t.pushLeft stack) = t.entries ++ pending stack := by
  induction t generalizing stack with
  | absent => rfl
  | node key value left right height len ihl _ =>
    rw [pushLeft, ihl, pending, entries_node, append_assoc, cons_append]

theorem pending_seek [LinearOrder K] {t : Link K V} (hs : t.entries.Pairwise fun a b => a.1 < b.1)
    (bound : K) (stack : List (Link K V)) :
    pending (t.seek bound stack) = (t.entries.filter fun e => bound ≤ e.1) ++ pending stack := by
  induction t generalizing stack with
  | absent => rfl
  | node key value left right height len ihl ihr =>
    have hsplit := SplitAt.of_sorted hs
    rw [seek, entries_node, filter_append]
    split_ifs with hlt
    · -- everything on the left is below the bound as well
      have hleft : (left.entries.filter fun e => bound ≤ e.1) = [] :=
        filter_eq_nil_iff.mpr fun e he => by simpa using (hsplit.below e he).trans hlt
      rw [ihr hsplit.right, hleft, filter_cons_of_neg (by simpa using hlt), nil_append]
    · have hle := not_lt.mp hlt
      have hright : (right.entries.filter fun e => bound ≤ e.1) = right.entries :=
        filter_eq_self.mpr fun e he => by simpa using hle.trans (hsplit.above e he).le
      rw [ihl hsplit.left, pending, filter_cons_of_pos (by simpa using hle), hright, append_assoc,
        cons_append]

theorem pending_of_popNode {stack stack' : List (Link K V)} {e : K × V}
    (h : popNode stack = some (e, stack')) : pending stack = e :: pending stack' := by
  unfold popNode at h
  split at h
  · rw [Option.some.injEq, Prod.mk.injEq] at h
    obtain ⟨rfl, rfl⟩ := h
    rw [pending, pending_pushLeft]
  · cases h

theorem pending_of_popNode_none {stack : List (Link K V)} (h : popNode stack = none) :
    pending stack = [] := by
  unfold popNode at h
  split at h
  · cases h
  · rename_i hstack
    unfold pending
    split
    · exact absurd rfl (hstack _ _ _ _ _ _ _)
    · rfl

end Link

structure Iter (K V : Type) where
  stack : List (Link K V)
  remaining : Nat

def Iter.next (it : Iter K V) : Option ((K × V) × Iter K V) :=
  (Link.popNode it.stack).map fun popped => (popped.1, ⟨popped.2, it.remaining - 1⟩)

structure IterFrom (K V : Type) where
  stack : List (Link K V)

def IterFrom.next (it : IterFrom K V) : Option ((K × V) × IterFrom K V) :=
  (Link.popNode it.stack).map fun popped => (popped.1, ⟨popped.2⟩)

theorem Iter.pending_of_next {it it' : Iter K V} {e : K × V} (h : it.next = some (e, it')) :
    Link.pending it.stack = e :: Link.pending it'.stack := by
  rw [next, Option.map_eq_some_iff] at h
  obtain ⟨⟨e', stack⟩, hpop, heq⟩ := h
  cases heq
  exact Link.pending_of_popNode hpop

theorem IterFrom.pending_of_next {it it' : IterFrom K V} {e : K × V} (h : it.next = some (e, it')) :
    Link.pending it.stack = e :: Link.pending it'.stack := by
  rw [next, Option.map_eq_some_iff] at h
  obtain ⟨⟨e', stack⟩, hpop, heq⟩ := h
  cases heq
  exact Link.pending_of_popNode hpop

/-- A loop over the iterator to its end. -/
def Iter.collect (it : Iter K V) : List (K × V) :=
  match _hnext : it.next with
  | none => []
  | some (e, it') => e :: it'.collect
termination_by (Link.pending it.stack).length
decreasing_by
  rw [Iter.pending_of_next _hnext]
  exact Nat.lt_succ_self _

def IterFrom.collect (it : IterFrom K V) : List (K × V) :=
  match _hnext : it.next with
  | none => []
  | some (e, it') => e :: it'.collect
termination_by (Link.pending it.stack).length
decreasing_by
  rw [IterFrom.pending_of_next _hnext]
  exact Nat.lt_succ_self _

theorem Iter.collect_eq (it : Iter K V) : it.collect = Link.pending it.stack := by
  fun_induction Iter.collect it with
  | case1 it h =>
    rw [next, Option.map_eq_none_iff] at h
    rw [Link.pending_of_popNode_none h]
  | case2 it e it' h ih => rw [ih, pending_of_next h]

theorem IterFrom.collect_eq (it : IterFrom K V) : it.collect = Link.pending it.stack := by
  fun_induction IterFrom.collect it with
  | case1 it h =>
    rw [next, Option.map_eq_none_iff] at h
    rw [Link.pending_of_popNode_none h]
  | case2 it e it' h ih => rw [ih, pending_of_next h]

/-! ## The map -/

structure StateMap (K V : Type) where
  root : Link K V
  deriving DecidableEq

namespace StateMap

def default : StateMap K V := ⟨.absent⟩

def len (s : StateMap K V) : Nat := s.root.length

def isEmpty (s : StateMap K V) : Bool := s.root.isAbsent

def clear (_ : StateMap K V) : StateMap K V := ⟨.absent⟩

def iter (s : StateMap K V) : Iter K V := ⟨s.root.pushLeft [], s.len⟩

/-- `From<BTreeMap>`. -/
def ofMap [LinearOrder K] (m : OrderedMap K V) : Option (StateMap K V) :=
  (Link.build m.entries m.length).map fun built => ⟨built.1⟩

/-- `PartialEq`; two maps of one address are equal without a look at their entries. -/
def eq [DecidableEq K] [DecidableEq V] (sameAddress : Bool) (s t : StateMap K V) : Bool :=
  sameAddress || (s.len == t.len && s.iter.collect == t.iter.collect)

def serialize (encode : K × V → Option (List Byte)) (s : StateMap K V) : Option (List Byte) := do
  let count ← encodeLen s.len
  let items ← s.iter.collect.mapM encode
  return count ++ items.flatten

variable [LinearOrder K]

def iterFrom (s : StateMap K V) (bound : K) : IterFrom K V := ⟨s.root.seek bound []⟩

def get (s : StateMap K V) (key : K) : Option V := s.root.get key

def containsKey (s : StateMap K V) (key : K) : Bool := (s.get key).isSome

def insert (s : StateMap K V) (key : K) (value : V) : Option (StateMap K V × Option V) := do
  let (root, previous) ← s.root.insert key value
  return (⟨root⟩, previous)

/-- A missing key leaves the map as it is. -/
def remove (s : StateMap K V) (key : K) : Option (StateMap K V × Option V) :=
  match s.get key with
  | none => some (s, none)
  | some _ => do
    let (root, previous) ← s.root.remove key
    return (⟨root⟩, some previous)

/-- The value found, and the map after the caller's write through the reference. -/
def getMut (s : StateMap K V) (key : K) (write : V → V) : Option (StateMap K V × Option V) :=
  match s.get key with
  | none => some (s, none)
  | some value => do
    let root ← s.root.getMut key write
    return (⟨root⟩, some value)

/-- `entry(key).or_default()`. -/
def orDefault [Inhabited V] (s : StateMap K V) (key : K) (write : V → V) :
    Option (StateMap K V × Option V) := do
  let s ← if s.containsKey key then some s else (s.insert key Inhabited.default).map Prod.fst
  let (s, value) ← s.getMut key write
  let value ← value
  return (s, some value)

/-! ## What a map stands for -/

/-- A balanced tree with the entries of `m`. -/
structure Represents (s : StateMap K V) (m : OrderedMap K V) : Prop where
  balanced : s.root.Balanced
  entries : s.root.entries = m.entries

namespace Represents

variable {s : StateMap K V} {m : OrderedMap K V}

theorem sorted (h : Represents s m) : s.root.entries.Pairwise fun a b => a.1 < b.1 := by
  rw [h.entries]
  exact m.sorted

theorem default_empty : Represents (default : StateMap K V) ∅ := ⟨trivial, rfl⟩

theorem get_eq (h : Represents s m) (key : K) : s.get key = m.get? key := by
  rw [StateMap.get, Link.get_eq h.sorted, h.entries]
  rfl

theorem len_eq (h : Represents s m) : s.len = m.length := by
  rw [len, h.balanced.length_eq, h.entries]
  rfl

theorem isEmpty_eq (h : Represents s m) : s.isEmpty = m.isEmpty := by
  rw [isEmpty, OrderedMap.isEmpty, ← h.entries]
  cases s.root with
  | absent => rfl
  | node => simp [Link.isAbsent]

theorem iter_eq (h : Represents s m) : s.iter.collect = m.entries := by
  rw [Iter.collect_eq, iter, Link.pending_pushLeft, h.entries]
  exact append_nil _

theorem iterFrom_eq (h : Represents s m) (bound : K) :
    (s.iterFrom bound).collect = m.iterFrom bound := by
  rw [IterFrom.collect_eq, iterFrom, Link.pending_seek h.sorted, h.entries]
  exact append_nil _

theorem serialize_eq (h : Represents s m) (encode : K × V → Option (List Byte)) :
    s.serialize encode = encodeVec encode m.entries := by
  rw [serialize, encodeVec, h.len_eq, h.iter_eq]
  rfl

theorem eq_iff [DecidableEq V] {s' : StateMap K V} {m' : OrderedMap K V} (h : Represents s m)
    (h' : Represents s' m') {sameAddress : Bool} (hsame : sameAddress = true → s.root = s'.root) :
    StateMap.eq sameAddress s s' = true ↔ m = m' := by
  rw [StateMap.eq, Bool.or_eq_true, Bool.and_eq_true, beq_iff_eq, beq_iff_eq, h.len_eq,
    h'.len_eq, h.iter_eq, h'.iter_eq]
  constructor
  · rintro (haddress | ⟨_, hentries⟩)
    · apply entries_injective
      rw [← h.entries, ← h'.entries, hsame haddress]
    · exact entries_injective hentries
  · rintro rfl
    exact Or.inr ⟨rfl, rfl⟩

/-! ## What the writes do -/

theorem ofMap_exists (m : OrderedMap K V) : ∃ s, ofMap m = some s ∧ Represents s m := by
  obtain ⟨t, ht, hbalanced, hentries, _⟩ := Link.build_spec m.entries (le_refl m.entries.length)
  refine ⟨⟨t⟩, ?_, hbalanced, by rw [hentries, take_length]⟩
  rw [ofMap, OrderedMap.length, ht]
  rfl

theorem insert_exists (h : Represents s m) (key : K) (value : V) :
    ∃ s', s.insert key value = some (s', m.get? key) ∧ Represents s' (m.insert key value) := by
  obtain ⟨t, ht, hgrown⟩ := Link.insert_spec h.balanced h.sorted key value
  rw [h.entries] at ht hgrown
  refine ⟨⟨t⟩, ?_, hgrown.balanced, hgrown.entries⟩
  rw [StateMap.insert, ht]
  rfl

theorem remove_exists (h : Represents s m) (key : K) :
    ∃ s', s.remove key = some (s', m.get? key) ∧ Represents s' (m.erase key) := by
  rw [remove, h.get_eq]
  cases hget : m.get? key with
  | none => exact ⟨s, rfl, by rwa [erase_of_get?_none hget]⟩
  | some value =>
    obtain ⟨t, ht, hshrunk⟩ := Link.remove_spec h.balanced h.sorted (by rw [h.entries]; exact hget)
    rw [h.entries] at hshrunk
    refine ⟨⟨t⟩, ?_, hshrunk.balanced, hshrunk.entries⟩
    simp only [ht]
    rfl

theorem getMut_exists (h : Represents s m) (key : K) (write : V → V) :
    ∃ s', s.getMut key write = some (s', m.get? key) ∧
      Represents s' (m.put key ((m.get? key).map write)) := by
  rw [getMut, h.get_eq]
  cases hget : m.get? key with
  | none => exact ⟨s, rfl, by rwa [Option.map_none, put, erase_of_get?_none hget]⟩
  | some value =>
    obtain ⟨t, ht, hbalanced, hentries, _⟩ :=
      Link.getMut_spec h.balanced h.sorted (by rw [h.entries]; exact hget) write
    rw [h.entries] at hentries
    refine ⟨⟨t⟩, ?_, hbalanced, hentries⟩
    simp only [ht]
    rfl

theorem orDefault_exists [Inhabited V] (h : Represents s m) (key : K) (write : V → V) :
    ∃ s', s.orDefault key write = some (s', some ((m.get? key).getD Inhabited.default)) ∧
      Represents s' (m.insert key (write ((m.get? key).getD Inhabited.default))) := by
  rw [orDefault, containsKey, h.get_eq]
  cases hget : m.get? key with
  | none =>
    obtain ⟨s₁, hinsert, h₁⟩ := h.insert_exists key Inhabited.default
    obtain ⟨s₂, hwrite, h₂⟩ := h₁.getMut_exists key write
    rw [get?_insert_self] at hwrite h₂
    refine ⟨s₂, ?_, ?_⟩
    · simp [hinsert, hwrite]
    · rwa [Option.map_some, put, insert_insert] at h₂
  | some value =>
    obtain ⟨s', hwrite, h'⟩ := h.getMut_exists key write
    rw [hget] at hwrite h'
    refine ⟨s', ?_, h'⟩
    simp [hwrite]

end Represents

end StateMap

/-! ## Commands

Any number of maps are live; a clone is a new one. -/

/-- A write on one map. `getMut` and `orDefault` come with what is done through the reference. -/
inductive MapOp (K V : Type)
  | insert (key : K) (value : V)
  | remove (key : K)
  | getMut (key : K) (write : V → V)
  | orDefault (key : K) (write : V → V)
  | clear

inductive MapCommand (K V : Type) [LinearOrder K]
  | create
  | convert (m : OrderedMap K V)
  | decode (bytes : List Byte)
  | clone (source : Nat)
  | on (target : Nat) (op : MapOp K V)

variable [LinearOrder K] [Inhabited V]

def MapOp.run (s : StateMap K V) : MapOp K V → Option (StateMap K V × Option V)
  | insert key value => s.insert key value
  | remove key => s.remove key
  | getMut key write => s.getMut key write
  | orDefault key write => s.orDefault key write
  | clear => some (s.clear, none)

/-- The write on a sorted map. -/
def MapOp.apply (m : OrderedMap K V) : MapOp K V → OrderedMap K V × Option V
  | insert key value => (m.insert key value, m.get? key)
  | remove key => (m.erase key, m.get? key)
  | getMut key write => (m.put key ((m.get? key).map write), m.get? key)
  | orDefault key write =>
    (m.insert key (write ((m.get? key).getD default)), some ((m.get? key).getD default))
  | clear => (∅, none)

theorem MapOp.run_represents {s : StateMap K V} {m : OrderedMap K V} (h : s.Represents m)
    (op : MapOp K V) :
    ∃ s', op.run s = some (s', (op.apply m).2) ∧ s'.Represents (op.apply m).1 := by
  cases op with
  | insert key value => exact h.insert_exists key value
  | remove key => exact h.remove_exists key
  | getMut key write => exact h.getMut_exists key write
  | orDefault key write => exact h.orDefault_exists key write
  | clear => exact ⟨_, rfl, .default_empty⟩

namespace MapCommand

/-- The live maps after a command and what it answers; `none` is a panic. A refused decoding and a
command on a map that does not exist change nothing. -/
def run (readEntry : Reader Byte (K × V)) (live : List (StateMap K V)) :
    MapCommand K V → Option (List (StateMap K V) × Option V)
  | create => some (live ++ [.default], none)
  | convert m => do
    let s ← StateMap.ofMap m
    return (live ++ [s], none)
  | decode bytes =>
    match readMap readEntry bytes with
    | none => some (live, none)
    | some (m, _) => do
      let s ← StateMap.ofMap m
      return (live ++ [s], none)
  | clone source => some (live ++ live[source]?.toList, none)
  | on target op =>
    match live[target]? with
    | none => some (live, none)
    | some s => do
      let (s, answer) ← op.run s
      return (live.set target s, answer)

/-- The same on sorted maps. -/
def apply (readEntry : Reader Byte (K × V)) (live : List (OrderedMap K V)) :
    MapCommand K V → List (OrderedMap K V) × Option V
  | create => (live ++ [∅], none)
  | convert m => (live ++ [m], none)
  | decode bytes =>
    match readMap readEntry bytes with
    | none => (live, none)
    | some (m, _) => (live ++ [m], none)
  | clone source => (live ++ live[source]?.toList, none)
  | on target op =>
    match live[target]? with
    | none => (live, none)
    | some m => (live.set target (op.apply m).1, (op.apply m).2)

def runAll (readEntry : Reader Byte (K × V)) :
    List (MapCommand K V) → List (StateMap K V) → Option (List (StateMap K V) × List (Option V))
  | [], live => some (live, [])
  | command :: commands, live => do
    let (live, answer) ← command.run readEntry live
    let (live, answers) ← runAll readEntry commands live
    return (live, answer :: answers)

def applyAll (readEntry : Reader Byte (K × V)) :
    List (MapCommand K V) → List (OrderedMap K V) → List (OrderedMap K V) × List (Option V)
  | [], live => (live, [])
  | command :: commands, live =>
    let (live, answer) := command.apply readEntry live
    let (live, answers) := applyAll readEntry commands live
    (live, answer :: answers)

variable {readEntry : Reader Byte (K × V)} {live : List (StateMap K V)}
  {maps : List (OrderedMap K V)}

/-- Every live map stands for the sorted map at its place. -/
def Live (live : List (StateMap K V)) (maps : List (OrderedMap K V)) : Prop :=
  live.length = maps.length ∧
    ∀ (i : Nat) (s : StateMap K V) (m : OrderedMap K V), live[i]? = some s → maps[i]? = some m →
      s.Represents m

omit [Inhabited V] in
theorem Live.getElem? (h : Live live maps) (i : Nat) :
    (live[i]? = none ∧ maps[i]? = none) ∨
      ∃ s m, live[i]? = some s ∧ maps[i]? = some m ∧ s.Represents m := by
  rcases Nat.lt_or_ge i live.length with hlt | hge
  · have hs := getElem?_eq_getElem hlt
    have hm := getElem?_eq_getElem (h.1 ▸ hlt)
    exact Or.inr ⟨_, _, hs, hm, h.2 i _ _ hs hm⟩
  · exact Or.inl ⟨getElem?_eq_none hge, getElem?_eq_none (h.1 ▸ hge)⟩

variable {s : StateMap K V} {m : OrderedMap K V}

omit [Inhabited V] in
theorem Live.append (h : Live live maps) (hs : s.Represents m) :
    Live (live ++ [s]) (maps ++ [m]) := by
  refine ⟨by simp [h.1], fun i s' m' hs' hm' => ?_⟩
  rw [getElem?_append] at hs' hm'
  rw [h.1] at hs'
  split_ifs at hs' hm' with hlt
  · exact h.2 i s' m' hs' hm'
  · rw [getElem?_singleton, Option.ite_none_right_eq_some, Option.some.injEq] at hs' hm'
    rw [← hs'.2, ← hm'.2]
    exact hs

omit [Inhabited V] in
theorem Live.set (h : Live live maps) (hs : s.Represents m)
    (target : Nat) : Live (live.set target s) (maps.set target m) := by
  refine ⟨by simp [h.1], fun i s' m' hs' hm' => ?_⟩
  rw [getElem?_set] at hs' hm'
  rw [h.1] at hs'
  split_ifs at hs' hm' with heq hlt
  · rw [Option.some.injEq] at hs' hm'
    rw [← hs', ← hm']
    exact hs
  · exact h.2 i s' m' hs' hm'

theorem run_represents (h : Live live maps) (command : MapCommand K V) :
    ∃ live', command.run readEntry live = some (live', (command.apply readEntry maps).2) ∧
      Live live' (command.apply readEntry maps).1 := by
  cases command with
  | create => exact ⟨_, rfl, h.append .default_empty⟩
  | convert m =>
    obtain ⟨s, hs, hrep⟩ := StateMap.Represents.ofMap_exists m
    refine ⟨live ++ [s], ?_, h.append hrep⟩
    rw [run, hs]
    rfl
  | decode bytes =>
    rw [run, apply]
    cases hread : readMap readEntry bytes with
    | none => exact ⟨live, rfl, h⟩
    | some decoded =>
      obtain ⟨s, hs, hrep⟩ := StateMap.Represents.ofMap_exists decoded.1
      refine ⟨live ++ [s], ?_, h.append hrep⟩
      simp only [hs]
      rfl
  | clone source =>
    refine ⟨_, rfl, ?_⟩
    rw [apply]
    rcases h.getElem? source with ⟨hs, hm⟩ | ⟨s, m, hs, hm, hrep⟩
    · rw [hs, hm]
      simpa using h
    · rw [hs, hm]
      exact h.append hrep
  | on target op =>
    rw [run, apply]
    rcases h.getElem? target with ⟨hs, hm⟩ | ⟨s, m, hs, hm, hrep⟩
    · rw [hs, hm]
      exact ⟨live, rfl, h⟩
    · obtain ⟨s', hrun, hrep'⟩ := op.run_represents hrep
      rw [hs, hm]
      refine ⟨live.set target s', ?_, h.set hrep' target⟩
      simp only [hrun]
      rfl

/-- Command by command, each live map keeps representing the sorted map beside it. -/
theorem runAll_represents (h : Live live maps) (commands : List (MapCommand K V)) :
    ∃ live', runAll readEntry commands live = some (live', (applyAll readEntry commands maps).2) ∧
      Live live' (applyAll readEntry commands maps).1 := by
  induction commands generalizing live maps with
  | nil => exact ⟨live, rfl, h⟩
  | cons command commands ih =>
    obtain ⟨live₁, hrun, h₁⟩ := run_represents h command
    obtain ⟨live₂, hruns, h₂⟩ := ih h₁
    refine ⟨live₂, ?_, h₂⟩
    rw [runAll, hrun]
    simp only [some_bind, hruns]
    rfl

/-- What can be seen of the tree `s`, compared with the sorted map `m`. -/
structure Observed (s : StateMap K V) (m : OrderedMap K V) : Prop where
  balanced : s.root.Balanced
  entries : s.root.entries = m.entries
  height_lt : s.len < 2 ^ 64 → s.root.height < 2 ^ 16
  get_eq : ∀ key, s.get key = m.get? key
  len_eq : s.len = m.length
  isEmpty_eq : s.isEmpty = m.isEmpty
  iter_eq : s.iter.collect = m.entries
  iterFrom_eq : ∀ bound, (s.iterFrom bound).collect = m.entries.filter fun e => bound ≤ e.1
  serialize_eq : ∀ encode, s.serialize encode = encodeVec encode m.entries

/-- Over every sequence of commands no write fails, and every live map is seen as the sorted map
that the same commands give. -/
theorem runAll_observed [DecidableEq V] (readEntry : Reader Byte (K × V))
    (commands : List (MapCommand K V)) :
    ∃ live, runAll readEntry commands [] = some (live, (applyAll readEntry commands []).2) ∧
      live.length = (applyAll readEntry commands []).1.length ∧
      (∀ (i : Nat) (s : StateMap K V) (m : OrderedMap K V), live[i]? = some s →
        (applyAll readEntry commands []).1[i]? = some m → Observed s m) ∧
      ∀ (i j : Nat) (s s' : StateMap K V) (m m' : OrderedMap K V) (sameAddress : Bool),
        live[i]? = some s → (applyAll readEntry commands []).1[i]? = some m →
        live[j]? = some s' → (applyAll readEntry commands []).1[j]? = some m' →
        (sameAddress = true → s.root = s'.root) →
        (StateMap.eq sameAddress s s' = true ↔ m = m') := by
  have hstart : Live ([] : List (StateMap K V)) [] := ⟨rfl, fun i s m h => nomatch h⟩
  obtain ⟨live, hrun, hlength, hlive⟩ := runAll_represents hstart commands
  refine ⟨live, hrun, hlength, ?_, ?_⟩
  · intro i s m hs hm
    have h := hlive i s m hs hm
    exact ⟨h.balanced, h.entries, h.balanced.height_lt, h.get_eq, h.len_eq, h.isEmpty_eq, h.iter_eq,
      h.iterFrom_eq, h.serialize_eq⟩
  · intro i j s s' m m' sameAddress hs hm hs' hm' hsame
    exact (hlive i s m hs hm).eq_iff (hlive j s' m' hs' hm') hsame

end MapCommand

end Xparq
