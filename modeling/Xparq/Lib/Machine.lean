import Mathlib.Data.Fin.Basic
import Mathlib.Data.List.Basic
import Mathlib.Data.ZMod.Defs
import Mathlib.Tactic.Common
import Mathlib.Tactic.Ring

/-!
# Fixed-width numbers and their bytes

Machine integers are `Fin` types with checked arithmetic: an addition that does not fit and
a subtraction below zero have no result. `leBytes w n` is the little-endian encoding of `n`
in `w` bytes; it is injective on the numbers that fit (`leBytes_injective`).
-/

abbrev Byte := Fin 256
abbrev U16 := Fin (2 ^ 16)
abbrev U32 := Fin (2 ^ 32)
abbrev U64 := Fin (2 ^ 64)
abbrev U128 := Fin (2 ^ 128)
abbrev U256 := Fin (2 ^ 256)

namespace Machine

open List

instance neZero_byte : NeZero 256 := ⟨by decide⟩
instance neZero_u16 : NeZero (2 ^ 16) := ⟨by decide⟩
instance neZero_u32 : NeZero (2 ^ 32) := ⟨by decide⟩
instance neZero_u64 : NeZero (2 ^ 64) := ⟨by decide⟩
instance neZero_u128 : NeZero (2 ^ 128) := ⟨by decide⟩
instance neZero_u256 : NeZero (2 ^ 256) := ⟨by decide⟩

theorem u32_le_u64 : 2 ^ 32 ≤ 2 ^ 64 := by decide

theorem maxU64_lt : 2 ^ 64 - 1 < 2 ^ 64 := by decide

theorem lt_u128 (a : U64) : a.val < 2 ^ 128 := lt_trans a.isLt (by decide)

variable {n : Nat}

/-- The sum, when it fits. -/
def checkedAdd (a b : Fin n) : Option (Fin n) :=
  if h : a.val + b.val < n then some ⟨a.val + b.val, h⟩ else none

/-- The difference, when it is not negative. -/
def checkedSub (a b : Fin n) : Option (Fin n) :=
  if b ≤ a then some ⟨a.val - b.val, Nat.lt_of_le_of_lt (Nat.sub_le _ _) a.isLt⟩ else none

/-- The product, when it fits. -/
def checkedMul (a b : Fin n) : Option (Fin n) :=
  if h : a.val * b.val < n then some ⟨a.val * b.val, h⟩ else none

/-- A natural number as a machine integer, when it fits. -/
def ofNat? (n v : Nat) : Option (Fin n) := if h : v < n then some ⟨v, h⟩ else none

variable {c a b : Fin n} {v : Nat}

@[simp] theorem ofNat?_eq_some : ofNat? n v = some c ↔ c.val = v := by
  unfold ofNat?
  split
  · simp only [Option.some.injEq]
    constructor
    · rintro rfl
      rfl
    · intro h
      exact Fin.ext h.symm
  · constructor
    · intro h
      cases h
    · intro h
      exact absurd (h ▸ c.isLt) ‹_›

@[simp] theorem checkedAdd_eq_some : checkedAdd a b = some c ↔ c.val = a.val + b.val :=
  ofNat?_eq_some

@[simp] theorem checkedSub_eq_some :
    checkedSub a b = some c ↔ c.val + b.val = a.val := by
  unfold checkedSub
  split
  · rename_i h
    have hle : b.val ≤ a.val := h
    simp only [Option.some.injEq]
    constructor
    · rintro rfl
      simp only
      omega
    · intro hc
      apply Fin.ext
      simp only
      omega
  · rename_i h
    have hlt : a.val < b.val := Nat.lt_of_not_le h
    constructor
    · intro h
      cases h
    · intro hc
      omega

@[simp] theorem checkedMul_eq_some : checkedMul a b = some c ↔ c.val = a.val * b.val :=
  ofNat?_eq_some

theorem foldlM_checkedAdd {amounts : List (Fin n)} {total : Fin n} :
    amounts.foldlM checkedAdd total = some c ↔ c.val = total.val + (amounts.map Fin.val).sum := by
  induction amounts generalizing total with
  | nil => simp [eq_comm, Fin.ext_iff]
  | cons a rest ih =>
    rw [foldlM_cons, map_cons, sum_cons]
    cases h : checkedAdd total a with
    | none =>
      simp only [Option.bind_eq_bind, Option.bind_none, reduceCtorEq, false_iff]
      intro hc
      have hlt : total.val + a.val < n := by have := c.isLt; omega
      rw [checkedAdd, dif_pos hlt] at h
      cases h
    | some sum =>
      rw [checkedAdd_eq_some] at h
      rw [Option.bind_eq_bind, Option.bind_some, ih, h, add_assoc]

/-- The sum, or the largest number when it does not fit. -/
def saturatingAdd (a b : Fin n) : Fin n := (checkedAdd a b).getD ⟨n - 1, by have := a.isLt; omega⟩

theorem val_saturatingAdd (a b : Fin n) :
    (saturatingAdd a b).val = min (a.val + b.val) (n - 1) := by
  unfold saturatingAdd checkedAdd
  split
  · rw [Option.getD_some]
    simp only
    omega
  · rw [Option.getD_none]
    simp only
    omega

theorem saturatingAdd_zero [NeZero n] (a : Fin n) : saturatingAdd a 0 = a := by
  apply Fin.ext
  have := a.isLt
  rw [val_saturatingAdd, Fin.val_zero]
  omega

theorem val_foldl_saturatingAdd (amounts : List (Fin n)) (total : Fin n) :
    (amounts.foldl saturatingAdd total).val = min (total.val + (amounts.map Fin.val).sum)
      (n - 1) := by
  induction amounts generalizing total with
  | nil =>
    have := total.isLt
    simp only [foldl_nil, map_nil, sum_nil]
    omega
  | cons a rest ih =>
    rw [foldl_cons, ih, val_saturatingAdd, map_cons, sum_cons]
    omega

/-! ## Little-endian bytes -/

/-- The low `w` bytes of `v`, least significant first. -/
def leBytes : Nat → Nat → List Byte
  | 0, _ => []
  | w + 1, v => Fin.ofNat 256 v :: leBytes w (v / 256)

/-- The number whose little-endian bytes are given. -/
def ofLeBytes : List Byte → Nat
  | [] => 0
  | b :: rest => b.val + 256 * ofLeBytes rest

@[simp] theorem length_leBytes (w v : Nat) : (leBytes w v).length = w := by
  induction w generalizing v with
  | zero => rfl
  | succ w ih => simp [leBytes, ih]

theorem ofLeBytes_leBytes (w v : Nat) (h : v < 256 ^ w) : ofLeBytes (leBytes w v) = v := by
  induction w generalizing v with
  | zero =>
    have : v = 0 := by simpa using h
    simp [leBytes, ofLeBytes, this]
  | succ w ih =>
    have hdiv : v / 256 < 256 ^ w := by
      apply Nat.div_lt_of_lt_mul
      rwa [pow_succ, mul_comm] at h
    rw [leBytes, ofLeBytes, ih _ hdiv, Fin.val_ofNat]
    omega

theorem ofLeBytes_lt (l : List Byte) : ofLeBytes l < 256 ^ l.length := by
  induction l with
  | nil => simp [ofLeBytes]
  | cons b rest ih =>
    have hb := b.isLt
    rw [ofLeBytes, length_cons, pow_succ]
    omega

theorem leBytes_injective {w v' : Nat} (h : v < 256 ^ w) (h' : v' < 256 ^ w)
    (heq : leBytes w v = leBytes w v') : v = v' := by
  rw [← ofLeBytes_leBytes w v h, ← ofLeBytes_leBytes w v' h', heq]

theorem leBytes_ofLeBytes (l : List Byte) : leBytes l.length (ofLeBytes l) = l := by
  induction l with
  | nil => rfl
  | cons b rest ih =>
    have hb := b.isLt
    have hdiv : (b.val + 256 * ofLeBytes rest) / 256 = ofLeBytes rest := by omega
    have hmod : Fin.ofNat 256 (b.val + 256 * ofLeBytes rest) = b := by
      apply Fin.ext
      rw [Fin.val_ofNat]
      omega
    rw [ofLeBytes, length_cons, leBytes, hdiv, hmod, ih]

/-! ## Reading a prefix -/

/-- The first `w` bytes and the rest, when there are that many. -/
def takeBytes (w : Nat) (l : List Byte) : Option (List Byte × List Byte) :=
  if w ≤ l.length then some (l.take w, l.drop w) else none

/-- A little-endian number of `w` bytes and the rest. -/
def readLe (w : Nat) (l : List Byte) : Option (Nat × List Byte) :=
  (takeBytes w l).map fun p => (ofLeBytes p.1, p.2)

theorem takeBytes_append (l rest : List Byte) :
    takeBytes l.length (l ++ rest) = some (l, rest) := by
  simp [takeBytes]

end Machine
