import Mathlib.Data.List.Lemmas
import Mathlib.Data.List.Lex
import Mathlib.Data.Nat.Bitwise
import Mathlib.Order.Fin.Basic
import Mathlib.Tactic.Common
import Mathlib.Tactic.LinearCombination
import Mathlib.Tactic.Ring

/-!
# Numbers as lists of digits

`value` is the number a list of digits spells in base `B`, most significant digit first. Loops
over the digits are read as arithmetic of numbers:

* `value_mapAccumr` and `value_mapAccumr₂` for loops that start at the last digit and hand on a
carry or a borrow, given the equation of one round;
* `value_mapAccuml` for loops that start at the first digit and hand on a remainder;
* `value_set` and `value_setBit` for single digits and bits.

The order of digit lists of one length is the order of the numbers (`lt_iff_value_lt`).
`longDivision_eq` is the binary long division, one bit of the dividend a round.
-/

namespace Positional

open List

variable {B : Nat} {σ : Type}

def value : List (Fin B) → Nat
  | [] => 0
  | d :: ds => d.val * B ^ ds.length + value ds

@[simp] theorem value_nil : value ([] : List (Fin B)) = 0 := rfl

@[simp] theorem value_cons (d : Fin B) (ds : List (Fin B)) :
    value (d :: ds) = d.val * B ^ ds.length + value ds := rfl

theorem value_lt (ds : List (Fin B)) : value ds < B ^ ds.length := by
  induction ds with
  | nil => exact Nat.one_pos
  | cons d ds ih =>
    calc d.val * B ^ ds.length + value ds < d.val * B ^ ds.length + B ^ ds.length :=
          Nat.add_lt_add_left ih _
      _ = (d.val + 1) * B ^ ds.length := by ring
      _ ≤ B * B ^ ds.length := Nat.mul_le_mul_right _ d.isLt
      _ = B ^ (d :: ds).length := by rw [length_cons, Nat.pow_succ, Nat.mul_comm]

theorem value_append (ds es : List (Fin B)) :
    value (ds ++ es) = value ds * B ^ es.length + value es := by
  induction ds with
  | nil => simp
  | cons d ds ih =>
    rw [cons_append, value_cons, ih, value_cons, length_append, Nat.pow_add]
    ring

theorem value_replicate_zero [NeZero B] (n : Nat) : value (List.replicate n (0 : Fin B)) = 0 := by
  induction n with
  | zero => rfl
  | succ n ih => rw [replicate_succ, value_cons, ih, Fin.val_zero, Nat.zero_mul]

theorem value_replicate_last {d : Fin B} (hd : d.val + 1 = B) (n : Nat) :
    value (List.replicate n d) + 1 = B ^ n := by
  induction n with
  | zero => rfl
  | succ n ih =>
    rw [replicate_succ, value_cons, length_replicate, Nat.add_assoc, ih, ← Nat.succ_mul,
      Nat.succ_eq_add_one, hd, Nat.pow_succ']

variable {ds es : List (Fin B)} {denominator : Nat}

variable {m k i numerator n : Nat}

theorem value_regroup {C : Nat} [NeZero C] (hC : C = B ^ m) (h : ds.length = m * k) :
    value ((List.range k).map fun i => Fin.ofNat C (value ((ds.drop (m * i)).take m))) =
      value ds := by
  induction k generalizing ds with
  | zero =>
    obtain rfl : ds = [] := length_eq_zero_iff.mp h
    rfl
  | succ k ih =>
    have hrest : (ds.drop m).length = m * k := by
      rw [length_drop, h, Nat.mul_succ, Nat.add_sub_cancel]
    have hfirst : value (ds.take m) < C := by
      have hlt := value_lt (ds.take m)
      rwa [length_take, h, Nat.mul_succ, Nat.min_eq_left (Nat.le_add_left _ _), ← hC] at hlt
    have hgroups := ih hrest
    simp only [drop_drop] at hgroups
    rw [range_succ_eq_map, map_cons, map_map, value_cons, length_map, length_range]
    simp only [Function.comp_def, Nat.mul_succ, Nat.add_comm _ m]
    rw [hgroups, Nat.mul_zero, drop_zero, Fin.val_ofNat, Nat.mod_eq_of_lt hfirst]
    conv_rhs => rw [← take_append_drop m ds, value_append, hrest, Nat.pow_mul, ← hC]

theorem value_take (ds : List (Fin B)) (k : Nat) :
    value (ds.take k) = value ds / B ^ (ds.length - k) := by
  have hvalue := value_append (ds.take k) (ds.drop k)
  have hlt := value_lt (ds.drop k)
  rw [take_append_drop, length_drop] at hvalue
  rw [length_drop] at hlt
  rw [hvalue, Nat.mul_comm, Nat.mul_add_div (Nat.zero_lt_of_lt hlt), Nat.div_eq_of_lt hlt,
    Nat.add_zero]

/-- Digit lists of one length are ordered as their numbers. -/
theorem lt_iff_value_lt (h : ds.length = es.length) : ds < es ↔ value ds < value es := by
  induction ds generalizing es with
  | nil =>
    obtain rfl : es = [] := length_eq_zero_iff.mp h.symm
    simp
  | cons d ds ih =>
    cases es with
    | nil => cases h
    | cons e es =>
      rw [length_cons, length_cons, Nat.add_right_cancel_iff] at h
      have hds := value_lt ds
      have hes := value_lt es
      rw [cons_lt_cons_iff, ih h, value_cons, value_cons, h, Fin.lt_def, Fin.ext_iff]
      rw [h] at hds
      -- the first digits decide, unless they are equal
      constructor
      · rintro (hlt | ⟨heq, hlt⟩)
        · have hmul := Nat.mul_le_mul_right (B ^ es.length) (Nat.succ_le_of_lt hlt)
          rw [Nat.succ_mul] at hmul
          omega
        · rw [heq]
          exact Nat.add_lt_add_left hlt _
      · intro hlt
        rcases Nat.lt_trichotomy d.val e.val with hde | hde | hde
        · exact .inl hde
        · rw [hde] at hlt
          exact .inr ⟨hde, Nat.lt_of_add_lt_add_left hlt⟩
        · have hmul := Nat.mul_le_mul_right (B ^ es.length) (Nat.succ_le_of_lt hde)
          rw [Nat.succ_mul] at hmul
          omega

theorem value_injective (h : ds.length = es.length) (hvalue : value ds = value es) : ds = es := by
  rcases lt_trichotomy ds es with hlt | heq | hlt
  · exact absurd ((lt_iff_value_lt h).mp hlt) (hvalue ▸ lt_irrefl _)
  · exact heq
  · exact absurd ((lt_iff_value_lt h.symm).mp hlt) (hvalue ▸ lt_irrefl _)

/-! ## Loops with a carry -/

/-- A loop from the last digit on that multiplies by `m` and adds the carry. -/
theorem value_mapAccumr {step : Fin B → σ → σ × Fin B} (num : σ → Nat) (P : σ → Prop)
    (hstep : ∀ d c, P c → P (step d c).1 ∧ m * d.val + num c = num (step d c).1 * B +
      (step d c).2.val)
    (ds : List (Fin B)) {c : σ} (hc : P c) :
    P (ds.mapAccumr step c).1 ∧
      m * value ds + num c = num (ds.mapAccumr step c).1 * B ^ ds.length + value
      (ds.mapAccumr step c).2 := by
  induction ds with
  | nil => exact ⟨hc, by simp [List.mapAccumr]⟩
  | cons d ds ih =>
    obtain ⟨hP, hds⟩ := ih
    obtain ⟨hP', hd⟩ := hstep d (ds.mapAccumr step c).1 hP
    refine ⟨hP', ?_⟩
    simp only [List.mapAccumr, value_cons, length_mapAccumr, length_cons, pow_succ]
    linear_combination B ^ ds.length * hd + hds

/-- A loop from the last digit on over two numbers, where `s` is the sign of the second: it adds
with a carry or subtracts with a borrow. -/
theorem value_mapAccumr₂ {step : Fin B → Fin B → σ → σ × Fin B} (s : Int) (num : σ → Nat)
    (hstep : ∀ d e c,
      ((step d e c).2.val : Int) = d.val + s * (e.val + num c - (num (step d e c).1 * B : Nat)))
    (h : ds.length = es.length) (c : σ) :
    (value (ds.mapAccumr₂ step es c).2 : Int) =
      value ds + s *
      (value es + num c - (num (ds.mapAccumr₂ step es c).1 * B ^ ds.length : Nat)) := by
  induction ds generalizing es with
  | nil =>
    obtain rfl : es = [] := length_eq_zero_iff.mp h.symm
    simp [List.mapAccumr₂]
  | cons d ds ih =>
    cases es with
    | nil => cases h
    | cons e es =>
      rw [length_cons, length_cons, Nat.add_right_cancel_iff] at h
      simp only [List.mapAccumr₂, value_cons, length_mapAccumr₂, length_cons, ← h, Nat.min_self,
        pow_succ, Nat.cast_add, Nat.cast_mul, Nat.cast_pow, ih h, hstep]
      ring

/-! ## Loops with a remainder -/

/-- A loop from the first element on that hands on a state. -/
def mapAccuml {α β : Type} (step : σ → α → σ × β) : σ → List α → σ × List β
  | s, [] => (s, [])
  | s, a :: as => ((mapAccuml step (step s a).1 as).1,
    (step s a).2 :: (mapAccuml step (step s a).1 as).2)

theorem length_mapAccuml {α β : Type} (step : σ → α → σ × β) (s : σ) (as : List α) :
    (mapAccuml step s as).2.length = as.length := by
  induction as generalizing s with
  | nil => rfl
  | cons a as ih => exact congrArg (· + 1) (ih _)

/-- Division by a small number. -/
theorem value_mapAccuml {step : Nat → Fin B → Nat × Fin B}
    (hstep : ∀ r d, r < k → (step r d).1 < k ∧ r * B + d.val = (step r d).2.val * k + (step r d).1)
    (ds : List (Fin B)) {r : Nat} (hr : r < k) :
    (mapAccuml step r ds).1 < k ∧
      r * B ^ ds.length + value ds = value (mapAccuml step r ds).2 * k +
      (mapAccuml step r ds).1 := by
  induction ds generalizing r with
  | nil => exact ⟨hr, by simp [mapAccuml]⟩
  | cons d ds ih =>
    obtain ⟨hr', hd⟩ := hstep r d hr
    obtain ⟨hrest, hds⟩ := ih hr'
    refine ⟨hrest, ?_⟩
    simp only [mapAccuml, value_cons, length_mapAccuml, length_cons, pow_succ]
    linear_combination B ^ ds.length * hd + hds

/-! ## Single digits and bits -/

theorem value_set [NeZero B] (hzero : ds[i]? = some 0) (d : Fin B) :
    value (ds.set i d) = value ds + d.val * B ^ (ds.length - 1 - i) := by
  induction ds generalizing i with
  | nil => cases hzero
  | cons e ds ih =>
    cases i with
    | zero =>
      cases hzero
      simp only [set_cons_zero, value_cons, Fin.val_zero, length_cons]
      simp [Nat.add_comm]
    | succ i =>
      rw [getElem?_cons_succ] at hzero
      have hi : i < ds.length := (List.getElem?_eq_some_iff.mp hzero).1
      rw [set_cons_succ, value_cons, value_cons, ih hzero, length_set, length_cons,
        show ds.length + 1 - 1 - (i + 1) = ds.length - 1 - i by omega, Nat.add_assoc]

theorem exists_findIdx? [NeZero B] (hpos : 0 < value ds) :
    ∃ i, ds.findIdx? (· ≠ 0) = some i ∧ i < ds.length ∧ value (ds.drop i) = value ds ∧
      B ^ (ds.length - 1 - i) ≤ value ds := by
  induction ds with
  | nil => exact absurd hpos (lt_irrefl 0)
  | cons d ds ih =>
    by_cases hd : d = 0
    · have hvalue : value (d :: ds) = value ds := by
        rw [value_cons, hd, Fin.val_zero, Nat.zero_mul, Nat.zero_add]
      obtain ⟨i, hfind, hi, hdrop, hlower⟩ := ih (hvalue ▸ hpos)
      refine ⟨i + 1, ?_, Nat.succ_lt_succ hi, hdrop.trans hvalue.symm, ?_⟩
      · rw [findIdx?_cons, hfind]
        simp [hd]
      · rw [hvalue, length_cons, show ds.length + 1 - 1 - (i + 1) = ds.length - 1 - i by omega]
        exact hlower
    · refine ⟨0, by simp [findIdx?_cons, hd], Nat.succ_pos _, rfl, ?_⟩
      have hdigit : 1 ≤ d.val := Nat.one_le_iff_ne_zero.mpr fun hzero => hd (Fin.ext hzero)
      calc B ^ ((d :: ds).length - 1 - 0) = 1 * B ^ ds.length := by simp
        _ ≤ d.val * B ^ ds.length := Nat.mul_le_mul_right _ hdigit
        _ ≤ value (d :: ds) := Nat.le_add_right _ _

section Bits

variable {w : Nat}

/-- Bit `i` of a digit list, most significant bit first. -/
def bit (ds : List (Fin (2 ^ w))) (i : Nat) :
    Bool := (ds[i / w]?).any fun d => d.val.testBit (w - 1 - i % w)

def setBit (ds : List (Fin (2 ^ w))) (i : Nat) : List (Fin (2 ^ w)) :=
  ds.modify (i / w) fun d => Fin.ofNat (2 ^ w) (d.val ||| 2 ^ (w - 1 - i % w))

theorem length_setBit (ds : List (Fin (2 ^ w))) (i : Nat) : (setBit ds i).length = ds.length :=
  length_modify _ _ _

theorem value_lt_two_pow (ds : List (Fin (2 ^ w))) : value ds < 2 ^ (w * ds.length) := by
  rw [Nat.pow_mul]
  exact value_lt ds

theorem bit_eq {ds : List (Fin (2 ^ w))} {i : Nat} (hi : i < w * ds.length) :
    bit ds i = (value ds).testBit (w * ds.length - 1 - i) := by
  have hw : 0 < w := Nat.pos_of_mul_pos_right (Nat.zero_lt_of_lt hi)
  induction ds generalizing i with
  | nil => exact absurd hi (Nat.not_lt_zero _)
  | cons d ds ih =>
    rw [length_cons, Nat.mul_succ] at hi ⊢
    rw [value_cons, ← Nat.pow_mul, Nat.mul_comm d.val,
      Nat.testBit_two_pow_mul_add _ (value_lt_two_pow ds)]
    by_cases hfirst : i < w
    · rw [if_neg (by omega), bit, Nat.div_eq_of_lt hfirst, Nat.mod_eq_of_lt hfirst,
        getElem?_cons_zero, Option.any_some]
      congr 1
      omega
    · rw [if_pos (by omega), bit, Nat.div_eq_sub_div hw (not_lt.mp hfirst), getElem?_cons_succ,
        Nat.mod_eq_sub_mod (not_lt.mp hfirst)]
      refine (ih (by omega)).trans ?_
      congr 1
      omega

theorem value_setBit {ds : List (Fin (2 ^ w))} {i : Nat} (hi : i < w * ds.length) :
    value (setBit ds i) = value ds ||| 2 ^ (w * ds.length - 1 - i) := by
  have hw : 0 < w := Nat.pos_of_mul_pos_right (Nat.zero_lt_of_lt hi)
  induction ds generalizing i with
  | nil => exact absurd hi (Nat.not_lt_zero _)
  | cons d ds ih =>
    rw [length_cons, Nat.mul_succ] at hi ⊢
    have hlt := value_lt_two_pow ds
    by_cases hfirst : i < w
    · have hdigit : d.val ||| 2 ^ (w - 1 - i) < 2 ^ w :=
        Nat.or_lt_two_pow d.isLt (Nat.pow_lt_pow_right Nat.one_lt_two (by omega))
      have hweight : w * ds.length + w - 1 - i = w - 1 - i + w * ds.length := by omega
      rw [setBit, Nat.div_eq_of_lt hfirst, Nat.mod_eq_of_lt hfirst, modify_zero_cons,
        value_cons, value_cons, Fin.val_ofNat, Nat.mod_eq_of_lt hdigit, ← Nat.pow_mul,
          ← Nat.shiftLeft_eq, ← Nat.shiftLeft_eq,
        Nat.shiftLeft_add_eq_or_of_lt hlt, Nat.shiftLeft_add_eq_or_of_lt hlt,
          Nat.shiftLeft_or_distrib,
        Nat.or_right_comm, hweight, Nat.pow_add, ← Nat.shiftLeft_eq (2 ^ _)]
    · have hrest : i - w < w * ds.length := by omega
      have hweight : w * ds.length + w - 1 - i = w * ds.length - 1 - (i - w) := by omega
      have htail : value (setBit ds (i - w)) < 2 ^ (w * ds.length) := by
        rw [← length_setBit ds (i - w)]
        exact value_lt_two_pow _
      have hcons : setBit (d :: ds) i = d :: setBit ds (i - w) := by
        rw [setBit, Nat.div_eq_sub_div hw (not_lt.mp hfirst), Nat.mod_eq_sub_mod (not_lt.mp hfirst),
          modify_succ_cons]
        rfl
      rw [hcons, value_cons, value_cons, length_setBit, ← Nat.pow_mul, ← Nat.shiftLeft_eq,
        Nat.shiftLeft_add_eq_or_of_lt htail, Nat.shiftLeft_add_eq_or_of_lt hlt, ih hrest,
          Nat.or_assoc, hweight]

end Bits

/-! ## Binary long division -/

/-- One round: the next bit of the dividend enters the remainder. -/
def divisionRound (numerator denominator n : Nat) (s : Nat × Nat) (i : Nat) : Nat × Nat :=
  let remainder := 2 * s.2 + (numerator.testBit (n - 1 - i)).toNat
  if denominator ≤ remainder then (s.1 + 2 ^ (n - 1 - i), remainder - denominator)
    else (s.1, remainder)

theorem division_double (a : Nat) (h : 0 < denominator) :
    (a / denominator = if denominator ≤ 2 * (a / 2 % denominator) + a % 2
      then 2 * (a / 2 / denominator) + 1
      else 2 * (a / 2 / denominator)) ∧
    a % denominator = if denominator ≤ 2 * (a / 2 % denominator) + a % 2
      then 2 * (a / 2 % denominator) + a % 2 - denominator
      else 2 * (a / 2 % denominator) + a % 2 := by
  have hhalf := Nat.div_add_mod (a / 2) denominator
  have hlt := Nat.mod_lt (a / 2) h
  have ha : denominator * (2 * (a / 2 / denominator)) + (2 * (a / 2 % denominator) + a % 2) =
      a := by
    rw [Nat.mul_left_comm]
    omega
  split_ifs with hle
  · refine (Nat.div_mod_unique h).mpr ⟨?_, by omega⟩
    rw [Nat.mul_succ]
    omega
  · exact (Nat.div_mod_unique h).mpr ⟨by omega, by omega⟩

theorem divisionRounds_eq (hnumerator : numerator < 2 ^ n) (hdenominator : 0 < denominator)
    (hi : i ≤ n) :
    (List.range i).foldl (divisionRound numerator denominator n) (0, 0) =
      (numerator / 2 ^ (n - i) / denominator * 2 ^ (n - i),
      numerator / 2 ^ (n - i) % denominator) := by
  induction i with
  | zero => simp [Nat.div_eq_of_lt hnumerator]
  | succ i ih =>
    rw [range_succ, foldl_append, ih (by omega)]
    have hhalf : numerator / 2 ^ (n - i) = numerator / 2 ^ (n - (i + 1)) / 2 := by
      rw [Nat.div_div_eq_div_mul, ← Nat.pow_succ]
      congr 2
      omega
    have hbit : (numerator.testBit (n - 1 - i)).toNat = numerator / 2 ^ (n - (i + 1)) % 2 := by
      rw [Nat.toNat_testBit, show n - 1 - i = n - (i + 1) by omega]
    have hpow : 2 ^ (n - i) = 2 * 2 ^ (n - (i + 1)) := by
      rw [← Nat.pow_succ']
      congr 1
      omega
    rw [foldl_cons, foldl_nil, divisionRound, hbit, hhalf, hpow,
      show n - 1 - i = n - (i + 1) by omega]
    generalize numerator / 2 ^ (n - (i + 1)) = a
    generalize 2 ^ (n - (i + 1)) = P
    obtain ⟨hquotient, hremainder⟩ := division_double a hdenominator
    simp only
    split_ifs at hquotient hremainder ⊢
    · rw [hquotient, hremainder, Nat.add_mul, Nat.one_mul, Nat.mul_assoc, Nat.mul_left_comm]
    · rw [hquotient, hremainder, Nat.mul_assoc, Nat.mul_left_comm]

theorem longDivision_eq (hnumerator : numerator < 2 ^ n) (hdenominator : 0 < denominator) :
    (List.range n).foldl (divisionRound numerator denominator n) (0, 0) =
      (numerator / denominator, numerator % denominator) := by
  rw [divisionRounds_eq hnumerator hdenominator (le_refl n)]
  simp

end Positional
