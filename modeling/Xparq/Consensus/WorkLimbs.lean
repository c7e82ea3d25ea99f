import Xparq.Consensus.TargetBytes
import Xparq.Consensus.Work
import Mathlib.Data.Vector.Defs

/-!
# Work as an array of limbs

The source keeps work as eight big-endian `u64` limbs and divides by binary long division over
five. The definitions follow it limb by limb. They compute the numbers of the work model:
`blockWork_eq` for the work of a block, `value_saturatingAdd` for sums, `lt_iff` for the order.
-/

namespace Xparq

open Machine Positional List

/-- `[u64; 5]`. -/
abbrev U320 := List.Vector U64 5

/-- `Work([u64; 8])`. -/
structure WorkLimbs where
  limbs : List.Vector U64 8
  deriving DecidableEq

namespace WorkLimbs

def max : WorkLimbs := ⟨List.Vector.replicate 8 ⟨2 ^ 64 - 1, maxU64_lt⟩⟩

/-- Arrays are compared limb by limb. -/
instance : LT WorkLimbs := ⟨fun v w => v.limbs.toList < w.limbs.toList⟩

/-- One limb of a sum; the carry is a `u128`. -/
def addLimb (left right : U64) (carry : Nat) : Nat × U64 :=
  let sum := left.val + right.val + carry
  (sum >>> 64, Fin.ofNat (2 ^ 64) sum)

def saturatingAdd (v w : WorkLimbs) : WorkLimbs :=
  let (carry, result) := List.Vector.mapAccumr₂ addLimb v.limbs w.limbs 0
  if carry > 0 then max else ⟨result⟩

end WorkLimbs

/-! ## Long division over five limbs -/

/-- Add one to a limb, as long as the limb before it overflowed. -/
def addOneLimb (limb : U64) (overflow : Bool) : Bool × U64 :=
  if overflow then (limb.val + 1 ≥ 2 ^ 64, Fin.ofNat (2 ^ 64) (limb.val + 1)) else (false, limb)

def addOneU320 (value : U320) : U320 := (List.Vector.mapAccumr addOneLimb value true).2

def shiftLimb (limb : U64) (carry : U64) : U64 × U64 :=
  (⟨limb.val >>> 63, (Nat.shiftRight_le _ _).trans_lt limb.isLt⟩,
    Fin.ofNat (2 ^ 64) (limb.val <<< 1 % 2 ^ 64 ||| carry.val))

def shiftLeftOneU320 (value : U320) : U320 := (List.Vector.mapAccumr shiftLimb value 0).2

/-- `overflowing_sub` twice: the other limb, then the borrow. -/
def subtractLimb (left right : U64) (borrow : Bool) : Bool × U64 :=
  let value := (left.val + 2 ^ 64 - right.val) % 2 ^ 64
  let firstBorrow := left.val < right.val
  let secondBorrow := value < borrow.toNat
  (firstBorrow || secondBorrow, Fin.ofNat (2 ^ 64) (value + 2 ^ 64 - borrow.toNat))

def subtractU320 (left right : U320) :
    U320 := (List.Vector.mapAccumr₂ subtractLimb left right false).2

def bitU320 (value : U320) (bitIndex : Nat) : Bool :=
  let limb := bitIndex / 64
  let offset := 63 - bitIndex % 64
  (value.toList.getD limb 0).val >>> offset &&& 1 ≠ 0

/-- Set a bit of a limb. -/
def orLimb (value : U320) (limb offset : Nat) : U320 :=
  ⟨value.toList.modify limb fun l => Fin.ofNat (2 ^ 64) (l.val ||| 1 <<< offset),
    (length_modify _ _ _).trans value.2⟩

def setBitU320 (value : U320) (bitIndex : Nat) :
    U320 := orLimb value (bitIndex / 64) (63 - bitIndex % 64)

/-- One round: the next bit of the numerator enters the remainder. -/
def divideRound (numerator denominator : U320) (s : U320 × U320) (bitIndex : Nat) : U320 × U320 :=
  let remainder := shiftLeftOneU320 s.2
  let remainder := if bitU320 numerator bitIndex then orLimb remainder 4 0 else remainder
  if remainder.toList < denominator.toList then (s.1, remainder)
  else (setBitU320 s.1 bitIndex, subtractU320 remainder denominator)

def divideU320 (numerator denominator : U320) : Option U320 :=
  if denominator.toList.all (· = 0) then none
  else some ((List.range 320).foldl (divideRound numerator denominator)
    (List.Vector.replicate 5 0, List.Vector.replicate 5 0)).1

/-- The bytes of a target in chunks of eight. -/
def TargetBytes.limbs (t : TargetBytes) : List.Vector U64 4 :=
  ⟨(List.range 4).map fun i => Fin.ofNat (2 ^ 64)
    (Positional.value ((t.bytes.drop (8 * i)).take 8)), by simp⟩

/-- `block_work`: `2 ^ 256` divided by one more than the target. -/
def WorkLimbs.blockWork (targetBits : U32) : Option WorkLimbs := do
  let target ← TargetBytes.fromCompact targetBits
  let denominator := addOneU320 (.cons 0 target.limbs)
  let numerator : U320 := .cons 1 (.replicate 4 0)
  let quotient ← divideU320 numerator denominator
  return ⟨.cons 0 (.cons 0 (.cons 0 quotient))⟩

/-! ## The numbers the limbs spell -/

def limbValue {n : Nat} (v : List.Vector U64 n) : Nat := Positional.value v.toList

variable {n : Nat}

theorem limbValue_lt (v : List.Vector U64 n) : limbValue v < 2 ^ (64 * n) := by
  have hlt := value_lt_two_pow v.toList
  rwa [v.toList_length] at hlt

theorem limbValue_cons (d : U64) (v : List.Vector U64 n) :
    limbValue (.cons d v) = d.val * 2 ^ (64 * n) + limbValue v := by
  rw [limbValue, List.Vector.toList_cons, value_cons, v.toList_length, ← Nat.pow_mul]
  rfl

theorem limbValue_replicate (n : Nat) :
    limbValue (List.Vector.replicate n 0) = 0 := value_replicate_zero n

theorem limbValue_injective {v w : List.Vector U64 n} (h : limbValue v = limbValue w) : v = w :=
  List.Vector.eq _ _ (value_injective (v.toList_length.trans w.toList_length.symm) h)

theorem limb_lt_iff (v w : List.Vector U64 n) : v.toList < w.toList ↔ limbValue v < limbValue w :=
  lt_iff_value_lt (v.toList_length.trans w.toList_length.symm)

theorem limbValue_mapAccumr {σ : Type} {step : U64 → σ → σ × U64} {m : Nat} (num : σ → Nat)
    (P : σ → Prop)
    (hstep : ∀ d c, P c → P (step d c).1 ∧ m * d.val + num c = num (step d c).1 * 2 ^ 64 +
      (step d c).2.val)
    {v : List.Vector U64 n} {c : σ} (hc : P c) (hroom : m * limbValue v + num c < 2 ^ (64 * n)) :
    limbValue (List.Vector.mapAccumr step v c).2 = m * limbValue v + num c := by
  obtain ⟨l, rfl⟩ := v
  have hvalue := (value_mapAccumr num P hstep l hc).2
  rw [← Nat.pow_mul] at hvalue
  change m * Positional.value l + num c < _ at hroom
  change Positional.value (l.mapAccumr step c).2 = m * Positional.value l + num c
  cases hcarry : num (l.mapAccumr step c).1 with
  | zero =>
    rw [hcarry] at hvalue
    omega
  | succ k =>
    rw [hcarry, Nat.succ_mul] at hvalue
    omega

theorem addOneLimb_eq (d : U64) (overflow : Bool) :
    1 * d.val + overflow.toNat = (addOneLimb d overflow).1.toNat * 2 ^ 64 +
      (addOneLimb d overflow).2.val := by
  have hlt := d.isLt
  cases overflow with
  | false => simp [addOneLimb]
  | true =>
    by_cases hlast : d.val + 1 ≥ 2 ^ 64
    · simp only [addOneLimb, if_true, hlast, decide_true, Bool.toNat_true, Fin.val_ofNat]
      omega
    · simp only [addOneLimb, if_true, hlast, decide_false, Bool.toNat_true, Bool.toNat_false,
        Fin.val_ofNat]
      omega

variable {v denominator : U320} {i : Nat}

theorem addOneU320_value (h : limbValue v + 1 < 2 ^ (64 * 5)) :
    limbValue (addOneU320 v) = limbValue v + 1 := by
  have hloop :=
    limbValue_mapAccumr (m := 1) Bool.toNat (fun _ => True)
      (fun d c _ => ⟨trivial, addOneLimb_eq d c⟩)
    (v := v) (c := true) trivial (by rw [Nat.one_mul]; exact h)
  rwa [Nat.one_mul] at hloop

theorem shiftLimb_eq (d carry : U64) (hcarry : carry.val ≤ 1) : (shiftLimb d carry).1.val ≤ 1 ∧
    2 * d.val + carry.val = (shiftLimb d carry).1.val * 2 ^ 64 + (shiftLimb d carry).2.val := by
  have hlt := d.isLt
  have heven : d.val <<< 1 % 2 ^ 64 = (d.val % 2 ^ 63) <<< 1 := by
    rw [Nat.shiftLeft_eq, Nat.shiftLeft_eq]
    omega
  have hor : d.val <<< 1 % 2 ^ 64 ||| carry.val = d.val % 2 ^ 63 * 2 + carry.val := by
    rw [heven, ← Nat.shiftLeft_add_eq_or_of_lt (by omega), Nat.shiftLeft_eq]
  simp only [shiftLimb, hor, Fin.val_ofNat, Nat.shiftRight_eq_div_pow]
  omega

theorem shiftLeftOneU320_value (h : 2 * limbValue v < 2 ^ (64 * 5)) :
    limbValue (shiftLeftOneU320 v) = 2 * limbValue v :=
  limbValue_mapAccumr Fin.val (fun c => c.val ≤ 1) shiftLimb_eq (c := 0) (Nat.zero_le _) h

theorem subtractLimb_eq (d e : U64) (borrow : Bool) : ((subtractLimb d e borrow).2.val : Int) =
    d.val + -1 * (e.val + borrow.toNat - ((subtractLimb d e borrow).1.toNat * 2 ^ 64 : Nat)) := by
  have hd := d.isLt
  have he := e.isLt
  have hb : borrow.toNat ≤ 1 := Bool.toNat_le borrow
  simp only [subtractLimb, Fin.val_ofNat]
  rcases Nat.lt_or_ge d.val e.val with hfirst | hfirst
  · -- the difference wraps around and is not zero
    have hvalue : (d.val + 2 ^ 64 - e.val) % 2 ^ 64 = d.val + 2 ^ 64 - e.val :=
      Nat.mod_eq_of_lt (by omega)
    rw [hvalue, decide_eq_true hfirst, Bool.true_or, Bool.toNat_true]
    omega
  · have hvalue : (d.val + 2 ^ 64 - e.val) % 2 ^ 64 = d.val - e.val := by omega
    rw [hvalue, decide_eq_false (not_lt.mpr hfirst), Bool.false_or]
    by_cases hsecond : d.val - e.val < borrow.toNat
    · rw [decide_eq_true hsecond, Bool.toNat_true]
      omega
    · rw [decide_eq_false hsecond, Bool.toNat_false]
      omega

theorem subtractU320_value {w : U320} (h : limbValue w ≤ limbValue v) :
    limbValue (subtractU320 v w) = limbValue v - limbValue w := by
  have hlt := limbValue_lt v
  obtain ⟨l, hl⟩ := v
  obtain ⟨r, hr⟩ := w
  have hvalue := value_mapAccumr₂ (-1) Bool.toNat subtractLimb_eq (hl.trans hr.symm) false
  have hrest := Positional.value_lt (l.mapAccumr₂ subtractLimb r false).2
  rw [length_mapAccumr₂, hl, hr, Nat.min_self, ← Nat.pow_mul] at hrest
  rw [hl, ← Nat.pow_mul] at hvalue
  change Positional.value r ≤ Positional.value l at h
  change Positional.value l < _ at hlt
  change Positional.value (l.mapAccumr₂ subtractLimb r false).2 = Positional.value l -
    Positional.value r
  cases hborrow : (l.mapAccumr₂ subtractLimb r false).1 with
  | false =>
    rw [hborrow, Bool.toNat_false] at hvalue
    omega
  | true =>
    rw [hborrow, Bool.toNat_true, Bool.toNat_false] at hvalue
    omega

theorem bitU320_eq (v : U320) (hi : i < 320) : bitU320 v i = (limbValue v).testBit (319 - i) := by
  have hlimb : i / 64 < v.toList.length := by
    rw [v.toList_length]
    omega
  have hbit : bit v.toList i = _ := bit_eq (hi.trans_eq (by rw [v.toList_length]))
  rw [v.toList_length] at hbit
  refine Eq.trans ?_ hbit
  rw [bit, bitU320, getElem?_eq_getElem hlimb, Option.any_some, getD_eq_getElem _ _ hlimb,
    Bool.eq_iff_iff, decide_eq_true_iff, Nat.testBit, Nat.and_comm 1, bne_iff_ne]

theorem setBitU320_value (v : U320) (hi : i < 320) :
    limbValue (setBitU320 v i) = limbValue v ||| 2 ^ (319 - i) := by
  have hset : Positional.value (setBit v.toList i) = _ :=
    value_setBit (hi.trans_eq (by rw [v.toList_length]))
  rw [v.toList_length] at hset
  refine Eq.trans ?_ hset
  rw [limbValue, setBitU320, orLimb, setBit]
  simp only [Nat.shiftLeft_eq, Nat.one_mul]
  rfl

/-! ## Rounds of the division -/

theorem shiftIn_value (h : limbValue v < 2 ^ 256) (b : Bool) :
    limbValue (if b then orLimb (shiftLeftOneU320 v) 4 0 else shiftLeftOneU320 v) =
      2 * limbValue v + b.toNat := by
  have hshift : limbValue (shiftLeftOneU320 v) = 2 * limbValue v :=
    shiftLeftOneU320_value (by omega)
  cases b with
  | false => exact hshift
  | true =>
    have hlast : limbValue (orLimb (shiftLeftOneU320 v) 4 0) =
        limbValue (shiftLeftOneU320 v) ||| 2 ^ 0 :=
      setBitU320_value (shiftLeftOneU320 v) (i := 319) (by decide)
    rw [if_pos rfl, hlast, hshift, Bool.toNat_true]
    exact (Nat.two_pow_add_eq_or_of_lt (i := 1) (by decide) (limbValue v)).symm

/-- The limbs of a division spell its state. -/
def Spells (s : U320 × U320) (t : Nat × Nat) : Prop := limbValue s.1 = t.1 ∧ limbValue s.2 = t.2

theorem divideRound_spells {numerator : U320} {s : U320 × U320} {t : Nat × Nat} (hi : i < 320)
    (hdenominator : limbValue denominator ≤ 2 ^ 256) (hs : Spells s t)
    (hremainder : t.2 < limbValue denominator) (hquotient : 2 ^ (320 - i) ∣ t.1) :
    Spells (divideRound numerator denominator s i)
      (divisionRound (limbValue numerator) (limbValue denominator) 320 t i) := by
  obtain ⟨hq, hr⟩ := hs
  have hshift :=
    shiftIn_value (hr.trans_lt (hremainder.trans_le hdenominator)) (bitU320 numerator i)
  rw [hr, bitU320_eq numerator hi] at hshift
  have hset : limbValue (setBitU320 s.1 i) = t.1 + 2 ^ (319 - i) := by
    obtain ⟨c, hc⟩ := hquotient
    have hlt : 2 ^ (319 - i) < 2 ^ (320 - i) := Nat.pow_lt_pow_right (by decide) (by omega)
    rw [setBitU320_value s.1 hi, hq, hc, Nat.two_pow_add_eq_or_of_lt hlt]
  unfold divideRound divisionRound
  rw [bitU320_eq numerator hi]
  by_cases hle : limbValue denominator ≤
    2 * t.2 + ((limbValue numerator).testBit (320 - 1 - i)).toNat
  · rw [if_neg (by rw [limb_lt_iff, hshift]; exact not_lt.mpr hle), if_pos hle]
    exact ⟨hset, (subtractU320_value (hle.trans_eq hshift.symm)).trans (by rw [hshift])⟩
  · rw [if_pos (by rw [limb_lt_iff, hshift]; exact not_le.mp hle), if_neg hle]
    exact ⟨hq, hshift⟩

theorem divideRounds_spells {numerator : U320} (hi : i ≤ 320)
    (hdenominator : limbValue denominator ≤ 2 ^ 256) (hpos : 0 < limbValue denominator) :
    Spells
      ((List.range i).foldl (divideRound numerator denominator) (.replicate 5 0, .replicate 5 0))
      ((List.range i).foldl (divisionRound (limbValue numerator) (limbValue denominator) 320)
        (0, 0)) := by
  induction i with
  | zero => exact ⟨limbValue_replicate 5, limbValue_replicate 5⟩
  | succ i ih =>
    have hstate := divisionRounds_eq (limbValue_lt numerator) hpos (i := i) (by omega)
    rw [range_succ, foldl_append, foldl_append]
    refine divideRound_spells (by omega) hdenominator (ih (by omega)) ?_ ?_
    · rw [hstate]
      exact Nat.mod_lt _ hpos
    · rw [hstate]
      exact Nat.dvd_mul_left _ _

theorem all_zero_iff {v : List.Vector U64 n} : v.toList.all (· = 0) = true ↔ limbValue v = 0 := by
  constructor
  · intro h
    have hzero : v.toList = List.replicate v.toList.length 0 := eq_replicate_of_mem fun d hd => by
      simpa using all_eq_true.mp h d hd
    rw [limbValue, hzero, value_replicate_zero]
  · intro h
    rw [limbValue_injective (h.trans (limbValue_replicate n).symm)]
    change (List.replicate n (0 : U64)).all (· = 0) = true
    simp

theorem divideU320_value (numerator : U320) (hdenominator : limbValue denominator ≤ 2 ^ 256)
    (hpos : 0 < limbValue denominator) :
    ∃ quotient, divideU320 numerator denominator = some quotient ∧
      limbValue quotient = limbValue numerator / limbValue denominator := by
  refine ⟨_, if_neg fun hzero => hpos.ne' (all_zero_iff.mp hzero), ?_⟩
  rw [(divideRounds_spells (le_refl 320) hdenominator hpos).1,
    longDivision_eq (limbValue_lt numerator) hpos]

/-! ## The work of a block -/

theorem TargetBytes.limbs_value (t : TargetBytes) : limbValue t.limbs = t.value :=
  value_regroup (by decide) t.length_eq

namespace WorkLimbs

def value (w : WorkLimbs) : Nat := limbValue w.limbs

theorem blockWork_eq {targetBits : U32} {t : TargetBytes}
    (h : TargetBytes.fromCompact targetBits = some t) :
    ∃ w, blockWork targetBits = some w ∧ w.value = 2 ^ 256 / (t.value + 1) := by
  have ht := t.value_lt
  have hlimbs : limbValue (List.Vector.cons 0 t.limbs) = t.value := by
    rw [limbValue_cons, t.limbs_value, Fin.val_zero, Nat.zero_mul, Nat.zero_add]
  have hdenominator : limbValue (addOneU320 (.cons 0 t.limbs)) = t.value + 1 := by
    rw [addOneU320_value (by rw [hlimbs]; omega), hlimbs]
  have hnumerator : limbValue (.cons 1 (.replicate 4 0) : U320) = 2 ^ 256 := by
    rw [limbValue_cons, limbValue_replicate]
    rfl
  obtain ⟨quotient, hquotient, hvalue⟩ := divideU320_value (.cons 1 (.replicate 4 0))
    (hdenominator.trans_le ht) (by rw [hdenominator]; exact Nat.succ_pos _)
  refine ⟨⟨.cons 0 (.cons 0 (.cons 0 quotient))⟩, ?_, ?_⟩
  · rw [blockWork, h, Option.bind_eq_bind, Option.bind_some]
    simp only [hquotient]
    rfl
  · rw [value, limbValue_cons, limbValue_cons, limbValue_cons, hvalue, hdenominator, hnumerator]
    simp only [Fin.val_zero, Nat.zero_mul, Nat.zero_add]

/-! ## Sums and order -/

theorem addLimb_eq (d e : U64) (carry : Nat) : ((addLimb d e carry).2.val : Int) =
    d.val + 1 * (e.val + carry - ((addLimb d e carry).1 * 2 ^ 64 : Nat)) := by
  simp only [addLimb, Fin.val_ofNat, Nat.shiftRight_eq_div_pow]
  omega

theorem value_max : max.value + 1 = 2 ^ (64 * 8) := by
  rw [Nat.pow_mul]
  exact value_replicate_last (by decide) 8

theorem value_saturatingAdd (v w : WorkLimbs) :
    (v.saturatingAdd w).value = min (v.value + w.value) (2 ^ (64 * 8) - 1) := by
  obtain ⟨⟨l, hl⟩⟩ := v
  obtain ⟨⟨r, hr⟩⟩ := w
  have hmax := value_max
  have hsum := value_mapAccumr₂ 1 id addLimb_eq (hl.trans hr.symm) 0
  have hlt := Positional.value_lt (l.mapAccumr₂ addLimb r 0).2
  rw [length_mapAccumr₂, hl, hr, Nat.min_self, ← Nat.pow_mul] at hlt
  rw [hl, ← Nat.pow_mul] at hsum
  simp only [id] at hsum
  change _ = min (Positional.value l + Positional.value r) _
  generalize 2 ^ (64 * 8) = bound at *
  change (if (l.mapAccumr₂ addLimb r 0).1 > 0 then max
    else ⟨⟨(l.mapAccumr₂ addLimb r 0).2, _⟩⟩ : WorkLimbs).value = _
  cases hcarry : (l.mapAccumr₂ addLimb r 0).1 with
  | zero =>
    rw [hcarry, Nat.zero_mul] at hsum
    rw [if_neg (lt_irrefl 0), Nat.min_eq_left (by omega)]
    change Positional.value (l.mapAccumr₂ addLimb r 0).2 = _
    omega
  | succ k =>
    rw [hcarry, Nat.succ_mul] at hsum
    rw [if_pos (Nat.succ_pos k), Nat.min_eq_right (by omega)]
    omega

theorem lt_iff (v w : WorkLimbs) : v < w ↔ v.value < w.value := limb_lt_iff v.limbs w.limbs

/-- The work of an encoded target is `2 ^ 256 / (target + 1)` and positive, so that a smaller
target never gives less work. Order and sums of works are those of the numbers they spell, with
sums capped at the largest. -/
theorem blockWork_exact :
    (∀ {targetBits t}, TargetBytes.fromCompact targetBits = some t → ∃ w,
      blockWork targetBits = some w ∧
      w.value = 2 ^ 256 / (t.value + 1) ∧ 1 ≤ w.value) ∧
    (∀ {bits bits' t t' w w'}, TargetBytes.fromCompact bits = some t →
      TargetBytes.fromCompact bits' = some t' →
      blockWork bits = some w → blockWork bits' = some w' → t < t' → ¬w < w') ∧
    (∀ v w : WorkLimbs, v < w ↔ v.value < w.value) ∧
    ∀ v w : WorkLimbs, (v.saturatingAdd w).value = min (v.value + w.value) (2 ^ 512 - 1) := by
  have hbits : 512 = 64 * 8 := rfl
  rw [hbits]
  refine ⟨?_, ?_, lt_iff, value_saturatingAdd⟩
  · intro targetBits t h
    obtain ⟨w, hw, hvalue⟩ := blockWork_eq h
    refine ⟨w, hw, hvalue, ?_⟩
    rw [hvalue]
    exact Nat.div_pos t.value_lt (Nat.succ_pos _)
  · intro bits bits' t t' w w' ht ht' hw hw' hle
    obtain ⟨v, hv, hvalue⟩ := blockWork_eq ht
    obtain ⟨v', hv', hvalue'⟩ := blockWork_eq ht'
    obtain rfl := Option.some.inj (hw.symm.trans hv)
    obtain rfl := Option.some.inj (hw'.symm.trans hv')
    rw [lt_iff, hvalue, hvalue', not_lt]
    exact Nat.div_le_div_left (Nat.succ_le_succ ((TargetBytes.lt_iff t t').mp hle).le)
      (Nat.succ_pos _)

end WorkLimbs

end Xparq
