import Xparq.Consensus.Difficulty
import Xparq.Lib.Positional

/-!
# Targets as arrays of bytes

The source keeps a target as 32 big-endian bytes and computes with them byte by byte: decoding
and encoding of the compact form, multiplication and division by a small number, comparison.
`TargetBytes` follows it. Every operation is the one of `PoWTarget` on the numbers the bytes spell
(`fromCompact_eq`, `toCompact_eq`, `scaleRatio_eq`).
-/

namespace Xparq

open Machine Positional List

/-- `PoWTarget([u8; 32])`. -/
structure TargetBytes where
  bytes : List Byte
  length_eq : bytes.length = 32
  deriving DecidableEq

namespace TargetBytes

/-- The low byte of a number. -/
def lowByte (v : Nat) : Byte := Fin.ofNat 256 (v &&& 0xff)

def zero : TargetBytes := ⟨List.replicate 32 0, length_replicate⟩

def set (t : TargetBytes) (index : Nat) (byte : Byte) : TargetBytes :=
  ⟨t.bytes.set index byte, by rw [length_set, t.length_eq]⟩

def isZero (t : TargetBytes) : Bool := t.bytes.all (· = 0)

def fromBytes (t : TargetBytes) : Option TargetBytes := if t.isZero then none else some t

/-- Arrays are compared byte by byte. -/
instance : LT TargetBytes := ⟨fun t u => t.bytes < u.bytes⟩

instance (t u : TargetBytes) : Decidable (t < u) := inferInstanceAs (Decidable (t.bytes < u.bytes))

/-! ## The compact form -/

/-- Put a mantissa byte in its place; a byte that does not fit has to be zero. -/
def placeMantissa (size : Nat) (t : TargetBytes) (p : Byte × Nat) : Option TargetBytes :=
  let index : Int := 32 - size + p.2
  if index < 0 then if p.1 ≠ 0 then none else some t
  else if index ≥ 32 then some t
  else some (t.set index.toNat p.1)

def fromCompact (compact : U32) : Option TargetBytes :=
  let size := compact.val >>> 24
  let mantissa := compact.val &&& 0x007fffff
  if compact.val &&& 0x00800000 ≠ 0 then none
  else if size = 0 ∨ mantissa = 0 then none
  else if size > 34 ∨ (mantissa > 0xff ∧ size > 33) ∨ (mantissa > 0xffff ∧ size > 32) then none
  else if size ≤ 3 then
    let value := mantissa >>> (8 * (3 - size))
    fromBytes ((List.range size).foldl (fun t index =>
      t.set (32 - size + index) (lowByte (value >>> (8 * (size - 1 - index))))) zero)
  else
    let mantissaBytes := [lowByte (mantissa >>> 16), lowByte (mantissa >>> 8), lowByte mantissa]
    (mantissaBytes.zipIdx.foldlM (placeMantissa size) zero).bind fromBytes

def toCompact (t : TargetBytes) : U32 :=
  match t.bytes.findIdx? (· ≠ 0) with
  | none => 0
  | some firstNonzero =>
    let size := 32 - firstNonzero
    let mantissa :=
      if size ≤ 3 then
        ((t.bytes.drop firstNonzero).foldl (fun value byte => value <<< 8 ||| byte.val) 0) <<<
          (8 * (3 - size))
      else
        let first := (t.bytes.getD firstNonzero 0).val
        let second := (t.bytes.getD (firstNonzero + 1) 0).val
        let third := (t.bytes.getD (firstNonzero + 2) 0).val
        first <<< 16 ||| second <<< 8 ||| third
    -- bit 23 would be taken for the sign
    if mantissa &&& 0x00800000 ≠ 0 then
      Fin.ofNat (2 ^ 32) ((size + 1) <<< 24 ||| (mantissa >>> 8) &&& 0x007fffff)
    else Fin.ofNat (2 ^ 32) (size <<< 24 ||| mantissa &&& 0x007fffff)

def powLimitBits : U32 := 0x201fffff

/-- `pow_limit` without its `expect`. -/
def powLimit : Option TargetBytes := fromCompact powLimitBits

def fromConsensusCompact (compact : U32) : Option TargetBytes :=
  (fromCompact compact).bind fun target =>
    if target.toCompact ≠ compact then none
    else powLimit.bind fun limit => if limit < target then none else some target

/-! ## Scaling -/

/-- Multiply the bytes, the last one first; the carry and the products are `u32`. -/
def multiplyBytes (numerator : U32) : List Byte → Option (U32 × List Byte)
  | [] => some (0, [])
  | byte :: rest => do
      let (carry, wide) ← multiplyBytes numerator rest
      let product ← checkedMul ⟨byte.val, byte.isLt.trans (by decide)⟩ numerator
      let product ← checkedAdd product carry
      return (⟨product.val >>> 8, (Nat.shiftRight_le _ _).trans_lt product.isLt⟩,
        lowByte product.val :: wide)

/-- Divide one byte, with the remainder of the bytes before it. -/
def divideByte (denominator : Nat) (remainder : Nat) (byte : Byte) : Nat × Byte :=
  let value := remainder <<< 8 ||| byte.val
  (value % denominator, Fin.ofNat 256 (value / denominator))

def scaleRatio (t : TargetBytes) (numerator denominator : U32) : Option TargetBytes :=
  if numerator = 0 ∨ denominator = 0 ∨ numerator.val > 255 ∨ denominator.val > 255 then none
  else do
    let (carry, wide) ← multiplyBytes numerator t.bytes
    if carry.val > 255 then none
    let wide := (mapAccuml (divideByte denominator.val) 0 (Fin.ofNat 256 carry.val :: wide)).2
    -- the result has to fit into 256 bits
    if wide.head? ≠ some 0 then none
    if h : wide.tail.length = 32 then
      let scaled : TargetBytes := ⟨wide.tail, h⟩
      return if scaled.isZero then scaled.set 31 1 else scaled
    else none

/-! ## The number the bytes spell -/

def value (t : TargetBytes) : Nat := Positional.value t.bytes

variable {t u : TargetBytes}

theorem value_lt (t : TargetBytes) : t.value < 2 ^ 256 := by
  have hlt := Positional.value_lt t.bytes
  rw [t.length_eq] at hlt
  exact lt_of_lt_of_eq hlt (by decide)

theorem eq_of_value_eq (h : t.value = u.value) : t = u := by
  obtain ⟨bytes, hbytes⟩ := t
  obtain ⟨bytes', hbytes'⟩ := u
  obtain rfl : bytes = bytes' := value_injective (hbytes.trans hbytes'.symm) h
  rfl

theorem lt_iff (t u : TargetBytes) : t < u ↔ t.value < u.value :=
  lt_iff_value_lt (t.length_eq.trans u.length_eq.symm)

/-- The bytes of a target. -/
def ofTarget (t : PoWTarget) :
    TargetBytes := ⟨(leBytes 32 t.val).reverse, by rw [length_reverse, length_leBytes]⟩

variable {size i v k : Nat} {numerator : U32}

theorem value_reverse_leBytes {w : Nat} (h : v < 256 ^ w) :
    Positional.value (leBytes w v).reverse = v := by
  induction w generalizing v with
  | zero =>
    rw [Nat.pow_zero, Nat.lt_one_iff] at h
    rw [h]
    rfl
  | succ w ih =>
    have hdiv : v / 256 < 256 ^ w := Nat.div_lt_of_lt_mul (by rwa [Nat.pow_succ, Nat.mul_comm] at h)
    rw [leBytes, reverse_cons, value_append, ih hdiv, value_cons, value_nil, length_singleton,
      length_nil, Fin.val_ofNat]
    omega

@[simp] theorem value_ofTarget (t : PoWTarget) : (ofTarget t).value = t.val :=
  value_reverse_leBytes (lt_of_lt_of_eq t.lt (by decide))

theorem ofTarget_lt {t u : PoWTarget} : ofTarget t < ofTarget u ↔ t.val < u.val := by
  rw [lt_iff, value_ofTarget, value_ofTarget]

theorem value_zero : zero.value = 0 := value_replicate_zero 32

theorem getElem?_zero (hi : i < 32) : zero.bytes[i]? = some 0 := getElem?_replicate_of_lt hi

theorem getElem?_set {j : Nat} (h : i ≠ j) (b : Byte) : (t.set i b).bytes[j]? = t.bytes[j]? :=
  getElem?_set_ne h

theorem value_set (hzero : t.bytes[i]? = some 0) (b : Byte) :
    (t.set i b).value = t.value + b.val * 256 ^ (31 - i) := by
  have hset := Positional.value_set hzero b
  rw [t.length_eq] at hset
  exact hset

theorem isZero_iff : t.isZero = true ↔ t.value = 0 := by
  constructor
  · intro h
    have hzero : t.bytes = List.replicate t.bytes.length 0 := eq_replicate_of_mem fun b hb => by
      simpa using all_eq_true.mp h b hb
    rw [value, hzero, value_replicate_zero]
  · intro h
    rw [eq_of_value_eq (h.trans value_zero.symm)]
    decide

theorem some_eq_map_ofTarget (hpos : 0 < t.value) :
    some t = (PoWTarget.ofNat? t.value).map ofTarget := by
  obtain ⟨target, htarget, hval⟩ := PoWTarget.exists_ofNat? hpos t.value_lt
  rw [htarget, Option.map_some, eq_of_value_eq ((value_ofTarget target).trans hval)]

theorem fromBytes_eq (t : TargetBytes) : t.fromBytes = (PoWTarget.ofNat? t.value).map ofTarget := by
  unfold fromBytes
  split_ifs with h
  · rw [isZero_iff.mp h]
    rfl
  · exact some_eq_map_ofTarget (Nat.pos_of_ne_zero fun hzero => h (isZero_iff.mpr hzero))

/-! ## Bits of the compact form -/

@[simp] theorem lowByte_val (v : Nat) : (lowByte v).val = v % 256 := by
  have hmask : v &&& 0xff = v % 256 := Nat.and_two_pow_sub_one_eq_mod v 8
  rw [lowByte, Fin.val_ofNat, hmask, Nat.mod_mod]

theorem mantissaMask (v : Nat) :
    v &&& 0x007fffff = v % 2 ^ 23 := Nat.and_two_pow_sub_one_eq_mod v 23

theorem signMask (v : Nat) : v &&& 0x00800000 ≠ 0 ↔ v / 2 ^ 23 % 2 = 1 := by
  have hmask : v &&& 0x00800000 = (v.testBit 23).toNat * 2 ^ 23 := Nat.and_two_pow v 23
  rw [hmask, Nat.toNat_testBit]
  omega

theorem shiftByte (v : Nat) (b : Byte) : v <<< 8 ||| b.val = v * 256 + b.val := by
  rw [← Nat.shiftLeft_add_eq_or_of_lt (i := 8) b.isLt, Nat.shiftLeft_eq]

/-! ## Decoding -/

theorem value_small (hpos : 0 < size) (hsize : size ≤ 3) (hv : v < 256 ^ size) :
    ((List.range size).foldl (fun t index =>
      t.set (32 - size + index) (lowByte (v >>> (8 * (size - 1 - index))))) zero).value = v := by
  obtain rfl | rfl | rfl : size = 1 ∨ size = 2 ∨ size = 3 := by omega
  · change (zero.set 31 (lowByte (v >>> 0))).value = v
    rw [value_set (getElem?_zero (by decide)), value_zero, lowByte_val, Nat.shiftRight_zero]
    omega
  · change ((zero.set 30 (lowByte (v >>> 8))).set 31 (lowByte (v >>> 0))).value = v
    rw [value_set (by rw [getElem?_set (by decide), getElem?_zero (by decide)]),
      value_set (getElem?_zero (by decide)), value_zero, lowByte_val, lowByte_val,
        Nat.shiftRight_zero,
      Nat.shiftRight_eq_div_pow]
    omega
  · change (((zero.set 29 (lowByte (v >>> 16))).set 30 (lowByte (v >>> 8))).set 31
      (lowByte (v >>> 0))).value = v
    rw [value_set
        (by rw [getElem?_set (by decide), getElem?_set (by decide), getElem?_zero (by decide)]),
      value_set (by rw [getElem?_set (by decide), getElem?_zero (by decide)]),
      value_set (getElem?_zero (by decide)), value_zero, lowByte_val, lowByte_val, lowByte_val,
        Nat.shiftRight_zero,
      Nat.shiftRight_eq_div_pow, Nat.shiftRight_eq_div_pow]
    omega

theorem placeMantissa_inside (hleft : size ≤ 32 + k) (hright : k < size) (t : TargetBytes)
    (b : Byte) : placeMantissa size t (b, k) = some (t.set (32 + k - size) b) := by
  have hindex : ((32 : Int) - size + k).toNat = 32 + k - size := by omega
  simp only [placeMantissa, hindex]
  rw [if_neg (by omega), if_neg (by omega)]

theorem placeMantissa_outside (h : 32 + k < size) (t : TargetBytes) :
    placeMantissa size t (0, k) = some t := by
  simp only [placeMantissa]
  rw [if_pos (by omega)]
  rfl

theorem value_large {mantissa : Nat} (hsize : 3 < size) (hsize' : size ≤ 34)
    (hmantissa : mantissa < 2 ^ 23) (h33 : size = 33 → mantissa ≤ 0xffff)
    (h34 : size = 34 → mantissa ≤ 0xff) :
    ∃ t, ([lowByte (mantissa >>> 16), lowByte (mantissa >>> 8), lowByte mantissa].zipIdx.foldlM
      (placeMantissa size) zero) = some t ∧ t.value = mantissa * 2 ^ (8 * (size - 3)) := by
  have hfirst : (lowByte (mantissa >>> 16)).val = mantissa / 65536 := by
    rw [lowByte_val, Nat.shiftRight_eq_div_pow]
    omega
  have hsecond : (lowByte (mantissa >>> 8)).val = mantissa / 256 % 256 := by
    rw [lowByte_val, Nat.shiftRight_eq_div_pow]
  simp only [zipIdx_cons, zipIdx_nil, foldlM_cons, foldlM_nil, Nat.zero_add, Nat.reduceAdd,
    Option.bind_eq_bind, Option.pure_def, Option.bind_fun_some]
  rw [Nat.pow_mul, show (2 : Nat) ^ 8 = 256 from rfl]
  obtain hle | rfl | rfl : size ≤ 32 ∨ size = 33 ∨ size = 34 := by omega
  · rw [placeMantissa_inside (by omega) (by omega), Option.bind_some,
      placeMantissa_inside (by omega) (by omega), Option.bind_some,
      placeMantissa_inside (by omega) (by omega)]
    refine ⟨_, rfl, ?_⟩
    rw [value_set
        (by rw [getElem?_set (by omega), getElem?_set (by omega), getElem?_zero (by omega)]),
      value_set (by rw [getElem?_set (by omega), getElem?_zero (by omega)]),
      value_set (getElem?_zero (by omega)), value_zero, hfirst, hsecond, lowByte_val,
      show 31 - (32 + 0 - size) = size - 3 + 2 by
        omega, show 31 - (32 + 1 - size) = size - 3 + 1 by omega,
      show 31 - (32 + 2 - size) = size - 3 by omega, Nat.pow_add, Nat.pow_add]
    generalize 256 ^ (size - 3) = P
    have hsplit : mantissa = mantissa / 65536 * 65536 + mantissa / 256 % 256 * 256 +
        mantissa % 256 := by omega
    calc 0 + mantissa / 65536 * (P * 256 ^ 2) + mantissa / 256 % 256 * (P * 256 ^ 1) +
          mantissa % 256 * P
        = (mantissa / 65536 * 65536 + mantissa / 256 % 256 * 256 + mantissa % 256) * P := by ring
      _ = mantissa * P := by rw [← hsplit]
  · have hzero : lowByte (mantissa >>> 16) = 0 :=
      Fin.ext (hfirst.trans (by have := h33 rfl; rw [Fin.val_zero]; omega))
    rw [hzero, placeMantissa_outside (by omega), Option.bind_some,
      placeMantissa_inside (by omega) (by omega), Option.bind_some,
      placeMantissa_inside (by omega) (by omega)]
    refine ⟨_, rfl, ?_⟩
    rw [value_set (by rw [getElem?_set (by omega), getElem?_zero (by omega)]),
      value_set (getElem?_zero (by omega)), value_zero, hsecond, lowByte_val]
    have hbound := h33 rfl
    norm_num
    omega
  · have hbound := h34 rfl
    have hzero : lowByte (mantissa >>> 16) = 0 :=
      Fin.ext (hfirst.trans (by rw [Fin.val_zero]; omega))
    have hzero' : lowByte (mantissa >>> 8) = 0 :=
      Fin.ext (hsecond.trans (by rw [Fin.val_zero]; omega))
    rw [hzero, hzero', placeMantissa_outside (by omega), Option.bind_some,
      placeMantissa_outside (by omega), Option.bind_some,
      placeMantissa_inside (by omega) (by omega)]
    refine ⟨_, rfl, ?_⟩
    rw [value_set (getElem?_zero (by omega)), value_zero, lowByte_val, Nat.mod_eq_of_lt (by omega)]
    norm_num

/-- The bytes of a decoded target are those of its number. -/
theorem fromCompact_eq (compact : U32) :
    fromCompact compact = (PoWTarget.fromCompact compact).map ofTarget := by
  have hlt := compact.isLt
  unfold fromCompact PoWTarget.fromCompact
  simp only [mantissaMask, signMask, Nat.shiftRight_eq_div_pow]
  generalize hsize : compact.val / 2 ^ 24 = size
  generalize hmantissa : compact.val % 2 ^ 23 = mantissa
  have hroom : mantissa < 2 ^ 23 := by omega
  by_cases hvalid : compact.val / 2 ^ 23 % 2 = 1 ∨ size = 0 ∨ mantissa = 0 ∨ size > 34 ∨
      (mantissa > 0xff ∧ size > 33) ∨ (mantissa > 0xffff ∧ size > 32)
  · rw [if_pos hvalid, Option.map_none]
    split_ifs
    · rfl
    · rfl
    · rfl
    · omega
    · omega
  · rw [if_neg hvalid, if_neg (by omega), if_neg (by omega), if_neg (by omega)]
    by_cases hsmall : size ≤ 3
    · have hfits : mantissa / 2 ^ (8 * (3 - size)) < 256 ^ size := by
        rw [Nat.div_lt_iff_lt_mul (Nat.two_pow_pos _), show 256 = 2 ^ 8 from rfl, ← Nat.pow_mul,
          ← Nat.pow_add]
        exact lt_of_lt_of_le hroom (Nat.pow_le_pow_right Nat.two_pos (by omega))
      have hbytes := value_small (by omega) hsmall hfits
      simp only [Nat.shiftRight_eq_div_pow] at hbytes
      rw [if_pos hsmall, if_pos hsmall, fromBytes_eq, hbytes]
    · have hlarge : 3 < size := not_le.mp hsmall
      obtain ⟨t, ht, hvalue⟩ := value_large hlarge (by omega) hroom (by omega) (by omega)
      simp only [Nat.shiftRight_eq_div_pow] at ht
      rw [if_neg hsmall, if_neg hsmall, ht, Option.bind_some, fromBytes_eq, hvalue]

/-! ## Encoding -/

theorem byteSize_eq (hlower : 256 ^ (size - 1) ≤ v) (hupper : v < 256 ^ size) :
    PoWTarget.byteSize v = size := by
  have hne : v ≠ 0 := (lt_of_lt_of_le (Nat.pow_pos (by decide)) hlower).ne'
  rw [show 256 = 2 ^ 8 from rfl, ← Nat.pow_mul] at hlower hupper
  have hge := (Nat.le_log2 hne).mpr hlower
  have hlt := (Nat.log2_lt hne).mpr hupper
  unfold PoWTarget.byteSize
  omega

theorem foldl_shiftByte (l : List Byte) (v : Nat) :
    l.foldl (fun value byte => value <<< 8 ||| byte.val) v = v * 256 ^ l.length +
      Positional.value l := by
  induction l generalizing v with
  | nil => simp
  | cons b l ih =>
    rw [foldl_cons, ih, shiftByte, value_cons, length_cons, Nat.pow_succ]
    ring

theorem or_mantissa (size mantissa : Nat) :
    size <<< 24 ||| mantissa &&& 0x007fffff = size * 2 ^ 24 + mantissa % 2 ^ 23 := by
  have hroom : mantissa % 2 ^ 23 < 2 ^ 24 := by omega
  rw [mantissaMask, ← Nat.shiftLeft_add_eq_or_of_lt hroom, Nat.shiftLeft_eq]

theorem or_threeBytes (a b c : Byte) :
    a.val <<< 16 ||| b.val <<< 8 ||| c.val = Positional.value [a, b, c] := by
  have hfold := foldl_shiftByte [a, b, c] 0
  have hshift : (a.val <<< 8 ||| b.val) <<< 8 = a.val <<< 16 ||| b.val <<< 8 := by
    rw [Nat.shiftLeft_or_distrib, ← Nat.shiftLeft_add]
  simp only [foldl_cons, foldl_nil, Nat.zero_shiftLeft, Nat.zero_or, Nat.zero_mul, Nat.zero_add]
    at hfold
  rw [← hfold, hshift]

theorem drop_eq_getD_cons {l : List Byte} (hi : i < l.length) :
    l.drop i = l.getD i 0 :: l.drop (i + 1) := by
  rw [drop_eq_getElem_cons hi, getD_eq_getElem l 0 hi]

theorem toCompact_ofTarget (t : PoWTarget) : (ofTarget t).toCompact = t.toCompact := by
  have hbytes : Positional.value (ofTarget t).bytes = t.val := value_ofTarget t
  obtain ⟨firstNonzero, hfind, hlt, hvalue, hlower⟩ := exists_findIdx? (hbytes ▸ t.pos)
  have hlength : ((ofTarget t).bytes.drop firstNonzero).length = 32 - firstNonzero := by
    rw [length_drop, (ofTarget t).length_eq]
  have hupper := Positional.value_lt ((ofTarget t).bytes.drop firstNonzero)
  rw [(ofTarget t).length_eq] at hlt hlower
  rw [hvalue, hbytes, hlength] at hupper
  rw [hbytes, show 32 - 1 - firstNonzero = 32 - firstNonzero - 1 by omega] at hlower
  have hsize : PoWTarget.byteSize t.val = 32 - firstNonzero := byteSize_eq hlower hupper
  have hmantissa : (if 32 - firstNonzero ≤ 3 then
      (((ofTarget t).bytes.drop firstNonzero).foldl
        (fun value byte => value <<< 8 ||| byte.val) 0) <<< (8 * (3 - (32 - firstNonzero)))
      else ((ofTarget t).bytes.getD firstNonzero 0).val <<< 16 |||
        ((ofTarget t).bytes.getD (firstNonzero + 1) 0).val <<< 8 |||
        ((ofTarget t).bytes.getD (firstNonzero + 2) 0).val) = PoWTarget.threeBytes t.val
          (32 - firstNonzero) := by
    unfold PoWTarget.threeBytes
    split_ifs with hsmall
    · rw [foldl_shiftByte, Nat.zero_mul, Nat.zero_add, hvalue, hbytes, Nat.shiftLeft_eq]
    · have hall := (ofTarget t).length_eq
      have htake := value_take ((ofTarget t).bytes.drop firstNonzero) 3
      have hpow : 2 ^ (8 * (32 - firstNonzero - 3)) = 256 ^ (32 - firstNonzero - 3) :=
        Nat.pow_mul 2 8 _
      rw [hvalue, hbytes, hlength] at htake
      rw [hpow, ← htake, or_threeBytes, drop_eq_getD_cons (by omega), drop_eq_getD_cons (by omega),
        drop_eq_getD_cons (by omega)]
      rfl
  unfold toCompact PoWTarget.toCompact
  rw [hfind]
  dsimp only
  rw [hmantissa, hsize]
  simp only [signMask, or_mantissa, Nat.shiftRight_eq_div_pow]
  rfl

/-! ## Scaling -/

/-- From the last byte to the first. The carry stays below 256, so the 32-bit accumulator is enough.
-/
theorem exists_multiplyBytes (hn : numerator.val ≤ 255) (l : List Byte) :
    ∃ carry wide, multiplyBytes numerator l = some (carry, wide) ∧ wide.length = l.length ∧
      carry.val ≤ 255 ∧
      numerator.val * Positional.value l = carry.val * 256 ^ l.length + Positional.value wide := by
  induction l with
  | nil => exact ⟨0, [], rfl, rfl, Nat.zero_le _, by simp⟩
  | cons byte l ih =>
    obtain ⟨carry, wide, hrest, hlength, hcarry, hvalue⟩ := ih
    have hproduct : byte.val * numerator.val ≤ 255 * 255 :=
      Nat.mul_le_mul (Nat.le_of_lt_succ byte.isLt) hn
    have hsum : byte.val * numerator.val + carry.val < 2 ^ 32 := by omega
    refine ⟨⟨(byte.val * numerator.val + carry.val) >>> 8, (Nat.shiftRight_le _ _).trans_lt hsum⟩,
      lowByte (byte.val * numerator.val + carry.val) :: wide, ?_, congrArg (· + 1) hlength, ?_, ?_⟩
    · rw [multiplyBytes, hrest, Option.bind_eq_bind, Option.bind_some]
      dsimp only
      rw [checkedMul, dif_pos (by simp only; omega), Option.bind_eq_bind, Option.bind_some,
        checkedAdd, dif_pos (by exact hsum), Option.bind_some]
      rfl
    · simp only [Nat.shiftRight_eq_div_pow]
      omega
    · have hdivided := Nat.div_add_mod' (byte.val * numerator.val + carry.val) 256
      simp only [value_cons, lowByte_val, Nat.shiftRight_eq_div_pow, hlength,
        length_cons, Nat.pow_succ, show (2 : Nat) ^ 8 = 256 from rfl]
      calc numerator.val * (byte.val * 256 ^ l.length + Positional.value l)
          = byte.val * numerator.val * 256 ^ l.length + numerator.val * Positional.value l := by
            ring
        _ = (byte.val * numerator.val + carry.val) * 256 ^ l.length + Positional.value wide := by
          rw [hvalue]
          ring
        _ = ((byte.val * numerator.val + carry.val) / 256 * 256 +
            (byte.val * numerator.val + carry.val) % 256) * 256 ^ l.length + Positional.value
              wide := by rw [hdivided]
        _ = _ := by ring

theorem divideByte_step (denominator remainder : Nat) (byte : Byte) (h : remainder < denominator) :
    (divideByte denominator remainder byte).1 < denominator ∧ remainder * 256 + byte.val =
      (divideByte denominator remainder byte).2.val * denominator +
      (divideByte denominator remainder byte).1 := by
  have hfits : (remainder * 256 + byte.val) / denominator < 256 := by
    rw [Nat.div_lt_iff_lt_mul (Nat.zero_lt_of_lt h)]
    have := byte.isLt
    omega
  simp only [divideByte, shiftByte, Fin.val_ofNat, Nat.mod_eq_of_lt hfits]
  exact ⟨Nat.mod_lt _ (Nat.zero_lt_of_lt h), (Nat.div_add_mod' _ _).symm⟩

/-- Scaling the bytes scales the number. -/
theorem scaleRatio_eq (t : PoWTarget) {denominator : U32} (hn : numerator ≠ 0)
    (hd : denominator ≠ 0) (hn' : numerator.val ≤ 255) (hd' : denominator.val ≤ 255) :
    (ofTarget t).scaleRatio numerator denominator =
      (t.scaleRatio numerator.val denominator.val).map ofTarget := by
  obtain ⟨carry, wide, hmultiply, hlength, hcarry, hvalue⟩ :=
    exists_multiplyBytes hn' (ofTarget t).bytes
  have hbytes : Positional.value (ofTarget t).bytes = t.val := value_ofTarget t
  rw [(ofTarget t).length_eq] at hlength hvalue
  have hpos : 0 < denominator.val := Nat.pos_of_ne_zero fun hzero => hd (Fin.ext hzero)
  obtain ⟨hremainder, hdivide⟩ := value_mapAccuml (divideByte_step denominator.val)
    (Fin.ofNat 256 carry.val :: wide) hpos
  have hwide := length_mapAccuml (divideByte denominator.val) 0 (Fin.ofNat 256 carry.val :: wide)
  rw [Nat.zero_mul, Nat.zero_add, value_cons, Fin.val_ofNat,
    Nat.mod_eq_of_lt (Nat.lt_succ_of_le hcarry), hlength, ← hvalue, hbytes] at hdivide
  rw [length_cons, hlength] at hwide
  have hquotient : Positional.value (mapAccuml (divideByte denominator.val) 0
      (Fin.ofNat 256 carry.val :: wide)).2 =
      t.val * numerator.val / denominator.val := by
    rw [Nat.mul_comm t.val, hdivide, Nat.mul_comm, Nat.mul_add_div hpos,
      Nat.div_eq_of_lt hremainder, Nat.add_zero]
  unfold scaleRatio PoWTarget.scaleRatio
  rw [if_neg (by simp [hn, hd]; omega), hmultiply, Option.bind_eq_bind, Option.bind_some]
  dsimp only
  rw [if_neg (by omega), ← hquotient]
  generalize (mapAccuml (divideByte denominator.val) 0 (Fin.ofNat 256 carry.val :: wide)).2 = q at *
  cases q with
  | nil => cases hwide
  | cons first rest =>
    have hrest : rest.length = 32 := Nat.succ.inj hwide
    rw [value_cons, hrest]
    by_cases hfirst : first = 0
    · -- the quotient fits, and zero is raised to one
      subst hfirst
      rw [if_neg (by simp), tail_cons, dif_pos hrest, Fin.val_zero, Nat.zero_mul, Nat.zero_add]
      change some (if isZero ⟨rest, hrest⟩ then set ⟨rest, hrest⟩ 31 1 else ⟨rest, hrest⟩) =
        (PoWTarget.ofNat? (max (value ⟨rest, hrest⟩) 1)).map ofTarget
      generalize (⟨rest, hrest⟩ : TargetBytes) = scaled
      split_ifs with hzero
      · obtain rfl : scaled = zero := eq_of_value_eq ((isZero_iff.mp hzero).trans value_zero.symm)
        exact some_eq_map_ofTarget (by decide)
      · have hpositive : 1 ≤ scaled.value :=
          Nat.one_le_iff_ne_zero.mpr fun h => hzero (isZero_iff.mpr h)
        rw [Nat.max_eq_left hpositive]
        exact some_eq_map_ofTarget hpositive
    · have hlarge : 1 * 256 ^ 32 ≤ first.val * 256 ^ 32 :=
        Nat.mul_le_mul_right _ (Nat.one_le_iff_ne_zero.mpr fun hzero => hfirst (Fin.ext hzero))
      have hoverflow : 2 ^ 256 ≤ max (first.val * 256 ^ 32 + Positional.value rest) 1 :=
        calc 2 ^ 256 = 1 * 256 ^ 32 := by decide
          _ ≤ first.val * 256 ^ 32 := hlarge
          _ ≤ first.val * 256 ^ 32 + Positional.value rest := Nat.le_add_right _ _
          _ ≤ _ := le_max_left _ _
      have hnone : PoWTarget.ofNat? (max (first.val * 256 ^ 32 + Positional.value rest) 1) = none :=
        dif_neg fun hfits => absurd hfits.2 (not_lt.mpr hoverflow)
      rw [if_pos (by simpa using hfirst), hnone]
      rfl

end TargetBytes

end Xparq
