import Xparq.Blockchain.Chain

/-!
# Targets, difficulty and proof of work

A target is a 256-bit number; the compact form keeps its most significant 23 bits. The
difficulty changes at epoch boundaries only, by the average weight of the epoch's blocks.
The long division of the source is modelled by the division of numbers.
-/

namespace Xparq

open Machine Outcome

def targetBitsStart : U32 := 0x201fffff

/-- A target: a positive 256-bit number. -/
structure PoWTarget where
  val : Nat
  pos : 0 < val
  lt : val < 2 ^ 256
  deriving DecidableEq

namespace PoWTarget

def ofNat? (v : Nat) : Option PoWTarget :=
  if h : 0 < v ∧ v < 2 ^ 256 then some ⟨v, h.1, h.2⟩ else none

/-- Exponent byte, sign bit, 23-bit mantissa. -/
def fromCompact (compact : U32) : Option PoWTarget :=
  let size := compact.val / 2 ^ 24
  let mantissa := compact.val % 2 ^ 23
  if compact.val / 2 ^ 23 % 2 = 1 ∨ size = 0 ∨ mantissa = 0 ∨ size > 34 ∨
      (mantissa > 0xff ∧ size > 33) ∨ (mantissa > 0xffff ∧ size > 32) then none
  else if size ≤ 3 then ofNat? (mantissa / 2 ^ (8 * (3 - size)))
  else ofNat? (mantissa * 2 ^ (8 * (size - 3)))

/-- The number of bytes of the big-endian form without leading zeros. -/
def byteSize (v : Nat) : Nat := (Nat.log2 v) / 8 + 1

def toCompact (t : PoWTarget) : U32 :=
  let size := byteSize t.val
  let mantissa := if size ≤ 3 then t.val * 2 ^ (8 * (3 - size)) else t.val / 2 ^ (8 * (size - 3))
  if mantissa / 2 ^ 23 % 2 = 1
    then Fin.ofNat (2 ^ 32) ((size + 1) * 2 ^ 24 + mantissa / 2 ^ 8 % 2 ^ 23)
  else Fin.ofNat (2 ^ 32) (size * 2 ^ 24 + mantissa % 2 ^ 23)

/-- Scale by a ratio of bytes; zero is raised to one, an overflow has no result. -/
def scaleRatio (t : PoWTarget) (numerator denominator : Nat) : Option PoWTarget :=
  ofNat? (max (t.val * numerator / denominator) 1)

def meets (t : PoWTarget) (hash : Hash) : Bool := hash.val ≤ t.val

end PoWTarget

def wbdaWindow : Nat := 2500
def wbdaTargetBlockWeight : Nat := 1024 * 1024

/-- Below 80 % utilization the target shrinks, above 120 % it grows. -/
def nextTarget (previous : PoWTarget) (weights : List Nat) : Option PoWTarget :=
  let utilization := weights.sum / wbdaWindow * 1000000 / wbdaTargetBlockWeight
  if utilization < 800000 then previous.scaleRatio 80 100
  else if utilization > 1200000 then previous.scaleRatio 120 100
  else some previous

def nextDifficultyFromWindow (previousBits : U32) (weights : List Nat) : Option U32 := do
  if weights.length ≠ wbdaWindow then none
  let previous ← PoWTarget.fromCompact previousBits
  let limit ← PoWTarget.fromCompact targetBitsStart
  let next ← nextTarget previous weights
  return (if next.val > limit.val then limit else next).toCompact

def isWbdaEpochBoundary (height : Nat) : Bool := height > 1 && (height - 1) % wbdaWindow = 0

def expectedDifficultyForHeight {ε : Type} (nextHeight : Nat) (parentDifficulty : U32)
    (weightAt : Nat → Except ε Nat) : Except ε (Option U32) :=
  if nextHeight = 1 then .ok (some targetBitsStart)
  else if isWbdaEpochBoundary nextHeight = false then .ok (some parentDifficulty)
  else do
    let weights ← (List.range wbdaWindow).mapM fun i => weightAt (nextHeight - wbdaWindow + i)
    return nextDifficultyFromWindow parentDifficulty weights

/-- The difficulty the chain requires at a height. -/
def expectedDifficulty (chain : Chain) (height : Height) : Except ConsensusError U32 :=
  if height = 0 then .ok genesisTargetBits
  else do
    let headerAt := fun n => okOr ((Machine.ofNat? (2 ^ 64) n).bind chain.header)
      ConsensusError.invalidPreviousHash
    let parent ← headerAt (height.val - 1)
    let bits ← expectedDifficultyForHeight height.val parent.targetBits fun n =>
      (headerAt n).map fun h => h.blockWeight.val
    okOr bits .invalidDifficulty

def expectedNextDifficulty (chain : Chain) : Except ConsensusError U32 :=
  expectedDifficulty chain ((chain.tipHeight.map Height.next).getD 0)

section
variable [Crypto]

/-- The memory-hard hash of a header. -/
def calculateWork (h : Header) : Hash :=
  Crypto.argon2id (domain .powSeed h.encode).bytes (domain .powSalt h.previousHash.bytes).bytes

def verifyPow (h : Header) (expectedBits : U32) : Except ConsensusError Unit := do
  let target ← okOr (PoWTarget.fromCompact expectedBits) .invalidDifficulty
  rejectIf (h.targetBits ≠ expectedBits) .unexpectedDifficulty
  rejectIf (target.meets (calculateWork h) = false) .insufficientPoW

/-- `Consensus::validate_pow_at_target_bits`. -/
def validatePowAtTargetBits (h : Header) (expectedBits : U32) : Except ConsensusError Unit := do
  rejectIf (h.targetBits ≠ expectedBits) .unexpectedDifficulty
  let _ ← okOr (PoWTarget.fromCompact expectedBits) .invalidDifficulty
  verifyPow h h.targetBits

end

/-! ## The compact form -/

namespace PoWTarget

variable {v : Nat}

theorem ofNat?_eq_some_iff {t : PoWTarget} : ofNat? v = some t ↔ t.val = v := by
  unfold ofNat?
  split
  · rw [Option.some.injEq]
    constructor
    · rintro rfl
      rfl
    · intro h
      cases t
      cases h
      rfl
  · rename_i hv
    constructor
    · nofun
    · rintro rfl
      exact absurd ⟨t.pos, t.lt⟩ hv

theorem exists_ofNat? (hpos : 0 < v) (hlt : v < 2 ^ 256) : ∃ t, ofNat? v = some t ∧ t.val = v :=
  ⟨⟨v, hpos, hlt⟩, dif_pos ⟨hpos, hlt⟩, rfl⟩

theorem fromCompact_pack {size mantissa : Nat} (hsize : 0 < size) (hsize' : size ≤ 33)
    (hmantissa : 0 < mantissa) (hmantissa' : mantissa < 2 ^ 23)
    (hlast : size = 33 → mantissa < 2 ^ 16) :
    fromCompact (Fin.ofNat (2 ^ 32) (size * 2 ^ 24 + mantissa)) =
      if size ≤ 3 then ofNat? (mantissa / 2 ^ (8 * (3 - size)))
      else ofNat? (mantissa * 2 ^ (8 * (size - 3))) := by
  have hval : (Fin.ofNat (2 ^ 32) (size * 2 ^ 24 + mantissa)).val = size * 2 ^ 24 + mantissa := by
    rw [Fin.val_ofNat]
    exact Nat.mod_eq_of_lt (by omega)
  have hdiv : (size * 2 ^ 24 + mantissa) / 2 ^ 24 = size := by omega
  have hmod : (size * 2 ^ 24 + mantissa) % 2 ^ 23 = mantissa := by omega
  have hsign : (size * 2 ^ 24 + mantissa) / 2 ^ 23 % 2 = 0 := by omega
  rw [fromCompact, hval]
  simp only [hdiv, hmod, hsign]
  rw [if_neg]
  omega

/-- The three bytes of a number that has `size` of them. -/
def threeBytes (v size : Nat) :
    Nat := if size ≤ 3 then v * 2 ^ (8 * (3 - size)) else v / 2 ^ (8 * (size - 3))

theorem threeBytes_succ (v size : Nat) : threeBytes v (size + 1) = threeBytes v size / 2 ^ 8 := by
  unfold threeBytes
  rcases Nat.lt_trichotomy size 3 with hsize | rfl | hsize
  · rw [if_pos (by omega), if_pos (by omega), show 8 * (3 - size) = 8 * (3 - (size + 1)) + 8 by
      omega, Nat.pow_add, ← Nat.mul_assoc, Nat.mul_div_cancel _ (Nat.two_pow_pos 8)]
  · rw [if_neg (by decide), if_pos (by decide)]
    simp
  · rw [if_neg (by omega), if_neg (by omega), Nat.div_div_eq_div_mul, ← Nat.pow_add]
    congr 2
    omega

theorem threeBytes_bounds (size : Nat) (hv : v ≠ 0) (hsize : 8 * size ≤ Nat.log2 v + 24) :
    2 ^ (Nat.log2 v + 24 - 8 * size) ≤ threeBytes v size ∧
      threeBytes v size < 2 ^ (Nat.log2 v + 25 - 8 * size) := by
  have hlower := Nat.log2_self_le hv
  have hupper : v < 2 ^ (Nat.log2 v + 1) := Nat.lt_log2_self
  unfold threeBytes
  generalize Nat.log2 v = L at *
  split_ifs with hsmall
  · constructor
    · calc 2 ^ (L + 24 - 8 * size)
          = 2 ^ L * 2 ^ (8 * (3 - size)) := by rw [← Nat.pow_add]; congr 1; omega
        _ ≤ _ := Nat.mul_le_mul_right _ hlower
    · calc v * 2 ^ (8 * (3 - size)) < 2 ^ (L + 1) * 2 ^ (8 * (3 - size)) :=
          Nat.mul_lt_mul_of_pos_right hupper (Nat.two_pow_pos _)
        _ = 2 ^ (L + 25 - 8 * size) := by rw [← Nat.pow_add]; congr 1; omega
  · constructor
    · rw [Nat.le_div_iff_mul_le (Nat.two_pow_pos _), ← Nat.pow_add]
      refine le_trans (Nat.pow_le_pow_right Nat.two_pos ?_) hlower
      omega
    · rw [Nat.div_lt_iff_lt_mul (Nat.two_pow_pos _), ← Nat.pow_add]
      refine lt_of_lt_of_le hupper (Nat.pow_le_pow_right Nat.two_pos ?_)
      omega

/-- The exponent of the compact form: the number of bytes, the sign bit included. -/
def compactSize (v : Nat) : Nat := (Nat.log2 v + 1) / 8 + 1

theorem toCompact_eq (t : PoWTarget) :
    t.toCompact = Fin.ofNat (2 ^ 32) (compactSize t.val * 2 ^ 24 + threeBytes t.val
      (compactSize t.val)) := by
  have hsize : byteSize t.val = Nat.log2 t.val / 8 + 1 := rfl
  obtain ⟨hlower, hupper⟩ := threeBytes_bounds (byteSize t.val) t.pos.ne' (by omega)
  change (if threeBytes t.val (byteSize t.val) / 2 ^ 23 % 2 = 1
    then Fin.ofNat (2 ^ 32) ((byteSize t.val + 1) * 2 ^ 24 + threeBytes t.val (byteSize t.val) / 2
      ^ 8 % 2 ^ 23)
    else Fin.ofNat (2 ^ 32) (byteSize t.val * 2 ^ 24 + threeBytes t.val (byteSize t.val) % 2
      ^ 23)) = _
  by_cases hlast : Nat.log2 t.val % 8 = 7
  · have hcompact : compactSize t.val = byteSize t.val + 1 := by
      unfold compactSize
      omega
    rw [show Nat.log2 t.val + 24 - 8 * byteSize t.val = 23 by omega] at hlower
    rw [show Nat.log2 t.val + 25 - 8 * byteSize t.val = 24 by omega] at hupper
    rw [if_pos (by omega), hcompact, threeBytes_succ, Nat.mod_eq_of_lt (by omega)]
  · have hcompact : compactSize t.val = byteSize t.val := by
      unfold compactSize
      omega
    have hroom : threeBytes t.val (byteSize t.val) < 2 ^ 23 :=
      lt_of_lt_of_le hupper (Nat.pow_le_pow_right Nat.two_pos (by omega))
    rw [if_neg (by omega), hcompact, Nat.mod_eq_of_lt hroom]

/-- What the compact form keeps of a number. -/
def compactValue (v : Nat) :
    Nat := v / 2 ^ (8 * (compactSize v - 3)) * 2 ^ (8 * (compactSize v - 3))

theorem compactValue_le (v : Nat) : compactValue v ≤ v := Nat.div_mul_le_self _ _

theorem two_pow_le_or_small (hv : v ≠ 0) :
    2 ^ (8 * (compactSize v - 3) + 15) ≤ v ∨ compactSize v ≤ 3 := by
  by_cases hsmall : compactSize v ≤ 3
  · exact .inr hsmall
  · refine .inl (le_trans (Nat.pow_le_pow_right Nat.two_pos ?_) (Nat.log2_self_le hv))
    unfold compactSize at *
    omega

theorem threeBytes_compactValue (v : Nat) :
    threeBytes (compactValue v) (compactSize v) = threeBytes v (compactSize v) := by
  unfold threeBytes compactValue
  split_ifs with hsmall
  · rw [Nat.sub_eq_zero_of_le hsmall]
    simp
  · rw [Nat.mul_div_cancel _ (Nat.two_pow_pos _)]

theorem lt_compactValue (hv : v ≠ 0) : v * (2 ^ 15 - 1) < compactValue v * 2 ^ 15 := by
  unfold compactValue
  rcases two_pow_le_or_small hv with hle | hsmall
  · rw [Nat.pow_add] at hle
    have hpos := Nat.two_pow_pos (8 * (compactSize v - 3))
    generalize 2 ^ (8 * (compactSize v - 3)) = P at *
    have hmod := Nat.mod_lt v hpos
    have hdiv := Nat.div_add_mod' v P
    omega
  · rw [Nat.sub_eq_zero_of_le hsmall]
    have hpos := Nat.pos_of_ne_zero hv
    simp only [Nat.mul_zero, Nat.pow_zero, Nat.div_one, Nat.mul_one]
    omega

theorem log2_compactValue (hv : v ≠ 0) : Nat.log2 (compactValue v) = Nat.log2 v := by
  have hlower := Nat.log2_self_le hv
  have hupper : v < 2 ^ (Nat.log2 v + 1) := Nat.lt_log2_self
  have hexp : 8 * (compactSize v - 3) ≤ Nat.log2 v := by
    unfold compactSize
    omega
  have hkept : 2 ^ Nat.log2 v ≤ compactValue v := by
    have hquotient : 2 ^ (Nat.log2 v - 8 * (compactSize v - 3)) ≤
        v / 2 ^ (8 * (compactSize v - 3)) := by
      rw [Nat.le_div_iff_mul_le (Nat.two_pow_pos _), ← Nat.pow_add, Nat.sub_add_cancel hexp]
      exact hlower
    calc 2 ^ Nat.log2 v
        = 2 ^ (Nat.log2 v - 8 * (compactSize v - 3)) * 2 ^ (8 * (compactSize v - 3)) := by
          rw [← Nat.pow_add, Nat.sub_add_cancel hexp]
      _ ≤ compactValue v := Nat.mul_le_mul_right _ hquotient
  have hne : compactValue v ≠ 0 := (lt_of_lt_of_le (Nat.two_pow_pos _) hkept).ne'
  exact (Nat.log2_eq_iff hne).mpr ⟨hkept, lt_of_le_of_lt (compactValue_le v) hupper⟩

theorem exists_fromCompact_toCompact (t : PoWTarget) :
    ∃ t', fromCompact t.toCompact = some t' ∧ t'.val = compactValue t.val ∧
      t'.toCompact = t.toCompact := by
  have hne := t.pos.ne'
  have hlog : Nat.log2 t.val < 256 := (Nat.log2_lt hne).mpr t.lt
  have hsize : compactSize t.val = (Nat.log2 t.val + 1) / 8 + 1 := rfl
  obtain ⟨hlower, hupper⟩ := threeBytes_bounds (compactSize t.val) hne (by omega)
  have hpos : 0 < threeBytes t.val (compactSize t.val) := lt_of_lt_of_le (Nat.two_pow_pos _) hlower
  have hroom : threeBytes t.val (compactSize t.val) < 2 ^ 23 :=
    lt_of_lt_of_le hupper (Nat.pow_le_pow_right Nat.two_pos (by omega))
  have hlast : compactSize t.val = 33 → threeBytes t.val (compactSize t.val) < 2 ^ 16 := fun h =>
    lt_of_lt_of_le hupper (Nat.pow_le_pow_right Nat.two_pos (by omega))
  have hlogs := log2_compactValue hne
  have hkept : 0 < compactValue t.val := by
    have hloss := lt_compactValue hne
    omega
  obtain ⟨t', ht', hval⟩ := exists_ofNat? hkept (lt_of_le_of_lt (compactValue_le _) t.lt)
  have hsizes : compactSize t'.val = compactSize t.val := by
    rw [compactSize, hval, hlogs, compactSize]
  refine ⟨t', ?_, hval, ?_⟩
  · rw [toCompact_eq, fromCompact_pack (by omega) (by omega) hpos hroom hlast, ← ht']
    unfold threeBytes compactValue
    split_ifs with hsmall
    · rw [Nat.mul_div_cancel _ (Nat.two_pow_pos _), Nat.sub_eq_zero_of_le hsmall]
      simp
    · rfl
  · rw [toCompact_eq, toCompact_eq, hsizes, hval, threeBytes_compactValue]

end PoWTarget

/-! ## The next difficulty exists -/

/-- A compact form of a target that is not easier than the first one. -/
def Admissible (bits : U32) :
    Prop := ∃ t, PoWTarget.fromCompact bits = some t ∧ t.val ≤ 0x1fffff * 2 ^ 232

theorem exists_limit : ∃ limit, PoWTarget.fromCompact targetBitsStart = some limit ∧
    limit.val = 0x1fffff * 2 ^ 232 :=
  ⟨⟨0x1fffff * 2 ^ 232, by decide, by decide⟩, by decide +kernel, rfl⟩

theorem admissible_start : Admissible targetBitsStart := by
  obtain ⟨limit, hlimit, hval⟩ := exists_limit
  exact ⟨limit, hlimit, hval.le⟩

theorem limited_le (limit next : PoWTarget) :
    (if next.val > limit.val then limit else next).val ≤ limit.val := by
  split_ifs with h
  · exact le_rfl
  · exact not_lt.mp h

theorem exists_nextTarget {t : PoWTarget} (ht : t.val ≤ 0x1fffff * 2 ^ 232) (weights : List Nat) :
    ∃ next, nextTarget t weights = some next := by
  have hpos := t.pos
  unfold nextTarget
  simp only
  split_ifs
  · obtain ⟨next, hnext, _⟩ :=
      PoWTarget.exists_ofNat? (v := max (t.val * 80 / 100) 1) (by omega) (by omega)
    exact ⟨next, hnext⟩
  · obtain ⟨next, hnext, _⟩ :=
      PoWTarget.exists_ofNat? (v := max (t.val * 120 / 100) 1) (by omega) (by omega)
    exact ⟨next, hnext⟩
  · exact ⟨t, rfl⟩

variable {bits : U32} {weights : List Nat}

theorem nextDifficultyFromWindow_eq (hweights : weights.length = wbdaWindow) :
    nextDifficultyFromWindow bits weights = (PoWTarget.fromCompact bits).bind fun previous =>
      (PoWTarget.fromCompact targetBitsStart).bind fun limit =>
      (nextTarget previous weights).bind fun next =>
        some (if next.val > limit.val then limit else next).toCompact := by
  unfold nextDifficultyFromWindow
  exact if_neg (not_not.mpr hweights)

theorem Admissible.next (hbits : Admissible bits) (hweights : weights.length = wbdaWindow) :
    ∃ bits', nextDifficultyFromWindow bits weights = some bits' ∧ Admissible bits' := by
  obtain ⟨t, hfrom, ht⟩ := hbits
  obtain ⟨limit, hlimit, hval⟩ := exists_limit
  obtain ⟨next, hnext⟩ := exists_nextTarget ht weights
  -- the rounded target is below the limited one
  obtain ⟨t', ht', hkept, _⟩ :=
    (if next.val > limit.val then limit else next).exists_fromCompact_toCompact
  have hle : t'.val ≤ _ := hkept.trans_le (PoWTarget.compactValue_le _)
  refine ⟨_, ?_, t', ht', hle.trans ((limited_le limit next).trans hval.le)⟩
  rw [nextDifficultyFromWindow_eq hweights, hfrom, Option.bind_some, hlimit, Option.bind_some,
    hnext, Option.bind_some]

end Xparq
