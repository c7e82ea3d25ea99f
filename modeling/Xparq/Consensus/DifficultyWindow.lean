import Xparq.Consensus.TargetBytes
import Xparq.Consensus.DifficultyPaths

/-!
# The difficulty of an epoch

The difficulty functions as the source has them: checked sums and saturating products of machine
words, targets as bytes. On windows of admissible weights they compute what the difficulty model
on numbers computes (`nextDifficultyFromWindow_eq`), so a canonical target is followed by a
canonical target, close to the scaled one (`nextDifficulty_canonical`).
-/

namespace Xparq

open Machine Outcome List

/-- The product, or the largest number when it does not fit. -/
def saturatingMul (a b : U64) : U64 := (checkedMul a b).getD ⟨2 ^ 64 - 1, maxU64_lt⟩

inductive WbdaAdjustment
  | decrease | keep | increase
  deriving DecidableEq, Repr

def averageBlockWeight (blockWeights : List U64) : Option U64 :=
  if blockWeights.length ≠ wbdaWindow then none
  else do
    let total ← blockWeights.foldlM checkedAdd 0
    return ⟨total.val / wbdaWindow, (Nat.div_le_self _ _).trans_lt total.isLt⟩

def utilizationPpm (blockWeights : List U64) : Option U64 := do
  let average ← averageBlockWeight blockWeights
  return ⟨(saturatingMul average 1000000).val / wbdaTargetBlockWeight,
    (Nat.div_le_self _ _).trans_lt (saturatingMul average 1000000).isLt⟩

def adjustmentForUtilizationPpm (utilization : U64) : WbdaAdjustment :=
  if utilization.val < 800000 then .increase
  else if utilization.val > 1200000 then .decrease
  else .keep

def adjustmentForWindow (blockWeights : List U64) : Option WbdaAdjustment :=
  (utilizationPpm blockWeights).map adjustmentForUtilizationPpm

namespace TargetBytes

def adjust (previous : TargetBytes) : WbdaAdjustment → Option TargetBytes
  | .decrease => previous.scaleRatio 120 100
  | .keep => some previous
  | .increase => previous.scaleRatio 80 100

/-- `next_difficulty_from_window`. -/
def nextDifficultyFromWindow (previousTargetBits : U32) (blockWeights : List U64) : Option U32 := do
  let adjustment ← adjustmentForWindow blockWeights
  let previous ← fromCompact previousTargetBits
  let powLimit ← fromCompact targetBitsStart
  let next ← previous.adjust adjustment
  return (if powLimit < next then powLimit else next).toCompact

def expectedDifficultyFromWindow (nextHeight : Nat) (parentDifficulty : U32)
    (currentWindow : List U64) : Option U32 :=
  if nextHeight = 1 then some targetBitsStart
  else if isWbdaEpochBoundary nextHeight = false then some parentDifficulty
  else nextDifficultyFromWindow parentDifficulty currentWindow

end TargetBytes

/-! ## The window -/

/-- How many percent of the target are kept. -/
def percentage (weights : List Nat) : Nat :=
  let utilization := weights.sum / wbdaWindow * 1000000 / wbdaTargetBlockWeight
  if utilization < 800000 then 80 else if utilization > 1200000 then 120 else 100

variable {weights : List U64}

theorem sum_le (hmax : ∀ w ∈ weights, w.val ≤ maxBlockSize) :
    (weights.map Fin.val).sum ≤ weights.length * maxBlockSize := by
  induction weights with
  | nil => exact Nat.zero_le _
  | cons w weights ih =>
    have hw := hmax w mem_cons_self
    have hrest := ih fun w hw => hmax w (mem_cons_of_mem _ hw)
    rw [map_cons, sum_cons, length_cons, Nat.succ_mul]
    omega

theorem utilizationPpm_eq (hlength : weights.length = wbdaWindow)
    (hmax : ∀ w ∈ weights, w.val ≤ maxBlockSize) :
    ∃ u, utilizationPpm weights = some u ∧
      u.val = (weights.map Fin.val).sum / wbdaWindow * 1000000 / wbdaTargetBlockWeight := by
  have hsum := sum_le hmax
  rw [hlength] at hsum
  simp only [wbdaWindow, maxBlockSize] at hsum hlength
  have hfits : (weights.map Fin.val).sum < 2 ^ 64 := by omega
  obtain ⟨total, htotal⟩ : ∃ total : U64, total.val = (weights.map Fin.val).sum := ⟨⟨_, hfits⟩, rfl⟩
  have hfold : weights.foldlM checkedAdd (0 : U64) = some total :=
    foldlM_checkedAdd.mpr (by rw [htotal, Fin.val_zero, Nat.zero_add])
  have haverage : averageBlockWeight weights = some ⟨total.val / wbdaWindow,
      (Nat.div_le_self _ _).trans_lt total.isLt⟩ := by
    rw [averageBlockWeight, if_neg (by rw [hlength]; decide), hfold]
    rfl
  refine ⟨_, by rw [utilizationPpm, haverage]; rfl, ?_⟩
  have hproduct : total.val / wbdaWindow * (1000000 : U64).val < 2 ^ 64 := by
    rw [htotal]
    simp only [wbdaWindow]
    change _ * 1000000 < _
    omega
  simp only [saturatingMul, checkedMul]
  rw [dif_pos hproduct, Option.getD_some]
  simp only [htotal]
  rfl

/-- How many percent of the target an adjustment leaves. -/
def WbdaAdjustment.percent : WbdaAdjustment → Nat
  | .decrease => 120
  | .keep => 100
  | .increase => 80

theorem adjustmentForWindow_eq (hlength : weights.length = wbdaWindow)
    (hmax : ∀ w ∈ weights, w.val ≤ maxBlockSize) :
    ∃ adjustment, adjustmentForWindow weights = some adjustment ∧
      adjustment.percent = percentage (weights.map Fin.val) := by
  obtain ⟨u, hu, hval⟩ := utilizationPpm_eq hlength hmax
  refine ⟨_, by rw [adjustmentForWindow, hu]; rfl, ?_⟩
  unfold percentage adjustmentForUtilizationPpm
  simp only [hval]
  split_ifs <;> rfl

theorem toCompact_limit {limit : PoWTarget}
    (h : PoWTarget.fromCompact targetBitsStart = some limit) :
    limit.toCompact = targetBitsStart := by
  have hstart : (PoWTarget.fromCompact targetBitsStart).map PoWTarget.toCompact =
      some targetBitsStart := by
    decide +kernel
  rw [h, Option.map_some] at hstart
  exact Option.some.inj hstart

namespace TargetBytes

variable {bits : U32} {t : TargetBytes} {limit : PoWTarget}

theorem powLimit_eq (hlimit : PoWTarget.fromCompact targetBitsStart = some limit) :
    powLimit = some (ofTarget limit) := by
  rw [powLimit, fromCompact_eq, show powLimitBits = targetBitsStart from rfl, hlimit]
  rfl

/-- A canonical target: decoding and encoding give the same bits, and it is not easier than the
limit. -/
theorem fromConsensusCompact_eq_some (hlimit : PoWTarget.fromCompact targetBitsStart = some limit) :
    fromConsensusCompact bits = some t ↔
      ∃ p, PoWTarget.fromCompact bits = some p ∧ p.toCompact = bits ∧ p.val ≤ limit.val ∧
      ofTarget p = t := by
  unfold fromConsensusCompact
  rw [fromCompact_eq, powLimit_eq hlimit]
  cases PoWTarget.fromCompact bits with
  | none =>
    constructor
    · nofun
    · rintro ⟨_, hnone, _⟩
      cases hnone
  | some p =>
    rw [Option.map_some, Option.bind_some, Option.bind_some, toCompact_ofTarget]
    constructor
    · intro h
      split_ifs at h with hcanonical hlimited
      exact ⟨p, rfl, not_not.mp hcanonical, not_lt.mp (ofTarget_lt.not.mp hlimited),
        Option.some.inj h⟩
    · rintro ⟨p', hp', hcanonical, hlimited, rfl⟩
      obtain rfl : p = p' := Option.some.inj hp'
      rw [if_neg (not_not.mpr hcanonical), if_neg (ofTarget_lt.not.mpr (not_lt.mpr hlimited))]

theorem scaleRatio_same (p : PoWTarget) : p.scaleRatio 100 100 = some p := by
  have hpos := p.pos
  exact PoWTarget.ofNat?_eq_some_iff.mpr (by omega)

theorem adjust_eq (p : PoWTarget) (adjustment : WbdaAdjustment) :
    (ofTarget p).adjust adjustment = (p.scaleRatio adjustment.percent 100).map ofTarget := by
  cases adjustment with
  | decrease => exact scaleRatio_eq p (by decide) (by decide) (by decide) (by decide)
  | increase => exact scaleRatio_eq p (by decide) (by decide) (by decide) (by decide)
  | keep =>
    rw [WbdaAdjustment.percent, scaleRatio_same]
    rfl

theorem nextTarget_eq (p : PoWTarget) (weights : List Nat) :
    nextTarget p weights = p.scaleRatio (percentage weights) 100 := by
  unfold nextTarget percentage
  simp only
  split_ifs
  · rfl
  · rfl
  · rw [scaleRatio_same]

/-- On admissible weights the bytes follow the numbers. -/
theorem nextDifficultyFromWindow_eq (hlength : weights.length = wbdaWindow)
    (hmax : ∀ w ∈ weights, w.val ≤ maxBlockSize) :
    nextDifficultyFromWindow bits weights = Xparq.nextDifficultyFromWindow bits
      (weights.map Fin.val) := by
  obtain ⟨adjustment, hadjustment, hpercent⟩ := adjustmentForWindow_eq hlength hmax
  obtain ⟨limit, hlimit, _⟩ := exists_limit
  rw [Xparq.nextDifficultyFromWindow_eq (by rw [length_map, hlength]), nextDifficultyFromWindow,
    hadjustment, fromCompact_eq, fromCompact_eq, hlimit, Option.bind_eq_bind, Option.bind_some]
  cases PoWTarget.fromCompact bits with
  | none => rfl
  | some p =>
    rw [Option.map_some, Option.map_some, Option.bind_eq_bind, Option.bind_some, Option.bind_some,
      Option.bind_some, Option.bind_some, adjust_eq, nextTarget_eq, hpercent]
    cases p.scaleRatio (percentage (weights.map Fin.val)) 100 with
    | none => rfl
    | some next =>
      rw [Option.map_some, Option.bind_some, Option.bind_some]
      by_cases hlt : limit.val < next.val
      · rw [if_pos (ofTarget_lt.mpr hlt), if_pos hlt, toCompact_ofTarget]
        rfl
      · rw [if_neg (ofTarget_lt.not.mpr hlt), if_neg hlt, toCompact_ofTarget]
        rfl

/-- The next difficulty encodes the scaled target, cut off at the limit; what is decoded again is
canonical and close to it. -/
theorem nextDifficulty_canonical (hlimit : PoWTarget.fromCompact targetBitsStart = some limit)
    (hbits : fromConsensusCompact bits = some t) (hlength : weights.length = wbdaWindow)
    (hmax : ∀ w ∈ weights, w.val ≤ maxBlockSize) :
    ∃ x t' : TargetBytes,
      x.value = min limit.val (max 1 (t.value * percentage (weights.map Fin.val) / 100)) ∧
      nextDifficultyFromWindow bits weights = some x.toCompact ∧
      fromConsensusCompact x.toCompact = some t' ∧
      x.value * (2 ^ 15 - 1) < t'.value * 2 ^ 15 ∧ t'.value ≤ x.value := by
  obtain ⟨p, hfrom, _, hle, rfl⟩ := (fromConsensusCompact_eq_some hlimit).mp hbits
  obtain ⟨limit', hlimit', hval⟩ := exists_limit
  obtain rfl : limit = limit' := Option.some.inj (hlimit.symm.trans hlimit')
  obtain ⟨next, hnext⟩ := exists_nextTarget (hle.trans hval.le) (weights.map Fin.val)
  have hscaled : next.val = max (p.val * percentage (weights.map Fin.val) / 100) 1 := by
    rw [nextTarget_eq] at hnext
    exact PoWTarget.ofNat?_eq_some_iff.mp hnext
  generalize hx : (if next.val > limit.val then limit else next) = x
  have hxval : x.val = min limit.val next.val := by
    rw [← hx]
    split_ifs
    · omega
    · omega
  obtain ⟨q, hq, hkept, hcanonical⟩ := x.exists_fromCompact_toCompact
  have hqx : q.val ≤ x.val := hkept.trans_le (PoWTarget.compactValue_le _)
  refine ⟨ofTarget x, ofTarget q, ?_, ?_, ?_, ?_, ?_⟩
  · rw [value_ofTarget, hxval, hscaled, max_comm, value_ofTarget]
  · rw [nextDifficultyFromWindow_eq hlength hmax,
      Xparq.nextDifficultyFromWindow_eq (by rw [length_map, hlength]), hfrom, Option.bind_some,
      hlimit, Option.bind_some, hnext, Option.bind_some, hx, toCompact_ofTarget]
  · rw [toCompact_ofTarget]
    exact (fromConsensusCompact_eq_some hlimit).mpr ⟨q, hq, hcanonical, hqx.trans (by omega), rfl⟩
  · rw [value_ofTarget, value_ofTarget, hkept]
    exact PoWTarget.lt_compactValue x.pos.ne'
  · rw [value_ofTarget, value_ofTarget]
    exact hqx

end TargetBytes

/-! ## Chains -/

/-- The weights of the last epoch. -/
def windowWeights (headers : List Header) : List U64 :=
  (headers.drop (headers.length - wbdaWindow)).map fun h => ⟨h.blockWeight.val,
    h.blockWeight.isLt.trans (by decide)⟩

/-- The difficulty expected of the header after a list of headers. -/
def expectedBits (headers : List Header) : Option U32 :=
  headers.getLast?.bind fun last =>
    TargetBytes.expectedDifficultyFromWindow headers.length last.targetBits (windowWeights headers)

/-- Every header past the first has an admissible weight and the difficulty expected of it. -/
def Retargeted (headers : List Header) : Prop :=
  ∀ i header, 0 < i → headers[i]? = some header →
    header.blockWeight.val ≤ maxBlockSize ∧ expectedBits (headers.take i) = some header.targetBits

variable {headers : List Header}

theorem Retargeted.take (h : Retargeted headers) (n : Nat) : Retargeted (headers.take n) := by
  intro i header hi hheader
  rw [getElem?_take] at hheader
  split_ifs at hheader with hlt
  rw [take_take, Nat.min_eq_left hlt.le]
  exact h i header hi hheader

theorem Retargeted.windowWeights (h : Retargeted headers)
    (hboundary : isWbdaEpochBoundary headers.length = true) :
    (windowWeights headers).length = wbdaWindow ∧ ∀ w ∈ windowWeights headers,
      w.val ≤ maxBlockSize := by
  have hlarge := window_le hboundary
  constructor
  · rw [Xparq.windowWeights, length_map, length_drop]
    omega
  · intro w hw
    obtain ⟨header, hmem, rfl⟩ := mem_map.mp hw
    obtain ⟨i, hi⟩ := mem_iff_getElem?.mp hmem
    rw [getElem?_drop] at hi
    exact (h _ header (by omega) hi).1

/-- By induction on the length: the last header has the bits that were expected for it, which decode
to a canonical target. -/
theorem Retargeted.exists_expectedBits (h : Retargeted headers) (hne : headers ≠ []) :
    ∃ bits t, expectedBits headers = some bits ∧
      TargetBytes.fromConsensusCompact bits = some t := by
  obtain ⟨limit, hlimit, _⟩ := exists_limit
  generalize hn : headers.length = n
  induction n generalizing headers with
  | zero => exact absurd (length_eq_zero_iff.mp hn) hne
  | succ n ih =>
    obtain ⟨last, hlast⟩ : ∃ last, headers.getLast? = some last :=
      Option.isSome_iff_exists.mp (by simpa using hne)
    unfold expectedBits
    rw [hlast, Option.bind_some, hn, TargetBytes.expectedDifficultyFromWindow]
    by_cases hone : n = 0
    · rw [if_pos (by omega)]
      exact ⟨_, _, rfl, (TargetBytes.fromConsensusCompact_eq_some hlimit).mpr
        ⟨limit, hlimit, toCompact_limit hlimit, le_refl _, rfl⟩⟩
    · rw [if_neg (by omega)]
      have hget : headers[n]? = some last := by
        rw [← hlast, getLast?_eq_getElem?, hn, Nat.add_sub_cancel]
      have hprefix : headers.take n ≠ [] := by
        rw [← length_pos_iff, length_take]
        omega
      obtain ⟨bits, t, hbits, ht⟩ := ih (h.take n) hprefix (by rw [length_take]; omega)
      have hparent : bits = last.targetBits :=
        Option.some.inj (hbits.symm.trans (h n last (Nat.pos_of_ne_zero hone) hget).2)
      subst hparent
      split_ifs with hboundary
      · exact ⟨_, t, rfl, ht⟩
      · obtain ⟨hlength, hmax⟩ := h.windowWeights (by rw [hn]; simpa using hboundary)
        obtain ⟨x, t', _, hnext, ht', _⟩ :=
          TargetBytes.nextDifficulty_canonical hlimit ht hlength hmax
        exact ⟨_, t', hnext, ht'⟩

theorem Retargeted.nextBits_eq (h : Retargeted headers) :
    nextBits headers = expectedBits headers := by
  unfold nextBits expectedBits
  cases headers.getLast? with
  | none => rw [Option.bind_none, Option.bind_none]
  | some last =>
    rw [Option.bind_some, Option.bind_some, TargetBytes.expectedDifficultyFromWindow]
    split_ifs with hone hboundary
    · rfl
    · rfl
    · obtain ⟨hlength, hmax⟩ := h.windowWeights (by simpa using hboundary)
      rw [TargetBytes.nextDifficultyFromWindow_eq hlength hmax, Xparq.windowWeights, map_map]
      rfl

section
variable [Crypto] {blocks : List Block} {c : Chain}

theorem Ruled.retargeted (h : Ruled blocks) : Retargeted (blocks.map Block.header) := by
  induction h with
  | nil =>
    intro i header _ hheader
    cases hheader
  | @snoc blocks b h hb ih =>
    intro i header hi hheader
    rw [map_append, map_singleton] at hheader ⊢
    rcases Nat.lt_or_ge i (blocks.map Block.header).length with hlt | hge
    · rw [getElem?_append_left hlt] at hheader
      rw [take_append_of_le_length hlt.le]
      exact ih i header hi hheader
    · obtain rfl : i = (blocks.map Block.header).length := by
        obtain ⟨hlt, _⟩ := List.getElem?_eq_some_iff.mp hheader
        rw [length_append, length_singleton] at hlt
        omega
      rw [getElem?_concat_length, Option.some.injEq] at hheader
      subst hheader
      have hne : blocks ≠ [] := by
        rintro rfl
        exact absurd hi (lt_irrefl 0)
      rw [take_left' rfl]
      exact ⟨(hb.weight hne).2, ih.nextBits_eq ▸ hb.bits hne⟩

/-- After a canonical target and a window of admissible weights the next difficulty exists, is the
compact form of the target scaled over the integers, and decodes to a canonical target less than
one part in `2 ^ 15` below it. So along a chain the expected difficulty always exists and is never
easier than the limit. -/
theorem difficulty_canonical : ∃ limit, TargetBytes.powLimit = some limit ∧
    (∀ bits t (weights : List U64), TargetBytes.fromConsensusCompact bits = some t →
      weights.length = wbdaWindow → (∀ w ∈ weights, w.val ≤ maxBlockSize) →
      ∃ x t' : TargetBytes,
        x.value = min limit.value (max 1 (t.value * percentage (weights.map Fin.val) / 100)) ∧
        TargetBytes.nextDifficultyFromWindow bits weights = some x.toCompact ∧
        TargetBytes.fromConsensusCompact x.toCompact = some t' ∧
        x.value * (2 ^ 15 - 1) < t'.value * 2 ^ 15 ∧ t'.value ≤ x.value) ∧
    (∀ headers, Retargeted headers → headers ≠ [] → ∃ bits t, expectedBits headers = some bits ∧
      TargetBytes.fromConsensusCompact bits = some t ∧ t.value ≤ limit.value) ∧
    (∀ blocks c (k : Height), Admitted blocks c → blocks ≠ [] → k.val = blocks.length →
      ∃ bits t, expectedDifficulty c k = .ok bits ∧ TargetBytes.fromConsensusCompact bits = some t ∧
        t.value ≤ limit.value) := by
  obtain ⟨p, hp, _⟩ := exists_limit
  have hcapped : ∀ {bits t}, TargetBytes.fromConsensusCompact bits = some t →
      t.value ≤ (TargetBytes.ofTarget p).value := by
    intro bits t ht
    obtain ⟨q, _, _, hle, rfl⟩ := (TargetBytes.fromConsensusCompact_eq_some hp).mp ht
    rwa [TargetBytes.value_ofTarget, TargetBytes.value_ofTarget]
  refine ⟨_, TargetBytes.powLimit_eq hp, ?_, ?_, ?_⟩
  · intro bits t weights hbits hlength hmax
    rw [TargetBytes.value_ofTarget]
    exact TargetBytes.nextDifficulty_canonical hp hbits hlength hmax
  · intro headers h hne
    obtain ⟨bits, t, hbits, ht⟩ := h.exists_expectedBits hne
    exact ⟨bits, t, hbits, ht, hcapped ht⟩
  · intro blocks c k h hne hk
    obtain ⟨hruled, hc⟩ := h.ruled
    obtain ⟨bits, t, hbits, ht⟩ := hruled.retargeted.exists_expectedBits (by simpa using hne)
    refine ⟨bits, t, ?_, ht, hcapped ht⟩
    rw [hc.expectedDifficulty hne hk, hruled.retargeted.nextBits_eq, hbits]
    rfl

end

end Xparq
