import Xparq.Node.HeaderSync

/-!
# The spacing of a header locator

The entries of a locator go down from the tip, one by one at first; below the tenth entry the gap
doubles with every entry. A gap is never much larger than the depth it starts at
(`Reaching.exists_isHighest`), so that the highest entry below a fork is at most twice as deep as
the fork, and 63 entries reach genesis from every height below `2 ^ 50`
(`Reaching.getLast?_locatorHeights`).
-/

namespace Xparq

open Machine Outcome OrderedMap List

/-! ## Heights -/

/-- The step after an entry that `more` entries can follow. -/
def nextStep (more : Nat) (step : U64) : U64 :=
  if maxLocatorHashes - 2 - more ≥ 10 then saturatingAdd step step else step

/-- The heights that the loop of the locator visits. -/
def locatorHeights : (more : Nat) → Height → (step : U64) → List Height
  | 0, height, _ => [height]
  | more + 1, height, step =>
      if height = 0 then [height] else height :: locatorHeights more (height.back step)
        (nextStep more step)

variable {more : Nat} {height : Height} {step : U64}

theorem nextStep_pos (hstep : 0 < step.val) : 0 < (nextStep more step).val := by
  unfold nextStep
  split_ifs
  · rw [val_saturatingAdd]
    omega
  · exact hstep

theorem Height.val_back (height : Height) (step : U64) :
    (height.back step).val = height.val - step.val := rfl

theorem length_locatorHeights (more : Nat) (height : Height) (step : U64) :
    (locatorHeights more height step).length ≤ more + 1 := by
  induction more generalizing height step with
  | zero => exact le_rfl
  | succ more ih =>
    unfold locatorHeights
    split_ifs
    · exact Nat.succ_le_succ (Nat.zero_le _)
    · exact Nat.succ_le_succ (ih _ _)

theorem head?_locatorHeights (more : Nat) (height : Height) (step : U64) :
    (locatorHeights more height step).head? = some height := by
  cases more with
  | zero => rfl
  | succ more =>
    unfold locatorHeights
    split_ifs <;> rfl

theorem le_of_mem_locatorHeights {k : Height} (hk : k ∈ locatorHeights more height step) :
    k ≤ height := by
  induction more generalizing height step with
  | zero => exact (mem_singleton.mp hk).le
  | succ more ih =>
    unfold locatorHeights at hk
    split_ifs at hk
    · exact (mem_singleton.mp hk).le
    · rcases mem_cons.mp hk with rfl | hk
      · exact le_rfl
      · exact (ih hk).trans (Fin.le_def.mpr (Nat.sub_le _ _))

theorem lt_of_mem_below (hzero : height ≠ 0) (hstep : 0 < step.val) {more : Nat} {step' : U64}
    {k : Height} (hk : k ∈ locatorHeights more (height.back step) step') : k < height := by
  have hpos := Fin.val_pos_iff.mpr (Fin.pos_of_ne_zero hzero)
  refine (le_of_mem_locatorHeights hk).trans_lt (Fin.lt_def.mpr ?_)
  rw [Height.val_back]
  omega

theorem pairwise_locatorHeights (hstep : 0 < step.val) :
    (locatorHeights more height step).Pairwise (· > ·) := by
  induction more generalizing height step with
  | zero => exact pairwise_singleton _ _
  | succ more ih =>
    unfold locatorHeights
    split_ifs with hzero
    · exact pairwise_singleton _ _
    · exact pairwise_cons.mpr ⟨fun k hk => lt_of_mem_below hzero hstep hk, ih (nextStep_pos hstep)⟩

theorem getLast?_of_zero_mem (hzero : (0 : Height) ∈ locatorHeights more height step) :
    (locatorHeights more height step).getLast? = some 0 := by
  induction more generalizing height step with
  | zero => rw [locatorHeights, ← mem_singleton.mp hzero, getLast?_singleton]
  | succ more ih =>
    unfold locatorHeights at hzero ⊢
    split_ifs at hzero ⊢ with h
    · rw [h, getLast?_singleton]
    · rw [getLast?_cons, ih (mem_of_ne_of_mem (Ne.symm h) hzero), Option.getD_some]

/-! ## Reaching genesis -/

/-- The entries that can follow reach genesis. The step doubles when at most 53 can, and it cannot
overflow before they are used up. -/
structure Reaching (more : Nat) (height : Height) (step : U64) : Prop where
  room : step.val * 2 ^ min more 53 ≤ 2 ^ 53
  reach : height.val + step.val ≤ step.val * 2 ^ min more 53

theorem Reaching.next (h : Reaching (more + 1) height step) :
    Reaching more (height.back step) (nextStep more step) := by
  obtain ⟨hroom, hreach⟩ := h
  by_cases hdouble : more ≤ 52
  · have hmin : min more 53 = more := by omega
    have hmin' : min (more + 1) 53 = more + 1 := by omega
    rw [hmin', pow_succ 2 more, ← Nat.mul_assoc] at hroom hreach
    have hone : step.val ≤ step.val * 2 ^ more := Nat.le_mul_of_pos_right _ (Nat.two_pow_pos _)
    have hval : (nextStep more step).val = 2 * step.val := by
      rw [nextStep, if_pos (show maxLocatorHashes - 2 - more ≥ 10 by rw [maxLocatorHashes]; omega),
        val_saturatingAdd]
      omega
    refine ⟨?_, ?_⟩
    · rw [hmin, hval, Nat.mul_assoc]
      omega
    · rw [hmin, hval, Nat.mul_assoc, Height.val_back]
      omega
  · have hmin : min more 53 = min (more + 1) 53 := by omega
    have hval : nextStep more step = step :=
      if_neg (show ¬maxLocatorHashes - 2 - more ≥ 10 by rw [maxLocatorHashes]; omega)
    rw [hval]
    refine ⟨hmin ▸ hroom, ?_⟩
    rw [hmin, Height.val_back]
    exact (Nat.add_le_add_right (Nat.sub_le _ _) _).trans hreach

theorem Reaching.eq_zero (h : Reaching 0 height step) : height = 0 := by
  have hreach := h.reach
  rw [Nat.zero_min, Nat.pow_zero, Nat.mul_one] at hreach
  exact Fin.ext (by rw [Fin.val_zero]; omega)

theorem Reaching.getLast?_locatorHeights (h : Reaching more height step) :
    (locatorHeights more height step).getLast? = some 0 := by
  induction more generalizing height step with
  | zero => rw [locatorHeights, h.eq_zero, getLast?_singleton]
  | succ more ih =>
    unfold locatorHeights
    split_ifs with hzero
    · rw [hzero, getLast?_singleton]
    · rw [getLast?_cons, ih h.next, Option.getD_some]

/-- The highest of the heights at or below a bound. -/
def IsHighest (heights : List Height) (bound : Nat) (k : Height) : Prop :=
  k ∈ heights ∧ k.val ≤ bound ∧ ∀ j ∈ heights, j.val ≤ bound → j ≤ k

/-- Below a fork at depth `f`, the highest entry is at most twice as deep. Every gap is at most two
more than the depth where it starts, and doubling the step keeps that. -/
theorem Reaching.exists_isHighest {n f : Nat} (h : Reaching more height step)
    (hheight : height.val ≤ n)
    (hdepth : height = 0 ∨ n - height.val ≤ 2 * f ∧ step.val ≤ n - height.val + 2) :
    ∃ k, IsHighest (locatorHeights more height step) (n - f) k ∧ (n - k.val ≤ 2 * f ∨ k = 0) := by
  induction more generalizing height step with
  | zero =>
    obtain rfl := h.eq_zero
    refine ⟨0, ⟨mem_singleton_self _, Nat.zero_le _, ?_⟩, .inr rfl⟩
    intro j hj _
    exact (mem_singleton.mp hj).le
  | succ more ih =>
    by_cases hbelow : height.val ≤ n - f
    · refine ⟨height, ⟨mem_of_head? (head?_locatorHeights _ _ _), hbelow, ?_⟩,
        hdepth.symm.imp_left And.left⟩
      intro j hj _
      exact le_of_mem_locatorHeights hj
    · have hzero : height ≠ 0 := by
        rintro rfl
        exact hbelow (Nat.zero_le _)
      obtain ⟨_, hstep⟩ := hdepth.resolve_left hzero
      have hback := Height.val_back height step
      have hdepth' : height.back step = 0 ∨ n - (height.back step).val ≤ 2 * f ∧
          (nextStep more step).val ≤ n - (height.back step).val + 2 := by
        rcases Nat.lt_or_ge step.val height.val with hhigh | hlow
        · refine .inr ⟨by omega, ?_⟩
          rw [hback, nextStep]
          split_ifs
          · rw [val_saturatingAdd]
            omega
          · omega
        · exact .inl (Fin.ext (by rw [hback, Fin.val_zero]; omega))
      obtain ⟨k, ⟨hk, hkbound, hhighest⟩, hk'⟩ :=
        ih h.next (hback ▸ (Nat.sub_le _ _).trans hheight) hdepth'
      have hlist : locatorHeights (more + 1) height step =
          height :: locatorHeights more (height.back step) (nextStep more step) := if_neg hzero
      refine ⟨k, ⟨hlist ▸ mem_cons_of_mem _ hk, hkbound, ?_⟩, hk'⟩
      intro j hj hjbound
      rcases mem_cons.mp (hlist ▸ hj) with rfl | hj
      · exact absurd hjbound hbelow
      · exact hhighest j hj hjbound

/-! ## The locator of a chain -/

section
variable [Crypto]

/-- The chain has a header at every height up to its tip. -/
structure Chain.Spans (c : Chain) (n : Height) : Prop where
  tip : c.tipHeight = some n
  header : ∀ k ≤ n, ∃ h, c.header k = some h

theorem Chain.HeadersOf.spans {c : Chain} {blocks : List Block} {last : Block}
    (h : c.HeadersOf blocks) (hlast : blocks.getLast? = some last) : c.Spans last.height := by
  refine ⟨(h.tip last hlast).1, fun k hk => ?_⟩
  rw [getLast?_eq_getElem?] at hlast
  have hheight := h.height hlast
  have hk' : k.val < blocks.length := by
    have hle := Fin.le_def.mp hk
    have hpos := (List.getElem?_eq_some_iff.mp hlast).1
    omega
  exact ⟨_, (h.headers k).trans (by rw [getElem?_eq_getElem hk', Option.map_some])⟩

/-- The entry of a height. -/
def Chain.locatorEntry (c : Chain) (height : Height) : BlockHash × Height :=
  (((c.header height).map Header.hash).getD 0, height)

theorem Chain.Spans.locatorEntry_eq {c : Chain} {n k : Height} (h : c.Spans n) (hk : k ≤ n) :
    ∃ header, c.header k = some header ∧ c.locatorEntry k = (header.hash, k) := by
  obtain ⟨header, hheader⟩ := h.header k hk
  exact ⟨header, hheader, by rw [Chain.locatorEntry, hheader, Option.map_some, Option.getD_some]⟩

theorem Chain.Spans.locatorFrom_eq {c : Chain} {n : Height} (h : c.Spans n) (more : Nat)
    {height : Height} (step : U64) (hheight : height ≤ n) :
    locatorFrom c more height step =
      .ok ((locatorHeights more height step).map c.locatorEntry) := by
  induction more generalizing height step with
  | zero =>
    obtain ⟨header, hheader, hentry⟩ := h.locatorEntry_eq hheight
    rw [locatorFrom, headerAt, hheader, locatorHeights, map_singleton, hentry]
    rfl
  | succ more ih =>
    obtain ⟨header, hheader, hentry⟩ := h.locatorEntry_eq hheight
    have hrest :=
      @ih (height.back step) (nextStep more step)
        (le_trans (Fin.le_def.mpr (Nat.sub_le _ _)) hheight)
    rw [locatorFrom, headerAt, hheader, okOr, ok_bind, locatorHeights]
    by_cases hzero : height = 0
    · rw [if_pos hzero, if_pos hzero, map_singleton, hentry]
      rfl
    · rw [if_neg hzero, if_neg hzero, map_cons, hentry]
      exact congrArg (· >>= _) hrest

theorem Chain.map_snd_locatorEntry (c : Chain) (heights : List Height) :
    (heights.map c.locatorEntry).map Prod.snd = heights := by
  rw [map_map]
  exact map_id heights

variable {genesis : BlockHash} {l : Ledger} {n : Height}

/-- The heights that are visited from the tip. -/
def visitedHeights (tip : Height) : List Height := locatorHeights (maxLocatorHashes - 2) tip 1

omit [Crypto] in
theorem reaching_of_lt (hn : n.val < 2 ^ 50) : Reaching (maxLocatorHashes - 2) n 1 :=
  ⟨by decide, (Nat.succ_le_succ hn.le).trans (by decide)⟩

omit [Crypto] in
theorem exists_getLast?_visitedHeights (n : Height) :
    ∃ k, (visitedHeights n).getLast? = some k ∧ k ≤ n := by
  have hne : visitedHeights n ≠ [] := ne_nil_of_mem (mem_of_head? (head?_locatorHeights _ n 1))
  exact ⟨_, getLast?_eq_some_getLast hne, le_of_mem_locatorHeights (getLast_mem hne)⟩

theorem Chain.Spans.ledgerHeaderLocator_eq (h : l.chain.Spans n) (genesis : BlockHash) :
    ledgerHeaderLocator genesis l = .ok (
      if ((visitedHeights n).map l.chain.locatorEntry).getLast?.map Prod.fst = some genesis
      then (visitedHeights n).map l.chain.locatorEntry
      else (visitedHeights n).map l.chain.locatorEntry ++ [(genesis, 0)]) := by
  rw [ledgerHeaderLocator, h.tip, okOr, ok_bind, h.locatorFrom_eq _ 1 le_rfl]
  rfl

theorem Chain.Spans.exists_heights (h : l.chain.Spans n)
    (hgenesis : (l.chain.header 0).map Header.hash = some genesis) :
    ∃ heights, ledgerHeaderLocator genesis l = .ok (heights.map l.chain.locatorEntry) ∧
      heights.length ≤ 64 ∧
      heights.Pairwise (· > ·) ∧ (∀ k ∈ heights, k ≤ n) ∧ heights.head? = some n ∧
      (∃ k, heights.getLast? = some k ∧ (l.chain.header k).map Header.hash = some genesis) ∧
      (n.val < 2 ^ 50 → heights = visitedHeights n) := by
  have hpairwise : (visitedHeights n).Pairwise (· > ·) := pairwise_locatorHeights Nat.one_pos
  have hlength : (visitedHeights n).length ≤ 63 := length_locatorHeights _ n 1
  have hle : ∀ k ∈ visitedHeights n, k ≤ n := fun k hk => le_of_mem_locatorHeights hk
  have hentry : l.chain.locatorEntry 0 = (genesis, 0) := by
    rw [locatorEntry, hgenesis, Option.getD_some]
  obtain ⟨last, hlast, hlastle⟩ := exists_getLast?_visitedHeights n
  obtain ⟨header, hheader, hlastentry⟩ := h.locatorEntry_eq hlastle
  have heq := h.ledgerHeaderLocator_eq genesis
  rw [getLast?_map, hlast, Option.map_some, Option.map_some, hlastentry] at heq
  by_cases hends : some header.hash = some genesis
  · rw [if_pos hends] at heq
    refine ⟨visitedHeights n, heq, hlength.trans (by decide), hpairwise, hle,
      head?_locatorHeights _ n 1, ⟨last, hlast, ?_⟩, fun _ => rfl⟩
    rw [hheader, Option.map_some, hends]
  · -- the last visited height is above genesis, and so are all others
    have hzero : (0 : Height) ∉ visitedHeights n := by
      intro hmem
      obtain rfl := Option.some.inj ((getLast?_of_zero_mem hmem).symm.trans hlast)
      rw [hheader, Option.map_some] at hgenesis
      exact hends hgenesis
    rw [if_neg hends, ← hentry, ← map_singleton, ← map_append] at heq
    refine ⟨visitedHeights n ++ [0], heq, ?_, ?_, ?_, ?_, ⟨0, getLast?_concat, hgenesis⟩, ?_⟩
    · rw [length_append]
      exact Nat.succ_le_succ hlength
    · refine pairwise_append.mpr ⟨hpairwise, pairwise_singleton _ _, fun k hk j hj => ?_⟩
      rw [mem_singleton.mp hj]
      exact Fin.pos_of_ne_zero fun hk0 => hzero (hk0 ▸ hk)
    · intro k hk
      rcases mem_append.mp hk with hk | hk
      · exact hle k hk
      · exact (mem_singleton.mp hk).trans_le (Fin.zero_le n)
    · rw [head?_append, visitedHeights, head?_locatorHeights, Option.some_or]
    · intro hn
      exact absurd (mem_of_getLast? (reaching_of_lt hn).getLast?_locatorHeights) hzero

/-- The other chain has the same headers up to a height. Above it the hashes of the two chains
differ, and so do those of different heights. -/
structure Chain.ForksAt (c other : Chain) (k : Nat) : Prop where
  shared : ∀ j : Height, j.val ≤ k → other.header j = c.header j
  distinct : ∀ {i j : Height} {hi hj : Header}, other.header i = some hi → c.header j = some hj →
    hi.hash = hj.hash → i = j ∧ i.val ≤ k

/-- A locator has at most 64 entries, the hashes of headers at strictly decreasing heights from the
tip to genesis. Below `2 ^ 50`, when another chain forks `f` blocks below the tip, the highest entry
on the common part is at most `2 * f` below the tip or genesis, and it is what a peer on that chain
answers with. -/
theorem ledgerHeaderLocator_spacing (h : l.chain.Spans n)
    (hgenesis : (l.chain.header 0).map Header.hash = some genesis) :
    ∃ locator, ledgerHeaderLocator genesis l = .ok locator ∧ locator.length ≤ 64 ∧
      (locator.map Prod.snd).Pairwise (· > ·) ∧
      (∀ e ∈ locator, (l.chain.header e.2).map Header.hash = some e.1) ∧
      locator.head?.map Prod.snd = some n ∧ locator.getLast?.map Prod.fst = some genesis ∧
      ((∀ k, (l.chain.header k).map Header.hash = some genesis → k = 0) →
      locator.getLast? = some (genesis, 0)) ∧
      (n.val < 2 ^ 50 → locator.getLast? = some (genesis, 0) ∧ ∀ f, 1 ≤ f →
      f ≤ n.val → ∃ e ∈ locator,
        e.2.val ≤ n.val - f ∧ (∀ e' ∈ locator, e'.2.val ≤ n.val - f → e'.2 ≤ e.2) ∧
        (n.val - e.2.val ≤ 2 * f ∨ e.2 = 0) ∧
        ∀ {other : Chain} {n' : Height}, other.Spans n' → l.chain.ForksAt other (n.val - f) →
        n.val - f ≤ n'.val →
          findAncestor other (locator.map Prod.fst) n'.val = .ok (e.2, e.1)) := by
  obtain ⟨heights, heq, hlength, hpairwise, hle, hhead, ⟨k, hlast, hk⟩, hsmall⟩ :=
    h.exists_heights hgenesis
  have hentries : ∀ e ∈ heights.map l.chain.locatorEntry,
      (l.chain.header e.2).map Header.hash = some e.1 := by
    intro e he
    obtain ⟨j, hj, rfl⟩ := mem_map.mp he
    obtain ⟨header, hheader, hentry⟩ := h.locatorEntry_eq (hle j hj)
    rw [hentry, hheader, Option.map_some]
  have hlastEntry : (heights.map l.chain.locatorEntry).getLast? = some (genesis, k) := by
    rw [getLast?_map, hlast, Option.map_some, Chain.locatorEntry, hk, Option.getD_some]
  refine ⟨_, heq,
    by rwa [length_map], by rwa [l.chain.map_snd_locatorEntry], hentries, ?_, ?_, ?_, ?_⟩
  · rw [head?_map, hhead]
    rfl
  · rw [hlastEntry, Option.map_some]
  · intro hunique
    rw [hlastEntry, hunique k hk]
  · intro hn
    obtain rfl := hsmall hn
    have hreaching := reaching_of_lt hn
    obtain rfl := Option.some.inj (hlast.symm.trans hreaching.getLast?_locatorHeights)
    refine ⟨hlastEntry, fun f hf hfn => ?_⟩
    obtain ⟨j, ⟨hj, hbound, hhighest⟩, hdepth⟩ :=
      hreaching.exists_isHighest (n := n.val) (f := f) le_rfl
      (.inr ⟨by omega, by rw [Nat.sub_self]; decide⟩)
    obtain ⟨header, hheader, hentry⟩ := h.locatorEntry_eq (hle j hj)
    refine ⟨l.chain.locatorEntry j, mem_map_of_mem hj, hbound, ?_, hdepth, ?_⟩
    · intro e he hebound
      obtain ⟨i, hi, rfl⟩ := mem_map.mp he
      exact hhighest i hi hebound
    · intro other n' hother hforks hn'
      have hmem : header.hash ∈ ((visitedHeights n).map l.chain.locatorEntry).map Prod.fst :=
        mem_map.mpr ⟨_, mem_map_of_mem hj, by rw [hentry]⟩
      rw [hentry]
      refine findAncestor_eq ((hforks.shared j hbound).trans hheader) hmem n'.isLt
        (hbound.trans hn') fun i hji hin' => ?_
      obtain ⟨header', hheader'⟩ := hother.header i hin'
      refine ⟨header', hheader', fun hmem' => ?_⟩
      -- an entry with this hash is at the same height on the shared part, hence not above the
      -- highest
      obtain ⟨e, he, hhash⟩ := mem_map.mp hmem'
      obtain ⟨i', hi', rfl⟩ := mem_map.mp he
      obtain ⟨header'', hheader'', hentry'⟩ := h.locatorEntry_eq (hle i' hi')
      rw [hentry'] at hhash
      obtain ⟨rfl, hibound⟩ := hforks.distinct hheader' hheader'' hhash.symm
      exact absurd (hhighest i hi' hibound) (not_le.mpr hji)

end

section Sample

attribute [local instance] Crypto.checksum

open Ledger

/-- A peer on a rival block answers the locator with genesis. -/
theorem sampleRivals_locator : ∃ b l b' l' locator, sampleRivals = .ok ((b, l), b', l') ∧
    l.chain.ForksAt l'.chain 0 ∧ ledgerHeaderLocator sampleGenesis.hash l = .ok locator ∧
    locator.head?.map Prod.snd = some b.height ∧
    findAncestor l'.chain (locator.map Prod.fst) 1 = .ok (0, sampleGenesis.hash) := by
  obtain ⟨b, l, b', l', hrivals, hne, hof, hof', hon, _, S, hinj, hS, hS'⟩ := exists_sampleRivals
  have hspans : l.chain.Spans b.height := hof.spans rfl
  have hspans' : l'.chain.Spans b'.height := hof'.spans rfl
  have hheight : b.height.val = 1 := hof.height (i := 1) rfl
  have hheight' : b'.height.val = 1 := hof'.height (i := 1) rfl
  have hforks : l.chain.ForksAt l'.chain 0 := by
    constructor
    · intro j hj
      obtain rfl : j = 0 := Fin.ext (Nat.le_zero.mp hj)
      exact (hof'.header_eq (i := 0) rfl).trans (hof.header_eq (i := 0) rfl).symm
    · intro i j hi hj hi' hj' hhash
      rw [Chain.header, hof'.headers, Option.map_eq_some_iff] at hi'
      rw [Chain.header, hof.headers, Option.map_eq_some_iff] at hj'
      obtain ⟨x, hx, rfl⟩ := hi'
      obtain ⟨y, hy, rfl⟩ := hj'
      obtain ⟨hij, _⟩ := hof'.take_eq hinj hof hS' hS hx hy hhash
      refine ⟨Fin.ext hij, ?_⟩
      rw [← hij] at hy
      rcases hi : i.val with _ | _ | _
      · exact le_rfl
      · rw [hi] at hx hy
        cases hx
        cases hy
        exact absurd hhash.symm hne
      · rw [hi] at hx
        cases hx
  obtain ⟨locator, hlocator, _, _, hentries, hhead, _, _, hsmall⟩ :=
    ledgerHeaderLocator_spacing hspans hon.genesis
  obtain ⟨_, hforked⟩ := hsmall (hheight ▸ by decide)
  obtain ⟨⟨hash, k⟩, he, hle, _, _, hfind⟩ := hforked 1 le_rfl hheight.ge
  rw [hheight] at hle hfind
  obtain rfl : k = 0 := Fin.ext (Nat.le_zero.mp hle)
  obtain rfl : sampleGenesis.hash = hash := Option.some.inj (hon.genesis.symm.trans (hentries _ he))
  exact ⟨b, l, b', l', locator, hrivals, hforks, hlocator, hhead,
    hheight' ▸ hfind hspans' hforks (Nat.zero_le _)⟩

end Sample

end Xparq
