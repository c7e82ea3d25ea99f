import Xparq.Node.HeaderState
import Xparq.Ledger.Issuance

/-!
# Exactness of the header checkpoints

Every block above genesis issues coins, and the mined total is a 64-bit number, so the chain of a
reachable ledger never comes near the last height (`OnGenesis.length_lt`). At every height of such a
chain the state rebuilt from the checkpoints is the one that header verification computes from all
headers up to it, and the checkpoints do not depend on what was cached before
(`headerCheckpoints_exact`).
-/

namespace Xparq

open Machine Outcome OrderedMap List

section
variable [Crypto]

/-! ## The length of a chain -/

namespace Ledger

variable {l : Ledger} {trace : List (Ledger × Block)}

/-- Every block above the first issues at least two zeno, so the mined total bounds the height. -/
theorem History.two_mul_tip_le (h : History l trace) :
    ∀ tip, l.chain.tipHeight = some tip → 2 * tip.val ≤ l.state.coin.totalMined.val := by
  refine History.keeps
    (J := fun l _ => ∀ tip, l.chain.tipHeight = some tip →
      2 * tip.val ≤ l.state.coin.totalMined.val) nofun ?_ ?_ h
  · intro l b l' trace hl hJ hcommits tip htip
    obtain ⟨hmined, hissues⟩ := hcommits.issues hl.consistent
    have hlinks := (hcommits.links hl.consistent).1
    rw [hlinks.chain] at htip
    obtain rfl : b.height = tip := Option.some.inj htip
    cases hprevious : l.chain.tipHeight with
    | none =>
      rw [hl.consistent.linked.height_zero hlinks.next hprevious]
      exact Nat.zero_le _
    | some previous =>
      have hnext := (hl.consistent.linked.next hlinks.next hprevious).1
      have hgenesis : b.isGenesis = false := by
        rw [Block.isGenesis, decide_eq_false_iff_not]
        intro hzero
        rw [hzero] at hnext
        cases hnext
      have hburn : 2 ≤ minerProtocolBurn.val := by decide
      have hissued := (hissues hgenesis).1
      have hle := hJ previous hprevious
      rw [hmined, Block.mined, hgenesis, if_neg Bool.false_ne_true, hnext]
      omega
  · intro l m trace hagrees hJ tip htip
    rw [hagrees.state.coin]
    exact hJ tip (hagrees.chain ▸ htip)

/-- The headers of a ledger on a genesis block end below the last height. -/
theorem OnGenesis.length_lt {genesis : BlockHash} (h : OnGenesis genesis l) {blocks : List Block}
    (hblocks : l.chain.HeadersOf blocks) : blocks.length < 2 ^ 64 := by
  obtain ⟨r, ⟨trace, hr⟩, _, hheight, _⟩ := h.reachable
  cases hlast : blocks.getLast? with
  | none =>
    rw [getLast?_eq_none_iff.mp hlast]
    decide
  | some last =>
    have hle := hr.two_mul_tip_le last.height (hheight ▸ (hblocks.tip last hlast).1)
    have hlt := r.state.coin.totalMined.isLt
    rw [getLast?_eq_getElem?] at hlast
    have hval := hblocks.height hlast
    omega

end Ledger

/-! ## Verification from genesis -/

variable {genesis : BlockHash} {c : Chain} {first : Block} {rest : List Block} {l : Ledger}

/-- The headers up to a height, lowest first. -/
def Chain.headersThrough (c : Chain) (height : Height) : List HeaderAtHeight :=
  (c.headers.entries.filter fun e => e.1 ≤ height).map fun e => ⟨e.1, e.2⟩

theorem Chain.HeadersOf.headersThrough_eq {blocks : List Block} (h : c.HeadersOf blocks)
    (k : Height) : c.headersThrough k = (blocks.take (k.val + 1)).map Block.headerAtHeight := by
  have hsplit : blocks.filter (fun b => b.height ≤ k) = blocks.take (k.val + 1) := by
    conv_lhs => rw [← take_append_drop (k.val + 1) blocks]
    rw [filter_append, filter_eq_self.mpr, filter_eq_nil_iff.mpr, append_nil]
    · intro b hb
      obtain ⟨i, hi⟩ := mem_iff_getElem?.mp hb
      rw [getElem?_drop] at hi
      rw [decide_eq_true_iff, Fin.le_def, h.height hi]
      omega
    · intro b hb
      obtain ⟨i, hi⟩ := mem_iff_getElem?.mp hb
      rw [getElem?_take] at hi
      split_ifs at hi with hlt
      rw [decide_eq_true_iff, Fin.le_def, h.height hi]
      omega
  rw [Chain.headersThrough, h.entries, filter_map, map_map]
  change (blocks.filter (fun b => b.height ≤ k)).map Block.headerAtHeight = _
  rw [hsplit]

theorem Chain.HeadersOf.headerValidationState_eq (h : l.chain.HeadersOf (first :: rest))
    (hlength : (first :: rest).length < 2 ^ 64) {walk : CheckpointWalk}
    (hwalk : checkpointWalk first.hash (first :: rest) = .ok walk) {k : Height} {b : Block}
    (hb : (first :: rest)[k.val]? = some b) :
    ∃ state, ledgerHeaderStateAtHeight l walk.checkpoints k = .ok state ∧
      headerValidationState verifyPow (l.chain.headersThrough k) first.hash = .ok state := by
  obtain ⟨state, hstate, hheight, hheader, htotals, hanchor, hrecent⟩ := h.stateAtHeight hwalk hb
  obtain ⟨verified, hverified, hfollows⟩ := h.exists_walk k.val
  refine ⟨state, hstate, ?_⟩
  obtain ⟨hk, _⟩ := List.getElem?_eq_some_iff.mp hb
  have hbk : b.height = k := Fin.ext (h.height hb)
  rw [HeaderTotals.addAll_of_walk (t := .zero) rfl hverified, Except.ok.injEq,
    HeaderTotals.mk.injEq] at htotals
  have hlist : l.chain.headersThrough k = first.headerAtHeight :: (rest.take k.val).map
      Block.headerAtHeight := by
    rw [h.headersThrough_eq, take_succ_cons, map_cons]
  have hgenesis : checkGenesis (l.chain.headersThrough k) first.hash =
      .ok first.headerAtHeight := by
    have hvalid : ¬(first.headerAtHeight.height ≠ 0 ∨ first.headerAtHeight.hash ≠ first.hash) :=
      not_or.mpr ⟨not_not.mpr h.first_height, not_not.mpr rfl⟩
    rw [checkGenesis, hlist, head?_cons, okOr, ok_bind, rejectIf, if_neg hvalid]
    rfl
  have hlast : (l.chain.headersThrough k).getLast? = some b.headerAtHeight := by
    rw [h.headersThrough_eq, take_add_one, hb, Option.toList_some, map_append, map_singleton,
      getLast?_concat]
  have hindex : (l.chain.headersThrough k)[if b.headerAtHeight.height > 0 then 1 else 0]? =
      some state.difficultyAnchor := by
    have hpos : (if b.headerAtHeight.height > 0 then 1 else 0) = if k = 0 then 0 else 1 := by
      rw [show b.headerAtHeight.height = k from hbk]
      by_cases hzero : k = 0
      · rw [if_pos hzero, if_neg (by rw [hzero]; exact lt_irrefl 0)]
      · rw [if_neg hzero, if_pos (Fin.pos_of_ne_zero hzero)]
    rw [hpos, h.headersThrough_eq, getElem?_map, getElem?_take, if_pos, hanchor]
    split_ifs with hzero
    · exact Nat.succ_pos _
    · exact Nat.succ_lt_succ (Nat.pos_of_ne_zero fun hval => hzero (Fin.ext hval))
  have hwindow : (l.chain.headersThrough k).drop
      ((l.chain.headersThrough k).length - recentHeaderWindow) =
      state.recentHeaders := by
    rw [hrecent (by omega), h.headersThrough_eq]
    rfl
  have hverify : verifyHeaderChain verifyPow (l.chain.headersThrough k) first.hash =
      .ok (verified.previous.hash, verified.cumulativeWork) := by
    rw [verifyHeaderChain, hgenesis, ok_bind, hlist, tail_cons, hverified, ok_bind]
    rfl
  rw [headerValidationState, hverify]
  simp only [ok_bind, hlast, okOr, hindex, hwindow]
  rw [hlist, drop_one, tail_cons, htotals.1]
  change Except.ok (HeaderValidationState.mk b.height b.header _ (addWeights _ _) _ _) = _
  rw [show addWeights 0 _ = _ from htotals.2, hbk, ← hheight, ← hheader]

/-- The checkpoints and totals of a chain are the same whichever chain was cached before, and the
state they give at a height is the one that verification of the headers up to it arrives at. -/
theorem headerCheckpoints_exact {S : Set Header} (hinj : S.InjOn Header.hash)
    (hl : l.OnGenesis genesis) (hS : l.chain.Within S) :
    ∃ walk, buildHeaderStateCheckpoints genesis l = .ok walk ∧
      (∀ {old : Ledger} {oldWalk : CheckpointWalk}, old.OnGenesis genesis → old.chain.Within S →
        buildHeaderStateCheckpoints genesis old = .ok oldWalk →
        updatedHeaderStateCheckpoints genesis (some oldWalk.checkpoints) l = .ok walk) ∧
      (∀ {previous : CachedLedger}, Cached genesis S previous →
        updateLedgerCache genesis (some previous) l =
          .ok ⟨l, walk.checkpoints, walk.totals.work, walk.totals.weight⟩) ∧
      ∀ k header, l.chain.header k = some header → ∃ state,
        ledgerHeaderStateAtHeight l walk.checkpoints k = .ok state ∧
        headerValidationState verifyPow (l.chain.headersThrough k) genesis = .ok state := by
  obtain ⟨first, rest, hchain, rfl⟩ := hl.exists_blocks
  obtain ⟨walk, hwalk, _⟩ := hchain.exists_checkpointWalk rest.length
  rw [← length_cons, take_length] at hwalk
  refine ⟨walk, hchain.build_eq.trans hwalk, ?_, ?_, ?_⟩
  · intro old oldWalk hold holdS hbuilt
    obtain ⟨first', rest', hold', hgenesis⟩ := hold.exists_blocks
    rw [← hgenesis, hold'.build_eq, hgenesis] at hbuilt
    rw [hchain.updated_eq hinj hS hold' holdS hbuilt, hwalk]
  · intro previous hprevious
    obtain ⟨_, _, _, hold, holdS, hbuilt⟩ := hprevious.exists_blocks hinj
    rw [updateLedgerCache, Option.map_some]
    have hupdated := hchain.updated_eq hinj hS hold holdS hbuilt
    rw [hupdated, hwalk]
    rfl
  · intro k header hheader
    rw [Chain.header, hchain.headers, Option.map_eq_some_iff] at hheader
    obtain ⟨b, hb, _⟩ := hheader
    exact hchain.headerValidationState_eq (hl.length_lt hchain) hwalk hb

end

section Sample

attribute [local instance] Crypto.checksum

open Ledger

/-- A node leaves its block for a rival one, with the checkpoints of the branch it left. -/
theorem sampleRivals_checkpoints :
    ∃ b l b' l' oldWalk walk, sampleRivals = .ok ((b, l), b', l') ∧ b.hash ≠ b'.hash ∧
    buildHeaderStateCheckpoints sampleGenesis.hash l = .ok oldWalk ∧
    buildHeaderStateCheckpoints sampleGenesis.hash l' = .ok walk ∧
    updatedHeaderStateCheckpoints sampleGenesis.hash (some oldWalk.checkpoints) l' = .ok walk := by
  obtain ⟨b, l, b', l', hrivals, hne, hof, _, hon, hon', S, hinj, hS, hS'⟩ := exists_sampleRivals
  obtain ⟨oldWalk, hold, _⟩ := hof.exists_checkpointWalk 1
  obtain ⟨walk, hwalk, hupdated, _⟩ := headerCheckpoints_exact hinj hon' hS'
  have hbuilt := hof.build_eq.trans hold
  exact ⟨b, l, b', l', oldWalk, walk, hrivals, hne, hbuilt, hwalk, hupdated hon hS hbuilt⟩

end Sample

end Xparq
