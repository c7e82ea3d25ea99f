import Xparq.Blockchain.Chain

/-!
# Linked chains

`Chain.Linked` is what every chain built by `insertBlock` satisfies: the tip hash is the hash of
the tip's header, no header lies above the tip, and every body is resident. `removeTip` is the
inverse of `insertBlock` on such chains (`Linked.removeTip`).
-/

namespace Xparq

open Machine Outcome OrderedMap

variable [Crypto]

namespace Chain

structure Linked (c : Chain) : Prop where
  empty : c.tipHeight = none → c.tipHash = none ∧ c.headers = ∅
  tip : ∀ h, c.tipHeight = some h → ∃ header, c.headers.get? h = some header ∧
    c.tipHash = some header.hash
  bounded : ∀ k header, c.headers.get? k = some header → ∃ h, c.tipHeight = some h ∧ k ≤ h
  bodies : ∀ k, (c.blocks.get? k).map Block.header = c.headers.get? k

theorem linked_empty : Linked Chain.empty where
  empty _ := ⟨rfl, rfl⟩
  tip _ h := by cases h
  bounded _ _ h := by cases h
  bodies _ := rfl

/-- The chain with one more block. -/
def extend (c : Chain) (b : Block) : Chain :=
  ⟨c.headers.insert b.height b.header, c.blocks.insert b.height b, some b.height, some b.hash⟩

theorem insertBlock_eq_ok {c c' : Chain} {b : Block} : c.insertBlock b = .ok c' ↔
    c.validateNextBlock b = .ok () ∧ c' = c.extend b := by
  simp only [insertBlock, bind_eq_ok, return_eq_ok]
  constructor
  · rintro ⟨⟨⟩, hnext, rfl⟩
    exact ⟨hnext, rfl⟩
  · rintro ⟨hnext, rfl⟩
    exact ⟨(), hnext, rfl⟩

variable {c : Chain} {b : Block}

omit [Crypto] in
theorem header_eq_none_of_next (h : c.validateNextBlock b = .ok ()) :
    c.headers.get? b.height = none := by
  simp only [validateNextBlock, bind_eq_ok, rejectIf_eq_ok, Bool.not_eq_true,
    contains_eq_false_iff] at h
  obtain ⟨_, hnone, _⟩ := h
  exact hnone

theorem Linked.height_zero (hc : Linked c) (h : c.validateNextBlock b = .ok ())
    (htip : c.tipHeight = none) : b.height = 0 := by
  simp only [validateNextBlock, bind_eq_ok, htip, (hc.empty htip).1, rejectIf_eq_ok,
    not_or, not_not] at h
  obtain ⟨_, _, hheight, _⟩ := h
  exact hheight

theorem Linked.next (hc : Linked c) (h : c.validateNextBlock b = .ok ()) {t : Height}
    (htip : c.tipHeight = some t) :
    b.height.val = t.val + 1 ∧ c.tipHash = some b.header.previousHash := by
  have hfree := header_eq_none_of_next h
  obtain ⟨header, hheader, hhash⟩ := hc.tip t htip
  simp only [validateNextBlock, bind_eq_ok, htip, hhash, rejectIf_eq_ok, not_not] at h
  obtain ⟨_, _, _, hheight, hprevious⟩ := h
  refine ⟨?_, by rw [hhash, hprevious]⟩
  refine Height.val_of_eq_next hheight fun hlast => ?_
  -- at the last height the next one is occupied
  rw [hlast, hheader] at hfree
  cases hfree

theorem Linked.extend (hc : Linked c) (h : c.validateNextBlock b = .ok ()) :
    Linked (c.extend b) := by
  refine ⟨nofun, ?_, ?_, ?_⟩
  · rintro _ ⟨⟩
    exact ⟨b.header, by simp [Chain.extend], rfl⟩
  · intro k header hk
    refine ⟨b.height, rfl, ?_⟩
    change (c.headers.insert b.height b.header).get? k = some header at hk
    rw [get?_insert] at hk
    split_ifs at hk with heq
    · exact heq.le
    · obtain ⟨t, htip, hle⟩ := hc.bounded k header hk
      have := (hc.next h htip).1
      exact Fin.le_def.mpr (by have := Fin.le_def.mp hle; omega)
  · intro k
    change ((c.blocks.insert b.height b).get? k).map Block.header =
      (c.headers.insert b.height b.header).get? k
    rw [get?_insert, get?_insert]
    split_ifs
    · rfl
    · exact hc.bodies k

/-- Removing the tip undoes the insertion. -/
theorem Linked.removeTip (hc : Linked c) (h : c.validateNextBlock b = .ok ()) :
    (c.extend b).removeTip b.hash = .ok (b, c) := by
  have hfree := header_eq_none_of_next h
  have hbody : c.blocks.get? b.height = none := by
    have := hc.bodies b.height
    rw [hfree] at this
    exact Option.map_eq_none_iff.mp this
  have hheaders : (c.headers.insert b.height b.header).erase b.height = c.headers :=
    erase_insert hfree _
  have hblocks : (c.blocks.insert b.height b).erase b.height = c.blocks := erase_insert hbody _
  have htip : checkedSub b.height 1 = c.tipHeight ∧
      ((checkedSub b.height 1).bind c.headers.get?).map Header.hash = c.tipHash := by
    cases hheight : c.tipHeight with
    | none =>
      have hzero := hc.height_zero h hheight
      rw [hzero, (hc.empty hheight).1]
      exact ⟨rfl, rfl⟩
    | some t =>
      have hsub : checkedSub b.height 1 = some t := by
        rw [checkedSub_eq_some]
        have := (hc.next h hheight).1
        have h1 : (1 : Height).val = 1 := rfl
        omega
      obtain ⟨header, hheader, hhash⟩ := hc.tip t hheight
      rw [hsub, Option.bind_some, hheader, hhash]
      exact ⟨rfl, rfl⟩
  have hget : (c.blocks.insert b.height b).get? b.height = some b := by simp
  simp only [Chain.removeTip, Chain.extend, okOr, hget, rejectIf, ok_bind, ne_eq, not_true_eq_false,
    if_false, hheaders, hblocks, pure_eq_ok]
  obtain ⟨headers, blocks, tipHeight, tipHash⟩ := c
  rw [Except.ok.injEq, Prod.mk.injEq, Chain.mk.injEq]
  exact ⟨rfl, rfl, rfl, htip⟩

end Chain

end Xparq
