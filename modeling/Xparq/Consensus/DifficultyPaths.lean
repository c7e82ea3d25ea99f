import Xparq.Consensus.ForkChoice
import Xparq.Blockchain.Linked
import Xparq.Ledger.Canonical

/-!
# One difficulty on every path

Block admission reads the weights of an epoch from the chain, the fork graph from the ancestors
of the parent, header verification from a window of recent headers. `nextBits` is the difficulty
after a list of headers; each path computes it for a chain of admitted blocks
(`Admitted.difficulty_agrees`), and it always exists.
-/

namespace Xparq

open Machine Outcome OrderedMap ParentForest List

/-! ## The difficulty after a list of headers -/

/-- The difficulty of the header at height `headers.length`. -/
def nextBits (headers : List Header) : Option U32 :=
  headers.getLast?.bind fun last =>
    if headers.length = 1 then some targetBitsStart
    else if isWbdaEpochBoundary headers.length = false then some last.targetBits
    else nextDifficultyFromWindow last.targetBits
      ((headers.drop (headers.length - wbdaWindow)).map fun h => h.blockWeight.val)

theorem window_le {n : Nat} (h : isWbdaEpochBoundary n = true) : wbdaWindow < n := by
  simp only [isWbdaEpochBoundary, Bool.and_eq_true, decide_eq_true_eq] at h
  obtain ⟨hone, hmod⟩ := h
  have hdvd := Nat.dvd_of_mod_eq_zero hmod
  have := Nat.le_of_dvd (by omega) hdvd
  omega

theorem expectedDifficultyForHeight_eq {ε : Type} {headers : List Header} {last : Header}
    (weightAt : Nat → Except ε Nat) (hlast : headers.getLast? = some last)
    (hweight : ∀ i (h : i < headers.length), headers.length - wbdaWindow ≤ i →
      weightAt i = .ok headers[i].blockWeight.val) :
    expectedDifficultyForHeight headers.length last.targetBits weightAt =
      .ok (nextBits headers) := by
  simp only [expectedDifficultyForHeight, nextBits, hlast, Option.bind_some]
  split_ifs with hone hboundary
  · rfl
  · rfl
  · have hlarge := window_le (by simpa using hboundary)
    rw [mapM_window (g := fun h : Header => h.blockWeight.val) hlarge.le hweight]
    rfl

/-! ## Chains that follow the rule -/

section
variable [Crypto]

/-- What a block has to fulfil after the blocks below it, as far as its header goes. -/
structure Continues (blocks : List Block) (b : Block) : Prop where
  height : b.height.val = blocks.length
  parent : ∀ last, blocks.getLast? = some last → b.header.previousHash = last.hash
  weight : blocks ≠ [] → b.header.blockWeight ≠ 0 ∧ b.header.blockWeight.val ≤ maxBlockSize
  bits : blocks ≠ [] → nextBits (blocks.map Block.header) = some b.header.targetBits
  pow : blocks ≠ [] → verifyPow b.header b.header.targetBits = .ok ()

inductive Ruled : List Block → Prop
  | nil : Ruled []
  | snoc {blocks : List Block} {b : Block} (h : Ruled blocks) (hb : Continues blocks b) : Ruled
      (blocks ++ [b])

variable {i : Nat} {last : Block}

theorem Ruled.continues {blocks : List Block} (h : Ruled blocks) {b : Block}
    (hb : blocks[i]? = some b) : Continues (blocks.take i) b := by
  induction h with
  | nil => simp at hb
  | @snoc blocks last h hlast ih =>
    rcases Nat.lt_or_ge i blocks.length with hi | hi
    · rw [getElem?_append_left hi] at hb
      rw [take_append_of_le_length hi.le]
      exact ih hb
    · have hi' : i = blocks.length := by
        obtain ⟨hlt, _⟩ := List.getElem?_eq_some_iff.mp hb
        rw [length_append, length_singleton] at hlt
        omega
      subst hi'
      rw [getElem?_concat_length, Option.some.injEq] at hb
      subst hb
      rw [take_left']
      · exact hlast
      · rfl

theorem Ruled.height {blocks : List Block} (h : Ruled blocks) {b : Block}
    (hb : blocks[i]? = some b) : b.height.val = i := by
  obtain ⟨hlt, _⟩ := List.getElem?_eq_some_iff.mp hb
  rw [(h.continues hb).height, length_take]
  omega

theorem Ruled.take {blocks : List Block} (h : Ruled blocks) (n : Nat) : Ruled (blocks.take n) := by
  induction h with
  | nil =>
    rw [take_nil]
    exact .nil
  | @snoc blocks b h hb ih =>
    rcases Nat.lt_or_ge blocks.length n with hn | hn
    · rw [take_of_length_le (by rwa [length_append, length_singleton])]
      exact .snoc h hb
    · rw [take_append_of_le_length hn]
      exact ih

/-- Past genesis the difficulty exists, whatever the weights were. -/
theorem Ruled.exists_nextBits {blocks : List Block} (h : Ruled blocks) (hne : blocks ≠ []) :
    ∃ bits, nextBits (blocks.map Block.header) = some bits ∧ Admissible bits := by
  induction h with
  | nil => exact absurd rfl hne
  | @snoc blocks b h hb ih =>
    have hlast : ((blocks ++ [b]).map Block.header).getLast? = some b.header := by simp
    have hlength : ((blocks ++ [b]).map Block.header).length = blocks.length + 1 := by simp
    simp only [nextBits, hlast, Option.bind_some]
    by_cases hnil : blocks = []
    · subst hnil
      exact ⟨_, rfl, admissible_start⟩
    · have hadmissible : Admissible b.header.targetBits := by
        obtain ⟨bits, hbits, hadmissible⟩ := ih hnil
        rw [hb.bits hnil, Option.some.injEq] at hbits
        exact hbits ▸ hadmissible
      have hpos := length_pos_of_ne_nil hnil
      rw [if_neg (by omega)]
      split_ifs with hboundary
      · exact ⟨_, rfl, hadmissible⟩
      · apply hadmissible.next
        have hlarge := window_le (by simpa using hboundary)
        rw [length_map, length_drop]
        omega

/-! ## Block admission -/

/-- Blocks admitted one after another, each with its proof of work. -/
inductive Admitted : List Block → Chain → Prop
  | empty : Admitted [] Chain.empty
  | next {blocks : List Block} {c c' : Chain} {b : Block} (h : Admitted blocks c)
      (hvalid : validateForApply b c true = .ok ()) (hinsert : c.insertBlock b = .ok c') :
      Admitted (blocks ++ [b]) c'

/-- The chain holds the headers of the blocks at their heights. -/
structure ChainOf (blocks : List Block) (c : Chain) : Prop where
  linked : c.Linked
  empty : blocks = [] → c.tipHeight = none
  tip : ∀ last, blocks.getLast? = some last →
    c.tipHeight = some last.height ∧ last.height.val + 1 = blocks.length
  headers : ∀ k : Height, c.headers.get? k = (blocks[k.val]?).map Block.header

variable {blocks : List Block} {c : Chain} {b : Block}

theorem chainOf_empty : ChainOf [] Chain.empty :=
  ⟨Chain.linked_empty, fun _ => rfl, nofun, fun _ => rfl⟩

theorem ChainOf.height (hc : ChainOf blocks c) (hnext : c.validateNextBlock b = .ok ()) :
    b.height.val = blocks.length ∧ ∀ last, blocks.getLast? = some last →
      b.header.previousHash = last.hash := by
  cases hlast : blocks.getLast? with
  | none =>
    have hnil := getLast?_eq_none_iff.mp hlast
    rw [hc.linked.height_zero hnext (hc.empty hnil), hnil]
    exact ⟨rfl, nofun⟩
  | some last =>
    obtain ⟨htip, hlength⟩ := hc.tip last hlast
    obtain ⟨hheight, hparent⟩ := hc.linked.next hnext htip
    refine ⟨by omega, ?_⟩
    rintro _ ⟨⟩
    obtain ⟨header, hheader, hhash⟩ := hc.linked.tip _ htip
    rw [hc.headers, show last.height.val = blocks.length - 1 by
      omega, ← getLast?_eq_getElem?, hlast, Option.map_some, Option.some.injEq] at hheader
    rw [hhash, Option.some.injEq] at hparent
    rw [← hparent, ← hheader]
    rfl

theorem ChainOf.extend (hc : ChainOf blocks c) (hnext : c.validateNextBlock b = .ok ()) :
    ChainOf (blocks ++ [b]) (c.extend b) := by
  obtain ⟨hheight, _⟩ := hc.height hnext
  refine ⟨hc.linked.extend hnext, by simp, ?_, ?_⟩
  · intro last hlast
    rw [getLast?_append, getLast?_singleton, Option.some_or, Option.some.injEq] at hlast
    subst hlast
    exact ⟨rfl, by rw [length_append, length_singleton, hheight]⟩
  · intro k
    change (c.headers.insert b.height b.header).get? k = _
    rw [get?_insert]
    split_ifs with hk
    · rw [hk, hheight, getElem?_concat_length, Option.map_some]
    · rw [hc.headers]
      have hne : k.val ≠ blocks.length := fun heq => hk (Fin.ext (heq.trans hheight.symm))
      rcases Nat.lt_or_ge k.val blocks.length with hlt | hge
      · rw [getElem?_append_left hlt]
      · rw [getElem?_eq_none hge, getElem?_eq_none (by simp; omega)]

theorem ChainOf.expectedDifficulty (hc : ChainOf blocks c) (hne : blocks ≠ []) {k : Height}
    (hk : k.val = blocks.length) :
    expectedDifficulty c k = okOr (nextBits (blocks.map Block.header)) .invalidDifficulty := by
  obtain ⟨last, hlast⟩ : ∃ last, blocks.getLast? = some last :=
    Option.isSome_iff_exists.mp (by simpa using hne)
  have hpos := length_pos_of_ne_nil hne
  have hzero : k ≠ 0 := by
    rintro rfl
    rw [← hk] at hpos
    exact absurd hpos (lt_irrefl _)
  -- a header below the tip is found at its height
  have hread : ∀ i (hi : i < blocks.length),
      okOr ((Machine.ofNat? (2 ^ 64) i).bind c.header) ConsensusError.invalidPreviousHash =
        .ok blocks[i].header := by
    intro i hi
    have hlt : i < 2 ^ 64 := by have := k.isLt; omega
    rw [Machine.ofNat?, dif_pos hlt, Option.bind_some, Chain.header, hc.headers,
      getElem?_eq_getElem hi]
    rfl
  have hparent : blocks[blocks.length - 1] = last := by
    rw [getLast?_eq_getElem?, getElem?_eq_getElem (by omega), Option.some.injEq] at hlast
    exact hlast
  have hheaders : (blocks.map Block.header).getLast? = some last.header := by
    rw [getLast?_map, hlast, Option.map_some]
  have hdifficulty := expectedDifficultyForHeight_eq (fun n =>
    (okOr ((Machine.ofNat? (2 ^ 64) n).bind c.header) ConsensusError.invalidPreviousHash).map
      fun h => h.blockWeight.val) hheaders fun i hi _ => by
    rw [length_map] at hi
    rw [hread i hi, getElem_map]
    rfl
  rw [length_map] at hdifficulty
  simp only [Xparq.expectedDifficulty, if_neg hzero, hk, hread _ (Nat.sub_lt hpos Nat.one_pos),
    ok_bind, hparent, hdifficulty]

theorem validateStructure_weight (h : b.validateStructure = .ok ()) :
    b.header.blockWeight ≠ 0 ∧ b.header.blockWeight.val ≤ maxBlockSize := by
  simp only [Block.validateStructure, bind_eq_ok, rejectIf_eq_ok, orError_eq_ok,
    not_lt, gt_iff_lt] at h
  obtain ⟨_, _, _, _, _, _, _, hmax, serialized, hserialized, _, _, _, hle, _⟩ := h
  refine ⟨?_, hmax⟩
  -- the serialized block has at least its header
  simp only [Block.weight, okOr_eq_ok, Option.map_eq_some_iff, Block.encode, bind_eq_some,
    return_eq_some] at hserialized
  obtain ⟨_, ⟨_, _, _, _, rfl⟩, rfl⟩ := hserialized
  intro hzero
  rw [hzero] at hle
  simp [Header.encode] at hle

theorem validateForApply_ok (h : validateForApply b c true = .ok ()) :
    b.validateStructure = .ok () ∧ c.validateNextBlock b = .ok () ∧
      (b.height ≠ 0 → expectedDifficulty c b.height = .ok b.header.targetBits ∧
        verifyPow b.header b.header.targetBits = .ok ()) := by
  simp only [validateForApply, bind_eq_ok, mapError_eq_ok] at h
  obtain ⟨⟨⟩, hstructure, ⟨⟩, hnext, h⟩ := h
  refine ⟨hstructure, hnext, fun hzero => ?_⟩
  have hgenesis : ¬ b.isGenesis = true := by simp [Block.isGenesis, hzero]
  rw [if_neg hgenesis] at h
  simp only [bind_eq_ok, if_true, validatePowAtTargetBits, rejectIf_eq_ok, not_not] at h
  obtain ⟨expected, hexpected, ⟨⟩, ⟨_, rfl, _, _, hpow⟩, _⟩ := h
  exact ⟨hexpected, hpow⟩

/-- What the ledger's own check admits keeps the rules, and the chain holds exactly these blocks. -/
theorem Admitted.ruled (h : Admitted blocks c) : Ruled blocks ∧ ChainOf blocks c := by
  induction h with
  | empty => exact ⟨.nil, chainOf_empty⟩
  | @next blocks c c' b _ hvalid hinsert ih =>
    obtain ⟨hruled, hc⟩ := ih
    obtain ⟨hnext, rfl⟩ := Chain.insertBlock_eq_ok.mp hinsert
    obtain ⟨hstructure, _, hdifficulty⟩ := validateForApply_ok hvalid
    obtain ⟨hheight, hparent⟩ := hc.height hnext
    have hnonzero : blocks ≠ [] → b.height ≠ 0 := by
      rintro hne hzero
      rw [hzero] at hheight
      exact hne (eq_nil_of_length_eq_zero hheight.symm)
    refine ⟨hruled.snoc ⟨hheight, hparent, fun _ => validateStructure_weight hstructure,
      fun hne => ?_, fun hne => (hdifficulty (hnonzero hne)).2⟩, hc.extend hnext⟩
    have hbits := (hdifficulty (hnonzero hne)).1
    rwa [hc.expectedDifficulty hne hheight, okOr_eq_ok] at hbits

/-! ## Header verification -/

def Block.headerAtHeight (b : Block) : HeaderAtHeight := ⟨b.height, b.header⟩

omit [Crypto] in
theorem find?_consecutive {l : List HeaderAtHeight} {start : Nat}
    (hkeys : ∀ j h, l[j]? = some h → h.height.val = start + j) (hi : start ≤ i) :
    l.find? (fun h => h.height.val = i) = l[i - start]? := by
  induction l generalizing start with
  | nil => rfl
  | cons h l ih =>
    have hhead := hkeys 0 h rfl
    rcases Nat.eq_or_lt_of_le hi with rfl | hlt
    · rw [find?_cons_of_pos (by simpa using hhead), Nat.sub_self]
      rfl
    · rw [find?_cons_of_neg (by simp; omega), @ih (start + 1) _ hlt]
      · rw [show i - start = i - (start + 1) + 1 by omega, getElem?_cons_succ]
      · intro j h' hj
        rw [hkeys (j + 1) h' hj]
        omega

theorem Ruled.getElem?_headerAtHeight (h : Ruled blocks) {j : Nat} {x : HeaderAtHeight}
    (hx : (blocks.map Block.headerAtHeight)[j]? = some x) : x.height.val = j := by
  rw [getElem?_map, Option.map_eq_some_iff] at hx
  obtain ⟨b, hb, rfl⟩ := hx
  exact h.height hb

theorem Ruled.recentWeight (h : Ruled blocks) {b : Block} (hb : blocks[i]? = some b)
    (hwindow : blocks.length - wbdaWindow ≤ i) :
    recentWeight ((blocks.map Block.headerAtHeight).rtake recentHeaderWindow) i =
      .ok b.header.blockWeight.val := by
  have hroom : wbdaWindow ≤ recentHeaderWindow := by decide
  generalize recentHeaderWindow = window at *
  have hkeys : ∀ j x, ((blocks.map Block.headerAtHeight).rtake window)[j]? = some x →
      x.height.val = (blocks.length - window) + j := by
    intro j x hx
    rw [List.rtake.eq_def, getElem?_drop, length_map] at hx
    exact h.getElem?_headerAtHeight hx
  rw [Xparq.recentWeight, find?_consecutive hkeys (by omega), List.rtake.eq_def, getElem?_drop,
    length_map, show blocks.length - window + (i - (blocks.length - window)) = i by omega,
    getElem?_map, hb]
  rfl

theorem Ruled.next_height (h : Ruled blocks) (hlast : blocks.getLast? = some last)
    (hroom : blocks.length < 2 ^ 64) :
    last.height.next.val = blocks.length := by
  have hpos : 0 < blocks.length := by
    cases blocks with
    | nil => cases hlast
    | cons _ _ => simp
  have hheight : last.height.val = blocks.length - 1 := by
    rw [getLast?_eq_getElem?] at hlast
    exact h.height hlast
  rw [Height.val_next (by omega)]
  omega

theorem Ruled.expectedHeaderDifficulty (h : Ruled blocks) (hlast : blocks.getLast? = some last)
    (hroom : blocks.length < 2 ^ 64) :
    expectedHeaderDifficulty last.headerAtHeight
      ((blocks.map Block.headerAtHeight).rtake recentHeaderWindow) =
      okOr (nextBits (blocks.map Block.header)) (.invalidHeaderChain .invalidDifficulty) := by
  have hnext : last.headerAtHeight.height.next.val = (blocks.map Block.header).length := by
    rw [length_map]
    exact h.next_height hlast hroom
  have hheaders : (blocks.map Block.header).getLast? = some last.header := by
    rw [getLast?_map, hlast, Option.map_some]
  rw [Xparq.expectedHeaderDifficulty, hnext, Block.headerAtHeight,
    expectedDifficultyForHeight_eq _ hheaders, ok_bind]
  intro i hi hwindow
  rw [length_map] at hi hwindow
  rw [h.recentWeight (getElem?_eq_getElem hi) hwindow, getElem_map]

theorem Ruled.exists_chainStep (h : Ruled blocks) (hne : blocks ≠ []) (hb : Continues blocks b)
    (hroom : blocks.length + 1 ≤ 2 ^ 64) {walk : HeaderWalk}
    (hwalk : walk.Follows (blocks.map Block.headerAtHeight)) :
    ∃ walk', chainStep verifyPow walk b.headerAtHeight = .ok walk' := by
  obtain ⟨last, hlast⟩ : ∃ last, blocks.getLast? = some last :=
    Option.isSome_iff_exists.mp (by simpa using hne)
  have hprevious : walk.previous = last.headerAtHeight := by
    have := hwalk.last
    rw [getLast?_map, hlast, Option.map_some] at this
    exact (Option.some.inj this).symm
  have hheight : b.height = last.height.next :=
    Fin.ext (hb.height.trans (h.next_height hlast hroom).symm)
  have hdifficulty := h.expectedHeaderDifficulty hlast hroom
  rw [hb.bits hne] at hdifficulty
  obtain ⟨bits, hbits, target, htarget, _⟩ := h.exists_nextBits hne
  rw [hb.bits hne, Option.some.injEq] at hbits
  rw [← hbits] at htarget
  refine ⟨⟨b.headerAtHeight, saturatingAdd walk.cumulativeWork target.work,
    pushRecent walk.recent b.headerAtHeight⟩, ?_⟩
  simp only [chainStep, bind_eq_ok, rejectIf_eq_ok, mapError_eq_ok, okOr_eq_ok, return_eq_ok,
    hwalk.recent, hprevious]
  refine ⟨(), ?_, (), ?_, _, hdifficulty, (), not_not.mpr rfl, (), hb.pow hne, target.work, ?_, rfl⟩
  · rw [validateHeaderWeight, rejectIf_eq_ok]
    rintro (hzero | hlarge)
    · exact (hb.weight hne).1 hzero
    · exact absurd (hb.weight hne).2 (not_le.mpr hlarge)
  · rintro (hne' | hne')
    · exact hne' hheight
    · exact hne' (hb.parent last hlast)
  · rw [blockWork, htarget, Option.map_some]

/-- Header verification accepts the headers of a chain that keeps the rules, block by block. -/
theorem Ruled.exists_walk {first : Block} {rest : List Block} (h : Ruled (first :: rest))
    (hroom : (first :: rest).length ≤ 2 ^ 64) :
    ∃ walk, (rest.map Block.headerAtHeight).foldlM (chainStep verifyPow)
      (.start first.headerAtHeight) = .ok walk ∧
      walk.Follows ((first :: rest).map Block.headerAtHeight) := by
  generalize hblocks : first :: rest = blocks at h hroom
  induction h generalizing rest with
  | nil => cases hblocks
  | @snoc blocks b h hb ih =>
    rcases eq_nil_or_concat rest with rfl | ⟨rest, last, rfl⟩
    · -- genesis itself is not checked
      rw [← hblocks]
      exact ⟨_, rfl, follows_start _⟩
    · rw [concat_eq_append, ← cons_append] at hblocks
      obtain ⟨rfl, hlast⟩ := append_inj' hblocks rfl
      obtain rfl := (List.cons.inj hlast).1
      rw [length_append, length_singleton] at hroom
      obtain ⟨walk, hwalk, hfollows⟩ := ih rfl (Nat.le_of_succ_le hroom)
      obtain ⟨walk', hstep⟩ := h.exists_chainStep (cons_ne_nil _ _) hb hroom hfollows
      refine ⟨walk', ?_, ?_⟩
      · rw [concat_eq_append, map_append, foldlM_append, hwalk]
        simp only [ok_bind, map_singleton, foldlM_cons, hstep, foldlM_nil, pure_eq_ok]
      · rw [map_append]
        exact hfollows.step hstep

/-! ## The fork graph -/

/-- The graph has the blocks of the chain. -/
def HasChain (f : ForkChoice) (blocks : List Block) : Prop :=
  ∀ b ∈ blocks, ∃ n, f.nodes.get? b.hash = some n ∧ n.block = b

variable {f : ForkChoice}

theorem Ruled.parent (h : Ruled blocks) {p : Block} (hp : blocks[i]? = some p)
    (hb : blocks[i + 1]? = some b) : b.header.previousHash = p.hash := by
  refine (h.continues hb).parent p ?_
  rw [take_add_one, hp, Option.toList_some, getLast?_concat]

theorem HasChain.node (hf : f.Forest) (hchain : HasChain f blocks) (h : Ruled blocks)
    (hb : blocks[i]? = some b) :
    ∃ n, f.nodes.get? b.hash = some n ∧ n.block = b ∧ n.height.val = i ∧
      n.parent = b.header.previousHash := by
  obtain ⟨n, hn, rfl⟩ := hchain b (mem_of_getElem? hb)
  obtain ⟨_, hnode⟩ := hf.node _ n hn
  exact ⟨n, hn, rfl, by rw [hnode.height, h.height hb], hnode.parent⟩

theorem HasChain.exists_lineage (hf : f.Forest) (hchain : HasChain f blocks) (h : Ruled blocks)
    (hb : blocks[i]? = some b) : ∃ l, Lineage f.up b.hash l ∧ l.length = i + 1 := by
  induction i generalizing b with
  | zero =>
    obtain ⟨n, hn, _, hheight, _⟩ := hchain.node hf h hb
    refine ⟨[b.hash], .root ?_, rfl⟩
    rw [ForkChoice.up, hn, Option.bind_some, if_pos (Fin.ext hheight)]
  | succ i ih =>
    obtain ⟨n, hn, _, hheight, hparent⟩ := hchain.node hf h hb
    have hlt : i < blocks.length := by
      obtain ⟨hlt, _⟩ := List.getElem?_eq_some_iff.mp hb
      omega
    obtain ⟨l, hl, hlength⟩ := ih (getElem?_eq_getElem hlt)
    rw [← h.parent (getElem?_eq_getElem hlt) hb, ← hparent] at hl
    refine ⟨b.hash :: l, .step ?_ hl, by rw [length_cons, hlength]⟩
    rw [ForkChoice.up, hn, Option.bind_some, if_neg]
    rintro hzero
    rw [hzero] at hheight
    cases hheight

/-- The walk down from a block of the chain stays on the chain, one height for each step. -/
theorem HasChain.ancestorAtFrom (hf : f.Forest) (hchain : HasChain f blocks) (h : Ruled blocks)
    {fuel : Nat} {k : Height} {a : Block} (hb : blocks[i]? = some b) (ha : blocks[k.val]? = some a)
    (hle : k.val ≤ i) (hfuel : i - k.val < fuel) :
    ∃ n, f.ancestorAtFrom k fuel b.hash = some n ∧ n.block = a := by
  induction fuel generalizing i b with
  | zero => omega
  | succ fuel ih =>
    obtain ⟨n, hn, hblock, hheight, hparent⟩ := hchain.node hf h hb
    simp only [ForkChoice.ancestorAtFrom, hn, some_bind]
    rcases Nat.eq_or_lt_of_le hle with rfl | hlt
    · rw [hb, Option.some.injEq] at ha
      exact ⟨n, if_pos (Fin.ext hheight), hblock.trans ha⟩
    · obtain ⟨i, rfl⟩ : ∃ j, i = j + 1 := ⟨i - 1, by omega⟩
      have hne : n.height ≠ k := by
        rintro rfl
        omega
      have hstop : ¬ (n.height < k ∨ n.height = 0) := by
        rintro (hlt' | hzero)
        · have := Fin.lt_def.mp hlt'
          omega
        · rw [hzero] at hheight
          cases hheight
      have hi : i < blocks.length := by
        obtain ⟨hlt, _⟩ := List.getElem?_eq_some_iff.mp hb
        omega
      rw [if_neg hne, if_neg hstop, hparent, h.parent (getElem?_eq_getElem hi) hb]
      exact ih (getElem?_eq_getElem hi) (by omega) (by omega)

theorem HasChain.expectedDifficultyFor (hf : f.Forest) (hchain : HasChain f blocks)
    (h : Ruled blocks) (hlast : blocks.getLast? = some last) (hb : b.height.val = blocks.length) :
    f.expectedDifficultyFor b last.hash = okOr (nextBits (blocks.map Block.header))
      .invalidDifficulty := by
  have hpos : 0 < blocks.length := by
    cases blocks with
    | nil => cases hlast
    | cons _ _ => simp
  have hindex := hlast
  rw [getLast?_eq_getElem?] at hindex
  have hzero : b.height ≠ 0 := by
    intro hzero
    rw [hzero] at hb
    exact absurd hb.symm hpos.ne'
  obtain ⟨n, hn, hblock, _⟩ := hchain.node hf h hindex
  obtain ⟨l, hl, hlength⟩ := hchain.exists_lineage hf h hindex
  have hfuel := hf.lineage_length hn hl
  have hheaders : (blocks.map Block.header).getLast? = some last.header := by
    rw [getLast?_map, hlast, Option.map_some]
  have hdifficulty := expectedDifficultyForHeight_eq (fun height =>
    (okOr ((ofNat? (2 ^ 64) height).bind (f.ancestorAtHeight last.hash))
      ForkChoiceError.missingParent).map
      fun node => node.block.header.blockWeight.val) hheaders fun i hi _ => by
    rw [length_map] at hi
    have hlt : i < 2 ^ 64 := by have := b.height.isLt; omega
    obtain ⟨a, ha, hblock⟩ :=
      hchain.ancestorAtFrom hf h (k := ⟨i, hlt⟩) hindex (getElem?_eq_getElem hi)
      (show i ≤ blocks.length - 1 by omega) (show blocks.length - 1 - i < f.nodes.length by omega)
    rw [ofNat?, dif_pos hlt, Option.bind_some, ForkChoice.ancestorAtHeight, ha,
      getElem_map, ← hblock]
    rfl
  rw [length_map] at hdifficulty
  rw [ForkChoice.expectedDifficultyFor, if_neg hzero, hn, hb,
    show okOr (some n) ForkChoiceError.missingParent = .ok n from rfl, ok_bind, hblock,
      hdifficulty, ok_bind]

/-! ## The three paths agree -/

/-- For every chain of admitted blocks the three paths compute one difficulty for the next
height. Header verification accepts the chain's headers, and the fork graph may hold any other
blocks besides. -/
theorem Admitted.difficulty_agrees {first : Block} {rest : List Block}
    (h : Admitted (first :: rest) c) {k : Height} (hk : k.val = (first :: rest).length) :
    ∃ bits walk, expectedDifficulty c k = .ok bits ∧
      (rest.map Block.headerAtHeight).foldlM (chainStep verifyPow) (.start first.headerAtHeight) =
      .ok walk ∧
      expectedHeaderDifficulty walk.previous walk.recent = .ok bits ∧
      ∀ genesis inserted f, (ForkChoice.new genesis).insertAll inserted = .ok f →
      first :: rest ⊆ inserted →
        ∀ last b, (first :: rest).getLast? = some last → b.height = k →
          f.expectedDifficultyFor b last.hash = .ok bits := by
  obtain ⟨hruled, hc⟩ := h.ruled
  have hroom : (first :: rest).length < 2 ^ 64 := hk ▸ k.isLt
  obtain ⟨bits, hbits, _⟩ := hruled.exists_nextBits (cons_ne_nil _ _)
  obtain ⟨walk, hwalk, hfollows⟩ := hruled.exists_walk hroom.le
  obtain ⟨last, hlast⟩ : ∃ last, (first :: rest).getLast? = some last :=
    Option.isSome_iff_exists.mp (by simp)
  refine ⟨bits, walk, ?_, hwalk, ?_, ?_⟩
  · rw [hc.expectedDifficulty (cons_ne_nil _ _) hk, hbits]
    rfl
  · have hprevious := hfollows.last
    rw [getLast?_map, hlast, Option.map_some, Option.some.injEq] at hprevious
    rw [← hprevious, hfollows.recent, hruled.expectedHeaderDifficulty hlast hroom, hbits]
    rfl
  · intro genesis inserted f hinsert hsubset last b hlast hb
    have hf : f.Forest := (ForkChoice.forest_new genesis).insertAll hinsert
    have hchain : HasChain f (first :: rest) :=
      fun x hx => (ForkChoice.insertAll_nodes hinsert).2.2.2 x (hsubset hx)
    rw [hchain.expectedDifficultyFor hf hruled hlast (hb ▸ hk), hbits]
    rfl

end

section Sample

attribute [local instance] Crypto.checksum

open ForkChoice

/-- The chain of a genesis block and one child. -/
def sampleChain : Chain := (Chain.empty.extend forkGenesis).extend (forkChild 1)

theorem admitted_sample : Admitted [forkGenesis, forkChild 1] sampleChain := by
  have hgenesis : Admitted [forkGenesis] (Chain.empty.extend forkGenesis) :=
    .next (.empty) (by decide +kernel) (by decide +kernel)
  exact .next hgenesis (by decide +kernel) (by decide +kernel)

/-- The graph also has the other child of the genesis block. -/
theorem sample_difficulty_agrees : ∃ bits, expectedDifficulty sampleChain 2 = .ok bits ∧
    (∃ walk, [(forkChild 1).headerAtHeight].foldlM (chainStep verifyPow)
      (.start forkGenesis.headerAtHeight) = .ok walk ∧
      expectedHeaderDifficulty walk.previous walk.recent = .ok bits) ∧
    ∃ f, (new forkGenesis.hash).insertAll [forkGenesis, forkChild 2, forkChild 1] = .ok f ∧
      f.expectedDifficultyFor { forkChild 2 with height := 2 } (forkChild 1).hash = .ok bits := by
  have hok : ((new forkGenesis.hash).insertAll [forkGenesis, forkChild 2, forkChild 1]).isOk =
      true := by decide +kernel
  obtain ⟨f, hf⟩ := exists_of_isOk hok
  obtain ⟨bits, walk, hbits, hwalk, hheaders, hforks⟩ :=
    Admitted.difficulty_agrees admitted_sample (k := 2) rfl
  exact ⟨bits, hbits, ⟨walk, hwalk, hheaders⟩, f, hf, hforks _ _ f hf (by simp) _ _ rfl rfl⟩

end Sample

end Xparq
