import Xparq.Consensus.DifficultyPaths
import Xparq.Ledger.Snapshot
import Xparq.Lib.HashChain

/-!
# The headers of a canonical chain

A node keeps every header of its chain, and only some bodies. `Chain.HeadersOf blocks c` says that
the headers and the tip of `c` are those of blocks that follow the rule, whatever bodies are
resident; the chain of every reachable ledger is of this kind (`OnGenesis.exists_blocks`).

A genesis block has no emission and every later block has one, so their weights differ and a
genesis header never comes back. Two such chains whose headers do not collide therefore agree
below every hash they share (`HeadersOf.take_eq`).
-/

namespace Xparq

open Machine Outcome OrderedMap List

section
variable [Crypto]

/-- The committed weight is the serialized size, and the structure is valid. -/
structure Block.Sized (b : Block) : Prop where
  weight : b.weight = .ok b.header.blockWeight.val
  valid : b.validateStructure = .ok ()

namespace Ledger

variable {l l' : Ledger} {b : Block} {trace : List (Ledger × Block)}

theorem Commits.validateForApply (h : Commits l b l') :
    validateForApply b l.chain true = .ok () := by
  rcases h with ⟨hash, h⟩ | h
  · simp only [applyGenesis, bind_eq_ok, mapError_eq_ok] at h
    obtain ⟨_, _, _, _, _, _, _, _, _, h, _⟩ := h
    exact h
  · simp only [applyBlock, bind_eq_ok, mapError_eq_ok] at h
    obtain ⟨_, _, _, h, _⟩ := h
    exact h

theorem executeBlock_weight {executed : ExecutedBlock} (h : l.executeBlock b = .ok executed) :
    b.weight = .ok executed.blockWeight.val := by
  simp only [executeBlock, bind_eq_ok, Prod.exists, return_eq_ok, mapError_eq_ok, okOr_eq_ok,
    ofNat?_eq_some] at h
  obtain ⟨_, _, _, _, weight, hweight, blockWeight, hfits, _, _, _, _, _, _, _, _, _, _,
    _, _, _, rfl⟩ := h
  rw [hweight, hfits]

theorem Commits.sized (h : Commits l b l') : b.Sized := by
  obtain ⟨executed, hexecute, hweight, _, _, _⟩ :=
    applyValidatedBlock_eq_ok.mp h.applyValidatedBlock
  exact ⟨by rw [executeBlock_weight hexecute, hweight], h.validateStructure⟩

theorem History.commits (h : History l trace) : ∀ e ∈ trace, ∃ l', Commits e.1 e.2 l' := by
  induction h with
  | new => nofun
  | commit _ hcommit ih => exact forall_mem_cons.mpr ⟨⟨_, hcommit⟩, ih⟩
  | rollback _ _ ih => exact fun e he => ih e (mem_of_mem_tail he)
  | prune _ _ ih => exact ih

theorem Backed.admitted (h : Backed l trace) (hcommits : ∀ e ∈ trace, ∃ l', Commits e.1 e.2 l') :
    Admitted (trace.map Prod.snd).reverse l.chain := by
  induction h with
  | nil hl hempty =>
    rw [Backed.chain_eq_empty (.nil hl hempty)]
    exact .empty
  | @cons l p b rest _ hlinks hprior ih =>
    obtain ⟨⟨_, hcommit⟩, hrest⟩ := forall_mem_cons.mp hcommits
    rw [map_cons, reverse_cons, hlinks.chain]
    exact .next (ih hrest) hcommit.validateForApply (Chain.insertBlock_eq_ok.mpr ⟨hlinks.next, rfl⟩)

end Ledger

/-! ## Chains of headers -/

namespace Chain

/-- The headers and the tip are those of the blocks. -/
structure HeadersOf (blocks : List Block) (c : Chain) : Prop where
  ruled : Ruled blocks
  sized : ∀ b ∈ blocks, b.Sized
  headers : ∀ k : Height, c.headers.get? k = (blocks[k.val]?).map Block.header
  tip : ∀ last, blocks.getLast? = some last → c.tipHeight = some last.height ∧
    c.tipHash = some last.hash

variable {blocks blocks' : List Block} {c c' : Chain}

variable {b : Block} {i : Nat} {S : Set Header}

theorem HeadersOf.height (h : c.HeadersOf blocks) (hb : blocks[i]? = some b) :
    b.height.val = i := h.ruled.height hb

theorem HeadersOf.length_le (h : c.HeadersOf blocks) : blocks.length ≤ 2 ^ 64 := by
  rcases Nat.eq_zero_or_pos blocks.length with hzero | hpos
  · rw [hzero]
    exact Nat.zero_le _
  · have hlast := h.height (getElem?_eq_getElem (Nat.sub_lt hpos Nat.one_pos))
    have := (blocks[blocks.length - 1]).height.isLt
    omega

theorem HeadersOf.header_eq (h : c.HeadersOf blocks) (hb : blocks[i]? = some b) :
    c.header b.height = some b.header := by
  rw [Chain.header, h.headers, h.height hb, hb, Option.map_some]

theorem HeadersOf.entries (h : c.HeadersOf blocks) :
    c.headers.entries = blocks.map fun b => (b.height, b.header) := by
  refine entries_eq_of_mem_iff c.headers.sorted ?_ ?_
  · rw [pairwise_map, pairwise_iff_getElem]
    intro i j hi hj hij
    rw [Fin.lt_def, h.height (getElem?_eq_getElem hi), h.height (getElem?_eq_getElem hj)]
    exact hij
  · rintro ⟨k, header⟩
    rw [← get?_eq_some_iff, h.headers, Option.map_eq_some_iff, mem_map]
    constructor
    · rintro ⟨b, hb, rfl⟩
      exact ⟨b, mem_of_getElem? hb, by rw [Prod.mk.injEq]; exact ⟨Fin.ext (h.height hb), rfl⟩⟩
    · rintro ⟨b, hb, heq⟩
      obtain ⟨rfl, rfl⟩ := Prod.mk.inj heq
      obtain ⟨i, hi⟩ := mem_iff_getElem?.mp hb
      exact ⟨b, by rw [h.height hi, hi], rfl⟩

/-! ## Chains that share a hash -/

omit [Crypto] in
theorem weight_emission_none {n : Nat} (h : b.weight = .ok n) (hemission : b.emission = none)
    (hoperations : b.operations = []) : n = 125 := by
  simp only [Block.weight, okOr_eq_ok, Option.map_eq_some_iff, Block.encode, hemission, hoperations,
    bind_eq_some, return_eq_some] at h
  obtain ⟨_, ⟨count, hcount, parts, hparts, rfl⟩, rfl⟩ := h
  cases hcount
  cases hparts
  simp [Header.encode, Block.encodeEmission]

omit [Crypto] in
theorem weight_emission_some {n : Nat} (h : b.weight = .ok n) (hemission : b.emission ≠ none) :
    125 < n := by
  obtain ⟨emission, hemission⟩ := Option.ne_none_iff_exists'.mp hemission
  simp only [Block.weight, okOr_eq_ok, Option.map_eq_some_iff, Block.encode, hemission,
    bind_eq_some, return_eq_some] at h
  obtain ⟨_, ⟨count, hcount, parts, _, rfl⟩, rfl⟩ := h
  simp only [Header.encode, Block.encodeEmission, Emission.encode, length_append, Hash.length_bytes,
    length_leBytes, length_cons]
  omega

theorem header_ne_of_sized {b' : Block} (hb : b.Sized) (hb' : b'.Sized) (hzero : b.height = 0)
    (hheight : b'.height ≠ 0) : b.header ≠ b'.header := by
  intro heq
  have hvalid := hb.valid
  have hvalid' := hb'.valid
  simp only [Block.validateStructure, bind_eq_ok] at hvalid hvalid'
  obtain ⟨_, _, _, hpresence, _⟩ := hvalid
  obtain ⟨_, _, _, hpresence', _⟩ := hvalid'
  rw [checkEmissionPresence, if_pos (by simp [Block.isGenesis, hzero])] at hpresence
  rw [checkEmissionPresence, if_neg (by simp [Block.isGenesis, hheight]), rejectIf_eq_ok]
    at hpresence'
  simp only [bind_eq_ok, rejectIf_eq_ok, not_not] at hpresence
  obtain ⟨_, hemission, hoperations⟩ := hpresence
  have hsmall := weight_emission_none hb.weight hemission hoperations
  have hlarge := weight_emission_some hb'.weight hpresence'
  rw [← heq, hsmall] at hlarge
  exact lt_irrefl _ hlarge

theorem HeadersOf.linked (h : c.HeadersOf blocks) :
    HashChain.Linked Header.hash Header.previousHash (blocks.map Block.header) := by
  intro i a b ha hb
  rw [getElem?_map, Option.map_eq_some_iff] at ha hb
  obtain ⟨p, hp, rfl⟩ := ha
  obtain ⟨b, hb, rfl⟩ := hb
  exact h.ruled.parent hp hb

theorem HeadersOf.rootApart (h : c.HeadersOf blocks) (h' : c'.HeadersOf blocks') :
    HashChain.RootApart (blocks.map Block.header) (blocks'.map Block.header) := by
  intro header j hfirst hlater
  rw [getElem?_map, Option.map_eq_some_iff] at hfirst hlater
  obtain ⟨b, hb, rfl⟩ := hfirst
  obtain ⟨b', hb', heq⟩ := hlater
  refine header_ne_of_sized (h.sized b (mem_of_getElem? hb)) (h'.sized b' (mem_of_getElem? hb'))
    (Fin.ext (h.height hb)) ?_ heq.symm
  intro hzero
  have := h'.height hb'
  rw [hzero] at this
  cases this

/-- The headers of the chain are among those. -/
def Within (S : Set Header) (c : Chain) :
    Prop := ∀ k header, c.headers.get? k = some header → header ∈ S

theorem HeadersOf.within (h : c.HeadersOf blocks) (hS : ∀ b ∈ blocks, b.header ∈ S) :
    c.Within S := by
  intro k header hk
  rw [h.headers, Option.map_eq_some_iff] at hk
  obtain ⟨b, hb, rfl⟩ := hk
  exact hS b (mem_of_getElem? hb)

theorem HeadersOf.mem (h : c.HeadersOf blocks) (hS : c.Within S) :
    ∀ header ∈ blocks.map Block.header, header ∈ S := by
  intro header hmem
  obtain ⟨b, hb, rfl⟩ := mem_map.mp hmem
  obtain ⟨i, hi⟩ := mem_iff_getElem?.mp hb
  exact hS _ _ (h.header_eq hi)

/-- Two chains agree below every hash they share. -/
theorem HeadersOf.take_eq (hinj : S.InjOn Header.hash) (h : c.HeadersOf blocks)
    (h' : c'.HeadersOf blocks') (hS : c.Within S) (hS' : c'.Within S) {j : Nat} {b' : Block}
    (hb : blocks[i]? = some b) (hb' : blocks'[j]? = some b') (hhash : b.hash = b'.hash) :
    i = j ∧ (blocks.take (i + 1)).map Block.header = (blocks'.take (i + 1)).map Block.header := by
  rw [map_take, map_take]
  exact h.linked.take_eq hinj h'.linked (h.mem hS) (h'.mem hS') (h.rootApart h') (h'.rootApart h)
    (by rw [getElem?_map, hb, Option.map_some]) (by rw [getElem?_map, hb', Option.map_some]) hhash

end Chain

/-! ## Reachable ledgers -/

namespace Ledger

variable {l : Ledger} {trace : List (Ledger × Block)}

theorem History.headersOf (h : History l trace) :
    l.chain.HeadersOf (trace.map Prod.snd).reverse := by
  obtain ⟨hruled, hchain⟩ := (h.backed.admitted h.commits).ruled
  refine ⟨hruled, ?_, hchain.headers, ?_⟩
  · intro b hb
    rw [mem_reverse] at hb
    obtain ⟨e, he, rfl⟩ := mem_map.mp hb
    obtain ⟨_, hcommit⟩ := h.commits e he
    exact hcommit.sized
  · intro last hlast
    obtain ⟨htip, hlength⟩ := hchain.tip last hlast
    refine ⟨htip, ?_⟩
    obtain ⟨header, hheader, hhash⟩ := hchain.linked.tip _ htip
    rw [hchain.headers, show last.height.val = (trace.map Prod.snd).reverse.length - 1 by omega,
      ← getLast?_eq_getElem?, hlast, Option.map_some, Option.some.injEq] at hheader
    rw [hhash, ← hheader]
    rfl

/-- The headers and the tip are those of a reachable ledger with the genesis block. Bodies may
have left the ledger since. -/
structure OnGenesis (genesis : BlockHash) (l : Ledger) : Prop where
  reachable : ∃ r, Reachable r ∧ l.chain.headers = r.chain.headers ∧
    l.chain.tipHeight = r.chain.tipHeight ∧
    l.chain.tipHash = r.chain.tipHash
  genesis : (l.chain.header 0).map Header.hash = some genesis

theorem OnGenesis.exists_blocks {genesis : BlockHash} (h : OnGenesis genesis l) :
    ∃ first rest, l.chain.HeadersOf (first :: rest) ∧ first.hash = genesis := by
  obtain ⟨r, ⟨trace, hr⟩, hheaders, hheight, hhash⟩ := h.reachable
  have hof := hr.headersOf
  have hl : l.chain.HeadersOf (trace.map Prod.snd).reverse :=
    ⟨hof.ruled, hof.sized, hheaders ▸ hof.headers,
      fun last hlast => hheight ▸ hhash ▸ hof.tip last hlast⟩
  have hgenesis := h.genesis
  rw [Chain.header, hl.headers] at hgenesis
  generalize (trace.map Prod.snd).reverse = blocks at hl hgenesis
  cases blocks with
  | nil => cases hgenesis
  | cons first rest => exact ⟨first, rest, hl, Option.some.inj hgenesis⟩

end Ledger

end

namespace Ledger

section Sample

attribute [local instance] Crypto.checksum

/-- Two rival first blocks on one genesis block. -/
def sampleRivals : Except NodeError ((Block × Ledger) × Block × Ledger) := do
  let l ← sampleStart.mapError .ledger
  let one ← l.mine 7 []
  let other ← l.mine 8 []
  return (one, other)

theorem exists_sampleRivals : ∃ b l b' l', sampleRivals = .ok ((b, l), b', l') ∧ b.hash ≠ b'.hash ∧
    l.chain.HeadersOf [sampleGenesis, b] ∧ l'.chain.HeadersOf [sampleGenesis, b'] ∧
    l.OnGenesis sampleGenesis.hash ∧ l'.OnGenesis sampleGenesis.hash ∧
    ∃ S : Set Header, S.InjOn Header.hash ∧ l.chain.Within S ∧ l'.chain.Within S := by
  have hok : (sampleRivals.toOption.any fun e =>
      (([sampleGenesis, e.1.1, e.2.1].map Block.header).map Header.hash).Nodup) = true := by
    decide +kernel
  obtain ⟨rivals, hrivals, hok⟩ := exists_of_any hok
  obtain ⟨⟨b, l⟩, b', l'⟩ := rivals
  rw [decide_eq_true_iff] at hok
  have hrun := hrivals
  simp only [sampleRivals, bind_eq_ok, mapError_eq_ok, return_eq_ok, Prod.mk.injEq] at hrun
  obtain ⟨start, hstart, _, hone, _, hother, rfl, rfl, rfl⟩ := hrun
  have hhistory := (history_sampleStart hstart).commit (commits_of_mine hone)
  have hhistory' := (history_sampleStart hstart).commit (commits_of_mine hother)
  have hof : l.chain.HeadersOf [sampleGenesis, b] := hhistory.headersOf
  have hof' : l'.chain.HeadersOf [sampleGenesis, b'] := hhistory'.headersOf
  have hgenesis : ∀ (c : Chain) (rest : List Block), c.HeadersOf (sampleGenesis :: rest) →
      (c.header 0).map Header.hash = some sampleGenesis.hash :=
    fun c rest h => congrArg (Option.map Header.hash) (h.header_eq (i := 0) rfl)
  have hmem : ∀ x ∈ [sampleGenesis, b, b'], x.header ∈ [sampleGenesis, b, b'].map Block.header :=
    fun x hx => mem_map_of_mem hx
  refine ⟨b, l, b', l', hrivals, ?_, hof, hof',
    ⟨⟨l, ⟨_, hhistory⟩, rfl, rfl, rfl⟩, hgenesis _ _ hof⟩,
      ⟨⟨l', ⟨_, hhistory'⟩, rfl, rfl, rfl⟩, hgenesis _ _ hof'⟩,
    {header | header ∈ [sampleGenesis, b, b'].map Block.header}, ?_, ?_, ?_⟩
  · intro heq
    exact (nodup_cons.mp (nodup_cons.mp hok).2).1 (mem_singleton.mpr heq)
  · exact fun x hx y hy => inj_on_of_nodup_map hok hx hy
  · exact hof.within fun x hx => hmem x (by grind)
  · exact hof'.within fun x hx => hmem x (by grind)

end Sample

end Ledger

end Xparq
