import Xparq.Node.Storage
import Xparq.Ledger.Snapshot

/-!
# Bodies that leave memory

A node keeps the state and every header of its chain in memory, but only the last bodies. The others
are read back from the database, where another chain may stand by then; the header that is still in
memory pins them.

`Ledger.Trimmed` has the ledgers a node works with and the blocks of their chains. Execution reads
no body but that of the tip, so such a ledger is one of a history without some bodies
(`Trimmed.exists_full`). A stream of its blocks can fail, but it cannot give other blocks: bodies
whose hashes differ are told apart by the pinned header (`Trimmed.blockStream_eq`).
-/

namespace Xparq

open Machine Outcome OrderedMap Reader List

section
variable [Crypto]

namespace Ledger

/-- The ledgers a node works with: those of a history, of which bodies may leave memory at any time.
The blocks of the chain are named along, whether their bodies are in memory or not. -/
inductive Trimmed : Ledger → List Block → Prop
  | new : Trimmed (Ledger.new systemApplications) []
  | commit {l l' : Ledger} {blocks : List Block} {b : Block} (h : Trimmed l blocks)
      (hcommit : Commits l b l') :
      Trimmed l' (blocks ++ [b])
  | rollback {l l' : Ledger} {blocks : List Block} {b : Block} (h : Trimmed l blocks)
      (hrollback : l.rollbackTip = .ok (b, l')) : Trimmed l' blocks.dropLast
  | prune {l : Ledger} {blocks : List Block} (h : Trimmed l blocks) (height : Height) :
      Trimmed (l.pruneRollbackJournalsBefore height) blocks
  | retain {l : Ledger} {blocks : List Block} {maxBytes maxBlocks : Nat} {chain : Chain}
      (h : Trimmed l blocks)
      (hretain : l.chain.retainRecentBodies maxBytes maxBlocks = .ok chain) : Trimmed
      { l with chain } blocks

omit [Crypto] in
/-- The ledger with these bodies in memory. -/
def withBodies (l : Ledger) (bodies : OrderedMap Height Block) : Ledger :=
  { l with chain := { l.chain with blocks := bodies } }

omit [Crypto] in
/-- A ledger is another one with fewer bodies in memory. -/
def Evicted (full l : Ledger) : Prop :=
  ∃ bodies, l = full.withBodies bodies ∧
    ∀ height b, bodies.get? height = some b → full.chain.blocks.get? height = some b

variable {l l' full : Ledger} {b : Block} {blocks : List Block} {bodies : OrderedMap Height Block}

/-- `trim_body_cache`. -/
def trimBodyCache (maxBytes maxBlocks : Nat) (l : Ledger) : Except NodeError Ledger := do
  let chain ← orError (l.chain.retainRecentBodies maxBytes maxBlocks)
    (.message "trim resident body cache")
  return { l with chain }

/-- What `update_ledger_cache` does to a ledger before it shares it: undo data leaves memory once
the receipts are written, and then the bodies. -/
def sharedLedger (commits : Height → Bool) (retainedBlocks : U64) (maxBytes maxBlocks : Nat)
    (db : Database) (l : Ledger) : Except NodeError (Database × Ledger) := do
  let (tables, l) ← pruneJournalsWithWindow commits db.toNodeDatabase l retainedBlocks
  let l ← l.trimBodyCache maxBytes maxBlocks
  return ({ db with toNodeDatabase := tables }, l)

/-! ## Execution -/

omit [Crypto] in
theorem Evicted.refl (l : Ledger) : Evicted l l := ⟨l.chain.blocks, rfl, fun _ _ => id⟩

theorem checkPriorRoot_withBodies
    (hbodies : ∀ height b, bodies.get? height = some b → full.chain.blocks.get? height = some b)
    (h : (full.withBodies bodies).checkPriorRoot = .ok ()) : full.checkPriorRoot = .ok () := by
  rw [checkPriorRoot] at h ⊢
  cases htip : full.chain.tipHeight with
  | none =>
    rw [show (full.withBodies bodies).chain.tipHeight = none from htip] at h
    exact h
  | some height =>
    rw [show (full.withBodies bodies).chain.tipHeight = some height from htip] at h
    simp only [bind_eq_ok, okOr_eq_ok] at h ⊢
    obtain ⟨tip, hbody, hroot⟩ := h
    exact ⟨tip, hbodies height tip hbody, hroot⟩

theorem applyValidatedBlock_withBodies
    (hbodies : ∀ height b, bodies.get? height = some b → full.chain.blocks.get? height = some b)
    (h : (full.withBodies bodies).applyValidatedBlock b = .ok l') :
    ∃ full', full.applyValidatedBlock b = .ok full' ∧ Evicted full' l' := by
  obtain ⟨executed, hexecute, hweight, hroot, hnext, rfl⟩ := applyValidatedBlock_eq_ok.mp h
  have hfull : full.executeBlock b = .ok executed := by
    simp only [executeBlock, bind_eq_ok] at hexecute ⊢
    obtain ⟨_, hvalid, _, hprior, hrest⟩ := hexecute
    exact ⟨(), hvalid, (), checkPriorRoot_withBodies hbodies hprior, hrest⟩
  refine ⟨_, applyValidatedBlock_eq_ok.mpr ⟨executed, hfull, hweight, hroot, hnext, rfl⟩,
    bodies.insert b.height b, rfl, fun height body hbody => ?_⟩
  change (full.chain.blocks.insert b.height b).get? height = some body
  rw [get?_insert] at hbody ⊢
  split_ifs at hbody ⊢
  · exact hbody
  · exact hbodies height body hbody

/-- What a ledger commits, it commits with all its bodies as well: apart from the body of the tip
only headers are read. -/
theorem Evicted.commits (h : Evicted full l) (hcommit : Commits l b l') :
    ∃ full', Commits full b full' ∧ Evicted full' l' := by
  obtain ⟨bodies, rfl, hbodies⟩ := h
  rcases hcommit with ⟨hash, hgenesis⟩ | happly
  · simp only [applyGenesis, bind_eq_ok] at hgenesis
    obtain ⟨_, hblocks, _, hstructure, _, hheight, _, hhash, _, hvalid, hrun⟩ := hgenesis
    obtain ⟨full', hfull, hevicted⟩ := applyValidatedBlock_withBodies hbodies hrun
    refine ⟨full', .inl ⟨hash, ?_⟩, hevicted⟩
    simp only [applyGenesis, bind_eq_ok]
    exact ⟨(), hblocks, (), hstructure, (), hheight, (), hhash, (), hvalid, hfull⟩
  · simp only [applyBlock, bind_eq_ok] at happly
    obtain ⟨_, hblocks, _, hvalid, hrun⟩ := happly
    obtain ⟨full', hfull, hevicted⟩ := applyValidatedBlock_withBodies hbodies hrun
    refine ⟨full', .inr ?_, hevicted⟩
    simp only [applyBlock, bind_eq_ok]
    exact ⟨(), hblocks, (), hvalid, hfull⟩

theorem removeTip_withBodies {c c' : Chain} {hash : BlockHash}
    (hbodies : ∀ height b, bodies.get? height = some b → c.blocks.get? height = some b)
    (h : { c with blocks := bodies }.removeTip hash = .ok (b, c')) :
    ∃ full' bodies', c.removeTip hash = .ok (b, full') ∧ c' = { full' with blocks := bodies' } ∧
      ∀ height b, bodies'.get? height = some b → full'.blocks.get? height = some b := by
  simp only [Chain.removeTip, bind_eq_ok, okOr_eq_ok, return_eq_ok, Prod.mk.injEq] at h ⊢
  obtain ⟨_, hhash, height, hheight, _, hbody, rfl, rfl⟩ := h
  refine ⟨_, bodies.erase height, ⟨(), hhash, height, hheight, _, hbodies height _ hbody, rfl, rfl⟩,
    rfl, ?_⟩
  intro k body hk
  rw [get?_erase] at hk ⊢
  split_ifs at hk ⊢
  exact hbodies k body hk

theorem Evicted.rollbackTip (h : Evicted full l) (hrollback : l.rollbackTip = .ok (b, l')) :
    ∃ full', full.rollbackTip = .ok (b, full') ∧ Evicted full' l' := by
  obtain ⟨bodies, rfl, hbodies⟩ := h
  simp only [Ledger.rollbackTip, bind_eq_ok, okOr_eq_ok, mapError_eq_ok, Prod.exists, return_eq_ok,
    Prod.mk.injEq] at hrollback ⊢
  obtain ⟨height, hheight, hash, hhash, tip, htip, root, hroot, _, hprior, journals, hjournals,
    undone, hundone, _, _, hremove, state, hstate, expected, hexpected, root', hroot', _, hequal,
      rfl, rfl⟩ := hrollback
  obtain ⟨chain, bodies', hfull, rfl, hbodies'⟩ := removeTip_withBodies hbodies hremove
  exact ⟨_, ⟨height, hheight, hash, hhash, tip, hbodies height tip htip, root, hroot, (), hprior,
    journals, hjournals, undone, hundone, _, chain, hfull, state, hstate, expected, hexpected,
      root', hroot', (), hequal, rfl, rfl⟩,
    bodies', rfl, hbodies'⟩

omit [Crypto] in
theorem Evicted.prune (h : Evicted full l) (height : Height) :
    Evicted (full.pruneRollbackJournalsBefore height) (l.pruneRollbackJournalsBefore height) := by
  obtain ⟨bodies, rfl, hbodies⟩ := h
  exact ⟨bodies, rfl, hbodies⟩

omit [Crypto] in
theorem Evicted.retain (h : Evicted full l) {maxBytes maxBlocks : Nat} {chain : Chain}
    (hretain : l.chain.retainRecentBodies maxBytes maxBlocks = .ok chain) :
    Evicted full { l with chain } := by
  obtain ⟨bodies, rfl, hbodies⟩ := h
  simp only [Chain.retainRecentBodies, bind_eq_ok, Prod.exists, return_eq_ok] at hretain
  obtain ⟨_, _, remove, _, rfl⟩ := hretain
  refine ⟨bodies.eraseAll remove, rfl, fun height b hbody => ?_⟩
  rw [get?_eraseAll] at hbody
  split_ifs at hbody
  exact hbodies height b hbody

/-- A ledger of a node is one of a history without some bodies. -/
theorem Trimmed.exists_full (h : Trimmed l blocks) :
    ∃ full trace, History full trace ∧ Evicted full l ∧ blocks = (trace.map Prod.snd).reverse := by
  induction h with
  | new => exact ⟨_, [], .new, .refl _, rfl⟩
  | commit _ hcommit ih =>
    obtain ⟨full, trace, hhistory, hevicted, rfl⟩ := ih
    obtain ⟨full', hfull, hevicted'⟩ := hevicted.commits hcommit
    exact ⟨full', _, hhistory.commit hfull, hevicted', (reverse_cons ..).symm⟩
  | rollback _ hrollback ih =>
    obtain ⟨full, trace, hhistory, hevicted, rfl⟩ := ih
    obtain ⟨full', hfull, hevicted'⟩ := hevicted.rollbackTip hrollback
    refine ⟨full', _, hhistory.rollback hfull, hevicted', ?_⟩
    rw [dropLast_reverse, map_tail]
  | prune _ height ih =>
    obtain ⟨full, trace, hhistory, hevicted, rfl⟩ := ih
    exact ⟨_, trace, hhistory.prune height, hevicted.prune height, rfl⟩
  | retain _ hretain ih =>
    obtain ⟨full, trace, hhistory, hevicted, rfl⟩ := ih
    exact ⟨full, trace, hhistory, hevicted.retain hretain, rfl⟩

theorem archive_blocks (commits : Height → Bool) (l : Ledger) (heights : List Height)
    (db : NodeDatabase) : (archive commits l heights db).2.blocks = db.blocks := by
  induction heights generalizing db with
  | nil => rfl
  | cons height heights ih =>
    rw [archive]
    cases hstep : (canonicalBlock db l height).bind fun b => copyReceipt (commits height) db db l b
      with
    | error e => rfl
    | ok db' =>
      obtain ⟨b, -, hcopy⟩ := bind_eq_ok.mp hstep
      refine (ih db').trans ?_
      rcases copyReceipt_ok hcopy with ⟨-, rfl⟩ | ⟨-, _, _, -, -, rfl⟩ <;> rfl

/-- A ledger stays one of the same chain when it is shared, and only auxiliary rows are written. -/
theorem Trimmed.shared (h : Trimmed l blocks) {commits : Height → Bool} {retainedBlocks : U64}
    {maxBytes maxBlocks : Nat} {db db' : Database}
    (hshared : sharedLedger commits retainedBlocks maxBytes maxBlocks db l = .ok (db', l')) :
    Trimmed l' blocks ∧ blocks ≠ [] ∧
      ∃ tables : NodeDatabase, db' = { db with toNodeDatabase := tables } ∧
      tables.blocks = db.blocks := by
  simp only [sharedLedger, trimBodyCache, bind_eq_ok, Prod.exists, orError_eq_ok, return_eq_ok,
    Prod.mk.injEq] at hshared
  obtain ⟨tables, pruned, hprune, _, ⟨chain, hretain, rfl⟩, rfl, rfl⟩ := hshared
  obtain ⟨tip, first, htip, -, rfl, hpruned⟩ := pruneJournalsWithWindow_ok hprune
  refine ⟨?_, ?_, _, rfl, archive_blocks ..⟩
  · rcases hpruned with rfl | ⟨-, rfl⟩
    · exact h.retain hretain
    · exact (h.prune first).retain hretain
  · rintro rfl
    obtain ⟨full, trace, hhistory, ⟨bodies, rfl, -⟩, hnil⟩ := h.exists_full
    rw [eq_comm, reverse_eq_nil_iff, map_eq_nil_iff] at hnil
    subst hnil
    change full.chain.tipHeight = some tip at htip
    rw [hhistory.backed.chain_eq_empty] at htip
    cases htip

theorem Trimmed.headersOf (h : Trimmed l blocks) : l.chain.HeadersOf blocks := by
  obtain ⟨full, trace, hhistory, ⟨bodies, rfl, -⟩, rfl⟩ := h.exists_full
  have hfull := hhistory.headersOf
  exact ⟨hfull.ruled, hfull.sized, hfull.headers, hfull.tip⟩

/-! ## Streams -/

theorem Backed.block_height (h : Backed l trace) {k : Height} {b : Block}
    (hk : l.chain.blocks.get? k = some b) : b.height = k := by
  induction h with
  | nil hl hempty =>
    rw [Backed.chain_eq_empty (.nil hl hempty)] at hk
    cases hk
  | @cons l p b' rest _ hlinks _ ih =>
    rw [hlinks.chain] at hk
    change (p.chain.blocks.insert b'.height b').get? k = some b at hk
    rw [get?_insert] at hk
    split_ifs at hk with heq
    · rw [← Option.some.inj hk, heq]
    · exact ih hk

end Ledger

variable {b : Block} {block : StoredCanonicalBlock}

theorem storedCanonicalBlock_ok (h : storedCanonicalBlock b = .ok block) :
    b.encode = some block.bytes ∧ block.height = b.height ∧ block.hash = b.hash := by
  simp only [storedCanonicalBlock, bind_eq_ok, okOr_eq_ok, return_eq_ok] at h
  obtain ⟨bytes, hbytes, _, _, rfl⟩ := h
  exact ⟨hbytes, rfl, rfl⟩

theorem decodeCanonicalBlock_encode {bytes : List Byte} (hvalid : b.validateStructure = .ok ())
    (hbytes : b.encode = some bytes) : decodeCanonicalBlock bytes = .ok b := by
  obtain ⟨bytes', hbytes', hdecode⟩ := decodeBlock_canonical.2 b hvalid
  rw [hbytes, Option.some.injEq] at hbytes'
  subst hbytes'
  simp only [decodeBlock, bind_eq_ok, okOr_eq_ok, return_eq_ok] at hdecode
  obtain ⟨_, _, _, hread, _, _, rfl⟩ := hdecode
  rw [decodeCanonicalBlock, hread]
  rfl

/-- Every stored body is that of one of these blocks. -/
def NodeDatabase.BodiesOf (db : NodeDatabase) (S : Set Block) : Prop :=
  ∀ height bytes, db.blocks.get? height = some bytes →
    ∃ b ∈ S, b.validateStructure = .ok () ∧ b.encode = some bytes

namespace Ledger

variable {l : Ledger} {blocks : List Block} {source : NodeDatabase} {S : Set Block} {b' : Block}

/-- A body that is read for a height of the chain is the body the chain has there: resident or
stored, it is one of the blocks in `S`, and its header, so its hash, is the pinned one. -/
theorem Trimmed.canonicalBlock_eq (h : Trimmed l blocks) (hinjective : S.InjOn Block.hash)
    (hblocks : ∀ b ∈ blocks, b ∈ S) (hsource : source.BodiesOf S) (hb : b ∈ blocks)
    (hread : canonicalBlock source l b.height = .ok b') : b' = b := by
  obtain ⟨hheader, hbody⟩ := canonicalBlock_ok hread
  have hmem : b' ∈ S := by
    rcases hbody with hresident | ⟨-, bytes, hstored, hdecode⟩
    · obtain ⟨full, trace, hhistory, ⟨bodies, rfl, hbodies⟩, rfl⟩ := h.exists_full
      apply hblocks
      rw [← hhistory.backed.canonicalBlocks_eq]
      exact mem_map.mpr ⟨_, get?_eq_some_iff.mp (hbodies _ _ hresident), rfl⟩
    · obtain ⟨b₀, hb₀, hvalid, hencode⟩ := hsource _ _ hstored
      have hdecoded := okOr_eq_ok.mp (decodeCanonicalBlock_encode hvalid hencode)
      rw [hdecode, Option.some.injEq] at hdecoded
      exact hdecoded ▸ hb₀
  obtain ⟨i, hi⟩ := mem_iff_getElem?.mp hb
  rw [Chain.header, h.headersOf.headers, h.headersOf.height hi, hi, Option.map_some,
    Option.some.injEq] at hheader
  exact hinjective hmem (hblocks b hb) (congrArg Header.hash hheader.symm)

theorem Trimmed.keys_eq (h : Trimmed l blocks) :
    l.chain.headers.keys = blocks.map Block.height := by
  rw [OrderedMap.keys, h.headersOf.entries, map_map]
  rfl

/-- A stream without a failed entry has the blocks of the chain. -/
theorem Trimmed.blockStream_eq (h : Trimmed l blocks) (hinjective : S.InjOn Block.hash)
    (hblocks : ∀ b ∈ blocks, b ∈ S) (hsource : source.BodiesOf S)
    (hread : ∀ entry ∈ l.blockStream source, ∃ block, entry = .ok block) :
    l.blockStream source = blocks.map storedCanonicalBlock := by
  rw [blockStream, h.keys_eq, map_map] at hread ⊢
  refine map_congr_left fun b hb => ?_
  obtain ⟨block, hblock⟩ := hread _ (mem_map_of_mem hb)
  obtain ⟨b', hb', -⟩ := bind_eq_ok.mp hblock
  have hsame := h.canonicalBlock_eq hinjective hblocks hsource hb hb'
  subst hsame
  change canonicalBlock source l b'.height >>= storedCanonicalBlock = storedCanonicalBlock b'
  rw [hb', ok_bind]

/-- Whatever the source has, a block of the stream has the height at which it comes. -/
theorem Trimmed.blockStream_height (h : Trimmed l blocks) (source : NodeDatabase) {i : Nat}
    (hi : (l.blockStream source)[i]? = some (.ok block)) : block.height.val = i := by
  rw [blockStream, h.keys_eq, map_map, getElem?_map, Option.map_eq_some_iff] at hi
  obtain ⟨b, hb, hblock⟩ := hi
  obtain ⟨b', hread, hstored⟩ := bind_eq_ok.mp hblock
  rw [(storedCanonicalBlock_ok hstored).2.1, ← h.headersOf.height hb]
  obtain ⟨-, hresident | ⟨hheight, -⟩⟩ := canonicalBlock_ok hread
  · obtain ⟨full, trace, hhistory, ⟨bodies, rfl, hbodies⟩, -⟩ := h.exists_full
    rw [hhistory.backed.block_height (hbodies _ _ hresident)]
  · rw [hheight]

end Ledger

end

end Xparq
