import Xparq.Node.ResidentBodies
import Xparq.Lib.HashChain

/-!
# Indexes and the stored chain

The indexes are written with every block and can be rebuilt by a reader from the ledger it holds.
That ledger may be one of an earlier moment. Such a rebuild leaves tables that end with another
block than the stored chain; the next block is appended to them all the same, and if the two chains
have the same height the tables are marked as complete (`exists_stale_indexes`).

As long as no block is appended to tables that end at its height with another parent, tables that
end with the stored tip are the tables of the stored chain (`StoreRun.indexes_derived`).
-/

namespace Xparq

open Machine Outcome OrderedMap List

section
variable [Crypto]

/-! ## Tables of a chain -/

/-- The rows of one more block. -/
def indexBlock (chain : ChainContext) (t : IndexTables) (b : Block) :
    Except NodeError IndexTables := do
  let block ← storedCanonicalBlock b
  t.insertBlock chain block

/-- The tables of a list of blocks. -/
def indexOf (chain : ChainContext) (blocks : List Block) : Except NodeError IndexTables :=
  blocks.foldlM (indexBlock chain) .empty

theorem indexOf_concat (chain : ChainContext) (blocks : List Block) (b : Block) :
    indexOf chain (blocks ++ [b]) = indexOf chain blocks >>= fun t => indexBlock chain t b := by
  rw [indexOf, foldlM_append]
  apply bind_congr
  intro t
  rw [foldlM_cons]
  cases indexBlock chain t b <;> rfl

namespace Database

/-- The tables that the stored bodies give. -/
def derivedIndexes (db : Database) : Except NodeError IndexTables := do
  let genesisBytes ← okOr (db.blocks.get? 0)
    (.message "genesis block missing while indexing coin origin")
  let chain ← genesisContext genesisBytes
  db.blocks.entries.foldlM (fun t e => decodeCanonicalBlock e.2 >>= indexBlock chain t) .empty

/-- Height and hash of the last stored body. -/
def canonicalTip (db : Database) : Option (U64 × Hash) :=
  db.blocks.entries.getLast?.bind fun e => (decodeCanonicalBlock e.2).toOption.map fun b =>
    (e.1, b.hash)

omit [Crypto] in
/-- Height and hash of the block the indexes end with, if they are of the current version. -/
def canonicalIndexTip (db : Database) : Option (U64 × Hash) :=
  if db.metadata.programIndexVersion = some 1 ∧ db.metadata.coinOriginVersion = some 1 then do
    let height ← db.metadata.tipHeight
    let hash ← db.metadata.tipHash
    return (height, hash)
  else none

end Database

/-! ## Interleavings -/

/-- A node: its ledger, the ledgers it shared since it started, the blocks of all its chains, and
its database. The ledgers may lack bodies; which blocks their chains have is kept for the statements
alone. -/
structure NodeStore where
  canonical : Ledger
  past : List Ledger
  seen : List Block
  database : Database

/-- The transactions of a node. The writer appends the block it has committed, or replaces the chain
by that of another ledger, whose missing bodies come from the database or from one that was filled
for it. Undo data and bodies leave the ledger when it is shared. A reader rebuilds the indexes from
a ledger that is or was shared. The first argument restricts the appends. -/
inductive StoreStep (guard : Database → Block → Prop) : NodeStore → NodeStore → Prop
  | append {s : NodeStore} {b : Block} {l : Ledger} {block : StoredCanonicalBlock}
      {mempool : List (List Byte)} {db : Database} (hcommit : Ledger.Commits s.canonical b l)
      (hblock : storedCanonicalBlock b = .ok block) (hguard : guard s.database b)
      (hrun : s.database.appendBlockAndReplaceMempool block mempool = .ok db) :
      StoreStep guard s ⟨l, l :: s.past, b :: s.seen, db⟩
  | replace {s : NodeStore} {l : Ledger} {blocks : List Block} {source : NodeDatabase}
      {mempool : List (List Byte)} {snapshot : Option (U64 × List Byte)} {db : Database}
      (hl : Ledger.Trimmed l blocks)
      (hsource : source = s.database.toNodeDatabase ∨ source.BodiesOf {b | b ∈ blocks})
      (hrun : s.database.replaceBlocksMempoolAndSnapshotStream (l.blockStream source) mempool
        snapshot = .ok db) :
      StoreStep guard s ⟨l, l :: s.past, blocks ++ s.seen, db⟩
  | share {s : NodeStore} {l : Ledger} {commits : Height → Bool} {retainedBlocks : U64}
      {maxBytes maxBlocks : Nat} {db : Database}
      (hrun : Ledger.sharedLedger commits retainedBlocks maxBytes maxBlocks s.database s.canonical =
        .ok (db, l)) :
      StoreStep guard s ⟨l, l :: s.past, s.seen, db⟩
  | rebuild {s : NodeStore} {l : Ledger} {db : Database} (hl : l ∈ s.past)
      (hrun : s.database.rebuildCanonicalIndexesStream (l.blockStream s.database.toNodeDatabase) =
        .ok db) :
      StoreStep guard s { s with database := db }

inductive StoreRun (guard : Database → Block → Prop) : NodeStore → Prop
  | start : StoreRun guard ⟨Ledger.new systemApplications, [], [], .empty⟩
  | step {s s' : NodeStore} (h : StoreRun guard s)
      (hstep : StoreStep guard s s') : StoreRun guard s'

/-- Indexes that end at the height below a block end with its parent. -/
def IndexesFollow (db : Database) (b : Block) : Prop :=
  ∀ height, db.metadata.tipHeight = some height → checkedAdd height 1 = some b.height →
    db.metadata.tipHash = some b.header.previousHash

/-! ## Stored blocks -/

variable {b : Block} {block : StoredCanonicalBlock} {chain : ChainContext} {t t' : IndexTables}

theorem genesisContext_ok {bytes : List Byte} (hvalid : b.validateStructure = .ok ())
    (hbytes : b.encode = some bytes) (h : genesisContext bytes = .ok chain) : chain = ⟨b.hash⟩ := by
  simp only [genesisContext, bind_eq_ok, decodeCanonicalBlock_encode hvalid hbytes, Except.ok.injEq,
    pure_eq_ok] at h
  obtain ⟨_, rfl, _, _, rfl⟩ := h
  rfl

variable {table table' : OrderedMap CoinShare CoinOrigin} {rows : List (CoinShare × CoinOrigin)}

omit [Crypto] in
theorem insertCoinOrigin_ok {row : CoinShare × CoinOrigin}
    (h : insertCoinOrigin table row = .ok table') :
    table.get? row.1 = none ∧ table' = table.insert row.1 row.2 := by
  simp only [insertCoinOrigin, bind_eq_ok, rejectIf_eq_ok, Bool.not_eq_true, contains_eq_false_iff,
    return_eq_ok] at h
  obtain ⟨_, hnone, rfl⟩ := h
  exact ⟨hnone, rfl⟩

omit [Crypto] in
theorem foldlM_insertCoinOrigin (h : rows.foldlM insertCoinOrigin table = .ok table') :
    (∀ k, table'.get? k = none → table.get? k = none) ∧
      ∀ row ∈ rows, table.get? row.1 = none ∧ table'.get? row.1 ≠ none := by
  induction rows generalizing table with
  | nil =>
    cases h
    exact ⟨fun _ => id, nofun⟩
  | cons row rows ih =>
    rw [foldlM_cons, bind_eq_ok] at h
    obtain ⟨next, hrow, hrest⟩ := h
    obtain ⟨hnone, rfl⟩ := insertCoinOrigin_ok hrow
    obtain ⟨hgrow, hrows⟩ := ih hrest
    have hold : ∀ k, (table.insert row.1 row.2).get? k = none → table.get? k = none := by
      intro k hk
      rw [get?_insert] at hk
      split_ifs at hk
      exact hk
    refine ⟨fun k hk => hold k (hgrow k hk), fun r hr => ?_⟩
    rcases mem_cons.mp hr with rfl | hr
    · refine ⟨hnone, fun hk => ?_⟩
      have := hgrow _ hk
      rw [get?_insert_self] at this
      cases this
    · exact ⟨hold _ (hrows r hr).1, (hrows r hr).2⟩

theorem indexBlock_ok (hvalid : b.validateStructure = .ok ()) (h : indexBlock chain t b = .ok t') :
    ∃ rows, blockCoinOrigins b chain = .ok rows ∧ (∀ k, t'.coinOrigins.get? k = none →
      t.coinOrigins.get? k = none) ∧
      ∀ row ∈ rows, t.coinOrigins.get? row.1 = none ∧ t'.coinOrigins.get? row.1 ≠ none := by
  simp only [indexBlock, bind_eq_ok, IndexTables.insertBlock, identifiedBlock, insertCoinOrigins,
    return_eq_ok] at h
  obtain ⟨block, hblock, canonical, ⟨decoded, hdecoded, _, _, rfl⟩, origins, ⟨rows, hrows, hfold⟩,
    rfl⟩ := h
  rw [decodeCanonicalBlock_encode hvalid (storedCanonicalBlock_ok hblock).1, Except.ok.injEq]
    at hdecoded
  subst hdecoded
  exact ⟨rows, hrows, foldlM_insertCoinOrigin hfold⟩

/-- The row of the coin that a block emits; it does not depend on the chain. -/
theorem exists_emissionRow (hheight : b.height ≠ 0) (h : blockCoinOrigins b chain = .ok rows) :
    ∃ origin, emissionOrigin b = .ok origin ∧ ∃ row ∈ rows,
      row.1 = CoinShare.fromEmission origin := by
  have hgenesis : b.isGenesis = false := decide_eq_false hheight
  simp only [blockCoinOrigins, hgenesis, Bool.false_eq_true, if_false, bind_eq_ok, orError_eq_ok,
    return_eq_ok] at h
  obtain ⟨origin, horigin, created, _, rfl⟩ := h
  exact ⟨origin, horigin, _, mem_append_left _ (mem_singleton_self _), rfl⟩

theorem not_mem_of_indexBlock {chain' : ChainContext} {blocks : List Block}
    (hblocks : ∀ b ∈ blocks, b.validateStructure = .ok ()) (hindex : indexOf chain' blocks = .ok t)
    (hvalid : b.validateStructure = .ok ()) (hheight : b.height ≠ 0)
    (h : indexBlock chain t b = .ok t') : b ∉ blocks := by
  obtain ⟨rows, hrows, -, hnew⟩ := indexBlock_ok hvalid h
  obtain ⟨origin, horigin, row, hrow, hkey⟩ := exists_emissionRow hheight hrows
  have hfree : t.coinOrigins.get? (CoinShare.fromEmission origin) = none := hkey ▸ (hnew row hrow).1
  intro hmem
  -- along the fold, the emitted coin is there once the block is
  have hthere : b ∈ blocks → t.coinOrigins.get? (CoinShare.fromEmission origin) ≠ none := by
    refine foldlM_along (fun done (t : IndexTables) => b ∈ done →
      t.coinOrigins.get? (CoinShare.fromEmission origin) ≠ none) ?_ nofun hindex
    intro done a rest s s' hsplit hs hstep hmem
    have ha : a ∈ blocks := by rw [hsplit]; exact mem_append_right _ mem_cons_self
    obtain ⟨rows', hrows', hgrow, hnew'⟩ := indexBlock_ok (hblocks a ha) hstep
    rcases mem_append.mp hmem with hdone | hlast
    · exact fun hnone => hs hdone (hgrow _ hnone)
    · obtain rfl := mem_singleton.mp hlast
      obtain ⟨origin', horigin', row', hrow', hkey'⟩ := exists_emissionRow hheight hrows'
      rw [horigin, Except.ok.injEq] at horigin'
      rw [horigin', ← hkey']
      exact (hnew' row' hrow').2
  exact hthere hmem hfree

/-! ## Rebuilt and replaced tables -/

omit [Crypto] in
theorem foldlM_rebuildTransaction {height : U64} {rows : List (Hash × Nat)}
    {table table' : OrderedMap Hash (List Byte)}
    (h : rows.foldlM (IndexTables.rebuildTransaction height) table = .ok table') :
    table' = rows.foldl (fun table e => table.insert e.1 (encodeTransactionLocation height e.2))
      table := by
  induction rows generalizing table with
  | nil =>
    cases h
    rfl
  | cons row rows ih =>
    simp only [foldlM_cons, bind_eq_ok, IndexTables.rebuildTransaction, return_eq_ok] at h
    obtain ⟨_, ⟨_, _, rfl⟩, hrest⟩ := h
    exact ih hrest

theorem IndexTables.rebuildBlock_ok (h : t.rebuildBlock chain block = .ok t') :
    t.insertBlock chain block = .ok t' := by
  simp only [rebuildBlock, identifiedBlock, bind_eq_ok, rejectIf_eq_ok, return_eq_ok] at h
  obtain ⟨_, ⟨canonical, hdecode, _, hidentity, rfl⟩, origins, horigins, _, _, transactions,
    htransactions, rfl⟩ := h
  simp only [insertBlock, identifiedBlock, bind_eq_ok, rejectIf_eq_ok, return_eq_ok]
  refine ⟨canonical, ⟨canonical, hdecode, (), hidentity, rfl⟩, origins, horigins, ?_⟩
  rw [foldlM_rebuildTransaction htransactions]
  rfl

/-- What is used of the blocks of a ledger. -/
structure ChainBlocks (blocks : List Block) : Prop where
  valid : ∀ b ∈ blocks, b.validateStructure = .ok ()
  height : ∀ (i : Nat) (b : Block), blocks[i]? = some b → b.height.val = i
  linked : HashChain.Linked Block.hash (fun b => b.header.previousHash) blocks

namespace ChainBlocks

variable {blocks blocks' : List Block}

theorem last_height (h : ChainBlocks blocks) {last : Block} (hlast : blocks.getLast? = some last) :
    last.height.val + 1 = blocks.length := by
  rw [getLast?_eq_getElem?] at hlast
  have hval := h.height _ last hlast
  have hlt := (List.getElem?_eq_some_iff.mp hlast).1
  omega

theorem lt_of_split (h : ChainBlocks blocks) {done rest : List Block}
    (hsplit : blocks = done ++ b :: rest) : ∀ b' ∈ done, b'.height < b.height := by
  intro b' hb'
  obtain ⟨i, hi⟩ := mem_iff_getElem?.mp hb'
  have hlt := (List.getElem?_eq_some_iff.mp hi).1
  have hval := h.height i b' (by rw [hsplit, getElem?_append_left hlt]; exact hi)
  have hnext := h.height done.length b (by rw [hsplit]; simp)
  exact Fin.lt_def.mpr (by omega)

theorem take_eq (h : ChainBlocks blocks) (h' : ChainBlocks blocks') {S : Set Block}
    (hinjective : S.InjOn Block.hash) (hS : ∀ b ∈ blocks, b ∈ S) (hS' : ∀ b ∈ blocks', b ∈ S)
    {i j : Nat} {b b' : Block} (hb : blocks[i]? = some b) (hb' : blocks'[j]? = some b')
    (hhash : b.hash = b'.hash) : i = j ∧ blocks.take (i + 1) = blocks'.take (i + 1) := by
  have hroot : ∀ {l m : List Block}, ChainBlocks l → ChainBlocks m → HashChain.RootApart l m := by
    intro l m hl hm a j ha hj
    have hzero := hl.height 0 a ha
    have hlater := hm.height (j + 1) a hj
    omega
  exact h.linked.take_eq hinjective h'.linked hS hS' (hroot h h') (hroot h' h) hb hb' hhash

theorem eq_of_tip (h : ChainBlocks blocks) (h' : ChainBlocks blocks') {S : Set Block}
    (hinjective : S.InjOn Block.hash) (hS : ∀ b ∈ blocks, b ∈ S) (hS' : ∀ b ∈ blocks', b ∈ S)
    {b b' : Block} (hb : blocks.getLast? = some b) (hb' : blocks'.getLast? = some b')
    (hhash : b.hash = b'.hash) : blocks = blocks' := by
  have hlength := h.last_height hb
  have hlength' := h'.last_height hb'
  rw [getLast?_eq_getElem?] at hb hb'
  obtain ⟨hindex, htake⟩ := h.take_eq h' hinjective hS hS' hb hb' hhash
  rw [take_of_length_le (by omega), take_of_length_le (by omega)] at htake
  exact htake

end ChainBlocks

/-- The bodies of these blocks are stored. -/
def Database.Holds (db : Database) (blocks : List Block) : Prop :=
  db.blocks.entries = blocks.map fun b => (b.height, b.encode.getD [])

namespace Database

variable {db db' : Database} {blocks : List Block}

theorem replacement_ok (hblocks : ChainBlocks blocks) {r : Replacement}
    (h : (blocks.map storedCanonicalBlock).foldlM (Replacement.insert chain) Replacement.start =
      .ok r) :
    r.blocks.entries = blocks.map (fun b => (b.height, b.encode.getD [])) ∧
      indexOf chain blocks = .ok r.indexes ∧
      r.tip = blocks.getLast?.map fun b => (b.height, b.hash) := by
  rw [foldlM_map] at h
  refine foldlM_along (fun done (r : Replacement) =>
    r.blocks.entries = done.map (fun b => (b.height, b.encode.getD [])) ∧
      indexOf chain done = .ok r.indexes ∧
      r.tip = done.getLast?.map fun b => (b.height, b.hash)) ?_ ⟨rfl, rfl, rfl⟩ h
  rintro done b rest s s' hsplit ⟨hentries, hindex, -⟩ hstep
  simp only [Replacement.insert, bind_eq_ok, return_eq_ok] at hstep
  obtain ⟨block, hblock, indexes, hindexes, rfl⟩ := hstep
  obtain ⟨hbytes, hheight, hhash⟩ := storedCanonicalBlock_ok hblock
  refine ⟨?_, ?_, ?_⟩
  · rw [hheight, entries_insert_of_lt, hentries, map_append, map_cons, map_nil, hbytes]
    · rfl
    · intro e he
      rw [hentries] at he
      obtain ⟨b', hb', rfl⟩ := mem_map.mp he
      exact hblocks.lt_of_split hsplit b' hb'
  · rw [indexOf_concat, hindex, ok_bind, indexBlock, hblock]
    exact hindexes
  · rw [getLast?_concat, hheight, hhash]
    rfl

theorem rebuilt_ok {r : IndexTables × Option (U64 × Hash)}
    (h : (blocks.map storedCanonicalBlock).foldlM (rebuildStep chain) (.empty, none) = .ok r) :
    indexOf chain blocks = .ok r.1 ∧ r.2 = blocks.getLast?.map fun b => (b.height, b.hash) := by
  rw [foldlM_map] at h
  refine foldlM_along (fun done (r : IndexTables × Option (U64 × Hash)) =>
    indexOf chain done = .ok r.1 ∧ r.2 = done.getLast?.map fun b => (b.height, b.hash)) ?_ ⟨rfl, rfl⟩ h
  rintro done b rest s s' hsplit ⟨hindex, -⟩ hstep
  simp only [rebuildStep, bind_eq_ok, return_eq_ok] at hstep
  obtain ⟨block, hblock, indexes, hindexes, rfl⟩ := hstep
  obtain ⟨-, hheight, hhash⟩ := storedCanonicalBlock_ok hblock
  refine ⟨?_, by rw [getLast?_concat, hheight, hhash]; rfl⟩
  rw [indexOf_concat, hindex, ok_bind, indexBlock, hblock]
  exact IndexTables.rebuildBlock_ok hindexes

end Database

/-! ## The blocks of a ledger -/

theorem Ledger.Trimmed.chainBlocks {l : Ledger} {blocks : List Block} (h : Trimmed l blocks) :
    ChainBlocks blocks := by
  refine ⟨?_, fun i b hb => h.headersOf.height hb,
    fun i a b ha hb => h.headersOf.ruled.parent ha hb⟩
  obtain ⟨full, trace, hhistory, -, rfl⟩ := h.exists_full
  intro b hb
  obtain ⟨e, he, rfl⟩ := mem_map.mp (mem_reverse.mp hb)
  obtain ⟨_, hcommit⟩ := hhistory.commits e he
  exact hcommit.validateStructure

/-! ## What the indexes are -/

/-- The metadata says that the indexes end with the last of these blocks. -/
def Database.EndsWith (db : Database) (indexed : List Block) : Prop :=
  ∃ last, indexed.getLast? = some last ∧ db.metadata.tipHeight = some last.height ∧
    db.metadata.tipHash = some last.hash ∧ db.metadata.coinOriginVersion = some 1

/-- The tables are those of these blocks. -/
def Database.Exact (db : Database) (indexed : List Block) : Prop :=
  ∃ genesis, indexed.head? = some genesis ∧ indexOf ⟨genesis.hash⟩ indexed = .ok db.indexes

/-- The stored chain can no longer end as the indexed one does: it is longer, or it has another
block at a height of both. -/
def Parted (stored indexed : List Block) : Prop :=
  indexed.length < stored.length ∨ ∃ (k : Nat) (b b' : Block), stored[k]? = some b ∧
    indexed[k]? = some b' ∧ b ≠ b'

omit [Crypto] in
theorem Parted.append {stored indexed : List Block} (h : Parted stored indexed) (b : Block) :
    Parted (stored ++ [b]) indexed := by
  rcases h with hlt | ⟨k, x, x', hx, hx', hne⟩
  · exact .inl (by rw [length_append]; omega)
  · exact .inr ⟨k, x, x',
      by rw [getElem?_append_left (List.getElem?_eq_some_iff.mp hx).1]; exact hx, hx', hne⟩

omit [Crypto] in
theorem not_parted_self (blocks : List Block) : ¬ Parted blocks blocks := by
  rintro (hlt | ⟨k, x, x', hx, hx', hne⟩)
  · exact lt_irrefl _ hlt
  · rw [hx, Option.some.injEq] at hx'
    exact hne hx'

/-- The indexes of a node whose chain has these blocks: before the first block there are none; later
they end with some chain of the node, and they are the tables of that chain unless the stored one
has parted from it. -/
def Database.IndexesOf (seen : List Block) (db : Database) (stored : List Block) : Prop :=
  stored = [] ∧ db.indexes = .empty ∨ stored ≠ [] ∧ ∃ indexed, ChainBlocks indexed ∧
    (∀ b ∈ indexed, b ∈ seen) ∧ db.EndsWith indexed ∧ (db.Exact indexed ∨ Parted stored indexed)

namespace Database

variable {db db' : Database} {blocks : List Block} {mempool : List (List Byte)}

theorem Exact.of_index (hblocks : ChainBlocks blocks) {first : StoredCanonicalBlock}
    (hfirst : (blocks.map storedCanonicalBlock).head? = some (.ok first))
    (hchain : genesisContext first.bytes = .ok chain)
    (hindex : indexOf chain blocks = .ok db.indexes) : db.Exact blocks := by
  rw [head?_map, Option.map_eq_some_iff] at hfirst
  obtain ⟨genesis, hgenesis, hstored⟩ := hfirst
  have hvalid := hblocks.valid genesis (mem_of_mem_head? hgenesis)
  rw [genesisContext_ok hvalid (storedCanonicalBlock_ok hstored).1 hchain] at hindex
  exact ⟨genesis, hgenesis, hindex⟩

theorem replace_indexes {stream : BlockStream} {snapshot : Option (U64 × List Byte)}
    (hblocks : ChainBlocks blocks)
    (hstream : (∀ entry ∈ stream, ∃ block, entry = .ok block) →
      stream = blocks.map storedCanonicalBlock)
    (h : db.replaceBlocksMempoolAndSnapshotStream stream mempool snapshot = .ok db') :
    db'.Holds blocks ∧ db'.EndsWith blocks ∧ db'.Exact blocks := by
  simp only [replaceBlocksMempoolAndSnapshotStream, bind_eq_ok, okOr_eq_ok, Prod.exists,
    return_eq_ok] at h
  obtain ⟨_, hfirst, first, rfl, chain, hchain, common, _, r, hr, tipHeight, tipHash, htip,
    _, _, _, rfl⟩ := h
  have hread :=
    forall_of_foldlM (P := fun entry => ∃ block, entry = .ok block) (fun r r' entry hstep => by
    obtain ⟨block, hblock, -⟩ := bind_eq_ok.mp hstep
    exact ⟨block, hblock⟩) hr
  rw [hstream hread] at hfirst hr
  obtain ⟨hentries, hindex, hlast⟩ := replacement_ok hblocks hr
  rw [htip, eq_comm, Option.map_eq_some_iff] at hlast
  obtain ⟨last, hlast, hpair⟩ := hlast
  obtain ⟨rfl, rfl⟩ := Prod.mk.inj hpair
  exact ⟨hentries, ⟨last, hlast, rfl, rfl, rfl⟩, .of_index hblocks hfirst hchain hindex⟩

theorem rebuild_indexes {stream : BlockStream} (hblocks : ChainBlocks blocks)
    (hstream : (∀ entry ∈ stream, ∃ block, entry = .ok block) →
      stream = blocks.map storedCanonicalBlock)
    (h : db.rebuildCanonicalIndexesStream stream = .ok db') :
    db'.blocks = db.blocks ∧ db'.EndsWith blocks ∧ db'.Exact blocks := by
  simp only [rebuildCanonicalIndexesStream, bind_eq_ok, okOr_eq_ok, Prod.exists, return_eq_ok] at h
  obtain ⟨_, hfirst, first, rfl, chain, hchain, indexes, tip, hr, tipHeight, tipHash, htip, rfl⟩ :=
    h
  have hread :=
    forall_of_foldlM (P := fun entry => ∃ block, entry = .ok block) (fun r r' entry hstep => by
    obtain ⟨block, hblock, -⟩ := bind_eq_ok.mp hstep
    exact ⟨block, hblock⟩) hr
  rw [hstream hread] at hfirst hr
  obtain ⟨hindex, hlast⟩ := rebuilt_ok hr
  rw [htip, eq_comm, Option.map_eq_some_iff] at hlast
  obtain ⟨last, hlast, hpair⟩ := hlast
  obtain ⟨rfl, rfl⟩ := Prod.mk.inj hpair
  exact ⟨rfl, ⟨last, hlast, rfl, rfl, rfl⟩, .of_index hblocks hfirst hchain hindex⟩

theorem Holds.encode_of_get? (hholds : db.Holds blocks) (hblocks : ChainBlocks blocks) {k : U64}
    {bytes : List Byte} (hget : db.blocks.get? k = some bytes) :
    ∃ b, blocks[k.val]? = some b ∧ b.encode = some bytes := by
  rw [get?_eq_some_iff, hholds, mem_map] at hget
  obtain ⟨b, hb, heq⟩ := hget
  obtain ⟨rfl, rfl⟩ := Prod.mk.inj heq
  obtain ⟨i, hi⟩ := mem_iff_getElem?.mp hb
  obtain ⟨bytes, hbytes, -⟩ := b.encode_of_validateStructure (hblocks.valid b hb)
  refine ⟨b, ?_, by rw [hbytes]; rfl⟩
  rw [hblocks.height i b hi]
  exact hi

/-- An appended block adds its body and its rows to whatever tables there are. -/
theorem append_indexes (hholds : db.Holds blocks) (hblocks : ChainBlocks (blocks ++ [b]))
    (hstored : storedCanonicalBlock b = .ok block)
    (h : db.appendBlockAndReplaceMempool block mempool = .ok db') :
    db'.Holds (blocks ++ [b]) ∧
      (∃ genesis, (blocks ++ [b]).head? = some genesis ∧
        indexBlock ⟨genesis.hash⟩ db.indexes b = .ok db'.indexes) ∧
      db'.metadata = if db.indexesWereComplete b.height then
          { db.metadata with
            tipHeight := some b.height, tipHash := some b.hash, coinOriginVersion := some 1 }
        else db.metadata := by
  have hrun := h
  simp only [appendBlockAndReplaceMempool, bind_eq_ok, okOr_eq_ok, return_eq_ok] at hrun
  obtain ⟨_, _, genesisBytes, hgenesis, chain, hchain, indexes, hindexes, rfl⟩ := hrun
  obtain ⟨hbytes, hheight, hhash⟩ := storedCanonicalBlock_ok hstored
  have hholds' : Holds { db with blocks := db.blocks.insert block.height block.bytes }
      (blocks ++ [b]) := by
    rw [Holds, hheight, entries_insert_of_lt, hholds, map_append, map_cons, map_nil, hbytes]
    · rfl
    · intro e he
      rw [hholds] at he
      obtain ⟨b', hb', rfl⟩ := mem_map.mp he
      exact hblocks.lt_of_split rfl b' hb'
  obtain ⟨genesis, hfirst, hencode⟩ := hholds'.encode_of_get? hblocks hgenesis
  have hmem := mem_of_getElem? hfirst
  rw [genesisContext_ok (hblocks.valid genesis hmem) hencode hchain] at hindexes
  refine ⟨hholds', ⟨genesis, by rw [head?_eq_getElem?]; exact hfirst, ?_⟩, by rw [hheight, hhash]⟩
  rw [indexBlock, hstored]
  exact hindexes

/-- The check of an append passes only below the height of the block. -/
theorem length_of_complete {indexed : List Block} (hends : db.EndsWith indexed)
    (hindexed : ChainBlocks indexed) (hne : b.height ≠ 0)
    (hcomplete : db.indexesWereComplete b.height = true) :
    indexed.length = b.height.val ∧ ∃ last, indexed.getLast? = some last ∧
      db.metadata.tipHash = some last.hash ∧
      db.metadata.tipHeight = some last.height ∧ checkedAdd last.height 1 = some b.height := by
  obtain ⟨last, hlast, hheight, hhash, -⟩ := hends
  have hlength := hindexed.last_height hlast
  simp only [indexesWereComplete, hheight, Option.bind_some, Bool.or_eq_true, decide_eq_true_eq,
    hne, false_or, Bool.and_eq_true] at hcomplete
  have hval := checkedAdd_eq_some.mp hcomplete.2
  exact ⟨by rw [hval, ← hlength]; rfl, last, hlast, hhash, hheight, hcomplete.2⟩

theorem complete_of_length {indexed : List Block} (hends : db.EndsWith indexed)
    (hindexed : ChainBlocks indexed) (hlength : indexed.length = b.height.val) :
    db.indexesWereComplete b.height = true := by
  obtain ⟨last, hlast, hheight, hhash, hversion⟩ := hends
  have hlast' := hindexed.last_height hlast
  have hadd : checkedAdd last.height 1 = some b.height :=
    checkedAdd_eq_some.mpr (by rw [← hlength, ← hlast']; rfl)
  simp [indexesWereComplete, hheight, hhash, hversion, hadd]

variable {seen seen' stored indexed : List Block}

/-- An append whose block does not continue the indexes leaves them parted from the stored chain. -/
theorem Exact.parted (hexact : db.Exact indexed) (hindexed : ChainBlocks indexed)
    (hchain : ChainBlocks (stored ++ [b])) (hne : stored ≠ [])
    (hlength : indexed.length ≠ stored.length) (hrows : indexBlock chain db.indexes b = .ok t) :
    Parted (stored ++ [b]) indexed := by
  have hheight : b.height.val = stored.length := hchain.height stored.length b (by simp)
  rcases Nat.lt_or_gt_of_ne hlength with hlt | hgt
  · exact .inl (by rw [length_append]; omega)
  · obtain ⟨genesis, -, hindex⟩ := hexact
    refine .inr ⟨stored.length, b, indexed[stored.length], by simp, getElem?_eq_getElem hgt, ?_⟩
    rintro heq
    have hpositive := length_pos_of_ne_nil hne
    refine not_mem_of_indexBlock hindexed.valid hindex (hchain.valid b (by simp)) ?_ hrows ?_
    · rintro hzero
      rw [hzero] at hheight
      have : stored.length = 0 := hheight.symm
      omega
    · rw [heq]
      exact getElem_mem hgt

/-- Where the block marks the tables as complete, they are those of the stored chain by the guard,
and grow with it. Otherwise its rows go into tables of a chain from which the stored one has parted.
-/
theorem IndexesOf.append (hinv : db.IndexesOf seen stored) (hholds : db.Holds stored)
    (hchain : ChainBlocks (stored ++ [b])) (hstored : ChainBlocks stored)
    (hseen : ∀ x ∈ stored ++ [b], x ∈ seen') (hsubset : seen ⊆ seen')
    (hinjective : Set.InjOn Block.hash {b | b ∈ seen'}) (hguard : IndexesFollow db b)
    (hblock : storedCanonicalBlock b = .ok block)
    (hrun : db.appendBlockAndReplaceMempool block mempool = .ok db') :
    db'.IndexesOf seen' (stored ++ [b]) := by
  obtain ⟨-, ⟨genesis, hgenesis, hrows⟩, hmetadata⟩ := append_indexes hholds hchain hblock hrun
  have hheight : b.height.val = stored.length := hchain.height stored.length b (by simp)
  refine .inr ⟨append_ne_nil_of_right_ne_nil _ (cons_ne_nil _ _), ?_⟩
  rcases hinv with ⟨rfl, hempty⟩ | ⟨hne, indexed, hindexed, hmem, hends, hstate⟩
  · -- the first block starts the tables
    have hzero : b.height = 0 := Fin.ext hheight
    have hcomplete : db.indexesWereComplete b.height = true := by simp [indexesWereComplete, hzero]
    rw [if_pos hcomplete] at hmetadata
    rw [nil_append] at hgenesis hchain hseen ⊢
    refine ⟨[b], hchain, hseen, ⟨b, rfl, by rw [hmetadata], by rw [hmetadata], by rw [hmetadata]⟩,
      .inl ⟨genesis, hgenesis, ?_⟩⟩
    rw [hempty] at hrows
    exact (indexOf_concat _ [] b).trans hrows
  · have hpositive := length_pos_of_ne_nil hne
    have hnonzero : b.height ≠ 0 := by
      rintro hzero
      rw [hzero] at hheight
      exact absurd hheight (by change 0 ≠ stored.length; omega)
    by_cases hcomplete : db.indexesWereComplete b.height = true
    · obtain ⟨hlength, last, hlast, hhash, htip, hadd⟩ :=
        length_of_complete hends hindexed hnonzero hcomplete
      have hparent := hguard last.height htip hadd
      rw [hhash, Option.some.injEq] at hparent
      obtain ⟨parent, hparent'⟩ : ∃ parent, stored.getLast? = some parent :=
        ⟨_, getLast?_eq_some_getLast hne⟩
      have hlink : b.header.previousHash = parent.hash := by
        rw [getLast?_eq_getElem?] at hparent'
        refine hchain.linked (stored.length - 1) parent b ?_ ?_
        · rw [getElem?_append_left (by omega)]
          exact hparent'
        · rw [Nat.sub_add_cancel hpositive]
          simp
      have hsame : indexed = stored :=
        hindexed.eq_of_tip hstored hinjective (fun x hx => hsubset (hmem x hx))
        (fun x hx => hseen x (mem_append_left _ hx)) hlast hparent' (hparent.trans hlink)
      subst hsame
      rw [if_pos hcomplete] at hmetadata
      refine ⟨indexed ++ [b], hchain, hseen,
        ⟨b, getLast?_concat, by rw [hmetadata], by rw [hmetadata], by rw [hmetadata]⟩, .inl ?_⟩
      rcases hstate with ⟨genesis', hgenesis', hindex⟩ | hparted
      · rw [head?_append, hgenesis', Option.some_or, Option.some.injEq] at hgenesis
        subst hgenesis
        refine ⟨genesis', by rw [head?_append, hgenesis']; rfl, ?_⟩
        rw [indexOf_concat, hindex, ok_bind]
        exact hrows
      · exact absurd hparted (not_parted_self indexed)
    · rw [if_neg hcomplete] at hmetadata
      refine ⟨indexed, hindexed, fun x hx => hsubset (hmem x hx), ?_, .inr ?_⟩
      · obtain ⟨last, hlast, hends⟩ := hends
        exact ⟨last, hlast, by rw [hmetadata]; exact hends⟩
      · rcases hstate with hexact | hparted
        · refine hexact.parted hindexed hchain hne ?_ hrows
          intro hlength
          exact hcomplete (complete_of_length hends hindexed (hlength.trans hheight.symm))
        · exact hparted.append b

end Database

/-! ## Runs -/

/-- The stored bodies are those of seen blocks, so a reader that lacks a body can only find the
right one. -/
theorem Database.Holds.bodiesOf {db : Database} {stored seen : List Block} (h : db.Holds stored)
    (hstored : ChainBlocks stored) (hseen : ∀ b ∈ stored, b ∈ seen) :
    db.BodiesOf {b | b ∈ seen} := by
  intro height bytes hbytes
  obtain ⟨b, hb, hencode⟩ := h.encode_of_get? hstored hbytes
  have hmem := mem_of_getElem? hb
  exact ⟨b, hseen b hmem, hstored.valid b hmem, hencode⟩

/-- What a run keeps, for the blocks of the stored chain. Every shared ledger is one of a chain of
seen blocks. -/
structure NodeStore.Good (s : NodeStore) (stored : List Block) : Prop where
  canonical : Ledger.Trimmed s.canonical stored
  past : ∀ l ∈ s.past, ∃ blocks, Ledger.Trimmed l blocks ∧ ∀ b ∈ blocks, b ∈ s.seen
  started : s.past ≠ [] → stored ≠ []
  current : ∀ b ∈ stored, b ∈ s.seen
  holds : s.database.Holds stored
  indexes : s.database.IndexesOf s.seen stored

theorem StoreStep.seen_subset {guard : Database → Block → Prop} {s s' : NodeStore}
    (h : StoreStep guard s s') : s.seen ⊆ s'.seen := by
  cases h with
  | append _ _ _ _ => exact subset_cons_self _ _
  | replace _ _ _ => exact subset_append_right _ _
  | share _ => exact List.Subset.refl _
  | rebuild _ _ => exact List.Subset.refl _

variable {s s' : NodeStore} {l : Ledger} {stored blocks seen seen' : List Block}

/-- A ledger that is shared next, and those before it. -/
theorem NodeStore.Good.past_cons (h : s.Good stored) (hl : Ledger.Trimmed l blocks)
    (hblocks : ∀ b ∈ blocks, b ∈ seen') (hsubset : s.seen ⊆ seen') :
    ∀ l' ∈ l :: s.past, ∃ blocks, Ledger.Trimmed l' blocks ∧ ∀ b ∈ blocks, b ∈ seen' := by
  intro l' hl'
  rcases mem_cons.mp hl' with rfl | hl'
  · exact ⟨blocks, hl, hblocks⟩
  · obtain ⟨blocks', htrimmed, hmem⟩ := h.past l' hl'
    exact ⟨blocks', htrimmed, fun b hb => hsubset (hmem b hb)⟩

/-- One case for each transaction. A replacement and a rebuild write the tables of a whole chain,
whose missing bodies the database has; an append carries on tables of whatever chain. -/
theorem NodeStore.Good.step (h : s.Good stored) (hstep : StoreStep IndexesFollow s s')
    (hinjective : Set.InjOn Block.hash {b | b ∈ s'.seen}) : ∃ stored', s'.Good stored' := by
  have hsubset := hstep.seen_subset
  have hbodies : s.database.BodiesOf {b | b ∈ s'.seen} :=
    h.holds.bodiesOf h.canonical.chainBlocks fun b hb => hsubset (h.current b hb)
  cases hstep with
  | @append b l block mempool db hcommit hblock hguard hrun =>
    have hl := h.canonical.commit hcommit
    have hmem : ∀ x ∈ stored ++ [b], x ∈ b :: s.seen := by
      intro x hx
      rcases mem_append.mp hx with hx | hx
      · exact mem_cons_of_mem _ (h.current x hx)
      · rw [mem_singleton.mp hx]
        exact mem_cons_self
    exact ⟨stored ++ [b], hl, h.past_cons hl hmem hsubset,
      fun _ => append_ne_nil_of_right_ne_nil _ (cons_ne_nil _ _), hmem,
      (Database.append_indexes h.holds hl.chainBlocks hblock hrun).1,
      h.indexes.append h.holds hl.chainBlocks h.canonical.chainBlocks hmem hsubset hinjective
        hguard hblock hrun⟩
  | @replace l blocks source mempool snapshot db hl hsource hrun =>
    have hmem : ∀ x ∈ blocks, x ∈ blocks ++ s.seen := fun x hx => mem_append_left _ hx
    have hsource : source.BodiesOf {b | b ∈ blocks ++ s.seen} := by
      rcases hsource with rfl | hsource
      · exact hbodies
      · intro height bytes hbytes
        obtain ⟨b, hb, hbody⟩ := hsource height bytes hbytes
        exact ⟨b, hmem b hb, hbody⟩
    obtain ⟨hholds, hends, hexact⟩ := Database.replace_indexes hl.chainBlocks
      (hl.blockStream_eq hinjective hmem hsource) hrun
    have hne : blocks ≠ [] := by
      obtain ⟨last, hlast, -⟩ := hends
      rintro rfl
      cases hlast
    exact ⟨blocks, hl, h.past_cons hl hmem hsubset, fun _ => hne, hmem, hholds,
      .inr ⟨hne, blocks, hl.chainBlocks, hmem, hends, .inl hexact⟩⟩
  | @share l commits retainedBlocks maxBytes maxBlocks db hrun =>
    obtain ⟨hl, hne, tables, rfl, hblocks⟩ := h.canonical.shared hrun
    refine ⟨stored, hl, h.past_cons hl h.current hsubset, fun _ => hne, h.current, ?_, h.indexes⟩
    rw [Database.Holds, hblocks]
    exact h.holds
  | @rebuild l db hl hrun =>
    obtain ⟨blocks, htrimmed, hmem⟩ := h.past l hl
    obtain ⟨hbodies', hends, hexact⟩ := Database.rebuild_indexes htrimmed.chainBlocks
      (htrimmed.blockStream_eq hinjective hmem hbodies) hrun
    have hne := h.started (ne_nil_of_mem hl)
    refine ⟨stored, h.canonical, h.past, h.started, h.current, ?_,
      .inr ⟨hne, blocks, htrimmed.chainBlocks, hmem, hends, .inl hexact⟩⟩
    rw [Database.Holds, hbodies']
    exact h.holds

theorem StoreRun.good (h : StoreRun IndexesFollow s)
    (hinjective : Set.InjOn Block.hash {b | b ∈ s.seen}) : ∃ stored, s.Good stored := by
  induction h with
  | start => exact ⟨[], .new, nofun, fun hne => absurd rfl hne, nofun, rfl, .inl ⟨rfl, rfl⟩⟩
  | step _ hstep ih =>
    obtain ⟨stored, hgood⟩ := ih (hinjective.mono fun _ hb => hstep.seen_subset hb)
    exact hgood.step hstep hinjective

namespace Database

variable {db : Database} {stored indexed : List Block}

theorem Holds.canonicalTip (hholds : db.Holds stored) (hstored : ChainBlocks stored) {last : Block}
    (hlast : stored.getLast? = some last) : db.canonicalTip = some (last.height, last.hash) := by
  have hvalid := hstored.valid last (mem_of_getLast? hlast)
  obtain ⟨bytes, hbytes, -⟩ := last.encode_of_validateStructure hvalid
  rw [Database.canonicalTip, hholds, getLast?_map, hlast, Option.map_some, Option.bind_some, hbytes,
    Option.getD_some, decodeCanonicalBlock_encode hvalid hbytes]
  rfl

theorem Exact.derivedIndexes (hexact : db.Exact stored) (hholds : db.Holds stored)
    (hstored : ChainBlocks stored) : db.derivedIndexes = .ok db.indexes := by
  obtain ⟨genesis, hgenesis, hindex⟩ := hexact
  have hdecode : ∀ b ∈ stored, decodeCanonicalBlock (b.encode.getD []) = .ok b := by
    intro b hb
    obtain ⟨bytes, hbytes, -⟩ := b.encode_of_validateStructure (hstored.valid b hb)
    rw [hbytes, Option.getD_some]
    exact decodeCanonicalBlock_encode (hstored.valid b hb) hbytes
  have hmem := mem_of_mem_head? hgenesis
  have hzero : genesis.height = 0 := by
    rw [head?_eq_getElem?] at hgenesis
    exact Fin.ext (hstored.height 0 genesis hgenesis)
  have hget : db.blocks.get? 0 = some (genesis.encode.getD []) := by
    rw [get?_eq_some_iff, hholds, ← hzero]
    exact mem_map_of_mem hmem
  have hcontext : genesisContext (genesis.encode.getD []) = .ok ⟨genesis.hash⟩ := by
    rw [genesisContext, hdecode genesis hmem, ok_bind, rejectIf,
      if_neg (by simp [Block.isGenesis, hzero])]
    rfl
  rw [Database.derivedIndexes, hget, okOr, ok_bind, hcontext, ok_bind, hholds, foldlM_map,
    ← hindex, indexOf]
  refine foldlM_congr (fun b hb t => ?_) _
  rw [hdecode b hb, ok_bind]

end Database

/-- Over every interleaving of appends, replacements, rebuilds and evictions, in which no block is
appended to indexes that end at the height of its parent with another block: indexes that end with
the stored tip are the tables that the stored bodies give. A run keeps `IndexesOf`: tables that are
not those of a chain belong to one from which the stored chain has parted, and a chain has not
parted from one with the same tip. -/
theorem StoreRun.indexes_derived {s : NodeStore} (h : StoreRun IndexesFollow s)
    (hinjective : Set.InjOn Block.hash {b | b ∈ s.seen}) {tip : U64 × Hash}
    (hindex : s.database.canonicalIndexTip = some tip) (htip : s.database.canonicalTip = some tip) :
    s.database.derivedIndexes = .ok s.database.indexes := by
  obtain ⟨stored, hcanonical, _, _, hcurrent, hholds, hindexes⟩ := h.good hinjective
  have hstored := hcanonical.chainBlocks
  rcases hindexes with ⟨rfl, _⟩ | ⟨hne, indexed, hindexed, hmem, ⟨last, hlast, hheight, hhash, _⟩,
    hstate⟩
  · rw [Database.canonicalTip, hholds] at htip
    cases htip
  · obtain ⟨last', hlast'⟩ : ∃ b, stored.getLast? = some b := ⟨_, getLast?_eq_some_getLast hne⟩
    rw [hholds.canonicalTip hstored hlast', Option.some.injEq] at htip
    subst htip
    have hsame : last.hash = last'.hash := by
      rw [Database.canonicalIndexTip] at hindex
      split_ifs at hindex
      rw [hheight, hhash] at hindex
      exact (Prod.mk.inj (Option.some.inj hindex)).2
    have hequal := hindexed.eq_of_tip hstored hinjective hmem hcurrent hlast hlast' hsame
    subst hequal
    rcases hstate with hexact | hparted
    · exact hexact.derivedIndexes hholds hstored
    · exact absurd hparted (not_parted_self _)

end

section Sample

attribute [local instance] Crypto.checksum

/-- Whether equal hashes are hashes of equal blocks, among these. -/
def distinguishes (blocks : List Block) : Bool :=
  blocks.all fun b => blocks.all fun b' => decide (b.hash = b'.hash → b = b')

theorem injOn_of_distinguishes {blocks : List Block} (h : distinguishes blocks = true) :
    Set.InjOn Block.hash {b | b ∈ blocks} := by
  intro b hb b' hb' hhash
  rw [distinguishes, all_eq_true] at h
  have hall := h b hb
  rw [all_eq_true] at hall
  exact of_decide_eq_true (hall b' hb') hhash

/-- A block is appended to indexes that end with its parent. -/
def appendFollowing (db : Database) (b : Block) : Except NodeError Database := do
  rejectIf (db.metadata.tipHeight ≠ none ∧ db.metadata.tipHash ≠ some b.header.previousHash)
    (.message "another parent")
  let block ← storedCanonicalBlock b
  db.appendBlockAndReplaceMempool block []

theorem StoreRun.appendFollowing {s : NodeStore} {b : Block} {l : Ledger} {db : Database}
    (h : StoreRun IndexesFollow s) (hcommit : Ledger.Commits s.canonical b l)
    (hrun : Xparq.appendFollowing s.database b = .ok db) :
    StoreRun IndexesFollow ⟨l, l :: s.past, b :: s.seen, db⟩ := by
  simp only [Xparq.appendFollowing, bind_eq_ok, rejectIf_eq_ok] at hrun
  obtain ⟨_, hparent, block, hblock, hrun⟩ := hrun
  refine .step h (.append hcommit hblock (fun height hheight _ => ?_) hrun)
  by_contra hhash
  exact hparent ⟨by rw [hheight]; exact Option.some_ne_none _, hhash⟩

/-- Three blocks are stored. The middle body leaves memory, and a reader without it rebuilds the
indexes. A branch from the first block, whose body is in the database alone, replaces the chain and
goes on. -/
def followedStore : Except NodeError NodeStore := do
  let l ← Ledger.sampleStart.mapError .ledger
  let (first, one) ← l.mine 7 []
  let (second, two) ← one.mine 7 []
  let db ← appendFollowing .empty Ledger.sampleGenesis
  let db ← appendFollowing db first
  let db ← appendFollowing db second
  let (db, reader) ← Ledger.sharedLedger (fun _ => true) 2 0 0 db two
  rejectIf (reader.chain.block 1 ≠ none) (.message "resident body")
  let db ← db.rebuildCanonicalIndexesStream (reader.blockStream db.toNodeDatabase)
  let (other, branch) ← one.mine 8 []
  let (tip, branch) ← branch.mine 8 []
  let branch ← branch.trimBodyCache 1000000 2
  rejectIf (branch.chain.block 1 ≠ none) (.message "resident body")
  let db ← db.replaceBlocksMempoolAndSnapshotStream (branch.blockStream db.toNodeDatabase) [] none
  let (next, final) ← branch.mine 8 []
  let db ← appendFollowing db next
  return ⟨final, [final, branch, reader, two, one, l],
    [next, Ledger.sampleGenesis, first, other, tip, second, first, Ledger.sampleGenesis], db⟩

theorem followedStore_derived : ∃ s tip, followedStore = .ok s ∧ StoreRun IndexesFollow s ∧
    Set.InjOn Block.hash {b | b ∈ s.seen} ∧ s.database.canonicalIndexTip = some tip ∧
    s.database.canonicalTip = some tip ∧ s.database.derivedIndexes = .ok s.database.indexes := by
  have hok : (followedStore.toOption.any fun s => distinguishes s.seen &&
      s.database.canonicalTip.isSome &&
      decide (s.database.canonicalIndexTip = s.database.canonicalTip)) = true := by decide +kernel
  obtain ⟨s, hs, hok⟩ := exists_of_any hok
  simp only [Bool.and_eq_true, decide_eq_true_eq, Option.isSome_iff_exists] at hok
  obtain ⟨⟨hdistinct, tip, htip⟩, hindex⟩ := hok
  have hrun := hs
  simp only [followedStore, Ledger.trimBodyCache, bind_eq_ok, Prod.exists, mapError_eq_ok,
    orError_eq_ok, return_eq_ok] at hrun
  obtain ⟨l, hl, first, one, hfirst, second, two, hsecond, db₁, hdb₁, db₂, hdb₂, db₃, hdb₃, db₄,
    reader, hreader, _, _, db₅, hdb₅, other, branch, hother, top, branch', htop, _,
      ⟨chain, hretain, rfl⟩, _, _, db₆, hdb₆, next, final,
    hnext, db₇, hdb₇, rfl⟩ := hrun
  have hone := Ledger.commits_of_mine hfirst
  have hrun₃ :=
    ((StoreRun.start.appendFollowing (.inl ⟨_, hl⟩) hdb₁).appendFollowing hone hdb₂).appendFollowing
    (Ledger.commits_of_mine hsecond) hdb₃
  have hrun₅ := (hrun₃.step (.share hreader)).step (.rebuild mem_cons_self hdb₅)
  have hbranch :=
    (((Ledger.Trimmed.new.commit (.inl ⟨_, hl⟩)).commit hone).commit
      (Ledger.commits_of_mine hother)).commit
    (Ledger.commits_of_mine htop)
  have hrun₇ := (hrun₅.step (.replace (hbranch.retain hretain) (.inl rfl) hdb₆)).appendFollowing
    (Ledger.commits_of_mine hnext) hdb₇
  exact ⟨_, tip, hs, hrun₇, injOn_of_distinguishes hdistinct, hindex.trans htip, htip,
    hrun₇.indexes_derived (injOn_of_distinguishes hdistinct) (hindex.trans htip) htip⟩

/-- Two branches of one block each. The first is stored, the second replaces it, a reader that still
holds the first rebuilds the indexes, and the second goes on. -/
def staleStore : Except NodeError NodeStore := do
  let l ← Ledger.sampleStart.mapError .ledger
  let (first, one) ← l.mine 7 []
  let (rival, other) ← l.mine 8 []
  let (next, two) ← other.mine 8 []
  let genesis ← storedCanonicalBlock Ledger.sampleGenesis
  let db ← Database.empty.appendBlockAndReplaceMempool genesis []
  let block ← storedCanonicalBlock first
  let db ← db.appendBlockAndReplaceMempool block []
  let db ← db.replaceBlocksMempoolAndSnapshotStream (other.blockStream db.toNodeDatabase) [] none
  let db ← db.rebuildCanonicalIndexesStream (one.blockStream db.toNodeDatabase)
  let block ← storedCanonicalBlock next
  let db ← db.appendBlockAndReplaceMempool block []
  return ⟨two, [two, other, one, l], [next, Ledger.sampleGenesis, rival, first,
    Ledger.sampleGenesis], db⟩

/-- Without the restriction on appends the indexes can end with the stored tip and be the tables of
another chain. -/
theorem exists_stale_indexes : ∃ s tip, staleStore = .ok s ∧ StoreRun (fun _ _ => True) s ∧
    Set.InjOn Block.hash {b | b ∈ s.seen} ∧ s.database.canonicalIndexTip = some tip ∧
    s.database.canonicalTip = some tip ∧ s.database.derivedIndexes ≠ .ok s.database.indexes := by
  have hok : (staleStore.toOption.any fun s => distinguishes s.seen &&
      s.database.canonicalTip.isSome &&
      decide (s.database.canonicalIndexTip = s.database.canonicalTip) &&
      decide (s.database.derivedIndexes.toOption ≠ some s.database.indexes)) = true := by
        decide +kernel
  obtain ⟨s, hs, hok⟩ := exists_of_any hok
  simp only [Bool.and_eq_true, decide_eq_true_eq, Option.isSome_iff_exists] at hok
  obtain ⟨⟨⟨hdistinct, tip, htip⟩, hindex⟩, hdiffer⟩ := hok
  have hrun := hs
  simp only [staleStore, bind_eq_ok, Prod.exists, mapError_eq_ok, pure_eq_ok, Except.ok.injEq]
    at hrun
  obtain ⟨l, hl, first, one, hone, b, other, hother, next, two, htwo, genesis, hgenesis, db₁,
    hdb₁, block, hblock, db₂, hdb₂, db₃, hdb₃, db₄, hdb₄, block', hblock', db₅, hdb₅, rfl⟩ := hrun
  have hbranch := (Ledger.Trimmed.new.commit (.inl ⟨_, hl⟩)).commit (Ledger.commits_of_mine hother)
  have hrun₂ : StoreRun (fun _ _ => True) _ :=
    (StoreRun.start.step (.append (.inl ⟨_, hl⟩) hgenesis trivial hdb₁)).step
    (.append (Ledger.commits_of_mine hone) hblock trivial hdb₂)
  have hrun₄ := (hrun₂.step (.replace hbranch (.inl rfl) hdb₃)).step
    (.rebuild (mem_cons_of_mem _ mem_cons_self) hdb₄)
  have hrun₅ := hrun₄.step (.append (Ledger.commits_of_mine htwo) hblock' trivial hdb₅)
  refine ⟨_, tip, hs, hrun₅, injOn_of_distinguishes hdistinct, hindex.trans htip, htip, ?_⟩
  intro hderived
  rw [hderived] at hdiffer
  exact hdiffer rfl

end Sample

end Xparq
