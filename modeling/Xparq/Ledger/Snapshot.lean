import Xparq.Ledger.StateCodec

/-!
# Snapshots

A snapshot is what cannot be rebuilt from the blocks: the state and the rollback journals.
`Ledger.fromSnapshot` puts a ledger together from a snapshot and the canonical blocks, and audits
the result. Writing a snapshot, reading it back and restoring it leads to the same ledger, from
every reachable ledger whose tip can be rolled back (`Reachable.restore_snapshot`).
-/

namespace Xparq

open Machine Outcome OrderedMap Reader LedgerState List

structure LedgerSnapshot where
  state : LedgerState
  journals : OrderedMap Height (List StateRollbackJournal)

/-! ## Bytes of the journals -/

def CoinRollbackJournal.encode (j : CoinRollbackJournal) : Option (List Byte) := do
  let consumed ← encodeVec (fun e => some (e.1.bytes ++ e.2.encode)) j.consumedCoins
  let created ← encodeVec (fun id => some id.bytes) j.createdCoinIds
  return consumed ++ created ++ leBytes 8 j.mined.val ++ leBytes 8 j.burned.val

/-- A storage key with the value to put back. -/
def encodeStored (e : ProgramId × List Byte × Option (List Byte)) : Option (List Byte) := do
  let key ← encodeBytes e.2.1
  let value ← encodeOption encodeBytes e.2.2
  return e.1.bytes ++ key ++ value

def ProgramJournal.encode : ProgramJournal → Option (List Byte)
  | .deploy programId => some (0 :: programId.bytes)
  | .state programId previous => some (1 :: (programId.bytes ++ previous.encode))
  | .calls states storage => do
      let states ← encodeVec (fun e => some (e.1.bytes ++ e.2.encode)) states
      let storage ← encodeVec encodeStored storage
      return 2 :: (states ++ storage)

def AssetJournal.encode (j : AssetJournal) : Option (List Byte) := do
  let records ← encodeVec (fun e => (encodeOption AssetRecord.encode e.2).map (e.1.bytes ++ ·))
    j.records.entries
  let shares ← encodeVec
    (fun e => (encodeOption (fun s => some (AssetShare.encode s)) e.2).map (e.1.bytes ++ ·))
      j.shares.entries
  return records ++ shares

def StateRollbackJournal.encode (j : StateRollbackJournal) : Option (List Byte) := do
  let coin ← encodeOption CoinRollbackJournal.encode j.coin
  let program ← encodeOption ProgramJournal.encode j.program
  let extension ← encodeOption AssetJournal.encode j.extension
  return coin ++ program ++ extension

def LedgerSnapshot.encode (s : LedgerSnapshot) : Option (List Byte) := do
  let state ← s.state.encode
  let journals ← encodeVec (fun e => (encodeVec StateRollbackJournal.encode e.2).map
    (leBytes 8 e.1.val ++ ·))
    s.journals.entries
  return state ++ journals

/-! ## Reading the journals -/

def readCoinRollbackJournal : Reader Byte CoinRollbackJournal := do
  let consumedCoins ← readVec (readEntry readCoinUtxo)
  let createdCoinIds ← readVec Hash.decode
  let mined ← readU64
  let burned ← readU64
  return ⟨consumedCoins, createdCoinIds, mined, burned⟩

/-- One storage key with the value to put back, after the ones before. -/
def readStored (storage : List (ProgramId × List Byte × Option (List Byte))) :
    Reader Byte (List (ProgramId × List Byte × Option (List Byte))) := do
  let id ← Hash.decode
  let key ← readNonempty maxKeyBytes
  require (∀ last ∈ storage.getLast?, toLex (last.1, last.2.1) < toLex (id, key))
  let value ← readOption (readNonempty maxDataBytes)
  return storage ++ [(id, key, value)]

def readCalls : Reader Byte ProgramJournal := do
  let states ← deserializeBoundedVec (readEntry readI64) maxCalls
  require (states.IsChain fun a b => a.1 < b.1)
  let count ← readLe 4
  require (count ≤ maxActions)
  let storage ← loop readStored count []
  return .calls states storage

def readProgramJournal : Reader Byte ProgramJournal := do
  let tag ← readU8
  if tag = 0 then
    let programId ← Hash.decode
    return .deploy programId
  else if tag = 1 then
    let programId ← Hash.decode
    let previous ← readI64
    return .state programId previous
  else if tag = 2 then readCalls
  else failure

/-- The source keeps the vectors as they stand; the logs here are sorted, as the vectors are that
it writes. -/
def readAssetJournal : Reader Byte AssetJournal := do
  let records ← readMap (readEntry (readOption readAssetRecord))
  let shares ← readMap (readEntry (readOption readAssetShare))
  return ⟨records, shares⟩

def readStateRollbackJournal : Reader Byte StateRollbackJournal := do
  let coin ← readOption readCoinRollbackJournal
  let program ← readOption readProgramJournal
  let extension ← readOption readAssetJournal
  return ⟨coin, program, extension⟩

/-- The journals of one height. -/
def readHeightJournals : Reader Byte (Height × List StateRollbackJournal) := do
  let height ← readU64
  let journals ← readVec readStateRollbackJournal
  return (height, journals)

theorem readCoinRollbackJournal_accepts :
    Accepts readCoinRollbackJournal (fun j code => j.encode = some code) := by
  rintro ⟨consumedCoins, createdCoinIds, mined, burned⟩ _ rest hcode
  simp only [CoinRollbackJournal.encode, bind_eq_some, return_eq_some] at hcode
  obtain ⟨consumed, hconsumed, created, hcreated, rfl⟩ := hcode
  have hentry : Accepts (readEntry readCoinUtxo) (fun e code => some (e.1.bytes ++ e.2.encode) =
      some code) :=
    (readEntry_accepts readCoinUtxo_accepts).imp fun e code h => ⟨_, rfl, (Option.some.inj h).symm⟩
  have hid : Accepts Hash.decode (fun id code => some id.bytes = some code) :=
    Hash.decode_reads.accepts.imp fun id code h => (Option.some.inj h).symm
  simp only [readCoinRollbackJournal, append_assoc]
  rw [(readVec_accepts hentry).run_bind (counted_of_encodeVec hconsumed),
    (readVec_accepts hid).run_bind (counted_of_encodeVec hcreated),
      readU64_reads.accepts.run_bind rfl,
    readU64_reads.accepts.run_bind rfl]
  rfl

theorem readStored_accepts {done : List (ProgramId × List Byte × Option (List Byte))}
    {e : ProgramId × List Byte × Option (List Byte)} {code : List Byte}
    (hcode : encodeStored e = some code) (hkey : checkKey e.2.1 = .ok ())
    (hvalue : ∀ v ∈ e.2.2, ValidValue v)
    (hlast : ∀ last ∈ done.getLast?, toLex (last.1, last.2.1) < toLex (e.1, e.2.1))
    (rest : List Byte) : readStored done (code ++ rest) = some (done ++ [e], rest) := by
  obtain ⟨id, key, value⟩ := e
  simp only [encodeStored, bind_eq_some, return_eq_some] at hcode
  obtain ⟨keyCode, hkeyCode, valueCode, hvalueCode, rfl⟩ := hcode
  rw [checkKey_eq_ok] at hkey
  simp only [readStored, append_assoc]
  rw [Hash.decode_reads.accepts.run_bind rfl,
    (readNonempty_reads _).accepts.run_bind ⟨hkeyCode, hkey⟩, run_require hlast,
      (readOption_accepts (readNonempty_reads _).accepts).run_bind
      (optionCode_of_encodeOption hvalueCode hvalue)]
  rfl

theorem readCalls_accepts {states : List (ProgramId × I64)}
    {storage : List (ProgramId × List Byte × Option (List Byte))}
    {statesCode storageCode : List Byte} (hbounded : (ProgramJournal.calls states storage).Bounded)
    (hstates : encodeVec (fun e => some (e.1.bytes ++ e.2.encode)) states = some statesCode)
    (hstorage : encodeVec encodeStored storage = some storageCode) (rest : List Byte) :
    readCalls (statesCode ++ (storageCode ++ rest)) = some (.calls states storage, rest) := by
  obtain ⟨hcalls, hsorted, hactions, hsorted', hentries⟩ := hbounded
  have hentry : Accepts (readEntry readI64) (fun e code => some (e.1.bytes ++ e.2.encode) =
      some code) :=
    (readEntry_accepts readI64_accepts).imp fun e code h => ⟨_, rfl, (Option.some.inj h).symm⟩
  have hchain : states.IsChain fun a b => a.1 < b.1 := hsorted.isChain
  obtain ⟨count, items, hcount, hitems, rfl⟩ := counted_of_encodeVec hstorage
  have hloop : loop readStored storage.length [] (items ++ rest) = some (storage, rest) := by
    refine Accepts.loop id hitems ?_ rest
    intro done e todo hsplit first rest hfirst
    have hmem : e ∈ storage := by rw [hsplit]; simp
    obtain ⟨hkey, hvalue⟩ := hentries e hmem
    refine readStored_accepts hfirst hkey hvalue ?_ rest
    intro last hlast
    rw [hsplit] at hsorted'
    exact (pairwise_append.mp hsorted').2.2 last (mem_of_getLast? hlast) e mem_cons_self
  rw [readCalls, (deserializeBoundedVec_accepts hentry maxCalls).run_bind
    ⟨counted_of_encodeVec hstates, hcalls⟩, run_require hchain, append_assoc,
    readLe_accepts_encodeLen.run_bind hcount, run_require hactions]
  change (loop readStored storage.length [] (items ++ rest)).bind _ = _
  rw [hloop]
  rfl

theorem readProgramJournal_accepts :
    Accepts readProgramJournal (fun j code => j.encode = some code ∧ j.Bounded) := by
  rintro j _ rest ⟨hcode, hbounded⟩
  have hhash : Accepts Hash.decode (fun h code => code = h.bytes) := Hash.decode_reads.accepts
  have htag : Accepts readU8 (fun b code => code = [b]) := readU8_reads.accepts
  cases j with
  | deploy programId =>
    obtain rfl := Option.some.inj hcode
    rw [readProgramJournal, cons_append, ← singleton_append, htag.run_bind rfl, if_pos rfl,
      hhash.run_bind rfl]
    rfl
  | state programId previous =>
    obtain rfl := Option.some.inj hcode
    rw [readProgramJournal, cons_append, ← singleton_append, htag.run_bind rfl,
      if_neg (by decide), if_pos rfl, append_assoc, hhash.run_bind rfl,
        readI64_accepts.run_bind rfl]
    rfl
  | calls states storage =>
    simp only [ProgramJournal.encode, bind_eq_some, return_eq_some] at hcode
    obtain ⟨statesCode, hstates, storageCode, hstorage, rfl⟩ := hcode
    rw [readProgramJournal, cons_append, ← singleton_append, htag.run_bind rfl,
      if_neg (by decide), if_neg (by decide), if_pos rfl, append_assoc]
    exact readCalls_accepts hbounded hstates hstorage rest

theorem readAssetJournal_accepts :
    Accepts readAssetJournal (fun j code => j.encode = some code ∧ j.Bounded) := by
  rintro ⟨records, shares⟩ _ rest ⟨hcode, hbounded⟩
  simp only [AssetJournal.encode, bind_eq_some, return_eq_some] at hcode
  obtain ⟨recordsCode, hrecords, sharesCode, hshares, rfl⟩ := hcode
  have hrecord : Accepts (readEntry (readOption readAssetRecord)) (fun e code =>
      (encodeOption AssetRecord.encode e.2).map (e.1.bytes ++ ·) = some code ∧
        ∀ r ∈ e.2, validUtf8 r.metadata.name = true) := by
    refine (readEntry_accepts (readOption_accepts readAssetRecord_accepts)).imp ?_
    rintro e code ⟨hcode, hname⟩
    obtain ⟨value, hvalue, rfl⟩ := Option.map_eq_some_iff.mp hcode
    exact ⟨value, optionCode_of_encodeOption hvalue hname, rfl⟩
  have hshare : Accepts (readEntry (readOption readAssetShare)) (fun e code =>
      (encodeOption (fun s => some (AssetShare.encode s)) e.2).map (e.1.bytes ++ ·) =
        some code) := by
    have hvalue : Accepts readAssetShare (fun s code => some s.encode = some code ∧ True) :=
      readAssetShare_accepts.imp fun s code h => (Option.some.inj h.1).symm
    refine (readEntry_accepts (readOption_accepts hvalue)).imp fun e code hcode => ?_
    obtain ⟨value, hvalue, rfl⟩ := Option.map_eq_some_iff.mp hcode
    exact ⟨value, optionCode_of_encodeOption hvalue fun _ _ => trivial, rfl⟩
  have hnames : ∀ e ∈ records.entries, ∀ r ∈ e.2, validUtf8 r.metadata.name = true := by
    intro e he r hr
    refine hbounded e.1 r ?_
    rw [get?_eq_some_iff, ← Option.mem_def.mp hr]
    exact he
  rw [readAssetJournal, append_assoc,
    (readMap_accepts hrecord).run_bind ((counted_of_encodeVec hrecords).and hnames),
    (readMap_accepts hshare).run_bind (counted_of_encodeVec hshares)]
  rfl

theorem readStateRollbackJournal_accepts :
    Accepts readStateRollbackJournal (fun j code => j.encode = some code ∧ j.Bounded) := by
  rintro ⟨coin, program, extension⟩ _ rest ⟨hcode, hprogram, hextension⟩
  simp only [StateRollbackJournal.encode, bind_eq_some, return_eq_some] at hcode
  obtain ⟨coinCode, hcoin, programCode, hprogramCode, extensionCode, hextensionCode, rfl⟩ := hcode
  have hjournal : Accepts readCoinRollbackJournal (fun j code => j.encode = some code ∧ True) :=
    readCoinRollbackJournal_accepts.imp fun j code h => h.1
  simp only [readStateRollbackJournal, append_assoc]
  rw [(readOption_accepts hjournal).run_bind (optionCode_of_encodeOption hcoin fun _ _ => trivial),
    (readOption_accepts readProgramJournal_accepts).run_bind
      (optionCode_of_encodeOption hprogramCode hprogram),
    (readOption_accepts readAssetJournal_accepts).run_bind
      (optionCode_of_encodeOption hextensionCode hextension)]
  rfl

theorem readHeightJournals_accepts : Accepts readHeightJournals (fun e code =>
    (encodeVec StateRollbackJournal.encode e.2).map (leBytes 8 e.1.val ++ ·) = some code ∧
      ∀ j ∈ e.2, j.Bounded) := by
  rintro ⟨height, journals⟩ code rest ⟨hcode, hbounded⟩
  obtain ⟨journalsCode, hjournals, rfl⟩ := Option.map_eq_some_iff.mp hcode
  rw [readHeightJournals, append_assoc, readU64_reads.accepts.run_bind rfl,
    (readVec_accepts readStateRollbackJournal_accepts).run_bind
      ((counted_of_encodeVec hjournals).and hbounded)]
  rfl

/-! ## Snapshots -/

section
variable [Crypto]

def readLedgerSnapshot : Reader Byte LedgerSnapshot := do
  let state ← readLedgerState
  let journals ← readMap readHeightJournals
  return ⟨state, journals⟩

/-- `LedgerSnapshot::try_from_slice`. -/
def LedgerSnapshot.decode (bytes : List Byte) :
    Option LedgerSnapshot := all readLedgerSnapshot bytes

theorem LedgerSnapshot.decode_encode {s : LedgerSnapshot} {tip : Height} {bytes : List Byte}
    (hsound : s.state.Sound) (hvalid : s.state.programs.Valid tip)
    (hjournals : ∀ k js, s.journals.get? k = some js → ∀ j ∈ js, j.Bounded)
    (h : s.encode = some bytes) : decode bytes = some ⟨s.state.reread, s.journals⟩ := by
  simp only [LedgerSnapshot.encode, bind_eq_some, return_eq_some] at h
  obtain ⟨state, hstate, journals, hcode, rfl⟩ := h
  have hbounded : ∀ e ∈ s.journals.entries, ∀ j ∈ e.2, j.Bounded :=
    fun e he => hjournals e.1 e.2 (get?_eq_some_iff.mpr he)
  have hread : readMap readHeightJournals journals = some (s.journals, []) := by
    have h := readMap_accepts readHeightJournals_accepts s.journals journals []
      ((counted_of_encodeVec hcode).and hbounded)
    rwa [append_nil] at h
  have hall : readLedgerSnapshot (state ++ journals) = some (⟨s.state.reread, s.journals⟩, []) := by
    change (readLedgerState (state ++ journals)).bind _ = _
    rw [readLedgerState_accepts hsound hvalid hstate]
    change (readMap readHeightJournals journals).bind _ = _
    rw [hread]
    rfl
  rw [decode, Reader.all, hall]

/-! ## Restoring -/

namespace Ledger

def snapshot (l : Ledger) : LedgerSnapshot := ⟨l.state, l.journals⟩

/-- What the replay of the block history carries along. -/
structure Restoring where
  genesisHash : Option BlockHash
  tip : Option (Height × StateRoot)
  chain : Chain
  retainedCount : Nat

/-- From the first journal on a block has to have its journals. -/
def Restoring.push (r : Restoring) (journals : OrderedMap Height (List StateRollbackJournal))
    (journalStart : Height) (b : Block) (chain : Chain) : Except LedgerError Restoring := do
  rejectIf (journalStart ≤ b.height ∧
    (journals.get? b.height).map List.length ≠ some b.journalCount)
    .missingRollbackJournal
  return ⟨some (r.genesisHash.getD b.hash), some (b.height, b.header.stateRoot), chain,
    if journalStart ≤ b.height then r.retainedCount + 1 else r.retainedCount⟩

/-- One block of the history, which has to extend the chain. `from_snapshot` passes `usize::MAX` for
both limits of `retain_recent_bodies`, which then removes no body and is left out here. -/
def restoreBlock (journals : OrderedMap Height (List StateRollbackJournal)) (journalStart : Height)
    (r : Restoring) (b : Block) : Except LedgerError Restoring := do
  b.validateStructure.mapError fun e => .consensus (.invalidBlock e)
  let chain ← (r.chain.insertBlock b).mapError .chain
  r.push journals journalStart b chain

/-- What is checked once the history is read. -/
def finishRestore (snapshot : LedgerSnapshot) (r : Restoring) : Except LedgerError Ledger := do
  rejectIf (snapshot.journals.length ≠ r.retainedCount) .missingRollbackJournal
  let (tipHeight, tipRoot) ← okOr r.tip .emptyChain
  let genesisHash ← okOr r.genesisHash .emptyChain
  let ledger : Ledger :=
    ⟨noApplications, r.chain, snapshot.state, snapshot.journals, some ⟨genesisHash⟩⟩
  ledger.state.auditSupplyInvariants
  orError (ledger.state.programs.validate tipHeight) .invalidProgramState
  let root ← ledger.stateRoot
  rejectIf (root ≠ tipRoot) .invalidStateRoot
  return ledger

/-- `from_snapshot`: trusted history, so proofs of work are not checked again. -/
def fromSnapshot (snapshot : LedgerSnapshot) (blocks : List Block) : Except LedgerError Ledger := do
  let journalStart ← okOr (snapshot.journals.keys.head?) .missingRollbackJournal
  let r ← blocks.foldlM (restoreBlock snapshot.journals journalStart) ⟨none, none, .empty, 0⟩
  finishRestore snapshot r

/-- The blocks of the chain, oldest first. -/
def canonicalBlocks (l : Ledger) : List Block := l.chain.blocks.entries.map Prod.snd

/-! ## The replayed history -/

variable {l : Ledger} {trace : List (Ledger × Block)}

theorem Backed.chain_eq_empty (h : Backed l []) : l.chain = Chain.empty := by
  cases h with
  | nil hl hempty =>
    obtain ⟨hhash, hheaders⟩ := hl.linked.empty hempty
    have hblocks : l.chain.blocks = ∅ := by
      apply ext_get?
      intro k
      have hbody := hl.linked.bodies k
      rw [hheaders, get?_emptyc, Option.map_eq_none_iff] at hbody
      exact hbody
    rcases hc : l.chain with ⟨headers, blocks, tipHeight, tipHash⟩
    simp only [hc] at hempty hhash hheaders hblocks
    rw [hempty, hhash, hheaders, hblocks]
    rfl

theorem Backed.canonicalBlocks_eq (h : Backed l trace) :
    l.canonicalBlocks = (trace.map Prod.snd).reverse := by
  induction h with
  | nil hl hempty =>
    rw [canonicalBlocks, Backed.chain_eq_empty (.nil hl hempty)]
    rfl
  | @cons l p b rest _ hlinks hprior ih =>
    have hlt : ∀ e ∈ p.chain.blocks.entries, e.1 < b.height := by
      intro e he
      have hbody := hprior.consistent.linked.bodies e.1
      rw [get?_eq_some_iff.mpr he] at hbody
      obtain ⟨t, ht, hle⟩ := hprior.consistent.linked.bounded _ _ hbody.symm
      have hheight := (hprior.consistent.linked.next hlinks.next ht).1
      exact Fin.lt_def.mpr (by have := Fin.le_def.mp hle; omega)
    rw [canonicalBlocks, hlinks.chain]
    change ((p.chain.blocks.insert b.height b).entries.map Prod.snd) = _
    rw [entries_insert_of_lt hlt, map_append, map_cons, map_nil, map_cons,
      reverse_cons, ← ih]
    rfl

theorem Backed.exists_of_header (h : Backed l trace) {k : Height} {header : Header}
    (hk : l.chain.headers.get? k = some header) : ∃ b ∈ trace.map Prod.snd, b.height = k := by
  induction h with
  | nil hl hempty =>
    rw [(hl.linked.empty hempty).2] at hk
    cases hk
  | @cons l p b rest _ hlinks _ ih =>
    rw [hlinks.chain] at hk
    change (p.chain.headers.insert b.height b.header).get? k = some header at hk
    rw [get?_insert] at hk
    split_ifs at hk with heq
    · exact ⟨b, mem_cons_self, heq.symm⟩
    · obtain ⟨b', hb', hheight⟩ := ih hk
      exact ⟨b', mem_cons_of_mem _ hb', hheight⟩

theorem Backed.heights_nodup (h : Backed l trace) :
    ((trace.map Prod.snd).map Block.height).Nodup := by
  induction h with
  | nil _ _ => exact nodup_nil
  | cons _ hlinks hprior ih =>
    refine nodup_cons.mpr ⟨?_, ih⟩
    intro hmem
    obtain ⟨b', hb', heq⟩ := mem_map.mp hmem
    exact absurd (hprior.height_lt hlinks.next hb') (by rw [heq]; exact lt_irrefl _)

/-- The blocks of a ledger are replayed from the oldest on and give its chain, with the first hash,
the tip and the number of blocks whose journals were retained. -/
theorem Backed.foldlM_restoreBlock (h : Backed l trace)
    {journals : OrderedMap Height (List StateRollbackJournal)} {start : Height}
    (hblocks : ∀ b ∈ trace.map Prod.snd, b.validateStructure = .ok ())
    (hcounts : ∀ b ∈ trace.map Prod.snd, start ≤ b.height →
      (journals.get? b.height).map List.length = some b.journalCount) :
    (trace.map Prod.snd).reverse.foldlM (restoreBlock journals start) ⟨none, none, .empty, 0⟩ =
      .ok ⟨(trace.map Prod.snd).getLast?.map Block.hash,
        (trace.map Prod.snd).head?.map fun b => (b.height, b.header.stateRoot), l.chain,
        ((trace.map Prod.snd).filter fun b => start ≤ b.height).length⟩ := by
  induction h with
  | nil hl hempty =>
    rw [Backed.chain_eq_empty (.nil hl hempty)]
    rfl
  | @cons l p b rest _ hlinks _ ih =>
    have hrest := ih (fun b' hb' => hblocks b' (mem_cons_of_mem _ hb'))
      fun b' hb' => hcounts b' (mem_cons_of_mem _ hb')
    have hstructure := hblocks b mem_cons_self
    have hinsert : p.chain.insertBlock b = .ok l.chain :=
      Chain.insertBlock_eq_ok.mpr ⟨hlinks.next, hlinks.chain⟩
    have hcount : ¬ (start ≤ b.height ∧
        (journals.get? b.height).map List.length ≠ some b.journalCount) :=
      fun hne => hne.2 (hcounts b mem_cons_self hne.1)
    have hgenesis : ((b :: rest.map Prod.snd).getLast?).map Block.hash =
        some (((rest.map Prod.snd).getLast?.map Block.hash).getD b.hash) := by
      rw [getLast?_cons]
      cases (rest.map Prod.snd).getLast? <;> rfl
    have hretained : ((b :: rest.map Prod.snd).filter fun b => start ≤ b.height).length =
        if start ≤ b.height then ((rest.map Prod.snd).filter fun b => start ≤ b.height).length + 1
        else ((rest.map Prod.snd).filter fun b => start ≤ b.height).length := by
      rw [filter_cons]
      split_ifs <;> simp_all
    rw [map_cons, reverse_cons, foldlM_append, hrest, ok_bind, foldlM_cons, restoreBlock,
      hstructure, hinsert, hgenesis, hretained]
    simp only [Except.mapError, ok_bind, Restoring.push, rejectIf, if_neg hcount]
    rfl

theorem Storable.length_journals (h : Backed l trace) (hs : Storable l trace) {start : Height}
    (hstart : l.journals.keys.head? = some start) :
    l.journals.length = ((trace.map Prod.snd).filter fun b => start ≤ b.height).length := by
  have hfirst : ∀ k ∈ l.journals.keys, start ≤ k := by
    have hsorted : l.journals.keys.Pairwise (· < ·) := pairwise_map.mpr l.journals.sorted
    obtain ⟨rest, hrest⟩ := head?_eq_some_iff.mp hstart
    rw [hrest] at hsorted ⊢
    intro k hk
    rcases mem_cons.mp hk with rfl | hk
    · exact le_refl _
    · exact le_of_lt ((pairwise_cons.mp hsorted).1 k hk)
  obtain ⟨js₀, hjs₀⟩ := mem_keys_iff.mp (mem_of_head? hstart)
  have hmem : ∀ k, k ∈ l.journals.keys ↔
      k ∈ ((trace.map Prod.snd).filter fun b => start ≤ b.height).map Block.height := by
    intro k
    rw [mem_keys_iff]
    constructor
    · rintro ⟨js, hjs⟩
      obtain ⟨header, hheader⟩ := h.consistent.journals k js hjs
      obtain ⟨b, hb, rfl⟩ := h.exists_of_header hheader
      have hle := hfirst _ (mem_keys_iff.mpr ⟨js, hjs⟩)
      exact mem_map.mpr ⟨b, mem_filter.mpr ⟨hb, by simpa using hle⟩, rfl⟩
    · intro hk
      obtain ⟨b, hb, rfl⟩ := mem_map.mp hk
      obtain ⟨hb, hle⟩ := mem_filter.mp hb
      exact hs.complete b hb start js₀ hjs₀ (by simpa using hle)
  have hnodup : (((trace.map Prod.snd).filter fun b => start ≤ b.height).map Block.height).Nodup :=
    h.heights_nodup.sublist (filter_sublist.map _)
  have hperm := (perm_ext_iff_of_nodup l.journals.keys_nodup hnodup).mpr hmem
  have hlength := hperm.length_eq
  rwa [OrderedMap.keys, length_map, length_map] at hlength

theorem exists_fromSnapshot (h : Backed l trace) (hs : Storable l trace) {tip : Height}
    {js : List StateRollbackJournal} (htip : l.chain.tipHeight = some tip)
    (hjournal : l.journals.get? tip = some js) :
    fromSnapshot ⟨l.state.reread, l.journals⟩ l.canonicalBlocks =
      .ok { l with applications := noApplications, state := l.state.reread } := by
  have hl := h.consistent
  obtain ⟨start, hstart⟩ : ∃ start, l.journals.keys.head? = some start := by
    cases hkeys : l.journals.keys with
    | nil => exact absurd (mem_keys_iff.mpr ⟨js, hjournal⟩) (by rw [hkeys]; exact not_mem_nil)
    | cons k rest => exact ⟨k, rfl⟩
  obtain ⟨js₀, hjs₀⟩ := mem_keys_iff.mp (mem_of_head? hstart)
  have hcounts : ∀ b ∈ trace.map Prod.snd, start ≤ b.height →
      (l.journals.get? b.height).map List.length = some b.journalCount := by
    intro b hb hle
    obtain ⟨js', hjs'⟩ := hs.complete b hb start js₀ hjs₀ hle
    rw [hjs', Option.map_some, hs.counted b hb js' hjs']
  have hreplay := h.foldlM_restoreBlock hs.blocks hcounts
  rw [← h.canonicalBlocks_eq, ← hs.length_journals h hstart] at hreplay
  obtain ⟨p, b, rest, rfl, hlinks⟩ : ∃ p b rest, trace = (p, b) :: rest ∧ Links l p b := by
    cases h with
    | nil _ hempty =>
      rw [hempty] at htip
      cases htip
    | cons _ hlinks _ => exact ⟨_, _, _, rfl, hlinks⟩
  have hheight : tip = b.height := by
    rw [hlinks.chain] at htip
    exact (Option.some.inj htip).symm
  have hheader : l.chain.headers.get? tip = some b.header := by
    rw [hheight]
    exact h.header_of_mem mem_cons_self
  have hroot : l.state.reread.applicationStateRoot = .ok b.header.stateRoot :=
    ((same_reread l.state).applicationStateRoot hl.sound.reread hl.sound).trans
      (hl.tipRoot tip b.header htip hheader)
  have hregistry : l.state.reread.programs.validate b.height = .ok () := by
    have hvalid := hs.registry
    rw [htip, Option.getD_some, hheight] at hvalid
    exact hvalid.validate
  have hcontext := hs.context
  obtain ⟨genesis, hgenesis⟩ : ∃ genesis, (((p, b) :: rest).map Prod.snd).getLast? = some genesis :=
    ⟨_, getLast?_eq_some_getLast (cons_ne_nil _ _)⟩
  rw [hgenesis] at hreplay hcontext
  have hledger : (⟨noApplications, l.chain, l.state.reread, l.journals,
      some ⟨genesis.hash⟩⟩ : Ledger) =
      { l with applications := noApplications, state := l.state.reread } := by
    rw [hcontext, Option.map_some]
  simp only [fromSnapshot, finishRestore, bind_eq_ok, okOr_eq_ok, rejectIf_eq_ok, not_not,
    Prod.exists, orError_eq_ok, return_eq_ok]
  exact ⟨start, hstart, _, hreplay, (), rfl, b.height, b.header.stateRoot, rfl, genesis.hash,
    rfl, (), hl.sound.reread.auditSupplyInvariants, (), hregistry, _, hroot, (), rfl, hledger⟩

/-- From the bytes of its snapshot and from its blocks, a reachable ledger whose tip journal is
retained is restored: the canonical state with the coin and deployment lookups, the journals, the
chain and its context. -/
theorem Reachable.restore_snapshot (h : Reachable l) {tip : Height} {js : List StateRollbackJournal}
    (htip : l.chain.tipHeight = some tip) (hjournal : l.journals.get? tip = some js)
    {bytes : List Byte} (hbytes : l.snapshot.encode = some bytes) :
    ∃ snapshot restored, LedgerSnapshot.decode bytes = some snapshot ∧
      fromSnapshot snapshot l.canonicalBlocks = .ok restored ∧ Same restored.state l.state ∧
      restored.state.utxos.byOwner = l.state.utxos.byOwner ∧
      restored.state.programs.deployments = l.state.programs.deployments ∧
      restored.journals = l.journals ∧ restored.chain = l.chain ∧
      restored.chainContext = l.chainContext := by
  obtain ⟨trace, h⟩ := h
  have hs := h.storable
  have hdecode :=
    LedgerSnapshot.decode_encode (s := l.snapshot) h.backed.consistent.sound hs.registry
    hs.journals hbytes
  exact ⟨_, _, hdecode, exists_fromSnapshot h.backed hs htip hjournal, same_reread l.state, rfl,
    rfl, rfl, rfl, rfl⟩

end Ledger

end

section Sample

attribute [local instance] Crypto.checksum

namespace Ledger

/-- The sample chain after its first mined block, written and restored. -/
theorem sampleMined_restored : ∃ b l bytes snapshot restored, sampleMined = .ok (b, l) ∧
    l.snapshot.encode = some bytes ∧ LedgerSnapshot.decode bytes = some snapshot ∧
    fromSnapshot snapshot l.canonicalBlocks = .ok restored ∧ restored.chain = l.chain := by
  have hok : (sampleMined.toOption.any fun e =>
      (e.2.chain.tipHeight.bind e.2.journals.get?).isSome && e.2.snapshot.encode.isSome) =
        true := by
    decide +kernel
  obtain ⟨l₀, b, l, hl₀, hmined, hcommits⟩ := exists_sampleMined
  rw [hmined] at hok
  simp only [Except.toOption, Option.any_some, Bool.and_eq_true, Option.isSome_iff_exists,
    Option.bind_eq_some_iff] at hok
  obtain ⟨⟨js, tip, htip, hjournal⟩, bytes, hbytes⟩ := hok
  obtain ⟨snapshot, restored, hdecode, hrestore, -, -, -, -, hchain, -⟩ :=
    Reachable.restore_snapshot ⟨_, (history_sampleStart hl₀).commit hcommits⟩ htip hjournal hbytes
  exact ⟨b, l, bytes, snapshot, restored, hmined, hbytes, hdecode, hrestore, hchain⟩

end Ledger

end Sample

end Xparq
