import Xparq.Node.Receipts
import Xparq.Lib.GroupIndex

/-!
# The tables of a node and their transactions

Canonical bodies, the indexes over them, the pending operations and the ledger snapshots are tables
of one database. A block is appended, or the whole chain is replaced from a stream of blocks; either
happens in one transaction together with the indexes. The indexes can also be rebuilt alone.

A transaction is a function to the database it would commit; an error leaves the database as it was.
-/

namespace Xparq

open Machine Outcome OrderedMap Reader

/-! ## Tables -/

/-- Where a coin was created: by a call, by a deployment or, with neither, by an emission. -/
structure CoinOrigin where
  createdAt : Option Hash
  deployOperationId : Option Hash
  createdIn : Height
  deriving DecidableEq, Repr

structure StoredProgramActivity where
  programId : ProgramId
  transactionIndex : Option U64
  deriving DecidableEq, Repr

/-- A block as the transactions receive it; `CanonicalIndexBlock` has the same fields. -/
structure StoredCanonicalBlock where
  height : U64
  hash : Hash
  bytes : List Byte
  transactions : List Hash
  activities : List StoredProgramActivity
  deriving DecidableEq, Repr

structure IndexTables where
  blockHashes : OrderedMap Hash U64
  transactions : OrderedMap Hash (List Byte)
  activities : OrderedSet (List Byte)
  coinOrigins : OrderedMap CoinShare CoinOrigin
  deriving DecidableEq

def IndexTables.empty : IndexTables := ⟨∅, ∅, ∅, ∅⟩

/-- The rows of the metadata table that are about the indexes. -/
structure IndexMetadata where
  tipHeight : Option U64
  tipHash : Option Hash
  coinOriginVersion : Option Byte
  programIndexVersion : Option Byte
  deriving DecidableEq, Repr

/-- All tables of the store. -/
structure Database extends NodeDatabase where
  mempool : List (List Byte)
  snapshots : OrderedMap U64 (List Byte)
  checkpoints : OrderedMap U64 (List Byte)
  indexes : IndexTables
  metadata : IndexMetadata
  deriving DecidableEq

def Database.empty : Database := ⟨⟨∅, ∅⟩, [], ∅, ∅, .empty, ⟨none, none, none, none⟩⟩

/-- The height of the last stored body. -/
def Database.tipHeight (db : Database) : Option U64 := db.blocks.keys.getLast?

/-! ## Index entries -/

def encodeTransactionLocation (height : U64) (transactionIndex : Nat) : List Byte :=
  leBytes 8 height.val ++ leBytes 8 transactionIndex

/-- Heights and positions are big-endian, so the order of keys is the order of activities. -/
def encodeProgramActivityKey (programId : ProgramId) (height : U64)
    (transactionIndex : Option U64) : List Byte :=
  programId.bytes ++ (leBytes 8 height.val).reverse ++
    match transactionIndex with
    | none => 0 :: (leBytes 8 0).reverse
    | some transactionIndex => 1 :: (leBytes 8 transactionIndex.val).reverse

def decodeCanonicalBlock (bytes : List Byte) : Except NodeError Block :=
  okOr (all readBlock bytes) (.message "decode canonical block for coin origins")

/-- The transaction rows of a block; a hash that is there already is overwritten. -/
def insertTransactions (height : U64) (table : OrderedMap Hash (List Byte))
    (transactions : List Hash) : OrderedMap Hash (List Byte) :=
  transactions.zipIdx.foldl (fun table e => table.insert e.1 (encodeTransactionLocation height e.2))
    table

def insertActivities (height : U64) (table : OrderedSet (List Byte))
    (activities : List StoredProgramActivity) : OrderedSet (List Byte) :=
  activities.foldl (fun table a =>
    table.insert (encodeProgramActivityKey a.programId height a.transactionIndex) ()) table

section
variable [Crypto]

def genesisContext (bytes : List Byte) : Except NodeError ChainContext := do
  let genesis ← decodeCanonicalBlock bytes
  rejectIf (genesis.isGenesis = false) (.message "first canonical block is not genesis")
  return ⟨genesis.hash⟩

/-- The envelope has one variant. -/
def AuthorizedProgramInvocation.programInvocationId (tx : AuthorizedProgramInvocation) :
    Except IntentError Hash :=
  (okOr tx.encode .encoding).map fun bytes => domain .transaction (0 :: bytes)

/-- What the coins of an operation's payment are derived from, and the row they get. -/
def operationOrigin (chain : ChainContext) (height : Height) :
    BlockOperation → Except NodeError (AuthorizationCommitment × CoinOrigin)
  | .programCall tx => do
      let commitment ← orError (programInvocationCommitment tx.signer tx.call tx.payment chain)
        (.message "derive program call coin origin")
      let id ← orError tx.programInvocationId (.message "derive transaction origin")
      return (commitment, ⟨some id, none, height⟩)
  | .deployProgram signed => do
      let commitment ← orError (signed.commitment chain) (.message "derive deploy coin origin")
      let id ← orError (BlockOperation.deployProgram signed).id
        (.message "derive deploy operation id")
      return (commitment, ⟨none, some id, height⟩)

/-- One row for each output and one for the coin of the fee. -/
def operationCoinOrigins (chain : ChainContext) (height : Height) (op : BlockOperation) :
    Except NodeError (List (CoinShare × CoinOrigin)) := do
  let (commitment, origin) ← operationOrigin chain height op
  let outputCount := op.payment.outputs.length + if op.payment.charges.minerFee = 0 then 0 else 1
  (List.range outputCount).mapM fun index => do
    let index ← okOr (ofNat? (2 ^ 32) index) (.message "coin output index exceeds u32")
    return (CoinShare.fromOutput commitment index, origin)

def blockCoinOrigins (b : Block) (chain : ChainContext) :
    Except NodeError (List (CoinShare × CoinOrigin)) := do
  let emitted ← if b.isGenesis then .ok [] else do
    let origin ← orError (emissionOrigin b) (.message "derive emission coin origin")
    return [(CoinShare.fromEmission origin, CoinOrigin.mk none none b.height)]
  let created ← b.operations.mapM (operationCoinOrigins chain b.height)
  return emitted ++ created.flatten

/-- A hash as it is printed. -/
def hashText (h : Hash) : String :=
  String.ofList ((hexEncode h.bytes).map fun digit => Char.ofNat digit.val)

def insertCoinOrigin (table : OrderedMap CoinShare CoinOrigin) (row : CoinShare × CoinOrigin) :
    Except NodeError (OrderedMap CoinShare CoinOrigin) := do
  rejectIf (table.contains row.1 = true) (.message ("duplicate coin origin " ++ hashText row.1))
  return table.insert row.1 row.2

def insertCoinOrigins (table : OrderedMap CoinShare CoinOrigin) (b : Block) (chain : ChainContext) :
    Except NodeError (OrderedMap CoinShare CoinOrigin) := do
  let rows ← blockCoinOrigins b chain
  rows.foldlM insertCoinOrigin table

/-- The block that the given bytes have to decode to. -/
def identifiedBlock (block : StoredCanonicalBlock) (mismatch : String) :
    Except NodeError Block := do
  let canonical ← decodeCanonicalBlock block.bytes
  rejectIf (canonical.height ≠ block.height ∨ canonical.hash ≠ block.hash) (.message mismatch)
  return canonical

namespace IndexTables

/-- The rows of a block that is appended or replaces another. -/
def insertBlock (t : IndexTables) (chain : ChainContext) (block : StoredCanonicalBlock) :
    Except NodeError IndexTables := do
  let canonical ← identifiedBlock block "stored block identity does not match coin origin source"
  let coinOrigins ← insertCoinOrigins t.coinOrigins canonical chain
  return {
    blockHashes := t.blockHashes.insert block.hash block.height
    transactions := insertTransactions block.height t.transactions block.transactions
    activities := insertActivities block.height t.activities block.activities
    coinOrigins }

/-- Unlike the other transactions a rebuild does not overwrite the row of a transaction. -/
def rebuildTransaction (height : U64) (table : OrderedMap Hash (List Byte)) (e : Hash × Nat) :
    Except NodeError (OrderedMap Hash (List Byte)) := do
  rejectIf (table.contains e.1 = true)
    (.message ("duplicate canonical transaction hash at height " ++ toString height.val))
  return table.insert e.1 (encodeTransactionLocation height e.2)

/-- The rows of a block in a rebuild; block hashes and transactions have to be new. -/
def rebuildBlock (t : IndexTables) (chain : ChainContext) (block : StoredCanonicalBlock) :
    Except NodeError IndexTables := do
  let canonical ← identifiedBlock block "canonical blocks changed before index rebuild"
  let coinOrigins ← insertCoinOrigins t.coinOrigins canonical chain
  rejectIf (t.blockHashes.contains block.hash = true)
    (.message ("duplicate canonical block hash at height " ++ toString block.height.val))
  let transactions ← block.transactions.zipIdx.foldlM (rebuildTransaction block.height)
    t.transactions
  return {
    blockHashes := t.blockHashes.insert block.hash block.height
    transactions
    activities := insertActivities block.height t.activities block.activities
    coinOrigins }

end IndexTables

/-! ## Blocks and indexes -/

/-- What a transaction reads block by block; each entry can fail on its own. -/
abbrev BlockStream := List (Except NodeError StoredCanonicalBlock)

namespace Database

/-- The rows that say which block the indexes end with. -/
def completeMetadata (height : U64) (hash : Hash) :
    IndexMetadata := ⟨some height, some hash, some 1, some 1⟩

/-- `indexes_were_complete`: the indexes end at the height before. -/
def indexesWereComplete (db : Database) (height : U64) : Bool :=
  height = 0 || (db.metadata.tipHash.isSome && db.metadata.coinOriginVersion = some 1 &&
    (db.metadata.tipHeight.bind fun previous => checkedAdd previous 1) = some height)

def appendBlockAndReplaceMempool (db : Database) (block : StoredCanonicalBlock)
    (mempool : List (List Byte)) : Except NodeError Database := do
  rejectIf (db.blocks.contains block.height = true)
    (.message ("canonical block height " ++ toString block.height.val ++ " already exists"))
  let blocks := db.blocks.insert block.height block.bytes
  let genesisBytes ← okOr (blocks.get? 0)
    (.message "genesis block missing while indexing coin origin")
  let chain ← genesisContext genesisBytes
  let indexes ← db.indexes.insertBlock chain block
  -- the version of the program index is not written here
  let metadata := if db.indexesWereComplete block.height then
      { db.metadata with
        tipHeight := some block.height, tipHash := some block.hash, coinOriginVersion := some 1 }
    else db.metadata
  return { db with blocks, mempool, indexes, metadata }

/-- The last height up to which the stream repeats the stored bodies. -/
def commonHeight (blocks : OrderedMap U64 (List Byte)) :
    Option U64 → BlockStream → Except NodeError (Option U64)
  | common, [] => .ok common
  | common, entry :: rest => do
      let block ← entry
      if blocks.get? block.height = some block.bytes
        then commonHeight blocks (some block.height) rest
      else return common

/-- What the second pass over the stream builds. -/
structure Replacement where
  blocks : OrderedMap U64 (List Byte)
  indexes : IndexTables
  tip : Option (U64 × Hash)

def Replacement.start : Replacement := ⟨∅, .empty, none⟩

def Replacement.insert (chain : ChainContext) (r : Replacement)
    (entry : Except NodeError StoredCanonicalBlock) : Except NodeError Replacement := do
  let block ← entry
  let indexes ← r.indexes.insertBlock chain block
  return ⟨r.blocks.insert block.height block.bytes, indexes, some (block.height, block.hash)⟩

/-- The rows of a table keyed by height that belong to the common part. -/
def retainCommon (common : Option U64) (table : OrderedMap U64 (List Byte)) :
    OrderedMap U64 (List Byte) :=
  table.retain fun height _ => common.any fun last => height ≤ last

/-- A snapshot that comes with the replacement has to be one of the new tip. It gets no checkpoint.
-/
def publishRecovery (tipHeight : U64) (snapshot : Option (U64 × List Byte))
    (snapshots checkpoints : OrderedMap U64 (List Byte)) :
    Except NodeError (OrderedMap U64 (List Byte) × OrderedMap U64 (List Byte)) :=
  match snapshot with
  | none => .ok (snapshots, checkpoints)
  | some (height, bytes) => do
      rejectIf (height ≠ tipHeight)
        (.message "recovery snapshot height does not match canonical tip")
      return (snapshots.insert height bytes, checkpoints.erase height)

def replaceBlocksMempoolAndSnapshotStream (db : Database) (stream : BlockStream)
    (mempool : List (List Byte)) (snapshot : Option (U64 × List Byte)) :
    Except NodeError Database := do
  let first ← okOr stream.head? (.message "canonical reorg cannot persist an empty chain")
  let first ← first
  let chain ← genesisContext first.bytes
  let common ← commonHeight db.blocks none stream
  let replacement ← stream.foldlM (Replacement.insert chain) Replacement.start
  let (tipHeight, tipHash) ← okOr replacement.tip
    (.message "canonical reorg cannot persist an empty chain")
  let (snapshots, checkpoints) ← publishRecovery tipHeight snapshot
    (retainCommon common db.snapshots)
    (retainCommon common db.checkpoints)
  return { db with
    blocks := replacement.blocks
    mempool
    snapshots
    checkpoints
    indexes := replacement.indexes
    metadata := completeMetadata tipHeight tipHash }

/-- What a rebuild has read so far. -/
def rebuildStep (chain : ChainContext) (r : IndexTables × Option (U64 × Hash))
    (entry : Except NodeError StoredCanonicalBlock) :
    Except NodeError (IndexTables × Option (U64 × Hash)) := do
  let block ← entry
  let indexes ← r.1.rebuildBlock chain block
  return (indexes, some (block.height, block.hash))

def rebuildCanonicalIndexesStream (db : Database) (stream : BlockStream) :
    Except NodeError Database := do
  let first ← okOr stream.head? (.message "cannot rebuild indexes from an empty chain")
  let first ← first
  let chain ← genesisContext first.bytes
  let (indexes, tip) ← stream.foldlM (rebuildStep chain) (.empty, none)
  let (tipHeight, tipHash) ← okOr tip (.message "cannot rebuild indexes from an empty chain")
  return { db with indexes, metadata := completeMetadata tipHeight tipHash }

end Database

/-! ## Blocks of a ledger -/

/-- The identifiers a transaction's parties have: recipients of the call, sender, and owners of the
coins. -/
def transactionProgramIds (tx : AuthorizedProgramInvocation) (miner : ProgramId) :
    OrderedSet ProgramId :=
  let recipients : List Owner := match decodeProgram tx.call with
    | .ok (.asset (.mint call)) => [call.recipient]
    | .ok (.asset (.transfer call)) => call.outputs.map AssetOutput.recipient
    | _ => []
  let fee := if tx.payment.charges.minerFee = 0 then [] else [miner]
  let ids := recipients.map Owner.programId ++ tx.payment.signer ::
    (tx.payment.outputs.map fun output => output.output.programId) ++ fee
  ofEntries (ids.map fun id => (id, ()))

def blockProgramTransactions (b : Block) : List AuthorizedProgramInvocation :=
  b.operations.filterMap fun
    | .programCall tx => some tx
    | .deployProgram _ => none

def storedProgramActivities (b : Block) : List StoredProgramActivity :=
  (b.emission.map fun emission => StoredProgramActivity.mk emission.recipient none).toList ++
    (blockProgramTransactions b).zipIdx.flatMap fun e =>
      (transactionProgramIds e.1 b.minerProgramId).keys.map fun id =>
        ⟨id, some (Fin.ofNat (2 ^ 64) e.2)⟩

/-- What the node stores of a block. -/
def storedCanonicalBlock (b : Block) : Except NodeError StoredCanonicalBlock := do
  let bytes ← okOr b.encode (.codec .encodeFailed)
  let transactions ← (blockProgramTransactions b).mapM fun tx =>
    orError tx.programInvocationId (.message "transaction id")
  return ⟨b.height, b.hash, bytes, transactions, storedProgramActivities b⟩

/-- The stream of a ledger: its heights in order, each body resident or read from the source. -/
def Ledger.blockStream (source : NodeDatabase) (l : Ledger) : BlockStream :=
  l.chain.headers.keys.map fun height => do
    let block ← canonicalBlock source l height
    storedCanonicalBlock block

end

end Xparq
