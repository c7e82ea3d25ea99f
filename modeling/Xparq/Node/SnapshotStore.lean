import Xparq.Node.Storage
import Xparq.Ledger.Snapshot

/-!
# Ledger snapshots in the database

The node stores the last two snapshots of its ledger by height. A snapshot that was checked against
the stored bodies gets a checkpoint next to it: the hash of its bytes, the hash of the tip and a
running digest over all bodies up to it. When the node starts, a snapshot with a matching checkpoint
is restored without checking the proofs of work again (`loadStreamed`); recovery restores any
snapshot, and checks them.
-/

namespace Xparq

open Machine Outcome OrderedMap Reader

/-- What a node expects of its database: `EXPECTED_GENESIS_HASH` and `chain_spec_hash`. -/
structure NodeIdentity where
  genesisHash : Hash
  chainSpecHash : Hash
  deriving DecidableEq, Repr

/-! ## Checkpoints -/

def snapshotValidationVersion : U32 := 1

structure SnapshotValidationCheckpoint where
  version : U32
  genesisHash : Hash
  chainSpecHash : Hash
  height : U64
  tipHash : Hash
  snapshotHash : Hash
  historyDigest : Hash
  deriving DecidableEq, Repr

namespace SnapshotValidationCheckpoint

def encode (c : SnapshotValidationCheckpoint) : List Byte :=
  leBytes 4 c.version.val ++ c.genesisHash.bytes ++ c.chainSpecHash.bytes ++
    leBytes 8 c.height.val ++
    c.tipHash.bytes ++ c.snapshotHash.bytes ++ c.historyDigest.bytes

def read : Reader Byte SnapshotValidationCheckpoint := do
  let version ← readU32
  let genesisHash ← Hash.decode
  let chainSpecHash ← Hash.decode
  let height ← readU64
  let tipHash ← Hash.decode
  let snapshotHash ← Hash.decode
  let historyDigest ← Hash.decode
  return { version, genesisHash, chainSpecHash, height, tipHash, snapshotHash, historyDigest }

def decode (bytes : List Byte) : Option SnapshotValidationCheckpoint := all read bytes

theorem read_reads : Reads read (fun c code => code = c.encode) := by
  refine (readU32_reads.field fun _ => Hash.decode_reads.field fun _ =>
    Hash.decode_reads.field fun _ =>
    readU64_reads.field fun _ => Hash.decode_reads.field fun _ => Hash.decode_reads.field fun _ =>
    Hash.decode_reads.field fun _ => Reads.pure _).congr fun c code => ?_
  cases c
  simp [encode]

theorem decode_encode (c : SnapshotValidationCheckpoint) :
    decode c.encode = some c := read_reads.all.mpr rfl

end SnapshotValidationCheckpoint

section
variable [Crypto]

def advanceHistoryDigest (previous : Hash) (height : U64) (body : List Byte) : Hash :=
  hashBytes (ascii "xparq:validated-history:v1" ++ previous.bytes ++ leBytes 8 height.val ++
    (hashBytes body).bytes)

namespace Database

/-! ## Storing a snapshot -/

/-- The digest over the bodies below these headers. Every body has to be the one of its header. -/
def prefixDigest (bodies : OrderedMap U64 (List Byte)) :
    Hash → Nat → List (Height × Header) → Except NodeError Hash
  | digest, _, [] => .ok digest
  | digest, index, (expectedHeight, header) :: rest => do
      rejectIf (expectedHeight.val ≠ index)
        (.message "snapshot validation header heights are not contiguous")
      let body ← okOr (bodies.get? expectedHeight)
        (.message ("snapshot body prefix missing at height " ++ toString index))
      let decoded ← orError (decodeBlock body) (.message "decode snapshot body prefix")
      rejectIf (decoded.height ≠ expectedHeight ∨ decoded.header ≠ header)
        (.message ("snapshot body prefix changed at height " ++ toString index))
      prefixDigest bodies (advanceHistoryDigest digest expectedHeight body) (index + 1) rest

def validationCheckpoint (identity : NodeIdentity) (db : Database) (height : U64)
    (bytes : List Byte) (headers : List (Height × Header)) :
    Except NodeError SnapshotValidationCheckpoint := do
  rejectIf ((checkedAdd height 1).map Fin.val ≠ some headers.length)
    (.message "snapshot validation header prefix is incomplete")
  let historyDigest ← prefixDigest db.blocks 0 0 headers
  let last ← okOr headers.getLast? (.message "empty snapshot body prefix")
  return {
    version := snapshotValidationVersion
    genesisHash := identity.genesisHash
    chainSpecHash := identity.chainSpecHash
    height
    tipHash := last.2.hash
    snapshotHash := hashBytes bytes
    historyDigest }

omit [Crypto] in
/-- Drop the oldest snapshots while there are more than two; the number bounds the rounds. -/
def evictOldest : Nat → OrderedMap U64 (List Byte) → OrderedMap U64 (List Byte) →
    OrderedMap U64 (List Byte) × OrderedMap U64 (List Byte)
  | 0, snapshots, checkpoints => (snapshots, checkpoints)
  | n + 1, snapshots, checkpoints =>
    if snapshots.length > 2 then
      match snapshots.keys.head? with
      | some oldest => evictOldest n (snapshots.erase oldest) (checkpoints.erase oldest)
      | none => (snapshots, checkpoints)
    else (snapshots, checkpoints)

/-- Without headers to check against there is no checkpoint. -/
def optionalCheckpoint (identity : NodeIdentity) (db : Database) (height : U64)
    (bytes : List Byte) :
    Option (List (Height × Header)) → Except NodeError (Option SnapshotValidationCheckpoint)
  | none => .ok none
  | some headers => (db.validationCheckpoint identity height bytes headers).map some

/-- The height loses the checkpoint it had. -/
def putSnapshotInner (identity : NodeIdentity) (db : Database) (height : U64) (bytes : List Byte)
    (headers : Option (List (Height × Header))) : Except NodeError Database := do
  let checkpoint ← db.optionalCheckpoint identity height bytes headers
  let snapshots := db.snapshots.insert height bytes
  let checkpoints := db.checkpoints.put height (checkpoint.map SnapshotValidationCheckpoint.encode)
  let (snapshots, checkpoints) := evictOldest snapshots.length snapshots checkpoints
  return { db with snapshots, checkpoints }

end Database

/-! ## Snapshots of a ledger -/

def snapshotMagic : List Byte := ascii "XPQSNAP1"
def snapshotVersion : U32 := 3
def checksumSize : Nat := 32

structure SnapshotPayload where
  magic : List Byte
  version : U32
  genesisHash : BlockHash
  chainSpecHash : Hash
  height : Height
  tipHash : BlockHash
  ledger : LedgerSnapshot

namespace SnapshotPayload

omit [Crypto] in
def encode (p : SnapshotPayload) : Option (List Byte) :=
  p.ledger.encode.map fun ledger => p.magic ++ leBytes 4 p.version.val ++ p.genesisHash.bytes ++
    p.chainSpecHash.bytes ++ leBytes 8 p.height.val ++ p.tipHash.bytes ++ ledger

def read : Reader Byte SnapshotPayload := do
  let magic ← takeBytes 8
  let version ← readU32
  let genesisHash ← Hash.decode
  let chainSpecHash ← Hash.decode
  let height ← readU64
  let tipHash ← Hash.decode
  let ledger ← readLedgerSnapshot
  return { magic, version, genesisHash, chainSpecHash, height, tipHash, ledger }

def decode (bytes : List Byte) : Option SnapshotPayload := all read bytes

end SnapshotPayload

/-! ## Restoring -/

/-- A reader of bodies on one generation of the database. -/
structure CanonicalBodyReader where
  database : Database
  next : U64
  last : Option U64

namespace CanonicalBodyReader

omit [Crypto] in
def new (db : Database) : CanonicalBodyReader := ⟨db, 0, db.tipHeight⟩

omit [Crypto] in
/-- A record that cannot be decoded is an error. -/
def snapshotCheckpoint (r : CanonicalBodyReader) (height : U64) :
    Except NodeError (Option SnapshotValidationCheckpoint) :=
  match r.database.checkpoints.get? height with
  | none => .ok none
  | some bytes =>
    (okOr (SnapshotValidationCheckpoint.decode bytes) (.message "decode snapshot checkpoint")).map
    some

omit [Crypto] in
def streamedBody (db : Database) (height : U64) : Except NodeError (List Byte) := do
  let bytes ← okOr (db.blocks.get? height)
    (.message ("local block body missing at height " ++ toString height.val))
  rejectIf (bytes = [] ∨ bytes.length > maxBlockSize)
    (.message ("local block size outside range at height " ++ toString height.val))
  return bytes

omit [Crypto] in
/-- The next body; the reader ends after the last one and after an error. -/
def nextBody (r : CanonicalBodyReader) :
    Option (Except NodeError (List Byte)) × CanonicalBodyReader :=
  match r.last with
  | none => (none, r)
  | some last =>
    if last < r.next then (none, { r with last := none })
    else match streamedBody r.database r.next with
      | .error e => (some (.error e), { r with last := none })
      | .ok bytes => (some (.ok bytes), if r.next = last then { r with last := none }
        else { r with next := r.next + 1 })

end CanonicalBodyReader

/-- What the iterator over decoded bodies carries. -/
structure BodyStream where
  reader : CanonicalBodyReader
  historyDigest : Hash
  nextHeight : Nat
  localError : Option NodeError

/-- The next block of the history up to the height of the snapshot. -/
def BodyStream.pull (trusted : Bool) (storedHeight : U64) (s : BodyStream) :
    Option Block × BodyStream :=
  if storedHeight.val < s.nextHeight then (none, s)
  else
    let (entry, reader) := s.reader.nextBody
    match (okOr entry (.message "snapshot extends beyond local body log") >>= id :
        Except NodeError (List Byte)) with
    | .error e => (none, { s with reader, localError := some e })
    | .ok bytes =>
      let historyDigest := if trusted then
          advanceHistoryDigest s.historyDigest (Fin.ofNat (2 ^ 64) s.nextHeight) bytes
        else s.historyDigest
      match decodeBlock bytes with
      | .error _ =>
        (none, { s with
          reader, historyDigest
          localError := some (.message "decode local snapshot history") })
      | .ok block => (some block, { s with reader, historyDigest, nextHeight := s.nextHeight + 1 })

/-- The limits of the resident bodies. -/
structure BodyCache where
  maxBytes : Nat
  maxBlocks : Nat

namespace Ledger

/-- A trusted history is checked for its structure only. -/
def checkHistoryBlock (verifyPow : Bool) (chain : Chain) (b : Block) : Except LedgerError Unit :=
  if verifyPow then (validateForApply b chain true).mapError .consensus
  else b.validateStructure.mapError fun e => .consensus (.invalidBlock e)

/-- One block of `restore_snapshot_blocks`. -/
def restoreBlockMeasured (snapshot : LedgerSnapshot) (journalStart : Height) (cache : BodyCache)
    (verifyPow : Bool) (r : Restoring) (b : Block) : Except LedgerError Restoring := do
  checkHistoryBlock verifyPow r.chain b
  let chain ← (r.chain.insertBlock b).mapError .chain
  let chain ← (chain.retainRecentBodies cache.maxBytes cache.maxBlocks).mapError .chain
  r.push snapshot.journals journalStart b chain

/-- The loop over the history: blocks are pulled until there are no more, or one does not fit. -/
def restoreStream (step : Restoring → Block → Except LedgerError Restoring) (trusted : Bool)
    (storedHeight : U64) :
    Nat → Restoring → BodyStream → Except LedgerError Restoring × BodyStream
  | 0, r, s => (.ok r, s)
  | n + 1, r, s =>
    match s.pull trusted storedHeight with
    | (none, s) => (.ok r, s)
    | (some block, s) =>
      match step r block with
      | .error e => (.error e, s)
      | .ok r => restoreStream step trusted storedHeight n r s

/-- `restore_snapshot_blocks` on the bodies of one generation. There are at most as many blocks as
heights. -/
def restoreSnapshotBlocks (snapshot : LedgerSnapshot) (cache : BodyCache) (trusted : Bool)
    (storedHeight : U64) (s : BodyStream) : Except LedgerError Ledger × BodyStream :=
  match snapshot.journals.keys.head? with
  | none => (.error .missingRollbackJournal, s)
  | some journalStart =>
    let (r, s) :=
      restoreStream (restoreBlockMeasured snapshot journalStart cache (!trusted))
        trusted storedHeight
      (storedHeight.val + 1) ⟨none, none, .empty, 0⟩ s
    (r >>= finishRestore snapshot, s)

end Ledger

/-- The checkpoint that vouches for these bytes. -/
def matchingCheckpoint (reader : CanonicalBodyReader) (storedHeight : U64)
    (snapshot : SnapshotPayload) (bytes : List Byte) : Option SnapshotValidationCheckpoint :=
  ((reader.snapshotCheckpoint storedHeight).toOption.join).filter fun record =>
    record.version = snapshotValidationVersion && record.genesisHash = snapshot.genesisHash &&
      record.chainSpecHash = snapshot.chainSpecHash && record.height = snapshot.height &&
      record.tipHash = snapshot.tipHash && record.snapshotHash = hashBytes bytes

/-- Checksum and identity of a stored snapshot; what cannot be decoded is skipped. -/
def openSnapshot (identity : NodeIdentity) (storedHeight : U64) (bytes : List Byte) :
    Except NodeError (Option SnapshotPayload) := do
  rejectIf (bytes.length ≤ checksumSize) (.message "snapshot is truncated")
  let payload := bytes.take (bytes.length - checksumSize)
  rejectIf ((hashBytes payload).bytes ≠ bytes.drop (bytes.length - checksumSize))
    (.message "snapshot checksum does not match")
  match SnapshotPayload.decode payload with
  | none => return none
  | some snapshot =>
    rejectIf (snapshot.magic ≠ snapshotMagic ∨ snapshot.version ≠ snapshotVersion ∨
      snapshot.genesisHash ≠ identity.genesisHash ∨
        snapshot.chainSpecHash ≠ identity.chainSpecHash ∨
      snapshot.height ≠ storedHeight)
        (.message "snapshot identity does not match this node or table key")
    return some snapshot

/-- One attempt of `load_streamed_mode`, with bodies and checkpoint from the same generation. -/
def restoreAttempt (identity : NodeIdentity) (cache : BodyCache) (allowCheckpoint : Bool)
    (db : Database) (storedHeight : U64) (bytes : List Byte) :
    Except NodeError (Option (Ledger × Nat)) := do
  match ← openSnapshot identity storedHeight bytes with
  | none => return none
  | some snapshot =>
    let reader := CanonicalBodyReader.new db
    let checkpoint := if allowCheckpoint then matchingCheckpoint reader storedHeight snapshot bytes
      else none
    if allowCheckpoint = true ∧ checkpoint = none then return none
    let (restored, stream) :=
      Ledger.restoreSnapshotBlocks snapshot.ledger cache checkpoint.isSome storedHeight
      ⟨reader, 0, 0, none⟩
    match stream.localError with
    | some error => throw error
    | none => do
      rejectIf (checkpoint.any (fun record => record.historyDigest ≠ stream.historyDigest) = true)
        (.message "snapshot validated history digest does not match local bodies")
      let ledger ← orError restored (.message "restore local snapshot")
      let ledger := { ledger with applications := systemApplications }
      rejectIf (ledger.chain.tipHeight ≠ some snapshot.height ∨
        ledger.chain.tipHash ≠ some snapshot.tipHash ∨
        (ledger.chain.header 0).map Header.hash ≠ some identity.genesisHash)
        (.message "snapshot does not match canonical body history")
      return some (ledger, stream.nextHeight)

/-- `load_streamed_mode`: the first snapshot that can be restored. Every attempt opens its own
generation of the database. -/
def loadStreamedMode (identity : NodeIdentity) (cache : BodyCache) (allowCheckpoint : Bool)
    (maximumHeight : U64) (generation : Nat → Database) :
    Nat → List NodeError → List (U64 × List Byte) →
    Except (List NodeError) (Option (Ledger × Nat))
  | _, errors, [] => if errors = [] then .ok none else .error errors
  | index, errors, (storedHeight, bytes) :: rest =>
    if maximumHeight < storedHeight then
      loadStreamedMode identity cache allowCheckpoint maximumHeight generation
        (index + 1) errors rest
    else match restoreAttempt identity cache allowCheckpoint (generation index) storedHeight
        bytes with
      | .ok (some restored) => .ok (some restored)
      | .ok none => loadStreamedMode identity cache allowCheckpoint maximumHeight generation
        (index + 1) errors rest
      | .error error =>
        loadStreamedMode identity cache allowCheckpoint maximumHeight generation (index + 1)
          (errors ++ [error]) rest

omit [Crypto] in
def Database.snapshotsDescending (db : Database) :
    List (U64 × List Byte) := db.snapshots.entries.reverse

/-- Restore the newest local snapshot that has a checkpoint. -/
def loadStreamed (identity : NodeIdentity) (cache : BodyCache) (generation : Nat → Database)
    (snapshots : List (U64 × List Byte)) : Except (List NodeError) (Option (Ledger × Nat)) :=
  loadStreamedMode identity cache true ⟨2 ^ 64 - 1, maxU64_lt⟩ generation 0 [] snapshots

end

end Xparq
