import Xparq.Monetary
import Xparq.Lib.GroupIndex
import Xparq.Lib.UndoLog
import Mathlib.Data.Prod.Lex

/-!
# Asset records, shares and their operations

The kernel-owned asset state: the accounting records and live shares, which are canonical,
and what is derived from them (owner lookups, role lookup and the supply summary, which are
neither encoded nor compared). `AssetState.apply` executes one checked call, undoes it when
it fails part-way and otherwise returns the journal of the entries it changed.

The supply summary is the content of a slot that clones of one state share. Every change of
the maps detaches the slot, so a state's own slot always describes the maps beside it; the
model keeps the slot as a field of the state and compares map contents where the source
compares tree roots.
-/

namespace Xparq

open Machine Outcome OrderedMap

/-- The summary a successful audit leaves behind: the audited maps, the live total of each
asset, and the assets touched since. -/
structure ValidatedAssetRoots where
  records : OrderedMap AssetContract AssetRecord
  shares : OrderedMap Share AssetShare
  totals : OrderedMap AssetContract Units
  dirty : OrderedSet AssetContract
  deriving DecidableEq

structure AssetState where
  records : OrderedMap AssetContract AssetRecord
  shares : OrderedMap Share AssetShare
  byOwner : NestedIndex Owner AssetContract Share
  ownerAssetBalances : OrderedMap (Owner ×ₗ AssetContract) Units
  assetRoles : GroupIndex Owner AssetContract
  supplyCache : Option ValidatedAssetRoots
  deriving DecidableEq

/-- The actor whose authority a call exercises, and the commitment its new shares derive from. -/
structure ExecutionContext where
  actor : Owner
  commitment : Hash
  deriving DecidableEq, Repr

/-- The changed entries of the two canonical maps with their values before the call. -/
structure AssetJournal where
  records : UndoLog AssetContract AssetRecord
  shares : UndoLog Share AssetShare
  deriving DecidableEq

namespace AssetState

def empty : AssetState := ⟨∅, ∅, ∅, ∅, ∅, none⟩

/-- Equality with the default state; the supply summary takes no part in it. -/
def IsDefault (s : AssetState) : Prop :=
  s.records = ∅ ∧ s.shares = ∅ ∧ s.byOwner = ∅ ∧ s.ownerAssetBalances = ∅ ∧ s.assetRoles = ∅

instance (s : AssetState) : Decidable s.IsDefault := by unfold IsDefault; infer_instance

/-! ## Canonical bytes -/

def encodeRecords (s : AssetState) : Option (List Byte) := do
  let count ← encodeLen s.records.length
  let entries ← s.records.entries.mapM fun e => e.2.encode.map (e.1.bytes ++ ·)
  return count ++ entries.flatten

/-- Identifier, asset, amount and owner of one share. -/
def shareWidth : Nat := 32 + 32 + 16 + 1 + 32

/-- The two canonical maps; nothing derived is encoded. -/
def encode (s : AssetState) : Option (List Byte) := do
  let records ← s.encodeRecords
  let count ← encodeLen s.shares.length
  return records ++ count ++ (s.shares.entries.map fun e => e.1.bytes ++ e.2.encode).flatten

def canonicalEncodedLen (s : AssetState) : Except CodecError Nat := do
  let records ← canonicalLength s.encodeRecords
  let shares ← canonicalFixedMapLength s.shares.length shareWidth
  okOr ((ofNat? (2 ^ 64) (records + shares)).map Fin.val) .encodeFailed

/-! ## Lookups -/

def balanceByOwnerAsset (s : AssetState) (owner : Owner) (asset : AssetContract) : Units :=
  (s.ownerAssetBalances.get? (toLex (owner, asset))).getD 0

/-- Ordered by asset, then share identifier. -/
def sharesByOwner (s : AssetState) (owner : Owner) : List (Share × AssetShare) :=
  ((s.byOwner.groups owner).entries.flatMap fun e => e.2.keys).filterMap fun id =>
    (s.shares.get? id).bind fun share => if share.owner = owner then some (id, share) else none

def sharesByOwnerAsset (s : AssetState) (owner : Owner) (asset : AssetContract) :
    List (Share × AssetShare) :=
  (s.byOwner.members owner asset).keys.filterMap fun id =>
    (s.shares.get? id).bind fun share =>
      if share.owner = owner ∧ share.asset = asset then some (id, share) else none

def indexAssetRole (s : AssetState) (asset : AssetContract) (owner : Owner) : AssetState :=
  { s with assetRoles := s.assetRoles.add owner asset }

def unindexAssetRole (s : AssetState) (asset : AssetContract) (owner : Owner) : AssetState :=
  { s with assetRoles := s.assetRoles.remove owner asset }

/-- Enter a share into the owner lookup and the aggregate balance. -/
def indexShare (s : AssetState) (id : Share) (share : AssetShare) : AssetState :=
  { s with
    byOwner := s.byOwner.add share.owner share.asset id
    ownerAssetBalances := s.ownerAssetBalances.insert (toLex (share.owner, share.asset))
      (saturatingAdd (s.balanceByOwnerAsset share.owner share.asset) share.amount) }

/-- Take a share out of the owner lookup and the aggregate balance. -/
def unindexShare (s : AssetState) (id : Share) (share : AssetShare) : AssetState :=
  let balance := (((s.ownerAssetBalances.get? (toLex (share.owner, share.asset))).bind
    fun balance => checkedSub balance share.amount)).getD 0
  { s with
    byOwner := s.byOwner.remove share.owner share.asset id
    ownerAssetBalances :=
      if balance = 0 then s.ownerAssetBalances.erase (toLex (share.owner, share.asset))
      else s.ownerAssetBalances.insert (toLex (share.owner, share.asset)) balance }

def removeShare (s : AssetState) (id : Share) : AssetState :=
  match s.shares.get? id with
  | none => s
  | some share => { s with shares := s.shares.erase id }.unindexShare id share

def putShare (s : AssetState) (id : Share) (share : AssetShare) : AssetState :=
  if s.shares.get? id = some share then s
  else
    let s := (s.removeShare id).indexShare id share
    { s with shares := s.shares.insert id share }

/-- Recompute every derived lookup from the canonical maps. -/
def rebuildOwnerIndex (s : AssetState) : AssetState :=
  let cleared := { s with byOwner := ∅, ownerAssetBalances := ∅, assetRoles := ∅ }
  let indexed := s.shares.entries.foldl (fun s e => s.indexShare e.1 e.2) cleared
  s.records.entries.foldl (fun s e =>
    (s.indexAssetRole e.1 e.2.metadata.creator).indexAssetRole e.1 e.2.metadata.mintAuthority)
      indexed

/-! ## Supply summary -/

def supplySnapshot (s : AssetState) : Option ValidatedAssetRoots :=
  s.supplyCache.filter fun key => s.records = key.records ∧ s.shares = key.shares

def rememberValidSupply (s : AssetState) (totals : OrderedMap AssetContract Units) : AssetState :=
  { s with supplyCache := some ⟨s.records, s.shares, totals, ∅⟩ }

def totalOf (totals : OrderedMap AssetContract Units) (asset : AssetContract) : Units :=
  (totals.get? asset).getD 0

/-- Subtract the old value of one journalled share. -/
def retractShare (key : ValidatedAssetRoots) (old : Option AssetShare) :
    Option ValidatedAssetRoots :=
  match old with
  | none => some key
  | some share =>
    if share.amount = 0 then none
    else (checkedSub (totalOf key.totals share.asset) share.amount).map fun total =>
      { key with
        dirty := key.dirty.insert share.asset ()
        totals := if total = 0 then key.totals.erase share.asset
          else key.totals.insert share.asset total }

/-- Add the present value of one journalled share. -/
def assertShare (key : ValidatedAssetRoots) (now : Option AssetShare) :
    Option ValidatedAssetRoots :=
  match now with
  | none => some key
  | some share =>
    if share.amount = 0 then none
    else (checkedAdd (totalOf key.totals share.asset) share.amount).map fun total =>
      { key with
        dirty := key.dirty.insert share.asset ()
        totals := key.totals.insert share.asset total }

/-- Carry the summary over the journalled changes: all old shares are subtracted before any
new one is added. -/
def advanceSupplySummary (s : AssetState) (previous : Option ValidatedAssetRoots)
    (journal : AssetJournal) : AssetState :=
  let updated := previous.bind fun key =>
    let key := { key with
      dirty := journal.records.keys.foldl (fun dirty asset => dirty.insert asset ()) key.dirty }
    (journal.shares.entries.foldlM (fun key e => retractShare key e.2) key).bind fun key =>
      (journal.shares.entries.foldlM (fun key e => assertShare key (s.shares.get? e.1)) key).map
        fun key => { key with records := s.records, shares := s.shares }
  { s with supplyCache := updated }

inductive SupplyError
  | unknownAssetShare | invalidAssetState | assetSupplyMismatch | supplyOverflow
  deriving DecidableEq, Repr

/-- The checks one record has to pass against the live total of its asset. -/
def checkRecord (record : AssetRecord) (total : Units) : Except SupplyError Unit := do
  orError record.metadata.validate .invalidAssetState
  rejectIf (record.totalMinted > record.metadata.maxSupply ∨
    checkedSub record.totalMinted record.totalBurned ≠ some record.supply ∨
    total ≠ record.supply) .assetSupplyMismatch

/-- `none` when a full audit is required; otherwise only the touched assets are checked. -/
def validateIncrementalSupply (s : AssetState) : Option (Except SupplyError AssetState) :=
  s.supplySnapshot.map fun key => do
    key.dirty.keys.forM fun asset =>
      rejectIf (totalOf key.totals asset ≠ 0 ∧ s.records.contains asset = false) .unknownAssetShare
    key.dirty.keys.forM fun asset =>
      match s.records.get? asset with
      | none => .ok ()
      | some record => checkRecord record (totalOf key.totals asset)
    return { s with supplyCache := some { key with dirty := ∅ } }

def scanShare (s : AssetState) (totals : OrderedMap AssetContract Units) (e : Share × AssetShare) :
    Except SupplyError (OrderedMap AssetContract Units) := do
  rejectIf (e.2.amount = 0) .invalidAssetState
  rejectIf (s.records.contains e.2.asset = false) .unknownAssetShare
  let total ← okOr (checkedAdd (totalOf totals e.2.asset) e.2.amount) .supplyOverflow
  return totals.insert e.2.asset total

/-- The live total of every asset, from a scan of all shares. -/
def scanTotals (s : AssetState) : Except SupplyError (OrderedMap AssetContract Units) :=
  s.shares.entries.foldlM s.scanShare ∅

/-- `audit_asset_supply`: scan all records and shares independently of earlier audits. -/
def auditAssetSupply (s : AssetState) : Except SupplyError AssetState := do
  let totals ← s.scanTotals
  s.records.entries.forM fun e => checkRecord e.2 (totalOf totals e.1)
  return s.rememberValidSupply totals

/-! ## Undoing -/

/-- Put one record back, keeping the role lookup in step. -/
def restoreRecord (s : AssetState) (key : AssetContract) (previous : Option AssetRecord) :
    AssetState :=
  if s.records.get? key = previous then s
  else
    let s := match s.records.get? key with
      | none => s
      | some record => (s.unindexAssetRole key record.metadata.creator).unindexAssetRole key
          record.metadata.mintAuthority
    match previous with
    | some record =>
      let s := (s.indexAssetRole key record.metadata.creator).indexAssetRole key
        record.metadata.mintAuthority
      { s with records := s.records.insert key record }
    | none => { s with records := s.records.erase key }

def restoreShare (s : AssetState) (key : Share) (previous : Option AssetShare) : AssetState :=
  match previous with
  | some share => s.putShare key share
  | none => s.removeShare key

/-- `rollback`: write the journal back; the summary follows the change. -/
def rollback (s : AssetState) (journal : AssetJournal) : AssetState :=
  let previousSupply := s.supplySnapshot
  let before : AssetJournal :=
    ⟨UndoLog.snapshot s.records journal.records.keys, UndoLog.snapshot s.shares journal.shares.keys⟩
  let s := journal.records.entries.foldl (fun s e => s.restoreRecord e.1 e.2) s
  let s := journal.shares.entries.foldl (fun s e => s.restoreShare e.1 e.2) s
  s.advanceSupplySummary previousSupply before

/-! ## Operations -/

def inputTotal (s : AssetState) (asset : AssetContract) (inputs : List Share) (actor : Owner) :
    Except AssetError Units :=
  inputs.foldlM (fun total input => do
    let share ← okOr (s.shares.get? input) .unknownObject
    rejectIf (share.asset ≠ asset) .assetMismatch
    rejectIf (share.owner ≠ actor) .unauthorized
    okOr (checkedAdd total share.amount) .balanceOverflow) 0

/-- A call is encoded and decoded again before it is executed, so that it obeys every bound of
the wire format. -/
def checkEncoding (call : AssetCall) : Except AssetError Unit := do
  let (opcode, payload) ← okOr call.encode .encoding
  let _ ← orError (AssetCall.decode opcode.code payload) .invalidProgram

variable [Crypto]

/-- The asset a call is about, its inputs and the number of its outputs. -/
def callParts (call : AssetCall) (context : ExecutionContext) :
    Except AssetError (AssetContract × List Share × Nat) :=
  match call with
  | .register c => do
      let metadata ← Metadata.new c.name c.maxSupply context.actor c.mintAuthority
      let asset ← AssetContract.derive metadata c.nonce
      return (asset, [], 1)
  | .mint c => .ok (c.asset, [], 1)
  | .transfer c => .ok (c.asset, c.inputs, c.outputs.length)
  | .burn c => .ok (c.asset, c.inputs, if c.output = 0 then 0 else 1)

/-- Every input, every output identifier and the accounting record of a call. -/
def footprint (call : AssetCall) (context : ExecutionContext) :
    Except AssetError (AssetContract × List Share) := do
  let (asset, inputs, outputs) ← callParts call context
  let created ← (List.range outputs).mapM fun index => do
    let index ← okOr (ofNat? (2 ^ 32) index) .invalidProgram
    return Share.derive asset context.commitment index
  return (asset, inputs ++ created)

def snapshotOperation (s : AssetState) (call : AssetCall) (context : ExecutionContext) :
    Except AssetError AssetJournal := do
  let (asset, shares) ← footprint call context
  return ⟨UndoLog.snapshot s.records [asset], UndoLog.snapshot s.shares shares⟩

/-- A private state that holds only what the call reads or writes. -/
def operationView (s : AssetState) (call : AssetCall) (context : ExecutionContext) :
    Except AssetError AssetState := do
  let journal ← s.snapshotOperation call context
  return rebuildOwnerIndex { empty with
    records := journal.records.present, shares := journal.shares.present }

def insertShare (s : AssetState) (asset : AssetContract) (commitment : Hash) (index : Nat)
    (amount : Units) (owner : Owner) : Except AssetError AssetState := do
  let index ← okOr (ofNat? (2 ^ 32) index) .invalidProgram
  let id := Share.derive asset commitment index
  rejectIf (s.shares.contains id = true) .shareAlreadyExists
  return s.putShare id ⟨asset, amount, owner⟩

/-- Insert the outputs of a transfer one after another; the ones inserted before a failure
stay. -/
def insertOutputs (asset : AssetContract) (commitment : Hash) :
    Nat → List AssetOutput → InPlace AssetState AssetError Unit
  | _, [] => pure ()
  | index, output :: rest => do
      let s ← InPlace.read
      let s ← InPlace.check (s.insertShare asset commitment index output.amount output.recipient)
      InPlace.update fun _ => s
      insertOutputs asset commitment (index + 1) rest

open InPlace in
def applyMonetaryOperation (call : AssetCall) (context : ExecutionContext) :
    InPlace AssetState AssetError Unit := do
  let s ← read
  match call with
  | .register c =>
    let metadata ← check (Metadata.new c.name c.maxSupply context.actor c.mintAuthority)
    check (rejectIf (c.initialMint = 0 ∨ c.initialMint > c.maxSupply) .invalidAmount)
    let asset ← check (AssetContract.derive metadata c.nonce)
    check (rejectIf (s.records.contains asset = true) .assetAlreadyExists)
    let s ← check (s.insertShare asset context.commitment 0 c.initialMint context.actor)
    let record : AssetRecord :=
      { metadata, supply := c.initialMint, totalMinted := c.initialMint, mintNonce := 0,
        totalBurned := 0 }
    update fun _ => ({ s with records := s.records.insert asset record }.indexAssetRole asset
      context.actor).indexAssetRole asset c.mintAuthority
  | .mint c =>
    check (rejectIf (c.amount = 0) .invalidAmount)
    let record ← check (okOr (s.records.get? c.asset) .unknownAsset)
    check (rejectIf (record.metadata.mintAuthority ≠ context.actor) .unauthorized)
    let nonce ← check (okOr (checkedAdd record.mintNonce 1) .invalidMintNonce)
    check (rejectIf (c.nonce ≠ nonce) .invalidMintNonce)
    let supply ← check (okOr (checkedAdd record.supply c.amount) .supplyOverflow)
    check (rejectIf (supply > record.metadata.maxSupply) .supplyOverflow)
    let totalMinted ← check (okOr (checkedAdd record.totalMinted c.amount) .supplyOverflow)
    check (rejectIf (totalMinted > record.metadata.maxSupply) .supplyOverflow)
    let s ← check (s.insertShare c.asset context.commitment 0 c.amount c.recipient)
    let record := { record with supply, totalMinted, mintNonce := c.nonce }
    update fun _ => { s with records := s.records.insert c.asset record }
  | .transfer c =>
    check (rejectIf (s.records.contains c.asset = false) .unknownAsset)
    check (rejectIf (c.inputs = [] ∨ c.outputs = []) .invalidProgram)
    check (ensureUniqueAssetInputs c.inputs)
    let inputTotal ← check (s.inputTotal c.asset c.inputs context.actor)
    let outputTotal ← check (sumOutputs .invalidAmount .balanceOverflow c.outputs)
    check (rejectIf (inputTotal ≠ outputTotal) .invalidAmount)
    update fun s => c.inputs.foldl removeShare s
    insertOutputs c.asset context.commitment 0 c.outputs
  | .burn c =>
    check (rejectIf (c.inputs = [] ∨ c.amount = 0) .invalidAmount)
    check (ensureUniqueAssetInputs c.inputs)
    let inputTotal ← check (s.inputTotal c.asset c.inputs context.actor)
    let expected ← check (okOr (checkedAdd c.amount c.output) .balanceOverflow)
    check (rejectIf (inputTotal ≠ expected) .invalidAmount)
    let record ← check (okOr (s.records.get? c.asset) .unknownAsset)
    let supply ← check (okOr (checkedSub record.supply c.amount) .supplyOverflow)
    let totalBurned ← check (okOr (checkedAdd record.totalBurned c.amount) .supplyOverflow)
    update fun s => c.inputs.foldl removeShare s
    insertOutputs c.asset context.commitment 0
      (if c.output = 0 then [] else [⟨context.actor, c.output⟩])
    let record := { record with supply, totalBurned }
    update fun s => { s with records := s.records.insert c.asset record }

/-- `AssetState::apply`. -/
def apply (call : AssetCall) (context : ExecutionContext) :
    InPlace AssetState AssetError AssetJournal := fun s =>
  match (do checkEncoding call; s.snapshotOperation call context) with
  | .error e => (.error e, s)
  | .ok journal =>
    match applyMonetaryOperation call context s with
    | (.error e, failed) =>
      let restored := failed.rollback journal
      (.error e, { restored with supplyCache := s.supplySnapshot.map fun key =>
        { key with records := restored.records, shares := restored.shares } })
    | (.ok (), s') =>
      let journal : AssetJournal :=
        ⟨journal.records.retain fun key previous => s'.records.get? key ≠ previous,
          journal.shares.retain fun key previous => s'.shares.get? key ≠ previous⟩
      (.ok journal, s'.advanceSupplySummary s.supplySnapshot journal)

end AssetState

namespace AssetJournal

/-- The encoded size of one entry. -/
def sizeOfRecord (key : AssetContract) (record : AssetRecord) : Except AssetError Int :=
  okOr (record.encode.map fun bytes => ((key.bytes ++ bytes).length : Int)) .encoding

def sizeOfShare (key : Share) (share : AssetShare) : Int := (key.bytes ++ share.encode).length

def optionSize {K V : Type} (size : K → V → Except AssetError Int) (key : K) :
    Option V → Except AssetError Int
  | some v => size key v
  | none => .ok 0

/-- Add to an `i128` accumulator. -/
def checkedAddI128 (a b : Int) : Except AssetError Int :=
  if -2 ^ 127 ≤ a + b ∧ a + b < 2 ^ 127 then .ok (a + b) else .error .balanceOverflow

/-- The change of the canonical map sizes, from the journalled and the present entries. -/
def canonicalDelta (journal : AssetJournal) (state : AssetState) : Except AssetError Int := do
  let delta ← journal.records.entries.foldlM (fun delta e => do
    let now ← optionSize sizeOfRecord e.1 (state.records.get? e.1)
    let old ← optionSize sizeOfRecord e.1 e.2
    checkedAddI128 delta (now - old)) 0
  journal.shares.entries.foldlM (fun delta e => do
    let now ← optionSize (fun k v => .ok (sizeOfShare k v)) e.1 (state.shares.get? e.1)
    let old ← optionSize (fun k v => .ok (sizeOfShare k v)) e.1 e.2
    checkedAddI128 delta (now - old)) delta

/-- Compose with a later journal; the value before the first change is kept. -/
def merge (journal next : AssetJournal) : AssetJournal :=
  ⟨journal.records.merge next.records, journal.shares.merge next.shares⟩

end AssetJournal

end Xparq
