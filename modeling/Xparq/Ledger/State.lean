import Xparq.Error

/-!
# Ledger state and rollback journals

The four canonical components, the journals that undo one operation, the supply audits and
the state root. Functions that change a staged state in place return the changed state; the
caller of a failed one discards its staging state, as the source requires.
-/

namespace Xparq

open Machine Outcome OrderedMap

structure CoinRecord where
  totalMined : Zeno
  totalBurned : Zeno
  deriving DecidableEq, Repr

def CoinRecord.supply (c : CoinRecord) : Option Zeno := checkedSub c.totalMined c.totalBurned

/-- The extension state has the assets as its only field. -/
structure LedgerState where
  utxos : UtxoSet
  coin : CoinRecord
  programs : ProgramRegistry
  assets : AssetState
  deriving DecidableEq

structure CoinRollbackJournal where
  consumedCoins : List (CoinShare × CoinUtxo)
  createdCoinIds : List CoinShare
  mined : Zeno
  burned : Zeno
  deriving DecidableEq

structure StateRollbackJournal where
  coin : Option CoinRollbackJournal
  program : Option ProgramJournal
  extension : Option AssetJournal
  deriving DecidableEq

def CoinRollbackJournal.empty : CoinRollbackJournal := ⟨[], [], 0, 0⟩

def StateRollbackJournal.protocolBurn (j : StateRollbackJournal) : Zeno :=
  match j.coin with
  | some journal => journal.burned
  | none => 0

namespace LedgerState

def empty : LedgerState := ⟨UtxoSet.empty, ⟨0, 0⟩, ProgramRegistry.empty, AssetState.empty⟩

/-! ## Burn and rollback -/

def recordProtocolBurn (s : LedgerState) (burned : Zeno) (journal : CoinRollbackJournal) :
    Except StateError (LedgerState × CoinRollbackJournal) := do
  let totalBurned ← okOr (checkedAdd s.coin.totalBurned burned) .burnOverflow
  let journalBurned ← okOr (checkedAdd journal.burned burned) .burnOverflow
  return ({ s with coin := { s.coin with totalBurned } }, { journal with burned := journalBurned })

def consumeAll (utxos : UtxoSet) (ids : List CoinShare) : Except UtxoError UtxoSet :=
  ids.foldlM (fun utxos id => (utxos.consumeCoin id).map Prod.snd) utxos

def insertAll (utxos : UtxoSet) (coins : List (CoinShare × CoinUtxo)) : Except UtxoError UtxoSet :=
  coins.foldlM (fun utxos e => utxos.insertCoin e.1 e.2) utxos

/-- The journal is checked as a whole before anything changes: created coins are distinct and
live, consumed coins are distinct and gone, unless created again. -/
def rollbackCoin (s : LedgerState) (journal : CoinRollbackJournal) :
    Except StateError LedgerState := do
  let totalMined ← okOr (checkedSub s.coin.totalMined journal.mined) .amountOverflow
  let totalBurned ← okOr (checkedSub s.coin.totalBurned journal.burned) .burnUnderflow
  rejectIf (¬ journal.createdCoinIds.Nodup ∨ ∃ id ∈ journal.createdCoinIds, s.utxos.coin id = none)
    .invalidTransition
  rejectIf (¬ (journal.consumedCoins.map Prod.fst).Nodup ∨ ∃ e ∈ journal.consumedCoins,
    s.utxos.coin e.1 ≠ none ∧ e.1 ∉ journal.createdCoinIds) .invalidTransition
  let utxos ← (consumeAll s.utxos journal.createdCoinIds).mapError .utxo
  let utxos ← (insertAll utxos journal.consumedCoins).mapError .utxo
  return { s with utxos, coin := ⟨totalMined, totalBurned⟩ }

def rollbackState (s : LedgerState) (journal : StateRollbackJournal) :
    Except StateError LedgerState := do
  let programs ← match journal.program with
    | some program => orError (rollbackProgram s.programs program) .invalidTransition
    | none => .ok s.programs
  let assets := match journal.extension with
    | some extension => s.assets.rollback extension
    | none => s.assets
  let staged := { s with programs, assets }
  match journal.coin with
  | some coin => staged.rollbackCoin coin
  | none => return staged

/-! ## Supply audits -/

/-- The accounting check that every audit starts with. -/
def checkCoinTotals (s : LedgerState) : Except LedgerError Unit :=
  rejectIf (s.coin.supply ≠ some s.utxos.totalValue ∨
    (s.utxos.coins.isEmpty = true ↔ s.utxos.totalValue ≠ 0)) .coinSupplyMismatch

def auditAssetSupply (s : LedgerState) : Except LedgerError LedgerState :=
  (s.assets.auditAssetSupply.mapError LedgerError.ofSupply).map fun assets => { s with assets }

/-- `validate_supply_with_asset_cache`; a successful audit updates the supply summary. -/
def validateSupplyWithAssetCache (s : LedgerState) (allowCached : Bool) :
    Except LedgerError LedgerState := do
  s.checkCoinTotals
  match (if allowCached then s.assets.validateIncrementalSupply else none) with
  | some result => (result.mapError LedgerError.ofSupply).map fun assets => { s with assets }
  | none => s.auditAssetSupply

def validateSupplyInvariants (s : LedgerState) : Except LedgerError LedgerState :=
  s.validateSupplyWithAssetCache true

/-- The live coins summed one by one; a zero coin or an overflow is an error. -/
def auditCoinSupply (s : LedgerState) : Except LedgerError Unit := do
  let actual ← s.utxos.coins.entries.foldlM (fun total e => do
    rejectIf (e.2.amount = 0) .invalidCoinState
    okOr (checkedAdd total e.2.amount) .supplyOverflow) (0 : Zeno)
  rejectIf (actual ≠ s.utxos.totalValue ∨ s.coin.supply ≠ some actual) .coinSupplyMismatch

/-- The uncached deep audit. -/
def auditSupplyInvariants (s : LedgerState) : Except LedgerError Unit := do
  let s ← s.validateSupplyWithAssetCache false
  s.auditCoinSupply

/-! ## State root -/

def canonicalEncodedLen (s : LedgerState) : Except CodecError Nat := do
  let utxos ← s.utxos.canonicalEncodedLen
  let programs ← canonicalLength s.programs.encode
  let assets ← s.assets.canonicalEncodedLen
  -- the coin record is two unsigned 64-bit numbers
  okOr ((ofNat? (2 ^ 64) (utxos + 16 + programs + assets)).map Fin.val) .encodeFailed

def encode (s : LedgerState) : Option (List Byte) := do
  let utxos ← s.utxos.encode
  let programs ← s.programs.encode
  let assets ← s.assets.encode
  return utxos ++ leBytes 8 s.coin.totalMined.val ++ leBytes 8 s.coin.totalBurned.val ++ programs ++
    assets

variable [Crypto]

/-- The declared length has to be the length of what is written. -/
def hashCanonicalState (s : LedgerState) : Except CodecError StateRoot := do
  let length ← s.canonicalEncodedLen
  let bytes ← okOr s.encode .encodeFailed
  rejectIf (bytes.length ≠ length) .encodeFailed
  return domain .protocolState bytes

/-- The default state has root zero. The source remembers the last root it computed. -/
def applicationStateRoot (s : LedgerState) : Except LedgerError StateRoot :=
  if s.assets.IsDefault ∧ s.utxos.coins.isEmpty = true ∧ s.programs.programs.isEmpty = true ∧
      s.coin.totalMined = 0 ∧ s.coin.totalBurned = 0 then .ok 0
  else s.hashCanonicalState.mapError LedgerError.ofCodec

end LedgerState

end Xparq
