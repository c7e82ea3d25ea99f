import Xparq.Ledger.Authority

/-!
# The pool of pending operations

A pool lists the operations to be mined next, in order, with the limits it is stored under. It may
carry the state its operations lead to, under an anchor: the tip and the state root of the ledger
they were replayed on. Extending a pool by one operation then starts from that state instead of a
replay.

`PendingPool.Built` is every pool that pushes and extensions lead to, on any ledgers. The state it
carries is always the one of a full replay (`Built.validated`), so an extension accepts what a full
replay accepts (`Built.extend_iff_replay`).
-/

namespace Xparq

open Machine Outcome OrderedMap List

def maxStoredTransactionSize : Nat := maxProgramInvocationSize
def maxStoredMempoolSize : Nat := 64 * 1024 * 1024
def maxMempoolTransactions : Nat := 1024
def minRelayFeeZenoPerByte : U64 := 8

structure PendingEntry where
  operation : BlockOperation
  bytes : List Byte
  id : Hash
  relaySize : Nat

/-- The tip hash and the state root of a ledger. -/
abbrev PendingAnchor := Option BlockHash × StateRoot

structure ValidatedPendingState where
  anchor : PendingAnchor
  state : LedgerState

structure PendingPool where
  entries : List PendingEntry
  ids : OrderedSet Hash
  totalBytes : U64
  fingerprint : Hash
  validated : Option ValidatedPendingState

def PendingPool.empty : PendingPool := ⟨[], ∅, 0, 0, none⟩

def minimumRelayFee (encodedSize : Nat) : Except NodeError U64 :=
  okOr ((ofNat? (2 ^ 64) encodedSize).bind fun size => checkedMul size minRelayFeeZenoPerByte)
    (.message "minimum relay fee overflow")

def BlockOperation.isProgramCall : BlockOperation → Bool
  | deployProgram _ => false
  | programCall _ => true

/-- `validate_relay_entry`. -/
def PendingEntry.validateRelay (entry : PendingEntry) : Except NodeError Unit := do
  rejectIf (entry.bytes.length > maxOperationSize) (.message "operation cannot fit in a block")
  let fee := entry.operation.payment.charges.minerFee
  rejectIf (entry.operation.isProgramCall ∧ entry.relaySize > maxStoredTransactionSize)
    (.message "program call exceeds transaction size limit")
  let minimum ← minimumRelayFee entry.relaySize
  rejectIf (fee < minimum) (.message "operation relay fee is too low")

section
variable [Crypto]

/-- The size that pays the relay fee is that of the older envelope, which has one variant. -/
def PendingEntry.new (operation : BlockOperation) : Except NodeError PendingEntry := do
  let bytes ← okOr operation.encode (.codec .encodeFailed)
  let relaySize ← match operation with
    | .programCall tx => (canonicalLength (tx.encode.map (0 :: ·))).mapError .codec
    | .deployProgram _ => .ok bytes.length
  return ⟨operation, bytes, domain .operation bytes, relaySize⟩

namespace PendingPool

/-- An entry at the end; the state carried so far is dropped. -/
def push (pool : PendingPool) (entry : PendingEntry) : Except NodeError PendingPool := do
  rejectIf (pool.ids.contains entry.id) (.message "duplicate pending operation")
  let total ← okOr (ofNat? (2 ^ 64) (pool.totalBytes.val + entry.bytes.length))
    (.message "mempool size overflow")
  rejectIf (total.val > maxStoredMempoolSize ∨ pool.entries.length ≥ maxMempoolTransactions)
    (.message "mempool exceeds persistence limit")
  return {
    entries := pool.entries ++ [entry]
    ids := pool.ids.insert entry.id ()
    totalBytes := total
    fingerprint := hashBytes (pool.fingerprint.bytes ++ entry.id.bytes)
    validated := none }

end PendingPool

namespace LedgerState

/-- `apply_program_call_with_applications`. -/
def applyProgramCall (s : LedgerState) (tx : AuthorizedProgramInvocation) (miner : ProgramId)
    (chain : ChainContext) (height : U64) (apps : ApplicationExecutor) :
    Except LedgerError (StateRollbackJournal × LedgerState) := do
  let prepared ← (validateProgramCall tx chain height s apps).mapError .programCall
  s.applyPreparedProgramCall prepared miner chain apps

/-- `apply_deploy_with_applications`. -/
def applyDeploy (s : LedgerState) (signed : AuthorizedDeployProgram) (miner : ProgramId)
    (chain : ChainContext) (height : Height) (apps : ApplicationExecutor) :
    Except LedgerError (StateRollbackJournal × LedgerState) := do
  let prepared ← (validateDeploy signed chain height s).mapError .deploy
  s.applyPreparedDeploy prepared miner apps

/-- `apply_pending_operation`: the miner is not known yet. -/
def applyPendingOperation (chain : ChainContext) (height : Height) (s : LedgerState) :
    BlockOperation → Except NodeError LedgerState
  | .programCall tx =>
    ((s.applyProgramCall tx 0 chain height systemApplications).mapError .invalidProgramCall).map
      Prod.snd
  | .deployProgram signed =>
    ((s.applyDeploy signed 0 chain height systemApplications).mapError .invalidDeploy).map Prod.snd

end LedgerState

namespace PendingPool

/-- One round of `replay_pending_pool`. -/
def replayEntry (chain : ChainContext) (height : Height) (state : LedgerState)
    (entry : PendingEntry) : Except NodeError LedgerState := do
  entry.validateRelay
  state.applyPendingOperation chain height entry.operation

/-- `replay_pending_pool`. The context is that of the chain the node is built for. -/
def replay (context : Except NodeError ChainContext) (ledger : Ledger) (pool : PendingPool) :
    Except NodeError LedgerState := do
  let chain ← context
  pool.entries.foldlM (replayEntry chain ledger.nextHeight) ledger.state

/-- The state a new entry is applied to: the one carried under the anchor, or that of a replay. -/
def startState (context : Except NodeError ChainContext) (ledger : Ledger) (pool : PendingPool)
    (anchor : PendingAnchor) : Except NodeError LedgerState :=
  match pool.validated.filter fun validated => validated.anchor = anchor with
  | some validated => .ok validated.state
  | none => pool.replay context ledger

/-- `extend_pending_pool`. -/
def extend (context : Except NodeError ChainContext) (ledger : Ledger) (current : PendingPool)
    (entry : PendingEntry) (anchor : PendingAnchor) : Except NodeError PendingPool := do
  let pending ← current.push entry
  let state ← current.startState context ledger anchor
  let chain ← context
  let state ← state.applyPendingOperation chain ledger.nextHeight entry.operation
  return { pending with validated := some ⟨anchor, state⟩ }

end PendingPool

/-- The anchor of a ledger. -/
def Ledger.pendingAnchor (l : Ledger) : Except NodeError PendingAnchor := do
  let root ← l.stateRoot.mapError .ledger
  return (l.chain.tipHash, root)

/-! ## Histories -/

/-- An anchor stands for one state and one height among the ledgers in question. -/
def Anchored (ledgers : Set Ledger) : Prop :=
  ∀ l ∈ ledgers, ∀ l' ∈ ledgers, ∀ anchor, l.pendingAnchor = .ok anchor →
    l'.pendingAnchor = .ok anchor →
    l.state = l'.state ∧ l.nextHeight = l'.nextHeight

namespace PendingPool

/-- The pools of a node. Entries read from storage are pushed unchecked; an extension gets an entry
that has passed `validateRelay`, and the anchor of the ledger it is made on. -/
inductive Built (context : Except NodeError ChainContext) (ledgers : Set Ledger) :
    PendingPool → Prop
  | empty : Built context ledgers .empty
  | push {pool pool' : PendingPool} {entry : PendingEntry} (h : Built context ledgers pool)
      (hpush : pool.push entry = .ok pool') : Built context ledgers pool'
  | extend {pool pool' : PendingPool} {entry : PendingEntry} {ledger : Ledger}
      {anchor : PendingAnchor} (h : Built context ledgers pool) (hledger : ledger ∈ ledgers)
      (hanchor : ledger.pendingAnchor = .ok anchor) (hrelay : entry.validateRelay = .ok ())
      (hextend : pool.extend context ledger entry anchor = .ok pool') :
      Built context ledgers pool'

variable {context : Except NodeError ChainContext} {ledgers : Set Ledger} {pool pool' : PendingPool}
  {entry : PendingEntry} {ledger : Ledger} {anchor : PendingAnchor}

/-- The limits of a pool: no operation twice, total size, number. -/
structure Limits (entries : List PendingEntry) : Prop where
  distinct : (entries.map PendingEntry.id).Nodup
  size_le : (entries.map fun entry => entry.bytes.length).sum ≤ maxStoredMempoolSize
  length_le : entries.length ≤ maxMempoolTransactions

/-- The counters of a pool are those of its list, and the list is within the limits. -/
structure Consistent (pool : PendingPool) : Prop where
  mem_ids : ∀ id, pool.ids.contains id = true ↔ id ∈ pool.entries.map PendingEntry.id
  totalBytes_eq : pool.totalBytes.val = (pool.entries.map fun entry => entry.bytes.length).sum
  limits : Limits pool.entries

/-- The list with one entry more. -/
def appended (pool : PendingPool) (entry : PendingEntry) : PendingPool :=
  { pool with entries := pool.entries ++ [entry] }

theorem push_eq_ok : pool.push entry = .ok pool' ↔ ¬ pool.ids.contains entry.id = true ∧
    ∃ total : U64, total.val = pool.totalBytes.val + entry.bytes.length ∧
      total.val ≤ maxStoredMempoolSize ∧
      pool.entries.length < maxMempoolTransactions ∧
      pool' = ⟨pool.entries ++ [entry], pool.ids.insert entry.id (), total,
        hashBytes (pool.fingerprint.bytes ++ entry.id.bytes), none⟩ := by
  simp only [push, bind_eq_ok, rejectIf_eq_ok, okOr_eq_ok, ofNat?_eq_some, return_eq_ok, not_or,
    gt_iff_lt, not_lt, ge_iff_le, not_le, exists_const, and_assoc, @eq_comm _ pool']

theorem push_ok (h : pool.push entry = .ok pool') :
    pool'.entries = pool.entries ++ [entry] ∧ pool'.validated = none := by
  obtain ⟨_, _, _, _, _, rfl⟩ := push_eq_ok.mp h
  exact ⟨rfl, rfl⟩

omit [Crypto] in
theorem limits_append {entries : List PendingEntry} (h : Limits entries) :
    Limits (entries ++ [entry]) ↔
    entry.id ∉ entries.map PendingEntry.id ∧
      (entries.map fun entry => entry.bytes.length).sum + entry.bytes.length ≤
      maxStoredMempoolSize ∧
      entries.length < maxMempoolTransactions := by
  have hdistinct : ((entries ++ [entry]).map PendingEntry.id).Nodup ↔
      entry.id ∉ entries.map PendingEntry.id := by
    rw [map_append, map_singleton, ← concat_eq_append, nodup_concat]
    exact and_iff_left h.distinct
  have hsize : ((entries ++ [entry]).map fun entry => entry.bytes.length).sum =
      (entries.map fun entry => entry.bytes.length).sum + entry.bytes.length := by
    simp
  have hlength : (entries ++ [entry]).length = entries.length + 1 := by
    simp
  constructor
  · intro hlimits
    exact ⟨hdistinct.mp hlimits.distinct, hsize ▸ hlimits.size_le,
      Nat.lt_of_lt_of_eq (Nat.lt_succ_self _)
      hlength.symm |>.trans_le hlimits.length_le⟩
  · rintro ⟨hnew, hle, hlt⟩
    exact ⟨hdistinct.mpr hnew, hsize ▸ hle, hlength ▸ hlt⟩

theorem Consistent.push_iff (h : Consistent pool) :
    (∃ pool', pool.push entry = .ok pool') ↔ Limits (pool.entries ++ [entry]) := by
  rw [limits_append h.limits, ← h.mem_ids, ← h.totalBytes_eq]
  constructor
  · rintro ⟨pool', hpush⟩
    obtain ⟨hnew, total, htotal, hsize, hlength, _⟩ := push_eq_ok.mp hpush
    exact ⟨hnew, htotal ▸ hsize, hlength⟩
  · rintro ⟨hnew, hsize, hlength⟩
    have hmax : maxStoredMempoolSize < 2 ^ 64 := by decide
    have hfits : pool.totalBytes.val + entry.bytes.length < 2 ^ 64 := hsize.trans_lt hmax
    exact ⟨_, push_eq_ok.mpr ⟨hnew, ⟨_, hfits⟩, rfl, hsize, hlength, rfl⟩⟩

theorem Consistent.push (h : Consistent pool) (hpush : pool.push entry = .ok pool') :
    Consistent pool' := by
  have hlimits := h.push_iff.mp ⟨pool', hpush⟩
  obtain ⟨_, total, htotal, _, _, rfl⟩ := push_eq_ok.mp hpush
  refine ⟨fun id => ?_, ?_, hlimits⟩
  · have hids := h.mem_ids id
    simp only [OrderedMap.contains, get?_insert, map_append, map_singleton, mem_append,
      mem_singleton] at hids ⊢
    split_ifs with heq
    · simp [heq]
    · rw [hids]
      simp [heq]
  · rw [htotal, h.totalBytes_eq]
    simp

theorem replay_append {pushed : PendingPool} (hentries : pushed.entries = pool.entries ++ [entry])
    (hrelay : entry.validateRelay = .ok ()) (state : LedgerState) :
    pushed.replay context ledger = .ok state ↔ ∃ before chain,
      pool.replay context ledger = .ok before ∧
      context = .ok chain ∧
      before.applyPendingOperation chain ledger.nextHeight entry.operation = .ok state := by
  simp only [replay, bind_eq_ok, hentries, foldlM_append, foldlM_cons, foldlM_nil,
    replayEntry, hrelay, ok_bind, return_eq_ok]
  constructor
  · rintro ⟨chain, hchain, before, hbefore, after, happly, rfl⟩
    exact ⟨before, chain, ⟨chain, hchain, hbefore⟩, hchain, happly⟩
  · rintro ⟨before, chain, ⟨chain', hchain', hbefore⟩, hchain, happly⟩
    obtain rfl : chain' = chain := Except.ok.inj (hchain'.symm.trans hchain)
    exact ⟨chain', hchain, before, hbefore, state, happly, rfl⟩

theorem replay_congr {l l' : Ledger} (hstate : l.state = l'.state)
    (hheight : l.nextHeight = l'.nextHeight) : pool.replay context l = pool.replay context l' := by
  rw [replay, replay, hstate, hheight]

/-- The state carried is that of a replay on a ledger with the anchor. -/
def Validated (context : Except NodeError ChainContext) (ledgers : Set Ledger)
    (pool : PendingPool) : Prop :=
  ∀ v, pool.validated = some v →
    ∃ l ∈ ledgers, l.pendingAnchor = .ok v.anchor ∧ pool.replay context l = .ok v.state

theorem Validated.startState (h : Validated context ledgers pool) (hanchored : Anchored ledgers)
    (hledger : ledger ∈ ledgers) (hanchor : ledger.pendingAnchor = .ok anchor) :
    pool.startState context ledger anchor = pool.replay context ledger := by
  rw [PendingPool.startState]
  split
  · rename_i v hv
    rw [Option.filter_eq_some_iff, decide_eq_true_eq] at hv
    obtain ⟨l, hl, hlanchor, hreplay⟩ := h v hv.1
    obtain ⟨hstate, hheight⟩ := hanchored l hl ledger hledger anchor (hv.2 ▸ hlanchor) hanchor
    rw [← replay_congr hstate hheight, hreplay]
  · rfl

theorem extend_eq_ok (hstart : pool.startState context ledger anchor = pool.replay context ledger)
    (hrelay : entry.validateRelay = .ok ()) :
    pool.extend context ledger entry anchor = .ok pool' ↔ ∃ pushed state,
      pool.push entry = .ok pushed ∧
      pushed.replay context ledger = .ok state ∧
      pool' = { pushed with validated := some ⟨anchor, state⟩ } := by
  simp only [extend, bind_eq_ok, hstart, return_eq_ok]
  constructor
  · rintro ⟨pushed, hpush, before, hbefore, chain, hchain, state, happly, rfl⟩
    exact ⟨pushed, state, hpush, (replay_append (push_ok hpush).1 hrelay state).mpr
      ⟨before, chain, hbefore, hchain, happly⟩, rfl⟩
  · rintro ⟨pushed, state, hpush, hreplay, rfl⟩
    obtain ⟨before, chain, hbefore, hchain, happly⟩ :=
      (replay_append (push_ok hpush).1 hrelay state).mp hreplay
    exact ⟨pushed, hpush, before, hbefore, chain, hchain, state, happly, rfl⟩

/-- A push drops the carried state; an extension carries on the state of a replay on its ledger. -/
theorem Built.validated (h : Built context ledgers pool) (hanchored : Anchored ledgers) :
    Consistent pool ∧ Validated context ledgers pool := by
  induction h with
  | empty =>
    exact ⟨⟨by simp [PendingPool.empty, OrderedMap.contains], rfl,
      ⟨nodup_nil, Nat.zero_le _, Nat.zero_le _⟩⟩, fun v hv => nomatch hv⟩
  | push _ hpush ih =>
    refine ⟨ih.1.push hpush, fun v hv => ?_⟩
    rw [(push_ok hpush).2] at hv
    cases hv
  | @extend pool pool' entry ledger anchor _ hledger hanchor hrelay hextend ih =>
    obtain ⟨pushed, state, hpush, hreplay, rfl⟩ :=
      (extend_eq_ok (ih.2.startState hanchored hledger hanchor) hrelay).mp hextend
    have hcons := ih.1.push hpush
    refine ⟨⟨hcons.mem_ids, hcons.totalBytes_eq, hcons.limits⟩, ?_⟩
    rintro _ ⟨⟩
    exact ⟨ledger, hledger, hanchor, hreplay⟩

/-- An extension accepts an entry exactly when the list with it is within the limits and replays on
the ledger, and it carries on the state of that replay. -/
theorem Built.extend_iff_replay (hbuilt : Built context ledgers pool) (hanchored : Anchored ledgers)
    (hledger : ledger ∈ ledgers) (hanchor : ledger.pendingAnchor = .ok anchor)
    (hrelay : entry.validateRelay = .ok ()) :
    ((∃ pool', pool.extend context ledger entry anchor = .ok pool') ↔
      Limits (pool.entries ++ [entry]) ∧ ∃ state,
      (pool.appended entry).replay context ledger = .ok state) ∧
    ∀ pool', pool.extend context ledger entry anchor = .ok pool' →
      pool'.entries = pool.entries ++ [entry] ∧
      ∃ state, pool'.validated = some ⟨anchor, state⟩ ∧
        (pool.appended entry).replay context ledger = .ok state := by
  obtain ⟨hcons, hvalidated⟩ := hbuilt.validated hanchored
  have hstart := hvalidated.startState hanchored hledger hanchor
  have hwhole : ∀ {pushed}, pool.push entry = .ok pushed →
      pushed.replay context ledger = (pool.appended entry).replay context ledger := fun hpush => by
    rw [replay, replay, (push_ok hpush).1, appended]
  constructor
  · rw [← hcons.push_iff]
    constructor
    · rintro ⟨pool', hextend⟩
      obtain ⟨pushed, state, hpush, hreplay, _⟩ := (extend_eq_ok hstart hrelay).mp hextend
      exact ⟨⟨pushed, hpush⟩, state, hwhole hpush ▸ hreplay⟩
    · rintro ⟨⟨pushed, hpush⟩, state, hreplay⟩
      exact ⟨_, (extend_eq_ok hstart hrelay).mpr ⟨pushed, state, hpush,
        hwhole hpush ▸ hreplay, rfl⟩⟩
  · intro pool' hextend
    obtain ⟨pushed, state, hpush, hreplay, rfl⟩ := (extend_eq_ok hstart hrelay).mp hextend
    exact ⟨(push_ok hpush).1, state, rfl, hwhole hpush ▸ hreplay⟩

end PendingPool

end

/-! ## A sample pool

The account of a key mines three blocks and pays out of each of its coins. The first payment is
added on the ledger of two blocks, the others on that of three: the second finds a state that was
carried under another anchor, the third the one of the ledger itself. -/

section Sample

attribute [local instance] Crypto.checksum

structure SampleExtension where
  chain : ChainContext
  earlier : Ledger
  anchor : PendingAnchor
  ledger : Ledger
  anchor' : PendingAnchor
  entry : PendingEntry
  before : PendingPool
  pool : PendingPool

/-- A payment out of the coin of a block, after the checks of the relay. -/
def relayed (b : Block) : Except NodeError PendingEntry := do
  let entry ← PendingEntry.new (Ledger.payerPayment b)
  entry.validateRelay
  return entry

def sampleExtension : Except NodeError SampleExtension := do
  let start ← Ledger.sampleStart.mapError .ledger
  let (b₁, l₁) ← start.mine Ledger.payer []
  let (b₂, earlier) ← l₁.mine Ledger.payer []
  let (b₃, ledger) ← earlier.mine Ledger.payer []
  let chain ← okOr ledger.chainContext (.message "canonical genesis is missing")
  let anchor ← earlier.pendingAnchor
  let anchor' ← ledger.pendingAnchor
  let first ← relayed b₁
  let second ← relayed b₂
  let entry ← relayed b₃
  let one ← PendingPool.empty.extend (.ok chain) earlier first anchor
  let before ← one.extend (.ok chain) ledger second anchor'
  let pool ← before.extend (.ok chain) ledger entry anchor'
  return ⟨chain, earlier, anchor, ledger, anchor', entry, before, pool⟩

theorem validateRelay_of_relayed {b : Block} {entry : PendingEntry} (h : relayed b = .ok entry) :
    entry.validateRelay = .ok () := by
  simp only [relayed, bind_eq_ok, pure_eq_ok, Except.ok.injEq] at h
  obtain ⟨_, _, _, hrelay, rfl⟩ := h
  exact hrelay

/-- The state of the first two entries is carried, and the third is applied to it. -/
theorem sampleExtension_replays : ∃ e carried state, sampleExtension = .ok e ∧
    e.before.entries.length = 2 ∧ e.before.validated = some ⟨e.anchor', carried⟩ ∧
    e.pool.validated = some ⟨e.anchor', state⟩ ∧
    (e.before.appended e.entry).replay (.ok e.chain) e.ledger = .ok state := by
  have hshape : (sampleExtension.toOption.any fun e =>
      decide (e.anchor ≠ e.anchor' ∧ e.before.entries.length = 2)) = true := by decide +kernel
  obtain ⟨e, he, hshape⟩ := exists_of_any hshape
  obtain ⟨hne, hlength⟩ := of_decide_eq_true hshape
  have hrun := he
  simp only [sampleExtension, bind_eq_ok, mapError_eq_ok, okOr_eq_ok, pure_eq_ok, Except.ok.injEq]
    at hrun
  obtain ⟨_, _, ⟨_, _⟩, _, ⟨_, earlier⟩, _, ⟨_, ledger⟩, _, chain, _, anchor, hanchor, anchor',
    hanchor', first, hfirst, second, hsecond, entry, hentry, one, hone, before, hbefore, pool,
      hpool, rfl⟩ := hrun
  -- the two anchors differ, so each stands for its own ledger
  have hanchored : Anchored {earlier, ledger} := by
    rintro l (rfl | rfl) l' (rfl | rfl) a ha ha'
    · exact ⟨rfl, rfl⟩
    · exact absurd (Except.ok.inj (hanchor.symm.trans ha) ▸
        Except.ok.inj (ha'.symm.trans hanchor')) hne
    · exact absurd (Except.ok.inj (hanchor.symm.trans ha') ▸
        Except.ok.inj (ha.symm.trans hanchor')) hne
    · exact ⟨rfl, rfl⟩
  have hbuilt : PendingPool.Built (.ok chain) {earlier, ledger} one :=
    .extend .empty (.inl rfl) hanchor (validateRelay_of_relayed hfirst) hone
  have hbuilt' : PendingPool.Built (.ok chain) {earlier, ledger} before :=
    .extend hbuilt (.inr rfl) hanchor' (validateRelay_of_relayed hsecond) hbefore
  obtain ⟨_, carried, hcarried, _⟩ :=
    (PendingPool.Built.extend_iff_replay hbuilt hanchored (.inr rfl) hanchor'
    (validateRelay_of_relayed hsecond)).2 before hbefore
  obtain ⟨_, state, hvalidated, hreplay⟩ :=
    (PendingPool.Built.extend_iff_replay hbuilt' hanchored (.inr rfl)
    hanchor' (validateRelay_of_relayed hentry)).2 pool hpool
  exact ⟨_, carried, state, he, hlength, hcarried, hvalidated, hreplay⟩

end Sample

end Xparq
