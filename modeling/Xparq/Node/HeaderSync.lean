import Xparq.Node.Messages

/-!
# Header synchronization

A client asks for headers with a locator: hashes of its own chain, dense at the tip and sparse
below. The server answers with the highest block of its chain that is in the locator and up to 32
headers above it, or with the completion message when there are none. The client verifies every
chunk and asks again from the new tip.
-/

namespace Xparq

open Machine Outcome OrderedMap List

def maxSyncHeaders : Nat := 100000
def maxHeaderRequestsPerSession : Nat :=
  (maxSyncHeaders + maxHeaderChainChunkHeaders - 1) / maxHeaderChainChunkHeaders + 1

structure ChainMinimums where
  work : Work
  weight : U64

def ChainMinimums.allows (minimums : ChainMinimums) (work : Work) (weight : U64) : Bool :=
  minimums.work ≤ work ∧ minimums.weight ≤ weight

/-- The part of a handshake that describes the chain. -/
structure Handshake where
  tipHeight : Height
  tipHash : BlockHash
  cumulativeWork : Work
  cumulativeWeight : U64

structure HeaderSyncResult where
  ancestorHeight : Height
  ancestorHash : BlockHash
  headers : List HeaderAtHeight
  peerWork : Work
  peerWeight : U64
  preferred : Bool
  deriving DecidableEq

section
variable [Crypto]

def localHandshake (cached : CachedLedger) : Except PeerError Handshake := do
  let tipHash ← okOr cached.ledger.chain.tipHash (.message "local chain has no canonical tip")
  return ⟨cached.ledger.chain.tipHeight.getD 0, tipHash, cached.cumulativeWork,
    cached.cumulativeWeight⟩

/-! ## The locator -/

/-- `saturating_sub`. -/
def Height.back (h : Height) (step : U64) : Height := ⟨h.val - step.val, by omega⟩

/-- The entries from a height down. `more` entries fit after the first; the step doubles from the
tenth entry on. -/
def locatorFrom (chain : Chain) : (more : Nat) → Height → (step : U64) →
    Except PeerError (List (BlockHash × Height))
  | 0, height, _ => do
      let header ← headerAt chain height "canonical header is missing"
      return [(header.hash, height)]
  | more + 1, height, step => do
      let header ← headerAt chain height "canonical header is missing"
      if height = 0 then return [(header.hash, height)]
      let length := maxLocatorHashes - 2 - more
      let rest ← locatorFrom chain more (height.back step)
        (if length ≥ 10 then saturatingAdd step step else step)
      return (header.hash, height) :: rest

def ledgerHeaderLocator (genesis : BlockHash) (l : Ledger) :
    Except PeerError (List (BlockHash × Height)) := do
  let tip ← okOr l.chain.tipHeight (.message "local header chain is empty")
  let locator ← locatorFrom l.chain (maxLocatorHashes - 2) tip 1
  return if locator.getLast?.map Prod.fst = some genesis then locator else locator ++ [(genesis, 0)]

/-! ## The server -/

/-- The loop of the server: requests so far, and whether it has ended. -/
structure HeaderServer where
  requests : Nat
  finished : Bool

/-- The highest block at or below the height that is in the locator. -/
def findAncestor (chain : Chain) (locator : List BlockHash) :
    Nat → Except PeerError (Height × BlockHash)
  | 0 => do
      let header ← headerAt chain 0 "canonical block is missing"
      if header.hash ∈ locator then return (0, header.hash)
      throw (.message "peer locator has no canonical common ancestor")
  | n + 1 => do
      let height : Height := Fin.ofNat (2 ^ 64) (n + 1)
      let header ← headerAt chain height "canonical block is missing"
      if header.hash ∈ locator then return (height, header.hash)
      findAncestor chain locator n

/-- One iteration of `serve_header_requests`. After the completion message the session is in its
block phase, which knows no header requests. -/
def serveHeaderRequest (l : Ledger) (tipHeight : Height) :
    RequestTree.Handler wire PeerError HeaderServer :=
  fun frame server => do
    rejectIf (server.finished = true) (.message "invalid block-session message")
    let requests := server.requests + 1
    rejectIf (requests > maxHeaderRequestsPerSession)
      (.message "peer exceeded the header request limit")
    let request ← readFrame frame (2 + maxLocatorHashes * 32)
    let locator ← decodeLocator request
    let (ancestorHeight, ancestorHash) ← findAncestor l.chain locator tipHeight.val
    let extension ← ((heightsFrom (ancestorHeight.val + 1) tipHeight).take
      maxHeaderChainChunkHeaders).mapM
      fun height => (headerAt l.chain height "canonical block is missing").map
        (HeaderAtHeight.mk height)
    if extension = [] then
      let response ← writeFrame (headersCompleteMessage :: ancestorHash.bytes)
      return (response, ⟨requests, true⟩)
    let chunk ← (HeaderChainChunk.new extension).mapError .chunk
    let chunk ← okOr chunk.encode (.codec .encodeFailed)
    let response ← writeFrame (headersMessage :: (ancestorHash.bytes ++ chunk))
    return (response, ⟨requests, false⟩)

/-! ## The client -/

/-- What the loop of `synchronize_headers` carries along. -/
structure HeaderSync where
  validationState : Option HeaderValidationState
  ancestorHeight : Option Height
  ancestorHash : Option BlockHash
  downloaded : List HeaderAtHeight
  requestLocator : List BlockHash
  verifiedHeaders : Nat

def HeaderSync.start (localLocator : List (BlockHash × Height)) : HeaderSync :=
  ⟨none, none, none, [], localLocator.map Prod.fst, 0⟩

def mapPeerHeaderError (error : HeaderChainError) : PeerError :=
  match error with
  | .invalidHeaderChain (.invalidProofOfWork _) => .headers "peer-invalid-pow: " error
  | _ => .headers "peer header extension is invalid: " error

/-- Message tag, ancestor and the rest. -/
def splitResponse : List Byte → Except PeerError (Byte × BlockHash × List Byte)
  | [] => .error (.message "empty header response")
  | message :: body => do
      rejectIf (body.length < 32) (.message "header response has no ancestor")
      return (message, Hash.ofBytes (body.take 32), body.drop 32)

/-- The state at a block of the local locator. -/
def stateInLocator (node : CachedLedger) (localLocator : List (BlockHash × Height))
    (ancestor : BlockHash) (text : String) : Except PeerError HeaderValidationState := do
  let height ← okOr (localLocator.findSome? fun e => if e.1 = ancestor then some e.2
    else none) (.message text)
  ledgerHeaderStateAtHeight node.ledger node.headerCheckpoints height

/-- The verified state, or the one to start from. -/
def HeaderSync.stateOr (sync : HeaderSync) (initial : Except PeerError HeaderValidationState) :
    Except PeerError HeaderValidationState :=
  match sync.validationState with
  | some state => .ok state
  | none => initial

/-- The peer has no more headers. -/
def HeaderSync.complete (node : CachedLedger) (minimums : ChainMinimums) (peer : Handshake)
    (localLocator : List (BlockHash × Height)) (sync : HeaderSync) (ancestor : BlockHash) :
    Except PeerError HeaderSyncResult := do
  let state ← sync.stateOr
    (stateInLocator node localLocator ancestor "common ancestor is not in the local locator")
  rejectIf (state.header.hash ≠ ancestor)
    (.message "peer completion does not match verified header tip")
  rejectIf (state.header.hash ≠ peer.tipHash ∨ state.cumulativeWork ≠ peer.cumulativeWork ∨
    state.cumulativeWeight ≠ peer.cumulativeWeight)
    (.message "peer handshake tip/work does not match verified headers")
  let localHash ← okOr node.ledger.chain.tipHash (.message "local header chain has no tip")
  return {
    ancestorHeight := sync.ancestorHeight.getD state.height
    ancestorHash := sync.ancestorHash.getD ancestor
    headers := sync.downloaded
    peerWork := state.cumulativeWork
    peerWeight := state.cumulativeWeight
    preferred := minimums.allows state.cumulativeWork state.cumulativeWeight ∧
      compareChainTips state.cumulativeWork state.cumulativeWeight peer.tipHash node.cumulativeWork
        node.cumulativeWeight localHash = .gt }

/-- The state that a chunk has to continue. -/
def HeaderSync.current (node : CachedLedger) (localLocator : List (BlockHash × Height))
    (sync : HeaderSync) (ancestor : BlockHash) : Except PeerError HeaderValidationState :=
  match sync.validationState with
  | some current => do
      rejectIf (current.header.hash ≠ ancestor)
        (.message "peer changed common ancestor during header sync")
      return current
  | none => stateInLocator node localLocator ancestor
    "peer response ancestor is not in the local locator"

/-- A chunk of headers. -/
def HeaderSync.advance (node : CachedLedger) (localLocator : List (BlockHash × Height))
    (genesis : BlockHash) (sync : HeaderSync) (ancestor : BlockHash) (body : List Byte) :
    Except PeerError HeaderSync := do
  let chunk ← (decodeHeaderChainChunk body).mapError .chunk
  let current ← sync.current node localLocator ancestor
  let advanced ← (advanceHeaderValidationState verifyPow current chunk.headers).mapError
    mapPeerHeaderError
  let verifiedHeaders := sync.verifiedHeaders + chunk.headers.length
  rejectIf (verifiedHeaders ≥ 2 ^ 64) (.message "verified header count overflow")
  rejectIf (verifiedHeaders > maxSyncHeaders)
    (.message "header synchronization exceeds session limit")
  return {
    validationState := some advanced
    ancestorHeight := if sync.ancestorHeight = none then some current.height
      else sync.ancestorHeight
    ancestorHash := if sync.ancestorHeight = none then some ancestor else sync.ancestorHash
    downloaded := sync.downloaded ++ chunk.headers
    requestLocator := [advanced.header.hash, genesis]
    verifiedHeaders }

def HeaderSync.receive (node : CachedLedger) (minimums : ChainMinimums) (peer : Handshake)
    (localLocator : List (BlockHash × Height)) (genesis : BlockHash) (sync : HeaderSync)
    (response : List Byte) : Except PeerError (HeaderSync ⊕ HeaderSyncResult) := do
  let (message, ancestor, body) ← splitResponse response
  if message = headersCompleteMessage then
    (sync.complete node minimums peer localLocator ancestor).map .inr
  else do
    rejectIf (message ≠ headersMessage) (.message "unexpected P2P message during header sync")
    (sync.advance node localLocator genesis ancestor body).map .inl

/-- One iteration of the loop. -/
def HeaderSync.round (node : CachedLedger) (minimums : ChainMinimums) (peer : Handshake)
    (localLocator : List (BlockHash × Height)) (genesis : BlockHash) (sync : HeaderSync) :
    RequestTree wire PeerError (HeaderSync ⊕ HeaderSyncResult) := do
  let request ← RequestTree.lift (encodeLocator sync.requestLocator)
  let response ← exchange request (33 + maxHeaderChainChunkSize)
  RequestTree.lift (sync.receive node minimums peer localLocator genesis response)

/-- A peer below the configured minimums is not asked. -/
def ignoredChain (node : CachedLedger) (peer : Handshake) : Except PeerError HeaderSyncResult := do
  let ancestorHeight ← okOr node.ledger.chain.tipHeight (.message "local chain has no tip")
  let ancestorHash ← okOr node.ledger.chain.tipHash (.message "local chain has no tip")
  return ⟨ancestorHeight, ancestorHash, [], peer.cumulativeWork, peer.cumulativeWeight, false⟩

/-- `synchronize_headers`, for at most `limit` rounds of its loop. -/
def synchronizeHeaders (genesis : BlockHash) (node : CachedLedger) (minimums : ChainMinimums)
    (peer : Handshake) (limit : Nat) : RequestTree wire PeerError (Option HeaderSyncResult) :=
  if minimums.allows peer.cumulativeWork peer.cumulativeWeight = false then
    RequestTree.lift ((ignoredChain node peer).map some)
  else do
    let localLocator ← RequestTree.lift (ledgerHeaderLocator genesis node.ledger)
    RequestTree.rounds (HeaderSync.round node minimums peer localLocator genesis) limit
      (.start localLocator)

/-! ## What is in a locator -/

variable {c : Chain} {blocks : List Block} {first : Block} {rest : List Block} {l : Ledger}

/-- Whatever the spacing, every step down arrives at a header of the chain. -/
theorem exists_locatorFrom (h : c.HeadersOf blocks) (more : Nat) {height : Height} (step : U64)
    (hheight : height.val < blocks.length) :
    ∃ locator, locatorFrom c more height step = .ok locator ∧ locator.length ≤ more + 1 ∧
      ∀ e ∈ locator, ∃ b ∈ blocks, e = (b.hash, b.height) := by
  induction more generalizing height step with
  | zero =>
    have hb := getElem?_eq_getElem hheight
    have hread := fun text => h.headerAt_eq (mem_of_getElem? hb) text
    have heq : blocks[height.val].height = height := Fin.ext (h.height hb)
    rw [heq] at hread
    refine ⟨[(blocks[height.val].hash, height)], by rw [locatorFrom, hread]; rfl, le_rfl, ?_⟩
    intro e he
    exact ⟨_, mem_of_getElem? hb, by rw [mem_singleton.mp he, heq]⟩
  | succ more ih =>
    have hb := getElem?_eq_getElem hheight
    have hread := fun text => h.headerAt_eq (mem_of_getElem? hb) text
    have heq : blocks[height.val].height = height := Fin.ext (h.height hb)
    rw [heq] at hread
    have hhead : ∃ b ∈ blocks, (blocks[height.val].header.hash, height) = (b.hash, b.height) :=
      ⟨_, mem_of_getElem? hb, by rw [heq]; rfl⟩
    by_cases hzero : height = 0
    · refine ⟨[(blocks[height.val].header.hash, height)], ?_,
        by simp, forall_mem_singleton.mpr hhead⟩
      rw [locatorFrom, hread, ok_bind, if_pos hzero]
      rfl
    · obtain ⟨locator, hlocator, hlength, hmem⟩ := @ih (height.back step)
        (if maxLocatorHashes - 2 - more ≥ 10 then saturatingAdd step step else step)
        (lt_of_le_of_lt (Nat.sub_le _ _) hheight)
      refine ⟨(blocks[height.val].header.hash, height) :: locator, ?_, by simpa using hlength,
        forall_mem_cons.mpr ⟨hhead, hmem⟩⟩
      rw [locatorFrom, hread, ok_bind, if_neg hzero]
      simp only [hlocator, ok_bind, pure_eq_ok]

theorem exists_ledgerHeaderLocator (h : l.chain.HeadersOf (first :: rest)) :
    ∃ locator, ledgerHeaderLocator first.hash l = .ok locator ∧ locator.length ≤ maxLocatorHashes ∧
      (∀ e ∈ locator, ∃ b ∈ first :: rest, e = (b.hash, b.height)) ∧
      first.hash ∈ locator.map Prod.fst := by
  obtain ⟨last, hlast⟩ : ∃ last, (first :: rest).getLast? = some last :=
    Option.isSome_iff_exists.mp (by simp)
  have htip := (h.tip last hlast).1
  have hheight : last.height.val < (first :: rest).length := by
    rw [getLast?_eq_getElem?] at hlast
    rw [h.height hlast]
    exact Nat.sub_lt (by simp) Nat.one_pos
  obtain ⟨locator, hlocator, hlength, hmem⟩ := exists_locatorFrom h (maxLocatorHashes - 2) 1 hheight
  rw [ledgerHeaderLocator, htip]
  simp only [okOr, ok_bind, hlocator, return_eq_ok, exists_eq_left']
  split_ifs with hgenesis
  · refine ⟨le_trans hlength (by decide), hmem, ?_⟩
    obtain ⟨e, he, heq⟩ := Option.map_eq_some_iff.mp hgenesis
    exact mem_map.mpr ⟨e, mem_of_getLast? he, heq⟩
  · refine ⟨?_, ?_, by simp⟩
    · rw [length_append, length_singleton]
      exact le_trans (Nat.succ_le_succ hlength) (by decide)
    · intro e he
      rcases mem_append.mp he with he | he
      · exact hmem e he
      · exact ⟨first, mem_cons_self, by rw [mem_singleton.mp he, h.first_height]⟩

/-! ## The answer of the server -/

/-- The highest of the blocks that is in the locator. -/
structure HighestIn (blocks : List Block) (locator : List BlockHash) (i : Nat) (b : Block) :
    Prop where
  block : blocks[i]? = some b
  mem : b.hash ∈ locator
  highest : ∀ j b', blocks[j]? = some b' → b'.hash ∈ locator → j ≤ i

variable {locator : List BlockHash} {i : Nat} {b : Block}

theorem exists_highestIn (rest : List Block) (h : first.hash ∈ locator) :
    ∃ i b, HighestIn (first :: rest) locator i b := by
  classical
  let common : Nat → Prop := fun i => ∃ b, (first :: rest)[i]? = some b ∧ b.hash ∈ locator
  have hbound : ∀ j, common j → j ≤ (first :: rest).length := by
    rintro j ⟨b', hb', _⟩
    exact (List.getElem?_eq_some_iff.mp hb').1.le
  obtain ⟨b, hb, hmem⟩ :=
    Nat.findGreatest_spec (P := common) (Nat.zero_le (first :: rest).length) ⟨first, rfl, h⟩
  refine ⟨_, b, hb, hmem, fun j b' hb' hmem' => ?_⟩
  exact Nat.le_findGreatest (P := common) (hbound j ⟨b', hb', hmem'⟩) ⟨b', hb', hmem'⟩

theorem findAncestor_eq {a : Height} {header : Header} (ha : c.header a = some header)
    (hmem : header.hash ∈ locator) {n : Nat} (hn : n < 2 ^ 64) (han : a.val ≤ n)
    (habove : ∀ k : Height, a < k → k.val ≤ n → ∃ h, c.header k = some h ∧ h.hash ∉ locator) :
    findAncestor c locator n = .ok (a, header.hash) := by
  induction n with
  | zero =>
    obtain rfl : a = 0 := Fin.ext (Nat.le_zero.mp han)
    rw [findAncestor, headerAt, ha, okOr, ok_bind, if_pos hmem]
    rfl
  | succ n ih =>
    have hval : (Fin.ofNat (2 ^ 64) (n + 1)).val = n + 1 := Nat.mod_eq_of_lt hn
    rcases Nat.eq_or_lt_of_le han with heq | hlt
    · obtain rfl : a = Fin.ofNat (2 ^ 64) (n + 1) := Fin.ext (heq.trans hval.symm)
      rw [findAncestor, headerAt, ha, okOr, ok_bind, if_pos hmem]
      rfl
    · obtain ⟨h, hread, hother⟩ :=
        habove (Fin.ofNat (2 ^ 64) (n + 1)) (Fin.lt_def.mpr (hlt.trans_eq hval.symm)) hval.le
      rw [findAncestor, headerAt, hread, okOr, ok_bind, if_neg hother]
      exact ih (Nat.lt_of_succ_lt hn) (Nat.le_of_lt_succ hlt) fun k hk hkn =>
        habove k hk (Nat.le_succ_of_le hkn)

theorem HighestIn.findAncestor_eq (h : c.HeadersOf blocks) (hi : HighestIn blocks locator i b)
    {n : Nat} (hin : i ≤ n) (hn : n < blocks.length) :
    findAncestor c locator n = .ok (b.height, b.hash) := by
  have hlt := h.length_le
  have hheight := h.height hi.block
  refine Xparq.findAncestor_eq (h.header_eq hi.block) hi.mem (by omega) (by omega)
    fun k hk hkn => ?_
  have hb := getElem?_eq_getElem (hkn.trans_lt hn)
  refine ⟨blocks[k.val].header,
    by rw [Chain.header, h.headers, hb, Option.map_some], fun hmem => ?_⟩
  -- nothing above the highest common block is in the locator
  have hle := hi.highest _ _ hb hmem
  have hlt' := Fin.lt_def.mp hk
  omega

/-- The headers that are sent. -/
def chunkFrom (blocks : List Block) (i : Nat) : List HeaderAtHeight :=
  ((blocks.drop (i + 1)).take maxHeaderChainChunkHeaders).map Block.headerAtHeight

theorem HighestIn.serve {last : Block} (h : l.chain.HeadersOf blocks)
    (hlast : blocks.getLast? = some last) (hi : HighestIn blocks locator i b) {request : List Byte}
    (hrequest : encodeLocator locator = .ok request) {requests : Nat}
    (hlimit : requests < maxHeaderRequestsPerSession) :
    (chunkFrom blocks i = [] → serveHeaderRequest l last.height request ⟨requests, false⟩ =
      .ok (headersCompleteMessage :: b.hash.bytes, ⟨requests + 1, true⟩)) ∧
    (chunkFrom blocks i ≠ [] → ∃ chunk, decodeHeaderChainChunk chunk = .ok ⟨chunkFrom blocks i⟩ ∧
      chunk.length ≤ maxHeaderChainChunkSize ∧ serveHeaderRequest l last.height request
      ⟨requests, false⟩ =
        .ok (headersMessage :: (b.hash.bytes ++ chunk), ⟨requests + 1, false⟩)) := by
  obtain ⟨hdecode, hpos, hsize⟩ := decodeLocator_encodeLocator hrequest
  obtain ⟨hib, _⟩ := List.getElem?_eq_some_iff.mp hi.block
  have hend : last.height.val + 1 = blocks.length := by
    rw [getLast?_eq_getElem?] at hlast
    rw [h.height hlast]
    omega
  have hancestor := hi.findAncestor_eq h (n := last.height.val) (by omega) (by omega)
  have hextension : ((heightsFrom (b.height.val + 1) last.height).take
      maxHeaderChainChunkHeaders).mapM
      (fun height => (headerAt l.chain height "canonical block is missing").map
        (HeaderAtHeight.mk height)) =
        .ok (chunkFrom blocks i) := by
    rw [h.heightsFrom_eq (by omega), hend, take_length, h.height hi.block, ← map_take, mapM_map]
    refine mapM_eq_ok fun x hx => ?_
    rw [Function.comp_apply, h.headerAt_eq (mem_of_mem_drop (mem_of_mem_take hx))]
    rfl
  have hlength : (chunkFrom blocks i).length ≤ maxHeaderChainChunkHeaders := by
    rw [chunkFrom, length_map]
    exact length_take_le _ _
  have hbytes := Hash.length_bytes b.hash
  constructor
  · intro hempty
    have hroom : (headersCompleteMessage :: b.hash.bytes).length < 2 ^ 32 := by
      rw [length_cons, hbytes]
      decide
    simp only [serveHeaderRequest, Bool.false_eq_true, rejectIf, if_false, ok_bind,
      readFrame_ok hpos hsize, hdecode, if_neg (Nat.not_lt.mpr (Nat.succ_le_of_lt hlimit)),
        hancestor, hextension, hempty, if_true, writeFrame_ok hroom, pure_eq_ok]
  · intro hne
    obtain ⟨chunk, hchunk, hsmall, hback⟩ := decodeHeaderChainChunk_encode hne hlength
    have hroom : (headersMessage :: (b.hash.bytes ++ chunk)).length < 2 ^ 32 := by
      rw [maxHeaderChainChunkSize] at hsmall
      rw [length_cons, length_append, hbytes]
      omega
    refine ⟨chunk, hback, hsmall, ?_⟩
    simp only [serveHeaderRequest, Bool.false_eq_true, rejectIf, if_false, ok_bind,
      readFrame_ok hpos hsize, hdecode, if_neg (Nat.not_lt.mpr (Nat.succ_le_of_lt hlimit)),
        hancestor, hextension, if_neg hne,
      HeaderChainChunk.new_ok hne hlength, Except.mapError, hchunk, okOr, writeFrame_ok hroom,
        pure_eq_ok]

/-! ## States along the peer's chain -/

/-- The headers up to an index. -/
def headersTo (blocks : List Block) (i : Nat) :
    List HeaderAtHeight := (blocks.take (i + 1)).map Block.headerAtHeight

/-- Header verification of the blocks up to an index. -/
def WalksTo (first : Block) (rest : List Block) (i : Nat) (walk : HeaderWalk) : Prop :=
  ((rest.take i).map Block.headerAtHeight).foldlM (chainStep verifyPow)
    (.start first.headerAtHeight) = .ok walk

/-- The state is the one of the walk. At the last height of all its window may be longer. -/
structure HeaderValidationState.Stands (state : HeaderValidationState) (walk : HeaderWalk)
    (headers : List HeaderAtHeight) : Prop extends state.At walk headers where
  recent : headers.length < 2 ^ 64 → state.recentHeaders = walk.recent

variable {state : HeaderValidationState} {walk : HeaderWalk}

omit [Crypto] in
theorem HeaderValidationState.Covers.stands {headers : List HeaderAtHeight}
    (h : state.Covers walk headers) : state.Stands walk headers :=
  ⟨h.toAt, fun _ => h.recent⟩

omit [Crypto] in
theorem HeaderValidationState.Stands.tip (h : state.Stands walk (headersTo blocks i))
    (hb : blocks[i]? = some b) : state.height = b.height ∧ state.header = b.header := by
  have hlast := h.follows.last
  rw [headersTo, take_add_one, hb, Option.toList_some, map_append, map_singleton,
    getLast?_concat, Option.some.injEq] at hlast
  rw [h.height, h.header, ← hlast]
  exact ⟨rfl, rfl⟩

theorem HeaderValidationState.Stands.totals (h : state.Stands walk (headersTo (first :: rest) i))
    (hwalk : WalksTo first rest i walk) :
    HeaderTotals.zero.addAll (rest.take i) = .ok ⟨state.cumulativeWork,
      state.cumulativeWeight⟩ := by
  rw [HeaderTotals.addAll_of_walk (t := .zero) rfl hwalk, h.work, h.weight]
  rfl

theorem exists_stateAtHeight (h : l.chain.HeadersOf (first :: rest)) {checkpoints : CheckpointWalk}
    (hcheckpoints : checkpointWalk first.hash (first :: rest) = .ok checkpoints) {k : Height}
    (hb : (first :: rest)[k.val]? = some b) :
    ∃ state walk, ledgerHeaderStateAtHeight l checkpoints.checkpoints k = .ok state ∧
      WalksTo first rest k.val walk ∧ state.Stands walk (headersTo (first :: rest) k.val) := by
  obtain ⟨state, hstate, hheight, hheader, htotals, _, hrecent⟩ := h.stateAtHeight hcheckpoints hb
  obtain ⟨walk, hwalk, hfollows⟩ := h.exists_walk k.val
  rw [HeaderTotals.addAll_of_walk (t := .zero) rfl hwalk, Except.ok.injEq, HeaderTotals.mk.injEq]
    at htotals
  have hprevious : walk.previous = b.headerAtHeight := by
    have hlast := hfollows.last
    rw [take_add_one, hb, Option.toList_some, map_append, map_singleton, getLast?_concat,
      Option.some.injEq] at hlast
    exact hlast.symm
  refine ⟨state, walk, hstate, hwalk, ⟨hfollows, ?_, ?_, htotals.1.symm, htotals.2.symm⟩,
    fun hroom => ?_⟩
  · rw [hheight, hprevious]
    exact Fin.ext (h.height hb).symm
  · rw [hheader, hprevious]
    rfl
  · obtain ⟨hk, _⟩ := List.getElem?_eq_some_iff.mp hb
    rw [headersTo, length_map, length_take, Nat.min_eq_left hk] at hroom
    rw [hrecent hroom, hfollows.recent]

theorem WalksTo.congr {first' : Block} {rest' : List Block} (h : WalksTo first rest i walk)
    (heq : headersTo (first :: rest) i = headersTo (first' :: rest') i) :
    WalksTo first' rest' i walk := by
  rw [headersTo, headersTo, take_succ_cons, take_succ_cons, map_cons, map_cons] at heq
  obtain ⟨hfirst, hrest⟩ := List.cons.inj heq
  rwa [WalksTo, ← hfirst, ← hrest]

theorem HeaderValidationState.Stands.advance (h : c.HeadersOf (first :: rest))
    (hwalk : WalksTo first rest i walk) (hstate : state.Stands walk (headersTo (first :: rest) i))
    {n : Nat} (hpos : 0 < n) (hn : i + n ≤ rest.length) :
    ∃ state' walk', advanceHeaderValidationState verifyPow state
      (((rest.drop i).take n).map Block.headerAtHeight) =
        .ok state' ∧ WalksTo first rest (i + n) walk' ∧
      state'.Stands walk' (headersTo (first :: rest) (i + n)) := by
  have hlength := h.length_le
  rw [length_cons] at hlength
  have hroom : (headersTo (first :: rest) i).length < 2 ^ 64 := by
    rw [headersTo, length_map, length_take, length_cons]
    omega
  have hcovers : state.Covers walk (headersTo (first :: rest) i) :=
    ⟨hstate.toAt, hstate.recent hroom⟩
  have hsplit : rest.take (i + n) = rest.take i ++ (rest.drop i).take n := take_add
  obtain ⟨walk', hwalk', _⟩ := h.exists_walk (i + n)
  have hbatch := hwalk'
  rw [hsplit, map_append, foldlM_append] at hbatch
  change (_ >>= _) = _ at hbatch
  rw [show ((rest.take i).map Block.headerAtHeight).foldlM (chainStep verifyPow)
    (.start first.headerAtHeight) =
    .ok walk from hwalk, ok_bind] at hbatch
  have hadvanced := hcovers.advanced hbatch
  refine ⟨_, walk', by rw [hcovers.advance, hbatch]; rfl, hwalk', ?_⟩
  rw [headersTo, ← map_append, take_succ_cons, cons_append, ← hsplit, ← take_succ_cons] at hadvanced
  exact hadvanced.stands

end

end Xparq
