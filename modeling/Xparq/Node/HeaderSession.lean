import Xparq.Node.HeaderSync

/-!
# A header session

Client and server run against each other. `HeaderSync.At` is their joint invariant: the client has
verified the server's chain up to some block, and its next locator leads the server to that very
block. Every round moves the block up by a chunk, so the number of chunks left bounds the rounds,
and the session ends within the server's limit (`synchronizeHeaders_completes`).
-/

namespace Xparq

open Machine Outcome OrderedMap List

section
variable [Crypto]

/-! ## The invariant -/

/-- The client stands at block `i` of the chain `first :: rest`, and its headers start above the
common ancestor `a`. -/
structure HeaderSync.At (node : CachedLedger) (localLocator : List (BlockHash × Height))
    (first : Block) (rest : List Block) (start : Nat) (a : Block) (sync : HeaderSync)
    (i : Nat) (b : Block) (state : HeaderValidationState) (walk : HeaderWalk) : Prop where
  highest : HighestIn (first :: rest) sync.requestLocator i b
  locator : sync.requestLocator.length ≤ maxLocatorHashes
  holds : sync.validationState = some state ∨
    sync.validationState = none ∧ ∀ text, stateInLocator node localLocator b.hash text = .ok state
  walks : WalksTo first rest i walk
  stands : state.Stands walk (headersTo (first :: rest) i)
  above : start ≤ i
  ancestor : sync.ancestorHeight = some a.height ∧ sync.ancestorHash = some a.hash ∨
    sync.ancestorHeight = none ∧ sync.ancestorHash = none ∧ b = a
  downloaded : sync.downloaded = ((rest.drop start).take (i - start)).map Block.headerAtHeight
  verified : sync.verifiedHeaders = i - start

variable {node : CachedLedger} {localLocator : List (BlockHash × Height)} {first : Block}
  {rest : List Block} {start : Nat} {a : Block} {sync : HeaderSync} {i : Nat} {b : Block}
    {state : HeaderValidationState}
  {walk : HeaderWalk} {c : Chain}

/-- What a session hands over that has brought the blocks above `a` up to the peer's tip. -/
def syncOutcome (node : CachedLedger) (peer : Handshake) (a : Block) (blocks : List Block)
    (localHash : BlockHash) : HeaderSyncResult where
  ancestorHeight := a.height
  ancestorHash := a.hash
  headers := blocks.map Block.headerAtHeight
  peerWork := peer.cumulativeWork
  peerWeight := peer.cumulativeWeight
  preferred :=
    compareChainTips peer.cumulativeWork peer.cumulativeWeight peer.tipHash node.cumulativeWork
    node.cumulativeWeight localHash = .gt

namespace HeaderSync.At

theorem header_hash (h : sync.At node localLocator first rest start a i b state walk) :
    state.header.hash = b.hash := by
  rw [(h.stands.tip h.highest.block).2]
  rfl

theorem current_eq (h : sync.At node localLocator first rest start a i b state walk) :
    sync.current node localLocator b.hash = .ok state := by
  rcases h.holds with hstate | ⟨hnone, hlocator⟩
  · rw [HeaderSync.current, hstate]
    simp only [h.header_hash, rejectIf, ne_eq, not_true_eq_false, if_false, ok_bind, pure_eq_ok]
  · rw [HeaderSync.current, hnone]
    exact hlocator _

theorem complete_eq (h : sync.At node localLocator first rest start a i b state walk)
    (hi : i = rest.length) {peer : Handshake} (hhash : peer.tipHash = b.hash)
    (htotals : HeaderTotals.zero.addAll rest = .ok ⟨peer.cumulativeWork, peer.cumulativeWeight⟩)
    {minimums : ChainMinimums}
    (hminimums : minimums.allows peer.cumulativeWork peer.cumulativeWeight = true)
    {localHash : BlockHash} (hlocal : node.ledger.chain.tipHash = some localHash) :
    sync.complete node minimums peer localLocator b.hash = .ok
      (syncOutcome node peer a (rest.drop start) localHash) := by
  have hsum := h.stands.totals h.walks
  rw [hi, take_length, htotals, Except.ok.injEq, HeaderTotals.mk.injEq] at hsum
  obtain ⟨hwork, hweight⟩ := hsum
  have hdownloaded : sync.downloaded = (rest.drop start).map Block.headerAtHeight := by
    rw [h.downloaded, hi, take_of_length_le (by rw [length_drop])]
  have hstate : sync.stateOr (stateInLocator node localLocator b.hash
      "common ancestor is not in the local locator") = .ok state := by
    rcases h.holds with hstate | ⟨hnone, hlocator⟩
    · rw [HeaderSync.stateOr, hstate]
    · rw [HeaderSync.stateOr, hnone]
      exact hlocator _
  have hancestor : sync.ancestorHeight.getD state.height = a.height ∧
      sync.ancestorHash.getD b.hash = a.hash := by
    rcases h.ancestor with ⟨hheight, hhash⟩ | ⟨hheight, hhash, rfl⟩
    · rw [hheight, hhash]
      exact ⟨rfl, rfl⟩
    · rw [hheight, hhash, (h.stands.tip h.highest.block).1]
      exact ⟨rfl, rfl⟩
  unfold HeaderSync.complete
  rw [hstate]
  simp only [ok_bind, h.header_hash, hhash, ← hwork, ← hweight, rejectIf, ne_eq, not_true_eq_false,
    or_self, if_false, hlocal, okOr, hancestor, hdownloaded, hminimums, true_and,
      pure_eq_ok, syncOutcome]

theorem advance_ok {S : Set Header} (hinj : S.InjOn Header.hash) (hc : c.HeadersOf (first :: rest))
    (hS : c.Within S) (h : sync.At node localLocator first rest start a i b state walk) {n : Nat}
    (hpos : 0 < n) (hn : i + n ≤ rest.length) (hlimit : rest.length - start ≤ maxSyncHeaders)
    {body : List Byte}
    (hbody : decodeHeaderChainChunk body = .ok ⟨((rest.drop i).take n).map Block.headerAtHeight⟩) :
    ∃ sync' b' state' walk', sync.advance node localLocator first.hash b.hash body = .ok sync' ∧
      sync'.At node localLocator first rest start a (i + n) b' state' walk' := by
  obtain ⟨state', walk', hadvance, hwalk', hstands'⟩ := h.stands.advance hc h.walks hpos hn
  have hlength : (((rest.drop i).take n).map Block.headerAtHeight).length = n := by
    rw [length_map, length_take, length_drop]
    omega
  have hverified : sync.verifiedHeaders + n = i + n - start := by
    rw [h.verified]
    have := h.above
    omega
  have hcount : ¬ (i + n - start ≥ 2 ^ 64) ∧ ¬ (i + n - start > maxSyncHeaders) := by
    rw [maxSyncHeaders] at hlimit ⊢
    omega
  obtain ⟨b', hb'⟩ : ∃ b', (first :: rest)[i + n]? = some b' :=
    ⟨_, getElem?_eq_getElem (by rw [length_cons]; omega)⟩
  have hhash : state'.header.hash = b'.hash := by
    rw [(hstands'.tip hb').2]
    rfl
  refine ⟨{
    validationState := some state'
    ancestorHeight := if sync.ancestorHeight = none then some state.height else sync.ancestorHeight
    ancestorHash := if sync.ancestorHeight = none then some b.hash else sync.ancestorHash
    downloaded := sync.downloaded ++ ((rest.drop i).take n).map Block.headerAtHeight
    requestLocator := [b'.hash, first.hash]
    verifiedHeaders := i + n - start }, b', state', walk', ?_, ?_⟩
  · unfold HeaderSync.advance
    simp only [hbody, Except.mapError, ok_bind, h.current_eq, hadvance, hlength, hverified,
      rejectIf, if_neg hcount.1, if_neg hcount.2, pure_eq_ok, hhash]
  · refine ⟨⟨hb', mem_cons_self, ?_⟩, show 2 ≤ maxLocatorHashes by
      decide, .inl rfl, hwalk', hstands', le_trans h.above (Nat.le_add_right _ _), .inl ?_, ?_, rfl⟩
    · -- the new locator names the new tip and genesis
      intro j b'' hb'' hmem
      rcases mem_cons.mp hmem with heq | heq
      · exact (hc.take_eq hinj hc hS hS hb'' hb' heq).1.le
      · rw [mem_singleton] at heq
        have hfirst : (first :: rest)[0]? = some first := rfl
        have hzero := (hc.take_eq hinj hc hS hS hb'' hfirst heq).1
        omega
    · rcases h.ancestor with ⟨hheight, hhash⟩ | ⟨hheight, hhash, rfl⟩
      · simp only [hheight, hhash, reduceCtorEq, if_false, and_self]
      · simp only [hheight, if_true, (h.stands.tip h.highest.block).1, and_self]
    · have habove := h.above
      simp only
      rw [h.downloaded, ← map_append, show i + n - start = (i - start) + n by omega, take_add,
        drop_drop, show start + (i - start) = i by omega]

end HeaderSync.At

/-! ## Rounds -/

omit [Crypto] in
theorem splitResponse_eq (message : Byte) (hash : BlockHash) (body : List Byte) :
    splitResponse (message :: (hash.bytes ++ body)) = .ok (message, hash, body) := by
  have hlength := hash.length_bytes
  have hroom : ¬ (hash.bytes ++ body).length < 32 := by
    rw [length_append, hlength]
    omega
  rw [splitResponse, rejectIf, if_neg hroom, ok_bind, take_left' hlength, drop_left' hlength,
    Hash.ofBytes_bytes]
  rfl

theorem run_round {minimums : ChainMinimums} {peer : Handshake} {genesis : BlockHash} {l : Ledger}
    {tip : Height} {server server' : HeaderServer} {request response : List Byte}
    {next : HeaderSync ⊕ HeaderSyncResult}
    (hrequest : encodeLocator sync.requestLocator = .ok request)
    (hserve : serveHeaderRequest l tip request server = .ok (response, server'))
    (hpos : 0 < response.length) (hle : response.length ≤ 33 + maxHeaderChainChunkSize)
    (hreceive : sync.receive node minimums peer localLocator genesis response = .ok next) :
    (HeaderSync.round node minimums peer localLocator genesis sync).run (serveHeaderRequest l tip)
      server =
      .ok (next, server') := by
  have hroom : request.length < 2 ^ 32 :=
    lt_of_le_of_lt (decodeLocator_encodeLocator hrequest).2.2 (by decide)
  rw [HeaderSync.round, RequestTree.run_bind, RequestTree.run_lift, hrequest]
  change RequestTree.run _ (exchange request _ >>= _) server = _
  rw [RequestTree.run_bind, run_exchange hroom hserve hpos hle, ok_bind, RequestTree.run_lift,
    hreceive]
  rfl

/-- Client and server before a round, with `n` chunks to come. -/
def HeaderSync.Pending (node : CachedLedger) (localLocator : List (BlockHash × Height))
    (first : Block) (rest : List Block) (start : Nat) (a : Block) (n : Nat) (sync : HeaderSync)
    (server : HeaderServer) : Prop :=
  (∃ i b state walk, sync.At node localLocator first rest start a i b state walk ∧
    n = (rest.length - i + (maxHeaderChainChunkHeaders - 1)) / maxHeaderChainChunkHeaders) ∧
  server.finished = false ∧ server.requests + n < maxHeaderRequestsPerSession

variable {l : Ledger} {last : Block} {peer : Handshake} {minimums : ChainMinimums}
  {server : HeaderServer} {n : Nat}

theorem HeaderSync.At.exists_request
    (h : sync.At node localLocator first rest start a i b state walk) :
    ∃ request, encodeLocator sync.requestLocator = .ok request :=
  ⟨_, encodeLocator_eq (ne_nil_of_mem h.highest.mem) h.locator⟩

variable {S : Set Header} {localHash : BlockHash} {t : HeaderTotals}

theorem HeaderSync.Pending.finish (hc : l.chain.HeadersOf (first :: rest))
    (hlast : (first :: rest).getLast? = some last) (hhash : peer.tipHash = last.hash)
    (htotals : HeaderTotals.zero.addAll rest = .ok ⟨peer.cumulativeWork, peer.cumulativeWeight⟩)
    (hminimums : minimums.allows peer.cumulativeWork peer.cumulativeWeight = true)
    (hlocal : node.ledger.chain.tipHash = some localHash)
    (h : sync.Pending node localLocator first rest start a 0 server) :
    ∃ result server', (HeaderSync.round node minimums peer localLocator first.hash sync).run
        (serveHeaderRequest l last.height) server = .ok (.inr result, server') ∧
      result = syncOutcome node peer a (rest.drop start) localHash ∧
      server'.finished = true ∧ server'.requests ≤ maxHeaderRequestsPerSession := by
  obtain ⟨⟨i, b, state, walk, hat, hn⟩, hfinished, hrequests⟩ := h
  obtain ⟨requests, finished⟩ := server
  cases hfinished
  obtain ⟨hi, _⟩ := List.getElem?_eq_some_iff.mp hat.highest.block
  rw [length_cons] at hi
  rw [maxHeaderChainChunkHeaders] at hn
  have hend : i = rest.length := by omega
  have hb : b = last := by
    have hblock := hat.highest.block
    rw [getLast?_eq_getElem?, length_cons, Nat.add_sub_cancel, ← hend, hblock] at hlast
    exact Option.some.inj hlast
  have hempty : chunkFrom (first :: rest) i = [] := by
    rw [chunkFrom, hend, drop_succ_cons, drop_length, take_nil, map_nil]
  obtain ⟨request, hrequest⟩ := hat.exists_request
  have hserve := (hat.highest.serve hc hlast hrequest hrequests).1 hempty
  refine ⟨_, ⟨requests + 1, true⟩, run_round hrequest hserve ?_ ?_ ?_, rfl, rfl, hrequests⟩
  · exact Nat.succ_pos _
  · rw [length_cons, Hash.length_bytes]
    exact Nat.le_add_right _ _
  · have hsplit := splitResponse_eq headersCompleteMessage b.hash []
    rw [append_nil] at hsplit
    rw [HeaderSync.receive, hsplit]
    simp only [ok_bind, if_true,
      hat.complete_eq hend (hhash.trans (congrArg Block.hash hb.symm)) htotals hminimums
      hlocal]
    rfl

theorem HeaderSync.Pending.advance (hinj : S.InjOn Header.hash) (hS : l.chain.Within S)
    (hc : l.chain.HeadersOf (first :: rest)) (hlast : (first :: rest).getLast? = some last)
    (hlimit : rest.length - start ≤ maxSyncHeaders)
    (h : sync.Pending node localLocator first rest start a (n + 1) server) :
    ∃ sync' server', (HeaderSync.round node minimums peer localLocator first.hash sync).run
        (serveHeaderRequest l last.height) server = .ok (.inl sync', server') ∧
      sync'.Pending node localLocator first rest start a n server' := by
  obtain ⟨⟨i, b, state, walk, hat, hn⟩, hfinished, hrequests⟩ := h
  obtain ⟨requests, finished⟩ := server
  cases hfinished
  simp only at hrequests
  -- the chunk is not empty, and it is full unless it is the last one
  obtain ⟨k, hk⟩ : ∃ k, k = min maxHeaderChainChunkHeaders (rest.length - i) := ⟨_, rfl⟩
  have hchunk : chunkFrom (first :: rest) i = ((rest.drop i).take k).map Block.headerAtHeight := by
    rw [chunkFrom, drop_succ_cons, hk]
    congr 1
    rw [← length_drop, ← take_eq_take_min]
  rw [maxHeaderChainChunkHeaders] at hn hk
  have hpos : 0 < k := by omega
  have hle : i + k ≤ rest.length := by omega
  have hne : chunkFrom (first :: rest) i ≠ [] := by
    rw [hchunk]
    apply ne_nil_of_length_pos
    rw [length_map, length_take, length_drop]
    omega
  obtain ⟨request, hrequest⟩ := hat.exists_request
  obtain ⟨chunk, hdecode, hsmall, hserve⟩ := (hat.highest.serve hc hlast hrequest
    (lt_of_le_of_lt (Nat.le_add_right _ _) hrequests)).2 hne
  rw [hchunk] at hdecode
  obtain ⟨sync', b', state', walk', hadvance, hat'⟩ :=
    hat.advance_ok hinj hc hS hpos hle hlimit hdecode
  refine ⟨sync', ⟨requests + 1, false⟩, run_round hrequest hserve ?_ ?_ ?_,
    ⟨i + k, b', state', walk', hat', ?_⟩, rfl, ?_⟩
  · exact Nat.succ_pos _
  · rw [length_cons, length_append, Hash.length_bytes]
    omega
  · rw [HeaderSync.receive, splitResponse_eq]
    simp only [ok_bind, show headersMessage ≠ headersCompleteMessage by
      decide, if_false, rejectIf, ne_eq, not_true_eq_false, hadvance]
    rfl
  · rw [maxHeaderChainChunkHeaders]
    omega
  · simp only
    omega

/-! ## Chains and their totals -/

/-- The work of all headers past genesis. -/
def Chain.totalWork (c : Chain) : Nat :=
  ((c.headers.entries.drop 1).map fun e => ((blockWork e.2.targetBits).getD 0).val).sum

/-- The weight of all headers past genesis. -/
def Chain.totalWeight (c : Chain) :
    Nat := ((c.headers.entries.drop 1).map fun e => e.2.blockWeight.val).sum

/-- The tip of a chain. The totals stop at the largest number of their type. -/
structure Chain.HasTip (c : Chain) (tip : ChainTip) : Prop where
  hash : c.tipHash = some tip.hash
  work : tip.work.val = min c.totalWork (workLimit - 1)
  weight : tip.weight.val = min c.totalWeight (2 ^ 64 - 1)

/-- The headers above a height, lowest first. -/
def Chain.headersAbove (c : Chain) (height : Height) : List HeaderAtHeight :=
  (c.headers.entries.filter fun e => height < e.1).map fun e => ⟨e.1, e.2⟩

/-- The highest block of the chain that is in the locator. -/
structure Chain.HighestIn (c : Chain) (locator : List BlockHash) (h : HeaderAtHeight) : Prop where
  header : c.header h.height = some h.header
  mem : h.hash ∈ locator
  highest : ∀ k header, c.header k = some header → header.hash ∈ locator → k ≤ h.height

omit [Crypto] in
theorem HeaderTotals.addAll_eq_ok {blocks : List Block} {t' : HeaderTotals}
    (h : t.addAll blocks = .ok t') :
    t'.work = (blocks.map fun b => (blockWork b.header.targetBits).getD 0).foldl saturatingAdd
      t.work ∧
    t'.weight = (blocks.map fun b => b.header.blockWeight.castLE (by decide)).foldl saturatingAdd
      t.weight := by
  induction blocks generalizing t with
  | nil =>
    cases h
    exact ⟨rfl, rfl⟩
  | cons b rest ih =>
    rw [HeaderTotals.addAll, foldlM_cons, bind_eq_ok] at h
    obtain ⟨mid, hadd, hrest⟩ := h
    simp only [HeaderTotals.add, bind_eq_ok, okOr_eq_ok, return_eq_ok] at hadd
    obtain ⟨work, hwork, rfl⟩ := hadd
    obtain ⟨hw, hg⟩ := ih hrest
    rw [map_cons, map_cons, foldl_cons, foldl_cons, hwork]
    exact ⟨hw, hg⟩

theorem Chain.HeadersOf.hasTip (h : c.HeadersOf (first :: rest))
    (hlast : (first :: rest).getLast? = some last) (ht : HeaderTotals.zero.addAll rest = .ok t) :
    c.HasTip ⟨t.work, t.weight, last.hash⟩ := by
  obtain ⟨hwork, hweight⟩ := HeaderTotals.addAll_eq_ok ht
  refine ⟨(h.tip last hlast).2, ?_, ?_⟩
  · rw [hwork, val_foldl_saturatingAdd, Chain.totalWork, h.entries, map_cons, drop_one, tail_cons,
      map_map, map_map]
    change min (0 + _) _ = _
    rw [Nat.zero_add]
    rfl
  · rw [hweight, val_foldl_saturatingAdd, Chain.totalWeight, h.entries, map_cons,
      drop_one, tail_cons, map_map, map_map]
    change min (0 + _) _ = _
    rw [Nat.zero_add]
    rfl

theorem Chain.HeadersOf.headersAbove_eq (h : c.HeadersOf (first :: rest))
    (hb : (first :: rest)[i]? = some b) :
    c.headersAbove b.height = (rest.drop i).map Block.headerAtHeight := by
  have hsplit : (first :: rest).filter (fun x => b.height < x.height) = rest.drop i := by
    conv_lhs => rw [← take_append_drop (i + 1) (first :: rest)]
    rw [filter_append, filter_eq_nil_iff.mpr, nil_append, filter_eq_self.mpr]
    · rfl
    · intro x hx
      obtain ⟨j, hj⟩ := mem_iff_getElem?.mp hx
      rw [getElem?_drop] at hj
      rw [decide_eq_true_iff, Fin.lt_def, h.height hb, h.height hj]
      omega
    · intro x hx
      obtain ⟨j, hj⟩ := mem_iff_getElem?.mp hx
      obtain ⟨hlt, _⟩ := List.getElem?_eq_some_iff.mp hj
      rw [length_take] at hlt
      rw [getElem?_take_of_lt (by omega)] at hj
      rw [decide_eq_true_iff, Fin.lt_def, h.height hb, h.height hj]
      omega
  rw [Chain.headersAbove, h.entries, filter_map, map_map]
  change ((first :: rest).filter (fun x => b.height < x.height)).map Block.headerAtHeight = _
  rw [hsplit]

theorem HighestIn.chain {locator : List BlockHash} (h : c.HeadersOf (first :: rest))
    (hi : HighestIn (first :: rest) locator i b) : c.HighestIn locator b.headerAtHeight := by
  refine ⟨h.header_eq hi.block, hi.mem, fun k header hk hmem => ?_⟩
  rw [Chain.header, h.headers, Option.map_eq_some_iff] at hk
  obtain ⟨b', hb', rfl⟩ := hk
  rw [Fin.le_def]
  exact (hi.highest _ b' hb' hmem).trans_eq (h.height hi.block).symm

/-! ## The session -/

theorem exists_stateInLocator (hinj : S.InjOn Header.hash) {first' : Block} {rest' : List Block}
    (hnode : node.ledger.chain.HeadersOf (first' :: rest')) (hnodeS : node.ledger.chain.Within S)
    (hcheckpoints : checkpointWalk first'.hash (first' :: rest') =
      .ok ⟨node.headerCheckpoints, ⟨node.cumulativeWork, node.cumulativeWeight⟩⟩)
    (hc : c.HeadersOf (first :: rest)) (hS : c.Within S)
    (hlocator : ∀ e ∈ localLocator, ∃ b ∈ first' :: rest', e = (b.hash, b.height))
    (hi : HighestIn (first :: rest) (localLocator.map Prod.fst) i b) :
    ∃ state walk, (∀ text, stateInLocator node localLocator b.hash text = .ok state) ∧
      WalksTo first rest i walk ∧ state.Stands walk (headersTo (first :: rest) i) := by
  obtain ⟨e, he, heb⟩ := mem_map.mp hi.mem
  have hsome : (localLocator.findSome? fun e => if e.1 = b.hash then some e.2 else none).isSome =
      true := by
    rw [findSome?_isSome_iff]
    exact ⟨e, he, by rw [if_pos heb]; rfl⟩
  obtain ⟨k, hk⟩ := Option.isSome_iff_exists.mp hsome
  obtain ⟨e', he', hek⟩ := exists_of_findSome?_eq_some hk
  rw [Option.ite_none_right_eq_some, Option.some.injEq] at hek
  obtain ⟨b', hb', rfl⟩ := hlocator e' he'
  obtain ⟨hhash, rfl⟩ := hek
  obtain ⟨j, hj⟩ := mem_iff_getElem?.mp hb'
  have hjk := hnode.height hj
  -- both chains have the same headers up to the common block
  obtain ⟨rfl, htake⟩ := hnode.take_eq hinj hc hnodeS hS hj hi.block hhash
  have hheaders : headersTo (first' :: rest') j = headersTo (first :: rest) j := by
    have hheights := hnode.heights_take hc htake
    have hzip : ∀ blocks : List Block, blocks.map Block.headerAtHeight =
        ((blocks.map Block.height).zip (blocks.map Block.header)).map fun e => ⟨e.1, e.2⟩ := by
      intro blocks
      rw [zip_map', map_map]
      rfl
    rw [headersTo, headersTo, hzip, hzip, hheights, htake]
  obtain ⟨state, walk, hstate, hwalk, hstands⟩ :=
    exists_stateAtHeight hnode hcheckpoints (k := b'.height)
    (by rw [hjk, hj])
  rw [hjk] at hwalk hstands
  refine ⟨state, walk, fun text => ?_, hwalk.congr hheaders, hheaders ▸ hstands⟩
  rw [stateInLocator, hk]
  exact hstate

theorem HeaderSync.At.run_rounds (peer : Handshake) (hinj : S.InjOn Header.hash)
    (hS : l.chain.Within S) (hc : l.chain.HeadersOf (first :: rest))
    (hlast : (first :: rest).getLast? = some last) (hhash : peer.tipHash = last.hash)
    (htotals : HeaderTotals.zero.addAll rest = .ok ⟨peer.cumulativeWork, peer.cumulativeWeight⟩)
    (hminimums : minimums.allows peer.cumulativeWork peer.cumulativeWeight = true)
    (hlocal : node.ledger.chain.tipHash = some localHash)
    (hlimit : rest.length - start ≤ maxSyncHeaders)
    (hat : sync.At node localLocator first rest start a start b state walk) :
    ∃ requests ≤ maxHeaderRequestsPerSession,
      (RequestTree.rounds (HeaderSync.round node minimums peer localLocator first.hash)
      maxHeaderRequestsPerSession
        sync).run (serveHeaderRequest l last.height) ⟨0, false⟩ = .ok
        (some (syncOutcome node peer a (rest.drop start) localHash), ⟨requests, true⟩) := by
  obtain ⟨n, hn⟩ : ∃ n, n = (rest.length - start + (maxHeaderChainChunkHeaders - 1)) /
    maxHeaderChainChunkHeaders :=
    ⟨_, rfl⟩
  -- the last request, which brings the completion, is one more than the chunks
  have hrounds : n < maxHeaderRequestsPerSession := by
    simp only [maxSyncHeaders, maxHeaderChainChunkHeaders, maxHeaderRequestsPerSession]
      at hlimit hn ⊢
    omega
  have hpending : sync.Pending node localLocator first rest start a n ⟨0, false⟩ :=
    ⟨⟨start, b, state, walk, hat, hn⟩, rfl, by rwa [Nat.zero_add]⟩
  obtain ⟨result, ⟨requests, finished⟩, hrun, hresult, hdone, hcount⟩ := RequestTree.run_rounds
    (HeaderSync.Pending node localLocator first rest start a)
    (fun result server => result = _ ∧ server.finished = true ∧
      server.requests ≤ maxHeaderRequestsPerSession)
    (fun _ _ h => h.finish hc hlast hhash htotals hminimums hlocal)
    (fun _ _ _ h => h.advance hinj hS hc hlast hlimit) hpending hrounds
  cases hdone
  exact ⟨requests, hcount, hresult ▸ hrun⟩

/-- A session between two honest nodes on one genesis ends, within the server's request limit, with
the server's headers above the highest block it shares with the client's locator. -/
theorem synchronizeHeaders_completes {genesis : BlockHash} {S : Set Header}
    (hinj : S.InjOn Header.hash) {node server : CachedLedger} (hnode : Cached genesis S node)
    (hserver : Cached genesis S server) {minimums : ChainMinimums}
    (hminimums : minimums.allows server.cumulativeWork server.cumulativeWeight = true) :
    ∃ peer tipHeight localTip peerTip locator ancestor, localHandshake server = .ok peer ∧
      server.ledger.chain.tipHeight = some tipHeight ∧ node.ledger.chain.HasTip localTip ∧
      server.ledger.chain.HasTip peerTip ∧ ledgerHeaderLocator genesis node.ledger = .ok locator ∧
      server.ledger.chain.HighestIn (locator.map Prod.fst) ancestor ∧
      (tipHeight.val - ancestor.height.val ≤ maxSyncHeaders →
      ∃ requests ≤ maxHeaderRequestsPerSession,
        (synchronizeHeaders genesis node minimums peer maxHeaderRequestsPerSession).run
          (serveHeaderRequest server.ledger tipHeight) ⟨0, false⟩ = .ok (some {
            ancestorHeight := ancestor.height
            ancestorHash := ancestor.hash
            headers := server.ledger.chain.headersAbove ancestor.height
            peerWork := peerTip.work
            peerWeight := peerTip.weight
            preferred := peerTip.compareTips localTip = .gt }, ⟨requests, true⟩)) := by
  obtain ⟨first', rest', rfl, hlocal, hlocalS, hcheckpoints⟩ := hnode.exists_blocks hinj
  obtain ⟨first, rest, hgenesis, hc, hS, hpeer⟩ := hserver.exists_blocks hinj
  obtain ⟨last', hlast'⟩ : ∃ last, (first' :: rest').getLast? = some last :=
    Option.isSome_iff_exists.mp (by simp)
  obtain ⟨last, hlast⟩ : ∃ last, (first :: rest).getLast? = some last :=
    Option.isSome_iff_exists.mp (by simp)
  obtain ⟨htipHeight, htipHash⟩ := hc.tip last hlast
  have htotals := hlocal.totals_of_checkpointWalk hcheckpoints
  rw [← hgenesis] at hpeer
  have htotalsPeer := hc.totals_of_checkpointWalk hpeer
  obtain ⟨locator, hlocator, hlength, hmem, hgenesisMem⟩ := exists_ledgerHeaderLocator hlocal
  rw [← hgenesis] at hgenesisMem
  obtain ⟨start, a, hhighest⟩ := exists_highestIn rest hgenesisMem
  obtain ⟨state, walk, hstate, hwalk, hstands⟩ :=
    exists_stateInLocator hinj hlocal hlocalS hcheckpoints hc hS hmem hhighest
  have hstart := hc.height hhighest.block
  have hend : last.height.val = rest.length := by
    rw [getLast?_eq_getElem?] at hlast
    rw [hc.height hlast, length_cons, Nat.add_sub_cancel]
  refine ⟨⟨last.height, last.hash, server.cumulativeWork, server.cumulativeWeight⟩, last.height,
    ⟨node.cumulativeWork, node.cumulativeWeight, last'.hash⟩,
      ⟨server.cumulativeWork, server.cumulativeWeight, last.hash⟩,
    locator, a.headerAtHeight, ?_, htipHeight, hlocal.hasTip hlast' htotals,
      hc.hasTip hlast htotalsPeer, hlocator,
    hhighest.chain hc, ?_⟩
  · rw [localHandshake, htipHash, htipHeight]
    rfl
  · intro hlimit
    change last.height.val - a.height.val ≤ _ at hlimit
    rw [hend, hstart] at hlimit
    have hat : (HeaderSync.start locator).At node locator first rest start a start a state walk :=
      ⟨hhighest, by
        rw [HeaderSync.start, length_map]; exact hlength, .inr ⟨rfl, hstate⟩, hwalk,
        hstands, le_rfl, .inr ⟨rfl, rfl, rfl⟩,
          by rw [Nat.sub_self, take_zero]; rfl, (Nat.sub_self _).symm⟩
    obtain ⟨requests, hcount, hrun⟩ := hat.run_rounds
      ⟨last.height, last.hash, server.cumulativeWork, server.cumulativeWeight⟩ hinj hS hc
        hlast rfl htotalsPeer
      hminimums (hlocal.tip last' hlast').2 hlimit
    refine ⟨requests, hcount, ?_⟩
    have habove : server.ledger.chain.headersAbove a.headerAtHeight.height =
        (rest.drop start).map Block.headerAtHeight :=
      hc.headersAbove_eq hhighest.block
    rw [synchronizeHeaders,
      if_neg (by simp only [hminimums, Bool.true_eq_false, not_false_eq_true]), hlocator,
        RequestTree.run_bind, RequestTree.run_lift, habove, ← hgenesis]
    exact hrun

end

section Sample

attribute [local instance] Crypto.checksum

open Ledger

/-- A node asks a peer on a rival block. -/
theorem sample_synchronizeHeaders : ∃ b b' node server peer tip requests,
    sampleRivals = .ok ((b, node.ledger), b', server.ledger) ∧ b.hash ≠ b'.hash ∧
    localHandshake server = .ok peer ∧
    ∃ result, (synchronizeHeaders sampleGenesis.hash node ⟨0, 0⟩ peer
      maxHeaderRequestsPerSession).run
      (serveHeaderRequest server.ledger tip) ⟨0, false⟩ = .ok (some result, ⟨requests, true⟩) := by
  obtain ⟨b, l, b', l', hrivals, hne, _, hof', hon, hon', S, hinj, hS, hS'⟩ := exists_sampleRivals
  obtain ⟨node, hnode, rfl⟩ := hon.exists_cached hS
  obtain ⟨server, hserver, rfl⟩ := hon'.exists_cached hS'
  have hminimums : ChainMinimums.allows ⟨0, 0⟩ server.cumulativeWork server.cumulativeWeight =
      true :=
    decide_eq_true ⟨Fin.zero_le _, Fin.zero_le _⟩
  obtain ⟨peer, tip, localTip, peerTip, locator, ancestor, hpeer, htip, -, -, -, -, hrun⟩ :=
    synchronizeHeaders_completes hinj hnode hserver hminimums
  have hheight : tip.val = 1 := by
    rw [Option.some.inj (htip.symm.trans (hof'.tip b' rfl).1)]
    exact hof'.height (i := 1) rfl
  obtain ⟨requests, _, hrun⟩ := hrun ((Nat.sub_le _ _).trans (by rw [hheight]; decide))
  exact ⟨b, b', node, server, peer, tip, requests, hrivals, hne, hpeer, _, hrun⟩

end Sample

end Xparq
