import Xparq.Ledger.Headers

/-!
# Header state of a node

For synchronization a node remembers the work and weight of its chain at every 256th height
(`buildHeaderStateCheckpoints`), and it extends the list it has when the chain changes
(`updatedHeaderStateCheckpoints`). From the last checkpoint at or below a height it rebuilds the
state of header verification there (`ledgerHeaderStateAtHeight`).

Extending an old list gives the list of the new chain (`Cached.exists_blocks`), and the rebuilt
state is the one that verification from genesis arrives at (`HeadersOf.stateAtHeight`).
-/

namespace Xparq

open Machine Outcome OrderedMap List

inductive HeaderChainChunkError
  | empty | headerLimitExceeded | chunkSizeExceeded | decodeFailed
  deriving DecidableEq, Repr

/-- The errors of a peer session are texts; an error of the kernel is shown after one. -/
inductive PeerError
  | message (text : String)
  | headers (text : String) (error : HeaderChainError)
  | chunk (error : HeaderChainChunkError)
  | codec (error : CodecError)
  deriving DecidableEq, Repr

/-! ## Consecutive heights -/

/-- The heights of a loop from `start` through `last`. -/
def heightsFrom (start : Nat) (last : Height) : List Height :=
  (List.range' start (last.val + 1 - start)).map (Fin.ofNat (2 ^ 64))

/-- The header at a height, or an error with the text. -/
def headerAt (chain : Chain) (height : Height) (text : String) : Except PeerError Header :=
  okOr (chain.header height) (.message text)

section
variable [Crypto]

/-! ## Checkpoints -/

def headerStateCheckpointInterval : Nat := 256

structure HeaderStateCheckpoint where
  height : Height
  hash : BlockHash
  cumulativeWork : Work
  cumulativeWeight : U64
  deriving DecidableEq

/-- Cumulative work and weight, without genesis. -/
structure HeaderTotals where
  work : Work
  weight : U64
  deriving DecidableEq

def HeaderTotals.zero : HeaderTotals := ⟨0, 0⟩

/-- `{:08x}`. -/
def hex8 (n : U32) : String :=
  String.ofList ((List.range 8).reverse.map fun i => Nat.digitChar (n.val / 16 ^ i % 16))

def invalidTargetBits (bits : U32) (height : Height) : PeerError :=
  .message ("invalid target bits " ++ hex8 bits ++ " at height " ++ toString height.val)

def HeaderTotals.add (t : HeaderTotals) (height : Height) (header : Header) :
    Except PeerError HeaderTotals := do
  let work ← okOr (blockWork header.targetBits) (invalidTargetBits header.targetBits height)
  return ⟨saturatingAdd t.work work, saturatingAdd t.weight (header.blockWeight.castLE u32_le_u64)⟩

/-- What the loops over the chain carry along. -/
structure CheckpointWalk where
  checkpoints : List HeaderStateCheckpoint
  totals : HeaderTotals
  deriving DecidableEq

def CheckpointWalk.push (walk : CheckpointWalk) (height : Height) (hash : BlockHash) :
    CheckpointWalk :=
  { walk with
    checkpoints := walk.checkpoints ++ [⟨height, hash, walk.totals.work, walk.totals.weight⟩] }

/-- One iteration past genesis. -/
def CheckpointWalk.next (walk : CheckpointWalk) (height : Height) (header : Header) :
    Except PeerError CheckpointWalk := do
  let totals ← walk.totals.add height header
  let walk : CheckpointWalk := ⟨walk.checkpoints, totals⟩
  return if headerStateCheckpointInterval ∣ height.val then walk.push height header.hash else walk

/-- One iteration of `build_header_state_checkpoints`. -/
def checkpointStep (genesis : BlockHash) (walk : CheckpointWalk) (e : Height × Header) :
    Except PeerError CheckpointWalk :=
  if e.1 = 0 then do
    rejectIf (e.2.hash ≠ genesis) (.message "canonical checkpoint chain has the wrong genesis")
    return walk.push e.1 e.2.hash
  else walk.next e.1 e.2

def buildHeaderStateCheckpoints (genesis : BlockHash) (l : Ledger) :
    Except PeerError CheckpointWalk := do
  let walk ← l.chain.headers.entries.foldlM (checkpointStep genesis) ⟨[], .zero⟩
  rejectIf (walk.checkpoints = []) (.message "canonical chain has no genesis checkpoint")
  return walk

/-- The checkpoint lies on the chain. -/
def HeaderStateCheckpoint.onChain (c : HeaderStateCheckpoint) (chain : Chain) (tip : Height) :
    Bool :=
  c.height ≤ tip ∧ (chain.header c.height).map Header.hash = some c.hash

/-- Keep the checkpoints up to the last one on the chain and go on from there. -/
def updatedHeaderStateCheckpoints (genesis : BlockHash)
    (previous : Option (List HeaderStateCheckpoint)) (l : Ledger) :
    Except PeerError CheckpointWalk :=
  match previous with
  | none => buildHeaderStateCheckpoints genesis l
  | some previous => do
    let tip ← okOr l.chain.tipHeight (.message "canonical chain has no tip")
    let kept := previous.rdropWhile fun c => !c.onChain l.chain tip
    match kept.getLast? with
    | none => buildHeaderStateCheckpoints genesis l
    | some anchor =>
      (heightsFrom anchor.height.next.val tip).foldlM (fun walk height => do
        let header ← headerAt l.chain height "canonical block is missing while updating checkpoints"
        walk.next height header) ⟨kept, ⟨anchor.cumulativeWork, anchor.cumulativeWeight⟩⟩

/-- The ledger a node shows to its peers, with its checkpoints and totals. -/
structure CachedLedger where
  ledger : Ledger
  headerCheckpoints : List HeaderStateCheckpoint
  cumulativeWork : Work
  cumulativeWeight : U64

/-- `update_ledger_cache`; the bodies and journals it drops play no part here. -/
def updateLedgerCache (genesis : BlockHash) (previous : Option CachedLedger) (l : Ledger) :
    Except PeerError CachedLedger := do
  let walk ← updatedHeaderStateCheckpoints genesis (previous.map CachedLedger.headerCheckpoints) l
  return ⟨l, walk.checkpoints, walk.totals.work, walk.totals.weight⟩

/-! ## The state at a height -/

def ledgerHeaderStateAtHeight (l : Ledger) (checkpoints : List HeaderStateCheckpoint)
    (target : Height) : Except PeerError HeaderValidationState := do
  let targetHeader ← headerAt l.chain target "canonical ancestor height is missing"
  let checkpoint ← okOr (checkpoints.reverse.find? fun c => c.height ≤ target)
    (.message "no header state checkpoint covers target height")
  let checkpointHeader ← headerAt l.chain checkpoint.height
    "checkpoint block is missing from canonical chain"
  rejectIf (checkpointHeader.hash ≠ checkpoint.hash)
    (.message "header state checkpoint does not match canonical chain")
  let totals ← (heightsFrom (checkpoint.height.val + 1) target).foldlM (fun totals height => do
    let header ← headerAt l.chain height "canonical block is missing after checkpoint"
    totals.add height header) (⟨checkpoint.cumulativeWork,
      checkpoint.cumulativeWeight⟩ : HeaderTotals)
  let anchorHeight : Height := if target = 0 then 0 else 1
  let anchor ← headerAt l.chain anchorHeight "difficulty anchor is missing from canonical chain"
  let recentHeaders ← (heightsFrom (target.next.val - recentHeaderWindow) target).mapM fun height =>
    (headerAt l.chain height "recent canonical header is missing").map (HeaderAtHeight.mk height)
  return {
    height := target, header := targetHeader, cumulativeWork := totals.work
    cumulativeWeight := totals.weight, difficultyAnchor := ⟨anchorHeight, anchor⟩, recentHeaders }

/-! ## Loops over the chain -/

variable {c : Chain} {blocks : List Block} {genesis : BlockHash}

variable {last k : Height} {n : Nat} {old : Chain}

theorem Chain.HeadersOf.heightsFrom_eq (h : c.HeadersOf blocks) (hlast : last.val < blocks.length)
    (start : Nat) :
    heightsFrom start last = ((blocks.take (last.val + 1)).drop start).map Block.height := by
  apply ext_getElem
  · simp only [heightsFrom, length_map, length_range', length_drop, length_take]
    omega
  · intro i hi _
    simp only [heightsFrom, length_map, length_range'] at hi
    simp only [heightsFrom, getElem_map, getElem_range', getElem_drop, getElem_take]
    apply Fin.ext
    rw [h.height (getElem?_eq_getElem (by omega)), Fin.val_ofNat, Nat.mod_eq_of_lt]
    · omega
    · have := last.isLt
      omega

variable {b : Block} {walk : CheckpointWalk} {before : List HeaderStateCheckpoint} {i : Nat}
  {S : Set Header} {blocks' : List Block} {a : HeaderStateCheckpoint}

theorem Chain.HeadersOf.headerAt_eq (h : c.HeadersOf blocks) (hb : b ∈ blocks) (text : String) :
    headerAt c b.height text = .ok b.header := by
  obtain ⟨i, hi⟩ := mem_iff_getElem?.mp hb
  rw [headerAt, h.header_eq hi]
  rfl

theorem Chain.HeadersOf.foldlM_heightsFrom (h : c.HeadersOf blocks)
    (hlast : last.val < blocks.length) (start : Nat) (text : String) {σ : Type}
    (f : σ → Height → Header → Except PeerError σ) (s : σ) :
    (heightsFrom start last).foldlM (fun s height => do
      let header ← headerAt c height text
      f s height header) s =
    ((blocks.take (last.val + 1)).drop start).foldlM (fun s b => f s b.height b.header) s := by
  rw [h.heightsFrom_eq hlast, foldlM_map]
  refine foldlM_congr (fun b hb s => ?_) s
  rw [h.headerAt_eq (mem_of_mem_take (mem_of_mem_drop hb)), ok_bind]

/-! ## The totals -/

/-- The totals after more blocks. -/
def HeaderTotals.addAll (t : HeaderTotals) (blocks : List Block) : Except PeerError HeaderTotals :=
  blocks.foldlM (fun t b => t.add b.height b.header) t

omit [Crypto] in
theorem HeaderTotals.addAll_append (t : HeaderTotals) (blocks more : List Block) :
    t.addAll (blocks ++ more) = t.addAll blocks >>= fun t => t.addAll more := foldlM_append

theorem HeaderTotals.addAll_of_walk {walk walk' : HeaderWalk} {t : HeaderTotals}
    (ht : t.work = walk.cumulativeWork)
    (hrun : (blocks.map Block.headerAtHeight).foldlM (chainStep verifyPow) walk = .ok walk') :
    t.addAll blocks = .ok ⟨walk'.cumulativeWork,
      addWeights t.weight (blocks.map Block.headerAtHeight)⟩ := by
  induction blocks generalizing walk t with
  | nil =>
    cases hrun
    rw [← ht]
    rfl
  | cons b rest ih =>
    rw [map_cons, foldlM_cons, bind_eq_ok] at hrun
    obtain ⟨mid, hstep, hrest⟩ := hrun
    simp only [chainStep, bind_eq_ok, return_eq_ok, rejectIf_eq_ok, not_not, okOr_eq_ok] at hstep
    obtain ⟨_, _, _, _, _, _, _, rfl, _, _, work, hwork, rfl⟩ := hstep
    have hadd : t.add b.height b.header = .ok ⟨saturatingAdd walk.cumulativeWork work,
        saturatingAdd t.weight (b.header.blockWeight.castLE (by decide))⟩ := by
      simp only [HeaderTotals.add, bind_eq_ok, okOr_eq_ok, pure_eq_ok, ht]
      exact ⟨work, hwork, rfl⟩
    change (t.add b.height b.header >>= fun t => t.addAll rest) = _
    rw [hadd, ok_bind, ih rfl hrest]
    rfl

theorem CheckpointWalk.next_totals (walk : CheckpointWalk) (height : Height) (header : Header) :
    walk.totals.add height header = (walk.next height header).map CheckpointWalk.totals := by
  unfold CheckpointWalk.next
  cases walk.totals.add height header with
  | error e => rfl
  | ok totals =>
    simp only [ok_bind, pure_eq_ok, Except.map, Except.ok.injEq]
    split_ifs <;> rfl

/-! ## The walk of the checkpoints -/

/-- The checkpoints and totals of the blocks. -/
def checkpointWalk (genesis : BlockHash) (blocks : List Block) : Except PeerError CheckpointWalk :=
  (blocks.map fun b => (b.height, b.header)).foldlM (checkpointStep genesis) ⟨[], .zero⟩

theorem checkpointWalk_append (blocks more : List Block) :
    checkpointWalk genesis (blocks ++ more) = checkpointWalk genesis blocks >>= fun walk =>
      (more.map fun b => (b.height, b.header)).foldlM (checkpointStep genesis) walk := by
  rw [checkpointWalk, map_append, foldlM_append]
  rfl

theorem checkpointWalk_congr (hheights : blocks.map Block.height = blocks'.map Block.height)
    (hheaders : blocks.map Block.header = blocks'.map Block.header) :
    checkpointWalk genesis blocks = checkpointWalk genesis blocks' := by
  have hzip : ∀ l : List Block, l.map (fun b => (b.height, b.header)) =
      (l.map Block.height).zip (l.map Block.header) := by
    intro l
    rw [zip_map']
  rw [checkpointWalk, checkpointWalk, hzip, hzip, hheights, hheaders]

theorem checkpointStep_of_ne (h : b.height ≠ 0) (walk : CheckpointWalk) :
    checkpointStep genesis walk (b.height, b.header) = walk.next b.height b.header := if_neg h

theorem foldlM_checkpointStep (hheights : ∀ b ∈ blocks, b.height ≠ 0) (walk : CheckpointWalk) :
    (blocks.map fun b => (b.height, b.header)).foldlM (checkpointStep genesis) walk =
      blocks.foldlM (fun walk b => walk.next b.height b.header) walk := by
  rw [foldlM_map]
  exact foldlM_congr (fun b hb => checkpointStep_of_ne (hheights b hb)) walk

theorem checkpointStep_ok {walk' : CheckpointWalk} {e : Height × Header}
    (h : checkpointStep genesis walk e = .ok walk') :
    walk'.checkpoints = walk.checkpoints ∨ headerStateCheckpointInterval ∣ e.1.val ∧
      walk'.checkpoints = walk.checkpoints ++ [⟨e.1, e.2.hash, walk'.totals.work,
      walk'.totals.weight⟩] := by
  unfold checkpointStep at h
  split_ifs at h with hzero
  · rw [bind_eq_ok] at h
    obtain ⟨_, _, h⟩ := h
    cases h
    exact .inr ⟨by rw [hzero]; exact Nat.dvd_zero _, rfl⟩
  · simp only [CheckpointWalk.next, bind_eq_ok, return_eq_ok] at h
    obtain ⟨totals, _, rfl⟩ := h
    split_ifs with hinterval
    · exact .inr ⟨hinterval, rfl⟩
    · exact .inl rfl

/-- The checkpoint belongs to a block, and the walk over the blocks up to it ends with it. -/
structure ResumesAt (genesis : BlockHash) (blocks : List Block)
    (before : List HeaderStateCheckpoint) (c : HeaderStateCheckpoint) (i : Nat)
    (b : Block) : Prop where
  block : blocks[i]? = some b
  height : c.height = b.height
  hash : c.hash = b.hash
  interval : headerStateCheckpointInterval ∣ c.height.val
  walk : checkpointWalk genesis (blocks.take (i + 1)) =
    .ok ⟨before ++ [c], ⟨c.cumulativeWork, c.cumulativeWeight⟩⟩

theorem ResumesAt.append {c : HeaderStateCheckpoint} (h : ResumesAt genesis blocks before c i b)
    (more : List Block) : ResumesAt genesis (blocks ++ more) before c i b := by
  obtain ⟨hi, _⟩ := List.getElem?_eq_some_iff.mp h.block
  refine ⟨by rw [getElem?_append_left hi, h.block], h.height, h.hash, h.interval, ?_⟩
  rw [take_append_of_le_length hi, h.walk]

/-- By induction from the last block: a block adds at most one checkpoint, taken where the walk over
the blocks before it has arrived. -/
theorem checkpointWalk_resumes (h : checkpointWalk genesis blocks = .ok walk)
    {after : List HeaderStateCheckpoint} {c : HeaderStateCheckpoint}
    (hsplit : walk.checkpoints = before ++ c :: after) :
    ∃ i b, ResumesAt genesis blocks before c i b := by
  induction blocks using List.reverseRecOn generalizing walk after with
  | nil =>
    cases h
    cases before <;> cases hsplit
  | append_singleton blocks b ih =>
    have hwhole := h
    rw [checkpointWalk_append, bind_eq_ok] at h
    obtain ⟨prior, hprior, hstep⟩ := h
    rw [map_singleton, foldlM_cons, bind_eq_ok] at hstep
    obtain ⟨_, hstep, ⟨⟩⟩ := hstep
    rcases checkpointStep_ok hstep with hsame | ⟨hinterval, hpush⟩
    · obtain ⟨i, b', hresumes⟩ := ih hprior (hsame.symm.trans hsplit)
      exact ⟨i, b', hresumes.append [b]⟩
    · rcases eq_nil_or_concat after with rfl | ⟨after, last, rfl⟩
      · -- the checkpoint of the last block
        obtain ⟨rfl, hlast⟩ := append_inj' (hpush.symm.trans hsplit) rfl
        obtain rfl := (List.cons.inj hlast).1
        refine ⟨blocks.length, b, getElem?_concat_length .., rfl, rfl, hinterval, ?_⟩
        rw [take_of_length_le (by simp), hwhole, ← hpush]
      · rw [concat_eq_append, ← cons_append, ← append_assoc] at hsplit
        obtain ⟨hbefore, _⟩ := append_inj' (hpush.symm.trans hsplit) rfl
        obtain ⟨i, b', hresumes⟩ := ih hprior hbefore
        exact ⟨i, b', hresumes.append [b]⟩

/-! ## Chains of a node -/

variable {first : Block} {rest : List Block} {l : Ledger}

theorem Chain.HeadersOf.height_ne_zero (h : c.HeadersOf (first :: rest)) :
    ∀ b ∈ rest, b.height ≠ 0 := by
  intro b hb hzero
  obtain ⟨i, hi⟩ := mem_iff_getElem?.mp hb
  have := h.height (i := i + 1) hi
  rw [hzero] at this
  cases this

theorem Chain.HeadersOf.first_height (h : c.HeadersOf (first :: rest)) : first.height = 0 :=
  Fin.ext (h.height (i := 0) rfl)

theorem Chain.HeadersOf.exists_walk (h : c.HeadersOf (first :: rest)) (n : Nat) :
    ∃ walk, ((rest.take n).map Block.headerAtHeight).foldlM (chainStep verifyPow)
      (.start first.headerAtHeight) =
        .ok walk ∧ walk.Follows (((first :: rest).take (n + 1)).map Block.headerAtHeight) := by
  have hlength := h.length_le
  refine Ruled.exists_walk (h.ruled.take (n + 1)) ?_
  rw [length_cons, length_take]
  rw [length_cons] at hlength
  omega

/-- The walk at genesis. -/
def CheckpointWalk.start (first : Block) :
    CheckpointWalk := ⟨[⟨first.height, first.hash, 0, 0⟩], .zero⟩

theorem Chain.HeadersOf.checkpointWalk_eq (h : c.HeadersOf (first :: rest)) (n : Nat) :
    checkpointWalk first.hash ((first :: rest).take (n + 1)) =
      (rest.take n).foldlM (fun walk b => walk.next b.height b.header) (.start first) := by
  have hstart : checkpointStep first.hash ⟨[], .zero⟩ (first.height, first.header) =
      .ok (.start first) := by
    have hcheck : rejectIf (first.header.hash ≠ first.hash)
        (PeerError.message "canonical checkpoint chain has the wrong genesis") = .ok () :=
      rejectIf_eq_ok.mpr (not_not.mpr rfl)
    rw [checkpointStep, if_pos h.first_height, hcheck]
    rfl
  rw [take_succ_cons, checkpointWalk, map_cons, foldlM_cons, hstart, ok_bind,
    foldlM_checkpointStep fun b hb => h.height_ne_zero b (mem_of_mem_take hb)]

theorem Chain.HeadersOf.exists_checkpointWalk (h : c.HeadersOf (first :: rest)) (n : Nat) :
    ∃ walk, checkpointWalk first.hash ((first :: rest).take (n + 1)) = .ok walk ∧
      HeaderTotals.zero.addAll (rest.take n) = .ok walk.totals := by
  obtain ⟨verified, hverified, _⟩ := h.exists_walk n
  have htotals := foldlM_hom (f := fun walk (b : Block) => walk.next b.height b.header)
    (g := fun t b => HeaderTotals.add t b.height b.header) CheckpointWalk.totals
    (fun walk b => walk.next_totals b.height b.header) (rest.take n) (.start first)
  have hsum := HeaderTotals.addAll_of_walk (t := .zero) rfl hverified
  change HeaderTotals.zero.addAll (rest.take n) = _ at htotals
  rw [hsum] at htotals
  obtain ⟨walk, hwalk, heq⟩ := exceptMap_eq_ok.mp htotals.symm
  exact ⟨walk, by rw [h.checkpointWalk_eq, hwalk], by rw [hsum, heq]⟩

theorem Chain.HeadersOf.totals_of_checkpointWalk (h : c.HeadersOf (first :: rest))
    (hwalk : checkpointWalk first.hash (first :: rest) = .ok walk) :
    HeaderTotals.zero.addAll rest = .ok walk.totals := by
  obtain ⟨walk', hwalk', htotals⟩ := h.exists_checkpointWalk rest.length
  rw [← length_cons, take_length, hwalk, Except.ok.injEq] at hwalk'
  rwa [take_length, ← hwalk'] at htotals

theorem Chain.HeadersOf.genesis_mem (h : c.HeadersOf (first :: rest))
    (hwalk : checkpointWalk first.hash ((first :: rest).take (n + 1)) = .ok walk) :
    (⟨first.height, first.hash, 0, 0⟩ : HeaderStateCheckpoint) ∈ walk.checkpoints := by
  rw [h.checkpointWalk_eq] at hwalk
  refine foldlM_invariant (fun walk => _ ∈ walk.checkpoints) ?_ (mem_singleton_self _) hwalk
  intro walk walk' b hb hmem hstep
  have hstep' : checkpointStep first.hash walk (b.height, b.header) = .ok walk' :=
    (checkpointStep_of_ne (h.height_ne_zero b (mem_of_mem_take hb)) walk).trans hstep
  rcases checkpointStep_ok hstep' with hsame | ⟨_, hpush⟩
  · exact hsame ▸ hmem
  · rw [hpush]
    exact mem_append_left _ hmem

theorem Chain.HeadersOf.build_eq (h : l.chain.HeadersOf (first :: rest)) :
    buildHeaderStateCheckpoints first.hash l = checkpointWalk first.hash (first :: rest) := by
  obtain ⟨walk, hwalk, _⟩ := h.exists_checkpointWalk rest.length
  have hmem := h.genesis_mem hwalk
  rw [← length_cons, take_length] at hwalk
  have hne : walk.checkpoints ≠ [] := ne_nil_of_mem hmem
  rw [buildHeaderStateCheckpoints, h.entries]
  change (checkpointWalk first.hash (first :: rest) >>= _) = _
  rw [hwalk, ok_bind, rejectIf, if_neg hne]
  rfl

theorem Chain.HeadersOf.heights_take {blocks : List Block} {c' : Chain} (h : c.HeadersOf blocks)
    (h' : c'.HeadersOf blocks')
    (heq : (blocks.take n).map Block.header = (blocks'.take n).map Block.header) :
    (blocks.take n).map Block.height = (blocks'.take n).map Block.height := by
  have hlength := congrArg List.length heq
  rw [length_map, length_map] at hlength
  apply ext_getElem
  · rw [length_map, length_map, hlength]
  · intro i hi hi'
    rw [length_map, length_take] at hi hi'
    simp only [getElem_map, getElem_take]
    apply Fin.ext
    rw [h.height (getElem?_eq_getElem (by omega)), h'.height (getElem?_eq_getElem (by omega))]

theorem ResumesAt.transfer (hinj : S.InjOn Header.hash) (hold : old.HeadersOf blocks)
    (holdS : old.Within S) (h : c.HeadersOf blocks') (hS : c.Within S)
    (hresumes : ResumesAt genesis blocks before a i b)
    (hhash : (c.header a.height).map Header.hash = some a.hash) :
    ∃ b', ResumesAt genesis blocks' before a i b' := by
  have hheight : a.height.val = i := by rw [hresumes.height, hold.height hresumes.block]
  rw [Chain.header, h.headers, hheight, Option.map_map, Option.map_eq_some_iff] at hhash
  obtain ⟨b', hb', hhash⟩ := hhash
  obtain ⟨_, htake⟩ := hold.take_eq hinj h holdS hS hresumes.block hb'
    (hresumes.hash.symm.trans hhash.symm)
  refine ⟨b', hb', Fin.ext (hheight.trans (h.height hb').symm), hhash.symm, hresumes.interval, ?_⟩
  rw [← checkpointWalk_congr (hold.heights_take h htake) htake, hresumes.walk]

theorem ResumesAt.next_height (h : c.HeadersOf blocks)
    (hresumes : ResumesAt genesis blocks before a i b) : a.height.next.val = i + 1 := by
  have hheight : a.height.val = i := by rw [hresumes.height, h.height hresumes.block]
  have hlt := a.height.isLt
  have hinterval := hresumes.interval
  -- the last height is no multiple of the interval
  have hroom : i + 1 < 2 ^ 64 := by
    rw [headerStateCheckpointInterval] at hinterval
    omega
  rw [Height.val_next (by omega), hheight]

theorem Chain.HeadersOf.updated_eq (hinj : S.InjOn Header.hash)
    (h : l.chain.HeadersOf (first :: rest)) (hS : l.chain.Within S) {blocks : List Block}
    (hold : old.HeadersOf blocks) (holdS : old.Within S)
    (hwalk : checkpointWalk first.hash blocks = .ok walk) :
    updatedHeaderStateCheckpoints first.hash (some walk.checkpoints) l =
      checkpointWalk first.hash (first :: rest) := by
  obtain ⟨last, hlast⟩ : ∃ last, (first :: rest).getLast? = some last :=
    Option.isSome_iff_exists.mp (by simp)
  obtain ⟨htip, _⟩ := h.tip last hlast
  rw [updatedHeaderStateCheckpoints, htip]
  simp only [okOr, ok_bind]
  cases hkept : (walk.checkpoints.rdropWhile fun c => !c.onChain l.chain last.height).getLast? with
  | none => exact h.build_eq
  | some anchor =>
    -- the kept checkpoints end with one that lies on the chain
    obtain ⟨before, hbefore⟩ := getLast?_eq_some_iff.mp hkept
    have hne : (walk.checkpoints.rdropWhile fun c => !c.onChain l.chain last.height) ≠ [] := by
      rw [hbefore]
      exact append_ne_nil_of_right_ne_nil _ (cons_ne_nil _ _)
    have hon := rdropWhile_last_not _ _ hne
    rw [getLast_eq_iff_getLast?_eq_some hne |>.mpr hkept] at hon
    obtain ⟨after, hafter⟩ :=
      rdropWhile_prefix (fun c => !c.onChain l.chain last.height) walk.checkpoints
    rw [hbefore, append_assoc, singleton_append] at hafter
    obtain ⟨i, b, hresumes⟩ := checkpointWalk_resumes hwalk hafter.symm
    simp only [HeaderStateCheckpoint.onChain, Bool.not_eq_true', decide_eq_false_iff_not, not_not]
      at hon
    obtain ⟨b', hresumes'⟩ := hresumes.transfer hinj hold holdS h hS hon.2
    -- the loop runs over the blocks above it
    have hend : last.height.val + 1 = (first :: rest).length := by
      rw [getLast?_eq_getElem?] at hlast
      rw [h.height hlast, length_cons]
      omega
    have hrest : ∀ b ∈ (first :: rest).drop (i + 1), b.height ≠ 0 :=
      fun b hb => h.height_ne_zero b (mem_of_mem_drop hb)
    conv_rhs => rw [← take_append_drop (i + 1) (first :: rest)]
    rw [checkpointWalk_append, hresumes'.walk, ok_bind, foldlM_checkpointStep hrest]
    simp only
    rw [h.foldlM_heightsFrom (by omega) _ _ CheckpointWalk.next, hend, take_length,
      hresumes'.next_height h, hbefore]

/-! ## The cache of a node -/

/-- What a node's cache may hold. Every ledger it had so far lies on the genesis block, and `S`
contains their headers. -/
inductive Cached (genesis : BlockHash) (S : Set Header) : CachedLedger → Prop
  | load {l : Ledger} {cached : CachedLedger} (hl : l.OnGenesis genesis) (hS : l.chain.Within S)
      (hcache : updateLedgerCache genesis none l = .ok cached) : Cached genesis S cached
  | update {l : Ledger} {previous cached : CachedLedger} (h : Cached genesis S previous)
      (hl : l.OnGenesis genesis) (hS : l.chain.Within S)
      (hcache : updateLedgerCache genesis (some previous) l = .ok cached) : Cached genesis S cached

/-- The cached checkpoints and totals are those of the cached ledger. -/
theorem Cached.exists_blocks (hinj : S.InjOn Header.hash) {cached : CachedLedger}
    (h : Cached genesis S cached) :
    ∃ first rest, first.hash = genesis ∧
      cached.ledger.chain.HeadersOf (first :: rest) ∧ cached.ledger.chain.Within S ∧
      checkpointWalk genesis (first :: rest) =
        .ok ⟨cached.headerCheckpoints, ⟨cached.cumulativeWork, cached.cumulativeWeight⟩⟩ := by
  induction h with
  | load hl hS hcache =>
    obtain ⟨first, rest, hchain, rfl⟩ := hl.exists_blocks
    simp only [updateLedgerCache, Option.map_none, updatedHeaderStateCheckpoints, hchain.build_eq,
      bind_eq_ok, return_eq_ok] at hcache
    obtain ⟨walk, hwalk, rfl⟩ := hcache
    exact ⟨first, rest, rfl, hchain, hS, hwalk⟩
  | update _ hl hS hcache ih =>
    obtain ⟨_, _, _, hold, holdS, hprevious⟩ := ih
    obtain ⟨first, rest, hchain, rfl⟩ := hl.exists_blocks
    simp only [updateLedgerCache, Option.map_some, bind_eq_ok, return_eq_ok] at hcache
    obtain ⟨walk, hwalk, rfl⟩ := hcache
    rw [hchain.updated_eq hinj hS hold holdS hprevious] at hwalk
    exact ⟨first, rest, rfl, hchain, hS, hwalk⟩

theorem Ledger.OnGenesis.exists_cached (hl : l.OnGenesis genesis) (hS : l.chain.Within S) :
    ∃ cached, Cached genesis S cached ∧ cached.ledger = l := by
  obtain ⟨first, rest, hchain, rfl⟩ := hl.exists_blocks
  obtain ⟨walk, hwalk, _⟩ := hchain.exists_checkpointWalk rest.length
  rw [← length_cons, take_length] at hwalk
  refine ⟨⟨l, walk.checkpoints, walk.totals.work, walk.totals.weight⟩, .load hl hS ?_, rfl⟩
  simp only [updateLedgerCache, Option.map_none, updatedHeaderStateCheckpoints, hchain.build_eq,
    hwalk, ok_bind, pure_eq_ok]

/-! ## The rebuilt state -/

theorem Chain.HeadersOf.addAll_from (h : c.HeadersOf (first :: rest)) {k : Nat}
    (hresumes : ResumesAt first.hash (first :: rest) before a i b) (hik : i ≤ k) :
    HeaderTotals.zero.addAll (rest.take k) =
      HeaderTotals.addAll ⟨a.cumulativeWork, a.cumulativeWeight⟩
      (((first :: rest).take (k + 1)).drop (i + 1)) := by
  obtain ⟨walk, hwalk, htotals⟩ := h.exists_checkpointWalk i
  rw [hresumes.walk, Except.ok.injEq] at hwalk
  rw [← hwalk] at htotals
  have hsplit : rest.take k = rest.take i ++ (rest.take k).drop i := by
    conv_lhs => rw [← take_append_drop i (rest.take k)]
    rw [take_take, Nat.min_eq_left hik]
  rw [hsplit, HeaderTotals.addAll_append, htotals, ok_bind, take_succ_cons, drop_succ_cons]

theorem Chain.HeadersOf.recent_eq (h : c.HeadersOf blocks) (hk : k.val < blocks.length)
    (start : Nat) (text : String) : ((heightsFrom start k).mapM fun height =>
        (headerAt c height text).map (HeaderAtHeight.mk height)) =
      .ok (((blocks.take (k.val + 1)).drop start).map Block.headerAtHeight) := by
  rw [h.heightsFrom_eq hk, mapM_map]
  refine mapM_eq_ok fun b hb => ?_
  rw [Function.comp_apply, h.headerAt_eq (mem_of_mem_take (mem_of_mem_drop hb))]
  rfl

/-- The state rebuilt from the checkpoints stands where verification from genesis does. -/
theorem Chain.HeadersOf.stateAtHeight (h : l.chain.HeadersOf (first :: rest))
    (hwalk : checkpointWalk first.hash (first :: rest) = .ok walk)
    (hb : (first :: rest)[k.val]? = some b) :
    ∃ state, ledgerHeaderStateAtHeight l walk.checkpoints k = .ok state ∧
      state.height = k ∧ state.header = b.header ∧
      HeaderTotals.zero.addAll (rest.take k.val) = .ok ⟨state.cumulativeWork,
      state.cumulativeWeight⟩ ∧
      ((first :: rest)[if k = 0 then 0 else 1]?).map Block.headerAtHeight =
      some state.difficultyAnchor ∧
      (k.val + 1 < 2 ^ 64 → state.recentHeaders =
        (((first :: rest).take (k.val + 1)).map Block.headerAtHeight).rtake
        recentHeaderWindow) := by
  obtain ⟨hk, _⟩ := List.getElem?_eq_some_iff.mp hb
  have hheight : b.height = k := Fin.ext (h.height hb)
  have htarget := fun text => hheight ▸ h.headerAt_eq (mem_of_getElem? hb) text
  -- genesis is a checkpoint below every height
  have hwalk' := hwalk
  rw [← take_length (l := first :: rest), length_cons] at hwalk'
  have hsome : (walk.checkpoints.reverse.find? fun c => decide (c.height ≤ k)).isSome = true := by
    rw [find?_isSome]
    refine ⟨_, mem_reverse.mpr (h.genesis_mem hwalk'), ?_⟩
    rw [h.first_height]
    exact decide_eq_true (Fin.zero_le k)
  obtain ⟨a, ha⟩ := Option.isSome_iff_exists.mp hsome
  have hle : a.height ≤ k := by simpa using find?_some ha
  obtain ⟨before, after, hsplit⟩ := append_of_mem (mem_reverse.mp (mem_of_find?_eq_some ha))
  obtain ⟨i, b', hresumes⟩ := checkpointWalk_resumes hwalk hsplit
  have hi : a.height.val = i := by rw [hresumes.height, h.height hresumes.block]
  have hcheckpoint :=
    fun text => hresumes.height ▸ h.headerAt_eq (mem_of_getElem? hresumes.block) text
  have hsum := h.addAll_from hresumes (k := k.val) (hi ▸ Fin.le_def.mp hle)
  obtain ⟨_, _, htotals⟩ := h.exists_checkpointWalk k.val
  have hanchor : ∃ header, (∀ text, headerAt l.chain (if k = 0 then 0 else 1) text = .ok header) ∧
      ((first :: rest)[if k = 0 then 0 else 1]?).map Block.headerAtHeight =
        some ⟨if k = 0 then 0 else 1, header⟩ := by
    split_ifs with hzero
    · refine ⟨first.header, fun text => h.first_height ▸ h.headerAt_eq mem_cons_self text, ?_⟩
      rw [← h.first_height]
      rfl
    · cases rest with
      | nil =>
        rw [length_singleton, Nat.lt_one_iff] at hk
        exact absurd (Fin.ext hk) hzero
      | cons second rest =>
        have hsecond : second.height = 1 := Fin.ext (h.height (i := 1) rfl)
        refine ⟨second.header, fun text => hsecond ▸ h.headerAt_eq (by simp) text, ?_⟩
        rw [← hsecond]
        rfl
  obtain ⟨anchor, hanchor, hanchorBlock⟩ := hanchor
  simp only [ledgerHeaderStateAtHeight, htarget, ok_bind, ha, okOr, hcheckpoint, rejectIf,
    hresumes.hash, show b'.header.hash = b'.hash from rfl, ne_eq, not_true_eq_false, if_false,
    h.foldlM_heightsFrom hk _ _ HeaderTotals.add, hi, hanchor, h.recent_eq hk]
  change ∃ state, (HeaderTotals.addAll _ _ >>= _) = _ ∧ _
  rw [← hsum, htotals, ok_bind]
  refine ⟨_, rfl, rfl, rfl, rfl, hanchorBlock, fun hroom => ?_⟩
  rw [List.rtake.eq_def, length_map, length_take, Nat.min_eq_left hk, ← map_drop,
    Height.val_next hroom]

end

end Xparq
