import Xparq.Consensus.Work
import Mathlib.Data.List.DropRight

/-!
# Header verification

Synchronization verifies headers without bodies: once from genesis (`verifyHeaderChain`), and
batch by batch from a checkpoint (`verifyHeaderChainExtension`). Both loops keep a window of the
recent headers, which the difficulty at epoch boundaries is computed from.

The two loops are written separately in the source and differ in what they carry along.
`extensionStep_toExtension` says that one iteration of the second is one iteration of the first, and
`headerValidationState_batches` that it does not matter how a list of headers is cut into batches.

The proof-of-work check is a parameter.
-/

namespace Xparq

open Machine Outcome List

def recentHeaderWindow : Nat := wbdaWindow * 2

structure HeaderAtHeight where
  height : Height
  header : Header
  deriving DecidableEq

structure HeaderValidationState where
  height : Height
  header : Header
  cumulativeWork : Work
  cumulativeWeight : U64
  difficultyAnchor : HeaderAtHeight
  recentHeaders : List HeaderAtHeight
  deriving DecidableEq

inductive ForkChoiceError
  | duplicateBlock | unexpectedGenesis
  | invalidBlock (error : BlockError)
  | invalidDifficulty | invalidHeader
  | invalidProofOfWork (error : ConsensusError)
  | invalidHeight | missingParent | serialization
  deriving DecidableEq, Repr

inductive HeaderChainError
  | emptyHeaderChain | wrongGenesis
  | invalidHeaderChain (error : ForkChoiceError)
  | invalidCommonAncestor | serialization
  deriving DecidableEq, Repr

def validateHeaderWeight (header : Header) : Except HeaderChainError Unit :=
  rejectIf (header.blockWeight = 0 ∨ header.blockWeight.val > maxBlockSize)
    (.invalidHeaderChain .invalidHeader)

/-- The weight of the first recent header at the height. -/
def recentWeight (recent : List HeaderAtHeight) (height : Nat) : Except HeaderChainError Nat :=
  (okOr (recent.find? fun candidate => candidate.height.val = height)
    (.invalidHeaderChain .missingParent)).map fun candidate => candidate.header.blockWeight.val

def expectedHeaderDifficulty (previous : HeaderAtHeight) (recent : List HeaderAtHeight) :
    Except HeaderChainError U32 := do
  let bits ← expectedDifficultyForHeight previous.height.next.val previous.header.targetBits
    (recentWeight recent)
  okOr bits (.invalidHeaderChain .invalidDifficulty)

/-- Append; the oldest header leaves a full window. -/
def pushRecent (recent : List HeaderAtHeight) (header : HeaderAtHeight) : List HeaderAtHeight :=
  let recent := recent ++ [header]
  if recent.length > recentHeaderWindow then recent.tail else recent

/-! ## The window -/

theorem rtake_rtake_append {α : Type} (n : Nat) (l r : List α) :
    (l.rtake n ++ r).rtake n = (l ++ r).rtake n := by
  simp only [rtake_eq_reverse_take_reverse, reverse_append, reverse_reverse, take_append,
    take_take]
  congr 3
  omega

theorem length_rtake_le {α : Type} (n : Nat) (l : List α) : (l.rtake n).length ≤ n := by
  rw [List.rtake.eq_def, length_drop]
  omega

theorem pushRecent_rtake (headers : List HeaderAtHeight) (h : HeaderAtHeight) :
    pushRecent (headers.rtake recentHeaderWindow) h =
      (headers ++ [h]).rtake recentHeaderWindow := by
  have hlength := length_rtake_le recentHeaderWindow headers
  rw [← rtake_rtake_append, pushRecent, List.rtake.eq_def (headers.rtake recentHeaderWindow ++ [h])]
  simp only [length_append, length_singleton]
  split_ifs with hfull
  · rw [show (headers.rtake recentHeaderWindow).length + 1 - recentHeaderWindow = 1 by
      omega, drop_one]
  · rw [show (headers.rtake recentHeaderWindow).length + 1 - recentHeaderWindow = 0 by
      omega, drop_zero]

section
variable [Crypto] (pow : Header → U32 → Except ConsensusError Unit)

/-! ## From genesis -/

def HeaderAtHeight.hash (h : HeaderAtHeight) : BlockHash := h.header.hash

/-- What `verify_header_chain` carries along. -/
structure HeaderWalk where
  previous : HeaderAtHeight
  cumulativeWork : Work
  recent : List HeaderAtHeight

/-- One iteration of `verify_header_chain`. -/
def chainStep (walk : HeaderWalk) (current : HeaderAtHeight) :
    Except HeaderChainError HeaderWalk := do
  validateHeaderWeight current.header
  rejectIf (current.height ≠ walk.previous.height.next ∨
    current.header.previousHash ≠ walk.previous.hash)
    .invalidCommonAncestor
  let expected ← expectedHeaderDifficulty walk.previous walk.recent
  rejectIf (current.header.targetBits ≠ expected) (.invalidHeaderChain .invalidDifficulty)
  (pow current.header expected).mapError fun e => .invalidHeaderChain (.invalidProofOfWork e)
  let work ← okOr (blockWork expected) (.invalidHeaderChain .invalidDifficulty)
  return ⟨current, saturatingAdd walk.cumulativeWork work, pushRecent walk.recent current⟩

/-- The walk at genesis. -/
def HeaderWalk.start (first : HeaderAtHeight) : HeaderWalk := ⟨first, 0, [first]⟩

def checkGenesis (headers : List HeaderAtHeight) (expectedGenesis : BlockHash) :
    Except HeaderChainError HeaderAtHeight := do
  let first ← okOr headers.head? .emptyHeaderChain
  rejectIf (first.height ≠ 0 ∨ first.hash ≠ expectedGenesis) .wrongGenesis
  return first

def verifyHeaderChain (headers : List HeaderAtHeight) (expectedGenesis : BlockHash) :
    Except HeaderChainError (BlockHash × Work) := do
  let first ← checkGenesis headers expectedGenesis
  let walk ← headers.tail.foldlM (chainStep pow) (.start first)
  return (walk.previous.hash, walk.cumulativeWork)

def addWeights (total : U64) (headers : List HeaderAtHeight) : U64 :=
  headers.foldl (fun total header => saturatingAdd total
    (header.header.blockWeight.castLE u32_le_u64)) total

def headerValidationState (validatedHeaders : List HeaderAtHeight) (expectedGenesis : BlockHash) :
    Except HeaderChainError HeaderValidationState := do
  let (_, cumulativeWork) ← verifyHeaderChain pow validatedHeaders expectedGenesis
  let tip ← okOr validatedHeaders.getLast? .emptyHeaderChain
  let difficultyAnchor ← okOr validatedHeaders[if tip.height > 0 then 1 else 0]? .emptyHeaderChain
  let start := validatedHeaders.length - recentHeaderWindow
  return {
    height := tip.height, header := tip.header, cumulativeWork
    cumulativeWeight := addWeights 0 (validatedHeaders.drop 1)
    difficultyAnchor, recentHeaders := validatedHeaders.drop start }

/-! ## From a checkpoint -/

/-- What `verify_header_chain_extension_inner` carries along. -/
structure ExtensionWalk where
  previousHeight : Height
  previous : Header
  previousHash : BlockHash
  cumulativeWork : Work
  recent : List HeaderAtHeight

/-- One iteration of `verify_header_chain_extension_inner`. -/
def extensionStep (walk : ExtensionWalk) (chainHeader : HeaderAtHeight) :
    Except HeaderChainError ExtensionWalk := do
  let header := chainHeader.header
  validateHeaderWeight header
  rejectIf (chainHeader.height ≠ walk.previousHeight.next ∨ header.previousHash ≠ walk.previousHash)
    .invalidCommonAncestor
  let bits ← expectedDifficultyForHeight chainHeader.height.val walk.previous.targetBits
    (recentWeight walk.recent)
  let expected ← okOr bits (.invalidHeaderChain .invalidDifficulty)
  rejectIf (header.targetBits ≠ expected) (.invalidHeaderChain .invalidDifficulty)
  (pow header expected).mapError fun e => .invalidHeaderChain (.invalidProofOfWork e)
  let work ← okOr (blockWork expected) (.invalidHeaderChain .invalidDifficulty)
  return ⟨chainHeader.height, header, header.hash, saturatingAdd walk.cumulativeWork work,
    pushRecent walk.recent chainHeader⟩

def verifyHeaderChainExtension (state : HeaderValidationState) (headers : List HeaderAtHeight) :
    Except HeaderChainError (BlockHash × Work) := do
  let checkpointHash := state.header.hash
  rejectIf (state.recentHeaders = [] ∨ state.recentHeaders.length > recentHeaderWindow ∨
    state.recentHeaders.getLast?.map HeaderAtHeight.header ≠ some state.header)
      .invalidCommonAncestor
  let walk ← headers.foldlM (extensionStep pow)
    ⟨state.height, state.header, checkpointHash, state.cumulativeWork, state.recentHeaders⟩
  return (walk.previousHash, walk.cumulativeWork)

def advancedHeaderValidationState (state : HeaderValidationState) (headers : List HeaderAtHeight)
    (cumulativeWork : Work) : HeaderValidationState :=
  let recentHeaders := state.recentHeaders ++ headers
  { height := (headers.getLast?.map HeaderAtHeight.height).getD state.height
    header := (headers.getLast?.map HeaderAtHeight.header).getD state.header
    cumulativeWork
    cumulativeWeight := addWeights state.cumulativeWeight headers
    difficultyAnchor := state.difficultyAnchor
    recentHeaders := if recentHeaders.length > recentHeaderWindow then
      recentHeaders.drop (recentHeaders.length - recentHeaderWindow) else recentHeaders }

def advanceHeaderValidationState (state : HeaderValidationState) (headers : List HeaderAtHeight) :
    Except HeaderChainError HeaderValidationState := do
  let (_, cumulativeWork) ← verifyHeaderChainExtension pow state headers
  return advancedHeaderValidationState state headers cumulativeWork

/-! ## The two loops agree -/

variable {pow}

/-- A walk of the first loop as the second carries it. -/
def HeaderWalk.toExtension (walk : HeaderWalk) : ExtensionWalk :=
  ⟨walk.previous.height, walk.previous.header, walk.previous.hash, walk.cumulativeWork, walk.recent⟩

theorem extensionStep_toExtension (walk : HeaderWalk) (h : HeaderAtHeight) :
    extensionStep pow walk.toExtension h = (chainStep pow walk h).map HeaderWalk.toExtension := by
  unfold extensionStep chainStep HeaderWalk.toExtension
  simp only
  cases validateHeaderWeight h.header with
  | error e => rfl
  | ok u =>
    by_cases hlink : h.height ≠ walk.previous.height.next ∨
      h.header.previousHash ≠ walk.previous.hash
    · rw [ok_bind, ok_bind, rejectIf, if_pos hlink]
      rfl
    · -- the checked height is the one the first loop computes
      have hheight : h.height = walk.previous.height.next := not_not.mp (not_or.mp hlink).1
      rw [ok_bind, ok_bind, rejectIf, if_neg hlink, ok_bind, ok_bind, hheight,
        expectedHeaderDifficulty]
      cases expectedDifficultyForHeight walk.previous.height.next.val
        walk.previous.header.targetBits
          (recentWeight walk.recent) with
      | error e => rfl
      | ok bits =>
        rw [ok_bind, ok_bind]
        cases bits with
        | none => rfl
        | some bits =>
          simp only [okOr, ok_bind]
          cases rejectIf (h.header.targetBits ≠ bits)
            (HeaderChainError.invalidHeaderChain .invalidDifficulty) with
          | error e => rfl
          | ok u =>
            rw [ok_bind, ok_bind]
            cases pow h.header bits with
            | error e => rfl
            | ok u =>
              cases blockWork bits with
              | none => rfl
              | some work =>
                simp only [Except.mapError, ok_bind, pure_eq_ok, Except.map, HeaderAtHeight.hash,
                  hheight]

/-- The walk stands at the end of the headers and keeps the last of them. -/
structure HeaderWalk.Follows (walk : HeaderWalk) (headers : List HeaderAtHeight) : Prop where
  last : headers.getLast? = some walk.previous
  recent : walk.recent = headers.rtake recentHeaderWindow

omit [Crypto] in
theorem follows_start (first : HeaderAtHeight) : (HeaderWalk.start first).Follows [first] := by
  have hlength : 1 - recentHeaderWindow = 0 := by decide
  refine ⟨rfl, ?_⟩
  rw [List.rtake.eq_def, length_singleton, hlength, drop_zero, HeaderWalk.start]

variable {walk walk' : HeaderWalk} {headers batch : List HeaderAtHeight}
  {state : HeaderValidationState}

theorem HeaderWalk.Follows.step {h : HeaderAtHeight} (hwalk : walk.Follows headers)
    (hstep : chainStep pow walk h = .ok walk') : walk'.Follows (headers ++ [h]) := by
  simp only [chainStep, bind_eq_ok, return_eq_ok] at hstep
  obtain ⟨_, _, _, _, _, _, _, _, _, _, _, _, rfl⟩ := hstep
  refine ⟨by simp, ?_⟩
  rw [← pushRecent_rtake, ← hwalk.recent]

theorem HeaderWalk.Follows.run (hwalk : walk.Follows headers)
    (hrun : batch.foldlM (chainStep pow) walk = .ok walk') :
    walk'.Follows (headers ++ batch) := by
  induction batch generalizing walk headers with
  | nil =>
    cases hrun
    rwa [append_nil]
  | cons h rest ih =>
    rw [foldlM_cons, bind_eq_ok] at hrun
    obtain ⟨mid, hstep, hrest⟩ := hrun
    rw [← singleton_append, ← append_assoc]
    exact ih (hwalk.step hstep) hrest

/-- The state stands at the end of the walk; nothing is said of its window of headers. -/
structure HeaderValidationState.At (state : HeaderValidationState) (walk : HeaderWalk)
    (headers : List HeaderAtHeight) : Prop where
  follows : walk.Follows headers
  height : state.height = walk.previous.height
  header : state.header = walk.previous.header
  work : state.cumulativeWork = walk.cumulativeWork
  weight : state.cumulativeWeight = addWeights 0 (headers.drop 1)

/-- The state describes the walk that led to it. -/
structure HeaderValidationState.Covers (state : HeaderValidationState) (walk : HeaderWalk)
    (headers : List HeaderAtHeight) : Prop extends state.At walk headers where
  recent : state.recentHeaders = walk.recent

variable {first : HeaderAtHeight} {rest : List HeaderAtHeight} {genesis : BlockHash}

theorem headerValidationState_covers (hgenesis : checkGenesis (first :: rest) genesis = .ok first)
    (hwalk : rest.foldlM (chainStep pow) (.start first) = .ok walk) :
    ∃ state, headerValidationState pow (first :: rest) genesis = .ok state ∧
      state.Covers walk (first :: rest) := by
  have hfollows : walk.Follows (first :: rest) := (follows_start first).run hwalk
  obtain ⟨anchor, hanchor⟩ : ∃ anchor,
    (first :: rest)[if walk.previous.height > 0 then 1 else 0]? = some anchor := by
    split_ifs with hheight
    · cases rest with
      | cons second rest => exact ⟨second, rfl⟩
      | nil =>
        -- a walk of one header stands at genesis
        simp only [checkGenesis, bind_eq_ok, rejectIf_eq_ok, not_or, not_not,
          pure_eq_ok, okOr_eq_ok, head?_cons] at hgenesis
        obtain ⟨_, hfirst, _, ⟨hzero, _⟩, _⟩ := hgenesis
        cases hfirst
        cases hwalk
        rw [HeaderWalk.start, hzero] at hheight
        exact absurd hheight (lt_irrefl _)
    · exact ⟨first, rfl⟩
  refine ⟨⟨walk.previous.height, walk.previous.header, walk.cumulativeWork, addWeights 0 rest,
    anchor, walk.recent⟩, ?_, ⟨hfollows, rfl, rfl, rfl, rfl⟩, rfl⟩
  simp only [headerValidationState, verifyHeaderChain, hgenesis, ok_bind, tail_cons,
    hwalk, pure_eq_ok, hfollows.last, okOr, hanchor, Except.ok.injEq,
      HeaderValidationState.mk.injEq, hfollows.recent, true_and]
  exact ⟨rfl, rfl⟩

theorem headerValidationState_eq_ok
    (h : headerValidationState pow (first :: rest) genesis = .ok state) :
    checkGenesis (first :: rest) genesis = .ok first ∧
      ∃ walk, rest.foldlM (chainStep pow) (.start first) = .ok walk ∧
      state.Covers walk (first :: rest) := by
  have h' := h
  simp only [headerValidationState, verifyHeaderChain, bind_eq_ok] at h
  obtain ⟨_, ⟨first', hgenesis, walk, hwalk, _⟩, _⟩ := h
  have hfirst : first' = first := by
    simp only [checkGenesis, bind_eq_ok, okOr_eq_ok, head?_cons, pure_eq_ok] at hgenesis
    obtain ⟨_, hhead, _, _, hfirst⟩ := hgenesis
    cases hfirst
    exact (Option.some.inj hhead).symm
  subst hfirst
  obtain ⟨state', hstate', hcovers⟩ := headerValidationState_covers hgenesis hwalk
  rw [hstate', Except.ok.injEq] at h'
  exact ⟨hgenesis, walk, hwalk, h' ▸ hcovers⟩

theorem HeaderValidationState.Covers.advance (hstate : state.Covers walk headers) :
    advanceHeaderValidationState pow state batch = (batch.foldlM (chainStep pow) walk).map
      fun walk => advancedHeaderValidationState state batch walk.cumulativeWork := by
  have hlast : state.recentHeaders.getLast?.map HeaderAtHeight.header = some state.header := by
    rw [hstate.recent, hstate.follows.recent, rtake_eq_reverse_take_reverse, getLast?_reverse,
      head?_take, head?_reverse, hstate.follows.last, hstate.header, if_neg (by decide),
        Option.map_some]
  have hnil : state.recentHeaders ≠ [] := by
    intro hnil
    rw [hnil] at hlast
    cases hlast
  have hlength : state.recentHeaders.length ≤ recentHeaderWindow := by
    rw [hstate.recent, hstate.follows.recent]
    exact length_rtake_le _ _
  have hstart : (⟨state.height, state.header, state.header.hash, state.cumulativeWork,
      state.recentHeaders⟩ :
      ExtensionWalk) = walk.toExtension := by
    rw [hstate.height, hstate.header, hstate.work, hstate.recent]
    rfl
  have hcheck : ¬ (state.recentHeaders = [] ∨ state.recentHeaders.length > recentHeaderWindow ∨
      state.recentHeaders.getLast?.map HeaderAtHeight.header ≠ some state.header) := by
    rintro (h | h | h)
    · exact hnil h
    · exact absurd hlength (not_le.mpr h)
    · exact h hlast
  rw [advanceHeaderValidationState, verifyHeaderChainExtension, rejectIf, if_neg hcheck,
    ok_bind, hstart, foldlM_hom HeaderWalk.toExtension extensionStep_toExtension]
  cases batch.foldlM (chainStep pow) walk with
  | error e => rfl
  | ok walk' => rfl

theorem HeaderValidationState.Covers.advanced (hstate : state.Covers walk headers)
    (hrun : batch.foldlM (chainStep pow) walk = .ok walk') :
    (advancedHeaderValidationState state batch walk'.cumulativeWork).Covers walk'
      (headers ++ batch) := by
  have hfollows := hstate.follows.run hrun
  have hlast := hfollows.last
  have hnil : headers ≠ [] := by
    rintro rfl
    cases hstate.follows.last
  have hprevious : batch.getLast?.getD walk.previous = walk'.previous := by
    rw [getLast?_append, hstate.follows.last] at hlast
    cases hbatch : batch.getLast? with
    | none =>
      rw [hbatch] at hlast
      exact Option.some.inj hlast
    | some h =>
      rw [hbatch] at hlast
      exact Option.some.inj hlast
  refine ⟨⟨hfollows, ?_, ?_, rfl, ?_⟩, ?_⟩
  · rw [← hprevious, advancedHeaderValidationState, hstate.height]
    cases batch.getLast? <;> rfl
  · rw [← hprevious, advancedHeaderValidationState, hstate.header]
    cases batch.getLast? <;> rfl
  · rw [advancedHeaderValidationState, hstate.weight,
      drop_append_of_le_length (length_pos_of_ne_nil hnil)]
    exact (foldl_append).symm
  · rw [hfollows.recent, ← rtake_rtake_append, ← hstate.follows.recent, ← hstate.recent,
      List.rtake.eq_def]
    simp only [advancedHeaderValidationState]
    split_ifs with hfull
    · rfl
    · rw [Nat.sub_eq_zero_of_le (not_lt.mp hfull), drop_zero]

/-- A batch advances the state exactly when its headers extend the walk, so the cuts leave no trace.
-/
theorem HeaderValidationState.Covers.batches (hstate : state.Covers walk headers)
    (batches : List (List HeaderAtHeight)) :
    ((∃ walk', batches.flatten.foldlM (chainStep pow) walk = .ok walk') ↔
      ∃ state', batches.foldlM (advanceHeaderValidationState pow) state = .ok state') ∧
    ∀ walk' state', batches.flatten.foldlM (chainStep pow) walk = .ok walk' →
      batches.foldlM (advanceHeaderValidationState pow) state = .ok state' →
      state'.Covers walk' (headers ++ batches.flatten) := by
  induction batches generalizing state walk headers with
  | nil =>
    refine ⟨⟨fun _ => ⟨state, rfl⟩, fun _ => ⟨walk, rfl⟩⟩, ?_⟩
    rintro walk' state' ⟨⟩ ⟨⟩
    rwa [flatten_nil, append_nil]
  | cons batch batches ih =>
    rw [flatten_cons, foldlM_append, foldlM_cons, hstate.advance]
    cases hrun : batch.foldlM (chainStep pow) walk with
    | error e => exact ⟨⟨nofun, nofun⟩, nofun⟩
    | ok mid =>
      rw [← append_assoc]
      exact ih (hstate.advanced hrun)

/-- It does not matter how the headers are cut into batches. -/
theorem headerValidationState_batches (first : HeaderAtHeight) (rest : List HeaderAtHeight)
    (batches : List (List HeaderAtHeight)) (genesis : BlockHash) :
    ((∃ state, headerValidationState pow (first :: rest ++ batches.flatten) genesis = .ok state) ↔
      ∃ state state', headerValidationState pow (first :: rest) genesis = .ok state ∧
        batches.foldlM (advanceHeaderValidationState pow) state = .ok state') ∧
    ∀ full state state',
      headerValidationState pow (first :: rest ++ batches.flatten) genesis = .ok full →
      headerValidationState pow (first :: rest) genesis = .ok state →
      batches.foldlM (advanceHeaderValidationState pow) state = .ok state' →
      full.height = state'.height ∧ full.header = state'.header ∧
        full.cumulativeWork = state'.cumulativeWork ∧
        full.cumulativeWeight = state'.cumulativeWeight ∧
        full.recentHeaders = state'.recentHeaders := by
  have hgenesis : checkGenesis (first :: rest ++ batches.flatten) genesis =
      checkGenesis (first :: rest) genesis := rfl
  rw [cons_append]
  constructor
  · constructor
    · rintro ⟨full, hfull⟩
      obtain ⟨hcheck, walk, hwalk, _⟩ := headerValidationState_eq_ok hfull
      rw [foldlM_append, bind_eq_ok] at hwalk
      obtain ⟨mid, hmid, hrun⟩ := hwalk
      obtain ⟨state, hstate, hcovers⟩ :=
        headerValidationState_covers (hgenesis.symm.trans hcheck) hmid
      obtain ⟨state', hstate'⟩ := (hcovers.batches batches).1.mp ⟨walk, hrun⟩
      exact ⟨state, state', hstate, hstate'⟩
    · rintro ⟨state, state', hstate, hstate'⟩
      obtain ⟨hcheck, mid, hmid, hcovers⟩ := headerValidationState_eq_ok hstate
      obtain ⟨walk, hrun⟩ := (hcovers.batches batches).1.mpr ⟨state', hstate'⟩
      have hwalk : (rest ++ batches.flatten).foldlM (chainStep pow) (.start first) = .ok walk := by
        rw [foldlM_append, hmid]
        exact hrun
      obtain ⟨full, hfull, _⟩ := headerValidationState_covers (hgenesis.trans hcheck) hwalk
      exact ⟨full, hfull⟩
  · intro full state state' hfull hstate hstate'
    obtain ⟨_, walk, hwalk, hcovers⟩ := headerValidationState_eq_ok hfull
    obtain ⟨_, mid, hmid, hmidCovers⟩ := headerValidationState_eq_ok hstate
    rw [foldlM_append, hmid] at hwalk
    have hcovers' := (hmidCovers.batches batches).2 walk state' hwalk hstate'
    rw [hcovers.height, hcovers.header, hcovers.work, hcovers.weight, hcovers.recent,
      hcovers'.height, hcovers'.header, hcovers'.work, hcovers'.weight, hcovers'.recent]
    exact ⟨rfl, rfl, rfl, rfl, rfl⟩

end

end Xparq
