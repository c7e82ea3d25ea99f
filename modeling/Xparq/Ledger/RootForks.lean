import Xparq.Ledger.Executors
import Xparq.Blockchain.Decode

/-!
# The memoized state root

A state remembers the last root it computed in a slot that its clones share, together with copies of
the maps the root was computed of. The remembered root is used again when the maps share their roots
with the copies. `RootForks` holds the clones and their slots: a clone may pass through any state
that a ledger has between operations, also while a block is executed or rolled back, and whoever
computes a root fills the slot for all. A slot never holds the root of an empty state, and what it
holds is the hash of the maps it holds (`CachedStateRoot.Valid`), so the memoized root is the one
computed from scratch (`RootForks.Reachable.root_exact`).

The declared length of the hashed bytes is computed apart, with fixed widths for coins and shares.
It is the length of what is written (`LedgerState.canonicalEncodedLen_eq`).
-/

namespace Xparq

open Machine Outcome OrderedMap LedgerState List

/-! ## The length of the canonical bytes -/

theorem okOr_ofNat? {ε : Type} (n : Nat) (e : ε) :
    okOr ((ofNat? (2 ^ 64) n).map Fin.val) e = if n < 2 ^ 64 then .ok n else .error e := by
  unfold ofNat?
  split <;> rfl

theorem canonicalLength_some (bytes : List Byte) :
    canonicalLength (some bytes) = if bytes.length < 2 ^ 64 then .ok bytes.length
      else .error .encodeFailed :=
  okOr_ofNat? _ _

theorem canonicalLength_none : canonicalLength none = .error .encodeFailed := rfl

theorem encodeLen_eq_none {n : Nat} (h : ¬ n < 2 ^ 32) : encodeLen n = none := if_neg h

theorem encodeLen_eq_some {n : Nat} (h : n < 2 ^ 32) : encodeLen n = some (leBytes 4 n) := if_pos h

theorem UtxoSet.length_encodeEntry (e : CoinShare × CoinUtxo) :
    (encodeEntry e.1 e.2).length = entryWidth := by
  simp [encodeEntry, entryWidth, Owner.encode]

theorem UtxoSet.canonicalEncodedLen_eq (s : UtxoSet) :
    s.canonicalEncodedLen = canonicalLength s.encode := by
  by_cases hcount : s.coins.length < 2 ^ 32
  · have hwidth : s.coins.length * entryWidth + 4 < 2 ^ 64 := by
      unfold entryWidth
      omega
    have hflat := length_sequence UtxoSet.length_encodeEntry s.coins.entries
    have hlength : s.coins.entries.length = s.coins.length := rfl
    rw [canonicalEncodedLen, canonicalFixedMapLength, if_pos ⟨hcount, hwidth⟩, ok_bind,
      okOr_ofNat?, encode, encodeLen_eq_some hcount, Option.map_some, canonicalLength_some]
    simp only [length_append, length_leBytes, hflat, hlength]
    rw [show 4 + entryWidth * s.coins.length + 8 = s.coins.length * entryWidth + 4 + 8 by ring]
  · rw [canonicalEncodedLen, canonicalFixedMapLength, if_neg fun h => hcount h.1, encode,
      encodeLen_eq_none hcount]
    rfl

theorem AssetState.length_encodeShare (e : Share × AssetShare) :
    (e.1.bytes ++ e.2.encode).length = AssetState.shareWidth := by
  simp [AssetShare.encode, AssetState.shareWidth, Owner.encode]

theorem AssetState.canonicalEncodedLen_eq (s : AssetState) :
    s.canonicalEncodedLen = canonicalLength s.encode := by
  unfold canonicalEncodedLen encode
  cases hrecords : s.encodeRecords with
  | none => rfl
  | some records =>
    by_cases hcount : s.shares.length < 2 ^ 32
    · have hwidth : s.shares.length * shareWidth + 4 < 2 ^ 64 := by
        unfold shareWidth
        omega
      have hflat := length_sequence length_encodeShare s.shares.entries
      have hlength : s.shares.entries.length = s.shares.length := rfl
      have htotal : records.length + 4 + shareWidth * s.shares.length =
          records.length + (s.shares.length * shareWidth + 4) := by ring
      rw [canonicalFixedMapLength, if_pos ⟨hcount, hwidth⟩, encodeLen_eq_some hcount,
        Option.bind_eq_bind, Option.bind_some, Option.bind_some, Option.pure_def,
          canonicalLength_some, canonicalLength_some]
      simp only [length_append, length_leBytes, hflat, hlength, htotal, ok_bind, okOr_ofNat?]
      -- records that are too long alone are too long with the shares
      split_ifs with hr ht
      · rw [ok_bind, if_pos ht]
      · rw [ok_bind, if_neg ht]
      · omega
      · rfl
    · rw [canonicalFixedMapLength, if_neg fun h => hcount h.1, encodeLen_eq_none hcount,
        canonicalLength_some]
      split_ifs <;> rfl

namespace LedgerState

theorem canonicalEncodedLen_eq (s : LedgerState) :
    s.canonicalEncodedLen = canonicalLength s.encode := by
  unfold canonicalEncodedLen encode
  rw [s.utxos.canonicalEncodedLen_eq, s.assets.canonicalEncodedLen_eq]
  cases s.utxos.encode with
  | none => rfl
  | some utxos =>
    cases s.programs.encode with
    | none =>
      rw [canonicalLength_some]
      split_ifs <;> rfl
    | some programs =>
      cases s.assets.encode with
      | none =>
        rw [canonicalLength_some, canonicalLength_some]
        split_ifs <;> rfl
      | some assets =>
        simp only [some_bind, Option.pure_def, canonicalLength_some, length_append,
          length_leBytes, okOr_ofNat?]
        have htotal : utxos.length + 8 + 8 + programs.length + assets.length =
            utxos.length + 16 + programs.length + assets.length := by ring
        rw [htotal]
        by_cases hfit : utxos.length + 16 + programs.length + assets.length < 2 ^ 64
        · rw [if_pos (by omega), if_pos (by omega), if_pos (by omega), ok_bind, ok_bind,
            ok_bind, if_pos hfit]
        · rw [if_neg hfit]
          split_ifs
          · exact if_neg hfit
          all_goals rfl

end LedgerState

/-! ## The slot -/

/-- A root, with the components it was computed of. -/
structure CachedStateRoot where
  utxos : UtxoSet
  coin : CoinRecord
  assets : AssetState
  programs : ProgramRegistry
  root : StateRoot
  deriving DecidableEq

/-- Which maps of a remembered state and a state share their roots. -/
structure SharedRoots where
  coins : Bool
  programs : Bool
  records : Bool
  shares : Bool

def UtxoSet.sameCanonicalView (s other : UtxoSet) (coins : Bool) : Bool :=
  coins && s.totalValue = other.totalValue

def AssetState.sameCanonicalView (records shares : Bool) : Bool := records && shares

namespace CachedStateRoot

def of (s : LedgerState) (root : StateRoot) :
    CachedStateRoot := ⟨s.utxos, s.coin, s.assets, s.programs, root⟩

/-- The remembered components as a state. -/
def state (cached : CachedStateRoot) :
    LedgerState := ⟨cached.utxos, cached.coin, cached.programs, cached.assets⟩

end CachedStateRoot

/-- Maps that share a root have the same entries. -/
structure SharedRoots.Honest (shared : SharedRoots) (s t : LedgerState) : Prop where
  coins : shared.coins = true → s.utxos.coins = t.utxos.coins
  programs : shared.programs = true → s.programs.programs = t.programs.programs
  records : shared.records = true → s.assets.records = t.assets.records
  shares : shared.shares = true → s.assets.shares = t.assets.shares

namespace LedgerState

variable {s t : LedgerState}

def cachedStateRoot (cache : Option CachedStateRoot) (shared : SharedRoots) (s : LedgerState) :
    Option StateRoot :=
  cache.bind fun cached =>
    if cached.utxos.sameCanonicalView s.utxos shared.coins ∧ cached.coin = s.coin ∧
        AssetState.sameCanonicalView shared.records shared.shares ∧ shared.programs
          then some cached.root
    else none

/-- What is hashed agrees; lookups may differ. -/
@[mk_iff]
structure SameView (s t : LedgerState) : Prop where
  coins : s.utxos.coins = t.utxos.coins
  totalValue : s.utxos.totalValue = t.utxos.totalValue
  coin : s.coin = t.coin
  programs : s.programs.programs = t.programs.programs
  records : s.assets.records = t.assets.records
  shares : s.assets.shares = t.assets.shares

theorem SameView.encode (h : SameView s t) : s.encode = t.encode := by
  simp only [LedgerState.encode, UtxoSet.encode, AssetState.encode, AssetState.encodeRecords,
    ProgramRegistry.encode, h.coins, h.totalValue, h.coin, h.programs, h.records, h.shares]

instance (s t : LedgerState) :
    Decidable (SameView s t) := decidable_of_iff _ (sameView_iff s t).symm

/-- All canonical components are empty. -/
abbrev CanonicallyEmpty (s : LedgerState) : Prop := SameView s empty

section
variable [Crypto]

/-- The root of a state, without any memory and without a declared length. -/
def scratchStateRoot (s : LedgerState) : Except LedgerError StateRoot :=
  if s.CanonicallyEmpty then .ok 0
  else match s.encode with
    | some bytes =>
      if bytes.length < 2 ^ 64 then .ok (domain .protocolState bytes)
        else .error (LedgerError.ofCodec .encodeFailed)
    | none => .error (LedgerError.ofCodec .encodeFailed)

/-- A root that has been computed is remembered; the root of the default state is not. -/
def memoizedStateRoot (shared : SharedRoots) (s : LedgerState) (cache : Option CachedStateRoot) :
    Except LedgerError StateRoot × Option CachedStateRoot :=
  match cachedStateRoot cache shared s with
  | some root => (.ok root, cache)
  | none =>
    if s.assets.IsDefault ∧ s.utxos.coins.isEmpty = true ∧ s.programs.programs.isEmpty = true ∧
        s.coin.totalMined = 0 ∧ s.coin.totalBurned = 0 then (.ok 0, cache)
    else match s.hashCanonicalState with
      | .error e => (.error (LedgerError.ofCodec e), cache)
      | .ok root => (.ok root, some (.of s root))

theorem hashCanonicalState_eq (s : LedgerState) : s.hashCanonicalState = match s.encode with
    | some bytes => if bytes.length < 2 ^ 64 then .ok (domain .protocolState bytes)
      else .error .encodeFailed
    | none => .error .encodeFailed := by
  rw [hashCanonicalState, canonicalEncodedLen_eq]
  cases s.encode with
  | none => rfl
  | some bytes =>
    simp only [canonicalLength_some]
    split_ifs
    · rw [ok_bind, okOr, ok_bind, rejectIf, if_neg (not_not.mpr rfl)]
      rfl
    · rfl

theorem hashCanonicalState_eq_ok {root : StateRoot} : s.hashCanonicalState = .ok root ↔
    ∃ bytes, s.encode = some bytes ∧ bytes.length < 2 ^ 64 ∧
      root = domain .protocolState bytes := by
  rw [hashCanonicalState_eq]
  cases s.encode with
  | none => simp
  | some bytes =>
    simp only [Option.some.injEq, exists_eq_left']
    split_ifs with hlength
    · rw [Except.ok.injEq, eq_comm]
      exact ⟨fun hroot => ⟨hlength, hroot⟩, And.right⟩
    · exact ⟨nofun, fun h => absurd h.1 hlength⟩

omit [Crypto] in
/-- The source also looks at the lookups of the assets, and not at the total value. In a sound state
these are empty with the maps. -/
theorem Sound.default_iff (h : Sound s) :
    (s.assets.IsDefault ∧ s.utxos.coins.isEmpty = true ∧ s.programs.programs.isEmpty = true ∧
      s.coin.totalMined = 0 ∧ s.coin.totalBurned = 0) ↔ s.CanonicallyEmpty := by
  simp only [OrderedMap.isEmpty_iff]
  constructor
  · rintro ⟨hassets, hcoins, hprograms, hmined, hburned⟩
    have htotal := h.coin
    rw [hmined, hburned] at htotal
    have hvalue : s.utxos.totalValue = 0 := Fin.ext htotal
    have hcoin : s.coin = ⟨0, 0⟩ := by
      calc s.coin = ⟨s.coin.totalMined, s.coin.totalBurned⟩ := rfl
        _ = ⟨0, 0⟩ := by rw [hmined, hburned]
    exact ⟨hcoins, hvalue, hcoin, hprograms, hassets.1, hassets.2.1⟩
  · intro hempty
    refine ⟨h.indexed.isDefault hempty.records hempty.shares, hempty.coins, hempty.programs, ?_, ?_⟩
    · rw [hempty.coin]
      rfl
    · rw [hempty.coin]
      rfl

theorem Sound.applicationStateRoot_eq (h : Sound s) :
    s.applicationStateRoot = s.scratchStateRoot := by
  rw [applicationStateRoot, scratchStateRoot, hashCanonicalState_eq]
  simp only [h.default_iff]
  split_ifs
  · rfl
  · cases s.encode with
    | none => rfl
    | some bytes =>
      simp only
      split_ifs <;> rfl

end

end LedgerState

namespace CachedStateRoot

variable [Crypto] {s : LedgerState} {root : StateRoot} {cached : CachedStateRoot}

/-- The remembered root is the hash of the remembered components, which are not all empty. -/
structure Valid (cached : CachedStateRoot) : Prop where
  root : cached.state.hashCanonicalState = .ok cached.root
  nonempty : ¬ cached.state.CanonicallyEmpty

theorem valid_of (h : s.hashCanonicalState = .ok root) (hempty : ¬ s.CanonicallyEmpty) :
    (of s root).Valid :=
  ⟨h, hempty⟩

theorem Valid.scratchStateRoot (h : cached.Valid) (hview : SameView cached.state s) :
    s.scratchStateRoot = .ok cached.root := by
  obtain ⟨bytes, hbytes, hlength, hroot⟩ := hashCanonicalState_eq_ok.mp h.root
  have hnonempty : ¬ s.CanonicallyEmpty := by
    intro hempty
    exact h.nonempty ⟨hview.coins.trans hempty.coins, hview.totalValue.trans hempty.totalValue,
      hview.coin.trans hempty.coin, hview.programs.trans hempty.programs,
        hview.records.trans hempty.records,
      hview.shares.trans hempty.shares⟩
  rw [LedgerState.scratchStateRoot, if_neg hnonempty, ← hview.encode, hbytes]
  simp only
  rw [if_pos hlength, hroot]

end CachedStateRoot

namespace LedgerState

variable {s : LedgerState} {shared : SharedRoots} {cache : Option CachedStateRoot}
  {root : StateRoot}

theorem cachedStateRoot_eq_some
    (hshared : ∀ cached, cache = some cached → shared.Honest cached.state s)
    (h : cachedStateRoot cache shared s = some root) :
    ∃ cached, cache = some cached ∧ root = cached.root ∧ SameView cached.state s := by
  obtain ⟨cached, hcache, h⟩ := Option.bind_eq_some_iff.mp h
  split_ifs at h with hsame
  obtain ⟨hutxos, hcoin, hassets, hprograms⟩ := hsame
  simp only [UtxoSet.sameCanonicalView, AssetState.sameCanonicalView, Bool.and_eq_true,
    decide_eq_true_eq] at hutxos hassets
  have hhonest := hshared cached hcache
  exact ⟨cached, hcache, (Option.some.inj h).symm, hhonest.coins hutxos.1, hutxos.2, hcoin,
    hhonest.programs hprograms, hhonest.records hassets.1, hhonest.shares hassets.2⟩

variable [Crypto]

theorem Sound.memoizedStateRoot_eq (hs : Sound s)
    (hshared : ∀ cached, cache = some cached → shared.Honest cached.state s)
    (hvalid : ∀ cached, cache = some cached → cached.Valid) :
    (memoizedStateRoot shared s cache).1 = s.scratchStateRoot := by
  rw [memoizedStateRoot]
  cases hhit : cachedStateRoot cache shared s with
  | some root =>
    obtain ⟨cached, hcache, rfl, hview⟩ := cachedStateRoot_eq_some hshared hhit
    exact ((hvalid cached hcache).scratchStateRoot hview).symm
  | none =>
    rw [← hs.applicationStateRoot_eq, applicationStateRoot]
    simp only
    split_ifs
    · rfl
    · cases s.hashCanonicalState <;> rfl

end LedgerState

/-! ## Clones that share their slots -/

section
variable [Crypto]

/-- The states that ledgers have between two operations: of a ledger itself, while a block is
executed on it, and while its tip is rolled back. -/
inductive LedgerState.Passed : LedgerState → Prop
  | ledger {l : Ledger} {trace : List (Ledger × Block)}
      (h : Ledger.History l trace) : Passed l.state
  | staging {l : Ledger} {trace : List (Ledger × Block)} {chain : ChainContext} {height : Height}
      {miner : ProgramId} {blocks : List Block} {ops : List BlockOperation} {s : LedgerState}
      (h : Ledger.History l trace)
      (hstaging : Ledger.Staging l chain height miner blocks ops s) : Passed s
  | rollback {l : Ledger} {trace : List (Ledger × Block)} {height : Height}
      {journals undone rest : List StateRollbackJournal} {s : LedgerState}
      (h : Ledger.History l trace) (htip : l.chain.tipHeight = some height)
      (hjournals : l.journals.get? height = some journals)
      (hundone : journals.reverse = undone ++ rest)
      (hfold : undone.foldlM rollbackState l.state = .ok s) : Passed s

omit [Crypto] in
/-- However many of the journals have been undone, the state reached is sound. -/
theorem LedgerState.JournalsUndo.sound_of_partialCommit
    {journals undone rest : List StateRollbackJournal} {now start s s' : LedgerState}
    (hundo : JournalsUndo journals now start) (hsame : Same s now) (hs : Sound s)
    (hundone : journals.reverse = undone ++ rest) (hfold : undone.foldlM rollbackState s = .ok s') :
    Sound s' := by
  induction hundo generalizing s undone with
  | nil _ =>
    obtain ⟨rfl, _⟩ := append_eq_nil_iff.mp hundone.symm
    cases hfold
    exact hs
  | @snoc journals journal now mid start hlast hmid hrest ih =>
    rw [reverse_append, reverse_singleton, singleton_append] at hundone
    cases undone with
    | nil =>
      cases hfold
      exact hs
    | cons first undone =>
      obtain ⟨rfl, hothers⟩ := List.cons.inj hundone
      obtain ⟨s₁, hroll, hs₁, hsame₁⟩ := exists_rollbackState hlast hsame hs hmid
      rw [foldlM_cons, hroll, ok_bind] at hfold
      exact ih hsame₁ hs₁ hothers hfold

theorem LedgerState.Passed.sound {s : LedgerState} (h : Passed s) : Sound s := by
  cases h with
  | ledger h => exact h.backed.consistent.sound
  | staging h hstaging => exact (hstaging.sound_registered h.backed.consistent).1
  | rollback h htip hjournals hundone hfold =>
    have hbacked := h.backed
    cases hbacked with
    | nil _ hempty =>
      rw [hempty] at htip
      cases htip
    | cons hl hlinks hprior =>
      rw [hlinks.chain] at htip
      cases htip
      exact (hlinks.tip _ hjournals).sound_of_partialCommit (.refl _) hl.sound hundone hfold

/-- A state, and the slot it keeps its root in. -/
structure RootFork where
  state : LedgerState
  slot : Nat

/-- All live clones and all slots. -/
structure RootForks where
  forks : List RootFork
  slots : List (Option CachedStateRoot)

namespace RootForks

variable {w w' : RootForks} {i : Nat} {fork : RootFork}

/-- What a clone can look up. -/
def slot (w : RootForks) (fork : RootFork) :
    Option CachedStateRoot := (w.slots[fork.slot]?).getD none

def write (w : RootForks) (fork : RootFork) (cache : Option CachedStateRoot) : RootForks :=
  { w with slots := w.slots.set fork.slot cache }

/-- What can happen to one of the clones: it is cloned, it becomes the next state in place, or a
root that was computed of it is remembered. Lookup and writing lock the slot one after the other, so
anything may happen between them. A decoded or new state has a slot of its own. -/
inductive Step : RootForks → RootForks → Prop
  | fresh {w : RootForks} {s : LedgerState} (hs : s.Passed) :
      Step w ⟨w.forks ++ [⟨s, w.slots.length⟩], w.slots ++ [none]⟩
  | clone {w : RootForks} {i : Nat} {fork : RootFork} (hfork : w.forks[i]? = some fork) :
      Step w { w with forks := w.forks ++ [fork] }
  | become {w : RootForks} {i : Nat} {fork : RootFork} {s : LedgerState}
      (hfork : w.forks[i]? = some fork) (hs : s.Passed) : Step w
      { w with forks := w.forks.set i { fork with state := s } }
  | remember {w : RootForks} {i : Nat} {fork : RootFork} {root : StateRoot}
      (hfork : w.forks[i]? = some fork) (hempty : ¬ fork.state.CanonicallyEmpty)
      (hroot : fork.state.hashCanonicalState = .ok root) :
      Step w (w.write fork (some (.of fork.state root)))

inductive Reachable : RootForks → Prop
  | start : Reachable ⟨[], []⟩
  | step {w w' : RootForks} (hw : Reachable w) (h : Step w w') : Reachable w'

/-- Every clone is a state of a ledger with a slot, and every slot holds a valid root or none. -/
structure Valid (w : RootForks) : Prop where
  passed : ∀ fork ∈ w.forks, fork.state.Passed
  slotted : ∀ fork ∈ w.forks, fork.slot < w.slots.length
  cached : ∀ cached, some cached ∈ w.slots → cached.Valid

theorem Step.valid (h : Step w w') (hw : w.Valid) : w'.Valid := by
  cases h with
  | fresh hs =>
    refine ⟨fun fork hfork => ?_, fun fork hfork => ?_, fun cached hcached => ?_⟩
    · rcases mem_append.mp hfork with hold | hnew
      · exact hw.passed fork hold
      · rw [mem_singleton.mp hnew]
        exact hs
    · rw [length_append, length_singleton]
      rcases mem_append.mp hfork with hold | hnew
      · exact (hw.slotted fork hold).trans (Nat.lt_succ_self _)
      · rw [mem_singleton.mp hnew]
        exact Nat.lt_succ_self _
    · rcases mem_append.mp hcached with hold | hnew
      · exact hw.cached cached hold
      · cases mem_singleton.mp hnew
  | @clone _ fork hfork =>
    have hmem : ∀ fork' ∈ w.forks ++ [fork], fork' ∈ w.forks := by
      intro fork' hfork'
      rcases mem_append.mp hfork' with hold | hnew
      · exact hold
      · rw [mem_singleton.mp hnew]
        exact mem_of_getElem? hfork
    exact ⟨fun fork' h => hw.passed fork' (hmem fork' h),
      fun fork' h => hw.slotted fork' (hmem fork' h), hw.cached⟩
  | @become _ fork _ hfork hs =>
    refine ⟨fun fork' hfork' => ?_, fun fork' hfork' => ?_, hw.cached⟩
    · rcases mem_or_eq_of_mem_set hfork' with hold | rfl
      · exact hw.passed fork' hold
      · exact hs
    · rcases mem_or_eq_of_mem_set hfork' with hold | rfl
      · exact hw.slotted fork' hold
      · exact hw.slotted fork (mem_of_getElem? hfork)
  | remember hfork hempty hroot =>
    refine ⟨hw.passed, fun fork' hfork' => ?_, fun cached hcached => ?_⟩
    · rw [write, length_set]
      exact hw.slotted fork' hfork'
    · rcases mem_or_eq_of_mem_set hcached with hold | hnew
      · exact hw.cached cached hold
      · cases hnew
        exact CachedStateRoot.valid_of hroot hempty

theorem Reachable.valid (h : Reachable w) : w.Valid := by
  induction h with
  | start => exact ⟨nofun, nofun, nofun⟩
  | step _ hstep ih => exact hstep.valid ih

theorem Valid.slot (h : w.Valid) {cached : CachedStateRoot} (hslot : w.slot fork = some cached) :
    cached.Valid := by
  unfold RootForks.slot at hslot
  cases hget : w.slots[fork.slot]? with
  | none =>
    rw [hget] at hslot
    cases hslot
  | some cache =>
    rw [hget, Option.getD_some] at hslot
    exact h.cached cached (hslot ▸ mem_of_getElem? hget)

/-- Whatever the clones have done, the memoized root of each is zero if its canonical components are
empty, and the hash of their bytes otherwise; the declared length is the number of these bytes. Only
a state that cannot be encoded has no root, and a ledger's own state always has one. -/
theorem Reachable.root_exact (h : Reachable w) (hfork : w.forks[i]? = some fork)
    (shared : SharedRoots)
    (hshared : ∀ cached, w.slot fork = some cached → shared.Honest cached.state fork.state) :
    (memoizedStateRoot shared fork.state (w.slot fork)).1 = fork.state.scratchStateRoot ∧
    (∀ n, fork.state.canonicalEncodedLen = .ok n ↔
      n < 2 ^ 64 ∧ ∃ bytes, fork.state.encode = some bytes ∧ bytes.length = n) ∧
    ∀ l trace, Ledger.History l trace → l.state = fork.state → ∃ root,
      fork.state.scratchStateRoot = .ok root := by
  have hs := (h.valid.passed fork (mem_of_getElem? hfork)).sound
  refine ⟨hs.memoizedStateRoot_eq hshared fun cached => h.valid.slot, fun n => ?_,
    fun l trace hl hstate => ?_⟩
  · rw [canonicalEncodedLen_eq]
    cases fork.state.encode with
    | none => simp [canonicalLength_none]
    | some bytes =>
      rw [canonicalLength_some]
      simp only [Option.some.injEq, exists_eq_left']
      split_ifs with hlength
      · rw [Except.ok.injEq]
        exact ⟨fun hn => ⟨hn ▸ hlength, hn⟩, And.right⟩
      · exact ⟨nofun, fun hn => absurd (hn.2 ▸ hn.1) hlength⟩
  · obtain ⟨root, hroot, _⟩ := hl.backed.consistent.exists_root
    rw [← hs.applicationStateRoot_eq, ← hstate]
    exact ⟨root, hroot⟩

end RootForks

end

section Sample

attribute [local instance] Crypto.checksum

/-- A clone of a ledger's state finds the root that the ledger has computed. -/
theorem RootForks.samplePaid_root :
    ∃ first b l p w root, Ledger.samplePaid = .ok (first, (b, l), p) ∧
    RootForks.Reachable w ∧
    w.forks[1]? = some ⟨l.state, 0⟩ ∧ cachedStateRoot (w.slot ⟨l.state, 0⟩) ⟨true, true, true, true⟩
      l.state = some root ∧
    l.state.scratchStateRoot = .ok root := by
  obtain ⟨_, _, _, b, l, _, _, hsample, hbefore, hpaid, _⟩ := Ledger.exists_samplePaid
  have hhistory := hbefore.commit hpaid
  have hempty : ¬ l.state.CanonicallyEmpty := by
    have hcoins : (Ledger.samplePaid.toOption.any fun p => !p.2.1.2.state.utxos.coins.isEmpty) =
        true := by
      decide +kernel
    rw [hsample] at hcoins
    change (!l.state.utxos.coins.isEmpty) = true at hcoins
    intro hempty
    rw [hempty.coins] at hcoins
    cases hcoins
  obtain ⟨root, hroot, _⟩ := hhistory.backed.consistent.exists_root
  rw [Ledger.stateRoot, applicationStateRoot,
    if_neg (mt hhistory.backed.consistent.sound.default_iff.mp hempty), mapError_eq_ok] at hroot
  let w : RootForks := ⟨[⟨l.state, 0⟩], [none]⟩
  have hw : RootForks.Reachable w := RootForks.Reachable.start.step (.fresh (.ledger hhistory))
  have hremember := hw.step (.remember (i := 0) rfl hempty hroot)
  have hclone := hremember.step (.clone (i := 0) rfl)
  have hexact := (RootForks.Reachable.root_exact hclone (i := 1) rfl ⟨true, true, true, true⟩ (by
    intro cached hcached
    cases hcached
    exact ⟨fun _ => rfl, fun _ => rfl, fun _ => rfl, fun _ => rfl⟩)).1
  have hhit : cachedStateRoot (some (.of l.state root)) ⟨true, true, true, true⟩ l.state =
      some root := by
    simp [cachedStateRoot, CachedStateRoot.of, UtxoSet.sameCanonicalView,
      AssetState.sameCanonicalView]
  refine ⟨_, b, l, _, _, root, hsample, hclone, rfl, hhit, ?_⟩
  rw [← hexact]
  change (memoizedStateRoot _ l.state (some (.of l.state root))).1 = _
  rw [memoizedStateRoot, hhit]

end Sample

end Xparq
