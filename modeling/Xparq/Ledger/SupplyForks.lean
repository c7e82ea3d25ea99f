import Xparq.Ledger.AssetSupply
import Xparq.Ledger.AssetView

/-!
# The incremental supply check

A summary describes the maps it was taken of: its totals are the live sums of those maps, and
every asset it does not list as touched is in order there (`ValidatedAssetRoots.Valid`). For a
state with the same maps the incremental check then says what the full audit says
(`validateIncrementalSupply_iff`).

Clones of a state share one slot for the summary, and whoever audits first fills it for all.
`SupplyForks` holds the clones and the slots. A slot only ever holds a valid summary, whatever the
clones do (`SupplyForks.Reachable.valid`): the summary carries its own maps, so no clone can make it
wrong by changing.
-/

namespace Xparq

open Machine Outcome OrderedMap List

open AssetState

/-- The record of an asset fits its live shares; without a record there are none. -/
structure SettledIn (records : OrderedMap AssetContract AssetRecord)
    (shares : OrderedMap Share AssetShare) (a : AssetContract) : Prop where
  record : ∀ r, records.get? a = some r → ValidRecord r (sumBy (amountIn a) shares)
  none : records.get? a = none → sumBy (amountIn a) shares = 0

structure ValidatedAssetRoots.Valid (key : ValidatedAssetRoots) : Prop where
  nonzero : ∀ id share, key.shares.get? id = some share → share.amount ≠ 0
  totals : ∀ a, (totalOf key.totals a).val = sumBy (amountIn a) key.shares
  clean : ∀ a, key.dirty.get? a = none → SettledIn key.records key.shares a

namespace AssetState

variable {s s' : AssetState}

theorem supplied_iff : Supplied s ↔ (∀ id share, s.shares.get? id = some share → share.amount ≠ 0) ∧
    ∀ a, SettledIn s.records s.shares a := by
  constructor
  · intro h
    exact ⟨h.nonzero, fun a => ⟨h.valid a, h.supplyOf_eq_zero⟩⟩
  · rintro ⟨hnonzero, hsettled⟩
    refine ⟨hnonzero, fun id share hshare => ?_, fun a => (hsettled a).record⟩
    cases hr : s.records.get? share.asset with
    | some r => exact ⟨r, rfl⟩
    | none =>
      have hle := le_sumBy (f := amountIn share.asset) hshare
      rw [(hsettled share.asset).none hr, amountIn, if_pos rfl] at hle
      exact absurd (Fin.ext (Nat.le_zero.mp hle)) (hnonzero id share hshare)

/-! ## The full audit -/

theorem auditAssetSupply_ok (h : s.auditAssetSupply = .ok s') :
    Supplied s ∧ ∃ totals, s' = s.rememberValidSupply totals ∧ ∀ a,
      (totalOf totals a).val = s.supplyOf a := by
  obtain ⟨totals, hscan, h⟩ := bind_eq_ok.mp h
  obtain ⟨_, hrecords, h⟩ := bind_eq_ok.mp h
  obtain ⟨hall, htotals⟩ := foldlM_scanShare_ok hscan
  have htotal : ∀ a, (totalOf totals a).val = s.supplyOf a := by
    intro a
    rw [htotals a]
    exact Nat.zero_add _
  refine ⟨⟨fun id share hshare => (hall _ (get?_eq_some_iff.mp hshare)).1,
    fun id share hshare => (hall _ (get?_eq_some_iff.mp hshare)).2, fun a r hr => ?_⟩, totals,
    (Except.ok.inj h).symm, htotal⟩
  rw [← htotal]
  exact checkRecord_eq_ok.mp (forM_eq_ok.mp hrecords _ (get?_eq_some_iff.mp hr))

theorem auditAssetSupply_iff : s.auditAssetSupply.isOk = true ↔ Supplied s := by
  constructor
  · intro h
    obtain ⟨s', hs'⟩ := exists_of_isOk h
    exact (auditAssetSupply_ok hs').1
  · intro h
    obtain ⟨totals, haudit, _⟩ := exists_auditAssetSupply h
    rw [haudit]
    rfl

/-! ## The incremental check -/

/-- The summary beside the maps, if there is one, is valid. -/
def Kept (s : AssetState) : Prop := ∀ key, s.supplyCache = some key → key.Valid

theorem Kept.summarized (h : Kept s) : Summarized s := by
  intro key hkey a
  obtain ⟨hcache, -, hs⟩ := supplySnapshot_eq_some.mp hkey
  rw [(h key hcache).totals a, ← hs]
  rfl

/-- The incremental check succeeds exactly where the audit would. -/
theorem validateIncrementalSupply_iff (h : Kept s) {result : Except SupplyError AssetState}
    (hresult : s.validateIncrementalSupply = some result) : result.isOk = true ↔ Supplied s := by
  constructor
  · intro hok
    obtain ⟨key, hkey, rfl⟩ := Option.map_eq_some_iff.mp hresult
    obtain ⟨hcache, hr, hs⟩ := supplySnapshot_eq_some.mp hkey
    obtain ⟨hnonzero, htotals, hclean⟩ := h key hcache
    rw [← hs] at hnonzero htotals hclean
    rw [← hr] at hclean
    obtain ⟨s', hs'⟩ := exists_of_isOk hok
    simp only [bind_eq_ok, pure_eq_ok] at hs'
    obtain ⟨_, hunknown, _, hrecords, _⟩ := hs'
    refine supplied_iff.mpr ⟨hnonzero, fun a => ?_⟩
    cases hdirty : key.dirty.get? a with
    | none => exact hclean a hdirty
    | some u =>
      have hmem : a ∈ key.dirty.keys := mem_keys_iff.mpr ⟨u, hdirty⟩
      refine ⟨fun r hrecord => ?_, fun hnone => ?_⟩
      · have hcheck := forM_eq_ok.mp hrecords a hmem
        rw [hrecord] at hcheck
        exact htotals a ▸ checkRecord_eq_ok.mp hcheck
      · have hcheck := rejectIf_eq_ok.mp (forM_eq_ok.mp hunknown a hmem)
        rw [not_and, ne_eq, Bool.not_eq_false] at hcheck
        by_contra hne
        have hsome := hcheck fun heq => hne (by rw [← htotals a, heq]; rfl)
        rw [contains_eq_true_iff, hnone] at hsome
        obtain ⟨_, hsome⟩ := hsome
        cases hsome
  · intro hsupplied
    obtain ⟨cache, hok, _⟩ := exists_validateIncrementalSupply hsupplied h.summarized hresult
    rw [hok]
    rfl

/-! ## Carrying a summary along -/

/-- A changed share: its asset is marked, and the share is not empty. -/
def Marks (share? : Option AssetShare) (key key' : ValidatedAssetRoots) : Prop :=
  (∀ a, key'.dirty.get? a = none → key.dirty.get? a = none ∧ ∀ share, share? = some share →
    share.asset ≠ a) ∧
    ∀ share, share? = some share → share.amount ≠ 0

theorem marks_none (key : ValidatedAssetRoots) : Marks none key key :=
  ⟨fun _ h => ⟨h, fun _ h => by cases h⟩, fun _ h => by cases h⟩

theorem marks_some {share : AssetShare} (hne : share.amount ≠ 0) (key : ValidatedAssetRoots)
    (totals : OrderedMap AssetContract Units) :
    Marks (some share) key { key with dirty := key.dirty.insert share.asset (), totals } := by
  refine ⟨fun a ha => ?_, fun _ h => by cases h; exact hne⟩
  change (key.dirty.insert share.asset ()).get? a = none at ha
  rw [get?_insert] at ha
  split_ifs at ha with hasset
  exact ⟨ha, fun _ h => by cases h; exact Ne.symm hasset⟩

variable {key key' : ValidatedAssetRoots}

theorem marks_retractShare {old : Option AssetShare}
    (h : retractShare key old = some key') : Marks old key key' := by
  cases old with
  | none =>
    cases h
    exact marks_none key
  | some share =>
    simp only [retractShare] at h
    split_ifs at h with hne
    obtain ⟨total, _, rfl⟩ := Option.map_eq_some_iff.mp h
    exact marks_some hne key _

theorem marks_assertShare {now : Option AssetShare}
    (h : assertShare key now = some key') : Marks now key key' := by
  cases now with
  | none =>
    cases h
    exact marks_none key
  | some share =>
    simp only [assertShare] at h
    split_ifs at h with hne
    obtain ⟨total, _, rfl⟩ := Option.map_eq_some_iff.mp h
    exact marks_some hne key _

theorem marks_foldlM {α : Type} {step : ValidatedAssetRoots → α → Option ValidatedAssetRoots}
    (share? : α → Option AssetShare)
    (hstep : ∀ key e key', step key e = some key' → Marks (share? e) key key') {l : List α}
    (h : l.foldlM step key = some key') :
    (∀ a, key'.dirty.get? a = none → key.dirty.get? a = none ∧
        ∀ e ∈ l, ∀ share, share? e = some share → share.asset ≠ a) ∧
      ∀ e ∈ l, ∀ share, share? e = some share → share.amount ≠ 0 := by
  induction l generalizing key with
  | nil =>
    cases h
    exact ⟨fun a ha => ⟨ha, fun e he => absurd he not_mem_nil⟩, fun e he => absurd he not_mem_nil⟩
  | cons e rest ih =>
    rw [foldlM_cons] at h
    obtain ⟨mid, hmid, hrest⟩ := Option.bind_eq_some_iff.mp h
    obtain ⟨hdirty, hne⟩ := hstep key e mid hmid
    obtain ⟨hdirty', hne'⟩ := ih hrest
    refine ⟨fun a ha => ?_, forall_mem_cons.mpr ⟨hne, hne'⟩⟩
    obtain ⟨ha', hrest⟩ := hdirty' a ha
    obtain ⟨ha'', hhead⟩ := hdirty a ha'
    exact ⟨ha'', forall_mem_cons.mpr ⟨hhead, hrest⟩⟩

theorem foldl_dirty {keys : List AssetContract} {dirty : OrderedSet AssetContract}
    {a : AssetContract}
    (h : (keys.foldl (fun dirty asset => dirty.insert asset ()) dirty).get? a = none) :
    dirty.get? a = none ∧ a ∉ keys := by
  induction keys generalizing dirty with
  | nil => exact ⟨h, not_mem_nil⟩
  | cons k rest ih =>
    obtain ⟨hinsert, hrest⟩ := ih h
    rw [get?_insert] at hinsert
    split_ifs at hinsert with ha
    exact ⟨hinsert, not_mem_cons_of_ne_of_not_mem ha hrest⟩

theorem Kept.advance {start : AssetState} {journal : AssetJournal} (h : Kept start)
    (hundo : journal.Undoes s start) :
    Kept (s.advanceSupplySummary start.supplySnapshot journal) := by
  intro last hlast
  have hsummarized := summarized_advance h.summarized hundo.2
  have hcache := hlast
  change (start.supplySnapshot.bind _) = some last at hcache
  obtain ⟨key, hkey, hcache⟩ := Option.bind_eq_some_iff.mp hcache
  obtain ⟨mid, hretract, hcache⟩ := Option.bind_eq_some_iff.mp hcache
  obtain ⟨done, hassert, rfl⟩ := Option.map_eq_some_iff.mp hcache
  obtain ⟨hold, hr, hs⟩ := supplySnapshot_eq_some.mp hkey
  obtain ⟨hnonzero, _, hclean⟩ := h key hold
  rw [← hs] at hnonzero hclean
  rw [← hr] at hclean
  obtain ⟨hdirty, _⟩ := marks_foldlM Prod.snd (fun _ _ _ => marks_retractShare) hretract
  obtain ⟨hdirty', hne⟩ := marks_foldlM (fun e : Share × Option AssetShare => s.shares.get? e.1)
    (fun _ _ _ => marks_assertShare) hassert
  refine ⟨fun id share hshare => ?_, fun a => ?_, fun a ha => ?_⟩
  · cases hj : journal.shares.get? id with
    | some old => exact hne (id, old) (get?_eq_some_iff.mp hj) share hshare
    | none =>
      refine hnonzero id share ?_
      rw [hundo.2 id, UndoLog.originalAt, hj]
      exact hshare
  · exact hsummarized _ (supplySnapshot_eq_some.mpr ⟨hlast, rfl, rfl⟩) a
  · -- neither the record nor a share of an unmarked asset was touched
    obtain ⟨hmid, hnow⟩ := hdirty' a ha
    obtain ⟨hkeyDirty, hthen⟩ := hdirty a hmid
    obtain ⟨hkeyDirty, hjournal⟩ := foldl_dirty hkeyDirty
    have hrecord : start.records.get? a = s.records.get? a :=
      (hundo.1 a).trans (UndoLog.originalAt_of_notMem hjournal _)
    have hsum := hundo.2.sumBy (amountIn a)
    have hzero : ∀ (id : Share) (share? : Option AssetShare),
        (∀ share, share? = some share → share.asset ≠ a) →
        optionSum (amountIn a) id share? = 0 := by
      intro id share? hne
      cases share? with
      | none => rfl
      | some share => exact if_neg (hne share rfl)
    have hsumNow : journal.shares.sumNow (amountIn a) s.shares = 0 :=
      sum_eq_zero fun x hx => by
        obtain ⟨e, he, rfl⟩ := mem_map.mp hx
        exact hzero _ _ (hnow e he)
    have hsumOld : journal.shares.sumOld (amountIn a) = 0 :=
      sum_eq_zero fun x hx => by
        obtain ⟨e, he, rfl⟩ := mem_map.mp hx
        exact hzero _ _ (hthen e he)
    rw [hsumNow, hsumOld, Nat.add_zero, Nat.add_zero] at hsum
    obtain ⟨hvalid, hnone⟩ := hclean a hkeyDirty
    rw [hrecord, hsum] at hvalid hnone
    exact ⟨hvalid, hnone⟩

/-! ## Steps of one state -/

theorem kept_rememberValidSupply (h : s.auditAssetSupply = .ok s') : Kept s' := by
  obtain ⟨hsupplied, totals, rfl, htotals⟩ := auditAssetSupply_ok h
  obtain ⟨hnonzero, hsettled⟩ := supplied_iff.mp hsupplied
  intro key hkey
  cases hkey
  exact ⟨hnonzero, htotals, fun a _ => hsettled a⟩

theorem Kept.validate (h : Kept s) (hresult : s.validateIncrementalSupply = some (.ok s')) :
    Kept s' := by
  have hsupplied := (validateIncrementalSupply_iff h hresult).mp rfl
  obtain ⟨_, hsettled⟩ := supplied_iff.mp hsupplied
  obtain ⟨key, hkey, hok⟩ := Option.map_eq_some_iff.mp hresult
  obtain ⟨hcache, hr, hs⟩ := supplySnapshot_eq_some.mp hkey
  obtain ⟨hnonzero, htotals, _⟩ := h key hcache
  simp only [bind_eq_ok, return_eq_ok] at hok
  obtain ⟨_, _, _, _, rfl⟩ := hok
  intro key' hkey'
  cases hkey'
  refine ⟨hnonzero, htotals, fun a _ => ?_⟩
  change SettledIn key.records key.shares a
  rw [← hr, ← hs]
  exact hsettled a

theorem Kept.rollback (h : Kept s) (journal : AssetJournal) : Kept (s.rollback journal) := by
  refine h.advance ⟨UndoLog.undoes_snapshot fun a ha => ?_,
    UndoLog.undoes_snapshot fun id hid => ?_⟩
  · exact (congrArg (fun m => m.get? a) (rollback_records s journal)).trans
      ((UndoLog.get?_restore _ _ _).trans (UndoLog.originalAt_of_notMem ha _))
  · exact (congrArg (fun m => m.get? id) (rollback_shares s journal)).trans
      ((UndoLog.get?_restore _ _ _).trans (UndoLog.originalAt_of_notMem hid _))

theorem apply_error_supplyCache [Crypto] {call : AssetCall} {context : ExecutionContext}
    {e : AssetError} (h : AssetState.apply call context s = (.error e, s')) :
    s'.supplyCache = s.supplyCache ∨ s'.supplyCache = s.supplySnapshot := by
  obtain ⟨hr, hs⟩ := apply_error h
  rw [AssetState.apply] at h
  split at h
  · exact .inl (by rw [← (Prod.mk.inj h).2])
  · rcases hop : applyMonetaryOperation call context s with ⟨_ | _, failed⟩ <;> rw [hop] at h
    · obtain ⟨_, rfl⟩ := Prod.mk.inj h
      refine .inr ?_
      -- the maps that the summary is tied to again are the ones it was tied to before
      change s.supplySnapshot.map _ = _
      cases hkey : s.supplySnapshot with
      | none => rfl
      | some key =>
        obtain ⟨_, hr', hs'⟩ := supplySnapshot_eq_some.mp hkey
        change some { key with records := _, shares := _ } = some key
        rw [show (AssetState.rollback failed _).records = key.records from hr.trans hr',
          show (AssetState.rollback failed _).shares = key.shares from hs.trans hs']
    · cases (Prod.mk.inj h).1

theorem Kept.apply [Crypto] (h : Kept s) (call : AssetCall) (context : ExecutionContext) :
    Kept (apply call context s).2 := by
  rcases happly : AssetState.apply call context s with ⟨e | journal, s'⟩
  · intro key hkey
    rcases apply_error_supplyCache happly with hsame | hsnapshot
    · exact h key (hsame.symm.trans hkey)
    · exact h key (supplySnapshot_eq_some.mp (hsnapshot.symm.trans hkey)).1
  · obtain ⟨_, _, _, _, hundo, rfl⟩ := apply_ok happly
    exact h.advance hundo

/-- A call that fails, at whatever point, leaves records and shares as they were, and a valid
summary of them is still there. -/
theorem apply_failure_restores [Crypto] {call : AssetCall} {context : ExecutionContext}
    {e : AssetError} (h : AssetState.apply call context s = (.error e, s')) :
    s'.records = s.records ∧ s'.shares = s.shares ∧
      ∀ key, s.supplySnapshot = some key → key.Valid →
        s'.supplySnapshot = some key ∧ key.records = s'.records ∧ key.shares = s'.shares ∧
          ∀ a, (totalOf key.totals a).val = s'.supplyOf a := by
  obtain ⟨hr, hs⟩ := apply_error h
  refine ⟨hr, hs, fun key hkey hvalid => ?_⟩
  obtain ⟨hcache, hr', hs'⟩ := supplySnapshot_eq_some.mp hkey
  have hcache' : s'.supplyCache = some key := by
    rcases apply_error_supplyCache h with hsame | hsnapshot
    · exact hsame.trans hcache
    · exact hsnapshot.trans hkey
  refine ⟨supplySnapshot_eq_some.mpr ⟨hcache', hr.trans hr', hs.trans hs'⟩, (hr.trans hr').symm,
    (hs.trans hs').symm, fun a => ?_⟩
  rw [hvalid.totals a, ← hs', ← hs]
  rfl

section Sample

attribute [local instance] Crypto.checksum

/-- The identifier of the second output of the transfer below is taken. -/
def collidingState : AssetState :=
  { empty with
    records := ofEntries [(5, ⟨⟨[65], 3, .program 1, .program 1⟩, 3, 3, 0, 0⟩)]
    shares := ofEntries [(9, ⟨5, 2, .program 1⟩), (Share.derive 5 1 1, ⟨5, 1, .program 1⟩)] }

def collidingTransfer : AssetCall := .transfer ⟨5, [9], [⟨.program 2, 1⟩, ⟨.program 2, 1⟩]⟩

/-- The input has been removed and the first output inserted when the second one collides. -/
theorem collidingTransfer_restores : ∃ s s' key, collidingState.auditAssetSupply = .ok s ∧
    AssetState.apply collidingTransfer ⟨.program 1, 1⟩ s = (.error .shareAlreadyExists, s') ∧
    s.supplySnapshot = some key ∧ s'.shares = s.shares ∧ s'.supplySnapshot = some key := by
  have hok : (collidingState.auditAssetSupply.toOption.any fun s =>
      decide ((AssetState.apply collidingTransfer ⟨.program 1, 1⟩ s).1 =
        .error .shareAlreadyExists)) = true := by
    decide +kernel
  obtain ⟨s, haudit, hok⟩ := exists_of_any hok
  obtain ⟨_, totals, rfl, _⟩ := auditAssetSupply_ok haudit
  have hkey :=
    supplySnapshot_eq_some (s := collidingState.rememberValidSupply totals).mpr ⟨rfl, rfl, rfl⟩
  have hvalid := kept_rememberValidSupply haudit _ rfl
  rcases happly : AssetState.apply collidingTransfer ⟨.program 1, 1⟩
    (collidingState.rememberValidSupply totals) with
    ⟨e | journal, s'⟩
  · rw [happly] at hok
    obtain rfl : e = .shareAlreadyExists := Except.error.inj (of_decide_eq_true hok)
    obtain ⟨_, hshares, hsummary⟩ := apply_failure_restores happly
    exact ⟨_, s', _, haudit, happly, hkey, hshares, (hsummary _ hkey hvalid).1⟩
  · rw [happly] at hok
    cases hok

end Sample

end AssetState

/-! ## Clones that share their slots -/

/-- A state, and the slot it keeps its summary in. The field of the state itself is not used. -/
structure SupplyFork where
  state : AssetState
  slot : Nat

/-- All live clones and all slots. -/
structure SupplyForks where
  forks : List SupplyFork
  slots : List (Option ValidatedAssetRoots)

namespace SupplyForks

variable {w w' : SupplyForks} {fork : SupplyFork}

/-- A clone with the summary it can see. Its maps share their roots with those of the summary or
they do not; if they do, their contents are equal, which `supplySnapshot` compares. -/
def view (w : SupplyForks) (fork : SupplyFork) (shared : Bool) : AssetState :=
  { fork.state with supplyCache := if shared then (w.slots[fork.slot]?).getD none else none }

/-- A clone that has changed moves to a slot of its own. -/
def detach (w : SupplyForks) (i : Nat) (s : AssetState) : SupplyForks :=
  ⟨w.forks.set i ⟨s, w.slots.length⟩, w.slots ++ [s.supplyCache]⟩

/-- A summary is written through a shared reference. -/
def write (w : SupplyForks) (slot : Nat) (s : AssetState) : SupplyForks :=
  { w with slots := w.slots.set slot s.supplyCache }

section
variable [Crypto]

/-- What can happen to one of the clones. -/
inductive Step : SupplyForks → SupplyForks → Prop
  | clone {w : SupplyForks} {i : Nat} {fork : SupplyFork} (hfork : w.forks[i]? = some fork) :
      Step w { w with forks := w.forks ++ [fork] }
  | apply {w : SupplyForks} {i : Nat} {fork : SupplyFork} (hfork : w.forks[i]? = some fork)
      (shared : Bool) (call : AssetCall) (context : ExecutionContext) :
      Step w (match (do checkEncoding call; fork.state.snapshotOperation call context) with
        | .error _ => w
        | .ok _ => w.detach i (AssetState.apply call context (w.view fork shared)).2)
  | rollback {w : SupplyForks} {i : Nat} {fork : SupplyFork} (hfork : w.forks[i]? = some fork)
      (shared : Bool) (journal : AssetJournal) : Step w
      (w.detach i ((w.view fork shared).rollback journal))
  | audit {w : SupplyForks} {i : Nat} {fork : SupplyFork} {s : AssetState}
      (hfork : w.forks[i]? = some fork) (h : fork.state.auditAssetSupply = .ok s) : Step w
      (w.write fork.slot s)
  | validate {w : SupplyForks} {i : Nat} {fork : SupplyFork} {s : AssetState}
      (hfork : w.forks[i]? = some fork) (shared : Bool)
      (h : (w.view fork shared).validateIncrementalSupply = some (.ok s)) :
      Step w (w.write fork.slot s)

/-- Everything begins with one state that has passed the full audit. -/
inductive Reachable : SupplyForks → Prop
  | baseline {s s' : AssetState}
      (h : s.auditAssetSupply = .ok s') : Reachable ⟨[⟨s, 0⟩], [s'.supplyCache]⟩
  | step {w w' : SupplyForks} (hw : Reachable w) (h : Step w w') : Reachable w'

/-- Every slot holds a valid summary or none. -/
def Valid (w : SupplyForks) : Prop := ∀ key, some key ∈ w.slots → key.Valid

omit [Crypto] in
theorem Valid.view (h : w.Valid) (fork : SupplyFork) (shared : Bool) :
    (w.view fork shared).Kept := by
  intro key hkey
  change (if shared then (w.slots[fork.slot]?).getD none else none) = some key at hkey
  split_ifs at hkey
  cases hslot : w.slots[fork.slot]? with
  | none =>
    rw [hslot] at hkey
    cases hkey
  | some cache =>
    rw [hslot, Option.getD_some] at hkey
    exact h key (hkey ▸ mem_of_getElem? hslot)

omit [Crypto] in
theorem Valid.detach (h : w.Valid) (i : Nat) {s : AssetState} (hs : s.Kept) :
    (w.detach i s).Valid := by
  intro key hkey
  rcases mem_append.mp hkey with hold | hnew
  · exact h key hold
  · exact hs key (mem_singleton.mp hnew).symm

omit [Crypto] in
theorem Valid.write (h : w.Valid) (slot : Nat) {s : AssetState} (hs : s.Kept) :
    (w.write slot s).Valid := by
  intro key hkey
  rcases mem_or_eq_of_mem_set hkey with hold | hnew
  · exact h key hold
  · exact hs key hnew.symm

/-- One step keeps the slots valid. -/
theorem Step.valid (h : Step w w') (hw : w.Valid) : w'.Valid := by
  cases h with
  | clone hfork => exact hw
  | apply hfork shared call context =>
    split
    · exact hw
    · exact hw.detach _ ((hw.view _ shared).apply call context)
  | rollback hfork shared journal => exact hw.detach _ ((hw.view _ shared).rollback journal)
  | audit hfork h => exact hw.write _ (kept_rememberValidSupply h)
  | validate hfork shared h => exact hw.write _ ((hw.view _ shared).validate h)

theorem Reachable.valid (h : Reachable w) : w.Valid := by
  induction h with
  | baseline h =>
    intro key hkey
    exact kept_rememberValidSupply h key (mem_singleton.mp hkey).symm
  | step _ hstep ih => exact hstep.valid ih

/-- Whenever the incremental check gives a result, the full audit of the state agrees with it, and
the totals in the slot are the live sums. -/
theorem Reachable.incremental_iff (h : Reachable w) (fork : SupplyFork) (shared : Bool)
    {result : Except SupplyError AssetState}
    (hresult : (w.view fork shared).validateIncrementalSupply = some result) :
    (result.isOk = true ↔ fork.state.auditAssetSupply.isOk = true) ∧
      ∃ key, w.slots[fork.slot]? = some (some key) ∧ ∀ a,
      (totalOf key.totals a).val = fork.state.supplyOf a := by
  have hkept := h.valid.view fork shared
  have hsupplied : (w.view fork shared).Supplied ↔ fork.state.Supplied :=
    ⟨fun h => ⟨h.nonzero, h.recorded, h.valid⟩, fun h => ⟨h.nonzero, h.recorded, h.valid⟩⟩
  refine ⟨?_, ?_⟩
  · rw [validateIncrementalSupply_iff hkept hresult, auditAssetSupply_iff, hsupplied]
  · obtain ⟨key, hkey, _⟩ := Option.map_eq_some_iff.mp hresult
    refine ⟨key, ?_, hkept.summarized key hkey⟩
    obtain ⟨hcache, _⟩ := supplySnapshot_eq_some.mp hkey
    change (if shared then (w.slots[fork.slot]?).getD none else none) = some key at hcache
    split_ifs at hcache
    cases hslot : w.slots[fork.slot]? with
    | none =>
      rw [hslot] at hcache
      cases hcache
    | some cache =>
      rw [hslot, Option.getD_some] at hcache
      rw [hcache]

end

section Sample

attribute [local instance] Crypto.checksum

def sampleBaseline : SupplyForks := ⟨[⟨AssetState.empty, 0⟩], [some ⟨∅, ∅, ∅, ∅⟩]⟩

def sampleCall : AssetCall := .register ⟨[65], 5, 5, .program 1, 0⟩

/-- The state after its first asset has been registered. -/
def sampleState : AssetState :=
  (AssetState.apply sampleCall ⟨.program 1, 0⟩ (sampleBaseline.view ⟨AssetState.empty, 0⟩ true)).2

theorem sample_incremental : ∃ w fork result, Reachable w ∧ fork ∈ w.forks ∧
    (w.view fork true).validateIncrementalSupply = some result ∧
    (result.isOk = true ↔ fork.state.auditAssetSupply.isOk = true) := by
  have hbaseline : Reachable sampleBaseline := .baseline (s := AssetState.empty) rfl
  have hstep := hbaseline.step (.apply (i := 0) rfl true sampleCall ⟨.program 1, 0⟩)
  have hok : (do
      checkEncoding sampleCall
      AssetState.empty.snapshotOperation sampleCall ⟨.program 1, 0⟩).isOk = true := by
    decide +kernel
  obtain ⟨journal, hjournal⟩ := exists_of_isOk hok
  simp only [hjournal] at hstep
  have hsome : ((sampleBaseline.detach 0 sampleState).view ⟨sampleState,
      1⟩ true).validateIncrementalSupply.isSome =
      true := by
    decide +kernel
  obtain ⟨result, hresult⟩ := Option.isSome_iff_exists.mp hsome
  exact ⟨_, ⟨sampleState, 1⟩, result, hstep, mem_singleton_self _, hresult,
    (Reachable.incremental_iff hstep _ true hresult).1⟩

end Sample

end SupplyForks

end Xparq
