import Xparq.Ledger.AssetPlan

/-!
# Asset supply

`AssetState.Supplied` is what the deep audit checks: every share is nonzero and has a record,
and every record's minted and burned totals, supply and live shares agree. Every call keeps it
(`Supplied.apply`), and it is enough for the audit to succeed (`exists_auditAssetSupply`).

`Summarized` says that a summary which is still in force holds the true live totals. It is
kept by calls and by `rollback`, so that the incremental check sees what the deep audit would
see (`exists_validateIncrementalSupply`).
-/

namespace Xparq

open Machine Outcome OrderedMap List

/-- The amount a share contributes to an asset. -/
def amountIn (a : AssetContract) (_ : Share) (share : AssetShare) : Nat :=
  if share.asset = a then share.amount.val else 0

namespace AssetState

/-- The sum of the live shares of an asset. -/
def supplyOf (s : AssetState) (a : AssetContract) : Nat := sumBy (amountIn a) s.shares

structure ValidRecord (record : AssetRecord) (live : Nat) : Prop where
  metadata : record.metadata.validate = .ok ()
  capped : record.totalMinted ≤ record.metadata.maxSupply
  minted : record.supply.val + record.totalBurned.val = record.totalMinted.val
  live : live = record.supply.val

structure Supplied (s : AssetState) : Prop where
  nonzero : ∀ id share, s.shares.get? id = some share → share.amount ≠ 0
  recorded : ∀ id share, s.shares.get? id = some share → ∃ r, s.records.get? share.asset = some r
  valid : ∀ a r, s.records.get? a = some r → ValidRecord r (s.supplyOf a)

theorem supplied_empty : Supplied empty where
  nonzero _ _ h := by cases h
  recorded _ _ h := by cases h
  valid _ _ h := by cases h

variable {s s' : AssetState}

theorem Supplied.supplyOf_eq_zero (h : Supplied s) {a : AssetContract}
    (ha : s.records.get? a = none) : s.supplyOf a = 0 := by
  have hzero : s.supplyOf a = sumBy (fun _ _ => 0) s.shares := by
    apply sumBy_congr
    intro id share hshare
    rw [amountIn, if_neg]
    rintro rfl
    obtain ⟨r, hr⟩ := h.recorded id share hshare
    rw [ha] at hr
    cases hr
  rw [hzero]
  simp [sumBy]

theorem Supplied.supplyOf_lt (h : Supplied s) (a : AssetContract) : s.supplyOf a < 2 ^ 128 := by
  cases ha : s.records.get? a with
  | none => rw [h.supplyOf_eq_zero ha]; decide
  | some r => rw [(h.valid a r ha).live]; exact r.supply.isLt

/-! ## One call -/

section
variable [Crypto] {call : AssetCall} {context : ExecutionContext} {plan : AssetPlan}

theorem Planned.outputs_nonzero (h : Planned call context s plan) :
    ∀ o ∈ plan.outputs, o.amount ≠ 0 := by
  have haccounts := h.accounts
  cases call with
  | register c =>
    obtain ⟨_, _, hzero, _, _, _, _, _, hout⟩ := haccounts
    simpa [hout] using hzero
  | mint c =>
    obtain ⟨_, hzero, _, _, _, _, _, _, _, _, _, _, hout⟩ := haccounts
    simpa [hout] using hzero
  | transfer c =>
    obtain ⟨_, _, _, _, _, hout, hzero, _⟩ := haccounts
    rwa [hout]
  | burn c =>
    obtain ⟨_, _, _, _, _, _, _, hout⟩ := haccounts
    rw [hout]
    split_ifs with hzero
    · simp
    · simpa using hzero

theorem Executed.netChange (h : Planned call context s plan) (hexec : Executed context plan s s') :
    NetChange plan.inputs ((plan.created context.commitment).map Prod.fst) s.shares s'.shares := by
  have herase := NetChange.erased (m := s.shares) h.inputs_nodup fun e he => (h.inputs_live e he).1
  have hinsert :=
    NetChange.inserted (m := s.shares.eraseAll plan.inputIds) (Planned.created_nodup h)
    h.insertable.2.2
  have := herase.trans hinsert (by simp)
  rw [hexec.shares]
  simpa using this

theorem Executed.supplyOf (h : Planned call context s plan) (hexec : Executed context plan s s')
    (a : AssetContract) :
    s'.supplyOf a + (if a = plan.asset then sumShares plan.inputs else 0) =
      s.supplyOf a + if a = plan.asset then plan.outputSum else 0 := by
  have hsum := (hexec.netChange h).sumBy (amountIn a)
  have hin : (plan.inputs.map fun e => amountIn a e.1 e.2).sum =
      if a = plan.asset then sumShares plan.inputs else 0 := by
    have hsame : ∀ e ∈ plan.inputs, amountIn a e.1 e.2 = if a = plan.asset then e.2.amount.val
        else 0 := by
      intro e he
      rw [amountIn, (h.inputs_live e he).2.1]
      simp only [eq_comm]
    rw [map_congr_left hsame]
    split_ifs
    · rfl
    · simp
  have hout : (((plan.created context.commitment).map Prod.fst).map fun k =>
      optionSum (amountIn a) k (s'.shares.get? k)).sum = if a = plan.asset then plan.outputSum
        else 0 := by
    have hsame : ∀ e ∈ plan.created context.commitment,
        optionSum (amountIn a) e.1 (s'.shares.get? e.1) = if a = plan.asset then e.2.amount.val
          else 0 := by
      intro e he
      rw [hexec.get?_created h he, optionSum_some, amountIn]
      obtain ⟨i, o, _, rfl⟩ := mem_shareOutputs he
      simp only [eq_comm]
    rw [map_map, map_congr_left (g := fun e => if a = plan.asset then e.2.amount.val else 0) hsame]
    split_ifs
    · exact sumShares_shareOutputs _ _ _ _
    · simp
  rw [hin, hout] at hsum
  exact hsum.symm

theorem Planned.validRecord (hs : Supplied s) (h : Planned call context s plan)
    (hexec : Executed context plan s s') : ValidRecord plan.record (s'.supplyOf plan.asset) := by
  have hsupply := hexec.supplyOf h plan.asset
  rw [if_pos rfl, if_pos rfl] at hsupply
  have haccounts := h.accounts
  cases call with
  | register c =>
    obtain ⟨metadata, hmeta, hzero, hle, _, hfree, hrecord, hin, hout⟩ := haccounts
    rw [hs.supplyOf_eq_zero hfree, hin, AssetPlan.outputSum, hout] at hsupply
    have hparts : metadata = ⟨c.name, c.maxSupply, context.actor, c.mintAuthority⟩ ∧
        metadata.validate = .ok () := by
      simp only [Metadata.new, bind_eq_ok, return_eq_ok] at hmeta
      obtain ⟨_, hvalid, rfl⟩ := hmeta
      exact ⟨rfl, hvalid⟩
    rw [hrecord]
    refine ⟨hparts.2, ?_, by simp, ?_⟩
    · simpa only [hparts.1] using hle
    · simpa [sumShares] using hsupply
  | mint c =>
    obtain ⟨hasset, _, old, hold, _, _, hsup, _, hminted, hcap, hrecord, hin, hout⟩ := haccounts
    rw [← hasset] at hold
    have hvalid := hs.valid plan.asset old hold
    have hm := hvalid.minted
    have hl := hvalid.live
    simp only [hin, AssetPlan.outputSum, hout, sumShares, map_nil, sum_nil, map_cons,
      sum_cons] at hsupply
    have hmeta : plan.record.metadata = old.metadata := by rw [hrecord]
    have hburned : plan.record.totalBurned = old.totalBurned := by rw [hrecord]
    refine ⟨by rw [hmeta]; exact hvalid.metadata, by rw [hmeta]; exact hcap, ?_, ?_⟩
    · rw [hburned]
      omega
    · omega
  | transfer c =>
    obtain ⟨hasset, hold, _, _, _, _, _, hsum, _⟩ := haccounts
    rw [← hasset] at hold
    have hvalid := hs.valid plan.asset _ hold
    have hsame : s'.supplyOf plan.asset = s.supplyOf plan.asset := by omega
    rw [hsame]
    exact hvalid
  | burn c =>
    obtain ⟨hasset, _, _, _, hsum, _, ⟨old, hold, hsup, hburned, hrecord⟩, hout⟩ := haccounts
    rw [← hasset] at hold
    have hvalid := hs.valid plan.asset old hold
    have hm := hvalid.minted
    have hl := hvalid.live
    have houtput : plan.outputSum = c.output.val := by
      rw [AssetPlan.outputSum, hout]
      split_ifs with hzero
      · simp [hzero]
      · simp
    have hmeta : plan.record.metadata = old.metadata := by rw [hrecord]
    have hminted : plan.record.totalMinted = old.totalMinted := by rw [hrecord]
    refine ⟨by rw [hmeta]; exact hvalid.metadata,
      by rw [hmeta, hminted]; exact hvalid.capped, ?_, ?_⟩
    · rw [hminted]
      omega
    · omega

theorem Supplied.executed (hs : Supplied s) (h : Planned call context s plan)
    (hexec : Executed context plan s s') : Supplied s' := by
  have hcreated : ∀ e ∈ plan.created context.commitment, e.2.amount ≠ 0 ∧
      e.2.asset = plan.asset := by
    intro e he
    obtain ⟨i, o, ho, rfl⟩ := mem_shareOutputs he
    exact ⟨Planned.outputs_nonzero h o (mem_of_getElem? ho), rfl⟩
  -- a live share is an old one or a created one
  have hcases : ∀ id share, s'.shares.get? id = some share →
      s.shares.get? id = some share ∨ (id, share) ∈ plan.created context.commitment := by
    intro id share hshare
    by_cases hnew : id ∈ (plan.created context.commitment).map Prod.fst
    · obtain ⟨e, he, rfl⟩ := mem_map.mp hnew
      rw [hexec.get?_created h he, Option.some.injEq] at hshare
      exact Or.inr (hshare ▸ he)
    · rw [hexec.shares, get?_insertAll_of_notMem hnew, get?_eraseAll] at hshare
      split_ifs at hshare
      exact Or.inl hshare
  refine ⟨?_, ?_, ?_⟩
  · intro id share hshare
    rcases hcases id share hshare with hold | hnew
    · exact hs.nonzero id share hold
    · exact (hcreated _ hnew).1
  · intro id share hshare
    rw [hexec.records, get?_insert]
    split_ifs with hasset
    · exact ⟨_, rfl⟩
    · rcases hcases id share hshare with hold | hnew
      · exact hs.recorded id share hold
      · exact absurd (hcreated _ hnew).2 hasset
  · intro a r hr
    rw [hexec.records, get?_insert] at hr
    split_ifs at hr with ha
    · cases hr
      rw [ha]
      exact Planned.validRecord hs h hexec
    · have hsupply := hexec.supplyOf h a
      rw [if_neg ha, if_neg ha, add_zero, add_zero] at hsupply
      rw [hsupply]
      exact hs.valid a r hr

theorem Supplied.apply {journal : AssetJournal} (hs : Supplied s)
    (h : apply call context s = (.ok journal, s')) : Supplied s' := by
  obtain ⟨plan, s₁, hplan, hexec, _, rfl⟩ := apply_ok h
  exact ⟨(hs.executed hplan hexec).nonzero, (hs.executed hplan hexec).recorded,
    (hs.executed hplan hexec).valid⟩

theorem Indexed.apply {journal : AssetJournal} (hs : Indexed s)
    (h : AssetState.apply call context s = (.ok journal, s')) : Indexed s' := by
  obtain ⟨plan, s₁, _, hexec, _, rfl⟩ := apply_ok h
  exact (hexec.indexed hs).withCache _

end

/-! ## The summary -/

/-- A summary in force holds the true live totals. -/
def Summarized (s : AssetState) : Prop :=
  ∀ key, s.supplySnapshot = some key → ∀ a, (totalOf key.totals a).val = s.supplyOf a

variable {key key' : ValidatedAssetRoots}

theorem supplySnapshot_eq_some : s.supplySnapshot = some key ↔
    s.supplyCache = some key ∧ s.records = key.records ∧ s.shares = key.shares := by
  simp [supplySnapshot, Option.filter_eq_some_iff]

theorem totalOf_insert (totals : OrderedMap AssetContract Units) (a b : AssetContract)
    (total : Units) :
    totalOf (totals.insert a total) b = if b = a then total else totalOf totals b := by
  unfold totalOf
  rw [get?_insert]
  split <;> rfl

theorem totalOf_erase (totals : OrderedMap AssetContract Units) (a b : AssetContract) :
    totalOf (totals.erase a) b = if b = a then 0 else totalOf totals b := by
  unfold totalOf
  rw [get?_erase]
  split <;> rfl

variable {k : Share} {journal : AssetJournal}

theorem retractShare_totals {old : Option AssetShare} (h : retractShare key old = some key')
    (a : AssetContract) :
    (totalOf key'.totals a).val + optionSum (amountIn a) k old = (totalOf key.totals a).val := by
  cases old with
  | none =>
    cases h
    rfl
  | some share =>
    simp only [retractShare] at h
    split_ifs at h
    obtain ⟨total, htotal, rfl⟩ := Option.map_eq_some_iff.mp h
    rw [checkedSub_eq_some] at htotal
    rw [optionSum_some, amountIn]
    by_cases ha : share.asset = a
    · subst ha
      simp only [if_true]
      split_ifs with hzero
      · rw [totalOf_erase, if_pos rfl]
        rw [hzero] at htotal
        exact htotal
      · rw [totalOf_insert, if_pos rfl]
        exact htotal
    · simp only [if_neg ha, add_zero]
      split_ifs
      · rw [totalOf_erase, if_neg (Ne.symm ha)]
      · rw [totalOf_insert, if_neg (Ne.symm ha)]

theorem assertShare_totals {now : Option AssetShare} (h : assertShare key now = some key')
    (a : AssetContract) :
    (totalOf key'.totals a).val = (totalOf key.totals a).val + optionSum (amountIn a) k now := by
  cases now with
  | none =>
    cases h
    rfl
  | some share =>
    simp only [assertShare] at h
    split_ifs at h
    obtain ⟨total, htotal, rfl⟩ := Option.map_eq_some_iff.mp h
    rw [checkedAdd_eq_some] at htotal
    rw [optionSum_some, amountIn]
    by_cases ha : share.asset = a
    · subst ha
      simp only [if_true, totalOf_insert]
      exact htotal
    · simp only [if_neg ha, add_zero, totalOf_insert, if_neg (Ne.symm ha)]

theorem summarized_advance {start : AssetState} (hstart : Summarized start)
    (hundo : UndoLog.Undoes journal.shares s.shares start.shares) :
    Summarized (s.advanceSupplySummary start.supplySnapshot journal) := by
  intro key hkey a
  obtain ⟨hcache, -, -⟩ := supplySnapshot_eq_some.mp hkey
  change (start.supplySnapshot.bind _) = some key at hcache
  obtain ⟨old, hold, hcache⟩ := Option.bind_eq_some_iff.mp hcache
  obtain ⟨mid, hretract, hcache⟩ := Option.bind_eq_some_iff.mp hcache
  obtain ⟨last, hassert, rfl⟩ := Option.map_eq_some_iff.mp hcache
  have hold' := hstart old hold a
  have hretract' := UndoLog.foldlM_balance (fun key => (totalOf key.totals a).val)
    (fun e : Share × Option AssetShare => optionSum (amountIn a) e.1 e.2) (fun _ => 0)
    (fun _ _ _ h => retractShare_totals h a) hretract
  have hassert' := UndoLog.foldlM_balance (fun key => (totalOf key.totals a).val) (fun _ => 0)
    (fun e : Share × Option AssetShare => optionSum (amountIn a) e.1 (s.shares.get? e.1))
    (fun _ _ _ h => assertShare_totals h a) hassert
  have hsum := hundo.sumBy (amountIn a)
  simp only [UndoLog.sumNow, UndoLog.sumOld] at hsum
  change (totalOf last.totals a).val = s.supplyOf a
  unfold supplyOf at *
  simp only [map_const', sum_replicate_nat, Nat.mul_zero] at hretract' hassert'
  omega

theorem Summarized.apply [Crypto] {call : AssetCall} {context : ExecutionContext}
    (hs : Summarized s) (h : AssetState.apply call context s = (.ok journal, s')) :
    Summarized s' := by
  obtain ⟨plan, s₁, _, _, hundo, rfl⟩ := apply_ok h
  exact summarized_advance hs hundo.2

theorem Summarized.rollback (hs : Summarized s) (journal : AssetJournal) :
    Summarized (s.rollback journal) := by
  refine summarized_advance hs (UndoLog.undoes_snapshot fun k hk => ?_)
  exact (congrArg (fun m => m.get? k) (rollback_shares s journal)).trans
    ((UndoLog.get?_restore _ _ _).trans (UndoLog.originalAt_of_notMem hk _))

theorem summarized_empty : Summarized empty := by
  intro key h
  cases h

/-! ## The audits -/

theorem checkRecord_eq_ok {record : AssetRecord} {total : Units} :
    checkRecord record total = .ok () ↔ ValidRecord record total.val := by
  simp only [checkRecord, bind_eq_ok, orError_eq_ok, rejectIf_eq_ok, not_or, not_lt,
    Decidable.not_not, ne_eq, checkedSub_eq_some]
  constructor
  · rintro ⟨_, hmeta, hcap, hminted, rfl⟩
    exact ⟨hmeta, hcap, hminted, rfl⟩
  · rintro ⟨hmeta, hcap, hminted, hlive⟩
    exact ⟨(), hmeta, hcap, hminted, Fin.ext hlive⟩

section
variable {e : Share × AssetShare} {l : List (Share × AssetShare)}
  {totals totals' : OrderedMap AssetContract Units}

theorem scanShare_ok (h : s.scanShare totals e = .ok totals') :
    (e.2.amount ≠ 0 ∧ ∃ r, s.records.get? e.2.asset = some r) ∧
      ∀ a, (totalOf totals' a).val = (totalOf totals a).val + amountIn a e.1 e.2 := by
  simp only [scanShare, bind_eq_ok, rejectIf_eq_ok, okOr_eq_ok, checkedAdd_eq_some,
    Bool.not_eq_false, contains_eq_true_iff, return_eq_ok] at h
  obtain ⟨_, hne, _, hrecord, total, htotal, rfl⟩ := h
  refine ⟨⟨hne, hrecord⟩, fun a => ?_⟩
  rw [totalOf_insert, amountIn]
  by_cases ha : a = e.2.asset
  · rw [if_pos ha, if_pos ha.symm, htotal, ha]
  · rw [if_neg ha, if_neg (Ne.symm ha), add_zero]

/-- A scan that succeeds adds every share to the total of its asset. -/
theorem foldlM_scanShare_ok (h : l.foldlM s.scanShare totals = .ok totals') :
    (∀ e ∈ l, e.2.amount ≠ 0 ∧ ∃ r, s.records.get? e.2.asset = some r) ∧
      ∀ a, (totalOf totals' a).val = (totalOf totals a).val +
      (l.map fun e => amountIn a e.1 e.2).sum := by
  induction l generalizing totals with
  | nil =>
    cases h
    exact ⟨fun e he => absurd he not_mem_nil, fun _ => rfl⟩
  | cons e rest ih =>
    obtain ⟨mid, hmid, hrest⟩ := bind_eq_ok.mp ((foldlM_cons ..).symm.trans h)
    obtain ⟨hfirst, htotal⟩ := scanShare_ok hmid
    obtain ⟨hall, htotals⟩ := ih hrest
    refine ⟨forall_mem_cons.mpr ⟨hfirst, hall⟩, fun a => ?_⟩
    rw [htotals a, htotal a, map_cons, sum_cons, Nat.add_assoc]

theorem exists_foldlM_scanShare (hs : Supplied s) (hl : ∀ e ∈ l, s.shares.get? e.1 = some e.2)
    (hlt : ∀ a, (totalOf totals a).val + (l.map fun e => amountIn a e.1 e.2).sum < 2 ^ 128) :
    ∃ totals', l.foldlM s.scanShare totals = .ok totals' := by
  induction l generalizing totals with
  | nil => exact ⟨totals, rfl⟩
  | cons e rest ih =>
    simp only [map_cons, sum_cons] at hlt
    have hget := hl e mem_cons_self
    have hfit : (totalOf totals e.2.asset).val + e.2.amount.val < 2 ^ 128 := by
      have := hlt e.2.asset
      rw [amountIn, if_pos rfl] at this
      omega
    have hstep : s.scanShare totals e = .ok (totals.insert e.2.asset ⟨_, hfit⟩) := by
      simp only [scanShare, bind_eq_ok, rejectIf_eq_ok, okOr_eq_ok, checkedAdd_eq_some,
        Bool.not_eq_false, contains_eq_true_iff, return_eq_ok]
      exact ⟨(), hs.nonzero _ _ hget, (), hs.recorded _ _ hget, ⟨_, hfit⟩, rfl, rfl⟩
    rw [foldlM_cons, hstep]
    refine ih (fun d hd => hl d (mem_cons_of_mem _ hd)) fun a => ?_
    rw [(scanShare_ok hstep).2 a, Nat.add_assoc]
    exact hlt a

end

/-- The deep audit of a supplied state succeeds and leaves a right summary. -/
theorem exists_auditAssetSupply (hs : Supplied s) :
    ∃ totals, s.auditAssetSupply = .ok (s.rememberValidSupply totals) ∧
      Summarized (s.rememberValidSupply totals) := by
  have hentries : ∀ e ∈ s.shares.entries, s.shares.get? e.1 = some e.2 := fun e he =>
    get?_eq_some_iff.mpr he
  have hfit : ∀ a,
      (totalOf ∅ a).val + (s.shares.entries.map fun e => amountIn a e.1 e.2).sum < 2 ^ 128 := by
    intro a
    have := hs.supplyOf_lt a
    simpa [totalOf, supplyOf, sumBy] using this
  obtain ⟨totals, hscan⟩ := exists_foldlM_scanShare hs hentries hfit
  have htotal : ∀ a, (totalOf totals a).val = s.supplyOf a := by
    intro a
    rw [(foldlM_scanShare_ok hscan).2 a]
    simp [totalOf, supplyOf, sumBy]
  refine ⟨totals, ?_, ?_⟩
  · rw [auditAssetSupply, scanTotals, hscan, ok_bind, bind_eq_ok]
    refine ⟨(), forM_eq_ok.mpr ?_, rfl⟩
    intro e he
    rw [checkRecord_eq_ok, htotal]
    exact hs.valid e.1 e.2 (get?_eq_some_iff.mpr he)
  · intro key hkey a
    obtain ⟨hcache, -, -⟩ := supplySnapshot_eq_some.mp hkey
    cases hcache
    exact htotal a

/-- The incremental check of a supplied state succeeds whenever it applies. -/
theorem exists_validateIncrementalSupply (hs : Supplied s) (hsum : Summarized s)
    {result : Except SupplyError AssetState} (h : s.validateIncrementalSupply = some result) :
    ∃ cache, result = .ok { s with supplyCache := cache } ∧
      Summarized { s with supplyCache := cache } := by
  obtain ⟨key, hkey, rfl⟩ := Option.map_eq_some_iff.mp h
  have htotal := hsum key hkey
  refine ⟨some { key with dirty := ∅ }, ?_, ?_⟩
  · simp only [bind_eq_ok, pure_eq_ok]
    refine ⟨(), forM_eq_ok.mpr ?_, (), forM_eq_ok.mpr ?_, trivial⟩
    · intro a _
      rw [rejectIf_eq_ok]
      rintro ⟨hne, hnone⟩
      apply hne
      apply Fin.ext
      rw [htotal a, hs.supplyOf_eq_zero (contains_eq_false_iff.mp hnone)]
      rfl
    · intro a _
      cases hr : s.records.get? a with
      | none => rfl
      | some record =>
        simp only [checkRecord_eq_ok, htotal a]
        exact hs.valid a record hr
  · intro key' hkey' a
    obtain ⟨hcache, -, -⟩ := supplySnapshot_eq_some.mp hkey'
    cases hcache
    exact htotal a

end AssetState

end Xparq
