import Xparq.Ledger.AssetPlan

/-!
# Sparse views of the asset state

A call reads and writes only its footprint: one record, its inputs and the identifiers of its
outputs. Two states that agree there go through a call side by side (`SideBySide.monetary`), so
the call gives the same journal, the same size change and the same error on the sparse view as
on the whole state (`operationView_apply`).

With a state beside itself this says that a failed call leaves the maps alone (`apply_error`).
-/

namespace Xparq

open Machine Outcome OrderedMap List

namespace AssetState

/-- Only the record and the listed shares may differ. -/
structure Within (asset : AssetContract) (ids : List Share) (s s' : AssetState) : Prop where
  records : ∀ a, a ≠ asset → s'.records.get? a = s.records.get? a
  shares : ∀ id, id ∉ ids → s'.shares.get? id = s.shares.get? id

/-- The record and the listed shares are the same. -/
structure SameOn (asset : AssetContract) (ids : List Share) (v s : AssetState) : Prop where
  record : v.records.get? asset = s.records.get? asset
  shares : ∀ id ∈ ids, v.shares.get? id = s.shares.get? id

/-- Two runs that began in `v₀` and `s₀` and have stayed in one footprint. -/
structure SideBySide (asset : AssetContract) (ids : List Share) (v₀ s₀ v s : AssetState) :
    Prop where
  same : SameOn asset ids v s
  left : Within asset ids v₀ v
  right : Within asset ids s₀ s

variable {asset : AssetContract} {ids : List Share} {v₀ s₀ v s : AssetState}

theorem footprint_eq_ok [Crypto] {call : AssetCall} {context : ExecutionContext}
    (h : footprint call context = .ok (asset, ids)) : ∃ inputs outputs,
      callParts call context = .ok (asset, inputs, outputs) ∧ inputs ⊆ ids ∧
      ∀ i < outputs, Share.derive asset context.commitment (Fin.ofNat (2 ^ 32) (0 + i)) ∈ ids := by
  simp only [footprint, bind_eq_ok, pure_eq_ok, Except.ok.injEq, Prod.mk.injEq] at h
  obtain ⟨⟨asset', inputs, outputs⟩, hparts, created, hcreated, rfl, rfl⟩ := h
  refine ⟨inputs, outputs, hparts, subset_append_left _ _, fun i hi => mem_append_right _ ?_⟩
  obtain ⟨id, hid, hderive⟩ := exists_mem_of_mapM hcreated (mem_range.mpr hi)
  simp only [bind_eq_ok, okOr_eq_ok, ofNat?_eq_some, Except.ok.injEq] at hderive
  obtain ⟨j, rfl, rfl⟩ := hderive
  rwa [Nat.zero_add, Fin.ofNat_val_eq_self]

namespace SideBySide

theorem start (h : SameOn asset ids v s) : SideBySide asset ids v s v s :=
  ⟨h, ⟨fun _ _ => rfl, fun _ _ => rfl⟩, ⟨fun _ _ => rfl, fun _ _ => rfl⟩⟩

variable {id : Share} {v' : AssetState} {inputs : List Share}

theorem put {s' : AssetState} (h : SideBySide asset ids v₀ s₀ v s) (hid : id ∈ ids)
    (share : Option AssetShare) (hv : v'.shares = v.shares.put id share)
    (hs : s'.shares = s.shares.put id share) (hvr : v'.records = v.records)
    (hsr : s'.records = s.records) : SideBySide asset ids v₀ s₀ v' s' := by
  refine ⟨⟨by rw [hvr, hsr, h.same.record], ?_⟩, ⟨by rw [hvr]; exact h.left.records, ?_⟩,
    ⟨by rw [hsr]; exact h.right.records, ?_⟩⟩
  · intro k hk
    rw [hv, hs, get?_put, get?_put, h.same.shares k hk]
  · intro k hk
    rw [hv, get?_put, if_neg (ne_of_mem_of_not_mem hid hk).symm, h.left.shares k hk]
  · intro k hk
    rw [hs, get?_put, if_neg (ne_of_mem_of_not_mem hid hk).symm, h.right.shares k hk]

theorem removeShare (h : SideBySide asset ids v₀ s₀ v s) (hid : id ∈ ids) :
    SideBySide asset ids v₀ s₀ (v.removeShare id) (s.removeShare id) :=
  h.put hid none (removeShare_shares v id) (removeShare_shares s id) (removeShare_records v id)
    (removeShare_records s id)

theorem putShare (h : SideBySide asset ids v₀ s₀ v s) (hid : id ∈ ids) (share : AssetShare) :
    SideBySide asset ids v₀ s₀ (v.putShare id share) (s.putShare id share) :=
  h.put hid (some share) (putShare_shares v id share) (putShare_shares s id share)
    (putShare_records v id share)
    (putShare_records s id share)

theorem foldl_removeShare (h : SideBySide asset ids v₀ s₀ v s) (hin : inputs ⊆ ids) :
    SideBySide asset ids v₀ s₀ (inputs.foldl AssetState.removeShare v)
      (inputs.foldl AssetState.removeShare s) := by
  induction inputs generalizing v s with
  | nil => exact h
  | cons id rest ih =>
    exact ih (h.removeShare (hin mem_cons_self)) fun k hk => hin (mem_cons_of_mem _ hk)

theorem insertRecord (h : SideBySide asset ids v₀ s₀ v s) {s' : AssetState} {record : AssetRecord}
    (hv : v'.records = v.records.insert asset record)
    (hs : s'.records = s.records.insert asset record) (hvs : v'.shares = v.shares)
    (hss : s'.shares = s.shares) : SideBySide asset ids v₀ s₀ v' s' := by
  refine ⟨⟨by rw [hv, hs, get?_insert_self, get?_insert_self],
    by rw [hvs, hss]; exact h.same.shares⟩, ⟨?_, ?_⟩, ⟨?_, ?_⟩⟩
  · intro a ha
    rw [hv, get?_insert, if_neg ha, h.left.records a ha]
  · rw [hvs]
    exact h.left.shares
  · intro a ha
    rw [hs, get?_insert, if_neg ha, h.right.records a ha]
  · rw [hss]
    exact h.right.shares

theorem inputTotal_eq (h : SideBySide asset ids v₀ s₀ v s) (hin : inputs ⊆ ids) (a : AssetContract)
    (actor : Owner) : v.inputTotal a inputs actor = s.inputTotal a inputs actor := by
  refine foldlM_congr (fun id hid total => ?_) 0
  rw [h.same.shares id (hin hid)]

theorem contains_record (h : SideBySide asset ids v₀ s₀ v s) :
    v.records.contains asset = s.records.contains asset :=
  congrArg Option.isSome h.same.record

section
variable [Crypto] {commitment : Hash}

theorem insertShare (h : SideBySide asset ids v₀ s₀ v s) {index : Nat} {amount : Units}
    {owner : Owner}
    (hid : index < 2 ^ 32 → Share.derive asset commitment (Fin.ofNat (2 ^ 32) index) ∈ ids) :
    InPlace.Alike (SideBySide asset ids v₀ s₀) (SideBySide asset ids v₀ s₀)
      (InPlace.check (v.insertShare asset commitment index amount owner) v)
      (InPlace.check (s.insertShare asset commitment index amount owner) s) := by
  unfold AssetState.insertShare
  by_cases hlt : index < 2 ^ 32
  · have hindex : ofNat? (2 ^ 32) index = some (Fin.ofNat (2 ^ 32) index) :=
      ofNat?_eq_some.mpr (Nat.mod_eq_of_lt hlt)
    have hcontains := congrArg Option.isSome (h.same.shares _ (hid hlt))
    change v.shares.contains _ = s.shares.contains _ at hcontains
    simp only [hindex, okOr, ok_bind, hcontains, rejectIf]
    split_ifs
    · exact ⟨rfl, h⟩
    · exact ⟨h.putShare (hid hlt) _, h⟩
  · rw [show ofNat? (2 ^ 32) index = none from dif_neg hlt]
    exact ⟨rfl, h⟩

theorem insertOutputs (h : SideBySide asset ids v₀ s₀ v s) {index : Nat}
    {outputs : List AssetOutput}
    (hids : ∀ i, i < outputs.length → index + i < 2 ^ 32 →
      Share.derive asset commitment (Fin.ofNat (2 ^ 32) (index + i)) ∈ ids) :
    InPlace.Alike (fun _ _ => True) (SideBySide asset ids v₀ s₀)
      (AssetState.insertOutputs asset commitment index outputs v)
      (AssetState.insertOutputs asset commitment index outputs s) := by
  induction outputs generalizing index v s with
  | nil => exact ⟨trivial, h⟩
  | cons output rest ih =>
    refine .read_bind (.bind (h.insertShare (hids 0 (Nat.succ_pos _))) ?_)
    intro v₁ s₁ _ _ hput _
    refine .update_bind (ih hput fun i hi hlt => ?_)
    have := hids (i + 1) (Nat.succ_lt_succ hi)
    rw [show index + (i + 1) = index + 1 + i by omega] at this
    exact this hlt

/-- A call runs alike on states that agree on its footprint. -/
theorem monetary {call : AssetCall} {context : ExecutionContext}
    (hfoot : footprint call context = .ok (asset, ids)) (h : SideBySide asset ids v₀ s₀ v s) :
    InPlace.Alike (fun _ _ => True) (SideBySide asset ids v₀ s₀)
      (applyMonetaryOperation call context v)
      (applyMonetaryOperation call context s) := by
  obtain ⟨inputs, outputs, hparts, hin, hout⟩ := footprint_eq_ok hfoot
  cases call with
  | register c =>
    simp only [callParts, bind_eq_ok, return_eq_ok, Prod.mk.injEq] at hparts
    obtain ⟨metadata, hmeta, _, hasset, rfl, rfl, rfl⟩ := hparts
    refine .read_bind (.check_bind rfl h fun metadata' hmeta' => .check_bind rfl h fun _ _ =>
      .check_bind rfl h fun asset' hasset' => ?_)
    rw [hmeta, Except.ok.injEq] at hmeta'
    subst hmeta'
    rw [hasset, Except.ok.injEq] at hasset'
    subst hasset'
    refine .check_bind (by rw [h.contains_record]) h fun _ _ =>
      .bind (h.insertShare fun _ => hout 0 Nat.one_pos) ?_
    intro v₁ s₁ _ _ hput _
    exact ⟨trivial, hput.insertRecord rfl rfl rfl rfl⟩
  | mint c =>
    simp only [callParts, Except.ok.injEq, Prod.mk.injEq] at hparts
    obtain ⟨rfl, rfl, rfl⟩ := hparts
    refine .read_bind (.check_bind rfl h fun _ _ => .check_bind (by rw [h.same.record])
      h fun record _ =>
      .check_bind rfl h fun _ _ => .check_bind rfl h fun _ _ => .check_bind rfl h fun _ _ =>
      .check_bind rfl h fun supply _ => .check_bind rfl h fun _ _ =>
        .check_bind rfl h fun minted _ =>
      .check_bind rfl h fun _ _ => .bind (h.insertShare fun _ => hout 0 Nat.one_pos) ?_)
    intro v₁ s₁ _ _ hput _
    exact ⟨trivial, hput.insertRecord rfl rfl rfl rfl⟩
  | transfer c =>
    simp only [callParts, Except.ok.injEq, Prod.mk.injEq] at hparts
    obtain ⟨rfl, rfl, rfl⟩ := hparts
    refine .read_bind (.check_bind (by rw [h.contains_record]) h fun _ _ =>
      .check_bind rfl h fun _ _ =>
      .check_bind rfl h fun _ _ => .check_bind (h.inputTotal_eq hin _ _) h fun _ _ =>
      .check_bind rfl h fun _ _ => .check_bind rfl h fun _ _ => .update_bind ?_)
    exact (h.foldl_removeShare hin).insertOutputs fun i hi _ => hout i hi
  | burn c =>
    simp only [callParts, Except.ok.injEq, Prod.mk.injEq] at hparts
    obtain ⟨rfl, rfl, rfl⟩ := hparts
    refine .read_bind (.check_bind rfl h fun _ _ => .check_bind rfl h fun _ _ =>
      .check_bind (h.inputTotal_eq hin _ _) h fun _ _ => .check_bind rfl h fun _ _ =>
      .check_bind rfl h fun _ _ => .check_bind (by rw [h.same.record]) h fun record _ =>
      .check_bind rfl h fun supply _ => .check_bind rfl h fun burned _ => .update_bind ?_)
    refine .bind ((h.foldl_removeShare hin).insertOutputs fun i hi _ => hout i ?_) ?_
    · split_ifs at hi ⊢
      · cases hi
      · exact hi
    · intro _ _ v₁ s₁ _ hmoved
      exact ⟨trivial, hmoved.insertRecord rfl rfl rfl rfl⟩

end

end SideBySide

/-! ## Calls -/

variable {s' : AssetState}

/-- The snapshot of the footprint undoes whatever happens within it. -/
theorem Within.rollback (h : Within asset ids s s') :
    (s'.rollback ⟨UndoLog.snapshot s.records [asset], UndoLog.snapshot s.shares ids⟩).records =
      s.records ∧
      (s'.rollback ⟨UndoLog.snapshot s.records [asset], UndoLog.snapshot s.shares ids⟩).shares =
      s.shares := by
  rw [rollback_records, rollback_shares]
  constructor
  · refine (UndoLog.undoes_snapshot fun a ha => h.records a fun heq => ha ?_).restore
    rw [heq]
    exact mem_singleton_self _
  · exact (UndoLog.undoes_snapshot h.shares).restore

/-- The journal holds entries of the footprint only. -/
def InFootprint (asset : AssetContract) (ids : List Share) (journal : AssetJournal) : Prop :=
  (∀ e ∈ journal.records.entries, e.1 = asset) ∧ ∀ e ∈ journal.shares.entries, e.1 ∈ ids

theorem SameOn.canonicalDelta_eq {journal : AssetJournal} (h : SameOn asset ids v s)
    (hjournal : InFootprint asset ids journal) :
    journal.canonicalDelta v = journal.canonicalDelta s := by
  have hrecords : journal.records.entries.foldlM (fun delta e => do
        let now ← AssetJournal.optionSize AssetJournal.sizeOfRecord e.1 (v.records.get? e.1)
        let old ← AssetJournal.optionSize AssetJournal.sizeOfRecord e.1 e.2
        AssetJournal.checkedAddI128 delta (now - old)) 0 =
      journal.records.entries.foldlM (fun delta e => do
        let now ← AssetJournal.optionSize AssetJournal.sizeOfRecord e.1 (s.records.get? e.1)
        let old ← AssetJournal.optionSize AssetJournal.sizeOfRecord e.1 e.2
        AssetJournal.checkedAddI128 delta (now - old)) 0 := by
    refine foldlM_congr (fun e he delta => ?_) 0
    rw [hjournal.1 e he, h.record]
  rw [AssetJournal.canonicalDelta, AssetJournal.canonicalDelta, hrecords]
  refine congrArg _ (funext fun delta => foldlM_congr (fun e he _ => ?_) delta)
  rw [h.shares e.1 (hjournal.2 e he)]

section
variable [Crypto] {call : AssetCall} {context : ExecutionContext}

theorem snapshotOperation_eq (hfoot : footprint call context = .ok (asset, ids)) (s : AssetState) :
    s.snapshotOperation call context =
      .ok ⟨UndoLog.snapshot s.records [asset], UndoLog.snapshot s.shares ids⟩ := by
  rw [snapshotOperation, hfoot]
  rfl

variable {e : AssetError}

/-- A call that fails leaves the two maps as they were. -/
theorem apply_error (h : apply call context s = (.error e, s')) :
    s'.records = s.records ∧ s'.shares = s.shares := by
  rw [apply] at h
  split at h
  · rw [← (Prod.mk.inj h).2]
    exact ⟨rfl, rfl⟩
  · rename_i journal hjournal
    obtain ⟨_, _, hsnapshot⟩ := bind_eq_ok.mp hjournal
    obtain ⟨⟨asset, ids⟩, hfoot, _⟩ := bind_eq_ok.mp hsnapshot
    rw [snapshotOperation_eq hfoot, Except.ok.injEq] at hsnapshot
    have hrun := SideBySide.monetary hfoot (.start (⟨rfl, fun _ _ => rfl⟩ : SameOn asset ids s s))
    rcases hop : applyMonetaryOperation call context s with ⟨_ | _, failed⟩ <;> rw [hop] at h hrun
    · rw [← (Prod.mk.inj h).2, ← hsnapshot]
      exact hrun.2.right.rollback
    · cases (Prod.mk.inj h).1

theorem SameOn.apply (hfoot : footprint call context = .ok (asset, ids))
    (h : SameOn asset ids v s) :
    InPlace.Alike (fun journal journal' => journal = journal' ∧ InFootprint asset ids journal)
      (SideBySide asset ids v s) (AssetState.apply call context v)
      (AssetState.apply call context s) := by
  have hrun := SideBySide.monetary hfoot (.start h)
  rw [AssetState.apply, AssetState.apply, snapshotOperation_eq hfoot, snapshotOperation_eq hfoot]
  cases hcheck : checkEncoding call with
  | error e => exact ⟨rfl, .start h⟩
  | ok _ =>
    simp only [ok_bind]
    rcases hv : applyMonetaryOperation call context v with ⟨_ | _, v₁⟩ <;>
      rcases hs : applyMonetaryOperation call context s with ⟨_ | _, s₁⟩ <;> rw [hv, hs] at hrun
    · obtain ⟨rfl, hmoved⟩ := hrun
      obtain ⟨hvr, hvs⟩ := hmoved.left.rollback
      obtain ⟨hsr, hss⟩ := hmoved.right.rollback
      refine ⟨rfl, ⟨?_, ?_⟩, ⟨?_, ?_⟩, ⟨?_, ?_⟩⟩
      · exact (congrArg (·.get? asset) hvr).trans
          (h.record.trans (congrArg (·.get? asset) hsr).symm)
      · exact fun id hid =>
          (congrArg (·.get? id) hvs).trans ((h.shares id hid).trans (congrArg (·.get? id) hss).symm)
      · exact fun a _ => congrArg (·.get? a) hvr
      · exact fun id _ => congrArg (·.get? id) hvs
      · exact fun a _ => congrArg (·.get? a) hsr
      · exact fun id _ => congrArg (·.get? id) hss
    · exact hrun.elim
    · exact hrun.elim
    · obtain ⟨_, hmoved⟩ := hrun
      have hold : ∀ a ∈ [asset], v.records.get? a = s.records.get? a := fun a ha => by
        rw [mem_singleton.mp ha, h.record]
      have hnew : ∀ a ∈ [asset], v₁.records.get? a = s₁.records.get? a := fun a ha => by
        rw [mem_singleton.mp ha, hmoved.same.record]
      obtain ⟨hrecords, hrmem⟩ := UndoLog.retain_snapshot hold hnew
      obtain ⟨hshares, hsmem⟩ := UndoLog.retain_snapshot h.shares hmoved.same.shares
      refine ⟨⟨by rw [hrecords, hshares], fun e he => mem_singleton.mp (hrmem e he), hsmem⟩, ?_,
        ?_, ?_⟩
      · exact ⟨hmoved.same.record, hmoved.same.shares⟩
      · exact ⟨hmoved.left.records, hmoved.left.shares⟩
      · exact ⟨hmoved.right.records, hmoved.right.shares⟩

/-! ## The view -/

theorem operationView_eq (hfoot : footprint call context = .ok (asset, ids)) (s : AssetState) :
    ∃ view, s.operationView call context = .ok view ∧ SameOn asset ids view s := by
  refine ⟨_, by rw [operationView, snapshotOperation_eq hfoot]; rfl, ?_, ?_⟩
  · rw [(rebuildOwnerIndex_maps _).1]
    change ((UndoLog.snapshot s.records [asset]).present).get? asset = _
    rw [UndoLog.get?_present, UndoLog.get?_snapshot, if_pos (mem_singleton_self _),
      Option.getD_some]
  · intro id hid
    rw [(rebuildOwnerIndex_maps _).2.1]
    change ((UndoLog.snapshot s.shares ids).present).get? id = _
    rw [UndoLog.get?_present, UndoLog.get?_snapshot, if_pos hid, Option.getD_some]

theorem footprint_error (h : footprint call context = .error e) : e = .invalidProgram := by
  rcases bind_eq_error.mp h with hparts | ⟨⟨asset, inputs, outputs⟩, _, h⟩
  · cases call with
    | register c =>
      simp only [callParts, bind_eq_error, Metadata.new, Metadata.validate, validateAssetName,
        rejectIf_eq_error, pure_eq_ok, reduceCtorEq, and_false, exists_false, or_false] at hparts
      rcases hparts with (⟨_, rfl⟩ | ⟨_, _, _, rfl⟩) | ⟨metadata, hmeta, hderive⟩
      · rfl
      · rfl
      · -- a valid name is short enough to be encoded
        simp only [bind_eq_ok, rejectIf_eq_ok, Except.ok.injEq] at hmeta
        obtain ⟨_, ⟨_, hname, _⟩, rfl⟩ := hmeta
        have hlength : c.name.length ≤ assetNameMaxLen :=
          not_lt.mp fun hlt => hname (.inr (.inl hlt))
        have hencode : encodeLen c.name.length = some (leBytes 4 c.name.length) :=
          if_pos (lt_of_le_of_lt hlength (by decide))
        simp only [AssetContract.derive, Metadata.encode, encodeBytes, hencode, Option.map_some,
          okOr, ok_bind, pure_eq_ok, reduceCtorEq] at hderive
    | mint c => cases hparts
    | transfer c => cases hparts
    | burn c => cases hparts
  · rcases bind_eq_error.mp h with hcreated | ⟨_, _, h⟩
    · obtain ⟨i, _, hi⟩ := exists_of_mapM_eq_error hcreated
      simp only [bind_eq_error, okOr_eq_error, pure_eq_ok, reduceCtorEq, and_false, exists_false,
        or_false] at hi
      exact hi.2.symm
    · cases h

omit [Crypto] in
theorem checkEncoding_error (h : checkEncoding call = .error e) :
    e = .invalidProgram ∨ call.encode = none ∧ e = .encoding := by
  rcases bind_eq_error.mp h with hencode | ⟨⟨opcode, payload⟩, _, h⟩
  · obtain ⟨hnone, rfl⟩ := okOr_eq_error.mp hencode
    exact .inr ⟨hnone, rfl⟩
  · rcases bind_eq_error.mp h with hdecode | ⟨_, _, h⟩
    · unfold orError at hdecode
      split at hdecode
      · cases hdecode
      · exact .inl (Except.error.inj hdecode).symm
    · cases h

/-- A call on its sparse view, beside the call on the state itself. Only where the view cannot be
built may the two errors differ, and then because Borsh cannot encode the call. -/
theorem operationView_apply (s : AssetState) (call : AssetCall) (context : ExecutionContext) :
    match s.operationView call context with
    | .error e => ∃ e', apply call context s = (.error e', s) ∧
        (e' = e ∨ call.encode = none ∧ e = .invalidProgram ∧ e' = .encoding)
    | .ok view => ∃ asset ids, footprint call context = .ok (asset, ids) ∧
      match apply call context view, apply call context s with
      | (.ok journal, view'), (.ok journal', s') => journal = journal' ∧
          journal.canonicalDelta view' = journal'.canonicalDelta s' ∧ SameOn asset ids view' s' ∧
          Within asset ids s s'
      | (.error e, _), (.error e', s') => e = e' ∧ s'.records = s.records ∧ s'.shares = s.shares
      | _, _ => False := by
  cases hfoot : footprint call context with
  | error e =>
    have hsnapshot : s.snapshotOperation call context = .error e := by
      rw [snapshotOperation, hfoot]; rfl
    have hview : s.operationView call context = .error e := by rw [operationView, hsnapshot]; rfl
    rw [hview, apply]
    cases hcheck : checkEncoding call with
    | error e' =>
      obtain rfl := footprint_error hfoot
      refine ⟨e', rfl, ?_⟩
      rcases checkEncoding_error hcheck with he' | ⟨hnone, he'⟩
      · exact .inl he'
      · exact .inr ⟨hnone, rfl, he'⟩
    | ok _ => exact ⟨e, by rw [hsnapshot]; rfl, .inl rfl⟩
  | ok foot =>
    obtain ⟨asset, ids⟩ := foot
    obtain ⟨view, hview, hsame⟩ := operationView_eq hfoot s
    have hrun := hsame.apply hfoot
    rw [hview]
    refine ⟨asset, ids, rfl, ?_⟩
    rcases hv : apply call context view with ⟨_ | journal, view'⟩ <;>
      rcases hs : apply call context s with ⟨_ | journal', s'⟩ <;> rw [hv, hs] at hrun
    · exact ⟨hrun.1, apply_error hs⟩
    · exact hrun.elim
    · exact hrun.elim
    · obtain ⟨⟨rfl, hjournal⟩, hside⟩ := hrun
      exact ⟨rfl, hside.same.canonicalDelta_eq hjournal, hside.same, hside.right⟩

theorem oversizedName {c : Register} (h : 2 ^ 32 ≤ c.name.length) (s : AssetState) :
    s.operationView (.register c) context = .error .invalidProgram ∧
      apply (.register c) context s = (.error .encoding, s) := by
  have hlong : c.name.length > assetNameMaxLen := lt_of_lt_of_le (by decide) h
  have hname : validateAssetName c.name = .error .invalidProgram := if_pos (.inr (.inl hlong))
  have hmeta : Metadata.new c.name c.maxSupply context.actor c.mintAuthority =
      .error .invalidProgram := by
    rw [Metadata.new, Metadata.validate, hname]
    rfl
  have hencode : (AssetCall.register c).encode = none := by
    rw [AssetCall.encode, encodeBytes, encodeLen, if_neg (not_lt.mpr h)]
    rfl
  constructor
  · rw [operationView, snapshotOperation, footprint, callParts, hmeta]
    rfl
  · rw [apply, checkEncoding, hencode]
    rfl

end

section Sample

attribute [local instance] Crypto.checksum

/-- A name of four gigabytes. -/
theorem oversizedName_replicate :
    empty.operationView (.register ⟨List.replicate (2 ^ 32) 97, 1, 1, .program 1, 0⟩)
      ⟨.program 1, 0⟩ =
        .error .invalidProgram ∧
      apply (.register ⟨List.replicate (2 ^ 32) 97, 1, 1, .program 1, 0⟩) ⟨.program 1, 0⟩ empty =
        (.error .encoding, empty) :=
  oversizedName (le_of_eq (length_replicate).symm) empty

end Sample

end AssetState

end Xparq
