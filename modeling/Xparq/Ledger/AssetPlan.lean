import Xparq.Ledger.AssetIndex
import Xparq.Lib.Selection

/-!
# What an asset call does

A successful call removes some shares of its actor, inserts new shares under derived
identifiers and writes one record. `AssetPlan` names these three and `Planned` is the
condition under which a call carries the plan out; `applyMonetaryOperation_ok` reads it off a
successful call.

`apply_ok` adds the journal, which leads back to the maps before the call.
-/

namespace Xparq

open Machine Outcome OrderedMap Selection List

/-- The sum of the amounts of listed shares. -/
def sumShares (shares : List (Share × AssetShare)) : Nat := (shares.map fun e => e.2.amount.val).sum

theorem sumOutputs_eq_ok {ε : Type} {zero overflow : ε} {outputs : List AssetOutput} {t : Units} :
    sumOutputs zero overflow outputs = .ok t ↔ (∀ o ∈ outputs, o.amount ≠ 0) ∧
      t.val = (outputs.map fun o => o.amount.val).sum := by
  have hfold : ∀ total : Units, outputs.foldlM (fun total output => do
      rejectIf (output.amount = 0) zero
      okOr (checkedAdd total output.amount) overflow) total = .ok t ↔
      (∀ o ∈ outputs, o.amount ≠ 0) ∧
        t.val = total.val + (outputs.map fun o => o.amount.val).sum := by
    induction outputs with
    | nil =>
      intro total
      rw [foldlM_nil, return_eq_ok, Fin.ext_iff, eq_comm]
      simp
    | cons o rest ih =>
      intro total
      simp only [foldlM_cons, bind_eq_ok, rejectIf_eq_ok, okOr_eq_ok, checkedAdd_eq_some, ih,
        forall_mem_cons, map_cons, sum_cons]
      constructor
      · rintro ⟨mid, ⟨_, hne, hmid⟩, hall, ht⟩
        exact ⟨⟨hne, hall⟩, by omega⟩
      · rintro ⟨⟨hne, hall⟩, ht⟩
        have hlt : total.val + o.amount.val < 2 ^ 128 := by have := t.isLt; omega
        exact ⟨⟨_, hlt⟩, ⟨(), hne, rfl⟩, hall, by simp only; omega⟩
  rw [sumOutputs, hfold]
  simp

namespace AssetState

variable {s s' : AssetState}

theorem inputTotal_eq_ok {asset : AssetContract} {inputs : List Share} {actor : Owner} {t : Units} :
    s.inputTotal asset inputs actor = .ok t ↔ ∃ entries : List (Share × AssetShare),
      entries.map Prod.fst = inputs ∧
      (∀ e ∈ entries, s.shares.get? e.1 = some e.2 ∧ e.2.asset = asset ∧ e.2.owner = actor) ∧
      t.val = sumShares entries := by
  have hf : ∀ (total : Units) (id : Share) (t : Units), (do
      let share ← okOr (s.shares.get? id) AssetError.unknownObject
      rejectIf (share.asset ≠ asset) .assetMismatch
      rejectIf (share.owner ≠ actor) .unauthorized
      okOr (checkedAdd total share.amount) .balanceOverflow) = .ok t ↔
      ∃ share, s.shares.get? id = some share ∧ (share.asset = asset ∧ share.owner = actor) ∧
        t.val = total.val + share.amount.val := by
    intro total id t
    simp only [bind_eq_ok, okOr_eq_ok, rejectIf_eq_ok, checkedAdd_eq_some, Decidable.not_not,
      exists_const, and_assoc]
  rw [inputTotal, foldlM_lookup AssetShare.amount (fun v => v.asset = asset ∧ v.owner = actor) hf]
  simp [sumShares]

theorem foldl_removeShare (ids : List Share) (s : AssetState) :
    (ids.foldl removeShare s).shares = s.shares.eraseAll ids ∧
      (ids.foldl removeShare s).records = s.records ∧
      (Indexed s → Indexed (ids.foldl removeShare s)) := by
  induction ids generalizing s with
  | nil => exact ⟨rfl, rfl, id⟩
  | cons id rest ih =>
    obtain ⟨hs, hr, hi⟩ := ih (s.removeShare id)
    rw [removeShare_shares] at hs
    rw [removeShare_records] at hr
    exact ⟨hs, hr, fun h => hi (h.removeShare id)⟩

/-! ## New shares -/

section
variable [Crypto]

/-- The shares that outputs become when they are inserted from an index on. -/
def shareOutputs (asset : AssetContract) (commitment : Hash) :
    Nat → List AssetOutput → List (Share × AssetShare)
  | _, [] => []
  | index, o :: rest => (Share.derive asset commitment (Fin.ofNat (2 ^ 32) index),
      ⟨asset, o.amount, o.recipient⟩) :: shareOutputs asset commitment (index + 1) rest

theorem sumShares_shareOutputs (asset : AssetContract) (commitment : Hash) (index : Nat)
    (outputs : List AssetOutput) :
    sumShares (shareOutputs asset commitment index outputs) =
      (outputs.map fun o => o.amount.val).sum := by
  induction outputs generalizing index with
  | nil => rfl
  | cons o rest ih =>
    have := ih (index + 1)
    simp only [sumShares, shareOutputs, map_cons, sum_cons] at this ⊢
    rw [this]

variable {asset : AssetContract} {commitment : Hash} {index : Nat} {outputs : List AssetOutput}

theorem mem_shareOutputs {e : Share × AssetShare}
    (h : e ∈ shareOutputs asset commitment index outputs) :
    ∃ i o, outputs[i]? = some o ∧
      e = (Share.derive asset commitment (Fin.ofNat (2 ^ 32) (index + i)),
        ⟨asset, o.amount, o.recipient⟩) := by
  induction outputs generalizing index with
  | nil => cases h
  | cons o rest ih =>
    rcases mem_cons.mp h with rfl | h
    · exact ⟨0, o, rfl, rfl⟩
    · obtain ⟨i, o', ho', rfl⟩ := ih h
      exact ⟨i + 1, o', by simpa using ho', by rw [add_assoc, add_comm 1 i]⟩

theorem insertShare_eq_ok {amount : Units} {owner : Owner} :
    s.insertShare asset commitment index amount owner = .ok s' ↔ index < 2 ^ 32 ∧
      s.shares.get? (Share.derive asset commitment (Fin.ofNat (2 ^ 32) index)) = none ∧
      s.putShare (Share.derive asset commitment (Fin.ofNat (2 ^ 32) index)) ⟨asset, amount, owner⟩ =
      s' := by
  simp only [insertShare, bind_eq_ok, okOr_eq_ok, ofNat?_eq_some, rejectIf_eq_ok, Bool.not_eq_true,
    contains_eq_false_iff, return_eq_ok]
  constructor
  · rintro ⟨j, rfl, _, hfresh, hput⟩
    rw [Fin.ofNat_val_eq_self]
    exact ⟨j.isLt, hfresh, hput⟩
  · rintro ⟨hlt, hfresh, hput⟩
    exact ⟨Fin.ofNat (2 ^ 32) index, Nat.mod_eq_of_lt hlt, (), hfresh, hput⟩

/-- The conditions under which outputs can be inserted. -/
def Insertable (shares : OrderedMap Share AssetShare) (asset : AssetContract) (commitment : Hash)
    (index : Nat) (outputs : List AssetOutput) : Prop :=
  (outputs = [] ∨ index + outputs.length ≤ 2 ^ 32) ∧
    ((shareOutputs asset commitment index outputs).map Prod.fst).Nodup ∧
    ∀ id ∈ (shareOutputs asset commitment index outputs).map Prod.fst, shares.get? id = none

/-- Outputs that are entered get fresh and distinct identifiers; nothing else changes. -/
theorem insertOutputs_ok {u : Unit}
    (h : insertOutputs asset commitment index outputs s = (.ok u, s')) :
    Insertable s.shares asset commitment index outputs ∧
      s'.shares = s.shares.insertAll (shareOutputs asset commitment index outputs) ∧
      s'.records = s.records ∧ (Indexed s → Indexed s') := by
  induction outputs generalizing s index with
  | nil =>
    rw [insertOutputs, InPlace.pure_ok] at h
    obtain ⟨_, rfl⟩ := h
    exact ⟨⟨Or.inl rfl, nodup_nil, by simp [shareOutputs]⟩, rfl, rfl, id⟩
  | cons o rest ih =>
    simp only [insertOutputs, InPlace.bind_ok, InPlace.read_ok, InPlace.check_ok, InPlace.update_ok,
      insertShare_eq_ok] at h
    obtain ⟨_, _, ⟨rfl, rfl⟩, _, _, ⟨⟨hlt, hfresh, rfl⟩, rfl⟩, _, _, rfl, hrest⟩ := h
    obtain ⟨⟨hbound, hnodup, hall⟩, hshares, hrecords, hindexed⟩ := ih hrest
    rw [putShare_shares] at hall hshares
    rw [putShare_records] at hrecords
    have hne : ∀ id ∈ (shareOutputs asset commitment (index + 1) rest).map Prod.fst,
        id ≠ Share.derive asset commitment (Fin.ofNat (2 ^ 32) index) := by
      rintro id hid rfl
      have := hall _ hid
      rw [get?_insert, if_pos rfl] at this
      cases this
    refine ⟨⟨Or.inr ?_, nodup_cons.mpr ⟨fun hm => hne _ hm rfl, hnodup⟩, ?_⟩, hshares, hrecords,
      fun h => hindexed (h.putShare _ _)⟩
    · rcases hbound with rfl | hbound
      · exact hlt
      · rw [length_cons]
        omega
    · intro id hid
      rcases mem_cons.mp hid with rfl | hid
      · exact hfresh
      · have := hall id hid
        rwa [get?_insert, if_neg (hne id hid)] at this

end

end AssetState

/-! ## Plans -/

/-- The record a call writes, the shares it removes and the outputs it inserts. -/
structure AssetPlan where
  asset : AssetContract
  record : AssetRecord
  inputs : List (Share × AssetShare)
  outputs : List AssetOutput

namespace AssetPlan

def inputIds (plan : AssetPlan) : List Share := plan.inputs.map Prod.fst

def outputSum (plan : AssetPlan) : Nat := (plan.outputs.map fun o => o.amount.val).sum

variable [Crypto]

def created (plan : AssetPlan) (commitment : Hash) : List (Share × AssetShare) :=
  AssetState.shareOutputs plan.asset commitment 0 plan.outputs

/-- What a call demands of the state, and how its record follows from the old one. -/
def Accounts (plan : AssetPlan) (context : ExecutionContext) (s : AssetState) : AssetCall → Prop
  | .register c => ∃ metadata,
    Metadata.new c.name c.maxSupply context.actor c.mintAuthority = .ok metadata ∧
      c.initialMint ≠ 0 ∧ c.initialMint ≤ c.maxSupply ∧
      AssetContract.derive metadata c.nonce = .ok plan.asset ∧ s.records.get? plan.asset = none ∧
      plan.record = ⟨metadata, c.initialMint, c.initialMint, 0, 0⟩ ∧ plan.inputs = [] ∧
      plan.outputs = [⟨context.actor, c.initialMint⟩]
  | .mint c => plan.asset = c.asset ∧ c.amount ≠ 0 ∧ ∃ old, s.records.get? c.asset = some old ∧
      old.metadata.mintAuthority = context.actor ∧ c.nonce.val = old.mintNonce.val + 1 ∧
      plan.record.supply.val = old.supply.val + c.amount.val ∧
      plan.record.supply ≤ old.metadata.maxSupply ∧
      plan.record.totalMinted.val = old.totalMinted.val + c.amount.val ∧
      plan.record.totalMinted ≤ old.metadata.maxSupply ∧
      plan.record = { old with
        supply := plan.record.supply, totalMinted := plan.record.totalMinted, mintNonce :=
          c.nonce } ∧
      plan.inputs = [] ∧ plan.outputs = [⟨c.recipient, c.amount⟩]
  | .transfer c => plan.asset = c.asset ∧ s.records.get? c.asset = some plan.record ∧
    c.inputs ≠ [] ∧
      c.outputs ≠ [] ∧ plan.inputIds = c.inputs ∧ plan.outputs = c.outputs ∧
      (∀ o ∈ c.outputs, o.amount ≠ 0) ∧ sumShares plan.inputs = plan.outputSum ∧
      plan.outputSum < 2 ^ 128
  | .burn c => plan.asset = c.asset ∧ c.inputs ≠ [] ∧ c.amount ≠ 0 ∧ plan.inputIds = c.inputs ∧
      sumShares plan.inputs = c.amount.val + c.output.val ∧ c.amount.val + c.output.val < 2 ^ 128 ∧
      (∃ old, s.records.get? c.asset = some old ∧
        plan.record.supply.val + c.amount.val = old.supply.val ∧
        plan.record.totalBurned.val = old.totalBurned.val + c.amount.val ∧
        plan.record =
          { old with supply := plan.record.supply, totalBurned := plan.record.totalBurned }) ∧
      plan.outputs = if c.output = 0 then [] else [⟨context.actor, c.output⟩]

end AssetPlan

/-- The call can carry out the plan on the state. -/
structure Planned [Crypto] (call : AssetCall) (context : ExecutionContext) (s : AssetState)
    (plan : AssetPlan) : Prop where
  inputs_nodup : plan.inputIds.Nodup
  inputs_live : ∀ e ∈ plan.inputs, s.shares.get? e.1 = some e.2 ∧ e.2.asset = plan.asset ∧
    e.2.owner = context.actor
  insertable : AssetState.Insertable (s.shares.eraseAll plan.inputIds) plan.asset
    context.commitment 0
    plan.outputs
  accounts : plan.Accounts context s call

namespace AssetState

variable [Crypto] {s s' : AssetState} {call : AssetCall} {context : ExecutionContext}

/-- The plan was carried out: one record written, shares removed and inserted. -/
structure Executed (context : ExecutionContext) (plan : AssetPlan) (s s' : AssetState) : Prop where
  records : s'.records = s.records.insert plan.asset plan.record
  shares : s'.shares = (s.shares.eraseAll plan.inputIds).insertAll (plan.created context.commitment)
  indexed : Indexed s → Indexed s'

variable {u : Unit} {asset : AssetContract} {plan : AssetPlan}

theorem moveShares_ok {inputs : List Share} {outputs : List AssetOutput}
    (h : insertOutputs asset context.commitment 0 outputs (inputs.foldl removeShare s) =
      (.ok u, s')) :
    Insertable (s.shares.eraseAll inputs) asset context.commitment 0 outputs ∧
      s'.shares = (s.shares.eraseAll inputs).insertAll
      (shareOutputs asset context.commitment 0 outputs) ∧
      s'.records = s.records ∧ (Indexed s → Indexed s') := by
  obtain ⟨hshares, hrecords, hindexed⟩ := foldl_removeShare inputs s
  obtain ⟨hins, hshares', hrecords', hindexed'⟩ := insertOutputs_ok h
  rw [hshares] at hins hshares'
  exact ⟨hins, hshares', hrecords'.trans hrecords, fun h => hindexed' (hindexed h)⟩

theorem insertable_singleton {shares : OrderedMap Share AssetShare} {commitment : Hash}
    {o : AssetOutput} :
    Insertable shares asset commitment 0 [o] ↔
      shares.get? (Share.derive asset commitment (Fin.ofNat (2 ^ 32) 0)) = none := by
  simp [Insertable, shareOutputs]

theorem register_ok {c : Register}
    (h : applyMonetaryOperation (.register c) context s = (.ok u, s')) :
    ∃ plan, Planned (.register c) context s plan ∧ Executed context plan s s' := by
  simp only [applyMonetaryOperation, InPlace.bind_ok, InPlace.read_ok, InPlace.check_ok,
    InPlace.update_ok, rejectIf_eq_ok, insertShare_eq_ok, Bool.not_eq_true, contains_eq_false_iff,
      not_or, not_lt] at h
  obtain ⟨_, _, ⟨rfl, rfl⟩, metadata, _, ⟨hmeta, rfl⟩, _, _, ⟨⟨hzero, hle⟩, rfl⟩, asset, _,
    ⟨hasset, rfl⟩, _, _, ⟨hfree, rfl⟩, _, _, ⟨⟨_, hfresh, rfl⟩, rfl⟩, rfl⟩ := h
  refine ⟨⟨asset, ⟨metadata, c.initialMint, c.initialMint, 0, 0⟩, [],
    [⟨context.actor, c.initialMint⟩]⟩, ⟨nodup_nil, by simp, insertable_singleton.mpr hfresh,
      metadata, hmeta, hzero, hle, hasset, hfree, rfl, rfl, rfl⟩, ?_, ?_, ?_⟩
  · change (putShare _ _ _).records.insert _ _ = _
    rw [putShare_records]
  · change (putShare _ _ _).shares = _
    rw [putShare_shares]
    rfl
  · intro hindexed
    have hput := hindexed.putShare (Share.derive asset context.commitment (Fin.ofNat (2 ^ 32) 0))
      ⟨asset, c.initialMint, context.actor⟩
    have hparts : metadata = ⟨c.name, c.maxSupply, context.actor, c.mintAuthority⟩ := by
      simp only [Metadata.new, bind_eq_ok, return_eq_ok] at hmeta
      exact hmeta.choose_spec.2.symm
    have := hput.insertRecord (a := asset) ⟨metadata, c.initialMint, c.initialMint, 0, 0⟩ (by
      intro o
      cases hrole : ((s.putShare _ _).assetRoles.members o).get? asset with
      | none => rfl
      | some u =>
        obtain ⟨r, hr, _⟩ := hput.roles o asset hrole
        rw [putShare_records, hfree] at hr
        cases hr)
    rw [hparts] at this ⊢
    exact this

theorem mint_ok {c : Mint} (h : applyMonetaryOperation (.mint c) context s = (.ok u, s')) :
    ∃ plan, Planned (.mint c) context s plan ∧ Executed context plan s s' := by
  simp only [applyMonetaryOperation, InPlace.bind_ok, InPlace.read_ok, InPlace.check_ok,
    InPlace.update_ok, rejectIf_eq_ok, insertShare_eq_ok, okOr_eq_ok, checkedAdd_eq_some,
      Decidable.not_not, not_lt] at h
  obtain ⟨_, _, ⟨rfl, rfl⟩, _, _, ⟨hzero, rfl⟩, old, _, ⟨hold, rfl⟩, _, _, ⟨hauth, rfl⟩, nonce, _,
    ⟨hnonce, rfl⟩, _, _, ⟨rfl, rfl⟩, supply, _, ⟨hsupply, rfl⟩, _, _, ⟨hsupplyLe, rfl⟩, minted, _,
    ⟨hminted, rfl⟩, _, _, ⟨hmintedLe, rfl⟩, _, _, ⟨⟨_, hfresh, rfl⟩, rfl⟩, rfl⟩ := h
  refine ⟨⟨c.asset, { old with supply, totalMinted := minted, mintNonce := c.nonce }, [],
    [⟨c.recipient, c.amount⟩]⟩, ⟨nodup_nil, by simp, insertable_singleton.mpr hfresh,
      rfl, hzero, old, hold, hauth, hnonce, hsupply, hsupplyLe, hminted, hmintedLe, rfl, rfl, rfl⟩,
        ?_, ?_, ?_⟩
  · change (putShare _ _ _).records.insert _ _ = _
    rw [putShare_records]
  · change (putShare _ _ _).shares = _
    rw [putShare_shares]
    rfl
  · intro hindexed
    refine Indexed.updateRecord (hindexed.putShare _ _) (?_ : _ = some old) rfl
    rw [putShare_records, hold]

theorem transfer_ok {c : Transfer}
    (h : applyMonetaryOperation (.transfer c) context s = (.ok u, s')) :
    ∃ plan, Planned (.transfer c) context s plan ∧ Executed context plan s s' := by
  simp only [applyMonetaryOperation, InPlace.bind_ok, InPlace.read_ok, InPlace.check_ok,
    InPlace.update_ok, rejectIf_eq_ok, ensureUniqueAssetInputs, inputTotal_eq_ok, sumOutputs_eq_ok,
      Bool.not_eq_false,
    contains_eq_true_iff, not_or, Decidable.not_not] at h
  obtain ⟨_, _, ⟨rfl, rfl⟩, _, _, ⟨⟨record, hrecord⟩, rfl⟩, _, _, ⟨⟨hin, hout⟩, rfl⟩, _,
    _, ⟨hnodup, rfl⟩, inputTotal, _, ⟨⟨entries, hids, hlive, hinput⟩, rfl⟩, outputTotal, _,
      ⟨⟨hnonzero, houtput⟩, rfl⟩, _, _,
    ⟨hsame, rfl⟩, _, _, rfl, hmove⟩ := h
  obtain ⟨hins, hshares, hrecords, hindexed⟩ := moveShares_ok hmove
  rw [← hids] at hnodup hins hshares
  refine ⟨⟨c.asset, record, entries, c.outputs⟩, ⟨hnodup, hlive, hins, rfl, hrecord, hin,
    hout, hids, rfl, hnonzero, ?_, ?_⟩, ?_, hshares, hindexed⟩
  · rw [← hinput, hsame, houtput]
    rfl
  · exact lt_of_eq_of_lt houtput.symm outputTotal.isLt
  · rw [hrecords]
    exact (insert_of_get? hrecord).symm

theorem burn_ok {c : Burn} (h : applyMonetaryOperation (.burn c) context s = (.ok u, s')) :
    ∃ plan, Planned (.burn c) context s plan ∧ Executed context plan s s' := by
  simp only [applyMonetaryOperation, InPlace.bind_ok, InPlace.read_ok, InPlace.check_ok,
    InPlace.update_ok, rejectIf_eq_ok, ensureUniqueAssetInputs, inputTotal_eq_ok, okOr_eq_ok,
      checkedAdd_eq_some,
    checkedSub_eq_some, not_or, Decidable.not_not] at h
  obtain ⟨_, _, ⟨rfl, rfl⟩, _, _, ⟨⟨hin, hzero⟩, rfl⟩, _, _, ⟨hnodup, rfl⟩, inputTotal, _,
    ⟨⟨entries, hids, hlive, hinput⟩, rfl⟩, expected, _, ⟨hexpected, rfl⟩, _, _, ⟨rfl, rfl⟩,
      old, _, ⟨hold, rfl⟩,
    supply, _, ⟨hsupply, rfl⟩, burned, _, ⟨hburned, rfl⟩, _, _, rfl, _, s₁, hmove, rfl⟩ := h
  obtain ⟨hins, hshares, hrecords, hindexed⟩ := moveShares_ok hmove
  rw [← hids] at hnodup hins hshares
  refine ⟨⟨c.asset, { old with supply, totalBurned := burned }, entries,
    if c.output = 0 then [] else [⟨context.actor, c.output⟩]⟩,
      ⟨hnodup, hlive, hins, rfl, hin, hzero, hids, hinput.symm.trans hexpected,
        lt_of_eq_of_lt hexpected.symm inputTotal.isLt,
      ⟨old, hold, hsupply, hburned, rfl⟩, rfl⟩, ?_, hshares, ?_⟩
  · change s₁.records.insert _ _ = _
    rw [hrecords]
  · intro h
    refine Indexed.updateRecord (hindexed h) (?_ : _ = some old) rfl
    rw [hrecords, hold]

/-- What a successful call did. -/
theorem applyMonetaryOperation_ok (h : applyMonetaryOperation call context s = (.ok u, s')) :
    ∃ plan, Planned call context s plan ∧ Executed context plan s s' := by
  cases call with
  | register c => exact register_ok h
  | mint c => exact mint_ok h
  | transfer c => exact transfer_ok h
  | burn c => exact burn_ok h

/-! ## The journal -/

theorem shareOutputs_keys (asset : AssetContract) (commitment : Hash) (index : Nat)
    (outputs : List AssetOutput) :
    (shareOutputs asset commitment index outputs).map Prod.fst =
      (List.range outputs.length).map fun i =>
        Share.derive asset commitment (Fin.ofNat (2 ^ 32) (index + i)) := by
  induction outputs generalizing index with
  | nil => rfl
  | cons o rest ih =>
    rw [shareOutputs, map_cons, ih, length_cons, range_succ_eq_map, map_cons,
      map_map]
    simp only [add_zero, Function.comp_def, Nat.succ_eq_add_one, Nat.add_assoc, Nat.add_comm 1]

theorem callParts_of_planned (h : Planned call context s plan) :
    callParts call context = .ok (plan.asset, plan.inputIds, plan.outputs.length) := by
  have haccounts := h.accounts
  obtain ⟨asset, record, inputs, outputs⟩ := plan
  cases call with
  | register c =>
    obtain ⟨metadata, hmeta, _, _, hasset, _, _, rfl, rfl⟩ := haccounts
    simp only [callParts, hmeta, ok_bind, hasset]
    rfl
  | mint c =>
    obtain ⟨rfl, _, _, _, _, _, _, _, _, _, _, rfl, rfl⟩ := haccounts
    rfl
  | transfer c =>
    obtain ⟨rfl, _, _, _, hids, rfl, _⟩ := haccounts
    rw [callParts, hids]
  | burn c =>
    obtain ⟨rfl, _, _, hids, _, _, _, rfl⟩ := haccounts
    rw [callParts, hids]
    split_ifs <;> rfl

theorem footprint_of_planned (h : Planned call context s plan) :
    footprint call context =
      .ok (plan.asset, plan.inputIds ++ (plan.created context.commitment).map Prod.fst) := by
  have hlen : plan.outputs.length ≤ 2 ^ 32 := by
    rcases h.insertable.1 with hnil | hlen
    · simp [hnil]
    · omega
  have hcreated : ((List.range plan.outputs.length).mapM fun index => (do
      let index ← okOr (ofNat? (2 ^ 32) index) AssetError.invalidProgram
      return Share.derive plan.asset context.commitment index)) =
      .ok ((List.range plan.outputs.length).map fun i =>
        Share.derive plan.asset context.commitment (Fin.ofNat (2 ^ 32) i)) := by
    apply mapM_eq_ok
    intro i hi
    have hlt : i < 2 ^ 32 := lt_of_lt_of_le (mem_range.mp hi) hlen
    have : ofNat? (2 ^ 32) i = some (Fin.ofNat (2 ^ 32) i) :=
      ofNat?_eq_some.mpr (Nat.mod_eq_of_lt hlt)
    rw [this]
    rfl
  rw [footprint, callParts_of_planned h, AssetPlan.created, shareOutputs_keys]
  simp only [ok_bind, hcreated, zero_add]
  rfl

end AssetState

/-- The journal leads from the maps of `now` back to those of `start`. -/
def AssetJournal.Undoes (journal : AssetJournal) (now start : AssetState) : Prop :=
  UndoLog.Undoes journal.records now.records start.records ∧
    UndoLog.Undoes journal.shares now.shares start.shares

namespace AssetState

variable [Crypto] {s s' : AssetState} {call : AssetCall} {context : ExecutionContext}

variable {plan : AssetPlan}

theorem Planned.created_nodup (h : Planned call context s plan) :
    ((plan.created context.commitment).map Prod.fst).Nodup :=
  h.insertable.2.1

theorem Executed.get?_created (hexec : Executed context plan s s') (h : Planned call context s plan)
    {e : Share × AssetShare} (he : e ∈ plan.created context.commitment) :
    s'.shares.get? e.1 = some e.2 := by
  rw [hexec.shares]
  exact get?_insertAll_of_mem (Planned.created_nodup h) he

theorem Executed.shares_of_notMem (h : Executed context plan s s') {id : Share}
    (hin : id ∉ plan.inputIds) (hnew : id ∉ (plan.created context.commitment).map Prod.fst) :
    s'.shares.get? id = s.shares.get? id := by
  rw [h.shares, get?_insertAll_of_notMem hnew, get?_eraseAll, if_neg hin]

/-- The snapshot of the footprint undoes the call, also without the entries that did not change. -/
theorem Executed.undoes (h : Executed context plan s s') :
    AssetJournal.Undoes
      ⟨(UndoLog.snapshot s.records [plan.asset]).retain fun key previous =>
          s'.records.get? key ≠ previous,
        (UndoLog.snapshot s.shares (plan.inputIds ++
          (plan.created context.commitment).map Prod.fst)).retain fun key previous =>
            s'.shares.get? key ≠ previous⟩ s' s := by
  constructor
  · refine UndoLog.Undoes.retain (UndoLog.undoes_snapshot ?_) ?_
    · intro k hk
      rw [mem_singleton] at hk
      rw [h.records, get?_insert, if_neg hk]
    · intro k o hko
      rw [decide_eq_false_iff_not, not_not] at hko
      exact hko.symm
  · refine UndoLog.Undoes.retain (UndoLog.undoes_snapshot ?_) ?_
    · intro k hk
      rw [mem_append, not_or] at hk
      exact h.shares_of_notMem hk.1 hk.2
    · intro k o hko
      rw [decide_eq_false_iff_not, not_not] at hko
      exact hko.symm

/-- What a successful `apply` did; the summary follows the journal. -/
theorem apply_ok {journal : AssetJournal} (h : apply call context s = (.ok journal, s')) :
    ∃ plan s₁, Planned call context s plan ∧ Executed context plan s s₁ ∧ journal.Undoes s₁ s ∧
      s' = s₁.advanceSupplySummary s.supplySnapshot journal := by
  rw [apply] at h
  split at h
  · cases (Prod.mk.inj h).1
  · rename_i snapshot hsnapshot
    rcases hop : applyMonetaryOperation call context s with ⟨_ | u, s₁⟩
    · rw [hop] at h
      cases (Prod.mk.inj h).1
    · rw [hop] at h
      obtain ⟨hjournal, rfl⟩ := Prod.mk.inj h
      obtain ⟨plan, hplan, hexec⟩ := applyMonetaryOperation_ok hop
      simp only [bind_eq_ok, snapshotOperation, footprint_of_planned hplan, ok_bind, return_eq_ok]
        at hsnapshot
      obtain ⟨_, _, rfl⟩ := hsnapshot
      rw [Except.ok.injEq] at hjournal
      subst hjournal
      exact ⟨plan, s₁, hplan, hexec, hexec.undoes, rfl⟩

end AssetState

end Xparq
