import Xparq.Ledger.AssetSupply
import Xparq.Ledger.AssetView
import Xparq.Ledger.StateCodec

/-!
# Exact asset lookups

`AssetState.Exact` says that the lookups are the ones that would be recomputed from the maps
(`Exact.lookups_eq`). Removing a share keeps it; entering a share keeps it as long as the new
balance fits its type, because the addition saturates.

`rollback` writes shares back in the order of their identifiers. It may enter an old share while
the new ones are still there, so that a balance passes through the sum of both sides. As long as
the old and the new shares of one owner in one asset are in range together, a rollback is exact
(`AssetRun.lookups`); otherwise it can lose a balance (`rollback_loses_balance`).
-/

namespace Xparq

open Machine Outcome OrderedMap List

namespace AssetState

/-- The lookups describe the maps completely. -/
structure Exact (s : AssetState) : Prop where
  indexed : Indexed s
  balance : ∀ o a, (s.balanceByOwnerAsset o a).val = s.balanceOf o a
  stored : ∀ k b, s.ownerAssetBalances.get? k = some b → b ≠ 0
  listed : ∀ a r, s.records.get? a = some r → ∀ o, r.metadata.creator = o ∨
    r.metadata.mintAuthority = o →
    (s.assetRoles.members o).get? a = some ()

/-- No share is empty. -/
def Funded (s : AssetState) : Prop := ∀ id share, s.shares.get? id = some share → share.amount ≠ 0

/-- No share is empty, and every balance is in the range of its type. -/
structure Ranged (s : AssetState) : Prop where
  funded : Funded s
  below : ∀ o a, s.balanceOf o a < 2 ^ 128

variable {s s' : AssetState}

theorem Exact.lookups_eq (h : Exact s) (h' : Exact s') (hr : s.records = s'.records)
    (hs : s.shares = s'.shares) :
    s.byOwner = s'.byOwner ∧ s.ownerAssetBalances = s'.ownerAssetBalances ∧
      s.assetRoles = s'.assetRoles := by
  refine ⟨h.indexed.compact.ext h'.indexed.compact fun o a id => ?_, ?_,
    h.indexed.rolesCompact.ext h'.indexed.rolesCompact fun o a => ?_⟩
  · rw [h.indexed.members o a id, h'.indexed.members o a id, hs]
  · apply ext_get?
    intro k
    have hbalance : ∀ t : AssetState, Exact t → t.ownerAssetBalances.get? k =
        if (t.balanceByOwnerAsset (ofLex k).1 (ofLex k).2) = 0 then none
        else some (t.balanceByOwnerAsset (ofLex k).1 (ofLex k).2) := by
      intro t ht
      have hk : t.balanceByOwnerAsset (ofLex k).1 (ofLex k).2 =
          (t.ownerAssetBalances.get? k).getD 0 := rfl
      rw [hk]
      cases hget : t.ownerAssetBalances.get? k with
      | none => rfl
      | some b => rw [Option.getD_some, if_neg (ht.stored k b hget)]
    have hsame : s.balanceByOwnerAsset (ofLex k).1 (ofLex k).2 = s'.balanceByOwnerAsset (ofLex k).1
        (ofLex k).2 := by
      apply Fin.ext
      rw [h.balance, h'.balance, balanceOf, balanceOf, hs]
    rw [hbalance s h, hbalance s' h', hsame]
  · have hroles : ∀ t : AssetState, Exact t → ((t.assetRoles.members o).get? a = some () ↔
        ∃ r, t.records.get? a = some r ∧ (r.metadata.creator = o ∨ r.metadata.mintAuthority = o)) :=
      fun t ht => ⟨ht.indexed.roles o a, fun ⟨r, hrec, hrole⟩ => ht.listed a r hrec o hrole⟩
    rw [hroles s h, hroles s' h', hr]

theorem exact_empty : Exact empty where
  indexed := indexed_empty
  balance _ _ := rfl
  stored _ _ h := by cases h
  listed _ _ h := by cases h

theorem Exact.withCache (h : Exact s) (cache : Option ValidatedAssetRoots) :
    Exact { s with supplyCache := cache } :=
  ⟨h.indexed.withCache cache, h.balance, h.stored, h.listed⟩

/-! ## One share -/

variable {a a' : AssetContract} {o o' : Owner} {id : Share} {share : AssetShare}

theorem Exact.removeShare (h : Exact s) (id : Share) : Exact (s.removeShare id) := by
  have hindexed := h.indexed.removeShare id
  cases hshare : s.shares.get? id with
  | none => rwa [AssetState.removeShare, hshare]
  | some share =>
    refine ⟨hindexed, fun o a => ?_, fun k b hk => ?_, ?_⟩
    · have hold := h.balance o a
      have htrue := balanceOf_removeShare hshare o a
      have hstored := balanceByOwnerAsset_removeShare hshare o a
      omega
    · obtain ⟨left, _, hget⟩ := exists_left hshare
      rw [hget] at hk
      split_ifs at hk with _ hzero
      · exact Option.some.inj hk ▸ hzero
      · exact h.stored k b hk
    · rw [AssetState.removeShare, hshare]
      exact h.listed

theorem Exact.enterShare (h : Exact s) (hfresh : s.shares.get? id = none) (hne : share.amount ≠ 0)
    (hfit : s.balanceOf share.owner share.asset + share.amount.val < 2 ^ 128) :
    Exact (s.enterShare id share) := by
  have hbalance : ∀ o a, ((s.enterShare id share).balanceByOwnerAsset o a).val =
      (s.enterShare id share).balanceOf o a := by
    intro o a
    have hold := h.balance o a
    have hlt := (s.balanceByOwnerAsset o a).isLt
    rw [balanceByOwnerAsset_enterShare, balanceOf_enterShare hfresh, sharePart]
    split_ifs with hoa
    · obtain ⟨rfl, rfl⟩ := hoa
      omega
    · omega
  refine ⟨h.indexed.enterShare hfresh share, hbalance, fun k b hk => ?_, h.listed⟩
  change (s.ownerAssetBalances.insert _ _).get? k = some b at hk
  rw [get?_insert] at hk
  split_ifs at hk
  · -- the new balance holds the share, which is not empty
    rintro rfl
    have hown := balanceByOwnerAsset_enterShare s id share share.owner share.asset
    have hpos : 0 < share.amount.val := Nat.pos_of_ne_zero fun h0 => hne (Fin.ext h0)
    rw [sharePart_self, balanceByOwnerAsset] at hown
    change (((s.ownerAssetBalances.insert _ _).get? _).getD 0).val = _ at hown
    rw [get?_insert_self, hk] at hown
    change 0 = _ at hown
    omega
  · exact h.stored k b hk

theorem Exact.putShare (h : Exact s) (hne : share.amount ≠ 0)
    (hfit : (s.putShare id share).balanceOf share.owner share.asset < 2 ^ 128) :
    Exact (s.putShare id share) := by
  by_cases hsame : s.shares.get? id = some share
  · rwa [AssetState.putShare, if_pos hsame]
  · have hfresh : (s.removeShare id).shares.get? id = none := by
      rw [removeShare_shares, get?_erase, if_pos rfl]
    rw [balanceOf, putShare_shares, ← insert_erase, ← removeShare_shares,
      sumBy_insert_of_get?_none _ hfresh, if_pos ⟨rfl, rfl⟩, Nat.add_comm] at hfit
    rw [AssetState.putShare, if_neg hsame]
    exact (h.removeShare id).enterShare hfresh hne hfit

/-! ## Records -/

theorem Exact.updateRecord (h : Exact s) {old record : AssetRecord}
    (hold : s.records.get? a = some old) (hmeta : record.metadata = old.metadata) :
    Exact { s with records := s.records.insert a record } := by
  refine ⟨h.indexed.updateRecord hold hmeta, h.balance, h.stored, fun a' r hr o hrole => ?_⟩
  change (s.records.insert a record).get? a' = some r at hr
  rw [get?_insert] at hr
  split_ifs at hr with ha
  · cases hr
    rw [hmeta] at hrole
    rw [ha]
    exact h.listed a old hold o hrole
  · exact h.listed a' r hr o hrole

/-- A record that is entered with both its roles is listed, and the others stay listed. -/
theorem listed_insert {index : GroupIndex Owner AssetContract}
    {records : OrderedMap AssetContract AssetRecord} (record : AssetRecord)
    (h : ∀ a', a' ≠ a → ∀ r, records.get? a' = some r → ∀ o,
      r.metadata.creator = o ∨ r.metadata.mintAuthority = o → (index.members o).get? a' = some ())
    (a' : AssetContract) (r : AssetRecord) (hr : (records.insert a record).get? a' = some r)
    (o : Owner) (hrole : r.metadata.creator = o ∨ r.metadata.mintAuthority = o) :
    (((index.add record.metadata.creator a).add record.metadata.mintAuthority a).members o).get?
      a' = some () := by
  rw [get?_insert] at hr
  split_ifs at hr with ha
  · cases hr
    rw [GroupIndex.mem_add, GroupIndex.mem_add]
    grind
  · exact GroupIndex.mem_add.mpr (.inr (GroupIndex.mem_add.mpr (.inr (h a' ha r hr o hrole))))

theorem Exact.insertRecord (h : Exact s) (record : AssetRecord)
    (hfree : ∀ o, (s.assetRoles.members o).get? a = none) :
    Exact (({ s with records := s.records.insert a record }.indexAssetRole a
      record.metadata.creator).indexAssetRole a record.metadata.mintAuthority) :=
  ⟨h.indexed.insertRecord record hfree, h.balance, h.stored,
    listed_insert record fun a' _ => h.listed a'⟩

theorem dropRoles_members_of_ne {key : AssetContract} (ha : a ≠ key)
    (h : (s.assetRoles.members o).get? a = some ()) :
    ((s.dropRoles key).assetRoles.members o).get? a = some () := by
  unfold AssetState.dropRoles
  split
  · exact h
  · exact GroupIndex.mem_remove.mpr ⟨fun heq => ha heq.2,
      GroupIndex.mem_remove.mpr ⟨fun heq => ha heq.2, h⟩⟩

theorem dropRoles_balances (s : AssetState) (key : AssetContract) :
    (s.dropRoles key).ownerAssetBalances = s.ownerAssetBalances := by
  unfold dropRoles
  split <;> rfl

theorem Exact.restoreRecord (h : Exact s) (key : AssetContract) (previous : Option AssetRecord) :
    Exact (s.restoreRecord key previous) := by
  have hindexed := h.indexed.restoreRecord key previous
  rw [restoreRecord_eq] at hindexed ⊢
  split_ifs at hindexed ⊢ with hsame
  · exact h
  · have hbalances := dropRoles_balances s key
    have hshares := dropRoles_shares s key
    have hbalance : ∀ o a,
        ((s.dropRoles key).balanceByOwnerAsset o a).val = (s.dropRoles key).balanceOf o a := by
      intro o a
      rw [balanceByOwnerAsset, hbalances, balanceOf, hshares]
      exact h.balance o a
    have hstored := h.stored
    rw [← hbalances] at hstored
    have hlisted : ∀ a, a ≠ key → ∀ r, s.records.get? a = some r → ∀ o,
        r.metadata.creator = o ∨ r.metadata.mintAuthority = o →
        ((s.dropRoles key).assetRoles.members o).get? a = some () := fun a ha r hr o hrole =>
      dropRoles_members_of_ne ha (h.listed a r hr o hrole)
    cases previous with
    | none =>
      refine ⟨hindexed, hbalance, hstored, fun a r hr o hrole => ?_⟩
      change (s.records.erase key).get? a = some r at hr
      rw [get?_erase] at hr
      split_ifs at hr with ha
      exact hlisted a ha r hr o hrole
    | some record => exact ⟨hindexed, hbalance, hstored, listed_insert record hlisted⟩

theorem Exact.foldl_restoreRecord (h : Exact s) (l : List (AssetContract × Option AssetRecord)) :
    Exact (l.foldl (fun s e => s.restoreRecord e.1 e.2) s) := by
  induction l generalizing s with
  | nil => exact h
  | cons e rest ih => exact ih (h.restoreRecord e.1 e.2)

/-! ## Shares that come and go -/

/-- What the listed shares give an owner in an asset. -/
def heldBy (o : Owner) (a : AssetContract) (l : List (Share × AssetShare)) : Nat :=
  (l.map fun e => if e.2.owner = o ∧ e.2.asset = a then e.2.amount.val else 0).sum

/-- Two lists of shares that may all be live at once. -/
def Fits (p q : List (Share × AssetShare)) : Prop := ∀ o a, heldBy o a p + heldBy o a q < 2 ^ 128

/-- Exact lookups of shares that are not empty and all come from the two lists. -/
structure InPool (p q : List (Share × AssetShare)) (s : AssetState) : Prop where
  exact : Exact s
  funded : Funded s
  mem : ∀ e ∈ s.shares.entries, e ∈ p ∨ e ∈ q

variable {p q : List (Share × AssetShare)}

theorem balanceOf_le (h : ∀ e ∈ s.shares.entries, e ∈ p ∨ e ∈ q) (o : Owner) (a : AssetContract) :
    s.balanceOf o a ≤ heldBy o a p + heldBy o a q := sumBy_le_of_mem h

theorem Funded.putShare (h : Funded s) (hne : share.amount ≠ 0) : Funded (s.putShare id share) := by
  intro id' share' hshare
  rw [putShare_shares, get?_insert] at hshare
  split_ifs at hshare
  · exact Option.some.inj hshare ▸ hne
  · exact h id' share' hshare

theorem InPool.removeShare (h : InPool p q s) (id : Share) : InPool p q (s.removeShare id) := by
  have hold : ∀ e ∈ (s.removeShare id).shares.entries, e ∈ s.shares.entries := by
    intro e he
    rw [removeShare_shares, ← get?_eq_some_iff, get?_erase] at he
    split_ifs at he
    exact get?_eq_some_iff.mp he
  exact ⟨h.exact.removeShare id,
    fun id' share' hshare => h.funded id' share'
      (get?_eq_some_iff.mpr (hold _ (get?_eq_some_iff.mp hshare))),
    fun e he => h.mem e (hold e he)⟩

theorem InPool.putShare (hfits : Fits p q) (h : InPool p q s)
    (hmem : (id, share) ∈ p ∨ (id, share) ∈ q) (hne : share.amount ≠ 0) :
    InPool p q (s.putShare id share) := by
  have hentries : ∀ e ∈ (s.putShare id share).shares.entries, e ∈ p ∨ e ∈ q := by
    rw [putShare_shares]
    exact forall_mem_insert hmem h.mem
  refine ⟨h.exact.putShare hne ?_, h.funded.putShare hne, hentries⟩
  exact lt_of_le_of_lt (balanceOf_le hentries _ _) (hfits _ _)

theorem InPool.foldl_restoreShare (hfits : Fits p q) (hp : ∀ e ∈ p, e.2.amount ≠ 0)
    (h : InPool p q s) {l : List (Share × Option AssetShare)}
    (hl : ∀ e ∈ l, ∀ share, e.2 = some share → (e.1, share) ∈ p) :
    InPool p q (l.foldl (fun s e => s.restoreShare e.1 e.2) s) := by
  induction l generalizing s with
  | nil => exact h
  | cons e rest ih =>
    refine ih ?_ fun d hd => hl d (mem_cons_of_mem _ hd)
    obtain ⟨id, _ | share⟩ := e
    · exact h.removeShare id
    · have hmem := hl _ mem_cons_self share rfl
      exact h.putShare hfits (.inl hmem) (hp _ hmem)

/-! ## Two states -/

/-- The shares of the second state that are not in the first. -/
def sharesBeside (s t : AssetState) : List (Share × AssetShare) :=
  t.shares.entries.filter fun e => e ∉ s.shares.entries

/-- The shares of both states may all be live at once. -/
def Together (s t : AssetState) : Prop := Fits s.shares.entries (sharesBeside s t)

variable {t t' : AssetState}

theorem mem_or_sharesBeside (s t : AssetState) :
    ∀ e ∈ t.shares.entries, e ∈ s.shares.entries ∨ e ∈ sharesBeside s t := fun e he =>
  (em (e ∈ s.shares.entries)).imp_right fun hnot => mem_filter.mpr ⟨he, decide_eq_true hnot⟩

theorem Together.balanceOf_lt (h : Together s t) (o : Owner) (a : AssetContract) :
    t.balanceOf o a < 2 ^ 128 :=
  lt_of_le_of_lt (balanceOf_le (mem_or_sharesBeside s t) o a) (h o a)

theorem Together.congr (h : Together s t) (ht : t'.shares = t.shares) : Together s t' := by
  unfold Together sharesBeside
  rw [ht]
  exact h

/-- A rollback to shares that fit together with the present ones is exact. -/
theorem Together.rollback {journal : AssetJournal} (h : Together s t) (hs : Funded s) (ht : Exact t)
    (htf : Funded t)
    (hjournal : ∀ e ∈ journal.shares.entries, ∀ share, e.2 = some share →
      s.shares.get? e.1 = some share) :
    Exact (t.rollback journal) := by
  have hstart : InPool s.shares.entries (sharesBeside s t)
      (journal.records.entries.foldl (fun s e => s.restoreRecord e.1 e.2) t) := by
    have hshares := (AssetState.foldl_restoreRecord journal.records.entries t).2.1
    refine ⟨ht.foldl_restoreRecord _, ?_, ?_⟩
    · unfold Funded
      rw [hshares]
      exact htf
    · rw [hshares]
      exact mem_or_sharesBeside s t
  refine (hstart.foldl_restoreShare h (fun e he => hs e.1 e.2 (get?_eq_some_iff.mpr he))
    ?_).exact.withCache _
  exact fun e he share hshare => get?_eq_some_iff.mp (hjournal e he share hshare)

/-! ## Calls -/

section
variable [Crypto] {call : AssetCall} {context : ExecutionContext} {asset : AssetContract}
  {commitment : Hash}

omit [Crypto] in
/-- The lookups are exact in the second state if both fit together. -/
def KeepsExact (s t : AssetState) : Prop := Together s t → Exact t ∧ Funded t

variable {outputs : List AssetOutput}

/-- Entered outputs only add shares. -/
theorem insertOutputs_mono {index : Nat} : ∀ e ∈ s.shares.entries,
    e ∈ (insertOutputs asset commitment index outputs s).2.shares.entries := by
  have hends : InPlace.Ends (fun t : AssetState => ∀ e ∈ s.shares.entries, e ∈ t.shares.entries)
      (insertOutputs asset commitment index outputs s) := by
    induction outputs generalizing index s with
    | nil => exact fun e he => he
    | cons output rest ih =>
      refine .read_bind (.check_bind (fun e he => he) fun s₁ hput e he => ih e ?_)
      obtain ⟨_, hfresh, rfl⟩ := insertShare_eq_ok.mp hput
      rw [putShare_shares, ← get?_eq_some_iff, get?_insert, if_neg]
      · exact get?_eq_some_iff.mpr he
      · intro hid
        rw [← hid, get?_eq_some_iff.mpr he] at hfresh
        cases hfresh
  exact hends

theorem InPool.insertOutputs (hfits : Fits p q) (h : InPool p q s)
    (hne : ∀ o ∈ outputs, o.amount ≠ 0) {index : Nat}
    (hend : ∀ e ∈ (insertOutputs asset commitment index outputs s).2.shares.entries,
      e ∈ p ∨ e ∈ q) :
    InPool p q (insertOutputs asset commitment index outputs s).2 := by
  have hends : InPlace.Ends (fun t : AssetState => (∀ e ∈ t.shares.entries, e ∈ p ∨ e ∈ q) →
      InPool p q t)
      (AssetState.insertOutputs asset commitment index outputs s) := by
    induction outputs generalizing index s with
    | nil => exact fun _ => h
    | cons output rest ih =>
      refine .read_bind (.check_bind (fun _ => h) fun s₁ hput hend => ?_)
      obtain ⟨_, _, rfl⟩ := insertShare_eq_ok.mp hput
      refine ih (h.putShare hfits (hend _ (insertOutputs_mono _ ?_)) (hne output mem_cons_self))
        (fun o ho => hne o (mem_cons_of_mem _ ho)) hend hend
      rw [putShare_shares, ← get?_eq_some_iff, get?_insert_self]
  exact hends hend

omit [Crypto] in
theorem InPool.foldl_removeShare (h : InPool p q s) (ids : List Share) :
    InPool p q (ids.foldl AssetState.removeShare s) := by
  induction ids generalizing s with
  | nil => exact h
  | cons id rest ih => exact ih (h.removeShare id)

theorem keepsExact_moveShares (h : Exact s) (hfunded : Funded s) (hne : ∀ o ∈ outputs, o.amount ≠ 0)
    (inputs : List Share) :
    KeepsExact s (insertOutputs asset commitment 0 outputs
      (inputs.foldl AssetState.removeShare s)).2 := by
  intro htogether
  have hstart : ∀ q, InPool s.shares.entries q s := fun _ => ⟨h, hfunded, fun _ he => .inl he⟩
  have hend :=
    ((hstart _).foldl_removeShare inputs).insertOutputs htogether hne (mem_or_sharesBeside s _)
  exact ⟨hend.exact, hend.funded⟩

theorem Exact.monetary (h : Exact s) (hfunded : Funded s) :
    InPlace.Ends (KeepsExact s) (applyMonetaryOperation call context s) := by
  have hkeep : KeepsExact s s := fun _ => ⟨h, hfunded⟩
  cases call with
  | register c =>
    refine .read_bind (.check_bind hkeep fun metadata hmeta => .check_bind hkeep fun _ hamount =>
      .check_bind hkeep fun asset hasset => .check_bind hkeep fun _ hfree =>
        .check_bind hkeep fun s₁ hput => ?_)
    obtain ⟨_, hfresh, rfl⟩ := insertShare_eq_ok.mp hput
    intro htogether
    have hne : (⟨asset, c.initialMint, context.actor⟩ : AssetShare).amount ≠ 0 :=
      fun h0 => rejectIf_eq_ok.mp hamount (.inl h0)
    have hnew := h.putShare hne (htogether.balanceOf_lt context.actor asset)
    have hroles : ∀ o, ((s.putShare (Share.derive asset context.commitment (Fin.ofNat (2 ^ 32) 0))
        ⟨asset, c.initialMint, context.actor⟩).assetRoles.members o).get? asset = none := by
      intro o
      cases hrole : ((s.putShare _ _).assetRoles.members o).get? asset with
      | none => rfl
      | some u =>
        obtain ⟨r, hr, _⟩ := hnew.indexed.roles o asset hrole
        rw [putShare_records,
          contains_eq_false_iff.mp (Bool.not_eq_true _ ▸ rejectIf_eq_ok.mp hfree)] at hr
        cases hr
    have hparts : metadata = ⟨c.name, c.maxSupply, context.actor, c.mintAuthority⟩ := by
      simp only [Metadata.new, bind_eq_ok, return_eq_ok] at hmeta
      exact hmeta.choose_spec.2.symm
    have hrecord := hnew.insertRecord ⟨metadata, c.initialMint, c.initialMint, 0, 0⟩ hroles
    rw [hparts] at hrecord ⊢
    exact ⟨hrecord, hfunded.putShare hne⟩
  | mint c =>
    refine .read_bind (.check_bind hkeep fun _ hzero => .check_bind hkeep fun old hold =>
      .check_bind hkeep fun _ _ =>
      .check_bind hkeep fun _ _ => .check_bind hkeep fun _ _ => .check_bind hkeep fun supply _ =>
      .check_bind hkeep fun _ _ => .check_bind hkeep fun minted _ => .check_bind hkeep fun _ _ =>
      .check_bind hkeep fun s₁ hput => ?_)
    obtain ⟨_, hfresh, rfl⟩ := insertShare_eq_ok.mp hput
    intro htogether
    have hne : (⟨c.asset, c.amount, c.recipient⟩ : AssetShare).amount ≠ 0 := rejectIf_eq_ok.mp hzero
    have hnew := h.putShare hne (htogether.balanceOf_lt c.recipient c.asset)
    refine ⟨hnew.updateRecord (?_ : _ = some old) rfl, hfunded.putShare hne⟩
    rw [putShare_records, okOr_eq_ok.mp hold]
  | transfer c =>
    refine .read_bind (.check_bind hkeep fun _ _ => .check_bind hkeep fun _ _ =>
      .check_bind hkeep fun _ _ =>
      .check_bind hkeep fun _ _ => .check_bind hkeep fun _ houtput => .check_bind hkeep fun _ _ =>
        .update_bind ?_)
    exact keepsExact_moveShares h hfunded (sumOutputs_eq_ok.mp houtput).1 _
  | burn c =>
    refine .read_bind (.check_bind hkeep fun _ _ => .check_bind hkeep fun _ _ =>
      .check_bind hkeep fun _ _ =>
      .check_bind hkeep fun _ _ => .check_bind hkeep fun _ _ =>
        .check_bind hkeep fun record hrecord =>
      .check_bind hkeep fun supply _ => .check_bind hkeep fun burned _ => .update_bind ?_)
    have hmoves : KeepsExact s (insertOutputs c.asset context.commitment 0
        (if c.output = 0 then [] else [⟨context.actor, c.output⟩])
          (c.inputs.foldl AssetState.removeShare s)).2 := by
      refine keepsExact_moveShares h hfunded ?_ _
      split_ifs with hzero
      · exact fun o ho => by cases ho
      · exact fun o ho => by rw [mem_singleton.mp ho]; exact hzero
    refine .bind hmoves fun _ t hmove htogether => ?_
    obtain ⟨_, _, hrecords, _⟩ := moveShares_ok hmove
    rw [hmove] at hmoves
    obtain ⟨hmoved, hmovedFunded⟩ := hmoves htogether
    refine ⟨hmoved.updateRecord (?_ : _ = some record) rfl, hmovedFunded⟩
    rw [hrecords, okOr_eq_ok.mp hrecord]

theorem Exact.apply_error {e : AssetError} (h : Exact s) (hfunded : Funded s)
    (htogether : Together s (applyMonetaryOperation call context s).2)
    (happly : apply call context s = (.error e, s')) : Exact s' := by
  have hends :=
    (h.monetary hfunded : KeepsExact s (applyMonetaryOperation call context s).2) htogether
  rw [AssetState.apply] at happly
  split at happly
  · cases happly
    exact h
  · rename_i journal hjournal
    rcases hop : applyMonetaryOperation call context s with ⟨_ | _, failed⟩ <;> rw [hop] at happly
    · cases happly
      rw [hop] at hends htogether
      obtain ⟨_, _, hsnapshot⟩ := bind_eq_ok.mp hjournal
      obtain ⟨⟨asset, ids⟩, _, hsnapshot⟩ := bind_eq_ok.mp hsnapshot
      cases hsnapshot
      refine Exact.withCache (htogether.rollback hfunded hends.1 hends.2
        fun e he share hshare => ?_) _
      -- the journal was taken of the old shares
      have hget := get?_eq_some_iff.mpr he
      rw [UndoLog.get?_snapshot] at hget
      split_ifs at hget
      exact (Option.some.inj hget).trans hshare
    · cases (Prod.mk.inj happly).1

theorem Exact.apply_ok {journal : AssetJournal} (h : Exact s) (hfunded : Funded s)
    (htogether : Together s (applyMonetaryOperation call context s).2)
    (happly : apply call context s = (.ok journal, s')) : Exact s' ∧ Funded s' ∧ Together s s' := by
  have hends :=
    (h.monetary hfunded : KeepsExact s (applyMonetaryOperation call context s).2) htogether
  rw [AssetState.apply] at happly
  split at happly
  · cases (Prod.mk.inj happly).1
  · rcases hop : applyMonetaryOperation call context s with ⟨_ | _, done⟩ <;> rw [hop] at happly
    · cases (Prod.mk.inj happly).1
    · obtain ⟨-, rfl⟩ := Prod.mk.inj happly
      rw [hop] at hends htogether
      exact ⟨hends.1.withCache _, hends.2, htogether⟩

end

/-! ## Recomputed lookups -/

theorem exact_rebuildOwnerIndex (h : Ranged s) : Exact s.rebuildOwnerIndex := by
  refine rebuildOwnerIndex_keeps exact_empty.withCache (fun t id share ht hfresh hold hmem => ?_)
    fun _ _ record ht => ht.insertRecord record
  refine ht.enterShare hfresh (h.funded id share (get?_eq_some_iff.mpr hmem)) ?_
  -- with the new share the balance is still at most that of the whole state
  have hmem' : ∀ e ∈ (t.shares.insert id share).entries, e ∈ s.shares.entries ∨ e ∈ [] :=
    forall_mem_insert (.inl hmem) fun e he => .inl (hold e he)
  have hle := balanceOf_le (s := t.enterShare id share) hmem' share.owner share.asset
  rw [balanceOf_enterShare hfresh, sharePart_self, Nat.add_comm] at hle
  exact lt_of_le_of_lt hle (h.below share.owner share.asset)

/-! ## Runs -/

section
variable [Crypto]

/-- A run of the asset state with the journals that have not been rolled back, last one first.
Decoded states are in `P`; the maps before a call and those it has reached when it succeeds or fails
are in `Q`. -/
inductive AssetRun (P : AssetState → Prop) (Q : AssetState → AssetState → Prop) :
    AssetState → List AssetJournal → Prop
  | empty : AssetRun P Q empty []
  | decoded {bytes rest : List Byte} {s : AssetState} (h : readAssetState bytes = some (s, rest))
      (hP : P s) :
      AssetRun P Q s []
  | applied {s s' : AssetState} {journal : AssetJournal} {journals : List AssetJournal}
      {call : AssetCall} {context : ExecutionContext} (hrun : AssetRun P Q s journals)
      (hQ : Q s (applyMonetaryOperation call context s).2)
      (h : apply call context s = (.ok journal, s')) :
      AssetRun P Q s' (journal :: journals)
  | failed {s s' : AssetState} {e : AssetError} {journals : List AssetJournal} {call : AssetCall}
      {context : ExecutionContext} (hrun : AssetRun P Q s journals)
      (hQ : Q s (applyMonetaryOperation call context s).2)
      (h : apply call context s = (.error e, s')) :
      AssetRun P Q s' journals
  | rolledBack {s : AssetState} {journal : AssetJournal} {journals : List AssetJournal}
      (hrun : AssetRun P Q s (journal :: journals)) : AssetRun P Q (s.rollback journal) journals
  | reread {s : AssetState} {journals : List AssetJournal} (hrun : AssetRun P Q s journals) :
      AssetRun P Q s.reread journals

omit [Crypto] in
theorem exists_of_readAssetState {bytes rest : List Byte}
    (h : readAssetState bytes = some (s, rest)) :
    ∃ maps : AssetState, s = maps.rebuildOwnerIndex := by
  change Option.bind _ _ = some _ at h
  obtain ⟨_, _, h⟩ := Option.bind_eq_some_iff.mp h
  obtain ⟨_, _, h⟩ := Option.bind_eq_some_iff.mp h
  exact ⟨_, (congrArg Prod.fst (Option.some.inj h)).symm⟩

omit [Crypto] in
theorem Ranged.congr (h : Ranged s) (hs : s'.shares = s.shares) : Ranged s' := by
  obtain ⟨hfunded, hbelow⟩ := h
  unfold Funded at hfunded
  unfold balanceOf at hbelow
  rw [← hs] at hfunded hbelow
  exact ⟨hfunded, hbelow⟩

omit [Crypto] in
/-- A journal leads back to maps in range that fit together with the present ones. -/
def Undone (journal : AssetJournal) (now before : AssetState) : Prop :=
  journal.Undoes now before ∧ Together before now ∧ Ranged before

omit [Crypto] in
theorem Undone.congr {journal : AssetJournal} {before : AssetState} (h : Undone journal s before)
    (hr : s'.records = s.records) (hs : s'.shares = s.shares) : Undone journal s' before := by
  obtain ⟨hundo, htogether, hbefore⟩ := h
  refine ⟨?_, htogether.congr hs, hbefore⟩
  unfold AssetJournal.Undoes
  rwa [hr, hs]

/-- By induction along the run: the lookups are exact, and the journals lead back through states
that each fit together with the next. Only the maps count for the latter, so a failed call or a
decoding leaves it alone. -/
theorem AssetRun.invariant {journals : List AssetJournal}
    (h : AssetRun Ranged Together s journals) :
    Exact s ∧ Ranged s ∧ UndoLog.LeadsBack Undone s journals := by
  induction h with
  | empty =>
    refine ⟨exact_empty, ⟨fun _ _ h => ?_, fun _ _ => ?_⟩, .nil _⟩
    · cases h
    · exact Nat.two_pow_pos 128
  | decoded h hP =>
    obtain ⟨maps, rfl⟩ := exists_of_readAssetState h
    exact ⟨exact_rebuildOwnerIndex (hP.congr (rebuildOwnerIndex_maps maps).2.1.symm), hP, .nil _⟩
  | applied _ hQ h ih =>
    obtain ⟨hexact, hranged, hback⟩ := ih
    obtain ⟨hstep, hfunded, htogether⟩ := hexact.apply_ok hranged.funded hQ h
    obtain ⟨_, _, _, _, hundo, rfl⟩ := AssetState.apply_ok h
    exact ⟨hstep, ⟨hfunded, htogether.balanceOf_lt⟩, .cons ⟨hundo, htogether, hranged⟩ hback⟩
  | failed _ hQ h ih =>
    obtain ⟨hexact, hranged, hback⟩ := ih
    obtain ⟨hr, hs⟩ := AssetState.apply_error h
    exact ⟨hexact.apply_error hranged.funded hQ h, hranged.congr hs,
      hback.congr fun _ _ hundo => hundo.congr hr hs⟩
  | rolledBack _ ih =>
    obtain ⟨hexact, hranged, hback⟩ := ih
    cases hback with
    | cons hundone hback =>
      obtain ⟨hundo, htogether, hbefore⟩ := hundone
      have hr := (rollback_records _ _).trans hundo.1.restore
      have hs := (rollback_shares _ _).trans hundo.2.restore
      refine ⟨htogether.rollback hbefore.funded hexact hranged.funded fun e he share hshare => ?_,
        hbefore.congr hs, hback.congr fun _ _ hundo => hundo.congr hr hs⟩
      rw [hundo.2 e.1, UndoLog.originalAt, get?_eq_some_iff.mpr he, Option.getD_some, hshare]
  | reread _ ih =>
    obtain ⟨hexact, hranged, hback⟩ := ih
    exact ⟨exact_rebuildOwnerIndex (hranged.congr rfl),
      hranged.congr (rebuildOwnerIndex_maps _).2.1,
        hback.congr fun _ _ hundo => hundo.congr (rebuildOwnerIndex_maps _).1
        (rebuildOwnerIndex_maps _).2.1⟩

/-- As long as the shares before a call and those it enters are in range together, owner by owner
and asset by asset, the lookups are the recomputed ones and the stored balance is the true one. -/
theorem AssetRun.lookups {journals : List AssetJournal} (h : AssetRun Ranged Together s journals) :
    s.byOwner = s.rebuildOwnerIndex.byOwner ∧
      s.ownerAssetBalances = s.rebuildOwnerIndex.ownerAssetBalances ∧
      s.assetRoles = s.rebuildOwnerIndex.assetRoles ∧
      ∀ o a, (s.balanceByOwnerAsset o a).val = s.balanceOf o a := by
  obtain ⟨hexact, hranged, _⟩ := h.invariant
  obtain ⟨hrecords, hshares, -⟩ := rebuildOwnerIndex_maps s
  obtain ⟨howner, hbalances, hroles⟩ :=
    hexact.lookups_eq (exact_rebuildOwnerIndex hranged) hrecords.symm hshares.symm
  exact ⟨howner, hbalances, hroles, hexact.balance⟩

end

/-! ## A balance at the top of the range -/

section Sample

/-- Whether no owner has shares on both sides and either side is in range. -/
def apart (s t : AssetState) : Bool :=
  decide ((∀ e ∈ s.shares.entries, ∀ e' ∈ sharesBeside s t, e.2.owner ≠ e'.2.owner) ∧
    (s.shares.entries.map fun e => e.2.amount.val).sum < 2 ^ 128 ∧
    ((sharesBeside s t).map fun e => e.2.amount.val).sum < 2 ^ 128)

theorem together_of_apart (h : apart s t = true) : Together s t := by
  obtain ⟨hapart, hs, ht⟩ := of_decide_eq_true h
  have hle : ∀ (o : Owner) (a : AssetContract) (l : List (Share × AssetShare)),
      heldBy o a l ≤ (l.map fun e => e.2.amount.val).sum := by
    intro o a l
    refine sum_le_sum fun e _ => ?_
    split_ifs
    · exact le_rfl
    · exact Nat.zero_le _
  have hzero : ∀ (o : Owner) (a : AssetContract) (l : List (Share × AssetShare)),
      (∀ e ∈ l, e.2.owner ≠ o) →
      heldBy o a l = 0 := by
    intro o a l hl
    refine sum_eq_zero fun n hn => ?_
    obtain ⟨e, he, rfl⟩ := mem_map.mp hn
    exact if_neg fun hown => hl e he hown.1
  intro o a
  by_cases howns : ∃ e ∈ s.shares.entries, e.2.owner = o
  · obtain ⟨e, he, rfl⟩ := howns
    rw [hzero e.2.owner a _ fun e' he' => (hapart e he e' he').symm]
    exact lt_of_le_of_lt (hle _ a _) hs
  · rw [hzero o a _ fun e he ho => howns ⟨e, he, ho⟩, Nat.zero_add]
    exact lt_of_le_of_lt (hle o a _) ht

attribute [local instance] Crypto.checksum

/-- Register an asset whose whole supply, as large as can be, belongs to its creator. -/
def sampleRegister : AssetCall := .register ⟨[65], Fin.last _, Fin.last _, .program 1, 0⟩

def sampleRegistered :
    Except AssetError AssetJournal × AssetState := apply sampleRegister ⟨.program 1, 0⟩ empty

/-- The creator sends the whole supply. -/
def sampleSend (recipient : Owner) (s : AssetState) : AssetCall :=
  .transfer ⟨s.records.keys.headD 0, s.shares.keys, [⟨recipient, Fin.last _⟩]⟩

def sampleSent (recipient : Owner) (s : AssetState) : Except AssetError AssetJournal × AssetState :=
  apply (sampleSend recipient s) ⟨.program 1, 1⟩ s

theorem sampleRun {P : AssetState → Prop} {Q : AssetState → AssetState → Prop} {recipient : Owner}
    {journal journal' : AssetJournal} {s s' : AssetState} (h : sampleRegistered = (.ok journal, s))
    (h' : sampleSent recipient s = (.ok journal', s'))
    (hQ : Q empty (applyMonetaryOperation sampleRegister ⟨.program 1, 0⟩ empty).2)
    (hQ' : Q s (applyMonetaryOperation (sampleSend recipient s) ⟨.program 1, 1⟩ s).2) :
    AssetRun P Q (s'.rollback journal') [journal] :=
  .rolledBack (.applied (.applied .empty hQ h) hQ' h')

/-- The whole supply of an asset is moved within one balance, and the move is rolled back: the
balance is lost. -/
theorem rollback_loses_balance :
    ∃ s journals, AssetRun Supplied (fun _ _ => True) s journals ∧ ∃ o a,
    s.balanceOf o a = 2 ^ 128 - 1 ∧ s.balanceByOwnerAsset o a = 0 ∧
      s.rebuildOwnerIndex.balanceByOwnerAsset o a = ⟨2 ^ 128 - 1, by decide⟩ := by
  have hcheck : (sampleRegistered.1.toOption.any fun _ =>
      (sampleSent (.program 1) sampleRegistered.2).1.toOption.any fun journal =>
        let asset := sampleRegistered.2.records.keys.headD 0
        let s := (sampleSent (.program 1) sampleRegistered.2).2.rollback journal
        decide (s.balanceOf (.program 1) asset = 2 ^ 128 - 1 ∧
          s.balanceByOwnerAsset (.program 1) asset = 0 ∧
          s.rebuildOwnerIndex.balanceByOwnerAsset (.program 1) asset = ⟨2 ^ 128 - 1, by decide⟩)) =
            true := by
    decide +kernel
  rcases h : sampleRegistered with ⟨_ | journal, s⟩ <;> rw [h] at hcheck
  · cases hcheck
  · rcases h' : sampleSent (.program 1) s with ⟨_ | journal', s'⟩ <;> rw [h'] at hcheck
    · cases hcheck
    · exact ⟨_, _, sampleRun h h' trivial trivial, _, _, of_decide_eq_true hcheck⟩

/-- If the whole supply goes to another owner, the rollback leaves exact lookups. -/
theorem sampleRun_lookups :
    ∃ s journals, AssetRun Ranged Together s journals ∧ s.ownerAssetBalances.length = 1 ∧
    s.ownerAssetBalances = s.rebuildOwnerIndex.ownerAssetBalances := by
  have hfirst : apart empty (applyMonetaryOperation sampleRegister ⟨.program 1, 0⟩ empty).2 =
      true := by decide +kernel
  have hcheck : (sampleRegistered.1.toOption.any fun _ =>
      (sampleSent (.program 2) sampleRegistered.2).1.toOption.any fun journal =>
        let s := sampleRegistered.2
        apart s (applyMonetaryOperation (sampleSend (.program 2) s) ⟨.program 1, 1⟩ s).2 &&
          decide (((sampleSent (.program 2) s).2.rollback journal).ownerAssetBalances.length = 1)) =
            true := by
    decide +kernel
  rcases h : sampleRegistered with ⟨_ | journal, s⟩ <;> rw [h] at hcheck
  · cases hcheck
  · rcases h' : sampleSent (.program 2) s with ⟨_ | journal', s'⟩ <;> rw [h'] at hcheck
    · cases hcheck
    · obtain ⟨hsecond, hlength⟩ := Bool.and_eq_true_iff.mp hcheck
      have hrun : AssetRun Ranged Together (s'.rollback journal') [journal] :=
        sampleRun h h' (together_of_apart hfirst) (together_of_apart hsecond)
      rw [h'] at hlength
      exact ⟨_, _, hrun, of_decide_eq_true hlength, (AssetRun.lookups hrun).2.1⟩

end Sample

end AssetState

end Xparq
