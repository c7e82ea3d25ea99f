import Xparq.Ledger.AssetState
import Xparq.Lib.NetChange

/-!
# The derived asset lookups

`AssetState.Indexed` says that the lookups describe the canonical maps: a share is listed
under its owner and asset exactly when it is live, no empty group is stored, a stored balance
never exceeds the true one and every listed role belongs to a record. The balances are only
bounded: additions saturate, and `rollback` may add an old share before it removes a new one.

Every change of the two maps keeps this (`Indexed.putShare`, `Indexed.removeShare`,
`Indexed.restoreRecord`), so `rollback` does (`Indexed.rollback`). With both maps empty the
lookups are empty too (`Indexed.isDefault`).
-/

namespace Xparq

open Machine Outcome OrderedMap List

namespace AssetState

/-- The true balance of an owner in an asset. -/
def balanceOf (s : AssetState) (o : Owner) (a : AssetContract) : Nat :=
  sumBy (fun _ share => if share.owner = o ∧ share.asset = a then share.amount.val else 0) s.shares

structure Indexed (s : AssetState) : Prop where
  members : ∀ o a id, (s.byOwner.members o a).get? id = some () ↔
    ∃ share, s.shares.get? id = some share ∧ share.owner = o ∧ share.asset = a
  compact : s.byOwner.Compact
  balances : ∀ o a, (s.balanceByOwnerAsset o a).val ≤ s.balanceOf o a
  held : ∀ o a b, s.ownerAssetBalances.get? (toLex (o, a)) = some b →
    ∃ id share, s.shares.get? id = some share ∧ share.owner = o ∧ share.asset = a
  roles : ∀ o a, (s.assetRoles.members o).get? a = some () → ∃ r, s.records.get? a = some r ∧
    (r.metadata.creator = o ∨ r.metadata.mintAuthority = o)
  rolesCompact : s.assetRoles.Compact

theorem indexed_empty : Indexed empty where
  members o a id := by simp [empty]
  compact := NestedIndex.compact_empty
  balances _ _ := Nat.zero_le _
  held o a b h := by cases h
  roles o a h := by cases h
  rolesCompact := GroupIndex.compact_empty

/-- Two maps without entries leave nothing in the lookups. -/
theorem Indexed.isDefault {s : AssetState} (h : Indexed s) (hr : s.records = ∅)
    (hs : s.shares = ∅) : s.IsDefault := by
  refine ⟨hr, hs, h.compact.ext NestedIndex.compact_empty fun o a id => ?_, ?_,
    h.rolesCompact.ext GroupIndex.compact_empty fun o a => iff_of_false (fun ha => ?_) nofun⟩
  · rw [h.members, hs]
    simp
  · apply ext_get?
    intro k
    cases hk : s.ownerAssetBalances.get? k with
    | none => rfl
    | some b =>
      obtain ⟨id, share, hshare, _⟩ := h.held (ofLex k).1 (ofLex k).2 b hk
      rw [hs] at hshare
      cases hshare
  · obtain ⟨r, hrec, _⟩ := h.roles o a ha
    rw [hr] at hrec
    cases hrec

/-! ## One share -/

variable {s : AssetState}

theorem removeShare_shares (s : AssetState) (id : Share) :
    (s.removeShare id).shares = s.shares.erase id := by
  unfold removeShare
  split
  · exact (erase_of_get?_none ‹_›).symm
  · rfl

@[simp] theorem removeShare_records (s : AssetState) (id : Share) :
    (s.removeShare id).records = s.records := by
  unfold removeShare
  split <;> rfl

@[simp] theorem putShare_records (s : AssetState) (id : Share) (share : AssetShare) :
    (s.putShare id share).records = s.records := by
  unfold putShare
  split
  · rfl
  · exact removeShare_records s id

theorem putShare_shares (s : AssetState) (id : Share) (share : AssetShare) :
    (s.putShare id share).shares = s.shares.insert id share := by
  unfold putShare
  split
  · exact (insert_of_get? ‹_›).symm
  · change (s.removeShare id).shares.insert id share = _
    rw [removeShare_shares, insert_erase]

variable {a : AssetContract} {o : Owner} {P : AssetState → Prop}

theorem exists_share_of_balanceOf (h : 0 < s.balanceOf o a) :
    ∃ id share, s.shares.get? id = some share ∧ share.owner = o ∧ share.asset = a := by
  by_contra hno
  have hzero : s.balanceOf o a = sumBy (fun _ _ => 0) s.shares := by
    apply sumBy_congr
    intro id share hshare
    rw [if_neg]
    rintro ⟨ho, ha⟩
    exact hno ⟨id, share, hshare, ho, ha⟩
  have : sumBy (fun _ _ => 0) s.shares = 0 := by simp [sumBy]
  omega

theorem lexKey_ne {o' : Owner} {a' : AssetContract} (h : ¬ (o' = o ∧ a' = a)) :
    toLex (o, a) ≠ toLex (o', a') := by
  intro heq
  have := toLex.injective heq
  rw [Prod.mk.injEq] at this
  exact h ⟨this.1.symm, this.2.symm⟩

theorem get?_eraseOrInsert (m : OrderedMap (Owner ×ₗ AssetContract) Units)
    (k k' : Owner ×ₗ AssetContract) (v : Units) :
    (if v = 0 then m.erase k else m.insert k v).get? k' =
      if k' = k then if v = 0 then none else some v else m.get? k' := by
  split_ifs with hzero hk hk
  · rw [get?_erase, if_pos hk]
  · rw [get?_erase, if_neg hk]
  · rw [get?_insert, if_pos hk]
  · rw [get?_insert, if_neg hk]

variable {id : Share} {share : AssetShare}

/-- What a share adds to a balance. -/
def sharePart (share : AssetShare) (o : Owner) (a : AssetContract) : Nat :=
  if share.owner = o ∧ share.asset = a then share.amount.val else 0

theorem sharePart_self (share : AssetShare) :
    sharePart share share.owner share.asset = share.amount.val :=
  if_pos ⟨rfl, rfl⟩

theorem balanceOf_removeShare (hshare : s.shares.get? id = some share) (o : Owner)
    (a : AssetContract) :
    sharePart share o a + (s.removeShare id).balanceOf o a = s.balanceOf o a := by
  have hsum := sumBy_erase (fun _ (c : AssetShare) => sharePart c o a) s.shares id
  rw [hshare, optionSum_some, ← removeShare_shares] at hsum
  exact hsum

/-- The lookup of balances without a share: nothing is stored when nothing is left. -/
theorem exists_left (hshare : s.shares.get? id = some share) : ∃ left : Units,
    left.val = (s.balanceByOwnerAsset share.owner share.asset).val - share.amount.val ∧
    ∀ k, (s.removeShare id).ownerAssetBalances.get? k = if k = toLex (share.owner, share.asset) then
      if left = 0 then none else some left else s.ownerAssetBalances.get? k := by
  refine ⟨((s.ownerAssetBalances.get? (toLex (share.owner, share.asset))).bind
    fun balance => checkedSub balance share.amount).getD 0, ?_, fun k => ?_⟩
  · rw [balanceByOwnerAsset]
    cases s.ownerAssetBalances.get? (toLex (share.owner, share.asset)) with
    | none => exact (Nat.zero_sub _).symm
    | some balance =>
      rw [Option.bind_some, Option.getD_some]
      unfold checkedSub
      split_ifs with hle
      · rfl
      · exact (Nat.sub_eq_zero_of_le (not_le.mp hle).le).symm
  · rw [AssetState.removeShare, hshare]
    exact get?_eraseOrInsert _ _ _ _

theorem balanceByOwnerAsset_removeShare (hshare : s.shares.get? id = some share) (o : Owner)
    (a : AssetContract) :
    ((s.removeShare id).balanceByOwnerAsset o a).val =
      (s.balanceByOwnerAsset o a).val - sharePart share o a := by
  obtain ⟨left, hleft, hget⟩ := exists_left hshare
  rw [balanceByOwnerAsset, hget]
  by_cases hoa : share.owner = o ∧ share.asset = a
  · obtain ⟨rfl, rfl⟩ := hoa
    rw [if_pos rfl, sharePart_self, ← hleft]
    split_ifs with hzero
    · rw [hzero]
      rfl
    · rfl
  · rw [if_neg (lexKey_ne hoa), sharePart, if_neg hoa]
    rfl

theorem Indexed.removeShare (h : Indexed s) (id : Share) : Indexed (s.removeShare id) := by
  cases hshare : s.shares.get? id with
  | none => rwa [AssetState.removeShare, hshare]
  | some share =>
    have hbound : ∀ o a,
        ((s.removeShare id).balanceByOwnerAsset o a).val ≤ (s.removeShare id).balanceOf o a := by
      intro o a
      have hold := h.balances o a
      have htrue := balanceOf_removeShare hshare o a
      have hstored := balanceByOwnerAsset_removeShare hshare o a
      omega
    have hindex : (s.removeShare id).byOwner = s.byOwner.remove share.owner share.asset id ∧
        (s.removeShare id).assetRoles = s.assetRoles := by
      rw [AssetState.removeShare, hshare]
      exact ⟨rfl, rfl⟩
    refine ⟨fun o a id' => ?_, ?_, hbound, fun o a b hb => ?_, ?_, ?_⟩
    · rw [hindex.1, removeShare_shares, NestedIndex.mem_remove, h.members, get?_erase]
      grind
    · rw [hindex.1]
      exact h.compact.remove _ _ _
    · obtain ⟨left, _, hget⟩ := exists_left hshare
      by_cases hoa : share.owner = o ∧ share.asset = a
      · -- something is left of the balance, so a share is
        obtain ⟨rfl, rfl⟩ := hoa
        have hle := hbound share.owner share.asset
        rw [balanceByOwnerAsset, hb, Option.getD_some] at hle
        rw [hget, if_pos rfl] at hb
        split_ifs at hb with hzero
        cases hb
        exact exists_share_of_balanceOf
          (lt_of_lt_of_le (Nat.pos_of_ne_zero fun h0 => hzero (Fin.ext h0)) hle)
      · rw [hget, if_neg (lexKey_ne hoa)] at hb
        obtain ⟨id', share', hshare', ho, ha⟩ := h.held o a b hb
        refine ⟨id', share', ?_, ho, ha⟩
        rw [removeShare_shares, get?_erase, if_neg, hshare']
        rintro rfl
        rw [hshare, Option.some.injEq] at hshare'
        exact hoa ⟨hshare' ▸ ho, hshare' ▸ ha⟩
    · rw [hindex.2, removeShare_records]
      exact h.roles
    · rw [hindex.2]
      exact h.rolesCompact

/-- Enter a share that is not there. -/
def enterShare (s : AssetState) (id : Share) (share : AssetShare) : AssetState :=
  { s.indexShare id share with shares := s.shares.insert id share }

theorem balanceOf_enterShare (hfresh : s.shares.get? id = none) (share : AssetShare) (o : Owner)
    (a : AssetContract) :
    (s.enterShare id share).balanceOf o a = sharePart share o a + s.balanceOf o a :=
  sumBy_insert_of_get?_none (fun _ (c : AssetShare) => sharePart c o a) hfresh share

theorem balanceByOwnerAsset_enterShare (s : AssetState) (id : Share) (share : AssetShare)
    (o : Owner) (a : AssetContract) : ((s.enterShare id share).balanceByOwnerAsset o a).val =
      min ((s.balanceByOwnerAsset o a).val + sharePart share o a) (2 ^ 128 - 1) := by
  change (((s.ownerAssetBalances.insert _ _).get? _).getD 0).val = _
  rw [get?_insert]
  by_cases hoa : share.owner = o ∧ share.asset = a
  · obtain ⟨rfl, rfl⟩ := hoa
    rw [if_pos rfl, sharePart_self, Option.getD_some, val_saturatingAdd]
  · have hlt := (s.balanceByOwnerAsset o a).isLt
    rw [if_neg (lexKey_ne hoa), sharePart, if_neg hoa]
    change (s.balanceByOwnerAsset o a).val = _
    omega

theorem Indexed.enterShare (h : Indexed s) (hfresh : s.shares.get? id = none) (share : AssetShare) :
    Indexed (s.enterShare id share) := by
  refine ⟨fun o a id' => ?_, h.compact.add _ _ _, fun o a => ?_, fun o a b hb => ?_,
    h.roles, h.rolesCompact⟩
  · change ((s.byOwner.add share.owner share.asset id).members o a).get? id' = some () ↔
      ∃ share', (s.shares.insert id share).get? id' = _ ∧ _
    rw [NestedIndex.mem_add, h.members, get?_insert]
    grind
  · have hold := h.balances o a
    have htrue := balanceOf_enterShare hfresh share o a
    have hstored := balanceByOwnerAsset_enterShare s id share o a
    omega
  · change (s.ownerAssetBalances.insert (toLex (share.owner, share.asset)) _).get? _ = _ at hb
    change ∃ id' share', (s.shares.insert id share).get? id' = _ ∧ _
    by_cases hoa : share.owner = o ∧ share.asset = a
    · exact ⟨id, share, get?_insert_self _ _ _, hoa⟩
    · rw [get?_insert, if_neg (lexKey_ne hoa)] at hb
      obtain ⟨id', share', hshare', ho, ha⟩ := h.held o a b hb
      refine ⟨id', share', ?_, ho, ha⟩
      rw [get?_insert, if_neg, hshare']
      rintro rfl
      rw [hfresh] at hshare'
      cases hshare'

theorem Indexed.putShare (h : Indexed s) (id : Share) (share : AssetShare) :
    Indexed (s.putShare id share) := by
  unfold AssetState.putShare
  split
  · exact h
  · have hfresh : (s.removeShare id).shares.get? id = none := by
      rw [removeShare_shares, get?_erase, if_pos rfl]
    exact (h.removeShare id).enterShare hfresh share

theorem Indexed.restoreShare (h : Indexed s) (id : Share) (previous : Option AssetShare) :
    Indexed (s.restoreShare id previous) := by
  cases previous with
  | none => exact h.removeShare id
  | some share => exact h.putShare id share

theorem restoreShare_shares (s : AssetState) (id : Share) (previous : Option AssetShare) :
    (s.restoreShare id previous).shares = s.shares.put id previous := by
  cases previous with
  | none => exact removeShare_shares s id
  | some share => exact putShare_shares s id share

theorem restoreShare_records (s : AssetState) (id : Share) (previous : Option AssetShare) :
    (s.restoreShare id previous).records = s.records := by
  cases previous with
  | none => exact removeShare_records s id
  | some share => exact putShare_records s id share

/-! ## Records and rollback -/

theorem Indexed.withCache (h : Indexed s) (cache : Option ValidatedAssetRoots) :
    Indexed { s with supplyCache := cache } :=
  ⟨h.members, h.compact, h.balances, h.held, h.roles, h.rolesCompact⟩

theorem Indexed.updateRecord (h : Indexed s) {old record : AssetRecord}
    (hold : s.records.get? a = some old) (hmeta : record.metadata = old.metadata) :
    Indexed { s with records := s.records.insert a record } := by
  refine ⟨h.members, h.compact, h.balances, h.held, ?_, h.rolesCompact⟩
  intro o a' hmem
  obtain ⟨r, hr, hrole⟩ := h.roles o a' hmem
  change ∃ r, (s.records.insert a record).get? a' = _ ∧ _
  rw [get?_insert]
  by_cases ha : a' = a
  · subst ha
    rw [hold, Option.some.injEq] at hr
    exact ⟨record, if_pos rfl, by rwa [hmeta, hr]⟩
  · exact ⟨r, by rw [if_neg ha, hr], hrole⟩

theorem Indexed.insertRecord (h : Indexed s) (record : AssetRecord)
    (hfree : ∀ o, (s.assetRoles.members o).get? a = none) :
    Indexed (({ s with records := s.records.insert a record }.indexAssetRole a
      record.metadata.creator).indexAssetRole a record.metadata.mintAuthority) := by
  refine ⟨h.members, h.compact, h.balances, h.held, ?_, (h.rolesCompact.add _ _).add _ _⟩
  intro o a' hmem
  change (((s.assetRoles.add record.metadata.creator a).add record.metadata.mintAuthority a).members
    o).get? a' = some () at hmem
  change ∃ r, (s.records.insert a record).get? a' = _ ∧ _
  rw [get?_insert]
  rw [GroupIndex.mem_add, GroupIndex.mem_add] at hmem
  by_cases ha : a' = a
  · refine ⟨record, if_pos ha, ?_⟩
    rw [ha, hfree o] at hmem
    grind
  · obtain ⟨r, hr, hrole⟩ := h.roles o a' (by grind)
    exact ⟨r, by rw [if_neg ha, hr], hrole⟩

/-- The roles of the record at `key`, if any, taken out of the lookup. -/
def dropRoles (s : AssetState) (key : AssetContract) : AssetState :=
  match s.records.get? key with
  | none => s
  | some record => (s.unindexAssetRole key record.metadata.creator).unindexAssetRole key
      record.metadata.mintAuthority

theorem dropRoles_roles (h : Indexed s) (key : AssetContract)
    (hmem : ((s.dropRoles key).assetRoles.members o).get? a = some ()) :
    a ≠ key ∧ (s.assetRoles.members o).get? a = some () := by
  unfold dropRoles at hmem
  split at hmem
  · rename_i hnone
    refine ⟨?_, hmem⟩
    rintro rfl
    obtain ⟨r, hr, _⟩ := h.roles o a hmem
    rw [hnone] at hr
    cases hr
  · rename_i record hrecord
    change (((s.assetRoles.remove record.metadata.creator key).remove record.metadata.mintAuthority
      key).members o).get? a = some () at hmem
    rw [GroupIndex.mem_remove, GroupIndex.mem_remove] at hmem
    obtain ⟨hauthority, hcreator, hmem⟩ := hmem
    refine ⟨?_, hmem⟩
    rintro rfl
    obtain ⟨r, hr, hrole⟩ := h.roles o a hmem
    rw [hrecord, Option.some.injEq] at hr
    subst hr
    rcases hrole with hrole | hrole
    · exact hcreator ⟨hrole.symm, rfl⟩
    · exact hauthority ⟨hrole.symm, rfl⟩

theorem Indexed.dropRoles (h : Indexed s) (key : AssetContract) : Indexed (s.dropRoles key) := by
  have hroles := fun o a => dropRoles_roles h key (o := o) (a := a)
  unfold AssetState.dropRoles at hroles ⊢
  split
  · exact h
  · rename_i record hrecord
    simp only [hrecord] at hroles
    exact ⟨h.members, h.compact, h.balances, h.held,
      fun o a hmem => h.roles o a (hroles o a hmem).2, (h.rolesCompact.remove _ _).remove _ _⟩

theorem dropRoles_records (s : AssetState) (key : AssetContract) :
    (s.dropRoles key).records = s.records := by
  unfold dropRoles
  split <;> rfl

theorem dropRoles_shares (s : AssetState) (key : AssetContract) :
    (s.dropRoles key).shares = s.shares := by
  unfold dropRoles
  split <;> rfl

theorem restoreRecord_eq (s : AssetState) (key : AssetContract) (previous : Option AssetRecord) :
    s.restoreRecord key previous = if s.records.get? key = previous then s
      else match previous with
        | some record =>
        ({ s.dropRoles key with records := s.records.insert key record }.indexAssetRole
            key record.metadata.creator).indexAssetRole key record.metadata.mintAuthority
        | none => { s.dropRoles key with records := s.records.erase key } := by
  unfold restoreRecord dropRoles
  cases previous <;> cases s.records.get? key <;> rfl

theorem restoreRecord_records (s : AssetState) (key : AssetContract)
    (previous : Option AssetRecord) :
    (s.restoreRecord key previous).records = s.records.put key previous := by
  rw [restoreRecord_eq]
  split_ifs with hsame
  · rw [← hsame, put_get?]
  · cases previous <;> rfl

theorem restoreRecord_shares (s : AssetState) (key : AssetContract)
    (previous : Option AssetRecord) : (s.restoreRecord key previous).shares = s.shares := by
  rw [restoreRecord_eq]
  split_ifs
  · rfl
  · cases previous <;> exact dropRoles_shares s key

theorem Indexed.restoreRecord (h : Indexed s) (key : AssetContract)
    (previous : Option AssetRecord) : Indexed (s.restoreRecord key previous) := by
  rw [restoreRecord_eq]
  split_ifs
  · exact h
  · have hdrop := h.dropRoles key
    have hroles := fun o a => dropRoles_roles h key (o := o) (a := a)
    cases previous with
    | some record =>
      have hfree : ∀ o, ((s.dropRoles key).assetRoles.members o).get? key = none := by
        intro o
        cases hmem : ((s.dropRoles key).assetRoles.members o).get? key with
        | none => rfl
        | some u => exact absurd rfl (hroles o key hmem).1
      have := hdrop.insertRecord record hfree
      rwa [dropRoles_records] at this
    | none =>
      refine ⟨hdrop.members, hdrop.compact, hdrop.balances, hdrop.held, ?_, hdrop.rolesCompact⟩
      intro o a hmem
      obtain ⟨hne, hold⟩ := hroles o a hmem
      obtain ⟨r, hr, hrole⟩ := h.roles o a hold
      refine ⟨r, ?_, hrole⟩
      change (s.records.erase key).get? a = some r
      rw [get?_erase, if_neg hne, hr]

theorem foldl_restoreRecord (l : List (AssetContract × Option AssetRecord)) (s : AssetState) :
    (l.foldl (fun s e => s.restoreRecord e.1 e.2) s).records =
        l.foldl (fun m e => m.put e.1 e.2) s.records ∧
      (l.foldl (fun s e => s.restoreRecord e.1 e.2) s).shares = s.shares ∧
      (Indexed s → Indexed (l.foldl (fun s e => s.restoreRecord e.1 e.2) s)) := by
  induction l generalizing s with
  | nil => exact ⟨rfl, rfl, id⟩
  | cons e rest ih =>
    obtain ⟨hr, hs, hi⟩ := ih (s.restoreRecord e.1 e.2)
    rw [restoreRecord_records] at hr
    rw [restoreRecord_shares] at hs
    exact ⟨hr, hs, fun h => hi (h.restoreRecord e.1 e.2)⟩

theorem foldl_restoreShare (l : List (Share × Option AssetShare)) (s : AssetState) :
    (l.foldl (fun s e => s.restoreShare e.1 e.2) s).shares =
        l.foldl (fun m e => m.put e.1 e.2) s.shares ∧
      (l.foldl (fun s e => s.restoreShare e.1 e.2) s).records = s.records ∧
      (Indexed s → Indexed (l.foldl (fun s e => s.restoreShare e.1 e.2) s)) := by
  induction l generalizing s with
  | nil => exact ⟨rfl, rfl, id⟩
  | cons e rest ih =>
    obtain ⟨hs, hr, hi⟩ := ih (s.restoreShare e.1 e.2)
    rw [restoreShare_shares] at hs
    rw [restoreShare_records] at hr
    exact ⟨hs, hr, fun h => hi (h.restoreShare e.1 e.2)⟩

theorem rollback_records (s : AssetState) (journal : AssetJournal) :
    (s.rollback journal).records = journal.records.restore s.records :=
  (foldl_restoreShare journal.shares.entries _).2.1.trans (foldl_restoreRecord _ s).1

theorem rollback_shares (s : AssetState) (journal : AssetJournal) :
    (s.rollback journal).shares = journal.shares.restore s.shares :=
  (foldl_restoreShare journal.shares.entries _).1.trans
    (congrArg (fun m => journal.shares.restore m)
      (foldl_restoreRecord journal.records.entries s).2.1)

theorem Indexed.rollback (h : Indexed s) (journal : AssetJournal) : Indexed (s.rollback journal) :=
  ((foldl_restoreShare _ _).2.2 ((foldl_restoreRecord _ _).2.2 h)).withCache _

/-! ## Recomputed lookups -/

/-- Enter both roles of a record. -/
def indexRoles (s : AssetState) (e : AssetContract × AssetRecord) : AssetState :=
  (s.indexAssetRole e.1 e.2.metadata.creator).indexAssetRole e.1 e.2.metadata.mintAuthority

/-- What entering a new share of the list keeps, entering all of them keeps. -/
theorem foldl_enterShare_keeps {all : List (Share × AssetShare)}
    (hP : ∀ (s : AssetState) id share, P s → s.shares.get? id = none →
      (∀ e ∈ s.shares.entries, e ∈ all) →
      (id, share) ∈ all → P (s.enterShare id share)) {l : List (Share × AssetShare)} (h : P s)
    (hs : ∀ e ∈ s.shares.entries, e ∈ all) (hl : ∀ e ∈ l, e ∈ all)
    (hfresh : ∀ e ∈ l, s.shares.get? e.1 = none) (hnodup : (l.map Prod.fst).Nodup) :
    P (l.foldl (fun s e => s.enterShare e.1 e.2) s) := by
  induction l generalizing s with
  | nil => exact h
  | cons e rest ih =>
    obtain ⟨hhead, hnodup⟩ := nodup_cons.mp hnodup
    have hmem := hl e mem_cons_self
    refine ih (hP s e.1 e.2 h (hfresh e mem_cons_self) hs hmem) (forall_mem_insert hmem hs)
      (fun d hd => hl d (mem_cons_of_mem _ hd)) (fun d hd => ?_) hnodup
    change (s.shares.insert e.1 e.2).get? d.1 = none
    rw [get?_insert, if_neg, hfresh d (mem_cons_of_mem _ hd)]
    intro heq
    exact hhead (heq ▸ mem_map_of_mem hd)

/-- The lookups do not depend on the maps they are entered beside. -/
theorem foldl_enterShare_eq (l : List (Share × AssetShare)) (s : AssetState)
    (m : OrderedMap Share AssetShare) (r : OrderedMap AssetContract AssetRecord) :
    l.foldl (fun s e => s.enterShare e.1 e.2) { s with shares := m, records := r } =
      { l.foldl (fun s e => s.indexShare e.1 e.2) s with
        shares := l.foldl (fun m e => m.insert e.1 e.2) m, records := r } := by
  induction l generalizing s m with
  | nil => rfl
  | cons e rest ih => exact ih (s.indexShare e.1 e.2) (m.insert e.1 e.2)

/-- What entering one record with its roles keeps, entering all of them keeps. -/
theorem foldl_indexRoles_keeps
    (hP : ∀ (s : AssetState) a (record : AssetRecord), P s →
      (∀ o, (s.assetRoles.members o).get? a = none) →
      P (({ s with records := s.records.insert a record }.indexAssetRole
        a record.metadata.creator).indexAssetRole a record.metadata.mintAuthority))
    {l : List (AssetContract × AssetRecord)} {m : OrderedMap AssetContract AssetRecord}
    (h : P { s with records := m }) (hfree : ∀ e ∈ l, ∀ o, (s.assetRoles.members o).get? e.1 = none)
    (hnodup : (l.map Prod.fst).Nodup) :
    P { l.foldl indexRoles s with records := l.foldl (fun m e => m.insert e.1 e.2) m } := by
  induction l generalizing s m with
  | nil => exact h
  | cons e rest ih =>
    obtain ⟨hhead, hnodup⟩ := nodup_cons.mp hnodup
    refine ih (s := s.indexRoles e) (hP _ e.1 e.2 h (hfree e mem_cons_self)) ?_ hnodup
    intro d hd o
    have hne : d.1 ≠ e.1 := fun heq => hhead (heq ▸ mem_map_of_mem hd)
    change (((s.assetRoles.add _ e.1).add _ e.1).members o).get? d.1 = none
    have hold := hfree d (mem_cons_of_mem _ hd) o
    rw [Option.eq_none_iff_forall_ne_some] at hold ⊢
    intro _ hmem
    rw [GroupIndex.mem_add, GroupIndex.mem_add] at hmem
    grind

theorem foldl_indexShare_maps (l : List (Share × AssetShare)) (s : AssetState) :
    (l.foldl (fun s e => s.indexShare e.1 e.2) s).records = s.records ∧
      (l.foldl (fun s e => s.indexShare e.1 e.2) s).shares = s.shares ∧
      (l.foldl (fun s e => s.indexShare e.1 e.2) s).assetRoles = s.assetRoles ∧
      (l.foldl (fun s e => s.indexShare e.1 e.2) s).supplyCache = s.supplyCache := by
  induction l generalizing s with
  | nil => exact ⟨rfl, rfl, rfl, rfl⟩
  | cons e rest ih => exact ih (s.indexShare e.1 e.2)

theorem foldl_indexRoles_maps (l : List (AssetContract × AssetRecord)) (s : AssetState) :
    (l.foldl indexRoles s).records = s.records ∧ (l.foldl indexRoles s).shares = s.shares ∧
      (l.foldl indexRoles s).supplyCache = s.supplyCache := by
  induction l generalizing s with
  | nil => exact ⟨rfl, rfl, rfl⟩
  | cons e rest ih => exact ih (s.indexRoles e)

theorem rebuildOwnerIndex_maps (s : AssetState) :
    s.rebuildOwnerIndex.records = s.records ∧ s.rebuildOwnerIndex.shares = s.shares ∧
      s.rebuildOwnerIndex.supplyCache = s.supplyCache := by
  let cleared : AssetState := { s with byOwner := ∅, ownerAssetBalances := ∅, assetRoles := ∅ }
  obtain ⟨hrecords, hshares, -, hcache⟩ := foldl_indexShare_maps s.shares.entries cleared
  obtain ⟨hrecords', hshares', hcache'⟩ := foldl_indexRoles_maps s.records.entries
    (s.shares.entries.foldl (fun s e => s.indexShare e.1 e.2) cleared)
  exact ⟨hrecords'.trans hrecords, hshares'.trans hshares, hcache'.trans hcache⟩

/-- What holds of the empty state, and is kept by entering a share or a record, holds of a state
whose lookups were recomputed. -/
theorem rebuildOwnerIndex_keeps (hempty : ∀ cache, P { empty with supplyCache := cache })
    (hshare : ∀ (t : AssetState) id share, P t → t.shares.get? id = none →
      (∀ e ∈ t.shares.entries, e ∈ s.shares.entries) → (id, share) ∈ s.shares.entries →
      P (t.enterShare id share))
    (hrecord : ∀ (t : AssetState) a (record : AssetRecord), P t →
      (∀ o, (t.assetRoles.members o).get? a = none) →
      P (({ t with records := t.records.insert a record }.indexAssetRole
        a record.metadata.creator).indexAssetRole a record.metadata.mintAuthority)) :
    P s.rebuildOwnerIndex := by
  let cleared : AssetState := { s with byOwner := ∅, ownerAssetBalances := ∅, assetRoles := ∅ }
  let indexed := s.shares.entries.foldl (fun s e => s.indexShare e.1 e.2) cleared
  obtain ⟨-, hshares, hroles, -⟩ := foldl_indexShare_maps s.shares.entries cleared
  -- the records are entered last, so they are left out at first
  have hentered : P { indexed with records := ∅ } := by
    have h := foldl_enterShare_keeps hshare (hempty s.supplyCache) nofun (fun _ he => he)
      (fun _ _ => rfl)
      s.shares.keys_nodup
    have heq := foldl_enterShare_eq s.shares.entries cleared ∅ ∅
    rw [show s.shares.entries.foldl (fun m e => m.insert e.1 e.2) ∅ = indexed.shares from
      (ofEntries_entries s.shares).trans hshares.symm] at heq
    exact heq ▸ h
  have hall :=
    foldl_indexRoles_keeps hrecord hentered (fun e _ o => by rw [hroles]; rfl) s.records.keys_nodup
  rwa [show s.records.entries.foldl (fun m e => m.insert e.1 e.2) ∅ =
    s.rebuildOwnerIndex.records from
    (ofEntries_entries s.records).trans (rebuildOwnerIndex_maps s).1.symm] at hall

theorem indexed_rebuildOwnerIndex (s : AssetState) : Indexed s.rebuildOwnerIndex :=
  rebuildOwnerIndex_keeps indexed_empty.withCache (fun _ _ share h hfresh _ _ =>
    h.enterShare hfresh share)
    fun _ _ record h => h.insertRecord record

end AssetState

end Xparq
