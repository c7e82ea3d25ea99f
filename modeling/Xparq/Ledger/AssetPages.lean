import Xparq.Ledger.AssetIndex
import Xparq.Lib.Paging

/-!
# Pages of asset shares

The two listings an explorer reads page by page: all shares of an owner, by asset and identifier,
and the shares of an owner in one asset. They seek in the nested owner index and look every
identifier up in the primary map. With consistent lookups both are pages of one sorted list, that
of the live shares (`assetSharePages_exact`), as long as the memory for a page can be asked for:
room for one entry more than the limit is reserved at once, and a request of more than half of the
address space panics, which is modelled as `none`.
-/

namespace Xparq

open Machine OrderedMap List

namespace AssetState

/-- A place in the listing of an owner: an asset and a share. -/
abbrev ShareCursor := AssetContract ×ₗ Share

/-- `Vec::with_capacity` for entries of `size` bytes panics above `isize::MAX` bytes. -/
def withCapacity (size : Nat) (capacity : U64) : Option Unit :=
  if capacity.val * size < 2 ^ 63 then some () else none

/-- The bytes of an `(AssetContract, Share, AssetShare)`. -/
def ownerEntrySize : Nat := 32 + 32 + (32 + 16 + 32)

/-- The bytes of a `(Share, AssetShare)`. -/
def ownerAssetEntrySize : Nat := 32 + (32 + 16 + 32)

/-- Where the seek in the shares of one asset starts. -/
def firstShare (after : Option ShareCursor) (asset : AssetContract) : Share :=
  (after.filter fun cursor => (ofLex cursor).1 = asset).elim 0 fun cursor => (ofLex cursor).2

/-- The shares up to the cursor are skipped. -/
def alreadyListed (after : Option ShareCursor) (asset : AssetContract) (id : Share) : Bool :=
  after.any fun cursor => asset = (ofLex cursor).1 ∧ id ≤ (ofLex cursor).2

def assetSharePageByOwner (s : AssetState) (owner : Owner) (after : Option ShareCursor)
    (limit : U64) : Option (List (AssetContract × Share × AssetShare) × Option ShareCursor) :=
  match s.byOwner.get? owner with
  | none => some ([], none)
  | some assets =>
    let firstAsset := after.elim 0 fun cursor => (ofLex cursor).1
    (withCapacity ownerEntrySize (saturatingAdd limit 1)).map fun _ =>
    let page := Paging.fillGroups limit.val
      (fun group => (group.2.iterFrom (firstShare after group.1)).map Prod.fst)
      (fun group id => if alreadyListed after group.1 id then none
        else (s.shares.get? id).map fun share => (group.1, id, share))
      (assets.iterFrom firstAsset) []
    Paging.cut limit.val (fun e => toLex (e.1, e.2.1)) page

def assetSharePageByOwnerAsset (s : AssetState) (owner : Owner) (asset : AssetContract)
    (after : Option Share) (limit : U64) : Option (List (Share × AssetShare) × Option Share) :=
  match (s.byOwner.get? owner).bind fun assets => assets.get? asset with
  | none => some ([], none)
  | some ids =>
    let firstShare := after.getD 0
    (withCapacity ownerAssetEntrySize (saturatingAdd limit 1)).map fun _ =>
    let page := Paging.fill limit.val
      (fun id => if after.any fun cursor => id ≤ cursor then none
        else (s.shares.get? id).map fun share => (id, share))
      ((ids.iterFrom firstShare).map Prod.fst) []
    Paging.cut limit.val Prod.fst page

/-! ## One sorted list -/

/-- All shares the index lists for an owner. -/
def ownerListing (s : AssetState) (owner : Owner) : List (AssetContract × Share × AssetShare) :=
  (s.byOwner.groups owner).entries.flatMap fun group =>
    group.2.keys.filterMap fun id => (s.shares.get? id).map fun share => (group.1, id, share)

/-- All shares the index lists for an owner and an asset. -/
def ownerAssetListing (s : AssetState) (owner : Owner) (asset : AssetContract) :
    List (Share × AssetShare) :=
  (s.byOwner.members owner asset).keys.filterMap fun id => (s.shares.get? id).map fun share =>
    (id, share)

theorem filterMap_iterFrom {β : Type} (ids : OrderedSet Share) {bound : Share} {skip : Share → Bool}
    {g : Share → Option β} {p : β → Bool}
    (h : ∀ id b, g id = some b → ((bound ≤ id ∧ skip id = false) ↔ p b = true)) :
    ((ids.iterFrom bound).map Prod.fst).filterMap (fun id => if skip id then none else g id) =
      (ids.keys.filterMap g).filter p := by
  have hseek : (ids.iterFrom bound).map Prod.fst = ids.keys.filter fun id => bound ≤ id := by
    rw [OrderedMap.keys, filter_map]
    rfl
  rw [hseek, filterMap_filter, filter_filterMap]
  refine filterMap_congr fun id _ => ?_
  cases hg : g id with
  | none => simp
  | some b =>
    rw [Option.filter_some]
    by_cases hp : p b = true
    · obtain ⟨hle, hskip⟩ := (h id b hg).mpr hp
      rw [if_pos (decide_eq_true hle), if_neg (ne_true_of_eq_false hskip), if_pos hp]
    · rw [if_neg hp]
      split_ifs with hle hskip
      · rfl
      · exact absurd ((h id b hg).mp ⟨of_decide_eq_true hle, eq_false_of_ne_true hskip⟩) hp
      · rfl

variable {asset : AssetContract} {limit : U64} {after : Option ShareCursor} {owner : Owner}
  {id : Share} {share : AssetShare}

theorem listed_iff (id : Share)
    (h : after.elim 0 (fun cursor => (ofLex cursor).1) ≤ asset) :
    (firstShare after asset ≤ id ∧ alreadyListed after asset id = false) ↔
      after.all (fun cursor => cursor < toLex (asset, id)) = true := by
  cases after with
  | none => simp [firstShare, alreadyListed]
  | some cursor =>
    replace h : (ofLex cursor).1 ≤ asset := h
    simp only [firstShare, alreadyListed, Option.any_some, Option.all_some, decide_eq_true_eq,
      decide_eq_false_iff_not, Prod.Lex.lt_iff, ofLex_toLex]
    rcases h.eq_or_lt with heq | hlt
    · rw [Option.filter_some, if_pos (by simpa using heq)]
      simp only [Option.elim_some, heq, true_and, not_le, lt_irrefl, false_or]
      exact and_iff_right_of_imp le_of_lt
    · rw [Option.filter_some, if_neg (by simpa using hlt.ne)]
      have hzero : (0 : Share) ≤ id := Fin.zero_le id
      simp only [Option.elim_none, hzero, hlt.ne', false_and, not_false_eq_true, and_self, hlt,
        true_or]

theorem not_listed (id : Share)
    (h : asset < after.elim 0 fun cursor => (ofLex cursor).1) :
    after.all (fun cursor => cursor < toLex (asset, id)) = false := by
  cases after with
  | none => exact absurd h (Fin.not_lt_zero _)
  | some cursor =>
    replace h : asset < (ofLex cursor).1 := h
    simp [Prod.Lex.lt_iff, h.asymm, h.ne']

theorem withCapacity_eq_some {size : Nat} (h : (limit.val + 1) * size < 2 ^ 63) :
    withCapacity size (saturatingAdd limit 1) = some () := by
  refine if_pos (lt_of_le_of_lt (Nat.mul_le_mul_right size ?_) h)
  rw [val_saturatingAdd]
  exact Nat.min_le_left _ _

theorem assetSharePageByOwner_eq (s : AssetState) (owner : Owner) (after : Option ShareCursor)
    (hcapacity : (limit.val + 1) * ownerEntrySize < 2 ^ 63) :
    s.assetSharePageByOwner owner after limit =
      some (Paging.cut limit.val (fun e => toLex (e.1, e.2.1))
        (Paging.following (fun e => toLex (e.1, e.2.1)) (s.ownerListing owner) after)) := by
  rw [assetSharePageByOwner, ownerListing, NestedIndex.groups, Paging.following_eq]
  cases s.byOwner.get? owner with
  | none => exact congrArg some (Paging.cut_nil limit.val _).symm
  | some assets =>
    dsimp only
    rw [withCapacity_eq_some hcapacity, Option.map_some,
      Paging.fillGroups_eq _ _ _ _ (Nat.zero_le limit.val), Paging.cut_take, nil_append,
        Option.getD_some, filter_flatMap]
    refine congrArg (fun l => some (Paging.cut _ _ l)) (Paging.flatMap_filter ?_ ?_)
    · intro group _ hfirst
      rw [decide_eq_true_eq] at hfirst
      refine filterMap_iterFrom _ fun id e he => ?_
      obtain ⟨share, _, rfl⟩ := Option.map_eq_some_iff.mp he
      exact listed_iff id hfirst
    · intro group _ hfirst
      rw [decide_eq_false_iff_not, not_le] at hfirst
      rw [filter_filterMap]
      refine filterMap_eq_nil_iff.mpr fun id _ => ?_
      cases s.shares.get? id with
      | none => rfl
      | some share => rw [Option.map_some, Option.filter_some,
        if_neg (by simpa using not_listed id hfirst)]

theorem assetSharePageByOwnerAsset_eq (s : AssetState) (owner : Owner) (asset : AssetContract)
    (after : Option Share) (hcapacity : (limit.val + 1) * ownerAssetEntrySize < 2 ^ 63) :
    s.assetSharePageByOwnerAsset owner asset after limit =
      some (Paging.cut limit.val Prod.fst
      (Paging.following Prod.fst (s.ownerAssetListing owner asset) after)) := by
  have hmembers : s.byOwner.members owner asset =
      ((s.byOwner.get? owner).bind fun assets => assets.get? asset).getD ∅ := by
    rw [NestedIndex.members, NestedIndex.groups, GroupIndex.members]
    cases s.byOwner.get? owner <;> rfl
  rw [assetSharePageByOwnerAsset, ownerAssetListing, hmembers, Paging.following_eq]
  cases (s.byOwner.get? owner).bind fun assets => assets.get? asset with
  | none => exact congrArg some (Paging.cut_nil limit.val _).symm
  | some ids =>
    dsimp only
    rw [withCapacity_eq_some hcapacity, Option.map_some,
      Paging.fill_eq _ _ _ (Nat.zero_le limit.val), Paging.cut_take, nil_append, Option.getD_some]
    refine congrArg (fun l => some (Paging.cut _ _ l)) (filterMap_iterFrom _ fun id e he => ?_)
    obtain ⟨share, _, rfl⟩ := Option.map_eq_some_iff.mp he
    cases after with
    | none => simp
    | some cursor =>
      simp only [Option.getD_some, Option.any_some, Option.all_some, decide_eq_true_eq,
        decide_eq_false_iff_not, not_le]
      exact and_iff_right_of_imp le_of_lt

theorem sorted_ownerListing (s : AssetState) (owner : Owner) :
    (s.ownerListing owner).Pairwise fun a b => toLex (a.1, a.2.1) < toLex (b.1, b.2.1) := by
  rw [ownerListing, pairwise_flatMap]
  constructor
  · intro group _
    have hkeys : group.2.keys.Pairwise (· < ·) := pairwise_map.mpr group.2.sorted
    refine hkeys.filterMap _ fun id id' hlt e he e' he' => ?_
    obtain ⟨share, _, rfl⟩ := Option.map_eq_some_iff.mp he
    obtain ⟨share', _, rfl⟩ := Option.map_eq_some_iff.mp he'
    exact Prod.Lex.toLex_lt_toLex.mpr (Or.inr ⟨rfl, hlt⟩)
  · refine (s.byOwner.groups owner).sorted.imp fun {group group'} hlt e he e' he' => ?_
    obtain ⟨id, _, hid⟩ := mem_filterMap.mp he
    obtain ⟨id', _, hid'⟩ := mem_filterMap.mp he'
    obtain ⟨share, _, rfl⟩ := Option.map_eq_some_iff.mp hid
    obtain ⟨share', _, rfl⟩ := Option.map_eq_some_iff.mp hid'
    exact Prod.Lex.toLex_lt_toLex.mpr (Or.inl hlt)

theorem sorted_ownerAssetListing (s : AssetState) (owner : Owner) (asset : AssetContract) :
    (s.ownerAssetListing owner asset).Pairwise fun a b => a.1 < b.1 := by
  have hkeys : (s.byOwner.members owner asset).keys.Pairwise (· < ·) :=
    pairwise_map.mpr (s.byOwner.members owner asset).sorted
  refine hkeys.filterMap _ fun id id' hlt e he e' he' => ?_
  obtain ⟨share, _, rfl⟩ := Option.map_eq_some_iff.mp he
  obtain ⟨share', _, rfl⟩ := Option.map_eq_some_iff.mp he'
  exact hlt

/-! ## With consistent lookups -/

variable {s : AssetState}

theorem Indexed.mem_ownerAssetListing (h : Indexed s) :
    (id, share) ∈ s.ownerAssetListing owner asset ↔
      s.shares.get? id = some share ∧ share.owner = owner ∧ share.asset = asset := by
  have hkey : id ∈ (s.byOwner.members owner asset).keys ↔
      ∃ share, s.shares.get? id = some share ∧ share.owner = owner ∧ share.asset = asset := by
    rw [mem_keys_iff, ← h.members]
    exact ⟨fun ⟨_, hget⟩ => hget, fun hget => ⟨(), hget⟩⟩
  rw [ownerAssetListing, mem_filterMap]
  constructor
  · rintro ⟨id', hid', he⟩
    obtain ⟨share', hshare, heq⟩ := Option.map_eq_some_iff.mp he
    cases heq
    obtain ⟨share', hshare', howner, hasset⟩ := hkey.mp hid'
    rw [hshare, Option.some.injEq] at hshare'
    subst hshare'
    exact ⟨hshare, howner, hasset⟩
  · rintro ⟨hshare, howner, hasset⟩
    exact ⟨id, hkey.mpr ⟨share, hshare, howner, hasset⟩, by rw [hshare]; rfl⟩

theorem mem_ownerListing_iff :
    (asset, id, share) ∈ s.ownerListing owner ↔ (id, share) ∈ s.ownerAssetListing owner asset := by
  rw [ownerListing, ownerAssetListing, mem_flatMap, mem_filterMap, NestedIndex.members,
    GroupIndex.members]
  constructor
  · rintro ⟨⟨asset', ids⟩, hgroup, he⟩
    obtain ⟨id', hid', he⟩ := mem_filterMap.mp he
    obtain ⟨share', hshare, heq⟩ := Option.map_eq_some_iff.mp he
    cases heq
    rw [get?_eq_some_iff.mpr hgroup]
    exact ⟨id, hid', by rw [hshare]; rfl⟩
  · rintro ⟨id', hid', he⟩
    obtain ⟨share', hshare, heq⟩ := Option.map_eq_some_iff.mp he
    cases heq
    cases hgroup : (s.byOwner.groups owner).get? asset with
    | none =>
      rw [hgroup] at hid'
      cases hid'
    | some ids =>
      rw [hgroup] at hid'
      exact ⟨(asset, ids), get?_eq_some_iff.mp hgroup,
        mem_filterMap.mpr ⟨id, hid', by rw [hshare]; rfl⟩⟩

/-- Both listings, for every owner, asset and page size that memory can be reserved for. -/
theorem assetSharePages_exact (h : Indexed s) (owner : Owner) {limit : U64} (hlimit : 1 ≤ limit.val)
    (hcapacity : (limit.val + 1) * ownerEntrySize < 2 ^ 63) :
    (∃ next l, (∀ cursor, s.assetSharePageByOwner owner cursor limit = some (next cursor)) ∧
      Paging.Paged (fun e => toLex (e.1, e.2.1))
        (fun e => s.shares.get? e.2.1 = some e.2.2 ∧ e.2.2.owner = owner ∧ e.2.2.asset = e.1)
        limit.val next l) ∧
    ∀ asset, ∃ next l, (∀ cursor,
      s.assetSharePageByOwnerAsset owner asset cursor limit = some (next cursor)) ∧
      Paging.Paged Prod.fst
        (fun e => s.shares.get? e.1 = some e.2 ∧ e.2.owner = owner ∧ e.2.asset = asset)
        limit.val next l := by
  constructor
  · refine ⟨_, s.ownerListing owner,
      fun cursor => s.assetSharePageByOwner_eq owner cursor hcapacity,
        Paging.paged_of_cut (s.sorted_ownerListing owner) ?_ hlimit fun _ => rfl⟩
    rintro ⟨asset, id, share⟩
    rw [mem_ownerListing_iff, h.mem_ownerAssetListing]
  · intro asset
    have hroom : (limit.val + 1) * ownerAssetEntrySize < 2 ^ 63 :=
      lt_of_le_of_lt (Nat.mul_le_mul_left _ (by decide)) hcapacity
    exact ⟨_, s.ownerAssetListing owner asset,
      fun cursor => s.assetSharePageByOwnerAsset_eq owner asset cursor hroom,
      Paging.paged_of_cut (s.sorted_ownerAssetListing owner asset)
        (fun e => h.mem_ownerAssetListing) hlimit
        fun _ => rfl⟩

/-- Three shares of one owner in two assets. -/
def listedState : AssetState :=
  ((empty.putShare 1 ⟨7, 10, .program 5⟩).putShare 2 ⟨7, 20, .program 5⟩).putShare 3
    ⟨8, 30, .program 5⟩

theorem indexed_listedState :
    Indexed listedState := ((indexed_empty.putShare 1 _).putShare 2 _).putShare 3 _

/-- With pages of two the first page ends inside the listing. -/
theorem listedState_pages : Indexed listedState ∧
    (listedState.assetSharePageByOwner (.program 5) none 2).map Prod.snd =
      some (some (toLex (7, 2))) ∧
    ∃ next l, (∀ cursor,
      listedState.assetSharePageByOwner (.program 5) cursor 2 = some (next cursor)) ∧
      Paging.Paged (fun e => toLex (e.1, e.2.1))
        (fun e => listedState.shares.get? e.2.1 = some e.2.2 ∧ e.2.2.owner = .program 5 ∧
        e.2.2.asset = e.1) 2
        next l :=
  ⟨indexed_listedState, by decide +kernel,
    (assetSharePages_exact indexed_listedState (.program 5) (by decide) (by decide)).1⟩

/-- The largest limit panics in both listings. -/
theorem listedState_capacity : Indexed listedState ∧ 1 ≤ (Fin.last (2 ^ 64 - 1)).val ∧
    listedState.assetSharePageByOwner (.program 5) none (Fin.last (2 ^ 64 - 1)) = none ∧
    listedState.assetSharePageByOwnerAsset (.program 5) 7 none (Fin.last (2 ^ 64 - 1)) = none :=
  ⟨indexed_listedState, by decide, by decide +kernel, by decide +kernel⟩

end AssetState

end Xparq
