import Xparq.Lib.OrderedMap
import Mathlib.Tactic.Abel
import Mathlib.Data.List.Nodup

/-!
# Net changes of a map

A run that adds and removes entries is summed up by the entries of the first map it removed
and the keys it added that are still there: `NetChange removed added start now`. An entry the
run both added and removed leaves no trace, and a key that was removed and added again stands
in both lists.

The four rules `refl`, `remove_kept`, `remove_added` and `add` follow a run step by step, and
`trans` joins two runs of which the second removes nothing the first added. `undo_eq` leads
back to the first map and `sumBy` says what the run changed in any sum over the map. `NetLog`
is the log a run keeps while it goes.
-/

universe u v w

open OrderedMap List

variable {K : Type u} {V : Type v} [LinearOrder K]

structure NetChange (removed : List (K × V)) (added : List K) (start now : OrderedMap K V) :
    Prop where
  removed_nodup : (removed.map Prod.fst).Nodup
  added_nodup : added.Nodup
  removed_start : ∀ e ∈ removed, start.get? e.1 = some e.2
  added_now : ∀ k ∈ added, ∃ v, now.get? k = some v
  added_start : ∀ k ∈ added, k ∉ removed.map Prod.fst → start.get? k = none
  removed_now : ∀ k ∈ removed.map Prod.fst, k ∉ added → now.get? k = none
  kept : ∀ k, k ∉ removed.map Prod.fst → k ∉ added → now.get? k = start.get? k

namespace NetChange

variable {removed removed' : List (K × V)} {added added' : List K} {start mid now : OrderedMap K V}

theorem refl (m : OrderedMap K V) : NetChange [] [] m m := by
  constructor <;> simp

theorem congr (h : NetChange removed added start now) (hr : ∀ e, e ∈ removed' ↔ e ∈ removed)
    (ha : ∀ k, k ∈ added' ↔ k ∈ added) (hrn : (removed'.map Prod.fst).Nodup) (han : added'.Nodup) :
    NetChange removed' added' start now := by
  have hk : ∀ k, k ∈ removed'.map Prod.fst ↔ k ∈ removed.map Prod.fst := by
    intro k
    simp only [mem_map, hr]
  refine ⟨hrn, han, ?_, ?_, ?_, ?_, ?_⟩
  · intro e he
    exact h.removed_start e ((hr e).mp he)
  · intro k hka
    exact h.added_now k ((ha k).mp hka)
  · intro k hka hkr
    exact h.added_start k ((ha k).mp hka) fun hm => hkr ((hk k).mpr hm)
  · intro k hkr hka
    exact h.removed_now k ((hk k).mp hkr) fun hm => hka ((ha k).mpr hm)
  · intro k hkr hka
    exact h.kept k (fun hm => hkr ((hk k).mpr hm)) fun hm => hka ((ha k).mpr hm)

theorem perm (h : NetChange removed added start now) (hr : removed'.Perm removed)
    (ha : added'.Perm added) : NetChange removed' added' start now :=
  h.congr (fun _ => hr.mem_iff) (fun _ => ha.mem_iff)
    ((hr.map Prod.fst).nodup_iff.mpr h.removed_nodup)
    (ha.nodup_iff.mpr h.added_nodup)

/-- What is there and was not added by the run is an entry of the first map. -/
theorem start_of_now (h : NetChange removed added start now) {k : K} {v : V}
    (hnow : now.get? k = some v) (hka : k ∉ added) :
    k ∉ removed.map Prod.fst ∧ start.get? k = some v := by
  have hkr : k ∉ removed.map Prod.fst := by
    intro hkr
    rw [h.removed_now k hkr hka] at hnow
    cases hnow
  exact ⟨hkr, (h.kept k hkr hka) ▸ hnow⟩

/-- An entry of the first map stays unless the run removed it. -/
theorem now_of_start (h : NetChange removed added start now) {k : K} {v : V}
    (hstart : start.get? k = some v) (hne : (k, v) ∉ removed) : now.get? k = some v := by
  have hkr : k ∉ removed.map Prod.fst := by
    intro hmem
    obtain ⟨e, he, rfl⟩ := mem_map.mp hmem
    obtain rfl : e.2 = v := Option.some.inj ((h.removed_start e he).symm.trans hstart)
    exact hne he
  have hka : k ∉ added := by
    intro hka
    rw [h.added_start k hka hkr] at hstart
    cases hstart
  rw [h.kept k hkr hka]
  exact hstart

/-- Two runs from one map that removed and added the same keys end in the same map if they agree
on what was added. -/
theorem now_eq {now' : OrderedMap K V} (h : NetChange removed added start now)
    (h' : NetChange removed' added' start now')
    (hr : ∀ k, k ∈ removed.map Prod.fst ↔ k ∈ removed'.map Prod.fst)
    (ha : ∀ k, k ∈ added ↔ k ∈ added') (hv : ∀ k ∈ added, now.get? k = now'.get? k) :
    now = now' := by
  apply ext_get?
  intro k
  by_cases hka : k ∈ added
  · exact hv k hka
  · by_cases hkr : k ∈ removed.map Prod.fst
    · rw [h.removed_now k hkr hka, h'.removed_now k ((hr k).mp hkr) fun hm => hka ((ha k).mpr hm)]
    · rw [h.kept k hkr hka, h'.kept k (fun hm => hkr ((hr k).mpr hm)) fun hm => hka ((ha k).mpr hm)]

/-- Two runs, of which the second removes nothing the first added. -/
theorem trans (h : NetChange removed added start mid) (h' : NetChange removed' added' mid now)
    (hdisj : ∀ k ∈ removed'.map Prod.fst, k ∉ added) :
    NetChange (removed' ++ removed) (added' ++ added) start now := by
  have hlive : ∀ k ∈ removed'.map Prod.fst, ∃ v, mid.get? k = some v := by
    intro k hk
    obtain ⟨e, he, rfl⟩ := mem_map.mp hk
    exact ⟨e.2, h'.removed_start e he⟩
  have hrr : ∀ k ∈ removed'.map Prod.fst, k ∉ removed.map Prod.fst := by
    intro k hk hkr
    obtain ⟨v, hv⟩ := hlive k hk
    rw [h.removed_now k hkr (hdisj k hk)] at hv
    cases hv
  have haa : ∀ k ∈ added', k ∉ added := by
    intro k hk hka
    obtain ⟨v, hv⟩ := h.added_now k hka
    rw [h'.added_start k hk fun hm => hdisj k hm hka] at hv
    cases hv
  refine ⟨?_, ?_, ?_, ?_, ?_, ?_, ?_⟩
  · rw [map_append]
    exact nodup_append'.mpr ⟨h'.removed_nodup, h.removed_nodup, fun k hk hk' => hrr k hk hk'⟩
  · exact nodup_append'.mpr ⟨h'.added_nodup, h.added_nodup, fun k hk hk' => haa k hk hk'⟩
  · intro e he
    rcases mem_append.mp he with he | he
    · have hmem := mem_map_of_mem (f := Prod.fst) he
      rw [← h.kept e.1 (hrr _ hmem) (hdisj _ hmem)]
      exact h'.removed_start e he
    · exact h.removed_start e he
  · intro k hk
    rcases mem_append.mp hk with hk | hk
    · exact h'.added_now k hk
    · obtain ⟨v, hv⟩ := h.added_now k hk
      exact ⟨v, by rw [h'.kept k (fun hm => hdisj k hm hk) fun hm => haa k hm hk, hv]⟩
  · intro k hk hkr
    rw [map_append, mem_append, not_or] at hkr
    rcases mem_append.mp hk with hk | hk
    · rw [← h.kept k hkr.2 (haa k hk)]
      exact h'.added_start k hk hkr.1
    · exact h.added_start k hk hkr.2
  · intro k hkr hk
    rw [mem_append, not_or] at hk
    rw [map_append, mem_append] at hkr
    by_cases hkr' : k ∈ removed'.map Prod.fst
    · exact h'.removed_now k hkr' hk.1
    · rw [h'.kept k hkr' hk.1]
      exact h.removed_now k (hkr.resolve_left hkr') hk.2
  · intro k hkr hk
    rw [mem_append, not_or] at hk
    rw [map_append, mem_append, not_or] at hkr
    rw [h'.kept k hkr.1 hk.1, h.kept k hkr.2 hk.2]

end NetChange

/-! ## Erasing and inserting lists -/

namespace OrderedMap

def eraseAll (m : OrderedMap K V) (keys : List K) : OrderedMap K V := keys.foldl erase m

def insertAll (m : OrderedMap K V) (entries : List (K × V)) : OrderedMap K V :=
  entries.foldl (fun m e => m.insert e.1 e.2) m

theorem get?_eraseAll (m : OrderedMap K V) (keys : List K) (k : K) :
    (m.eraseAll keys).get? k = if k ∈ keys then none else m.get? k := by
  induction keys generalizing m with
  | nil => simp [eraseAll]
  | cons k' rest ih =>
    have := ih (m.erase k')
    simp only [eraseAll, foldl_cons] at this ⊢
    rw [this, get?_erase]
    by_cases hrest : k ∈ rest
    · simp [hrest]
    · by_cases hk : k = k' <;> simp [hrest, hk]

variable {m : OrderedMap K V} {entries : List (K × V)}

theorem get?_insertAll_of_notMem {k : K}
    (h : k ∉ entries.map Prod.fst) : (m.insertAll entries).get? k = m.get? k := by
  induction entries generalizing m with
  | nil => rfl
  | cons e rest ih =>
    rw [map_cons, mem_cons, not_or] at h
    simp only [insertAll, foldl_cons] at ih ⊢
    rw [ih h.2, get?_insert, if_neg h.1]

theorem get?_insertAll_of_mem {e : K × V}
    (hn : (entries.map Prod.fst).Nodup) (h : e ∈ entries) :
    (m.insertAll entries).get? e.1 = some e.2 := by
  induction entries generalizing m with
  | nil => cases h
  | cons d rest ih =>
    obtain ⟨hd, hn⟩ := nodup_cons.mp hn
    rcases mem_cons.mp h with rfl | h
    · have hrest := get?_insertAll_of_notMem (m := m.insert e.1 e.2) hd
      rw [get?_insert, if_pos rfl] at hrest
      exact hrest
    · exact ih hn h

section Sums

variable {M : Type w} [AddCommMonoid M]

theorem sumBy_eraseAll (f : K → V → M) {m : OrderedMap K V} {keys : List K} (hn : keys.Nodup) :
    sumBy f (m.eraseAll keys) + (keys.map fun k => optionSum f k (m.get? k)).sum = sumBy f m := by
  induction keys generalizing m with
  | nil => simp [eraseAll]
  | cons k rest ih =>
    obtain ⟨hk, hn⟩ := nodup_cons.mp hn
    have hsame : (rest.map fun j => optionSum f j ((m.erase k).get? j)) =
        rest.map fun j => optionSum f j (m.get? j) := by
      apply map_congr_left
      intro j hj
      rw [get?_erase, if_neg (ne_of_mem_of_not_mem hj hk)]
    have hrest := ih (m := m.erase k) hn
    rw [hsame] at hrest
    rw [map_cons, sum_cons, add_left_comm, ← sumBy_erase f m k, ← hrest]
    rfl

theorem sumBy_insertAll (f : K → V → M) {m : OrderedMap K V} {entries : List (K × V)}
    (hn : (entries.map Prod.fst).Nodup) (hfresh : ∀ k ∈ entries.map Prod.fst, m.get? k = none) :
    sumBy f (m.insertAll entries) = sumBy f m + (entries.map fun e => f e.1 e.2).sum := by
  induction entries generalizing m with
  | nil => simp [insertAll]
  | cons e rest ih =>
    obtain ⟨he, hn⟩ := nodup_cons.mp hn
    have hrest := ih (m := m.insert e.1 e.2) hn (by
      intro k hk
      rw [get?_insert, if_neg (ne_of_mem_of_not_mem hk he)]
      exact hfresh k (mem_cons_of_mem _ hk))
    rw [sumBy_insert_of_get?_none f (hfresh e.1 mem_cons_self)] at hrest
    simp only [insertAll, foldl_cons, map_cons, sum_cons] at hrest ⊢
    rw [hrest]
    abel

end Sums

end OrderedMap

/-! ## Steps -/

namespace NetChange

variable {removed : List (K × V)} {added : List K} {start now : OrderedMap K V}

variable {k : K} {m : OrderedMap K V} {entries : List (K × V)}

theorem erased (hn : (entries.map Prod.fst).Nodup)
    (hlive : ∀ e ∈ entries, m.get? e.1 = some e.2) :
    NetChange entries [] m (m.eraseAll (entries.map Prod.fst)) := by
  refine ⟨hn, nodup_nil, hlive, by simp, by simp, ?_, ?_⟩
  · intro k hk _
    rw [get?_eraseAll, if_pos hk]
  · intro k hk _
    rw [get?_eraseAll, if_neg hk]

theorem inserted (hn : (entries.map Prod.fst).Nodup)
    (hfresh : ∀ k ∈ entries.map Prod.fst, m.get? k = none) :
    NetChange [] (entries.map Prod.fst) m (m.insertAll entries) := by
  refine ⟨nodup_nil, hn, by simp, ?_, fun k hk _ => hfresh k hk, by simp, ?_⟩
  · intro k hk
    obtain ⟨e, he, rfl⟩ := mem_map.mp hk
    exact ⟨e.2, get?_insertAll_of_mem hn he⟩
  · intro k _ hk
    exact get?_insertAll_of_notMem hk

theorem remove_kept (h : NetChange removed added start now) {v : V}
    (hnow : now.get? k = some v) (hka : k ∉ added) :
    NetChange ((k, v) :: removed) added start (now.erase k) := by
  have hone : NetChange [(k, v)] [] now (now.erase k) :=
    erased (nodup_singleton k) (forall_mem_singleton.mpr hnow)
  exact h.trans hone (forall_mem_singleton.mpr hka)

theorem remove_added (h : NetChange removed added start now) (hka : k ∈ added) :
    NetChange removed (added.erase k) start (now.erase k) := by
  have hmem : ∀ k', k' ∈ added.erase k ↔ k' ≠ k ∧ k' ∈ added :=
    fun k' => h.added_nodup.mem_erase_iff
  refine ⟨h.removed_nodup, h.added_nodup.erase k, h.removed_start, ?_, ?_, ?_, ?_⟩
  · intro k' hk'
    obtain ⟨hne, hk'⟩ := (hmem k').mp hk'
    obtain ⟨w, hw⟩ := h.added_now k' hk'
    exact ⟨w, by rw [get?_erase, if_neg hne, hw]⟩
  · intro k' hk'
    exact h.added_start k' ((hmem k').mp hk').2
  · intro k' hk' hka'
    rw [get?_erase]
    split_ifs with heq
    · rfl
    · exact h.removed_now k' hk' fun hm => hka' ((hmem k').mpr ⟨heq, hm⟩)
  · intro k' hk' hka'
    rw [get?_erase]
    split_ifs with heq
    · subst heq
      exact (h.added_start k' hka hk').symm
    · exact h.kept k' hk' fun hm => hka' ((hmem k').mpr ⟨heq, hm⟩)

theorem add (h : NetChange removed added start now) (hnow : now.get? k = none) (v : V) :
    NetChange removed (k :: added) start (now.insert k v) := by
  have hone : NetChange [] ([(k, v)].map Prod.fst) now (now.insertAll [(k, v)]) :=
    inserted (nodup_singleton k) (forall_mem_singleton.mpr hnow)
  exact h.trans hone nofun

/-! ## The way back -/

theorem undo_eq (h : NetChange removed added start now) :
    (now.eraseAll added).insertAll removed = start := by
  apply ext_get?
  intro k
  by_cases hkr : k ∈ removed.map Prod.fst
  · obtain ⟨e, he, rfl⟩ := mem_map.mp hkr
    rw [get?_insertAll_of_mem h.removed_nodup he, h.removed_start e he]
  · rw [get?_insertAll_of_notMem hkr, get?_eraseAll]
    split_ifs with hka
    · exact (h.added_start k hka hkr).symm
    · exact h.kept k hkr hka

theorem get?_eraseAll_removed (h : NetChange removed added start now)
    (hk : k ∈ removed.map Prod.fst) : (now.eraseAll added).get? k = none := by
  rw [get?_eraseAll]
  split_ifs with hka
  · rfl
  · exact h.removed_now k hk hka

theorem sumBy {M : Type w} [AddCommMonoid M] (h : NetChange removed added start now)
    (f : K → V → M) :
    OrderedMap.sumBy f start + (added.map fun k => optionSum f k (now.get? k)).sum =
      OrderedMap.sumBy f now + (removed.map fun e => f e.1 e.2).sum := by
  rw [← h.undo_eq, sumBy_insertAll f h.removed_nodup fun k hk => h.get?_eraseAll_removed hk,
    ← sumBy_eraseAll f (m := now) h.added_nodup]
  abel

end NetChange

/-! ## The log of a run -/

/-- What a run has removed of the first map, and the keys it has added. -/
@[ext] structure NetLog (K : Type u) (V : Type v) [LinearOrder K] where
  removed : OrderedMap K V
  added : OrderedMap K Unit

namespace NetLog

/-- A removed entry that the run added itself is forgotten. -/
def remove (log : NetLog K V) (e : K × V) : NetLog K V :=
  if log.added.contains e.1 then { log with added := log.added.erase e.1 }
  else { log with removed := log.removed.orInsert e.1 e.2 }

def add (log : NetLog K V) (k : K) : NetLog K V := { log with added := log.added.insert k () }

/-- The log is the net change from `start` to `now`. -/
def Tracks (log : NetLog K V) (start now : OrderedMap K V) : Prop :=
  NetChange log.removed.entries log.added.keys start now

variable {log : NetLog K V} {start now : OrderedMap K V}

theorem Tracks.remove (h : log.Tracks start now) {e : K × V} (hnow : now.get? e.1 = some e.2) :
    (log.remove e).Tracks start (now.erase e.1) := by
  unfold NetLog.remove
  split_ifs with hadded
  · have hmem : e.1 ∈ log.added.keys := mem_keys_iff.mpr (contains_eq_true_iff.mp hadded)
    refine (NetChange.remove_added h hmem).congr (fun _ => Iff.rfl) ?_ (keys_nodup log.removed)
      (keys_nodup _)
    intro k
    rw [(keys_nodup log.added).mem_erase_iff, mem_keys_iff, mem_keys_iff, get?_erase]
    by_cases hk : k = e.1 <;> simp [hk]
  · have hmem : e.1 ∉ log.added.keys := by
      intro hmem
      exact hadded (contains_eq_true_iff.mpr (mem_keys_iff.mp hmem))
    have hnone : log.removed.get? e.1 = none := by
      cases hget : log.removed.get? e.1 with
      | none => rfl
      | some v => exact absurd (mem_keys_iff.mpr ⟨v, hget⟩) (h.start_of_now hnow hmem).1
    refine (h.remove_kept hnow hmem).congr ?_ (fun _ => Iff.rfl) (keys_nodup _)
      (keys_nodup log.added)
    intro d
    rw [mem_cons, ← get?_eq_some_iff, ← get?_eq_some_iff, get?_orInsert, hnone, Option.getD_none]
    by_cases hd : d.1 = e.1
    · rw [if_pos hd, hd, hnone]
      constructor
      · intro hv
        exact .inl (Prod.ext hd (Option.some.inj hv).symm)
      · rintro (rfl | hv)
        · rfl
        · cases hv
    · rw [if_neg hd]
      constructor
      · exact .inr
      · rintro (rfl | hv)
        · exact absurd rfl hd
        · exact hv

theorem Tracks.add (h : log.Tracks start now) {k : K} (hnow : now.get? k = none) (v : V) :
    (log.add k).Tracks start (now.insert k v) := by
  refine (NetChange.add h hnow v).congr (fun _ => Iff.rfl) ?_ (keys_nodup log.removed)
    (keys_nodup _)
  intro k'
  rw [mem_cons, mem_keys_iff, mem_keys_iff, NetLog.add, get?_insert]
  by_cases hk : k' = k <;> simp [hk]

theorem Tracks.removeAll (h : log.Tracks start now) {entries : List (K × V)}
    (hn : (entries.map Prod.fst).Nodup) (hlive : ∀ e ∈ entries, now.get? e.1 = some e.2) :
    (entries.foldl NetLog.remove log).Tracks start (now.eraseAll (entries.map Prod.fst)) := by
  induction entries generalizing log now with
  | nil => exact h
  | cons e rest ih =>
    obtain ⟨he, hn⟩ := nodup_cons.mp hn
    refine ih (h.remove (hlive e mem_cons_self)) hn ?_
    intro d hd
    have hne : d.1 ≠ e.1 := ne_of_mem_of_not_mem (mem_map_of_mem hd) he
    rw [get?_erase, if_neg hne]
    exact hlive d (mem_cons_of_mem _ hd)

theorem Tracks.addAll (h : log.Tracks start now) {entries : List (K × V)}
    (hn : (entries.map Prod.fst).Nodup) (hfresh : ∀ k ∈ entries.map Prod.fst, now.get? k = none) :
    ((entries.map Prod.fst).foldl NetLog.add log).Tracks start (now.insertAll entries) := by
  induction entries generalizing log now with
  | nil => exact h
  | cons e rest ih =>
    obtain ⟨he, hn⟩ := nodup_cons.mp hn
    refine ih (h.add (hfresh e.1 mem_cons_self) e.2) hn ?_
    intro k hk
    rw [get?_insert, if_neg (ne_of_mem_of_not_mem hk he)]
    exact hfresh k (mem_cons_of_mem _ hk)

end NetLog
