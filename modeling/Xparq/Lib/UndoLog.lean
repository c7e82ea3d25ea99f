import Xparq.Lib.OrderedMap
import Mathlib.Tactic.Abel

/-!
# Sparse undo logs

An undo log holds, for the keys a run has written, the value each key had when the run
began (`none` for an absent key). Only the first write of a key records anything
(`remember`), so a key that is created, changed and erased several times still has one
entry.

`Undoes log now start` says that `log` leads from the map `now` back to the map `start`.
It composes (`Undoes.merge`: the earlier entry wins), it survives dropping entries that record
no change (`Undoes.retain`), and `restore` executes it (`Undoes.restore`). `Undoes.sumBy` reads
the growth of any sum over the map off the log alone.
-/

universe u v w

/-- The value of each written key when the run began. -/
abbrev UndoLog (K : Type u) (V : Type v) [LinearOrder K] := OrderedMap K (Option V)

namespace UndoLog

open OrderedMap List

variable {K : Type u} {V : Type v} [LinearOrder K]

/-- Record the original value of a key, unless the key is already recorded. -/
def remember (log : UndoLog K V) (k : K) (previous : Option V) : UndoLog K V :=
  log.orInsert k previous

/-- Append a later log: the entry recorded first wins. -/
def merge (log later : UndoLog K V) : UndoLog K V :=
  later.entries.foldl (fun log e => log.remember e.1 e.2) log

/-- Write every recorded value back. -/
def restore (log : UndoLog K V) (m : OrderedMap K V) : OrderedMap K V :=
  log.entries.foldl (fun m e => m.put e.1 e.2) m

/-- The value of `k` before the run, as the log and the current map determine it. -/
def originalAt (log : UndoLog K V) (now : OrderedMap K V) (k : K) : Option V :=
  (log.get? k).getD (now.get? k)

/-- The log leads from `now` back to `start`. -/
def Undoes (log : UndoLog K V) (now start : OrderedMap K V) : Prop :=
  ∀ k, start.get? k = originalAt log now k

theorem originalAt_of_notMem {log : UndoLog K V} {k : K} (h : k ∉ log.keys) (now : OrderedMap K V) :
    originalAt log now k = now.get? k := by
  rw [originalAt]
  cases hk : log.get? k with
  | none => rfl
  | some o => exact absurd (mem_keys_iff.mpr ⟨o, hk⟩) h

theorem get?_remember (log : UndoLog K V) (k k' : K) (previous : Option V) :
    (log.remember k previous).get? k' =
      if k' = k then some ((log.get? k).getD previous) else log.get? k' :=
  get?_orInsert log k k' previous

theorem get?_foldl_remember (l : List (K × Option V)) (hs : l.Pairwise fun a b => a.1 < b.1)
    (log : UndoLog K V) (k : K) :
    (l.foldl (fun log e => log.remember e.1 e.2) log).get? k =
      ((log.get? k).or (find k l)) := by
  induction l generalizing log with
  | nil => simp [find]
  | cons e rest ih =>
    obtain ⟨hlt, hs⟩ := pairwise_cons.mp hs
    rw [foldl_cons, ih hs, get?_remember, find]
    by_cases hk : e.1 = k
    · subst hk
      cases log.get? e.1 <;> simp
    · rw [if_neg (Ne.symm hk), if_neg hk]

theorem get?_merge (log later : UndoLog K V) (k : K) :
    (log.merge later).get? k = (log.get? k).or (later.get? k) :=
  get?_foldl_remember later.entries later.sorted log k

theorem merge_assoc (a b c : UndoLog K V) : (a.merge b).merge c = a.merge (b.merge c) :=
  ext_get? fun k => by simp only [get?_merge, Option.or_assoc]

variable {now start m : OrderedMap K V} {log : UndoLog K V} {keys : List K}

/-- Logs of consecutive runs compose. -/
theorem Undoes.merge {later : UndoLog K V} {middle : OrderedMap K V} (h : Undoes log middle start)
    (hlater : Undoes later now middle) : Undoes (log.merge later) now start := by
  intro k
  have hk := h k
  rw [originalAt, hlater k, originalAt] at hk
  rw [hk, originalAt, get?_merge]
  cases log.get? k <;> simp

theorem get?_foldl_put (l : List (K × Option V)) (hs : l.Pairwise fun a b => a.1 < b.1)
    (m : OrderedMap K V) (k : K) :
    (l.foldl (fun m e => m.put e.1 e.2) m).get? k = (find k l).getD (m.get? k) := by
  induction l generalizing m with
  | nil => simp [find]
  | cons e rest ih =>
    obtain ⟨hlt, hs⟩ := pairwise_cons.mp hs
    rw [foldl_cons, ih hs, get?_put, find]
    by_cases hk : e.1 = k
    · have hnone : find k rest = none := find_eq_none_of_lt (hk ▸ hlt)
      rw [hnone, if_pos hk, if_pos hk.symm, Option.getD_none, Option.getD_some]
    · rw [if_neg (Ne.symm hk), if_neg hk]

theorem get?_restore (log : UndoLog K V) (m : OrderedMap K V) (k : K) :
    (log.restore m).get? k = originalAt log m k :=
  get?_foldl_put log.entries log.sorted m k

/-- Executing the log gives the map the run began with. -/
theorem Undoes.restore (h : Undoes log now start) :
    log.restore now = start :=
  ext_get? fun k => by rw [get?_restore, h k]

/-- Entries that record the present value may be dropped. -/
theorem Undoes.retain (h : Undoes log now start) {p : K → Option V → Bool}
    (hp : ∀ k o, p k o = false → o = now.get? k) : Undoes (log.retain p) now start := by
  intro k
  rw [h k, originalAt, originalAt, get?_retain]
  cases hk : log.get? k with
  | none => rfl
  | some o =>
    cases hpk : p k o with
    | false =>
      rw [Option.filter_some, if_neg (by simp [hpk]), Option.getD_some, Option.getD_none]
      exact hp k o hpk
    | true => rw [Option.filter_some, if_pos hpk]

/-! ## Snapshots -/

/-- The log of the present values of the given keys. -/
def snapshot (m : OrderedMap K V) (keys : List K) : UndoLog K V :=
  keys.foldl (fun log k => log.insert k (m.get? k)) ∅

/-- The recorded keys that were present, as a map. -/
def present (log : UndoLog K V) : OrderedMap K V :=
  log.entries.foldl (fun m e => m.put e.1 e.2) ∅

theorem get?_foldl_insert (m : OrderedMap K V) (keys : List K) (log : UndoLog K V) (k : K) :
    (keys.foldl (fun log k => log.insert k (m.get? k)) log).get? k =
      if k ∈ keys then some (m.get? k) else log.get? k := by
  induction keys generalizing log with
  | nil => simp
  | cons k' rest ih =>
    rw [foldl_cons, ih, get?_insert]
    by_cases hrest : k ∈ rest
    · simp [hrest]
    · by_cases hk : k = k' <;> simp [hrest, hk]

@[simp] theorem get?_snapshot (m : OrderedMap K V) (keys : List K) (k : K) :
    (snapshot m keys).get? k = if k ∈ keys then some (m.get? k) else none := by
  rw [snapshot, get?_foldl_insert, get?_emptyc]

@[simp] theorem get?_present (log : UndoLog K V) (k : K) :
    log.present.get? k = (log.get? k).getD none := by
  rw [present, get?_foldl_put log.entries log.sorted, get?_emptyc]
  rfl

theorem snapshot_congr {m' : OrderedMap K V} (h : ∀ k ∈ keys, m.get? k = m'.get? k) :
    snapshot m keys = snapshot m' keys := by
  apply ext_get?
  intro k
  rw [get?_snapshot, get?_snapshot]
  split_ifs with hk
  · rw [h k hk]
  · rfl

theorem retain_snapshot [DecidableEq V] {m' n n' : OrderedMap K V}
    (hold : ∀ k ∈ keys, m.get? k = m'.get? k) (hnew : ∀ k ∈ keys, n.get? k = n'.get? k) :
    ((snapshot m keys).retain fun k previous => n.get? k ≠ previous) =
        (snapshot m' keys).retain (fun k previous => n'.get? k ≠ previous) ∧
      ∀ e ∈ ((snapshot m keys).retain fun k previous => n.get? k ≠ previous).entries,
      e.1 ∈ keys := by
  have hmem : ∀ k previous, (snapshot m keys).get? k = some previous → k ∈ keys := by
    intro k previous hk
    rw [get?_snapshot] at hk
    split_ifs at hk with hmem
    exact hmem
  constructor
  · rw [← snapshot_congr hold]
    refine retain_congr fun k previous hk => ?_
    rw [hnew k (hmem k previous hk)]
  · intro e he
    have hget := get?_eq_some_iff.mpr he
    rw [get?_retain, Option.filter_eq_some_iff] at hget
    exact hmem e.1 e.2 hget.1

theorem undoes_snapshot (h : ∀ k, k ∉ keys → now.get? k = m.get? k) :
    Undoes (snapshot m keys) now m := by
  intro k
  rw [originalAt, get?_snapshot]
  split_ifs with hk
  · rfl
  · exact (h k hk).symm

/-! ## Sums -/

section Sums

variable {M : Type w} [AddCommMonoid M]

/-- The old contribution of the recorded keys. -/
def sumOld (f : K → V → M) (log : UndoLog K V) : M :=
  (log.entries.map fun e => optionSum f e.1 e.2).sum

/-- The present contribution of the recorded keys. -/
def sumNow (f : K → V → M) (log : UndoLog K V) (now : OrderedMap K V) : M :=
  (log.entries.map fun e => optionSum f e.1 (now.get? e.1)).sum

theorem sumBy_foldl_put (f : K → V → M) (l : List (K × Option V))
    (hs : l.Pairwise fun a b => a.1 < b.1) (m : OrderedMap K V) :
    sumBy f (l.foldl (fun m e => m.put e.1 e.2) m) +
        (l.map fun e => optionSum f e.1 (m.get? e.1)).sum =
      sumBy f m + (l.map fun e => optionSum f e.1 e.2).sum := by
  induction l generalizing m with
  | nil => simp
  | cons e rest ih =>
    obtain ⟨hlt, hs⟩ := pairwise_cons.mp hs
    have hput := sumBy_put f m e.1 e.2
    have hrest := ih hs (m.put e.1 e.2)
    have hsame : (rest.map fun d => optionSum f d.1 ((m.put e.1 e.2).get? d.1)) =
        rest.map fun d => optionSum f d.1 (m.get? d.1) := by
      apply map_congr_left
      intro d hd
      rw [get?_put, if_neg (hlt d hd).ne']
    rw [hsame] at hrest
    rw [foldl_cons, map_cons, sum_cons, map_cons, sum_cons,
      add_left_comm, hrest, ← add_assoc, hput]
    abel

/-- What each step of a fold takes from a number and adds to it, the fold does. -/
theorem foldlM_balance {σ α : Type} {step : σ → α → Option σ} (g : σ → Nat) (gone came : α → Nat)
    {l : List α} (hstep : ∀ s e s', step s e = some s' → g s' + gone e = g s + came e) {s s' : σ}
    (h : l.foldlM step s = some s') : g s' + (l.map gone).sum = g s + (l.map came).sum := by
  induction l generalizing s with
  | nil =>
    cases h
    rfl
  | cons e rest ih =>
    rw [foldlM_cons] at h
    obtain ⟨mid, hmid, hrest⟩ := Option.bind_eq_some_iff.mp h
    have hone := hstep s e mid hmid
    have htail := ih hrest
    simp only [map_cons, sum_cons]
    omega

/-- How a sum over the map has changed, read off the log. -/
theorem Undoes.sumBy {log : UndoLog K V} {now start : OrderedMap K V} (h : Undoes log now start)
    (f : K → V → M) :
    OrderedMap.sumBy f start + log.sumNow f now = OrderedMap.sumBy f now + log.sumOld f := by
  rw [← h.restore]
  exact sumBy_foldl_put f log.entries log.sorted now

end Sums

/-! ## Stacks of journals -/

/-- The journals of a run, last one first, lead from the state it has reached back to the states
before. -/
inductive LeadsBack {S : Type u} {J : Type v} (undoes : J → S → S → Prop) : S → List J → Prop
  | nil (s : S) : LeadsBack undoes s []
  | cons {s before : S} {journal : J} {journals : List J} (hundo : undoes journal s before)
      (h : LeadsBack undoes before journals) : LeadsBack undoes s (journal :: journals)

theorem LeadsBack.congr {S : Type u} {J : Type v} {undoes : J → S → S → Prop} {s s' : S}
    {journals : List J} (h : LeadsBack undoes s journals)
    (hsame : ∀ journal before, undoes journal s before → undoes journal s' before) :
    LeadsBack undoes s' journals := by
  cases h with
  | nil => exact .nil s'
  | cons hundo h => exact .cons (hsame _ _ hundo) h

end UndoLog
