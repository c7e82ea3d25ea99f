import Xparq.Program.Registry
import Xparq.Lib.UndoLog

/-!
# Undoing registry changes

`ProgramRegistry.Undoes states storage now start` says that the recorded state values and
storage entries lead from `now` back to `start`: the same programs are deployed, and a
recorded slot or key had the recorded value. The two writes of the engine keep it
(`Undoes.setState`, `Undoes.setStorage`), and `rollbackProgram` executes it
(`Undoes.rollback`).
-/

namespace Xparq

open Machine Outcome OrderedMap

/-- The state slots a run has written, with their first values. -/
abbrev StateLog := OrderedMap ProgramId I64

/-- The storage keys a run has written, with their first values. -/
abbrev StorageLog := UndoLog (ProgramId ×ₗ List Byte) (List Byte)

namespace ProgramRegistry

/-- `old` is `record` with the logged values put back. -/
structure RecordUndoes (state : Option I64) (stored : List Byte → Option (Option (List Byte)))
    (record old : ProgramRecord) : Prop where
  fixed : old = { record with stateValue := old.stateValue, storage := old.storage }
  state : old.stateValue = state.getD record.stateValue
  stored : ∀ key, old.storage.get? key = (stored key).getD (record.storage.get? key)

/-- What is found under a program and its keys leads from `now` back to `start`. -/
structure UndoesAt (states : ProgramId → Option I64)
    (stored : ProgramId → List Byte → Option (Option (List Byte)))
    (now start : ProgramRegistry) : Prop where
  deployments : now.deployments = start.deployments
  absent : ∀ id, now.programs.get? id = none →
    start.programs.get? id = none ∧ states id = none ∧ ∀ key, stored id key = none
  records : ∀ id record, now.programs.get? id = some record →
    ∃ old, start.programs.get? id = some old ∧ RecordUndoes (states id) (stored id) record old

def Undoes (states : StateLog) (storage : StorageLog) (now start : ProgramRegistry) : Prop :=
  UndoesAt states.get? (fun id key => storage.get? (toLex (id, key))) now start

theorem Undoes.refl (r : ProgramRegistry) : Undoes ∅ ∅ r r where
  deployments := rfl
  absent _ h := ⟨h, rfl, fun _ => rfl⟩
  records _ record h := ⟨record, h, rfl, rfl, fun _ => rfl⟩

section
variable {states states' : ProgramId → Option I64} {stored stored' : ProgramId → List Byte →
  Option (Option (List Byte))}
  {now start : ProgramRegistry} {id : ProgramId} {record written : ProgramRecord}

theorem UndoesAt.exists_record (h : UndoesAt states stored now start)
    (hlog : states id ≠ none ∨ ∃ key, stored id key ≠ none) :
    ∃ record, now.programs.get? id = some record := by
  rw [← Option.ne_none_iff_exists']
  intro hnone
  obtain ⟨-, hstate, hstored⟩ := h.absent id hnone
  rcases hlog with hlog | ⟨key, hlog⟩
  · exact hlog hstate
  · exact hlog (hstored key)

/-- A write to one record, forward or backward: what is found for it changes along, and what is
found for the others does not. -/
theorem UndoesAt.write (h : UndoesAt states stored now start)
    (hget : now.programs.get? id = some record)
    (hrecord : ∀ old, RecordUndoes (states id) (stored id) record old →
      RecordUndoes (states' id) (stored' id) written old)
    (hother : ∀ id', id' ≠ id → states' id' = states id' ∧ stored' id' = stored id') :
    UndoesAt states' stored' { now with programs := now.programs.insert id written } start := by
  refine ⟨h.deployments, ?_, ?_⟩
  · intro id' hnone
    rw [get?_insert] at hnone
    split_ifs at hnone with hid
    rw [(hother id' hid).1, (hother id' hid).2]
    exact h.absent id' hnone
  · intro id' record' hget'
    rw [get?_insert] at hget'
    split_ifs at hget' with hid
    · subst hid
      cases hget'
      obtain ⟨old, hold, hundoes⟩ := h.records id' record hget
      exact ⟨old, hold, hrecord old hundoes⟩
    · rw [(hother id' hid).1, (hother id' hid).2]
      exact h.records id' record' hget'

theorem UndoesAt.eq_of_none (h : UndoesAt (fun _ => none) (fun _ _ => none) now start) :
    now = start := by
  have hprograms : now.programs = start.programs := by
    apply ext_get?
    intro id
    cases hget : now.programs.get? id with
    | none => exact (h.absent id hget).1.symm
    | some record =>
      obtain ⟨old, hold, hfixed, hstate, hstored⟩ := h.records id record hget
      rw [hold, hfixed, hstate, ext_get? hstored]
      rfl
  have hdeployments := h.deployments
  obtain ⟨programs, deployments⟩ := now
  obtain ⟨programs', deployments'⟩ := start
  exact congrArg₂ ProgramRegistry.mk hprograms hdeployments

end

variable {states : StateLog} {storage : StorageLog} {now start : ProgramRegistry} {id : ProgramId}
  {record : ProgramRecord}

theorem Undoes.setState (h : Undoes states storage now start)
    (hget : now.programs.get? id = some record) (value : I64) :
    Undoes (states.orInsert id record.stateValue) storage
      { now with programs := now.programs.insert id { record with stateValue := value } }
      start := by
  refine UndoesAt.write h hget (fun old hold => ⟨hold.fixed, ?_, hold.stored⟩) fun id' hid =>
    ⟨?_, rfl⟩
  · rw [get?_orInsert, if_pos rfl, Option.getD_some]
    exact hold.state
  · rw [get?_orInsert, if_neg hid]

theorem Undoes.setStorage (h : Undoes states storage now start)
    (hget : now.programs.get? id = some record) (key : List Byte) (value : Option (List Byte)) :
    Undoes states (storage.remember (toLex (id, key)) (record.storage.get? key))
      { now with programs :=
        now.programs.insert id { record with storage := record.storage.put key value } } start := by
  refine UndoesAt.write h hget (fun old hold => ⟨hold.fixed, hold.state, fun key' => ?_⟩)
    fun id' hid => ⟨rfl, funext fun key' => ?_⟩
  · rw [hold.stored key', UndoLog.get?_remember, get?_put]
    by_cases hkey : key' = key
    · subst hkey
      simp
    · simp [hkey]
  · rw [UndoLog.get?_remember, if_neg]
    intro heq
    exact hid (congrArg (fun k => (ofLex k).1) heq)

/-! ## Executing the logs -/

variable {stored : ProgramId → List Byte → Option (Option (List Byte))}

theorem UndoesAt.exists_rollbackStates {l : List (ProgramId × I64)}
    (hs : l.Pairwise fun a b => a.1 < b.1) (h : UndoesAt (fun id => find id l) stored now start) :
    ∃ r, rollbackStates now l = .ok r ∧ UndoesAt (fun _ => none) stored r start := by
  induction l generalizing now with
  | nil => exact ⟨now, rfl, h⟩
  | cons e rest ih =>
    obtain ⟨hlt, hs⟩ := List.pairwise_cons.mp hs
    have hnone : find e.1 rest = none := find_eq_none_of_lt hlt
    have hfirst : find e.1 (e :: rest) = some e.2 := if_pos rfl
    obtain ⟨record, hget⟩ := h.exists_record (.inl (by rw [hfirst]; nofun))
    have hnext : UndoesAt (fun id => find id rest) stored
        { now with programs := now.programs.insert e.1 { record with stateValue := e.2 } }
          start := by
      refine h.write hget (fun old hold => ⟨hold.fixed, ?_, hold.stored⟩) fun id hid =>
        ⟨(if_neg hid.symm).symm, rfl⟩
      rw [hold.state, hfirst, hnone]
      rfl
    obtain ⟨r, hrest, hr⟩ := ih hs hnext
    refine ⟨r, ?_, hr⟩
    have hset : now.setState e.1 e.2 = some (record.stateValue, _) :=
      setState_eq_some.mpr ⟨record, hget, rfl, rfl⟩
    rw [rollbackStates, List.foldlM_cons, hset]
    exact hrest

/-- The storage journal as a list of its three parts. -/
def storageEntries (l : List ((ProgramId ×ₗ List Byte) × Option (List Byte))) :
    List (ProgramId × List Byte × Option (List Byte)) :=
  l.map fun e => ((ofLex e.1).1, (ofLex e.1).2, e.2)

/-- The journal is used up entry by entry; after each write its rest still leads back to the start.
-/
theorem UndoesAt.exists_rollbackStorage {states : ProgramId → Option I64}
    {l : List ((ProgramId ×ₗ List Byte) × Option (List Byte))}
    (hs : l.Pairwise fun a b => a.1 < b.1)
    (h : UndoesAt states (fun id key => find (toLex (id, key)) l) now start) :
    ∃ r, rollbackStorage now (storageEntries l) = .ok r ∧
      UndoesAt states (fun _ _ => none) r start := by
  induction l generalizing now with
  | nil => exact ⟨now, rfl, h⟩
  | cons e rest ih =>
    obtain ⟨hlt, hs⟩ := List.pairwise_cons.mp hs
    have hnone : find e.1 rest = none := find_eq_none_of_lt hlt
    have hfirst : find e.1 (e :: rest) = some e.2 := if_pos rfl
    obtain ⟨record, hget⟩ := h.exists_record (.inr ⟨(ofLex e.1).2, by
      change find e.1 (e :: rest) ≠ none
      rw [hfirst]
      nofun⟩)
    let written : ProgramRecord := { record with storage := record.storage.put (ofLex e.1).2 e.2 }
    have hnext : UndoesAt states (fun id key => find (toLex (id, key)) rest)
        { now with programs := now.programs.insert (ofLex e.1).1 written } start := by
      refine h.write hget (fun old hold => ⟨hold.fixed, hold.state, fun key => ?_⟩) fun id hid =>
        ⟨rfl, funext fun key => (if_neg fun heq => hid (by rw [heq]; rfl)).symm⟩
      rw [hold.stored key, get?_put]
      by_cases hkey : key = (ofLex e.1).2
      · subst hkey
        change (find e.1 (e :: rest)).getD _ = (find e.1 rest).getD _
        rw [hfirst, hnone, if_pos rfl]
        rfl
      · rw [if_neg hkey]
        exact congrArg (Option.getD · _) (if_neg fun heq => hkey (by rw [heq]; rfl))
    obtain ⟨r, hrest, hr⟩ := ih hs hnext
    refine ⟨r, ?_, hr⟩
    have hset : now.setStorage (ofLex e.1).1 (ofLex e.1).2 e.2 = .ok _ :=
      setStorage_eq_ok.mpr ⟨record, hget, rfl⟩
    rw [rollbackStorage, storageEntries, List.map_cons, List.foldlM_cons, hset]
    exact hrest

theorem Undoes.rollback (h : Undoes states storage now start) :
    rollbackProgram now (.calls states.entries (storageEntries storage.entries)) = .ok start := by
  obtain ⟨r₁, hstates, h₁⟩ := UndoesAt.exists_rollbackStates states.sorted h
  obtain ⟨r₂, hstorage, h₂⟩ := h₁.exists_rollbackStorage storage.sorted
  rw [rollbackProgram, hstates, ok_bind, hstorage, h₂.eq_of_none]

theorem Undoes.eq_of_empty (h : Undoes ∅ ∅ now start) : now = start := by
  have := h.rollback
  cases this
  rfl

end ProgramRegistry

end Xparq
