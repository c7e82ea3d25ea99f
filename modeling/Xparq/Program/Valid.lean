import Xparq.Program.Effects

/-!
# Registries that pass their audit

`ProgramRegistry.Valid r tip` is what `ProgramRegistry.validate` checks when a ledger is restored:
every record carries the code, the hashes and the storage limits it was deployed under, and the
lookup of used deployments is exactly the one of the records. Deployments and invocations keep
it. An invocation's registry journal stays within the bounds under which journals are read back
(`ProgramJournal.Bounded`): the meters bound its length, and the values it puts back were valid.
-/

namespace Xparq

open Machine Outcome OrderedMap List

/-! ## Storage limits -/

theorem checkKey_eq_ok {key : List Byte} {u : Unit} :
    checkKey key = .ok u ↔ key ≠ [] ∧ key.length ≤ maxKeyBytes := by
  rw [checkKey, rejectIf_eq_ok, not_or, not_lt]

/-- A stored value is not empty and not too long. -/
def ValidValue (value : List Byte) : Prop := value ≠ [] ∧ value.length ≤ maxDataBytes

theorem validStorage_iff {storage : Storage} :
    validStorage storage = true ↔ storage.length ≤ maxStorageEntries ∧
      (∀ key value, storage.get? key = some value → checkKey key = .ok () ∧ ValidValue value) ∧
      (storage.sumBy fun k v => 8 + k.length + v.length) + 4 ≤ maxStorageBytes := by
  simp only [validStorage, Bool.and_eq_true, decide_eq_true_eq, all_eq_true, Bool.not_eq_true',
    isEmpty_eq_false_iff, checkKey_eq_ok, ValidValue, get?_eq_some_iff, Prod.forall, and_assoc]

/-! ## Valid registries -/

/-- The deployment a record was registered under. -/
def ProgramRecord.deployment (record : ProgramRecord) :
    ProgramId ×ₗ U64 := toLex (record.owner, record.nonce)

namespace ProgramRegistry

section
variable [Crypto]

structure Valid (r : ProgramRegistry) (tip : Height) : Prop where
  records : ∀ id record, r.programs.get? id = some record →
    validateRecord id record = .ok () ∧ record.deployedAt ≤ tip
  deployments : ∀ d, r.deployments.get? d = some () ↔
    ∃ id record, r.programs.get? id = some record ∧ record.deployment = d
  unique : ∀ id id' record record', r.programs.get? id = some record →
    r.programs.get? id' = some record' →
    record.deployment = record'.deployment → id = id'

variable {r : ProgramRegistry} {tip : Height}

theorem valid_empty (tip : Height) : Valid empty tip where
  records _ _ h := by cases h
  deployments d := by
    constructor
    · intro h
      cases h
    · rintro ⟨_, _, h, _⟩
      cases h
  unique _ _ _ _ h := by cases h

theorem Valid.mono (h : Valid r tip) {tip' : Height} (hle : tip ≤ tip') : Valid r tip' where
  records id record hget := ⟨(h.records id record hget).1, (h.records id record hget).2.trans hle⟩
  deployments := h.deployments
  unique := h.unique

variable {id : ProgramId} {record : ProgramRecord}

theorem validateRecord_eq_ok {u : Unit} :
    validateRecord id record = .ok u ↔
      DeployProgram.validateStructure ⟨record.owner, record.nonce, record.code⟩ = .ok () ∧
      validStorage record.storage = true ∧
      (record.code[4]? ≠ some applicationVersion → record.storage = ∅) ∧
      ProgramHash.derive record.code = .ok record.codeHash ∧
      ProgramId.derive record.owner record.nonce record.codeHash = id := by
  simp only [validateRecord, bind_eq_ok, orError_eq_ok, rejectIf_eq_ok, not_or, not_and,
    Bool.not_eq_false, ← OrderedMap.isEmpty_iff, not_not]
  constructor
  · rintro ⟨_, hstructure, _, ⟨hvalid, hempty⟩, hash, hhash, rfl, hid⟩
    exact ⟨hstructure, hvalid, hempty, hhash, hid⟩
  · rintro ⟨hstructure, hvalid, hempty, hhash, hid⟩
    exact ⟨(), hstructure, (), ⟨hvalid, hempty⟩, record.codeHash, hhash, rfl, hid⟩

theorem Valid.rewrite (h : Valid r tip) {changed : ProgramRecord}
    (hget : r.programs.get? id = some record)
    (hchanged : changed =
      { record with stateValue := changed.stateValue, storage := changed.storage })
    (hvalid : validStorage changed.storage = true)
    (hempty : record.code[4]? ≠ some applicationVersion → changed.storage = ∅) :
    Valid { r with programs := r.programs.insert id changed } tip := by
  have hdeployment : changed.deployment = record.deployment := by rw [hchanged]; rfl
  -- whoever is registered afterwards was registered before, for the same deployment
  have hbefore : ∀ {id' : ProgramId} {record' : ProgramRecord},
      (r.programs.insert id changed).get? id' = some record' →
      ∃ old, r.programs.get? id' = some old ∧ old.deployment = record'.deployment := by
    intro id' record' hget'
    rw [get?_insert] at hget'
    split_ifs at hget' with hid
    · cases hget'
      exact ⟨record, hid ▸ hget, hdeployment.symm⟩
    · exact ⟨record', hget', rfl⟩
  refine ⟨?_, ?_, ?_⟩
  · intro id' record' hget'
    rw [get?_insert] at hget'
    split_ifs at hget' with hid
    · cases hget'
      subst hid
      obtain ⟨hold, hheight⟩ := h.records id' record hget
      obtain ⟨hstructure, _, _, hhash, hderive⟩ := validateRecord_eq_ok.mp hold
      refine ⟨validateRecord_eq_ok.mpr ?_, by rw [hchanged]; exact hheight⟩
      rw [hchanged]
      exact ⟨hstructure, hvalid, hempty, hhash, hderive⟩
    · exact h.records id' record' hget'
  · intro d
    rw [h.deployments d]
    constructor
    · rintro ⟨id', record', hget', rfl⟩
      by_cases hid : id' = id
      · subst hid
        obtain rfl := Option.some.inj (hget.symm.trans hget')
        exact ⟨id', changed, get?_insert_self _ _ _, hdeployment⟩
      · exact ⟨id', record', by rw [get?_insert, if_neg hid, hget'], rfl⟩
    · rintro ⟨id', record', hget', rfl⟩
      obtain ⟨old, hold, hd⟩ := hbefore hget'
      exact ⟨id', old, hold, hd⟩
  · intro id₁ id₂ record₁ record₂ h₁ h₂ hd
    obtain ⟨old₁, hold₁, hd₁⟩ := hbefore h₁
    obtain ⟨old₂, hold₂, hd₂⟩ := hbefore h₂
    exact h.unique id₁ id₂ old₁ old₂ hold₁ hold₂ (by rw [hd₁, hd₂, hd])

theorem Valid.insert (h : Valid r tip) (hrecord : validateRecord id record = .ok ())
    (hheight : record.deployedAt ≤ tip) (hfresh : r.programs.get? id = none)
    (hunused : r.deployments.get? record.deployment = none) :
    Valid ⟨r.programs.insert id record, r.deployments.insert record.deployment ()⟩ tip := by
  have hother : ∀ id' record', r.programs.get? id' = some record' →
      record'.deployment ≠ record.deployment := by
    intro id' record' hget' hd
    have hused := (h.deployments record.deployment).mpr ⟨id', record', hget', hd⟩
    rw [hunused] at hused
    cases hused
  refine ⟨?_, ?_, ?_⟩
  · intro id' record' hget'
    rw [get?_insert] at hget'
    split_ifs at hget' with hid
    · cases hget'
      exact ⟨hid ▸ hrecord, hheight⟩
    · exact h.records id' record' hget'
  · intro d
    rw [get?_insert]
    split_ifs with hdeployment
    · exact iff_of_true rfl ⟨id, record, get?_insert_self _ _ _, hdeployment.symm⟩
    · rw [h.deployments d]
      constructor
      · rintro ⟨id', record', hget', hd⟩
        refine ⟨id', record', ?_, hd⟩
        rw [get?_insert, if_neg, hget']
        rintro rfl
        rw [hfresh] at hget'
        cases hget'
      · rintro ⟨id', record', hget', rfl⟩
        rw [get?_insert] at hget'
        split_ifs at hget' with hid
        · cases hget'
          exact absurd rfl hdeployment
        · exact ⟨id', record', hget', rfl⟩
  · intro id₁ id₂ record₁ record₂ h₁ h₂ hd
    rw [get?_insert] at h₁ h₂
    split_ifs at h₁ h₂ with hid₁ hid₂ hid₂
    · rw [hid₁, hid₂]
    · cases h₁
      exact absurd hd.symm (hother id₂ record₂ h₂)
    · cases h₂
      exact absurd hd (hother id₁ record₁ h₁)
    · exact h.unique id₁ id₂ record₁ record₂ h₁ h₂ hd

theorem validateRecord_of_prepareDeployment {deploy : DeployProgram} {height : Height}
    (h : prepareDeployment deploy height = .ok (id, record)) :
    validateRecord id record = .ok () ∧ record.deployedAt = height := by
  simp only [prepareDeployment, bind_eq_ok, mapError_eq_ok, return_eq_ok, Prod.mk.injEq] at h
  obtain ⟨_, hstructure, hash, hhash, rfl, rfl⟩ := h
  refine ⟨validateRecord_eq_ok.mpr ⟨hstructure, rfl, fun _ => rfl, hhash, rfl⟩, rfl⟩

/-! ## The audit -/

/-- The loop of the audit remembers the deployments it has seen, and rejects none if they are
distinct. -/
theorem foldlM_validateEntry {l : List (ProgramId × ProgramRecord)}
    (seen : OrderedSet (ProgramId ×ₗ U64))
    (hrecords : ∀ e ∈ l, validateRecord e.1 e.2 = .ok () ∧ e.2.deployedAt ≤ tip)
    (hunused : ∀ e ∈ l, seen.get? e.2.deployment = none)
    (hnodup : (l.map fun e => e.2.deployment).Nodup) :
    ∃ seen', l.foldlM (validateEntry tip) seen = .ok seen' ∧
      ∀ d, seen'.get? d = some () ↔ seen.get? d = some () ∨ ∃ e ∈ l, e.2.deployment = d := by
  induction l generalizing seen with
  | nil => exact ⟨seen, rfl, by simp⟩
  | cons e rest ih =>
    obtain ⟨hhead, hnodup⟩ := nodup_cons.mp hnodup
    obtain ⟨hrecord, hheight⟩ := hrecords e mem_cons_self
    have hentry : validateEntry tip seen e = .ok (seen.insert e.2.deployment ()) := by
      have hnone := contains_eq_false_iff.mpr (hunused e mem_cons_self)
      rw [validateEntry, hrecord, ok_bind, rejectIf, if_neg]
      · rfl
      · rw [not_or, not_lt, Bool.not_eq_true]
        exact ⟨hheight, hnone⟩
    obtain ⟨seen', hfold, hseen⟩ := ih (seen.insert e.2.deployment ())
      (fun d hd => hrecords d (mem_cons_of_mem _ hd)) (by
        intro d hd
        rw [get?_insert, if_neg, hunused d (mem_cons_of_mem _ hd)]
        intro heq
        exact hhead (mem_map.mpr ⟨d, hd, heq⟩)) hnodup
    refine ⟨seen', by rw [foldlM_cons, hentry]; exact hfold, ?_⟩
    intro d
    rw [hseen d, get?_insert]
    by_cases hd : d = e.2.deployment
    · simp [hd]
    · simp [hd, Ne.symm hd]

/-- Valid registries pass. -/
theorem Valid.validate (h : Valid r tip) : r.validate tip = .ok () := by
  have hnodup : (r.programs.entries.map fun e => e.2.deployment).Nodup := by
    refine List.Nodup.map_on ?_ (List.Nodup.of_map Prod.fst r.programs.keys_nodup)
    intro e he e' he' heq
    have hget := get?_eq_some_iff.mpr he
    have hget' := get?_eq_some_iff.mpr he'
    have hid := h.unique _ _ _ _ hget hget' heq
    rw [hid, hget', Option.some.injEq] at hget
    exact Prod.ext hid hget.symm
  obtain ⟨seen, hfold, hseen⟩ := foldlM_validateEntry ∅
    (fun e he => h.records e.1 e.2 (get?_eq_some_iff.mpr he)) (fun _ _ => rfl) hnodup
  have hsame : seen = r.deployments := by
    apply ext_get?
    intro d
    have hiff : seen.get? d = some () ↔ r.deployments.get? d = some () := by
      rw [hseen d, h.deployments d]
      simp only [get?_emptyc, reduceCtorEq, false_or, Prod.exists, get?_eq_some_iff]
    exact Option.ext fun u => hiff
  rw [ProgramRegistry.validate, hfold, ok_bind, rejectIf, if_neg]
  simp [hsame]

end

end ProgramRegistry

/-! ## Journals -/

/-- The journals that are read back: the limits of an invocation, and sorted entries. -/
def ProgramJournal.Bounded : ProgramJournal → Prop
  | .calls states storage =>
    states.length ≤ maxCalls ∧ states.Pairwise (fun a b => a.1 < b.1) ∧
    storage.length ≤ maxActions ∧
      storage.Pairwise (fun a b => toLex (a.1, a.2.1) < toLex (b.1, b.2.1)) ∧
    ∀ e ∈ storage, checkKey e.2.1 = .ok () ∧ ∀ v ∈ e.2.2, ValidValue v
  | .deploy _ | .state _ _ => True

/-! ## Invocations -/

section
variable [Crypto] {ctx : CallContext} {start : LedgerState} {e e' : Engine} {tip : Height}

theorem Engine.Step.programs_valid (hstep : Step ctx e e') (h : e.state.programs.Valid tip) :
    e'.state.programs.Valid tip := by
  cases hstep with
  | cached hcached =>
    obtain ⟨_, _, _, _, rfl⟩ := hcached
    exact h
  | action _ | enter _ _ | leave | coin _ _ _ _ _ | asset _ _ _ => exact h
  | setState _ hget _ =>
    obtain ⟨_, hvalid, hempty, _⟩ := ProgramRegistry.validateRecord_eq_ok.mp (h.records _ _ hget).1
    exact h.rewrite hget rfl hvalid hempty
  | store _ hget hcode _ _ hvalid =>
    exact h.rewrite hget rfl hvalid fun hlegacy => absurd hcode hlegacy

theorem Engine.Steps.programs_valid (hsteps : Steps ctx e e') (h : e.state.programs.Valid tip) :
    e'.state.programs.Valid tip := by
  induction hsteps with
  | refl => exact h
  | tail _ hstep ih => exact hstep.programs_valid ih

theorem ProgramRegistry.Undoes.logged_valid {states : StateLog} {storage : StorageLog}
    {now old : ProgramRegistry} (h : Undoes states storage now old) (hold : old.Valid tip)
    {id : ProgramId} {key value : List Byte}
    (hlog : storage.get? (toLex (id, key)) = some (some value)) : ValidValue value := by
  obtain ⟨record, hget⟩ := h.exists_record (.inr ⟨key, by rw [hlog]; nofun⟩)
  obtain ⟨previous, hprevious, _, _, hstored⟩ := h.records id record hget
  have hvalue : previous.storage.get? key = some value := by
    rw [hstored key, hlog, Option.getD_some]
  obtain ⟨_, hvalid, _⟩ := validateRecord_eq_ok.mp (hold.records id previous hprevious).1
  exact ((validStorage_iff.mp hvalid).2.1 key value hvalue).2

theorem Engine.programJournal_bounded (hmetered : Metered e)
    (hundoes : ProgramRegistry.Undoes e.states e.storage e.state.programs start.programs)
    (hstart : start.programs.Valid tip) {journal : ProgramJournal}
    (h : e.programJournal = some journal) : journal.Bounded := by
  have hcalls : (ProgramJournal.calls e.states.entries
      (ProgramRegistry.storageEntries e.storage.entries)).Bounded := by
    refine ⟨?_, e.states.sorted, ?_, ?_, ?_⟩
    · calc e.states.length ≤ e.entered.length := length_le_of_keys_subset hmetered.states_entered
        _ = e.calls := hmetered.entered_length
        _ ≤ maxCalls := hmetered.calls_le
    · rw [ProgramRegistry.storageEntries, length_map]
      exact hmetered.storage_le.trans hmetered.actions_le
    · rw [ProgramRegistry.storageEntries, pairwise_map]
      exact e.storage.sorted
    · intro entry hentry
      obtain ⟨logged, hlogged, rfl⟩ := mem_map.mp hentry
      have hget : e.storage.get? logged.1 = some logged.2 := get?_eq_some_iff.mpr hlogged
      refine ⟨hmetered.checked logged.1 (mem_keys_iff.mpr ⟨_, hget⟩), ?_⟩
      intro value hvalue
      rw [Option.mem_def.mp hvalue] at hget
      exact hundoes.logged_valid hstart hget
  unfold programJournal at h
  split_ifs at h
  split at h
  · cases h
    trivial
  · cases h
    exact hcalls

theorem applyVm_valid {s s' : LedgerState} {tx : AuthorizedProgramInvocation} {height : U64}
    {commitment : AuthorizationCommitment} {applied : AppliedVm} (hs : s.Sound)
    (hvalid : s.programs.Valid tip)
    (h : applyVm s tx height commitment systemApplications = .ok (applied, s')) :
    s'.programs.Valid tip ∧ ∀ journal ∈ applied.program, journal.Bounded := by
  obtain ⟨e, value, hsteps, hreport, rfl⟩ := Engine.applyVm_steps h
  simp only [Engine.report, bind_eq_ok, return_eq_ok] at hreport
  obtain ⟨_, _, _, _, rfl⟩ := hreport
  refine ⟨hsteps.programs_valid hvalid, ?_⟩
  intro journal hjournal
  exact Engine.programJournal_bounded ((Engine.metered_start s).steps hsteps)
    ((Engine.effects_start hs).steps hsteps).programs hvalid hjournal

end

end Xparq
