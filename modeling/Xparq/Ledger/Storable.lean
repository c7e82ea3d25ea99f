import Xparq.Ledger.History
import Xparq.Program.Valid

/-!
# Ledgers that can be stored and read back

Reading a snapshot back checks more than executing blocks does: registries are audited, the
journals of program changes have to stay within the limits of one invocation, asset names have
to be text, and the journals have to be complete from some height on. `Ledger.Storable` says that
a ledger meets all of this, and `History.storable` that every ledger with a history does.
-/

namespace Xparq

open Machine Outcome OrderedMap LedgerState List

/-! ## Journals -/

theorem validUtf8_of_validateAssetName {name : List Byte} {u : Unit}
    (h : validateAssetName name = .ok u) : validUtf8 name = true := by
  rw [validateAssetName, rejectIf_eq_ok] at h
  simp only [not_or, not_not] at h
  obtain ⟨-, -, -, -, hbytes⟩ := h
  induction name with
  | nil => rfl
  | cons byte rest ih =>
    have hlow : byte < 0x80 := by
      rcases hbytes byte mem_cons_self with rfl | ⟨_, hle⟩
      · decide
      · exact lt_of_le_of_lt hle (by decide)
    rw [validUtf8.eq_def]
    simp only [hlow, if_true]
    exact ih fun b hb => hbytes b (mem_cons_of_mem _ hb)

/-- The names that an asset journal puts back are text. -/
def AssetJournal.Bounded (journal : AssetJournal) : Prop :=
  ∀ asset record, journal.records.get? asset = some (some record) →
    validUtf8 record.metadata.name = true

structure StateRollbackJournal.Bounded (journal : StateRollbackJournal) : Prop where
  program : ∀ program ∈ journal.program, program.Bounded
  extension : ∀ extension ∈ journal.extension, extension.Bounded

theorem AssetJournal.Undoes.bounded {journal : AssetJournal} {now start : AssetState}
    (h : journal.Undoes now start) (hstart : start.Supplied) : journal.Bounded := by
  intro asset record hlog
  have hget : start.records.get? asset = some record := by
    rw [h.1 asset, UndoLog.originalAt, hlog, Option.getD_some]
  have hmetadata := (hstart.valid asset record hget).metadata
  rw [Metadata.validate, bind_eq_ok] at hmetadata
  obtain ⟨_, hname, _⟩ := hmetadata
  exact validUtf8_of_validateAssetName hname

theorem StateRollbackJournal.Undoes.bounded {journal : StateRollbackJournal}
    {now start : LedgerState} (h : journal.Undoes now start) (hstart : start.Sound)
    (hprogram : ∀ program ∈ journal.program, program.Bounded) : journal.Bounded := by
  refine ⟨hprogram, ?_⟩
  intro extension hextension
  have hundoes := h.extension
  rw [Option.mem_def.mp hextension] at hundoes
  exact AssetJournal.Undoes.bounded hundoes hstart.supplied

/-! ## Operations -/

section
variable [Crypto] {s s' : LedgerState} {height : Height}

variable {chain : ChainContext} {miner : ProgramId} {staged : Staged} {b : Block}

theorem applyCall_valid {tx : AuthorizedProgramInvocation} {commitment : AuthorizationCommitment}
    {effect : LedgerState.CallEffect} {now : U64} (hs : s.Sound) (hvalid : s.programs.Valid height)
    (h : s.applyCall tx now commitment chain systemApplications = .ok (effect, s')) :
    s'.programs.Valid height ∧ ∀ program ∈ effect.program, program.Bounded := by
  rcases applyCall_cases h with
    ⟨rfl, rfl⟩ | ⟨applied, hvm, rfl⟩ | ⟨call, _, journal, assets, _, rfl, rfl⟩
  · exact ⟨hvalid, fun _ hnone => by cases hnone⟩
  · exact applyVm_valid hs hvalid hvm
  · exact ⟨hvalid, fun _ hnone => by cases hnone⟩

variable {op : BlockOperation} {staged' : Staged}

theorem StagedBy.valid {journal : StateRollbackJournal} (hs : s.Sound)
    (hvalid : s.programs.Valid height) (h : StagedBy chain height miner s op journal s') :
    s'.programs.Valid height ∧ ∀ program ∈ journal.program, program.Bounded := by
  cases h with
  | call _ _ _ hcall _ _ hpaid _ hsame =>
    obtain ⟨hvalid₁, hbounded⟩ := applyCall_valid hs hvalid hcall
    refine ⟨?_, hbounded⟩
    rw [hsame.programs, hpaid.programs]
    exact hvalid₁
  | deploy _ _ _ _ hdeploy _ hsame =>
    obtain ⟨record, hprepare, hfresh, hunused, rfl, rfl⟩ := deployProgram_ok hdeploy
    obtain ⟨hrecord, hdeployed⟩ := ProgramRegistry.validateRecord_of_prepareDeployment hprepare
    refine ⟨?_, ?_⟩
    · rw [hsame.programs]
      exact hvalid.insert hrecord (by rw [hdeployed]) hfresh hunused
    · rintro _ ⟨⟩
      trivial

/-! ## Blocks -/

/-- What the execution of a block carries along, besides a sound state. -/
structure Staged.Storable (height : Height) (staged : Staged) : Prop where
  sound : staged.state.Sound
  registry : staged.state.programs.Valid height
  journals : ∀ journal ∈ staged.journals, journal.Bounded

theorem Staged.Storable.operation (hs : staged.Storable height)
    (h : stageOperation systemApplications chain height miner staged op = .ok staged') :
    staged'.Storable height ∧ staged'.journals.length = staged.journals.length + 1 := by
  obtain ⟨journal, hjournals, hstaged⟩ := stageOperation_by hs.sound h
  obtain ⟨burn, happlied⟩ := hstaged.applied
  have hprogram := hstaged.valid hs.sound hs.registry
  refine ⟨⟨happlied.sound, hprogram.1, ?_⟩, by rw [hjournals]; simp⟩
  intro j hj
  rw [hjournals] at hj
  rcases mem_append.mp hj with hj | hj
  · exact hs.journals j hj
  · rw [mem_singleton.mp hj]
    exact happlied.undoes.bounded hs.sound hprogram.2

theorem Staged.Storable.operations {operations : List BlockOperation} (hs : staged.Storable height)
    (h : operations.foldlM (stageOperation systemApplications chain height miner) staged =
      .ok staged') :
    staged'.Storable height ∧ staged'.journals.length = staged.journals.length +
      operations.length := by
  induction operations generalizing staged with
  | nil =>
    cases h
    exact ⟨hs, rfl⟩
  | cons op rest ih =>
    rw [foldlM_cons, bind_eq_ok] at h
    obtain ⟨mid, hstep, hrest⟩ := h
    obtain ⟨hmid, hlength⟩ := hs.operation hstep
    obtain ⟨hfinal, hlength'⟩ := ih hmid hrest
    refine ⟨hfinal, ?_⟩
    rw [hlength', hlength, length_cons]
    omega

/-- The number of journals of a block: its emission, then its operations. -/
def Block.journalCount (b : Block) :
    Nat := (if b.emission.isSome then 1 else 0) + b.operations.length

theorem stageEmission_storable {subsidy : Zeno} (hs : s.Sound) (hvalid : s.programs.Valid height)
    (hgenesis : b.isGenesis = true → b.emission = none)
    (h : stageEmission s b = .ok (subsidy, staged)) :
    staged.Storable height ∧ staged.journals.length = if b.emission.isSome then 1 else 0 := by
  unfold stageEmission at h
  split_ifs at h with hzero
  · cases h
    refine ⟨⟨hs, hvalid, by simp⟩, ?_⟩
    rw [hgenesis hzero]
    rfl
  · simp only [bind_eq_ok, Prod.exists, mapError_eq_ok, return_eq_ok, Prod.mk.injEq] at h
    obtain ⟨emission, hemission, journal, state, happly, rfl, rfl⟩ := h
    have hemitted := applyEmission_ok happly
    obtain ⟨hsplit, hsome, _⟩ := validateEmission_ok hemission
    refine ⟨⟨hemitted.sound hs hsplit, hemitted.programs ▸ hvalid, ?_⟩, by rw [hsome]; rfl⟩
    intro j hj
    rw [mem_singleton.mp hj]
    exact hemitted.undoes.bounded hs (by rw [hemitted.journal]; exact fun _ hnone => by cases hnone)

theorem emission_eq_none_of_validateStructure {u : Unit} (h : b.validateStructure = .ok u)
    (hgenesis : b.isGenesis = true) : b.emission = none := by
  simp only [Block.validateStructure, bind_eq_ok, checkEmissionPresence, hgenesis,
    if_true, rejectIf_eq_ok, not_not] at h
  obtain ⟨_, _, _, ⟨_, hnone, _⟩, _⟩ := h
  exact hnone

theorem executeBlock_storable {l : Ledger} {executed : ExecutedBlock}
    (hsys : l.applications = systemApplications) (hs : l.state.Sound)
    (hvalid : l.state.programs.Valid b.height) (hstructure : b.validateStructure = .ok ())
    (h : l.executeBlock b = .ok executed) :
    executed.state.programs.Valid b.height ∧ (∀ journal ∈ executed.journals, journal.Bounded) ∧
      executed.journals.length = b.journalCount := by
  obtain ⟨_, start, final, hrun⟩ := executeBlock_ok hsys hs h
  obtain ⟨hstart, hlength⟩ := stageEmission_storable hs hvalid
    (emission_eq_none_of_validateStructure hstructure) hrun.emission
  obtain ⟨hfinal, hlength'⟩ := hstart.operations hrun.operations
  rw [hrun.journals]
  refine ⟨?_, hfinal.journals, ?_⟩
  · rw [hrun.same.programs]
    exact hfinal.registry
  · rw [hlength', hlength, Block.journalCount]

/-! ## Ledgers -/

namespace Ledger

/-- What reading the snapshot of a ledger back relies on, besides consistency; the blocks of the
trace are the ledger's, newest first. -/
structure Storable (l : Ledger) (trace : List (Ledger × Block)) : Prop where
  registry : l.state.programs.Valid (l.chain.tipHeight.getD 0)
  context : l.chainContext = (trace.map Prod.snd).getLast?.map fun b => ⟨b.hash⟩
  blocks : ∀ b ∈ trace.map Prod.snd, b.validateStructure = .ok ()
  journals : ∀ k js, l.journals.get? k = some js → ∀ journal ∈ js, journal.Bounded
  counted : ∀ b ∈ trace.map Prod.snd, ∀ js, l.journals.get? b.height = some js →
    js.length = b.journalCount
  complete : ∀ b ∈ trace.map Prod.snd, ∀ k js, l.journals.get? k = some js → k ≤ b.height →
    ∃ js', l.journals.get? b.height = some js'

variable {l l' p : Ledger} {b : Block} {trace : List (Ledger × Block)}

theorem storable_new : Storable (Ledger.new systemApplications) [] where
  registry := ProgramRegistry.valid_empty _
  context := rfl
  blocks _ h := by cases h
  journals _ _ h := by cases h
  counted _ h := by cases h
  complete _ h := by cases h

theorem Storable.of_agrees {m : Ledger} (h : Storable m trace) (hagrees : Agrees l m)
    (hjournals : ∀ k js, l.journals.get? k = some js → ∀ journal ∈ js, journal.Bounded)
    (hcounted : ∀ b ∈ trace.map Prod.snd, ∀ js, l.journals.get? b.height = some js →
      js.length = b.journalCount)
    (hcomplete : ∀ b ∈ trace.map Prod.snd, ∀ k js, l.journals.get? k = some js → k ≤ b.height →
      ∃ js', l.journals.get? b.height = some js') : Storable l trace where
  registry := by
    rw [hagrees.state.programs, hagrees.chain]
    exact h.registry
  context := hagrees.context.trans h.context
  blocks := h.blocks
  journals := hjournals
  counted := hcounted
  complete := hcomplete

theorem Commits.validateStructure (h : Commits l b l') : b.validateStructure = .ok () := by
  rcases h with ⟨hash, h⟩ | h
  · simp only [applyGenesis, bind_eq_ok, mapError_eq_ok] at h
    obtain ⟨_, _, _, hstructure, _⟩ := h
    exact hstructure
  · simp only [applyBlock, validateForApply, bind_eq_ok, mapError_eq_ok] at h
    obtain ⟨_, _, _, ⟨_, hstructure, _⟩, _⟩ := h
    exact hstructure

theorem contextFor_eq {context : ChainContext} (h : Backed l trace) (hs : Storable l trace)
    (hnext : l.chain.validateNextBlock b = .ok ()) (hcontext : l.contextFor b = .ok context) :
    some context = ((b :: trace.map Prod.snd).getLast?).map fun b => ⟨b.hash⟩ := by
  cases h with
  | nil hl hempty =>
    have hnone := (hl.emptyRoot hempty).2
    have hzero := hl.linked.height_zero hnext hempty
    rw [contextFor, hnone, Block.isGenesis, hzero] at hcontext
    cases hcontext
    rfl
  | @cons _ p b' rest hl hlinks hprior =>
    have htip : l.chain.tipHeight ≠ none := by rw [hlinks.chain]; exact Option.some_ne_none _
    rw [hl.context_eq hnext hcontext htip, hs.context]
    rfl

theorem Storable.commit (h : Backed l trace) (hs : Storable l trace) (hcommit : Commits l b l') :
    Storable l' ((l, b) :: trace) := by
  obtain ⟨executed, hexecute, _, _, hnext, rfl⟩ :=
    applyValidatedBlock_eq_ok.mp hcommit.applyValidatedBlock
  have hl := h.consistent
  have hstructure := hcommit.validateStructure
  have hregistry : l.state.programs.Valid b.height := by
    refine hs.registry.mono ?_
    cases htip : l.chain.tipHeight with
    | none => exact Fin.zero_le _
    | some t =>
      have hheight := (hl.linked.next hnext htip).1
      exact Fin.le_def.mpr (by rw [Option.getD_some]; omega)
  obtain ⟨hvalid, hbounded, hlength⟩ :=
    executeBlock_storable hl.applications hl.sound hregistry hstructure hexecute
  have hget : ∀ k, (l.journals.insert b.height executed.journals).get? k =
      if k = b.height then some executed.journals else l.journals.get? k :=
    fun k => get?_insert _ _ k _
  have hlt : ∀ {b'}, b' ∈ trace.map Prod.snd → b'.height < b.height :=
    fun hb => h.height_lt hnext hb
  obtain ⟨_, _, _, hrun⟩ := executeBlock_ok hl.applications hl.sound hexecute
  refine ⟨hvalid, contextFor_eq h hs hnext hrun.context, ?_, ?_, ?_, ?_⟩
  · intro b' hb
    rcases mem_cons.mp hb with rfl | hb
    · exact hstructure
    · exact hs.blocks b' hb
  · intro k js hjs
    rw [hget] at hjs
    split_ifs at hjs
    · cases hjs
      exact hbounded
    · exact hs.journals k js hjs
  · intro b' hb js hjs
    rw [hget] at hjs
    rcases mem_cons.mp hb with rfl | hb
    · rw [if_pos rfl] at hjs
      cases hjs
      exact hlength
    · rw [if_neg (ne_of_lt (hlt hb))] at hjs
      exact hs.counted b' hb js hjs
  · intro b' hb k js hjs hle
    rw [hget] at hjs ⊢
    rcases mem_cons.mp hb with rfl | hb
    · exact ⟨executed.journals, if_pos rfl⟩
    · rw [if_neg (ne_of_lt (hlt hb))]
      rw [if_neg (ne_of_lt (hle.trans_lt (hlt hb)))] at hjs
      exact hs.complete b' hb k js hjs hle

theorem Storable.rollback (h : Backed l ((p, b) :: trace)) (hl : Storable l ((p, b) :: trace))
    (hp : Storable p trace) (hagrees : Agrees l' p)
    (hjournals : l'.journals = l.journals.erase b.height) : Storable l' trace := by
  obtain ⟨hlinks, hprior⟩ := h.uncons
  have hget : ∀ k js,
      l'.journals.get? k = some js ↔ k ≠ b.height ∧ l.journals.get? k = some js := by
    intro k js
    rw [hjournals, get?_erase]
    split_ifs with hk <;> simp [hk]
  have hmem : ∀ {b'}, b' ∈ trace.map Prod.snd → b' ∈ ((p, b) :: trace).map Prod.snd :=
    fun hb => mem_cons_of_mem _ hb
  refine hp.of_agrees hagrees ?_ ?_ ?_
  · intro k js hjs
    exact hl.journals k js ((hget k js).mp hjs).2
  · intro b' hb js hjs
    exact hl.counted b' (hmem hb) js ((hget _ js).mp hjs).2
  · intro b' hb k js hjs hle
    obtain ⟨js', hjs'⟩ := hl.complete b' (hmem hb) k js ((hget k js).mp hjs).2 hle
    exact ⟨js', (hget _ js').mpr ⟨ne_of_lt (hprior.height_lt hlinks.next hb), hjs'⟩⟩

theorem Storable.prune (hs : Storable l trace) (height : Height) :
    Storable (l.pruneRollbackJournalsBefore height) trace := by
  obtain ⟨bound, hbound⟩ : ∃ bound, ∀ k js,
      (l.pruneRollbackJournalsBefore height).journals.get? k = some js ↔
        bound ≤ k ∧ l.journals.get? k = some js := by
    unfold pruneRollbackJournalsBefore
    split <;>
      exact ⟨_, fun k js => by
        rw [get?_retain, Option.filter_eq_some_iff, decide_eq_true_eq, and_comm]⟩
  refine hs.of_agrees ⟨rfl, rfl, .refl _⟩ ?_ ?_ ?_
  · intro k js hjs
    exact hs.journals k js (get?_prune hjs)
  · intro b' hb js hjs
    exact hs.counted b' hb js (get?_prune hjs)
  · intro b' hb k js hjs hle
    obtain ⟨hk, hjs⟩ := (hbound k js).mp hjs
    obtain ⟨js', hjs'⟩ := hs.complete b' hb k js hjs hle
    exact ⟨js', (hbound _ js').mpr ⟨hk.trans hle, hjs'⟩⟩

/-- The ledger and every ledger below it can be stored. -/
def StorableAll : Ledger → List (Ledger × Block) → Prop
  | l, [] => Storable l []
  | l, (p, b) :: trace => Storable l ((p, b) :: trace) ∧ StorableAll p trace

theorem StorableAll.storable (h : StorableAll l trace) : Storable l trace := by
  cases trace with
  | nil => exact h
  | cons e rest => exact h.1

theorem StorableAll.replace (h : StorableAll l trace) (hs : Storable l' trace) :
    StorableAll l' trace := by
  cases trace with
  | nil => exact hs
  | cons e rest => exact ⟨hs, h.2⟩

theorem History.storableAll (h : History l trace) : StorableAll l trace := by
  induction h with
  | new => exact storable_new
  | commit h hcommit ih => exact ⟨ih.storable.commit h.backed hcommit, ih⟩
  | rollback h hrollback ih =>
    obtain ⟨p, rest, rfl, hagrees, hjournals, _⟩ := h.backed.rollbackTip_ok hrollback
    exact ih.2.replace (Storable.rollback h.backed ih.1 ih.2.storable hagrees hjournals)
  | prune _ height ih => exact ih.replace (ih.storable.prune height)

theorem History.storable (h : History l trace) : Storable l trace := h.storableAll.storable

end Ledger

end

end Xparq
