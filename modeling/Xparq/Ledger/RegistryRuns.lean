import Xparq.Ledger.StateCodec

/-!
# Runs of the program registry

A registry changes when a program is deployed and when an invocation writes scalar state and
storage; both leave a journal, and journals are rolled back last first. It may be encoded and
decoded at any time, which loses the deployment lookup. `RegistryRun.passes_audit` says that every
registry reached in this way passes its own audit, and so does every intermediate registry of an
invocation.
-/

namespace Xparq

open Machine Outcome OrderedMap

section
variable [Crypto]

/-- A registry, the height of the tip, and what can be rolled back, with the tips before: the last
change comes first. A block without a change of the registry has no journal. -/
inductive RegistryRun : ProgramRegistry → Height → List (Option ProgramJournal × Height) → Prop
  | empty (tip : Height) : RegistryRun .empty tip []
  | block {r : ProgramRegistry} {tip tip' : Height} {undo : List (Option ProgramJournal × Height)}
      (h : RegistryRun r tip undo) (hle : tip ≤ tip') : RegistryRun r tip' ((none, tip) :: undo)
  | deploy {r r' : ProgramRegistry} {tip height : Height}
      {undo : List (Option ProgramJournal × Height)} {program : DeployProgram} {id : ProgramId}
      {journal : ProgramJournal} (h : RegistryRun r tip undo) (hle : tip ≤ height)
      (hdeploy : deployProgram r program height = .ok (id, journal, r')) :
      RegistryRun r' height ((some journal, tip) :: undo)
  | call {s s' : LedgerState} {tip height : Height} {undo : List (Option ProgramJournal × Height)}
      {tx : AuthorizedProgramInvocation} {commitment : AuthorizationCommitment}
      {applied : AppliedVm} (h : RegistryRun s.programs tip undo) (hle : tip ≤ height)
      (hcall : applyVm s tx height commitment systemApplications = .ok (applied, s')) :
      RegistryRun s'.programs height ((applied.program, tip) :: undo)
  | rollback {r r' : ProgramRegistry} {tip tip' : Height} {journal : Option ProgramJournal}
      {undo : List (Option ProgramJournal × Height)}
      (h : RegistryRun r tip ((journal, tip') :: undo))
      (hroll : ProgramUndoes journal r r') : RegistryRun r' tip' undo
  | decode {r r' : ProgramRegistry} {tip : Height} {undo : List (Option ProgramJournal × Height)}
      {bytes rest rest' : List Byte} (h : RegistryRun r tip undo) (hbytes : r.encode = some bytes)
      (hread : readProgramRegistry (bytes ++ rest) = some (r', rest')) : RegistryRun r' tip undo

/-! ## Invocations -/

namespace Engine

variable {ctx : CallContext} {start : ProgramRegistry} {e e' : Engine}

theorem Steps.programs_undo (hsteps : Steps ctx e e')
    (h : ProgramRegistry.Undoes e.states e.storage e.state.programs start) :
    ProgramRegistry.Undoes e'.states e'.storage e'.state.programs start := by
  induction hsteps with
  | refl => exact h
  | tail _ hstep ih =>
    cases hstep with
    | cached hcached =>
      obtain ⟨_, _, _, _, rfl⟩ := hcached
      exact ih
    | action _ | enter _ _ | leave | coin _ _ _ _ _ | asset _ _ _ => exact ih
    | setState _ hget value => exact ih.setState hget value
    | @store _ _ _ hget _ key _ _ value _ => exact ih.setStorage hget key value

end Engine

theorem applyVm_programs {s s' : LedgerState} {tx : AuthorizedProgramInvocation} {height : U64}
    {tip : Height} {commitment : AuthorizationCommitment} {applied : AppliedVm}
    (hvalid : s.programs.Valid tip)
    (h : applyVm s tx height commitment systemApplications = .ok (applied, s')) :
    s'.programs.Valid tip ∧ ProgramUndoes applied.program s'.programs s.programs := by
  obtain ⟨e, value, hsteps, hreport, rfl⟩ := Engine.applyVm_steps h
  simp only [Engine.report, bind_eq_ok, return_eq_ok] at hreport
  obtain ⟨_, _, _, _, rfl⟩ := hreport
  have hundo : ProgramRegistry.Undoes e.states e.storage e.state.programs s.programs :=
    hsteps.programs_undo (.refl _)
  exact ⟨hsteps.programs_valid hvalid, Engine.programJournal_undoes hundo⟩

/-! ## Runs -/

omit [Crypto] in
theorem ProgramUndoes.unique {journal : Option ProgramJournal} {now r r' : ProgramRegistry}
    (h : ProgramUndoes journal now r) (h' : ProgramUndoes journal now r') : r = r' := by
  cases journal with
  | none => exact h.symm.trans h'
  | some program => exact Except.ok.inj (h.symm.trans h')

omit [Crypto] in
/-- A journal leads back to a registry that was valid at its tip. -/
def LeftValid (e : Option ProgramJournal × Height) (now before : ProgramRegistry) : Prop :=
  ProgramUndoes e.1 now before ∧ before.Valid e.2

/-- One case for each transition. The undo list leads back through valid registries, which is what a
rollback needs. -/
theorem RegistryRun.valid {r : ProgramRegistry} {tip : Height}
    {undo : List (Option ProgramJournal × Height)} (h : RegistryRun r tip undo) :
    r.Valid tip ∧ UndoLog.LeadsBack LeftValid r undo := by
  induction h with
  | empty tip => exact ⟨ProgramRegistry.valid_empty tip, .nil _⟩
  | block _ hle ih => exact ⟨ih.1.mono hle, .cons ⟨rfl, ih.1⟩ ih.2⟩
  | deploy _ hle hdeploy ih =>
    obtain ⟨hvalid, hundo⟩ := ih
    refine ⟨?_, .cons ⟨deployProgram_undoes hdeploy, hvalid⟩ hundo⟩
    obtain ⟨record, hprepare, hfree, hunused, _, rfl⟩ := deployProgram_ok hdeploy
    obtain ⟨hrecord, hheight⟩ := ProgramRegistry.validateRecord_of_prepareDeployment hprepare
    exact (hvalid.mono hle).insert hrecord hheight.le hfree hunused
  | call _ hle hcall ih =>
    obtain ⟨hvalid, hundo⟩ := ih
    obtain ⟨hvalid', hjournal⟩ := applyVm_programs hvalid hcall
    exact ⟨hvalid'.mono hle, .cons ⟨hjournal, hvalid⟩ hundo⟩
  | rollback _ hroll ih =>
    obtain ⟨_, hundo⟩ := ih
    cases hundo with
    | cons hleft hrest =>
      obtain rfl := hleft.1.unique hroll
      exact ⟨hleft.2, hrest⟩
  | @decode r r' tip undo bytes rest rest' _ hbytes hread ih =>
    obtain ⟨hvalid, hundo⟩ := ih
    rw [readProgramRegistry_accepts tip r bytes rest ⟨hbytes, hvalid⟩] at hread
    cases hread
    exact ⟨hvalid, hundo⟩

/-- Every registry of a run passes its audit, and so does every intermediate registry of an
invocation that starts from it. -/
theorem RegistryRun.passes_audit {r : ProgramRegistry} {tip : Height}
    {undo : List (Option ProgramJournal × Height)} (h : RegistryRun r tip undo) :
    r.validate tip = .ok () ∧ r.Valid tip ∧
      ∀ {s : LedgerState} {ctx : CallContext} {e : Engine}, s.programs = r →
      Engine.Steps ctx (.start s) e →
        e.state.programs.validate tip = .ok () := by
  have hvalid := h.valid.1
  refine ⟨hvalid.validate, hvalid, ?_⟩
  rintro s ctx e rfl hsteps
  exact (hsteps.programs_valid hvalid).validate

end

section Sample

attribute [local instance] Crypto.checksum

/-- A program that sets its state to seven and returns one. -/
def storingCode : List Byte :=
  magic ++ [4, 1, 0, 1, 0, 0, 0, 0, 0, 0x01] ++ leBytes 16 7 ++ [0x05, 0x01] ++ leBytes 16 1 ++
    [0x03]

def callOfProgram (id : ProgramId) : AuthorizedProgramInvocation :=
  ⟨2, ⟨.vm, 0, id.bytes⟩, ⟨0, [1], [], ⟨1⟩⟩, ⟨0, ⟨.mlDsa44, []⟩, ⟨.mlDsa44, []⟩⟩⟩

/-- The registries of a short run and what the last of them is encoded as. -/
structure SampleRegistry where
  deployed : ProgramRegistry
  called : ProgramRegistry
  bytes : List Byte
  restored : ProgramRegistry
  start : ProgramRegistry

/-- A deployment, a call that writes, and both rolled back. -/
def sampleRegistry : Except Unit SampleRegistry := do
  let (id, deployment, deployed) ← orError (deployProgram .empty ⟨2, 0, storingCode⟩ 1) ()
  let (applied, s) ← orError (applyVm { LedgerState.empty with programs := deployed }
    (callOfProgram id) 2 0
    systemApplications) ()
  let bytes ← okOr s.programs.encode ()
  let write ← okOr applied.program ()
  let restored ← orError (rollbackProgram s.programs write) ()
  let start ← orError (rollbackProgram restored deployment) ()
  return ⟨deployed, s.programs, bytes, restored, start⟩

/-- Between the call and the rollbacks the registry is encoded and decoded. -/
theorem sample_registryRun :
    ∃ sample decoded, sampleRegistry = .ok sample ∧ sample.called ≠ sample.deployed ∧
    readProgramRegistry (sample.bytes ++ []) = some (decoded, []) ∧ decoded.validate 2 = .ok () ∧
    sample.restored.validate 1 = .ok () ∧ sample.start.validate 0 = .ok () := by
  have hok : (sampleRegistry.toOption.any fun sample => decide (sample.called ≠ sample.deployed)) =
      true := by
    decide +kernel
  obtain ⟨sample, hsample, hok⟩ := exists_of_any hok
  have hwritten : sample.called ≠ sample.deployed := of_decide_eq_true hok
  have hrun := hsample
  simp only [sampleRegistry, bind_eq_ok, Prod.exists, orError_eq_ok, okOr_eq_ok, return_eq_ok]
    at hrun
  obtain ⟨id, deployment, deployed, hdeploy, applied, s, hcall, bytes, hbytes, write, hwrite,
    restored, hrestored, start, hstart, rfl⟩ := hrun
  have hrun : RegistryRun s.programs 2 [(applied.program, 1), (some deployment, 0)] :=
    .call (s := { LedgerState.empty with programs := deployed })
      (.deploy (.empty 0) (by decide) hdeploy) (by decide)
      hcall
  have hread := readProgramRegistry_accepts 2 s.programs bytes [] ⟨hbytes, hrun.valid.1⟩
  have hdecoded := hrun.decode hbytes hread
  rw [hwrite] at hdecoded
  have hback : RegistryRun restored 1 [(some deployment, 0)] := .rollback hdecoded hrestored
  exact ⟨_, _, hsample, hwritten, hread, (RegistryRun.passes_audit hdecoded).1,
    (RegistryRun.passes_audit hback).1, (RegistryRun.passes_audit (.rollback hback hstart)).1⟩

end Sample

end Xparq
