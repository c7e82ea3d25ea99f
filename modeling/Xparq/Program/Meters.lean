import Xparq.Program.Valid

/-!
# The meters of an invocation

Every request of a frame leaves the meters in order (`Spent`): no fuel is gained, no frame is
left or entered for good, the counters stay within their limits, and no program's code changes.
This needs nothing of the installed applications and nothing of the code that runs.

The source's interpreter loop and its nested calls have no bound of their own. `callWithin` runs
them for at most `n` instructions in each frame and `depth` nested levels. The bounds decide
nothing as soon as they exceed the fuel and the depth limit (`callWithin_eq`): every instruction
takes fuel, and every call adds an active frame. So the source's recursion ends.
-/

namespace Xparq

open Machine Outcome OrderedMap Selection RequestTree

/-- All stored values are byte strings that fit in memory. -/
def ProgramRegistry.StorageFits (r : ProgramRegistry) : Prop :=
  ∀ id record, r.programs.get? id = some record → ∀ key value,
    record.storage.get? key = some value →
    value.length < 2 ^ 63

theorem ProgramRegistry.StorageFits.insert {r : ProgramRegistry} (h : r.StorageFits)
    {id : ProgramId} {record : ProgramRecord}
    (hrecord : ∀ key value, record.storage.get? key = some value → value.length < 2 ^ 63) :
    StorageFits { r with programs := r.programs.insert id record } := by
  intro id' record' hget
  rw [get?_insert] at hget
  split_ifs at hget
  · cases hget
    exact hrecord
  · exact h id' record' hget

namespace Engine

variable {e e' e'' : Engine}

/-- What a request may do to the meters, and that it keeps the programs in order. -/
structure Spent (e e' : Engine) : Prop where
  fuel_le : e'.fuel ≤ e.fuel
  active_eq : e'.active = e.active
  calls_mono : e.calls ≤ e'.calls
  calls_le : e.calls ≤ maxCalls → e'.calls ≤ maxCalls
  actions_mono : e.actions ≤ e'.actions
  actions_le : e.actions ≤ maxActions → e'.actions ≤ maxActions
  codeOf_eq : ∀ id, e'.codeOf id = e.codeOf id
  storageFits : e.state.programs.StorageFits → e'.state.programs.StorageFits

theorem Spent.refl (e : Engine) : Spent e e :=
  ⟨le_refl _, rfl, le_refl _, id, le_refl _, id, fun _ => rfl, id⟩

theorem Spent.trans (h : Spent e e') (h' : Spent e' e'') : Spent e e'' where
  fuel_le := h'.fuel_le.trans h.fuel_le
  active_eq := h'.active_eq.trans h.active_eq
  calls_mono := h.calls_mono.trans h'.calls_mono
  calls_le := h'.calls_le ∘ h.calls_le
  actions_mono := h.actions_mono.trans h'.actions_mono
  actions_le := h'.actions_le ∘ h.actions_le
  codeOf_eq id := (h'.codeOf_eq id).trans (h.codeOf_eq id)
  storageFits := h'.storageFits ∘ h.storageFits

theorem Spent.of_eq (hfuel : e'.fuel = e.fuel) (hactive : e'.active = e.active)
    (hcalls : e'.calls = e.calls) (hactions : e'.actions = e.actions)
    (hcode : ∀ id, e'.codeOf id = e.codeOf id)
    (hfits : e.state.programs.StorageFits → e'.state.programs.StorageFits) : Spent e e' where
  fuel_le := hfuel.le
  active_eq := hactive
  calls_mono := hcalls.ge
  calls_le := hcalls.trans_le
  actions_mono := hactions.ge
  actions_le := hactions.trans_le
  codeOf_eq := hcode
  storageFits := hfits

theorem Spent.of_programs_eq (hfuel : e'.fuel = e.fuel) (hactive : e'.active = e.active)
    (hcalls : e'.calls = e.calls) (hactions : e'.actions = e.actions)
    (hprograms : e'.state.programs = e.state.programs) : Spent e e' := by
  refine .of_eq hfuel hactive hcalls hactions (fun id => ?_) (fun h => hprograms.symm ▸ h)
  unfold codeOf
  rw [hprograms]

theorem Refilled.spent (h : Refilled e e') : Spent e e' := by
  obtain ⟨_, _, _, rfl⟩ := h
  exact .of_programs_eq rfl rfl rfl rfl rfl

theorem Charged.spent (h : Charged e e') : Spent e e' := by
  obtain ⟨_, hle, rfl⟩ := h
  exact ⟨hle, rfl, le_refl _, id, le_refl _, id, fun _ => rfl, id⟩

theorem action_spent (h : e.action = .ok e') : Spent e e' := by
  obtain ⟨hactions, rfl⟩ := action_eq_ok.mp h
  exact ⟨le_refl _, rfl, le_refl _, id, Nat.le_succ _, fun _ => hactions, fun _ => rfl, id⟩

theorem charge_eq_ok {n : Nat} :
    e.charge n = .ok e' ↔ n ≤ e.fuel ∧ { e with fuel := e.fuel - n } = e' := by
  unfold charge
  split_ifs with h <;> simp [h]

theorem enter_eq_ok {id : ProgramId} {data : List Byte} {record : ProgramRecord}
    (h : e.enter id data = .ok (record, e')) :
    (data.length ≤ maxDataBytes ∧ e.active.length < maxCallDepth ∧ e.calls < maxCalls) ∧
      id ∉ e.active ∧
      e.state.programs.programs.get? id = some record ∧
      e' = { e with
        calls := e.calls + 1, active := id :: e.active, entered := e.entered ++ [id] } := by
  simp only [enter, Engine.record, ProgramRegistry.program, bind_eq_ok, rejectIf_eq_ok, okOr_eq_ok,
    return_eq_ok, Prod.mk.injEq, not_or, not_le, not_lt] at h
  obtain ⟨_, hlimits, _, hactive, record', hget, rfl, rfl⟩ := h
  exact ⟨hlimits, hactive, hget, rfl⟩

theorem opCost_pos (op : Byte) : 1 ≤ opCost op := by
  unfold opCost
  split <;> decide

/-! ## Requests -/

section
variable [Crypto] {ctx : CallContext} {id : ProgramId}

omit [Crypto] in
theorem setState_spent {value : I64} (h : e.setState id value = .ok e') : Spent e e' := by
  simp only [Engine.setState, exceptMap_eq_ok, okOr_eq_ok, Prod.exists,
    ProgramRegistry.setState_eq_some] at h
  obtain ⟨before, programs, ⟨record, hget, rfl, rfl⟩, rfl⟩ := h
  exact .of_eq rfl rfl rfl rfl (fun _ => codeOf_insert hget rfl) fun hfits =>
    hfits.insert (hfits id record hget)

omit [Crypto] in
theorem storeStorage_spent {key : List Byte} {value : Option (List Byte)}
    (h : e.storeStorage id key value = .ok e') : Spent e e' := by
  simp only [storeStorage, bind_eq_ok, orError_eq_ok, Engine.record, okOr_eq_ok,
    ProgramRegistry.program, ProgramRegistry.setStorage_eq_ok, return_eq_ok, rejectIf_eq_ok,
      Bool.not_eq_false] at h
  obtain ⟨_, _, _, ⟨record, hget, rfl⟩, written, hwritten, _, hvalid, rfl⟩ := h
  rw [get?_insert_self] at hwritten
  cases hwritten
  refine .of_eq rfl rfl rfl rfl (fun _ => codeOf_insert hget rfl) fun hfits =>
    hfits.insert fun key value hvalue => ?_
  -- what is left in the storage passed the check of its sizes
  obtain ⟨_, hvalues, _⟩ := validStorage_iff.mp hvalid
  exact (hvalues key value hvalue).2.2.trans_lt (by decide)

variable {result : ExecutionResult} {outputs : List AssetOutput} {env : FrameEnv}
  {limits : ValidatedCode} {decoded : OrderedMap Nat Instruction} {head : Nat × Stack}
  {next : (Nat × Stack) ⊕ U128} {m : Nat}

theorem settleWithInputs_programs {s s' : LedgerState} {commitment : AuthorizationCommitment}
    {apps : ApplicationExecutor} {selected : Option (List CoinShare)} {coin : CoinRollbackJournal}
    {journal : Option AssetJournal}
    (h : settleWithInputs s id result commitment apps selected = .ok (coin, journal, s')) :
    s'.programs = s.programs := by
  simp only [settleWithInputs, settleAsset, bind_eq_ok, Prod.exists, return_eq_ok,
    Prod.mk.injEq] at h
  obtain ⟨_, s₁, hcoin, _, _, ⟨_, _, _, _, _, _, _, _, _, _, _, rfl⟩, _, _, rfl⟩ := h
  unfold settleCoin at hcoin
  split at hcoin
  · cases hcoin
    rfl
  · simp only [bind_eq_ok, Prod.exists, return_eq_ok, Prod.mk.injEq] at hcoin
    obtain ⟨_, _, _, _, _, _, _, _, _, _, _, _, _, _, rfl⟩ := hcoin
    rfl

theorem settle_spent {legacyRoot : Bool}
    (h : e.settle ctx id result legacyRoot = .ok e') : Spent e e' := by
  simp only [settle, bind_eq_ok, Prod.exists, orError_eq_ok] at h
  obtain ⟨e₁, hensure, selected, e₂, hselect, e₃, haction, coin, asset, state, hsettle,
    e₄, hconsumed, e₅, hcreated, hmerge⟩ := h
  have hstate : Spent e₃ { e₃ with state } :=
    .of_programs_eq rfl rfl rfl rfl (settleWithInputs_programs hsettle)
  have hnotes := settleNotes_refilled hconsumed hcreated hmerge
  have hbefore : Spent e e₃ := ((ensureAccounts_refilled hensure).spent.trans
    (selectCoins_charged hselect).spent).trans (action_spent haction)
  refine (hbefore.trans hstate).trans (Spent.trans ?_ hnotes.spent)
  exact .of_programs_eq rfl rfl rfl rfl rfl

theorem applyAsset_spent {call : AssetCall} {commitment : Hash}
    (h : e.applyAsset ctx id call commitment = .ok e') : Spent e e' := by
  simp only [applyAsset, bind_eq_ok, Prod.exists, orError_eq_ok] at h
  obtain ⟨journal, assets, _, hmerge⟩ := h
  refine Spent.trans ?_ (mergeAsset_refilled hmerge).spent
  exact .of_programs_eq rfl rfl rfl rfl rfl

variable {callee : Callee} {asset : AssetContract} {record : ProgramRecord} {data : List Byte}
  {value : U128} {n : Nat}

theorem transferAssetOutputs_spent {multiple : Bool}
    (h : e.transferAssetOutputs ctx id asset outputs multiple = .ok e') : Spent e e' := by
  simp only [transferAssetOutputs, bind_eq_ok, Prod.exists] at h
  obtain ⟨e₁, hensure, _, _, _, _, e₂, haction, _, _, e₃, hselect, _, _, happly⟩ := h
  exact ((ensureAccounts_refilled hensure).spent.trans (action_spent haction)).trans
    ((selectShares_charged hselect).spent.trans (applyAsset_spent happly))

theorem transferAssetMany_spent (h : e.transferAssetMany ctx id asset outputs = .ok e') :
    Spent e e' := by
  simp only [transferAssetMany, bind_eq_ok] at h
  obtain ⟨_, _, e₁, hcharge, htransfer⟩ := h
  exact (charge_charged hcharge).spent.trans (transferAssetOutputs_spent htransfer)

theorem burnAsset_spent {amount : Units} (h : e.burnAsset ctx id asset amount = .ok e') :
    Spent e e' := by
  simp only [burnAsset, bind_eq_ok, Prod.exists] at h
  obtain ⟨e₁, hensure, _, _, e₂, haction, _, _, e₃, hselect, happly⟩ := h
  exact ((ensureAccounts_refilled hensure).spent.trans (action_spent haction)).trans
    ((selectShares_charged hselect).spent.trans (applyAsset_spent happly))

/-- A way to execute nested calls that only spends. -/
def Spending (callee : Callee) : Prop :=
  ∀ target caller input deposit e value e', callee target caller input deposit e = .ok (value, e') →
    Spent e e'

theorem handle_spent (hcallee : Spending callee) (r : FrameRequest) (e : Engine) (x : r.Answer)
    (e' : Engine) (h : handle ctx callee id r e = .ok (x, e')) : Spent e e' := by
  cases r with
  | charge n => exact (charge_charged (answered_eq_ok.mp h)).spent
  | action => exact action_spent (answered_eq_ok.mp h)
  | setState value => exact setState_spent (answered_eq_ok.mp h)
  | storeStorage key value => exact storeStorage_spent (answered_eq_ok.mp h)
  | ensureAccounts => exact (ensureAccounts_refilled (answered_eq_ok.mp h)).spent
  | settle result => exact settle_spent (answered_eq_ok.mp h)
  | transferAsset asset recipient amount => exact transferAssetOutputs_spent (answered_eq_ok.mp h)
  | transferAssetMany asset outputs => exact transferAssetMany_spent (answered_eq_ok.mp h)
  | burnAsset asset amount => exact burnAsset_spent (answered_eq_ok.mp h)
  | call target input deposit => exact hcallee _ _ _ _ _ _ _ h
  | stateValue | loadStorage key | owner =>
    obtain ⟨record, _, hpair⟩ := exceptMap_eq_ok.mp h
    cases hpair
    exact .refl e
  | assetBalance asset | coinBalance =>
    cases h
    exact .refl e

theorem runLegacy_ok (h : e.runLegacy ctx id record data = .ok (value, e')) :
    ∃ result e₁, executeCodeWithState record.code record.stateValue e.fuel = .ok result ∧
      e.charge result.fuelUsed = .ok e₁ ∧ Spent e₁ e' := by
  simp only [runLegacy, bind_eq_ok, return_eq_ok, Prod.mk.injEq] at h
  obtain ⟨_, _, result, hexecute, e₁, hcharge, e₂, hsettle, e₃, hset, _, rfl⟩ := h
  have h₂ : Spent e₁ e₂ := by
    unfold settleProposal at hsettle
    split_ifs at hsettle
    · exact settle_spent hsettle
    · cases hsettle
      exact .refl e₁
  have h₃ : Spent e₂ e₃ := by
    unfold setProposed at hset
    split at hset
    · exact setState_spent hset
    · cases hset
      exact .refl e₂
  exact ⟨result, e₁, hexecute, hcharge, h₂.trans h₃⟩

theorem runLegacy_spent (h : e.runLegacy ctx id record data = .ok (value, e')) : Spent e e' := by
  obtain ⟨_, _, _, hcharge, hspent⟩ := runLegacy_ok h
  exact (charge_charged hcharge).spent.trans hspent

/-! ## Bounded runs -/

/-- `interpret` for at most `n` instructions. -/
def interpretWithin (n : Nat) (env : FrameEnv) (code : List Byte) : Frame U128 := do
  let limits ← RequestTree.lift ((validateCode code).mapError .invalidCode)
  let decoded ← RequestTree.lift ((instructions code).mapError .invalidCode)
  ask (.charge (limits.memoryPages * memoryPageCost))
  interpretLoop env limits decoded n headerLen []

/-- `runEntered`, with the bound of the frame. -/
def runEnteredWithin (ctx : CallContext) (n : Nat) (callee : Callee) (id : ProgramId)
    (caller : Owner) (data : List Byte) (deposit : U64) (record : ProgramRecord) (e : Engine) :
    Except ExecutionError (U128 × Engine) :=
  if record.code[4]? ≠ some applicationVersion then e.runLegacy ctx id record data
  else (interpretWithin n ⟨id, caller, ctx.signer, ctx.height, data, deposit⟩ record.code).run
    (handle ctx callee id) e

/-- `Engine::call` for at most `n` instructions in each frame and the given number of levels. -/
def callWithin (ctx : CallContext) (n : Nat) : Nat → Callee
  | 0, _, _, _, _, _ => .error .resourceLimit
  | depth + 1, id, caller, data, deposit, e => do
      let (record, e) ← e.enter id data
      let (value, e) ← e.runEnteredWithin ctx n (callWithin ctx n depth) id caller
        data deposit record
      return (value, { e with active := e.active.tail })

theorem callWithin_maxCallFuel (ctx : CallContext) (depth : Nat) :
    callWithin ctx (maxCallFuel + 1) depth = call ctx depth := by
  induction depth with
  | zero => rfl
  | succ depth ih =>
    funext id caller data deposit e
    rw [callWithin, ih]
    rfl

theorem runEnteredWithin_spent (hcallee : Spending callee) {caller : Owner} {deposit : U64}
    (h : e.runEnteredWithin ctx n callee id caller data deposit record = .ok (value, e')) :
    Spent e e' := by
  unfold runEnteredWithin at h
  split_ifs at h
  · exact runLegacy_spent h
  · exact run_rel Spent.refl (fun _ _ _ => Spent.trans) (handle_spent hcallee) h

/-- By induction on the depth: a call never gains fuel and leaves the frames as it found them. -/
theorem callWithin_spending (n depth : Nat) : Spending (callWithin ctx n depth) := by
  induction depth with
  | zero =>
    intro id caller data deposit e value e' h
    cases h
  | succ depth ih =>
    intro id caller data deposit e value e' h
    simp only [callWithin, bind_eq_ok, Prod.exists, return_eq_ok, Prod.mk.injEq] at h
    obtain ⟨record, e₁, henter, _, e₂, hrun, _, rfl⟩ := h
    obtain ⟨⟨_, _, hcalls⟩, _, _, rfl⟩ := enter_eq_ok henter
    have hspent := runEnteredWithin_spent ih hrun
    exact {
      fuel_le := hspent.fuel_le
      active_eq := congrArg List.tail hspent.active_eq
      calls_mono := (Nat.le_succ _).trans hspent.calls_mono
      calls_le := fun _ => hspent.calls_le hcalls
      actions_mono := hspent.actions_mono
      actions_le := hspent.actions_le
      codeOf_eq := hspent.codeOf_eq
      storageFits := hspent.storageFits }

/-! ## The bounds decide nothing -/

omit [Crypto] in
theorem run_charge_bind {α : Type} (h : RequestTree.Handler FrameHost ExecutionError Engine)
    (n : Nat) (f : Unit → Frame α) (e : Engine) :
    RequestTree.run h ((ask (.charge n) : Frame Unit) >>= f) e =
      (h (FrameRequest.charge n) e >>= fun p => RequestTree.run h (f p.1) p.2) := by
  refine (run_bind h (ask (.charge n)) f e).trans ?_
  rw [ask, run_request]

/-- Where the loop goes on after an instruction, or the result. -/
def resume (limits : ValidatedCode) (i : Instruction) :
    Flow → Except ExecutionError ((Nat × Stack) ⊕ U128)
  | .finish value => .ok (.inr value)
  | .next stack => (checkStack limits stack).map fun _ => .inl (i.next, stack)
  | .jump pc stack => (checkStack limits stack).map fun _ => .inl (pc, stack)

/-- One round of the interpreter loop. -/
def interpretRound (env : FrameEnv) (limits : ValidatedCode) (decoded : OrderedMap Nat Instruction)
    (head : Nat × Stack) : Frame ((Nat × Stack) ⊕ U128) := do
  let i ← RequestTree.lift (okOr (decoded.get? head.1) .invalidOperand)
  ask (.charge (opCost i.op))
  let flow ← execInstruction env i head.2
  RequestTree.lift (resume limits i flow)

section
variable (h : RequestTree.Handler FrameHost ExecutionError Engine) (env : FrameEnv)

theorem run_interpretRound (limits : ValidatedCode) (decoded : OrderedMap Nat Instruction)
    (head : Nat × Stack) (e : Engine) : (interpretRound env limits decoded head).run h e =
      (okOr (decoded.get? head.1) .invalidOperand >>= fun i =>
        h (FrameRequest.charge (opCost i.op)) e >>= fun p =>
          (execInstruction env i head.2).run h p.2 >>= fun q =>
            (resume limits i q.1).map fun next => (next, q.2)) := by
  rw [interpretRound, run_lift_bind]
  refine bind_congr_ok fun i _ => (run_charge_bind h _ _ _).trans (bind_congr_ok fun paid _ => ?_)
  rw [run_bind]
  exact bind_congr_ok fun flow _ => run_lift h _ _

theorem run_interpretWithin (n : Nat) (code : List Byte) (e : Engine) :
    (interpretWithin n env code).run h e =
      ((validateCode code).mapError .invalidCode >>= fun limits => (instructions code).mapError
      .invalidCode >>=
        fun decoded => h (FrameRequest.charge (limits.memoryPages * memoryPageCost)) e >>= fun p =>
          (interpretLoop env limits decoded n headerLen []).run h p.2) := by
  rw [interpretWithin, run_lift_bind]
  refine bind_congr_ok fun limits _ => ?_
  rw [run_lift_bind]
  exact bind_congr_ok fun decoded _ => run_charge_bind h _ _ _

theorem run_interpretLoop (limits : ValidatedCode) (decoded : OrderedMap Nat Instruction)
    (n pc : Nat) (stack : Stack) (e : Engine) :
    (interpretLoop env limits decoded n pc stack).run h e =
      ((RequestTree.rounds (interpretRound env limits decoded) n (pc, stack)).run h e >>= fun p =>
        (okOr p.1 .outOfFuel).map fun value => (value, p.2)) := by
  induction n generalizing pc stack e with
  | zero => rfl
  | succ n ih =>
    rw [run_rounds_succ, run_interpretRound, interpretLoop, run_lift_bind]
    simp only [bind_assoc]
    refine bind_congr_ok fun i _ => (run_charge_bind h _ _ _).trans (bind_congr_ok fun paid _ => ?_)
    rw [run_bind]
    refine bind_congr_ok fun flow _ => ?_
    obtain ⟨stack | ⟨pc, stack⟩ | value, e⟩ := flow
    · rw [run_lift_bind, resume]
      cases checkStack limits stack with
      | error err => rfl
      | ok u => exact ih i.next stack e
    · rw [run_lift_bind, resume]
      cases checkStack limits stack with
      | error err => rfl
      | ok u => exact ih pc stack e
    · rfl

end

theorem interpretRound_ok
    (h : (interpretRound env limits decoded head).run (handle ctx callee id) e = .ok (next, e')) :
    ∃ i e₁ flow, decoded.get? head.1 = some i ∧ e.charge (opCost i.op) = .ok e₁ ∧
      (execInstruction env i head.2).run (handle ctx callee id) e₁ = .ok (flow, e') ∧
      resume limits i flow = .ok next := by
  rw [run_interpretRound] at h
  simp only [bind_eq_ok, okOr_eq_ok, exceptMap_eq_ok, Prod.mk.injEq, Prod.exists] at h
  obtain ⟨i, hget, u, e₁, hcharge, flow, e₂, hexec, next', hresume, rfl, rfl⟩ := h
  exact ⟨i, e₁, flow, hget, answered_eq_ok.mp hcharge, hexec, hresume⟩

theorem interpretRound_fuel_lt (hcallee : Spending callee)
    (h : (interpretRound env limits decoded head).run (handle ctx callee id) e = .ok (next, e')) :
    e'.fuel < e.fuel := by
  obtain ⟨i, e₁, flow, _, hcharge, hexec, _⟩ := interpretRound_ok h
  obtain ⟨hle, rfl⟩ := charge_eq_ok.mp hcharge
  have hrun :=
    run_rel Spent.refl (fun _ _ _ => Spent.trans) (handle_spent hcallee) hexec
  have hpos := opCost_pos i.op
  have hfuel : e'.fuel ≤ e.fuel - opCost i.op := hrun.fuel_le
  omega

theorem run_interpretWithin_eq (hcallee : Spending callee) (env : FrameEnv) (code : List Byte)
    (hn : e.fuel < n) (hm : e.fuel < m) :
    (interpretWithin n env code).run (handle ctx callee id) e =
      (interpretWithin m env code).run (handle ctx callee id) e := by
  rw [run_interpretWithin, run_interpretWithin]
  refine bind_congr_ok fun limits _ => bind_congr_ok fun decoded _ =>
    bind_congr_ok fun paid hpaid => ?_
  have hfuel := (charge_charged (answered_eq_ok.mp hpaid)).spent.fuel_le
  rw [run_interpretLoop, run_interpretLoop, run_rounds_eq Engine.fuel
    (fun _ _ _ _ hround => interpretRound_fuel_lt hcallee hround) (hfuel.trans_lt hn)
      (hfuel.trans_lt hm)]

theorem run_handle_congr {callee' : Callee} (hcallee : Spending callee)
    (hsame : ∀ target caller input deposit a, a.fuel ≤ e.fuel → a.active = e.active →
      callee target caller input deposit a = callee' target caller input deposit a)
    (t : Frame U128) : t.run (handle ctx callee id) e = t.run (handle ctx callee' id) e := by
  refine run_congr (fun a => a.fuel ≤ e.fuel ∧ a.active = e.active) ?_ ?_ t
    ⟨le_refl _, rfl⟩
  · rintro r a ⟨hfuel, hactive⟩
    cases r with
    | call target input deposit => exact hsame target (.program id) input deposit a hfuel hactive
    | _ => rfl
  · rintro r a x a' ⟨hfuel, hactive⟩ hanswer
    have hspent := handle_spent hcallee r a x a' hanswer
    exact ⟨hspent.fuel_le.trans hfuel, hspent.active_eq.trans hactive⟩

theorem callWithin_refused (n depth : Nat) (id : ProgramId) (caller : Owner) (data : List Byte)
    (deposit : U64) (hfull : maxCallDepth ≤ e.active.length) :
    callWithin ctx n depth id caller data deposit e = .error .resourceLimit := by
  cases depth with
  | zero => rfl
  | succ depth =>
    have henter : e.enter id data = .error .resourceLimit := by
      rw [enter, rejectIf, if_pos (.inr (.inl hfull))]
      rfl
    rw [callWithin, henter]
    rfl

/-- The bounds of a call decide nothing if there are more rounds than fuel and enough levels for the
frames that may still be entered. -/
theorem callWithin_eq (ctx : CallContext) (e : Engine) {depth depth' : Nat} (id : ProgramId)
    (caller : Owner) (data : List Byte) (deposit : U64) (hn : e.fuel < n) (hm : e.fuel < m)
    (hdepth : maxCallDepth ≤ depth + e.active.length)
    (hdepth' : maxCallDepth ≤ depth' + e.active.length) :
    callWithin ctx n depth id caller data deposit e = callWithin ctx m depth' id caller
      data deposit e := by
  induction depth generalizing depth' id caller data deposit e with
  | zero =>
    rw [Nat.zero_add] at hdepth
    rw [callWithin_refused _ _ _ _ _ _ hdepth, callWithin_refused _ _ _ _ _ _ hdepth]
  | succ depth ih =>
    cases depth' with
    | zero =>
      rw [Nat.zero_add] at hdepth'
      rw [callWithin_refused _ _ _ _ _ _ hdepth', callWithin_refused _ _ _ _ _ _ hdepth']
    | succ depth' =>
      rw [callWithin, callWithin]
      refine bind_congr_ok fun entered henter => ?_
      obtain ⟨record, e₁⟩ := entered
      obtain ⟨_, _, _, he₁⟩ := enter_eq_ok henter
      have hfuel : e₁.fuel = e.fuel := by rw [he₁]
      have hlength : e₁.active.length = e.active.length + 1 := by rw [he₁]; rfl
      have hframe : e₁.runEnteredWithin ctx n (callWithin ctx n depth) id caller data
          deposit record =
          e₁.runEnteredWithin ctx m (callWithin ctx m depth') id caller data deposit record := by
        unfold runEnteredWithin
        split_ifs
        · rfl
        · refine (run_interpretWithin_eq (callWithin_spending n depth) _ _ (hfuel.trans_lt hn)
            (hfuel.trans_lt hm)).trans (run_handle_congr (callWithin_spending n depth) ?_ _)
          intro target caller input deposit a hle hactive
          have hlevel := congrArg List.length hactive
          exact ih a target caller input deposit (by omega) (by omega) (by omega) (by omega)
      dsimp only
      rw [hframe]

end

end Engine

/-- `applyVm` with the bounds as parameters. -/
def applyVmWithin [Crypto] (n depth : Nat) (state : LedgerState) (tx : AuthorizedProgramInvocation)
    (height : U64) (commitment : AuthorizationCommitment) (apps : ApplicationExecutor) :
    Except ExecutionError (AppliedVm × LedgerState) := do
  let (id, data) ← orError (callInput tx.call) .invalidOperand
  let deposit ← depositOf tx.payment id
  let (value, e) ← Engine.callWithin ⟨apps, tx.signer, height, commitment⟩ n depth id
    (.program tx.signer) data deposit (.start state)
  let applied ← e.report value
  return (applied, e.state)

theorem applyVmWithin_eq [Crypto] {n depth : Nat} (hn : maxCallFuel < n)
    (hdepth : maxCallDepth ≤ depth) (state : LedgerState) (tx : AuthorizedProgramInvocation)
    (height : U64) (commitment : AuthorizationCommitment) (apps : ApplicationExecutor) :
    applyVmWithin n depth state tx height commitment apps =
      applyVm state tx height commitment apps := by
  unfold applyVmWithin applyVm
  refine bind_congr_ok fun input _ => bind_congr_ok fun deposit _ => ?_
  have hcall := Engine.callWithin_eq ⟨apps, tx.signer, height, commitment⟩ (.start state) input.1
    (.program tx.signer) input.2 deposit hn (Nat.lt_succ_self maxCallFuel) hdepth
      (Nat.le_succ maxCallDepth)
  rw [hcall, Engine.callWithin_maxCallFuel]

end Xparq
