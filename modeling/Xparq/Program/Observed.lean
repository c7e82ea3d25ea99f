import Xparq.Program.Meters
import Xparq.Program.Scalar
import Xparq.Program.Frames

/-!
# What is seen of an invocation

`callEvents` lists what happens during a call, nested calls included, also when the call fails:
frames are entered and left, the interpreter loop stands at an offset with a stack, instructions
are executed. Where the source would panic (a failed `unwrap` or `expect`, an index out of range,
a sum that overflows) the list says so.

Two things are proved about it. What is executed and entered is paid for, out of the shared fuel
and the shared number of calls (`callEvents_paying`). And at every event the limits hold, the offset
is an instruction boundary or the end of the code, and nothing panics (`callEvents_sound`).
-/

namespace Xparq

open Machine Outcome OrderedMap List RequestTree

inductive VmEvent
  /-- A frame was entered. -/
  | entered (e : Engine)
  /-- The interpreter loop stands at an offset of application code. -/
  | looped (code : List Byte) (limits : ValidatedCode) (pc : Nat) (stack : Stack) (e : Engine)
  /-- An instruction of application code was paid for and is executed. -/
  | executed (i : Instruction) (e : Engine)
  /-- An instruction of scalar code is executed. -/
  | scalar (code : List Byte) (limits : ValidatedCode) (opcode : Byte) (stack : List I64)
  /-- The source panics. -/
  | panicked
  /-- A frame was left. -/
  | returned (e : Engine)

/-- A panic on a condition. -/
def panicIf (c : Bool) : List VmEvent := if c then [.panicked] else []

/-- Where the interpreter unwraps an immediate. -/
def Instruction.panics (i : Instruction) : Bool :=
  match i.op.val with
  | 0x01 => i.immediate.length ≠ 16
  | 0x11 => (Owner.ofSlice i.immediate).isNone
  | 0x20 | 0x21 => i.immediate.length ≠ 4
  | _ => false

/-- Where the interpreter unwraps the record of the executing program, or adds up a charge. -/
def FrameRequest.panics (id : ProgramId) (e : Engine) : FrameRequest → Bool
  | .charge n => 2 ^ 64 ≤ n
  | .stateValue | .setState _ | .loadStorage _ | .storeStorage _ _ | .owner =>
    (e.state.programs.program id).isNone
  | _ => false

/-- Where the interpreter adds up the size of the stack. -/
def Flow.panics : Flow → Bool
  | .next stack | .jump _ stack => 2 ^ 64 ≤ stackSize stack
  | .finish _ => false

/-- What is seen of scalar code: its instructions, and the panic where it relies on the check in
vain. -/
def scalarEvents (code : List Byte) (limits : ValidatedCode) (n : Nat) (frame : ScalarFrame)
    (body : List Byte) : List VmEvent :=
  (scalarTrace n frame body).map (fun p => .scalar code limits p.1 p.2) ++
    match scalarRun n frame body with
    | .error .invalidOperand => [.panicked]
    | _ => []

namespace Engine

/-- What is seen of a nested call. -/
abbrev CalleeEvents := ProgramId → Owner → List Byte → U64 → Engine → List VmEvent

/-- What is seen of a request. -/
def look (calleeEvents : CalleeEvents) (id : ProgramId) : FrameRequest → Engine → List VmEvent
  | .call target input deposit, e => calleeEvents target (.program id) input deposit e
  | r, e => panicIf (r.panics id e)

def legacyEvents (record : ProgramRecord) (data : List Byte) (e : Engine) : List VmEvent :=
  match data, validateScalarCode record.code with
  | [], .ok limits =>
    if limits.scalarFuel ≥ 2 ^ 64 ∨ limits.scalarFuel > e.fuel then []
    else
      let body := record.code.drop headerLen
      scalarEvents record.code limits body.length
        (scalarStart record.stateValue limits.scalarFuel) body
  | _, _ => []

section
variable [Crypto]

/-- What is seen of one round of the interpreter loop. -/
def roundEvents (ctx : CallContext) (callee : Callee) (calleeEvents : CalleeEvents) (env : FrameEnv)
    (code : List Byte) (limits : ValidatedCode) (decoded : OrderedMap Nat Instruction)
    (head : Nat × Stack) (e : Engine) : List VmEvent :=
  .looped code limits head.1 head.2 e ::
    match decoded.get? head.1 with
    | none => []
    | some i =>
      match e.charge (opCost i.op) with
      | .error _ => []
      | .ok e => .executed i e :: (panicIf i.panics ++
          (execInstruction env i head.2).observe (handle ctx callee env.id)
            (look calleeEvents env.id) e ++
          match (execInstruction env i head.2).run (handle ctx callee env.id) e with
          | .error _ => []
          | .ok (flow, _) => panicIf flow.panics)

def frameEvents (ctx : CallContext) (n : Nat) (callee : Callee) (calleeEvents : CalleeEvents)
    (env : FrameEnv) (code : List Byte) (e : Engine) : List VmEvent :=
  match validateCode code, instructions code with
  | .ok limits, .ok decoded =>
    match e.charge (limits.memoryPages * memoryPageCost) with
    | .error _ => []
    | .ok e => observeRounds (handle ctx callee env.id)
      (interpretRound env limits decoded)
        (roundEvents ctx callee calleeEvents env code limits decoded) n (headerLen, []) e
  | _, _ => []

/-- What is seen of an entered program; the version byte is read by its index. -/
def enteredEvents (ctx : CallContext) (n : Nat) (callee : Callee) (calleeEvents : CalleeEvents)
    (id : ProgramId) (caller : Owner) (data : List Byte) (deposit : U64) (record : ProgramRecord)
    (e : Engine) : List VmEvent :=
  panicIf (record.code.length ≤ 4) ++
    if record.code[4]? ≠ some applicationVersion then e.legacyEvents record data
    else e.frameEvents ctx n callee calleeEvents ⟨id, caller, ctx.signer, ctx.height, data,
      deposit⟩ record.code

/-- What is seen of a call. -/
def callEvents (ctx : CallContext) (n : Nat) : Nat → CalleeEvents
  | 0, _, _, _, _, _ => []
  | depth + 1, id, caller, data, deposit, e =>
    match e.enter id data with
    | .error _ => []
    | .ok (record, e) => .entered e ::
      (e.enteredEvents ctx n (callWithin ctx n depth) (callEvents ctx n depth) id caller data
        deposit record ++
        match e.runEnteredWithin ctx n (callWithin ctx n depth) id caller data deposit record with
        | .error _ => []
        | .ok (_, e) => [.returned { e with active := e.active.tail }])

end

/-! ## What is seen is paid for -/

/-- A budget out of which every instruction and every entry is paid. -/
structure Meter where
  instruction : Nat
  entry : Nat
  left : Engine → Nat
  charge_le : ∀ {e e' : Engine} {n : Nat}, e.charge n = .ok e' → instruction * n + left e' ≤ left e
  enter_le : ∀ {e e' : Engine} {id : ProgramId} {data : List Byte} {record : ProgramRecord},
    e.enter id data = .ok (record, e') → entry + left e' ≤ left e
  spent_le : ∀ {e e' : Engine}, Spent e e' → left e' ≤ left e
  leave_eq : ∀ e : Engine, left { e with active := e.active.tail } = left e

/-- The fuel pays for the instructions. -/
def fuelMeter : Meter where
  instruction := 1
  entry := 0
  left := Engine.fuel
  charge_le h := by
    obtain ⟨hle, rfl⟩ := charge_eq_ok.mp h
    simp only [Nat.one_mul]
    omega
  enter_le h := by
    obtain ⟨_, _, _, rfl⟩ := enter_eq_ok h
    exact (Nat.zero_add _).le
  spent_le h := h.fuel_le
  leave_eq _ := rfl

/-- The calls that are left pay for the entries. -/
def callMeter : Meter where
  instruction := 0
  entry := 1
  left e := maxCalls - e.calls
  charge_le h := by
    obtain ⟨_, rfl⟩ := charge_eq_ok.mp h
    simp
  enter_le h := by
    obtain ⟨⟨_, _, hcalls⟩, _, _, rfl⟩ := enter_eq_ok h
    simp only
    omega
  spent_le h := Nat.sub_le_sub_left h.calls_mono _
  leave_eq _ := rfl

namespace Meter

variable (m : Meter)

def cost : VmEvent → Nat
  | .entered _ => m.entry
  | .executed _ _ | .scalar _ _ _ _ => m.instruction
  | _ => 0

def total (events : List VmEvent) : Nat := (events.map m.cost).sum

/-- The events are paid for, and a success leaves the rest. -/
def Pays {α : Type} (events : List VmEvent) (e : Engine)
    (result : Except ExecutionError (α × Engine)) : Prop :=
  m.total events + RequestTree.left m.left result ≤ m.left e

@[simp] theorem total_nil : m.total [] = 0 := rfl

@[simp] theorem total_cons (event : VmEvent) (events : List VmEvent) :
    m.total (event :: events) = m.cost event + m.total events := rfl

@[simp] theorem total_append (events events' : List VmEvent) :
    m.total (events ++ events') = m.total events + m.total events' := by
  simp [total]

@[simp] theorem total_panicIf (c : Bool) : m.total (panicIf c) = 0 := by
  cases c <;> rfl

theorem total_scalarEvents (code : List Byte) (limits : ValidatedCode) (n : Nat)
    (frame : ScalarFrame) (body : List Byte) :
    m.total (scalarEvents code limits n frame body) =
      m.instruction * (scalarTrace n frame body).length := by
  have hmap : ∀ trace : List (Byte × List I64),
      m.total (trace.map fun p => VmEvent.scalar code limits p.1 p.2) =
        m.instruction * trace.length := by
    intro trace
    simp [total, cost, Function.comp_def, Nat.mul_comm]
  rw [scalarEvents, total_append, hmap]
  split <;> rfl

theorem pays_of_spent {m : Meter} {α : Type} {e : Engine}
    {result : Except ExecutionError (α × Engine)} (h : ∀ x e', result = .ok (x, e') → Spent e e') :
    RequestTree.left m.left result ≤ m.left e := by
  cases result with
  | error err => exact Nat.zero_le _
  | ok p => exact m.spent_le (h p.1 p.2 rfl)

end Meter

section
variable [Crypto] {m : Meter} (ctx : CallContext) {callee : Callee} {calleeEvents : CalleeEvents}

/-- What is seen of nested calls is paid for. -/
def Meter.Paying (m : Meter) (callee : Callee) (calleeEvents : CalleeEvents) : Prop :=
  ∀ id caller data deposit e, m.Pays (calleeEvents id caller data deposit e) e
    (callee id caller data deposit e)

theorem look_pays (hcallee : Spending callee) (hpays : m.Paying callee calleeEvents)
    (id : ProgramId) (r : FrameRequest) (e : Engine) :
    m.Pays (look calleeEvents id r e) e (handle ctx callee id r e) := by
  have hspent : RequestTree.left m.left (handle ctx callee id r e) ≤ m.left e :=
    Meter.pays_of_spent (handle_spent hcallee r e)
  cases r with
  | call target input deposit => exact hpays target (.program id) input deposit e
  | _ =>
    unfold Meter.Pays
    change m.total (panicIf _) + _ ≤ _
    rw [Meter.total_panicIf, Nat.zero_add]
    exact hspent

theorem roundEvents_pays (hcallee : Spending callee) (hpays : m.Paying callee calleeEvents)
    (env : FrameEnv) (code : List Byte) (limits : ValidatedCode)
    (decoded : OrderedMap Nat Instruction) (head : Nat × Stack) (e : Engine) :
    m.Pays (roundEvents ctx callee calleeEvents env code limits decoded head e) e
      ((interpretRound env limits decoded head).run (handle ctx callee env.id) e) := by
  unfold Meter.Pays
  rw [run_interpretRound, roundEvents, Meter.total_cons]
  cases decoded.get? head.1 with
  | none => exact Nat.zero_le _
  | some i =>
    simp only [okOr, ok_bind, handle, answered]
    cases hcharge : e.charge (opCost i.op) with
    | error err => exact Nat.zero_le _
    | ok e₁ =>
      have hexec : m.Pays ((execInstruction env i head.2).observe (handle ctx callee env.id)
          (look calleeEvents env.id) e₁) e₁
            ((execInstruction env i head.2).run (handle ctx callee env.id) e₁) :=
        observe_budget m.cost m.left (look_pays ctx hcallee hpays env.id) _ e₁
      have hresume : RequestTree.left m.left
          ((execInstruction env i head.2).run (handle ctx callee env.id) e₁ >>=
          fun q => (resume limits i q.1).map fun next => (next, q.2)) ≤
            RequestTree.left m.left ((execInstruction env i head.2).run (handle ctx callee env.id)
              e₁) := by
        refine left_bind_le fun p q hq => ?_
        obtain ⟨_, _, rfl⟩ := exceptMap_eq_ok.mp hq
        exact le_refl _
      have hfree : m.total
          (match (execInstruction env i head.2).run (handle ctx callee env.id) e₁ with
          | .error _ => []
          | .ok (flow, _) => panicIf flow.panics) = 0 := by
        split
        · rfl
        · exact m.total_panicIf _
      have hpaid := m.charge_le hcharge
      have hone := Nat.le_mul_of_pos_right m.instruction (opCost_pos i.op)
      refine le_trans (Nat.add_le_add_left hresume _) ?_
      simp only [Meter.total_cons, Meter.total_append, Meter.total_panicIf, Meter.cost,
        Meter.Pays, hfree]
        at hexec ⊢
      omega

theorem frameEvents_pays (hcallee : Spending callee) (hpays : m.Paying callee calleeEvents)
    (n : Nat) (env : FrameEnv) (code : List Byte) (e : Engine) :
    m.Pays (frameEvents ctx n callee calleeEvents env code e) e
      ((interpretWithin n env code).run (handle ctx callee env.id) e) := by
  unfold Meter.Pays
  rw [run_interpretWithin, frameEvents]
  cases validateCode code with
  | error err => exact Nat.zero_le _
  | ok limits =>
    cases instructions code with
    | error err => exact Nat.zero_le _
    | ok decoded =>
      simp only [Except.mapError, ok_bind, handle, answered]
      cases hcharge : e.charge (limits.memoryPages * memoryPageCost) with
      | error err => exact Nat.zero_le _
      | ok e₁ =>
        have hrounds := observeRounds_budget m.cost m.left
          (roundEvents_pays ctx hcallee hpays env code limits decoded) n (headerLen, []) e₁
        have hloop : RequestTree.left m.left
              ((interpretLoop env limits decoded n headerLen []).run (handle ctx callee env.id) e₁) ≤
            RequestTree.left m.left
              ((RequestTree.rounds (interpretRound env limits decoded) n (headerLen, [])).run
                (handle ctx callee env.id) e₁) := by
          rw [run_interpretLoop]
          refine left_bind_le fun p q hq => ?_
          obtain ⟨_, _, rfl⟩ := exceptMap_eq_ok.mp hq
          exact le_refl _
        have hpaid := m.charge_le hcharge
        refine le_trans (Nat.add_le_add_left hloop _) (hrounds.trans ?_)
        omega

theorem legacyEvents_pays (id : ProgramId) (record : ProgramRecord) (data : List Byte)
    (e : Engine) : m.Pays (e.legacyEvents record data) e (e.runLegacy ctx id record data) := by
  unfold Meter.Pays legacyEvents
  split
  · next limits hlimits =>
    split_ifs with hlimit
    · exact (Nat.zero_add _).trans_le (Meter.pays_of_spent fun _ _ => runLegacy_spent)
    · -- the check counted what is executed, and the fuel was there
      obtain ⟨e₁, hcharge⟩ : ∃ e₁, e.charge limits.scalarFuel = .ok e₁ :=
        ⟨_, charge_eq_ok.mpr ⟨not_lt.mp (not_or.mp hlimit).2, rfl⟩⟩
      have hfollows := validateScalarCode_follows hlimits record.stateValue limits.scalarFuel
      have hlength := (length_le_traceCost _).trans (hfollows.cost_le.trans
        (Nat.le_add_left _ (limits.memoryPages * memoryPageCost)))
      have hleft : RequestTree.left m.left (e.runLegacy ctx id record []) ≤ m.left e₁ := by
        cases hrun : e.runLegacy ctx id record [] with
        | error err => exact Nat.zero_le _
        | ok p =>
          obtain ⟨result, e₂, hexecute, hcharge', hspent⟩ := runLegacy_ok hrun
          obtain ⟨limits', hlimits', hused, _⟩ := executeCodeWithState_ok hexecute
          obtain rfl : limits = limits' := Except.ok.inj (hlimits.symm.trans hlimits')
          rw [hused] at hcharge'
          obtain rfl : e₁ = e₂ := Except.ok.inj (hcharge.symm.trans hcharge')
          exact m.spent_le hspent
      have hpaid := m.charge_le hcharge
      rw [Meter.total_scalarEvents]
      have hscaled := Nat.mul_le_mul_left m.instruction hlength
      exact (Nat.add_le_add hscaled hleft).trans hpaid
  · exact (Nat.zero_add _).trans_le (Meter.pays_of_spent fun _ _ => runLegacy_spent)

theorem enteredEvents_pays (hcallee : Spending callee) (hpays : m.Paying callee calleeEvents)
    (n : Nat) (id : ProgramId) (caller : Owner) (data : List Byte) (deposit : U64)
    (record : ProgramRecord) (e : Engine) :
    m.Pays (e.enteredEvents ctx n callee calleeEvents id caller data deposit record) e
      (e.runEnteredWithin ctx n callee id caller data deposit record) := by
  unfold Meter.Pays enteredEvents runEnteredWithin
  rw [Meter.total_append, Meter.total_panicIf, Nat.zero_add]
  split_ifs
  · exact legacyEvents_pays ctx id record data e
  · exact frameEvents_pays ctx hcallee hpays n _ record.code e

/-- By induction on the depth: entering pays for the frame, the rounds of the frame for themselves,
and nested calls pay by hypothesis. -/
theorem callEvents_paying (m : Meter) (n depth : Nat) :
    m.Paying (callWithin ctx n depth) (callEvents ctx n depth) := by
  induction depth with
  | zero => exact fun _ _ _ _ _ => Nat.zero_le _
  | succ depth ih =>
    intro id caller data deposit e
    unfold Meter.Pays
    rw [callEvents, callWithin]
    cases henter : e.enter id data with
    | error err => exact Nat.zero_le _
    | ok entered =>
      obtain ⟨record, e₁⟩ := entered
      have hentry := m.enter_le henter
      have hbody :=
        enteredEvents_pays ctx (callWithin_spending n depth) ih n id caller data deposit record e₁
      unfold Meter.Pays at hbody
      simp only [ok_bind, Meter.total_cons, Meter.total_append, Meter.cost]
      cases hrun : e₁.runEnteredWithin ctx n (callWithin ctx n depth) id caller data deposit record
        with
      | error err =>
        rw [hrun] at hbody
        simp only [RequestTree.left, error_bind, Meter.total_nil] at hbody ⊢
        omega
      | ok p =>
        rw [hrun] at hbody
        simp only [RequestTree.left, ok_bind, pure_eq_ok, Meter.total_cons, Meter.cost,
          Meter.total_nil, m.leave_eq] at hbody ⊢
        omega

end

/-! ## What holds at every event -/

/-- The limits of an invocation. -/
structure Within (e : Engine) : Prop where
  fuel_le : e.fuel ≤ maxCallFuel
  calls_le : e.calls ≤ maxCalls
  actions_le : e.actions ≤ maxActions
  nodup : e.active.Nodup
  depth_le : e.active.length ≤ maxCallDepth

variable {e e' : Engine} {id : ProgramId}

theorem Within.spent (h : Within e) (hspent : Spent e e') : Within e' where
  fuel_le := hspent.fuel_le.trans h.fuel_le
  calls_le := hspent.calls_le h.calls_le
  actions_le := hspent.actions_le h.actions_le
  nodup := hspent.active_eq ▸ h.nodup
  depth_le := hspent.active_eq ▸ h.depth_le

theorem Within.enter {data : List Byte} {record : ProgramRecord} (h : Within e)
    (henter : e.enter id data = .ok (record, e')) : Within e' := by
  obtain ⟨⟨_, hdepth, hcalls⟩, hactive, _, rfl⟩ := enter_eq_ok henter
  exact ⟨h.fuel_le, hcalls, h.actions_le, nodup_cons.mpr ⟨hactive, h.nodup⟩, hdepth⟩

theorem Within.leave (h : Within e) : Within { e with active := e.active.tail } where
  fuel_le := h.fuel_le
  calls_le := h.calls_le
  actions_le := h.actions_le
  nodup := h.nodup.sublist (tail_sublist _)
  depth_le := (tail_sublist _).length_le.trans h.depth_le

/-- The stack of a frame is within the limits its code declares. -/
def StackWithin (limits : ValidatedCode) (stack : Stack) : Prop :=
  stack.length ≤ limits.maxStack ∧ (stack.map Value.size).sum ≤ limits.memoryPages * pageBytes

theorem checkStack_eq_ok {limits : ValidatedCode} {stack : Stack} {u : Unit} :
    checkStack limits stack = .ok u ↔ StackWithin limits stack := by
  rw [checkStack, rejectIf_eq_ok, not_or, not_lt, not_lt]
  rfl

/-- What holds at an event. A panic needs that `valid` is false. -/
def Sound (valid : Prop) : VmEvent → Prop
  | .entered e | .returned e => Within e
  | .executed i e => Within e ∧ i.WellFormed
  | .looped code limits pc stack e => Within e ∧ validateCode code = .ok limits ∧
    StackWithin limits stack ∧
      ∃ decoded, instructions code = .ok decoded ∧ Boundary code decoded pc
  | .scalar code limits _ stack => validateScalarCode code = .ok limits ∧
    stack.length ≤ limits.maxStack
  | .panicked => ¬ valid

/-- The limits hold, and in a valid state all codes have a version byte and all stored values fit.
-/
structure Ready (valid : Prop) (e : Engine) : Prop where
  within : Within e
  version : valid → ∀ id code, e.codeOf id = some code → 4 < code.length
  storageFits : valid → e.state.programs.StorageFits

variable {valid : Prop}

theorem Ready.spent (h : Ready valid e) (hspent : Spent e e') : Ready valid e' where
  within := h.within.spent hspent
  version hvalid id code hcode := h.version hvalid id code ((hspent.codeOf_eq id).symm.trans hcode)
  storageFits := hspent.storageFits ∘ h.storageFits

theorem panicIf_sound {c : Bool} (h : c = true → ¬ valid) :
    ∀ event ∈ panicIf c, Sound valid event := by
  intro event hevent
  cases c with
  | false => exact absurd hevent not_mem_nil
  | true =>
    rw [mem_singleton.mp hevent]
    exact h rfl

theorem not_valid_of_panics (hcode : (e.codeOf id).isSome) {r : FrameRequest} (hfits : r.Fits valid)
    (hpanics : r.panics id e = true) : ¬ valid := by
  have hrecord : (e.state.programs.program id).isNone = false := by
    rw [codeOf, Option.isSome_map] at hcode
    rw [ProgramRegistry.program, Option.isNone_eq_false_iff]
    exact hcode
  cases r with
  | charge n => exact fun hvalid => absurd (hfits hvalid) (not_lt.mpr (of_decide_eq_true hpanics))
  | stateValue | setState _ | loadStorage _ | storeStorage _ _ | owner =>
    exact fun _ => Bool.noConfusion (hrecord.symm.trans hpanics)
  | _ => cases hpanics

end Engine

theorem Instruction.WellFormed.panics_eq_false {i : Instruction} (h : i.WellFormed) :
    i.panics = false := by
  unfold Instruction.panics
  split
  · next hop => simp [h.constant hop]
  · next hop =>
    obtain ⟨_, owner, howner⟩ := h.owner hop
    simp [howner]
  · next hop => simp [h.jump (.inl hop)]
  · next hop => simp [h.jump (.inr hop)]
  · rfl

namespace Engine

section
variable {valid : Prop} {e e' : Engine} {id : ProgramId} {callee : Callee}
  {calleeEvents : CalleeEvents}

/-- What is seen of nested calls is sound. -/
def SoundEvents (valid : Prop) (calleeEvents : CalleeEvents) : Prop :=
  ∀ id caller data deposit e, Ready valid e → ∀ event ∈ calleeEvents id caller data deposit e,
    Sound valid event

theorem look_sound (hsound : SoundEvents valid calleeEvents) (hready : Ready valid e)
    (hcode : (e.codeOf id).isSome) (r : FrameRequest) (hfits : r.Fits valid) :
    ∀ event ∈ look calleeEvents id r e, Sound valid event := by
  cases r with
  | call target input deposit => exact hsound target (.program id) input deposit e hready
  | _ => exact panicIf_sound (not_valid_of_panics hcode hfits)

/-- Where the loop may stand. -/
structure AtHead (valid : Prop) (id : ProgramId) (code : List Byte) (limits : ValidatedCode)
    (decoded : OrderedMap Nat Instruction) (head : Nat × Stack) (e : Engine) : Prop where
  ready : Ready valid e
  registered : (e.codeOf id).isSome
  boundary : Boundary code decoded head.1
  stack : StackWithin limits head.2

variable {code : List Byte} {limits : ValidatedCode} {decoded : OrderedMap Nat Instruction}
  {head : Nat × Stack}

theorem legacyEvents_sound (record : ProgramRecord) (data : List Byte) (e : Engine) :
    ∀ event ∈ e.legacyEvents record data, Sound valid event := by
  intro event hevent
  unfold legacyEvents at hevent
  split at hevent
  · next limits hlimits =>
    split_ifs at hevent
    · exact absurd hevent not_mem_nil
    · have hfollows := validateScalarCode_follows hlimits record.stateValue limits.scalarFuel
      rw [scalarEvents, mem_append, mem_map] at hevent
      rcases hevent with ⟨p, hp, rfl⟩ | hpanic
      · exact ⟨hlimits, hfollows.stack_le p hp⟩
      · rcases hfollows.ends with hend | ⟨result, hend, _⟩
        · rw [hend] at hpanic
          exact absurd hpanic not_mem_nil
        · rw [hend] at hpanic
          exact absurd hpanic not_mem_nil
  · exact absurd hevent not_mem_nil

theorem StackWithin.size_lt (h : StackWithin limits head.2)
    (hlimits : validateCode code = .ok limits) : stackSize head.2 < 2 ^ 62 := by
  have hpages := memoryPages_le_of_validateCode hlimits
  calc stackSize head.2 ≤ limits.memoryPages * pageBytes := h.2
    _ ≤ maxMemoryPages * pageBytes := Nat.mul_le_mul_right _ hpages
    _ < 2 ^ 62 := by decide

variable [Crypto] {ctx : CallContext} {env : FrameEnv}

theorem handle_keeps (hcallee : Spending callee) (r : FrameRequest) (a : Engine) (x : r.Answer)
    (a' : Engine) (ha : Ready valid a ∧ (a.codeOf env.id).isSome)
    (h : handle ctx callee env.id r a = .ok (x, a')) :
    r.AnswerFits valid x ∧ Ready valid a' ∧ (a'.codeOf env.id).isSome := by
  have hspent := handle_spent hcallee r a x a' h
  refine ⟨?_, ha.1.spent hspent, (hspent.codeOf_eq env.id).symm ▸ ha.2⟩
  cases r with
  | loadStorage key =>
    obtain ⟨record, hrecord, hpair⟩ := exceptMap_eq_ok.mp h
    cases hpair
    exact fun hvalid value hvalue => ha.1.storageFits hvalid env.id record (okOr_eq_ok.mp hrecord)
      key value hvalue
  | _ => trivial

theorem roundEvents_sound (hsound : SoundEvents valid calleeEvents) (hcallee : Spending callee)
    (hdata : env.data.length ≤ maxDataBytes) (hlimits : validateCode code = .ok limits)
    (hdecoded : instructions code = .ok decoded)
    (hhead : AtHead valid env.id code limits decoded head e) :
    ∀ event ∈ roundEvents ctx callee calleeEvents env code limits decoded head e,
      Sound valid event := by
  intro event hevent
  rw [roundEvents, mem_cons] at hevent
  rcases hevent with rfl | hevent
  · exact ⟨hhead.ready.within, hlimits, hhead.stack, decoded, hdecoded, hhead.boundary⟩
  · split at hevent
    · exact absurd hevent not_mem_nil
    · next i hget =>
      split at hevent
      · exact absurd hevent not_mem_nil
      · next e₁ hcharge =>
        have hwell := (instructions_decoded hdecoded).wellFormed _ i hget
        have hspent := (charge_charged hcharge).spent
        have hready := hhead.ready.spent hspent
        have hframe : Ready valid e₁ ∧ (e₁.codeOf env.id).isSome :=
          ⟨hready, (hspent.codeOf_eq env.id).symm ▸ hhead.registered⟩
        have hkeeps : KeepsFits valid i (execInstruction env i head.2) :=
          execInstruction_keeps env hdata hwell (hhead.stack.size_lt hlimits)
        simp only [mem_cons, mem_append] at hevent
        rcases hevent with rfl | (hpanic | hevent) | hpanic
        · exact ⟨hready.within, hwell⟩
        · exact panicIf_sound (fun hpanics =>
            Bool.noConfusion (hwell.panics_eq_false.symm.trans hpanics)) _ hpanic
        · exact observe_forall (fun a => Ready valid a ∧ (a.codeOf env.id).isSome)
            (Sound valid)
            (fun r a ha hfits => look_sound hsound ha.1 ha.2 r hfits) (handle_keeps hcallee) hkeeps
              hframe event hevent
        · split at hpanic
          · exact absurd hpanic not_mem_nil
          · next flow e₂ hrun =>
            have hflow := run_keeps _ hkeeps (handle_keeps hcallee) hframe hrun
            refine panicIf_sound (fun hpanics hvalid => ?_) _ hpanic
            cases flow with
            | finish value => cases hpanics
            | next stack => exact absurd (hflow hvalid) (not_lt.mpr (of_decide_eq_true hpanics))
            | jump pc stack =>
              exact absurd (hflow.1 hvalid) (not_lt.mpr (of_decide_eq_true hpanics))

theorem AtHead.round {head' : Nat × Stack} (hcallee : Spending callee)
    (hdata : env.data.length ≤ maxDataBytes) (hlimits : validateCode code = .ok limits)
    (hdecoded : instructions code = .ok decoded)
    (hhead : AtHead valid env.id code limits decoded head e)
    (h : (interpretRound env limits decoded head).run (handle ctx callee env.id) e =
      .ok (.inl head', e')) :
    AtHead valid env.id code limits decoded head' e' := by
  obtain ⟨i, e₁, flow, hget, hcharge, hexec, hresume⟩ := interpretRound_ok h
  have hrun : Spent e₁ e' :=
    run_rel Spent.refl (fun _ _ _ => Spent.trans) (handle_spent hcallee) hexec
  have hspent := (charge_charged hcharge).spent.trans hrun
  have hat := instructions_decoded hdecoded
  have hkeeps : KeepsFits valid i (execInstruction env i head.2) :=
    execInstruction_keeps env hdata (hat.wellFormed _ i hget) (hhead.stack.size_lt hlimits)
  have hpaid := (charge_charged hcharge).spent
  have hflow := run_keeps _ hkeeps (handle_keeps hcallee)
    ⟨hhead.ready.spent hpaid, (hpaid.codeOf_eq env.id).symm ▸ hhead.registered⟩ hexec
  have hmoved : Boundary code decoded head'.1 ∧ StackWithin limits head'.2 := by
    cases flow with
    | finish value => cases hresume
    | next stack =>
      obtain ⟨_, hstack, hhead'⟩ := exceptMap_eq_ok.mp hresume
      cases hhead'
      exact ⟨hat.boundary_next hget, checkStack_eq_ok.mp hstack⟩
    | jump pc stack =>
      obtain ⟨_, hstack, hhead'⟩ := exceptMap_eq_ok.mp hresume
      cases hhead'
      obtain ⟨_, hop, rfl⟩ := hflow
      exact ⟨hat.boundary_jump hget hop, checkStack_eq_ok.mp hstack⟩
  refine ⟨hhead.ready.spent hspent, ?_, hmoved.1, hmoved.2⟩
  rw [hspent.codeOf_eq]
  exact hhead.registered

theorem frameEvents_sound (hsound : SoundEvents valid calleeEvents) (hcallee : Spending callee)
    (n : Nat) (hdata : env.data.length ≤ maxDataBytes) (hready : Ready valid e)
    (hcode : (e.codeOf env.id).isSome) :
    ∀ event ∈ e.frameEvents ctx n callee calleeEvents env code, Sound valid event := by
  intro event hevent
  unfold frameEvents at hevent
  split at hevent
  · next limits decoded hlimits hdecoded =>
    split at hevent
    · exact absurd hevent not_mem_nil
    · next e₁ hcharge =>
      have hspent := (charge_charged hcharge).spent
      refine observeRounds_forall (AtHead valid env.id code limits decoded)
        (Sound valid)
        (fun head a ha => roundEvents_sound hsound hcallee hdata hlimits hdecoded ha)
        (fun head a head' a' ha hround => ha.round hcallee hdata hlimits hdecoded hround)
          n ?_ event hevent
      exact ⟨hready.spent hspent, hspent.codeOf_eq env.id ▸ hcode,
        boundary_headerLen hlimits hdecoded, Nat.zero_le _, Nat.zero_le _⟩
  · exact absurd hevent not_mem_nil

/-- At every event of a call the limits hold, the offset is a boundary and nothing panics. -/
theorem callEvents_sound (n depth : Nat) : SoundEvents valid (callEvents ctx n depth) := by
  induction depth with
  | zero => exact fun _ _ _ _ _ _ event hevent => absurd hevent not_mem_nil
  | succ depth ih =>
    intro id caller data deposit e hready event hevent
    rw [callEvents] at hevent
    cases henter : e.enter id data with
    | error err =>
      rw [henter] at hevent
      exact absurd hevent not_mem_nil
    | ok entered =>
      obtain ⟨record, e₁⟩ := entered
      rw [henter] at hevent
      obtain ⟨⟨hdata, _⟩, _, hget, he₁⟩ := enter_eq_ok henter
      have hcodes : ∀ id, e₁.codeOf id = e.codeOf id := by
        intro id
        rw [he₁]
        rfl
      have hready₁ : Ready valid e₁ := ⟨hready.within.enter henter, fun hvalid id code hcode =>
        hready.version hvalid id code ((hcodes id).symm.trans hcode), he₁ ▸ hready.storageFits⟩
      have hcode : e₁.codeOf id = some record.code := by rw [hcodes, codeOf, hget]; rfl
      simp only [mem_cons, mem_append] at hevent
      rcases hevent with rfl | hbody | hreturned
      · exact hready₁.within
      · rw [enteredEvents, mem_append] at hbody
        rcases hbody with hpanic | hbody
        · refine panicIf_sound (fun hshort hvalid => ?_) event hpanic
          exact absurd (hready₁.version hvalid id _ hcode) (not_lt.mpr (of_decide_eq_true hshort))
        · split_ifs at hbody
          · exact legacyEvents_sound record data e₁ event hbody
          · exact frameEvents_sound ih (callWithin_spending n depth) n hdata hready₁
              (by rw [hcode]; rfl) event hbody
      · split at hreturned
        · exact absurd hreturned not_mem_nil
        · next value e₂ hrun =>
          rw [mem_singleton.mp hreturned]
          exact (hready₁.within.spent (runEnteredWithin_spent (callWithin_spending n depth)
            hrun)).leave

theorem mem_callEvents_returned {n depth : Nat} {caller : Owner} {data : List Byte} {deposit : U64}
    {value : U128} (h : callWithin ctx n depth id caller data deposit e = .ok (value, e')) :
    .returned e' ∈ callEvents ctx n depth id caller data deposit e := by
  cases depth with
  | zero => cases h
  | succ depth =>
    simp only [callWithin, bind_eq_ok, Prod.exists, return_eq_ok, Prod.mk.injEq] at h
    obtain ⟨record, e₁, henter, _, e₂, hrun, _, rfl⟩ := h
    rw [callEvents, henter]
    simp only [hrun, mem_cons, mem_append, or_true, true_or]

omit [Crypto] in
theorem within_start (state : LedgerState) : Within (start state) where
  fuel_le := le_refl _
  calls_le := Nat.zero_le _
  actions_le := Nat.zero_le _
  nodup := nodup_nil
  depth_le := Nat.zero_le _

end

end Engine

/-! ## Whole invocations -/

namespace VmEvent

def isInstruction : VmEvent → Bool
  | .executed _ _ | .scalar _ _ _ _ => true
  | _ => false

def isEntry : VmEvent → Bool
  | .entered _ => true
  | _ => false

/-- The engine at an event. -/
def engine : VmEvent → Option Engine
  | .entered e | .returned e | .executed _ e | .looped _ _ _ _ e => some e
  | .scalar _ _ _ _ | .panicked => none

end VmEvent

open Engine

theorem fuelMeter_total (events : List VmEvent) :
    fuelMeter.total events = events.countP VmEvent.isInstruction := by
  induction events with
  | nil => rfl
  | cons event events ih =>
    rw [Meter.total_cons, ih, countP_cons, Nat.add_comm]
    cases event <;> rfl

theorem callMeter_total (events : List VmEvent) :
    callMeter.total events = events.countP VmEvent.isEntry := by
  induction events with
  | nil => rfl
  | cons event events ih =>
    rw [Meter.total_cons, ih, countP_cons, Nat.add_comm]
    cases event <;> rfl

/-- The limits of an invocation, nested frames included. The stack of application code is bounded
in length and in bytes. Scalar code is bounded in length alone: its header declares memory pages
too, but they are only paid for. -/
structure InvocationBounds (events : List VmEvent) : Prop where
  instructions_le : events.countP VmEvent.isInstruction ≤ maxCallFuel
  entries_le : events.countP VmEvent.isEntry ≤ maxCalls
  within : ∀ event ∈ events, ∀ e, event.engine = some e → Within e
  stack : ∀ code limits pc stack e, .looped code limits pc stack e ∈ events →
    validateCode code = .ok limits ∧ StackWithin limits stack
  scalar : ∀ code limits opcode stack, .scalar code limits opcode stack ∈ events →
    validateScalarCode code = .ok limits ∧ stack.length ≤ limits.maxStack

section
variable [Crypto]

theorem callEvents_bounds (ctx : CallContext) (n depth : Nat) (id : ProgramId) (caller : Owner)
    (data : List Byte) (deposit : U64) (state : LedgerState) :
    InvocationBounds (callEvents ctx n depth id caller data deposit (.start state)) := by
  have hready : Ready False (.start state) := ⟨within_start state, False.elim, False.elim⟩
  have hsound : ∀ event ∈ callEvents ctx n depth id caller data deposit (.start state),
      Sound False event :=
    callEvents_sound n depth id caller data deposit _ hready
  have hfuel := callEvents_paying ctx fuelMeter n depth id caller data deposit (.start state)
  have hcalls := callEvents_paying ctx callMeter n depth id caller data deposit (.start state)
  rw [Meter.Pays, fuelMeter_total] at hfuel
  rw [Meter.Pays, callMeter_total] at hcalls
  refine ⟨(Nat.le_add_right _ _).trans hfuel, (Nat.le_add_right _ _).trans hcalls, ?_, ?_, ?_⟩
  · intro event hevent e he
    have hat := hsound event hevent
    cases event with
    | entered e' | returned e' =>
      cases he
      exact hat
    | executed i e' | looped code limits pc stack e' =>
      cases he
      exact hat.1
    | scalar code limits opcode stack => cases he
    | panicked => cases he
  · intro code limits pc stack e hevent
    obtain ⟨_, hlimits, hstack, _⟩ := hsound _ hevent
    exact ⟨hlimits, hstack⟩
  · exact fun code limits opcode stack hevent => hsound _ hevent

/-- What is seen of `applyVm`. -/
def applyEvents (n depth : Nat) (state : LedgerState) (tx : AuthorizedProgramInvocation)
    (height : U64) (commitment : AuthorizationCommitment) (apps : ApplicationExecutor) :
    List VmEvent :=
  match callInput tx.call with
  | .error _ => []
  | .ok (id, data) =>
    match depositOf tx.payment id with
    | .error _ => []
    | .ok deposit =>
      callEvents ⟨apps, tx.signer, height, commitment⟩ n depth id (.program tx.signer) data deposit
        (.start state)

/-- An invocation ends, whatever code runs, and stays within its limits: its result does not depend
on the bounds of the model once they exceed the fuel and the depth limit, all that is seen of it
is within the limits, and its receipt reports the fuel that was spent. -/
theorem applyVm_bounded (state : LedgerState) (tx : AuthorizedProgramInvocation) (height : U64)
    (commitment : AuthorizationCommitment) (apps : ApplicationExecutor) :
    (∀ n depth, maxCallFuel < n → maxCallDepth ≤ depth →
      applyVmWithin n depth state tx height commitment apps =
      applyVm state tx height commitment apps) ∧
    (∀ n depth, InvocationBounds (applyEvents n depth state tx height commitment apps)) ∧
    (∀ n depth applied state',
      applyVmWithin n depth state tx height commitment apps = .ok (applied, state') →
      applied.fuelUsed ≤ maxCallFuel ∧
      ∃ e, .returned e ∈ applyEvents n depth state tx height commitment apps ∧ e.state = state' ∧
        applied.fuelUsed + e.fuel = maxCallFuel) := by
  refine ⟨fun n depth hn hdepth => applyVmWithin_eq hn hdepth state tx height commitment apps,
    ?_, ?_⟩
  · intro n depth
    have hnil : InvocationBounds [] := by constructor <;> simp
    unfold applyEvents
    split
    · exact hnil
    · split
      · exact hnil
      · exact callEvents_bounds _ n depth _ _ _ _ state
  · intro n depth applied state' h
    simp only [applyVmWithin, bind_eq_ok, orError_eq_ok, Prod.exists, pure_eq_ok, Except.ok.injEq,
      Prod.mk.injEq] at h
    obtain ⟨id, data, hinput, deposit, hdeposit, value, e, hcall, applied', hreport, rfl, rfl⟩ := h
    have hmem := mem_callEvents_returned hcall
    have hwithin := (callEvents_bounds _ n depth _ _ _ _ state).within _ hmem e rfl
    have hused : applied'.fuelUsed = maxCallFuel - e.fuel := by
      simp only [report, bind_eq_ok, pure_eq_ok, Except.ok.injEq] at hreport
      obtain ⟨_, _, _, _, rfl⟩ := hreport
      rfl
    refine ⟨hused ▸ Nat.sub_le _ _, e, ?_, rfl, ?_⟩
    · rw [applyEvents, hinput]
      simp only [hdeposit]
      exact hmem
    · rw [hused, Nat.sub_add_cancel hwithin.fuel_le]

/-- Interpretation never panics where all registered codes passed their check. Application code
stands at instructions with immediates of the width their opcodes read, or at the end of the code,
where the round is an error; scalar code keeps within its stack, and a run that completes used the
fuel of the check. Stored values are byte strings, which are shorter than `2 ^ 63` in memory. -/
theorem callEvents_never_panics (state : LedgerState)
    (hcodes : ∀ id record, state.programs.programs.get? id = some record → ∃ limits,
      validateCode record.code = .ok limits)
    (hstorage : state.programs.StorageFits) (ctx : CallContext) (n depth : Nat) (id : ProgramId)
    (caller : Owner) (data : List Byte) (deposit : U64) :
    (∀ event ∈ callEvents ctx n depth id caller data deposit (.start state),
      match event with
      | .panicked => False
      | .executed i _ => i.WellFormed
      | .looped code _ pc _ _ => ∃ decoded, instructions code = .ok decoded ∧
      Boundary code decoded pc
      | .scalar code limits _ stack => validateScalarCode code = .ok limits ∧
      stack.length ≤ limits.maxStack
      | _ => True) ∧
    (∀ env limits code decoded stack e callee, instructions code = .ok decoded →
      (interpretRound env limits decoded (code.length, stack)).run (handle ctx callee id) e =
      .error .invalidOperand) ∧
    (∀ code limits stateValue, validateScalarCode code = .ok limits →
      Follows limits.maxStack limits.instructionFuel (code.drop headerLen).length
        (scalarStart stateValue limits.scalarFuel) (code.drop headerLen)) ∧
    ∀ code limits stateValue fuelLimit result, validateScalarCode code = .ok limits →
      executeCodeWithState code stateValue fuelLimit = .ok result →
        result.fuelUsed = limits.memoryPages * memoryPageCost + limits.instructionFuel := by
  refine ⟨?_, ?_, ?_, ?_⟩
  · have hversion : ∀ id code, (Engine.start state).codeOf id = some code → 4 < code.length := by
      intro id code hcode
      obtain ⟨record, hrecord, rfl⟩ := Option.map_eq_some_iff.mp hcode
      obtain ⟨limits, hlimits⟩ := hcodes id record hrecord
      exact lt_of_lt_of_le (by decide) (headerLen_le_of_validateCode hlimits)
    have hready : Ready True (.start state) :=
      ⟨within_start state, fun _ => hversion, fun _ => hstorage⟩
    intro event hevent
    have hat := callEvents_sound n depth id caller data deposit (.start state) hready event hevent
    cases event with
    | entered e | returned e => trivial
    | executed i e => exact hat.2
    | looped code limits pc stack e => exact hat.2.2.2
    | scalar code limits opcode stack => exact hat
    | panicked => exact hat trivial
  · intro env limits code decoded stack e callee hdecoded
    rw [run_interpretRound, (instructions_decoded hdecoded).get?_length]
    rfl
  · exact fun code limits stateValue h => validateScalarCode_follows h stateValue limits.scalarFuel
  · intro code limits stateValue fuelLimit result hlimits h
    obtain ⟨limits', hlimits', hused, _⟩ := executeCodeWithState_ok h
    obtain rfl : limits = limits' := Except.ok.inj (hlimits.symm.trans hlimits')
    exact hused

end

section
attribute [local instance] Crypto.checksum

/-- A program that jumps back to its first instruction, and never returns. -/
def loopingCode : List Byte := magic ++ [4, 1, 0, 1, 0, 0, 0, 0, 0, 0x20, 0, 0, 0, 0, 0x03]

/-- A state with one program. -/
def stateWithCode (code : List Byte) : LedgerState :=
  { LedgerState.empty with programs :=
    ⟨(∅ : OrderedMap ProgramId ProgramRecord).insert 1 ⟨0, code, 2, 0, 0, I64.zero, ∅⟩, ∅⟩ }

def loopingState : LedgerState := stateWithCode loopingCode

theorem loopingState_codes (id : ProgramId) (record : ProgramRecord)
    (h : loopingState.programs.programs.get? id = some record) :
    (∃ limits, validateCode record.code = .ok limits) ∧ record.storage = ∅ := by
  rw [loopingState, stateWithCode, get?_insert] at h
  split_ifs at h
  · cases h
    exact ⟨⟨⟨0, 1, 1, 2, 0⟩, by decide +kernel⟩, rfl⟩
  · cases h

theorem callEvents_never_panics_looping :
    VmEvent.panicked ∉ callEvents ⟨noApplications, 2, 0, 0⟩ (maxCallFuel + 1) (maxCallDepth + 1) 1
      (.program 2) [] 0
      (.start loopingState) := by
  have hstorage : loopingState.programs.StorageFits := by
    intro id record hrecord key value hvalue
    rw [(loopingState_codes id record hrecord).2] at hvalue
    cases hvalue
  have h := callEvents_never_panics loopingState (fun id record hrecord =>
    (loopingState_codes id record hrecord).1)
    hstorage ⟨noApplications, 2, 0, 0⟩ (maxCallFuel + 1) (maxCallDepth + 1) 1 (.program 2) [] 0
  exact fun hmem => h.1 _ hmem

/-- The code of the manual that returns 7: version 1, a stack of one value and no memory pages. -/
def returningSeven : List Byte :=
  magic ++ [1, 1, 0, 0, 0, 0, 0, 0, 0, 0x01, 7, 0, 0, 0, 0, 0, 0, 0, 0x03]

def callOfOne : AuthorizedProgramInvocation :=
  ⟨2, ⟨.vm, 0, (1 : Hash).bytes⟩, ⟨0, [1], [], ⟨1⟩⟩, ⟨0, ⟨.mlDsa44, []⟩, ⟨.mlDsa44, []⟩⟩⟩

/-- When it returns, eight bytes are on its stack, and its header declares none. -/
theorem returningSeven_exceeds_pages :
    ∃ limits stack, validateScalarCode returningSeven = .ok limits ∧
    .scalar returningSeven limits 0x03 stack ∈ applyEvents (maxCallFuel + 1) (maxCallDepth + 1)
      (stateWithCode returningSeven) callOfOne 1 0 noApplications ∧
    limits.memoryPages * pageBytes < stack.length * 8 := by
  have hseen : ((applyEvents (maxCallFuel + 1) (maxCallDepth + 1) (stateWithCode returningSeven)
      callOfOne 1 0
      noApplications).any fun event => match event with
        | .scalar code limits opcode stack => decide (code = returningSeven ∧ opcode = 0x03 ∧
            validateScalarCode returningSeven = .ok limits ∧
              limits.memoryPages * pageBytes < stack.length * 8)
        | _ => false) = true := by
    decide +kernel
  obtain ⟨event, hmem, hevent⟩ := any_eq_true.mp hseen
  cases event with
  | scalar code limits opcode stack =>
    obtain ⟨rfl, rfl, hlimits, hbytes⟩ := of_decide_eq_true hevent
    exact ⟨limits, stack, hlimits, hmem, hbytes⟩
  | entered | looped | executed | panicked | returned => cases hevent

end

end Xparq
