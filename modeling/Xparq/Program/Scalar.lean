import Xparq.Program.Code

/-!
# Checked scalar code runs

The check of versions 1 to 3 scans a body once. The interpreter then pops operands, slices
constants and decodes requests without looking, and panics where the scan and the run disagree;
the model reports these places as `invalidOperand`.

They never disagree (`scanBody_follows`): instruction by instruction, the run takes the bytes the
scan took, its stack has the depth the scan counted, and only an addition can fail. So the costs
of what is executed add up to the fuel the scan counted.
-/

namespace Xparq

open Machine Outcome List

theorem scalarCost_pos (opcode : Byte) : 1 ≤ scalarCost opcode := by
  unfold scalarCost
  split <;> decide

theorem I64.exists_ofBytes {l : List Byte} (h : l.length = 8) : ∃ v, I64.ofBytes l = some v := by
  have hlt := ofLeBytes_lt l
  rw [h] at hlt
  unfold I64.ofBytes I64.ofInt?
  rw [dif_pos (by split_ifs <;> omega)]
  exact ⟨_, rfl⟩

/-- The opcodes a run executes, each with the stack it finds. -/
def scalarTrace : Nat → ScalarFrame → List Byte → List (Byte × List I64)
  | _, _, [] => []
  | 0, _, _ :: _ => []
  | n + 1, frame, opcode :: rest => (opcode, frame.stack) ::
    match scalarStep frame opcode rest with
    | .ok (frame, rest, false) => scalarTrace n frame rest
    | _ => []

def traceCost (trace : List (Byte × List I64)) : Nat := (trace.map fun p => scalarCost p.1).sum

theorem length_le_traceCost (trace : List (Byte × List I64)) : trace.length ≤ traceCost trace := by
  induction trace with
  | nil => exact le_refl 0
  | cons p trace ih =>
    have hcost := scalarCost_pos p.1
    simp only [traceCost, map_cons, sum_cons, length_cons] at ih ⊢
    omega

variable {version : Byte} {maxStack : Nat} {scan scan' final : Scan} {frame : ScalarFrame}

theorem Scan.push_eq_ok : scan.push maxStack = .ok scan' ↔
    (scan.depth + 1 < 2 ^ 16 ∧ scan.depth + 1 ≤ maxStack) ∧
      { scan with depth := scan.depth + 1 } = scan' := by
  simp only [Scan.push, bind_eq_ok, rejectIf_eq_ok, return_eq_ok, not_or, not_le, not_lt,
    exists_const]

variable {opcode : Byte} {rest rest' code : List Byte} {n fuel : Nat}

/-- An instruction the scan accepts can be executed, unless an addition overflows. -/
theorem scanInstruction_step (frame : ScalarFrame) {returned : Bool}
    (hdepth : frame.stack.length = scan.depth) (hmax : scan.depth ≤ maxStack)
    (h : scanInstruction version maxStack scan opcode rest = .ok (scan', rest', returned)) :
    scan'.fuel = scan.fuel ∧ scan'.depth ≤ maxStack ∧
      (scalarStep frame opcode rest = .error .arithmeticOverflow ∨
        ∃ frame', scalarStep frame opcode rest = .ok (frame', rest', returned) ∧
          frame'.result.fuelUsed = frame.result.fuelUsed ∧ frame'.stack.length = scan'.depth) := by
  unfold scanInstruction at h
  unfold scalarStep
  split at h
  · -- nop
    cases h
    exact ⟨rfl, hmax, .inr ⟨frame, rfl, rfl, hdepth⟩⟩
  · -- a constant
    simp only [bind_eq_ok, rejectIf_eq_ok, not_lt, Scan.push_eq_ok, return_eq_ok,
      Prod.mk.injEq] at h
    obtain ⟨_, hlength, _, ⟨⟨_, hpush⟩, rfl⟩, rfl, rfl, rfl⟩ := h
    obtain ⟨value, hvalue⟩ := I64.exists_ofBytes (length_take_of_le hlength)
    refine ⟨rfl, hpush, .inr ⟨{ frame with stack := value :: frame.stack }, ?_, rfl,
      congrArg (· + 1) hdepth⟩⟩
    have htake : takeBytes 8 rest = some (rest.take 8, rest.drop 8) := if_pos hlength
    exact bind_eq_ok.mpr ⟨_, okOr_eq_ok.mpr htake, bind_eq_ok.mpr ⟨_, okOr_eq_ok.mpr hvalue, rfl⟩⟩
  · -- an addition
    simp only [bind_eq_ok, rejectIf_eq_ok, not_lt, return_eq_ok, Prod.mk.injEq] at h
    obtain ⟨_, htwo, rfl, rfl, rfl⟩ := h
    refine ⟨rfl, (Nat.sub_le _ _).trans hmax, ?_⟩
    rcases hstack : frame.stack with _ | ⟨right, _ | ⟨left, stack⟩⟩
    · simp [← hdepth, hstack] at htwo
    · simp [← hdepth, hstack] at htwo
    · dsimp only
      cases hsum : left.checkedAdd right with
      | none => exact .inl rfl
      | some sum =>
        refine .inr ⟨_, rfl, rfl, ?_⟩
        simp [← hdepth, hstack]
  · -- the state slot is read
    simp only [bind_eq_ok, Scan.push_eq_ok, return_eq_ok, Prod.mk.injEq] at h
    obtain ⟨_, ⟨⟨_, hpush⟩, rfl⟩, rfl, rfl, rfl⟩ := h
    exact ⟨rfl, hpush, .inr ⟨_, rfl, rfl, congrArg (· + 1) hdepth⟩⟩
  · -- the state slot is written
    simp only [bind_eq_ok, rejectIf_eq_ok, return_eq_ok, Prod.mk.injEq] at h
    obtain ⟨_, hone, rfl, rfl, rfl⟩ := h
    refine ⟨rfl, (Nat.sub_le _ _).trans hmax, ?_⟩
    cases hstack : frame.stack with
    | nil => simp [← hdepth, hstack] at hone
    | cons value stack =>
      refine .inr ⟨_, rfl, rfl, ?_⟩
      simp [← hdepth, hstack]
  · -- a coin transfer
    simp only [bind_eq_ok, rejectIf_eq_ok, okOr_eq_ok, return_eq_ok, Prod.mk.injEq,
      Prod.exists] at h
    obtain ⟨_, _, request, rest₁, hread, _, _, rfl, rfl, rfl⟩ := h
    simp only [hread, unreachable, okOr, ok_bind]
    exact ⟨trivial, hmax, .inr ⟨_, rfl, rfl, hdepth⟩⟩
  · -- an asset transfer
    simp only [bind_eq_ok, rejectIf_eq_ok, okOr_eq_ok, return_eq_ok, Prod.mk.injEq,
      Prod.exists] at h
    obtain ⟨_, _, asset, rest₁, hasset, request, rest₂, hread, _, _, rfl, rfl, rfl⟩ := h
    simp only [hasset, hread, unreachable, okOr, ok_bind]
    exact ⟨trivial, hmax, .inr ⟨_, rfl, rfl, hdepth⟩⟩
  · -- a registration
    simp only [bind_eq_ok, rejectIf_eq_ok, return_eq_ok, Prod.mk.injEq, Prod.exists] at h
    obtain ⟨_, _, request, rest₁, hread, rfl, rfl, rfl⟩ := h
    simp only [hread, orError, ok_bind]
    exact ⟨trivial, hmax, .inr ⟨_, rfl, rfl, hdepth⟩⟩
  · -- a mint
    simp only [bind_eq_ok, rejectIf_eq_ok, okOr_eq_ok, return_eq_ok, Prod.mk.injEq,
      Prod.exists] at h
    obtain ⟨_, _, request, rest₁, hread, _, _, rfl, rfl, rfl⟩ := h
    simp only [hread, unreachable, okOr, ok_bind]
    exact ⟨trivial, hmax, .inr ⟨_, rfl, rfl, hdepth⟩⟩
  · -- the return
    simp only [bind_eq_ok, rejectIf_eq_ok, not_or, not_not, return_eq_ok, Prod.mk.injEq] at h
    obtain ⟨_, ⟨hone, _⟩, rfl, rfl, rfl⟩ := h
    refine ⟨rfl, hmax, ?_⟩
    cases hstack : frame.stack with
    | nil => simp [← hdepth, hstack] at hone
    | cons value stack => exact .inr ⟨_, rfl, rfl, by rw [← hdepth, hstack]⟩
  · cases h

/-! ## Whole bodies -/

/-- A run that keeps within its stack, fails in an addition only, and spends at most `fuel`, all
of it if it completes. -/
structure Follows (maxStack fuel n : Nat) (frame : ScalarFrame) (body : List Byte) : Prop where
  stack_le : ∀ p ∈ scalarTrace n frame body, p.2.length ≤ maxStack
  cost_le : traceCost (scalarTrace n frame body) ≤ fuel
  ends : scalarRun n frame body = .error .arithmeticOverflow ∨
    ∃ result, scalarRun n frame body = .ok result ∧ result.fuelUsed = frame.result.fuelUsed ∧
      traceCost (scalarTrace n frame body) = fuel

theorem Follows.last (hstack : frame.stack.length ≤ maxStack)
    (htrace : scalarTrace (n + 1) frame (opcode :: rest) = [(opcode, frame.stack)])
    (hcost : scalarCost opcode ≤ fuel)
    (hends : scalarRun (n + 1) frame (opcode :: rest) = .error .arithmeticOverflow ∨
      ∃ result, scalarRun (n + 1) frame (opcode :: rest) = .ok result ∧
        result.fuelUsed = frame.result.fuelUsed ∧ scalarCost opcode = fuel) :
    Follows maxStack fuel (n + 1) frame (opcode :: rest) where
  stack_le p hp := by
    rw [htrace, mem_singleton] at hp
    rw [hp]
    exact hstack
  cost_le := by simpa [htrace, traceCost] using hcost
  ends := by simpa [htrace, traceCost] using hends

theorem Follows.cons {frame' : ScalarFrame} (hstack : frame.stack.length ≤ maxStack)
    (hstep : scalarStep frame opcode rest = .ok (frame', rest', false))
    (hused : frame'.result.fuelUsed = frame.result.fuelUsed)
    (h : Follows maxStack fuel n frame' rest') :
    Follows maxStack (scalarCost opcode + fuel) (n + 1) frame (opcode :: rest) := by
  have htrace : scalarTrace (n + 1) frame (opcode :: rest) =
      (opcode, frame.stack) :: scalarTrace n frame' rest' := by rw [scalarTrace, hstep]
  have hrun : scalarRun (n + 1) frame (opcode :: rest) = scalarRun n frame' rest' := by
    rw [scalarRun, hstep]
    rfl
  have hcost : traceCost (scalarTrace (n + 1) frame (opcode :: rest)) =
      scalarCost opcode + traceCost (scalarTrace n frame' rest') := by rw [htrace]; rfl
  refine ⟨?_, ?_, ?_⟩
  · rw [htrace]
    exact forall_mem_cons.mpr ⟨hstack, h.stack_le⟩
  · rw [hcost]
    exact Nat.add_le_add_left h.cost_le _
  · rw [hrun, hcost, ← hused, Nat.add_left_cancel_iff]
    exact h.ends

/-- The check of scalar code and its run go side by side: each instruction the check passes is one
that the run executes or fails at, within the stack and for the fuel counted. -/
theorem scanBody_follows (frame : ScalarFrame) {body : List Byte}
    (hdepth : frame.stack.length = scan.depth) (hmax : scan.depth ≤ maxStack)
    (h : scanBody version maxStack n scan body = .ok final) :
    ∃ fuel, final.fuel = scan.fuel + fuel ∧ Follows maxStack fuel n frame body := by
  induction n generalizing scan frame body with
  | zero => cases body <;> cases h
  | succ n ih =>
    cases body with
    | nil => cases h
    | cons opcode rest =>
      simp only [scanBody, bind_eq_ok, rejectIf_eq_ok, Prod.exists] at h
      obtain ⟨_, _, _, _, scan', rest', returned, hscan, h⟩ := h
      have hstack : frame.stack.length ≤ maxStack := hdepth.trans_le hmax
      obtain ⟨hfuel, hmax', hstep⟩ :=
        scanInstruction_step frame (by exact hdepth) (by exact hmax) hscan
      have hfuel' : scan'.fuel = scan.fuel + scalarCost opcode := hfuel
      cases returned with
      | true =>
        cases h
        refine ⟨_, hfuel', Follows.last hstack ?_ (le_refl _) ?_⟩
        · rcases hstep with hstep | ⟨frame', hstep, _⟩ <;> rw [scalarTrace, hstep]
        · rcases hstep with hstep | ⟨frame', hstep, hused, _⟩
          · exact .inl (by rw [scalarRun, hstep]; rfl)
          · exact .inr ⟨frame'.result, by rw [scalarRun, hstep]; rfl, hused, rfl⟩
      | false =>
        rcases hstep with hstep | ⟨frame', hstep, hused, hdepth'⟩
        · -- the scan goes on after the failing addition; any stack of its depth shows what it
          -- counts
          obtain ⟨fuel, hfinal, _⟩ := ih { frame with stack := List.replicate scan'.depth I64.zero }
            length_replicate hmax' h
          refine ⟨scalarCost opcode + fuel,
            by omega, Follows.last hstack ?_ (Nat.le_add_right _ _) (.inl ?_)⟩
          · rw [scalarTrace, hstep]
          · rw [scalarRun, hstep]
            rfl
        · obtain ⟨fuel, hfinal, hfollows⟩ := ih frame' hdepth' hmax' h
          exact ⟨scalarCost opcode + fuel, by omega, hfollows.cons hstack hstep hused⟩

/-- The locals an execution starts with. -/
def scalarStart (state : I64) (fuelUsed : Nat) : ScalarFrame :=
  ⟨[], state, { ExecutionResult.none with fuelUsed }⟩

theorem validateScalarCode_follows {limits : ValidatedCode}
    (h : validateScalarCode code = .ok limits) (state : I64) (fuelUsed : Nat) :
    Follows limits.maxStack limits.instructionFuel (code.drop headerLen).length
      (scalarStart state fuelUsed)
      (code.drop headerLen) := by
  simp only [validateScalarCode, bind_eq_ok, rejectIf_eq_ok, return_eq_ok] at h
  obtain ⟨_, _, _, _, _, _, final, hscan, _, _, rfl⟩ := h
  obtain ⟨fuel, hfuel, hfollows⟩ :=
    scanBody_follows (scalarStart state fuelUsed) rfl (Nat.zero_le _) hscan
  rw [show final.fuel = fuel from hfuel.trans (Nat.zero_add fuel)]
  exact hfollows

/-- The fuel of checked code: its memory and its instructions. -/
def ValidatedCode.scalarFuel (limits : ValidatedCode) : Nat :=
  limits.memoryPages * memoryPageCost + limits.instructionFuel

/-- An execution that completes runs checked code within the fuel, uses the fuel of the check, and
executes instructions of just that cost. -/
theorem executeCodeWithState_ok {state : I64} {fuelLimit : Nat} {result : ExecutionResult}
    (h : executeCodeWithState code state fuelLimit = .ok result) :
    ∃ limits, validateScalarCode code = .ok limits ∧ result.fuelUsed = limits.scalarFuel ∧
      limits.scalarFuel ≤ fuelLimit ∧
      traceCost (scalarTrace (code.drop headerLen).length (scalarStart state limits.scalarFuel)
        (code.drop headerLen)) = limits.instructionFuel := by
  simp only [executeCodeWithState, bind_eq_ok, rejectIf_eq_ok, mapError_eq_ok, not_or, not_lt] at h
  obtain ⟨_, _, limits, hlimits, _, ⟨_, hfuel⟩, hrun⟩ := h
  refine ⟨limits, hlimits, ?_⟩
  rcases (validateScalarCode_follows hlimits state limits.scalarFuel).ends
    with herror | ⟨result', hok, hused, hcost⟩
  · cases herror.symm.trans hrun
  · obtain rfl : result' = result := Except.ok.inj (hok.symm.trans hrun)
    exact ⟨hused, hfuel, hcost⟩

end Xparq
