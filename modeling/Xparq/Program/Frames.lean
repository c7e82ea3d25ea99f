import Xparq.Program.Interpreter
import Xparq.Program.Decoded

/-!
# What an instruction asks for and leaves behind

The interpreter adds byte lengths as machine words: what an instruction is charged, and the size
of the stack after it. `execInstruction_keeps` shows that no such sum overflows, as long as the
stack was within its limits and the storage is `valid`, that is, holds byte strings that fit in
memory. It also says where an instruction goes: only the two jumps leave the sequence, to their
target.
-/

namespace Xparq

open Machine Outcome
open RequestTree (Keeps lift)

/-- The number of bytes on a stack. -/
def stackSize (stack : Stack) : Nat := (stack.map Value.size).sum

@[simp, grind =] theorem stackSize_cons (value : Value) (stack : Stack) :
    stackSize (value :: stack) = value.size + stackSize stack := rfl

variable {stack : Stack}

@[grind →]
theorem pop_size {p : Value × Stack} (h : pop stack = .ok p) :
    p.1.size + stackSize p.2 = stackSize stack := by
  cases stack with
  | nil => cases h
  | cons value stack =>
    cases h
    rfl

@[grind →]
theorem popInt_size {p : U128 × Stack} (h : popInt stack = .ok p) :
    16 + stackSize p.2 = stackSize stack := by
  unfold popInt at h
  split at h
  · cases h
    rfl
  · cases h

@[grind →]
theorem popBytes_size {p : List Byte × Stack} (h : popBytes stack = .ok p) :
    p.1.length + stackSize p.2 = stackSize stack := by
  unfold popBytes at h
  split at h
  · cases h
    rfl
  · cases h

@[grind →]
theorem popOwner_size {p : Owner × Stack} (h : popOwner stack = .ok p) :
    33 + stackSize p.2 = stackSize stack := by
  unfold popOwner at h
  split at h
  · cases h
    rfl
  · cases h

@[grind →]
theorem popAsset_size {p : AssetContract × Stack} (h : popAsset stack = .ok p) :
    stackSize p.2 ≤ stackSize stack := by
  simp only [popAsset, bind_eq_ok, return_eq_ok] at h
  obtain ⟨q, hq, asset, _, rfl⟩ := h
  have := popBytes_size hq
  dsimp only
  omega

section
variable (valid : Prop)

/-- A charge is a machine word. -/
def FrameRequest.Fits : FrameRequest → Prop
  | .charge n => valid → n < 2 ^ 64
  | _ => True

/-- A stored value is a byte string that fits in memory. -/
def FrameRequest.AnswerFits : (r : FrameRequest) → r.Answer → Prop
  | .loadStorage _, value => valid → ∀ l, value = some l → l.length < 2 ^ 63
  | _, _ => True

/-- The size of the stack is a machine word, and a jump goes to the target of the instruction. -/
def Flow.Fits (i : Instruction) : Flow → Prop
  | .next stack => valid → stackSize stack < 2 ^ 64
  | .jump pc stack => (valid → stackSize stack < 2 ^ 64) ∧ (i.op.val = 0x20 ∨ i.op.val = 0x21) ∧
      pc = jumpTarget i
  | .finish _ => True

abbrev KeepsFits (i : Instruction) (t : Frame Flow) : Prop :=
  Keeps (I := FrameHost) (FrameRequest.AnswerFits valid) (FrameRequest.Fits valid)
    (Flow.Fits valid i) t

end

variable {valid : Prop} {i : Instruction}

theorem keeps_ask_bind {r : FrameRequest} {f : r.Answer → Frame Flow} (hr : r.Fits valid)
    (h : ∀ x, r.AnswerFits valid x → KeepsFits valid i (f x)) :
    KeepsFits valid i (ask r >>= f) := ⟨hr, h⟩

@[grind →]
theorem loaded_length_lt {key : List Byte} {value : Option (List Byte)}
    (h : (FrameRequest.loadStorage key).AnswerFits valid value) (hvalid : valid) :
    (value.getD []).length < 2 ^ 63 := by
  cases value with
  | none => decide
  | some l => exact h hvalid l rfl

attribute [local grind =] length_leBytes Owner.length_encode Hash.length_bytes rejectIf_eq_ok

section
variable [Crypto] {stack : Stack}

theorem dataInstruction_keeps (op : Byte) (hstack : stackSize stack < 2 ^ 62) :
    KeepsFits valid i (dataInstruction op stack) := by
  unfold dataInstruction storeInstruction
  split <;> repeat' first
    | exact Keeps.throw _
    | refine Keeps.lift_bind fun _ _ => ?_
    | refine keeps_ask_bind ?_ fun _ _ => ?_
    | refine Keeps.pure ?_
  -- what is left is arithmetic: each charge and the size of the stack
  all_goals simp only [FrameRequest.Fits, Flow.Fits, stackSize_cons, Value.size]
  all_goals grind

theorem monetaryInstruction_keeps (env : FrameEnv) (op : Byte) (hstack : stackSize stack < 2 ^ 62) :
    KeepsFits valid i (monetaryInstruction env op stack) := by
  unfold monetaryInstruction registerInstruction
  split <;> repeat' first
    | exact Keeps.throw _
    | refine Keeps.lift_bind fun _ _ => ?_
    | refine keeps_ask_bind ?_ fun _ _ => ?_
    | refine Keeps.pure ?_
  all_goals simp only [FrameRequest.Fits, Flow.Fits, stackSize_cons, Value.size]
  all_goals grind [callCost, transferCost, assetRegisterCost]

/-- No instruction makes a charge or a stack that is not a machine word, and only the jumps jump. -/
theorem execInstruction_keeps (env : FrameEnv) (hdata : env.data.length ≤ maxDataBytes)
    (hwell : i.WellFormed) (hstack : stackSize stack < 2 ^ 62) :
    KeepsFits valid i (execInstruction env i stack) := by
  have hbytes := hwell.bytes
  unfold execInstruction
  split
  -- under reducible transparency where that is enough, so that no instruction is executed on the
  -- way
  all_goals repeat' first
    | split_ifs
    | with_reducible exact dataInstruction_keeps _ hstack
    | with_reducible exact monetaryInstruction_keeps env _ hstack
    | with_reducible exact Keeps.throw _
    | with_reducible refine Keeps.pure ?_
    | with_reducible refine Keeps.lift_bind fun _ _ => ?_
    | refine keeps_ask_bind ?_ fun _ _ => ?_
    | split
  all_goals simp only [FrameRequest.Fits, Flow.Fits, stackSize_cons]
  all_goals grind [maxDataBytes, Value.size]

end

end Xparq
