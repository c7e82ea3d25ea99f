import Xparq.Program.Code
import Xparq.Lib.RequestTree

/-!
# Application frames

One frame of version-4 code as a guest: the typed stack, the metered opcodes and the jumps
are its own, everything else (fuel, storage, balances, settlement, nested calls) is a request
to the engine. A frame names its program and its caller through its environment only, which
the engine creates; no instruction can supply another identity.

The source's loop ends by running out of fuel, which the frame does not see. The model bounds
the number of iterations instead; every iteration asks for at least one unit of fuel, so the
bound `maxCallFuel + 1` is never what stops a frame.
-/

namespace Xparq

open Machine Outcome

/-- What a frame may ask of the engine. -/
inductive FrameRequest
  | charge (fuel : Nat)
  | action
  | stateValue
  | setState (value : I64)
  | loadStorage (key : List Byte)
  | storeStorage (key : List Byte) (value : Option (List Byte))
  | owner
  | ensureAccounts
  | assetBalance (asset : AssetContract)
  | coinBalance
  | settle (result : ExecutionResult)
  | transferAsset (asset : AssetContract) (recipient : Owner) (amount : Units)
  | transferAssetMany (asset : AssetContract) (outputs : List AssetOutput)
  | burnAsset (asset : AssetContract) (amount : Units)
  | call (target : ProgramId) (input : List Byte) (deposit : U64)

def FrameRequest.Answer : FrameRequest → Type
  | stateValue => I64
  | loadStorage _ => Option (List Byte)
  | owner => ProgramId
  | assetBalance _ => U128
  | coinBalance => U64
  | call _ _ _ => U128
  | _ => Unit

abbrev FrameHost : HostInterface where
  Request := FrameRequest
  Answer := FrameRequest.Answer

abbrev Frame := RequestTree FrameHost ExecutionError

def ask (r : FrameRequest) : Frame r.Answer := RequestTree.request (I := FrameHost) r

inductive Value
  | int (v : U128)
  | bytes (l : List Byte)
  | owner (o : Owner)
  deriving DecidableEq

def Value.size : Value → Nat
  | int _ => 16
  | owner _ => 33
  | bytes l => l.length

/-- The operand stack, top first. -/
abbrev Stack := List Value

def pop : Stack → Except ExecutionError (Value × Stack)
  | value :: stack => .ok (value, stack)
  | [] => .error .invalidOperand

def popInt : Stack → Except ExecutionError (U128 × Stack)
  | .int v :: stack => .ok (v, stack)
  | _ => .error .invalidOperand

def popBytes : Stack → Except ExecutionError (List Byte × Stack)
  | .bytes l :: stack => .ok (l, stack)
  | _ => .error .invalidOperand

def popOwner : Stack → Except ExecutionError (Owner × Stack)
  | .owner o :: stack => .ok (o, stack)
  | _ => .error .invalidOperand

/-- `u64::try_from`. -/
def toU64 (v : U128) : Except ExecutionError U64 := okOr (ofNat? (2 ^ 64) v.val) .arithmeticOverflow

def ofBool (b : Bool) : U128 := if b then 1 else 0

/-- `AssetContract::try_from_slice`. -/
def assetId (l : List Byte) : Except ExecutionError AssetContract :=
  okOr (Reader.all Hash.decode l) .invalidOperand

def popAsset (stack : Stack) : Except ExecutionError (AssetContract × Stack) := do
  let (l, stack) ← popBytes stack
  let asset ← assetId l
  return (asset, stack)

/-- What the engine fixes for a frame. -/
structure FrameEnv where
  id : ProgramId
  caller : Owner
  signer : ProgramId
  height : U64
  data : List Byte
  deposit : U64

/-- How an instruction leaves the frame. -/
inductive Flow
  | next (stack : Stack)
  | jump (pc : Nat) (stack : Stack)
  | finish (value : U128)

def opCost (op : Byte) : Nat :=
  match op.val with
  | 0x30 => stateReadCost
  | 0x31 | 0x32 => stateWriteCost
  | 0x40 | 0x41 | 0x42 | 0x4b | 0x4c => transferCost
  | 0x43 => callCost
  | _ => instructionCost

def arithmetic (op : Byte) (left right : U128) : Option U128 :=
  match op.val with
  | 0x02 => checkedAdd left right
  | 0x24 => checkedSub left right
  | 0x25 => checkedMul left right
  | 0x26 => if right = 0 then none else some (left / right)
  | 0x27 => some (ofBool (left < right))
  | _ => some (ofBool (left ≤ right))

/-- A sixteen-byte number; no bytes are zero. -/
def bytesToInt (l : List Byte) : Except ExecutionError U128 :=
  if l = [] then .ok 0
  else if l.length = 16 then okOr (ofNat? (2 ^ 128) (ofLeBytes l)) .invalidOperand
  else .error .invalidOperand

/-- Read the listed outputs of a multi-output transfer. -/
def readOutputs : Nat → List Byte → Except ExecutionError (List AssetOutput × List Byte)
  | 0, l => .ok ([], l)
  | n + 1, l => do
      let (output, l) ← okOr (readAssetOutput l) .invalidOperand
      rejectIf (output.amount = 0) .invalidOperand
      let (outputs, l) ← readOutputs n l
      return (output :: outputs, l)

def decodeAssetTransfer (l : List Byte) :
    Except ExecutionError (AssetContract × List AssetOutput) := do
  let (asset, l) ← okOr (Hash.decode l) .invalidOperand
  let (count, l) ← okOr (readLe 4 l) .invalidOperand
  rejectIf (count = 0 ∨ count > maxAssetTransferOutputs) .resourceLimit
  let (outputs, l) ← readOutputs count l
  rejectIf (l ≠ []) .invalidOperand
  return (asset, outputs)

open RequestTree (lift)

/-- A settlement request with one proposal. -/
def ExecutionResult.ofCoin (recipient : Owner) (amount : U64) : ExecutionResult :=
  { ExecutionResult.none with coinTransfer := some ⟨recipient, amount⟩ }

/-- Write or delete a storage key. -/
def storeInstruction (value : Option (List Byte)) (stack : Stack) : Frame Flow := do
  let (key, stack) ← lift (popBytes stack)
  lift (checkKey key)
  lift (rejectIf (value.any (fun v => v.isEmpty || v.length > maxDataBytes) = true) .invalidOperand)
  ask (.charge (key.length + (value.map List.length).getD 0))
  ask .action
  ask (.storeStorage key value)
  return .next stack

section
variable [Crypto]

/-- Register an asset of the executing program and push its identifier. -/
def registerInstruction (env : FrameEnv) (stack : Stack) : Frame Flow := do
  let (l, stack) ← lift (popBytes stack)
  ask (.charge (l.length + assetRegisterCost))
  let (request, rest) ← lift ((decodeRegisterRequest l).mapError .invalidCode)
  lift (rejectIf (rest ≠ []) .invalidOperand)
  let actor := Owner.program env.id
  let metadata ← lift (orError (Metadata.new request.name request.maxSupply actor actor)
    .invalidOperand)
  let asset ← lift (orError (AssetContract.derive metadata request.nonce) .invalidOperand)
  ask (.settle { ExecutionResult.none with assetRegister := some request })
  return .next (.bytes asset.bytes :: stack)

/-- Transfers, mints, burns, balances and calls. -/
def monetaryInstruction (env : FrameEnv) (op : Byte) (stack : Stack) : Frame Flow :=
  match op.val with
  | 0x40 => do
      let (amount, stack) ← lift (popInt stack)
      let amount ← lift (toU64 amount)
      let (recipient, stack) ← lift (popOwner stack)
      lift (rejectIf (amount = 0) .invalidOperand)
      ask (.settle (.ofCoin recipient amount))
      return .next stack
  | 0x41 => do
      let (amount, stack) ← lift (popInt stack)
      let (recipient, stack) ← lift (popOwner stack)
      let (asset, stack) ← lift (popAsset stack)
      ask (.transferAsset asset recipient amount)
      return .next stack
  | 0x42 => do
      let (amount, stack) ← lift (popInt stack)
      let (recipient, stack) ← lift (popOwner stack)
      let (asset, stack) ← lift (popAsset stack)
      ask (.settle
        { ExecutionResult.none with assetMint := some ⟨.existing asset, recipient, amount⟩ })
      return .next stack
  | 0x43 => do
      let (input, stack) ← lift (popBytes stack)
      let (target, stack) ← lift (popOwner stack)
      ask (.charge input.length)
      let value ← ask (.call target.programId input 0)
      return .next (.int value :: stack)
  | 0x44 => pure (.next (.int ⟨env.deposit.val, lt_u128 env.deposit⟩ :: stack))
  | 0x45 => registerInstruction env stack
  | 0x46 => do
      ask .ensureAccounts
      let (asset, stack) ← lift (popAsset stack)
      let balance ← ask (.assetBalance asset)
      return .next (.int balance :: stack)
  | 0x47 => do
      ask .ensureAccounts
      let balance : U64 ← ask .coinBalance
      return .next (.int ⟨balance.val, lt_u128 balance⟩ :: stack)
  | 0x48 => do
      let (amount, stack) ← lift (popInt stack)
      let amount ← lift (toU64 amount)
      let (input, stack) ← lift (popBytes stack)
      let (target, stack) ← lift (popOwner stack)
      ask (.charge (callCost + transferCost + input.length))
      lift (rejectIf (amount = 0) .invalidOperand)
      ask (.settle (.ofCoin (.program target.programId) amount))
      let value ← ask (.call target.programId input amount)
      return .next (.int value :: stack)
  | 0x49 => pure (.next (.int ⟨env.height.val, lt_u128 env.height⟩ :: stack))
  | 0x4a => do
      let owner ← ask .owner
      return .next (.owner (.program owner) :: stack)
  | 0x4b => do
      let (amount, stack) ← lift (popInt stack)
      let (asset, stack) ← lift (popAsset stack)
      ask (.burnAsset asset amount)
      return .next stack
  | 0x4c => do
      let (request, stack) ← lift (popBytes stack)
      let (asset, outputs) ← lift (decodeAssetTransfer request)
      ask (.transferAssetMany asset outputs)
      return .next stack
  | _ => throw .invalidOperand

/-- Bytes, owners, hashing and storage. -/
def dataInstruction (op : Byte) (stack : Stack) : Frame Flow :=
  match op.val with
  | 0x29 => do
      let (l, stack) ← lift (popBytes stack)
      let value ← lift (bytesToInt l)
      return .next (.int value :: stack)
  | 0x2a => do
      let (value, stack) ← lift (popInt stack)
      return .next (.bytes (leBytes 16 value.val) :: stack)
  | 0x2b => do
      let (right, stack) ← lift (popBytes stack)
      let (left, stack) ← lift (popBytes stack)
      lift (rejectIf (left.length + right.length > maxDataBytes) .resourceLimit)
      ask (.charge (left.length + right.length))
      return .next (.bytes (left ++ right) :: stack)
  | 0x30 => do
      let (key, stack) ← lift (popBytes stack)
      lift (checkKey key)
      let value : Option (List Byte) ← ask (.loadStorage key)
      let value := value.getD []
      ask (.charge (key.length + value.length))
      return .next (.bytes value :: stack)
  | 0x31 => do
      let (value, stack) ← lift (popBytes stack)
      storeInstruction (some value) stack
  | 0x32 => storeInstruction none stack
  | 0x33 => do
      let (owner, stack) ← lift (popOwner stack)
      return .next (.bytes owner.encode :: stack)
  | 0x34 => do
      let (l, stack) ← lift (popBytes stack)
      let owner ← lift (okOr (Owner.ofSlice l) .invalidOperand)
      return .next (.owner owner :: stack)
  | 0x35 => do
      let (length, stack) ← lift (popInt stack)
      lift (rejectIf (length.val ≥ 2 ^ 64) .invalidOperand)
      let (start, stack) ← lift (popInt stack)
      lift (rejectIf (start.val ≥ 2 ^ 64) .invalidOperand)
      let (l, stack) ← lift (popBytes stack)
      lift (rejectIf (start.val + length.val > l.length) .invalidOperand)
      ask (.charge length.val)
      return .next (.bytes ((l.drop start.val).take length.val) :: stack)
  | 0x36 => do
      let (l, stack) ← lift (popBytes stack)
      let length ← lift (okOr (ofNat? (2 ^ 128) l.length) .invalidOperand)
      return .next (.int length :: stack)
  | 0x37 => do
      let (l, stack) ← lift (popBytes stack)
      ask (.charge l.length)
      return .next (.bytes (hashBytes l).bytes :: stack)
  | _ => throw .invalidOperand

/-- One instruction. -/
def execInstruction (env : FrameEnv) (i : Instruction) (stack : Stack) : Frame Flow :=
  match i.op.val with
  | 0x00 => pure (.next stack)
  | 0x01 => do
      let value ← lift (okOr (ofNat? (2 ^ 128) (ofLeBytes i.immediate)) .invalidOperand)
      return .next (.int value :: stack)
  | 0x03 => do
      lift (rejectIf (stack.length ≠ 1) .invalidOperand)
      let (value, _) ← lift (popInt stack)
      return .finish value
  | 0x04 => do
      let value ← ask .stateValue
      return .next (.int (I64.toU128 value) :: stack)
  | 0x05 => do
      ask .action
      let (value, stack) ← lift (popInt stack)
      let value ← lift (okOr (I64.ofInt? value.val) .arithmeticOverflow)
      ask (.setState value)
      return .next stack
  | 0x10 => do
      ask (.charge i.immediate.length)
      return .next (.bytes i.immediate :: stack)
  | 0x11 => do
      let owner ← lift (okOr (Owner.ofSlice i.immediate) .invalidOperand)
      return .next (.owner owner :: stack)
  | 0x12 => pure (.next (.owner env.caller :: stack))
  | 0x13 => pure (.next (.owner (.program env.id) :: stack))
  | 0x14 => pure (.next (.owner (.program env.signer) :: stack))
  | 0x15 => do
      ask (.charge env.data.length)
      return .next (.bytes env.data :: stack)
  | 0x16 => do
      let (value, _) ← lift (pop stack)
      match value with
      | .bytes l => ask (.charge l.length)
      | _ => pure ()
      return .next (value :: stack)
  | 0x17 => do
      let (_, stack) ← lift (pop stack)
      return .next stack
  | 0x18 => do
      let (top, stack) ← lift (pop stack)
      let (second, stack) ← lift (pop stack)
      return .next (second :: top :: stack)
  | 0x19 => do
      let (right, stack) ← lift (pop stack)
      let (left, stack) ← lift (pop stack)
      return .next (.int (ofBool (left = right)) :: stack)
  | 0x20 => pure (.jump (jumpTarget i) stack)
  | 0x21 => do
      let (value, stack) ← lift (popInt stack)
      return if value = 0 then .jump (jumpTarget i) stack else .next stack
  | 0x22 => do
      let (value, stack) ← lift (popInt stack)
      lift (rejectIf (value = 0) .reverted)
      return .next stack
  | 0x23 => throw .reverted
  | n =>
    if n = 0x02 ∨ (0x24 ≤ n ∧ n ≤ 0x28) then do
      let (right, stack) ← lift (popInt stack)
      let (left, stack) ← lift (popInt stack)
      let value ← lift (okOr (arithmetic i.op left right) .arithmeticOverflow)
      return .next (.int value :: stack)
    else if n < 0x40 then dataInstruction i.op stack
    else monetaryInstruction env i.op stack

/-- The limits that hold after every instruction. -/
def checkStack (limits : ValidatedCode) (stack : Stack) : Except ExecutionError Unit :=
  rejectIf (stack.length > limits.maxStack ∨
    (stack.map Value.size).sum > limits.memoryPages * pageBytes) .resourceLimit

/-- The interpreter loop, for at most `n` instructions. -/
def interpretLoop (env : FrameEnv) (limits : ValidatedCode) (decoded : OrderedMap Nat Instruction) :
    Nat → Nat → Stack → Frame U128
  | 0, _, _ => throw .outOfFuel
  | n + 1, pc, stack => do
      let i ← lift (okOr (decoded.get? pc) .invalidOperand)
      ask (.charge (opCost i.op))
      match ← execInstruction env i stack with
      | .finish value => return value
      | .next stack => do
          lift (checkStack limits stack)
          interpretLoop env limits decoded n i.next stack
      | .jump pc stack => do
          lift (checkStack limits stack)
          interpretLoop env limits decoded n pc stack

/-- `Engine::interpret`. -/
def interpret (env : FrameEnv) (code : List Byte) : Frame U128 := do
  let limits ← lift ((validateCode code).mapError .invalidCode)
  let decoded ← lift ((instructions code).mapError .invalidCode)
  ask (.charge (limits.memoryPages * memoryPageCost))
  interpretLoop env limits decoded (maxCallFuel + 1) headerLen []

end

/-! ## Storage writes are paid for

The engine does not check a storage request; the frame does. It asks for a storage write only
directly after an action was counted, and only for an admissible key. -/

/-- The phase says whether an action was counted just now. -/
def storeProtocol : RequestTree.Protocol FrameHost where
  Phase := Bool
  Allowed
    | paid, .storeStorage key _ => paid = true ∧ checkKey key = .ok ()
    | _, _ => True
  after
    | _, .action => true
    | _, _ => false

open RequestTree (Free)

theorem free_ask {r : FrameRequest} (h : ∀ key value, r ≠ .storeStorage key value) :
    Free storeProtocol (ask r) := by
  refine Free.request fun p => ?_
  cases r with
  | storeStorage key value => exact absurd rfl (h key value)
  | _ => trivial

theorem storeInstruction_free (value : Option (List Byte)) (stack : Stack) :
    Free storeProtocol (storeInstruction value stack) := by
  refine Free.bind (Free.lift _) ?_
  rintro ⟨key, stack⟩
  -- the key is checked before anything is asked
  cases hkey : checkKey key with
  | error e =>
    simp only [hkey]
    exact fun p => trivial
  | ok u =>
    refine Free.bind (Free.lift _) fun _ => Free.bind (Free.lift _) fun _ => ?_
    exact Free.bind (free_ask (by simp)) fun _ p => ⟨trivial,
      fun _ => ⟨⟨rfl, hkey⟩, fun _ => trivial⟩⟩

section
variable [Crypto]

theorem dataInstruction_free (op : Byte) (stack : Stack) :
    Free storeProtocol (dataInstruction op stack) := by
  unfold dataInstruction
  split <;> repeat' first
    | exact Free.pure _
    | exact Free.throw _
    | exact Free.lift _
    | exact free_ask (by simp)
    | exact storeInstruction_free _ _
    | refine Free.bind ?_ fun _ => ?_

theorem monetaryInstruction_free (env : FrameEnv) (op : Byte) (stack : Stack) :
    Free storeProtocol (monetaryInstruction env op stack) := by
  unfold monetaryInstruction registerInstruction
  split <;> repeat' first
    | exact Free.pure _
    | exact Free.throw _
    | exact Free.lift _
    | exact free_ask (by simp)
    | refine Free.bind ?_ fun _ => ?_

theorem execInstruction_free (env : FrameEnv) (i : Instruction) (stack : Stack) :
    Free storeProtocol (execInstruction env i stack) := by
  unfold execInstruction
  -- reducibly where that is enough, so that no instruction is executed on the way
  split <;> repeat' first
    | split_ifs
    | with_reducible exact dataInstruction_free _ _
    | with_reducible exact monetaryInstruction_free _ _ _
    | with_reducible exact Free.pure _
    | with_reducible exact Free.throw _
    | with_reducible exact Free.lift _
    | with_reducible refine Free.bind (Free.lift _) fun _ => ?_
    | refine Free.bind (free_ask (by simp)) fun _ => ?_
    | split

theorem interpretLoop_free (env : FrameEnv) (limits : ValidatedCode)
    (decoded : OrderedMap Nat Instruction) (n pc : Nat) (stack : Stack) :
    Free storeProtocol (interpretLoop env limits decoded n pc stack) := by
  induction n generalizing pc stack with
  | zero => exact Free.throw _
  | succ n ih =>
    refine Free.bind (Free.lift _) fun i => Free.bind (free_ask (by simp)) fun _ => ?_
    refine Free.bind (execInstruction_free env i stack) fun flow => ?_
    cases flow with
    | finish value => exact Free.pure _
    | next stack => exact Free.bind (Free.lift _) fun _ => ih i.next stack
    | jump pc stack => exact Free.bind (Free.lift _) fun _ => ih pc stack

theorem interpret_free (env : FrameEnv) (code : List Byte) :
    Free storeProtocol (interpret env code) := by
  refine Free.bind (Free.lift _) fun limits => Free.bind (Free.lift _) fun decoded => ?_
  exact Free.bind (free_ask (by simp)) fun _ => interpretLoop_free _ _ _ _ _ _

end

end Xparq
