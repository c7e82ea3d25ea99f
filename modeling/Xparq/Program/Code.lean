import Xparq.Monetary
import Xparq.Lib.OrderedMap

/-!
# Program code

Versions 1 to 3 are straight-line code. The validator scans the body once, counts fuel and
stack depth and checks every embedded request; the interpreter then runs code the validator
accepted, so the places where the source panics are unreachable. It never touches the ledger:
its result is a value and at most one proposal of each kind.

Version 4 has jumps. Here it is only decoded and checked; `Xparq.Program.Interpreter` runs it.
-/

namespace Xparq

open Machine Outcome

/-- A signed 64-bit number. -/
structure I64 where
  val : Int
  lower : -2 ^ 63 ≤ val
  upper : val < 2 ^ 63
  deriving DecidableEq

namespace I64

def ofInt? (v : Int) : Option I64 :=
  if h : -2 ^ 63 ≤ v ∧ v < 2 ^ 63 then some ⟨v, h.1, h.2⟩ else none

def zero : I64 := ⟨0, by decide, by decide⟩

/-- Two's complement, eight bytes. -/
def encode (v : I64) : List Byte := leBytes 8 (v.val % 2 ^ 64).toNat

def ofBytes (l : List Byte) : Option I64 :=
  let n : Int := ofLeBytes l
  ofInt? (if n < 2 ^ 63 then n else n - 2 ^ 64)

def checkedAdd (a b : I64) : Option I64 := ofInt? (a.val + b.val)

/-- `as u128`: sign extension. -/
def toU128 (v : I64) : U128 := Fin.ofNat (2 ^ 128) (v.val % 2 ^ 128).toNat

end I64

inductive CodeError
  | invalidHeader | unsupportedVersion | invalidLimit | invalidEntry | invalidInstruction
  | missingReturn
  deriving DecidableEq, Repr

inductive ExecutionError
  | invalidCode (error : CodeError)
  | unknownProgram | outOfFuel | arithmeticOverflow | invalidOperand | reverted | resourceLimit
  | reentrantCall | settlementFailed
  deriving DecidableEq, Repr

structure ValidatedCode where
  entry : Nat
  maxStack : Nat
  memoryPages : Nat
  instructionCount : Nat
  instructionFuel : Nat
  deriving DecidableEq, Repr

structure TransferRequest where
  recipient : Owner
  amount : U64
  deriving DecidableEq, Repr

structure RegisterAssetRequest where
  name : List Byte
  maxSupply : Units
  initialMint : Units
  nonce : U64
  skipIfExists : Bool
  deriving DecidableEq, Repr

inductive MintAssetTarget
  | existing (asset : AssetContract)
  | registered
  deriving DecidableEq, Repr

structure MintAssetRequest where
  asset : MintAssetTarget
  recipient : Owner
  amount : Units
  deriving DecidableEq, Repr

/-- What one scalar execution returns. `ProgramState` is the only effect, kept as its value. -/
structure ExecutionResult where
  value : I64
  fuelUsed : Nat
  proposedEffect : Option I64
  coinTransfer : Option TransferRequest
  assetTransfer : Option (AssetContract × TransferRequest)
  assetRegister : Option RegisterAssetRequest
  assetMint : Option MintAssetRequest
  deriving DecidableEq

/-- No value, no fuel and no proposal. -/
def ExecutionResult.none : ExecutionResult :=
  ⟨I64.zero, 0, Option.none, Option.none, Option.none, Option.none, Option.none⟩

def ExecutionResult.hasMonetaryEffects (r : ExecutionResult) : Bool :=
  r.coinTransfer.isSome || r.assetTransfer.isSome || r.assetRegister.isSome || r.assetMint.isSome

/-! ## Constants -/

def magic : List Byte := ascii "XPVM"
def applicationVersion : Byte := 4
def assetIssuanceVersion : Byte := 3
def maxStackItems : Nat := 256
def maxMemoryPages : Nat := 16
def pageBytes : Nat := 65536
def maxCallFuel : Nat := 65536
def headerLen : Nat := 13
def instructionCost : Nat := 1
def memoryPageCost : Nat := 1
def stateReadCost : Nat := 2
def stateWriteCost : Nat := 5
def transferCost : Nat := 20
def assetRegisterCost : Nat := 40
def assetMintCost : Nat := 20

/-! ## Embedded requests -/

def readTransferRequest (l : List Byte) : Option (TransferRequest × List Byte) := do
  let (recipient, l) ← Owner.decode l
  let (amount, l) ← readU64 l
  return (⟨recipient, amount⟩, l)

def readBool (l : List Byte) : Option (Bool × List Byte) := do
  let (v, l) ← readLe 1 l
  if v = 0 then some (false, l) else if v = 1 then some (true, l) else none

def readRegisterAssetRequest (l : List Byte) : Option (RegisterAssetRequest × List Byte) := do
  let (name, l) ← readString l
  let (maxSupply, l) ← readUnits l
  let (initialMint, l) ← readUnits l
  let (nonce, l) ← readU64 l
  let (skipIfExists, l) ← readBool l
  return (⟨name, maxSupply, initialMint, nonce, skipIfExists⟩, l)

def readMintAssetTarget (l : List Byte) : Option (MintAssetTarget × List Byte) := do
  let (tag, l) ← readLe 1 l
  if tag = 0 then (Hash.decode l).map fun p => (.existing p.1, p.2)
  else if tag = 1 then some (.registered, l)
  else none

def readMintAssetRequest (l : List Byte) : Option (MintAssetRequest × List Byte) := do
  let (asset, l) ← readMintAssetTarget l
  let (recipient, l) ← Owner.decode l
  let (amount, l) ← readUnits l
  return (⟨asset, recipient, amount⟩, l)

def decodeRegisterRequest (l : List Byte) :
    Except CodeError (RegisterAssetRequest × List Byte) := do
  let (length, _) ← okOr (readLe 4 l) .invalidInstruction
  rejectIf (length = 0 ∨ length > assetNameMaxLen) .invalidInstruction
  let (request, rest) ← okOr (readRegisterAssetRequest l) .invalidInstruction
  orError (validateAssetName request.name) .invalidInstruction
  rejectIf (request.maxSupply = 0 ∨ request.initialMint = 0 ∨ request.initialMint >
    request.maxSupply)
    .invalidInstruction
  return (request, rest)

/-! ## Validation -/

/-- The accumulators of the validating scan. -/
structure Scan where
  depth : Nat := 0
  count : Nat := 0
  fuel : Nat := 0
  coinTransferSeen : Bool := false
  assetTransferSeen : Bool := false
  assetRegisterSeen : Bool := false
  assetMintSeen : Bool := false
  deriving DecidableEq, Repr

def scalarCost (opcode : Byte) : Nat :=
  match opcode.val with
  | 0x04 => stateReadCost
  | 0x05 => stateWriteCost
  | 0x06 | 0x07 => transferCost
  | 0x08 => assetRegisterCost
  | 0x09 => assetMintCost
  | _ => instructionCost

def Scan.push (scan : Scan) (maxStack : Nat) : Except CodeError Scan := do
  rejectIf (scan.depth + 1 ≥ 2 ^ 16 ∨ scan.depth + 1 > maxStack) .invalidLimit
  return { scan with depth := scan.depth + 1 }

/-- One instruction: the new accumulators, the remaining bytes, and whether it returned. -/
def scanInstruction (version : Byte) (maxStack : Nat) (scan : Scan) (opcode : Byte)
    (rest : List Byte) : Except CodeError (Scan × List Byte × Bool) :=
  match opcode.val with
  | 0x00 => .ok (scan, rest, false)
  | 0x01 => do
      rejectIf (rest.length < 8) .invalidInstruction
      let scan ← scan.push maxStack
      return (scan, rest.drop 8, false)
  | 0x02 => do
      rejectIf (scan.depth < 2) .invalidInstruction
      return ({ scan with depth := scan.depth - 1 }, rest, false)
  | 0x04 => do
      let scan ← scan.push maxStack
      return (scan, rest, false)
  | 0x05 => do
      rejectIf (scan.depth = 0) .invalidInstruction
      return ({ scan with depth := scan.depth - 1 }, rest, false)
  | 0x06 => do
      rejectIf (version < 2 ∨ scan.coinTransferSeen = true) .invalidInstruction
      let (request, rest) ← okOr (readTransferRequest rest) .invalidInstruction
      rejectIf (request.amount = 0) .invalidInstruction
      return ({ scan with coinTransferSeen := true }, rest, false)
  | 0x07 => do
      rejectIf (version < 2 ∨ scan.assetTransferSeen = true) .invalidInstruction
      let (_, rest) ← okOr (Hash.decode rest) .invalidInstruction
      let (request, rest) ← okOr (readTransferRequest rest) .invalidInstruction
      rejectIf (request.amount = 0) .invalidInstruction
      return ({ scan with assetTransferSeen := true }, rest, false)
  | 0x08 => do
      rejectIf (version ≠ assetIssuanceVersion ∨ scan.assetRegisterSeen = true ∨
        scan.assetMintSeen = true) .invalidInstruction
      let (_, rest) ← decodeRegisterRequest rest
      return ({ scan with assetRegisterSeen := true }, rest, false)
  | 0x09 => do
      rejectIf (version ≠ assetIssuanceVersion ∨ scan.assetMintSeen = true) .invalidInstruction
      let (request, rest) ← okOr (readMintAssetRequest rest) .invalidInstruction
      rejectIf (request.amount = 0 ∨
        (request.asset = .registered ∧ scan.assetRegisterSeen = false)) .invalidInstruction
      return ({ scan with assetMintSeen := true }, rest, false)
  | 0x03 => do
      rejectIf (scan.depth ≠ 1 ∨ rest ≠ []) .invalidInstruction
      return (scan, rest, true)
  | _ => .error .invalidInstruction

/-- Scan a body. Every iteration takes at least one byte, so the length of the body bounds
the number of iterations. -/
def scanBody (version : Byte) (maxStack : Nat) : Nat → Scan → List Byte → Except CodeError Scan
  | _, _, [] => .error .missingReturn
  | 0, _, _ :: _ => .error .missingReturn
  | n + 1, scan, opcode :: rest => do
      rejectIf (scan.count + 1 ≥ 2 ^ 32) .invalidInstruction
      rejectIf (scan.fuel + scalarCost opcode ≥ 2 ^ 64) .invalidLimit
      let scan := { scan with count := scan.count + 1, fuel := scan.fuel + scalarCost opcode }
      let (scan, rest, returned) ← scanInstruction version maxStack scan opcode rest
      if returned then return scan else scanBody version maxStack n scan rest

def codeU16 (code : List Byte) (offset : Nat) : Nat := ofLeBytes ((code.drop offset).take 2)

def codeU32 (code : List Byte) (offset : Nat) : Nat := ofLeBytes ((code.drop offset).take 4)

/-- `vm::validate_code` for versions 1 to 3. A body in which the scan returned is not empty, so
offset 0 is one of its instruction boundaries. -/
def validateScalarCode (code : List Byte) : Except CodeError ValidatedCode := do
  rejectIf (code.length < headerLen ∨ code.take 4 ≠ magic) .invalidHeader
  let version := code.getD 4 0
  rejectIf (¬ (version = 1 ∨ version = 2 ∨ version = assetIssuanceVersion)) .unsupportedVersion
  let maxStack := codeU16 code 5
  let memoryPages := codeU16 code 7
  rejectIf (maxStack = 0 ∨ maxStack > maxStackItems ∨ memoryPages > maxMemoryPages) .invalidLimit
  let entry := codeU32 code 9
  let body := code.drop headerLen
  let scan ← scanBody version maxStack body.length {} body
  rejectIf (entry ≠ 0) .invalidEntry
  return ⟨entry, maxStack, memoryPages, scan.count, scan.fuel⟩

/-! ## Execution -/

/-- The interpreter's locals: the stack (top first), the state slot and the proposals. -/
structure ScalarFrame where
  stack : List I64
  stateValue : I64
  result : ExecutionResult

/-- Where the source relies on validation, a missing operand is reported as an error. -/
def unreachable {α : Type} (o : Option α) : Except ExecutionError α := okOr o .invalidOperand

/-- One instruction; the flag is set by the return instruction. -/
def scalarStep (frame : ScalarFrame) (opcode : Byte) (rest : List Byte) :
    Except ExecutionError (ScalarFrame × List Byte × Bool) :=
  match opcode.val with
  | 0x00 => .ok (frame, rest, false)
  | 0x01 => do
      let (bytes, rest) ← unreachable (takeBytes 8 rest)
      let value ← unreachable (I64.ofBytes bytes)
      return ({ frame with stack := value :: frame.stack }, rest, false)
  | 0x02 =>
    match frame.stack with
    | right :: left :: stack => do
        let sum ← okOr (left.checkedAdd right) .arithmeticOverflow
        return ({ frame with stack := sum :: stack }, rest, false)
    | _ => .error .invalidOperand
  | 0x04 => .ok ({ frame with stack := frame.stateValue :: frame.stack }, rest, false)
  | 0x05 =>
    match frame.stack with
    | value :: stack =>
      .ok ({ stack
             stateValue := value
             result := { frame.result with proposedEffect := some value } }, rest, false)
    | [] => .error .invalidOperand
  | 0x06 => do
      let (request, rest) ← unreachable (readTransferRequest rest)
      return ({ frame with result := { frame.result with coinTransfer := some request } }, rest,
        false)
  | 0x07 => do
      let (asset, rest) ← unreachable (Hash.decode rest)
      let (request, rest) ← unreachable (readTransferRequest rest)
      return ({ frame with result := { frame.result with assetTransfer := some (asset, request) } },
        rest, false)
  | 0x08 => do
      let (request, rest) ← orError (decodeRegisterRequest rest) .invalidOperand
      return ({ frame with result := { frame.result with assetRegister := some request } }, rest,
        false)
  | 0x09 => do
      let (request, rest) ← unreachable (readMintAssetRequest rest)
      return ({ frame with result := { frame.result with assetMint := some request } }, rest, false)
  | 0x03 =>
    match frame.stack with
    | value :: _ => .ok ({ frame with result := { frame.result with value } }, rest, true)
    | [] => .error .invalidOperand
  | _ => .error .invalidOperand

def scalarRun : Nat → ScalarFrame → List Byte → Except ExecutionError ExecutionResult
  | _, _, [] => .error .invalidOperand
  | 0, _, _ :: _ => .error .invalidOperand
  | n + 1, frame, opcode :: rest => do
      let (frame, rest, returned) ← scalarStep frame opcode rest
      if returned then return frame.result else scalarRun n frame rest

/-- `execute_code_with_state`. -/
def executeCodeWithState (code : List Byte) (initialState : I64) (fuelLimit : Nat) :
    Except ExecutionError ExecutionResult := do
  -- application code needs an authenticated kernel context
  rejectIf (code[4]? = some applicationVersion) .invalidOperand
  let validated ← (validateScalarCode code).mapError .invalidCode
  let fuelUsed := validated.memoryPages * memoryPageCost + validated.instructionFuel
  rejectIf (fuelUsed ≥ 2 ^ 64 ∨ fuelUsed > fuelLimit) .outOfFuel
  let body := code.drop headerLen
  scalarRun body.length ⟨[], initialState, { ExecutionResult.none with fuelUsed }⟩ body

/-! ## Application bytecode, version 4 -/

def maxDataBytes : Nat := 4096
def maxCodeBytes : Nat := 65536
def maxInstructions : Nat := 4096
def maxKeyBytes : Nat := 128
def maxStorageEntries : Nat := 4096
def maxStorageBytes : Nat := 1048576
def maxCallDepth : Nat := 8
def maxCalls : Nat := 64
def maxActions : Nat := 256
def maxAssetTransferOutputs : Nat := 255
def callCost : Nat := 20

structure Instruction where
  op : Byte
  immediate : List Byte
  next : Nat
  deriving DecidableEq, Repr

/-- `Owner::try_from_slice`. -/
def Owner.ofSlice (l : List Byte) : Option Owner := Reader.all Owner.decode l

/-- The length of an instruction's immediate and the bytes it starts at. -/
def immediateLength (op : Byte) (rest : List Byte) : Except CodeError (Nat × List Byte) :=
  match op.val with
  | 0x01 => .ok (16, rest)
  | 0x11 => .ok (33, rest)
  | 0x20 | 0x21 => .ok (4, rest)
  | 0x10 => do
      let (length, rest) ← okOr (readLe 2 rest) .invalidInstruction
      rejectIf (length > maxDataBytes) .invalidLimit
      return (length, rest)
  | n =>
    if n = 0x00 ∨ (0x02 ≤ n ∧ n ≤ 0x05) ∨ (0x12 ≤ n ∧ n ≤ 0x19) ∨ (0x22 ≤ n ∧ n ≤ 0x2b) ∨
        (0x30 ≤ n ∧ n ≤ 0x37) ∨ (0x40 ≤ n ∧ n ≤ 0x4c) then .ok (0, rest)
    else .error .invalidInstruction

/-- Decode from offset `pc`; `rest` is the code from there on. The first argument bounds the
iterations, each of which takes at least one byte. -/
def decodeFrom : Nat → Nat → List Byte → OrderedMap Nat Instruction →
    Except CodeError (OrderedMap Nat Instruction)
  | _, _, [], decoded => .ok decoded
  | 0, _, _ :: _, _ => .error .invalidLimit
  | n + 1, pc, op :: rest, decoded => do
      rejectIf (decoded.length ≥ maxInstructions) .invalidLimit
      let (length, operand) ← immediateLength op rest
      let (immediate, rest') ← okOr (takeBytes length operand) .invalidInstruction
      rejectIf (op = 0x11 ∧ Owner.ofSlice immediate = none) .invalidInstruction
      let next := pc + 1 + (rest.length - rest'.length)
      decodeFrom n next rest' (decoded.insert pc ⟨op, immediate, next⟩)

def jumpTarget (i : Instruction) : Nat := headerLen + ofLeBytes i.immediate

def instructions (code : List Byte) : Except CodeError (OrderedMap Nat Instruction) := do
  rejectIf (code.length < headerLen ∨ code.take 4 ≠ magic ∨ code.getD 4 0 ≠ applicationVersion)
    .invalidHeader
  rejectIf (code.length > maxCodeBytes) .invalidLimit
  let body := code.drop headerLen
  let decoded ← decodeFrom body.length headerLen body ∅
  rejectIf (∃ e ∈ decoded.entries, (e.2.op = 0x20 ∨ e.2.op = 0x21) ∧
    decoded.contains (jumpTarget e.2) = false) .invalidEntry
  rejectIf (∀ e ∈ decoded.entries, e.2.op ≠ 0x03) .missingReturn
  return decoded

def validateApplicationCode (code : List Byte) : Except CodeError ValidatedCode := do
  let decoded ← instructions code
  let stack := codeU16 code 5
  let pages := codeU16 code 7
  rejectIf (stack = 0 ∨ stack > maxStackItems ∨ pages = 0 ∨ pages > maxMemoryPages) .invalidLimit
  let entry := codeU32 code 9
  rejectIf (entry ≠ 0 ∨ decoded.contains headerLen = false) .invalidEntry
  return ⟨entry, stack, pages, decoded.length, 0⟩

/-- `vm::validate_code`: version routing. -/
def validateCode (code : List Byte) : Except CodeError ValidatedCode :=
  if code[4]? = some applicationVersion then validateApplicationCode code
    else validateScalarCode code

variable {code : List Byte} {v : ValidatedCode}

theorem headerLen_le_of_validateCode (h : validateCode code = .ok v) : headerLen ≤ code.length := by
  unfold validateCode at h
  split at h
  · simp only [validateApplicationCode, instructions, bind_eq_ok, rejectIf_eq_ok] at h
    obtain ⟨_, ⟨_, hlen, _⟩, _⟩ := h
    omega
  · simp only [validateScalarCode, bind_eq_ok, rejectIf_eq_ok] at h
    obtain ⟨_, hlen, _⟩ := h
    omega

theorem memoryPages_le_of_validateCode (h : validateCode code = .ok v) :
    v.memoryPages ≤ maxMemoryPages := by
  unfold validateCode at h
  split at h
  · simp only [validateApplicationCode, bind_eq_ok, rejectIf_eq_ok, return_eq_ok, not_or,
      not_lt] at h
    obtain ⟨_, _, _, ⟨_, _, _, hpages⟩, _, _, rfl⟩ := h
    exact hpages
  · simp only [validateScalarCode, bind_eq_ok, rejectIf_eq_ok, return_eq_ok, not_or, not_lt] at h
    obtain ⟨_, _, _, _, _, ⟨_, _, hpages⟩, _, _, _, _, rfl⟩ := h
    exact hpages

/-! ## Program storage -/

abbrev Storage := OrderedMap (List Byte) (List Byte)

def validStorage (storage : Storage) : Bool :=
  storage.length ≤ maxStorageEntries &&
  storage.entries.all (fun e =>
    !e.1.isEmpty && e.1.length ≤ maxKeyBytes && !e.2.isEmpty && e.2.length ≤ maxDataBytes) &&
  (storage.sumBy fun k v => 8 + k.length + v.length) + 4 ≤ maxStorageBytes

def checkKey (key : List Byte) : Except ExecutionError Unit :=
  rejectIf (key = [] ∨ key.length > maxKeyBytes) .invalidOperand

end Xparq
