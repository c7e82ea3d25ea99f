import Xparq.Program.Registry
import Mathlib.Data.Char

/-!
# The assembler

Source text is read line by line. A line is blank, names a label, is a header directive, or is one
instruction. Instructions are appended to the body as they come. A jump leaves four zero bytes and
remembers where; when all lines are read, the offsets of the labels are written there. The kernel's
validation has the last word.

Text is a list of characters. What follows `$` is looked up in the definitions.
-/

namespace Xparq

open Machine Outcome OrderedMap

abbrev Text := List Char

namespace Text

def isAsciiHexdigit (c : Char) : Bool :=
  ('0' ≤ c ∧ c ≤ '9') ∨ ('a' ≤ c ∧ c ≤ 'f') ∨ ('A' ≤ c ∧ c ≤ 'F')

def digitValue (c : Char) : Nat :=
  if c ≤ '9' then c.toNat - '0'.toNat else if 'a' ≤ c then c.toNat - 'a'.toNat + 10
    else c.toNat - 'A'.toNat + 10

/-- Two digits to a byte. -/
def hexBytes : Text → Option (List Byte)
  | [] => some []
  | high :: low :: rest =>
    if isAsciiHexdigit high ∧ isAsciiHexdigit low then
      (hexBytes rest).map (Fin.ofNat 256 (digitValue high * 16 + digitValue low) :: ·)
    else none
  | [_] => none

end Text

open Text

inductive AsmInstruction
  | u128Const (value : U128)
  | bytesConst (bytes : List Byte)
  | ownerConst (id : ProgramId)
  | jump (onZero : Bool) (label : Text)
  | plain (op : Byte)
  deriving DecidableEq

/-- The instructions without an operand. -/
def mnemonics : List (String × Byte) :=
  [("nop", 0x00), ("add", 0x02), ("return", 0x03), ("scalar.get", 0x04), ("scalar.set", 0x05),
    ("caller", 0x12), ("self", 0x13), ("signer", 0x14), ("data", 0x15), ("dup", 0x16),
      ("drop", 0x17), ("swap", 0x18),
    ("equal", 0x19), ("assert", 0x22), ("revert", 0x23), ("sub", 0x24), ("mul", 0x25),
      ("div", 0x26),
    ("less", 0x27), ("less.equal", 0x28), ("integer.decode", 0x29), ("integer.encode", 0x2a),
    ("bytes.concat", 0x2b), ("storage.get", 0x30), ("storage.set", 0x31), ("storage.delete", 0x32),
    ("owner.encode", 0x33), ("owner.decode", 0x34), ("bytes.slice", 0x35), ("bytes.length", 0x36),
    ("bytes.hash", 0x37), ("coin.transfer", 0x40), ("asset.transfer", 0x41), ("asset.mint", 0x42),
    ("program.call", 0x43), ("incoming.coin", 0x44), ("asset.register", 0x45),
      ("asset.balance", 0x46),
    ("coin.balance", 0x47), ("program.call.value", 0x48), ("height", 0x49), ("deployer", 0x4a),
    ("asset.burn", 0x4b), ("asset.transfer.outputs", 0x4c)]

/-- The bytes that are appended to the body; a jump is completed later. -/
def AsmInstruction.emit : AsmInstruction → List Byte
  | u128Const value => 0x01 :: leBytes 16 value.val
  | bytesConst bytes => 0x10 :: (leBytes 2 bytes.length ++ bytes)
  | ownerConst id => 0x11 :: 0 :: id.bytes
  | jump onZero _ => (if onZero then 0x21 else 0x20) :: [0, 0, 0, 0]
  | plain op => [op]

/-! ## Lines -/

inductive SourceLine
  | blank
  | label (name : Text)
  | directive (name operand : Text)
  | instruction (i : AsmInstruction)
  deriving DecidableEq

structure Assembly where
  body : List Byte
  stack : Nat
  pages : Nat
  labels : OrderedMap Text Nat
  jumps : List (Nat × Text × Nat)
  started : Bool

def Assembly.start : Assembly := ⟨[], 64, 1, ∅, [], false⟩

namespace Assembly

end Assembly

end Xparq
