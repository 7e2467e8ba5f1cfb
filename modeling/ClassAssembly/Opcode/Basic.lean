/-! Opcodes and what is said of each: how its operands are written, how control leaves it, and
what it does to the operand stack and the local variables. -/
namespace ClassAssembly

structure Opcode where
  byte : UInt8
deriving DecidableEq

/-- Category of a value on the stack or in a local variable. -/
inductive Slot where
  | int | float | long | double | reference
deriving DecidableEq

namespace Slot

/-- Number of stack words, or of local variable slots, that the value takes. -/
def words : Slot → Nat
  | long | double => 2
  | _ => 1

end Slot

/-- How control leaves an instruction. -/
inductive Flow where
  | normal
  /-- Jumps, or goes on to the next instruction. -/
  | branch
  | jump
  | switch
  | returns
  | throws
deriving DecidableEq

namespace Flow

/-- Control never goes on to the next instruction. -/
def isUnconditional : Flow → Bool
  | normal | branch => false
  | _ => true

/-- The operand is the distance to the target. -/
def isJump : Flow → Bool
  | branch | jump => true
  | _ => false

end Flow

/-- How the operands of an instruction are written after its opcode. -/
inductive OperandForm where
  | plain
  | signedByte
  | signedShort
  /-- Pool index of one byte, with a longer opcode for the larger ones. -/
  | smallConstant
  /-- Pool index of two bytes. -/
  | constant
  /-- Index of a local variable: one byte, or two under a `wide` opcode. -/
  | localIndex
  /-- Index of a local variable and a signed increment. -/
  | increment
  /-- Signed distance of two bytes. -/
  | branch
  /-- Code of a primitive element type. -/
  | arrayCode
  /-- Pool index, number of argument words, and a zero byte. -/
  | interfaceCall
  /-- Pool index and number of dimensions. -/
  | dimensions
  | switch
  | wide
deriving DecidableEq

namespace OperandForm

/-- Number of bytes of the instruction in its short form; zero where the form has no fixed size. -/
def length : OperandForm → Nat
  | plain => 1
  | signedByte | smallConstant | localIndex | arrayCode => 2
  | signedShort | constant | increment | branch => 3
  | interfaceCall => 5
  | dimensions => 4
  | switch | wide => 0

/-- Number of operands given when the instruction is emitted. -/
def operands : OperandForm → Nat
  | plain | switch | wide => 0
  | increment | interfaceCall | dimensions => 2
  | _ => 1

end OperandForm

/-- What an instruction does to the operand stack and the local variables. -/
inductive Effect where
  /-- Pops values of these categories, the last from the top, and may push one. -/
  | fixed (pops : List Slot) (push : Option Slot)
  /-- Pushes a local variable, whose index the short forms imply. -/
  | load (slot : Slot) (index : Option Nat)
  /-- Pops into a local variable, whose index the short forms imply. -/
  | store (slot : Slot) (index : Option Nat)
  | null
  | constant
  | wideConstant
  | element
  | pop
  | pop2
  | dup
  | dupX1
  | dupX2
  | dup2
  | dup2X1
  | dup2X2
  | swap
  | increment
  | getStatic
  | putStatic
  | getField
  | putField
  /-- Calls a method on a receiver. -/
  | invoke
  | invokeStatic
  | new
  | newArray
  | newObjectArray
  | newMultiArray
  | cast
  | wide
deriving DecidableEq

/-- What is said of an opcode. -/
structure OpcodeTraits where
  mnemonic : String
  form : OperandForm
  /-- Change of the stack depth in words, where it does not hang on a descriptor. -/
  stackDelta : Option Int
  flow : Flow
  effect : Effect
deriving DecidableEq

namespace OpcodeTraits

/-- Number of words the instruction needs on the stack. -/
def popped (traits : OpcodeTraits) : Nat :=
  match traits.effect with
  | .fixed pops _ => (pops.map Slot.words).foldr (· + ·) 0
  | .store slot _ => slot.words
  | .load _ _ => 0
  | .pop | .dup | .newArray | .newObjectArray | .cast => 1
  | .pop2 | .dupX1 | .dup2 | .swap | .element => 2
  | .dupX2 | .dup2X1 => 3
  | .dup2X2 => 4
  | _ => (-(traits.stackDelta.getD 0)).toNat

/-- Numbers of words popped and pushed, where they do not hang on a descriptor. -/
def words (traits : OpcodeTraits) : Option (Nat × Nat) :=
  traits.stackDelta.map fun delta : Int => (traits.popped, (traits.popped + delta).toNat)

end OpcodeTraits
end ClassAssembly
