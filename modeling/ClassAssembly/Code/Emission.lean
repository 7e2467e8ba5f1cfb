import ClassAssembly.Code.Label

/-! Encoding instructions and appending them to the code. -/
namespace ClassAssembly

namespace Opcode

/-- An operand must lie between two bounds. -/
def checkRange (op : Opcode) (low high operand : Int) : Except Error Unit :=
  if low ≤ operand ∧ operand ≤ high then .ok () else .error (.operandOutOfRange op operand)

/-- Bytes of an instruction with its operands. Indices that do not fit in one byte take the longer
form, and so do large increments. -/
def encode (op : Opcode) (form : OperandForm) (first second : Int) : Except Error Bytes :=
  match form with
  | .plain => return [op.byte]
  | .signedByte => do
    op.checkRange (-128) 127 first
    return op.byte :: Bytes.signed 1 first
  | .signedShort => do
    op.checkRange (-32768) 32767 first
    return op.byte :: Bytes.signed 2 first
  | .smallConstant => do
    op.checkRange 1 65535 first
    return if 255 < first then ldcWide.byte :: Bytes.signed 2 first
      else op.byte :: Bytes.signed 1 first
  | .constant => do
    op.checkRange 1 65535 first
    return op.byte :: Bytes.signed 2 first
  | .localIndex => do
    op.checkRange 0 65535 first
    return if 255 < first then wide.byte :: op.byte :: Bytes.signed 2 first
      else op.byte :: Bytes.signed 1 first
  | .increment => do
    op.checkRange 0 65535 first
    op.checkRange (-32768) 32767 second
    return if 255 < first ∨ second < -128 ∨ 127 < second then
        wide.byte :: op.byte :: Bytes.signed 2 first ++ Bytes.signed 2 second
      else op.byte :: Bytes.signed 1 first ++ Bytes.signed 1 second
  | .arrayCode => do
    op.checkRange 4 11 first
    return op.byte :: Bytes.signed 1 first
  | .interfaceCall => do
    op.checkRange 1 65535 first
    op.checkRange 1 255 second
    return op.byte :: Bytes.signed 2 first ++ Bytes.signed 1 second ++ [0]
  | .dimensions => do
    op.checkRange 1 65535 first
    op.checkRange 1 255 second
    return op.byte :: Bytes.signed 2 first ++ Bytes.signed 1 second
  | .branch | .switch | .wide => .error (.needsDescriptor op)

def checkCount (op : Opcode) (form : OperandForm) (operands : List Int) : Except Error Unit :=
  if operands.length = form.operands then .ok ()
  else .error (.wrongOperandCount op form.operands operands.length)

end Opcode

/-- The local variable an instruction uses, given its first operand, and the number of its slots. -/
def Effect.localUse? (effect : Effect) (first : Int) : Option (Nat × Nat) :=
  match effect with
  | .load slot index | .store slot index => some (index.getD first.toNat, slot.words)
  | .increment => some (first.toNat, 1)
  | _ => none

namespace CodeDraft

/-- Emits an instruction whose effect on the depth of the stack is fixed. The operand of a branch is
its distance. -/
def emit (op : Opcode) (operands : List Int) : Step CodeDraft Unit := do
  let traits ← Step.ofExcept op.traits
  if traits.form = .wide then throw (.unsupportedOpcode op.byte)
  match traits.words, traits.form with
  | none, _ | _, .switch => throw (.needsDescriptor op)
  | some (popped, pushed), form =>
    Step.ofExcept (op.checkCount form operands)
    let first := operands[0]?.getD 0
    let second := operands[1]?.getD 0
    if form = .branch then
      Step.ofExcept (op.checkRange (-32768) 32767 first)
      jump op (.distance first)
    else
      let bytes ← Step.ofExcept (op.encode form first second)
      if let some (index, words) := traits.effect.localUse? first then useLocals index words
      append op bytes popped pushed traits.flow

/-- Emits an instruction whose effect on the depth of the stack hangs on a descriptor; where it does
not, the given numbers of words are left aside. -/
def emitWithEffect (op : Opcode) (operands : List Int) (popped pushed : Int) :
    Step CodeDraft Unit := do
  let traits ← Step.ofExcept op.traits
  if traits.words.isSome then emit op operands
  else
    Step.ofExcept (op.checkCount traits.form operands)
    if popped < 0 ∨ pushed < 0 then throw (.operandOutOfRange op (min popped pushed))
    let bytes ← Step.ofExcept
      (op.encode traits.form (operands[0]?.getD 0) (operands[1]?.getD 0))
    append op bytes popped.toNat pushed.toNat traits.flow

end CodeDraft
end ClassAssembly
