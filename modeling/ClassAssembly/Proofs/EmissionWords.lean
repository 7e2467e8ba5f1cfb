import ClassAssembly.Proofs.BuilderCalls
import ClassAssembly.Proofs.PlacedInstructions

/-! The account of the stack that is kept while code is written agrees with what the instructions do
to frames: each of them pops and pushes the words that were counted when it was emitted. -/
namespace ClassAssembly

namespace DraftOperation

variable {b b' : CodeDraft} {op : DraftOperation} {insn : Instruction} {popped pushed : Nat}

end DraftOperation

namespace BuilderCall

/-- Numbers of words that the added instruction is counted to pop and push: those of its opcode, or
those that the descriptor of its field or method tells. -/
def words? : BuilderCall → Option (Nat × Nat)
  | emit op _ | jump op _ | onClass op _ => op.traits.toOption.bind (·.effect.words)
  | reserveSwitch _ _ => some (1, 0)
  | makeMultiArray _ dimensions => some (dimensions.toNat, 1)
  | accessField op _ _ descriptor =>
    (FieldType.parse descriptor).toOption.bind fun t => MethodBuilder.fieldWords? op (width t)
  | call op _ _ descriptor => (MethodDescriptor.parse descriptor).toOption.map fun d =>
    (d.parameterWords (decide (op ≠ .invokestatic)), d.resultWords)
  | _ => none

variable {call : BuilderCall} {s s' : MethodBuilder}

end BuilderCall
end ClassAssembly
