import ClassAssembly.Code.Emission
import ClassAssembly.Code.Switch
import ClassAssembly.Method.Body
import ClassAssembly.Text.ModifiedUtf8

/-! Emission of code with its constants: operands are given by name, the effect on the depth of
the stack is taken from descriptors, and constants and local variables get the shortest encoding.
-/
namespace ClassAssembly

/-- A method under construction beside the constants of its class. -/
structure MethodBuilder where
  method : MethodBody
  pool : ConstantPool

namespace MethodBuilder

variable {α : Type}

/-- A step that touches the constants only. -/
@[inline] def constants (step : Step ConstantPool α) : Step MethodBuilder α :=
  .ofOutcome fun ⟨method, pool⟩ =>
    match step.outcome pool with
    | (result, pool) => (result, ⟨method, pool⟩)

/-- A step that touches the code only. -/
@[inline] def code (step : Step CodeDraft α) : Step MethodBuilder α :=
  .ofOutcome fun
    | ⟨⟨name, descriptor, flags, nameIndex, descriptorIndex, code, ranges, lines, named⟩,
        pool⟩ =>
      match step.outcome code with
      | (result, code) =>
        (result, ⟨⟨name, descriptor, flags, nameIndex, descriptorIndex, code, ranges, lines,
          named⟩, pool⟩)

def emit (op : Opcode) (operands : List Int) : Step MethodBuilder Unit :=
  code (CodeDraft.emit op operands)

/-- Emits an instruction that refers to a class. -/
def onClass (op : Opcode) (name : String) : Step MethodBuilder Unit := do
  if op = .new ∨ op = .anewarray ∨ op = .checkcast ∨ op = .instanceof then
    let index ← constants (ConstantPool.classRef name)
    emit op [index.toNat]
  else throw (.unsupportedOpcode op.byte)

/-- Emits the creation of an array, which pops one number for each dimension. -/
def makeMultiArray (name : String) (dimensions : UInt8) : Step MethodBuilder Unit := do
  let index ← constants (ConstantPool.classRef name)
  code (CodeDraft.emitWithEffect .multianewarray [index.toNat, dimensions.toNat]
    dimensions.toNat 1)

/-- Numbers of words that an access to a field of `words` words pops and pushes. -/
def fieldWords? (op : Opcode) (words : Nat) : Option (Nat × Nat) :=
  if op = .getstatic then some (0, words)
  else if op = .putstatic then some (words, 0)
  else if op = .getfield then some (1, words)
  else if op = .putfield then some (1 + words, 0)
  else none

/-- Emits an access to a field. -/
def accessField (op : Opcode) (owner name descriptor : String) : Step MethodBuilder Unit := do
  match FieldType.parse descriptor with
  | .error _ => throw (.badDescriptor descriptor)
  | .ok t =>
    match fieldWords? op (width t) with
    | none => throw (.unsupportedOpcode op.byte)
    | some (popped, pushed) =>
      let index ← constants (ConstantPool.fieldRef owner name descriptor)
      code (CodeDraft.emitWithEffect op [index.toNat] popped pushed)

/-- Emits a call. A call of an interface method also tells the number of its argument words. -/
def call (op : Opcode) (owner name descriptor : String) : Step MethodBuilder Unit := do
  match MethodDescriptor.parse descriptor with
  | .error _ => throw (.badDescriptor descriptor)
  | .ok d =>
    if op = .invokestatic ∨ op = .invokevirtual ∨ op = .invokespecial ∨ op = .invokeinterface then
      let popped := d.parameterWords (op ≠ .invokestatic)
      let interface : Bool := op = .invokeinterface
      let index ← constants (ConstantPool.methodRef owner name descriptor interface)
      code (CodeDraft.emitWithEffect op
        (if interface then [index.toNat, popped] else [index.toNat]) popped d.resultWords)
    else throw (.unsupportedOpcode op.byte)

def literalInt (value : Int32) : Step MethodBuilder Unit := do
  let v := value.toInt
  if -1 ≤ v ∧ v ≤ 5 then emit ⟨Opcode.iconst0.byte + UInt8.ofInt v⟩ []
  else if -128 ≤ v ∧ v ≤ 127 then emit .bipush [v]
  else if -32768 ≤ v ∧ v ≤ 32767 then emit .sipush [v]
  else
    let index ← constants (ConstantPool.intern (.integer value))
    emit .ldc [index.toNat]

def literalBool (value : Bool) : Step MethodBuilder Unit := literalInt (if value then 1 else 0)

def literalLong (value : Int64) : Step MethodBuilder Unit := do
  if value = 0 then emit .lconst0 []
  else if value = 1 then emit .lconst1 []
  else
    let index ← constants (ConstantPool.intern (.long value))
    emit .ldc2Wide [index.toNat]

/-- Positive zero, one and two have opcodes of their own. -/
def literalFloat (bits : UInt32) : Step MethodBuilder Unit := do
  if bits = 0 then emit .fconst0 []
  else if bits = 0x3f800000 then emit .fconst1 []
  else if bits = 0x40000000 then emit .fconst2 []
  else
    let index ← constants (ConstantPool.intern (.float bits))
    emit .ldc [index.toNat]

/-- Positive zero and one have opcodes of their own. -/
def literalDouble (bits : UInt64) : Step MethodBuilder Unit := do
  if bits = 0 then emit .dconst0 []
  else if bits = 0x3ff0000000000000 then emit .dconst1 []
  else
    let index ← constants (ConstantPool.intern (.double bits))
    emit .ldc2Wide [index.toNat]

/-- Largest number of bytes of the text of a constant. -/
def maxText : Nat := 65535

def literalText (text : String) : Step MethodBuilder Unit := do
  let index ← constants (ConstantPool.stringRef text)
  emit .ldc [index.toNat]

/-- Pushes a string. One that is too long for a constant is cut into pieces, which the code puts
together with a string builder. -/
def literalString (text : String) : Step MethodBuilder Unit := do
  if ModifiedUtf8.length text ≤ maxText then literalText text
  else
    let builder := ClassName.stringBuilder
    onClass .new builder
    emit .dup []
    call .invokespecial builder ClassName.constructor "()V"
    (ModifiedUtf8.pieces maxText text.toList).forM fun piece => do
      literalText (String.ofList piece)
      call .invokevirtual builder "append" "(Ljava/lang/String;)Ljava/lang/StringBuilder;"
    call .invokevirtual builder "toString" "()Ljava/lang/String;"

/-- The first four local variables have opcodes of their own. -/
def accessLocal (long short : Opcode) (index : UInt16) : Step MethodBuilder Unit :=
  if index < 4 then emit ⟨short.byte + index.toUInt8⟩ [] else emit long [index.toNat]

def load (slot : Slot) (index : UInt16) : Step MethodBuilder Unit :=
  accessLocal (.load slot) (.load0 slot) index

def store (slot : Slot) (index : UInt16) : Step MethodBuilder Unit :=
  accessLocal (.store slot) (.store0 slot) index

def increment (index : UInt16) (amount : Int) : Step MethodBuilder Unit :=
  emit .iinc [index.toNat, amount]

/-- Where a label is bound; it must be. -/
def offsetOf (label : Label) : Step CodeDraft Nat := do
  match ← CodeDraft.boundAt label with
  | some offset => return offset
  | none => throw (.unboundLabel label)

/-- Points the default of a switch to a bound label. -/
def patchDefault (switch : Nat) (target : Label) : Step MethodBuilder Unit :=
  code do CodeDraft.patchDefault switch (← offsetOf target)

/-- Points a case of a switch to a bound label. -/
def patchCase (switch index : Nat) (target : Label) : Step MethodBuilder Unit :=
  code do CodeDraft.patchCase switch index (← offsetOf target)

/-- Covers the code between two labels with the handler at a third. -/
def addRange (start stop handler : Label) (catchType : Option String) :
    Step MethodBuilder Unit := do
  let catchType ←
    match catchType with
    | some name => some <$> constants (ConstantPool.classRef name)
    | none => pure none
  [start, stop, handler].forM fun label => discard (code (CodeDraft.labelStatus label))
  modify fun b =>
    { b with method := { b.method with
        ranges := b.method.ranges.push ⟨start, stop, handler, catchType⟩ } }

/-- The code from here on comes from a source line. -/
def addLine (line : UInt16) : Step MethodBuilder Unit :=
  modify fun b =>
    { b with method := { b.method with
        lines := MethodBody.pushLine b.method.lines b.method.code.code.size line } }

/-- Names a local variable, from a label to the end of the method. -/
def addVariable (name descriptor : String) (start : Label) (index : UInt16) :
    Step MethodBuilder Unit := do
  match FieldType.parse descriptor with
  | .error _ => throw (.badDescriptor descriptor)
  | .ok _ =>
    let nameIndex ← constants (ConstantPool.utf8 name)
    let descriptorIndex ← constants (ConstantPool.utf8 descriptor)
    discard (code (CodeDraft.labelStatus start))
    modify fun b =>
      { b with method := { b.method with
          named := b.method.named.push ⟨nameIndex, descriptorIndex, start, index⟩ } }

end MethodBuilder
end ClassAssembly
