import ClassAssembly.Frame.Basic
import ClassAssembly.Instruction

/-! The effect of an instruction on a frame. Where control goes next is no part of it. -/
namespace ClassAssembly
namespace Machine

open VerificationType (ofClass ofFieldType ofSlot)

variable {α : Type}

/-- An instruction to execute: where it stands, and the code and class it is part of. -/
structure Site where
  pc : Nat
  code : Array UInt8
  scope : ClassScope

namespace Site

variable (site : Site)

def fail (fault : Fault) : Step Machine α := throw (.verification site.pc fault)

def push (t : VerificationType) : Step Machine Unit :=
  modify fun ⟨⟨locals, stack⟩, pool⟩ => ⟨⟨locals, t :: stack⟩, pool⟩

/-- Pushes types in order, so that the last one is on top. -/
def pushEach (types : List VerificationType) : Step Machine Unit :=
  modify fun ⟨⟨locals, stack⟩, pool⟩ => ⟨⟨locals, types.reverse ++ stack⟩, pool⟩

def pop : Step Machine VerificationType :=
  .ofOutcome fun m =>
    match m with
    | ⟨⟨locals, t :: stack⟩, pool⟩ => (.ok t, ⟨⟨locals, stack⟩, pool⟩)
    | ⟨⟨locals, []⟩, pool⟩ => (.error (.verification site.pc .emptyStack), ⟨⟨locals, []⟩, pool⟩)

/-- Pops a value of one word. -/
def popNarrow : Step Machine VerificationType := do
  let t ← site.pop
  if width t = 1 then return t else site.fail .invalidWidth

def popAs (slot : Slot) : Step Machine VerificationType := do
  let t ← site.pop
  if slot.accepts t then return t else site.fail .invalidType

/-- Pops values of these categories, the last from the top. -/
def popAll (slots : List Slot) : Step Machine Unit :=
  slots.reverse.forM fun slot => discard (site.popAs slot)

def readLocal (index : Int) : Step Machine VerificationType := do
  let m ← get
  match index with
  | .ofNat i =>
    match m.frame.locals[i]? with
    | some t => return t
    | none => site.fail .invalidIndex
  | .negSucc _ => site.fail .invalidIndex

def writeLocal (index : Int) (t : VerificationType) : Step Machine Unit :=
  match index with
  | .ofNat i =>
    .ofOutcome fun ⟨frame, pool⟩ =>
      match frame.store? i t with
      | some frame => (.ok (), ⟨frame, pool⟩)
      | none => (.error (.verification site.pc .invalidIndex), ⟨frame, pool⟩)
  | .negSucc _ => site.fail .invalidIndex

/-- The constant that an operand refers to. -/
def constant (operand : Int) : Step Machine Constant := do
  let m ← get
  match m.pool.get? (UInt16.ofInt operand) with
  | some c => return c
  | none => site.fail (.missingConstant (UInt16.ofInt operand))

/-- The field or method that an operand refers to. -/
def member (operand : Int) : Step Machine MemberRef := do
  let m ← get
  match m.pool.memberRef? (UInt16.ofInt operand) with
  | some ref => return ref
  | none => site.fail (.missingConstant (UInt16.ofInt operand))

/-- The index of the class that an operand refers to. -/
def classIndex (operand : Int) : Step Machine PoolIndex := do
  match ← site.constant operand with
  | .classRef _ => return UInt16.ofInt operand
  | _ => site.fail (.missingConstant (UInt16.ofInt operand))

/-- Type of a constant that takes one word on the stack. -/
def constantType (operand : Int) : Step Machine VerificationType := do
  match ← site.constant operand with
  | .integer _ => return .integer
  | .float _ => return .float
  | .stringRef _ => constants (ofClass .string)
  | .classRef _ => constants (ofClass .classObject)
  | _ => site.fail (.notLoadable (UInt16.ofInt operand))

/-- Type of a constant that takes two words on the stack. -/
def wideConstantType (operand : Int) : Step Machine VerificationType := do
  match ← site.constant operand with
  | .long _ => return .long
  | .double _ => return .double
  | _ => site.fail (.notLoadable (UInt16.ofInt operand))

/-- Type of the elements of an array of references. -/
def elementType : VerificationType → Step Machine VerificationType
  | .null => pure .null
  | .object array => do
    let m ← get
    match (m.pool.className? array).bind ClassName.element? with
    | some element => constants (ofClass element)
    | none => site.fail .invalidType
  | _ => site.fail .invalidType

/-- Type of the field that an operand refers to, and the category of its values. -/
def fieldType (operand : Int) : Step Machine (VerificationType × Slot) := do
  let ref ← site.member operand
  match FieldType.parse ref.descriptor with
  | .ok t => return (← constants (ofFieldType t), t.slot)
  | .error _ => throw (.badDescriptor ref.descriptor)

/-- The method that an operand refers to, and its parameters and result. -/
def methodType (operand : Int) : Step Machine (MemberRef × MethodDescriptor) := do
  let ref ← site.member operand
  match MethodDescriptor.parse ref.descriptor with
  | .ok d => return (ref, d)
  | .error _ => throw (.badDescriptor ref.descriptor)

/-- What a receiver becomes when a constructor is called on it. The class of an object made by
this code is the operand of the instruction that made it. -/
def initialized : VerificationType → Step Machine VerificationType
  | .uninitializedThis => constants (ofClass site.scope.thisClass)
  | .uninitialized made =>
    match site.code[made.toNat]?, site.code[made.toNat + 1]?, site.code[made.toNat + 2]? with
    | some op, some high, some low =>
      if Opcode.mk op = .new then
        pure (.object (UInt16.ofNat (high.toNat * 256 + low.toNat)))
      else site.fail .notUninitialized
    | _, _, _ => site.fail .notUninitialized
  | _ => site.fail .notUninitialized

/-- Pops the receiver of a call. After a constructor all copies of the receiver are initialized. -/
def receive (method : String) : Step Machine Unit := do
  let receiver ← site.popAs .reference
  if method = ClassName.constructor then
    let initialized ← site.initialized receiver
    modify fun ⟨frame, pool⟩ => ⟨frame.replace receiver initialized, pool⟩

def pushResult (returns : Option FieldType) : Step Machine Unit := do
  match returns with
  | some t => push (← constants (ofFieldType t))
  | none => pure ()

def dup2 : Step Machine Unit := do
  let a ← site.pop
  if width a = 1 then
    let b ← site.popNarrow
    pushEach [b, a, b, a]
  else pushEach [a, a]

def dupX2 : Step Machine Unit := do
  let a ← site.popNarrow
  let b ← site.pop
  if width b = 1 then
    let c ← site.popNarrow
    pushEach [a, c, b, a]
  else pushEach [a, b, a]

def dup2X1 : Step Machine Unit := do
  let a ← site.pop
  let b ← site.popNarrow
  if width a = 1 then
    let c ← site.popNarrow
    pushEach [b, a, c, b, a]
  else pushEach [a, b, a]

def dup2X2 : Step Machine Unit := do
  let a ← site.pop
  if width a = 1 then
    let b ← site.popNarrow
    let c ← site.pop
    if width c = 1 then
      let d ← site.popNarrow
      pushEach [b, a, d, c, b, a]
    else pushEach [b, a, c, b, a]
  else
    let b ← site.pop
    if width b = 1 then
      let c ← site.popNarrow
      pushEach [a, c, b, a]
    else pushEach [a, b, a]

/-- Changes the frame as an instruction with this effect and these operands does. -/
def perform (effect : Effect) (first second : Int) : Step Machine Unit := do
  match effect with
  | .fixed pops result =>
    site.popAll pops
    if let some slot := result then push (← constants (ofSlot slot))
  | .load slot index =>
    let t ← site.readLocal ((index.map Int.ofNat).getD first)
    if slot.accepts t then push t else site.fail .invalidType
  | .store slot index =>
    let t ← site.popAs slot
    site.writeLocal ((index.map Int.ofNat).getD first) t
  | .null => push .null
  | .constant => push (← site.constantType first)
  | .wideConstant => push (← site.wideConstantType first)
  | .element =>
    discard (site.popAs .int)
    push (← site.elementType (← site.popAs .reference))
  | .pop => discard site.popNarrow
  | .pop2 =>
    if width (← site.pop) = 1 then discard site.popNarrow
  | .dup =>
    let a ← site.popNarrow
    pushEach [a, a]
  | .dupX1 =>
    let a ← site.popNarrow
    let b ← site.popNarrow
    pushEach [a, b, a]
  | .dupX2 => site.dupX2
  | .dup2 => site.dup2
  | .dup2X1 => site.dup2X1
  | .dup2X2 => site.dup2X2
  | .swap =>
    let a ← site.popNarrow
    let b ← site.popNarrow
    pushEach [a, b]
  | .increment =>
    if (← site.readLocal first) ≠ .integer then site.fail .invalidType
  | .getStatic =>
    let (t, _) ← site.fieldType first
    push t
  | .getField =>
    let (t, _) ← site.fieldType first
    discard (site.popAs .reference)
    push t
  | .putStatic =>
    let (_, slot) ← site.fieldType first
    discard (site.popAs slot)
  | .putField =>
    let (_, slot) ← site.fieldType first
    discard (site.popAs slot)
    discard (site.popAs .reference)
  | .invoke =>
    let (ref, method) ← site.methodType first
    site.popAll (method.parameters.map FieldType.slot)
    site.receive ref.name
    pushResult method.returns
  | .invokeStatic =>
    let (_, method) ← site.methodType first
    site.popAll (method.parameters.map FieldType.slot)
    pushResult method.returns
  | .new =>
    discard (site.classIndex first)
    push (.uninitialized (UInt16.ofNat site.pc))
  | .newArray =>
    discard (site.popAs .int)
    match BaseType.ofArrayCode? (UInt8.ofInt first) with
    | some element => push (← constants (ofFieldType (FieldType.base element).array))
    | none => site.fail .invalidType
  | .newObjectArray =>
    discard (site.popAs .int)
    let element ← site.classIndex first
    let m ← get
    match m.pool.className? element with
    | some name => push (← constants (ofClass name.arrayOf))
    | none => site.fail (.missingConstant element)
  | .newMultiArray =>
    let array ← site.classIndex first
    site.popAll (List.replicate second.toNat .int)
    push (.object array)
  | .cast =>
    let target ← site.classIndex first
    discard (site.popAs .reference)
    push (.object target)
  | .wide => throw (.unsupportedOpcode Opcode.wide.byte)

/-- Changes the frame as an instruction does. -/
def execute (insn : Instruction) : Step Machine Unit := do
  let traits ← Step.ofExcept insn.opcode.traits
  site.perform traits.effect insn.first insn.second

end Site
end Machine
end ClassAssembly
