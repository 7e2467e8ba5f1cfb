import ClassAssembly.ClassFile.Basic
import ClassAssembly.Code.Switch
import ClassAssembly.Method.Body
import ClassAssembly.StackMap.Table

/-! Closing a method: labels become offsets, the stack map is inferred, and the tables become
attributes of the code. -/
namespace ClassAssembly
namespace MethodBody

def offsetOf (m : MethodBody) (label : Label) : Except Error Nat :=
  match m.code.labels[label]? with
  | none => .error (.unknownLabel label)
  | some state =>
    match state.offset with
    | some offset => .ok offset
    | none => .error (.unboundLabel label)

/-- The handler of a range of code; an empty range has none. -/
def handler? (m : MethodBody) (range : ProtectedRange) :
    Except Error (Option ExceptionHandler) := do
  let start ← m.offsetOf range.start
  let stop ← m.offsetOf range.stop
  let handler ← m.offsetOf range.handler
  if stop < start then throw (.invalidExceptionRange start stop)
  if start = stop then return none
  return some ⟨UInt16.ofNat start, UInt16.ofNat stop, UInt16.ofNat handler, range.catchType⟩

def handlers (m : MethodBody) : Except Error (List ExceptionHandler) := do
  let handlers ← m.ranges.toList.mapM m.handler?
  return handlers.filterMap id

/-- The local variables that have names, in code of some length. -/
def localVariables (m : MethodBody) (length : Nat) : Except Error (List LocalVariable) :=
  m.named.toList.mapM fun v => do
    let start ← m.offsetOf v.start
    return ⟨UInt16.ofNat start, UInt16.ofNat (length - start), v.name, v.descriptor, v.index⟩

/-- The source lines of the code; one that starts at its end has none. -/
def lineNumbers (m : MethodBody) (length : Nat) : List LineNumber :=
  m.lines.toList.filterMap fun (offset, line) =>
    if offset < length then some ⟨UInt16.ofNat offset, line⟩ else none

def header (m : MethodBody) : MethodHeader := ⟨m.name, m.descriptor, m.isStatic⟩

def checkTable (table : MethodTable) (count : Nat) : Except Error Unit :=
  if count ≤ 65535 then .ok () else .error (.limit (.tooManyEntries table count))

/-- The code of a method with its stack map, which older versions do not have. -/
def mapCode (m : MethodBody) (handlers : List ExceptionHandler) (scope : ClassScope)
    (version : Version) : Step ConstantPool MappedCode :=
  let code : MethodCode :=
    ⟨m.code.code, handlers, UInt16.ofNat m.code.maxStack, UInt16.ofNat m.code.maxLocals⟩
  if version.hasStackMaps then code.withStackMap m.code.facts m.header scope
  else pure ⟨code, [], 0⟩

/-- Attributes of the code: each table that has entries. -/
def codeAttributes (m : MethodBody) (length : Nat) (locals : List LocalVariable)
    (entries : List StackMapEntry) : Step ConstantPool (List Attribute) := do
  let lines ←
    if m.lines.isEmpty then pure []
    else do
      let lines := m.lineNumbers length
      Step.ofExcept (checkTable .lineNumbers lines.length)
      List.singleton <$> ConstantPool.internAttribute (.lineNumbers lines)
  let named ←
    if locals.isEmpty then pure []
    else List.singleton <$> ConstantPool.internAttribute (.localVariables locals)
  let stackMap ←
    if entries.isEmpty then pure []
    else List.singleton <$> ConstantPool.internAttribute (.stackMap entries)
  return lines ++ named ++ stackMap

/-- Closes a method. -/
def close (m : MethodBody) (scope : ClassScope) (version : Version) :
    Step ConstantPool Method := do
  Step.ofExcept m.code.checkResolved
  if m.code.code.isEmpty then throw (.verification 0 .fallsOffEnd)
  let handlers ← Step.ofExcept m.handlers
  let locals ← Step.ofExcept (m.localVariables m.code.code.size)
  let mapped ← m.mapCode handlers scope version
  let method := mapped.method
  Step.ofExcept (checkTable .exceptions method.handlers.length)
  Step.ofExcept (checkTable .localVariables locals.length)
  Step.ofExcept (checkTable .stackMap mapped.entries.length)
  let attributes ← m.codeAttributes method.code.size locals mapped.entries
  let code ← ConstantPool.internAttribute (.code { toMethodCode := method, attributes })
  return ⟨m.flags, m.nameIndex, m.descriptorIndex, [code]⟩

end MethodBody
end ClassAssembly
