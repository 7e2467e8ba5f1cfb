import ClassAssembly.AccessFlags
import ClassAssembly.Code.Draft
import ClassAssembly.Code.Label

/-! A method under construction: its code and the tables that will stand beside it. -/
namespace ClassAssembly

/-- Code between two labels that is covered by the handler at a third. -/
structure ProtectedRange where
  start : Label
  stop : Label
  handler : Label
  catchType : Option PoolIndex
deriving DecidableEq

/-- A local variable with its name, from a label to the end of the method. -/
structure NamedVariable where
  name : PoolIndex
  descriptor : PoolIndex
  start : Label
  index : UInt16
deriving DecidableEq

structure MethodBody where
  name : String
  descriptor : MethodDescriptor
  flags : MethodFlags
  nameIndex : PoolIndex
  descriptorIndex : PoolIndex
  code : CodeDraft
  ranges : Array ProtectedRange
  /-- Offsets at which source lines start, ascending. -/
  lines : Array (Nat × UInt16)
  named : Array NamedVariable

namespace MethodBody

def isStatic (m : MethodBody) : Bool := MethodFlags.isStatic m.flags

/-- Starts a method. The receiver and the parameters take the first local variables. -/
def start (flags : MethodFlags) (name descriptor : String) : Step ConstantPool MethodBody := do
  match MethodDescriptor.parse descriptor with
  | .error _ => throw (.badDescriptor descriptor)
  | .ok parsed =>
    let nameIndex ← ConstantPool.utf8 name
    let descriptorIndex ← ConstantPool.utf8 descriptor
    let receiver := !MethodFlags.isStatic flags
    match (CodeDraft.useLocals 0 (parsed.parameterWords receiver)).outcome .empty with
    | (.error e, _) => throw e
    | (.ok (), code) =>
      return {
        name, descriptor := parsed, flags, nameIndex, descriptorIndex, code
        ranges := #[], lines := #[], named := #[] }

/-- The lines after one more starts at `offset`. A line replaces one that starts at the same
offset, and the line that the code before is on already needs no entry. -/
def pushLine (lines : Array (Nat × UInt16)) (offset : Nat) (line : UInt16) :
    Array (Nat × UInt16) :=
  match lines.back? with
  | some (lastOffset, lastLine) =>
    if lastOffset = offset then lines.pop.push (offset, line)
    else if lastLine = line then lines
    else lines.push (offset, line)
  | none => lines.push (offset, line)

end MethodBody
end ClassAssembly
