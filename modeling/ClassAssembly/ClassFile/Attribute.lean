import ClassAssembly.StackMap.Entry

/-! Attributes: named blocks of bytes attached to classes, fields, methods and code. -/
namespace ClassAssembly

structure Attribute where
  name : PoolIndex
  info : Bytes
deriving DecidableEq

namespace Attribute

def encode (a : Attribute) : Bytes :=
  Bytes.u2 a.name ++ Bytes.bigEndian 4 a.info.length ++ a.info

def encodeAll (attributes : List Attribute) : Except TableOverflow Bytes :=
  Bytes.table encode attributes

end Attribute

/-- Code from `start` up to but not including `stop` that is covered by the handler at `handler`. -/
structure ExceptionHandler where
  start : UInt16
  stop : UInt16
  handler : UInt16
  /-- The class of exceptions caught; `none` catches all. -/
  catchType : Option PoolIndex
deriving DecidableEq

namespace ExceptionHandler

def encode (h : ExceptionHandler) : Bytes :=
  Bytes.u2 h.start ++ Bytes.u2 h.stop ++ Bytes.u2 h.handler ++ Bytes.u2 (h.catchType.getD 0)

/-- Whether an exception thrown at `pc` reaches the handler. -/
def covers (h : ExceptionHandler) (pc : Nat) : Bool :=
  decide (h.start.toNat ≤ pc) && decide (pc < h.stop.toNat)

end ExceptionHandler

/-- The code from `start` on comes from this source line. -/
structure LineNumber where
  start : UInt16
  line : UInt16
deriving DecidableEq

namespace LineNumber

def encode (n : LineNumber) : Bytes := Bytes.u2 n.start ++ Bytes.u2 n.line

end LineNumber

/-- The name and type of a local variable in a stretch of code. -/
structure LocalVariable where
  start : UInt16
  length : UInt16
  name : PoolIndex
  descriptor : PoolIndex
  index : UInt16
deriving DecidableEq

namespace LocalVariable

def encode (v : LocalVariable) : Bytes :=
  Bytes.u2 v.start ++ Bytes.u2 v.length ++ Bytes.u2 v.name ++ Bytes.u2 v.descriptor ++
    Bytes.u2 v.index

end LocalVariable

/-- The code of a method and what depends on its offsets. -/
structure MethodCode where
  code : Array UInt8
  handlers : List ExceptionHandler
  maxStack : UInt16
  maxLocals : UInt16
deriving DecidableEq

/-- The code of a method with its attributes. -/
structure CodeBody extends MethodCode where
  attributes : List Attribute
deriving DecidableEq

namespace CodeBody

def encode (b : CodeBody) : Except TableOverflow Bytes := do
  let handlers ← Bytes.table ExceptionHandler.encode b.handlers
  let attributes ← Attribute.encodeAll b.attributes
  return Bytes.u2 b.maxStack ++ Bytes.u2 b.maxLocals ++ Bytes.bigEndian 4 b.code.size ++
    b.code.toList ++ handlers ++ attributes

end CodeBody

/-- What an attribute says. -/
inductive AttributeBody where
  | constantValue (index : PoolIndex)
  | code (body : CodeBody)
  | stackMap (entries : List StackMapEntry)
  | lineNumbers (lines : List LineNumber)
  | localVariables (locals : List LocalVariable)
  | sourceFile (name : PoolIndex)
deriving DecidableEq

namespace AttributeBody

def name : AttributeBody → String
  | constantValue _ => "ConstantValue"
  | code _ => "Code"
  | stackMap _ => "StackMapTable"
  | lineNumbers _ => "LineNumberTable"
  | localVariables _ => "LocalVariableTable"
  | sourceFile _ => "SourceFile"

def encode : AttributeBody → Except TableOverflow Bytes
  | constantValue index => return Bytes.u2 index
  | code body => body.encode
  | stackMap entries => Bytes.tableM StackMapEntry.encode entries
  | lineNumbers lines => Bytes.table LineNumber.encode lines
  | localVariables locals => Bytes.table LocalVariable.encode locals
  | sourceFile name => return Bytes.u2 name

end AttributeBody

/-- The attribute that says `body`, with its name among the constants. -/
def ConstantPool.internAttribute (body : AttributeBody) : Step ConstantPool Attribute := do
  let name ← utf8 body.name
  match body.encode with
  | .ok info => return ⟨name, info⟩
  | .error e => throw (.encoding e)

end ClassAssembly
