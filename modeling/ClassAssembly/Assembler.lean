import ClassAssembly.Method.Builder
import ClassAssembly.Method.Closing

/-! Assembling a class: its fields and methods, and the constants they refer to. At most one
method is open at a time. -/
namespace ClassAssembly

/-- Initial value of a static field. -/
inductive InitialValue where
  | int (value : Int32)
  | long (value : Int64)
  | float (bits : UInt32)
  | double (bits : UInt64)
  | string (text : String)
deriving DecidableEq

namespace InitialValue

/-- Whether a field of a type can hold the value. -/
def suits : InitialValue → FieldType → Bool
  | int _, t => t.slot = .int
  | long _, t => t.slot = .long
  | float _, t => t.slot = .float
  | double _, t => t.slot = .double
  | string _, t => t = ⟨0, .object .string⟩

def intern : InitialValue → Step ConstantPool PoolIndex
  | int value => ConstantPool.intern (.integer value)
  | long value => ConstantPool.intern (.long value)
  | float bits => ConstantPool.intern (.float bits)
  | double bits => ConstantPool.intern (.double bits)
  | string text => ConstantPool.stringRef text

end InitialValue

structure Assembler where
  version : Version
  /-- The class being assembled, its superclass, and what is known about other classes. -/
  scope : ClassScope
  flags : ClassFlags
  thisIndex : PoolIndex
  superIndex : PoolIndex
  interfaces : Array PoolIndex
  fields : Array Field
  methods : Array Method
  attributes : List Attribute
  pool : ConstantPool
  openMethod : Option MethodBody

namespace Assembler

variable {α : Type}

/-- Starts a class. Names may be given with dots or with slashes. -/
def start (version : Version) (hierarchy : Hierarchy) (flags : ClassFlags)
    (thisClass superClass : String) : Except Error Assembler :=
  let thisClass := ClassName.canonical thisClass
  let superClass := ClassName.canonical superClass
  let header : Step ConstantPool (PoolIndex × PoolIndex) := do
    let thisIndex ← ConstantPool.classRef thisClass
    let superIndex ← ConstantPool.classRef superClass
    return (thisIndex, superIndex)
  match header.outcome .empty with
  | (.error e, _) => .error e
  | (.ok (thisIndex, superIndex), pool) =>
    .ok {
      version, flags, thisIndex, superIndex, pool
      scope := ⟨thisClass, superClass, hierarchy⟩
      interfaces := #[], fields := #[], methods := #[], attributes := [], openMethod := none }

/-- A step that touches the constants only. -/
@[inline] def constants (step : Step ConstantPool α) : Step Assembler α :=
  .ofOutcome fun
    | ⟨version, scope, flags, thisIndex, superIndex, interfaces, fields, methods, attributes, pool,
        openMethod⟩ =>
      match step.outcome pool with
      | (result, pool) =>
        (result, ⟨version, scope, flags, thisIndex, superIndex, interfaces, fields, methods,
          attributes, pool, openMethod⟩)

/-- A step of building the open method. -/
@[inline] def inMethod (step : Step MethodBuilder α) : Step Assembler α :=
  .ofOutcome fun
    | ⟨version, scope, flags, thisIndex, superIndex, interfaces, fields, methods, attributes, pool,
        some method⟩ =>
      match step.outcome ⟨method, pool⟩ with
      | (result, ⟨method, pool⟩) =>
        (result, ⟨version, scope, flags, thisIndex, superIndex, interfaces, fields, methods,
          attributes, pool, some method⟩)
    | a => (.error .noOpenMethod, a)

/-- Declares that the class implements an interface. -/
def implement (name : String) : Step Assembler Unit := do
  let index ← constants (ConstantPool.classRef name)
  modify fun a =>
    if a.interfaces.contains index then a else { a with interfaces := a.interfaces.push index }

/-- Names the source file, in place of any named before. -/
def nameSource (name : String) : Step Assembler Unit := do
  let name ← constants (ConstantPool.utf8 name)
  let named ← constants (ConstantPool.internAttribute (.sourceFile name))
  modify fun a =>
    { a with attributes := a.attributes.filter (·.name ≠ named.name) ++ [named] }

def recordField (flags : FieldFlags) (name descriptor : String) (value : Option PoolIndex) :
    Step Assembler Unit := do
  let nameIndex ← constants (ConstantPool.utf8 name)
  let descriptorIndex ← constants (ConstantPool.utf8 descriptor)
  let attributes ←
    match value with
    | some index =>
      List.singleton <$> constants (ConstantPool.internAttribute (.constantValue index))
    | none => pure []
  modify fun a =>
    { a with fields := a.fields.push ⟨flags, nameIndex, descriptorIndex, attributes⟩ }

def declareField (flags : FieldFlags) (name descriptor : String) : Step Assembler Unit :=
  match FieldType.parse descriptor with
  | .error _ => throw (.badDescriptor descriptor)
  | .ok _ => recordField flags name descriptor none

/-- Adds a field with an initial value that its type can hold. -/
def declareConstant (flags : FieldFlags) (name descriptor : String) (value : InitialValue) :
    Step Assembler Unit := do
  match FieldType.parse descriptor with
  | .error _ => throw (.badDescriptor descriptor)
  | .ok t =>
    if !value.suits t then throw (.badDescriptor descriptor)
    let index ← constants value.intern
    recordField flags name descriptor (some index)

/-- Adds a method without code. -/
def declareMethod (flags : MethodFlags) (name descriptor : String) : Step Assembler Unit := do
  match MethodDescriptor.parse descriptor with
  | .error _ => throw (.badDescriptor descriptor)
  | .ok _ =>
    let nameIndex ← constants (ConstantPool.utf8 name)
    let descriptorIndex ← constants (ConstantPool.utf8 descriptor)
    modify fun a => { a with methods := a.methods.push ⟨flags, nameIndex, descriptorIndex, []⟩ }

/-- Starts a method with code, which stays open until it is closed. -/
def beginMethod (flags : MethodFlags) (name descriptor : String) : Step Assembler Unit := do
  if let some method := (← get).openMethod then throw (.methodAlreadyOpen method.name)
  let method ← constants (MethodBody.start flags name descriptor)
  modify fun a => { a with openMethod := some method }

/-- Closes the open method and adds it to the class; a method that cannot be closed is dropped. -/
def endMethod : Step Assembler Unit := do
  let a ← get
  match a.openMethod with
  | none => throw .noOpenMethod
  | some method =>
    modify fun a => { a with openMethod := none }
    let closed ← constants (method.close a.scope a.version)
    modify fun a => { a with methods := a.methods.push closed }

/-- The finished class; no method may be open. -/
def classFile (a : Assembler) : Except Error ClassFile :=
  match a.openMethod with
  | some method => .error (.methodAlreadyOpen method.name)
  | none => .ok {
      version := a.version
      constants := a.pool.entries
      flags := a.flags
      thisClass := a.thisIndex
      superClass := a.superIndex
      interfaces := a.interfaces.toList
      fields := a.fields.toList
      methods := a.methods.toList
      attributes := a.attributes }

/-- The bytes of the finished class. -/
def encode (a : Assembler) : Except Error Bytes := do
  match (← a.classFile).encode with
  | .ok bytes => return bytes
  | .error e => throw (.encoding e)

end Assembler
end ClassAssembly
