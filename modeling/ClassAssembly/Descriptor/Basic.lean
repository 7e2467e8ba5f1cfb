import ClassAssembly.ClassName
import ClassAssembly.OffsetTable

/-! Types of fields and methods, and the descriptors that spell them. A field type is an element
type under a number of array dimensions. -/
namespace ClassAssembly

inductive BaseType where
  | byte | char | double | float | int | long | short | boolean
deriving DecidableEq

namespace BaseType

def letter : BaseType → Char
  | byte => 'B'
  | char => 'C'
  | double => 'D'
  | float => 'F'
  | int => 'I'
  | long => 'J'
  | short => 'S'
  | boolean => 'Z'

def ofLetter? : Char → Option BaseType
  | 'B' => some byte
  | 'C' => some char
  | 'D' => some double
  | 'F' => some float
  | 'I' => some int
  | 'J' => some long
  | 'S' => some short
  | 'Z' => some boolean
  | _ => none

/-- Code of the element type in an instruction that makes an array. -/
def arrayCode : BaseType → UInt8
  | boolean => 4
  | char => 5
  | float => 6
  | double => 7
  | byte => 8
  | short => 9
  | int => 10
  | long => 11

def ofArrayCode? : UInt8 → Option BaseType
  | 4 => some boolean
  | 5 => some char
  | 6 => some float
  | 7 => some double
  | 8 => some byte
  | 9 => some short
  | 10 => some int
  | 11 => some long
  | _ => none

instance : Width BaseType where
  width
    | long | double => 2
    | _ => 1

def render (t : BaseType) : String := String.singleton t.letter

@[simp] theorem ofLetter?_letter (t : BaseType) : ofLetter? t.letter = some t := by
  cases t <;> rfl

@[simp] theorem ofArrayCode?_arrayCode (t : BaseType) : ofArrayCode? t.arrayCode = some t := by
  cases t <;> rfl

end BaseType

/-- What an array finally holds, or the type itself where there is no array. -/
inductive ElementType where
  | base (type : BaseType)
  | object (name : ClassName)
deriving DecidableEq

def ElementType.renderChars : ElementType → List Char
  | base type => [type.letter]
  | object name => 'L' :: name.toList ++ [';']

structure FieldType where
  dims : Nat
  element : ElementType
deriving DecidableEq

namespace FieldType

def base (type : BaseType) : FieldType := ⟨0, .base type⟩

/-- The class may be named with dots or with slashes. -/
def object (name : String) : FieldType := ⟨0, .object (ClassName.canonical name)⟩

def array (element : FieldType) : FieldType := ⟨element.dims + 1, element.element⟩

instance : Width FieldType where
  width
    | ⟨0, .base type⟩ => width type
    | _ => 1

def renderChars (t : FieldType) : List Char :=
  List.replicate t.dims '[' ++ t.element.renderChars

def render (t : FieldType) : String := String.ofList t.renderChars

/-- Name of the type in a class constant; primitive types have none. -/
def className? : FieldType → Option ClassName
  | ⟨0, .base _⟩ => none
  | ⟨0, .object name⟩ => some name
  | t => some t.render

end FieldType

structure MethodDescriptor where
  parameters : List FieldType
  /-- `none` is `void`. -/
  returns : Option FieldType
deriving DecidableEq

namespace MethodDescriptor

/-- Number of local variable slots of the parameters, and of the receiver if there is one. -/
def parameterWords (d : MethodDescriptor) (receiver : Bool) : Nat :=
  d.parameters.foldl (fun n t => n + width t) 0 + receiver.toNat

/-- Number of stack slots of the result. -/
def resultWords (d : MethodDescriptor) : Nat := (d.returns.map width).getD 0

def renderChars (d : MethodDescriptor) : List Char :=
  '(' :: d.parameters.flatMap FieldType.renderChars ++ ')' ::
    match d.returns with
    | none => ['V']
    | some t => t.renderChars

def render (d : MethodDescriptor) : String := String.ofList d.renderChars

end MethodDescriptor
end ClassAssembly
