import ClassAssembly.Constant.Pool
import ClassAssembly.Hierarchy.NearestCommon
import ClassAssembly.Opcode.Basic

/-! Types that are tracked for the values on the stack and in local variables. Classes are named
by their constants, which is how they appear in a stack map table. -/
namespace ClassAssembly

/-- Category of the values of a type. -/
def FieldType.slot : FieldType → Slot
  | ⟨0, .base .float⟩ => .float
  | ⟨0, .base .long⟩ => .long
  | ⟨0, .base .double⟩ => .double
  | ⟨0, .base _⟩ => .int
  | _ => .reference

inductive VerificationType where
  /-- An unusable slot, also what types become that have nothing in common. -/
  | top
  | integer
  | float
  | double
  | long
  | null
  /-- The receiver of a constructor before another constructor was called on it. -/
  | uninitializedThis
  | object (index : PoolIndex)
  /-- An object made at offset `site` on which no constructor was called yet. -/
  | uninitialized (site : UInt16)
deriving DecidableEq

namespace VerificationType

def isReference : VerificationType → Bool
  | null | uninitializedThis | object _ | uninitialized _ => true
  | _ => false

instance : Width VerificationType where
  width
    | double | long => 2
    | _ => 1

def encode : VerificationType → Bytes
  | top => [0]
  | integer => [1]
  | float => [2]
  | double => [3]
  | long => [4]
  | null => [5]
  | uninitializedThis => [6]
  | object index => 7 :: Bytes.u2 index
  | uninitialized site => 8 :: Bytes.u2 site

def ofClass (name : ClassName) : Step ConstantPool VerificationType := do
  return object (← ConstantPool.classRef name)

/-- The type of all values of a category. -/
def ofSlot : Slot → Step ConstantPool VerificationType
  | .int => pure integer
  | .float => pure float
  | .long => pure long
  | .double => pure double
  | .reference => ofClass .object

def ofFieldType (t : FieldType) : Step ConstantPool VerificationType :=
  match t.className? with
  | some name => ofClass name
  | none => ofSlot t.slot

/-- The nearest type that covers both. A null value suits every class, and two classes give their
nearest common one. -/
def merge (c : ClassScope) :
    VerificationType → VerificationType → Step ConstantPool VerificationType
  | null, object index => pure (object index)
  | object index, null => pure (object index)
  | object i, object j =>
    if i = j then pure (object i)
    else do
      let pool ← get
      let a := (pool.className? i).getD .object
      let b := (pool.className? j).getD .object
      ofClass (c.nearestCommon a b)
  | a, b => pure (if a = b then a else top)

end VerificationType

namespace Slot

/-- Whether a value of this type belongs to the category. -/
def accepts : Slot → VerificationType → Bool
  | int, t => t = .integer
  | float, t => t = .float
  | long, t => t = .long
  | double, t => t = .double
  | reference, t => t.isReference

end Slot
end ClassAssembly
