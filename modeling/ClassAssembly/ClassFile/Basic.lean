import ClassAssembly.AccessFlags
import ClassAssembly.ClassFile.Attribute
import ClassAssembly.Version

/-! Class files and the fields and methods they declare. -/
namespace ClassAssembly

/-- A field or a method, which differ in the flags they may have. -/
structure Member (known : UInt16) where
  flags : AccessFlags known
  name : PoolIndex
  descriptor : PoolIndex
  attributes : List Attribute
deriving DecidableEq

abbrev Field := Member 0x10DF
abbrev Method := Member 0x1DFF

namespace Member

def encode {known : UInt16} (m : Member known) : Except TableOverflow Bytes := do
  let attributes ← Attribute.encodeAll m.attributes
  return m.flags.encode ++ Bytes.u2 m.name ++ Bytes.u2 m.descriptor ++ attributes

end Member

structure ClassFile where
  version : Version
  constants : OffsetTable Constant
  flags : ClassFlags
  thisClass : PoolIndex
  superClass : PoolIndex
  interfaces : List PoolIndex
  fields : List Field
  methods : List Method
  attributes : List Attribute

namespace ClassFile

/-- The bytes that every class file starts with. -/
def magic : Bytes := [0xCA, 0xFE, 0xBA, 0xBE]

def encode (c : ClassFile) : Except TableOverflow Bytes := do
  let constants ← ConstantPool.encode c.constants
  let interfaces ← Bytes.table Bytes.u2 c.interfaces
  let fields ← Bytes.tableM Member.encode c.fields
  let methods ← Bytes.tableM Member.encode c.methods
  let attributes ← Attribute.encodeAll c.attributes
  return magic ++ c.version.encode ++ constants ++ c.flags.encode ++ Bytes.u2 c.thisClass ++
    Bytes.u2 c.superClass ++ interfaces ++ fields ++ methods ++ attributes

end ClassFile
end ClassAssembly
