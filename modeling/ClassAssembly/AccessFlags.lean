import ClassAssembly.Bytes

/-! Access flags of classes, methods and fields. -/
namespace ClassAssembly

/-- Flags of a kind of declaration for which the bits in `known` are defined. -/
structure AccessFlags (known : UInt16) where
  bits : UInt16
deriving DecidableEq

abbrev ClassFlags := AccessFlags 0x1631
abbrev MethodFlags := AccessFlags 0x1DFF
abbrev FieldFlags := AccessFlags 0x10DF

namespace AccessFlags

variable {known : UInt16}

/-- Undefined bits are dropped. -/
def ofBits (bits : UInt16) : AccessFlags known := ⟨bits &&& known⟩

/-- Some of the bits of `mask` are set. -/
def meets (flags : AccessFlags known) (mask : UInt16) : Bool := flags.bits &&& mask != 0

def encode (flags : AccessFlags known) : Bytes := Bytes.u2 flags.bits

end AccessFlags

namespace MethodFlags

def isStatic (flags : MethodFlags) : Bool := AccessFlags.meets flags 0x0008

/-- Abstract and native methods have no code. -/
def isBodiless (flags : MethodFlags) : Bool := AccessFlags.meets flags 0x0500

end MethodFlags
end ClassAssembly
