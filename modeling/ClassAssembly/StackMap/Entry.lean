import ClassAssembly.VerificationType

/-! Entries of a stack map table. Each describes a frame by its difference from the one before it,
and its offset by the distance from there. -/
namespace ClassAssembly

inductive StackMapEntry where
  /-- The locals of the frame before and an empty stack. -/
  | same (delta : UInt16)
  /-- The locals of the frame before and one value on the stack. -/
  | oneStack (delta : UInt16) (value : VerificationType)
  /-- The last one to three locals are gone, and the stack is empty. -/
  | chop (delta : UInt16) (count : UInt8)
  /-- One to three more locals, and the stack is empty. -/
  | append (delta : UInt16) (locals : List VerificationType)
  | full (delta : UInt16) (locals stack : List VerificationType)
deriving DecidableEq

namespace StackMapEntry

def delta : StackMapEntry → UInt16
  | same delta | oneStack delta _ | chop delta _ | append delta _ | full delta _ _ => delta

/-- Short distances are part of the tag. -/
def encode : StackMapEntry → Except TableOverflow Bytes
  | same delta =>
    return if delta ≤ 63 then [delta.toUInt8] else 251 :: Bytes.u2 delta
  | oneStack delta value =>
    return (if delta ≤ 63 then [delta.toUInt8 + 64] else 247 :: Bytes.u2 delta) ++ value.encode
  | chop delta count => return (251 - count) :: Bytes.u2 delta
  | append delta locals =>
    return (251 + UInt8.ofNat locals.length) :: Bytes.u2 delta ++
      locals.flatMap VerificationType.encode
  | full delta locals stack => do
    let locals ← Bytes.table VerificationType.encode locals
    let stack ← Bytes.table VerificationType.encode stack
    return 255 :: Bytes.u2 delta ++ locals ++ stack

end StackMapEntry
end ClassAssembly
