/-! Big-endian words, and tables counted by a sixteen-bit number of entries. -/
namespace ClassAssembly

abbrev Bytes := List UInt8

/-- A table with more entries than a sixteen-bit count can hold. -/
structure TableOverflow where
  count : Nat
deriving DecidableEq

namespace TableOverflow

def message (e : TableOverflow) : String :=
  s!"table of {e.count} entries exceeds the u16 length prefix"

end TableOverflow

namespace Bytes

/-- The low `n` bytes of `value`, the most significant one first. -/
def bigEndian : Nat → Nat → Bytes
  | 0, _ => []
  | n + 1, value => UInt8.ofNat (value / Nat.pow 256 n) :: bigEndian n value

/-- The low `n` bytes of a number in two's complement. -/
def signed (n : Nat) (value : Int) : Bytes := bigEndian n (value % Nat.pow 256 n).toNat

def u1 (value : UInt8) : Bytes := [value]

def u2 (value : UInt16) : Bytes := bigEndian 2 value.toNat

def u4 (value : UInt32) : Bytes := bigEndian 4 value.toNat

def u8 (value : UInt64) : Bytes := bigEndian 8 value.toNat

@[simp] theorem length_bigEndian (n value : Nat) : (bigEndian n value).length = n := by
  induction n with
  | zero => rfl
  | succ n ih => simp [bigEndian, ih]

/-- The number that some bytes spell, the most significant byte first. -/
def toNat (bytes : Bytes) : Nat :=
  bytes.foldl (fun value byte => value * 256 + byte.toNat) 0

/-- The count in front of a table. -/
def count (n : Nat) : Except TableOverflow Bytes :=
  if n ≤ 65535 then .ok (bigEndian 2 n) else .error ⟨n⟩

/-- A counted table whose entries may themselves hold tables. -/
def tableM {α : Type} (encode : α → Except TableOverflow Bytes) (entries : List α) :
    Except TableOverflow Bytes := do
  let size ← count entries.length
  let parts ← entries.mapM encode
  return size ++ parts.flatten

/-- A counted table. -/
def table {α : Type} (encode : α → Bytes) (entries : List α) : Except TableOverflow Bytes := do
  let size ← count entries.length
  return size ++ entries.flatMap encode

end Bytes
end ClassAssembly
