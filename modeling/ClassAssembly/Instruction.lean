import ClassAssembly.Error

/-! Decoding instructions out of a code array. -/
namespace ClassAssembly

namespace Opcode

def traits (op : Opcode) : Except Error OpcodeTraits :=
  match op.traits? with
  | some traits => .ok traits
  | none => .error (.unsupportedOpcode op.byte)

end Opcode

/-- A decoded instruction. Indices and codes are unsigned, values and distances are signed, and
missing operands are zero. -/
structure Instruction where
  opcode : Opcode
  /-- Number of bytes, with any `wide` opcode and switch padding. -/
  length : Nat
  wide : Bool
  first : Int
  second : Int
  length_pos : 0 < length
deriving DecidableEq

/-- A decoded switch; distances are relative to its opcode. -/
structure TableSwitch where
  default : Int
  low : Int
  high : Int
  offsets : List Int
  length : Nat
  length_pos : 0 < length
deriving DecidableEq

namespace Code

/-- Bytes of padding between the opcode of a switch at `pc` and its first word. -/
def padding (pc : Nat) : Nat := (4 - (pc + 1) % 4) % 4

def readByte (code : Array UInt8) (offset : Nat) : Except Error UInt8 :=
  match code[offset]? with
  | some byte => .ok byte
  | none => .error (.verification offset .invalidIndex)

/-- The number in the next `n` bytes, added to what the bytes before them spell. -/
def readBigEndian (code : Array UInt8) : Nat → Nat → Nat → Except Error Nat
  | 0, _, before => .ok before
  | n + 1, offset, before =>
    match readByte code offset with
    | .error e => .error e
    | .ok byte => readBigEndian code n (offset + 1) (before * 256 + byte.toNat)

def readUnsigned (code : Array UInt8) (n offset : Nat) : Except Error Int := do
  return (← readBigEndian code n offset 0 : Nat)

def readSigned (code : Array UInt8) (n offset : Nat) : Except Error Int := do
  return Int.bmod (← readUnsigned code n offset) (Nat.pow 256 n)

/-- The next `n` signed words of four bytes; those before them are given latest first. -/
def readWords (code : Array UInt8) : Nat → Nat → List Int → Except Error (List Int)
  | 0, _, before => .ok before.reverse
  | n + 1, offset, before =>
    match readSigned code 4 offset with
    | .error e => .error e
    | .ok word => readWords code n (offset + 4) (word :: before)

def decodeSwitch (code : Array UInt8) (pc : Nat) : Except Error TableSwitch := do
  let base := pc + 1 + padding pc
  let default ← readSigned code 4 base
  let low ← readSigned code 4 (base + 4)
  let high ← readSigned code 4 (base + 8)
  if high < low then throw (.verification pc .invalidIndex)
  let count := (high - low + 1).toNat
  let offsets ← readWords code count (base + 12) []
  return ⟨default, low, high, offsets, 1 + padding pc + 12 + 4 * count,
    by omega⟩

/-- The instruction under a `wide` opcode at `pc`. -/
def decodeWide (code : Array UInt8) (pc : Nat) : Except Error Instruction := do
  let op : Opcode := ⟨← readByte code (pc + 1)⟩
  let index ← readUnsigned code 2 (pc + 2)
  let traits ← op.traits
  match traits.form with
  | .localIndex => return ⟨op, 4, true, index, 0, by decide⟩
  | .increment => return ⟨op, 6, true, index, ← readSigned code 2 (pc + 4), by decide⟩
  | _ => throw (.unsupportedOpcode op.byte)

/-- The instruction at `pc`, once its opcode and the form of the operands are known. -/
def decodeOperands (code : Array UInt8) (pc : Nat) (op : Opcode) (form : OperandForm) :
    Except Error Instruction := do
  match form with
  | .plain => return ⟨op, 1, false, 0, 0, by decide⟩
  | .signedByte => return ⟨op, 2, false, ← readSigned code 1 (pc + 1), 0, by decide⟩
  | .smallConstant | .localIndex | .arrayCode =>
    return ⟨op, 2, false, ← readUnsigned code 1 (pc + 1), 0, by decide⟩
  | .signedShort | .branch => return ⟨op, 3, false, ← readSigned code 2 (pc + 1), 0, by decide⟩
  | .constant => return ⟨op, 3, false, ← readUnsigned code 2 (pc + 1), 0, by decide⟩
  | .increment =>
    let index ← readUnsigned code 1 (pc + 1)
    return ⟨op, 3, false, index, ← readSigned code 1 (pc + 2), by decide⟩
  | .interfaceCall =>
    let index ← readUnsigned code 2 (pc + 1)
    return ⟨op, 5, false, index, ← readUnsigned code 1 (pc + 3), by decide⟩
  | .dimensions =>
    let index ← readUnsigned code 2 (pc + 1)
    return ⟨op, 4, false, index, ← readUnsigned code 1 (pc + 3), by decide⟩
  | .switch =>
    let table ← decodeSwitch code pc
    return ⟨op, table.length, false, table.low, table.high, table.length_pos⟩
  | .wide => decodeWide code pc

/-- The instruction that starts at `pc`. -/
def decode (code : Array UInt8) (pc : Nat) : Except Error Instruction := do
  let op : Opcode := ⟨← readByte code pc⟩
  let traits ← op.traits
  decodeOperands code pc op traits.form

/-- Offsets to which control may jump from the instruction at `pc`; a switch lists its default
first. -/
def jumpTargets (code : Array UInt8) (pc : Nat) (insn : Instruction) (flow : Flow) :
    Except Error (List Int) :=
  match flow with
  | .branch | .jump => .ok [pc + insn.first]
  | .switch => do
    let table ← decodeSwitch code pc
    return (table.default :: table.offsets).map (pc + ·)
  | _ => .ok []

/-- Starts of the instructions from `pc` on, after those found before, latest first. -/
def startsFrom (code : Array UInt8) (pc : Nat) (before : List Nat) : Except Error (List Nat) :=
  if pc < code.size then
    match decode code pc with
    | .error e => .error e
    | .ok insn =>
      have := insn.length_pos
      startsFrom code (pc + insn.length) (pc :: before)
  else .ok before.reverse
termination_by code.size - pc

/-- Offsets at which instructions start, ascending. -/
def starts (code : Array UInt8) : Except Error (List Nat) := startsFrom code 0 []

end Code
end ClassAssembly
