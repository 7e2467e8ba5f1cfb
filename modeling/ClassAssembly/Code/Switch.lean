import ClassAssembly.Code.Draft

/-! Switches are laid out first, and their targets are filled in later. -/
namespace ClassAssembly

namespace SwitchSlots

/-- Offset of the word that holds the default target. -/
def defaultSlot (s : SwitchSlots) : Nat := s.start + 1 + Code.padding s.start

/-- Offset of the word that holds the target of a case; three words stand before the first. -/
def caseSlot (s : SwitchSlots) (index : Nat) : Nat := s.defaultSlot + 12 + 4 * index

def isPatched (s : SwitchSlots) : Bool := s.defaultPatched && s.casesPatched.all id

end SwitchSlots

namespace CodeDraft

/-- Lays out a switch over the cases from `low` to `high`, and gives its offset. -/
def reserveSwitch (low high : Int) : Step CodeDraft Nat := do
  let op := Opcode.tableswitch
  if high < low then throw (.operandOutOfRange op high)
  let count := (high - low + 1).toNat
  if maxCode / 4 < count then throw (.limit (.switchTooLarge low high))
  let start := (← get).code.size
  let bytes := op.byte :: List.replicate (Code.padding start + 4) 0 ++
    Bytes.signed 4 low ++ Bytes.signed 4 high ++ List.replicate (4 * count) 0
  append op bytes 1 0 .switch
  modify fun b =>
    { b with switches := b.switches.push ⟨start, false, Array.replicate count false⟩ }
  return start

/-- The switch at an offset, and its position among the switches. -/
def findSwitch (start : Nat) : Step CodeDraft (Nat × SwitchSlots) := do
  let b ← get
  match b.switches.findIdx? (·.start == start) with
  | some i =>
    match b.switches[i]? with
    | some s => return (i, s)
    | none => throw (.unknownSwitch start)
  | none => throw (.unknownSwitch start)

/-- Writes the distance to a target into the word at `slot` of the switch at `start`. -/
def writeTarget (start slot target : Nat) : Step CodeDraft Unit := do
  overwrite slot (Bytes.signed 4 ((target : Int) - start))
  recordJump start target

def patchDefault (start target : Nat) : Step CodeDraft Unit := do
  let (i, s) ← findSwitch start
  writeTarget start s.defaultSlot target
  modify fun b =>
    { b with switches := b.switches.setIfInBounds i { s with defaultPatched := true } }

/-- Cases are counted from the lowest one. -/
def patchCase (start index target : Nat) : Step CodeDraft Unit := do
  let (i, s) ← findSwitch start
  if s.casesPatched.size ≤ index then throw (.operandOutOfRange .tableswitch index)
  writeTarget start (s.caseSlot index) target
  modify fun b =>
    { b with switches := b.switches.modify i fun s =>
        { s with casesPatched := s.casesPatched.setIfInBounds index true } }

/-- All labels are bound and all targets of switches filled in. -/
def checkResolved (b : CodeDraft) : Except Error Unit :=
  match b.labels.findIdx? (·.offset.isNone) with
  | some label => .error (.unboundLabel label)
  | none =>
    match b.switches.find? (!·.isPatched) with
    | some s => .error (.unpatchedSwitch s.start)
    | none => .ok ()

end CodeDraft
end ClassAssembly
