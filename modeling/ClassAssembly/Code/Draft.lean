import ClassAssembly.Block.Graph
import ClassAssembly.Step

/-! Code under construction. Beside the bytes the draft tracks the depth of the stack in words, the
local variables in use, the labels, and what later cuts the code into blocks. -/
namespace ClassAssembly

structure LabelStatus where
  /-- Where the label is bound. -/
  offset : Option Nat
  /-- Depth of the stack with which the label is reached. -/
  depth : Option Nat
  /-- Offsets of the branches to patch once the label is bound, latest first. -/
  pending : List Nat
deriving DecidableEq

/-- Which slots of a switch have a target. -/
structure SwitchSlots where
  start : Nat
  defaultPatched : Bool
  casesPatched : Array Bool
deriving DecidableEq

structure CodeDraft where
  code : Array UInt8
  depth : Nat
  maxStack : Nat
  /-- One past the highest local variable slot in use. -/
  maxLocals : Nat
  /-- Control reaches the end of the code from the instruction before it. -/
  reachable : Bool
  labels : Array LabelStatus
  facts : ControlFacts
  switches : Array SwitchSlots
deriving DecidableEq

namespace CodeDraft

/-- Largest size of the code of a method, in bytes. -/
def maxCode : Nat := 65535

/-- Largest depth of the stack, in words. -/
def maxDepth : Nat := 32767

def empty : CodeDraft where
  code := #[]
  depth := 0
  maxStack := 0
  maxLocals := 0
  reachable := true
  labels := #[]
  facts := ⟨#[], #[]⟩
  switches := #[]

instance : Inhabited CodeDraft := ⟨empty⟩

/-- Replaces bytes from an offset on. -/
def write (code : Array UInt8) (offset : Nat) : Bytes → Array UInt8
  | [] => code
  | byte :: rest => write (code.setIfInBounds offset byte) (offset + 1) rest

@[simp] theorem size_write (code : Array UInt8) (offset : Nat) (bytes : Bytes) :
    (write code offset bytes).size = code.size := by
  induction bytes generalizing code offset with
  | nil => rfl
  | cons byte rest ih => simp [write, ih]

/-- Replaces bytes of the code from an offset on, if there are that many. -/
def overwrite (offset : Nat) (bytes : Bytes) : Step CodeDraft Unit :=
  .ofOutcome fun b =>
    if b.code.size < offset + bytes.length then
      (.error (.outOfBounds (offset + bytes.length) b.code.size), b)
    else (.ok (), { b with code := write b.code offset bytes })

/-- Records that control jumps from one offset to another. -/
def recordJump (source : Nat) (target : Int) : Step CodeDraft Unit :=
  modify fun b => { b with facts := { b.facts with jumps := b.facts.jumps.push (source, target) } }

/-- Sets the depth after the instruction at `offset`. -/
def setDepthAt (offset depth : Nat) : Step CodeDraft Unit :=
  .ofOutcome fun b =>
    if maxDepth < depth then (.error (.stackOverflow offset), b)
    else (.ok (), { b with depth, maxStack := max b.maxStack depth })

/-- Sets the depth of the stack at the end of the code, where it cannot be seen from the code
before. -/
def setDepth (depth : Int) : Step CodeDraft Unit := do
  let offset := (← get).code.size
  if depth < 0 then throw (.stackUnderflow offset .nop)
  setDepthAt offset depth.toNat

/-- Takes local variable slots into use. -/
def useLocals (index words : Nat) : Step CodeDraft Unit :=
  .ofOutcome fun b =>
    if 65535 < index + words then (.error (.limit (.tooManyLocals index)), b)
    else (.ok (), { b with maxLocals := max b.maxLocals (index + words) })

/-- Appends an encoded instruction that pops and pushes some words. -/
def append (op : Opcode) (bytes : Bytes) (popped pushed : Nat) (flow : Flow) :
    Step CodeDraft Unit :=
  .ofOutcome fun b =>
    let offset := b.code.size
    let length := offset + bytes.length
    let depth := b.depth - popped + pushed
    if b.depth < popped then (.error (.stackUnderflow offset op), b)
    else if maxCode < length then (.error (.limit (.codeTooLarge length)), b)
    else if maxDepth < depth then (.error (.stackOverflow offset), b)
    else if flow.isUnconditional then
      (.ok (), { b with
        code := b.code ++ bytes, depth, maxStack := max b.maxStack depth, reachable := false
        facts := { b.facts with blockStarts := b.facts.blockStarts.push length } })
    else (.ok (), { b with code := b.code ++ bytes, depth, maxStack := max b.maxStack depth })

end CodeDraft
end ClassAssembly
