import ClassAssembly.ClassFile.Attribute
import ClassAssembly.Instruction
import Std.Data.TreeSet

/-! Partition of code into blocks that control enters only at their first instruction. Control may
leave a block in the middle, by a conditional branch or an exception. -/
namespace ClassAssembly

/-- What is known about the flow of control from emitting the code. -/
structure ControlFacts where
  /-- Offset of a jump or switch, and the offset it jumps to. -/
  jumps : Array (Nat × Int)
  /-- Offsets after instructions that never go on to the next one. -/
  blockStarts : Array Nat
deriving DecidableEq

structure Block where
  start : Nat
  /-- Offset after the last instruction. -/
  stop : Nat
  /-- Positions of the blocks that control may go to from here, in order of appearance. -/
  successors : List Nat
  /-- A jump, switch or exception handler leads here. -/
  targeted : Bool
deriving DecidableEq

namespace Block

def contains (b : Block) (pc : Nat) : Bool := decide (b.start ≤ pc) && decide (pc < b.stop)

end Block

/-- The blocks of some code, in the order of their offsets. -/
structure BlockGraph where
  blocks : Array Block
deriving DecidableEq

namespace BlockGraph

/-- Position of the block that starts at an offset, given the starts of the blocks. -/
def position? (starts : Array Nat) : Int → Option Nat
  | .ofNat pc => Search.find? id starts pc
  | .negSucc _ => none

/-- Positions of the blocks that control may go to from the instructions between `pc` and `stop`,
after those found before, latest first. Control falls through to `stop` if the last instruction
lets it. -/
def successorsFrom (code : Array UInt8) (handlers : List ExceptionHandler) (starts : Array Nat)
    (stop pc : Nat) (fallsThrough : Bool) (before : List Nat) : Except Error (List Nat) :=
  if pc < stop then
    match Code.decode code pc with
    | .error e => .error e
    | .ok insn => do
      let traits ← insn.opcode.traits
      let targets ← Code.jumpTargets code pc insn traits.flow
      let covering := (handlers.filter (·.covers pc)).map fun h => (h.handler.toNat : Int)
      let found := (covering ++ targets).filterMap (position? starts)
      have := insn.length_pos
      successorsFrom code handlers starts stop (pc + insn.length) (!traits.flow.isUnconditional)
        (found.reverse ++ before)
  else
    let next := if fallsThrough && decide (stop < code.size) then position? starts stop else none
    .ok (before.reverse ++ next.toList)
termination_by stop - pc

/-- Each handler covers whole instructions and starts at one. -/
def checkHandler (isStart : Nat → Bool) (size : Nat) (h : ExceptionHandler) : Except Error Unit :=
  let start := h.start.toNat
  let stop := h.stop.toNat
  if stop ≤ start ∨ size < stop ∨ ¬isStart start ∨ (stop < size ∧ ¬isStart stop) then
    .error (.invalidExceptionRange start stop)
  else if isStart h.handler.toNat then .ok ()
  else .error (.invalidJumpTarget start h.handler.toNat)

/-- Cuts code into blocks, which start at offset zero, at the targets of jumps, switches and
exception handlers, and after instructions that never go on to the next one. -/
def partition (code : Array UInt8) (facts : ControlFacts) (handlers : List ExceptionHandler) :
    Except Error BlockGraph := do
  let instructions := (← Code.starts code).toArray
  let isStart (pc : Nat) : Bool := (Search.find? id instructions pc).isSome
  facts.jumps.toList.forM fun (source, target) =>
    if 0 ≤ target ∧ isStart target.toNat then .ok () else .error (.invalidJumpTarget source target)
  handlers.forM (checkHandler isStart code.size)
  facts.blockStarts.toList.forM fun pc =>
    if pc < code.size ∧ ¬isStart pc then .error (.invalidJumpTarget pc pc) else .ok ()
  let targets := facts.jumps.toList.map (fun jump => jump.2.toNat) ++
    handlers.map (fun h => h.handler.toNat)
  let targeted := Std.TreeSet.ofList targets
  let boundaries := Std.TreeSet.ofList (0 :: targets ++ facts.blockStarts.toList)
  let starts := instructions.filter boundaries.contains
  let blocks ← (starts.toList.zip (starts.toList.tail ++ [code.size])).mapM fun (start, stop) => do
    let successors ← successorsFrom code handlers starts stop start true []
    return { start, stop, successors := successors.eraseDups, targeted := targeted.contains start }
  return ⟨blocks.toArray⟩

/-- Position of the block that starts at an offset. -/
def startingAt? (g : BlockGraph) : Int → Option Nat
  | .ofNat pc => Search.find? Block.start g.blocks pc
  | .negSucc _ => none

/-- Position of the block that an offset lies in. -/
def covering? (g : BlockGraph) (pc : Nat) : Option Nat :=
  match Search.upperBound Block.start g.blocks pc with
  | 0 => none
  | i + 1 => if g.blocks[i]?.any (·.contains pc) then some i else none

/-- Positions of the blocks from which control may go to the block at `index`. -/
def predecessors (g : BlockGraph) (index : Nat) : List Nat :=
  (List.range g.blocks.size).filter fun i => g.blocks[i]?.any (·.successors.contains index)

end BlockGraph
end ClassAssembly
