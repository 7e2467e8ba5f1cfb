import ClassAssembly.VerificationType

/-! Frames: the types of the local variables and of the values on the stack at a point of the
code. -/
namespace ClassAssembly

structure Frame where
  /-- One type for each slot; the second slot of a wide value holds `top`. -/
  locals : Array VerificationType
  /-- One type for each value, the top of the stack first. -/
  stack : List VerificationType
deriving DecidableEq

namespace Frame

/-- No local variable is usable, and the stack is empty. -/
def empty (maxLocals : Nat) : Frame := ⟨Array.replicate maxLocals .top, []⟩

/-- All types: those of the local variables, then those of the stack from the bottom up. -/
def slots (frame : Frame) : List VerificationType := frame.locals.toList ++ frame.stack.reverse

/-- The frame with these types in its slots. -/
def withSlots (frame : Frame) (slots : List VerificationType) : Frame where
  locals := (slots.take frame.locals.size).toArray
  stack := (slots.drop frame.locals.size).reverse

@[simp] theorem withSlots_slots (frame : Frame) : frame.withSlots frame.slots = frame := by
  simp [withSlots, slots]

/-- Number of words that the values on the stack take. -/
def depth (frame : Frame) : Nat := (frame.stack.map width).foldr (· + ·) 0

/-- Puts a type in the place of another everywhere. -/
def replace (frame : Frame) (old new : VerificationType) : Frame where
  locals := frame.locals.map fun t => if t = old then new else t
  stack := frame.stack.map fun t => if t = old then new else t

/-- Stores a type in a local variable. A wide value spoils the slot after it, and a value stored
over the second slot of a wide one spoils the first. -/
def store? (frame : Frame) (index : Nat) (t : VerificationType) : Option Frame :=
  if index + width t ≤ frame.locals.size then
    let locals := frame.locals
    let locals :=
      if 0 < index ∧ (locals[index - 1]?.map width) = some 2 then
        locals.setIfInBounds (index - 1) .top
      else locals
    let locals := locals.setIfInBounds index t
    let locals := if width t = 2 then locals.setIfInBounds (index + 1) .top else locals
    some { frame with locals }
  else none

end Frame

/-- A frame beside the constants its types refer to. -/
structure Machine where
  frame : Frame
  pool : ConstantPool

namespace Machine

variable {α : Type}

/-- A step that touches the constants only. -/
@[inline] def constants (step : Step ConstantPool α) : Step Machine α :=
  .ofOutcome fun ⟨frame, pool⟩ =>
    match step.outcome pool with
    | (result, pool) => (result, ⟨frame, pool⟩)

/-- Merges types position by position, as far as both lists go. `before` holds the types already
merged, latest first, and `changed` tells whether one of them is new. -/
def mergeSlots (c : ClassScope) (before : List VerificationType) (changed : Bool) :
    List VerificationType → List VerificationType → ConstantPool →
      Except Error Bool × List VerificationType × ConstantPool
  | old :: olds, new :: news, pool =>
    match (old.merge c new).outcome pool with
    | (.ok merged, pool) => mergeSlots c (merged :: before) (changed || merged ≠ old) olds news pool
    | (.error e, pool) => (.error e, before.reverse ++ old :: olds, pool)
  | olds, _, pool => (.ok changed, before.reverse ++ olds, pool)

/-- Merges another frame into this one, which describes the code at `offset`, and tells whether that
changed it. Both stacks must have the same height. -/
def merge (c : ClassScope) (offset : Nat) (other : Frame) : Step Machine Bool :=
  .ofOutcome fun ⟨frame, pool⟩ =>
    if frame.stack.length ≠ other.stack.length then
      (.error (.verification offset (.stackHeight frame.stack.length other.stack.length)),
        ⟨frame, pool⟩)
    else
      match mergeSlots c [] false frame.slots other.slots pool with
      | (result, slots, pool) => (result, ⟨frame.withSlots slots, pool⟩)

end Machine
end ClassAssembly
