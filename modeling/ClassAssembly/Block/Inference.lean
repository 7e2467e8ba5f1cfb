import ClassAssembly.Block.Graph
import ClassAssembly.Block.Worklist
import ClassAssembly.Frame.Execute

/-! Inference of the frame at the entry of each block. A block whose entry frame changes is executed
again and sends its frames to the blocks it leads to, until nothing changes any more. -/
namespace ClassAssembly

/-- The code under inference, its blocks, and the class it is part of. -/
structure BlockProgram where
  code : Array UInt8
  handlers : List ExceptionHandler
  graph : BlockGraph
  scope : ClassScope

structure Inference where
  /-- Entry frames by position of the block; a block that was never reached has none. -/
  frames : Array (Option Frame)
  /-- Blocks whose entry frame changed since they were last executed. -/
  worklist : Worklist
  pool : ConstantPool

namespace Inference

variable {α : Type} (p : BlockProgram)

/-- A step that touches the constants only. -/
@[inline] def constants (step : Step ConstantPool α) : Step Inference α :=
  .ofOutcome fun ⟨frames, worklist, pool⟩ =>
    match step.outcome pool with
    | (result, pool) => (result, ⟨frames, worklist, pool⟩)

/-- Merges a frame into the entry frame of a block, and queues the block if that changed it. -/
def mergeEntry (index : Nat) (frame : Frame) : Step Inference Unit :=
  .ofOutcome fun ⟨frames, worklist, pool⟩ =>
    match frames[index]? with
    | none => (.error (.outOfBounds index frames.size), ⟨frames, worklist, pool⟩)
    | some none => (.ok (), ⟨frames.setIfInBounds index (some frame), worklist.push index, pool⟩)
    | some (some entry) =>
      let offset := (p.graph.blocks[index]?.map Block.start).getD 0
      match (Machine.merge p.scope offset frame).outcome ⟨entry, pool⟩ with
      | (.ok changed, ⟨merged, pool⟩) =>
        (.ok (), ⟨frames.setIfInBounds index (some merged),
          if changed then worklist.push index else worklist, pool⟩)
      | (.error e, ⟨merged, pool⟩) =>
        (.error e, ⟨frames.setIfInBounds index (some merged), worklist, pool⟩)

/-- Sends a frame from the instruction at `source` to the block at offset `target`. -/
def send (source : Nat) (target : Int) (frame : Frame) : Step Inference Unit :=
  match p.graph.startingAt? target with
  | some index => mergeEntry p index frame
  | none => throw (.invalidJumpTarget source target)

/-- Sends the frame before the instruction at `pc` to the handlers that cover it. They see its local
variables, and a stack that holds the exception. -/
def sendToHandlers (pc : Nat) (frame : Frame) : Step Inference Unit :=
  (p.handlers.filter (·.covers (pc % 65536))).forM fun h => do
    let exception ←
      match h.catchType with
      | some index => pure (.object index)
      | none => constants (VerificationType.ofClass .throwable)
    send p pc h.handler.toNat ⟨frame.locals, [exception]⟩

/-- The frame after an instruction. -/
def execute (pc : Nat) (insn : Instruction) (frame : Frame) : Step Inference Frame :=
  .ofOutcome fun ⟨frames, worklist, pool⟩ =>
    match (Machine.Site.execute ⟨pc, p.code, p.scope⟩ insn).outcome ⟨frame, pool⟩ with
    | (.ok (), ⟨frame, pool⟩) => (.ok frame, ⟨frames, worklist, pool⟩)
    | (.error e, ⟨_, pool⟩) => (.error e, ⟨frames, worklist, pool⟩)

/-- Executes the block at `index` from the instruction at `pc` on, where it has this frame. -/
def executeFrom (index stop pc : Nat) (frame : Frame) : Step Inference Unit :=
  if pc < stop then
    match Code.decode p.code pc with
    | .error e => throw e
    | .ok insn => do
      sendToHandlers p pc frame
      let frame ← execute p pc insn frame
      let traits ← Step.ofExcept insn.opcode.traits
      let targets ← Step.ofExcept (Code.jumpTargets p.code pc insn traits.flow)
      targets.forM fun target => send p pc target frame
      if traits.flow.isUnconditional then return
      have := insn.length_pos
      executeFrom index stop (pc + insn.length) frame
  else if p.code.size ≤ stop then throw (.verification stop .fallsOffEnd)
  else mergeEntry p (index + 1) frame
termination_by stop - pc

/-- Executes a block from its entry frame. -/
def executeBlock (index : Nat) : Step Inference Unit := do
  let s ← get
  match p.graph.blocks[index]?, s.frames[index]? with
  | some block, some (some frame) => executeFrom p index block.stop block.start frame
  | _, _ => pure ()

/-- Executes waiting blocks until none is left, at most `n` of them. -/
def settle : Nat → Step Inference Unit
  | 0 => throw .unsettled
  | n + 1 => do
    let s ← get
    match s.worklist.pop? with
    | none => pure ()
    | some (index, worklist) => do
      set { s with worklist }
      executeBlock p index
      settle n

/-- A bound on the number of blocks to execute. A type changes at most once for each class
constant and twice besides, and a block is queued when it is reached and when one of its types
changes. There are the types of the local variables, and at most two for each instruction on the
stack. -/
def rounds (locals : Nat) : Nat :=
  let slots := locals + 2 * p.code.size + 1
  p.graph.blocks.size * (1 + slots * 65538) + 1

/-- No block was reached yet. -/
def unreached (blocks : Nat) (pool : ConstantPool) : Inference :=
  ⟨Array.replicate blocks none, .empty, pool⟩

/-- Infers the frames of all blocks that are reached from the first one. -/
def run (initial : Frame) : Step Inference Unit := do
  mergeEntry p 0 initial
  settle p (rounds p initial.locals.size)

end Inference
end ClassAssembly
