import ClassAssembly.Block.Inference
import ClassAssembly.Frame.Compact

/-! The stack map table of a method. The frames at the entries of its blocks are inferred, blocks
that are never reached are blanked, and the frames are listed each by its difference from the one
before. -/
namespace ClassAssembly

structure MethodHeader where
  name : String
  descriptor : MethodDescriptor
  isStatic : Bool

namespace MethodHeader

/-- Type of the receiver: not initialized yet if the method is a constructor. -/
def receiver (s : MethodHeader) (c : ClassScope) :
    Step ConstantPool (Option VerificationType) := do
  if s.isStatic then return none
  else if s.name = ClassName.constructor then return some .uninitializedThis
  else return some (← VerificationType.ofClass c.thisClass)

/-- The frame at the start of a method: the receiver, the parameters, and unusable variables. -/
def entryFrame (s : MethodHeader) (c : ClassScope) (maxLocals : Nat) :
    Step ConstantPool Frame := do
  let receiver ← s.receiver c
  let latestFirst ← s.descriptor.parameters.foldlM (fun before parameter => do
    let t ← VerificationType.ofFieldType parameter
    return if width t = 2 then .top :: t :: before else t :: before) receiver.toList
  let locals := latestFirst.reverse.toArray
  return ⟨locals ++ Array.replicate (maxLocals - locals.size) .top, []⟩

end MethodHeader

/-- Code of a method whose entry frames are settled. -/
structure SettledMethod where
  method : MethodCode
  graph : BlockGraph
  initial : Frame
  frames : Array (Option Frame)
  /-- Number of blocks that were never reached and have been blanked. -/
  deadBlocks : Nat

/-- The code of a method and its stack map. -/
structure MappedCode where
  method : MethodCode
  entries : List StackMapEntry
  deadBlocks : Nat
deriving DecidableEq

namespace BlockProgram

/-- The entry frame of the block where a handler starts, if that was reached. -/
def handlerFrame? (graph : BlockGraph) (frames : Array (Option Frame)) (h : ExceptionHandler) :
    Option Frame :=
  ((graph.startingAt? h.handler.toNat).bind (frames[·]?)).join

/-- The handlers whose blocks were reached. -/
def liveHandlers (graph : BlockGraph) (frames : Array (Option Frame))
    (handlers : List ExceptionHandler) : List ExceptionHandler :=
  handlers.filter fun h => (handlerFrame? graph frames h).isSome

/-- Fills the code of a block with `nop`, and `athrow` at its end. -/
def blank (code : Array UInt8) (block : Block) : Array UInt8 :=
  ((List.range' block.start (block.stop - 1 - block.start)).foldl
    (fun code pc => code.setIfInBounds pc Opcode.nop.byte) code).setIfInBounds
      (block.stop - 1) Opcode.athrow.byte

/-- Local variables for a blanked block: those of the first handler that covers it, so that throwing
there agrees with the handler's frame. -/
def borrowedLocals (graph : BlockGraph) (handlers : List ExceptionHandler)
    (frames : Array (Option Frame)) (maxLocals start : Nat) : Array VerificationType :=
  let frame := handlers.findSome? fun h =>
    if h.covers start then handlerFrame? graph frames h else none
  (frame.map Frame.locals).getD (Frame.empty maxLocals).locals

/-- Positions of the blocks that were never reached. -/
def deadBlocks (p : BlockProgram) (frames : Array (Option Frame)) : List Nat :=
  (List.range p.graph.blocks.size).filter fun i => frames[i]?.join.isNone

/-- Blanks a block that was never reached, and queues it with a frame that holds an exception. -/
def retire (maxLocals : Nat) (exception : VerificationType) (state : BlockProgram × Inference)
    (index : Nat) : BlockProgram × Inference :=
  match state with
  | (⟨code, handlers, graph, scope⟩, ⟨frames, worklist, pool⟩) =>
    match graph.blocks[index]? with
    | none => (⟨code, handlers, graph, scope⟩, ⟨frames, worklist, pool⟩)
    | some block =>
      let locals := borrowedLocals graph handlers frames maxLocals block.start
      (⟨blank code block, handlers, graph, scope⟩,
        ⟨frames.setIfInBounds index (some ⟨locals, [exception]⟩), worklist.enqueue index, pool⟩)

/-- Blanks all blocks that were never reached, and drops the handlers in them. -/
def neutralize (p : BlockProgram) (maxLocals : Nat) (exception : VerificationType)
    (s : Inference) : BlockProgram × Inference :=
  (p.deadBlocks s.frames).foldl (retire maxLocals exception)
    ({ p with handlers := liveHandlers p.graph s.frames p.handlers }, s)

end BlockProgram

namespace MethodCode

/-- The code cut into blocks, in its class. -/
def program (m : MethodCode) (graph : BlockGraph) (scope : ClassScope) : BlockProgram :=
  ⟨m.code, m.handlers, graph, scope⟩

/-- Blanks the blocks that a first run never reached, drops the handlers in them, and goes on
inferring with the blanked blocks. -/
def resume (m : MethodCode) (graph : BlockGraph) (initial : Frame) (scope : ClassScope)
    (dead : Nat) : Step Inference SettledMethod := do
  let exception ← Inference.constants (VerificationType.ofClass .throwable)
  let p ← .ofOutcome fun s =>
    match (m.program graph scope).neutralize m.maxLocals.toNat exception s with
    | (p, s) => (.ok p, s)
  Inference.settle p (Inference.rounds (m.program graph scope) initial.locals.size)
  let s ← get
  return ⟨⟨p.code, p.handlers, max m.maxStack 1, m.maxLocals⟩, graph, initial, s.frames, dead⟩

/-- Infers the entry frames of all blocks, given that of the method. -/
def infer (m : MethodCode) (graph : BlockGraph) (initial : Frame) (scope : ClassScope) :
    Step Inference SettledMethod := do
  Inference.run (m.program graph scope) initial
  let s ← get
  match (m.program graph scope).deadBlocks s.frames with
  | [] => return ⟨m, graph, initial, s.frames, 0⟩
  | dead => m.resume graph initial scope dead.length

/-- Cuts the code into blocks and infers their entry frames. -/
def settle (m : MethodCode) (facts : ControlFacts) (header : MethodHeader)
    (scope : ClassScope) : Step ConstantPool SettledMethod := do
  let graph ← Step.ofExcept (BlockGraph.partition m.code facts m.handlers)
  let initial ← header.entryFrame scope m.maxLocals.toNat
  .ofOutcome fun pool =>
    match (m.infer graph initial scope).outcome (.unreached graph.blocks.size pool) with
    | (result, s) => (result, s.pool)

end MethodCode

namespace SettledMethod

/-- Blocks that need an entry in the stack map, with their frames. The frame of the first block is
implied by the descriptor, unless something jumps there. -/
def mapped (s : SettledMethod) : List (Nat × CompactFrame) :=
  (s.graph.blocks.toList.zip s.frames.toList).zipIdx.filterMap fun ((block, frame), index) =>
    if index = 0 ∧ ¬block.targeted then none
    else frame.map fun frame => (block.start, frame.compact)

/-- Entries for frames that follow a frame at `previous`; `offset` is one past the offset of that
frame, or zero at the start. Entries made before are given latest first. -/
def entriesFrom (previous : CompactFrame) (offset : Nat) (before : List StackMapEntry) :
    List (Nat × CompactFrame) → List StackMapEntry
  | [] => before.reverse
  | (start, frame) :: rest =>
    let entry := frame.entry previous (UInt16.ofNat (start - offset))
    entriesFrom frame (start + 1) (entry :: before) rest

def entries (s : SettledMethod) : List StackMapEntry := entriesFrom s.initial.compact 0 [] s.mapped

end SettledMethod

/-- Infers the stack map of a method. -/
def MethodCode.withStackMap (m : MethodCode) (facts : ControlFacts) (header : MethodHeader)
    (scope : ClassScope) : Step ConstantPool MappedCode := do
  let settled ← m.settle facts header scope
  return ⟨settled.method, settled.entries, settled.deadBlocks⟩

end ClassAssembly
