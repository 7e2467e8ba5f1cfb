import ClassAssembly.Proofs.Fixpoint
import ClassAssembly.StackMap.Table

/-! An account of inference. All frames that occur are noted as it goes on, each beside the constants
of its time, and so is the code in each of its versions. Noting them changes nothing. -/
namespace ClassAssembly

/-- The entry frames of the blocks that were reached. -/
def Inference.entryFrames (s : Inference) : List Machine :=
  s.frames.toList.filterMap fun entry => entry.map fun frame => ⟨frame, s.pool⟩

/-- An inference, with the frames that have occurred in it and the versions of its code. -/
structure Account where
  inference : Inference
  seen : List Machine
  codes : List (Array UInt8)

namespace Account

variable {α β : Type} (p : BlockProgram)

/-- A step in which no frame comes up. -/
@[inline] def carry (step : Step Inference α) : Step Account α :=
  .ofOutcome fun ⟨s, seen, codes⟩ =>
    match step.outcome s with
    | (result, s) => (result, ⟨s, seen, codes⟩)

/-- A step after which all entry frames are noted, also if it fails. -/
@[inline] def watch (step : Step Inference α) : Step Account α :=
  .ofOutcome fun ⟨s, seen, codes⟩ =>
    match step.outcome s with
    | (result, s) => (result, ⟨s, s.entryFrames ++ seen, codes⟩)

def note (frame : Frame) : Step Account Unit :=
  modify fun ⟨s, seen, codes⟩ => ⟨s, ⟨frame, s.pool⟩ :: seen, codes⟩

def noteCode (code : Array UInt8) : Step Account Unit :=
  modify fun ⟨s, seen, codes⟩ => ⟨s, seen, code :: codes⟩

/-- Merges a frame that is noted into the entry frame of a block. -/
def mergeEntry (index : Nat) (frame : Frame) : Step Account Unit := do
  note frame
  watch (Inference.mergeEntry p index frame)

def send (source : Nat) (target : Int) (frame : Frame) : Step Account Unit := do
  note frame
  watch (Inference.send p source target frame)

/-- What handlers see is noted when it is sent to them. -/
def sendToHandlers (pc : Nat) (frame : Frame) : Step Account Unit :=
  (p.handlers.filter (·.covers (pc % 65536))).forM fun h => do
    let exception ← carry (Inference.constants h.caught)
    send p pc h.handler.toNat ⟨frame.locals, [exception]⟩

/-- The frame after each instruction is noted. -/
def executeFrom (index stop pc : Nat) (frame : Frame) : Step Account Unit :=
  if pc < stop then
    match Code.decode p.code pc with
    | .error e => throw e
    | .ok insn => do
      sendToHandlers p pc frame
      let frame ← carry (Inference.execute p pc insn frame)
      note frame
      let traits ← Step.ofExcept insn.opcode.traits
      let targets ← Step.ofExcept (Code.jumpTargets p.code pc insn traits.flow)
      targets.forM fun target => send p pc target frame
      if traits.flow.isUnconditional then return
      have := insn.length_pos
      executeFrom index stop (pc + insn.length) frame
  else if p.code.size ≤ stop then throw (.verification stop .fallsOffEnd)
  else mergeEntry p (index + 1) frame
termination_by stop - pc

def executeBlock (index : Nat) : Step Account Unit := do
  let s ← carry get
  match p.graph.blocks[index]?, s.frames[index]? with
  | some block, some (some frame) => do
    note frame
    executeFrom p index block.stop block.start frame
  | _, _ => pure ()

def settle : Nat → Step Account Unit
  | 0 => throw .unsettled
  | n + 1 => do
    let s ← carry get
    match s.worklist.pop? with
    | none => pure ()
    | some (index, worklist) => do
      carry (set { s with worklist })
      executeBlock p index
      settle n

def run (initial : Frame) : Step Account Unit := do
  mergeEntry p 0 initial
  settle p (Inference.rounds p initial.locals.size)

end Account

namespace MethodCode

open Account

/-- Goes on with the code of `p`. -/
def finishNoted (m : MethodCode) (graph : BlockGraph) (initial : Frame) (p : BlockProgram)
    (rounds dead : Nat) : Step Account SettledMethod := do
  Account.settle p rounds
  let s ← carry get
  return ⟨⟨p.code, p.handlers, max m.maxStack 1, m.maxLocals⟩, graph, initial, s.frames, dead⟩

/-- Goes on with the blanked code, which is noted together with the frames of the blanked blocks. -/
def resumeNoted (m : MethodCode) (graph : BlockGraph) (initial : Frame) (scope : ClassScope)
    (dead : Nat) : Step Account SettledMethod := do
  let exception ← carry (Inference.constants (VerificationType.ofClass .throwable))
  let p ← watch (.ofOutcome fun s =>
    match (m.program graph scope).neutralize m.maxLocals.toNat exception s with
    | (p, s) => (.ok p, s))
  noteCode p.code
  m.finishNoted graph initial p (Inference.rounds (m.program graph scope) initial.locals.size) dead

def inferNoted (m : MethodCode) (graph : BlockGraph) (initial : Frame) (scope : ClassScope) :
    Step Account SettledMethod := do
  Account.run (m.program graph scope) initial
  let s ← carry get
  match (m.program graph scope).deadBlocks s.frames with
  | [] => return ⟨m, graph, initial, s.frames, 0⟩
  | dead => m.resumeNoted graph initial scope dead.length

/-- What comes of settling the entry frames of a method, and the account of it. -/
structure Settling where
  outcome : Except Error SettledMethod × ConstantPool
  seen : List Machine
  codes : List (Array UInt8)

/-- Settles the entry frames of a method and gives an account of it. Without blocks or a first frame
there is nothing to infer. -/
def settleNoted (m : MethodCode) (facts : ControlFacts) (header : MethodHeader) (scope : ClassScope)
    (pool : ConstantPool) : Settling :=
  match BlockGraph.partition m.code facts m.handlers with
  | .error e => ⟨(.error e, pool), [], [m.code]⟩
  | .ok graph =>
    match (header.entryFrame scope m.maxLocals.toNat).outcome pool with
    | (.error e, pool) => ⟨(.error e, pool), [], [m.code]⟩
    | (.ok initial, pool) =>
      match (m.inferNoted graph initial scope).outcome
        ⟨.unreached graph.blocks.size pool, [], [m.code]⟩ with
      | (result, ⟨s, seen, codes⟩) => ⟨(result, s.pool), seen, codes⟩

end MethodCode

namespace Account

variable {α β : Type} {p : BlockProgram}

/-- Without the account, the one step is the other. -/
def Erases (noted : Step Account α) (step : Step Inference α) : Prop :=
  ∀ t : Account, step.outcome t.inference = ((noted.outcome t).1, (noted.outcome t).2.inference)

namespace Erases

theorem carry (step : Step Inference α) : Erases (carry step) step := fun _ => rfl

theorem watch (step : Step Inference α) : Erases (watch step) step := fun _ => rfl

theorem pure (a : α) : Erases (pure a) (pure a) := fun _ => rfl

theorem throw (e : Error) : Erases (throw e : Step Account α) (throw e) := fun _ => rfl

theorem ofExcept (result : Except Error α) :
    Erases (Step.ofExcept result) (Step.ofExcept result) := fun _ => rfl

theorem bind {noted : Step Account α} {step : Step Inference α} {next : α → Step Account β}
    {next' : α → Step Inference β} (h : Erases noted step) (hnext : ∀ a, Erases (next a) (next' a)) :
    Erases (noted >>= next) (step >>= next') := by
  intro t
  rw [Step.outcome_bind, Step.outcome_bind, h t]
  rcases hnoted : noted.outcome t with ⟨e | a, u⟩
  · rfl
  · exact hnext a u

theorem note {noted : Step Account α} {step : Step Inference α} (frame : Frame)
    (h : Erases noted step) : Erases (do note frame; noted) step :=
  fun t => h ⟨t.inference, ⟨frame, t.inference.pool⟩ :: t.seen, t.codes⟩

theorem noteCode {noted : Step Account α} {step : Step Inference α} (code : Array UInt8)
    (h : Erases noted step) : Erases (do noteCode code; noted) step :=
  fun t => h ⟨t.inference, t.seen, code :: t.codes⟩

theorem forM {f : α → Step Account PUnit} {f' : α → Step Inference PUnit} (xs : List α)
    (h : ∀ x, Erases (f x) (f' x)) : Erases (xs.forM f) (xs.forM f') := by
  induction xs with
  | nil => exact .pure _
  | cons x xs ih => exact (h x).bind fun _ => ih

theorem mergeEntry (index : Nat) (frame : Frame) :
    Erases (mergeEntry p index frame) (Inference.mergeEntry p index frame) :=
  .note frame (.watch _)

theorem send (source : Nat) (target : Int) (frame : Frame) :
    Erases (send p source target frame) (Inference.send p source target frame) :=
  .note frame (.watch _)

theorem sendToHandlers (pc : Nat) (frame : Frame) :
    Erases (sendToHandlers p pc frame) (Inference.sendToHandlers p pc frame) := by
  rw [Inference.sendToHandlers_eq]
  exact .forM _ fun h => (carry _).bind fun exception => .send _ _ _

theorem executeFrom (index stop pc : Nat) (frame : Frame) :
    Erases (executeFrom p index stop pc frame) (Inference.executeFrom p index stop pc frame) := by
  fun_induction Inference.executeFrom p index stop pc frame with
  | case1 pc frame hpc e hdecode =>
    rw [Account.executeFrom, if_pos hpc, hdecode]
    exact .throw e
  | case2 pc frame hpc insn hdecode ih =>
    -- Both go through the same steps; the note after the instruction is the only one between them.
    rw [Account.executeFrom, if_pos hpc, hdecode]
    refine (sendToHandlers pc frame).bind fun _ => (carry _).bind fun frame' => .note frame' ?_
    refine (ofExcept _).bind fun traits => (ofExcept _).bind fun targets => ?_
    refine (forM targets fun target => .send pc target frame').bind fun _ => ?_
    split
    · exact .pure _
    · exact ih frame'
  | case3 pc frame hpc hend =>
    rw [Account.executeFrom, if_neg hpc, if_pos hend]
    exact .throw _
  | case4 pc frame hpc hend =>
    rw [Account.executeFrom, if_neg hpc, if_neg hend]
    exact .mergeEntry _ _

theorem executeBlock (index : Nat) :
    Erases (executeBlock p index) (Inference.executeBlock p index) := by
  refine (carry _).bind fun s => ?_
  cases p.graph.blocks[index]? with
  | none => exact .pure _
  | some block =>
    rcases s.frames[index]? with _ | _ | frame
    · exact .pure _
    · exact .pure _
    · exact .note _ (.executeFrom _ _ _ _)

theorem settle (n : Nat) : Erases (settle p n) (Inference.settle p n) := by
  induction n with
  | zero => exact .throw _
  | succ n ih =>
    refine (carry _).bind fun s => ?_
    cases s.worklist.pop? with
    | none => exact .pure _
    | some next => exact (carry _).bind fun _ => (executeBlock _).bind fun _ => ih

theorem run (initial : Frame) : Erases (run p initial) (Inference.run p initial) :=
  (mergeEntry 0 initial).bind fun _ => settle _

end Erases
end Account

namespace MethodCode

variable (m : MethodCode) (graph : BlockGraph) (initial : Frame) (scope : ClassScope)

lemma erases_resumeNoted (dead : Nat) :
    Account.Erases (m.resumeNoted graph initial scope dead) (m.resume graph initial scope dead) :=
  (Account.Erases.carry _).bind fun _ => (Account.Erases.watch _).bind fun p =>
    .noteCode p.code ((Account.Erases.settle _).bind fun _ => (Account.Erases.carry _).bind fun _ =>
      .pure _)

lemma erases_inferNoted :
    Account.Erases (m.inferNoted graph initial scope) (m.infer graph initial scope) := by
  refine (Account.Erases.run initial).bind fun _ => (Account.Erases.carry _).bind fun s => ?_
  cases (m.program graph scope).deadBlocks s.frames with
  | nil => exact .pure _
  | cons k dead => exact m.erases_resumeNoted graph initial scope _

/-- Settling with an account gives what settling without it does. -/
theorem outcome_settleNoted (facts : ControlFacts) (header : MethodHeader) (pool : ConstantPool) :
    (m.settleNoted facts header scope pool).outcome =
      (m.settle facts header scope).outcome pool := by
  unfold settleNoted settle
  rw [Step.outcome_bind, Step.outcome_ofExcept]
  cases BlockGraph.partition m.code facts m.handlers with
  | error e => rfl
  | ok graph =>
    simp only [Step.outcome_bind]
    rcases (header.entryFrame scope m.maxLocals.toNat).outcome pool with ⟨e | initial, later⟩
    · rfl
    · simp only [Step.outcome_ofOutcome, m.erases_inferNoted graph initial scope
        ⟨.unreached graph.blocks.size later, [], [m.code]⟩]

end MethodCode
end ClassAssembly
