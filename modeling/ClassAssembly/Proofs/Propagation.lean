import ClassAssembly.Block.Inference
import ClassAssembly.Proofs.BlockPartition
import ClassAssembly.Proofs.Replay

/-! What it means that the frames of a block have reached all places that control may go to from
there, and why that stays true while other frames become wider. -/
namespace ClassAssembly

/-- The type of the exception as the handler finds it on the stack. -/
def ExceptionHandler.caught (h : ExceptionHandler) : Step ConstantPool VerificationType :=
  match h.catchType with
  | some index => pure (.object index)
  | none => VerificationType.ofClass .throwable

lemma ExceptionHandler.repeatable_caught (h : ExceptionHandler) :
    ConstantPool.Repeatable h.caught := by
  unfold caught
  split
  · exact .pure _
  · exact VerificationType.repeatable_ofClass _

namespace BlockProgram

/-- A block starts at this offset, and accepts the frame. -/
def Lands (p : BlockProgram) (Accepts : Nat → Frame → Prop) (target : Int) (frame : Frame) : Prop :=
  ∃ k b, p.graph.blocks[k]? = some b ∧ (b.start : Int) = target ∧ Accepts k frame

/-- Executing the code from an offset with some frame, up to the end of a block at `stop`, succeeds
and needs no new constant, and all frames that it sends on land where they are accepted: those for
the handlers of each instruction, those for the targets of jumps and switches, and the one that falls
through to the next block. -/
inductive Propagates (p : BlockProgram) (pool : ConstantPool) (Accepts : Nat → Frame → Prop)
    (stop : Nat) : Nat → Frame → Prop
  | instruction {pc : Nat} {frame frame' : Frame} {insn : Instruction} {traits : OpcodeTraits}
      {targets : List Int} (hpc : pc < stop) (hdecode : Code.decode p.code pc = .ok insn)
      (htraits : insn.opcode.traits = .ok traits)
      (hhandlers : ∀ h ∈ p.handlers, h.covers pc → ∃ exception,
        h.caught.outcome pool = (.ok exception, pool) ∧
          p.Lands Accepts h.handler.toNat ⟨frame.locals, [exception]⟩)
      (hexecute : (Machine.Site.execute ⟨pc, p.code, p.scope⟩ insn).outcome ⟨frame, pool⟩ =
        (.ok (), ⟨frame', pool⟩))
      (htargets : Code.jumpTargets p.code pc insn traits.flow = .ok targets)
      (hjumps : ∀ target ∈ targets, p.Lands Accepts target frame')
      (hnext : traits.flow.isUnconditional = false →
        Propagates p pool Accepts stop (pc + insn.length) frame') :
      Propagates p pool Accepts stop pc frame
  | falls {pc : Nat} {frame : Frame} (hpc : stop ≤ pc) (hstop : stop < p.code.size)
      (hnext : p.Lands Accepts stop frame) : Propagates p pool Accepts stop pc frame

variable {p p' : BlockProgram} {pool later : ConstantPool} {Accepts Accepts' : Nat → Frame → Prop}

lemma Lands.mono (hgraph : p'.graph = p.graph) (haccepts : ∀ k f, Accepts k f → Accepts' k f)
    {target : Int} {frame : Frame} (h : p.Lands Accepts target frame) :
    p'.Lands Accepts' target frame := by
  obtain ⟨k, b, hb, hstart, haccept⟩ := h
  exact ⟨k, b, hgraph ▸ hb, hstart, haccepts k frame haccept⟩

/-- Propagation carries over to a larger pool, to blocks that accept more, to fewer handlers, and to
code that agrees on the instructions visited and on those that made objects. -/
theorem Propagates.transfer {size stop pc : Nat} {frame : Frame} {Made : UInt16 → Prop}
    (Visits : Nat → Prop) (hgraph : p'.graph = p.graph) (hscope : p'.scope = p.scope)
    (hhandlers : ∀ h ∈ p'.handlers, h ∈ p.handlers) (hsize : p'.code.size = p.code.size)
    (hpool : pool.Extends later) (haccepts : ∀ k f, Accepts k f → Accepts' k f)
    (hcode : ∀ site, Made site → ∀ k < 3, p'.code[site.toNat + k]? = p.code[site.toNat + k]?)
    (hvisits : ∀ q insn, Visits q → q < stop → Code.decode p.code q = .ok insn →
      Code.SameBytes p.code p'.code q (q + insn.length) ∧ Visits (q + insn.length) ∧
        ∀ traits, insn.opcode.traits = .ok traits → traits.effect = .new →
          Made (UInt16.ofNat q))
    (h : p.Propagates pool Accepts stop pc frame) (hpc : Visits pc)
    (hframe : frame.Formed size Made) : p'.Propagates later Accepts' stop pc frame := by
  induction h with
  | @instruction pc frame frame' insn traits targets hlt hdecode htraits hhandler hexecute htargets
      hjumps _ ih =>
    obtain ⟨hsame, hnext, hnew⟩ := hvisits pc insn hpc hlt hdecode
    have hsite : Machine.Site.Agrees Made ⟨pc, p.code, p.scope⟩ ⟨pc, p'.code, p'.scope⟩ :=
      ⟨rfl, hscope, hcode⟩
    have hreplayed := Machine.Site.replays_execute hsite insn hnew hframe hexecute
    refine .instruction hlt (Code.decode_congr hdecode hsame) htraits ?_
      (hreplayed.again later hpool) (Code.jumpTargets_congr hdecode htraits htargets hsame)
      (fun target htarget => (hjumps target htarget).mono hgraph haccepts)
      (fun hflow => ih hflow hnext hreplayed.formed)
    intro h hh hcovers
    obtain ⟨exception, hcaught, hlands⟩ := hhandler h (hhandlers h hh) hcovers
    exact ⟨exception, h.repeatable_caught.again hcaught hpool, hlands.mono hgraph haccepts⟩
  | falls hle hstop hnext =>
    exact .falls hle (hsize ▸ hstop) (hnext.mono hgraph haccepts)

theorem Propagates.mono {size stop pc : Nat} {frame : Frame} {Made : UInt16 → Prop}
    (hpool : pool.Extends later) (haccepts : ∀ k f, Accepts k f → Accepts' k f)
    (hframe : frame.Formed size Made) (h : p.Propagates pool Accepts stop pc frame) :
    p.Propagates later Accepts' stop pc frame :=
  h.transfer (fun _ => True) rfl rfl (fun _ hh => hh) rfl hpool haccepts
    (fun _ _ _ _ => rfl) (fun _ _ _ _ _ => ⟨fun _ _ _ => rfl, trivial, fun _ _ _ => trivial⟩)
    trivial (hframe.mono fun _ _ => trivial)

end BlockProgram
end ClassAssembly
