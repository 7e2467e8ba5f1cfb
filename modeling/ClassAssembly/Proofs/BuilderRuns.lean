import ClassAssembly.Proofs.LaidCode
import ClassAssembly.Proofs.MaxStack
import Mathlib.Logic.Relation

/-! What a call of a method builder comes down to. Whether it succeeds or not, it only adds constants,
operates on the draft and fills the tables; and if it succeeds, so did every operation on the
draft. -/
namespace ClassAssembly

namespace Step.Keeps

variable {σ α : Type} {Inv : σ → Prop}

theorem forM {f : α → Step σ PUnit} (h : ∀ x, Keeps Inv (f x)) (xs : List α) :
    Keeps Inv (xs.forM f) := by
  induction xs with
  | nil => exact .pure _
  | cons x xs ih =>
    rw [List.forM]
    exact (h x).bind fun _ => ih

theorem discarded {step : Step σ α} (h : Keeps Inv step) : Keeps Inv (discard step) := by
  rw [discard_eq]
  exact h.bind fun _ => .pure _

end Step.Keeps

namespace MethodBuilder

open ConstantPool (Adds)
open Step (Keeps bind_eq_ok)

variable {α : Type} {Inv : MethodBuilder → Prop} {s s' : MethodBuilder}

/-- The builder with another draft. -/
def withCode (s : MethodBuilder) (b : CodeDraft) : MethodBuilder :=
  { s with method := { s.method with code := b } }

lemma outcome_code (step : Step CodeDraft α) (s : MethodBuilder) : (code step).outcome s =
    ((step.outcome s.method.code).1, s.withCode (step.outcome s.method.code).2) := rfl

lemma outcome_constants (step : Step ConstantPool α) (s : MethodBuilder) :
    (constants step).outcome s = ((step.outcome s.pool).1, ⟨s.method, (step.outcome s.pool).2⟩) := rfl

/-- A property that holds on whatever a builder does next, short of giving a line to the code, and
whether that succeeds or not. -/
structure Steady (Inv : MethodBuilder → Prop) : Prop where
  pool : ∀ s pool, Inv s → s.pool.Extends pool → Inv { s with pool }
  code : ∀ s (op : DraftOperation), op.Encodable → Inv s →
    Inv (s.withCode (op.run.outcome s.method.code).2)
  tables : ∀ s ranges named, Inv s → Inv { s with method := { s.method with ranges, named } }

/-- A property that holds on whatever a builder does next, and whether that succeeds or not. -/
structure Stable (Inv : MethodBuilder → Prop) : Prop extends Steady Inv where
  lines : ∀ s lines, Inv s → Inv { s with method := { s.method with lines } }

namespace Steady

lemma constants (h : Steady Inv) {texts : List String} {step : Step ConstantPool α}
    (hadds : Adds texts step) : Keeps Inv (constants step) := by
  intro s hs
  rw [outcome_constants]
  exact h.pool s _ hs (hadds.grows (Prod.ext rfl rfl))

lemma operation (h : Steady Inv) (op : DraftOperation) (hop : op.Encodable) :
    Keeps Inv (MethodBuilder.code op.run) := by
  intro s hs
  rw [outcome_code]
  exact h.code s op hop hs

lemma reading (step : Step CodeDraft α) (hread : ∀ b, (step.outcome b).2 = b) :
    Keeps Inv (MethodBuilder.code step) := by
  intro s hs
  rw [outcome_code, hread]
  exact hs

lemma emit (h : Steady Inv) (op : Opcode) (operands : List Int) :
    Keeps Inv (MethodBuilder.emit op operands) :=
  h.operation (.emit op operands) trivial

lemma emitWithEffect (h : Steady Inv) (op : Opcode) (operands : List Int) (popped pushed : Int) :
    Keeps Inv (MethodBuilder.code (CodeDraft.emitWithEffect op operands popped pushed)) :=
  h.operation (.emitWithEffect op operands popped pushed) trivial

lemma onClass (h : Steady Inv) (op : Opcode) (name : String) :
    Keeps Inv (MethodBuilder.onClass op name) := by
  rw [MethodBuilder.onClass]
  split
  · exact (h.constants (.issue (.classRef name))).bind fun _ => h.emit _ _
  · exact .throw _

lemma makeMultiArray (h : Steady Inv) (name : String) (dimensions : UInt8) :
    Keeps Inv (MethodBuilder.makeMultiArray name dimensions) :=
  (h.constants (.issue (.classRef name))).bind fun _ => h.emitWithEffect _ _ _ _

lemma accessField (h : Steady Inv) (op : Opcode) (owner name descriptor : String) :
    Keeps Inv (MethodBuilder.accessField op owner name descriptor) := by
  rw [MethodBuilder.accessField]
  split
  · exact .throw _
  · split
    · exact .throw _
    · exact (h.constants (.issue (.fieldRef owner name descriptor))).bind fun _ =>
        h.emitWithEffect _ _ _ _

lemma call (h : Steady Inv) (op : Opcode) (owner name descriptor : String) :
    Keeps Inv (MethodBuilder.call op owner name descriptor) := by
  rw [MethodBuilder.call]
  split
  · exact .throw _
  · split
    · exact (h.constants (.issue (.methodRef owner name descriptor _))).bind fun _ =>
        h.emitWithEffect _ _ _ _
    · exact .throw _

lemma loadConstant (h : Steady Inv) (request : ConstantRequest) (op : Opcode) :
    Keeps Inv (do
      let index ← MethodBuilder.constants request.issue
      MethodBuilder.emit op [index.toNat]) :=
  (h.constants (.issue request)).bind fun _ => h.emit _ _

lemma literalInt (h : Steady Inv) (value : Int32) : Keeps Inv (MethodBuilder.literalInt value) := by
  simp only [MethodBuilder.literalInt]
  split
  · exact h.emit _ _
  · split
    · exact h.emit _ _
    · split
      · exact h.emit _ _
      · exact h.loadConstant (.integer value) .ldc

lemma literalLong (h : Steady Inv) (value : Int64) :
    Keeps Inv (MethodBuilder.literalLong value) := by
  rw [MethodBuilder.literalLong]
  split
  · exact h.emit _ _
  · split
    · exact h.emit _ _
    · exact h.loadConstant (.long value) .ldc2Wide

lemma literalFloat (h : Steady Inv) (bits : UInt32) :
    Keeps Inv (MethodBuilder.literalFloat bits) := by
  rw [MethodBuilder.literalFloat]
  split
  · exact h.emit _ _
  · split
    · exact h.emit _ _
    · split
      · exact h.emit _ _
      · exact h.loadConstant (.float bits) .ldc

lemma literalDouble (h : Steady Inv) (bits : UInt64) :
    Keeps Inv (MethodBuilder.literalDouble bits) := by
  rw [MethodBuilder.literalDouble]
  split
  · exact h.emit _ _
  · split
    · exact h.emit _ _
    · exact h.loadConstant (.double bits) .ldc2Wide

lemma literalText (h : Steady Inv) (text : String) : Keeps Inv (MethodBuilder.literalText text) :=
  h.loadConstant (.stringRef text) .ldc

lemma literalString (h : Steady Inv) (text : String) :
    Keeps Inv (MethodBuilder.literalString text) := by
  rw [MethodBuilder.literalString]
  split
  · exact h.literalText text
  · refine (h.onClass _ _).bind fun _ => (h.emit _ _).bind fun _ => (h.call _ _ _ _).bind fun _ => ?_
    refine Keeps.bind (.forM (fun piece => ?_) _) fun _ => h.call _ _ _ _
    exact (h.literalText _).bind fun _ => h.call _ _ _ _

lemma accessLocal (h : Steady Inv) (long short : Opcode) (index : UInt16) :
    Keeps Inv (MethodBuilder.accessLocal long short index) := by
  rw [MethodBuilder.accessLocal]
  split
  · exact h.emit _ _
  · exact h.emit _ _

lemma status_unchanged (label : Label) (b : CodeDraft) :
    ((CodeDraft.labelStatus label).outcome b).2 = b := by
  rcases hstatus : (CodeDraft.labelStatus label).outcome b with ⟨e | state, b'⟩
  · exact (CodeDraft.labelStatus_eq_error hstatus).1
  · exact (CodeDraft.labelStatus_eq_ok hstatus).1.symm

lemma labelStatus (label : Label) :
    Keeps Inv (discard (MethodBuilder.code (CodeDraft.labelStatus label)) :
      Step MethodBuilder Unit) :=
  Keeps.discarded (reading _ (status_unchanged label))

lemma offsetOf_unchanged (label : Label) (b : CodeDraft) : ((offsetOf label).outcome b).2 = b := by
  have hstatus := status_unchanged label b
  simp only [offsetOf, CodeDraft.boundAt, bind_assoc, pure_bind]
  rw [Step.outcome_bind]
  rcases hlabel : (CodeDraft.labelStatus label).outcome b with ⟨e | state, b'⟩
  · rwa [hlabel] at hstatus
  · rw [hlabel] at hstatus
    simp only
    cases state.offset with
    | none => exact hstatus
    | some offset => exact hstatus

/-- A switch is given the offset of a label, or nothing happens. -/
lemma patch (h : Steady Inv) (label : Label) {patch : Nat → Step CodeDraft Unit}
    (hpatch : ∀ target, ∃ op : DraftOperation, op.Encodable ∧ op.run = patch target) :
    Keeps Inv (MethodBuilder.code (offsetOf label >>= patch)) := by
  intro s hs
  rw [outcome_code, Step.outcome_bind]
  have hsame := offsetOf_unchanged label s.method.code
  rcases hlabel : (offsetOf label).outcome s.method.code with ⟨e | target, b⟩
  · rw [hlabel] at hsame
    obtain rfl : b = s.method.code := hsame
    exact hs
  · rw [hlabel] at hsame
    obtain rfl : b = s.method.code := hsame
    obtain ⟨op, hop, hrun⟩ := hpatch target
    have hkept := h.operation op hop s hs
    rwa [hrun, outcome_code] at hkept

lemma addRange (h : Steady Inv) (start stop handler : Label) (catchType : Option String) :
    Keeps Inv (MethodBuilder.addRange start stop handler catchType) := by
  have hrest : ∀ index, Keeps Inv (do
      [start, stop, handler].forM fun label =>
        discard (MethodBuilder.code (CodeDraft.labelStatus label))
      modify fun b => { b with method := { b.method with
        ranges := b.method.ranges.push ⟨start, stop, handler, index⟩ } } :
          Step MethodBuilder Unit) := by
    intro index
    refine Keeps.bind (.forM (fun label => labelStatus label) _) fun _ => .modify fun s hs => ?_
    exact h.tables s _ s.method.named hs
  cases catchType with
  | none => exact hrest none
  | some name =>
    exact Keeps.bind (.map _ (h.constants (.issue (.classRef name)))) fun index => hrest index

lemma addVariable (h : Steady Inv) (name descriptor : String) (start : Label) (index : UInt16) :
    Keeps Inv (MethodBuilder.addVariable name descriptor start index) := by
  rw [MethodBuilder.addVariable]
  split
  · exact .throw _
  · refine (h.constants (.issue (.utf8 name))).bind fun _ =>
      (h.constants (.issue (.utf8 descriptor))).bind fun _ => (labelStatus start).bind fun _ =>
        .modify fun s hs => ?_
    exact h.tables s s.method.ranges _ hs

end Steady
end MethodBuilder

namespace BuilderCall

open MethodBuilder (Steady Stable)
open Step (Keeps)

variable {Inv : MethodBuilder → Prop} {s s' : MethodBuilder}

/-- The line that the call gives to the code from here on. -/
def line? : BuilderCall → Option UInt16
  | addLine line => some line
  | _ => none

lemma eq_addLine {call : BuilderCall} {line : UInt16} (h : call.line? = some line) :
    call = .addLine line := by
  cases call <;> cases h
  rfl

/-- What is steady holds after any call that gives no line. -/
theorem attempt_unlined (h : Steady Inv) (call : BuilderCall) (hline : call.line? = none)
    (hrange : call.InRange) (hs : Inv s) : Inv (call.run.outcome s).2 := by
  cases call with
  | constant request => exact Keeps.map _ (h.constants (.issue request)) s hs
  | emit op operands => exact h.emit op operands s hs
  | jump op target => exact h.operation (.jump op target) hrange s hs
  | onClass op name => exact h.onClass op name s hs
  | makeMultiArray name dimensions => exact h.makeMultiArray name dimensions s hs
  | accessField op owner name descriptor => exact h.accessField op owner name descriptor s hs
  | call op owner name descriptor => exact h.call op owner name descriptor s hs
  | literalInt value => exact h.literalInt value s hs
  | literalBool value => exact h.literalInt _ s hs
  | literalLong value => exact h.literalLong value s hs
  | literalFloat bits => exact h.literalFloat bits s hs
  | literalDouble bits => exact h.literalDouble bits s hs
  | literalString text => exact h.literalString text s hs
  | load slot index => exact h.accessLocal _ _ index s hs
  | store slot index => exact h.accessLocal _ _ index s hs
  | increment index amount =>
    rw [run, MethodBuilder.increment]
    exact h.emit _ _ s hs
  | newLabel => exact h.operation .newLabel trivial s hs
  | bindLabel label => exact h.operation (.bindLabel label) trivial s hs
  | bindHandler label => exact h.operation (.bindHandler label) trivial s hs
  | reserveSwitch low high =>
    have hkept := h.operation (.reserveSwitch low high) hrange s hs
    rw [MethodBuilder.outcome_code, DraftOperation.run, Step.outcome_map] at hkept
    rwa [run, Step.outcome_map, MethodBuilder.outcome_code]
  | patchDefault switch label =>
    exact h.patch label (fun target => ⟨.patchDefault switch target, trivial, rfl⟩) s hs
  | patchCase switch index label =>
    exact h.patch label (fun target => ⟨.patchCase switch index target, trivial, rfl⟩) s hs
  | addRange start stop handler catchType => exact h.addRange start stop handler catchType s hs
  | addLine line => cases hline
  | addVariable name descriptor start index =>
    exact h.addVariable name descriptor start index s hs
  | setDepth depth => exact h.operation (.setDepth depth) trivial s hs

/-- What is stable holds after any call. -/
theorem attempt (h : Stable Inv) (call : BuilderCall) (hrange : call.InRange) (hs : Inv s) :
    Inv (call.run.outcome s).2 := by
  cases hline : call.line? with
  | none => exact attempt_unlined h.toSteady call hline hrange hs
  | some line =>
    obtain rfl := eq_addLine hline
    exact h.lines s _ hs

end BuilderCall

namespace CodeDraft

/-- The second draft comes from the first by an operation that succeeds. -/
def Follows (b b' : CodeDraft) : Prop :=
  ∃ op : DraftOperation, op.Encodable ∧ op.run.outcome b = (.ok (), b')

/-- The second draft comes from the first by operations that all succeed. -/
def Reaches (b b' : CodeDraft) : Prop := Relation.ReflTransGen Follows b b'

lemma Reaches.operation {b b' : CodeDraft} (op : DraftOperation) (hop : op.Encodable)
    (h : op.run.outcome b = (.ok (), b')) : Reaches b b' := .single ⟨op, hop, h⟩

end CodeDraft

lemma MethodBuilder.Writes.reaches {s s' : MethodBuilder} (h : Writes s s') :
    s.method.code.Reaches s'.method.code := by
  induction h with
  | grow _ hcode =>
    rw [hcode]
    exact .refl
  | operation op hplain hrun _ =>
    refine .operation op ?_ hrun
    cases op with
    | emit | emitWithEffect => trivial
    | _ => exact absurd hplain id
  | trans _ _ ih ih' => exact Relation.ReflTransGen.trans ih ih'

namespace BuilderCall

open CodeDraft (Reaches)
open MethodBuilder (Writes code_eq_ok)

variable {s s' : MethodBuilder}

/-- Where a call succeeds, so did every operation that it comes down to. -/
theorem reaches {call : BuilderCall} (hrange : call.InRange)
    (hrun : call.run.outcome s = (.ok (), s')) : s.method.code.Reaches s'.method.code := by
  cases call with
  | constant request =>
    obtain ⟨_, hconstants, _⟩ := Step.map_eq_ok.mp hrun
    exact (Writes.constants (.issue request) hconstants).1.reaches
  | emit op operands =>
    rw [run, MethodBuilder.emit] at hrun
    exact .operation (.emit op operands) trivial (code_eq_ok hrun).1
  | jump op target =>
    rw [run] at hrun
    exact .operation (.jump op target) hrange (code_eq_ok hrun).1
  | onClass => exact (MethodBuilder.writes_onClass hrun).reaches
  | makeMultiArray => exact (MethodBuilder.writes_makeMultiArray hrun).reaches
  | accessField => exact (MethodBuilder.writes_accessField hrun).reaches
  | call => exact (MethodBuilder.writes_call hrun).reaches
  | literalInt | literalBool => exact (MethodBuilder.writes_literalInt hrun).reaches
  | literalLong => exact (MethodBuilder.writes_literalLong hrun).reaches
  | literalFloat => exact (MethodBuilder.writes_literalFloat hrun).reaches
  | literalDouble => exact (MethodBuilder.writes_literalDouble hrun).reaches
  | literalString => exact (MethodBuilder.writes_literalString hrun).reaches
  | load slot | store slot =>
    refine (MethodBuilder.writes_accessLocal ?_ hrun).reaches
    cases slot <;> decide +kernel
  | increment index amount =>
    rw [run, MethodBuilder.increment, MethodBuilder.emit] at hrun
    exact .operation (.emit .iinc [index.toNat, amount]) trivial (code_eq_ok hrun).1
  | newLabel =>
    obtain ⟨label, hcode, _⟩ := Step.map_eq_ok.mp hrun
    exact .operation .newLabel trivial (Step.map_eq_ok.mpr ⟨label, (code_eq_ok hcode).1, rfl⟩)
  | bindLabel label =>
    rw [run] at hrun
    exact .operation (.bindLabel label) trivial (code_eq_ok hrun).1
  | bindHandler label =>
    rw [run] at hrun
    exact .operation (.bindHandler label) trivial (code_eq_ok hrun).1
  | reserveSwitch low high =>
    obtain ⟨start, hcode, _⟩ := Step.map_eq_ok.mp hrun
    exact .operation (.reserveSwitch low high) hrange
      (Step.map_eq_ok.mpr ⟨start, (code_eq_ok hcode).1, rfl⟩)
  | patchDefault switch label =>
    rw [run, MethodBuilder.patchDefault] at hrun
    obtain ⟨target, b, hoffset, hpatch⟩ := Step.bind_eq_ok.mp (code_eq_ok hrun).1
    obtain ⟨rfl, _⟩ := MethodBuilder.offsetOf_eq_ok hoffset
    exact .operation (.patchDefault switch target) trivial hpatch
  | patchCase switch index label =>
    rw [run, MethodBuilder.patchCase] at hrun
    obtain ⟨target, b, hoffset, hpatch⟩ := Step.bind_eq_ok.mp (code_eq_ok hrun).1
    obtain ⟨rfl, _⟩ := MethodBuilder.offsetOf_eq_ok hoffset
    exact .operation (.patchCase switch index target) trivial hpatch
  | addRange => exact (MethodBuilder.writes_addRange hrun).reaches
  | addLine =>
    cases hrun
    exact .refl
  | addVariable => exact (MethodBuilder.writes_addVariable hrun).reaches
  | setDepth depth =>
    rw [run] at hrun
    exact .operation (.setDepth depth) trivial (code_eq_ok hrun).1

end BuilderCall
end ClassAssembly
