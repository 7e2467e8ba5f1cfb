import ClassAssembly.Method.Builder
import ClassAssembly.Proofs.DepthTracking
import ClassAssembly.Proofs.Interning

/-! The calls of a method builder, and the operations on the draft that each of them comes down
to. -/
namespace ClassAssembly

/-- What can be asked of a method builder. -/
inductive BuilderCall where
  | constant (request : ConstantRequest)
  | emit (op : Opcode) (operands : List Int)
  | jump (op : Opcode) (target : BranchTarget)
  | onClass (op : Opcode) (name : String)
  | makeMultiArray (name : String) (dimensions : UInt8)
  | accessField (op : Opcode) (owner name descriptor : String)
  | call (op : Opcode) (owner name descriptor : String)
  | literalInt (value : Int32)
  | literalBool (value : Bool)
  | literalLong (value : Int64)
  | literalFloat (bits : UInt32)
  | literalDouble (bits : UInt64)
  | literalString (text : String)
  | load (slot : Slot) (index : UInt16)
  | store (slot : Slot) (index : UInt16)
  | increment (index : UInt16) (amount : Int)
  | newLabel
  | bindLabel (label : Label)
  | bindHandler (label : Label)
  | reserveSwitch (low high : Int)
  | patchDefault (switch : Nat) (target : Label)
  | patchCase (switch index : Nat) (target : Label)
  | addRange (start stop handler : Label) (catchType : Option String)
  | addLine (line : UInt16)
  | addVariable (name descriptor : String) (start : Label) (index : UInt16)
  | setDepth (depth : Int)

namespace BuilderCall

open MethodBuilder (constants code)

def run : BuilderCall → Step MethodBuilder Unit
  | constant request => (fun _ => ()) <$> constants request.issue
  | emit op operands => MethodBuilder.emit op operands
  | jump op target => code (CodeDraft.jump op target)
  | onClass op name => MethodBuilder.onClass op name
  | makeMultiArray name dimensions => MethodBuilder.makeMultiArray name dimensions
  | accessField op owner name descriptor => MethodBuilder.accessField op owner name descriptor
  | call op owner name descriptor => MethodBuilder.call op owner name descriptor
  | literalInt value => MethodBuilder.literalInt value
  | literalBool value => MethodBuilder.literalBool value
  | literalLong value => MethodBuilder.literalLong value
  | literalFloat bits => MethodBuilder.literalFloat bits
  | literalDouble bits => MethodBuilder.literalDouble bits
  | literalString text => MethodBuilder.literalString text
  | load slot index => MethodBuilder.load slot index
  | store slot index => MethodBuilder.store slot index
  | increment index amount => MethodBuilder.increment index amount
  | newLabel => (fun _ => ()) <$> code CodeDraft.newLabel
  | bindLabel label => code (CodeDraft.bindLabel label)
  | bindHandler label => code (CodeDraft.bindHandler label)
  | reserveSwitch low high => (fun _ => ()) <$> code (CodeDraft.reserveSwitch low high)
  | patchDefault switch target => MethodBuilder.patchDefault switch target
  | patchCase switch index target => MethodBuilder.patchCase switch index target
  | addRange start stop handler catchType => MethodBuilder.addRange start stop handler catchType
  | addLine line => MethodBuilder.addLine line
  | addVariable name descriptor start index =>
    MethodBuilder.addVariable name descriptor start index
  | setDepth depth => code (CodeDraft.setDepth depth)

/-- Distances are given in sixteen bits and the cases of a switch in thirty-two. -/
def InRange : BuilderCall → Prop
  | jump op target => (DraftOperation.jump op target).Encodable
  | reserveSwitch low high => (DraftOperation.reserveSwitch low high).Encodable
  | _ => True

instance : (call : BuilderCall) → Decidable call.InRange
  | jump op target => inferInstanceAs (Decidable (DraftOperation.jump op target).Encodable)
  | reserveSwitch low high =>
    inferInstanceAs (Decidable (DraftOperation.reserveSwitch low high).Encodable)
  | constant _ | emit .. | onClass .. | makeMultiArray .. | accessField ..
  | call .. | literalInt _ | literalBool _ | literalLong _ | literalFloat _ | literalDouble _
  | literalString _ | load .. | store .. | increment .. | newLabel | bindLabel _ | bindHandler _
  | patchDefault .. | patchCase .. | addRange .. | addLine _ | addVariable .. | setDepth _ =>
    .isTrue trivial

end BuilderCall

namespace Opcode

lemma isBranch_iff {op : Opcode} : op.IsBranch ↔ op.traits.map (·.flow.isJump) = .ok true := by
  constructor
  · rintro ⟨traits, htraits, hbranch⟩
    rw [htraits]
    exact congrArg Except.ok hbranch
  · intro h
    cases htraits : op.traits with
    | error e =>
      rw [htraits] at h
      cases h
    | ok traits =>
      rw [htraits] at h
      exact ⟨traits, htraits, Except.ok.inj h⟩

instance (op : Opcode) : Decidable op.IsBranch := decidable_of_iff _ isBranch_iff.symm

lemma not_isBranch {op : Opcode} (h : op.traits.map (·.flow.isJump) = .ok false) :
    ¬op.IsBranch := by
  rw [isBranch_iff, h]
  nofun

lemma effect_eq {op : Opcode} {traits : OpcodeTraits} {effect : Effect}
    (h : op.traits.map (·.effect) = .ok effect) (htraits : op.traits = .ok traits) :
    traits.effect = effect := by
  rw [htraits] at h
  exact Except.ok.inj h

/-- The opcodes that access fields, with what they do for a field of some width. -/
lemma effect_of_fieldWords? {op : Opcode} {words popped pushed : Nat}
    (h : MethodBuilder.fieldWords? op words = some (popped, pushed)) :
    ∃ count, count words = (popped, pushed) ∧ ¬op.IsBranch ∧ ∀ traits, op.traits = .ok traits →
      ∀ pool first second, traits.effect.wordsIn pool first second =
        Effect.fieldWords pool first count := by
  have hop : ∀ (effect : Effect) (count : Nat → Nat × Nat), count words = (popped, pushed) →
      op.traits.map (·.flow.isJump) = .ok false → op.traits.map (·.effect) = .ok effect →
      (∀ pool first second, effect.wordsIn pool first second =
        Effect.fieldWords pool first count) →
      ∃ count, count words = (popped, pushed) ∧ ¬op.IsBranch ∧ ∀ traits, op.traits = .ok traits →
        ∀ pool first second, traits.effect.wordsIn pool first second =
          Effect.fieldWords pool first count := by
    intro effect count hcount hflow heffect hwords
    refine ⟨count, hcount, not_isBranch hflow, fun traits htraits => ?_⟩
    rw [effect_eq heffect htraits]
    exact hwords
  rw [MethodBuilder.fieldWords?] at h
  split at h
  · rename_i heq
    subst heq
    exact hop .getStatic (fun words => (0, words)) (Option.some.inj h) (by decide +kernel)
      (by decide +kernel) fun _ _ _ => rfl
  · split at h
    · rename_i heq
      subst heq
      exact hop .putStatic (fun words => (words, 0)) (Option.some.inj h) (by decide +kernel)
        (by decide +kernel) fun _ _ _ => rfl
    · split at h
      · rename_i heq
        subst heq
        exact hop .getField (fun words => (1, words)) (Option.some.inj h) (by decide +kernel)
          (by decide +kernel) fun _ _ _ => rfl
      · split at h
        · rename_i heq
          subst heq
          exact hop .putField (fun words => (1 + words, 0)) (Option.some.inj h) (by decide +kernel)
            (by decide +kernel) fun _ _ _ => rfl
        · cases h

/-- The opcodes that call methods. All but one pop the receiver too. -/
lemma effect_of_call {op : Opcode}
    (h : op = invokestatic ∨ op = invokevirtual ∨ op = invokespecial ∨ op = invokeinterface) :
    ¬op.IsBranch ∧ ∀ traits, op.traits = .ok traits → ∀ pool first second,
      traits.effect.wordsIn pool first second =
        Effect.callWords pool first (decide (op ≠ invokestatic)) := by
  have hop : ∀ (effect : Effect), op.traits.map (·.flow.isJump) = .ok false →
      op.traits.map (·.effect) = .ok effect → (∀ pool first second,
        effect.wordsIn pool first second =
          Effect.callWords pool first (decide (op ≠ invokestatic))) →
      ¬op.IsBranch ∧ ∀ traits, op.traits = .ok traits → ∀ pool first second,
        traits.effect.wordsIn pool first second =
          Effect.callWords pool first (decide (op ≠ invokestatic)) := by
    intro effect hflow heffect hwords
    refine ⟨not_isBranch hflow, fun traits htraits => ?_⟩
    rw [effect_eq heffect htraits]
    exact hwords
  rcases h with rfl | rfl | rfl | rfl
  · exact hop .invokeStatic (by decide +kernel) (by decide +kernel) fun _ _ _ => rfl
  · exact hop .invoke (by decide +kernel) (by decide +kernel) fun _ _ _ => rfl
  · exact hop .invoke (by decide +kernel) (by decide +kernel) fun _ _ _ => rfl
  · exact hop .invoke (by decide +kernel) (by decide +kernel) fun _ _ _ => rfl

end Opcode

namespace DraftOperation

/-- The operation adds an instruction that does not branch, and the constants say of it what the
operation says. -/
def Plain (pool : ConstantPool) : DraftOperation → Prop
  | emit op operands => op.IsBranch → operands.length ≠ 1
  | emitWithEffect op operands popped pushed =>
    ¬op.IsBranch ∧ WordsIn pool (emitWithEffect op operands popped pushed)
  | _ => False

end DraftOperation

/-- The descriptor of the field or method that is asked for. -/
def ConstantRequest.descriptor? : ConstantRequest → Option String
  | fieldRef _ _ descriptor | methodRef _ _ descriptor _ => some descriptor
  | _ => none

lemma ConstantRequest.descriptor?_canonical (request : ConstantRequest) :
    request.canonical.descriptor? = request.descriptor? := by
  cases request <;> rfl

/-- A reference to a field or method has the descriptor that was asked for. -/
lemma ConstantPool.Holds.memberRef? {pool : ConstantPool} {i : PoolIndex}
    {request : ConstantRequest} {descriptor : String} (h : pool.Holds i request)
    (hmember : request.descriptor? = some descriptor) :
    ∃ ref, pool.memberRef? i = some ref ∧ ref.descriptor = descriptor := by
  cases h with
  | @fieldRef _ k l owner name _ h howner htype =>
    cases hmember
    cases htype with
    | nameAndType h' hname hdescriptor =>
      refine ⟨⟨k, owner, name, descriptor, false⟩, ?_, rfl⟩
      simp [ConstantPool.memberRef?, h, h', howner.className?_eq, hname.text?_eq,
        hdescriptor.text?_eq]
  | @methodRef _ k l owner name _ interface h howner htype =>
    cases hmember
    cases htype with
    | nameAndType h' hname hdescriptor =>
      refine ⟨⟨k, owner, name, descriptor, interface⟩, ?_, rfl⟩
      simp [ConstantPool.memberRef?, h, h', howner.className?_eq, hname.text?_eq,
        hdescriptor.text?_eq]
  | utf8 | classRef | stringRef | integer | float | long | double | nameAndType => cases hmember

lemma memberRef?_of_issue {pool pool' : ConstantPool} {i : PoolIndex} {request : ConstantRequest}
    {descriptor : String} (h : request.issue.outcome pool = (.ok i, pool'))
    (hmember : request.descriptor? = some descriptor) :
    ∃ ref, pool'.memberRef? i = some ref ∧ ref.descriptor = descriptor :=
  (ConstantPool.holds_of_issue h).memberRef? (request.descriptor?_canonical.trans hmember)

lemma ofInt_toNat (i : PoolIndex) : UInt16.ofInt (i.toNat : Int) = i := by
  have hlt := i.toNat_lt
  have hmod : ((i.toNat : Int) % 2 ^ 16).toNat = i.toNat := by omega
  rw [UInt16.ofInt, hmod, UInt16.ofNat_toNat]

namespace MethodBuilder

open ConstantPool (Adds)
open Step (bind_eq_ok)

variable {s s' : MethodBuilder} {α : Type} {op : Opcode}

lemma code_eq_ok {step : Step CodeDraft α} {a : α} (h : (code step).outcome s = (.ok a, s')) :
    step.outcome s.method.code = (.ok a, s'.method.code) ∧ s'.pool = s.pool := by
  rcases hstep : step.outcome s.method.code with ⟨result, b⟩
  simp only [code, Step.outcome_ofOutcome, hstep] at h
  cases h
  exact ⟨rfl, rfl⟩

lemma constants_eq_ok {step : Step ConstantPool α} {a : α}
    (h : (constants step).outcome s = (.ok a, s')) :
    step.outcome s.pool = (.ok a, s'.pool) ∧ s'.method = s.method := by
  rcases hstep : step.outcome s.pool with ⟨result, pool⟩
  simp only [constants, Step.outcome_ofOutcome, hstep] at h
  cases h
  exact ⟨rfl, rfl⟩

/-- From one state to the other the builder has added constants and plain instructions only. -/
inductive Writes : MethodBuilder → MethodBuilder → Prop
  | grow {s s' : MethodBuilder} (hpool : s.pool.Extends s'.pool)
      (hcode : s'.method.code = s.method.code) : Writes s s'
  | operation {s s' : MethodBuilder} (op : DraftOperation) (hplain : op.Plain s.pool)
      (hrun : op.run.outcome s.method.code = (.ok (), s'.method.code)) (hpool : s'.pool = s.pool) :
      Writes s s'
  | trans {s s' s'' : MethodBuilder} (h : Writes s s') (h' : Writes s' s'') : Writes s s''

namespace Writes

lemma emit {operands : List Int} (h : (emit op operands).outcome s = (.ok (), s'))
    (hop : op.IsBranch → operands.length ≠ 1) : Writes s s' := by
  obtain ⟨hrun, hpool⟩ := code_eq_ok h
  exact .operation (.emit op operands) hop hrun hpool

/-- An instruction without operands is no branch. -/
lemma emit_nil (h : (MethodBuilder.emit op []).outcome s = (.ok (), s')) : Writes s s' :=
  .emit h fun _ => Nat.zero_ne_one

lemma emit_of_flow {operands : List Int}
    (h : (MethodBuilder.emit op operands).outcome s = (.ok (), s'))
    (hflow : op.traits.map (·.flow.isJump) = .ok false) : Writes s s' :=
  .emit h fun hbranch => absurd hbranch (Opcode.not_isBranch hflow)

lemma emitWithEffect {operands : List Int} {popped pushed : Int}
    (h : (code (CodeDraft.emitWithEffect op operands popped pushed)).outcome s = (.ok (), s'))
    (hop : DraftOperation.Plain s.pool (.emitWithEffect op operands popped pushed)) :
    Writes s s' := by
  obtain ⟨hrun, hpool⟩ := code_eq_ok h
  exact .operation (.emitWithEffect op operands popped pushed) hop hrun hpool

lemma constants {texts : List String} {step : Step ConstantPool α} (hadds : Adds texts step) {a : α}
    (h : (constants step).outcome s = (.ok a, s')) :
    Writes s s' ∧ step.outcome s.pool = (.ok a, s'.pool) := by
  obtain ⟨hstep, hmethod⟩ := constants_eq_ok h
  exact ⟨.grow (hadds.grows hstep) (by rw [hmethod]), hstep⟩

end Writes

section Calls

variable {name owner descriptor : String}

/-- A class is interned, and then the instruction is emitted. -/
lemma onClass_eq_ok (h : (onClass op name).outcome s = (.ok (), s')) :
    (op = .new ∨ op = .anewarray ∨ op = .checkcast ∨ op = .instanceof) ∧ ∃ index s₁,
      (constants (ConstantRequest.classRef name).issue).outcome s = (.ok index, s₁) ∧
        (emit op [index.toNat]).outcome s₁ = (.ok (), s') := by
  rw [onClass] at h
  split at h
  · rename_i hop
    obtain ⟨index, s₁, hindex, h⟩ := bind_eq_ok.mp h
    exact ⟨hop, index, s₁, hindex, h⟩
  · cases h

lemma writes_onClass (h : (onClass op name).outcome s = (.ok (), s')) : Writes s s' := by
  obtain ⟨hop, index, s₁, hindex, h⟩ := onClass_eq_ok h
  obtain ⟨hwrites, _⟩ := Writes.constants (.issue (.classRef name)) hindex
  refine hwrites.trans (.emit_of_flow h ?_)
  rcases hop with rfl | rfl | rfl | rfl <;> decide +kernel

/-- A class is interned, and the number of dimensions is what the array pops. -/
lemma makeMultiArray_eq_ok {dimensions : UInt8}
    (h : (makeMultiArray name dimensions).outcome s = (.ok (), s')) : ∃ index s₁,
      (constants (ConstantRequest.classRef name).issue).outcome s = (.ok index, s₁) ∧
        (code (CodeDraft.emitWithEffect .multianewarray [index.toNat, dimensions.toNat]
          dimensions.toNat 1)).outcome s₁ = (.ok (), s') ∧
        DraftOperation.Plain s₁.pool (.emitWithEffect .multianewarray
          [index.toNat, dimensions.toNat] dimensions.toNat 1) := by
  obtain ⟨index, s₁, hindex, h⟩ := bind_eq_ok.mp h
  have heffect : Opcode.multianewarray.traits.map (·.effect) = .ok .newMultiArray := by
    decide +kernel
  refine ⟨index, s₁, hindex, h, Opcode.not_isBranch (by decide +kernel), ?_⟩
  intro traits htraits _ first second hoperands
  cases hoperands
  rw [Opcode.effect_eq heffect htraits, Effect.wordsIn]
  rfl

lemma writes_makeMultiArray {dimensions : UInt8}
    (h : (makeMultiArray name dimensions).outcome s = (.ok (), s')) : Writes s s' := by
  obtain ⟨index, s₁, hindex, h, hplain⟩ := makeMultiArray_eq_ok h
  exact (Writes.constants (.issue (.classRef name)) hindex).1.trans (.emitWithEffect h hplain)

/-- A field is interned, and what the access pops and pushes hangs on its descriptor. -/
lemma accessField_eq_ok (h : (accessField op owner name descriptor).outcome s = (.ok (), s')) :
    ∃ t popped pushed index s₁, FieldType.parse descriptor = .ok t ∧
      fieldWords? op (width t) = some (popped, pushed) ∧
      (constants (ConstantRequest.fieldRef owner name descriptor).issue).outcome s =
        (.ok index, s₁) ∧
      (code (CodeDraft.emitWithEffect op [index.toNat] popped pushed)).outcome s₁ = (.ok (), s') ∧
      DraftOperation.Plain s₁.pool (.emitWithEffect op [index.toNat] popped pushed) := by
  rw [accessField] at h
  split at h
  · cases h
  · rename_i t hparse
    split at h
    · cases h
    · rename_i popped pushed hwords
      obtain ⟨index, s₁, hindex, h⟩ := bind_eq_ok.mp h
      obtain ⟨_, hissue⟩ := Writes.constants (.issue (.fieldRef owner name descriptor)) hindex
      obtain ⟨ref, href, hdescriptor⟩ := memberRef?_of_issue hissue rfl
      obtain ⟨count, hcount, hbranch, heffect⟩ := Opcode.effect_of_fieldWords? hwords
      refine ⟨t, popped, pushed, index, s₁, hparse, hwords, hindex, h, hbranch,
        fun traits htraits _ first second hfirst => ?_⟩
      obtain rfl : first = index.toNat := List.singleton_inj.mp hfirst
      rw [heffect traits htraits, Effect.fieldWords, ofInt_toNat, href, Option.bind_eq_bind,
        Option.bind_some, hdescriptor, hparse]
      exact congrArg some hcount

lemma writes_accessField (h : (accessField op owner name descriptor).outcome s = (.ok (), s')) :
    Writes s s' := by
  obtain ⟨_, _, _, index, s₁, _, _, hindex, h, hplain⟩ := accessField_eq_ok h
  exact (Writes.constants (.issue (.fieldRef owner name descriptor)) hindex).1.trans
    (.emitWithEffect h hplain)

/-- A method is interned, and what the call pops and pushes hangs on its descriptor. -/
lemma call_eq_ok (h : (call op owner name descriptor).outcome s = (.ok (), s')) :
    (op = .invokestatic ∨ op = .invokevirtual ∨ op = .invokespecial ∨ op = .invokeinterface) ∧
    ∃ d index operands s₁, MethodDescriptor.parse descriptor = .ok d ∧
      (constants (ConstantRequest.methodRef owner name descriptor
        (decide (op = .invokeinterface))).issue).outcome s = (.ok index, s₁) ∧
      operands.head? = some (index.toNat : Int) ∧
      (code (CodeDraft.emitWithEffect op operands (d.parameterWords (decide (op ≠ .invokestatic)))
        d.resultWords)).outcome s₁ = (.ok (), s') ∧
      DraftOperation.Plain s₁.pool (.emitWithEffect op operands
        (d.parameterWords (decide (op ≠ .invokestatic))) d.resultWords) := by
  rw [call] at h
  split at h
  · cases h
  · rename_i d hparse
    split at h
    · rename_i hop
      obtain ⟨index, s₁, hindex, h⟩ := bind_eq_ok.mp h
      obtain ⟨_, hissue⟩ :=
        Writes.constants (.issue (.methodRef owner name descriptor _)) hindex
      obtain ⟨ref, href, hdescriptor⟩ := memberRef?_of_issue hissue rfl
      obtain ⟨hbranch, heffect⟩ := Opcode.effect_of_call hop
      refine ⟨hop, d, index, _, s₁, hparse, hindex, ?_, h, hbranch,
        fun traits htraits _ first second hfirst => ?_⟩
      · split <;> rfl
      -- A call of an interface method has one more operand, which does not count here.
      have hindex : first = index.toNat := by
        split at hfirst
        · exact (List.cons.inj hfirst).1
        · exact List.singleton_inj.mp hfirst
      rw [heffect traits htraits, Effect.callWords, hindex, ofInt_toNat, href, Option.bind_eq_bind,
        Option.bind_some, hdescriptor, hparse]
      rfl
    · cases h

lemma writes_call (h : (call op owner name descriptor).outcome s = (.ok (), s')) : Writes s s' := by
  obtain ⟨_, _, index, _, s₁, _, hindex, _, h, hplain⟩ := call_eq_ok h
  exact (Writes.constants (.issue (.methodRef owner name descriptor _)) hindex).1.trans
    (.emitWithEffect h hplain)

lemma writes_literalInt {value : Int32} (h : (literalInt value).outcome s = (.ok (), s')) :
    Writes s s' := by
  simp only [literalInt] at h
  split at h
  · exact .emit_nil h
  · split at h
    · exact .emit_of_flow h (by decide +kernel)
    · split at h
      · exact .emit_of_flow h (by decide +kernel)
      · obtain ⟨index, s₁, hindex, h⟩ := bind_eq_ok.mp h
        exact (Writes.constants (.issue (.integer value)) hindex).1.trans
          (.emit_of_flow h (by decide +kernel))

lemma writes_literalLong {value : Int64} (h : (literalLong value).outcome s = (.ok (), s')) :
    Writes s s' := by
  rw [literalLong] at h
  split at h
  · exact .emit_nil h
  · split at h
    · exact .emit_nil h
    · obtain ⟨index, s₁, hindex, h⟩ := bind_eq_ok.mp h
      exact (Writes.constants (.issue (.long value)) hindex).1.trans
        (.emit_of_flow h (by decide +kernel))

lemma writes_literalFloat {bits : UInt32} (h : (literalFloat bits).outcome s = (.ok (), s')) :
    Writes s s' := by
  rw [literalFloat] at h
  split at h
  · exact .emit_nil h
  · split at h
    · exact .emit_nil h
    · split at h
      · exact .emit_nil h
      · obtain ⟨index, s₁, hindex, h⟩ := bind_eq_ok.mp h
        exact (Writes.constants (.issue (.float bits)) hindex).1.trans
          (.emit_of_flow h (by decide +kernel))

lemma writes_literalDouble {bits : UInt64} (h : (literalDouble bits).outcome s = (.ok (), s')) :
    Writes s s' := by
  rw [literalDouble] at h
  split at h
  · exact .emit_nil h
  · split at h
    · exact .emit_nil h
    · obtain ⟨index, s₁, hindex, h⟩ := bind_eq_ok.mp h
      exact (Writes.constants (.issue (.double bits)) hindex).1.trans
        (.emit_of_flow h (by decide +kernel))

lemma writes_literalText {text : String} (h : (literalText text).outcome s = (.ok (), s')) :
    Writes s s' := by
  obtain ⟨index, s₁, hindex, h⟩ := bind_eq_ok.mp h
  exact (Writes.constants (.issue (.stringRef text)) hindex).1.trans
    (.emit_of_flow h (by decide +kernel))

lemma writes_literalString {text : String} (h : (literalString text).outcome s = (.ok (), s')) :
    Writes s s' := by
  rw [literalString] at h
  split at h
  · exact writes_literalText h
  · obtain ⟨_, s₁, hnew, h⟩ := bind_eq_ok.mp h
    obtain ⟨_, s₂, hdup, h⟩ := bind_eq_ok.mp h
    obtain ⟨_, s₃, hinit, h⟩ := bind_eq_ok.mp h
    obtain ⟨_, s₄, hpieces, h⟩ := bind_eq_ok.mp h
    have hloop : Writes s₃ s₄ := by
      refine (Step.forM_ensures (fun _ => True) Writes (fun _ _ => True)
        (fun s => .grow (.refl _) rfl) (fun _ _ _ => .trans) (fun _ _ _ _ _ => trivial) _
        (fun piece _ t t' _ hpiece => ?_) s₃ s₄ trivial hpieces).1
      obtain ⟨_, t₁, htext, hcall⟩ := bind_eq_ok.mp hpiece
      exact ⟨(writes_literalText htext).trans (writes_call hcall), trivial, trivial⟩
    exact (writes_onClass hnew).trans <| (Writes.emit_nil hdup).trans <|
      (writes_call hinit).trans <| hloop.trans (writes_call h)

lemma writes_accessLocal {long short : Opcode} {index : UInt16}
    (hlong : long.traits.map (·.flow.isJump) = .ok false)
    (h : (accessLocal long short index).outcome s = (.ok (), s')) : Writes s s' := by
  rw [accessLocal] at h
  split at h
  · exact .emit_nil h
  · exact .emit_of_flow h hlong

/-- Looking a label up changes nothing. -/
lemma labelStatus_unchanged {label : Label} {u : Unit}
    (h : (discard (code (CodeDraft.labelStatus label)) : Step MethodBuilder Unit).outcome s =
      (.ok u, s')) : s'.pool = s.pool ∧ s'.method.code = s.method.code := by
  obtain ⟨state, hcode, _⟩ := Step.map_eq_ok.mp h
  obtain ⟨hstatus, hpool⟩ := code_eq_ok hcode
  exact ⟨hpool, (CodeDraft.labelStatus_eq_ok hstatus).1.symm⟩

lemma writes_addRange {start stop handler : Label} {catchType : Option String}
    (h : (addRange start stop handler catchType).outcome s = (.ok (), s')) : Writes s s' := by
  -- What follows once the class of the exceptions is among the constants.
  have hrest : ∀ s₁ index, (do
      [start, stop, handler].forM fun label => discard (code (CodeDraft.labelStatus label))
      modify fun b => { b with method := { b.method with
        ranges := b.method.ranges.push ⟨start, stop, handler, index⟩ } } :
          Step MethodBuilder Unit).outcome s₁ = (.ok (), s') → Writes s₁ s' := by
    intro s₁ index h
    obtain ⟨_, s₂, hlabels, h⟩ := bind_eq_ok.mp h
    obtain ⟨⟨hpool, hcode⟩, _⟩ := Step.forM_ensures (fun _ : MethodBuilder => True)
      (fun s s' => s'.pool = s.pool ∧ s'.method.code = s.method.code) (fun _ _ => True)
      (fun _ => ⟨rfl, rfl⟩) (fun _ _ _ h h' => ⟨h'.1.trans h.1, h'.2.trans h.2⟩)
      (fun _ _ _ _ _ => trivial) [start, stop, handler]
      (fun _ _ _ _ _ hlabel => ⟨labelStatus_unchanged hlabel, trivial, trivial⟩) s₁ s₂ trivial
      hlabels
    cases h
    exact .grow (hpool ▸ .refl _) hcode
  cases catchType with
  | none => exact hrest s none h
  | some name =>
    obtain ⟨index, s₁, hindex, h⟩ := bind_eq_ok.mp h
    obtain ⟨_, hconstants, rfl⟩ := Step.map_eq_ok.mp hindex
    exact (Writes.constants (.issue (.classRef name)) hconstants).1.trans (hrest s₁ _ h)

lemma writes_addVariable {start : Label} {index : UInt16}
    (h : (addVariable name descriptor start index).outcome s = (.ok (), s')) : Writes s s' := by
  rw [addVariable] at h
  split at h
  · cases h
  · obtain ⟨nameIndex, s₁, hname, h⟩ := bind_eq_ok.mp h
    obtain ⟨descriptorIndex, s₂, hdescriptor, h⟩ := bind_eq_ok.mp h
    obtain ⟨_, s₃, hlabel, h⟩ := bind_eq_ok.mp h
    obtain ⟨hpool, hcode⟩ := labelStatus_unchanged hlabel
    have hfirst := (Writes.constants (.issue (.utf8 name)) hname).1
    have hsecond := (Writes.constants (.issue (.utf8 descriptor)) hdescriptor).1
    cases h
    exact hfirst.trans (hsecond.trans (.grow (hpool ▸ .refl _) hcode))

end Calls
end MethodBuilder
end ClassAssembly
