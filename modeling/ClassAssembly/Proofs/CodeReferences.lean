import ClassAssembly.Proofs.FreshObjects
import ClassAssembly.Proofs.KeptConstants
import ClassAssembly.Proofs.TextPieces
import ClassAssembly.Proofs.WellFormedFrames

/-! The constants that the code of a method refers to. The operand of an instruction stands for the
constant that was asked for with it, through whatever the builder does next and in the closed method,
unless the instruction is blanked. -/
namespace ClassAssembly

/-- The first operand is the index of the constant that a request asks for. -/
def Instruction.Refers (insn : Instruction) (pool : ConstantPool) (request : ConstantRequest) : Prop :=
  ∃ index : PoolIndex, insn.first = index.toNat ∧ pool.Holds index request.canonical

lemma Instruction.Refers.mono {insn : Instruction} {pool later : ConstantPool}
    {request : ConstantRequest} (hext : pool.Extends later) (h : insn.Refers pool request) :
    insn.Refers later request := by
  obtain ⟨index, hfirst, hholds⟩ := h
  exact ⟨index, hfirst, hholds.mono hext⟩

/-- The operation adds an instruction whose first operand is the index, and which is no branch. -/
def DraftOperation.Takes (index : PoolIndex) : DraftOperation → Prop
  | emit op operands | emitWithEffect op operands _ _ =>
    ¬op.IsBranch ∧ operands.head? = some (index.toNat : Int)
  | _ => False

namespace DraftOperation.Takes

variable {op : DraftOperation} {index : PoolIndex}

lemma emits (h : op.Takes index) : op.Encodable ∧ op.emits = true := by
  cases op <;> first | exact ⟨trivial, rfl⟩ | exact h.elim

lemma spelled (h : op.Takes index) {insn : Instruction} (hspells : op.Spells insn) :
    insn.first = index.toNat ∧ ¬insn.opcode.IsBranch := by
  have hfirst : ∀ {op : Opcode} {operands : List Int}, ¬op.IsBranch →
      operands.head? = some (index.toNat : Int) →
      insn.Spells (op.spelled (operands[0]?.getD 0)) operands →
      insn.first = index.toNat ∧ ¬insn.opcode.IsBranch := by
    intro op operands hbranch hhead hspells
    obtain ⟨hopcode, hoperands⟩ := hspells
    cases operands with
    | nil => cases hhead
    | cons first rest =>
      cases hhead
      refine ⟨(List.cons.inj hoperands).1, ?_⟩
      rw [hopcode, Opcode.spelled]
      split
      · exact Opcode.not_isBranch (by decide +kernel)
      · exact hbranch
  cases op with
  | emit op operands => exact hfirst h.1 h.2 hspells
  | emitWithEffect op operands popped pushed => exact hfirst h.1 h.2 hspells
  | _ => exact h.elim

end DraftOperation.Takes

namespace BuilderCall

open MethodBuilder (constants code maxText)
open Step (bind_eq_ok)

variable {s s' : MethodBuilder} {request : ConstantRequest}

/-- The constant that a single instruction of the call refers to. -/
def request? : BuilderCall → Option ConstantRequest
  | onClass _ name | makeMultiArray name _ => some (.classRef name)
  | accessField _ owner name descriptor => some (.fieldRef owner name descriptor)
  | call op owner name descriptor =>
    some (.methodRef owner name descriptor (decide (op = .invokeinterface)))
  | literalInt value =>
    if -32768 ≤ value.toInt ∧ value.toInt ≤ 32767 then none else some (.integer value)
  | literalLong value => if value = 0 ∨ value = 1 then none else some (.long value)
  | literalFloat bits =>
    if bits = 0 ∨ bits = 0x3f800000 ∨ bits = 0x40000000 then none else some (.float bits)
  | literalDouble bits => if bits = 0 ∨ bits = 0x3ff0000000000000 then none else some (.double bits)
  | literalString text =>
    if ModifiedUtf8.length text ≤ maxText then some (.stringRef text) else none
  | _ => none

/-- Appends a piece of a string to those before. -/
def appendPiece (piece : List Char) : List BuilderCall := [
  literalString (String.ofList piece),
  call .invokevirtual ClassName.stringBuilder "append"
    "(Ljava/lang/String;)Ljava/lang/StringBuilder;"]

/-- The calls that a call consists of. A string that is too long for a constant is put together. -/
def expand : BuilderCall → List BuilderCall
  | literalString text =>
    if ModifiedUtf8.length text ≤ maxText then [literalString text]
    else
      [onClass .new ClassName.stringBuilder, emit .dup [],
        call .invokespecial ClassName.stringBuilder ClassName.constructor "()V"] ++
      (ModifiedUtf8.pieces maxText text.toList).flatMap appendPiece ++
      [call .invokevirtual ClassName.stringBuilder "toString" "()Ljava/lang/String;"]
  | other => [other]

/-- The constants that calls refer to, each with the offset of its instruction. -/
def referencesOf : List BuilderCall → MethodBuilder → List (Nat × ConstantRequest)
  | [], _ => []
  | first :: rest, s =>
    (first.request?.map (s.method.code.code.size, ·)).toList ++
      referencesOf rest (first.run.outcome s).2

def references (call : BuilderCall) (s : MethodBuilder) : List (Nat × ConstantRequest) :=
  referencesOf call.expand s

/-- A call with a request asks for the constant and writes its index into an instruction. -/
theorem operation_of_request? {call : BuilderCall} (hrequest : call.request? = some request)
    (hrun : call.run.outcome s = (.ok (), s')) :
    ∃ index s₁ op, (constants request.issue).outcome s = (.ok index, s₁) ∧
      op.Takes index ∧ (code (DraftOperation.run op)).outcome s₁ = (.ok (), s') := by
  have hload : ∀ {op : Opcode}, ¬op.IsBranch →
      (do let index ← constants request.issue
          MethodBuilder.emit op [index.toNat]).outcome s = (.ok (), s') →
      ∃ index s₁ op, (constants request.issue).outcome s = (.ok index, s₁) ∧
        op.Takes index ∧ (code (DraftOperation.run op)).outcome s₁ = (.ok (), s') := by
    intro op hbranch hload
    obtain ⟨index, s₁, hindex, hemit⟩ := bind_eq_ok.mp hload
    exact ⟨index, s₁, .emit op [index.toNat], hindex, ⟨hbranch, rfl⟩, hemit⟩
  have hldc : ¬Opcode.ldc.IsBranch := Opcode.not_isBranch (by decide +kernel)
  have hwide : ¬Opcode.ldc2Wide.IsBranch := Opcode.not_isBranch (by decide +kernel)
  cases call with
  | onClass op name =>
    cases hrequest
    obtain ⟨hop, index, s₁, hindex, hemit⟩ := MethodBuilder.onClass_eq_ok hrun
    refine ⟨index, s₁, .emit op [index.toNat], hindex, ⟨Opcode.not_isBranch ?_, rfl⟩, hemit⟩
    rcases hop with rfl | rfl | rfl | rfl <;> decide +kernel
  | makeMultiArray name dimensions =>
    cases hrequest
    obtain ⟨index, s₁, hindex, hemit, hplain⟩ := MethodBuilder.makeMultiArray_eq_ok hrun
    exact ⟨index, s₁, .emitWithEffect _ _ _ _, hindex, ⟨hplain.1, rfl⟩, hemit⟩
  | accessField op owner name descriptor =>
    cases hrequest
    obtain ⟨_, _, _, index, s₁, _, _, hindex, hemit, hplain⟩ := MethodBuilder.accessField_eq_ok hrun
    exact ⟨index, s₁, .emitWithEffect _ _ _ _, hindex, ⟨hplain.1, rfl⟩, hemit⟩
  | call op owner name descriptor =>
    cases hrequest
    obtain ⟨_, _, index, _, s₁, _, hindex, hhead, hemit, hplain⟩ := MethodBuilder.call_eq_ok hrun
    exact ⟨index, s₁, .emitWithEffect _ _ _ _, hindex, ⟨hplain.1, hhead⟩, hemit⟩
  | literalInt value =>
    rw [request?] at hrequest
    split at hrequest
    · cases hrequest
    · rename_i hbig
      cases hrequest
      rw [run, MethodBuilder.literalInt, if_neg (by omega), if_neg (by omega), if_neg hbig] at hrun
      exact hload hldc hrun
  | literalLong value =>
    rw [request?] at hrequest
    split at hrequest
    · cases hrequest
    · rename_i hother
      obtain ⟨hzero, hone⟩ := not_or.mp hother
      cases hrequest
      rw [run, MethodBuilder.literalLong, if_neg hzero, if_neg hone] at hrun
      exact hload hwide hrun
  | literalFloat bits =>
    rw [request?] at hrequest
    split at hrequest
    · cases hrequest
    · rename_i hother
      obtain ⟨hzero, hother⟩ := not_or.mp hother
      obtain ⟨hone, htwo⟩ := not_or.mp hother
      cases hrequest
      rw [run, MethodBuilder.literalFloat, if_neg hzero, if_neg hone, if_neg htwo] at hrun
      exact hload hldc hrun
  | literalDouble bits =>
    rw [request?] at hrequest
    split at hrequest
    · cases hrequest
    · rename_i hother
      obtain ⟨hzero, hone⟩ := not_or.mp hother
      cases hrequest
      rw [run, MethodBuilder.literalDouble, if_neg hzero, if_neg hone] at hrun
      exact hload hwide hrun
  | literalString text =>
    rw [request?] at hrequest
    split at hrequest
    · rename_i hshort
      cases hrequest
      rw [run, MethodBuilder.literalString, if_pos hshort] at hrun
      exact hload hldc hrun
    · cases hrequest
  | _ => cases hrequest

lemma forM_singleton (call : BuilderCall) : [call].forM run = call.run := by
  rw [List.forM, List.forM]
  exact bind_pure call.run

lemma forM_append (calls calls' : List BuilderCall) : (calls ++ calls').forM run =
    (do calls.forM run; calls'.forM run) := List.forM_append

/-- A piece that fits is pushed as a constant. -/
lemma forM_appendPiece {piece : List Char} (h : ModifiedUtf8.lengthOf piece ≤ maxText) :
    (appendPiece piece).forM run = (do
      MethodBuilder.literalText (String.ofList piece)
      MethodBuilder.call .invokevirtual ClassName.stringBuilder "append"
        "(Ljava/lang/String;)Ljava/lang/StringBuilder;") := by
  have hpiece : (literalString (String.ofList piece)).run =
      MethodBuilder.literalText (String.ofList piece) := by
    rw [run, MethodBuilder.literalString, if_pos]
    rwa [ModifiedUtf8.length, String.toList_ofList]
  rw [appendPiece, List.forM, forM_singleton, hpiece]
  rfl

/-- Making a call is making the calls that it consists of. -/
theorem run_eq_forM_expand (call : BuilderCall) : call.run = call.expand.forM run := by
  cases call with
  | literalString text =>
    rw [expand]
    split
    · rw [forM_singleton]
    · rename_i hlong
      have hpieces : ∀ pieces : List (List Char),
          (∀ piece ∈ pieces, ModifiedUtf8.lengthOf piece ≤ maxText) →
          (pieces.flatMap appendPiece).forM run = (pieces.forM fun piece => do
            MethodBuilder.literalText (String.ofList piece)
            MethodBuilder.call .invokevirtual ClassName.stringBuilder "append"
              "(Ljava/lang/String;)Ljava/lang/StringBuilder;") := by
        intro pieces
        induction pieces with
        | nil => exact fun _ => rfl
        | cons piece pieces ih =>
          intro hall
          rw [List.flatMap_cons, forM_append, forM_appendPiece (hall piece (by simp)),
            ih fun other h => hall other (by simp [h]), List.forM]
      rw [run, MethodBuilder.literalString, if_neg hlong, forM_append, forM_append, forM_singleton,
        hpieces _ fun _ => ModifiedUtf8.lengthOf_le_of_mem_pieces]
      simp only [List.forM, bind_assoc, pure_bind]
      rfl
  | _ => exact (forM_singleton _).symm

/-- A call is a single one, or it consists of some that all are in range. -/
lemma expand_cases (call : BuilderCall) : call.expand = [call] ∨
    ∀ part ∈ call.expand, part.InRange := by
  cases call with
  | literalString text =>
    rw [expand]
    split
    · exact .inl rfl
    · right
      intro part hpart
      simp only [appendPiece, List.mem_append, List.mem_flatMap, List.mem_cons, List.not_mem_nil,
        or_false] at hpart
      rcases hpart with ((rfl | rfl | rfl) | ⟨piece, _, rfl | rfl⟩) | rfl <;> trivial
  | _ => exact .inl rfl

end BuilderCall

/-- A method as it was asked for. -/
structure MethodNote where
  flags : MethodFlags
  name : String
  descriptor : String
  hasCode : Bool
  /-- The constants that its code refers to, each with the offset of the instruction. -/
  references : List (Nat × ConstantRequest)
deriving DecidableEq

/-- The method with more references. -/
def MethodNote.citing (note : MethodNote) (references : List (Nat × ConstantRequest)) : MethodNote :=
  { note with references := note.references ++ references }

namespace MethodBuilder

open CodeDraft (Laid Limited)

variable {note : MethodNote} {s s' : MethodBuilder} {references : List (Nat × ConstantRequest)}

/-- Each reference is one of an instruction of the draft, which is no branch. -/
def Cites (references : List (Nat × ConstantRequest)) (s : MethodBuilder) : Prop :=
  ∃ items, Laid items s.method.code ∧ ∀ pc request, (pc, request) ∈ references →
    ∃ insn, (pc, insn) ∈ items ∧ ¬insn.opcode.IsBranch ∧ insn.Refers s.pool request

/-- The method under construction is the one that was asked for. -/
structure Drafts (note : MethodNote) (s : MethodBuilder) : Prop where
  hasCode : note.hasCode = true
  flags : s.method.flags = note.flags
  name : s.pool.Holds s.method.nameIndex (.utf8 note.name)
  descriptor : s.pool.Holds s.method.descriptorIndex (.utf8 note.descriptor)
  limited : Limited (s.method.descriptor.parameterWords (!s.method.isStatic)) s.method.code
  shallow : s.method.code.Shallow
  cites : Cites note.references s

namespace Cites

lemma grow {pool : ConstantPool} (h : Cites references s) (hext : s.pool.Extends pool) :
    Cites references { s with pool } := by
  obtain ⟨items, hlaid, hrefers⟩ := h
  refine ⟨items, hlaid, fun pc request hmem => ?_⟩
  obtain ⟨insn, hitem, hbranch, hrefers⟩ := hrefers pc request hmem
  exact ⟨insn, hitem, hbranch, hrefers.mono hext⟩

/-- An operation leaves the instructions that are there, whether it succeeds or not. -/
lemma operation {op : DraftOperation} (h : Cites references s) (hshallow : s.method.code.Shallow)
    (hop : op.Encodable) :
    Cites references (s.withCode (op.run.outcome s.method.code).2) := by
  obtain ⟨items, hlaid, hrefers⟩ := h
  rcases hrun : op.run.outcome s.method.code with ⟨e | _, b⟩
  · exact ⟨items, hlaid.failure hshallow hrun, hrefers⟩
  · obtain ⟨later, hlater⟩ := hlaid.step hop hrun
    refine ⟨items ++ later, hlater, fun pc request hmem => ?_⟩
    obtain ⟨insn, hitem, hrest⟩ := hrefers pc request hmem
    exact ⟨insn, List.mem_append_left _ hitem, hrest⟩

/-- An instruction with the index of a constant refers to it. -/
lemma emission {op : DraftOperation} {index : PoolIndex} {request : ConstantRequest}
    (h : Cites references s) (htakes : op.Takes index)
    (hholds : s.pool.Holds index request.canonical)
    (hrun : (code op.run).outcome s = (.ok (), s')) :
    Cites (references ++ [(s.method.code.code.size, request)]) s' := by
  obtain ⟨items, hlaid, hrefers⟩ := h
  obtain ⟨hop, hemits⟩ := htakes.emits
  obtain ⟨hrun, hpool⟩ := code_eq_ok hrun
  obtain ⟨insn, hspells, hlater⟩ := hlaid.emission hop hemits hrun
  obtain ⟨hfirst, hbranch⟩ := htakes.spelled hspells
  refine ⟨_, hlater, fun pc asked hmem => ?_⟩
  rw [hpool]
  rcases List.mem_append.mp hmem with hmem | hmem
  · obtain ⟨insn', hitem, hrest⟩ := hrefers pc asked hmem
    exact ⟨insn', List.mem_append_left _ hitem, hrest⟩
  · obtain ⟨rfl, rfl⟩ := Prod.mk.inj (List.mem_singleton.mp hmem)
    exact ⟨insn, List.mem_append_right _ (List.mem_singleton.mpr rfl), hbranch, index, hfirst, hholds⟩

end Cites

/-- Constants that are there stay where they are. -/
lemma stable_extends (pool : ConstantPool) : Stable (fun s => pool.Extends s.pool) where
  pool _ _ h hext := h.trans hext
  code _ _ _ h := h
  tables _ _ _ h := h
  lines _ _ h := h

namespace Drafts

/-- What was asked for is not changed by what the builder does next. -/
theorem stable (note : MethodNote) : Stable (Drafts note) where
  pool s pool h hext :=
    ⟨h.hasCode, h.flags, h.name.mono hext, h.descriptor.mono hext, h.limited, h.shallow,
      h.cites.grow hext⟩
  code s op hop h := by
    refine ⟨h.hasCode, h.flags, h.name, h.descriptor,
      CodeDraft.keeps_run (CodeDraft.sized_limited _) op _ h.limited, ?_,
      h.cites.operation h.shallow hop⟩
    rcases hrun : op.run.outcome s.method.code with ⟨e | _, b⟩
    · obtain rfl := CodeDraft.run_eq_error hrun
      exact h.shallow.remains op
    · exact h.shallow.step hrun
  tables s ranges named h :=
    ⟨h.hasCode, h.flags, h.name, h.descriptor, h.limited, h.shallow, h.cites⟩
  lines s lines h := ⟨h.hasCode, h.flags, h.name, h.descriptor, h.limited, h.shallow, h.cites⟩

/-- A call that succeeds adds the reference that it asks for. -/
lemma single {call : BuilderCall} (h : Drafts note s) (hrange : call.InRange)
    (hrun : call.run.outcome s = (.ok (), s')) :
    Drafts (note.citing (call.request?.map (s.method.code.code.size, ·)).toList) s' := by
  have hkept := BuilderCall.attempt (stable note) call hrange h
  rw [hrun] at hkept
  refine { hkept with cites := ?_ }
  cases hrequest : call.request? with
  | none =>
    rw [MethodNote.citing, Option.map_none, Option.toList_none, List.append_nil]
    exact hkept.cites
  | some request =>
    obtain ⟨index, s₁, op, hissue, htakes, hcode⟩ := BuilderCall.operation_of_request? hrequest hrun
    obtain ⟨hissue, hmethod⟩ := constants_eq_ok hissue
    have hcites : Cites note.references s₁ := by
      have hgrown := h.cites.grow ((ConstantPool.Adds.issue request).grows hissue)
      rwa [← hmethod] at hgrown
    have hlater := hcites.emission htakes (ConstantPool.holds_of_issue hissue) hcode
    rwa [hmethod] at hlater

lemma parts {calls : List BuilderCall} (h : Drafts note s)
    (hall : ∀ call ∈ calls, call.InRange)
    (hrun : (calls.forM BuilderCall.run).outcome s = (.ok (), s')) :
    Drafts (note.citing (BuilderCall.referencesOf calls s)) s' := by
  induction calls generalizing note s with
  | nil =>
    cases hrun
    rwa [MethodNote.citing, BuilderCall.referencesOf, List.append_nil]
  | cons call calls ih =>
    obtain ⟨_, s₁, hfirst, hrest⟩ := Step.bind_eq_ok.mp hrun
    have hlater := ih (h.single (hall call (by simp)) hfirst)
      (fun part hpart => hall part (by simp [hpart])) hrest
    rw [BuilderCall.referencesOf, hfirst]
    simpa only [MethodNote.citing, List.append_assoc] using hlater

/-- A call that succeeds adds all the references that it asks for. -/
theorem call {call : BuilderCall} (h : Drafts note s) (hrange : call.InRange)
    (hrun : call.run.outcome s = (.ok (), s')) :
    Drafts (note.citing (call.references s)) s' := by
  rw [BuilderCall.references]
  rcases call.expand_cases with hsingle | hall
  · rw [hsingle, BuilderCall.referencesOf, BuilderCall.referencesOf, List.append_nil]
    exact h.single hrange hrun
  · rw [BuilderCall.run_eq_forM_expand] at hrun
    exact h.parts hall hrun

end Drafts
end MethodBuilder

/-- Starting a method adds constants at most, also if it fails. -/
lemma MethodBody.keeps_start {before : ConstantPool} (flags : MethodFlags) (name descriptor : String) :
    Step.Keeps (before.Extends ·) (start flags name descriptor) := by
  rw [start]
  split
  · exact .throw _
  · refine (ConstantPool.keeps_of_adds (.issue (.utf8 name))).bind fun _ =>
      (ConstantPool.keeps_of_adds (.issue (.utf8 descriptor))).bind fun _ => ?_
    simp only
    split
    · exact .throw _
    · exact .pure _

/-- A method that was just started refers to nothing yet. -/
lemma MethodBuilder.drafts_start {flags : MethodFlags} {name descriptor : String}
    {pool later : ConstantPool} {m : MethodBody}
    (h : (MethodBody.start flags name descriptor).outcome pool = (.ok m, later)) :
    Drafts ⟨flags, name, descriptor, true, []⟩ ⟨m, later⟩ := by
  have hlimited := MethodBody.limited_start h
  have hreaches := MethodBody.reaches_start h
  rw [MethodBody.start] at h
  split at h
  · cases h
  obtain ⟨i, middle, hname, h⟩ := Step.bind_eq_ok.mp h
  obtain ⟨j, last, hdescriptor, h⟩ := Step.bind_eq_ok.mp h
  have hext := (ConstantPool.Adds.issue (.utf8 descriptor)).grows hdescriptor
  simp only at h
  split at h
  · cases h
  rename_i code huse
  cases h
  obtain ⟨items, hlaid, _⟩ := hreaches.laid
  refine ⟨rfl, rfl, (ConstantPool.holds_of_utf8 hname).mono hext,
    ConstantPool.holds_of_utf8 hdescriptor, hlimited, ?_, items, hlaid, fun pc request hmem => ?_⟩
  · have hrun : (DraftOperation.useLocals 0 _).run.outcome .empty = (.ok (), code) := huse
    exact CodeDraft.Shallow.empty.step hrun
  · cases hmem

/-- The attribute has this content, and its name. -/
structure Attribute.Says (pool : ConstantPool) (a : Attribute) (body : AttributeBody) : Prop where
  name : pool.Holds a.name (.utf8 body.name)
  info : body.encode = .ok a.info

lemma Attribute.Says.mono {pool later : ConstantPool} {a : Attribute} {body : AttributeBody}
    (hext : pool.Extends later) (h : a.Says pool body) : a.Says later body :=
  ⟨h.name.mono hext, h.info⟩

namespace ConstantPool

variable {pool later : ConstantPool} {body : AttributeBody}

lemma says_of_internAttribute {a : Attribute}
    (h : (internAttribute body).outcome pool = (.ok a, later)) :
    pool.Extends later ∧ a.Says later body := by
  have hext := keeps_internAttribute body pool (.refl pool)
  rw [h] at hext
  refine ⟨hext, ?_⟩
  obtain ⟨name, _, hname, h⟩ := Step.bind_eq_ok.mp h
  cases hencode : body.encode with
  | error e =>
    rw [hencode] at h
    cases h
  | ok info =>
    rw [hencode] at h
    cases h
    exact ⟨holds_of_utf8 hname, hencode⟩

lemma says_of_internUnless {empty : Bool} {attributes : List Attribute}
    (h : (internUnless empty body).outcome pool = (.ok attributes, later)) :
    pool.Extends later ∧
      List.Forall₂ (Attribute.Says later) attributes (if empty then [] else [body]) := by
  unfold internUnless at h
  cases empty with
  | true =>
    cases h
    exact ⟨.refl _, .nil⟩
  | false =>
    obtain ⟨a, ha, rfl⟩ := Step.map_eq_ok.mp h
    obtain ⟨hext, hsays⟩ := says_of_internAttribute ha
    exact ⟨hext, .cons hsays .nil⟩

end ConstantPool

/-- The instruction that was there has been blanked. -/
def Code.BlankAt (code : Array UInt8) (pc : Nat) : Prop :=
  code[pc]? = some Opcode.nop.byte ∨ code[pc]? = some Opcode.athrow.byte

/-- Where some blocks are blanked, an instruction stays as it is or is blanked. -/
lemma BlockProgram.Blanked.decode_or_blank {dead : Nat → Prop} {p p' : BlockProgram}
    {instructions : List Nat} {pc : Nat} {insn : Instruction} (h : Blanked dead p p')
    (htiles : p.graph.Tiles p.code instructions) (hmem : pc ∈ instructions)
    (hdecode : Code.decode p.code pc = .ok insn) :
    Code.decode p'.code pc = .ok insn ∨ Code.BlankAt p'.code pc := by
  by_cases hblank : ∃ (k : Nat) (b : Block), dead k ∧ p.graph.blocks[k]? = some b ∧
      b.start ≤ pc ∧ pc < b.stop
  · obtain ⟨k, b, hdead, hb, hpc⟩ := hblank
    have hbyte := h.blanked k b pc hdead hb hpc
    split at hbyte
    · exact .inr (.inr hbyte)
    · exact .inr (.inl hbyte)
  · refine .inl (Code.decode_congr hdecode fun i hlo hhi => h.bytes i fun k b hdead hb hi => ?_)
    -- A block that starts after the instruction starts after its last byte.
    by_cases hstart : b.start ≤ pc
    · exact hblank ⟨k, b, hdead, hb, hstart, by omega⟩
    · obtain ⟨insn', hdecode', _, hother⟩ := htiles.walk.next hmem
      rw [hdecode] at hdecode'
      cases hdecode'
      have hnext := hother b.start (htiles.start_mem k b hb) (by omega)
      omega

/-- The code of a method refers to these constants, but for instructions that were blanked. Versions
without stack maps blank nothing. -/
def CodeBody.Cites (version : Version) (pool : ConstantPool)
    (references : List (Nat × ConstantRequest)) (body : CodeBody) : Prop :=
  ∀ pc request, (pc, request) ∈ references →
    version.hasStackMaps = true ∧ Code.BlankAt body.code pc ∨
      ∃ insn, Code.decode body.code pc = .ok insn ∧ insn.Refers pool request

/-- The method in the class is the one that was asked for. -/
structure MethodNote.Recorded (version : Version) (pool : ConstantPool) (note : MethodNote)
    (method : Method) : Prop where
  flags : method.flags = note.flags
  name : pool.Holds method.name (.utf8 note.name)
  descriptor : pool.Holds method.descriptor (.utf8 note.descriptor)
  bare : note.hasCode = false → method.attributes = []
  code : note.hasCode = true → ∃ written body tables, method.attributes = [written] ∧
    written.Says pool (.code body) ∧ List.Forall₂ (Attribute.Says pool) body.attributes tables ∧
    (tables.map AttributeBody.name).Sublist
      ["LineNumberTable", "LocalVariableTable", "StackMapTable"] ∧
    body.Cites version pool note.references

lemma MethodNote.Recorded.mono {version : Version} {pool later : ConstantPool} {note : MethodNote}
    {method : Method} (hext : pool.Extends later) (h : note.Recorded version pool method) :
    note.Recorded version later method := by
  refine ⟨h.flags, h.name.mono hext, h.descriptor.mono hext, h.bare, fun hhas => ?_⟩
  obtain ⟨written, body, tables, hattributes, hsays, htables, hnames, hcites⟩ := h.code hhas
  refine ⟨written, body, tables, hattributes, hsays.mono hext, htables.imp fun _ _ => .mono hext,
    hnames, fun pc request hmem => ?_⟩
  rcases hcites pc request hmem with hblank | ⟨insn, hdecode, hrefers⟩
  · exact .inl hblank
  · exact .inr ⟨insn, hdecode, hrefers.mono hext⟩

namespace MethodBody

open Step (bind_eq_ok)

variable {m : MethodBody} {scope : ClassScope} {version : Version} {pool later : ConstantPool}

/-- The tables of the code that have entries. -/
def tables (m : MethodBody) (length : Nat) (locals : List LocalVariable)
    (entries : List StackMapEntry) : List AttributeBody :=
  (if m.lines.isEmpty then [] else [.lineNumbers (m.lineNumbers length)]) ++
    (if locals.isEmpty then [] else [.localVariables locals]) ++
    (if entries.isEmpty then [] else [.stackMap entries])

lemma names_tables (length : Nat) (locals : List LocalVariable) (entries : List StackMapEntry) :
    ((m.tables length locals entries).map AttributeBody.name).Sublist
      ["LineNumberTable", "LocalVariableTable", "StackMapTable"] := by
  have hsub : ∀ (empty : Bool) (body : AttributeBody),
      (if empty then [] else [body]).Sublist [body] := by
    intro empty body
    cases empty <;> simp
  exact (((hsub m.lines.isEmpty (.lineNumbers (m.lineNumbers length))).append
    (hsub locals.isEmpty (.localVariables locals))).append
    (hsub entries.isEmpty (.stackMap entries))).map AttributeBody.name

lemma says_of_codeAttributes {length : Nat} {locals : List LocalVariable}
    {entries : List StackMapEntry} {attributes : List Attribute}
    (h : (m.codeAttributes length locals entries).outcome pool = (.ok attributes, later)) :
    pool.Extends later ∧
      List.Forall₂ (Attribute.Says later) attributes (m.tables length locals entries) := by
  rw [codeAttributes_eq] at h
  obtain ⟨_, _, hcheck, h⟩ := bind_eq_ok.mp h
  obtain ⟨rfl, _⟩ := Step.ofExcept_eq_ok hcheck
  obtain ⟨lines, pool₁, hlines, h⟩ := bind_eq_ok.mp h
  obtain ⟨named, pool₂, hnamed, h⟩ := bind_eq_ok.mp h
  obtain ⟨stackMap, pool₃, hstackMap, h⟩ := bind_eq_ok.mp h
  cases h
  obtain ⟨hext₁, hsays₁⟩ := ConstantPool.says_of_internUnless hlines
  obtain ⟨hext₂, hsays₂⟩ := ConstantPool.says_of_internUnless hnamed
  obtain ⟨hext₃, hsays₃⟩ := ConstantPool.says_of_internUnless hstackMap
  refine ⟨hext₁.trans (hext₂.trans hext₃), ?_⟩
  exact List.rel_append (List.rel_append (hsays₁.imp fun _ _ => .mono (hext₂.trans hext₃))
    (hsays₂.imp fun _ _ => .mono hext₃)) hsays₃

/-- What a method that can be closed consists of. -/
lemma close_says {method : Method}
    (h : (m.close scope version).outcome pool = (.ok method, later)) :
    ∃ handlers locals mapped middle attributes written,
      (m.mapCode handlers scope version).outcome pool = (.ok mapped, middle) ∧
      method = ⟨m.flags, m.nameIndex, m.descriptorIndex, [written]⟩ ∧
      written.Says later (.code { toMethodCode := mapped.method, attributes }) ∧
      List.Forall₂ (Attribute.Says later) attributes
        (m.tables mapped.method.code.size locals mapped.entries) := by
  obtain ⟨_, _, hcheck, h⟩ := bind_eq_ok.mp h
  obtain ⟨rfl, _⟩ := Step.ofExcept_eq_ok hcheck
  simp only at h
  split at h
  · cases h
  obtain ⟨handlers, _, hranges, h⟩ := bind_eq_ok.mp h
  obtain ⟨rfl, _⟩ := Step.ofExcept_eq_ok hranges
  obtain ⟨locals, _, hlocals, h⟩ := bind_eq_ok.mp h
  obtain ⟨rfl, _⟩ := Step.ofExcept_eq_ok hlocals
  obtain ⟨mapped, middle, hmapped, h⟩ := bind_eq_ok.mp h
  obtain ⟨_, _, hcheck, h⟩ := bind_eq_ok.mp h
  obtain ⟨rfl, _⟩ := Step.ofExcept_eq_ok hcheck
  obtain ⟨_, _, hcheck, h⟩ := bind_eq_ok.mp h
  obtain ⟨rfl, _⟩ := Step.ofExcept_eq_ok hcheck
  obtain ⟨_, _, hcheck, h⟩ := bind_eq_ok.mp h
  obtain ⟨rfl, _⟩ := Step.ofExcept_eq_ok hcheck
  obtain ⟨attributes, _, hattributes, h⟩ := bind_eq_ok.mp h
  obtain ⟨written, _, hwritten, h⟩ := bind_eq_ok.mp h
  cases h
  obtain ⟨_, htables⟩ := says_of_codeAttributes hattributes
  obtain ⟨hext, hsays⟩ := ConstantPool.says_of_internAttribute hwritten
  exact ⟨handlers, locals, mapped, middle, attributes, written, hmapped, rfl, hsays,
    htables.imp fun _ _ => .mono hext⟩

/-- The code that is written is that of the draft, but for blocks that were blanked. Versions without
stack maps blank nothing. -/
lemma mapCode_eq_ok {handlers : List ExceptionHandler} {mapped : MappedCode}
    (hlimited : m.code.Limited (m.descriptor.parameterWords (!m.isStatic)))
    (h : (m.mapCode handlers scope version).outcome pool = (.ok mapped, later)) :
    mapped.method = m.draftedCode handlers ∨
      version.hasStackMaps = true ∧ ∃ dead graph,
        BlockGraph.partition m.code.code m.code.facts handlers = .ok graph ∧
        BlockProgram.Blanked dead ((m.draftedCode handlers).program graph scope)
          (mapped.method.program graph scope) := by
  unfold mapCode at h
  split at h
  · rename_i hversion
    obtain ⟨settled, _, hsettle, h⟩ := bind_eq_ok.mp h
    cases h
    have hlocals : m.header.descriptor.parameterWords (!m.header.isStatic) ≤
        (m.draftedCode handlers).maxLocals.toNat := by
      have henough := hlimited.enough
      have hle := hlimited.locals
      rw [draftedCode, UInt16.toNat_ofNat']
      change m.descriptor.parameterWords (!m.isStatic) ≤ _
      omega
    have hsize : (m.draftedCode handlers).code.size ≤ 65536 :=
      Nat.le_succ_of_le hlimited.code
    obtain ⟨_, _, _, hgraph, _, _, _, _, _, hblanked⟩ :=
      MethodCode.settle_stages hsize hlocals hsettle
    exact .inr ⟨hversion, _, settled.graph, hgraph, hblanked⟩
  · cases h
    exact .inl rfl

/-- The code that is written is as long as the draft. -/
lemma size_mapCode {handlers : List ExceptionHandler} {mapped : MappedCode}
    (hlimited : m.code.Limited (m.descriptor.parameterWords (!m.isStatic)))
    (h : (m.mapCode handlers scope version).outcome pool = (.ok mapped, later)) :
    mapped.method.code.size = m.code.code.size := by
  rcases mapCode_eq_ok hlimited h with hsame | ⟨_, _, _, _, hblanked⟩
  · rw [hsame, draftedCode]
  · exact hblanked.size

/-- The code that is written has each instruction of the draft that was not blanked. -/
lemma decode_mapCode {items : List (Nat × Instruction)} {handlers : List ExceptionHandler}
    {mapped : MappedCode} {pc : Nat} {insn : Instruction}
    (hlimited : m.code.Limited (m.descriptor.parameterWords (!m.isStatic)))
    (hlaid : m.code.Laid items)
    (h : (m.mapCode handlers scope version).outcome pool = (.ok mapped, later))
    (hitem : (pc, insn) ∈ items) (hbranch : ¬insn.opcode.IsBranch) :
    version.hasStackMaps = true ∧ Code.BlankAt mapped.method.code pc ∨
      Code.decode mapped.method.code pc = .ok insn := by
  have hdecode : Code.decode m.code.code pc = .ok insn := by
    obtain ⟨insn', hdecode, hsame⟩ := hlaid.stands pc insn hitem
    rw [hdecode, hsame.operands.resolve_left hbranch]
  rcases mapCode_eq_ok hlimited h with hsame | ⟨hversion, _, graph, hgraph, hblanked⟩
  · rw [hsame]
    exact .inr hdecode
  · obtain ⟨instructions, htiles⟩ := BlockGraph.tiles_of_partition hgraph
    have hwalk := Code.starts_eq_ok_iff.mpr (hlaid.tiles.walk (Nat.le_refl _))
    have hsame := Code.starts_eq_ok_iff.mpr htiles.walk
    rw [hwalk] at hsame
    cases hsame
    have hmem : pc ∈ items.map Prod.fst := List.mem_map.mpr ⟨(pc, insn), hitem, rfl⟩
    rcases hblanked.decode_or_blank htiles hmem hdecode with hkept | hblank
    · exact .inr hkept
    · exact .inl ⟨hversion, hblank⟩

end MethodBody

/-- A method that was asked for and closed is in the class as it was asked for. -/
theorem MethodBuilder.Drafts.close {note : MethodNote} {s : MethodBuilder} {scope : ClassScope}
    {version : Version} {method : Method} {later : ConstantPool} (h : Drafts note s)
    (hclose : (s.method.close scope version).outcome s.pool = (.ok method, later)) :
    s.pool.Extends later ∧ note.Recorded version later method := by
  have hext := s.method.keeps_close scope version s.pool (.refl _)
  rw [hclose] at hext
  refine ⟨hext, ?_⟩
  obtain ⟨handlers, locals, mapped, _, attributes, written, hmapped, rfl, hsays, htables⟩ :=
    MethodBody.close_says hclose
  refine ⟨h.flags, h.name.mono hext, h.descriptor.mono hext, fun hbare => ?_, fun _ => ?_⟩
  · rw [h.hasCode] at hbare
    cases hbare
  refine ⟨written, _, _, rfl, hsays, htables, MethodBody.names_tables _ _ _,
    fun pc request hmem => ?_⟩
  obtain ⟨items, hlaid, hrefers⟩ := h.cites
  obtain ⟨insn, hitem, hbranch, hrefers⟩ := hrefers pc request hmem
  rcases MethodBody.decode_mapCode h.limited hlaid hmapped hitem hbranch with hblank | hdecode
  · exact .inl hblank
  · exact .inr ⟨insn, hdecode, hrefers.mono hext⟩

end ClassAssembly
