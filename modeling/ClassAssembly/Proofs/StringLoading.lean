import ClassAssembly.Proofs.EmissionWords
import ClassAssembly.Proofs.EnoughRoom
import ClassAssembly.Proofs.TextPieces

/-! Pushing a string of any length. The code that is written is listed with the constants that it
refers to: the string constants that it loads fit and make up the string, and the stack is one deeper
afterwards. -/
namespace ClassAssembly

/-- The first operand is the index of a constant. -/
def OperandForm.isIndex : OperandForm → Bool
  | .smallConstant | .constant | .interfaceCall | .dimensions => true
  | _ => false

def Opcode.takesConstant (op : Opcode) : Bool := op.traits.toOption.any (·.form.isIndex)

/-- A load with a long index is listed as any other load. -/
def Opcode.listed (op : Opcode) : Opcode := if op = .ldcWide then .ldc else op

/-- A line of a listing: the opcode, and the constant that the operand stands for. -/
structure ListingLine where
  opcode : Opcode
  constant : Option ConstantRequest
deriving DecidableEq

/-- The text that is pushed by the load of a string constant. -/
def ListingLine.text? (line : ListingLine) : Option String :=
  match line.constant with
  | some (.stringRef text) => if line.opcode = .ldc then some text else none
  | _ => none

def Instruction.listed (insn : Instruction) (pool : ConstantPool) : ListingLine where
  opcode := insn.opcode.listed
  constant :=
    if insn.opcode.takesConstant then pool.resolve? (UInt16.ofInt insn.first) else none

namespace Opcode

lemma Has.takesConstant {op : Opcode} {form : OperandForm} {effect : Effect}
    (h : op.Has form effect) : op.takesConstant = form.isIndex := by
  obtain ⟨traits, htraits, rfl, rfl⟩ := h.exists_traits
  rw [Opcode.takesConstant, htraits]
  rfl

/-- The opcodes with which strings are pushed. -/
lemma has_pushing : ldc.Has .smallConstant .constant ∧ ldcWide.Has .constant .constant ∧
    new.Has .constant .new ∧ dup.Has .plain .dup ∧ invokespecial.Has .constant .invoke ∧
    invokevirtual.Has .constant .invoke := by decide +kernel

lemma has_ldc : ldc.Has .smallConstant .constant := has_pushing.1

lemma has_new : new.Has .constant .new := has_pushing.2.2.1

lemma has_dup : dup.Has .plain .dup := has_pushing.2.2.2.1

lemma has_invoke {op : Opcode} (h : op = .invokevirtual ∨ op = .invokespecial) :
    op.Has .constant .invoke := by
  rcases h with rfl | rfl
  · exact has_pushing.2.2.2.2.2
  · exact has_pushing.2.2.2.2.1

/-- A load is listed as it was asked for, whichever form its index takes. -/
lemma spelled_takesConstant {op : Opcode} (h : op.takesConstant = true) (hlisted : op.listed = op)
    (first : Int) :
    (op.spelled first).takesConstant = true ∧ (op.spelled first).listed = op := by
  rw [spelled]
  split
  · rename_i hlong
    rw [hlong.1]
    exact ⟨has_pushing.2.1.takesConstant, rfl⟩
  · exact ⟨h, hlisted⟩

end Opcode

namespace Instruction

variable {insn : Instruction} {op : Opcode} {form : OperandForm} {effect : Effect}

lemma listed_plain {pool : ConstantPool} (h : insn.opcode = op) (hop : op.Has .plain effect)
    (hlisted : op.listed = op) : insn.listed pool = ⟨op, none⟩ := by
  rw [listed, h, hop.takesConstant, hlisted]
  rfl

/-- An instruction written with the index of a constant is listed with what the index stands for. -/
lemma listed_of_spells {pool : ConstantPool} {index : PoolIndex} {request : ConstantRequest}
    {operands : List Int} (h : insn.Spells (op.spelled (operands[0]?.getD 0)) operands)
    (hop : op.Has form effect) (hform : form.isIndex = true) (hlisted : op.listed = op)
    (hhead : operands.head? = some (index.toNat : Int)) (hholds : pool.Holds index request) :
    insn.listed pool = ⟨op, some request⟩ := by
  have hfirst : insn.first = index.toNat := by
    cases operands with
    | nil => cases hhead
    | cons first rest =>
      cases hhead
      exact (List.cons.inj h.2).1
  obtain ⟨htakes, hlisted⟩ := Opcode.spelled_takesConstant (hop.takesConstant.trans hform) hlisted
    (operands[0]?.getD 0)
  rw [← h.1] at htakes hlisted
  rw [listed, htakes, hlisted, hfirst, ofInt_toNat, hholds.resolve?_eq]
  rfl

end Instruction

/-- The instructions between two offsets of a code, end to end. -/
inductive Code.Lists (code : Array UInt8) : Nat → List Instruction → Nat → Prop
  | nil (pc : Nat) : Lists code pc [] pc
  | cons {pc stop : Nat} {insn : Instruction} {insns : List Instruction}
      (hdecode : Code.decode code pc = .ok insn) (hrest : Lists code (pc + insn.length) insns stop) :
      Lists code pc (insn :: insns) stop

namespace Code.Lists

variable {code code' : Array UInt8} {pc middle stop : Nat} {insns insns' : List Instruction}

lemma le (h : Lists code pc insns stop) : pc ≤ stop := by
  induction h with
  | nil => exact Nat.le_refl _
  | cons _ _ ih => omega

lemma append (h : Lists code pc insns middle) (h' : Lists code middle insns' stop) :
    Lists code pc (insns ++ insns') stop := by
  induction h with
  | nil => exact h'
  | cons hdecode _ ih => exact .cons hdecode (ih h')

lemma congr (h : Lists code pc insns stop) (hsame : SameBytes code code' pc stop) :
    Lists code' pc insns stop := by
  induction h with
  | nil pc => exact .nil pc
  | cons hdecode hrest ih =>
    have hle := hrest.le
    refine .cons (decode_congr hdecode fun i hlo hhi => hsame i hlo (by omega)) (ih ?_)
    exact fun i hlo hhi => hsame i (by omega) hhi

end Code.Lists

namespace MethodBuilder

open ConstantPool (Adds)
open Step (bind_eq_ok)

variable {s s' s'' : MethodBuilder} {op : Opcode} {form : OperandForm} {effect : Effect}
  {lines lines' : List ListingLine} {change change' : Int}

/-- From one state to the other instructions have been written that are listed so, with the final
constants or any later ones, and the depth of the stack has changed by so much. -/
structure Produces (s s' : MethodBuilder) (lines : List ListingLine) (change : Int) : Prop where
  pool : s.pool.Extends s'.pool
  kept : Code.SameBytes s.method.code.code s'.method.code.code 0 s.method.code.code.size
  depth : (s'.method.code.depth : Int) = s.method.code.depth + change
  listing : ∃ insns, Code.Lists s'.method.code.code s.method.code.code.size insns
      s'.method.code.code.size ∧
    ∀ later, s'.pool.Extends later → insns.map (·.listed later) = lines

namespace Produces

theorem refl (s : MethodBuilder) : Produces s s [] 0 :=
  ⟨.refl _, fun _ _ _ => rfl, by omega, [], .nil _, fun _ _ => rfl⟩

theorem trans (h : Produces s s' lines change) (h' : Produces s' s'' lines' change') :
    Produces s s'' (lines ++ lines') (change + change') := by
  obtain ⟨insns, hlists, hlines⟩ := h.listing
  obtain ⟨insns', hlists', hlines'⟩ := h'.listing
  have hle := hlists.le
  refine ⟨h.pool.trans h'.pool, fun i hlo hhi => ?_, ?_, insns ++ insns', ?_, ?_⟩
  · rw [h'.kept i hlo (by omega), h.kept i hlo hhi]
  · rw [h'.depth, h.depth]
    omega
  · exact (hlists.congr fun i _ hhi => h'.kept i (Nat.zero_le i) hhi).append hlists'
  · intro later hlater
    rw [List.map_append, hlines later (h'.pool.trans hlater), hlines' later hlater]

/-- An instruction has been placed, and then it is listed on a line of its own. -/
lemma of_places {insn : Instruction} {popped pushed : Nat} {line : ListingLine}
    (h : s.method.code.Places s'.method.code insn popped pushed) (hpool : s.pool.Extends s'.pool)
    (hline : ∀ later, s'.pool.Extends later → insn.listed later = line) :
    Produces s s' [line] (pushed - popped) := by
  have henough := h.fits.1
  refine ⟨hpool, fun i _ hi => h.kept i hi, ?_, [insn], ?_, fun later hlater => ?_⟩
  · rw [h.depth]
    omega
  · refine .cons h.decoded ?_
    rw [← h.grown]
    exact .nil _
  · rw [List.map_singleton, hline later hlater]

/-- Constants that are added first take no room in the code. -/
lemma after {request : ConstantRequest} {index : PoolIndex}
    (hindex : (constants request.issue).outcome s = (.ok index, s'))
    (h : s'.pool.Holds index request.canonical → Produces s' s'' lines change) :
    Produces s s'' lines change := by
  obtain ⟨hissue, hmethod⟩ := constants_eq_ok hindex
  have hext := (Adds.issue request).grows hissue
  obtain ⟨hpool, hkept, hdepth, hlisting⟩ := h (ConstantPool.holds_of_issue hissue)
  rw [hmethod] at hkept hdepth hlisting
  exact ⟨hext.trans hpool, hkept, hdepth, hlisting⟩

/-- An instruction that takes its effect from its opcode. -/
lemma emit {operands : List Int} {popped pushed : Nat} {line : ListingLine}
    (h : (MethodBuilder.emit op operands).outcome s = (.ok (), s')) (hop : op.Has form effect)
    (hwords : effect.words = some (popped, pushed))
    (hline : ∀ insn : Instruction, insn.Spells (op.spelled (operands[0]?.getD 0)) operands →
      ∀ later, s.pool.Extends later → insn.listed later = line) :
    Produces s s' [line] (pushed - popped) := by
  obtain ⟨hrun, hpool⟩ := code_eq_ok h
  obtain ⟨traits, htraits, rfl, rfl⟩ := hop.exists_traits
  obtain ⟨_, insn, popped', pushed', htraits', hwords', hplaces, hspells⟩ :=
    CodeDraft.emit_places hrun
  obtain rfl := Except.ok.inj (htraits.symm.trans htraits')
  cases hwords.symm.trans hwords'
  refine of_places hplaces (hpool ▸ .refl _) fun later hlater => hline insn hspells later ?_
  rwa [hpool] at hlater

end Produces

/-- A constant is asked for, and the instruction is emitted with its index. -/
lemma produces_of_request {request : ConstantRequest} {popped pushed : Nat}
    (h : (do let index ← constants request.issue
             MethodBuilder.emit op [index.toNat]).outcome s = (.ok (), s'))
    (hop : op.Has form effect) (hform : form.isIndex = true) (hlisted : op.listed = op)
    (hwords : effect.words = some (popped, pushed)) :
    Produces s s' [⟨op, some request.canonical⟩] (pushed - popped) := by
  obtain ⟨index, s₁, hindex, h⟩ := bind_eq_ok.mp h
  refine .after hindex fun hholds => .emit h hop hwords fun insn hspells later hlater => ?_
  exact Instruction.listed_of_spells hspells hop hform hlisted rfl (hholds.mono hlater)

lemma produces_literalText {text : String} (h : (literalText text).outcome s = (.ok (), s')) :
    Produces s s' [⟨.ldc, some (.stringRef text)⟩] 1 :=
  @produces_of_request s s' .ldc _ _ (.stringRef text) 0 1 h Opcode.has_ldc rfl rfl rfl

/-- An object is made of a class, and it is not initialized yet. -/
lemma produces_new {name : String} (h : (onClass .new name).outcome s = (.ok (), s')) :
    Produces s s' [⟨.new, some (.classRef (ClassName.canonical name))⟩] 1 := by
  obtain ⟨_, index, s₁, hindex, hemit⟩ := onClass_eq_ok h
  exact @produces_of_request s s' .new _ _ (.classRef name) 0 1
    (bind_eq_ok.mpr ⟨index, s₁, hindex, hemit⟩) Opcode.has_new rfl rfl rfl

lemma produces_dup (h : (emit .dup []).outcome s = (.ok (), s')) :
    Produces s s' [⟨.dup, none⟩] 1 :=
  .emit h Opcode.has_dup rfl fun _ hspells _ _ =>
    Instruction.listed_plain hspells.1 Opcode.has_dup rfl

/-- What the call of a method on a receiver pops and pushes. -/
def callWords (descriptor : String) : Except DescriptorError (Nat × Nat) :=
  (MethodDescriptor.parse descriptor).map fun d => (d.parameterWords true, d.resultWords)

lemma exists_descriptor {descriptor : String} {popped pushed : Nat}
    (h : callWords descriptor = .ok (popped, pushed)) :
    ∃ d, MethodDescriptor.parse descriptor = .ok d ∧ d.parameterWords true = popped ∧
      d.resultWords = pushed := by
  rw [callWords] at h
  cases hparse : MethodDescriptor.parse descriptor with
  | error e =>
    rw [hparse] at h
    cases h
  | ok d =>
    rw [hparse] at h
    exact ⟨d, rfl, Prod.mk.inj (Except.ok.inj h)⟩

/-- A call pops the receiver and the arguments, and pushes the result. -/
lemma produces_call {owner name descriptor : String} {popped pushed : Nat}
    (hop : op = .invokevirtual ∨ op = .invokespecial)
    (hwords : callWords descriptor = .ok (popped, pushed))
    (h : (call op owner name descriptor).outcome s = (.ok (), s')) :
    Produces s s' [⟨op, some (.methodRef (ClassName.canonical owner) name descriptor false)⟩]
      (pushed - popped) := by
  have hhas := Opcode.has_invoke hop
  have hlisted : op.listed = op := by
    rcases hop with rfl | rfl <;> rfl
  have hkind : op ≠ .invokestatic ∧ op ≠ .invokeinterface := by
    rcases hop with rfl | rfl <;> decide
  obtain ⟨d, hdescriptor, rfl, rfl⟩ := exists_descriptor hwords
  obtain ⟨_, _, index, operands, s₁, hparse, hindex, hhead, hemit, _⟩ := call_eq_ok h
  obtain rfl := Except.ok.inj (hdescriptor.symm.trans hparse)
  rw [decide_eq_false hkind.2] at hindex
  refine .after hindex fun hholds => ?_
  obtain ⟨hrun, hpool⟩ := code_eq_ok hemit
  obtain ⟨traits, htraits, _, heffect⟩ := hhas.exists_traits
  obtain ⟨_, insn, words, htraits', rfl, hplaces, hspells⟩ := CodeDraft.emitWithEffect_places hrun
  obtain rfl := Except.ok.inj (htraits.symm.trans htraits')
  rw [heffect, decide_eq_true hkind.1] at hplaces
  refine .of_places hplaces (hpool ▸ .refl _) fun later hlater => ?_
  rw [hpool] at hlater
  exact Instruction.listed_of_spells hspells hhas rfl hlisted hhead (hholds.mono hlater)

end MethodBuilder

namespace ListingLine

/-- Makes a string builder. -/
def newBuilder : List ListingLine := [
  ⟨.new, some (.classRef ClassName.stringBuilder)⟩,
  ⟨.dup, none⟩,
  ⟨.invokespecial, some (.methodRef ClassName.stringBuilder ClassName.constructor "()V" false)⟩]

/-- Appends a text to a string builder. -/
def append (text : String) : List ListingLine := [
  ⟨.ldc, some (.stringRef text)⟩,
  ⟨.invokevirtual, some (.methodRef ClassName.stringBuilder "append"
    "(Ljava/lang/String;)Ljava/lang/StringBuilder;" false)⟩]

/-- Takes the string out of a string builder. -/
def build : ListingLine :=
  ⟨.invokevirtual, some (.methodRef ClassName.stringBuilder "toString" "()Ljava/lang/String;" false)⟩

/-- The texts that are loaded in order to build a string. -/
lemma filterMap_text?_builder (texts : List String) :
    (newBuilder ++ texts.flatMap append ++ [build]).filterMap text? = texts := by
  have happend : (texts.flatMap append).filterMap text? = texts := by
    induction texts with
    | nil => rfl
    | cons text texts ih =>
      rw [List.flatMap_cons, List.filterMap_append, ih]
      rfl
  rw [List.filterMap_append, List.filterMap_append, happend]
  exact List.append_nil texts

end ListingLine

namespace MethodBuilder

open ListingLine
open Step (bind_eq_ok)

variable {s s' : MethodBuilder}

/-- What the calls on a string builder pop and push: the receiver and the arguments, and the
result. -/
lemma callWords_builder : callWords "()V" = .ok (1, 0) ∧
    callWords "(Ljava/lang/String;)Ljava/lang/StringBuilder;" = .ok (2, 1) ∧
    callWords "()Ljava/lang/String;" = .ok (1, 1) := by decide +kernel

lemma canonical_stringBuilder :
    ClassName.canonical ClassName.stringBuilder = ClassName.stringBuilder := by decide

/-- A turn of the loop leaves the string builder on the stack. -/
lemma produces_append {text : String}
    (h : (do literalText text
             call .invokevirtual ClassName.stringBuilder "append"
               "(Ljava/lang/String;)Ljava/lang/StringBuilder;").outcome s = (.ok (), s')) :
    Produces s s' (append text) 0 := by
  obtain ⟨_, s₁, hload, hcall⟩ := bind_eq_ok.mp h
  have hcalled := produces_call (.inl rfl) callWords_builder.2.1 hcall
  rw [canonical_stringBuilder] at hcalled
  exact (produces_literalText hload).trans hcalled

lemma produces_pieces {pieces : List (List Char)}
    (h : (pieces.forM fun piece => do
            literalText (String.ofList piece)
            call .invokevirtual ClassName.stringBuilder "append"
              "(Ljava/lang/String;)Ljava/lang/StringBuilder;").outcome s = (.ok (), s')) :
    Produces s s' ((pieces.map String.ofList).flatMap append) 0 := by
  induction pieces generalizing s with
  | nil =>
    cases h
    exact .refl _
  | cons piece pieces ih =>
    obtain ⟨_, s₁, hpiece, hrest⟩ := bind_eq_ok.mp h
    exact (produces_append hpiece).trans (ih hrest)

/-- A string that is too long for a constant is built of its pieces. -/
lemma produces_long {text : String} (hlong : ¬ModifiedUtf8.length text ≤ maxText)
    (h : (literalString text).outcome s = (.ok (), s')) :
    Produces s s' (newBuilder ++
      ((ModifiedUtf8.pieces maxText text.toList).map String.ofList).flatMap append ++ [build]) 1 := by
  rw [literalString, if_neg hlong] at h
  obtain ⟨_, s₁, hnew, h⟩ := bind_eq_ok.mp h
  obtain ⟨_, s₂, hdup, h⟩ := bind_eq_ok.mp h
  obtain ⟨_, s₃, hcall, h⟩ := bind_eq_ok.mp h
  obtain ⟨_, s₄, hpieces, h⟩ := bind_eq_ok.mp h
  have hmade := ((produces_new hnew).trans (produces_dup hdup)).trans
    (produces_call (.inr rfl) callWords_builder.1 hcall)
  have hbuilt := produces_call (.inl rfl) callWords_builder.2.2 h
  rw [canonical_stringBuilder] at hmade hbuilt
  exact (hmade.trans (produces_pieces hpieces)).trans hbuilt

lemma join_pieces (text : String) :
    String.join ((ModifiedUtf8.pieces maxText text.toList).map String.ofList) = text := by
  apply String.toList_inj.mp
  rw [String.toList_join, List.flatMap_map]
  simp only [String.toList_ofList, List.flatMap_id']
  exact ModifiedUtf8.flatten_pieces (by decide) _

lemma piece_of_mem {chars : List Char} {piece : String}
    (h : piece ∈ (ModifiedUtf8.pieces maxText chars).map String.ofList) :
    ModifiedUtf8.length piece ≤ maxText ∧ piece ≠ "" := by
  obtain ⟨piece, hmem, rfl⟩ := List.mem_map.mp h
  refine ⟨?_, fun hempty => ModifiedUtf8.ne_nil_of_mem_pieces hmem ?_⟩
  · rw [ModifiedUtf8.length, String.toList_ofList]
    exact ModifiedUtf8.lengthOf_le_of_mem_pieces hmem
  · rw [← String.toList_ofList (l := piece), hempty]
    rfl

section Room

open CodeDraft (maxCode maxDepth)

variable {op : Opcode} {form : OperandForm} {effect : Effect} {before popped pushed : Nat}

/-- A constant is asked for, and an instruction with its index pushes one word. -/
lemma suffices_push {request : ConstantRequest}
    (hop : op.Has form effect) (hform : form = .smallConstant ∨ form = .constant)
    (hwords : effect.words = some (0, 1)) (hlocal : ∀ first, effect.localUse? first = none)
    (htexts : ∀ text ∈ request.texts, ModifiedUtf8.length text ≤ maxText)
    (hdepth : before + 1 ≤ maxDepth) :
    Suffices request.indices 3 before (before + 1) (do
      let index ← constants request.issue
      MethodBuilder.emit op [index.toNat]) := by
  refine Suffices.request htexts fun index hindex => ?_
  obtain ⟨bytes, hencode, hlength⟩ := CodeDraft.encode_index hindex hform
  exact CodeDraft.suffices_emit hop (.inr hform) hwords hlocal
    (by rcases hform with rfl | rfl <;> rfl) hencode hlength (Nat.zero_le _) hdepth

lemma suffices_literalText {text : String} (htext : ModifiedUtf8.length text ≤ maxText)
    (hdepth : before + 1 ≤ maxDepth) : Suffices 2 3 before (before + 1) (literalText text) := by
  have htexts : ∀ other ∈ (ConstantRequest.stringRef text).texts,
      ModifiedUtf8.length other ≤ maxText := by
    simpa [ConstantRequest.texts] using htext
  exact suffices_push Opcode.has_ldc (.inl rfl) rfl (fun _ => rfl) htexts hdepth

lemma length_stringBuilder :
    ModifiedUtf8.length (ClassName.canonical ClassName.stringBuilder) ≤ maxText := by decide

lemma suffices_new (hdepth : before + 1 ≤ maxDepth) :
    Suffices 2 3 before (before + 1) (onClass .new ClassName.stringBuilder) := by
  have htexts : ∀ text ∈ (ConstantRequest.classRef ClassName.stringBuilder).texts,
      ModifiedUtf8.length text ≤ maxText := by
    simpa [ConstantRequest.texts] using length_stringBuilder
  rw [onClass, if_pos (.inl rfl)]
  exact suffices_push Opcode.has_new (.inr rfl) rfl (fun _ => rfl) htexts hdepth

lemma suffices_dup (hdepth : before + 2 ≤ maxDepth) :
    Suffices 0 1 (before + 1) (before + 2) (emit .dup []) :=
  .code (CodeDraft.suffices_emit Opcode.has_dup (.inl rfl) rfl (fun _ => rfl) rfl rfl (Nat.le_refl 1)
    (Nat.le_add_left 1 before) hdepth)

/-- A call of a method of the string builder. -/
lemma suffices_call {name descriptor : String} (hop : op = .invokevirtual ∨ op = .invokespecial)
    (hwords : callWords descriptor = .ok (popped, pushed))
    (htexts : ModifiedUtf8.length name ≤ maxText ∧ ModifiedUtf8.length descriptor ≤ maxText)
    (hpopped : popped ≤ before) (hdepth : before - popped + pushed ≤ maxDepth) :
    Suffices 6 3 before (before - popped + pushed)
      (call op ClassName.stringBuilder name descriptor) := by
  have hkind : op ≠ .invokestatic ∧ op ≠ .invokeinterface := by
    rcases hop with rfl | rfl <;> decide
  have hall : ∀ text ∈ (ConstantRequest.methodRef ClassName.stringBuilder name descriptor
      false).texts, ModifiedUtf8.length text ≤ maxText := by
    simp only [ConstantRequest.texts, List.mem_cons, List.not_mem_nil, or_false]
    rintro text (rfl | rfl | rfl)
    · exact length_stringBuilder
    · exact htexts.1
    · exact htexts.2
  obtain ⟨d, hparse, rfl, rfl⟩ := exists_descriptor hwords
  rw [call, hparse]
  simp only [decide_eq_false hkind.2, decide_eq_true hkind.1]
  rw [if_pos (by rcases hop with rfl | rfl <;> simp)]
  refine Suffices.request hall fun index hindex => ?_
  obtain ⟨bytes, hencode, hlength⟩ := CodeDraft.encode_index hindex (.inr rfl)
  exact CodeDraft.suffices_emitWithEffect (Opcode.has_invoke hop) rfl rfl hencode hlength hpopped hdepth

/-- The string builder takes its part once, and each piece takes its own. -/
lemma suffices_long {text : String} (hlong : ¬ModifiedUtf8.length text ≤ maxText)
    (hdepth : before + 2 ≤ maxDepth) :
    Suffices (14 + (ModifiedUtf8.pieces maxText text.toList).length * 8)
      (10 + (ModifiedUtf8.pieces maxText text.toList).length * 6) before (before + 1)
      (literalString text) := by
  have hinit : Suffices 6 3 (before + 2) (before + 1)
      (call .invokespecial ClassName.stringBuilder ClassName.constructor "()V") :=
    suffices_call (.inr rfl) callWords_builder.1 (by decide) (by omega) (by omega)
  have happend : ∀ piece ∈ ModifiedUtf8.pieces maxText text.toList,
      Suffices 8 6 (before + 1) (before + 1) (do
        literalText (String.ofList piece)
        call .invokevirtual ClassName.stringBuilder "append"
          "(Ljava/lang/String;)Ljava/lang/StringBuilder;") := by
    intro piece hmem
    have hfits := (piece_of_mem (List.mem_map_of_mem hmem)).1
    exact (suffices_literalText hfits hdepth).bind
      (suffices_call (.inl rfl) callWords_builder.2.1 (by decide) (by omega) (by omega))
  have hbuild : Suffices 6 3 (before + 1) (before + 1)
      (call .invokevirtual ClassName.stringBuilder "toString" "()Ljava/lang/String;") :=
    suffices_call (.inl rfl) callWords_builder.2.2 (by decide) (by omega) (by omega)
  have hall := (suffices_new (by omega)).bind ((suffices_dup hdepth).bind
    (hinit.bind ((Suffices.forM happend).bind hbuild)))
  rw [literalString, if_neg hlong]
  exact hall.mono (by omega) (by omega)

/-- No string is too long to be pushed where there is room for its pieces. -/
theorem literalString_succeeds {text : String} {s : MethodBuilder}
    (hindices : s.pool.next + 22 + 8 * (ModifiedUtf8.length text / 65530) ≤ 65535)
    (hbytes : s.method.code.code.size + 16 + 6 * (ModifiedUtf8.length text / 65530) ≤ maxCode)
    (hdepth : s.method.code.depth + 2 ≤ maxDepth) :
    ∃ s', (literalString text).outcome s = (.ok (), s') := by
  by_cases hshort : ModifiedUtf8.length text ≤ maxText
  · obtain ⟨s', hload, _⟩ := suffices_literalText hshort (by omega) s (by omega) (by omega) rfl
    refine ⟨s', ?_⟩
    rwa [literalString, if_pos hshort]
  · have hcount : (ModifiedUtf8.pieces maxText text.toList).length * 65530 ≤
        ModifiedUtf8.length text + 65530 := ModifiedUtf8.length_pieces_le (by decide) text.toList
    obtain ⟨s', hload, _⟩ := suffices_long hshort hdepth s (by omega) (by omega) rfl
    exact ⟨s', hload⟩

end Room

/-- Pushing a string loads the whole of it. The loop that cuts the string ends, and the constants
that the code loads fit and make up the string. A string that fits is loaded as it is; a longer one
is built of the pieces, none of which is empty. -/
theorem literalString_loads (text : String) :
    ModifiedUtf8.Cuts maxText text 0 (ModifiedUtf8.pieces maxText text.toList) ∧
    ∀ s s', (literalString text).outcome s = (.ok (), s') →
      s'.method.code.depth = s.method.code.depth + 1 ∧
      ∃ insns, Code.Lists s'.method.code.code s.method.code.code.size insns
          s'.method.code.code.size ∧
        ∃ lines loaded, lines = insns.map (·.listed s'.pool) ∧ loaded = lines.filterMap text? ∧
          (∀ piece ∈ loaded, ModifiedUtf8.length piece ≤ maxText) ∧ String.join loaded = text ∧
          (ModifiedUtf8.length text ≤ maxText → lines = [⟨.ldc, some (.stringRef text)⟩]) ∧
          (maxText < ModifiedUtf8.length text →
            loaded = (ModifiedUtf8.pieces maxText text.toList).map String.ofList ∧
            (∀ piece ∈ loaded, piece ≠ "") ∧
            lines = newBuilder ++ loaded.flatMap append ++ [build]) := by
  refine ⟨ModifiedUtf8.cuts_pieces (by decide) text, fun s s' h => ?_⟩
  by_cases hshort : ModifiedUtf8.length text ≤ maxText
  · rw [literalString, if_pos hshort] at h
    have hproduces := produces_literalText h
    obtain ⟨insns, hlists, hlines⟩ := hproduces.listing
    have hdepth := hproduces.depth
    have hline := hlines _ (.refl _)
    refine ⟨by omega, insns, hlists, _, [text], rfl, ?_, ?_, ?_, fun _ => hline, fun hlong => ?_⟩
    · rw [hline]
      rfl
    · simpa using hshort
    · simp
    · exact absurd hlong (by omega)
  · have hproduces := produces_long hshort h
    obtain ⟨insns, hlists, hlines⟩ := hproduces.listing
    have hdepth := hproduces.depth
    have hline := hlines _ (.refl _)
    refine ⟨by omega, insns, hlists, _, _, rfl, ?_, fun piece hmem => (piece_of_mem hmem).1,
      join_pieces text, fun hfits => absurd hfits hshort,
      fun _ => ⟨rfl, fun piece hmem => (piece_of_mem hmem).2, hline⟩⟩
    rw [hline, filterMap_text?_builder]

open ModifiedUtf8 (letters length_letters)

def blankBuilder : MethodBuilder :=
  ⟨⟨"f", ⟨[], none⟩, ⟨0x0009⟩, 1, 2, .empty, #[], #[], #[]⟩, .empty⟩

theorem letters_loads : ∃ s', (literalString (letters 65536)).outcome blankBuilder = (.ok (), s') ∧
    s'.method.code.depth = 1 ∧
    ∃ insns, Code.Lists s'.method.code.code 0 insns s'.method.code.code.size ∧
      ∃ loaded, insns.map (·.listed s'.pool) = newBuilder ++ loaded.flatMap append ++ [build] ∧
        (∀ piece ∈ loaded, piece ≠ "" ∧ ModifiedUtf8.length piece ≤ maxText) ∧
        String.join loaded = letters 65536 := by
  have hlength := length_letters 65536
  obtain ⟨s', hrun⟩ : ∃ s', (literalString (letters 65536)).outcome blankBuilder = (.ok (), s') :=
    literalString_succeeds (by rw [hlength]; decide) (by rw [hlength]; decide) (by decide)
  obtain ⟨hdepth, insns, hlists, lines, loaded, rfl, _, hfits, hjoin, _, hlong⟩ :=
    (literalString_loads (letters 65536)).2 blankBuilder s' hrun
  obtain ⟨_, hpieces, hlines⟩ := hlong (by rw [hlength]; decide)
  exact ⟨s', hrun, hdepth, insns, hlists, loaded, hlines,
    fun piece hmem => ⟨hpieces piece hmem, hfits piece hmem⟩, hjoin⟩

end MethodBuilder

end ClassAssembly
