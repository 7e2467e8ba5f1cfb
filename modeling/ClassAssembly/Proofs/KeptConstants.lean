import ClassAssembly.Proofs.ReadableCode

/-! Constants stay where they are while a method is closed, also if closing it fails half way. -/
namespace ClassAssembly

open Step (Keeps)

namespace ConstantPool

variable {α : Type} {start : ConstantPool}

lemma keeps_of_adds {texts : List String} {step : Step ConstantPool α} (h : Adds texts step) :
    Keeps (start.Extends ·) step := fun _ hpool => hpool.trans (h.grows (Prod.ext rfl rfl))

end ConstantPool

lemma VerificationType.keeps_merge {start : ConstantPool} (c : ClassScope) (a b : VerificationType) :
    Keeps (start.Extends ·) (merge c a b) := by
  by_cases hobjects : ∃ i j, a = .object i ∧ b = .object j ∧ i ≠ j
  · obtain ⟨i, j, rfl, rfl, hij⟩ := hobjects
    intro pool hpool
    rw [merge_objects c hij]
    exact ConstantPool.keeps_of_adds (Machine.adds_ofClass _) pool hpool
  · obtain ⟨t, ht, _⟩ := merge_eq_pure c a b hobjects
    intro pool hpool
    rw [ht]
    exact hpool

namespace Machine

variable {α : Type} {start : ConstantPool}

/-- The constants of `start` stand where they did. -/
abbrev Since (start : ConstantPool) (m : Machine) : Prop := start.Extends m.pool

lemma keeps_constants {texts : List String} {step : Step ConstantPool α}
    (h : ConstantPool.Adds texts step) : Keeps (Since start) (constants step) :=
  fun m hm => ConstantPool.keeps_of_adds h m.pool hm

lemma keeps_ofFieldType (t : FieldType) :
    Keeps (Since start) (constants (VerificationType.ofFieldType t)) := by
  obtain ⟨texts, hadds⟩ := adds_ofFieldType t
  exact keeps_constants hadds

lemma keeps_ofSlot (slot : Slot) :
    Keeps (Since start) (constants (VerificationType.ofSlot slot)) := by
  cases slot
  case reference => exact keeps_constants (adds_ofClass _)
  all_goals exact fun _ h => h

lemma extends_mergeSlots (c : ClassScope) (before : List VerificationType) (changed : Bool)
    (olds news : List VerificationType) (pool : ConstantPool) :
    pool.Extends (mergeSlots c before changed olds news pool).2.2 := by
  induction olds generalizing before changed news pool with
  | nil => exact .refl _
  | cons old olds ih =>
    cases news with
    | nil => exact .refl _
    | cons new news =>
      have hmerge := VerificationType.keeps_merge c old new pool (.refl pool)
      simp only [mergeSlots]
      rcases htype : (old.merge c new).outcome pool with ⟨e | merged, later⟩
      · rwa [htype] at hmerge
      · rw [htype] at hmerge
        exact hmerge.trans (ih _ _ _ _)

lemma keeps_merge (c : ClassScope) (offset : Nat) (other : Frame) :
    Keeps (Since start) (merge c offset other) := by
  rintro ⟨frame, pool⟩ hm
  simp only [merge, Step.outcome_ofOutcome]
  split
  · exact hm
  · exact hm.trans (extends_mergeSlots _ _ _ _ _ _)

namespace Site

variable {site : Site}

lemma keeps_push (t : VerificationType) : Keeps (Since start) (push t) := .modify fun _ h => h

lemma keeps_pushEach (types : List VerificationType) : Keeps (Since start) (pushEach types) :=
  .modify fun _ h => h

lemma keeps_pop : Keeps (Since start) site.pop := by
  rintro ⟨⟨locals, _ | ⟨t, stack⟩⟩, pool⟩ h <;> exact h

lemma keeps_popNarrow : Keeps (Since start) site.popNarrow := by
  refine keeps_pop.bind fun t => ?_
  split
  · exact .pure t
  · exact .throw _

lemma keeps_popAs (slot : Slot) : Keeps (Since start) (site.popAs slot) := by
  refine keeps_pop.bind fun t => ?_
  split
  · exact .pure t
  · exact .throw _

lemma keeps_popAll (slots : List Slot) : Keeps (Since start) (site.popAll slots) :=
  .forM (fun slot => (keeps_popAs slot).discarded) _

lemma keeps_readLocal (index : Int) : Keeps (Since start) (site.readLocal index) := by
  refine Keeps.get.bind fun m => ?_
  cases index with
  | ofNat i =>
    simp only
    cases m.frame.locals[i]? with
    | none => exact .throw _
    | some t => exact .pure t
  | negSucc => exact .throw _

lemma keeps_writeLocal (index : Int) (t : VerificationType) :
    Keeps (Since start) (site.writeLocal index t) := by
  cases index with
  | ofNat i =>
    rintro ⟨frame, pool⟩ h
    simp only [writeLocal, Step.outcome_ofOutcome]
    cases frame.store? i t <;> exact h
  | negSucc => exact .throw _

lemma keeps_constant (operand : Int) : Keeps (Since start) (site.constant operand) := by
  refine Keeps.get.bind fun m => ?_
  cases m.pool.get? (UInt16.ofInt operand) with
  | none => exact .throw _
  | some c => exact .pure c

lemma keeps_member (operand : Int) : Keeps (Since start) (site.member operand) := by
  refine Keeps.get.bind fun m => ?_
  cases m.pool.memberRef? (UInt16.ofInt operand) with
  | none => exact .throw _
  | some ref => exact .pure ref

lemma keeps_classIndex (operand : Int) : Keeps (Since start) (site.classIndex operand) := by
  refine (keeps_constant operand).bind fun c => ?_
  cases c with
  | classRef => exact .pure _
  | _ => exact .throw _

lemma keeps_constantType (operand : Int) : Keeps (Since start) (site.constantType operand) := by
  refine (keeps_constant operand).bind fun c => ?_
  cases c with
  | integer | float => exact .pure _
  | stringRef | classRef => exact keeps_constants (adds_ofClass _)
  | _ => exact .throw _

lemma keeps_wideConstantType (operand : Int) :
    Keeps (Since start) (site.wideConstantType operand) := by
  refine (keeps_constant operand).bind fun c => ?_
  cases c with
  | long | double => exact .pure _
  | _ => exact .throw _

lemma keeps_elementType (t : VerificationType) : Keeps (Since start) (site.elementType t) := by
  cases t with
  | null => exact .pure _
  | object array =>
    refine Keeps.get.bind fun m => ?_
    cases (m.pool.className? array).bind ClassName.element? with
    | none => exact .throw _
    | some element => exact keeps_constants (adds_ofClass _)
  | _ => exact .throw _

lemma keeps_fieldType (operand : Int) : Keeps (Since start) (site.fieldType operand) := by
  refine (keeps_member operand).bind fun ref => ?_
  cases FieldType.parse ref.descriptor with
  | error => exact .throw _
  | ok t => exact (keeps_ofFieldType t).bind fun _ => .pure _

lemma keeps_methodType (operand : Int) : Keeps (Since start) (site.methodType operand) := by
  refine (keeps_member operand).bind fun ref => ?_
  cases MethodDescriptor.parse ref.descriptor with
  | error => exact .throw _
  | ok d => exact .pure _

lemma keeps_initialized (t : VerificationType) : Keeps (Since start) (site.initialized t) := by
  cases t with
  | uninitializedThis => exact keeps_constants (adds_ofClass _)
  | uninitialized made =>
    simp only [initialized]
    split
    · split
      · exact .pure _
      · exact .throw _
    · exact .throw _
  | _ => exact .throw _

lemma keeps_receive (method : String) : Keeps (Since start) (site.receive method) := by
  refine (keeps_popAs .reference).bind fun receiver => ?_
  split
  · exact (keeps_initialized receiver).bind fun _ => .modify fun _ h => h
  · exact .pure _

lemma keeps_pushResult (returns : Option FieldType) :
    Keeps (Since start) (pushResult returns) := by
  cases returns with
  | none => exact .pure _
  | some t => exact (keeps_ofFieldType t).bind fun _ => keeps_push _

lemma keeps_dup2 : Keeps (Since start) site.dup2 := by
  refine keeps_pop.bind fun a => ?_
  split
  · exact keeps_popNarrow.bind fun _ => keeps_pushEach _
  · exact keeps_pushEach _

lemma keeps_dupX2 : Keeps (Since start) site.dupX2 := by
  refine keeps_popNarrow.bind fun a => keeps_pop.bind fun b => ?_
  split
  · exact keeps_popNarrow.bind fun _ => keeps_pushEach _
  · exact keeps_pushEach _

lemma keeps_dup2X1 : Keeps (Since start) site.dup2X1 := by
  refine keeps_pop.bind fun a => keeps_popNarrow.bind fun b => ?_
  split
  · exact keeps_popNarrow.bind fun _ => keeps_pushEach _
  · exact keeps_pushEach _

lemma keeps_dup2X2 : Keeps (Since start) site.dup2X2 := by
  refine keeps_pop.bind fun a => ?_
  split
  · refine keeps_popNarrow.bind fun b => keeps_pop.bind fun c => ?_
    split
    · exact keeps_popNarrow.bind fun _ => keeps_pushEach _
    · exact keeps_pushEach _
  · refine keeps_pop.bind fun b => ?_
    split
    · exact keeps_popNarrow.bind fun _ => keeps_pushEach _
    · exact keeps_pushEach _

lemma keeps_perform (effect : Effect) (first second : Int) :
    Keeps (Since start) (site.perform effect first second) := by
  have hpop : ∀ slot, Keeps (Since start) (discard (site.popAs slot) : Step Machine Unit) :=
    fun slot => (keeps_popAs slot).discarded
  cases effect with
  | fixed pops result =>
    refine (keeps_popAll pops).bind fun _ => ?_
    cases result with
    | none => exact .pure _
    | some slot => exact (keeps_ofSlot slot).bind fun _ => keeps_push _
  | load slot index =>
    refine (keeps_readLocal _).bind fun t => ?_
    split
    · exact keeps_push t
    · exact .throw _
  | store slot index => exact (keeps_popAs slot).bind fun t => keeps_writeLocal _ t
  | null => exact keeps_push _
  | constant => exact (keeps_constantType first).bind fun _ => keeps_push _
  | wideConstant => exact (keeps_wideConstantType first).bind fun _ => keeps_push _
  | element =>
    exact (hpop .int).bind fun _ => (keeps_popAs .reference).bind fun t =>
      (keeps_elementType t).bind fun _ => keeps_push _
  | pop => exact keeps_popNarrow.discarded
  | pop2 =>
    refine keeps_pop.bind fun t => ?_
    split
    · exact keeps_popNarrow.discarded
    · exact .pure _
  | dup => exact keeps_popNarrow.bind fun _ => keeps_pushEach _
  | dupX1 | swap =>
    exact keeps_popNarrow.bind fun _ => keeps_popNarrow.bind fun _ => keeps_pushEach _
  | dupX2 => exact keeps_dupX2
  | dup2 => exact keeps_dup2
  | dup2X1 => exact keeps_dup2X1
  | dup2X2 => exact keeps_dup2X2
  | increment =>
    refine (keeps_readLocal first).bind fun t => ?_
    split
    · exact .throw _
    · exact .pure _
  | getStatic => exact (keeps_fieldType first).bind fun _ => keeps_push _
  | getField =>
    exact (keeps_fieldType first).bind fun _ => (hpop .reference).bind fun _ => keeps_push _
  | putStatic => exact (keeps_fieldType first).bind fun field => hpop field.2
  | putField =>
    exact (keeps_fieldType first).bind fun field => (hpop field.2).bind fun _ => hpop .reference
  | invoke =>
    exact (keeps_methodType first).bind fun _ => (keeps_popAll _).bind fun _ =>
      (keeps_receive _).bind fun _ => keeps_pushResult _
  | invokeStatic =>
    exact (keeps_methodType first).bind fun _ => (keeps_popAll _).bind fun _ => keeps_pushResult _
  | new => exact (keeps_classIndex first).discarded.bind fun _ => keeps_push _
  | newArray =>
    refine (hpop .int).bind fun _ => ?_
    cases BaseType.ofArrayCode? (UInt8.ofInt first) with
    | none => exact .throw _
    | some element => exact (keeps_ofFieldType _).bind fun _ => keeps_push _
  | newObjectArray =>
    refine (hpop .int).bind fun _ => (keeps_classIndex first).bind fun element =>
      Keeps.get.bind fun m => ?_
    cases m.pool.className? element with
    | none => exact .throw _
    | some name => exact (keeps_constants (adds_ofClass _)).bind fun _ => keeps_push _
  | newMultiArray =>
    exact (keeps_classIndex first).bind fun _ => (keeps_popAll _).bind fun _ => keeps_push _
  | cast =>
    exact (keeps_classIndex first).bind fun _ => (hpop .reference).bind fun _ => keeps_push _
  | wide => exact .throw _

theorem keeps_execute (insn : Instruction) : Keeps (Since start) (site.execute insn) :=
  (Keeps.ofExcept _).bind fun _ => keeps_perform _ _ _

end Site
end Machine

namespace Inference

variable {α : Type} {start : ConstantPool} {p : BlockProgram}

/-- The constants of `start` stand where they did. -/
abbrev Since (start : ConstantPool) (s : Inference) : Prop := start.Extends s.pool

lemma keeps_constants {texts : List String} {step : Step ConstantPool α}
    (h : ConstantPool.Adds texts step) : Keeps (Since start) (constants step) :=
  fun s hs => ConstantPool.keeps_of_adds h s.pool hs

lemma keeps_mergeEntry (index : Nat) (frame : Frame) :
    Keeps (Since start) (mergeEntry p index frame) := by
  rintro ⟨frames, worklist, pool⟩ hs
  simp only [mergeEntry, Step.outcome_ofOutcome]
  split
  · exact hs
  · exact hs
  · rename_i entry _
    have hmerge := Machine.keeps_merge p.scope ((p.graph.blocks[index]?.map Block.start).getD 0)
      frame ⟨entry, pool⟩ hs
    split
    · rename_i hresult
      rwa [hresult] at hmerge
    · rename_i hresult
      rwa [hresult] at hmerge

lemma keeps_send (source : Nat) (target : Int) (frame : Frame) :
    Keeps (Since start) (send p source target frame) := by
  rw [send]
  split
  · exact keeps_mergeEntry _ _
  · exact .throw _

lemma keeps_sendToHandlers (pc : Nat) (frame : Frame) :
    Keeps (Since start) (sendToHandlers p pc frame) := by
  refine .forM (fun h => ?_) _
  cases h.catchType with
  | none => exact (keeps_constants (Machine.adds_ofClass _)).bind fun _ => keeps_send _ _ _
  | some index => exact (Keeps.pure _).bind fun _ => keeps_send _ _ _

lemma keeps_execute (pc : Nat) (insn : Instruction) (frame : Frame) :
    Keeps (Since start) (execute p pc insn frame) := by
  rintro ⟨frames, worklist, pool⟩ hs
  have hexecute : Machine.Since start
      ((Machine.Site.execute ⟨pc, p.code, p.scope⟩ insn).outcome ⟨frame, pool⟩).2 :=
    Machine.Site.keeps_execute insn _ hs
  simp only [execute, Step.outcome_ofOutcome]
  split
  · rename_i hresult
    rwa [hresult] at hexecute
  · rename_i hresult
    rwa [hresult] at hexecute

lemma keeps_executeFrom (index stop pc : Nat) (frame : Frame) :
    Keeps (Since start) (executeFrom p index stop pc frame) := by
  fun_induction executeFrom p index stop pc frame with
  | case1 pc frame hlt e hdecode => exact .throw e
  | case2 pc frame hlt insn hdecode ih =>
    refine (keeps_sendToHandlers _ _).bind fun _ => (keeps_execute _ _ _).bind fun after =>
      (Keeps.ofExcept _).bind fun traits => (Keeps.ofExcept _).bind fun targets =>
        (Keeps.forM (fun target => keeps_send _ _ _) _).bind fun _ => ?_
    split
    · exact .pure _
    · exact ih after
  | case3 pc frame _ _ => exact .throw _
  | case4 pc frame _ _ => exact keeps_mergeEntry _ _

lemma keeps_executeBlock (index : Nat) : Keeps (Since start) (executeBlock p index) := by
  refine Keeps.get.bind fun s => ?_
  split
  · exact keeps_executeFrom _ _ _ _
  · exact .pure _

lemma keeps_settle (n : Nat) : Keeps (Since start) (settle p n) := by
  induction n with
  | zero => exact .throw _
  | succ n ih =>
    rw [settle]
    refine .get_bind fun s hs => ?_
    cases s.worklist.pop? with
    | none => exact hs
    | some next =>
      have hrest : Keeps (Since start) (do executeBlock p next.1; settle p n) :=
        (keeps_executeBlock _).bind fun _ => ih
      exact hrest { s with worklist := next.2 } hs

lemma keeps_run (initial : Frame) : Keeps (Since start) (run p initial) :=
  (keeps_mergeEntry _ _).bind fun _ => keeps_settle _

end Inference

lemma BlockProgram.pool_neutralize (p : BlockProgram) (maxLocals : Nat)
    (exception : VerificationType) (s : Inference) :
    (p.neutralize maxLocals exception s).2.pool = s.pool := by
  have hfold : ∀ (indices : List Nat) (state : BlockProgram × Inference),
      (indices.foldl (retire maxLocals exception) state).2.pool = state.2.pool := by
    intro indices
    induction indices with
    | nil => exact fun _ => rfl
    | cons index indices ih =>
      rintro ⟨⟨code, handlers, graph, scope⟩, ⟨frames, worklist, pool⟩⟩
      rw [List.foldl_cons, ih]
      simp only [retire]
      split <;> rfl
  exact hfold _ _

namespace MethodCode

variable {start : ConstantPool} {m : MethodCode} {graph : BlockGraph} {scope : ClassScope}

open Inference (Since)

lemma keeps_resume (initial : Frame) (dead : Nat) :
    Keeps (Since start) (m.resume graph initial scope dead) := by
  refine (Inference.keeps_constants (Machine.adds_ofClass _)).bind fun exception => ?_
  refine Keeps.bind (fun s hs => ?_) fun p' => (Inference.keeps_settle _).bind fun _ =>
    Keeps.get.bind fun _ => .pure _
  change start.Extends ((m.program graph scope).neutralize m.maxLocals.toNat exception s).2.pool
  rwa [BlockProgram.pool_neutralize]

lemma keeps_infer (initial : Frame) : Keeps (Since start) (m.infer graph initial scope) := by
  refine (Inference.keeps_run initial).bind fun _ => Keeps.get.bind fun s => ?_
  split
  · exact .pure _
  · exact keeps_resume _ _

end MethodCode

namespace MethodHeader

variable {start : ConstantPool} (header : MethodHeader) (scope : ClassScope)

lemma keeps_receiver : Keeps (start.Extends ·) (header.receiver scope) := by
  rw [receiver]
  split
  · exact .pure _
  · split
    · exact .pure _
    · exact (ConstantPool.keeps_of_adds (Machine.adds_ofClass _)).bind fun _ => .pure _

lemma keeps_entryFrame (maxLocals : Nat) :
    Keeps (start.Extends ·) (header.entryFrame scope maxLocals) := by
  have hparameters : ∀ (types : List FieldType) (before : List VerificationType),
      Keeps (start.Extends ·) (types.foldlM addParameter before) := by
    intro types
    induction types with
    | nil => exact fun _ => .pure _
    | cons t types ih =>
      intro before
      obtain ⟨_, hadds⟩ := Machine.adds_ofFieldType t
      have hone : Keeps (start.Extends ·) (addParameter before t) :=
        (ConstantPool.keeps_of_adds hadds).bind fun _ => .pure _
      rw [List.foldlM_cons]
      exact hone.bind ih
  exact (header.keeps_receiver scope).bind fun receiver => (hparameters _ _).bind fun _ => .pure _

end MethodHeader

lemma MethodCode.keeps_settle {start : ConstantPool} (m : MethodCode) (facts : ControlFacts)
    (header : MethodHeader) (scope : ClassScope) :
    Keeps (start.Extends ·) (m.settle facts header scope) := by
  refine (Keeps.ofExcept _).bind fun graph => (header.keeps_entryFrame scope _).bind fun initial => ?_
  intro pool hpool
  exact keeps_infer initial (.unreached graph.blocks.size pool) hpool

namespace ConstantPool

variable {start : ConstantPool}

lemma keeps_internAttribute (body : AttributeBody) :
    Keeps (start.Extends ·) (internAttribute body) := by
  refine (keeps_of_adds (.issue (.utf8 body.name))).bind fun name => ?_
  cases body.encode with
  | ok info => exact .pure _
  | error e => exact .throw _

lemma keeps_internUnless (empty : Bool) (body : AttributeBody) :
    Keeps (start.Extends ·) (internUnless empty body) := by
  unfold internUnless
  split
  · exact .pure _
  · exact (keeps_internAttribute body).map _

end ConstantPool

namespace MethodBody

open ConstantPool (keeps_internAttribute keeps_internUnless)

variable {start : ConstantPool} (m : MethodBody) (scope : ClassScope) (version : Version)

lemma keeps_mapCode (handlers : List ExceptionHandler) :
    Keeps (start.Extends ·) (m.mapCode handlers scope version) := by
  unfold mapCode
  split
  · exact (MethodCode.keeps_settle _ _ _ _).bind fun _ => .pure _
  · exact .pure _

lemma keeps_codeAttributes (length : Nat) (locals : List LocalVariable)
    (entries : List StackMapEntry) :
    Keeps (start.Extends ·) (m.codeAttributes length locals entries) := by
  rw [codeAttributes_eq]
  exact (Keeps.ofExcept _).bind fun _ => (keeps_internUnless _ _).bind fun _ =>
    (keeps_internUnless _ _).bind fun _ => (keeps_internUnless _ _).bind fun _ => .pure _

/-- Closing a method adds constants at most, also if it fails. -/
theorem keeps_close : Keeps (start.Extends ·) (m.close scope version) := by
  refine (Keeps.ofExcept _).bind fun _ => ?_
  split
  · exact .throw _
  refine (Keeps.ofExcept _).bind fun handlers => (Keeps.ofExcept _).bind fun locals =>
    (m.keeps_mapCode scope version handlers).bind fun mapped => ?_
  refine (Keeps.ofExcept _).bind fun _ => (Keeps.ofExcept _).bind fun _ =>
    (Keeps.ofExcept _).bind fun _ => (m.keeps_codeAttributes _ _ _).bind fun attributes => ?_
  exact (keeps_internAttribute _).bind fun _ => .pure _

end MethodBody
end ClassAssembly
