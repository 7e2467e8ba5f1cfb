import ClassAssembly.Assembler
import ClassAssembly.Proofs.CodeReferences

/-! What stands in an assembled class. The calls of an assembler that succeed say what the class is
to have, whatever other calls fail between them, and the class has just that: its members in their
order, and constants that stand for what was asked for. -/
namespace ClassAssembly

/-- What can be asked of an assembler. -/
inductive AssemblerCall where
  | constant (request : ConstantRequest)
  | implement (name : String)
  | nameSource (name : String)
  | declareField (flags : FieldFlags) (name descriptor : String)
  | declareConstant (flags : FieldFlags) (name descriptor : String) (value : InitialValue)
  | declareMethod (flags : MethodFlags) (name descriptor : String)
  | beginMethod (flags : MethodFlags) (name descriptor : String)
  | build (call : BuilderCall)
  | endMethod

namespace AssemblerCall

def run : AssemblerCall → Step Assembler Unit
  | constant request => (fun _ => ()) <$> Assembler.constants request.issue
  | implement name => Assembler.implement name
  | nameSource name => Assembler.nameSource name
  | declareField flags name descriptor => Assembler.declareField flags name descriptor
  | declareConstant flags name descriptor value =>
    Assembler.declareConstant flags name descriptor value
  | declareMethod flags name descriptor => Assembler.declareMethod flags name descriptor
  | beginMethod flags name descriptor => Assembler.beginMethod flags name descriptor
  | build call => Assembler.inMethod call.run
  | endMethod => Assembler.endMethod

/-- The numbers that are given to the builder are in range. -/
def InRange : AssemblerCall → Prop
  | build call => call.InRange
  | _ => True

instance : (call : AssemblerCall) → Decidable call.InRange
  | build call => inferInstanceAs (Decidable call.InRange)
  | constant _ | implement _ | nameSource _ | declareField .. | declareConstant .. | declareMethod ..
  | beginMethod .. | endMethod => .isTrue trivial

end AssemblerCall

/-- The initial value as a constant. -/
def InitialValue.request : InitialValue → ConstantRequest
  | int value => .integer value
  | long value => .long value
  | float bits => .float bits
  | double bits => .double bits
  | string text => .stringRef text

/-- A field as it was asked for. -/
structure FieldNote where
  flags : FieldFlags
  name : String
  descriptor : String
  value : Option InitialValue
deriving DecidableEq

/-- A class as it was asked for. -/
structure ClassNotes where
  thisClass : ClassName
  superClass : ClassName
  interfaces : List ClassName
  source : Option String
  fields : List FieldNote
  methods : List MethodNote
  /-- The method that was begun last. -/
  opened : Option MethodNote
deriving DecidableEq

namespace ClassNotes

/-- Nothing but the names of the class and its superclass was asked for yet. -/
def start (thisClass superClass : String) : ClassNotes :=
  ⟨ClassName.canonical thisClass, ClassName.canonical superClass, [], none, [], [], none⟩

/-- What was asked for after a call that succeeded. -/
def record (notes : ClassNotes) (a : Assembler) : AssemblerCall → ClassNotes
  | .constant _ => notes
  | .implement name =>
    let name := ClassName.canonical name
    if name ∈ notes.interfaces then notes
    else { notes with interfaces := notes.interfaces ++ [name] }
  | .nameSource name => { notes with source := some name }
  | .declareField flags name descriptor =>
    { notes with fields := notes.fields ++ [⟨flags, name, descriptor, none⟩] }
  | .declareConstant flags name descriptor value =>
    { notes with fields := notes.fields ++ [⟨flags, name, descriptor, some value⟩] }
  | .declareMethod flags name descriptor =>
    { notes with methods := notes.methods ++ [⟨flags, name, descriptor, false, []⟩] }
  | .beginMethod flags name descriptor =>
    { notes with opened := some ⟨flags, name, descriptor, true, []⟩ }
  | .build call =>
    match a.openMethod, notes.opened with
    | some m, some note => { notes with opened := some (note.citing (call.references ⟨m, a.pool⟩)) }
    | _, _ => notes
  | .endMethod => { notes with methods := notes.methods ++ notes.opened.toList, opened := none }

/-- What was asked for after a call, which counts only if it succeeds. -/
def after (notes : ClassNotes) (a : Assembler) (call : AssemblerCall) : ClassNotes :=
  match (call.run.outcome a).1 with
  | .ok _ => notes.record a call
  | .error _ => notes

/-- What was asked for after some calls. -/
def along (notes : ClassNotes) : List AssemblerCall → Assembler → ClassNotes
  | [], _ => notes
  | call :: calls, a => (notes.after a call).along calls (call.run.outcome a).2

end ClassNotes

/-- The field in the class is the one that was asked for. -/
structure FieldNote.Recorded (pool : ConstantPool) (note : FieldNote) (field : Field) : Prop where
  flags : field.flags = note.flags
  name : pool.Holds field.name (.utf8 note.name)
  descriptor : pool.Holds field.descriptor (.utf8 note.descriptor)
  bare : note.value = none → field.attributes = []
  value : ∀ value, note.value = some value → ∃ written index, field.attributes = [written] ∧
    written.Says pool (.constantValue index) ∧ pool.Holds index value.request

/-- The class is the one that was asked for, with these constants. -/
structure ClassNotes.Recorded (pool : ConstantPool) (notes : ClassNotes) (file : ClassFile) :
    Prop where
  constants : file.constants = pool.entries
  thisClass : pool.Holds file.thisClass (.classRef notes.thisClass)
  superClass : pool.Holds file.superClass (.classRef notes.superClass)
  interfaces : List.Forall₂ (fun name i => pool.Holds i (.classRef name)) notes.interfaces
    file.interfaces
  distinct : file.interfaces.Nodup
  fields : List.Forall₂ (FieldNote.Recorded pool) notes.fields file.fields
  methods : List.Forall₂ (MethodNote.Recorded file.version pool) notes.methods file.methods
  unnamed : notes.source = none → file.attributes = []
  source : ∀ name, notes.source = some name → ∃ written index, file.attributes = [written] ∧
    written.Says pool (.sourceFile index) ∧ pool.Holds index (.utf8 name)

namespace InitialValue

lemma intern_eq (value : InitialValue) : value.intern = value.request.issue := by
  cases value <;> rfl

lemma canonical_request (value : InitialValue) : value.request.canonical = value.request := by
  cases value <;> rfl

end InitialValue

lemma FieldNote.Recorded.mono {pool later : ConstantPool} {note : FieldNote} {field : Field}
    (hext : pool.Extends later) (h : note.Recorded pool field) : note.Recorded later field := by
  refine ⟨h.flags, h.name.mono hext, h.descriptor.mono hext, h.bare, fun value hvalue => ?_⟩
  obtain ⟨written, index, hattributes, hsays, hholds⟩ := h.value value hvalue
  exact ⟨written, index, hattributes, hsays.mono hext, hholds.mono hext⟩

lemma ClassNotes.Recorded.mono {pool later : ConstantPool} {notes : ClassNotes} {file : ClassFile}
    (hext : pool.Extends later) (h : notes.Recorded pool file) :
    notes.Recorded later { file with constants := later.entries } where
  constants := rfl
  thisClass := h.thisClass.mono hext
  superClass := h.superClass.mono hext
  interfaces := h.interfaces.imp fun _ _ => .mono hext
  distinct := h.distinct
  fields := h.fields.imp fun _ _ => .mono hext
  methods := h.methods.imp fun _ _ => .mono hext
  unnamed := h.unnamed
  source name hname := by
    obtain ⟨written, index, hattributes, hsays, hholds⟩ := h.source name hname
    exact ⟨written, index, hattributes, hsays.mono hext, hholds.mono hext⟩

namespace Assembler

open Step (Keeps bind_eq_ok bind_eq_error)

variable {α β : Type} {a a' : Assembler} {notes : ClassNotes}

/-- The class as it is, without a method that is still open. -/
def soFar (a : Assembler) : ClassFile where
  version := a.version
  constants := a.pool.entries
  flags := a.flags
  thisClass := a.thisIndex
  superClass := a.superIndex
  interfaces := a.interfaces.toList
  fields := a.fields.toList
  methods := a.methods.toList
  attributes := a.attributes

lemma classFile_eq_ok_iff {file : ClassFile} :
    a.classFile = .ok file ↔ a.openMethod = none ∧ a.soFar = file := by
  unfold classFile
  split
  · rename_i m hopen
    simp [hopen]
  · rename_i hopen
    rw [Except.ok.injEq, and_iff_right hopen]
    rfl

/-- The class so far and the open method are as they were asked for. -/
structure Accounts (notes : ClassNotes) (a : Assembler) : Prop where
  recorded : notes.Recorded a.pool a.soFar
  opened : ∀ m, a.openMethod = some m →
    ∃ note, notes.opened = some note ∧ MethodBuilder.Drafts note ⟨m, a.pool⟩

/-- Constants have been added at most. -/
def Grown (a a' : Assembler) : Prop := ∃ pool, a.pool.Extends pool ∧ a' = { a with pool }

lemma Accounts.grown (h : Accounts notes a) (hgrown : a.Grown a') : Accounts notes a' := by
  obtain ⟨pool, hext, rfl⟩ := hgrown
  refine ⟨h.recorded.mono hext, fun m hm => ?_⟩
  obtain ⟨note, hnote, hdrafts⟩ := h.opened m hm
  exact ⟨note, hnote, (MethodBuilder.Drafts.stable note).pool _ pool hdrafts hext⟩

lemma outcome_constants (step : Step ConstantPool α) (a : Assembler) : (constants step).outcome a =
    ((step.outcome a.pool).1, { a with pool := (step.outcome a.pool).2 }) := rfl

section Growth

/-- Whether the step succeeds or not, it only adds constants. -/
def Grows (step : Step Assembler α) : Prop := ∀ a : Assembler, a.Grown (step.outcome a).2

/-- If the step fails, it has only added constants. -/
def FailsGrown (step : Step Assembler α) : Prop :=
  ∀ (a : Assembler) e a', step.outcome a = (.error e, a') → a.Grown a'

lemma Grown.refl (a : Assembler) : a.Grown a := ⟨a.pool, .refl _, rfl⟩

lemma Grown.trans {a'' : Assembler} (h : a.Grown a') (h' : a'.Grown a'') : a.Grown a'' := by
  obtain ⟨pool, hext, rfl⟩ := h
  obtain ⟨pool', hext', rfl⟩ := h'
  exact ⟨pool', hext.trans hext', rfl⟩

namespace Grows

lemma pure (x : α) : Grows (pure x) := fun a => Grown.refl a

lemma constants {step : Step ConstantPool α}
    (h : ∀ start : ConstantPool, Keeps (start.Extends ·) step) : Grows (constants step) :=
  fun a => ⟨_, h a.pool a.pool (.refl _), rfl⟩

lemma issue (request : ConstantRequest) : Grows (Assembler.constants request.issue) :=
  constants fun _ => ConstantPool.keeps_of_adds (.issue request)

lemma map {step : Step Assembler α} (h : Grows step) (f : α → β) : Grows (f <$> step) := by
  intro a
  rw [Step.outcome_map]
  exact h a

lemma of_ok {step : Step Assembler α} (h : Grows step) {x : α} (hrun : step.outcome a = (.ok x, a')) :
    a.Grown a' := by
  have hgrown := h a
  rwa [hrun] at hgrown

end Grows

namespace FailsGrown

lemma throw (e : Error) : FailsGrown (throw e : Step Assembler α) := by
  intro a e' a' h
  cases h
  exact .refl a

lemma modify (f : Assembler → Assembler) : FailsGrown (modify f) := by
  intro a e a' h
  cases h

lemma of_grows {step : Step Assembler α} (h : Grows step) : FailsGrown step := by
  intro a e a' hrun
  have hgrown := h a
  rwa [hrun] at hgrown

lemma bind {step : Step Assembler α} {next : α → Step Assembler β} (h : Grows step)
    (hnext : ∀ x, FailsGrown (next x)) : FailsGrown (step >>= next) := by
  intro a e a' hrun
  rcases bind_eq_error.mp hrun with hrun | ⟨x, middle, hstep, hrun⟩
  · exact of_grows h a e a' hrun
  · exact (h.of_ok hstep).trans (hnext x middle e a' hrun)

end FailsGrown

lemma failsGrown_implement (name : String) : FailsGrown (implement name) :=
  .bind (.issue (.classRef name)) fun _ => .modify _

lemma failsGrown_nameSource (name : String) : FailsGrown (nameSource name) :=
  .bind (.issue (.utf8 name)) fun _ =>
    .bind (.constants fun _ => ConstantPool.keeps_internAttribute _) fun _ => .modify _

lemma failsGrown_recordField (flags : FieldFlags) (name descriptor : String)
    (value : Option PoolIndex) : FailsGrown (recordField flags name descriptor value) := by
  refine .bind (.issue (.utf8 name)) fun _ => .bind (.issue (.utf8 descriptor)) fun _ => ?_
  cases value with
  | none => exact .bind (.pure _) fun _ => .modify _
  | some index =>
    have hattribute : Grows (constants (ConstantPool.internAttribute (.constantValue index))) :=
      .constants fun _ => ConstantPool.keeps_internAttribute _
    exact .bind (hattribute.map _) fun _ => .modify _

lemma failsGrown_declareField (flags : FieldFlags) (name descriptor : String) :
    FailsGrown (declareField flags name descriptor) := by
  unfold declareField
  split
  · exact .throw _
  · exact failsGrown_recordField _ _ _ _

lemma failsGrown_declareConstant (flags : FieldFlags) (name descriptor : String)
    (value : InitialValue) : FailsGrown (declareConstant flags name descriptor value) := by
  unfold declareConstant
  split
  · exact .throw _
  · simp only
    split
    · exact .throw _
    · rw [value.intern_eq]
      exact .bind (.issue _) fun _ => failsGrown_recordField _ _ _ _

lemma failsGrown_declareMethod (flags : MethodFlags) (name descriptor : String) :
    FailsGrown (declareMethod flags name descriptor) := by
  unfold declareMethod
  split
  · exact .throw _
  · exact .bind (.issue (.utf8 name)) fun _ => .bind (.issue (.utf8 descriptor)) fun _ => .modify _

end Growth

namespace Accounts

/-- A constant that is asked for is there, and nothing else has changed. -/
lemma issue (request : ConstantRequest) {i : PoolIndex} (h : Accounts notes a)
    (hrun : (constants request.issue).outcome a = (.ok i, a')) :
    Accounts notes a' ∧ a.pool.Extends a'.pool ∧ a'.pool.Holds i request.canonical := by
  rw [outcome_constants] at hrun
  rcases hissue : request.issue.outcome a.pool with ⟨result, pool⟩
  rw [hissue] at hrun
  cases hrun
  have hext := (ConstantPool.Adds.issue request).grows hissue
  exact ⟨h.grown ⟨pool, hext, rfl⟩, hext, ConstantPool.holds_of_issue hissue⟩

/-- The same for an attribute. -/
lemma internAttribute {body : AttributeBody} {written : Attribute} (h : Accounts notes a)
    (hrun : (constants (ConstantPool.internAttribute body)).outcome a = (.ok written, a')) :
    Accounts notes a' ∧ a.pool.Extends a'.pool ∧ written.Says a'.pool body := by
  rw [outcome_constants] at hrun
  rcases hintern : (ConstantPool.internAttribute body).outcome a.pool with ⟨result, pool⟩
  rw [hintern] at hrun
  cases hrun
  obtain ⟨hext, hsays⟩ := ConstantPool.says_of_internAttribute hintern
  exact ⟨h.grown ⟨pool, hext, rfl⟩, hext, hsays⟩

/-- An interface is listed already just if it was asked for before. -/
lemma contains_interface {index : PoolIndex} {name : ClassName} (h : Accounts notes a)
    (hholds : a.pool.Holds index (.classRef name)) :
    a.interfaces.contains index = true ↔ name ∈ notes.interfaces := by
  have hinterfaces : List.Forall₂ (fun name i => a.pool.Holds i (.classRef name)) notes.interfaces
      a.interfaces.toList := h.recorded.interfaces
  rw [Array.contains_iff_mem, ← Array.mem_toList_iff]
  constructor
  · intro hmem
    obtain ⟨k, hk⟩ := List.mem_iff_getElem?.mp hmem
    obtain ⟨other, hother, hsame⟩ := exists_of_forall₂ hinterfaces.flip hk
    have hnames := hholds.resolve?_eq.symm.trans hsame.resolve?_eq
    cases hnames
    exact List.mem_of_getElem? hother
  · intro hmem
    obtain ⟨k, hk⟩ := List.mem_iff_getElem?.mp hmem
    obtain ⟨other, hother, hsame⟩ := exists_of_forall₂ hinterfaces hk
    rw [hholds.unique hsame]
    exact List.mem_of_getElem? hother

lemma implement {name : String} (h : Accounts notes a)
    (hrun : (implement name).outcome a = (.ok (), a')) :
    Accounts (notes.record a (.implement name)) a' := by
  obtain ⟨index, a₁, hindex, hrun⟩ := bind_eq_ok.mp hrun
  obtain ⟨h₁, _, hholds⟩ := h.issue (.classRef name) hindex
  have hlisted := h₁.contains_interface hholds
  cases hrun
  simp only [ClassNotes.record]
  by_cases hmem : ClassName.canonical name ∈ notes.interfaces
  · rw [if_pos (hlisted.mpr hmem), if_pos hmem]
    exact h₁
  · have habsent := mt hlisted.mp hmem
    rw [if_neg habsent, if_neg hmem]
    refine ⟨{ h₁.recorded with interfaces := ?_, distinct := ?_ }, h₁.opened⟩
    · simp only [soFar, Array.toList_push]
      exact List.rel_append h₁.recorded.interfaces (.cons hholds .nil)
    · simp only [soFar, Array.toList_push]
      refine List.nodup_append.mpr ⟨h₁.recorded.distinct, List.nodup_singleton _, ?_⟩
      rintro i hi _ hindex rfl
      cases List.mem_singleton.mp hindex
      exact habsent (Array.contains_iff_mem.mpr (Array.mem_toList_iff.mp hi))

/-- Whatever file was named before, the attribute is replaced. -/
lemma nameSource {name : String} (h : Accounts notes a)
    (hrun : (nameSource name).outcome a = (.ok (), a')) :
    Accounts (notes.record a (.nameSource name)) a' := by
  obtain ⟨index, a₁, hname, hrun⟩ := bind_eq_ok.mp hrun
  obtain ⟨h₁, _, hholds⟩ := h.issue (.utf8 name) hname
  obtain ⟨named, a₂, hnamed, hrun⟩ := bind_eq_ok.mp hrun
  obtain ⟨h₂, hext, hsays⟩ := h₁.internAttribute hnamed
  cases hrun
  have hnone : a₂.attributes.filter (·.name ≠ named.name) = [] := by
    cases hsource : notes.source with
    | none =>
      have hempty : a₂.attributes = [] := h₂.recorded.unnamed hsource
      rw [hempty, List.filter_nil]
    | some before =>
      obtain ⟨written, _, hattributes, hwritten, _⟩ := h₂.recorded.source before hsource
      have hsame : written.name = named.name := hwritten.name.unique hsays.name
      have hattributes : a₂.attributes = [written] := hattributes
      simp [hattributes, hsame]
  refine ⟨{ h₂.recorded with unnamed := ?_, source := ?_ }, h₂.opened⟩
  · intro hsource
    cases hsource
  · intro other hother
    cases hother
    exact ⟨named, index, by simp only [soFar, hnone, List.nil_append], hsays, hholds.mono hext⟩

lemma addField {field : Field} {note : FieldNote} (h : Accounts notes a)
    (hfield : note.Recorded a.pool field) :
    Accounts { notes with fields := notes.fields ++ [note] }
      { a with fields := a.fields.push field } := by
  refine ⟨{ h.recorded with fields := ?_ }, h.opened⟩
  simp only [soFar, Array.toList_push]
  exact List.rel_append h.recorded.fields (.cons hfield .nil)

lemma addMethod {method : Method} {note : MethodNote} (h : Accounts notes a)
    (hmethod : note.Recorded a.version a.pool method) :
    Accounts { notes with methods := notes.methods ++ [note] }
      { a with methods := a.methods.push method } := by
  refine ⟨{ h.recorded with methods := ?_ }, h.opened⟩
  simp only [soFar, Array.toList_push]
  exact List.rel_append h.recorded.methods (.cons hmethod .nil)

/-- The initial value of a field, if it is to have one, is a constant already. -/
lemma recordField {flags : FieldFlags} {name descriptor : String}
    (value : Option (InitialValue × PoolIndex)) (h : Accounts notes a)
    (hvalue : ∀ initial index, value = some (initial, index) →
      a.pool.Holds index initial.request)
    (hrun : (recordField flags name descriptor (value.map Prod.snd)).outcome a = (.ok (), a')) :
    Accounts { notes with
      fields := notes.fields ++ [⟨flags, name, descriptor, value.map Prod.fst⟩] } a' := by
  obtain ⟨i, a₁, hname, hrun⟩ := bind_eq_ok.mp hrun
  obtain ⟨h₁, hext₁, hname⟩ := h.issue (.utf8 name) hname
  obtain ⟨j, a₂, hdescriptor, hrun⟩ := bind_eq_ok.mp hrun
  obtain ⟨h₂, hext₂, hdescriptor⟩ := h₁.issue (.utf8 descriptor) hdescriptor
  cases value with
  | none =>
    cases hrun
    refine h₂.addField ⟨rfl, hname.mono hext₂, hdescriptor, fun _ => rfl, fun value hvalue => ?_⟩
    cases hvalue
  | some pair =>
    obtain ⟨initial, index⟩ := pair
    obtain ⟨attributes, a₃, hattributes, hrun⟩ := bind_eq_ok.mp hrun
    obtain ⟨written, hwritten, rfl⟩ := Step.map_eq_ok.mp hattributes
    obtain ⟨h₃, hext₃, hsays⟩ := h₂.internAttribute hwritten
    cases hrun
    refine h₃.addField ⟨rfl, (hname.mono hext₂).mono hext₃, hdescriptor.mono hext₃, fun hnone => ?_,
      fun value heq => ?_⟩
    · cases hnone
    · cases heq
      have hholds := hvalue initial index rfl
      exact ⟨written, index, rfl, hsays, ((hholds.mono hext₁).mono hext₂).mono hext₃⟩

lemma declareField {flags : FieldFlags} {name descriptor : String} (h : Accounts notes a)
    (hrun : (declareField flags name descriptor).outcome a = (.ok (), a')) :
    Accounts (notes.record a (.declareField flags name descriptor)) a' := by
  unfold Assembler.declareField at hrun
  split at hrun
  · cases hrun
  · refine h.recordField none (fun _ _ hnone => ?_) hrun
    cases hnone

lemma declareConstant {flags : FieldFlags} {name descriptor : String} {value : InitialValue}
    (h : Accounts notes a)
    (hrun : (declareConstant flags name descriptor value).outcome a = (.ok (), a')) :
    Accounts (notes.record a (.declareConstant flags name descriptor value)) a' := by
  unfold Assembler.declareConstant at hrun
  split at hrun
  · cases hrun
  · simp only at hrun
    split at hrun
    · cases hrun
    · rw [value.intern_eq] at hrun
      obtain ⟨index, a₁, hindex, hrun⟩ := bind_eq_ok.mp hrun
      obtain ⟨h₁, _, hholds⟩ := h.issue value.request hindex
      rw [value.canonical_request] at hholds
      refine h₁.recordField (some (value, index)) (fun _ _ hsome => ?_) hrun
      cases hsome
      exact hholds

lemma declareMethod {flags : MethodFlags} {name descriptor : String} (h : Accounts notes a)
    (hrun : (declareMethod flags name descriptor).outcome a = (.ok (), a')) :
    Accounts (notes.record a (.declareMethod flags name descriptor)) a' := by
  unfold Assembler.declareMethod at hrun
  split at hrun
  · cases hrun
  · obtain ⟨i, a₁, hname, hrun⟩ := bind_eq_ok.mp hrun
    obtain ⟨h₁, _, hname⟩ := h.issue (.utf8 name) hname
    obtain ⟨j, a₂, hdescriptor, hrun⟩ := bind_eq_ok.mp hrun
    obtain ⟨h₂, hext, hdescriptor⟩ := h₁.issue (.utf8 descriptor) hdescriptor
    cases hrun
    refine h₂.addMethod ⟨rfl, hname.mono hext, hdescriptor, fun _ => rfl, fun hcode => ?_⟩
    cases hcode

end Accounts

lemma beginMethod_eq_ok {flags : MethodFlags} {name descriptor : String}
    (h : (beginMethod flags name descriptor).outcome a = (.ok (), a')) :
    ∃ m pool, (MethodBody.start flags name descriptor).outcome a.pool = (.ok m, pool) ∧
      a' = { a with pool, openMethod := some m } := by
  obtain ⟨_, _, hget, h⟩ := bind_eq_ok.mp h
  cases hget
  split at h
  · cases h
  · obtain ⟨m, a₁, hstart, h⟩ := bind_eq_ok.mp h
    rw [outcome_constants] at hstart
    rcases houtcome : (MethodBody.start flags name descriptor).outcome a.pool with ⟨result, pool⟩
    rw [houtcome] at hstart
    cases hstart
    cases h
    exact ⟨m, pool, rfl, rfl⟩

lemma failsGrown_beginMethod (flags : MethodFlags) (name descriptor : String) :
    FailsGrown (beginMethod flags name descriptor) := by
  refine .bind Grown.refl fun before => ?_
  split
  · exact .throw _
  · exact .bind (.constants fun _ => MethodBody.keeps_start _ _ _) fun _ => .modify _

lemma outcome_inMethod_none (step : Step MethodBuilder α) (h : a.openMethod = none) :
    (inMethod step).outcome a = (.error .noOpenMethod, a) := by
  obtain ⟨⟩ := a
  cases h
  rfl

lemma outcome_inMethod_some (step : Step MethodBuilder α) {m : MethodBody}
    (h : a.openMethod = some m) : (inMethod step).outcome a =
      ((step.outcome ⟨m, a.pool⟩).1, { a with
        pool := (step.outcome ⟨m, a.pool⟩).2.pool
        openMethod := some (step.outcome ⟨m, a.pool⟩).2.method }) := by
  obtain ⟨⟩ := a
  cases h
  rfl

/-- The open method is dropped before it is closed. -/
lemma endMethod_eq_ok (h : endMethod.outcome a = (.ok (), a')) :
    ∃ m closed pool, a.openMethod = some m ∧
      (m.close a.scope a.version).outcome a.pool = (.ok closed, pool) ∧
      a' = { a with pool, openMethod := none, methods := a.methods.push closed } := by
  obtain ⟨_, _, hget, h⟩ := bind_eq_ok.mp h
  cases hget
  split at h
  · cases h
  · rename_i m hopen
    obtain ⟨_, _, hdrop, h⟩ := bind_eq_ok.mp h
    cases hdrop
    obtain ⟨closed, _, hclose, h⟩ := bind_eq_ok.mp h
    rcases houtcome : (m.close a.scope a.version).outcome a.pool with ⟨result, pool⟩
    rw [outcome_constants] at hclose
    simp only [houtcome] at hclose
    cases hclose
    cases h
    exact ⟨m, closed, pool, hopen, houtcome, rfl⟩

lemma endMethod_eq_error {e : Error} (h : endMethod.outcome a = (.error e, a')) :
    a.Grown a' ∨ Grown { a with openMethod := none } a' := by
  rcases bind_eq_error.mp h with h | ⟨_, _, hget, h⟩
  · cases h
  cases hget
  split at h
  · cases h
    exact .inl (.refl _)
  · rcases bind_eq_error.mp h with h | ⟨_, _, hdrop, h⟩
    · cases h
    cases hdrop
    exact .inr (FailsGrown.bind (.constants fun _ => MethodBody.keeps_close _ _ _)
      (fun _ => .modify _) _ e a' h)

namespace Accounts

lemma dropped (h : Accounts notes a) : Accounts notes { a with openMethod := none } := by
  refine ⟨h.recorded, fun m hm => ?_⟩
  cases hm

lemma beginMethod {flags : MethodFlags} {name descriptor : String} (h : Accounts notes a)
    (hrun : (beginMethod flags name descriptor).outcome a = (.ok (), a')) :
    Accounts (notes.record a (.beginMethod flags name descriptor)) a' := by
  obtain ⟨m, pool, hstart, rfl⟩ := beginMethod_eq_ok hrun
  have hext := MethodBody.keeps_start flags name descriptor a.pool (.refl a.pool)
  rw [hstart] at hext
  have hgrown := h.grown ⟨pool, hext, rfl⟩
  refine ⟨{ hgrown.recorded with }, fun other hother => ?_⟩
  cases hother
  exact ⟨_, rfl, MethodBuilder.drafts_start hstart⟩

lemma endMethod (h : Accounts notes a) (hrun : endMethod.outcome a = (.ok (), a')) :
    Accounts (notes.record a .endMethod) a' := by
  obtain ⟨m, closed, pool, hopen, hclose, rfl⟩ := endMethod_eq_ok hrun
  obtain ⟨note, hnote, hdrafts⟩ := h.opened m hopen
  obtain ⟨hext, hrecorded⟩ := hdrafts.close hclose
  have hgrown := h.dropped.grown ⟨pool, hext, rfl⟩
  have hadded := hgrown.addMethod hrecorded
  rw [ClassNotes.record, hnote]
  refine ⟨{ hadded.recorded with }, fun other hother => ?_⟩
  cases hother

/-- A method that is built on stays the open one. -/
lemma built {note : MethodNote} {s : MethodBuilder} (h : Accounts notes a)
    (hext : a.pool.Extends s.pool) (hdrafts : MethodBuilder.Drafts note s) :
    Accounts { notes with opened := some note }
      { a with pool := s.pool, openMethod := some s.method } := by
  have hgrown := h.grown ⟨s.pool, hext, rfl⟩
  refine ⟨{ hgrown.recorded with }, fun m hm => ?_⟩
  cases hm
  exact ⟨note, rfl, hdrafts⟩

end Accounts

/-- A call of the builder adds its references if it succeeds, and changes nothing that was asked for
if it fails. -/
lemma Accounts.build {call : BuilderCall} (h : Accounts notes a) (hrange : call.InRange) :
    Accounts (notes.after a (.build call)) ((inMethod call.run).outcome a).2 := by
  rw [ClassNotes.after, AssemblerCall.run]
  cases hopen : a.openMethod with
  | none =>
    rw [outcome_inMethod_none _ hopen]
    exact h
  | some m =>
    obtain ⟨note, hnote, hdrafts⟩ := h.opened m hopen
    have hext := BuilderCall.attempt (s := ⟨m, a.pool⟩) (MethodBuilder.stable_extends a.pool) call
      hrange (.refl a.pool)
    have hkept := BuilderCall.attempt (MethodBuilder.Drafts.stable note) call hrange hdrafts
    rw [outcome_inMethod_some _ hopen]
    rcases hcall : call.run.outcome ⟨m, a.pool⟩ with ⟨e | _, s⟩
    · rw [hcall] at hext hkept
      have hbuilt := h.built hext hkept
      rwa [← hnote] at hbuilt
    · rw [hcall] at hext
      simp only [ClassNotes.record, hopen, hnote]
      exact h.built hext (hdrafts.call hrange hcall)

/-- After any call the assembler accounts for the calls that succeeded so far. -/
theorem Accounts.step {call : AssemblerCall} (h : Accounts notes a) (hrange : call.InRange) :
    Accounts (notes.after a call) (call.run.outcome a).2 := by
  have houtcome : ∀ call : AssemblerCall,
      (∀ a', call.run.outcome a = (.ok (), a') → Accounts (notes.record a call) a') →
      FailsGrown call.run → Accounts (notes.after a call) (call.run.outcome a).2 := by
    intro call hok herror
    rw [ClassNotes.after]
    rcases hrun : call.run.outcome a with ⟨e | _, a'⟩
    · exact h.grown (herror a e a' hrun)
    · exact hok a' hrun
  cases call with
  | constant request =>
    have hgrows : Grows (AssemblerCall.constant request).run := (Grows.issue request).map _
    exact houtcome _ (fun _ hrun => h.grown (hgrows.of_ok hrun)) (.of_grows hgrows)
  | implement name => exact houtcome _ (fun _ => h.implement) (failsGrown_implement name)
  | nameSource name => exact houtcome _ (fun _ => h.nameSource) (failsGrown_nameSource name)
  | declareField flags name descriptor =>
    exact houtcome _ (fun _ => h.declareField) (failsGrown_declareField flags name descriptor)
  | declareConstant flags name descriptor value =>
    exact houtcome _ (fun _ => h.declareConstant)
      (failsGrown_declareConstant flags name descriptor value)
  | declareMethod flags name descriptor =>
    exact houtcome _ (fun _ => h.declareMethod) (failsGrown_declareMethod flags name descriptor)
  | beginMethod flags name descriptor =>
    exact houtcome _ (fun _ => h.beginMethod) (failsGrown_beginMethod flags name descriptor)
  | build call => exact h.build hrange
  | endMethod =>
    rw [ClassNotes.after]
    rcases hrun : AssemblerCall.endMethod.run.outcome a with ⟨e | _, a'⟩
    · -- A method that cannot be closed is dropped.
      rcases endMethod_eq_error hrun with hgrown | hgrown
      · exact h.grown hgrown
      · exact h.dropped.grown hgrown
    · exact h.endMethod hrun

/-- The assembler after some calls, of which any may fail. -/
def attempt (a : Assembler) (calls : List AssemblerCall) : Assembler :=
  calls.foldl (fun a call => (call.run.outcome a).2) a

theorem Accounts.attempt {calls : List AssemblerCall} (h : Accounts notes a)
    (hrange : ∀ call ∈ calls, call.InRange) :
    Accounts (notes.along calls a) (a.attempt calls) := by
  induction calls generalizing notes a with
  | nil => exact h
  | cons call calls ih =>
    exact ih (h.step (hrange call (by simp))) fun other hother => hrange other (by simp [hother])

lemma accounts_start {version : Version} {hierarchy : Hierarchy} {flags : ClassFlags}
    {thisClass superClass : String}
    (h : start version hierarchy flags thisClass superClass = .ok a) :
    Accounts (.start thisClass superClass) a := by
  unfold start at h
  extract_lets this super header at h
  split at h
  · cases h
  · rename_i thisIndex superIndex pool hheader
    obtain ⟨_, middle, hthis, hheader⟩ := bind_eq_ok.mp hheader
    obtain ⟨_, _, hsuper, hheader⟩ := bind_eq_ok.mp hheader
    cases hheader
    cases h
    have hext := (ConstantPool.Adds.issue (.classRef _)).grows hsuper
    have hthis := (ConstantPool.holds_of_classRef hthis).mono hext
    have hsuper := ConstantPool.holds_of_classRef hsuper
    rw [ClassName.canonical_canonical] at hthis hsuper
    refine ⟨⟨rfl, hthis, hsuper, .nil, .nil, .nil, .nil, fun _ => rfl, fun name hname => ?_⟩,
      fun m hm => ?_⟩
    · cases hname
    · cases hm

/-- However many of its calls fail, an assembler that gives a class in the end gives the one that was
asked for. Its methods are those that were closed or declared without code and its fields those that
were declared, in their order. The names, descriptors and attributes of all members are found under
the indices that the class has for them, as are the class, its superclass, its interfaces, each once,
and the source file that was named last. In the code of the methods every operand that was written
for a constant still stands for that constant, unless the instruction was blanked. -/
theorem classFile_recorded {version : Version} {hierarchy : Hierarchy} {flags : ClassFlags}
    {thisClass superClass : String} {calls : List AssemblerCall} {file : ClassFile}
    (hstart : start version hierarchy flags thisClass superClass = .ok a)
    (hrange : ∀ call ∈ calls, call.InRange)
    (hfile : (a.attempt calls).classFile = .ok file) :
    ((ClassNotes.start thisClass superClass).along calls a).Recorded (a.attempt calls).pool file := by
  obtain ⟨_, rfl⟩ := classFile_eq_ok_iff.mp hfile
  have haccounts := (accounts_start hstart).attempt hrange
  exact haccounts.recorded

/-- A class with a method that cannot be closed and another one that has code after its end. -/
def boxCalls : List AssemblerCall := [
  .implement "java.lang.Runnable",
  .nameSource "Old.java",
  .implement "java/lang/Runnable",
  .declareField ⟨0x0002⟩ "size" "I",
  .declareField ⟨0x0002⟩ "size" "Q", -- there is no such type
  .declareConstant ⟨0x0018⟩ "limit" "J" (.long 7),
  .endMethod, -- no method is open
  .declareMethod ⟨0x0401⟩ "run" "()V",
  .beginMethod ⟨0x0009⟩ "make" "()V",
  .build (.onClass .new "java.lang.Object"),
  .build (.emit .pop []),
  .build (.literalString "text"),
  .build (.accessField .putstatic "demo.Box" "name" "Q"),
  .build (.emit .pop []),
  .build (.emit .returnVoid []),
  .build (.literalLong 1000),
  .build (.emit .pop2 []),
  .build (.emit .returnVoid []),
  .endMethod,
  .beginMethod ⟨0x0009⟩ "stop" "()V",
  .endMethod, -- it has no code
  .nameSource "Box.java"]

/-- What of that succeeds. -/
def boxNotes : ClassNotes where
  thisClass := "demo/Box"
  superClass := "java/lang/Object"
  interfaces := ["java/lang/Runnable"]
  source := some "Box.java"
  fields := [⟨⟨0x0002⟩, "size", "I", none⟩, ⟨⟨0x0018⟩, "limit", "J", some (.long 7)⟩]
  methods := [⟨⟨0x0401⟩, "run", "()V", false, []⟩, ⟨⟨0x0009⟩, "make", "()V", true,
    [(0, .classRef "java.lang.Object"), (4, .stringRef "text"), (8, .long 1000)]⟩]
  opened := some ⟨⟨0x0009⟩, "stop", "()V", true, []⟩

def boxHeader : Step ConstantPool (PoolIndex × PoolIndex) := do
  let thisIndex ← ConstantPool.classRef (ClassName.canonical "demo.Box")
  let superIndex ← ConstantPool.classRef (ClassName.canonical "java.lang.Object")
  return (thisIndex, superIndex)

def boxClass : Assembler where
  version := .java8
  scope := ⟨ClassName.canonical "demo.Box", ClassName.canonical "java.lang.Object", ⟨[]⟩⟩
  flags := ⟨0x0021⟩
  thisIndex := 2
  superIndex := 4
  interfaces := #[]
  fields := #[]
  methods := #[]
  attributes := []
  pool := (boxHeader.outcome .empty).2
  openMethod := none

lemma start_boxClass :
    start .java8 ⟨[]⟩ ⟨0x0021⟩ "demo.Box" "java.lang.Object" = .ok boxClass := by
  have hheader : boxHeader.outcome .empty = (.ok (2, 4), boxClass.pool) :=
    Prod.ext (by decide +kernel) rfl
  unfold start
  extract_lets this super header
  rw [show header.outcome .empty = _ from hheader]
  rfl

theorem boxClass_recorded :
    start .java8 ⟨[]⟩ ⟨0x0021⟩ "demo.Box" "java.lang.Object" = .ok boxClass ∧
      (∀ call ∈ boxCalls, call.InRange) ∧
      (boxClass.attempt boxCalls).classFile = .ok (boxClass.attempt boxCalls).soFar ∧
      boxNotes.Recorded (boxClass.attempt boxCalls).pool (boxClass.attempt boxCalls).soFar := by
  have hrange : ∀ call ∈ boxCalls, call.InRange := by decide
  have hopen : (boxClass.attempt boxCalls).openMethod.isNone = true := by decide +kernel
  have hfile := classFile_eq_ok_iff.mpr ⟨Option.isNone_iff_eq_none.mp hopen, rfl⟩
  have hnotes : (ClassNotes.start "demo.Box" "java.lang.Object").along boxCalls boxClass =
      boxNotes := by
    decide +kernel
  have hrecorded := classFile_recorded start_boxClass hrange hfile
  rw [hnotes] at hrecorded
  exact ⟨start_boxClass, hrange, hfile, hrecorded⟩

end Assembler
end ClassAssembly
