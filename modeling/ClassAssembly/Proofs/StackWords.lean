import ClassAssembly.Proofs.CodeWalk
import ClassAssembly.Proofs.EntryFrame
import ClassAssembly.Proofs.StepEnds
import Mathlib.Algebra.GroupWithZero.Nat

/-! How many words an instruction takes from the stack and puts on it. Whenever it is executed, the
stack holds at least the words that it pops, and its depth changes by exactly the difference. -/
namespace ClassAssembly

open VerificationType (ofClass ofFieldType ofSlot)

lemma words_of_accepts {slot : Slot} {t : VerificationType} (h : slot.accepts t) :
    width t = slot.words := by
  cases slot <;> cases t <;> first | rfl | cases h

lemma Frame.depth_eq (f : Frame) : f.depth = (f.stack.map width).sum := rfl

lemma words_slot (t : FieldType) : t.slot.words = width t := by
  obtain ⟨_ | n, element⟩ := t
  · cases element with
    | base type => cases type <;> rfl
    | object name => rfl
  · rfl

namespace Effect

/-- The local variable that is read or written, given the first operand, and the number of its
slots. -/
def local? (effect : Effect) (first : Int) : Option (Int × Nat) :=
  match effect with
  | .load slot index | .store slot index => some ((index.map Int.ofNat).getD first, slot.words)
  | .increment => some (first, 1)
  | _ => none

/-- Numbers of words popped and pushed by an access to the field that an operand refers to. -/
def fieldWords (pool : ConstantPool) (operand : Int) (count : Nat → Nat × Nat) :
    Option (Nat × Nat) := do
  let ref ← pool.memberRef? (UInt16.ofInt operand)
  match FieldType.parse ref.descriptor with
  | .ok t => some (count (width t))
  | .error _ => none

lemma exists_of_fieldWords {pool : ConstantPool} {operand : Int} {count : Nat → Nat × Nat}
    {words : Nat × Nat} (h : fieldWords pool operand count = some words) :
    ∃ ref t, pool.memberRef? (UInt16.ofInt operand) = some ref ∧
      FieldType.parse ref.descriptor = .ok t ∧ count (width t) = words := by
  obtain ⟨ref, href, h⟩ := Option.bind_eq_some_iff.mp h
  split at h
  · exact ⟨ref, _, href, by assumption, Option.some.inj h⟩
  · cases h

/-- Numbers of words popped and pushed by a call of the method that an operand refers to. -/
def callWords (pool : ConstantPool) (operand : Int) (receiver : Bool) : Option (Nat × Nat) := do
  let ref ← pool.memberRef? (UInt16.ofInt operand)
  match MethodDescriptor.parse ref.descriptor with
  | .ok d => some (d.parameterWords receiver, d.resultWords)
  | .error _ => none

lemma exists_of_callWords {pool : ConstantPool} {operand : Int} {receiver : Bool}
    {words : Nat × Nat} (h : callWords pool operand receiver = some words) :
    ∃ ref d, pool.memberRef? (UInt16.ofInt operand) = some ref ∧
      MethodDescriptor.parse ref.descriptor = .ok d ∧
        (d.parameterWords receiver, d.resultWords) = words := by
  obtain ⟨ref, href, h⟩ := Option.bind_eq_some_iff.mp h
  split at h
  · exact ⟨ref, _, href, by assumption, Option.some.inj h⟩
  · cases h

/-- Numbers of words popped and pushed. Where they hang on a descriptor, that is looked up among the
constants. -/
def wordsIn (effect : Effect) (pool : ConstantPool) (first second : Int) : Option (Nat × Nat) :=
  match effect with
  | .getStatic => fieldWords pool first fun words => (0, words)
  | .putStatic => fieldWords pool first fun words => (words, 0)
  | .getField => fieldWords pool first fun words => (1, words)
  | .putField => fieldWords pool first fun words => (1 + words, 0)
  | .invoke => callWords pool first true
  | .invokeStatic => callWords pool first false
  | .newMultiArray => some (second.toNat, 1)
  | effect => effect.words

lemma wordsIn_of_words {effect : Effect} {words : Nat × Nat} (h : effect.words = some words)
    (pool : ConstantPool) (first second : Int) : effect.wordsIn pool first second = some words := by
  cases effect <;> first | exact h | cases h

/-- What constants say of an effect, they go on to say when more are added. -/
lemma wordsIn_mono {effect : Effect} {pool later : ConstantPool} {first second : Int}
    {words : Nat × Nat} (hext : pool.Extends later)
    (h : effect.wordsIn pool first second = some words) :
    effect.wordsIn later first second = some words := by
  cases effect
  case getStatic | putStatic | getField | putField =>
    rw [wordsIn] at h ⊢
    obtain ⟨ref, t, href, hparse, rfl⟩ := exists_of_fieldWords h
    simp [fieldWords, hext.memberRef? href, hparse]
  case invoke | invokeStatic =>
    rw [wordsIn] at h ⊢
    obtain ⟨ref, d, href, hparse, rfl⟩ := exists_of_callWords h
    simp [callWords, hext.memberRef? href, hparse]
  all_goals exact h

/-- An instruction leaves at most two words more than it finds. -/
lemma pushed_le {effect : Effect} {pool : ConstantPool} {first second : Int} {popped pushed : Nat}
    (h : effect.wordsIn pool first second = some (popped, pushed)) : pushed ≤ popped + 2 := by
  have hslot : ∀ slot : Slot, slot.words ≤ 2 := by
    intro slot
    cases slot <;> decide
  have htype : ∀ t : FieldType, width t ≤ 2 := fun t => words_slot t ▸ hslot t.slot
  cases effect
  case fixed pops result =>
    cases h
    cases result with
    | none => exact Nat.zero_le _
    | some slot => exact Nat.le_trans (hslot slot) (Nat.le_add_left 2 _)
  case load slot _ =>
    cases h
    exact Nat.le_trans (hslot slot) (Nat.le_add_left 2 _)
  case getStatic | putStatic | getField | putField =>
    rw [wordsIn] at h
    obtain ⟨_, t, _, _, hcount⟩ := exists_of_fieldWords h
    have := htype t
    cases hcount
    omega
  case invoke | invokeStatic =>
    obtain ⟨_, d, _, _, hcount⟩ := exists_of_callWords h
    have hresult : d.resultWords ≤ 2 := by
      rw [MethodDescriptor.resultWords]
      cases d.returns with
      | none => exact Nat.zero_le 2
      | some t => exact htype t
    cases hcount
    omega
  all_goals
    cases h
    omega

end Effect

lemma Opcode.plain_of_traits {op : Opcode} {e : Error} (h : op.traits = .error e) : e.Plain := by
  unfold Opcode.traits at h
  split at h
  · cases h
  · cases h
    trivial

/-- Numbers of words that an instruction pops and pushes. -/
def Instruction.words? (insn : Instruction) (pool : ConstantPool) : Option (Nat × Nat) :=
  match insn.opcode.traits with
  | .ok traits => traits.effect.wordsIn pool insn.first insn.second
  | .error _ => none

lemma Instruction.words?_eq {insn : Instruction} {traits : OpcodeTraits}
    (h : insn.opcode.traits = .ok traits) (pool : ConstantPool) :
    insn.words? pool = traits.effect.wordsIn pool insn.first insn.second := by
  unfold words?
  rw [h]

lemma Instruction.words?_mono {insn : Instruction} {pool later : ConstantPool} {words : Nat × Nat}
    (hext : pool.Extends later) (h : insn.words? pool = some words) :
    insn.words? later = some words := by
  unfold words? at h ⊢
  split at h
  · exact Effect.wordsIn_mono hext h
  · cases h

lemma Instruction.pushed_le {insn : Instruction} {pool : ConstantPool} {popped pushed : Nat}
    (h : insn.words? pool = some (popped, pushed)) : pushed ≤ popped + 2 := by
  unfold words? at h
  split at h
  · exact Effect.pushed_le h
  · cases h

namespace Machine

/-- The step from one frame to another pops and pushes so many words. Beside that it only adds
constants, and keeps the number of local variables. -/
structure Shift (popped pushed : Nat) (m m' : Machine) : Prop where
  pool : m.pool.Extends m'.pool
  named : m.pool.WellNamed → m'.pool.WellNamed
  size : m'.frame.locals.size = m.frame.locals.size
  enough : popped ≤ m.frame.depth
  depth : m'.frame.depth + popped = m.frame.depth + pushed

namespace Shift

variable {popped popped' pushed pushed' : Nat} {m m₁ m₂ : Machine}

theorem refl (m : Machine) : Shift 0 0 m m := ⟨.refl _, id, rfl, Nat.zero_le _, rfl⟩

/-- First words are popped, and then more are popped and some are pushed. -/
theorem trans (h : Shift popped 0 m m₁) (h' : Shift popped' pushed m₁ m₂) :
    Shift (popped + popped') pushed m m₂ where
  pool := h.pool.trans h'.pool
  named := h'.named ∘ h.named
  size := h'.size.trans h.size
  enough := by
    have := h.depth
    have := h'.enough
    omega
  depth := by
    have := h.depth
    have := h'.depth
    omega

lemma congr (h : Shift popped pushed m m₁) (hpopped : popped = popped') (hpushed : pushed = pushed') :
    Shift popped' pushed' m m₁ := hpopped ▸ hpushed ▸ h

end Shift

/-- A step on the constants, with what is known about its values. -/
lemma ends_constants {α : Type} {texts : List String} {step : Step ConstantPool α} {Good : α → Prop}
    (hr : ConstantPool.Repeatable step) (ha : ConstantPool.Adds texts step)
    (hgood : ∀ {pool later a}, step.outcome pool = (.ok a, later) → Good a) (m : Machine) :
    (constants step).Ends m (fun a m' => Shift 0 0 m m' ∧ Good a) Error.Ordinary := by
  obtain ⟨frame, pool⟩ := m
  have hends := hr.ends ha pool
  rcases hstep : step.outcome pool with ⟨e | a, later⟩
  · refine .of_error (t := ⟨frame, later⟩) ?_ (hends.error _ _ hstep)
    rw [constants, Step.outcome_ofOutcome]
    simp only [hstep]
  · obtain ⟨_, hext, hnamed⟩ := hends.ok _ _ hstep
    refine .of_ok (t := ⟨frame, later⟩) ?_ ⟨⟨hext, hnamed, rfl, Nat.zero_le _, rfl⟩, hgood hstep⟩
    rw [constants, Step.outcome_ofOutcome]
    simp only [hstep]

lemma adds_ofClass (name : ClassName) :
    ConstantPool.Adds [ClassName.canonical name] (ofClass name) :=
  (ConstantPool.Adds.classRef (by simp)).bind fun _ => .pure _

lemma ends_ofClass (name : ClassName) (m : Machine) :
    (constants (ofClass name)).Ends m (fun t m' => Shift 0 0 m m' ∧ width t = 1) Error.Ordinary := by
  apply ends_constants (VerificationType.repeatable_ofClass name) (adds_ofClass name)
  intro pool later t h
  obtain ⟨i, rfl, _⟩ := VerificationType.ofClass_eq_ok h
  rfl

lemma ends_ofSlot (slot : Slot) (m : Machine) :
    (constants (ofSlot slot)).Ends m (fun t m' => Shift 0 0 m m' ∧ width t = slot.words)
      Error.Ordinary := by
  cases slot
  case reference => exact ends_ofClass .object m
  all_goals exact .of_ok rfl ⟨.refl m, rfl⟩

lemma adds_ofFieldType (t : FieldType) : ∃ texts, ConstantPool.Adds texts (ofFieldType t) := by
  unfold ofFieldType
  split
  · exact ⟨_, adds_ofClass _⟩
  · cases t.slot
    case reference => exact ⟨_, adds_ofClass _⟩
    all_goals exact ⟨[], .pure _⟩

lemma ends_ofFieldType (t : FieldType) (m : Machine) :
    (constants (ofFieldType t)).Ends m (fun v m' => Shift 0 0 m m' ∧ width v = width t)
      Error.Ordinary := by
  obtain ⟨texts, hadds⟩ := adds_ofFieldType t
  exact ends_constants (Site.repeatable_ofFieldType t) hadds VerificationType.width_ofFieldType m

lemma parameterWords_eq (d : MethodDescriptor) (receiver : Bool) :
    d.parameterWords receiver =
      ((d.parameters.map FieldType.slot).map Slot.words).sum + receiver.toNat := by
  have hfold : ∀ (types : List FieldType) (n : Nat),
      types.foldl (fun n t => n + width t) n =
        n + ((types.map FieldType.slot).map Slot.words).sum := by
    intro types
    induction types with
    | nil => simp
    | cons t types ih =>
      intro n
      simp [ih, words_slot, Nat.add_assoc]
  rw [MethodDescriptor.parameterWords, hfold, Nat.zero_add]

namespace Site

variable {site : Site}

lemma ends_pushEach (types : List VerificationType) (m : Machine) :
    (pushEach types).Ends m (fun _ m' => Shift 0 (types.map width).sum m m') Error.Ordinary := by
  refine .of_ok rfl ⟨.refl _, id, rfl, Nat.zero_le _, ?_⟩
  simp [Frame.depth_eq, Nat.add_comm]

lemma ends_push (t : VerificationType) (m : Machine) :
    (push t).Ends m (fun _ m' => Shift 0 (width t) m m') Error.Ordinary :=
  (ends_pushEach [t] m).mono fun _ _ h => h.congr rfl (by simp)

lemma ends_pop (m : Machine) :
    site.pop.Ends m (fun t m' => Shift (width t) 0 m m') Error.Ordinary := by
  obtain ⟨⟨locals, _ | ⟨t, stack⟩⟩, pool⟩ := m
  · exact .of_error rfl trivial
  · refine .of_ok rfl ⟨.refl _, id, rfl, ?_, ?_⟩ <;> simp [Frame.depth_eq]
    omega

lemma ends_popNarrow (m : Machine) :
    site.popNarrow.Ends m (fun t m' => Shift 1 0 m m' ∧ width t = 1) Error.Ordinary := by
  refine (ends_pop m).bind fun t m₁ h => ?_
  split
  · rename_i hwidth
    exact .pure ⟨h.congr hwidth rfl, hwidth⟩
  · exact .throw trivial

lemma ends_popAs (slot : Slot) (m : Machine) :
    (site.popAs slot).Ends m (fun t m' => Shift slot.words 0 m m' ∧ slot.accepts t) Error.Ordinary := by
  refine (ends_pop m).bind fun t m₁ h => ?_
  split
  · rename_i haccepts
    exact .pure ⟨h.congr (words_of_accepts haccepts) rfl, haccepts⟩
  · exact .throw trivial

lemma ends_popAll (slots : List Slot) (m : Machine) :
    (site.popAll slots).Ends m (fun _ m' => Shift (slots.map Slot.words).sum 0 m m')
      Error.Ordinary := by
  have hloop : ∀ (slots : List Slot) (m : Machine),
      (slots.forM fun slot => discard (site.popAs slot)).Ends m
        (fun _ m' => Shift (slots.map Slot.words).sum 0 m m') Error.Ordinary := by
    intro slots
    induction slots with
    | nil => exact fun m => .pure (.refl m)
    | cons slot slots ih =>
      intro m
      rw [List.forM]
      refine (ends_popAs slot m).discarded.bind fun _ m₁ hfirst => ?_
      obtain ⟨_, h, _⟩ := hfirst
      exact (ih m₁).mono fun _ m₂ h' => by simpa using h.trans h'
  exact (hloop slots.reverse m).mono fun _ m' h => h.congr (by simp) rfl

lemma ends_readLocal {E : Error → Prop} (index : Int) (m : Machine)
    (hindex : 0 ≤ index ∧ index < m.frame.locals.size ∨ E (.verification site.pc .invalidIndex)) :
    (site.readLocal index).Ends m (fun _ m' => Shift 0 0 m m') E := by
  apply Step.Ends.get
  cases index with
  | negSucc i => exact .throw (hindex.resolve_left fun h => by omega)
  | ofNat i =>
    simp only
    split
    · exact .pure (.refl m)
    · rename_i hlocal
      have hout := Array.getElem?_eq_none_iff.mp hlocal
      have hin : ¬(0 ≤ Int.ofNat i ∧ Int.ofNat i < m.frame.locals.size) := by
        rintro ⟨_, h⟩
        exact Nat.not_lt.mpr hout (Int.ofNat_lt.mp h)
      exact .throw (hindex.resolve_left hin)

lemma ends_writeLocal {E : Error → Prop} (index : Int) (t : VerificationType) (m : Machine)
    (hindex : 0 ≤ index ∧ index + width t ≤ m.frame.locals.size ∨
      E (.verification site.pc .invalidIndex)) :
    (site.writeLocal index t).Ends m (fun _ m' => Shift 0 0 m m') E := by
  obtain ⟨frame, pool⟩ := m
  cases index with
  | negSucc i => exact .throw (hindex.resolve_left fun h => by omega)
  | ofNat i =>
    cases hstore : frame.store? i t with
    | none =>
      have houtcome : (site.writeLocal (.ofNat i) t).outcome ⟨frame, pool⟩ =
          (.error (.verification site.pc .invalidIndex), ⟨frame, pool⟩) := by
        simp only [writeLocal, Step.outcome_ofOutcome, hstore]
      have hin : ¬(0 ≤ Int.ofNat i ∧ Int.ofNat i + width t ≤ frame.locals.size) := by
        rintro ⟨_, h⟩
        have hle : i + width t ≤ frame.locals.size := Int.ofNat_le.mp h
        rw [Frame.store?, if_pos hle] at hstore
        cases hstore
      exact .of_error houtcome (hindex.resolve_left hin)
    | some frame' =>
      have houtcome : (site.writeLocal (.ofNat i) t).outcome ⟨frame, pool⟩ =
          (.ok (), ⟨frame', pool⟩) := by
        simp only [writeLocal, Step.outcome_ofOutcome, hstore]
      obtain ⟨hstack, hsize⟩ := Frame.stack_store? hstore
      exact .of_ok houtcome
        ⟨.refl _, id, hsize, Nat.zero_le _, by simp [Frame.depth_eq, hstack]⟩

lemma ends_constant (operand : Int) (m : Machine) :
    (site.constant operand).Ends m (fun _ m' => Shift 0 0 m m') Error.Ordinary := by
  apply Step.Ends.get
  split
  · exact .pure (.refl m)
  · exact .throw trivial

lemma ends_member (operand : Int) (m : Machine) :
    (site.member operand).Ends m (fun ref m' => Shift 0 0 m m' ∧
      m.pool.memberRef? (UInt16.ofInt operand) = some ref) Error.Ordinary := by
  apply Step.Ends.get
  split
  · exact .pure ⟨.refl m, by assumption⟩
  · exact .throw trivial

lemma ends_classIndex (operand : Int) (m : Machine) :
    (site.classIndex operand).Ends m (fun _ m' => Shift 0 0 m m') Error.Ordinary := by
  refine (ends_constant operand m).bind fun c m₁ h => ?_
  split
  · exact .pure h
  · exact .throw trivial

lemma ends_constantType (operand : Int) (m : Machine) :
    (site.constantType operand).Ends m (fun t m' => Shift 0 0 m m' ∧ width t = 1)
      Error.Ordinary := by
  refine (ends_constant operand m).bind fun c m₁ h => ?_
  split
  · exact .pure ⟨h, rfl⟩
  · exact .pure ⟨h, rfl⟩
  · exact (ends_ofClass _ m₁).mono fun t m₂ ⟨h', ht⟩ => ⟨h.trans h', ht⟩
  · exact (ends_ofClass _ m₁).mono fun t m₂ ⟨h', ht⟩ => ⟨h.trans h', ht⟩
  · exact .throw trivial

lemma ends_wideConstantType (operand : Int) (m : Machine) :
    (site.wideConstantType operand).Ends m (fun t m' => Shift 0 0 m m' ∧ width t = 2)
      Error.Ordinary := by
  refine (ends_constant operand m).bind fun c m₁ h => ?_
  split
  · exact .pure ⟨h, rfl⟩
  · exact .pure ⟨h, rfl⟩
  · exact .throw trivial

lemma ends_elementType (t : VerificationType) (m : Machine) :
    (site.elementType t).Ends m (fun t m' => Shift 0 0 m m' ∧ width t = 1) Error.Ordinary := by
  unfold elementType
  split
  · exact .pure ⟨.refl m, rfl⟩
  · apply Step.Ends.get
    split
    · exact ends_ofClass _ m
    · exact .throw trivial
  · exact .throw trivial

lemma ends_fieldType (operand : Int) (m : Machine) :
    (site.fieldType operand).Ends m (fun field m' => Shift 0 0 m m' ∧
      field.2.words = width field.1 ∧
      ∀ count, Effect.fieldWords m.pool operand count = some (count (width field.1)))
      Error.Ordinary := by
  refine (ends_member operand m).bind fun ref m₁ ⟨h, href⟩ => ?_
  split
  · rename_i t ht
    refine (ends_ofFieldType t m₁).bind fun v m₂ ⟨h', hv⟩ =>
      .pure ⟨h.trans h', ?_, fun count => ?_⟩
    · rw [words_slot, hv]
    · simp [Effect.fieldWords, href, ht, hv]
  · exact .throw trivial

lemma ends_methodType (operand : Int) (m : Machine) :
    (site.methodType operand).Ends m (fun method m' => Shift 0 0 m m' ∧
      ∀ receiver, Effect.callWords m.pool operand receiver =
        some (method.2.parameterWords receiver, method.2.resultWords)) Error.Ordinary := by
  refine (ends_member operand m).bind fun ref m₁ ⟨h, href⟩ => ?_
  split
  · rename_i d hd
    exact .pure ⟨h, fun receiver => by simp [Effect.callWords, href, hd]⟩
  · exact .throw trivial

lemma ends_initialized (t : VerificationType) (m : Machine) :
    (site.initialized t).Ends m (fun t m' => Shift 0 0 m m' ∧ width t = 1) Error.Ordinary := by
  unfold initialized
  split
  · exact ends_ofClass _ m
  · split
    · split
      · exact .pure ⟨.refl m, rfl⟩
      · exact .throw trivial
    · exact .throw trivial
  · exact .throw trivial

lemma depth_replace (frame : Frame) {old new : VerificationType} (h : width old = width new) :
    (frame.replace old new).depth = frame.depth := by
  simp only [Frame.depth_eq, Frame.replace, List.map_map]
  congr 1
  apply List.map_congr_left
  intro t _
  by_cases ht : t = old <;> simp [ht, h]

lemma ends_receive (method : String) (m : Machine) :
    (site.receive method).Ends m (fun _ m' => Shift 1 0 m m') Error.Ordinary := by
  refine (ends_popAs .reference m).bind fun receiver m₁ ⟨h, hreceiver⟩ => ?_
  split
  · refine (ends_initialized receiver m₁).bind fun t m₂ ⟨h', ht⟩ => ?_
    have hwidth : width receiver = width t := by rw [ht, words_of_accepts hreceiver]; rfl
    have hreplace : Shift 0 0 m₂ ⟨m₂.frame.replace receiver t, m₂.pool⟩ :=
      ⟨.refl _, id, by simp [Frame.replace], Nat.zero_le _, by rw [depth_replace _ hwidth]⟩
    exact .of_ok rfl (h.trans (h'.trans hreplace))
  · exact .pure h

lemma ends_pushResult (returns : Option FieldType) (m : Machine) :
    (pushResult returns).Ends m (fun _ m' => Shift 0 ((returns.map width).getD 0) m m')
      Error.Ordinary := by
  cases returns with
  | none => exact .pure (.refl m)
  | some t =>
    refine (ends_ofFieldType t m).bind fun v m₁ ⟨h, hv⟩ => ?_
    exact (ends_push v m₁).mono fun _ m₂ h' => (h.trans h').congr rfl (by simp [hv])

lemma ends_dupX2 (m : Machine) :
    site.dupX2.Ends m (fun _ m' => Shift 3 4 m m') Error.Ordinary := by
  refine (ends_popNarrow m).bind fun a m₁ ⟨h, ha⟩ => (ends_pop m₁).bind fun b m₂ h₁ => ?_
  split
  · rename_i hb
    refine (ends_popNarrow m₂).bind fun c m₃ ⟨h₂, hc⟩ => ?_
    exact (ends_pushEach _ m₃).mono fun _ m' h₃ =>
      (h.trans (h₁.trans (h₂.trans h₃))).congr (by simp [hb]) (by simp [ha, hb, hc])
  · rename_i hb
    have hwide : width b = 2 := (Frame.width_eq b).resolve_left hb
    exact (ends_pushEach _ m₂).mono fun _ m' h₂ =>
      (h.trans (h₁.trans h₂)).congr (by simp [hwide]) (by simp [ha, hwide])

lemma ends_dup2 (m : Machine) :
    site.dup2.Ends m (fun _ m' => Shift 2 4 m m') Error.Ordinary := by
  refine (ends_pop m).bind fun a m₁ h => ?_
  split
  · rename_i ha
    refine (ends_popNarrow m₁).bind fun b m₂ ⟨h₁, hb⟩ => ?_
    exact (ends_pushEach _ m₂).mono fun _ m' h₂ =>
      (h.trans (h₁.trans h₂)).congr (by simp [ha]) (by simp [ha, hb])
  · rename_i ha
    have hwide : width a = 2 := (Frame.width_eq a).resolve_left ha
    exact (ends_pushEach _ m₁).mono fun _ m' h₁ =>
      (h.trans h₁).congr (by simp [hwide]) (by simp [hwide])

lemma ends_dup2X1 (m : Machine) :
    site.dup2X1.Ends m (fun _ m' => Shift 3 5 m m') Error.Ordinary := by
  refine (ends_pop m).bind fun a m₁ h => (ends_popNarrow m₁).bind fun b m₂ ⟨h₁, hb⟩ => ?_
  split
  · rename_i ha
    refine (ends_popNarrow m₂).bind fun c m₃ ⟨h₂, hc⟩ => ?_
    exact (ends_pushEach _ m₃).mono fun _ m' h₃ =>
      (h.trans (h₁.trans (h₂.trans h₃))).congr (by simp [ha]) (by simp [ha, hb, hc])
  · rename_i ha
    have hwide : width a = 2 := (Frame.width_eq a).resolve_left ha
    exact (ends_pushEach _ m₂).mono fun _ m' h₂ =>
      (h.trans (h₁.trans h₂)).congr (by simp [hwide]) (by simp [hb, hwide])

lemma ends_dup2X2 (m : Machine) :
    site.dup2X2.Ends m (fun _ m' => Shift 4 6 m m') Error.Ordinary := by
  refine (ends_pop m).bind fun a m₁ h => ?_
  split
  · rename_i ha
    refine (ends_popNarrow m₁).bind fun b m₂ ⟨h₁, hb⟩ => (ends_pop m₂).bind fun c m₃ h₂ => ?_
    split
    · rename_i hc
      refine (ends_popNarrow m₃).bind fun d m₄ ⟨h₃, hd⟩ => ?_
      exact (ends_pushEach _ m₄).mono fun _ m' h₄ =>
        (h.trans (h₁.trans (h₂.trans (h₃.trans h₄)))).congr (by simp [ha, hc])
          (by simp [ha, hb, hc, hd])
    · rename_i hc
      have hwide : width c = 2 := (Frame.width_eq c).resolve_left hc
      exact (ends_pushEach _ m₃).mono fun _ m' h₃ =>
        (h.trans (h₁.trans (h₂.trans h₃))).congr (by simp [ha, hwide]) (by simp [ha, hb, hwide])
  · rename_i ha
    have hwide : width a = 2 := (Frame.width_eq a).resolve_left ha
    refine (ends_pop m₁).bind fun b m₂ h₁ => ?_
    split
    · rename_i hb
      refine (ends_popNarrow m₂).bind fun c m₃ ⟨h₂, hc⟩ => ?_
      exact (ends_pushEach _ m₃).mono fun _ m' h₃ =>
        (h.trans (h₁.trans (h₂.trans h₃))).congr (by simp [hwide, hb]) (by simp [hwide, hb, hc])
    · rename_i hb
      have hwide' : width b = 2 := (Frame.width_eq b).resolve_left hb
      exact (ends_pushEach _ m₂).mono fun _ m' h₂ =>
        (h.trans (h₁.trans h₂)).congr (by simp [hwide, hwide']) (by simp [hwide, hwide'])

/-- An instruction that uses no local variable pops and pushes the words that its effect tells. -/
lemma ends_perform_of_local?_eq_none {effect : Effect} {first : Int} (second : Int) (m : Machine)
    (hlocal : effect.local? first = none) (hwide : effect ≠ .wide) :
    (site.perform effect first second).Ends m (fun _ m' => ∃ popped pushed,
      effect.wordsIn m.pool first second = some (popped, pushed) ∧ Shift popped pushed m m')
      Error.Ordinary := by
  cases effect with
  | fixed pops result =>
    refine (ends_popAll pops m).bind fun _ m₁ h => ?_
    cases result with
    | none => exact .pure ⟨_, _, rfl, h⟩
    | some slot =>
      refine (ends_ofSlot slot m₁).bind fun t m₂ ⟨h₁, ht⟩ => ?_
      exact (ends_push t m₂).mono fun _ m' h₂ =>
        ⟨_, _, rfl, (h.trans (h₁.trans h₂)).congr (by simp [List.sum_eq_foldr]) (by simp [ht])⟩
  | load | store | increment => cases hlocal
  | null => exact (ends_push .null m).mono fun _ m' h => ⟨_, _, rfl, h⟩
  | constant =>
    refine (ends_constantType first m).bind fun t m₁ ⟨h, ht⟩ => ?_
    exact (ends_push t m₁).mono fun _ m' h₁ => ⟨_, _, rfl, (h.trans h₁).congr rfl ht⟩
  | wideConstant =>
    refine (ends_wideConstantType first m).bind fun t m₁ ⟨h, ht⟩ => ?_
    exact (ends_push t m₁).mono fun _ m' h₁ => ⟨_, _, rfl, (h.trans h₁).congr rfl ht⟩
  | element =>
    refine (ends_popAs .int m).discarded.bind fun _ m₁ ⟨_, h, _⟩ => ?_
    refine (ends_popAs .reference m₁).bind fun array m₂ ⟨h₁, _⟩ => ?_
    refine (ends_elementType array m₂).bind fun t m₃ ⟨h₂, ht⟩ => ?_
    exact (ends_push t m₃).mono fun _ m' h₃ =>
      ⟨_, _, rfl, (h.trans (h₁.trans (h₂.trans h₃))).congr rfl ht⟩
  | pop => exact (ends_popNarrow m).discarded.mono fun _ m' ⟨_, h, _⟩ => ⟨_, _, rfl, h⟩
  | pop2 =>
    refine (ends_pop m).bind fun t m₁ h => ?_
    split
    · rename_i ht
      exact (ends_popNarrow m₁).discarded.mono fun _ m' ⟨_, h₁, _⟩ =>
        ⟨_, _, rfl, (h.trans h₁).congr (by simp [ht]) rfl⟩
    · rename_i ht
      exact .pure ⟨_, _, rfl, h.congr ((Frame.width_eq t).resolve_left ht) rfl⟩
  | dup =>
    refine (ends_popNarrow m).bind fun a m₁ ⟨h, ha⟩ => ?_
    exact (ends_pushEach _ m₁).mono fun _ m' h₁ =>
      ⟨_, _, rfl, (h.trans h₁).congr rfl (by simp [ha])⟩
  | dupX1 =>
    refine (ends_popNarrow m).bind fun a m₁ ⟨h, ha⟩ => ?_
    refine (ends_popNarrow m₁).bind fun b m₂ ⟨h₁, hb⟩ => ?_
    exact (ends_pushEach _ m₂).mono fun _ m' h₂ =>
      ⟨_, _, rfl, (h.trans (h₁.trans h₂)).congr rfl (by simp [ha, hb])⟩
  | dupX2 => exact (ends_dupX2 m).mono fun _ m' h => ⟨_, _, rfl, h⟩
  | dup2 => exact (ends_dup2 m).mono fun _ m' h => ⟨_, _, rfl, h⟩
  | dup2X1 => exact (ends_dup2X1 m).mono fun _ m' h => ⟨_, _, rfl, h⟩
  | dup2X2 => exact (ends_dup2X2 m).mono fun _ m' h => ⟨_, _, rfl, h⟩
  | swap =>
    refine (ends_popNarrow m).bind fun a m₁ ⟨h, ha⟩ => ?_
    refine (ends_popNarrow m₁).bind fun b m₂ ⟨h₁, hb⟩ => ?_
    exact (ends_pushEach _ m₂).mono fun _ m' h₂ =>
      ⟨_, _, rfl, (h.trans (h₁.trans h₂)).congr rfl (by simp [ha, hb])⟩
  | getStatic =>
    refine (ends_fieldType first m).bind fun field m₁ ⟨h, hslot, hfield⟩ => ?_
    exact (ends_push field.1 m₁).mono fun _ m' h₁ =>
      ⟨_, _, hfield _, (h.trans h₁).congr rfl rfl⟩
  | getField =>
    refine (ends_fieldType first m).bind fun field m₁ ⟨h, hslot, hfield⟩ => ?_
    refine (ends_popAs .reference m₁).discarded.bind fun _ m₂ ⟨_, h₁, _⟩ => ?_
    exact (ends_push field.1 m₂).mono fun _ m' h₂ =>
      ⟨_, _, hfield _, (h.trans (h₁.trans h₂)).congr rfl rfl⟩
  | putStatic =>
    refine (ends_fieldType first m).bind fun field m₁ ⟨h, hslot, hfield⟩ => ?_
    exact (ends_popAs field.2 m₁).discarded.mono fun _ m' ⟨_, h₁, _⟩ =>
      ⟨_, _, hfield fun words => (words, 0), (h.trans h₁).congr (by simp [hslot]) rfl⟩
  | putField =>
    refine (ends_fieldType first m).bind fun field m₁ ⟨h, hslot, hfield⟩ => ?_
    refine (ends_popAs field.2 m₁).discarded.bind fun _ m₂ ⟨_, h₁, _⟩ => ?_
    exact (ends_popAs .reference m₂).discarded.mono fun _ m' ⟨_, h₂, _⟩ =>
      ⟨_, _, hfield fun words => (1 + words, 0), (h.trans (h₁.trans h₂)).congr
        (by rw [hslot, Nat.zero_add, Nat.add_comm]; rfl) rfl⟩
  | invoke =>
    refine (ends_methodType first m).bind fun method m₁ ⟨h, hmethod⟩ => ?_
    refine (ends_popAll _ m₁).bind fun _ m₂ h₁ => ?_
    refine (ends_receive method.1.name m₂).bind fun _ m₃ h₂ => ?_
    exact (ends_pushResult method.2.returns m₃).mono fun _ m' h₃ =>
      ⟨_, _, hmethod true, (h.trans (h₁.trans (h₂.trans h₃))).congr
        (by simp [parameterWords_eq]) rfl⟩
  | invokeStatic =>
    refine (ends_methodType first m).bind fun method m₁ ⟨h, hmethod⟩ => ?_
    refine (ends_popAll _ m₁).bind fun _ m₂ h₁ => ?_
    exact (ends_pushResult method.2.returns m₂).mono fun _ m' h₂ =>
      ⟨_, _, hmethod false, (h.trans (h₁.trans h₂)).congr (by simp [parameterWords_eq]) rfl⟩
  | new =>
    refine (ends_classIndex first m).discarded.bind fun _ m₁ ⟨_, h⟩ => ?_
    exact (ends_push _ m₁).mono fun _ m' h₁ => ⟨_, _, rfl, h.trans h₁⟩
  | newArray =>
    refine (ends_popAs .int m).discarded.bind fun _ m₁ ⟨_, h, _⟩ => ?_
    split
    · rename_i element _
      refine (ends_ofFieldType _ m₁).bind fun t m₂ ⟨h₁, ht⟩ => ?_
      exact (ends_push t m₂).mono fun _ m' h₂ =>
        ⟨_, _, rfl, (h.trans (h₁.trans h₂)).congr rfl ht⟩
    · exact .throw trivial
  | newObjectArray =>
    refine (ends_popAs .int m).discarded.bind fun _ m₁ ⟨_, h, _⟩ => ?_
    refine (ends_classIndex first m₁).bind fun element m₂ h₁ => ?_
    apply Step.Ends.get
    split
    · refine (ends_ofClass _ m₂).bind fun t m₃ ⟨h₂, ht⟩ => ?_
      exact (ends_push t m₃).mono fun _ m' h₃ =>
        ⟨_, _, rfl, (h.trans (h₁.trans (h₂.trans h₃))).congr rfl ht⟩
    · exact .throw trivial
  | newMultiArray =>
    refine (ends_classIndex first m).bind fun array m₁ h => ?_
    refine (ends_popAll _ m₁).bind fun _ m₂ h₁ => ?_
    exact (ends_push _ m₂).mono fun _ m' h₂ =>
      ⟨_, _, rfl, (h.trans (h₁.trans h₂)).congr (by simp [Slot.words]) rfl⟩
  | cast =>
    refine (ends_classIndex first m).bind fun target m₁ h => ?_
    refine (ends_popAs .reference m₁).discarded.bind fun _ m₂ ⟨_, h₁, _⟩ => ?_
    exact (ends_push _ m₂).mono fun _ m' h₂ =>
      ⟨_, _, rfl, (h.trans (h₁.trans h₂)).congr rfl rfl⟩
  | wide => exact absurd rfl hwide

/-- An instruction pops and pushes the words that its effect tells. It fails in an extraordinary way
only if it is no instruction by itself or its local variable is not there. -/
theorem ends_perform {E : Error → Prop} (effect : Effect) (first second : Int) (m : Machine)
    (hordinary : ∀ e : Error, e.Ordinary → E e)
    (hwide : effect = .wide → E (.unsupportedOpcode Opcode.wide.byte))
    (hlocal : ∀ index words, effect.local? first = some (index, words) →
      0 ≤ index ∧ index + words ≤ m.frame.locals.size ∨ E (.verification site.pc .invalidIndex)) :
    (site.perform effect first second).Ends m (fun _ m' => ∃ popped pushed,
      effect.wordsIn m.pool first second = some (popped, pushed) ∧ Shift popped pushed m m') E := by
  cases effect with
  | load slot index =>
    have hread : 0 ≤ (index.map Int.ofNat).getD first ∧
        (index.map Int.ofNat).getD first < m.frame.locals.size ∨
          E (.verification site.pc .invalidIndex) := by
      have hpos : 0 < slot.words := by cases slot <;> decide
      refine (hlocal _ _ rfl).imp_left fun hbounds => ?_
      omega
    refine (ends_readLocal _ m hread).bind fun t m₁ h => ?_
    split
    · rename_i haccepts
      refine ((ends_push t m₁).mono fun _ m' h₁ => ?_).mono_error hordinary
      exact ⟨_, _, rfl, (h.trans h₁).congr rfl (words_of_accepts haccepts)⟩
    · exact .throw (hordinary _ trivial)
  | store slot index =>
    refine ((ends_popAs slot m).mono_error hordinary).bind fun t m₁ ⟨h, haccepts⟩ => ?_
    have hwrite := hlocal _ _ rfl
    rw [← words_of_accepts haccepts, ← h.size] at hwrite
    exact (ends_writeLocal _ t m₁ hwrite).mono fun _ m' h₁ => ⟨_, _, rfl, h.trans h₁⟩
  | increment =>
    refine (ends_readLocal first m (hlocal _ _ rfl)).bind fun t m₁ h => ?_
    split
    · exact .throw (hordinary _ trivial)
    · exact .pure ⟨_, _, rfl, h⟩
  | wide => exact .throw (hwide rfl)
  | _ => exact (ends_perform_of_local?_eq_none second m rfl (by simp)).mono_error hordinary

/-- An executed instruction pops and pushes the words that its opcode and operands tell. -/
theorem ends_execute (insn : Instruction) (m : Machine) :
    (site.execute insn).Ends m (fun _ m' => ∃ popped pushed,
      insn.words? m.pool = some (popped, pushed) ∧ Shift popped pushed m m') Error.Plain := by
  rw [execute]
  refine Step.Ends.ofExcept_bind (fun traits htraits => ?_) fun _ => Opcode.plain_of_traits
  have hends : (site.perform traits.effect insn.first insn.second).Ends m _ Error.Plain :=
    ends_perform _ _ _ m (fun _ h => h.plain) (fun _ => trivial) fun _ _ _ => .inr trivial
  refine hends.mono ?_
  rintro _ m' ⟨popped, pushed, hwords, h⟩
  exact ⟨popped, pushed, (Instruction.words?_eq htraits m.pool).trans hwords, h⟩

/-- An instruction fails in an ordinary way if it is one by itself and its local variable is
there. -/
theorem ordinary_of_execute {insn : Instruction} {traits : OpcodeTraits} {m m' : Machine} {e : Error}
    (htraits : insn.opcode.traits = .ok traits) (hwide : traits.effect ≠ .wide)
    (hlocal : ∀ index words, traits.effect.local? insn.first = some (index, words) →
      0 ≤ index ∧ index + words ≤ m.frame.locals.size)
    (h : (site.execute insn).outcome m = (.error e, m')) : e.Ordinary := by
  rw [execute, htraits] at h
  have hends : (site.perform traits.effect insn.first insn.second).Ends m _ Error.Ordinary :=
    ends_perform _ _ _ m (fun _ h => h) (fun heq => absurd heq hwide)
      fun index words hindex => .inl (hlocal index words hindex)
  exact hends.error e m' h

end Site
end Machine
end ClassAssembly
