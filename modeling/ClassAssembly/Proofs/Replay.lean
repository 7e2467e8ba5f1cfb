import ClassAssembly.Frame.Execute
import ClassAssembly.Proofs.FrameForm

/-! An instruction that was executed once can be executed again with any larger constant pool, from
the same frame, and with code that differs only away from the sites where objects were made. It
gives the same frame again, leaves that pool alone, and the frame stays in proper form. -/
namespace ClassAssembly

open VerificationType (ofClass ofFieldType ofSlot)

namespace Machine

variable {α β : Type} {size : Nat} {Made : UInt16 → Prop}

/-- What is known once a step has led from one frame to another, with the value `a`. -/
structure Replayed (size : Nat) (Made : UInt16 → Prop) (again : Step Machine α) (Good : α → Prop)
    (f f' : Frame) (pool later : ConstantPool) (a : α) : Prop where
  grows : pool.Extends later
  named : pool.WellNamed → later.WellNamed
  formed : f'.Formed size Made
  good : Good a
  again : ∀ last, later.Extends last → again.outcome ⟨f, last⟩ = (.ok a, ⟨f', last⟩)

/-- Whenever `step` succeeds, `again` repeats it. -/
def Replays (size : Nat) (Made : UInt16 → Prop) (step again : Step Machine α) (Good : α → Prop) :
    Prop :=
  ∀ ⦃f f' : Frame⦄ ⦃pool later : ConstantPool⦄ ⦃a : α⦄, f.Formed size Made →
    step.outcome ⟨f, pool⟩ = (.ok a, ⟨f', later⟩) →
      Replayed size Made again Good f f' pool later a

namespace Replays

variable {step step' : Step Machine α} {next next' : α → Step Machine β} {Good : α → Prop}
  {Good' : β → Prop}

theorem pure {a : α} (h : Good a) :
    Replays size Made (pure a : Step Machine α) (pure a) Good := by
  intro f f' pool later b hf hstep
  cases hstep
  exact ⟨.refl _, id, hf, h, fun _ _ => rfl⟩

theorem throw (e : Error) : Replays size Made (throw e : Step Machine α) step' Good := by
  intro f f' pool later a _ hstep
  cases hstep

theorem bind (hs : Replays size Made step step' Good)
    (hn : ∀ a, Good a → Replays size Made (next a) (next' a) Good') :
    Replays size Made (step >>= next) (step' >>= next') Good' := by
  intro f f' pool later b hf h
  obtain ⟨a, ⟨g, middle⟩, hstep, hnext⟩ := Step.bind_eq_ok.mp h
  have h₁ := hs hf hstep
  have h₂ := hn a h₁.good h₁.formed hnext
  exact ⟨h₁.grows.trans h₂.grows, h₂.named ∘ h₁.named, h₂.formed, h₂.good, fun last hlast =>
    Step.bind_eq_ok.mpr ⟨a, _, h₁.again last (h₂.grows.trans hlast), h₂.again last hlast⟩⟩

theorem discard (hs : Replays size Made step step' Good) :
    Replays size Made (discard step) (discard step') fun _ => True := by
  rw [Step.discard_eq, Step.discard_eq]
  exact hs.bind fun _ _ => .pure trivial

theorem forM {f f' : α → Step Machine PUnit} (xs : List α)
    (h : ∀ x ∈ xs, Replays size Made (f x) (f' x) fun _ => True) :
    Replays size Made (xs.forM f) (xs.forM f') fun _ => True := by
  induction xs with
  | nil => exact .pure trivial
  | cons x xs ih => exact (h x (by simp)).bind fun _ _ => ih fun y hy => h y (by simp [hy])

/-- A look-up that finds the same thing again in every larger pool. -/
theorem query (ask : Machine → Option α) (next next' : α → Step Machine β)
    {step step' : Step Machine β}
    (hask : ∀ f pool later a, pool.Extends later → ask ⟨f, pool⟩ = some a →
      ask ⟨f, later⟩ = some a)
    (hnone : ∀ m, ask m = none → ∃ e, step.outcome m = (.error e, m))
    (hsome : ∀ m a, ask m = some a →
      step.outcome m = (next a).outcome m ∧ step'.outcome m = (next' a).outcome m)
    (hfound : ∀ f pool a, f.Formed size Made → ask ⟨f, pool⟩ = some a →
      Replays size Made (next a) (next' a) Good') :
    Replays size Made step step' Good' := by
  intro f f' pool later b hf h
  cases ha : ask ⟨f, pool⟩ with
  | none =>
    obtain ⟨e, he⟩ := hnone _ ha
    rw [he] at h
    cases h
  | some a =>
    rw [(hsome _ a ha).1] at h
    have hreplayed := hfound f pool a hf ha hf h
    refine ⟨hreplayed.grows, hreplayed.named, hreplayed.formed, hreplayed.good, ?_⟩
    intro last hlast
    rw [(hsome _ a (hask f pool last a (hreplayed.grows.trans hlast) ha)).2]
    exact hreplayed.again last hlast

theorem constants {step : Step ConstantPool α} (h : ConstantPool.Repeatable step)
    (hgood : ∀ pool later a, step.outcome pool = (.ok a, later) → Good a) :
    Replays size Made (Machine.constants step) (Machine.constants step) Good := by
  intro f f' pool later a hf hstep
  rcases hpool : step.outcome pool with ⟨result, pool'⟩
  simp only [Machine.constants, Step.outcome_ofOutcome, hpool] at hstep
  cases hstep
  obtain ⟨hgrows, hnamed⟩ := h.grows hpool
  refine ⟨hgrows, hnamed, hf, hgood _ _ _ hpool, ?_⟩
  intro last hlast
  simp [Machine.constants, h.again hpool hlast]

end Replays

/-- The second site stands at the same place of the same class, and its code is the same where
objects were made. -/
structure Site.Agrees (Made : UInt16 → Prop) (site site' : Site) : Prop where
  pc : site'.pc = site.pc
  scope : site'.scope = site.scope
  code : ∀ made : UInt16, Made made → ∀ k < 3,
    site'.code[made.toNat + k]? = site.code[made.toNat + k]?

namespace Site

variable {site site' : Site}

theorem Agrees.refl (site : Site) : site.Agrees Made site := ⟨rfl, rfl, fun _ _ _ _ => rfl⟩

lemma allowed_ofClass {name : ClassName} {pool later : ConstantPool} {t : VerificationType}
    (h : (ofClass name).outcome pool = (.ok t, later)) : t.Allowed Made := by
  obtain ⟨i, rfl, _⟩ := VerificationType.ofClass_eq_ok h
  rintro _ ⟨⟩

lemma repeatable_ofSlot (slot : Slot) : ConstantPool.Repeatable (ofSlot slot) := by
  cases slot
  case reference => exact VerificationType.repeatable_ofClass .object
  all_goals exact .pure _

lemma allowed_ofSlot {slot : Slot} {pool later : ConstantPool} {t : VerificationType}
    (h : (ofSlot slot).outcome pool = (.ok t, later)) : t.Allowed Made := by
  cases slot
  case reference => exact allowed_ofClass h
  all_goals
    cases h
    rintro _ ⟨⟩

lemma repeatable_ofFieldType (t : FieldType) : ConstantPool.Repeatable (ofFieldType t) := by
  unfold ofFieldType
  split
  · exact VerificationType.repeatable_ofClass _
  · exact repeatable_ofSlot _

lemma allowed_ofFieldType {t : FieldType} {pool later : ConstantPool} {v : VerificationType}
    (h : (ofFieldType t).outcome pool = (.ok v, later)) : v.Allowed Made := by
  unfold ofFieldType at h
  split at h
  · exact allowed_ofClass h
  · exact allowed_ofSlot h

lemma replays_ofClass (name : ClassName) :
    Replays size Made (constants (ofClass name)) (constants (ofClass name)) (·.Allowed Made) :=
  .constants (VerificationType.repeatable_ofClass name) fun _ _ _ => allowed_ofClass

lemma replays_ofFieldType (t : FieldType) :
    Replays size Made (constants (ofFieldType t)) (constants (ofFieldType t)) (·.Allowed Made) :=
  .constants (repeatable_ofFieldType t) fun _ _ _ => allowed_ofFieldType

lemma replays_pushEach (types : List VerificationType) (h : ∀ t ∈ types, t.Allowed Made) :
    Replays size Made (pushEach types) (pushEach types) fun _ => True := by
  intro f f' pool later a hf hstep
  cases hstep
  refine ⟨.refl _, id, hf.with_stack ?_, trivial, fun _ _ => rfl⟩
  intro t ht
  rcases List.mem_append.mp ht with ht | ht
  · exact h t (List.mem_reverse.mp ht)
  · exact hf.allowed_stack t ht

lemma replays_push {t : VerificationType} (h : t.Allowed Made) :
    Replays size Made (push t) (push t) fun _ => True :=
  replays_pushEach [t] (by simpa using h)

lemma replays_pop : Replays size Made site.pop site'.pop (·.Allowed Made) := by
  rintro ⟨locals, _ | ⟨t, stack⟩⟩ f' pool later a hf hstep
  · cases hstep
  · cases hstep
    have hall := hf.allowed_stack
    exact ⟨.refl _, id, hf.with_stack fun t ht => hall t (List.mem_cons_of_mem _ ht),
      hall _ List.mem_cons_self, fun _ _ => rfl⟩

lemma replays_popNarrow : Replays size Made site.popNarrow site'.popNarrow (·.Allowed Made) := by
  refine replays_pop.bind fun t ht => ?_
  split
  · exact .pure ht
  · exact .throw _

lemma replays_popAs (slot : Slot) :
    Replays size Made (site.popAs slot) (site'.popAs slot)
      fun t => t.Allowed Made ∧ slot.accepts t := by
  refine replays_pop.bind fun t ht => ?_
  split
  · exact .pure ⟨ht, by assumption⟩
  · exact .throw _

lemma replays_popAll (slots : List Slot) :
    Replays size Made (site.popAll slots) (site'.popAll slots) fun _ => True :=
  .forM _ fun slot _ => (replays_popAs slot).discard

lemma replays_readLocal (index : Int) :
    Replays size Made (site.readLocal index) (site'.readLocal index) (·.Allowed Made) := by
  cases index with
  | negSucc i =>
    intro f f' pool later a _ hstep
    cases hstep
  | ofNat i =>
    refine .query (fun m => m.frame.locals[i]?) Pure.pure Pure.pure (fun _ _ _ _ _ h => h)
      (fun m hm => ?_) (fun m t hm => ?_) fun f _ t hf ht => .pure (hf.allowed_local ht)
    · simp [readLocal, Step.outcome_bind, hm, fail]
    · simp [readLocal, Step.outcome_bind, hm]

lemma replays_writeLocal (index : Int) {t : VerificationType} (ht : t.Allowed Made) :
    Replays size Made (site.writeLocal index t) (site'.writeLocal index t) fun _ => True := by
  cases index with
  | negSucc i => exact .throw _
  | ofNat i =>
    intro f f' pool later a hf hstep
    simp only [writeLocal, Step.outcome_ofOutcome] at hstep ⊢
    cases hstore : f.store? i t with
    | none =>
      rw [hstore] at hstep
      cases hstep
    | some g =>
      rw [hstore] at hstep
      cases hstep
      refine ⟨.refl _, id, hf.store? ht hstore, trivial, fun _ _ => ?_⟩
      simp [hstore]

lemma replays_constant (operand : Int) :
    Replays size Made (site.constant operand) (site'.constant operand) fun _ => True := by
  refine .query (fun m => m.pool.get? (UInt16.ofInt operand)) Pure.pure Pure.pure
    (fun _ _ _ _ hext h => hext _ _ h) (fun m hm => ?_) (fun m c hm => ?_) fun _ _ _ _ _ => .pure trivial
  · simp [constant, Step.outcome_bind, hm, fail]
  · simp [constant, Step.outcome_bind, hm]

lemma replays_member (operand : Int) :
    Replays size Made (site.member operand) (site'.member operand) fun _ => True := by
  refine .query (fun m => m.pool.memberRef? (UInt16.ofInt operand)) Pure.pure Pure.pure
    (fun _ _ _ _ hext h => hext.memberRef? h) (fun m hm => ?_) (fun m ref hm => ?_) fun _ _ _ _ _ => .pure trivial
  · simp [member, Step.outcome_bind, hm, fail]
  · simp [member, Step.outcome_bind, hm]

lemma replays_classIndex (operand : Int) :
    Replays size Made (site.classIndex operand) (site'.classIndex operand) fun _ => True := by
  refine (replays_constant operand).bind fun c _ => ?_
  cases c
  case classRef => exact .pure trivial
  all_goals exact .throw _

lemma replays_constantType (operand : Int) :
    Replays size Made (site.constantType operand) (site'.constantType operand)
      (·.Allowed Made) := by
  refine (replays_constant operand).bind fun c _ => ?_
  cases c
  case integer => exact .pure (by rintro _ ⟨⟩)
  case float => exact .pure (by rintro _ ⟨⟩)
  case stringRef => exact replays_ofClass _
  case classRef => exact replays_ofClass _
  all_goals exact .throw _

lemma replays_wideConstantType (operand : Int) :
    Replays size Made (site.wideConstantType operand) (site'.wideConstantType operand)
      (·.Allowed Made) := by
  refine (replays_constant operand).bind fun c _ => ?_
  cases c
  case long => exact .pure (by rintro _ ⟨⟩)
  case double => exact .pure (by rintro _ ⟨⟩)
  all_goals exact .throw _

lemma replays_elementType (t : VerificationType) :
    Replays size Made (site.elementType t) (site'.elementType t) (·.Allowed Made) := by
  cases t
  case null => exact .pure (by rintro _ ⟨⟩)
  case object array =>
    refine .query (fun m => (m.pool.className? array).bind ClassName.element?)
      (fun element => constants (ofClass element)) (fun element => constants (ofClass element))
      ?_ (fun m hm => ?_) (fun m element hm => ?_) fun _ _ element _ _ => replays_ofClass element
    · intro f pool later element hext h
      obtain ⟨name, hname, helement⟩ := Option.bind_eq_some_iff.mp h
      exact Option.bind_eq_some_iff.mpr ⟨name, hext.className? hname, helement⟩
    · simp [elementType, Step.outcome_bind, hm, fail]
    · simp [elementType, Step.outcome_bind, hm]
  all_goals exact .throw _

lemma replays_fieldType (operand : Int) :
    Replays size Made (site.fieldType operand) (site'.fieldType operand)
      (·.1.Allowed Made) := by
  refine (replays_member operand).bind fun ref _ => ?_
  split
  · exact (replays_ofFieldType _).bind fun t ht => .pure ht
  · exact .throw _

lemma replays_methodType (operand : Int) :
    Replays size Made (site.methodType operand) (site'.methodType operand) fun _ => True := by
  refine (replays_member operand).bind fun ref _ => ?_
  split
  · exact .pure trivial
  · exact .throw _

lemma replays_pushResult (returns : Option FieldType) :
    Replays size Made (pushResult returns) (pushResult returns) fun _ => True := by
  cases returns with
  | none => exact .pure trivial
  | some t => exact (replays_ofFieldType t).bind fun _ ht => replays_push ht

/-- The operand of the instruction that made an object is read from code that is the same. -/
lemma replays_initialized (h : site.Agrees Made site') {t : VerificationType}
    (ht : t.Allowed Made) :
    Replays size Made (site.initialized t) (site'.initialized t) fun t => ∃ i, t = .object i := by
  cases t
  case uninitializedThis =>
    rw [initialized, initialized, h.scope]
    exact .constants (VerificationType.repeatable_ofClass _) fun _ _ _ hclass =>
      have ⟨i, hi, _⟩ := VerificationType.ofClass_eq_ok hclass
      ⟨i, hi⟩
  case uninitialized made =>
    have hcode := h.code made (ht made rfl)
    have h0 := hcode 0 (by omega)
    rw [Nat.add_zero] at h0
    rw [initialized, initialized, h0, hcode 1 (by omega), hcode 2 (by omega)]
    split
    · split
      · exact .pure ⟨_, rfl⟩
      · exact .throw _
    · exact .throw _
  all_goals exact .throw _

lemma replays_receive (h : site.Agrees Made site') (method : String) :
    Replays size Made (site.receive method) (site'.receive method) fun _ => True := by
  refine (replays_popAs .reference).bind fun receiver ⟨hallowed, hreference⟩ => ?_
  split
  · refine (replays_initialized h hallowed).bind fun t ⟨i, ht⟩ => ?_
    subst ht
    intro f f' pool later a hf hstep
    cases hstep
    refine ⟨.refl _, id, hf.replace ?_ ?_ (by rintro _ ⟨⟩), trivial, fun _ _ => rfl⟩
    · rintro rfl
      cases hreference
    · cases receiver <;> first | rfl | cases hreference
  · exact .pure trivial

lemma replays_dup2 : Replays size Made site.dup2 site'.dup2 fun _ => True := by
  refine replays_pop.bind fun a ha => ?_
  split
  · exact replays_popNarrow.bind fun b hb => replays_pushEach _ (by simp [ha, hb])
  · exact replays_pushEach _ (by simp [ha])

lemma replays_dupX2 : Replays size Made site.dupX2 site'.dupX2 fun _ => True := by
  refine replays_popNarrow.bind fun a ha => replays_pop.bind fun b hb => ?_
  split
  · exact replays_popNarrow.bind fun c hc => replays_pushEach _ (by simp [ha, hb, hc])
  · exact replays_pushEach _ (by simp [ha, hb])

lemma replays_dup2X1 : Replays size Made site.dup2X1 site'.dup2X1 fun _ => True := by
  refine replays_pop.bind fun a ha => replays_popNarrow.bind fun b hb => ?_
  split
  · exact replays_popNarrow.bind fun c hc => replays_pushEach _ (by simp [ha, hb, hc])
  · exact replays_pushEach _ (by simp [ha, hb])

lemma replays_dup2X2 : Replays size Made site.dup2X2 site'.dup2X2 fun _ => True := by
  refine replays_pop.bind fun a ha => ?_
  split
  · refine replays_popNarrow.bind fun b hb => replays_pop.bind fun c hc => ?_
    split
    · exact replays_popNarrow.bind fun d hd => replays_pushEach _ (by simp [ha, hb, hc, hd])
    · exact replays_pushEach _ (by simp [ha, hb, hc])
  · refine replays_pop.bind fun b hb => ?_
    split
    · exact replays_popNarrow.bind fun c hc => replays_pushEach _ (by simp [ha, hb, hc])
    · exact replays_pushEach _ (by simp [ha, hb])

/-- Every effect can be replayed. Only `new` brings in an object that waits for its constructor. -/
theorem replays_perform (h : site.Agrees Made site') (effect : Effect) (first second : Int)
    (hnew : effect = .new → Made (UInt16.ofNat site.pc)) :
    Replays size Made (site.perform effect first second) (site'.perform effect first second)
      fun _ => True := by
  cases effect with
  | fixed pops result =>
    refine (replays_popAll pops).bind fun _ _ => ?_
    cases result with
    | none => exact .pure trivial
    | some slot =>
      exact (Replays.constants (repeatable_ofSlot slot) fun _ _ _ => allowed_ofSlot).bind
        fun _ ht => replays_push ht
  | load slot index =>
    refine (replays_readLocal _).bind fun t ht => ?_
    split
    · exact replays_push ht
    · exact .throw _
  | store slot index =>
    exact (replays_popAs slot).bind fun t ht => replays_writeLocal _ ht.1
  | null => exact replays_push (by rintro _ ⟨⟩)
  | constant => exact (replays_constantType first).bind fun _ ht => replays_push ht
  | wideConstant => exact (replays_wideConstantType first).bind fun _ ht => replays_push ht
  | element =>
    exact (replays_popAs .int).discard.bind fun _ _ => (replays_popAs .reference).bind fun t _ =>
      (replays_elementType t).bind fun _ ht => replays_push ht
  | pop => exact replays_popNarrow.discard
  | pop2 =>
    refine replays_pop.bind fun t _ => ?_
    split
    · exact replays_popNarrow.discard
    · exact .pure trivial
  | dup => exact replays_popNarrow.bind fun a ha => replays_pushEach _ (by simp [ha])
  | dupX1 =>
    exact replays_popNarrow.bind fun a ha => replays_popNarrow.bind fun b hb =>
      replays_pushEach _ (by simp [ha, hb])
  | dupX2 => exact replays_dupX2
  | dup2 => exact replays_dup2
  | dup2X1 => exact replays_dup2X1
  | dup2X2 => exact replays_dup2X2
  | swap =>
    exact replays_popNarrow.bind fun a ha => replays_popNarrow.bind fun b hb =>
      replays_pushEach _ (by simp [ha, hb])
  | increment =>
    refine (replays_readLocal first).bind fun t _ => ?_
    split
    · exact .throw _
    · exact .pure trivial
  | getStatic => exact (replays_fieldType first).bind fun _ ht => replays_push ht
  | getField =>
    exact (replays_fieldType first).bind fun _ ht =>
      (replays_popAs .reference).discard.bind fun _ _ => replays_push ht
  | putStatic =>
    exact (replays_fieldType first).bind fun field _ => (replays_popAs field.2).discard
  | putField =>
    exact (replays_fieldType first).bind fun field _ =>
      (replays_popAs field.2).discard.bind fun _ _ => (replays_popAs .reference).discard
  | invoke =>
    exact (replays_methodType first).bind fun method _ => (replays_popAll _).bind fun _ _ =>
      (replays_receive h _).bind fun _ _ => replays_pushResult _
  | invokeStatic =>
    exact (replays_methodType first).bind fun method _ => (replays_popAll _).bind fun _ _ =>
      replays_pushResult _
  | new =>
    refine (replays_classIndex first).discard.bind fun _ _ => ?_
    rw [h.pc]
    refine replays_push ?_
    rintro made ⟨⟩
    exact hnew rfl
  | newArray =>
    refine (replays_popAs .int).discard.bind fun _ _ => ?_
    split
    · exact (replays_ofFieldType _).bind fun _ ht => replays_push ht
    · exact .throw _
  | newObjectArray =>
    refine (replays_popAs .int).discard.bind fun _ _ => (replays_classIndex first).bind
      fun element _ => ?_
    refine .query (fun m => m.pool.className? element)
      (fun name => constants (ofClass name.arrayOf) >>= push)
      (fun name => constants (ofClass name.arrayOf) >>= push)
      (fun _ _ _ _ hext hname => hext.className? hname) (fun m hm => ?_) (fun m name hm => ?_)
      fun _ _ name _ _ => (replays_ofClass _).bind fun _ ht => replays_push ht
    · simp [Step.outcome_bind, hm, fail]
    · simp [Step.outcome_bind, hm]
  | newMultiArray =>
    exact (replays_classIndex first).bind fun array _ => (replays_popAll _).bind fun _ _ =>
      replays_push (by rintro _ ⟨⟩)
  | cast =>
    exact (replays_classIndex first).bind fun target _ =>
      (replays_popAs .reference).discard.bind fun _ _ => replays_push (by rintro _ ⟨⟩)
  | wide => exact .throw _

theorem replays_execute (h : site.Agrees Made site') (insn : Instruction)
    (hnew : ∀ traits, insn.opcode.traits = .ok traits → traits.effect = .new →
      Made (UInt16.ofNat site.pc)) :
    Replays size Made (site.execute insn) (site'.execute insn) fun _ => True := by
  unfold execute
  cases htraits : insn.opcode.traits with
  | error e => exact .throw e
  | ok traits => exact replays_perform h traits.effect insn.first insn.second (hnew traits htraits)

end Site
end Machine
end ClassAssembly
