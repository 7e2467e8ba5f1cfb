import ClassAssembly.Proofs.StackWords

/-! What the types of a frame refer to. A class stands among the constants under a name, and an object
that waits for its constructor was made at some site of the code. Whatever an instruction does with
the types it finds, those that it leaves refer to something again, and so do those that the first
frame of a method has and those that merging gives. -/
namespace ClassAssembly

open VerificationType (ofClass ofFieldType ofSlot)

namespace ConstantPool

/-- A step after which each class constant still has a name, whether it succeeds or not. -/
abbrev KeepsNames {α : Type} (step : Step ConstantPool α) : Prop := step.Keeps WellNamed

namespace KeepsNames

lemma pool_of_intern {c : Constant} {pool later : ConstantPool} {e : Error}
    (h : (intern c).outcome pool = (.error e, later)) : later = pool := by
  simp only [ConstantPool.intern, Step.outcome_ofOutcome] at h
  repeat' split at h
  all_goals
    cases h
    try rfl

theorem intern {c : Constant} (hc : ∀ k, c ≠ .classRef k) : KeepsNames (intern c) := by
  intro pool h
  rcases hstep : (ConstantPool.intern c).outcome pool with ⟨e | i, later⟩
  · rwa [pool_of_intern hstep]
  · intro j k hj
    rcases (get?_of_intern hstep j _).mp hj with hj | ⟨_, heq⟩
    · obtain ⟨name, hk, hname⟩ := h j k hj
      exact ⟨name, (extends_of_intern hstep).1 _ _ hk, hname⟩
    · exact absurd heq.symm (hc k)

theorem utf8 (text : String) : KeepsNames (utf8 text) := intern nofun

/-- If there is no room for the class, its name has been added all the same. -/
theorem classRef (name : String) : KeepsNames (classRef name) := by
  intro pool h
  rcases hstep : (ConstantPool.classRef name).outcome pool with ⟨e | i, later⟩
  · have htext := utf8 (ClassName.canonical name) pool h
    rcases Step.bind_eq_error.mp hstep with herror | ⟨k, middle, hok, herror⟩
    · rwa [herror] at htext
    · rw [hok] at htext
      rwa [pool_of_intern herror]
  · exact (classRef_eq_ok hstep).2.1 h

theorem nameAndType (name descriptor : String) : KeepsNames (nameAndType name descriptor) :=
  (utf8 name).bind fun _ => (utf8 descriptor).bind fun _ => intern nofun

theorem issue (request : ConstantRequest) : KeepsNames request.issue := by
  cases request with
  | utf8 text => exact utf8 text
  | classRef name => exact classRef name
  | stringRef text => exact (utf8 text).bind fun _ => intern nofun
  | integer value | float value | long value | double value => exact intern nofun
  | nameAndType name descriptor => exact nameAndType name descriptor
  | fieldRef owner name descriptor | methodRef owner name descriptor interface =>
    exact (classRef owner).bind fun _ => (nameAndType name descriptor).bind fun _ => intern nofun

end KeepsNames

theorem wellNamed_after (requests : List ConstantRequest) : (after requests).WellNamed := by
  have hrun : ∀ pool : ConstantPool, pool.WellNamed →
      (requests.foldl (fun pool request => (request.issue.outcome pool).2) pool).WellNamed := by
    induction requests with
    | nil => exact fun _ h => h
    | cons request requests ih =>
      intro pool h
      exact ih _ (KeepsNames.issue request pool h)
  exact hrun .empty wellNamed_empty

end ConstantPool

/-- The type refers to a class that has a name, or to a site at which an object was made, if it refers
to anything. -/
def VerificationType.Backed (Made : ConstantPool → UInt16 → Prop) (pool : ConstantPool) :
    VerificationType → Prop
  | .object i => ∃ name, pool.className? i = some name
  | .uninitialized site => Made pool site
  | _ => True

/-- Sites that were found stay found when constants are added. -/
def ConstantPool.Lasting (Made : ConstantPool → UInt16 → Prop) : Prop :=
  ∀ ⦃pool later site⦄, pool.Extends later → Made pool site → Made later site

namespace VerificationType

variable {Made Made' : ConstantPool → UInt16 → Prop} {pool later : ConstantPool}
  {t : VerificationType}

theorem Backed.mono (h : t.Backed Made pool) (hext : pool.Extends later)
    (hmade : ∀ site, Made pool site → Made' later site) : t.Backed Made' later := by
  cases t with
  | object i =>
    obtain ⟨name, hname⟩ := h
    exact ⟨name, hext.className? hname⟩
  | uninitialized site => exact hmade site h
  | _ => trivial

lemma backed_ofClass {name : ClassName} (h : (ofClass name).outcome pool = (.ok t, later)) :
    t.Backed Made later := by
  obtain ⟨i, rfl, hi⟩ := ofClass_eq_ok h
  exact ⟨_, hi⟩

lemma backed_ofSlot {slot : Slot} (h : (ofSlot slot).outcome pool = (.ok t, later)) :
    t.Backed Made later := by
  cases slot
  case reference => exact backed_ofClass h
  all_goals
    cases h
    trivial

lemma backed_ofFieldType {type : FieldType} (h : (ofFieldType type).outcome pool = (.ok t, later)) :
    t.Backed Made later := by
  unfold ofFieldType at h
  split at h
  · exact backed_ofClass h
  · exact backed_ofSlot h

end VerificationType

namespace Frame

lemma mem_slots {f : Frame} {t : VerificationType} :
    t ∈ f.slots ↔ t ∈ f.locals.toList ∨ t ∈ f.stack := by
  simp [slots]

/-- What stands in a frame after a type was stored stood there before, is that type, or is spoilt. -/
lemma mem_slots_store? {f f' : Frame} {i : Nat} {t u : VerificationType}
    (h : f.store? i t = some f') (hu : u ∈ f'.slots) : u ∈ f.slots ∨ u = t ∨ u = .top := by
  rcases mem_slots.mp hu with hu | hu
  · obtain ⟨j, hj⟩ := List.getElem?_of_mem hu
    rw [Array.getElem?_toList, getElem?_store? h] at hj
    split at hj
    · exact .inr (.inl (Option.some.inj hj).symm)
    · split at hj
      · exact .inr (.inr (Option.some.inj hj).symm)
      · split at hj
        · exact .inr (.inr (Option.some.inj hj).symm)
        · rw [← Array.getElem?_toList] at hj
          exact .inl (mem_slots.mpr (.inl (List.mem_of_getElem? hj)))
  · rw [(stack_store? h).1] at hu
    exact .inl (mem_slots.mpr (.inr hu))

lemma mem_slots_replace {f : Frame} {old new u : VerificationType}
    (hu : u ∈ (f.replace old new).slots) : u ∈ f.slots ∨ u = new := by
  simp only [mem_slots, replace, Array.toList_map, List.mem_map] at hu ⊢
  grind

end Frame

namespace Machine

variable {α β : Type} {Made : ConstantPool → UInt16 → Prop} {held held' : List VerificationType}

/-- All types of the frame are backed by the constants beside it, and so are those that an instruction
holds while it is executed. -/
structure Backed (Made : ConstantPool → UInt16 → Prop) (held : List VerificationType)
    (m : Machine) : Prop where
  named : m.pool.WellNamed
  types : ∀ t ∈ held ++ m.frame.slots, t.Backed Made m.pool

/-- Whenever the step succeeds it keeps all types backed, those that are held and those that it
gives as well. -/
def Backs (Made : ConstantPool → UInt16 → Prop) (held : List VerificationType)
    (step : Step Machine α) (gives : α → List VerificationType) : Prop :=
  ∀ ⦃m m' a⦄, m.Backed Made held → step.outcome m = (.ok a, m') → m'.Backed Made (gives a ++ held)

/-- Nothing is given. -/
abbrev nothing : α → List VerificationType := fun _ => []

namespace Backs

variable {step : Step Machine α} {next : α → Step Machine β} {gives : α → List VerificationType}
  {gives' : β → List VerificationType} {t u : VerificationType}

theorem pure {a : α} (h : gives a ⊆ held) : Backs Made held (pure a) gives := by
  intro m m' b hm hstep
  cases hstep
  refine ⟨hm.named, ?_⟩
  intro t ht
  apply hm.types
  rw [List.mem_append, List.mem_append] at ht
  rw [List.mem_append]
  rcases ht with (ht | ht) | ht
  · exact .inl (h ht)
  · exact .inl ht
  · exact .inr ht

theorem throw (e : Error) : Backs Made held (throw e : Step Machine α) gives := by
  intro m m' a _ hstep
  cases hstep

theorem bind (hs : Backs Made held step gives)
    (hn : ∀ a, Backs Made (gives a ++ held) (next a) gives') :
    Backs Made held (step >>= next) gives' := by
  intro m m' b hm h
  obtain ⟨a, middle, hstep, hnext⟩ := Step.bind_eq_ok.mp h
  have h' := hn a (hs hm hstep) hnext
  refine ⟨h'.named, ?_⟩
  intro t ht
  apply h'.types
  simp only [List.mem_append] at ht ⊢
  grind

/-- The value is dropped, and with it all types but those that it gives in any case. -/
theorem discard (kept : List VerificationType) (hs : Backs Made held step gives)
    (hkept : ∀ a, kept ⊆ gives a) : Backs Made held (discard step) fun _ => kept := by
  rw [Step.discard_eq]
  exact hs.bind fun a => .pure (List.subset_append_of_subset_left _ (hkept a))

theorem drop (hs : Backs Made held step gives) :
    Backs Made held (Functor.discard step) nothing :=
  hs.discard [] fun _ => List.nil_subset _

theorem forM {f : α → Step Machine PUnit} (xs : List α)
    (h : ∀ x ∈ xs, Backs Made held (f x) nothing) : Backs Made held (xs.forM f) nothing := by
  induction xs with
  | nil => exact .pure (List.nil_subset _)
  | cons x xs ih => exact (h x (by simp)).bind fun _ => ih fun y hy => h y (by simp [hy])

/-- A step that first looks at the machine holds what it finds there. -/
theorem get {next : Machine → Step Machine β} (found : Machine → List VerificationType)
    (hfound : ∀ m : Machine, m.Backed Made held → ∀ t ∈ found m, t.Backed Made m.pool)
    (h : ∀ m, Backs Made (found m ++ held) (next m) gives') :
    Backs Made held (get >>= next) gives' := by
  intro m m' b hm hstep
  have hheld : m.Backed Made (found m ++ held) := by
    refine ⟨hm.named, ?_⟩
    intro t ht
    rw [List.append_assoc, List.mem_append] at ht
    rcases ht with ht | ht
    · exact hfound m hm t ht
    · exact hm.types t ht
  have h' := h m hheld hstep
  exact ⟨h'.named, fun t ht => h'.types t (by simp at ht ⊢; grind)⟩

/-- A type that is backed whenever those that are held are. -/
theorem hold (u : VerificationType)
    (hback : ∀ pool, (∀ t ∈ held, t.Backed Made pool) → u.Backed Made pool)
    (hs : Backs Made (u :: held) step gives) : Backs Made held step gives := by
  intro m m' a hm h
  have hu : u.Backed Made m.pool := hback _ fun t ht => hm.types t (by simp [ht])
  have h' := hs ⟨hm.named, by simpa [hu] using hm.types⟩ h
  exact ⟨h'.named, fun v hv => h'.types v (by simp at hv ⊢; grind)⟩

theorem constants (hmade : ConstantPool.Lasting Made) {step : Step ConstantPool VerificationType}
    (hr : ConstantPool.Repeatable step)
    (hback : ∀ {pool later t}, step.outcome pool = (.ok t, later) → t.Backed Made later) :
    Backs Made held (Machine.constants step) fun t => [t] := by
  rintro ⟨frame, pool⟩ m' a hm h
  rcases hpool : step.outcome pool with ⟨result, later⟩
  simp only [Machine.constants, Step.outcome_ofOutcome, hpool] at h
  cases h
  obtain ⟨hext, hnamed⟩ := hr.grows hpool
  refine ⟨hnamed hm.named, ?_⟩
  intro t ht
  rcases List.mem_cons.mp ht with rfl | ht
  · exact hback hpool
  · exact (hm.types t ht).mono hext fun _ => hmade hext

end Backs

namespace Site

/-- At each site in `Made` the code has the index of a class as operand. -/
structure Reads (Made : ConstantPool → UInt16 → Prop) (site : Site) : Prop where
  lasting : ConstantPool.Lasting Made
  operand : ∀ pool made high low, Made pool made → site.code[made.toNat]? = some Opcode.new.byte →
    site.code[made.toNat + 1]? = some high → site.code[made.toNat + 2]? = some low →
    ∃ name, pool.className? (UInt16.ofNat (high.toNat * 256 + low.toNat)) = some name

variable {site : Site} {t : VerificationType}

lemma backs_ofClass (hmade : ConstantPool.Lasting Made) (name : ClassName) :
    Backs Made held (constants (ofClass name)) fun t => [t] :=
  .constants hmade (VerificationType.repeatable_ofClass name) VerificationType.backed_ofClass

lemma backs_ofFieldType (hmade : ConstantPool.Lasting Made) (type : FieldType) :
    Backs Made held (constants (ofFieldType type)) fun t => [t] :=
  .constants hmade (repeatable_ofFieldType type) VerificationType.backed_ofFieldType

lemma backs_pushEach (types : List VerificationType) (h : types ⊆ held) :
    Backs Made held (pushEach types) nothing := by
  rintro ⟨⟨locals, stack⟩, pool⟩ m' a hm hstep
  cases hstep
  refine ⟨hm.named, ?_⟩
  intro t ht
  apply hm.types
  simp only [List.nil_append, List.mem_append, Frame.mem_slots, List.mem_reverse] at ht ⊢
  grind

lemma backs_push (h : t ∈ held) : Backs Made held (push t) nothing :=
  backs_pushEach [t] (by simpa using h)

lemma backs_pop : Backs Made held site.pop fun t => [t] := by
  rintro ⟨⟨locals, _ | ⟨t, stack⟩⟩, pool⟩ m' a hm hstep
  · cases hstep
  · cases hstep
    refine ⟨hm.named, ?_⟩
    intro u hu
    apply hm.types
    simp only [List.mem_append, List.mem_cons, Frame.mem_slots] at hu ⊢
    grind

lemma backs_popNarrow : Backs Made held site.popNarrow fun t => [t] := by
  refine backs_pop.bind fun t => ?_
  split
  · exact .pure (by simp)
  · exact .throw _

lemma backs_popAs (slot : Slot) : Backs Made held (site.popAs slot) fun t => [t] := by
  refine backs_pop.bind fun t => ?_
  split
  · exact .pure (by simp)
  · exact .throw _

lemma backs_popAll (slots : List Slot) : Backs Made held (site.popAll slots) nothing :=
  .forM _ fun slot _ => (backs_popAs slot).drop

lemma backs_readLocal (index : Int) : Backs Made held (site.readLocal index) fun t => [t] := by
  refine .get (·.frame.slots) (fun m hm t ht => hm.types t (by simp [ht])) fun m => ?_
  split
  · split
    · rename_i i t ht
      rw [← Array.getElem?_toList] at ht
      have hmem : t ∈ m.frame.slots := Frame.mem_slots.mpr (.inl (List.mem_of_getElem? ht))
      exact .pure (by simp [hmem])
    · exact .throw _
  · exact .throw _

lemma backs_writeLocal (index : Int) (ht : t ∈ held) :
    Backs Made held (site.writeLocal index t) nothing := by
  cases index with
  | negSucc i => exact .throw _
  | ofNat i =>
    rintro ⟨frame, pool⟩ m' a hm hstep
    simp only [writeLocal, Step.outcome_ofOutcome] at hstep
    cases hstore : frame.store? i t with
    | none =>
      rw [hstore] at hstep
      cases hstep
    | some frame' =>
      rw [hstore] at hstep
      cases hstep
      refine ⟨hm.named, ?_⟩
      intro u hu
      rcases List.mem_append.mp hu with hu | hu
      · exact hm.types u (List.mem_append.mpr (.inl hu))
      · rcases Frame.mem_slots_store? hstore hu with hu | rfl | rfl
        · exact hm.types u (List.mem_append.mpr (.inr hu))
        · exact hm.types u (List.mem_append.mpr (.inl ht))
        · trivial

/-- The class at this index, if the constant there is one. -/
def classOf (index : PoolIndex) : Constant → List VerificationType
  | .classRef _ => [.object index]
  | _ => []

lemma backs_constant (operand : Int) :
    Backs Made held (site.constant operand) (classOf (UInt16.ofInt operand)) := by
  refine .get (fun m => (m.pool.get? (UInt16.ofInt operand)).elim [] (classOf (UInt16.ofInt operand)))
    (fun m hm t ht => ?_) fun m => ?_
  · cases hc : m.pool.get? (UInt16.ofInt operand) with
    | none => simp [hc] at ht
    | some c =>
      rw [hc] at ht
      cases c
      case classRef k =>
        obtain rfl := List.mem_singleton.mp ht
        obtain ⟨name, hname, _⟩ := hm.named _ k hc
        exact ⟨name, ConstantPool.className?_eq_some_iff.mpr ⟨k, hc, hname⟩⟩
      all_goals cases ht
  · split
    · rename_i c hc
      exact .pure (by simp [hc])
    · exact .throw _

lemma backs_member (operand : Int) : Backs Made held (site.member operand) nothing := by
  refine .get nothing (by simp) fun m => ?_
  split
  · exact .pure (List.nil_subset _)
  · exact .throw _

lemma backs_classIndex (operand : Int) :
    Backs Made held (site.classIndex operand)
      fun i => [.object i, .object (UInt16.ofInt operand)] := by
  refine (backs_constant operand).bind fun c => ?_
  cases c
  case classRef => exact .pure (by simp [classOf])
  all_goals exact .throw _

lemma backs_constantType (hmade : ConstantPool.Lasting Made) (operand : Int) :
    Backs Made held (site.constantType operand) fun t => [t] := by
  refine (backs_constant operand).bind fun c => ?_
  cases c
  case integer => exact .hold .integer (fun _ _ => trivial) (.pure (by simp))
  case float => exact .hold .float (fun _ _ => trivial) (.pure (by simp))
  case stringRef => exact backs_ofClass hmade _
  case classRef => exact backs_ofClass hmade _
  all_goals exact .throw _

lemma backs_wideConstantType (operand : Int) :
    Backs Made held (site.wideConstantType operand) fun t => [t] := by
  refine (backs_constant operand).bind fun c => ?_
  cases c
  case long => exact .hold .long (fun _ _ => trivial) (.pure (by simp))
  case double => exact .hold .double (fun _ _ => trivial) (.pure (by simp))
  all_goals exact .throw _

lemma backs_elementType (hmade : ConstantPool.Lasting Made) (t : VerificationType) :
    Backs Made held (site.elementType t) fun t => [t] := by
  cases t
  case null => exact .hold .null (fun _ _ => trivial) (.pure (by simp))
  case object array =>
    refine .get nothing (by simp) fun m => ?_
    split
    · exact backs_ofClass hmade _
    · exact .throw _
  all_goals exact .throw _

lemma backs_fieldType (hmade : ConstantPool.Lasting Made) (operand : Int) :
    Backs Made held (site.fieldType operand) fun field => [field.1] := by
  refine (backs_member operand).bind fun ref => ?_
  split
  · exact (backs_ofFieldType hmade _).bind fun t => .pure (by simp)
  · exact .throw _

lemma backs_methodType (operand : Int) : Backs Made held (site.methodType operand) nothing := by
  refine (backs_member operand).bind fun ref => ?_
  split
  · exact .pure (List.nil_subset _)
  · exact .throw _

lemma backs_pushResult (hmade : ConstantPool.Lasting Made) (returns : Option FieldType) :
    Backs Made held (pushResult returns) nothing := by
  cases returns with
  | none => exact .pure (List.nil_subset _)
  | some type => exact (backs_ofFieldType hmade type).bind fun t => backs_push (by simp)

/-- The class of an object is read where the object was made. -/
lemma backs_initialized (h : site.Reads Made) (ht : t ∈ held) :
    Backs Made held (site.initialized t) fun t => [t] := by
  cases t
  case uninitializedThis => exact backs_ofClass h.lasting _
  case uninitialized made =>
    rw [initialized]
    split
    · split
      · rename_i op high low hop hhigh hlow hnew
        refine .hold (.object (UInt16.ofNat (high.toNat * 256 + low.toNat))) ?_ (.pure (by simp))
        intro pool hheld
        obtain rfl : op = Opcode.new.byte := congrArg Opcode.byte hnew
        exact h.operand pool made high low (hheld _ ht) hop hhigh hlow
      · exact .throw _
    · exact .throw _
  all_goals exact .throw _

lemma backs_receive (h : site.Reads Made) (method : String) :
    Backs Made held (site.receive method) nothing := by
  refine (backs_popAs .reference).bind fun receiver => ?_
  split
  · refine (backs_initialized h (by simp)).bind fun made => ?_
    rintro ⟨frame, pool⟩ m' a hm hstep
    cases hstep
    refine ⟨hm.named, ?_⟩
    intro u hu
    apply hm.types
    rcases List.mem_append.mp hu with hu | hu
    · exact List.mem_append.mpr (.inl hu)
    · rcases Frame.mem_slots_replace hu with hu | rfl
      · exact List.mem_append.mpr (.inr hu)
      · simp
  · exact .pure (List.nil_subset _)

lemma backs_dup2 : Backs Made held site.dup2 nothing := by
  refine backs_pop.bind fun a => ?_
  split
  · exact backs_popNarrow.bind fun b => backs_pushEach _ (by simp)
  · exact backs_pushEach _ (by simp)

lemma backs_dupX2 : Backs Made held site.dupX2 nothing := by
  refine backs_popNarrow.bind fun a => backs_pop.bind fun b => ?_
  split
  · exact backs_popNarrow.bind fun c => backs_pushEach _ (by simp)
  · exact backs_pushEach _ (by simp)

lemma backs_dup2X1 : Backs Made held site.dup2X1 nothing := by
  refine backs_pop.bind fun a => backs_popNarrow.bind fun b => ?_
  split
  · exact backs_popNarrow.bind fun c => backs_pushEach _ (by simp)
  · exact backs_pushEach _ (by simp)

lemma backs_dup2X2 : Backs Made held site.dup2X2 nothing := by
  refine backs_pop.bind fun a => ?_
  split
  · refine backs_popNarrow.bind fun b => backs_pop.bind fun c => ?_
    split
    · exact backs_popNarrow.bind fun d => backs_pushEach _ (by simp)
    · exact backs_pushEach _ (by simp)
  · refine backs_pop.bind fun b => ?_
    split
    · exact backs_popNarrow.bind fun c => backs_pushEach _ (by simp)
    · exact backs_pushEach _ (by simp)

/-- Every effect keeps the types of a frame backed. Only `new` brings in an object that waits for its
constructor, and it does so only if its operand is a class. -/
theorem backs_perform (h : site.Reads Made) (effect : Effect) (first second : Int)
    (hnew : effect = .new → ∀ pool name, pool.className? (UInt16.ofInt first) = some name →
      Made pool (UInt16.ofNat site.pc)) :
    Backs Made held (site.perform effect first second) nothing := by
  have hmade := h.lasting
  cases effect with
  | fixed pops result =>
    refine (backs_popAll pops).bind fun _ => ?_
    cases result with
    | none => exact .pure (List.nil_subset _)
    | some slot =>
      exact (Backs.constants hmade (repeatable_ofSlot slot) VerificationType.backed_ofSlot).bind
        fun t => backs_push (by simp)
  | load slot index =>
    refine (backs_readLocal _).bind fun t => ?_
    split
    · exact backs_push (by simp)
    · exact .throw _
  | store slot index => exact (backs_popAs slot).bind fun t => backs_writeLocal _ (by simp)
  | null => exact .hold .null (fun _ _ => trivial) (backs_push (by simp))
  | constant => exact (backs_constantType hmade first).bind fun _ => backs_push (by simp)
  | wideConstant => exact (backs_wideConstantType first).bind fun _ => backs_push (by simp)
  | element =>
    exact (backs_popAs .int).drop.bind fun _ =>
      (backs_popAs .reference).bind fun t =>
        (backs_elementType hmade t).bind fun _ => backs_push (by simp)
  | pop => exact backs_popNarrow.drop
  | pop2 =>
    refine backs_pop.bind fun t => ?_
    split
    · exact backs_popNarrow.drop
    · exact .pure (List.nil_subset _)
  | dup => exact backs_popNarrow.bind fun a => backs_pushEach _ (by simp)
  | dupX1 =>
    exact backs_popNarrow.bind fun a => backs_popNarrow.bind fun b => backs_pushEach _ (by simp)
  | dupX2 => exact backs_dupX2
  | dup2 => exact backs_dup2
  | dup2X1 => exact backs_dup2X1
  | dup2X2 => exact backs_dup2X2
  | swap =>
    exact backs_popNarrow.bind fun a => backs_popNarrow.bind fun b => backs_pushEach _ (by simp)
  | increment =>
    refine (backs_readLocal first).bind fun t => ?_
    split
    · exact .throw _
    · exact .pure (List.nil_subset _)
  | getStatic => exact (backs_fieldType hmade first).bind fun _ => backs_push (by simp)
  | getField =>
    exact (backs_fieldType hmade first).bind fun _ =>
      (backs_popAs .reference).drop.bind fun _ =>
        backs_push (by simp)
  | putStatic =>
    exact (backs_fieldType hmade first).bind fun field =>
      (backs_popAs field.2).drop
  | putField =>
    exact (backs_fieldType hmade first).bind fun field =>
      (backs_popAs field.2).drop.bind fun _ =>
        (backs_popAs .reference).drop
  | invoke =>
    exact (backs_methodType first).bind fun method => (backs_popAll _).bind fun _ =>
      (backs_receive h _).bind fun _ => backs_pushResult hmade _
  | invokeStatic =>
    exact (backs_methodType first).bind fun method => (backs_popAll _).bind fun _ =>
      backs_pushResult hmade _
  | new =>
    refine ((backs_classIndex first).discard [.object (UInt16.ofInt first)]
      (by simp)).bind fun _ => ?_
    -- The class of the operand is held until the new object stands for it.
    refine .hold (.uninitialized (UInt16.ofNat site.pc)) ?_ (backs_push (by simp))
    intro pool hheld
    obtain ⟨name, hname⟩ := hheld (.object (UInt16.ofInt first)) (by simp)
    exact hnew rfl pool name hname
  | newArray =>
    refine (backs_popAs .int).drop.bind fun _ => ?_
    split
    · exact (backs_ofFieldType hmade _).bind fun _ => backs_push (by simp)
    · exact .throw _
  | newObjectArray =>
    refine (backs_popAs .int).drop.bind fun _ =>
      (backs_classIndex first).bind fun element => .get nothing (by simp) fun m => ?_
    split
    · exact (backs_ofClass hmade _).bind fun _ => backs_push (by simp)
    · exact .throw _
  | newMultiArray =>
    exact (backs_classIndex first).bind fun array => (backs_popAll _).bind fun _ =>
      backs_push (by simp)
  | cast =>
    exact (backs_classIndex first).bind fun target =>
      (backs_popAs .reference).drop.bind fun _ =>
        backs_push (by simp)
  | wide => exact .throw _

theorem backs_execute (h : site.Reads Made) (insn : Instruction)
    (hnew : ∀ traits, insn.opcode.traits = .ok traits → traits.effect = .new →
      ∀ pool name, pool.className? (UInt16.ofInt insn.first) = some name →
        Made pool (UInt16.ofNat site.pc)) :
    Backs Made held (site.execute insn) nothing := by
  unfold execute
  cases htraits : insn.opcode.traits with
  | error e => exact .throw e
  | ok traits => exact backs_perform h traits.effect insn.first insn.second (hnew traits htraits)

end Site
end Machine

section Merging

variable {Made : ConstantPool → UInt16 → Prop} {c : ClassScope} {pool later : ConstantPool}

namespace VerificationType

variable {a b t : VerificationType}

lemma keepsNames_ofClass (name : ClassName) : ConstantPool.KeepsNames (ofClass name) :=
  (ConstantPool.KeepsNames.classRef name).bind fun _ => Step.Keeps.pure _

lemma merge_grows {result : Except Error VerificationType}
    (h : (merge c a b).outcome pool = (result, later)) :
    pool.Extends later ∧ (pool.WellNamed → later.WellNamed) := by
  by_cases hobjects : ∃ i j, a = .object i ∧ b = .object j ∧ i ≠ j
  · obtain ⟨i, j, rfl, rfl, hij⟩ := hobjects
    rw [merge_objects c hij] at h
    refine ⟨(Machine.adds_ofClass _).grows h, fun hpool => ?_⟩
    have hlater := keepsNames_ofClass (c.nearestCommon (pool.classOrObject i)
      (pool.classOrObject j)) pool hpool
    rwa [h] at hlater
  · obtain ⟨m, hm, _⟩ := merge_eq_pure c a b hobjects
    rw [hm] at h
    cases h
    exact ⟨.refl _, id⟩

lemma backed_merge (h : (merge c a b).outcome pool = (.ok t, later)) (ha : a.Backed Made pool)
    (hb : b.Backed Made pool) : t.Backed Made later := by
  by_cases hobjects : ∃ i j, a = .object i ∧ b = .object j ∧ i ≠ j
  · obtain ⟨i, j, rfl, rfl, hij⟩ := hobjects
    rw [merge_objects c hij] at h
    exact backed_ofClass h
  · unfold merge at h
    split at h
    · cases h
      exact hb
    · cases h
      exact ha
    · rename_i i j
      rw [if_pos (by grind)] at h
      cases h
      exact ha
    · split at h
      · cases h
        exact ha
      · cases h
        trivial

end VerificationType

namespace Machine

/-- Whether or not all types can be merged, those that are left cover the old ones and are backed. -/
lemma mergeSlots_backed (hmade : ConstantPool.Lasting Made) {changed : Bool}
    {result : Except Error Bool} {before olds news slots : List VerificationType}
    (holds : ∀ t ∈ olds, t.Backed Made pool) (hnews : ∀ t ∈ news, t.Backed Made pool)
    (h : mergeSlots c before changed olds news pool = (result, slots, later)) :
    ∃ merged, slots = before.reverse ++ merged ∧
      (pool.Extends later ∧ (pool.WellNamed → later.WellNamed)) ∧
      List.Forall₂ (VerificationType.Covers .coarse later) merged olds ∧
      ∀ t ∈ merged, t.Backed Made later := by
  have hsame : ∀ (types : List VerificationType) (pool : ConstantPool),
      List.Forall₂ (VerificationType.Covers .coarse pool) types types :=
    fun types pool => List.forall₂_same.mpr fun t _ => .refl t
  induction olds generalizing news before changed pool with
  | nil =>
    cases h
    exact ⟨[], rfl, ⟨.refl _, id⟩, .nil, holds⟩
  | cons old olds ih =>
    obtain _ | ⟨new, news⟩ := news
    · cases h
      exact ⟨old :: olds, rfl, ⟨.refl _, id⟩, hsame _ _, holds⟩
    rw [List.forall_mem_cons] at holds hnews
    rw [mergeSlots] at h
    rcases htype : (old.merge c new).outcome pool with ⟨e | m, middle⟩
    -- A merge that fails may have added constants all the same.
    · rw [htype] at h
      cases h
      have hgrows := VerificationType.merge_grows htype
      refine ⟨old :: olds, rfl, hgrows, hsame _ _, ?_⟩
      intro t ht
      have hbacked : t.Backed Made pool := List.forall_mem_cons.mpr holds t ht
      exact hbacked.mono hgrows.1 fun _ => hmade hgrows.1
    · rw [htype] at h
      obtain ⟨hext, hnamed⟩ := VerificationType.merge_grows htype
      have hlater : ∀ t : VerificationType, t.Backed Made pool → t.Backed Made middle :=
        fun t ht => ht.mono hext fun _ => hmade hext
      obtain ⟨merged, rfl, ⟨hext', hnamed'⟩, hcovers, hbacked⟩ :=
        ih (fun t ht => hlater t (holds.2 t ht)) (fun t ht => hlater t (hnews.2 t ht)) h
      have hold := (VerificationType.merge_covers (ClassOrder.merges_coarse c) trivial htype).2.2.1
      refine ⟨m :: merged, by simp, ⟨hext.trans hext', hnamed' ∘ hnamed⟩,
        .cons (hold.mono hext') hcovers, List.forall_mem_cons.mpr ⟨?_, hbacked⟩⟩
      exact (VerificationType.backed_merge htype holds.1 hnews.1).mono hext' fun _ => hmade hext'

/-- Merging keeps a frame backed, also if it fails. -/
theorem merge_backed (hmade : ConstantPool.Lasting Made) {offset : Nat} {frame other : Frame}
    {result : Except Error Bool} {m : Machine} (hframe : ∀ t ∈ frame.slots, t.Backed Made pool)
    (hother : ∀ t ∈ other.slots, t.Backed Made pool)
    (h : (merge c offset other).outcome ⟨frame, pool⟩ = (result, m)) :
    (pool.Extends m.pool ∧ (pool.WellNamed → m.pool.WellNamed)) ∧
      m.frame.Covers .coarse m.pool frame ∧ ∀ t ∈ m.frame.slots, t.Backed Made m.pool := by
  simp only [merge, Step.outcome_ofOutcome] at h
  split at h
  · cases h
    exact ⟨⟨.refl _, id⟩, .refl _, hframe⟩
  · rcases hslots : mergeSlots c [] false frame.slots other.slots pool with ⟨result', slots, later⟩
    rw [hslots] at h
    cases h
    obtain ⟨merged, hmerged, hgrows, hcovers, hbacked⟩ :=
      mergeSlots_backed hmade hframe hother hslots
    simp only [List.reverse_nil, List.nil_append] at hmerged
    subst hmerged
    refine ⟨hgrows, .of_slots rfl hcovers, ?_⟩
    intro t ht
    apply hbacked
    simpa [Frame.withSlots, Frame.slots] using ht

end Machine
end Merging

namespace MethodHeader

variable {Made : ConstantPool → UInt16 → Prop} {header : MethodHeader} {c : ClassScope}
  {pool later : ConstantPool}

lemma backed_receiver {receiver : Option VerificationType}
    (h : (header.receiver c).outcome pool = (.ok receiver, later)) :
    ∀ t ∈ receiver.toList, t.Backed Made later := by
  unfold MethodHeader.receiver at h
  split at h
  · cases h
    simp
  · split at h
    · cases h
      simp [VerificationType.Backed]
    · obtain ⟨t, _, ht, heq⟩ := Step.bind_eq_ok.mp h
      cases heq
      simpa using VerificationType.backed_ofClass ht

lemma backed_parameters (hmade : ConstantPool.Lasting Made) {parameters : List FieldType}
    {before after : List VerificationType} (hbefore : ∀ t ∈ before, t.Backed Made pool)
    (h : (parameters.foldlM addParameter before).outcome pool = (.ok after, later)) :
    ∀ t ∈ after, t.Backed Made later := by
  induction parameters generalizing before pool with
  | nil =>
    cases h
    exact hbefore
  | cons parameter parameters ih =>
    rw [List.foldlM_cons] at h
    obtain ⟨_, middle, hone, hrest⟩ := Step.bind_eq_ok.mp h
    obtain ⟨t, _, ht, heq⟩ := Step.bind_eq_ok.mp hone
    cases heq
    have hext := ((Machine.Site.repeatable_ofFieldType parameter).grows ht).1
    have ht' : t.Backed Made middle := VerificationType.backed_ofFieldType ht
    have hbefore' : ∀ u ∈ before, u.Backed Made middle :=
      fun u hu => (hbefore u hu).mono hext fun _ => hmade hext
    have hadded : ∀ u ∈ t :: before, u.Backed Made middle :=
      List.forall_mem_cons.mpr ⟨ht', hbefore'⟩
    refine ih ?_ hrest
    split
    · exact List.forall_mem_cons.mpr ⟨trivial, hadded⟩
    · exact hadded

/-- The types of the first frame of a method are backed. -/
theorem backed_entryFrame (hmade : ConstantPool.Lasting Made) {maxLocals : Nat} {initial : Frame}
    (h : (header.entryFrame c maxLocals).outcome pool = (.ok initial, later)) :
    ∀ t ∈ initial.slots, t.Backed Made later := by
  obtain ⟨receiver, middle, hreceiver, hrest⟩ := Step.bind_eq_ok.mp h
  obtain ⟨latestFirst, _, hparameters, heq⟩ := Step.bind_eq_ok.mp hrest
  cases heq
  have hadd : (header.descriptor.parameters.foldlM addParameter receiver.toList).outcome middle =
      (.ok latestFirst, later) := hparameters
  have hbacked := backed_parameters hmade (backed_receiver hreceiver) hadd
  intro t ht
  simp only [Frame.mem_slots, Array.toList_append, List.mem_append, Array.toList_replicate,
    List.mem_replicate, List.mem_reverse, List.not_mem_nil, or_false] at ht
  rcases ht with ht | ⟨_, rfl⟩
  · exact hbacked t ht
  · trivial

end MethodHeader

end ClassAssembly
