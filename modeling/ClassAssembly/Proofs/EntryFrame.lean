import ClassAssembly.Proofs.Replay
import ClassAssembly.StackMap.Table

/-! The frame at the start of a method is in proper form, and has one slot for each word of the
receiver and the parameters. -/
namespace ClassAssembly

namespace ConstantPool.Repeatable

theorem foldlM {α β : Type} {f : β → α → Step ConstantPool β} (h : ∀ b a, Repeatable (f b a))
    (xs : List α) (b : β) : Repeatable (xs.foldlM f b) := by
  induction xs generalizing b with
  | nil => exact .pure b
  | cons x xs ih =>
    rw [List.foldlM_cons]
    exact (h b x).bind ih

end ConstantPool.Repeatable

namespace VerificationType

/-- Each wide type is followed by an unusable slot. -/
def Paired (types : List VerificationType) : Prop :=
  ∀ i t, types[i]? = some t → width t = 2 → types[i + 1]? = some .top

namespace Paired

theorem append {xs ys : List VerificationType} (hx : Paired xs) (hy : Paired ys) :
    Paired (xs ++ ys) := by
  intro i t hi hwide
  rcases Nat.lt_or_ge i xs.length with hlt | hge
  · rw [List.getElem?_append_left hlt] at hi
    have hnext := hx i t hi hwide
    rwa [List.getElem?_append_left (List.getElem?_eq_some_iff.mp hnext).1]
  · rw [List.getElem?_append_right hge] at hi
    have hnext := hy (i - xs.length) t hi hwide
    rwa [List.getElem?_append_right (by omega), Nat.sub_add_comm hge]

lemma replicate_top (n : Nat) : Paired (List.replicate n .top) := by
  intro i t hi hwide
  rw [List.eq_of_mem_replicate (List.mem_of_getElem? hi)] at hwide
  cases hwide

lemma narrow {t : VerificationType} (h : width t ≠ 2) : Paired [t] := by
  intro i u hi hwide
  rw [List.mem_singleton.mp (List.mem_of_getElem? hi)] at hwide
  exact absurd hwide h

lemma wide (t : VerificationType) : Paired [t, .top] := by
  intro i u hi hwide
  match i with
  | 0 => rfl
  | 1 =>
    cases hi
    cases hwide
  | i + 2 => cases hi

end Paired

lemma width_ofFieldType {t : FieldType} {v : VerificationType} {pool later : ConstantPool}
    (h : (ofFieldType t).outcome pool = (.ok v, later)) : width v = width t := by
  unfold ofFieldType at h
  split at h
  · rename_i name hname
    obtain ⟨i, rfl, _⟩ := ofClass_eq_ok h
    obtain ⟨_ | n, element⟩ := t
    · cases element with
      | base type => cases hname
      | object name => rfl
    · rfl
  · rename_i hname
    obtain ⟨_ | n, element⟩ := t
    · cases element with
      | base type => cases type <;> cases h <;> rfl
      | object name => cases hname
    · cases hname

end VerificationType

namespace MethodHeader

open VerificationType (Paired ofFieldType)

/-- Adds the slots of one parameter, latest first. -/
def addParameter (before : List VerificationType) (parameter : FieldType) :
    Step ConstantPool (List VerificationType) := do
  let t ← ofFieldType parameter
  return if width t = 2 then .top :: t :: before else t :: before

/-- What holds of the slots of some parameters, latest first. -/
structure Laid (Made : UInt16 → Prop) (words : Nat) (before : List VerificationType) : Prop where
  length_eq : before.length = words
  paired : Paired before.reverse
  allowed : ∀ t ∈ before, t.Allowed Made

lemma Laid.add {Made : UInt16 → Prop} {words : Nat} {before after : List VerificationType}
    {parameter : FieldType} {pool later : ConstantPool} (h : Laid Made words before)
    (hadd : (addParameter before parameter).outcome pool = (.ok after, later)) :
    Laid Made (words + width parameter) after := by
  obtain ⟨t, _, ht, hafter⟩ := Step.bind_eq_ok.mp hadd
  cases hafter
  have hwidth := VerificationType.width_ofFieldType ht
  have hallowed : t.Allowed Made := Machine.Site.allowed_ofFieldType ht
  split
  · rename_i hwide
    refine ⟨by simp [h.length_eq, ← hwidth, hwide], ?_, ?_⟩
    · simpa using h.paired.append (.wide t)
    · intro u hu
      rcases List.mem_cons.mp hu with rfl | hu
      · rintro _ ⟨⟩
      · rcases List.mem_cons.mp hu with rfl | hu
        · exact hallowed
        · exact h.allowed u hu
  · rename_i hnarrow
    have hone : width parameter = 1 := hwidth ▸ (Frame.width_eq t).resolve_right hnarrow
    refine ⟨by simp [h.length_eq, hone], ?_, ?_⟩
    · simpa using h.paired.append (.narrow hnarrow)
    · intro u hu
      rcases List.mem_cons.mp hu with rfl | hu
      · exact hallowed
      · exact h.allowed u hu

lemma Laid.addAll {Made : UInt16 → Prop} {words : Nat} {before after : List VerificationType}
    {parameters : List FieldType} {pool later : ConstantPool} (h : Laid Made words before)
    (hadd : (parameters.foldlM addParameter before).outcome pool = (.ok after, later)) :
    Laid Made (parameters.foldl (fun n t => n + width t) words) after := by
  induction parameters generalizing before words pool with
  | nil =>
    cases hadd
    exact h
  | cons parameter parameters ih =>
    rw [List.foldlM_cons] at hadd
    obtain ⟨middle, _, hone, hrest⟩ := Step.bind_eq_ok.mp hadd
    exact ih (h.add hone) hrest

lemma receiver_spec {header : MethodHeader} {c : ClassScope} {pool later : ConstantPool}
    {receiver : Option VerificationType} (Made : UInt16 → Prop)
    (h : (header.receiver c).outcome pool = (.ok receiver, later)) :
    Laid Made (!header.isStatic).toNat receiver.toList := by
  unfold MethodHeader.receiver at h
  split at h
  · rename_i hstatic
    cases h
    exact ⟨by simp [hstatic], .replicate_top 0, by simp⟩
  · rename_i hinstance
    have hlaid : ∀ t : VerificationType, width t = 1 → t.Allowed Made →
        Laid Made (!header.isStatic).toNat [t] := by
      intro t ht hallowed
      exact ⟨by simp [hinstance], by simpa using Paired.narrow (by omega), by simpa using hallowed⟩
    split at h
    · cases h
      exact hlaid _ rfl (by rintro _ ⟨⟩)
    · obtain ⟨t, _, ht, heq⟩ := Step.bind_eq_ok.mp h
      cases heq
      have hallowed : t.Allowed Made := Machine.Site.allowed_ofClass ht
      obtain ⟨i, rfl, _⟩ := VerificationType.ofClass_eq_ok ht
      exact hlaid _ rfl hallowed

lemma repeatable_receiver (header : MethodHeader) (c : ClassScope) :
    ConstantPool.Repeatable (header.receiver c) := by
  unfold MethodHeader.receiver
  split
  · exact .pure _
  · split
    · exact .pure _
    · exact (VerificationType.repeatable_ofClass _).bind fun t => .pure (some t)

lemma foldl_width (parameters : List FieldType) (n : Nat) :
    parameters.foldl (fun n t => n + width t) n =
      parameters.foldl (fun n t => n + width t) 0 + n := by
  induction parameters generalizing n with
  | nil => simp
  | cons t parameters ih =>
    rw [List.foldl_cons, List.foldl_cons, ih, ih (0 + width t)]
    omega

lemma entryFrame_grows {header : MethodHeader} {c : ClassScope} {maxLocals : Nat}
    {pool later : ConstantPool} {initial : Frame}
    (h : (header.entryFrame c maxLocals).outcome pool = (.ok initial, later)) :
    pool.Extends later ∧ (pool.WellNamed → later.WellNamed) := by
  obtain ⟨receiver, middle, hreceiver, hrest⟩ := Step.bind_eq_ok.mp h
  obtain ⟨latestFirst, _, hparameters, heq⟩ := Step.bind_eq_ok.mp hrest
  cases heq
  have hadd : (header.descriptor.parameters.foldlM addParameter receiver.toList).outcome middle =
      (.ok latestFirst, later) := hparameters
  have hrepeatable : ∀ before parameter,
      ConstantPool.Repeatable (addParameter before parameter) :=
    fun before parameter => (Machine.Site.repeatable_ofFieldType parameter).bind fun t => .pure _
  obtain ⟨hext, hnamed⟩ := (repeatable_receiver header c).grows hreceiver
  obtain ⟨hext', hnamed'⟩ := (ConstantPool.Repeatable.foldlM hrepeatable _ _).grows hadd
  exact ⟨hext.trans hext', hnamed' ∘ hnamed⟩

/-- The first frame of a method has all its local variables, and nothing on the stack. -/
lemma size_of_entryFrame {header : MethodHeader} {c : ClassScope} {maxLocals : Nat}
    {pool later : ConstantPool} {initial : Frame}
    (h : (header.entryFrame c maxLocals).outcome pool = (.ok initial, later)) :
    maxLocals ≤ initial.locals.size ∧ initial.stack = [] := by
  obtain ⟨_, _, _, h⟩ := Step.bind_eq_ok.mp h
  obtain ⟨_, _, _, h⟩ := Step.bind_eq_ok.mp h
  cases h
  constructor
  · simp only [Array.size_append, Array.size_replicate]
    omega
  · rfl

/-- The first frame of a method is in proper form. It is larger than asked for if the parameters do
not fit. -/
theorem formed_entryFrame {header : MethodHeader} {c : ClassScope} {maxLocals : Nat}
    {pool later : ConstantPool} {initial : Frame}
    (h : (header.entryFrame c maxLocals).outcome pool = (.ok initial, later)) :
    initial.locals.size = max (header.descriptor.parameterWords (!header.isStatic)) maxLocals ∧
      ∀ Made, initial.Formed initial.locals.size Made := by
  obtain ⟨receiver, middle, hreceiver, hrest⟩ := Step.bind_eq_ok.mp h
  obtain ⟨latestFirst, _, hparameters, heq⟩ := Step.bind_eq_ok.mp hrest
  cases heq
  have hadd : (header.descriptor.parameters.foldlM addParameter receiver.toList).outcome middle =
      (.ok latestFirst, later) := hparameters
  have hlaid := fun Made => (receiver_spec Made hreceiver).addAll hadd
  have hlength : latestFirst.length = header.descriptor.parameterWords (!header.isStatic) := by
    rw [(hlaid fun _ => True).length_eq, foldl_width]
    rfl
  have hlocals : (latestFirst.reverse.toArray ++
      Array.replicate (maxLocals - latestFirst.reverse.toArray.size) VerificationType.top).toList =
        latestFirst.reverse ++ List.replicate (maxLocals - latestFirst.length) .top := by
    simp
  refine ⟨?_, fun Made => ⟨rfl, ?_, ?_, ?_⟩⟩
  · simp only [Array.size_append, Array.size_replicate, List.size_toArray, List.length_reverse, hlength]
    omega
  · intro i t hi hwide
    rw [← Array.getElem?_toList, hlocals] at hi ⊢
    exact (hlaid Made).paired.append (.replicate_top _) i t hi hwide
  · intro site hsite
    rw [hlocals] at hsite
    rcases List.mem_append.mp hsite with hsite | hsite
    · exact (hlaid Made).allowed _ (List.mem_reverse.mp hsite) site rfl
    · cases List.eq_of_mem_replicate hsite
  · intro site hsite
    cases hsite

/-- The frame at the start of a method whose parameters fit in its local variables. -/
theorem entryFrame_spec {header : MethodHeader} {c : ClassScope} {maxLocals : Nat}
    {pool later : ConstantPool} {initial : Frame}
    (hroom : header.descriptor.parameterWords (!header.isStatic) ≤ maxLocals)
    (h : (header.entryFrame c maxLocals).outcome pool = (.ok initial, later)) :
    pool.Extends later ∧ (pool.WellNamed → later.WellNamed) ∧ initial.stack = [] ∧
      ∀ Made, initial.Formed maxLocals Made := by
  obtain ⟨hext, hnamed⟩ := entryFrame_grows h
  obtain ⟨hsize, hformed⟩ := formed_entryFrame h
  rw [hsize, Nat.max_eq_right hroom] at hformed
  exact ⟨hext, hnamed, (size_of_entryFrame h).2, hformed⟩

end MethodHeader
end ClassAssembly
