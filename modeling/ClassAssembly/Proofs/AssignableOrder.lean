import ClassAssembly.Proofs.ArrayName

/-! Assignability as a preorder. The pairs of names that it relates are given by rules, one for each
way of going up, and two rules after each other come to one rule again. -/
namespace ClassAssembly
namespace Hierarchy

open Relation (ReflTransGen TransGen)

variable {g : Hierarchy} {a b c : ClassName}

/-- Where a value of class `a` can stand for one of class `b`. -/
inductive Assigns (g : Hierarchy) : ClassName → ClassName → Prop
  | refl (a : ClassName) : Assigns g a a
  | object (a : ClassName) : Assigns g a .object
  | cloneable {a : ClassName} (ha : a.isArray = true) : Assigns g a .cloneable
  | serializable {a : ClassName} (ha : a.isArray = true) : Assigns g a .serializable
  /-- Array classes are compared by the classes of their elements. -/
  | elements {a b x y : ClassName} (hx : a.element? = some x) (hy : b.element? = some y)
      (h : Assigns g x y) : Assigns g a b
  | interface {a b : ClassName} (ha : a.isArray = false) (hb : b.isArray = false)
      (hinterface : g.isInterface b = true) (path : ReflTransGen g.Parent a b) : Assigns g a b
  | superclass {a b : ClassName} (ha : a.isArray = false) (hb : b.isArray = false)
      (chain : TransGen g.Superclass a b) : Assigns g a b

/-- Assignability of an array class. -/
lemma isAssignable_array_iff (ha : a.isArray = true) :
    g.isAssignable a b = true ↔ a = b ∨ b = .object ∨ b = .cloneable ∨ b = .serializable ∨
      ∃ x y, a.element? = some x ∧ b.element? = some y ∧ g.isAssignable x y = true := by
  rw [isAssignable, ← or_assoc]
  by_cases hab : a = b ∨ b = .object
  · simp [hab]
  rw [if_neg hab, if_pos ha, ← or_assoc (a := b = .cloneable)]
  by_cases hb : b = .cloneable ∨ b = .serializable
  · simp [hb]
  rw [if_neg hb]
  simp only [hab, hb, false_or]
  split
  · rename_i x y hx hy
    simp [hx, hy]
  · rename_i hnone
    constructor
    · intro h
      cases h
    · rintro ⟨x, y, hx, hy, _⟩
      exact absurd hy (hnone x y hx)

namespace Ordered

lemma assigns_of_isAssignable (hg : g.Ordered) (h : g.isAssignable a b = true) :
    g.Assigns a b := by
  obtain ⟨n, hn⟩ : ∃ n, a.length < n := ⟨_, Nat.lt_succ_self _⟩
  induction n generalizing a b with
  | zero => omega
  | succ n ih =>
    by_cases ha : a.isArray = true
    · rcases (isAssignable_array_iff ha).mp h with rfl | rfl | rfl | rfl | ⟨x, y, hx, hy, hxy⟩
      · exact .refl a
      · exact .object a
      · exact .cloneable ha
      · exact .serializable ha
      · have hlt := ClassName.length_lt_of_element? hx
        exact .elements hx hy (ih hxy (by omega))
    · have ha' : a.isArray = false := by simpa using ha
      by_cases hb : b.isArray = true
      · rw [isAssignable_array ha' hb] at h
        cases h
      · have hb' : b.isArray = false := by simpa using hb
        rcases (hg.isAssignable_iff ha' hb').mp h with rfl | rfl | hup
        · exact .refl a
        · exact .object a
        · split at hup
          · exact .interface ha' hb' (by assumption) hup
          · exact .superclass ha' hb' hup

/-- The rules give exactly the pairs that are found assignable. -/
theorem isAssignable_iff_assigns (hg : g.Ordered) : g.isAssignable a b = true ↔ g.Assigns a b := by
  constructor
  · exact hg.assigns_of_isAssignable
  · intro h
    induction h with
    | refl a => exact isAssignable_self g a
    | object a => exact isAssignable_object g a
    | cloneable ha => exact (isAssignable_array_iff ha).mpr (by simp)
    | serializable ha => exact (isAssignable_array_iff ha).mpr (by simp)
    | @elements a b x y hx hy _ ih =>
      have ha := ClassName.isArray_of_element? hx
      exact (isAssignable_array_iff ha).mpr (.inr (.inr (.inr (.inr ⟨x, y, hx, hy, ih⟩))))
    | interface ha hb hinterface path =>
      refine (isAssignable_plain_iff ha hb).mpr (.inr (.inr ?_))
      rwa [if_pos hinterface]
    | superclass ha hb chain =>
      exact isAssignable_superclass ha hb ((mem_superclasses_iff hg.acyclic).mpr chain)

/-- Nothing but `java/lang/Object` is above a class or an interface without parents. -/
lemma eq_or_object_of_assigns (ha : a.isArray = false) (hparents : g.parents a = [])
    (h : g.Assigns a b) : b = a ∨ b = .object := by
  have hstep : ∀ next, ¬g.Parent a next := by simp [Parent, hparents]
  cases h with
  | refl => exact .inl rfl
  | object => exact .inr rfl
  | cloneable ha' => simp [ha] at ha'
  | serializable ha' => simp [ha] at ha'
  | elements hx => simp [ClassName.isArray_of_element? hx] at ha
  | interface _ _ _ path =>
    rcases ReflTransGen.cases_head path with heq | ⟨next, hnext, _⟩
    · exact .inl heq.symm
    · exact absurd hnext (hstep next)
  | superclass _ _ chain =>
    obtain ⟨next, hnext, _⟩ := TransGen.head'_iff.mp chain
    exact absurd (parent_of_superclass hnext) (hstep next)

/-- Above `java/lang/Object` and the two interfaces of all arrays nothing is declared. -/
lemma parents_of_top (hg : g.Ordered) (hb : b = .object ∨ b = .cloneable ∨ b = .serializable) :
    g.parents b = [] := by
  obtain ⟨declaration, hget, hnone⟩ : ∃ declaration, g.get? b = some declaration ∧
      declaration.interfaces ++ declaration.superclass.toList = [] := by
    rcases hb with rfl | rfl | rfl
    · exact ⟨_, hg.library_kept (.object, ⟨none, [], false⟩) (by simp [library]), rfl⟩
    · exact ⟨_, hg.library_kept (.cloneable, .interface []) (by simp [library]), rfl⟩
    · exact ⟨_, hg.library_kept (.serializable, .interface []) (by simp [library]), rfl⟩
  rw [parents, hget]
  exact hnone

/-- So what is above one of the three is above each array class already. -/
lemma assigns_of_top (hg : g.Ordered) (ha : a.isArray = true)
    (hb : b = .object ∨ b = .cloneable ∨ b = .serializable) (hbc : g.Assigns b c) :
    g.Assigns a c := by
  have hplain : b.isArray = false := by
    rcases hb with rfl | rfl | rfl <;> decide
  rcases eq_or_object_of_assigns hplain (hg.parents_of_top hb) hbc with rfl | rfl
  · rcases hb with rfl | rfl | rfl
    · exact .object a
    · exact .cloneable ha
    · exact .serializable ha
  · exact .object a

/-- By induction on the way from `a` to `b`: each rule is followed by those that can come after
it. -/
theorem assigns_trans (hg : g.Ordered) (hab : g.Assigns a b) (hbc : g.Assigns b c) :
    g.Assigns a c := by
  induction hab generalizing c with
  | refl => exact hbc
  | object a =>
    obtain rfl : c = .object := by
      simpa using eq_or_object_of_assigns (by decide) (hg.parents_of_top (.inl rfl)) hbc
    exact .object a
  | cloneable ha => exact hg.assigns_of_top ha (by simp) hbc
  | serializable ha => exact hg.assigns_of_top ha (by simp) hbc
  | @elements a b x y hx hy h ih =>
    have ha := ClassName.isArray_of_element? hx
    have hb := ClassName.isArray_of_element? hy
    cases hbc with
    | refl => exact .elements hx hy h
    | object => exact .object a
    | cloneable => exact .cloneable ha
    | serializable => exact .serializable ha
    | elements hy' hz h' =>
      rw [hy] at hy'
      cases hy'
      exact .elements hx hz (ih h')
    | interface hb' => simp [hb] at hb'
    | superclass hb' => simp [hb] at hb'
  | @interface a b ha hb hinterface path =>
    cases hbc with
    | refl => exact .interface ha hb hinterface path
    | object => exact .object a
    | cloneable hb' => simp [hb] at hb'
    | serializable hb' => simp [hb] at hb'
    | elements hy => simp [ClassName.isArray_of_element? hy] at hb
    | interface _ hc hinterface' path' => exact .interface ha hc hinterface' (path.trans path')
    | superclass _ _ chain =>
      obtain ⟨_, hfirst, _⟩ := TransGen.head'_iff.mp chain
      rw [hg.isInterface_eq_false_of_superclass hfirst] at hinterface
      cases hinterface
  | @superclass a b ha hb chain =>
    cases hbc with
    | refl => exact .superclass ha hb chain
    | object => exact .object a
    | cloneable hb' => simp [hb] at hb'
    | serializable hb' => simp [hb] at hb'
    | elements hy => simp [ClassName.isArray_of_element? hy] at hb
    | interface _ hc hinterface path =>
      have hup := path_of_superclasses chain.to_reflTransGen
      exact .interface ha hc hinterface (hup.trans path)
    | superclass _ hc chain' => exact .superclass ha hc (chain.trans chain')

theorem isAssignable_trans (hg : g.Ordered) (hab : g.isAssignable a b = true)
    (hbc : g.isAssignable b c = true) : g.isAssignable a c = true := by
  rw [hg.isAssignable_iff_assigns] at hab hbc ⊢
  exact hg.assigns_trans hab hbc

end Ordered
end Hierarchy
end ClassAssembly
