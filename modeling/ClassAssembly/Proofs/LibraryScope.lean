import ClassAssembly.Proofs.NearestCommon

/-! The hierarchy of the standard library keeps what hierarchies promise, and so does a class that
is assembled over it. -/
namespace ClassAssembly

open Relation (TransGen)

namespace Hierarchy

/-- Nothing is above itself if some measure becomes smaller with each step up. -/
lemma acyclic_of_measure {up : ClassName → ClassName → Prop} (measure : ClassName → Nat)
    (h : ∀ a b, up a b → measure b < measure a) (name : ClassName) : ¬TransGen up name name := by
  intro hcycle
  have hless : ∀ b, TransGen up name b → measure b < measure name := by
    intro b hb
    induction hb with
    | single hab => exact h _ _ hab
    | tail _ hbc ih => exact Nat.lt_trans (h _ _ hbc) ih
  exact Nat.lt_irrefl _ (hless name hcycle)

/-- How far a class is below `java/lang/Object`; one that is not registered counts as the
farthest. -/
def libraryDepth (name : ClassName) : Nat :=
  if name = .object then 0
  else if (library.get? name).isSome then (library.superclasses name).length + 1
  else library.classes.length

lemma mem_of_get? {g : Hierarchy} {name : ClassName} {declaration : ClassDeclaration}
    (h : g.get? name = some declaration) : (name, declaration) ∈ g.classes := by
  obtain ⟨before, after, heq, _⟩ := List.lookup_eq_some_iff.mp h
  rw [heq]
  simp

theorem library_lawful : library.Lawful where
  acyclic := by
    refine acyclic_of_measure libraryDepth fun a b hab => ?_
    have hregistered : ∀ entry ∈ library.classes, ∀ parent ∈ library.parents entry.1,
        libraryDepth parent < libraryDepth entry.1 := by
      decide +kernel
    cases hget : library.get? a with
    | some declaration => exact hregistered _ (mem_of_get? hget) b hab
    | none =>
      have hne : a ≠ .object := by
        rintro rfl
        exact absurd hget (by decide +kernel)
      simp only [Parent, parents, hget, if_neg hne, List.mem_singleton] at hab
      subst hab
      simp only [libraryDepth, if_neg hne, hget, if_true, Option.isSome_none, Bool.false_eq_true,
        if_false]
      decide
  library_kept := by decide +kernel
  interface_superclass name declaration h := by
    have hall : ∀ entry ∈ library.classes, entry.2.isInterface → entry.2.superclass = none := by
      decide +kernel
    exact hall _ (mem_of_get? h)
  internal name declaration h := by
    have hall : ∀ entry ∈ library.classes, entry.1.IsInternal ∧
        (∀ i ∈ entry.2.interfaces, i.IsInternal) ∧ ∀ s ∈ entry.2.superclass, s.IsInternal := by
      decide +kernel
    exact hall _ (mem_of_get? h)

/-- A class that no registered class mentions is not mentioned at all. -/
lemma not_mem_parents_of_entries {g : Hierarchy} {name : ClassName} (hobject : name ≠ .object)
    (h : ∀ entry ∈ g.classes, name ∉ g.parents entry.1) (other : ClassName) :
    name ∉ g.parents other := by
  cases hget : g.get? other with
  | some declaration => exact h _ (mem_of_get? hget)
  | none =>
    rw [parents, hget]
    by_cases hother : other = .object <;> simp [hother, hobject]

end Hierarchy

namespace ClassScope

/-- A class that is no library class, assembled over the library. -/
theorem lawful_library {name superclass : ClassName} (hname : name.IsInternal)
    (hsuper : superclass.IsInternal) (hget : Hierarchy.library.get? name = none) :
    Lawful ⟨name, superclass, .library⟩ where
  hierarchy := Hierarchy.library_lawful
  this_internal := hname
  super_internal := hsuper
  this_unregistered := hget
  this_undeclared := by
    have hall : ∀ entry ∈ Hierarchy.library.classes, ∀ parent ∈ Hierarchy.library.parents entry.1,
        (Hierarchy.library.get? parent).isSome := by
      decide +kernel
    refine Hierarchy.not_mem_parents_of_entries ?_ fun entry hentry hmem => ?_
    · rintro rfl
      rw [Hierarchy.library_lawful.ordered.get?_object] at hget
      cases hget
    · have hsome := hall entry hentry name hmem
      rw [hget] at hsome
      cases hsome

end ClassScope

/-- A class that extends the root of the library classes. -/
def plainScope : ClassScope := ⟨"me/Current", .object, .library⟩

lemma lawful_plainScope : plainScope.Lawful :=
  have hscope : plainScope.thisClass.IsInternal ∧ plainScope.superClass.IsInternal ∧
      Hierarchy.library.get? plainScope.thisClass = none := by
    decide +kernel
  ClassScope.lawful_library hscope.1 hscope.2.1 hscope.2.2

end ClassAssembly
