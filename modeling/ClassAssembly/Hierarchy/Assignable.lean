import ClassAssembly.Descriptor.Parser
import ClassAssembly.Hierarchy.Basic

/-! Where a value of one class can stand for a value of another: arrays are compared by their
elements, interfaces are searched for in the hierarchy, and classes lie on a chain of
superclasses. -/
namespace ClassAssembly

/-- Class of the elements of an array class; none for arrays of primitives and for what is not the
name of an array class. -/
def ClassName.element? (name : ClassName) : Option ClassName :=
  (FieldType.ofArrayName? name).bind (·.className?)

theorem ClassName.length_lt_of_element? {name element : ClassName}
    (h : name.element? = some element) : element.length < name.length := by
  obtain ⟨t, ht, he⟩ := Option.bind_eq_some_iff.1 h
  exact FieldType.length_lt_of_ofArrayName? ht he

namespace Hierarchy

def isAssignable (g : Hierarchy) (sub super : ClassName) : Bool :=
  if sub = super ∨ super = .object then true
  else if sub.isArray then
    if super = .cloneable ∨ super = .serializable then true
    else
      match h : sub.element?, super.element? with
      | some subElement, some superElement =>
        have := ClassName.length_lt_of_element? h
        g.isAssignable subElement superElement
      | _, _ => false
  else if super.isArray then false
  else if g.isInterface super then g.implements sub super
  else super ∈ g.superclasses sub
termination_by sub.length

end Hierarchy
end ClassAssembly
