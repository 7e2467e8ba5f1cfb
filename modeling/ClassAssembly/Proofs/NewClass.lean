import ClassAssembly.Proofs.LibraryScope
import ClassAssembly.Proofs.MergeOrder

/-! Registering one more class, which nothing mentions yet, leaves what is declared about the classes
around the one being assembled in order. -/
namespace ClassAssembly

open Relation (TransGen)

namespace Hierarchy

variable {g : Hierarchy} {name : ClassName} {declaration : ClassDeclaration}

/-- More ways up from a name that nothing leads to close no cycle. -/
lemma acyclic_of_fresh {up up' : ClassName → ClassName → Prop} (hup : ∀ a, ¬TransGen up a a)
    (hold : ∀ a b, a ≠ name → up' a b → up a b) (hfresh : ∀ a, ¬up' a name) (a : ClassName) :
    ¬TransGen up' a a := by
  intro hcycle
  have hne : a ≠ name := by
    rintro rfl
    obtain ⟨_, _, hlast⟩ := TransGen.tail'_iff.mp hcycle
    exact hfresh _ hlast
  have hpath : ∀ b c, TransGen up' b c → b ≠ name → TransGen up b c := by
    intro b c h
    induction h using TransGen.head_induction_on with
    | single hstep => exact fun hb => .single (hold _ _ hb hstep)
    | head hstep _ ih =>
      intro hb
      refine .head (hold _ _ hb hstep) (ih ?_)
      rintro rfl
      exact hfresh _ hstep
  exact hup a (hpath a a hcycle hne)

lemma get?_add_internal (hname : name.IsInternal) (other : ClassName) :
    (g.add name declaration).get? other =
      if other = name then some declaration else g.get? other := by
  rw [get?_add, ClassName.canonical_eq_iff.mpr hname.undotted]

lemma parents_add (hname : name.IsInternal) (other : ClassName) :
    (g.add name declaration).parents other =
      if other = name then declaration.interfaces ++ declaration.superclass.toList
      else g.parents other := by
  rw [parents, get?_add_internal hname]
  by_cases h : other = name
  · rw [if_pos h, if_pos h]
  · rw [if_neg h, if_neg h, parents]

lemma superclass?_add (hname : name.IsInternal) (hobject : name ≠ .object) (other : ClassName) :
    (g.add name declaration).superclass? other =
      if other = name then declaration.superclass else g.superclass? other := by
  rw [superclass?, get?_add_internal hname]
  by_cases h : other = name
  · rw [if_pos h, if_pos h, if_neg (h ▸ hobject)]
  · rw [if_neg h, if_neg h, superclass?]

lemma isInterface_add (hname : name.IsInternal) (other : ClassName) :
    (g.add name declaration).isInterface other =
      if other = name then declaration.isInterface else g.isInterface other := by
  rw [isInterface, get?_add_internal hname]
  by_cases h : other = name
  · rw [if_pos h, if_pos h, Option.any_some]
  · rw [if_neg h, if_neg h, isInterface]

/-- What no class mentions and the new one does not either is still not mentioned. -/
lemma not_mem_parents_add {fresh : ClassName} (hname : name.IsInternal)
    (hold : ∀ other, fresh ∉ g.parents other)
    (hnew : fresh ∉ declaration.interfaces ++ declaration.superclass.toList) (other : ClassName) :
    fresh ∉ (g.add name declaration).parents other := by
  rw [parents_add hname]
  split
  · exact hnew
  · exact hold other

end Hierarchy

namespace ClassScope

/-- The scope with one more class registered. -/
def register (c : ClassScope) (name : ClassName) (declaration : ClassDeclaration) : ClassScope :=
  { c with hierarchy := c.hierarchy.add name declaration }

variable {c : ClassScope} {name : ClassName} {declaration : ClassDeclaration}

/-- The class can be registered: nothing mentions it, it is neither a library class nor the one being
assembled, and it mentions neither itself nor that one. -/
structure Registrable (c : ClassScope) (name : ClassName) (declaration : ClassDeclaration) : Prop where
  internal : name.IsInternal
  not_library : Hierarchy.library.get? name = none
  ne_this : name ≠ c.thisClass
  fresh : ∀ entry ∈ c.hierarchy.classes, name ∉ c.hierarchy.parents entry.1
  parents : ∀ parent ∈ declaration.interfaces ++ declaration.superclass.toList,
    parent.IsInternal ∧ parent ≠ name ∧ parent ≠ c.thisClass

lemma registrable_iff : c.Registrable name declaration ↔
    name.IsInternal ∧ Hierarchy.library.get? name = none ∧ name ≠ c.thisClass ∧
      (∀ entry ∈ c.hierarchy.classes, name ∉ c.hierarchy.parents entry.1) ∧
      ∀ parent ∈ declaration.interfaces ++ declaration.superclass.toList,
        parent.IsInternal ∧ parent ≠ name ∧ parent ≠ c.thisClass := by
  constructor
  · intro h
    exact ⟨h.internal, h.not_library, h.ne_this, h.fresh, h.parents⟩
  · rintro ⟨hinternal, hlibrary, hthis, hfresh, hparents⟩
    exact ⟨hinternal, hlibrary, hthis, hfresh, hparents⟩

instance (c : ClassScope) (name : ClassName) (declaration : ClassDeclaration) :
    Decidable (c.Registrable name declaration) := decidable_of_iff' _ registrable_iff

namespace Registrable

lemma ne_object (h : c.Registrable name declaration) : name ≠ .object := by
  rintro rfl
  have hlibrary := h.not_library
  rw [Hierarchy.library_lawful.ordered.get?_object] at hlibrary
  cases hlibrary

lemma superclass?_register (h : c.Registrable name declaration) (other : ClassName) :
    (c.register name declaration).hierarchy.superclass? other =
      if other = name then declaration.superclass else c.hierarchy.superclass? other :=
  Hierarchy.superclass?_add h.internal h.ne_object other

lemma isInterface_register (h : c.Registrable name declaration) (other : ClassName) :
    (c.register name declaration).hierarchy.isInterface other =
      if other = name then declaration.isInterface else c.hierarchy.isInterface other :=
  Hierarchy.isInterface_add h.internal other

/-- Nothing is below the new class. -/
lemma unmentioned (h : c.Registrable name declaration) (other : ClassName) :
    name ∉ (c.register name declaration).hierarchy.parents other :=
  Hierarchy.not_mem_parents_add h.internal
    (Hierarchy.not_mem_parents_of_entries h.ne_object h.fresh)
    (fun hmem => (h.parents name hmem).2.1 rfl) other

lemma this_undeclared (h : c.Registrable name declaration)
    (hthis : ∀ other, c.thisClass ∉ c.hierarchy.parents other) (other : ClassName) :
    (c.register name declaration).thisClass ∉
      (c.register name declaration).hierarchy.parents other :=
  Hierarchy.not_mem_parents_add h.internal hthis (fun hmem => (h.parents _ hmem).2.2 rfl) other

/-- All names are still internal. -/
lemma names_internal (h : c.Registrable name declaration)
    (hold : ∀ other found, c.hierarchy.get? other = some found →
      other.IsInternal ∧ (∀ i ∈ found.interfaces, i.IsInternal) ∧
        ∀ s ∈ found.superclass, s.IsInternal)
    (other : ClassName) (found : ClassDeclaration)
    (hfound : (c.register name declaration).hierarchy.get? other = some found) :
    other.IsInternal ∧ (∀ i ∈ found.interfaces, i.IsInternal) ∧
      ∀ s ∈ found.superclass, s.IsInternal := by
  rw [ClassScope.register, Hierarchy.get?_add_internal h.internal] at hfound
  split at hfound
  · rename_i heq
    cases hfound
    rw [heq]
    exact ⟨h.internal, fun i hi => (h.parents i (List.mem_append_left _ hi)).1, fun s hs =>
      (h.parents s (List.mem_append_right _ (Option.mem_toList.mpr hs))).1⟩
  · exact hold other found hfound

end Registrable

theorem WellDeclared.register (hc : c.WellDeclared) (h : c.Registrable name declaration) :
    (c.register name declaration).WellDeclared where
  acyclic := by
    refine Hierarchy.acyclic_of_fresh hc.acyclic (fun a b ha hab => ?_) h.unmentioned
    rwa [Hierarchy.Parent, ClassScope.register, Hierarchy.parents_add h.internal, if_neg ha] at hab
  library_kept entry hentry := by
    have hne : entry.1 ≠ name := by
      rintro rfl
      have hlibrary := h.not_library
      rw [Hierarchy.library_lawful.library_kept entry hentry] at hlibrary
      cases hlibrary
    rw [ClassScope.register, Hierarchy.get?_add_internal h.internal, if_neg hne]
    exact hc.library_kept entry hentry
  internal := h.names_internal hc.internal
  this_internal := hc.this_internal
  super_internal := hc.super_internal
  this_unregistered := by
    rw [ClassScope.register, Hierarchy.get?_add_internal h.internal, if_neg h.ne_this.symm]
    exact hc.this_unregistered
  this_undeclared := h.this_undeclared hc.this_undeclared

end ClassScope
end ClassAssembly
