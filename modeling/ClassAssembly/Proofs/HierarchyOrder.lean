import ClassAssembly.Hierarchy.Assignable
import ClassAssembly.Proofs.SupertypeSearch
import Mathlib.Data.List.Perm.Subperm

/-! What assignability follows. The chain of superclasses is complete where there is no cycle, and so
assignability between classes and interfaces is antisymmetric where nothing is above itself. -/
namespace ClassAssembly

open Relation (ReflTransGen TransGen)

/-- A name as class files write it: no dots, and nothing that has a meaning in descriptors. -/
def ClassName.IsInternal (name : ClassName) : Prop :=
  name ≠ "" ∧ ∀ c ∈ name.toList, c ≠ '.' ∧ c ≠ ';' ∧ c ≠ '['

-- The letters of the name are looked at, not all letters.
instance (name : ClassName) : Decidable name.IsInternal :=
  have : Decidable (∀ c ∈ name.toList, c ≠ '.' ∧ c ≠ ';' ∧ c ≠ '[') := List.decidableBAll _ _
  inferInstanceAs (Decidable (_ ∧ _))

namespace Hierarchy

variable {g : Hierarchy} {a b c : ClassName}

def Superclass (g : Hierarchy) (a b : ClassName) : Prop := g.superclass? a = some b

/-- What the declarations of a hierarchy promise. -/
structure Lawful (g : Hierarchy) : Prop where
  acyclic : ∀ name, ¬TransGen g.Parent name name
  library_kept : ∀ entry ∈ library.classes, g.get? entry.1 = some entry.2
  interface_superclass : ∀ name declaration, g.get? name = some declaration →
    declaration.isInterface → declaration.superclass = none
  internal : ∀ name declaration, g.get? name = some declaration →
    name.IsInternal ∧ (∀ i ∈ declaration.interfaces, i.IsInternal) ∧
      ∀ s ∈ declaration.superclass, s.IsInternal

/-- What assignability needs to be an order: chains of superclasses end, the library is as it was, and
an interface has no superclass. Interfaces may lead to each other in a circle, and names are any. -/
structure Ordered (g : Hierarchy) : Prop where
  acyclic : ∀ name, ¬TransGen g.Superclass name name
  library_kept : ∀ entry ∈ library.classes, g.get? entry.1 = some entry.2
  interface_superclass : ∀ name declaration, g.get? name = some declaration →
    declaration.isInterface → declaration.superclass = none

lemma parent_of_superclass (h : g.Superclass a b) : g.Parent a b := by
  unfold Superclass superclass? at h
  unfold Parent parents
  split at h
  · cases h
  · rename_i hne
    cases hget : g.get? a with
    | none => simp_all
    | some declaration => simp_all

lemma path_of_superclasses (h : ReflTransGen g.Superclass a b) : ReflTransGen g.Parent a b :=
  ReflTransGen.mono (fun _ _ => parent_of_superclass) _ _ h

/-- What stands above a class has an internal name if all names that are declared are internal. -/
lemma internal_of_parent (hinternal : ∀ name declaration, g.get? name = some declaration →
    name.IsInternal ∧ (∀ i ∈ declaration.interfaces, i.IsInternal) ∧
      ∀ s ∈ declaration.superclass, s.IsInternal) (h : g.Parent a b) : b.IsInternal := by
  unfold Parent parents at h
  split at h
  · rename_i declaration hget
    obtain ⟨_, hinterfaces, hsuper⟩ := hinternal a declaration hget
    rcases List.mem_append.mp h with hmem | hmem
    · exact hinterfaces b hmem
    · exact hsuper b (Option.mem_toList.mp hmem)
  · split at h
    · cases h
    · rw [List.mem_singleton.mp h]
      decide

lemma superclass_of_mem_superclassesUpTo {n : Nat} (h : b ∈ g.superclassesUpTo n a) :
    TransGen g.Superclass a b := by
  induction n generalizing a with
  | zero => simp [superclassesUpTo] at h
  | succ n ih =>
    unfold superclassesUpTo at h
    split at h
    · cases h
    · rename_i parent hparent
      rcases List.mem_cons.mp h with rfl | h
      · exact .single hparent
      · exact .head hparent (ih h)

lemma isAssignable_self (g : Hierarchy) (a : ClassName) : g.isAssignable a a = true := by
  rw [isAssignable, if_pos (Or.inl rfl)]

lemma isAssignable_object (g : Hierarchy) (a : ClassName) : g.isAssignable a .object = true := by
  rw [isAssignable, if_pos (Or.inr rfl)]

/-- Assignability between names of classes and interfaces. -/
lemma isAssignable_plain_iff (ha : a.isArray = false) (hb : b.isArray = false) :
    g.isAssignable a b = true ↔ a = b ∨ b = .object ∨
      if g.isInterface b then ReflTransGen g.Parent a b else b ∈ g.superclasses a := by
  rw [isAssignable]
  by_cases hab : a = b ∨ b = .object
  · rw [if_pos hab]
    simp only [true_iff]
    exact hab.imp_right .inl
  · simp only [if_neg hab, ha, hb, Bool.false_eq_true, if_false]
    rw [not_or] at hab
    simp only [hab.1, hab.2, false_or]
    split
    · exact implements_iff
    · exact decide_eq_true_iff

/-- A class is assignable to each of its superclasses. -/
lemma isAssignable_superclass (ha : a.isArray = false) (hb : b.isArray = false)
    (h : b ∈ g.superclasses a) : g.isAssignable a b := by
  refine (isAssignable_plain_iff ha hb).mpr (.inr (.inr ?_))
  split
  · exact path_of_superclasses (superclass_of_mem_superclassesUpTo h).to_reflTransGen
  · exact h

/-- Assignability between classes that are no arrays follows the declarations. -/
lemma path_or_object_of_isAssignable (ha : a.isArray = false) (hb : b.isArray = false)
    (h : g.isAssignable a b = true) : b = .object ∨ ReflTransGen g.Parent a b := by
  rcases (isAssignable_plain_iff ha hb).mp h with rfl | hobject | hpath
  · exact .inr .refl
  · exact .inl hobject
  · split at hpath
    · exact .inr hpath
    · have hchain := superclass_of_mem_superclassesUpTo hpath
      exact .inr (path_of_superclasses hchain.to_reflTransGen)

/-- A chain is followed to its end if there is room for the registered names it has not met yet.
Those met before lie below `a`, so `a` is not among them. -/
lemma mem_superclassesUpTo (hacyclic : ∀ name, ¬TransGen g.Superclass name name) (n : Nat)
    (below : List ClassName) (hnodup : below.Nodup) (hregistered : below ⊆ g.classes.map Prod.fst)
    (hbelow : ∀ name ∈ below, TransGen g.Superclass name a)
    (hroom : g.classes.length + 2 ≤ n + below.length) (h : TransGen g.Superclass a b) :
    b ∈ g.superclassesUpTo n a := by
  induction n generalizing a below with
  | zero =>
    have hle := (List.subperm_of_subset hnodup hregistered).length_le
    simp only [List.length_map] at hle
    omega
  | succ n ih =>
    obtain ⟨parent, hparent, hpath⟩ := TransGen.head'_iff.mp h
    have hparent' : g.superclass? a = some parent := hparent
    simp only [superclassesUpTo, hparent', List.mem_cons]
    rcases ReflTransGen.cases_head hpath with rfl | ⟨next, hnext, hrest⟩
    · exact Or.inl rfl
    · right
      have hpath' : TransGen g.Superclass parent b := .head' hnext hrest
      -- Only `java/lang/Object` follows a name that is not registered, and there the chain ends.
      have hget : (g.get? a).isSome := by
        cases hget : g.get? a with
        | some _ => rfl
        | none =>
          have hne : a ≠ ClassName.object := by
            rintro rfl
            simp [superclass?] at hparent'
          simp only [superclass?, hne, hget, if_false, Option.some.injEq] at hparent'
          subst hparent'
          simp [Superclass, superclass?] at hnext
      refine ih (a :: below) ?_ ?_ ?_ ?_ hpath'
      · exact List.nodup_cons.mpr ⟨fun hmem => hacyclic a (hbelow a hmem), hnodup⟩
      · intro name hname
        rcases List.mem_cons.mp hname with rfl | hname
        · obtain ⟨declaration, hdeclaration⟩ := Option.isSome_iff_exists.mp hget
          obtain ⟨before, after, hclasses, _⟩ := List.lookup_eq_some_iff.mp hdeclaration
          exact List.mem_map.mpr ⟨(name, declaration), by simp [hclasses], rfl⟩
        · exact hregistered hname
      · intro name hname
        rcases List.mem_cons.mp hname with rfl | hname
        · exact .single hparent
        · exact .tail (hbelow name hname) hparent
      · simp only [List.length_cons]
        omega

/-- Where chains of superclasses end, all of each chain is found. -/
theorem mem_superclasses_iff (hacyclic : ∀ name, ¬TransGen g.Superclass name name) :
    b ∈ g.superclasses a ↔ TransGen g.Superclass a b :=
  ⟨superclass_of_mem_superclassesUpTo,
    mem_superclassesUpTo hacyclic _ [] List.nodup_nil (by simp) (by simp) (by simp)⟩

namespace Ordered

lemma get?_object (hg : g.Ordered) : g.get? .object = some ⟨none, [], false⟩ :=
  hg.library_kept (.object, ⟨none, [], false⟩) (by simp [library])

lemma not_parent_object (hg : g.Ordered) : ¬g.Parent .object b := by
  simp [Parent, parents, hg.get?_object]

lemma isAssignable_iff (hg : g.Ordered) (ha : a.isArray = false) (hb : b.isArray = false) :
    g.isAssignable a b = true ↔ a = b ∨ b = .object ∨
      if g.isInterface b then ReflTransGen g.Parent a b else TransGen g.Superclass a b := by
  rw [isAssignable_plain_iff ha hb, mem_superclasses_iff hg.acyclic]

lemma eq_object_of_isAssignable (hg : g.Ordered) (hb : b.isArray = false)
    (h : g.isAssignable .object b) : b = .object := by
  by_contra hne
  have hpath := (path_or_object_of_isAssignable (by decide) hb h).resolve_left hne
  rcases ReflTransGen.cases_head hpath with heq | ⟨_, hparent, _⟩
  · exact hne heq.symm
  · exact hg.not_parent_object hparent

/-- Only classes have superclasses. -/
lemma isInterface_eq_false_of_superclass (hg : g.Ordered) (h : g.Superclass a b) :
    g.isInterface a = false := by
  unfold Superclass superclass? at h
  split at h
  · cases h
  · cases hget : g.get? a with
    | none => simp [isInterface, hget]
    | some declaration =>
      rw [hget] at h
      by_contra hinterface
      have hnone := hg.interface_superclass a declaration hget
        (by simpa [isInterface, hget] using hinterface)
      simp [hnone] at h

end Ordered

namespace Lawful

lemma ordered (hg : g.Lawful) : g.Ordered where
  acyclic name h := hg.acyclic name (TransGen.mono (fun _ _ => parent_of_superclass) _ _ h)
  library_kept := hg.library_kept
  interface_superclass := hg.interface_superclass

theorem isAssignable_antisymm (hg : g.Lawful) (ha : a.isArray = false) (hb : b.isArray = false)
    (hab : g.isAssignable a b) (hba : g.isAssignable b a) : a = b := by
  by_contra hne
  have hb' : b ≠ .object := by
    rintro rfl
    exact hne (hg.ordered.eq_object_of_isAssignable ha hba)
  have ha' : a ≠ .object := by
    rintro rfl
    exact hne (hg.ordered.eq_object_of_isAssignable hb hab).symm
  have hthere := (path_or_object_of_isAssignable ha hb hab).resolve_left hb'
  have hback := (path_or_object_of_isAssignable hb ha hba).resolve_left ha'
  rcases ReflTransGen.cases_head hthere with heq | ⟨next, hstep, hrest⟩
  · exact hne heq
  · exact hg.acyclic a (TransGen.head' hstep (hrest.trans hback))

lemma internal_of_mem_superclasses (hg : g.Lawful) (h : b ∈ g.superclasses a) : b.IsInternal := by
  obtain ⟨_, _, hlast⟩ := TransGen.tail'_iff.mp (superclass_of_mem_superclassesUpTo h)
  exact internal_of_parent hg.internal (parent_of_superclass hlast)

end Lawful

lemma isAssignable_array (ha : a.isArray = false) (hb : b.isArray = true) :
    g.isAssignable a b = false := by
  have hne : a ≠ b := by
    rintro rfl
    simp [ha] at hb
  have hobject : b ≠ ClassName.object := by
    rintro rfl
    exact absurd hb (by decide)
  rw [isAssignable]
  simp [hne, hobject, ha, hb]

end Hierarchy
end ClassAssembly
