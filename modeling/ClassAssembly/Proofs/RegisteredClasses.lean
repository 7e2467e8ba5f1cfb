import ClassAssembly.Proofs.LibraryScope
import Mathlib.Data.List.Induction

/-! Hierarchies as they come about: classes and interfaces are registered beside the library, one
after the other. Unless a class of the library is registered again or a class ends up above itself,
assignability is a preorder, whatever names are used. -/
namespace ClassAssembly

open Relation (TransGen)

/-- A class or an interface as it is registered, with the names as they are passed. -/
inductive Registration where
  | plain (name superclass : String) (interfaces : List String)
  | interface (name : String) (interfaces : List String)
deriving DecidableEq

namespace Registration

def name : Registration → String
  | plain name _ _ => name
  | interface name _ => name

def declaration : Registration → ClassDeclaration
  | plain _ superclass interfaces => .plain superclass interfaces
  | interface _ interfaces => .interface interfaces

end Registration

namespace Hierarchy

variable {registrations : List Registration} {name : ClassName} {declaration : ClassDeclaration}

/-- The library with classes registered beside it. -/
def registered (registrations : List Registration) : Hierarchy :=
  registrations.foldl (fun g r => g.add r.name r.declaration) library

lemma get?_registered_append (r : Registration) :
    (registered (registrations ++ [r])).get? name =
      if name = ClassName.canonical r.name then some r.declaration
      else (registered registrations).get? name := by
  simp only [registered, List.foldl_append, List.foldl_cons, List.foldl_nil, get?_add]

/-- What is known of a class was registered for it or stands in the library. -/
lemma get?_registered (h : (registered registrations).get? name = some declaration) :
    (∃ r ∈ registrations, ClassName.canonical r.name = name ∧ r.declaration = declaration) ∨
      library.get? name = some declaration := by
  induction registrations using List.reverseRecOn with
  | nil => exact .inr h
  | append_singleton earlier r ih =>
    rw [get?_registered_append] at h
    split at h
    · rename_i heq
      cases h
      exact .inl ⟨r, by simp, heq.symm, rfl⟩
    · refine (ih h).imp_left ?_
      rintro ⟨other, hmem, hother⟩
      exact ⟨other, by simp [hmem], hother⟩

lemma get?_registered_of_ne (h : ∀ r ∈ registrations, ClassName.canonical r.name ≠ name) :
    (registered registrations).get? name = library.get? name := by
  induction registrations using List.reverseRecOn with
  | nil => rfl
  | append_singleton earlier r ih =>
    rw [get?_registered_append, if_neg (Ne.symm (h r (by simp)))]
    exact ih fun other hmem => h other (by simp [hmem])

/-- A registered interface has no superclass, so the order needs the library and an end of each
chain of superclasses only. -/
lemma ordered_registered
    (hkept : ∀ r ∈ registrations, library.get? (ClassName.canonical r.name) = none)
    (hacyclic : ∀ name, ¬TransGen (registered registrations).Superclass name name) :
    (registered registrations).Ordered where
  acyclic := hacyclic
  library_kept entry hentry := by
    have hlibrary := library_lawful.library_kept entry hentry
    rw [get?_registered_of_ne, hlibrary]
    intro r hr heq
    rw [← heq, hkept r hr] at hlibrary
    cases hlibrary
  interface_superclass name declaration hget hinterface := by
    rcases get?_registered hget with ⟨r, _, _, rfl⟩ | hlibrary
    · cases r with
      | plain => cases hinterface
      | interface => rfl
    · exact library_lawful.interface_superclass name declaration hlibrary hinterface

/-- Assignability holds exactly where its rules lead, from each name to itself and over each name in
between: known and unknown classes, interfaces that extend each other in a circle, and array
classes, whether their names can be read or not. -/
theorem isAssignable_preorder
    (hkept : ∀ r ∈ registrations, library.get? (ClassName.canonical r.name) = none)
    (hacyclic : ∀ name, ¬TransGen (registered registrations).Superclass name name) :
    (∀ a b, (registered registrations).isAssignable a b = true ↔
      (registered registrations).Assigns a b) ∧
    (∀ a, (registered registrations).isAssignable a a = true) ∧
    ∀ a b c, (registered registrations).isAssignable a b = true →
      (registered registrations).isAssignable b c = true →
      (registered registrations).isAssignable a c = true := by
  have hg := ordered_registered hkept hacyclic
  exact ⟨fun _ _ => hg.isAssignable_iff_assigns, isAssignable_self _,
    fun _ _ _ => hg.isAssignable_trans⟩

/-- Chains of superclasses end if the superclass of each registered class has a shorter chain. -/
lemma superclass_acyclic_of_shorter {g : Hierarchy}
    (h : ∀ entry ∈ g.classes, ∀ s ∈ g.superclass? entry.1,
      (g.superclasses s).length < (g.superclasses entry.1).length) (name : ClassName) :
    ¬TransGen g.Superclass name name := by
  refine acyclic_of_measure (fun name => (g.superclasses name).length) (fun a b hab => ?_) name
  cases hget : g.get? a with
  | some declaration => exact h _ (mem_of_get? hget) b hab
  | none =>
    have hne : a ≠ .object := by
      rintro rfl
      simp [Superclass, superclass?] at hab
    have hobject : g.superclass? .object = none := by simp [superclass?]
    have hb : g.superclass? a = some .object := by simp [superclass?, hne, hget]
    obtain rfl : .object = b := Option.some.inj (hb.symm.trans hab)
    simp [superclasses, superclassesUpTo, hb, hobject]

/-- Two interfaces that extend each other, and a class below an unknown one. -/
def ringRegistrations : List Registration :=
  [.interface "me/Ring" ["me.Chain", "me/Chain"], .interface "me/Chain" ["me/Ring"],
    .plain "me.Link" "me/Unknown" ["me/Chain"]]

theorem ringRegistrations_preorder :
    (∀ r ∈ ringRegistrations, library.get? (ClassName.canonical r.name) = none) ∧
      (∀ name, ¬TransGen (registered ringRegistrations).Superclass name name) ∧
      (registered ringRegistrations).isAssignable "[[Lme/Link;" "[[Lme/Chain;" = true ∧
      (registered ringRegistrations).isAssignable "[[Lme/Chain;" "[[Lme/Ring;" = true ∧
      (registered ringRegistrations).isAssignable "[[Lme/Link;" "[[Lme/Ring;" = true ∧
      (registered ringRegistrations).isAssignable "[[Lme/Ring;" "[[Lme/Chain;" = true ∧
      (registered ringRegistrations).isAssignable "[[Lme/Ring;" "[[Lme/Link;" = false := by
  have hkept : ∀ r ∈ ringRegistrations, library.get? (ClassName.canonical r.name) = none := by
    decide +kernel
  have hacyclic := superclass_acyclic_of_shorter (g := registered ringRegistrations)
    (by decide +kernel)
  obtain ⟨_, _, htrans⟩ := isAssignable_preorder hkept hacyclic
  have hlink : (registered ringRegistrations).isAssignable "[[Lme/Link;" "[[Lme/Chain;" = true := by
    decide +kernel
  have hchain :
      (registered ringRegistrations).isAssignable "[[Lme/Chain;" "[[Lme/Ring;" = true := by
    decide +kernel
  refine ⟨hkept, hacyclic, hlink, hchain, htrans _ _ _ hlink hchain, ?_, ?_⟩
  · decide +kernel
  · decide +kernel

end Hierarchy
end ClassAssembly
