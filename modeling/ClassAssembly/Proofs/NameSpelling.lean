import ClassAssembly.Proofs.PoolGrowth
import ClassAssembly.Proofs.RegisteredClasses

/-! How class names are spelled when classes are registered. The name of the class itself is put in
slash form, but the names of its superclass and its interfaces are kept as they are written, so a
dotted one stands for an unknown class beside the one that was meant. Relations are only ever lost
by that, and none is lost exactly if each class still finds its own parents. -/
namespace ClassAssembly

open Relation (ReflTransGen TransGen)

namespace ClassName

lemma undotted_canonical (name : ClassName) : '.' ∉ (canonical name).toList :=
  canonical_eq_iff.mp (canonical_canonical name)

lemma canonical_object : canonical object = object := by
  decide

lemma isArray_canonical (name : ClassName) : (canonical name).isArray = name.isArray := by
  unfold isArray canonical
  rw [String.toList_ofList]
  cases name.toList with
  | nil => rfl
  | cons first rest =>
    by_cases h : first = '.'
    · subst h
      rfl
    · simp [h]

lemma canonical_arrayOf (name : ClassName) :
    canonical (arrayOf name) = arrayOf (canonical name) := by
  apply String.toList_inj.mp
  rw [toList_arrayOf, spelled, isArray_canonical, canonical, String.toList_ofList, toList_arrayOf,
    spelled]
  split <;> simp [canonical]

end ClassName

/-- The declaration with all names in slash form. -/
def ClassDeclaration.respelled (declaration : ClassDeclaration) : ClassDeclaration where
  superclass := declaration.superclass.map ClassName.canonical
  interfaces := declaration.interfaces.map ClassName.canonical
  isInterface := declaration.isInterface

lemma ClassDeclaration.respelled_eq_self {declaration : ClassDeclaration}
    (hinterfaces : ∀ i ∈ declaration.interfaces, '.' ∉ i.toList)
    (hsuper : ∀ s ∈ declaration.superclass, '.' ∉ s.toList) :
    declaration.respelled = declaration := by
  obtain ⟨superclass, interfaces, isInterface⟩ := declaration
  rw [respelled, ClassDeclaration.mk.injEq]
  refine ⟨?_, ?_, rfl⟩
  · cases superclass with
    | none => rfl
    | some s => exact congrArg some (ClassName.canonical_eq_iff.mpr (hsuper s rfl))
  · exact (List.map_congr_left fun i hi => ClassName.canonical_eq_iff.mpr (hinterfaces i hi)).trans
      (List.map_id interfaces)

/-- The registration with all names in slash form. -/
def Registration.respelled : Registration → Registration
  | plain name superclass interfaces =>
    plain (ClassName.canonical name) (ClassName.canonical superclass)
      (interfaces.map ClassName.canonical)
  | interface name interfaces =>
    interface (ClassName.canonical name) (interfaces.map ClassName.canonical)

lemma Registration.name_respelled (r : Registration) :
    r.respelled.name = ClassName.canonical r.name := by
  cases r <;> rfl

lemma Registration.declaration_respelled (r : Registration) :
    r.respelled.declaration = r.declaration.respelled := by
  cases r <;> rfl

namespace Hierarchy

/-- The hierarchies give the same answers to questions in slash form, where a nearest common class
is compared in slash form. -/
structure SameAnswers (g h : Hierarchy) : Prop where
  isInterface : ∀ a, '.' ∉ a.toList → g.isInterface a = h.isInterface a
  isAssignable : ∀ a b, '.' ∉ a.toList → '.' ∉ b.toList → g.isAssignable a b = h.isAssignable a b
  nearestCommon : ∀ thisClass superClass a b : ClassName, '.' ∉ thisClass.toList →
    '.' ∉ superClass.toList → '.' ∉ a.toList → '.' ∉ b.toList →
    ClassName.canonical (ClassScope.nearestCommon ⟨thisClass, superClass, g⟩ a b) =
      ClassName.canonical (ClassScope.nearestCommon ⟨thisClass, superClass, h⟩ a b)

/-- Each class is assignable to its superclass and its interfaces under their names in slash
form. -/
def FindsParents (g : Hierarchy) : Prop :=
  ∀ a p, g.Parent a p → g.isAssignable a (ClassName.canonical p) = true

/-- No array class is declared, what is named as an interface is one, and what is named as a
superclass is none. -/
def WellKinded (g : Hierarchy) : Prop :=
  ∀ name declaration, g.get? name = some declaration → name.isArray = false ∧
    (∀ i ∈ declaration.interfaces, i.isArray = false ∧ g.isInterface i = true) ∧
    ∀ s ∈ declaration.superclass, s.isArray = false ∧ g.isInterface s = false

/-- `h` has the declarations of `g` in slash form. -/
structure Respells (g h : Hierarchy) : Prop where
  get?_eq : ∀ name, h.get? name = (g.get? name).map ClassDeclaration.respelled
  undotted : ∀ name, '.' ∈ name.toList → g.get? name = none
  length_eq : h.classes.length = g.classes.length

namespace Respells

variable {g h : Hierarchy} {a b p : ClassName}

lemma isInterface_eq (hs : g.Respells h) (a : ClassName) : h.isInterface a = g.isInterface a := by
  rw [isInterface, isInterface, hs.get?_eq]
  cases g.get? a <;> rfl

lemma parents_eq (hs : g.Respells h) (a : ClassName) :
    h.parents a = (g.parents a).map ClassName.canonical := by
  rw [parents, parents, hs.get?_eq]
  cases g.get? a with
  | some declaration => cases hsuper : declaration.superclass <;>
      simp [ClassDeclaration.respelled, hsuper]
  | none =>
    by_cases hobject : a = .object
    · simp [hobject]
    · simp [hobject, ClassName.canonical_object]

lemma superclass?_eq (hs : g.Respells h) (a : ClassName) :
    h.superclass? a = (g.superclass? a).map ClassName.canonical := by
  rw [superclass?, superclass?, hs.get?_eq]
  split
  · rfl
  · cases g.get? a with
    | some declaration => rfl
    | none => simp [ClassName.canonical_object]

lemma parent (hs : g.Respells h) (hab : g.Parent a b) : h.Parent a (ClassName.canonical b) := by
  rw [Parent, hs.parents_eq]
  exact List.mem_map_of_mem hab

lemma exists_parent (hs : g.Respells h) (hab : h.Parent a b) :
    ∃ p, g.Parent a p ∧ ClassName.canonical p = b := by
  rw [Parent, hs.parents_eq] at hab
  exact List.mem_map.mp hab

lemma superclass (hs : g.Respells h) (hab : g.Superclass a b) :
    h.Superclass a (ClassName.canonical b) := by
  rw [Superclass, hs.superclass?_eq, hab]
  rfl

/-- A dotted name is that of an unknown class. -/
lemma eq_object_of_dotted (hs : g.Respells h) (ha : '.' ∈ a.toList) (hab : g.Parent a b) :
    b = .object := by
  have hne : a ≠ .object := by
    rintro rfl
    exact absurd ha (by decide)
  rw [Parent, parents, hs.undotted a ha, if_neg hne] at hab
  exact List.mem_singleton.mp hab

lemma not_parent_object (hs : g.Respells h) (hh : h.Ordered) : ¬g.Parent .object b := by
  intro hb
  exact hh.not_parent_object (hs.parent hb)

lemma eq_object_of_path_object (hs : g.Respells h) (hh : h.Ordered)
    (path : ReflTransGen g.Parent .object b) : b = .object := by
  rcases ReflTransGen.cases_head path with heq | ⟨_, hnext, _⟩
  · exact heq.symm
  · exact absurd hnext (hs.not_parent_object hh)

/-- A way up from a dotted name goes to `java/lang/Object` at once. -/
lemma eq_or_object_of_path_dotted (hs : g.Respells h) (hh : h.Ordered) (ha : '.' ∈ a.toList)
    (path : ReflTransGen g.Parent a b) : b = a ∨ b = .object := by
  rcases ReflTransGen.cases_head path with heq | ⟨next, hnext, hrest⟩
  · exact .inl heq.symm
  · rw [hs.eq_object_of_dotted ha hnext] at hrest
    exact .inr (hs.eq_object_of_path_object hh hrest)

/-- So there is no dotted name on a way up to a name in slash form that is not that of
`java/lang/Object`. -/
lemma undotted_of_path (hs : g.Respells h) (hh : h.Ordered) (hb : '.' ∉ b.toList)
    (hne : b ≠ .object) (path : ReflTransGen g.Parent a b) : '.' ∉ a.toList := by
  intro ha
  rcases hs.eq_or_object_of_path_dotted hh ha path with rfl | heq
  · exact hb ha
  · exact hne heq

lemma path (hs : g.Respells h) (hh : h.Ordered) (hb : '.' ∉ b.toList) (hne : b ≠ .object)
    (path : ReflTransGen g.Parent a b) : ReflTransGen h.Parent a b := by
  induction path using ReflTransGen.head_induction_on with
  | refl => exact .refl
  | @head a next hstep hrest ih =>
    have hstep' := hs.parent hstep
    rw [ClassName.canonical_eq_iff.mpr (hs.undotted_of_path hh hb hne hrest)] at hstep'
    exact .head hstep' ih

lemma chain (hs : g.Respells h) (hh : h.Ordered) (hb : '.' ∉ b.toList) (hne : b ≠ .object)
    (chain : TransGen g.Superclass a b) : TransGen h.Superclass a b := by
  induction chain using TransGen.head_induction_on with
  | single hstep =>
    have hstep' := hs.superclass hstep
    rw [ClassName.canonical_eq_iff.mpr hb] at hstep'
    exact .single hstep'
  | @head a next hstep hrest ih =>
    have hup := path_of_superclasses hrest.to_reflTransGen
    have hstep' := hs.superclass hstep
    rw [ClassName.canonical_eq_iff.mpr (hs.undotted_of_path hh hb hne hup)] at hstep'
    exact .head hstep' ih

/-- A class above itself is so in slash form, too. -/
lemma acyclic (hs : g.Respells h) (hh : h.Ordered) (name : ClassName) :
    ¬TransGen g.Superclass name name := by
  intro hcycle
  obtain ⟨next, hfirst, hrest⟩ := TransGen.head'_iff.mp hcycle
  have hfirst' := parent_of_superclass hfirst
  have hne : name ≠ .object := by
    rintro rfl
    exact hs.not_parent_object hh hfirst'
  have hname : '.' ∉ name.toList := by
    intro hdot
    have hup := path_of_superclasses hrest
    rw [hs.eq_object_of_dotted hdot hfirst'] at hup
    exact hne (hs.eq_object_of_path_object hh hup)
  exact hh.acyclic name (hs.chain hh hname hne hcycle)

/-- What is assignable remains so in slash form. -/
lemma assigns (hs : g.Respells h) (hh : h.Ordered) (ha : '.' ∉ a.toList) (hb : '.' ∉ b.toList)
    (hab : g.Assigns a b) : h.Assigns a b := by
  induction hab with
  | refl a => exact .refl a
  | object a => exact .object a
  | cloneable harray => exact .cloneable harray
  | serializable harray => exact .serializable harray
  | elements hx hy _ ih =>
    exact .elements hx hy (ih (fun hdot => ha (ClassName.mem_of_element? hx _ hdot))
      (fun hdot => hb (ClassName.mem_of_element? hy _ hdot)))
  | @interface a b ha' hb' hinterface path =>
    by_cases hne : b = .object
    · rw [hne]
      exact .object a
    · exact .interface ha' hb' (by rwa [hs.isInterface_eq]) (hs.path hh hb hne path)
  | @superclass a b ha' hb' chain =>
    by_cases hne : b = .object
    · rw [hne]
      exact .object a
    · exact .superclass ha' hb' (hs.chain hh hb hne chain)

/-- A class with a dotted superclass is not assignable to the class that was meant. -/
lemma isAssignable_dotted (hs : g.Respells h) (hg : g.Ordered) (hh : h.Ordered)
    (hkinds : h.WellKinded) (hab : g.Superclass a b) (hb : '.' ∈ b.toList)
    (hne : ClassName.canonical b ≠ .object) :
    g.isAssignable a (ClassName.canonical b) = false := by
  have hstep := hs.superclass hab
  obtain ⟨ha, hplain, hclass⟩ : a.isArray = false ∧ (ClassName.canonical b).isArray = false ∧
      h.isInterface (ClassName.canonical b) = false := by
    unfold Superclass superclass? at hstep
    split at hstep
    · cases hstep
    · split at hstep
      · rename_i declaration hget
        obtain ⟨ha, _, hsuper⟩ := hkinds a declaration hget
        exact ⟨ha, hsuper _ hstep⟩
      · exact absurd (Option.some.inj hstep).symm hne
  rw [hs.isInterface_eq] at hclass
  by_contra hassignable
  rcases (hg.isAssignable_iff ha hplain).mp (by simpa using hassignable) with heq | heq | hup
  · rw [← heq] at hstep
    exact hh.acyclic a (.single hstep)
  · exact hne heq
  · rw [if_neg (by simp [hclass])] at hup
    obtain ⟨next, hfirst, hrest⟩ := TransGen.head'_iff.mp hup
    obtain rfl : b = next := Option.some.inj (hab.symm.trans hfirst)
    exact hs.undotted_of_path hh (ClassName.undotted_canonical b) hne
      (path_of_superclasses hrest) hb

/-- A parent is one in slash form and can be reached there. -/
lemma isAssignable_parent (hs : g.Respells h) (hh : h.Ordered) (hkinds : h.WellKinded)
    (hab : g.Parent a b) : h.isAssignable a (ClassName.canonical b) = true := by
  have hstep := hs.parent hab
  have hstep' := hstep
  unfold Parent parents at hstep
  split at hstep
  · rename_i declaration hget
    obtain ⟨ha, hinterfaces, hsuper⟩ := hkinds a declaration hget
    rw [hh.isAssignable_iff_assigns]
    rcases List.mem_append.mp hstep with hmem | hmem
    · obtain ⟨hplain, hinterface⟩ := hinterfaces _ hmem
      exact .interface ha hplain hinterface (.single hstep')
    · have hsome := Option.mem_toList.mp hmem
      refine .superclass ha (hsuper _ hsome).1 (.single ?_)
      have hne : a ≠ .object := by
        rintro rfl
        exact hh.not_parent_object hstep'
      simpa [Superclass, superclass?, hne, hget] using hsome
  · split at hstep
    · cases hstep
    · rw [List.mem_singleton.mp hstep]
      exact isAssignable_object h a

lemma canonical_getD_find? {names : List ClassName} {p : ClassName → Bool}
    (h : ∀ m ∈ names, ClassName.canonical m = .object) :
    ClassName.canonical ((names.find? p).getD .object) = .object := by
  cases hfind : names.find? p with
  | none => exact ClassName.canonical_object
  | some m => exact h m (List.mem_of_find?_eq_some hfind)

section Found

variable (hg : g.Ordered) (hh : h.Ordered) (hfinds : g.FindsParents)

include hg hfinds

/-- Where each class finds its parents, each step in slash form can be made. -/
lemma isAssignable_of_path (hs : g.Respells h) (path : ReflTransGen h.Parent a b) :
    g.isAssignable a b = true := by
  induction path using ReflTransGen.head_induction_on with
  | refl => exact isAssignable_self g b
  | @head a next hstep _ ih =>
    obtain ⟨p, hp, rfl⟩ := hs.exists_parent hstep
    exact hg.isAssignable_trans (hfinds a p hp) ih

lemma assigns_of_respelled (hs : g.Respells h) (hab : h.Assigns a b) : g.Assigns a b := by
  induction hab with
  | refl a => exact .refl a
  | object a => exact .object a
  | cloneable ha => exact .cloneable ha
  | serializable ha => exact .serializable ha
  | elements hx hy _ ih => exact .elements hx hy ih
  | interface _ _ _ path =>
    exact hg.isAssignable_iff_assigns.mp (hs.isAssignable_of_path hg hfinds path)
  | superclass _ _ chain =>
    have hup := path_of_superclasses chain.to_reflTransGen
    exact hg.isAssignable_iff_assigns.mp (hs.isAssignable_of_path hg hfinds hup)

include hh

lemma isAssignable_eq (hs : g.Respells h) (ha : '.' ∉ a.toList) (hb : '.' ∉ b.toList) :
    g.isAssignable a b = h.isAssignable a b := by
  rw [Bool.eq_iff_iff, hg.isAssignable_iff_assigns, hh.isAssignable_iff_assigns]
  exact ⟨hs.assigns hh ha hb, hs.assigns_of_respelled hg hfinds⟩

variable (hkinds : h.WellKinded)

include hkinds

/-- The first superclass of `a` that `b` is assignable to. A dotted superclass can only be meant for
`java/lang/Object`, and from there on both sides find that class. -/
lemma canonical_find? (hs : g.Respells h) (ha : '.' ∉ a.toList) (hb : '.' ∉ b.toList) (n : Nat) :
    ClassName.canonical (((g.superclassesUpTo n a).find? (g.isAssignable b ·)).getD .object) =
      ClassName.canonical (((h.superclassesUpTo n a).find? (h.isAssignable b ·)).getD .object) := by
  induction n generalizing a with
  | zero => rfl
  | succ n ih =>
    cases hsuper : g.superclass? a with
    | none => simp [superclassesUpTo, hs.superclass?_eq, hsuper]
    | some s =>
      have hsuper' : h.superclass? a = some (ClassName.canonical s) := hs.superclass hsuper
      simp only [superclassesUpTo, hsuper, hsuper', List.find?_cons]
      by_cases hdot : '.' ∈ s.toList
      · have hs' : ClassName.canonical s = .object := by
          by_contra hne
          have hlost := hs.isAssignable_dotted hg hh hkinds hsuper hdot hne
          rw [hfinds a s (parent_of_superclass hsuper)] at hlost
          cases hlost
        have habove : ∀ m ∈ s :: g.superclassesUpTo n s, ClassName.canonical m = .object := by
          intro m hm
          rcases List.mem_cons.mp hm with rfl | hm
          · exact hs'
          · have hup := path_of_superclasses
              (superclass_of_mem_superclassesUpTo hm).to_reflTransGen
            rcases hs.eq_or_object_of_path_dotted hh hdot hup with rfl | rfl
            · exact hs'
            · exact ClassName.canonical_object
        rw [← List.find?_cons, hs', isAssignable_object, canonical_getD_find? habove]
        exact ClassName.canonical_object.symm
      · rw [ClassName.canonical_eq_iff.mpr hdot, hs.isAssignable_eq hg hh hfinds hb hdot]
        split
        · rfl
        · exact ih hdot

lemma canonical_nearestOfPlain (hs : g.Respells h) (thisClass superClass : ClassName)
    (ha : '.' ∉ a.toList) (hb : '.' ∉ b.toList) :
    ClassName.canonical (ClassScope.nearestOfPlain ⟨thisClass, superClass, g⟩ a b) =
      ClassName.canonical (ClassScope.nearestOfPlain ⟨thisClass, superClass, h⟩ a b) := by
  have hfind := hs.canonical_find? hg hh hfinds hkinds ha hb (g.classes.length + 2)
  simp only [ClassScope.nearestOfPlain, superclasses, hs.isInterface_eq, hs.length_eq,
    hs.isAssignable_eq hg hh hfinds ha hb, hs.isAssignable_eq hg hh hfinds hb ha]
  split
  · rfl
  · split
    · rfl
    · split
      · rfl
      · exact hfind

lemma canonical_nearestWithin (hs : g.Respells h) (thisClass superClass : ClassName)
    (hsuper : '.' ∉ superClass.toList) (ha : '.' ∉ a.toList) (hb : '.' ∉ b.toList) (n : Nat) :
    ClassName.canonical (ClassScope.nearestWithin ⟨thisClass, superClass, g⟩ n a b) =
      ClassName.canonical (ClassScope.nearestWithin ⟨thisClass, superClass, h⟩ n a b) := by
  have hresolve : ∀ {name : ClassName}, '.' ∉ name.toList →
      '.' ∉ (ClassScope.resolve ⟨thisClass, superClass, h⟩ name).toList :=
    ClassScope.undotted_resolve hsuper
  have hsame : ∀ name, ClassScope.resolve ⟨thisClass, superClass, g⟩ name =
      ClassScope.resolve ⟨thisClass, superClass, h⟩ name := fun _ => rfl
  induction n generalizing a b with
  | zero => rfl
  | succ n ih =>
    simp only [ClassScope.nearestWithin, hsame]
    split
    · rfl
    · split
      · split
        · rename_i x y hx hy
          split
          · rfl
          · rw [ClassName.canonical_arrayOf, ClassName.canonical_arrayOf]
            congr 1
            exact ih (fun hdot => hresolve ha (ClassName.mem_of_element? hx _ hdot))
              (fun hdot => hresolve hb (ClassName.mem_of_element? hy _ hdot))
        · rfl
      · exact hs.canonical_nearestOfPlain hg hh hfinds hkinds thisClass superClass
          (hresolve ha) (hresolve hb)

end Found

/-- The answers stay the same exactly if each class finds its parents. -/
lemma sameAnswers_iff (hs : g.Respells h) (hg : g.Ordered) (hh : h.Ordered)
    (hkinds : h.WellKinded) : g.SameAnswers h ↔ g.FindsParents := by
  constructor
  · intro hsame a p hap
    have ha : '.' ∉ a.toList ∨ p = .object := by
      by_cases hdot : '.' ∈ a.toList
      · exact .inr (hs.eq_object_of_dotted hdot hap)
      · exact .inl hdot
    rcases ha with ha | rfl
    · rw [hsame.isAssignable a _ ha (ClassName.undotted_canonical p)]
      exact hs.isAssignable_parent hh hkinds hap
    · exact isAssignable_object g a
  · intro hfinds
    exact {
      isInterface := fun a _ => (hs.isInterface_eq a).symm
      isAssignable := fun _ _ => hs.isAssignable_eq hg hh hfinds
      nearestCommon := fun thisClass superClass a b _ hsuper ha hb =>
        hs.canonical_nearestWithin hg hh hfinds hkinds thisClass superClass hsuper ha hb _ }

end Respells

variable {registrations : List Registration}

lemma library_respelled {name : ClassName} {declaration : ClassDeclaration}
    (h : library.get? name = some declaration) :
    '.' ∉ name.toList ∧ declaration.respelled = declaration := by
  obtain ⟨hname, hinterfaces, hsuper⟩ := library_lawful.internal name declaration h
  exact ⟨hname.undotted, ClassDeclaration.respelled_eq_self
    (fun i hi => (hinterfaces i hi).undotted) (fun s hs => (hsuper s hs).undotted)⟩

lemma respells_registered (registrations : List Registration) :
    (registered registrations).Respells
      (registered (registrations.map Registration.respelled)) where
  get?_eq name := by
    induction registrations using List.reverseRecOn with
    | nil =>
      change library.get? name = (library.get? name).map _
      cases hget : library.get? name with
      | none => rfl
      | some declaration => simp [(library_respelled hget).2]
    | append_singleton earlier r ih =>
      rw [List.map_append, List.map_cons, List.map_nil, get?_registered_append,
        get?_registered_append, ih, r.name_respelled, ClassName.canonical_canonical,
        r.declaration_respelled]
      split <;> rfl
  undotted name hdot := by
    by_contra hget
    obtain ⟨declaration, hget⟩ := Option.ne_none_iff_exists'.mp hget
    rcases get?_registered hget with ⟨r, _, rfl, _⟩ | hlibrary
    · exact ClassName.undotted_canonical r.name hdot
    · exact (library_respelled hlibrary).1 hdot
  length_eq := by
    induction registrations using List.reverseRecOn with
    | nil => rfl
    | append_singleton earlier r ih =>
      simp only [registered, List.map_append, List.map_cons, List.map_nil, List.foldl_append,
        List.foldl_cons, List.foldl_nil, add, List.length_cons] at ih ⊢
      rw [ih]

lemma registered_respelled (h : ∀ r ∈ registrations, r.declaration.respelled = r.declaration) :
    registered (registrations.map Registration.respelled) = registered registrations := by
  induction registrations using List.reverseRecOn with
  | nil => rfl
  | append_singleton earlier r ih =>
    have hearlier := ih fun other hmem => h other (by simp [hmem])
    unfold registered at hearlier ⊢
    rw [List.map_append, List.foldl_append, List.foldl_append, hearlier]
    simp only [List.map_cons, List.map_nil, List.foldl_cons, List.foldl_nil, add, r.name_respelled,
      ClassName.canonical_canonical, r.declaration_respelled, h r (by simp)]

/-- Dots in the names of the registered classes themselves make no difference. Dots in the names of
their parents can only take relations away: a dotted superclass is lost unless it is
`java/lang/Object`, and all answers are as in slash form exactly if each class finds the parents
that were meant in another way. -/
theorem sameAnswers_respelled_iff
    (hkept : ∀ r ∈ registrations, library.get? (ClassName.canonical r.name) = none)
    (hacyclic : ∀ name,
      ¬TransGen (registered (registrations.map Registration.respelled)).Superclass name name)
    (hkinds : (registered (registrations.map Registration.respelled)).WellKinded) :
    ((∀ r ∈ registrations, r.declaration.respelled = r.declaration) →
      registered (registrations.map Registration.respelled) = registered registrations) ∧
    (∀ a b, '.' ∉ a.toList → '.' ∉ b.toList → (registered registrations).isAssignable a b = true →
      (registered (registrations.map Registration.respelled)).isAssignable a b = true) ∧
    (∀ a s, (registered registrations).Superclass a s → '.' ∈ s.toList →
      ClassName.canonical s ≠ .object →
      (registered registrations).isAssignable a (ClassName.canonical s) = false ∧
      (registered (registrations.map Registration.respelled)).isAssignable a
        (ClassName.canonical s) = true) ∧
    ((registered registrations).SameAnswers
        (registered (registrations.map Registration.respelled)) ↔
      (registered registrations).FindsParents) := by
  have hs := respells_registered registrations
  have hh : (registered (registrations.map Registration.respelled)).Ordered := by
    refine ordered_registered ?_ hacyclic
    intro r hr
    obtain ⟨original, hmem, rfl⟩ := List.mem_map.mp hr
    rw [original.name_respelled, ClassName.canonical_canonical]
    exact hkept original hmem
  have hg := ordered_registered hkept (hs.acyclic hh)
  refine ⟨registered_respelled, ?_, ?_, hs.sameAnswers_iff hg hh hkinds⟩
  · intro a b ha hb hab
    rw [hg.isAssignable_iff_assigns] at hab
    exact hh.isAssignable_iff_assigns.mpr (hs.assigns hh ha hb hab)
  · intro a s hsuper hdot hne
    exact ⟨hs.isAssignable_dotted hg hh hkinds hsuper hdot hne,
      hs.isAssignable_parent hh hkinds (parent_of_superclass hsuper)⟩

lemma wellKinded_of_entries {g : Hierarchy} (h : ∀ entry ∈ g.classes, entry.1.isArray = false ∧
    (∀ i ∈ entry.2.interfaces, i.isArray = false ∧ g.isInterface i = true) ∧
    ∀ s ∈ entry.2.superclass, s.isArray = false ∧ g.isInterface s = false) : g.WellKinded := by
  intro name declaration hget
  exact h (name, declaration) (mem_of_get? hget)

lemma findsParents_of_entries {g : Hierarchy} (h : ∀ entry ∈ g.classes,
    ∀ p ∈ g.parents entry.1, g.isAssignable entry.1 (ClassName.canonical p) = true) :
    g.FindsParents := by
  intro a p hp
  cases hget : g.get? a with
  | some declaration => exact h _ (mem_of_get? hget) p hp
  | none =>
    unfold Parent parents at hp
    rw [hget] at hp
    simp only at hp
    split at hp
    · cases hp
    · rw [List.mem_singleton.mp hp]
      exact isAssignable_object g a

/-- A circle that names its interface in both forms. -/
def shapeRegistrations : List Registration :=
  [.interface "me.Shape" [], .plain "me.Circle" "java.lang.Object" ["me.Shape", "me/Shape"]]

theorem shapeRegistrations_sameAnswers :
    (registered shapeRegistrations).FindsParents ∧
      (registered shapeRegistrations).SameAnswers
        (registered (shapeRegistrations.map Registration.respelled)) ∧
      (registered shapeRegistrations).isAssignable "me/Circle" "me/Shape" = true := by
  have hfinds : (registered shapeRegistrations).FindsParents :=
    findsParents_of_entries (by decide +kernel)
  have hkept : ∀ r ∈ shapeRegistrations, library.get? (ClassName.canonical r.name) = none := by
    decide +kernel
  obtain ⟨_, _, _, hiff⟩ := sameAnswers_respelled_iff hkept
    (superclass_acyclic_of_shorter (by decide +kernel))
    (wellKinded_of_entries (by decide +kernel))
  exact ⟨hfinds, hiff.mpr hfinds, by decide +kernel⟩

/-- One of two classes gives the name of their superclass with a dot. -/
def pairRegistrations : List Registration :=
  [.plain "me/Left" "me.Base" [], .plain "me/Right" "me/Base" []]

/-- It does not find its superclass, and the two have no common class but `java/lang/Object`. -/
theorem pairRegistrations_differ :
    (registered pairRegistrations).isAssignable "me/Left" "me/Base" = false ∧
      (registered (pairRegistrations.map Registration.respelled)).isAssignable
        "me/Left" "me/Base" = true ∧
      ClassScope.nearestCommon ⟨"me/This", .object, registered pairRegistrations⟩
        "me/Left" "me/Right" = .object ∧
      ClassScope.nearestCommon
        ⟨"me/This", .object, registered (pairRegistrations.map Registration.respelled)⟩
        "me/Left" "me/Right" = "me/Base" ∧
      ¬(registered pairRegistrations).SameAnswers
        (registered (pairRegistrations.map Registration.respelled)) := by
  have hleft : (registered pairRegistrations).isAssignable "me/Left" "me/Base" = false := by
    decide +kernel
  have hrespelled : (registered (pairRegistrations.map Registration.respelled)).isAssignable
      "me/Left" "me/Base" = true := by
    decide +kernel
  refine ⟨hleft, hrespelled, by decide +kernel, by decide +kernel, ?_⟩
  intro hsame
  have heq := hsame.isAssignable "me/Left" "me/Base" (by decide) (by decide)
  rw [hleft, hrespelled] at heq
  cases heq

end Hierarchy
end ClassAssembly
