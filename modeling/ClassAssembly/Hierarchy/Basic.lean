import ClassAssembly.ClassName

/-! What is declared about classes: their superclasses and interfaces. A class that was never
registered counts as a plain subclass of `java/lang/Object`. -/
namespace ClassAssembly

structure ClassDeclaration where
  superclass : Option ClassName
  interfaces : List ClassName
  isInterface : Bool
deriving DecidableEq

namespace ClassDeclaration

def plain (superclass : ClassName) (interfaces : List ClassName) : ClassDeclaration :=
  ⟨some superclass, interfaces, false⟩

def interface (interfaces : List ClassName) : ClassDeclaration := ⟨none, interfaces, true⟩

end ClassDeclaration

/-- The registered classes, the latest first; a later registration hides an earlier one. -/
structure Hierarchy where
  classes : List (ClassName × ClassDeclaration)
deriving DecidableEq

namespace Hierarchy

def get? (g : Hierarchy) (name : ClassName) : Option ClassDeclaration := g.classes.lookup name

/-- The class itself may be named with dots or with slashes. -/
def add (g : Hierarchy) (name : String) (data : ClassDeclaration) : Hierarchy :=
  ⟨(ClassName.canonical name, data) :: g.classes⟩

theorem get?_add (g : Hierarchy) (added name : String) (declaration : ClassDeclaration) :
    (g.add added declaration).get? name =
      if name = ClassName.canonical added then some declaration else g.get? name := by
  by_cases h : name = ClassName.canonical added
  · subst h
    simp [get?, add]
  · have different : (name == ClassName.canonical added) = false := beq_eq_false_iff_ne.2 h
    simp [get?, add, List.lookup_cons, different, h]

/-- The types of the standard library that generated code often meets. -/
def library : Hierarchy where
  classes :=
    let comparable := "java/lang/Comparable"
    let charSequence := "java/lang/CharSequence"
    let number := "java/lang/Number"
    let exception := "java/lang/Exception"
    let boxed := ClassDeclaration.plain number [comparable]
    let boxedPlain := ClassDeclaration.plain .object [.serializable, comparable]
    [(ClassName.object, ⟨none, [], false⟩),
      (ClassName.throwable, .plain .object [.serializable]),
      (ClassName.string, .plain .object [.serializable, charSequence, comparable]),
      (ClassName.classObject, .plain .object [.serializable]),
      (ClassName.stringBuilder, .plain .object [.serializable, charSequence]),
      (ClassName.cloneable, .interface []),
      (ClassName.serializable, .interface []),
      (charSequence, .interface []),
      (comparable, .interface []),
      (number, .plain .object [.serializable]),
      ("java/lang/Byte", boxed),
      ("java/lang/Short", boxed),
      ("java/lang/Integer", boxed),
      ("java/lang/Long", boxed),
      ("java/lang/Float", boxed),
      ("java/lang/Double", boxed),
      ("java/lang/Character", boxedPlain),
      ("java/lang/Boolean", boxedPlain),
      (exception, .plain .throwable []),
      ("java/lang/Error", .plain .throwable []),
      ("java/lang/RuntimeException", .plain exception [])]

def isInterface (g : Hierarchy) (name : ClassName) : Bool :=
  (g.get? name).any (·.isInterface)

/-- Direct superclass; `java/lang/Object` and the interfaces have none. -/
def superclass? (g : Hierarchy) (name : ClassName) : Option ClassName :=
  if name = .object then none
  else
    match g.get? name with
    | some data => data.superclass
    | none => some .object

/-- Direct supertypes: the declared interfaces and superclass. -/
def parents (g : Hierarchy) (name : ClassName) : List ClassName :=
  match g.get? name with
  | some data => data.interfaces ++ data.superclass.toList
  | none => if name = .object then [] else [.object]

/-- The chain of superclasses, at most `n` of them. -/
def superclassesUpTo (g : Hierarchy) : Nat → ClassName → List ClassName
  | 0, _ => []
  | n + 1, name =>
    match g.superclass? name with
    | none => []
    | some parent => parent :: g.superclassesUpTo n parent

/-- The superclasses of a class, the nearest first. A chain without a cycle has at most one name
that is not registered beside the registered ones. -/
def superclasses (g : Hierarchy) (name : ClassName) : List ClassName :=
  g.superclassesUpTo (g.classes.length + 2) name

/-- Weight of names that wait to be visited: a name that is not registered still has to give way
to `java/lang/Object`. -/
def weight (g : Hierarchy) (names : List ClassName) : Nat :=
  (names.map fun name => if (g.get? name).isSome ∨ name = ClassName.object then 1 else 2).foldr
    (· + ·) 0

/-- Weight of the parents that the entries of names not in `seen` can still bring in. -/
def debt (g : Hierarchy) (seen : List ClassName) (entries : List (ClassName × ClassDeclaration)) :
    Nat :=
  (entries.map fun entry => if entry.1 ∈ seen then 0 else g.weight (g.parents entry.1)).foldr
    (· + ·) 0

theorem weight_append (g : Hierarchy) (xs ys : List ClassName) :
    g.weight (xs ++ ys) = g.weight xs + g.weight ys := by
  induction xs with
  | nil => simp [weight]
  | cons name xs ih =>
    simp only [weight, List.cons_append, List.map_cons, List.foldr_cons] at ih ⊢
    omega

theorem weight_cons_pos (g : Hierarchy) (name : ClassName) (rest : List ClassName) :
    g.weight rest < g.weight (name :: rest) := by
  simp only [weight, List.map_cons, List.foldr_cons]
  split <;> omega

theorem debt_cons_le (g : Hierarchy) (name : ClassName) (seen : List ClassName)
    (entries : List (ClassName × ClassDeclaration)) :
    g.debt (name :: seen) entries ≤ g.debt seen entries := by
  induction entries with
  | nil => simp [debt]
  | cons entry rest ih =>
    simp only [debt, List.map_cons, List.foldr_cons, List.mem_cons] at ih ⊢
    by_cases h : entry.1 ∈ seen
    · simpa [h] using ih
    · by_cases same : entry.1 = name
      · rw [if_pos (Or.inl same), if_neg h]
        omega
      · rw [if_neg (by simp [same, h]), if_neg h]
        omega

/-- A registered name pays for its parents when it is seen for the first time. -/
theorem debt_cons_add_weight_le (g : Hierarchy) {name : ClassName} {seen : List ClassName}
    {entries : List (ClassName × ClassDeclaration)} (new : name ∉ seen)
    (registered : (entries.lookup name).isSome) :
    g.debt (name :: seen) entries + g.weight (g.parents name) ≤ g.debt seen entries := by
  induction entries with
  | nil => simp at registered
  | cons entry rest ih =>
    obtain ⟨key, declaration⟩ := entry
    by_cases same : key = name
    · have le := g.debt_cons_le name seen rest
      simp only [debt, List.map_cons, List.foldr_cons] at le ⊢
      rw [if_pos (by simp [same]), if_neg (same ▸ new), same]
      omega
    · have different : (name == key) = false := beq_eq_false_iff_ne.2 (Ne.symm same)
      have rest_le := ih (by simpa only [List.lookup_cons, different] using registered)
      simp only [debt, List.map_cons, List.foldr_cons, List.mem_cons, same, false_or] at rest_le ⊢
      omega

/-- A name that is seen for the first time weighs more than what it brings in. -/
theorem debt_add_weight_parents_lt (g : Hierarchy) {name : ClassName} {seen : List ClassName}
    (new : name ∉ seen) (rest : List ClassName) :
    g.debt (name :: seen) g.classes + g.weight (g.parents name ++ rest) <
      g.debt seen g.classes + g.weight (name :: rest) := by
  have le := g.debt_cons_le name seen g.classes
  rw [weight_append]
  by_cases registered : (g.get? name).isSome
  · have := g.debt_cons_add_weight_le new registered
    have := g.weight_cons_pos name rest
    omega
  · have none : g.get? name = none := by simpa using registered
    by_cases object : name = ClassName.object
    · subst object
      simp only [weight, parents, none, List.map_cons, List.foldr_cons]
      simp
      omega
    · simp [weight, parents, none, object]
      omega

/-- Whether `target` can be reached from names that wait to be visited, passing by those seen. -/
def reaches (g : Hierarchy) (target : ClassName) (seen waiting : List ClassName) : Bool :=
  match waiting with
  | [] => false
  | name :: rest =>
    if name = target then true
    else if _ : name ∈ seen then g.reaches target seen rest
    else g.reaches target (name :: seen) (g.parents name ++ rest)
termination_by g.debt seen g.classes + g.weight waiting
decreasing_by
  · exact Nat.add_lt_add_left (g.weight_cons_pos name rest) _
  · exact g.debt_add_weight_parents_lt (by assumption) rest

/-- Whether a class, one of its superclasses or one of their interfaces is `interface`. -/
def implements (g : Hierarchy) (name interface : ClassName) : Bool :=
  g.reaches interface [] [name]

end Hierarchy
end ClassAssembly
