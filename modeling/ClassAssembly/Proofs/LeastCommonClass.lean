import ClassAssembly.Proofs.Interning
import ClassAssembly.Proofs.NewClass
import ClassAssembly.Proofs.RegisteredClasses
import ClassAssembly.Proofs.TextPieces
import Mathlib.Data.Finset.Card

/-! Merging ordinary classes. The nearest common class of two classes is the lowest one on both
chains of superclasses, and so the class that a list of types is merged into depends on which
classes are in the list, not on their order. Neither holds beside a class that has no superclass,
unless it is `java/lang/Object`, or below one whose name no pool can take. -/
namespace ClassAssembly

open Relation (ReflTransGen TransGen)

namespace Hierarchy

variable {g : Hierarchy} {a b d s : ClassName}

/-- `b` is `a` or one of its superclasses. -/
def OnChain (g : Hierarchy) (a b : ClassName) : Prop := ReflTransGen g.Superclass a b

lemma OnChain.antisymm (hacyclic : ∀ name, ¬TransGen g.Superclass name name) (hab : g.OnChain a b)
    (hba : g.OnChain b a) : a = b := by
  rcases ReflTransGen.cases_head hab with heq | ⟨_, hstep, hrest⟩
  · exact heq
  · exact absurd (TransGen.head' hstep (hrest.trans hba)) (hacyclic a)

/-- A class has more superclasses than its superclass has. -/
lemma card_superclasses_lt (hacyclic : ∀ name, ¬TransGen g.Superclass name name)
    (h : g.Superclass a b) :
    (g.superclasses b).toFinset.card < (g.superclasses a).toFinset.card := by
  apply Finset.card_lt_card
  constructor
  · intro d hd
    rw [List.mem_toFinset, mem_superclasses_iff hacyclic] at hd ⊢
    exact .head h hd
  · intro hsubset
    have hb := hsubset (List.mem_toFinset.mpr ((mem_superclasses_iff hacyclic).mpr (.single h)))
    rw [List.mem_toFinset, mem_superclasses_iff hacyclic] at hb
    exact hacyclic b hb

/-- What stands behind a class in a chain is above it. -/
lemma above_of_superclassesUpTo {n : Nat} {before after : List ClassName}
    (h : g.superclassesUpTo n a = before ++ s :: after) (hd : d ∈ after) :
    TransGen g.Superclass s d := by
  induction n generalizing a before with
  | zero => simp [superclassesUpTo] at h
  | succ n ih =>
    unfold superclassesUpTo at h
    split at h
    · simp at h
    · cases before with
      | nil =>
        obtain ⟨rfl, rfl⟩ := List.cons.inj h
        exact superclass_of_mem_superclassesUpTo hd
      | cons => exact ih (List.cons.inj h).2

end Hierarchy

namespace ClassScope

variable {c : ClassScope} {a b d m x : ClassName}

/-- What is declared about the classes around the one being assembled, where classes stand below
classes: chains of superclasses end, no superclass is an interface, and only `java/lang/Object` and
interfaces have none. Names are internal, and the class being assembled is not mentioned. -/
structure Ordinary (c : ClassScope) : Prop where
  acyclic : ∀ name, ¬TransGen c.hierarchy.Superclass name name
  superclass_class : ∀ a b, c.hierarchy.Superclass a b → c.hierarchy.isInterface b = false
  rooted : ∀ name, c.hierarchy.superclass? name = none →
    name = .object ∨ c.hierarchy.isInterface name = true
  internal : ∀ name declaration, c.hierarchy.get? name = some declaration →
    name.IsInternal ∧ (∀ i ∈ declaration.interfaces, i.IsInternal) ∧
      ∀ s ∈ declaration.superclass, s.IsInternal
  super_internal : c.superClass.IsInternal
  this_undeclared : ∀ name, c.thisClass ∉ c.hierarchy.parents name

/-- With its superclass in the place of the class being assembled, the name is that of no array
class and no interface. -/
def IsClass (c : ClassScope) (name : ClassName) : Prop :=
  (c.resolve name).isArray = false ∧ c.hierarchy.isInterface (c.resolve name) = false

instance (c : ClassScope) (name : ClassName) : Decidable (c.IsClass name) :=
  inferInstanceAs (Decidable (_ ∧ _))

namespace Ordinary

/-- Above classes there are only classes. -/
lemma class_of_onChain (hc : c.Ordinary) (ha : a.isArray = false)
    (ha' : c.hierarchy.isInterface a = false) (h : c.hierarchy.OnChain a b) :
    b.isArray = false ∧ c.hierarchy.isInterface b = false := by
  rcases ReflTransGen.cases_tail h with rfl | ⟨below, _, hlast⟩
  · exact ⟨ha, ha'⟩
  · have hinternal := Hierarchy.internal_of_parent hc.internal
      (Hierarchy.parent_of_superclass hlast)
    exact ⟨hinternal.isArray_eq_false, hc.superclass_class below b hlast⟩

/-- Each chain of classes ends in `java/lang/Object`. -/
lemma onChain_object (hc : c.Ordinary) (ha : c.hierarchy.isInterface a = false) :
    c.hierarchy.OnChain a .object := by
  obtain ⟨n, hn⟩ : ∃ n, (c.hierarchy.superclasses a).toFinset.card < n := ⟨_, Nat.lt_succ_self _⟩
  induction n generalizing a with
  | zero => omega
  | succ n ih =>
    cases hsuper : c.hierarchy.superclass? a with
    | none =>
      rcases hc.rooted a hsuper with rfl | hinterface
      · exact .refl
      · rw [ha] at hinterface
        cases hinterface
    | some parent =>
      have hlt := Hierarchy.card_superclasses_lt hc.acyclic hsuper
      exact .head hsuper (ih (hc.superclass_class a parent hsuper) (by omega))

/-- Between classes, assignability is the chain of superclasses. -/
lemma isAssignable_iff_onChain (hc : c.Ordinary) (ha : a.isArray = false) (hb : b.isArray = false)
    (ha' : c.hierarchy.isInterface a = false) (hb' : c.hierarchy.isInterface b = false) :
    c.hierarchy.isAssignable a b = true ↔ c.hierarchy.OnChain a b := by
  rw [Hierarchy.isAssignable_plain_iff ha hb, hb', if_neg (by simp),
    Hierarchy.mem_superclasses_iff hc.acyclic]
  constructor
  · rintro (rfl | rfl | hchain)
    · exact .refl
    · exact hc.onChain_object ha'
    · exact hchain.to_reflTransGen
  · intro h
    rcases Relation.reflTransGen_iff_eq_or_transGen.mp h with heq | hchain
    · exact .inl heq.symm
    · exact .inr (.inr hchain)

/-- The first superclass of `a` that `b` is assignable to is below all others on both chains. -/
lemma onChain_of_find? (hc : c.Ordinary) (ha : a.isArray = false) (hb : b.isArray = false)
    (ha' : c.hierarchy.isInterface a = false) (hb' : c.hierarchy.isInterface b = false)
    (hfind : (c.hierarchy.superclasses a).find? (c.hierarchy.isAssignable b ·) = some m)
    (hne : ¬c.hierarchy.OnChain b a) :
    c.hierarchy.OnChain m d ↔ c.hierarchy.OnChain a d ∧ c.hierarchy.OnChain b d := by
  obtain ⟨hbm, before, after, hsplit, hbefore⟩ := List.find?_eq_some_iff_append.mp hfind
  have ham : c.hierarchy.OnChain a m :=
    (Hierarchy.superclass_of_mem_superclassesUpTo (List.mem_of_find?_eq_some hfind)).to_reflTransGen
  obtain ⟨hm, hm'⟩ := hc.class_of_onChain ha ha' ham
  have hbm' := (hc.isAssignable_iff_onChain hb hm hb' hm').mp hbm
  constructor
  · intro hd
    exact ⟨ham.trans hd, hbm'.trans hd⟩
  · rintro ⟨had, hbd⟩
    obtain ⟨hd, hd'⟩ := hc.class_of_onChain ha ha' had
    rcases Relation.reflTransGen_iff_eq_or_transGen.mp had with rfl | hchain
    · exact absurd hbd hne
    · have hmem := (Hierarchy.mem_superclasses_iff hc.acyclic).mpr hchain
      rw [hsplit, List.mem_append, List.mem_cons] at hmem
      rcases hmem with hearly | rfl | hlate
      · have hbd' := (hc.isAssignable_iff_onChain hb hd hb' hd').mpr hbd
        have hnot := hbefore d hearly
        simp [hbd'] at hnot
      · exact .refl
      · exact (Hierarchy.above_of_superclassesUpTo hsplit hlate).to_reflTransGen

lemma onChain_nearestOfPlain (hc : c.Ordinary) (ha : a.isArray = false) (hb : b.isArray = false)
    (ha' : c.hierarchy.isInterface a = false) (hb' : c.hierarchy.isInterface b = false) :
    c.hierarchy.OnChain (c.nearestOfPlain a b) d ↔
      c.hierarchy.OnChain a d ∧ c.hierarchy.OnChain b d := by
  unfold nearestOfPlain
  rw [ha', hb', if_neg (show ¬(false || false) = true by simp)]
  by_cases hab : c.hierarchy.isAssignable a b = true
  · rw [if_pos hab]
    have hup := (hc.isAssignable_iff_onChain ha hb ha' hb').mp hab
    exact ⟨fun hd => ⟨hup.trans hd, hd⟩, And.right⟩
  rw [if_neg hab]
  by_cases hba : c.hierarchy.isAssignable b a = true
  · rw [if_pos hba]
    have hup := (hc.isAssignable_iff_onChain hb ha hb' ha').mp hba
    exact ⟨fun hd => ⟨hd, hup.trans hd⟩, And.left⟩
  rw [if_neg hba]
  have hne : ¬c.hierarchy.OnChain b a := fun h =>
    hba ((hc.isAssignable_iff_onChain hb ha hb' ha').mpr h)
  cases hfind : (c.hierarchy.superclasses a).find? (c.hierarchy.isAssignable b ·) with
  | some m => exact hc.onChain_of_find? ha hb ha' hb' hfind hne
  | none =>
    -- The search cannot fail: it would find `java/lang/Object`.
    rcases Relation.reflTransGen_iff_eq_or_transGen.mp (hc.onChain_object ha') with heq | hchain
    · exact absurd (heq ▸ hc.onChain_object hb') hne
    · have hmem := (Hierarchy.mem_superclasses_iff hc.acyclic).mpr hchain
      have hnot := List.find?_eq_none.mp hfind _ hmem
      simp [Hierarchy.isAssignable_object] at hnot

end Ordinary

lemma nearestCommon_of_plain (ha : (c.resolve a).isArray = false)
    (hb : (c.resolve b).isArray = false) :
    c.nearestCommon a b =
      if c.resolve a = c.resolve b then c.resolve a
      else c.nearestOfPlain (c.resolve a) (c.resolve b) := by
  simp [nearestCommon, nearestWithin, ha, hb]

namespace Ordinary

/-- A class lies on the chain of the nearest common class exactly if it lies on both chains. -/
theorem onChain_nearestCommon (hc : c.Ordinary) (ha : c.IsClass a) (hb : c.IsClass b) :
    c.hierarchy.OnChain (c.nearestCommon a b) d ↔
      c.hierarchy.OnChain (c.resolve a) d ∧ c.hierarchy.OnChain (c.resolve b) d := by
  rw [nearestCommon_of_plain ha.1 hb.1]
  split
  · rename_i heq
    rw [← heq, and_self_iff]
  · exact hc.onChain_nearestOfPlain ha.1 hb.1 ha.2 hb.2

lemma nearestCommon_object (hc : c.Ordinary) (ha : c.IsClass a) (hobject : c.IsClass .object)
    (hthis : c.thisClass ≠ .object) : c.nearestCommon a .object = .object := by
  have hchain := ((hc.onChain_nearestCommon ha hobject).mp .refl).2
  rw [resolve, if_neg hthis.symm] at hchain
  rcases ReflTransGen.cases_head hchain with heq | ⟨_, hstep, _⟩
  · exact heq.symm
  · simp [Hierarchy.Superclass, Hierarchy.superclass?] at hstep

/-- Two classes with the same classes above them are one. -/
lemma eq_of_onChain_iff (hc : c.Ordinary)
    (h : ∀ d, c.hierarchy.OnChain a d ↔ c.hierarchy.OnChain b d) : a = b :=
  Hierarchy.OnChain.antisymm hc.acyclic ((h b).mpr .refl) ((h a).mp .refl)

theorem nearestCommon_comm (hc : c.Ordinary) (ha : c.IsClass a) (hb : c.IsClass b) :
    c.nearestCommon a b = c.nearestCommon b a := by
  apply hc.eq_of_onChain_iff
  intro d
  rw [hc.onChain_nearestCommon ha hb, hc.onChain_nearestCommon hb ha, and_comm]

/-- Nothing above a class is the class being assembled, unless it stands in for itself. -/
lemma resolve_of_onChain (hc : c.Ordinary) (h : c.hierarchy.OnChain (c.resolve a) m) :
    c.resolve m = m := by
  rcases ReflTransGen.cases_tail h with rfl | ⟨below, _, hlast⟩
  · exact resolve_resolve a
  · apply if_neg
    rintro rfl
    exact hc.this_undeclared below (Hierarchy.parent_of_superclass hlast)

lemma isClass_of_onChain (hc : c.Ordinary) (ha : c.IsClass a)
    (h : c.hierarchy.OnChain (c.resolve a) m) : c.IsClass m := by
  rw [IsClass, hc.resolve_of_onChain h]
  exact hc.class_of_onChain ha.1 ha.2 h

/-- What is above a class in slash form is in slash form. -/
lemma canonical_of_onChain (hc : c.Ordinary) (ha : '.' ∉ a.toList)
    (h : c.hierarchy.OnChain (c.resolve a) m) : ClassName.canonical m = m := by
  rw [ClassName.canonical_eq_iff]
  rcases ReflTransGen.cases_tail h with rfl | ⟨_, _, hlast⟩
  · exact undotted_resolve hc.super_internal.undotted ha
  · exact (Hierarchy.internal_of_parent hc.internal
      (Hierarchy.parent_of_superclass hlast)).undotted

end Ordinary

/-- What classes are merged into: a class by itself stays, and different classes give the lowest
class on all their chains. -/
inductive Joins (c : ClassScope) (names : List ClassName) : Option ClassName → Prop
  | nothing (h : names = []) : Joins c names none
  | same {name : ClassName} (hmem : name ∈ names) (h : ∀ other ∈ names, other = name) :
    Joins c names (some name)
  | lowest {first second name : ClassName} (hfirst : first ∈ names) (hsecond : second ∈ names)
      (hne : first ≠ second) (h : ∀ d, c.hierarchy.OnChain name d ↔
        ∀ other ∈ names, c.hierarchy.OnChain (c.resolve other) d) : Joins c names (some name)

namespace Joins

variable {names others : List ClassName} {result result' : Option ClassName}

/-- The classes that are merged determine the result, not their order or number. -/
theorem unique (hc : c.Ordinary) (hsame : ∀ name, name ∈ names ↔ name ∈ others)
    (h : c.Joins names result) (h' : c.Joins others result') : result = result' := by
  cases h with
  | nothing hnames =>
    subst hnames
    cases h' with
    | nothing => rfl
    | same hmem => simpa using (hsame _).mpr hmem
    | lowest hfirst => simpa using (hsame _).mpr hfirst
  | same hmem hall =>
    cases h' with
    | nothing hothers => simpa [hothers] using (hsame _).mp hmem
    | same hmem' => rw [hall _ ((hsame _).mpr hmem')]
    | lowest hfirst hsecond hne =>
      rw [hall _ ((hsame _).mpr hfirst), hall _ ((hsame _).mpr hsecond)] at hne
      exact absurd rfl hne
  | lowest hfirst hsecond hne hlow =>
    cases h' with
    | nothing hothers => simpa [hothers] using (hsame _).mp hfirst
    | same _ hall =>
      rw [hall _ ((hsame _).mp hfirst), hall _ ((hsame _).mp hsecond)] at hne
      exact absurd rfl hne
    | lowest _ _ _ hlow' =>
      congr 1
      apply hc.eq_of_onChain_iff
      intro d
      simp only [hlow, hlow', hsame]

/-- The chain of what classes are merged into is common to all their chains. -/
lemma onChain_iff (hc : c.Ordinary) (h : c.Joins names (some m)) :
    c.hierarchy.OnChain (c.resolve m) d ↔
      ∀ other ∈ names, c.hierarchy.OnChain (c.resolve other) d := by
  cases h with
  | same hmem hall =>
    constructor
    · intro hd other hother
      rwa [hall other hother]
    · intro hd
      exact hd m hmem
  | lowest hfirst _ _ hlow =>
    rw [hc.resolve_of_onChain ((hlow m).mp .refl _ hfirst)]
    exact hlow d

lemma isClass (hc : c.Ordinary) (hnames : ∀ name ∈ names, c.IsClass name)
    (h : c.Joins names (some m)) : c.IsClass m := by
  cases h with
  | same hmem => exact hnames m hmem
  | lowest hfirst _ _ hlow =>
    exact hc.isClass_of_onChain (hnames _ hfirst) ((hlow m).mp .refl _ hfirst)

/-- Merging a class once more. -/
lemma again (hc : c.Ordinary) (h : c.Joins names (some m)) : c.Joins (names ++ [m]) (some m) := by
  have hchain := fun d => h.onChain_iff hc (d := d)
  cases h with
  | same hmem hall =>
    refine .same (by simp) ?_
    intro other hother
    rcases List.mem_append.mp hother with hother | hother
    · exact hall other hother
    · exact List.mem_singleton.mp hother
  | lowest hfirst hsecond hne hlow =>
    refine .lowest (List.mem_append_left _ hfirst) (List.mem_append_left _ hsecond) hne ?_
    intro d
    simp only [List.forall_mem_append, List.forall_mem_singleton, hlow d, hchain d, and_self_iff]

/-- Merging a class that is another one than the result so far. -/
lemma another (hc : c.Ordinary) (hnames : ∀ name ∈ names, c.IsClass name)
    (h : c.Joins names (some m)) (hx : c.IsClass x) (hne : m ≠ x) :
    c.Joins (names ++ [x]) (some (c.nearestCommon m x)) := by
  have hlow : ∀ d, c.hierarchy.OnChain (c.nearestCommon m x) d ↔
      ∀ other ∈ names ++ [x], c.hierarchy.OnChain (c.resolve other) d := by
    intro d
    rw [hc.onChain_nearestCommon (h.isClass hc hnames) hx, h.onChain_iff hc]
    simp only [List.forall_mem_append, List.forall_mem_singleton]
  cases h with
  | same hmem => exact .lowest (List.mem_append_left _ hmem) (by simp) hne hlow
  | lowest hfirst hsecond hdiffer =>
    exact .lowest (List.mem_append_left _ hfirst) (List.mem_append_left _ hsecond) hdiffer hlow

end Joins
end ClassScope

namespace VerificationType

/-- The class that a type stands for. -/
def className? (pool : ConstantPool) : VerificationType → Option ClassName
  | object i => pool.className? i
  | _ => none

lemma exists_of_className? {pool : ConstantPool} {t : VerificationType} {name : ClassName}
    (h : t.className? pool = some name) : ∃ i, t = .object i ∧ pool.className? i = some name := by
  cases t with
  | object i => exact ⟨i, rfl, h⟩
  | _ => cases h

/-- A null value, or a class that is no array class and no interface. -/
def IsOrdinary (c : ClassScope) (pool : ConstantPool) (t : VerificationType) : Prop :=
  t = .null ∨ ∃ name, t.className? pool = some name ∧ c.IsClass name

lemma IsOrdinary.isClass {c : ClassScope} {pool : ConstantPool} {t : VerificationType}
    (h : t.IsOrdinary c pool) : ∀ name ∈ (t.className? pool).toList, c.IsClass name := by
  intro name hname
  rw [Option.mem_toList] at hname
  rcases h with rfl | ⟨x, hx, hclass⟩
  · cases hname
  · rw [hx] at hname
    cases hname
    exact hclass

/-- Merges types from left to right. -/
def mergeAll (c : ClassScope) (first : VerificationType) (rest : List VerificationType) :
    Step ConstantPool VerificationType :=
  rest.foldlM (merge c) first

/-- What merging some types has come to: the constants are still there, and the type is null or the
class that the classes among the types are merged into. -/
structure Merged (c : ClassScope) (pool later : ConstantPool) (names : List ClassName)
    (t : VerificationType) : Prop where
  grown : pool.Extends later
  named : later.WellNamed
  typed : t = .null ∨ (t.className? later).isSome
  joins : c.Joins names (t.className? later)

namespace Merged

variable {c : ClassScope} {pool later later' : ConstantPool} {names : List ClassName}
  {s t t' : VerificationType} {e : Error}

lemma start (hpool : pool.WellNamed) (h : t.IsOrdinary c pool) :
    Merged c pool pool (t.className? pool).toList t := by
  refine ⟨.refl pool, hpool, ?_, ?_⟩
  · rcases h with rfl | ⟨name, hname, _⟩
    · exact .inl rfl
    · exact .inr (by simp [hname])
  · rcases h with rfl | ⟨name, hname, _⟩
    · exact .nothing rfl
    · rw [hname]
      exact .same (by simp) (by simp)

lemma null_or_object (h : Merged c pool later names t) :
    t = .null ∧ names = [] ∨
      ∃ i m, t = .object i ∧ later.className? i = some m ∧ c.Joins names (some m) := by
  have hjoins := h.joins
  rcases h.typed with rfl | hsome
  · cases hjoins with
    | nothing hnames => exact .inl ⟨rfl, hnames⟩
  · obtain ⟨m, hm⟩ := Option.isSome_iff_exists.mp hsome
    obtain ⟨i, rfl, hi⟩ := exists_of_className? hm
    rw [hm] at hjoins
    exact .inr ⟨i, m, rfl, hi, hjoins⟩

/-- Two different classes are merged into the nearest common one, which is in slash form. -/
lemma merge_classes (hc : c.Ordinary) (hlater : later.WellNamed) {i j : PoolIndex} {m x : ClassName}
    (hi : later.className? i = some m) (hj : later.className? j = some x) (hij : i ≠ j)
    (hm : c.IsClass m) (hx : c.IsClass x) :
    (merge c (.object i) (.object j)).outcome later =
        (ofClass (c.nearestCommon m x)).outcome later ∧
      ClassName.canonical (c.nearestCommon m x) = c.nearestCommon m x ∧
      c.hierarchy.OnChain (c.resolve x) (c.nearestCommon m x) := by
  have hchains := (hc.onChain_nearestCommon hm hx).mp (.refl : c.hierarchy.OnChain _ _)
  refine ⟨?_, ?_, hchains.2⟩
  · rw [merge_objects c hij, ConstantPool.classOrObject_of_className? hi,
      ConstantPool.classOrObject_of_className? hj]
  · exact hc.canonical_of_onChain (ClassName.canonical_eq_iff.mp (hlater.canonical_eq hi)) hchains.1

/-- One more type. -/
theorem step (hc : c.Ordinary) (h : Merged c pool later names t)
    (hnames : ∀ name ∈ names, c.IsClass name) (hs : s.IsOrdinary c pool)
    (hmerge : (merge c t s).outcome later = (.ok t', later')) :
    Merged c pool later' (names ++ (s.className? pool).toList) t' := by
  rcases hs with rfl | ⟨x, hx, hclass⟩
  · -- A null value changes nothing.
    have heq : merge c t .null = pure t := by
      rcases h.null_or_object with ⟨rfl, _⟩ | ⟨i, _, rfl, _⟩ <;> rfl
    rw [heq] at hmerge
    cases hmerge
    simpa [className?] using h
  · obtain ⟨j, rfl, hj⟩ := exists_of_className? hx
    rw [hx, Option.toList_some]
    have hj' := h.grown.className? hj
    rcases h.null_or_object with ⟨rfl, rfl⟩ | ⟨i, m, rfl, hi, hjoins⟩
    · cases hmerge
      refine ⟨h.grown, h.named, .inr (by simp [className?, hj']), ?_⟩
      rw [className?, hj']
      exact .same (by simp) (by simp)
    · by_cases hij : i = j
      · subst hij
        rw [hi] at hj'
        cases hj'
        rw [merge, if_pos rfl] at hmerge
        cases hmerge
        refine ⟨h.grown, h.named, h.typed, ?_⟩
        rw [className?, hi]
        exact hjoins.again hc
      · have hne : m ≠ x := by
          rintro rfl
          exact hij (ConstantPool.eq_of_className? hi hj')
        obtain ⟨heq, hslash, _⟩ := merge_classes hc h.named hi hj' hij
          (hjoins.isClass hc hnames) hclass
        rw [heq] at hmerge
        obtain ⟨hgrown, hnamed⟩ := (repeatable_ofClass _).grows hmerge
        obtain ⟨k, rfl, hk⟩ := ofClass_eq_ok hmerge
        rw [hslash] at hk
        refine ⟨h.grown.trans hgrown, hnamed h.named, .inr (by simp [className?, hk]), ?_⟩
        rw [className?, hk]
        exact hjoins.another hc hnames hclass hne

/-- Merging fails only where a common class is not in the pool yet and is refused. -/
theorem refused (hc : c.Ordinary) (h : Merged c pool later names t)
    (hnames : ∀ name ∈ names, c.IsClass name) (hs : s.IsOrdinary c pool)
    (hmerge : (merge c t s).outcome later = (.error e, later')) :
    ∃ x m, s.className? pool = some x ∧ c.hierarchy.OnChain (c.resolve x) m ∧
      ConstantPool.Refused [m] later' e := by
  rcases hs with rfl | ⟨x, hx, hclass⟩
  · rcases h.null_or_object with ⟨rfl, _⟩ | ⟨i, _, rfl, _⟩ <;> cases hmerge
  · obtain ⟨j, rfl, hj⟩ := exists_of_className? hx
    rcases h.null_or_object with ⟨rfl, _⟩ | ⟨i, m, rfl, hi, hjoins⟩
    · cases hmerge
    · by_cases hij : i = j
      · subst hij
        rw [merge, if_pos rfl] at hmerge
        cases hmerge
      · obtain ⟨heq, hslash, hchain⟩ := merge_classes hc h.named hi (h.grown.className? hj) hij
          (hjoins.isClass hc hnames) hclass
        rw [heq] at hmerge
        have hadds : ConstantPool.Adds [c.nearestCommon m x] (ofClass (c.nearestCommon m x)) :=
          (ConstantPool.Adds.classRef (by simp [hslash])).bind fun _ => .pure _
        exact ⟨x, _, hx, hchain, hadds.refused hmerge⟩

/-- By induction on the types that are still to be merged. -/
theorem run (hc : c.Ordinary) {rest : List VerificationType} (h : Merged c pool later names t)
    (hnames : ∀ name ∈ names, c.IsClass name) (hrest : ∀ s ∈ rest, s.IsOrdinary c pool) :
    (∀ t' later', (rest.foldlM (merge c) t).outcome later = (.ok t', later') →
      Merged c pool later' (names ++ rest.filterMap (className? pool)) t') ∧
    ∀ e later', (rest.foldlM (merge c) t).outcome later = (.error e, later') →
      ∃ s ∈ rest, ∃ x m, s.className? pool = some x ∧ c.hierarchy.OnChain (c.resolve x) m ∧
        ConstantPool.Refused [m] later' e := by
  induction rest generalizing t later names with
  | nil =>
    constructor
    · intro t' later' hrun
      cases hrun
      simpa using h
    · intro e later' hrun
      cases hrun
  | cons s rest ih =>
    have hs := hrest s (by simp)
    have hnames' : ∀ name ∈ names ++ (s.className? pool).toList, c.IsClass name :=
      List.forall_mem_append.mpr ⟨hnames, hs.isClass⟩
    rw [List.foldlM_cons, List.filterMap_eq_flatMap_toList, List.flatMap_cons, ← List.append_assoc,
      ← List.filterMap_eq_flatMap_toList]
    rcases hstep : (merge c t s).outcome later with ⟨failure | u, middle⟩
    · constructor
      · intro t' later' hrun
        rw [Step.outcome_bind, hstep] at hrun
        cases hrun
      · intro e later' hrun
        rw [Step.outcome_bind, hstep] at hrun
        cases hrun
        exact ⟨s, by simp, h.refused hc hnames hs hstep⟩
    · simp only [Step.outcome_bind, hstep]
      obtain ⟨hok, herror⟩ := ih (h.step hc hnames hs hstep) hnames'
        fun other hother => hrest other (by simp [hother])
      refine ⟨hok, fun e later' hrun => ?_⟩
      obtain ⟨other, hother, hrefused⟩ := herror e later' hrun
      exact ⟨other, by simp [hother], hrefused⟩

end Merged

variable {c : ClassScope} {pool later : ConstantPool} {first t : VerificationType}
  {rest : List VerificationType}

lemma merged_mergeAll (hc : c.Ordinary) (hpool : pool.WellNamed)
    (htypes : ∀ t ∈ first :: rest, t.IsOrdinary c pool) :
    (∀ t later, (mergeAll c first rest).outcome pool = (.ok t, later) →
      Merged c pool later ((first :: rest).filterMap (className? pool)) t) ∧
    ∀ e later, (mergeAll c first rest).outcome pool = (.error e, later) →
      ∃ x ∈ (first :: rest).filterMap (className? pool), ∃ m,
        c.hierarchy.OnChain (c.resolve x) m ∧ ConstantPool.Refused [m] later e := by
  have hfirst := htypes first (by simp)
  obtain ⟨hok, herror⟩ := (Merged.start hpool hfirst).run hc hfirst.isClass
    fun t ht => htypes t (List.mem_cons_of_mem first ht)
  rw [List.filterMap_eq_flatMap_toList, List.flatMap_cons, ← List.filterMap_eq_flatMap_toList]
  refine ⟨hok, fun e later hrun => ?_⟩
  obtain ⟨s, hs, x, m, hx, hchain, hrefused⟩ := herror e later hrun
  exact ⟨x, List.mem_append_right _ (List.mem_filterMap.mpr ⟨s, hs, hx⟩), m, hchain, hrefused⟩

end VerificationType

open VerificationType (mergeAll className?)

/-- The nearest common class of two classes is the lowest one on both chains of superclasses,
whichever comes first. Types that are null or such classes are merged, in any order, into the lowest
class on all chains, unless the pool is full or a class on a chain has a name that is too long for
any pool. -/
theorem ClassScope.Ordinary.merge_lowest {c : ClassScope} (hc : c.Ordinary) :
    (∀ a b, c.IsClass a → c.IsClass b →
      c.hierarchy.OnChain (c.resolve a) (c.nearestCommon a b) ∧
      c.hierarchy.OnChain (c.resolve b) (c.nearestCommon a b) ∧
      (∀ d, c.hierarchy.OnChain (c.resolve a) d → c.hierarchy.OnChain (c.resolve b) d →
        c.hierarchy.OnChain (c.nearestCommon a b) d) ∧
      c.nearestCommon a b = c.nearestCommon b a) ∧
    ∀ (pool : ConstantPool) (first : VerificationType) (rest : List VerificationType),
      pool.WellNamed → (∀ t ∈ first :: rest, t.IsOrdinary c pool) →
      (∀ e later, (mergeAll c first rest).outcome pool = (.error e, later) →
        (∃ next, e = .limit (.constantPoolFull next)) ∨
        ∃ x ∈ (first :: rest).filterMap (className? pool), ∃ m,
          c.hierarchy.OnChain (c.resolve x) m ∧ 65535 < ModifiedUtf8.length m) ∧
      ∀ t later, (mergeAll c first rest).outcome pool = (.ok t, later) →
        (t = .null ∨ (t.className? later).isSome) ∧
        c.Joins ((first :: rest).filterMap (className? pool)) (t.className? later) ∧
        ∀ first' rest' t' later', (first' :: rest').Perm (first :: rest) →
          (mergeAll c first' rest').outcome pool = (.ok t', later') →
          (t' = .null ∨ (t'.className? later').isSome) ∧
            t'.className? later' = t.className? later := by
  constructor
  · intro a b ha hb
    obtain ⟨hleft, hright⟩ := (hc.onChain_nearestCommon ha hb).mp (.refl : c.hierarchy.OnChain _ _)
    exact ⟨hleft, hright, fun d had hbd => (hc.onChain_nearestCommon ha hb).mpr ⟨had, hbd⟩,
      hc.nearestCommon_comm ha hb⟩
  · intro pool first rest hpool htypes
    obtain ⟨hok, herror⟩ := VerificationType.merged_mergeAll hc hpool htypes
    constructor
    · intro e later hrun
      obtain ⟨x, hx, m, hchain, hrefused⟩ := herror e later hrun
      cases hrefused with
      | room => exact .inl ⟨_, rfl⟩
      | text hmem hlong =>
        rw [List.mem_singleton.mp hmem] at hlong
        exact .inr ⟨x, hx, m, hchain, hlong⟩
    · intro t later hrun
      have hmerged := hok t later hrun
      refine ⟨hmerged.typed, hmerged.joins, ?_⟩
      intro first' rest' t' later' hperm hrun'
      have hmerged' := (VerificationType.merged_mergeAll hc hpool
        fun t ht => htypes t (hperm.mem_iff.mp ht)).1 t' later' hrun'
      exact ⟨hmerged'.typed, hmerged'.joins.unique hc
        (fun name => (hperm.filterMap (className? pool)).mem_iff) hmerged.joins⟩

section Entries

variable {g : Hierarchy} (hobject : g.get? .object = some ⟨none, [], false⟩)

include hobject

/-- A class that is not registered has `java/lang/Object` above it and nothing else. -/
lemma Hierarchy.superclass?_of_unknown {name : ClassName} (hname : g.get? name = none) :
    g.superclass? name = some .object := by
  have hne : name ≠ .object := by
    rintro rfl
    rw [hobject] at hname
    cases hname
  rw [superclass?, if_neg hne, hname]

lemma Hierarchy.superclass_class_of_entries
    (h : ∀ entry ∈ g.classes, ∀ s ∈ g.superclass? entry.1, g.isInterface s = false)
    (a b : ClassName) (hab : g.Superclass a b) : g.isInterface b = false := by
  cases hget : g.get? a with
  | some declaration => exact h _ (mem_of_get? hget) b hab
  | none =>
    rw [Superclass, superclass?_of_unknown hobject hget] at hab
    cases hab
    simp [isInterface, hobject]

lemma Hierarchy.rooted_of_entries
    (h : ∀ entry ∈ g.classes, g.superclass? entry.1 = none →
      entry.1 = .object ∨ g.isInterface entry.1 = true)
    (name : ClassName) (hnone : g.superclass? name = none) :
    name = .object ∨ g.isInterface name = true := by
  cases hget : g.get? name with
  | some declaration => exact h _ (mem_of_get? hget) hnone
  | none =>
    rw [superclass?_of_unknown hobject hget] at hnone
    cases hnone

end Entries

/-- A scope is ordinary if each of its entries is. -/
lemma ClassScope.ordinary_of_entries {c : ClassScope}
    (h : c.hierarchy.get? .object = some ⟨none, [], false⟩ ∧ c.thisClass ≠ .object ∧
      c.superClass.IsInternal ∧ ∀ entry ∈ c.hierarchy.classes,
        (∀ s ∈ c.hierarchy.superclass? entry.1, c.hierarchy.isInterface s = false ∧
          (c.hierarchy.superclasses s).length < (c.hierarchy.superclasses entry.1).length) ∧
        (c.hierarchy.superclass? entry.1 = none →
          entry.1 = .object ∨ c.hierarchy.isInterface entry.1 = true) ∧
        (entry.1.IsInternal ∧ (∀ i ∈ entry.2.interfaces, i.IsInternal) ∧
          ∀ s ∈ entry.2.superclass, s.IsInternal) ∧
        c.thisClass ∉ c.hierarchy.parents entry.1) : c.Ordinary := by
  obtain ⟨hobject, hthis, hsuper, hentries⟩ := h
  exact {
    acyclic := Hierarchy.superclass_acyclic_of_shorter
      fun entry hentry s hs => ((hentries entry hentry).1 s hs).2
    superclass_class := Hierarchy.superclass_class_of_entries hobject
      fun entry hentry s hs => ((hentries entry hentry).1 s hs).1
    rooted := Hierarchy.rooted_of_entries hobject fun entry hentry => (hentries entry hentry).2.1
    internal := fun name declaration hget => (hentries _ (Hierarchy.mem_of_get? hget)).2.2.1
    super_internal := hsuper
    this_undeclared := Hierarchy.not_mem_parents_of_entries hthis
      fun entry hentry => (hentries entry hentry).2.2.2 }

/-- Two classes with a common superclass, one of which the class being assembled extends. -/
def forkScope : ClassScope :=
  ⟨"me/Current", "me/Left", .registered [.plain "me/Base" "java/lang/Object" [],
    .plain "me/Left" "me/Base" [], .plain "me/Right" "me/Base" ["me/Shape"],
    .interface "me/Shape" []]⟩

/-- Class constants for three classes. -/
def threeClasses (a b c : ClassName) : Step ConstantPool (PoolIndex × PoolIndex × PoolIndex) := do
  let first ← ConstantPool.classRef a
  let second ← ConstantPool.classRef b
  let third ← ConstantPool.classRef c
  pure (first, second, third)

lemma named_of_threeClasses {a b c : ClassName} {pool : ConstantPool} {i j k : PoolIndex}
    (h : (threeClasses a b c).outcome .empty = (.ok (i, j, k), pool)) :
    pool.WellNamed ∧ pool.className? i = some (ClassName.canonical a) ∧
      pool.className? j = some (ClassName.canonical b) ∧
      pool.className? k = some (ClassName.canonical c) := by
  obtain ⟨_, first, hfirst, h⟩ := Step.bind_eq_ok.mp h
  obtain ⟨_, second, hsecond, h⟩ := Step.bind_eq_ok.mp h
  obtain ⟨_, third, hthird, h⟩ := Step.bind_eq_ok.mp h
  cases h
  obtain ⟨_, hnamed, hfirst'⟩ := ConstantPool.classRef_eq_ok hfirst
  obtain ⟨hgrown, hnamed', hsecond'⟩ := ConstantPool.classRef_eq_ok hsecond
  obtain ⟨hgrown', hnamed'', hthird'⟩ := ConstantPool.classRef_eq_ok hthird
  exact ⟨hnamed'' (hnamed' (hnamed ConstantPool.wellNamed_empty)),
    hgrown'.className? (hgrown.className? hfirst'), hgrown'.className? hsecond', hthird'⟩

/-- Merges types and tells the class that comes out. -/
def mergeFork (first : VerificationType) (rest : List VerificationType) :
    Step ConstantPool (Option ClassName) := do
  let merged ← mergeAll forkScope first rest
  let pool ← get
  pure (merged.className? pool)

theorem forkScope_lowest :
    forkScope.Ordinary ∧ forkScope.IsClass "me/Current" ∧ forkScope.IsClass "me/Right" ∧
      forkScope.nearestCommon "me/Current" "me/Right" = "me/Base" ∧
      forkScope.nearestCommon "me/Right" "me/Current" = "me/Base" ∧
      forkScope.hierarchy.OnChain "me/Left" "me/Base" ∧
      forkScope.hierarchy.OnChain "me/Right" "me/Base" ∧
      ∃ (pool later later' : ConstantPool) (current left right : PoolIndex)
        (t t' : VerificationType), pool.WellNamed ∧
        pool.className? current = some "me/Current" ∧ pool.className? left = some "me/Left" ∧
        pool.className? right = some "me/Right" ∧
        (mergeAll forkScope .null [.object current, .object left, .object right]).outcome pool =
          (.ok t, later) ∧
        (mergeAll forkScope (.object right) [.object left, .object current, .null]).outcome pool =
          (.ok t', later') ∧
        t.className? later = some "me/Base" ∧ t'.className? later' = some "me/Base" := by
  have hscope : forkScope.Ordinary := ClassScope.ordinary_of_entries (by decide +kernel)
  obtain ⟨hcurrent, hleft, hright, hcommon⟩ : forkScope.IsClass "me/Current" ∧
      forkScope.IsClass "me/Left" ∧ forkScope.IsClass "me/Right" ∧
      forkScope.nearestCommon "me/Current" "me/Right" = "me/Base" := by
    decide +kernel
  obtain ⟨hclasses, htypes⟩ := ClassScope.Ordinary.merge_lowest hscope
  obtain ⟨habove, habove', _, hcomm⟩ := hclasses _ _ hcurrent hright
  rw [hcommon] at habove habove' hcomm
  have hone : ((do
      let ids ← threeClasses "me/Current" "me/Left" "me/Right"
      mergeFork .null [.object ids.1, .object ids.2.1, .object ids.2.2]).outcome .empty).1.map id =
        .ok (some "me/Base") := by
    decide +kernel
  have hother : ((do
      let ids ← threeClasses "me/Current" "me/Left" "me/Right"
      mergeFork (.object ids.2.2) [.object ids.2.1, .object ids.1, .null]).outcome .empty).1.map
        (fun _ => ()) = .ok () := by
    decide +kernel
  obtain ⟨_, later, hrun, hresult⟩ := Step.exists_of_map_eq_ok hone
  obtain ⟨ids, pool, hids, hrun⟩ := Step.bind_eq_ok.mp hrun
  obtain ⟨t, _, hmerge, hread⟩ := Step.bind_eq_ok.mp hrun
  cases hread
  obtain ⟨_, later', hrun, _⟩ := Step.exists_of_map_eq_ok hother
  obtain ⟨ids', pool', hids', hrun⟩ := Step.bind_eq_ok.mp hrun
  obtain ⟨t', _, hmerge', hread⟩ := Step.bind_eq_ok.mp hrun
  cases hread
  rw [hids] at hids'
  cases hids'
  obtain ⟨current, left, right⟩ := ids
  obtain ⟨hpool, hcurrent', hleft', hright'⟩ := named_of_threeClasses hids
  obtain ⟨_, hok⟩ := htypes pool .null [.object current, .object left, .object right] hpool (by
    intro t ht
    simp only [List.mem_cons, List.not_mem_nil, or_false] at ht
    rcases ht with rfl | rfl | rfl | rfl
    · exact .inl rfl
    · exact .inr ⟨_, hcurrent', hcurrent⟩
    · exact .inr ⟨_, hleft', hleft⟩
    · exact .inr ⟨_, hright', hright⟩)
  obtain ⟨_, _, hsame⟩ := hok t later hmerge
  refine ⟨hscope, hcurrent, hright, hcommon, hcomm.symm, habove, habove', pool, later, later',
    current, left, right, t, t', hpool, hcurrent', hleft', hright', hmerge, hmerge', hresult, ?_⟩
  have hperm := List.reverse_perm
    [.null, VerificationType.object current, .object left, .object right]
  exact (hsame _ _ t' later' hperm hmerge').2.trans hresult

namespace ClassScope

variable {c : ClassScope} {name base : ClassName} {declaration : ClassDeclaration}

/-- Superclasses are still classes when one more class is registered whose superclass is one. -/
lemma superclass_class_register
    (hc : ∀ a b, c.hierarchy.Superclass a b → c.hierarchy.isInterface b = false)
    (h : c.Registrable name declaration)
    (hsuper : ∀ s ∈ declaration.superclass, c.hierarchy.isInterface s = false) (a b : ClassName)
    (hab : (c.register name declaration).hierarchy.Superclass a b) :
    (c.register name declaration).hierarchy.isInterface b = false := by
  have hne : b ≠ name := by
    rintro rfl
    exact h.unmentioned a (Hierarchy.parent_of_superclass hab)
  rw [h.isInterface_register, if_neg hne]
  rw [Hierarchy.Superclass, h.superclass?_register] at hab
  split at hab
  · exact hsuper b hab
  · exact hc a b hab

theorem Ordinary.register (hc : c.Ordinary) (h : c.Registrable name declaration)
    (hsuper : ∀ s ∈ declaration.superclass, c.hierarchy.isInterface s = false)
    (hrooted : declaration.superclass = none → declaration.isInterface = true) :
    (c.register name declaration).Ordinary where
  acyclic := by
    refine Hierarchy.acyclic_of_fresh hc.acyclic (fun a b ha hab => ?_) fun a ha =>
      h.unmentioned a (Hierarchy.parent_of_superclass ha)
    rwa [Hierarchy.Superclass, h.superclass?_register, if_neg ha] at hab
  superclass_class := superclass_class_register hc.superclass_class h hsuper
  rooted other hnone := by
    rw [h.superclass?_register] at hnone
    rw [h.isInterface_register]
    split at hnone
    · rename_i heq
      rw [if_pos heq]
      exact .inr (hrooted hnone)
    · rename_i hne
      rw [if_neg hne]
      exact hc.rooted other hnone
  internal := h.names_internal hc.internal
  super_internal := hc.super_internal
  this_undeclared := h.this_undeclared hc.this_undeclared

/-- The library has ordinary classes. -/
lemma ordinary_library {superclass : ClassName} (hname : name.IsInternal)
    (hsuper : superclass.IsInternal) (hget : Hierarchy.library.get? name = none) :
    Ordinary ⟨name, superclass, .library⟩ := by
  have hentries : ∀ entry ∈ Hierarchy.library.classes,
      (∀ s ∈ Hierarchy.library.superclass? entry.1, Hierarchy.library.isInterface s = false) ∧
      (Hierarchy.library.superclass? entry.1 = none →
        entry.1 = .object ∨ Hierarchy.library.isInterface entry.1 = true) := by
    decide +kernel
  have hlibrary := Hierarchy.library_lawful.ordered
  exact {
    acyclic := hlibrary.acyclic
    superclass_class := Hierarchy.superclass_class_of_entries hlibrary.get?_object
      fun entry hentry => (hentries entry hentry).1
    rooted := Hierarchy.rooted_of_entries hlibrary.get?_object
      fun entry hentry => (hentries entry hentry).2
    internal := Hierarchy.library_lawful.internal
    super_internal := hsuper
    this_undeclared := (lawful_library hname hsuper hget).this_undeclared }

section LongSuperclass

/-- In the library all names are short, and none of them is that of the sibling. -/
lemma library_sibling : Hierarchy.library.get? "me/Sibling" = none ∧
    ∀ entry ∈ Hierarchy.library.classes, "me/Sibling" ∉ Hierarchy.library.parents entry.1 ∧
      ModifiedUtf8.length entry.1 ≤ 65535 := by
  decide +kernel

/-- A class with the superclass of the one being assembled. -/
def siblingScope (base : ClassName) : ClassScope :=
  ClassScope.register ⟨"me/Current", base, .library⟩ "me/Sibling" (.plain base [])

variable (hbase : base.IsInternal) (hlong : 65535 < ModifiedUtf8.length base)

include hlong

lemma ne_of_long (hshort : ModifiedUtf8.length name ≤ 65535) : base ≠ name := by
  rintro rfl
  exact absurd hlong (Nat.not_lt.mpr hshort)

lemma get?_library_of_long : Hierarchy.library.get? base = none := by
  cases hget : Hierarchy.library.get? base with
  | none => rfl
  | some declaration =>
    have hshort := (library_sibling.2 _ (Hierarchy.mem_of_get? hget)).2
    exact absurd rfl (ne_of_long hlong hshort)

include hbase

lemma registrable_sibling :
    Registrable ⟨"me/Current", base, .library⟩ "me/Sibling" (.plain base []) := by
  obtain ⟨hthis, hsibling, hcurrent⟩ : "me/Sibling" ≠ "me/Current" ∧
      ModifiedUtf8.length "me/Sibling" ≤ 65535 ∧ ModifiedUtf8.length "me/Current" ≤ 65535 := by
    decide
  refine ⟨by decide, library_sibling.1, hthis, fun entry hentry =>
    (library_sibling.2 entry hentry).1, fun parent hparent => ?_⟩
  obtain rfl : parent = base := by simpa [ClassDeclaration.plain] using hparent
  exact ⟨hbase, ne_of_long hlong hsibling, ne_of_long hlong hcurrent⟩

lemma wellDeclared_siblingScope : (siblingScope base).WellDeclared :=
  (lawful_library lawful_plainScope.this_internal hbase
    lawful_plainScope.this_unregistered).wellDeclared.register (registrable_sibling hbase hlong)

lemma ordinary_siblingScope : (siblingScope base).Ordinary := by
  have hlibrary : Ordinary ⟨"me/Current", base, .library⟩ := ordinary_library
    lawful_plainScope.this_internal hbase lawful_plainScope.this_unregistered
  refine hlibrary.register (registrable_sibling hbase hlong) ?_ nofun
  rintro _ ⟨⟩
  rw [Hierarchy.isInterface, get?_library_of_long hlong, Option.any_none]

lemma isClass_siblings : (siblingScope base).IsClass "me/Current" ∧
    (siblingScope base).IsClass "me/Sibling" ∧ (siblingScope base).IsClass .object := by
  have hregistrable := registrable_sibling hbase hlong
  obtain ⟨hsibling, hobject⟩ : "me/Sibling" ≠ "me/Current" ∧ ClassName.object ≠ "me/Current" := by
    decide
  have hinterface : ∀ other, (siblingScope base).hierarchy.isInterface other =
      if other = "me/Sibling" then false else Hierarchy.library.isInterface other :=
    hregistrable.isInterface_register
  refine ⟨?_, ?_, ?_⟩
  · have hresolve : (siblingScope base).resolve "me/Current" = base := if_pos rfl
    rw [IsClass, hresolve, hinterface, if_neg (ne_of_long hlong (by decide)),
      Hierarchy.isInterface, get?_library_of_long hlong]
    exact ⟨hbase.isArray_eq_false, rfl⟩
  · have hresolve : (siblingScope base).resolve "me/Sibling" = "me/Sibling" := if_neg hsibling
    rw [IsClass, hresolve, hinterface, if_pos rfl]
    exact ⟨by decide, rfl⟩
  · have hresolve : (siblingScope base).resolve .object = .object := if_neg hobject
    rw [IsClass, hresolve, hinterface, if_neg hregistrable.ne_object.symm, Hierarchy.isInterface,
      Hierarchy.library_lawful.ordered.get?_object]
    exact ⟨ClassName.object_internal.isArray_eq_false, rfl⟩

/-- The class being assembled and its sibling meet in their superclass. -/
lemma nearestCommon_siblings :
    (siblingScope base).nearestCommon "me/Current" "me/Sibling" = base := by
  have hscope := ordinary_siblingScope hbase hlong
  have hregistrable := registrable_sibling hbase hlong
  obtain ⟨hcurrent, hsibling, _⟩ := isClass_siblings hbase hlong
  have hchain := fun d => hscope.onChain_nearestCommon (d := d) hcurrent hsibling
  have habove : (siblingScope base).hierarchy.Superclass "me/Sibling" base := by
    rw [Hierarchy.Superclass, siblingScope, hregistrable.superclass?_register, if_pos rfl]
    rfl
  exact Hierarchy.OnChain.antisymm hscope.acyclic ((hchain base).mpr ⟨.refl, .single habove⟩)
    ((hchain _).mp .refl).1

/-- Merging two classes first may fail for the name of their superclass, where merging one of them
with `java/lang/Object` first does not. -/
lemma mergeAll_siblings {pool : ConstantPool} (hpool : pool.WellNamed) {i j k : PoolIndex}
    (hi : pool.className? i = some "me/Current") (hj : pool.className? j = some "me/Sibling")
    (hk : pool.className? k = some .object) :
    (mergeAll (siblingScope base) (.object i) [.object j, .object k]).outcome pool =
        (.error (.limit (.textTooLong (ModifiedUtf8.length base))), pool) ∧
      (mergeAll (siblingScope base) (.object i) [.object k, .object j]).outcome pool =
        (.ok (.object k), pool) := by
  have hscope := ordinary_siblingScope hbase hlong
  obtain ⟨hcurrent, hsibling, hobject⟩ := isClass_siblings hbase hlong
  have hne : "me/Current" ≠ "me/Sibling" ∧ "me/Current" ≠ ClassName.object ∧
      ClassName.object ≠ "me/Sibling" := by
    decide
  have hindex : ∀ {x y : PoolIndex} {a b : ClassName}, pool.className? x = some a →
      pool.className? y = some b → a ≠ b → x ≠ y := by
    rintro x _ a b hx hy hab rfl
    exact hab (Option.some.inj (hx.symm.trans hy))
  -- Either order merges twice at most, and each merge asks for the class that two names meet in.
  have hfirst := (VerificationType.Merged.merge_classes hscope hpool hi hj (hindex hi hj hne.1)
    hcurrent hsibling).1
  have hsecond := (VerificationType.Merged.merge_classes hscope hpool hi hk (hindex hi hk hne.2.1)
    hcurrent hobject).1
  have hthird := (VerificationType.Merged.merge_classes hscope hpool hk hj (hindex hk hj hne.2.2)
    hobject hsibling).1
  have hkept : (VerificationType.ofClass .object).outcome pool = (.ok (.object k), pool) :=
    Step.bind_eq_ok.mpr ⟨k, pool, ConstantPool.classRef_of_className? hk, rfl⟩
  rw [nearestCommon_siblings hbase hlong] at hfirst
  rw [hscope.nearestCommon_object hcurrent hobject hne.2.1, hkept] at hsecond
  rw [hscope.nearestCommon_comm hobject hsibling,
    hscope.nearestCommon_object hsibling hobject hne.2.1, hkept] at hthird
  have hrefused : (VerificationType.ofClass base).outcome pool =
      (.error (.limit (.textTooLong (ModifiedUtf8.length base))), pool) := by
    have hcanonical := ClassName.canonical_eq_iff.mpr hbase.undotted
    rw [VerificationType.ofClass, Step.outcome_bind,
      ConstantPool.classRef_of_long (hcanonical.symm ▸ hlong), hcanonical]
  constructor
  · rw [mergeAll, List.foldlM_cons, Step.outcome_bind, hfirst, hrefused]
  · rw [mergeAll, List.foldlM_cons, Step.outcome_bind, hsecond]
    dsimp only
    rw [List.foldlM_cons, Step.outcome_bind, hthird]
    rfl

end LongSuperclass

lemma internal_letters {n : Nat} (hn : n ≠ 0) : ClassName.IsInternal (ModifiedUtf8.letters n) := by
  constructor
  · intro hempty
    have hlength := ModifiedUtf8.length_letters n
    rw [hempty] at hlength
    exact hn hlength.symm
  · intro c hc
    rw [ModifiedUtf8.letters, String.toList_ofList] at hc
    rw [List.eq_of_mem_replicate hc]
    decide

/-- A class without a superclass, which is not `java/lang/Object`, beside one that has a superclass. -/
def rootlessScope : ClassScope :=
  (plainScope.register "me/Root" ⟨none, [], false⟩).register "me/Other" (.plain .object [])

lemma rootlessScope_classes : (plainScope.Registrable "me/Root" ⟨none, [], false⟩ ∧
      (plainScope.register "me/Root" ⟨none, [], false⟩).Registrable "me/Other"
        (.plain .object [])) ∧
    rootlessScope.IsClass "me/Root" ∧ rootlessScope.IsClass "me/Other" ∧
    rootlessScope.nearestCommon "me/Root" "me/Other" = .object ∧
    rootlessScope.resolve "me/Root" = "me/Root" ∧
    rootlessScope.hierarchy.superclass? "me/Root" = none := by
  decide +kernel

lemma wellDeclared_rootlessScope : rootlessScope.WellDeclared :=
  (lawful_plainScope.wellDeclared.register rootlessScope_classes.1.1).register
    rootlessScope_classes.1.2

lemma superclass_class_rootlessScope (a b : ClassName)
    (h : rootlessScope.hierarchy.Superclass a b) : rootlessScope.hierarchy.isInterface b = false := by
  obtain ⟨hroot, hother⟩ := rootlessScope_classes.1
  have hlibrary : plainScope.Ordinary := ordinary_library lawful_plainScope.this_internal
    lawful_plainScope.super_internal lawful_plainScope.this_unregistered
  refine superclass_class_register (superclass_class_register hlibrary.superclass_class hroot
    nofun) hother ?_ a b h
  rintro _ ⟨⟩
  rw [hroot.isInterface_register, if_neg hroot.ne_object.symm, plainScope, Hierarchy.isInterface,
    Hierarchy.library_lawful.ordered.get?_object]
  rfl

/-- A class without a superclass shares no class with others, and where the name of a common
superclass is too long for any pool, it depends on the order whether merging fails. -/
theorem merge_not_lowest :
    (rootlessScope.WellDeclared ∧
      (∀ a b, rootlessScope.hierarchy.Superclass a b →
        rootlessScope.hierarchy.isInterface b = false) ∧
      rootlessScope.IsClass "me/Root" ∧ rootlessScope.IsClass "me/Other" ∧
      rootlessScope.nearestCommon "me/Root" "me/Other" = .object ∧
      ¬rootlessScope.hierarchy.OnChain (rootlessScope.resolve "me/Root") .object) ∧
    ∃ (c : ClassScope) (pool : ConstantPool) (i j k : PoolIndex) (n : Nat),
      c.WellDeclared ∧ c.Ordinary ∧ pool.WellNamed ∧
      (∀ t ∈ [VerificationType.object i, .object j, .object k], t.IsOrdinary c pool) ∧
      (mergeAll c (.object i) [.object j, .object k]).outcome pool =
        (.error (.limit (.textTooLong n)), pool) ∧
      (mergeAll c (.object i) [.object k, .object j]).outcome pool = (.ok (.object k), pool) := by
  constructor
  · obtain ⟨_, hroot, hother, hcommon, hresolve, hnone⟩ := rootlessScope_classes
    refine ⟨wellDeclared_rootlessScope, superclass_class_rootlessScope, hroot, hother, hcommon,
      fun hchain => ?_⟩
    rw [hresolve] at hchain
    rcases ReflTransGen.cases_head hchain with heq | ⟨_, hstep, _⟩
    · exact absurd heq (by decide)
    · rw [Hierarchy.Superclass, hnone] at hstep
      cases hstep
  · have hlong : 65535 < ModifiedUtf8.length (ModifiedUtf8.letters 65536) := by
      rw [ModifiedUtf8.length_letters]
      decide
    have hbase := internal_letters (n := 65536) (by decide)
    have hconstants : ((threeClasses "me/Current" "me/Sibling" .object).outcome .empty).1.map
        (fun _ => ()) = .ok () := by
      decide
    obtain ⟨⟨i, j, k⟩, pool, hrun, _⟩ := Step.exists_of_map_eq_ok hconstants
    obtain ⟨hpool, hi, hj, hk⟩ := named_of_threeClasses hrun
    obtain ⟨hcurrent, hsibling, hobject⟩ := isClass_siblings hbase hlong
    obtain ⟨hrefused, hmerged⟩ := mergeAll_siblings hbase hlong hpool hi hj hk
    refine ⟨_, pool, i, j, k, _, wellDeclared_siblingScope hbase hlong,
      ordinary_siblingScope hbase hlong, hpool, ?_, hrefused, hmerged⟩
    intro t ht
    simp only [List.mem_cons, List.not_mem_nil, or_false] at ht
    rcases ht with rfl | rfl | rfl
    · exact .inr ⟨_, hi, hcurrent⟩
    · exact .inr ⟨_, hj, hsibling⟩
    · exact .inr ⟨_, hk, hobject⟩

end ClassScope

end ClassAssembly
