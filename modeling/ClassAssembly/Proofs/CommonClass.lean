import ClassAssembly.Proofs.LibraryScope
import ClassAssembly.Proofs.MergeOrder

/-! What two types are merged into can stand for both. The hierarchy that decides this knows one
class more than the one that merging asks: the class being assembled, below its superclass. -/
namespace ClassAssembly

open Relation (ReflTransGen)

namespace Hierarchy

variable {g : Hierarchy} {a b : ClassName}

lemma superclassesUpTo_subset {n m : Nat} (h : n ≤ m) (name : ClassName) :
    g.superclassesUpTo n name ⊆ g.superclassesUpTo m name := by
  induction n generalizing m name with
  | zero => simp [superclassesUpTo]
  | succ n ih =>
    obtain ⟨m, rfl⟩ : ∃ k, m = k + 1 := ⟨m - 1, by omega⟩
    simp only [superclassesUpTo]
    split
    · exact List.Subset.refl _
    · exact List.cons_subset_cons _ (ih (by omega) _)

/-- An array class is assignable to the array class of what its elements are assignable to. -/
lemma isAssignable_arrayOf {x m : ClassName} (hx : a.element? = some x) (hm : m.Nameable)
    (h : g.isAssignable x m = true) : g.isAssignable a (.arrayOf m) = true :=
  (isAssignable_array_iff (ClassName.isArray_of_element? hx)).mpr
    (.inr (.inr (.inr (.inr ⟨x, m, hx, hm.element?_arrayOf, h⟩))))

end Hierarchy

namespace ClassScope

variable {c : ClassScope} {a b m : ClassName}

/-- The hierarchy once the class being assembled is declared in it. -/
def declared (c : ClassScope) : Hierarchy := c.hierarchy.add c.thisClass (.plain c.superClass [])

namespace WellDeclared

lemma get?_declared (hc : c.WellDeclared) (name : ClassName) :
    c.declared.get? name =
      if name = c.thisClass then some (.plain c.superClass []) else c.hierarchy.get? name := by
  have hcanonical : ClassName.canonical c.thisClass = c.thisClass :=
    ClassName.canonical_eq_iff.mpr hc.this_internal.undotted
  rw [declared, Hierarchy.get?_add, hcanonical]

lemma isInterface_declared (hc : c.WellDeclared) (name : ClassName) :
    c.declared.isInterface name = c.hierarchy.isInterface name := by
  rw [Hierarchy.isInterface, Hierarchy.isInterface, hc.get?_declared]
  split
  · rename_i hthis
    rw [hthis, hc.this_unregistered]
    rfl
  · rfl

lemma parents_declared (hc : c.WellDeclared) (h : a ≠ c.thisClass) :
    c.declared.parents a = c.hierarchy.parents a := by
  rw [Hierarchy.parents, Hierarchy.parents, hc.get?_declared, if_neg h]

lemma superclass?_declared (hc : c.WellDeclared) (h : a ≠ c.thisClass) :
    c.declared.superclass? a = c.hierarchy.superclass? a := by
  rw [Hierarchy.superclass?, Hierarchy.superclass?, hc.get?_declared, if_neg h]

lemma superclass?_this (hc : c.WellDeclared) :
    c.declared.superclass? c.thisClass = some c.superClass := by
  rw [Hierarchy.superclass?, if_neg hc.this_ne_object, hc.get?_declared, if_pos rfl]
  rfl

lemma parent_this (hc : c.WellDeclared) : c.declared.Parent c.thisClass c.superClass :=
  Hierarchy.parent_of_superclass hc.superclass?_this

/-- Nothing above another class is the class being assembled, so all paths are as they were. -/
lemma path_declared (hc : c.WellDeclared) (ha : a ≠ c.thisClass)
    (h : ReflTransGen c.hierarchy.Parent a b) : ReflTransGen c.declared.Parent a b := by
  induction h using ReflTransGen.head_induction_on with
  | refl => exact .refl
  | @head a next hstep _ ih =>
    have hnext : next ≠ c.thisClass := by
      rintro rfl
      exact hc.this_undeclared _ hstep
    refine .head ?_ (ih hnext)
    rwa [Hierarchy.Parent, hc.parents_declared ha]

lemma superclassesUpTo_declared (hc : c.WellDeclared) (n : Nat) (ha : a ≠ c.thisClass) :
    c.declared.superclassesUpTo n a = c.hierarchy.superclassesUpTo n a := by
  induction n generalizing a with
  | zero => rfl
  | succ n ih =>
    rw [Hierarchy.superclassesUpTo, Hierarchy.superclassesUpTo, hc.superclass?_declared ha]
    split
    · rfl
    · rename_i parent hparent
      have hne : parent ≠ c.thisClass := by
        rintro rfl
        exact hc.this_undeclared a (Hierarchy.parent_of_superclass hparent)
      rw [ih hne]

/-- One class more leaves room for at least the same superclasses. -/
lemma superclasses_declared (hc : c.WellDeclared) (ha : a ≠ c.thisClass)
    (h : b ∈ c.hierarchy.superclasses a) : b ∈ c.declared.superclasses a := by
  have hroom : c.hierarchy.classes.length + 2 ≤ c.declared.classes.length + 2 :=
    Nat.le_succ _
  rw [Hierarchy.superclasses, ← hc.superclassesUpTo_declared _ ha] at h
  exact Hierarchy.superclassesUpTo_subset hroom a h

/-- The superclasses of the class being assembled are its superclass and those of that. -/
lemma superclasses_this (hc : c.WellDeclared) (hsuper : c.superClass ≠ c.thisClass)
    (h : b = c.superClass ∨ b ∈ c.hierarchy.superclasses c.superClass) :
    b ∈ c.declared.superclasses c.thisClass := by
  have hchain : c.declared.superclasses c.thisClass =
      c.superClass :: c.hierarchy.superclasses c.superClass := by
    rw [Hierarchy.superclasses, show c.declared.classes.length + 2 =
      c.hierarchy.classes.length + 2 + 1 from rfl, Hierarchy.superclassesUpTo,
      hc.superclass?_this]
    simp only [hc.superclassesUpTo_declared _ hsuper]
    rfl
  rw [hchain]
  exact List.mem_cons.mpr h

/-- A class that is not registered is below itself and `java/lang/Object` only. -/
lemma eq_of_isAssignable_this (hc : c.WellDeclared) (hm : m.isArray = false)
    (h : c.hierarchy.isAssignable c.thisClass m = true) : m = c.thisClass ∨ m = .object := by
  rcases Hierarchy.path_or_object_of_isAssignable hc.this_internal.isArray_eq_false hm h with
    hobject | hpath
  · exact .inr hobject
  · rcases ReflTransGen.cases_head hpath with heq | ⟨next, hstep, hrest⟩
    · exact .inl heq.symm
    · rw [Hierarchy.Parent, Hierarchy.parents, hc.this_unregistered,
        if_neg hc.this_ne_object, List.mem_singleton] at hstep
      subst hstep
      exact .inr (hc.eq_object_of_path (path_of_hierarchy hrest))

/-- What a class is assignable to once its superclass stands in for the class being assembled, it is
assignable to with that class declared. -/
theorem isAssignable_declared (hc : c.WellDeclared) (ha : a.isArray = false)
    (hm : m.isArray = false) (h : c.hierarchy.isAssignable (c.resolve a) m = true) :
    c.declared.isAssignable a m = true := by
  have hra : (c.resolve a).isArray = false := by rw [hc.isArray_resolve, ha]
  by_cases hthis : a = c.thisClass
  · subst hthis
    rw [resolve, if_pos rfl] at h hra
    by_cases hsuper : c.superClass = c.thisClass
    · rw [hsuper] at h
      rcases hc.eq_of_isAssignable_this hm h with rfl | rfl
      · exact c.declared.isAssignable_self _
      · exact c.declared.isAssignable_object _
    · have habove := fun hmem => Hierarchy.isAssignable_superclass ha hm
        (hc.superclasses_this hsuper hmem)
      rcases (Hierarchy.isAssignable_plain_iff hra hm).mp h with heq | rfl | hrest
      · exact habove (.inl heq.symm)
      · exact c.declared.isAssignable_object _
      · split at hrest
        · rename_i hinterface
          refine (Hierarchy.isAssignable_plain_iff ha hm).mpr (.inr (.inr ?_))
          rw [if_pos (hc.isInterface_declared m ▸ hinterface)]
          exact .head hc.parent_this (hc.path_declared hsuper hrest)
        · exact habove (.inr hrest)
  · rw [resolve, if_neg hthis] at h
    refine (Hierarchy.isAssignable_plain_iff ha hm).mpr ?_
    refine ((Hierarchy.isAssignable_plain_iff ha hm).mp h).imp_right (.imp_right fun hrest => ?_)
    rw [hc.isInterface_declared]
    split at hrest
    · rename_i hinterface
      rw [if_pos hinterface]
      exact hc.path_declared hthis hrest
    · rename_i hclass
      rw [if_neg hclass]
      exact hc.superclasses_declared hthis hrest

/-- A resolved class can be stood for by the class that it was resolved from. -/
lemma isAssignable_resolve (hc : c.WellDeclared) (a : ClassName) :
    c.declared.isAssignable a (c.resolve a) = true := by
  by_cases ha : a.isArray = false
  · exact hc.isAssignable_declared ha (by rw [hc.isArray_resolve, ha])
      (c.hierarchy.isAssignable_self _)
  · have hne : a ≠ c.thisClass := by
      rintro rfl
      exact ha hc.this_internal.isArray_eq_false
    rw [resolve, if_neg hne]
    exact c.declared.isAssignable_self a

/-- By induction on the array dimensions that are taken off both names. -/
theorem isAssignable_nearestWithin (hc : c.WellDeclared) (n : Nat) (a b : ClassName) :
    c.declared.isAssignable a (c.nearestWithin n a b) = true ∧
      c.declared.isAssignable b (c.nearestWithin n a b) = true := by
  have htop := c.declared.isAssignable_object
  induction n generalizing a b with
  | zero => exact ⟨htop a, htop b⟩
  | succ n ih =>
    simp only [nearestWithin]
    split
    · rename_i heq
      refine ⟨hc.isAssignable_resolve a, ?_⟩
      rw [heq]
      exact hc.isAssignable_resolve b
    · split
      · split
        · rename_i x y hx hy
          split
          · exact ⟨htop a, htop b⟩
          · rename_i hxy
            have hname := (hc.joined_nearestWithin n x y).nameable hc hxy
              (ClassName.proper_of_element? hx) (ClassName.proper_of_element? hy)
            exact ⟨Hierarchy.isAssignable_arrayOf (hc.resolve_of_element? hx) hname (ih x y).1,
              Hierarchy.isAssignable_arrayOf (hc.resolve_of_element? hy) hname (ih x y).2⟩
        · exact ⟨htop a, htop b⟩
      · rename_i hplain
        simp only [Bool.or_eq_true, not_or, Bool.not_eq_true] at hplain
        obtain ⟨hm, ham, hbm, _⟩ := nearestOfPlain_spec
          (fun s hs => (hc.internal_of_mem_superclasses hs).isArray_eq_false) hplain.1 hplain.2
        rw [hc.isArray_resolve, hc.isArray_resolve] at hplain
        exact ⟨hc.isAssignable_declared hplain.1 hm ham,
          hc.isAssignable_declared hplain.2 hm hbm⟩

end WellDeclared
end ClassScope

/-- The order in which a class is below itself only. -/
def ClassOrder.discrete : ClassOrder where
  Named _ := True
  Covers _ i j := i = j
  named_mono _ _ := trivial
  mono _ h := h
  trans := Eq.trans

namespace VerificationType

/-- Whether a value of the first type may be used where one of the second is expected. -/
def isUsableAs (g : Hierarchy) (pool : ConstantPool) : VerificationType → VerificationType → Bool
  | _, .top => true
  | .null, .object _ => true
  | .object i, .object j => g.isAssignable (pool.classOrObject i) (pool.classOrObject j)
  | s, t => s = t

lemma isUsableAs_self (g : Hierarchy) (pool : ConstantPool) (t : VerificationType) :
    isUsableAs g pool t t = true := by
  cases t <;> simp [isUsableAs, Hierarchy.isAssignable_self]

lemma isUsableAs_of_discrete {pool : ConstantPool} {s t : VerificationType} (g : Hierarchy)
    (h : Covers .discrete pool t s) : isUsableAs g pool s t = true := by
  cases h with
  | refl => exact isUsableAs_self g pool s
  | top => cases s <;> rfl
  | null => rfl
  | classes hij =>
    cases hij
    exact isUsableAs_self g pool _

end VerificationType

namespace ClassScope.WellDeclared

variable {c : ClassScope} {pool later : ConstantPool} {s t m : VerificationType}

/-- A class that lies above what an index stands for also lies above what it stands for later: an
index of no class may become that of a class, but only `java/lang/Object` was above it. -/
lemma isAssignable_later (hc : c.WellDeclared) (hpool : pool.Extends later) {i : PoolIndex}
    {name : ClassName} (hclimbs : c.Climbs (pool.classOrObject i) name)
    (h : c.declared.isAssignable (pool.classOrObject i) name = true) :
    c.declared.isAssignable (later.classOrObject i) name = true := by
  cases hi : pool.className? i with
  | some other =>
    rw [ConstantPool.classOrObject_of_className? hi] at h
    rwa [ConstantPool.classOrObject_of_className? (hpool.className? hi)]
  | none =>
    rw [ConstantPool.classOrObject, hi] at hclimbs
    rw [hc.eq_object_of_climbs hclimbs]
    exact c.declared.isAssignable_object _

lemma isUsableAs_merge (hc : c.WellDeclared) (hpool : pool.WellNamed)
    (h : (VerificationType.merge c s t).outcome pool = (.ok m, later)) :
    s.isUsableAs c.declared later m = true ∧ t.isUsableAs c.declared later m = true := by
  by_cases hobjects : ∃ i j, s = .object i ∧ t = .object j ∧ i ≠ j
  · obtain ⟨i, j, rfl, rfl, hij⟩ := hobjects
    rw [VerificationType.merge_objects c hij] at h
    obtain ⟨hext, _⟩ := (VerificationType.repeatable_ofClass _).grows h
    obtain ⟨k, rfl, hk⟩ := VerificationType.ofClass_eq_ok h
    have hjoined := hc.joined_nearestCommon (pool.classOrObject i) (pool.classOrObject j)
    rw [ClassName.canonical_eq_iff.mpr
      (hjoined.canonical hc (hpool.classOrObject i) (hpool.classOrObject j))] at hk
    obtain ⟨hi, hj⟩ := hjoined.climbs hc
    obtain ⟨hi', hj'⟩ := hc.isAssignable_nearestWithin _ (pool.classOrObject i)
      (pool.classOrObject j)
    simp only [VerificationType.isUsableAs, ConstantPool.classOrObject_of_className? hk]
    exact ⟨hc.isAssignable_later hext hi hi', hc.isAssignable_later hext hj hj'⟩
  · obtain ⟨m', hm', hcovers⟩ := VerificationType.merge_eq_pure c s t hobjects
    rw [hm'] at h
    cases h
    obtain ⟨hs, ht⟩ := hcovers .discrete pool
    exact ⟨VerificationType.isUsableAs_of_discrete _ hs,
      VerificationType.isUsableAs_of_discrete _ ht⟩

end ClassScope.WellDeclared

/-- Two classes are assignable to the nearest common class of both, and two types may be used as
the type that they are merged into, once the class being assembled is declared. -/
theorem ClassScope.WellDeclared.merge_upper_bound {c : ClassScope} (hc : c.WellDeclared) :
    (∀ a b : ClassName, c.declared.isAssignable a (c.nearestCommon a b) = true ∧
      c.declared.isAssignable b (c.nearestCommon a b) = true) ∧
    ∀ (pool later : ConstantPool) (s t m : VerificationType), pool.WellNamed →
      (VerificationType.merge c s t).outcome pool = (.ok m, later) →
      s.isUsableAs c.declared later m = true ∧ t.isUsableAs c.declared later m = true :=
  ⟨fun a b => hc.isAssignable_nearestWithin _ a b, fun _ _ _ _ _ => hc.isUsableAs_merge⟩

/-- A class below `java/lang/Exception`. -/
def failureScope : ClassScope := ⟨"me/Failure", "java/lang/Exception", .library⟩

/-- Merges the class being assembled with `java/lang/Error`. -/
def mergeFailures : Step ConstantPool (VerificationType × Option ClassName) := do
  let failure ← ConstantPool.classRef "me/Failure"
  let error ← ConstantPool.classRef "java/lang/Error"
  let merged ← VerificationType.merge failureScope (.object failure) (.object error)
  let pool ← get
  pure (merged, pool.className? 6)

theorem failureScope_upper_bound :
    failureScope.WellDeclared ∧
      failureScope.nearestCommon "[[Lme/Failure;" "[[Ljava/lang/Error;" =
        "[[Ljava/lang/Throwable;" ∧
      failureScope.declared.isAssignable "[[Lme/Failure;" "[[Ljava/lang/Throwable;" = true ∧
      failureScope.declared.isAssignable "[[Ljava/lang/Error;" "[[Ljava/lang/Throwable;" = true ∧
      ∃ (pool later : ConstantPool) (failure error : PoolIndex), pool.WellNamed ∧
        pool.className? failure = some "me/Failure" ∧
        pool.className? error = some "java/lang/Error" ∧
        (VerificationType.merge failureScope (.object failure) (.object error)).outcome pool =
          (.ok (.object 6), later) ∧
        later.className? 6 = some .throwable ∧
        VerificationType.isUsableAs failureScope.declared later (.object failure) (.object 6) =
          true ∧
        VerificationType.isUsableAs failureScope.declared later (.object error) (.object 6) =
          true := by
  have hscope : failureScope.WellDeclared := (ClassScope.lawful_library (by decide +kernel)
    (by decide +kernel) (by decide +kernel)).wellDeclared
  have hcommon : failureScope.nearestCommon "[[Lme/Failure;" "[[Ljava/lang/Error;" =
      "[[Ljava/lang/Throwable;" := by
    decide +kernel
  obtain ⟨hclasses, htypes⟩ := ClassScope.WellDeclared.merge_upper_bound hscope
  have harrays := hclasses "[[Lme/Failure;" "[[Ljava/lang/Error;"
  rw [hcommon] at harrays
  have heval : (mergeFailures.outcome .empty).1.map id = .ok (.object 6, some .throwable) := by
    decide +kernel
  obtain ⟨_, later, hrun, hresult⟩ := Step.exists_of_map_eq_ok heval
  obtain ⟨failure, first, hfailure, hrun⟩ := Step.bind_eq_ok.mp hrun
  obtain ⟨error, pool, herror, hrun⟩ := Step.bind_eq_ok.mp hrun
  obtain ⟨merged, _, hmerge, hrun⟩ := Step.bind_eq_ok.mp hrun
  cases hrun
  obtain ⟨rfl, hclass⟩ := Prod.mk.inj hresult
  obtain ⟨_, hnamed, hfailure⟩ := ConstantPool.classRef_eq_ok hfailure
  obtain ⟨hext, hnamed', herror⟩ := ConstantPool.classRef_eq_ok herror
  have hpool := hnamed' (hnamed ConstantPool.wellNamed_empty)
  refine ⟨hscope, hcommon, harrays.1, harrays.2, pool, later, failure, error, hpool,
    hext.className? hfailure, herror, hmerge, hclass, htypes _ _ _ _ _ hpool hmerge⟩

end ClassAssembly
