import ClassAssembly.Proofs.TypeOrder

/-! Merging climbs. The declarations of the classes, and the superclass of the class being assembled,
lead upwards without a cycle, and what two classes are merged into lies above both. That needs less
than an order of assignability, which an interface with a superclass of its own would break. -/
namespace ClassAssembly

open Relation (ReflTransGen TransGen)

namespace ClassScope

variable {c : ClassScope} {a b d m : ClassName}

/-- What is declared about the classes around the one being assembled: nothing is above itself, the
library is as it was, names are internal, and the class being assembled is not mentioned. -/
structure WellDeclared (c : ClassScope) : Prop where
  acyclic : ∀ name, ¬TransGen c.hierarchy.Parent name name
  library_kept : ∀ entry ∈ Hierarchy.library.classes, c.hierarchy.get? entry.1 = some entry.2
  internal : ∀ name declaration, c.hierarchy.get? name = some declaration →
    name.IsInternal ∧ (∀ i ∈ declaration.interfaces, i.IsInternal) ∧
      ∀ s ∈ declaration.superclass, s.IsInternal
  this_internal : c.thisClass.IsInternal
  super_internal : c.superClass.IsInternal
  this_unregistered : c.hierarchy.get? c.thisClass = none
  this_undeclared : ∀ name, c.thisClass ∉ c.hierarchy.parents name

lemma Lawful.wellDeclared (hc : c.Lawful) : c.WellDeclared :=
  ⟨hc.hierarchy.acyclic, hc.hierarchy.library_kept, hc.hierarchy.internal, hc.this_internal,
    hc.super_internal, hc.this_unregistered, hc.this_undeclared⟩

/-- One step up: to what is declared, or from the class being assembled to its superclass. -/
def Parent (c : ClassScope) (a b : ClassName) : Prop :=
  c.hierarchy.Parent a b ∨ a = c.thisClass ∧ b = c.superClass ∧ a ≠ b

lemma path_resolve (c : ClassScope) (a : ClassName) : ReflTransGen c.Parent a (c.resolve a) := by
  unfold resolve
  split
  · rename_i hthis
    by_cases heq : a = c.superClass
    · rw [← heq]
    · exact .single (.inr ⟨hthis, rfl, heq⟩)
  · exact .refl

lemma path_of_hierarchy (h : ReflTransGen c.hierarchy.Parent a b) : ReflTransGen c.Parent a b :=
  ReflTransGen.mono (fun _ _ h => Or.inl h) _ _ h

namespace WellDeclared

lemma get?_object (hc : c.WellDeclared) :
    c.hierarchy.get? .object = some ⟨none, [], false⟩ :=
  hc.library_kept (.object, ⟨none, [], false⟩) (by simp [Hierarchy.library])

lemma this_ne_object (hc : c.WellDeclared) : c.thisClass ≠ .object := by
  intro h
  have hobject := hc.get?_object
  rw [← h, hc.this_unregistered] at hobject
  cases hobject

lemma not_parent_object (hc : c.WellDeclared) : ¬c.Parent .object b := by
  rintro (hparent | ⟨hthis, _⟩)
  · simp [Hierarchy.Parent, Hierarchy.parents, hc.get?_object] at hparent
  · exact hc.this_ne_object hthis.symm

lemma internal_of_parent (hc : c.WellDeclared) (h : c.Parent a b) : b.IsInternal := by
  rcases h with hparent | ⟨_, rfl, _⟩
  · exact Hierarchy.internal_of_parent hc.internal hparent
  · exact hc.super_internal

lemma internal_of_mem_superclasses (hc : c.WellDeclared) (h : b ∈ c.hierarchy.superclasses a) :
    b.IsInternal := by
  obtain ⟨_, _, hlast⟩ := TransGen.tail'_iff.mp (Hierarchy.superclass_of_mem_superclassesUpTo h)
  exact hc.internal_of_parent (.inl (Hierarchy.parent_of_superclass hlast))

lemma ne_this_of_parent (hc : c.WellDeclared) (h : c.Parent a b) : b ≠ c.thisClass := by
  rintro rfl
  rcases h with hparent | ⟨rfl, _, hne⟩
  · exact hc.this_undeclared a hparent
  · exact hne rfl

/-- Nothing leads back to the class being assembled, so a cycle would be one of the hierarchy. -/
theorem not_above_self (hc : c.WellDeclared) (a : ClassName) : ¬TransGen c.Parent a a := by
  intro hcycle
  have hdeclared : ∀ x, TransGen c.Parent x a → x ≠ c.thisClass →
      TransGen c.hierarchy.Parent x a := by
    intro x hpath
    induction hpath using TransGen.head_induction_on with
    | single hstep =>
      intro hne
      exact .single (hstep.resolve_right fun h => hne h.1)
    | head hstep _ ih =>
      intro hne
      exact .head (hstep.resolve_right fun h => hne h.1) (ih (hc.ne_this_of_parent hstep))
  obtain ⟨_, _, hlast⟩ := TransGen.tail'_iff.mp hcycle
  exact hc.acyclic a (hdeclared a hcycle (hc.ne_this_of_parent hlast))

/-- No path leads to an array class. -/
lemma eq_of_path_to_array (hc : c.WellDeclared) (hb : b.isArray = true)
    (h : ReflTransGen c.Parent a b) : a = b := by
  rcases ReflTransGen.cases_tail h with heq | ⟨_, _, hlast⟩
  · exact heq.symm
  · rw [(hc.internal_of_parent hlast).isArray_eq_false] at hb
    cases hb

lemma eq_object_of_path (hc : c.WellDeclared) (h : ReflTransGen c.Parent .object b) :
    b = .object := by
  rcases ReflTransGen.cases_head h with heq | ⟨_, hstep, _⟩
  · exact heq.symm
  · exact absurd hstep hc.not_parent_object

/-- An array class is not registered, so only `java/lang/Object` is above it. -/
lemma eq_of_path_from_array (hc : c.WellDeclared) (ha : a.isArray = true)
    (h : ReflTransGen c.Parent a b) : b = a ∨ b = .object := by
  rcases ReflTransGen.cases_head h with heq | ⟨next, hstep, hrest⟩
  · exact .inl heq.symm
  · have hnext : next = .object := by
      rcases hstep with hparent | ⟨rfl, _⟩
      · unfold Hierarchy.Parent Hierarchy.parents at hparent
        split at hparent
        · rename_i declaration hget
          rw [(hc.internal a declaration hget).1.isArray_eq_false] at ha
          cases ha
        · split at hparent
          · cases hparent
          · exact List.mem_singleton.mp hparent
      · rw [hc.this_internal.isArray_eq_false] at ha
        cases ha
    subst hnext
    exact .inr (hc.eq_object_of_path hrest)

end WellDeclared

/-- `b` lies above `a`: on a path, as `java/lang/Object`, or by the classes of the elements. -/
inductive Climbs (c : ClassScope) : ClassName → ClassName → Prop
  | path {a b : ClassName} (h : ReflTransGen c.Parent a b) : Climbs c a b
  | object (a : ClassName) : Climbs c a .object
  | arrays {a x y : ClassName} (hx : a.element? = some x) (hy : ClassName.Nameable y)
      (h : Climbs c x y) : Climbs c a (.arrayOf y)

namespace WellDeclared

lemma eq_object_of_climbs (hc : c.WellDeclared) (h : c.Climbs .object b) : b = .object := by
  cases h with
  | path h => exact hc.eq_object_of_path h
  | object => rfl
  | arrays hx => exact absurd (ClassName.isArray_of_element? hx) (by decide)

theorem climbs_trans (hc : c.WellDeclared) (hab : c.Climbs a b) (hbd : c.Climbs b d) :
    c.Climbs a d := by
  induction hab generalizing d with
  | @path a b hpath =>
    cases hbd with
    | path hpath' => exact .path (hpath.trans hpath')
    | object => exact .object a
    | arrays hx hy h =>
      rw [hc.eq_of_path_to_array (ClassName.isArray_of_element? hx) hpath]
      exact .arrays hx hy h
  | object a =>
    rw [hc.eq_object_of_climbs hbd]
    exact .object a
  | @arrays a x y hx hy h ih =>
    cases hbd with
    | path hpath =>
      rcases hc.eq_of_path_from_array (ClassName.isArray_arrayOf y) hpath with rfl | rfl
      · exact .arrays hx hy h
      · exact .object a
    | object => exact .object a
    | arrays hx' hy' h' =>
      rw [hy.element?_arrayOf] at hx'
      cases hx'
      exact .arrays hx hy' (ih h')

theorem climbs_antisymm (hc : c.WellDeclared) (hab : c.Climbs a b) (hba : c.Climbs b a) : a = b := by
  induction hab with
  | @path a b hpath =>
    cases hba with
    | path hpath' =>
      rcases ReflTransGen.cases_head hpath with heq | ⟨_, hstep, hrest⟩
      · exact heq
      · exact absurd (TransGen.head' hstep (hrest.trans hpath')) (hc.not_above_self a)
    | object => exact (hc.eq_object_of_path hpath).symm
    | arrays hx => exact hc.eq_of_path_to_array (ClassName.isArray_of_element? hx) hpath
  | object a => exact hc.eq_object_of_climbs hba
  | @arrays a x y hx hy h ih =>
    have harray := ClassName.isArray_of_element? hx
    cases hba with
    | path hpath => exact (hc.eq_of_path_to_array harray hpath).symm
    | object => exact absurd harray (by decide)
    | arrays hx' hy' h' =>
      rw [hy.element?_arrayOf] at hx'
      rw [hy'.element?_arrayOf] at hx
      cases hx'
      cases hx
      rw [ih h']

end WellDeclared

/-- How the nearest common class of two classes comes about. -/
inductive Joined (c : ClassScope) : ClassName → ClassName → ClassName → Prop
  | object (a b : ClassName) : Joined c a b .object
  | same {a b : ClassName} (h : c.resolve a = c.resolve b) : Joined c a b (c.resolve a)
  | arrays {a b x y m : ClassName} (hx : a.element? = some x) (hy : b.element? = some y)
      (hxy : x ≠ y) (h : Joined c x y m) : Joined c a b (.arrayOf m)
  | plain {a b m : ClassName} (ha : a.isArray = false) (hb : b.isArray = false)
      (ham : ReflTransGen c.hierarchy.Parent (c.resolve a) m)
      (hbm : ReflTransGen c.hierarchy.Parent (c.resolve b) m)
      (hm : m = c.resolve a ∨ m = c.resolve b ∨ m.IsInternal) : Joined c a b m

namespace WellDeclared

lemma isArray_resolve (hc : c.WellDeclared) (name : ClassName) :
    (c.resolve name).isArray = name.isArray := by
  unfold resolve
  split
  · rename_i h
    rw [h, hc.this_internal.isArray_eq_false, hc.super_internal.isArray_eq_false]
  · rfl

lemma resolve_of_element? (hc : c.WellDeclared) {x : ClassName}
    (h : (c.resolve a).element? = some x) : a.element? = some x := by
  have harray := ClassName.isArray_of_element? h
  rw [hc.isArray_resolve] at harray
  have hne : a ≠ c.thisClass := by
    rintro rfl
    rw [hc.this_internal.isArray_eq_false] at harray
    cases harray
  rwa [resolve, if_neg hne] at h

lemma joined_nearestOfPlain (hc : c.WellDeclared) (ha : a.isArray = false)
    (hb : b.isArray = false) :
    c.Joined a b (c.nearestOfPlain (c.resolve a) (c.resolve b)) := by
  have hra : (c.resolve a).isArray = false := by rw [hc.isArray_resolve, ha]
  have hrb : (c.resolve b).isArray = false := by rw [hc.isArray_resolve, hb]
  unfold nearestOfPlain
  split
  · rename_i hab
    rcases Hierarchy.path_or_object_of_isAssignable hra hrb hab with heq | hpath
    · rw [heq]
      exact .object a b
    · exact .plain ha hb hpath .refl (by simp)
  · split
    · rename_i hba
      rcases Hierarchy.path_or_object_of_isAssignable hrb hra hba with heq | hpath
      · rw [heq]
        exact .object a b
      · exact .plain ha hb .refl hpath (by simp)
    · split
      · exact .object a b
      · cases hfind : (c.hierarchy.superclasses (c.resolve a)).find?
            (c.hierarchy.isAssignable (c.resolve b) ·) with
        | none => exact .object a b
        | some s =>
          have hmem := List.mem_of_find?_eq_some hfind
          have hchain := Hierarchy.superclass_of_mem_superclassesUpTo hmem
          have hs := hc.internal_of_mem_superclasses hmem
          have hbs : c.hierarchy.isAssignable (c.resolve b) s = true := by
            simpa using List.find?_some hfind
          rcases Hierarchy.path_or_object_of_isAssignable hrb hs.isArray_eq_false hbs with
            rfl | hpath
          · exact .object a b
          · have hup := TransGen.mono (fun _ _ => Hierarchy.parent_of_superclass) _ _ hchain
            exact .plain ha hb hup.to_reflTransGen hpath (.inr (.inr hs))

theorem joined_nearestWithin (hc : c.WellDeclared) (n : Nat) (a b : ClassName) :
    c.Joined a b (c.nearestWithin n a b) := by
  induction n generalizing a b with
  | zero => exact .object a b
  | succ n ih =>
    simp only [nearestWithin]
    split
    · rename_i heq
      exact .same heq
    · split
      · split
        · rename_i x y hx hy
          split
          · exact .object a b
          · rename_i hxy
            exact .arrays (hc.resolve_of_element? hx) (hc.resolve_of_element? hy) hxy (ih x y)
        · exact .object a b
      · rename_i hplain
        simp only [hc.isArray_resolve, Bool.or_eq_true, not_or, Bool.not_eq_true] at hplain
        exact hc.joined_nearestOfPlain hplain.1 hplain.2

theorem joined_nearestCommon (hc : c.WellDeclared) (a b : ClassName) :
    c.Joined a b (c.nearestCommon a b) :=
  hc.joined_nearestWithin _ a b

end WellDeclared

namespace Joined

/-- What two different names are joined in can stand in an array name again. -/
lemma nameable (hc : c.WellDeclared) (h : c.Joined a b m) (hne : a ≠ b)
    (ha : a.isArray = false → a ≠ "" ∧ ';' ∉ a.toList)
    (hb : b.isArray = false → b ≠ "" ∧ ';' ∉ b.toList) : ClassName.Nameable m := by
  have hresolved : ∀ {x : ClassName}, (x.isArray = false → x ≠ "" ∧ ';' ∉ x.toList) →
      x.isArray = false → ClassName.Nameable (c.resolve x) := by
    intro x hproper hplain
    unfold resolve
    split
    · exact hc.super_internal.nameable
    · exact .plain hplain (hproper hplain).1 (hproper hplain).2
  induction h with
  | object => exact ClassName.object_internal.nameable
  | @same a b heq =>
    -- Different names become the same only if one of them is the class being assembled.
    have hsuper : c.resolve a = c.superClass := by
      unfold resolve at heq ⊢
      split at heq <;> split at heq <;> simp_all
    rw [hsuper]
    exact hc.super_internal.nameable
  | arrays hx hy hxy _ ih =>
    exact .array (ih hxy (ClassName.proper_of_element? hx) (ClassName.proper_of_element? hy))
  | plain ha' hb' _ _ hm =>
    rcases hm with rfl | rfl | hm
    · exact hresolved ha ha'
    · exact hresolved hb hb'
    · exact hm.nameable

theorem climbs (hc : c.WellDeclared) (h : c.Joined a b m) : c.Climbs a m ∧ c.Climbs b m := by
  induction h with
  | object a b => exact ⟨.object a, .object b⟩
  | @same a b heq =>
    refine ⟨.path (c.path_resolve a), ?_⟩
    rw [heq]
    exact .path (c.path_resolve b)
  | arrays hx hy hxy h ih =>
    have hname := h.nameable hc hxy (ClassName.proper_of_element? hx)
      (ClassName.proper_of_element? hy)
    exact ⟨.arrays hx hname ih.1, .arrays hy hname ih.2⟩
  | @plain a b m _ _ ham hbm _ =>
    exact ⟨.path ((c.path_resolve a).trans (path_of_hierarchy ham)),
      .path ((c.path_resolve b).trans (path_of_hierarchy hbm))⟩

/-- Names in slash form are joined in one in slash form. -/
lemma canonical (hc : c.WellDeclared) (h : c.Joined a b m) (ha : '.' ∉ a.toList)
    (hb : '.' ∉ b.toList) : '.' ∉ m.toList := by
  have hresolve : ∀ {x : ClassName}, '.' ∉ x.toList → '.' ∉ (c.resolve x).toList :=
    undotted_resolve hc.super_internal.undotted
  induction h with
  | object => exact ClassName.object_internal.undotted
  | same => exact hresolve ha
  | arrays hx hy _ _ ih =>
    have hm := ih (fun hmem => ha (ClassName.mem_of_element? hx _ hmem))
      (fun hmem => hb (ClassName.mem_of_element? hy _ hmem))
    rw [ClassName.toList_arrayOf, ClassName.spelled]
    split <;> simp [hm]
  | plain _ _ _ _ hm =>
    rcases hm with rfl | rfl | hm
    · exact hresolve ha
    · exact hresolve hb
    · exact hm.undotted

end Joined

namespace WellDeclared

/-- An index of no class may become that of a class later on, but then what lay above it was
`java/lang/Object`. -/
lemma climbs_of_extends (hc : c.WellDeclared) {pool later : ConstantPool}
    (hpool : pool.Extends later) {i : PoolIndex} (h : c.Climbs (pool.classOrObject i) m) :
    c.Climbs (later.classOrObject i) m := by
  cases hname : pool.className? i with
  | some name =>
    rw [ConstantPool.classOrObject_of_className? hname] at h
    rwa [ConstantPool.classOrObject_of_className? (hpool.className? hname)]
  | none =>
    rw [ConstantPool.classOrObject, hname] at h
    rw [hc.eq_object_of_climbs h]
    exact .object _

/-- The order in which merging climbs. -/
def order (hc : c.WellDeclared) : ClassOrder where
  Named := ConstantPool.WellNamed
  Covers pool i j :=
    ∃ name, pool.className? i = some name ∧ c.Climbs (pool.classOrObject j) name
  named_mono h hpool := h hpool
  mono := by
    rintro pool later i j hpool ⟨name, hi, hj⟩
    exact ⟨name, hpool.className? hi, hc.climbs_of_extends hpool hj⟩
  trans := by
    rintro pool i j k ⟨name, hi, hij⟩ ⟨other, hj, hjk⟩
    rw [ConstantPool.classOrObject_of_className? hj] at hij
    exact ⟨name, hi, hc.climbs_trans hjk hij⟩

theorem merges (hc : c.WellDeclared) : hc.order.Merges c := by
  intro pool later i j k hpool h
  obtain ⟨hext, _⟩ := (VerificationType.repeatable_ofClass _).grows h
  obtain ⟨_, heq, hk⟩ := VerificationType.ofClass_eq_ok h
  cases heq
  have hjoined := hc.joined_nearestCommon (pool.classOrObject i) (pool.classOrObject j)
  rw [ClassName.canonical_eq_iff.mpr
    (hjoined.canonical hc (hpool.classOrObject i) (hpool.classOrObject j))] at hk
  obtain ⟨hi, hj⟩ := hjoined.climbs hc
  exact ⟨⟨_, hk, hc.climbs_of_extends hext hi⟩, ⟨_, hk, hc.climbs_of_extends hext hj⟩⟩

/-- Two class constants that cover each other are one. -/
lemma covers_antisymm (hc : c.WellDeclared) {pool : ConstantPool} {i j : PoolIndex}
    (hij : hc.order.Covers pool i j) (hji : hc.order.Covers pool j i) : i = j := by
  obtain ⟨name, hi, hclimbs⟩ := hij
  obtain ⟨other, hj, hclimbs'⟩ := hji
  rw [ConstantPool.classOrObject_of_className? hj] at hclimbs
  rw [ConstantPool.classOrObject_of_className? hi] at hclimbs'
  rw [hc.climbs_antisymm hclimbs' hclimbs] at hi
  exact ConstantPool.eq_of_className? hi hj

end WellDeclared
end ClassScope
end ClassAssembly
