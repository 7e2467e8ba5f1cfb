import ClassAssembly.Proofs.NearestCommon
import ClassAssembly.Proofs.PoolGrowth
import ClassAssembly.VerificationType

/-! Merging verification types is an upper bound, and a type that covers another one is left alone
when the other is merged into it, now and with any larger constant pool. -/
namespace ClassAssembly

namespace ConstantPool

/-- The class that an index stands for; an index of no class counts as `java/lang/Object`. -/
def classOrObject (pool : ConstantPool) (i : PoolIndex) : ClassName :=
  (pool.className? i).getD .object

lemma classOrObject_of_className? {pool : ConstantPool} {i : PoolIndex} {name : ClassName}
    (h : pool.className? i = some name) : pool.classOrObject i = name := by
  simp [classOrObject, h]

/-- No class name that merging sees has a dot in it. -/
lemma WellNamed.classOrObject {pool : ConstantPool} (h : pool.WellNamed) (i : PoolIndex) :
    '.' ∉ (pool.classOrObject i).toList := by
  cases hi : pool.className? i with
  | none =>
    rw [ConstantPool.classOrObject, hi]
    decide
  | some name =>
    rw [classOrObject_of_className? hi]
    exact ClassName.canonical_eq_iff.mp (h.canonical_eq hi)

/-- An index of no class may become that of a class later on, but then what covered it was
`java/lang/Object`. -/
lemma Extends.covers {earlier later : ConstantPool} (h : earlier.Extends later) {c : ClassScope}
    (hc : c.Lawful) {name : ClassName} {i : PoolIndex}
    (hcovers : c.Covers name (earlier.classOrObject i)) :
    c.Covers name (later.classOrObject i) := by
  cases hi : earlier.className? i with
  | some other =>
    rw [classOrObject_of_className? hi] at hcovers
    rwa [classOrObject_of_className? (h.className? hi)]
  | none =>
    rw [ConstantPool.classOrObject, hi] at hcovers
    rw [hc.eq_object_of_covers hcovers]
    exact hc.covers_object _

end ConstantPool

/-- An order among the class constants of a pool, which stays as it is when constants are added. -/
structure ClassOrder where
  /-- What the order takes for granted about the names in a pool. -/
  Named : ConstantPool → Prop
  Covers : ConstantPool → PoolIndex → PoolIndex → Prop
  named_mono {pool later : ConstantPool} :
    (pool.WellNamed → later.WellNamed) → Named pool → Named later
  mono {pool later : ConstantPool} {i j : PoolIndex} :
    pool.Extends later → Covers pool i j → Covers later i j
  trans {pool : ConstantPool} {i j k : PoolIndex} :
    Covers pool i j → Covers pool j k → Covers pool i k

namespace VerificationType

variable {o : ClassOrder} {c : ClassScope} {pool later : ConstantPool} {a b d m : VerificationType}

/-- Each value of type `b` may stand where one of type `a` is expected. -/
inductive Covers (o : ClassOrder) (pool : ConstantPool) :
    VerificationType → VerificationType → Prop
  | refl (t : VerificationType) : Covers o pool t t
  | top (t : VerificationType) : Covers o pool .top t
  | null (i : PoolIndex) : Covers o pool (.object i) .null
  | classes {i j : PoolIndex} (hij : o.Covers pool i j) : Covers o pool (.object i) (.object j)

namespace Covers

theorem mono (hpool : pool.Extends later) (h : Covers o pool a b) : Covers o later a b := by
  cases h with
  | refl => exact .refl a
  | top => exact .top b
  | null i => exact .null i
  | classes hij => exact .classes (o.mono hpool hij)

theorem trans (hab : Covers o pool a b) (hbd : Covers o pool b d) : Covers o pool a d := by
  cases hab with
  | refl => exact hbd
  | top => exact .top d
  | null i =>
    cases hbd with
    | refl => exact .null i
  | classes hij =>
    cases hbd with
    | refl => exact .classes hij
    | null => exact .null _
    | classes hjk => exact .classes (o.trans hij hjk)

lemma eq_top (h : Covers o pool a .top) : a = .top := by
  cases h <;> rfl

/-- Only equal types are covered by a wide one. -/
lemma eq_of_wide (h : Covers o pool a b) (hwide : width a = 2) : a = b := by
  cases h with
  | refl => rfl
  | top => cases hwide
  | null => cases hwide
  | classes => cases hwide

lemma eq_of_uninitialized {site : UInt16} (h : Covers o pool (.uninitialized site) b) :
    b = .uninitialized site := by
  cases h
  rfl

end Covers

/-- Which types merging gives without asking for a class. -/
lemma merge_eq_pure (c : ClassScope) (a b : VerificationType)
    (h : ¬∃ i j, a = .object i ∧ b = .object j ∧ i ≠ j) :
    ∃ m, merge c a b = pure m ∧ ∀ o pool, Covers o pool m a ∧ Covers o pool m b := by
  have hsame : ∀ t : VerificationType, ∀ o pool, Covers o pool t t ∧ Covers o pool t t :=
    fun t _ _ => ⟨.refl t, .refl t⟩
  have htop : ∀ s t : VerificationType, ∀ o pool, Covers o pool .top s ∧ Covers o pool .top t :=
    fun s t _ _ => ⟨.top s, .top t⟩
  unfold merge
  split
  · exact ⟨_, rfl, fun _ _ => ⟨.null _, .refl _⟩⟩
  · exact ⟨_, rfl, fun _ _ => ⟨.refl _, .null _⟩⟩
  · rename_i i j
    by_cases hij : i = j
    · subst hij
      exact ⟨.object i, if_pos rfl, hsame _⟩
    · exact absurd ⟨i, j, rfl, rfl, hij⟩ h
  · refine ⟨_, rfl, ?_⟩
    by_cases hab : a = b
    · subst hab
      rw [if_pos rfl]
      exact hsame a
    · rw [if_neg hab]
      exact htop a b

lemma merge_objects (c : ClassScope) {i j : PoolIndex} (h : i ≠ j) (pool : ConstantPool) :
    (merge c (.object i) (.object j)).outcome pool =
      (ofClass (c.nearestCommon (pool.classOrObject i) (pool.classOrObject j))).outcome pool := by
  simp only [merge, if_neg h, Step.outcome_bind, Step.outcome_get, ConstantPool.classOrObject]

lemma repeatable_ofClass (name : ClassName) : ConstantPool.Repeatable (ofClass name) :=
  (ConstantPool.Repeatable.classRef name).bind fun i => .pure (object i)

lemma ofClass_eq_ok {name : ClassName} {t : VerificationType}
    (h : (ofClass name).outcome pool = (.ok t, later)) :
    ∃ i, t = .object i ∧ later.className? i = some (ClassName.canonical name) := by
  obtain ⟨i, _, hi, ht⟩ := Step.bind_eq_ok.mp h
  cases ht
  exact ⟨i, rfl, (ConstantPool.classRef_eq_ok hi).2.2⟩

end VerificationType

/-- The class that two others of the scope are merged into covers both. -/
def ClassOrder.Merges (o : ClassOrder) (c : ClassScope) : Prop :=
  ∀ {pool later : ConstantPool} {i j k : PoolIndex}, o.Named pool →
    (VerificationType.ofClass (c.nearestCommon (pool.classOrObject i)
      (pool.classOrObject j))).outcome pool = (.ok (.object k), later) →
    o.Covers later k i ∧ o.Covers later k j

/-- The order that takes all classes for equal. -/
def ClassOrder.coarse : ClassOrder where
  Named _ := True
  Covers _ _ _ := True
  named_mono _ _ := trivial
  mono _ _ := trivial
  trans _ _ := trivial

lemma ClassOrder.merges_coarse (c : ClassScope) : coarse.Merges c :=
  fun _ _ => ⟨trivial, trivial⟩

namespace ClassScope.Lawful

variable {c : ClassScope}

/-- The order of the classes in a lawful scope. -/
def order (hc : c.Lawful) : ClassOrder where
  Named := ConstantPool.WellNamed
  Covers pool i j :=
    ∃ name, pool.className? i = some name ∧ c.Covers name (pool.classOrObject j)
  named_mono h hpool := h hpool
  mono := by
    rintro pool later i j hpool ⟨name, hi, hj⟩
    exact ⟨name, hpool.className? hi, hpool.covers hc hj⟩
  trans := by
    rintro pool i j k ⟨name, hi, hij⟩ ⟨other, hj, hjk⟩
    rw [ConstantPool.classOrObject_of_className? hj] at hij
    exact ⟨name, hi, hc.covers_trans hij hjk⟩

theorem merges (hc : c.Lawful) : hc.order.Merges c := by
  intro pool later i j k hpool h
  obtain ⟨hext, _⟩ := (VerificationType.repeatable_ofClass _).grows h
  obtain ⟨_, heq, hk⟩ := VerificationType.ofClass_eq_ok h
  cases heq
  rw [ClassName.canonical_eq_iff.mpr (hc.canonical_nearestCommon (hpool.classOrObject i)
    (hpool.classOrObject j))] at hk
  obtain ⟨hi, hj⟩ := hc.covers_nearestCommon (pool.classOrObject i) (pool.classOrObject j)
  exact ⟨⟨_, hk, hext.covers hc hi⟩, ⟨_, hk, hext.covers hc hj⟩⟩

end ClassScope.Lawful

namespace VerificationType

variable {o : ClassOrder} {c : ClassScope} {pool later : ConstantPool} {a b m : VerificationType}

/-- A merged type covers both. -/
theorem merge_covers (hc : o.Merges c) (hpool : o.Named pool)
    (h : (merge c a b).outcome pool = (.ok m, later)) :
    pool.Extends later ∧ o.Named later ∧ Covers o later m a ∧ Covers o later m b := by
  by_cases hobjects : ∃ i j, a = .object i ∧ b = .object j ∧ i ≠ j
  · obtain ⟨i, j, rfl, rfl, hij⟩ := hobjects
    rw [merge_objects c hij] at h
    obtain ⟨hext, hwell⟩ := (repeatable_ofClass _).grows h
    obtain ⟨k, rfl, _⟩ := ofClass_eq_ok h
    obtain ⟨hi, hj⟩ := hc hpool h
    exact ⟨hext, o.named_mono hwell hpool, .classes hi, .classes hj⟩
  · obtain ⟨t, ht, hcovers⟩ := merge_eq_pure c a b hobjects
    rw [ht] at h
    cases h
    exact ⟨.refl pool, hpool, hcovers o pool⟩

/-- What is covered already changes nothing. -/
theorem merge_of_covers (hc : c.Lawful) (hpool : pool.WellNamed) (h : Covers hc.order pool a b) :
    (merge c a b).outcome pool = (.ok a, pool) := by
  cases h with
  | refl => cases a <;> simp [merge]
  | top => cases b <;> simp [merge]
  | null => rfl
  | @classes i j hcovers =>
    obtain ⟨name, hi, hj⟩ := hcovers
    by_cases hij : i = j
    · subst hij
      simp [merge]
    · rw [merge_objects c hij, ConstantPool.classOrObject_of_className? hi,
        show c.nearestCommon name _ = name from hj]
      rw [← hpool.canonical_eq hi] at hi
      exact Step.bind_eq_ok.mpr ⟨i, pool, ConstantPool.classRef_of_className? hi, rfl⟩

end VerificationType
end ClassAssembly
