import ClassAssembly.Hierarchy.NearestCommon
import ClassAssembly.Proofs.AssignableOrder

/-! The nearest common class as a join. It covers both classes, a class that covers another covers
all that the other covers, and so a type that was absorbed once stays absorbed. -/
namespace ClassAssembly
namespace ClassScope

variable {c : ClassScope} {a b d : ClassName}

/-- What is promised about the class being assembled and the classes around it. -/
structure Lawful (c : ClassScope) : Prop where
  hierarchy : c.hierarchy.Lawful
  this_internal : c.thisClass.IsInternal
  super_internal : c.superClass.IsInternal
  this_unregistered : c.hierarchy.get? c.thisClass = none
  this_undeclared : ∀ name, c.thisClass ∉ c.hierarchy.parents name

lemma undotted_resolve (hsuper : '.' ∉ c.superClass.toList) {name : ClassName}
    (hname : '.' ∉ name.toList) : '.' ∉ (c.resolve name).toList := by
  unfold resolve
  split
  · exact hsuper
  · exact hname

lemma resolve_resolve (name : ClassName) : c.resolve (c.resolve name) = c.resolve name := by
  unfold resolve
  split <;> simp_all

/-- The nearest common class of two classes that are no arrays is no array, lies above both, and is
one of them or a class of the hierarchy. -/
lemma nearestOfPlain_spec (hsupers : ∀ s ∈ c.hierarchy.superclasses a, s.isArray = false)
    (ha : a.isArray = false) (hb : b.isArray = false) :
    (c.nearestOfPlain a b).isArray = false ∧
      c.hierarchy.isAssignable a (c.nearestOfPlain a b) ∧
      c.hierarchy.isAssignable b (c.nearestOfPlain a b) ∧
      (c.nearestOfPlain a b = a ∨ c.nearestOfPlain a b = b ∨ c.nearestOfPlain a b = .object ∨
        c.nearestOfPlain a b ∈ c.hierarchy.superclasses a) := by
  have hobject : ClassName.object.isArray = false := ClassName.object_internal.isArray_eq_false
  have hrefl := c.hierarchy.isAssignable_self
  have htop := c.hierarchy.isAssignable_object
  unfold nearestOfPlain
  split
  · rename_i hab
    exact ⟨hb, hab, hrefl b, by simp⟩
  · split
    · rename_i hba
      exact ⟨ha, hrefl a, hba, by simp⟩
    · split
      · exact ⟨hobject, htop a, htop b, by simp⟩
      · cases hfind : (c.hierarchy.superclasses a).find? (c.hierarchy.isAssignable b ·) with
        | none => exact ⟨hobject, htop a, htop b, by simp⟩
        | some s =>
          have hmem := List.mem_of_find?_eq_some hfind
          have hbs : c.hierarchy.isAssignable b s = true := by simpa using List.find?_some hfind
          have hs := hsupers s hmem
          exact ⟨hs, Hierarchy.isAssignable_superclass ha hs hmem, hbs, by simp [hmem]⟩

namespace Lawful

lemma this_ne_object (hc : c.Lawful) : c.thisClass ≠ .object := by
  intro h
  have hobject := hc.hierarchy.ordered.get?_object
  rw [← h, hc.this_unregistered] at hobject
  cases hobject

lemma resolve_object (hc : c.Lawful) : c.resolve .object = .object :=
  if_neg (Ne.symm hc.this_ne_object)

lemma isArray_resolve (hc : c.Lawful) (name : ClassName) :
    (c.resolve name).isArray = name.isArray := by
  unfold resolve
  split
  · rename_i h
    rw [h, hc.this_internal.isArray_eq_false, hc.super_internal.isArray_eq_false]
  · rfl

lemma resolve_of_isArray (hc : c.Lawful) (h : a.isArray = true) : c.resolve a = a := by
  apply if_neg
  rintro rfl
  simp [hc.this_internal.isArray_eq_false] at h

lemma resolve_superclass (hc : c.Lawful) (h : b ∈ c.hierarchy.superclasses a) :
    c.resolve b = b := by
  obtain ⟨below, _, hlast⟩ := Relation.TransGen.tail'_iff.mp
    (Hierarchy.superclass_of_mem_superclassesUpTo h)
  apply if_neg
  rintro rfl
  exact hc.this_undeclared below (Hierarchy.parent_of_superclass hlast)

/-- The number of dimensions is bounded by the length of the first name. -/
lemma nearestWithin_eq (hc : c.Lawful) (n m : Nat) (hn : a.length < n) (hm : a.length < m) :
    c.nearestWithin n a b = c.nearestWithin m a b := by
  induction n generalizing m a b with
  | zero => omega
  | succ n ih =>
    obtain ⟨m, rfl⟩ : ∃ k, m = k + 1 := ⟨m - 1, by omega⟩
    simp only [nearestWithin]
    split
    · rfl
    · split
      · split
        · rename_i x y hx hy
          have harray : a.isArray = true := by
            rw [← hc.isArray_resolve a]
            exact ClassName.isArray_of_element? hx
          rw [hc.resolve_of_isArray harray] at hx
          have hlt := ClassName.length_lt_of_element? hx
          rw [ih m (by omega) (by omega)]
        · rfl
      · rfl

/-- The nearest common class by its cases, without a bound on the dimensions. -/
theorem nearestCommon_eq (hc : c.Lawful) (a b : ClassName) :
    c.nearestCommon a b =
      if c.resolve a = c.resolve b then c.resolve a
      else if (c.resolve a).isArray || (c.resolve b).isArray then
        match (c.resolve a).element?, (c.resolve b).element? with
        | some x, some y => if x = y then .object else .arrayOf (c.nearestCommon x y)
        | _, _ => .object
      else c.nearestOfPlain (c.resolve a) (c.resolve b) := by
  have hshort : ∀ x y, (c.resolve a).element? = some x →
      c.nearestWithin (a.length + b.length + c.superClass.length) x y = c.nearestCommon x y := by
    intro x y hx
    have harray : a.isArray = true := by
      rw [← hc.isArray_resolve a]
      exact ClassName.isArray_of_element? hx
    rw [hc.resolve_of_isArray harray] at hx
    have hlt := ClassName.length_lt_of_element? hx
    exact hc.nearestWithin_eq _ _ (by omega) (by omega)
  rw [nearestCommon, nearestWithin]
  cases hx : (c.resolve a).element? with
  | none => rfl
  | some x =>
    cases hy : (c.resolve b).element? with
    | none => rfl
    | some y => simp only [hshort x y hx]

lemma nearestCommon_of_resolve_eq (hc : c.Lawful) (h : c.resolve a = c.resolve b) :
    c.nearestCommon a b = c.resolve a := by
  rw [hc.nearestCommon_eq, if_pos h]

/-- Two array classes with different classes of elements. -/
lemma nearestCommon_arrays (hc : c.Lawful) {x y : ClassName} (hne : a ≠ b)
    (ha : a.element? = some x) (hb : b.element? = some y) (hxy : x ≠ y) :
    c.nearestCommon a b = .arrayOf (c.nearestCommon x y) := by
  have harray := ClassName.isArray_of_element? ha
  rw [hc.nearestCommon_eq, hc.resolve_of_isArray harray,
    hc.resolve_of_isArray (ClassName.isArray_of_element? hb), if_neg hne]
  simp [harray, ha, hb, hxy]

lemma nearestCommon_plain (hc : c.Lawful) (ha : a.isArray = false) (hb : b.isArray = false)
    (hne : c.resolve a ≠ c.resolve b) :
    c.nearestCommon a b = c.nearestOfPlain (c.resolve a) (c.resolve b) := by
  rw [hc.nearestCommon_eq, if_neg hne, hc.isArray_resolve, hc.isArray_resolve, ha, hb]
  simp

/-- Where an array is involved, the nearest common class is an array class of the nearest common
class of the elements, or `java/lang/Object`. -/
lemma nearestCommon_array_cases (hc : c.Lawful) (hne : c.resolve a ≠ c.resolve b)
    (harray : a.isArray = true ∨ b.isArray = true) :
    c.nearestCommon a b = .object ∨
      ∃ x y, a.element? = some x ∧ b.element? = some y ∧ x ≠ y ∧
        c.nearestCommon a b = .arrayOf (c.nearestCommon x y) := by
  rw [hc.nearestCommon_eq, if_neg hne, hc.isArray_resolve, hc.isArray_resolve,
    if_pos (by simpa using harray)]
  split
  · rename_i x y hx hy
    have ha := ClassName.isArray_of_element? hx
    have hb := ClassName.isArray_of_element? hy
    rw [hc.isArray_resolve] at ha hb
    rw [hc.resolve_of_isArray ha] at hx
    rw [hc.resolve_of_isArray hb] at hy
    split
    · exact Or.inl rfl
    · exact Or.inr ⟨x, y, hx, hy, by assumption, rfl⟩
  · exact Or.inl rfl

/-- The superclasses of a class are no arrays. -/
lemma isArray_superclass (hc : c.Lawful) : ∀ s ∈ c.hierarchy.superclasses a, s.isArray = false :=
  fun _ hs => (hc.hierarchy.internal_of_mem_superclasses hs).isArray_eq_false

/-- `a` is the nearest common class of itself and `b` exactly if `b` is assignable to it. -/
lemma nearestOfPlain_eq_left_iff (hc : c.Lawful) (ha : a.isArray = false) (hb : b.isArray = false) :
    c.nearestOfPlain a b = a ↔ c.hierarchy.isAssignable b a := by
  constructor
  · intro h
    have hspec := (nearestOfPlain_spec hc.isArray_superclass ha hb).2.2.1
    rwa [h] at hspec
  · intro hba
    unfold nearestOfPlain
    split
    · rename_i hab
      exact hc.hierarchy.isAssignable_antisymm hb ha hba hab
    · rfl

lemma resolve_nearestOfPlain (hc : c.Lawful) (ha : a.isArray = false) (hb : b.isArray = false)
    (ha' : c.resolve a = a) (hb' : c.resolve b = b) :
    c.resolve (c.nearestOfPlain a b) = c.nearestOfPlain a b := by
  obtain ⟨_, _, _, h | h | h | h⟩ := nearestOfPlain_spec hc.isArray_superclass ha hb
  · rw [h, ha']
  · rw [h, hb']
  · rw [h, hc.resolve_object]
  · exact hc.resolve_superclass h

/-- The nearest common class is never the class being assembled, which has given way to its
superclass. -/
lemma resolve_nearestCommon (hc : c.Lawful) (a b : ClassName) :
    c.resolve (c.nearestCommon a b) = c.nearestCommon a b := by
  by_cases heq : c.resolve a = c.resolve b
  · rw [hc.nearestCommon_of_resolve_eq heq, resolve_resolve]
  · by_cases harray : a.isArray = true ∨ b.isArray = true
    · rcases hc.nearestCommon_array_cases heq harray with h | ⟨x, y, _, _, _, h⟩
      · rw [h, hc.resolve_object]
      · rw [h, hc.resolve_of_isArray (ClassName.isArray_arrayOf _)]
    · have hplain := not_or.mp harray
      have ha : a.isArray = false := by simpa using hplain.1
      have hb : b.isArray = false := by simpa using hplain.2
      rw [hc.nearestCommon_plain ha hb heq]
      exact hc.resolve_nearestOfPlain (by rw [hc.isArray_resolve, ha])
        (by rw [hc.isArray_resolve, hb]) (resolve_resolve a) (resolve_resolve b)

/-- Whatever two different names give can stand in an array name again. -/
lemma nameable_nearestCommon (hc : c.Lawful) (hne : a ≠ b)
    (ha : a.isArray = false → a ≠ "" ∧ ';' ∉ a.toList)
    (hb : b.isArray = false → b ≠ "" ∧ ';' ∉ b.toList) :
    ClassName.Nameable (c.nearestCommon a b) := by
  have hresolved : ∀ {x : ClassName}, (x.isArray = false → x ≠ "" ∧ ';' ∉ x.toList) →
      x.isArray = false → ClassName.Nameable (c.resolve x) := by
    intro x hproper hplain
    unfold resolve
    split
    · exact hc.super_internal.nameable
    · exact .plain hplain (hproper hplain).1 (hproper hplain).2
  obtain ⟨n, hn⟩ : ∃ n, a.length < n := ⟨_, Nat.lt_succ_self _⟩
  induction n generalizing a b with
  | zero => omega
  | succ n ih =>
    by_cases heq : c.resolve a = c.resolve b
    · rw [hc.nearestCommon_of_resolve_eq heq]
      -- Different names become the same only if one of them is the class being assembled.
      have hthis : c.resolve a = c.superClass := by
        unfold resolve at heq ⊢
        split at heq <;> split at heq <;> simp_all
      rw [hthis]
      exact hc.super_internal.nameable
    · by_cases harray : a.isArray = true ∨ b.isArray = true
      · rcases hc.nearestCommon_array_cases heq harray with h | ⟨x, y, hx, hy, hxy, h⟩
        · rw [h]
          exact ClassName.object_internal.nameable
        · rw [h]
          have hlt := ClassName.length_lt_of_element? hx
          exact .array (ih hxy (ClassName.proper_of_element? hx) (ClassName.proper_of_element? hy)
            (by omega))
      · have hplain := not_or.mp harray
        have ha' : a.isArray = false := by simpa using hplain.1
        have hb' : b.isArray = false := by simpa using hplain.2
        rw [hc.nearestCommon_plain ha' hb' heq]
        have hra : (c.resolve a).isArray = false := by rw [hc.isArray_resolve, ha']
        have hrb : (c.resolve b).isArray = false := by rw [hc.isArray_resolve, hb']
        obtain ⟨_, _, _, h | h | h | h⟩ := nearestOfPlain_spec hc.isArray_superclass hra hrb
        · rw [h]
          exact hresolved ha ha'
        · rw [h]
          exact hresolved hb hb'
        · rw [h]
          exact ClassName.object_internal.nameable
        · exact (hc.hierarchy.internal_of_mem_superclasses h).nameable

lemma nameable_of_elements (hc : c.Lawful) {x y : ClassName} (hx : a.element? = some x)
    (hy : b.element? = some y) (hxy : x ≠ y) : ClassName.Nameable (c.nearestCommon x y) :=
  hc.nameable_nearestCommon hxy (ClassName.proper_of_element? hx) (ClassName.proper_of_element? hy)

end Lawful

/-- Joining `b` to `a` gives `a` again. -/
def Covers (c : ClassScope) (a b : ClassName) : Prop := c.nearestCommon a b = a

namespace Lawful

lemma covers_object (hc : c.Lawful) (b : ClassName) : c.Covers .object b := by
  unfold Covers
  by_cases heq : c.resolve .object = c.resolve b
  · rw [hc.nearestCommon_of_resolve_eq heq, hc.resolve_object]
  · by_cases hb : b.isArray = true
    · rcases hc.nearestCommon_array_cases heq (Or.inr hb) with h | ⟨x, y, hx, _⟩
      · exact h
      · exact absurd (ClassName.isArray_of_element? hx) (by decide)
    · have hb' : b.isArray = false := by simpa using hb
      have hobject : ClassName.object.isArray = false := ClassName.object_internal.isArray_eq_false
      have hrb : (c.resolve b).isArray = false := by rw [hc.isArray_resolve, hb']
      rw [hc.nearestCommon_plain hobject hb' heq, hc.resolve_object,
        hc.nearestOfPlain_eq_left_iff hobject hrb]
      exact (hc.hierarchy.ordered.isAssignable_iff hrb hobject).mpr (Or.inr (Or.inl rfl))

lemma eq_object_of_covers (hc : c.Lawful) (h : c.Covers a .object) : a = .object := by
  unfold Covers at h
  by_cases heq : c.resolve a = c.resolve .object
  · rw [hc.nearestCommon_of_resolve_eq heq] at h
    rw [← h, heq, hc.resolve_object]
  · by_cases ha : a.isArray = true
    · rcases hc.nearestCommon_array_cases heq (Or.inl ha) with h' | ⟨x, y, _, hy, _⟩
      · rw [← h, h']
      · exact absurd (ClassName.isArray_of_element? hy) (by decide)
    · have ha' : a.isArray = false := by simpa using ha
      have hobject : ClassName.object.isArray = false := ClassName.object_internal.isArray_eq_false
      have hra : (c.resolve a).isArray = false := by rw [hc.isArray_resolve, ha']
      rw [hc.nearestCommon_plain ha' hobject heq, hc.resolve_object] at h
      have hspec := (nearestOfPlain_spec hc.isArray_superclass hra hobject).2.2.1
      rw [h] at hspec
      exact hc.hierarchy.ordered.eq_object_of_isAssignable ha' hspec

/-- For names of classes that are no arrays, covering is assignability. -/
lemma covers_plain_iff (hc : c.Lawful) (ha : a.isArray = false) (hb : b.isArray = false)
    (ha' : c.resolve a = a) :
    c.Covers a b ↔ c.hierarchy.isAssignable (c.resolve b) a := by
  have hrb : (c.resolve b).isArray = false := by rw [hc.isArray_resolve, hb]
  by_cases heq : c.resolve a = c.resolve b
  · simp only [Covers, hc.nearestCommon_of_resolve_eq heq, ha', true_iff]
    rw [← heq, ha']
    exact (hc.hierarchy.ordered.isAssignable_iff ha ha).mpr (Or.inl rfl)
  · rw [Covers, hc.nearestCommon_plain ha hb heq, ha', hc.nearestOfPlain_eq_left_iff ha hrb]

/-- The nearest common class covers the first of the two, and by the same argument the second. The
induction follows the dimensions of an array class. -/
lemma covers_nearestCommon (hc : c.Lawful) (a b : ClassName) :
    c.Covers (c.nearestCommon a b) a ∧ c.Covers (c.nearestCommon a b) b := by
  obtain ⟨n, hn⟩ : ∃ n, a.length < n := ⟨_, Nat.lt_succ_self _⟩
  induction n generalizing a b with
  | zero => omega
  | succ n ih =>
    have hres := hc.resolve_nearestCommon a b
    by_cases heq : c.resolve a = c.resolve b
    · rw [hc.nearestCommon_of_resolve_eq heq]
      constructor
      · exact (hc.nearestCommon_of_resolve_eq (resolve_resolve a)).trans (resolve_resolve a)
      · exact (hc.nearestCommon_of_resolve_eq ((resolve_resolve a).trans heq)).trans
          (resolve_resolve a)
    · by_cases harray : a.isArray = true ∨ b.isArray = true
      · rcases hc.nearestCommon_array_cases heq harray with h | ⟨x, y, hx, hy, hxy, h⟩
        · rw [h]
          exact ⟨hc.covers_object a, hc.covers_object b⟩
        · have hlt := ClassName.length_lt_of_element? hx
          obtain ⟨hcx, hcy⟩ := ih (a := x) (b := y) (by omega)
          have hname := hc.nameable_of_elements hx hy hxy
          have harrays : ∀ {e z : ClassName}, e.element? = some z →
              c.Covers (c.nearestCommon x y) z → c.Covers (c.nearestCommon a b) e := by
            intro e z hz hcz
            rw [h]
            by_cases hsame : ClassName.arrayOf (c.nearestCommon x y) = e
            · rw [hsame, Covers, hc.nearestCommon_of_resolve_eq rfl,
                hc.resolve_of_isArray (ClassName.isArray_of_element? hz)]
            · have hdiff : c.nearestCommon x y ≠ z := by
                rintro rfl
                exact hsame (hname.eq_arrayOf hz).symm
              rw [Covers, hc.nearestCommon_arrays hsame hname.element?_arrayOf hz hdiff]
              exact congrArg ClassName.arrayOf hcz
          exact ⟨harrays hx hcx, harrays hy hcy⟩
      · have hplain := not_or.mp harray
        have ha : a.isArray = false := by simpa using hplain.1
        have hb : b.isArray = false := by simpa using hplain.2
        rw [hc.nearestCommon_plain ha hb heq] at hres ⊢
        have hra : (c.resolve a).isArray = false := by rw [hc.isArray_resolve, ha]
        have hrb : (c.resolve b).isArray = false := by rw [hc.isArray_resolve, hb]
        obtain ⟨hm, hleft, hright, _⟩ := nearestOfPlain_spec hc.isArray_superclass hra hrb
        exact ⟨(hc.covers_plain_iff hm ha hres).mpr hleft, (hc.covers_plain_iff hm hb hres).mpr hright⟩

/-- A class that covers another one is not the class being assembled. -/
lemma resolve_of_covers (hc : c.Lawful) (h : c.Covers a b) : c.resolve a = a := by
  have hres := hc.resolve_nearestCommon a b
  rwa [show c.nearestCommon a b = a from h] at hres

/-- An array class covers, besides itself, only array classes with elements that its own elements
cover. -/
lemma covers_array_cases (hc : c.Lawful) (ha : a.isArray = true) (h : c.Covers a b) :
    a = b ∨ ∃ x y, a = .arrayOf x ∧ ClassName.Nameable x ∧ b.element? = some y ∧ x ≠ y ∧
      c.Covers x y := by
  by_cases heq : c.resolve a = c.resolve b
  · left
    rw [hc.resolve_of_isArray ha] at heq
    have hb : b.isArray = true := by rw [← hc.isArray_resolve b, ← heq, ha]
    rw [heq, hc.resolve_of_isArray hb]
  · right
    rcases hc.nearestCommon_array_cases heq (Or.inl ha) with h' | ⟨x, y, hx, hy, hxy, h'⟩
    · rw [show c.nearestCommon a b = a from h] at h'
      subst h'
      exact absurd ha (by decide)
    · have hname := hc.nameable_of_elements hx hy hxy
      have heq' : a = .arrayOf (c.nearestCommon x y) := (show c.nearestCommon a b = a from h) ▸ h'
      have hx' : c.nearestCommon x y = x := by
        have hread := hname.element?_arrayOf
        rw [← heq', hx] at hread
        exact (Option.some.inj hread).symm
      rw [hx'] at heq' hname
      exact ⟨x, y, heq', hname, hy, hxy, hx'⟩

theorem covers_trans (hc : c.Lawful) (hab : c.Covers a b) (hbd : c.Covers b d) : c.Covers a d := by
  obtain ⟨n, hn⟩ : ∃ n, a.length < n := ⟨_, Nat.lt_succ_self _⟩
  induction n generalizing a b d with
  | zero => omega
  | succ n ih =>
    by_cases ha : a.isArray = true
    · rcases hc.covers_array_cases ha hab with rfl | ⟨x, y, rfl, hx, hy, hxy, hcxy⟩
      · exact hbd
      · rcases hc.covers_array_cases (ClassName.isArray_of_element? hy) hbd with
          rfl | ⟨y', z, rfl, hy', hz, hyz, hcyz⟩
        · exact hab
        · rw [hy'.element?_arrayOf] at hy
          cases hy
          have hlt := ClassName.length_lt_of_element? hx.element?_arrayOf
          have hcxz := ih hcxy hcyz (by omega)
          by_cases hsame : ClassName.arrayOf x = d
          · rw [hsame, Covers, hc.nearestCommon_of_resolve_eq rfl,
              hc.resolve_of_isArray (ClassName.isArray_of_element? hz)]
          · have hdiff : x ≠ z := by
              rintro rfl
              exact hsame (hx.eq_arrayOf hz).symm
            rw [Covers, hc.nearestCommon_arrays hsame hx.element?_arrayOf hz hdiff]
            exact congrArg ClassName.arrayOf hcxz
    · have ha' : a.isArray = false := by simpa using ha
      have hra := hc.resolve_of_covers hab
      have hrb := hc.resolve_of_covers hbd
      by_cases hb : b.isArray = true
      · -- Of the classes that are no arrays only `java/lang/Object` covers an array class.
        have hne : c.resolve a ≠ c.resolve b := by
          intro heq
          rw [← hc.isArray_resolve b, ← heq, hc.isArray_resolve] at hb
          exact ha hb
        rcases hc.nearestCommon_array_cases hne (Or.inr hb) with h | ⟨x, _, hx, _⟩
        · rw [show c.nearestCommon a b = a from hab] at h
          rw [h]
          exact hc.covers_object d
        · exact absurd (ClassName.isArray_of_element? hx) ha
      · have hb' : b.isArray = false := by simpa using hb
        by_cases hd : d.isArray = true
        · have hne : c.resolve b ≠ c.resolve d := by
            intro heq
            rw [← hc.isArray_resolve d, ← heq, hc.isArray_resolve] at hd
            exact hb hd
          rcases hc.nearestCommon_array_cases hne (Or.inr hd) with h | ⟨x, _, hx, _⟩
          · rw [show c.nearestCommon b d = b from hbd] at h
            rw [h] at hab
            rw [hc.eq_object_of_covers hab]
            exact hc.covers_object d
          · exact absurd (ClassName.isArray_of_element? hx) hb
        · have hd' : d.isArray = false := by simpa using hd
          have hrd : (c.resolve d).isArray = false := by rw [hc.isArray_resolve, hd']
          rw [hc.covers_plain_iff ha' hb' hra, hrb] at hab
          rw [hc.covers_plain_iff hb' hd' hrb] at hbd
          rw [hc.covers_plain_iff ha' hd' hra]
          exact hc.hierarchy.ordered.isAssignable_trans hbd hab

/-- The nearest common class of names in slash form is in slash form. -/
lemma canonical_nearestCommon (hc : c.Lawful) (ha : '.' ∉ a.toList) (hb : '.' ∉ b.toList) :
    '.' ∉ (c.nearestCommon a b).toList := by
  have hresolve : ∀ {x : ClassName}, '.' ∉ x.toList → '.' ∉ (c.resolve x).toList :=
    undotted_resolve hc.super_internal.undotted
  obtain ⟨n, hn⟩ : ∃ n, a.length < n := ⟨_, Nat.lt_succ_self _⟩
  induction n generalizing a b with
  | zero => omega
  | succ n ih =>
    by_cases heq : c.resolve a = c.resolve b
    · rw [hc.nearestCommon_of_resolve_eq heq]
      exact hresolve ha
    · by_cases harray : a.isArray = true ∨ b.isArray = true
      · rcases hc.nearestCommon_array_cases heq harray with h | ⟨x, y, hx, hy, _, h⟩
        · rw [h]
          exact ClassName.object_internal.undotted
        · have hlt := ClassName.length_lt_of_element? hx
          have hxy := ih (fun hmem => ha (ClassName.mem_of_element? hx _ hmem))
            (fun hmem => hb (ClassName.mem_of_element? hy _ hmem)) (by omega)
          rw [h, ClassName.toList_arrayOf, ClassName.spelled]
          split <;> simp [hxy]
      · have hplain := not_or.mp harray
        have ha' : a.isArray = false := by simpa using hplain.1
        have hb' : b.isArray = false := by simpa using hplain.2
        rw [hc.nearestCommon_plain ha' hb' heq]
        have hra : (c.resolve a).isArray = false := by rw [hc.isArray_resolve, ha']
        have hrb : (c.resolve b).isArray = false := by rw [hc.isArray_resolve, hb']
        obtain ⟨_, _, _, h | h | h | h⟩ := nearestOfPlain_spec hc.isArray_superclass hra hrb
        · rw [h]
          exact hresolve ha
        · rw [h]
          exact hresolve hb
        · rw [h]
          exact ClassName.object_internal.undotted
        · exact (hc.hierarchy.internal_of_mem_superclasses h).undotted

end Lawful
end ClassScope
end ClassAssembly
