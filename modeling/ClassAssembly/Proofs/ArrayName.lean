import ClassAssembly.Hierarchy.Assignable
import ClassAssembly.Proofs.HierarchyOrder
import ClassAssembly.Proofs.StepLaws

/-! Array class names. Taking the element of an array of a class gives the class back, and a class of
elements has only one array class. -/
namespace ClassAssembly

namespace ElementType

/-- A class name is read up to the first semicolon. -/
lemma readName_eq_ok_iff {chars rest : List Char} {name : ClassName} :
    readName chars = .ok (name, rest) ↔
      name ≠ "" ∧ ';' ∉ name.toList ∧ chars = name.toList ++ ';' :: rest := by
  constructor
  · intro h
    have happend := append_of_readName h
    unfold readName at h
    split at h
    · cases h
    · cases h
    · rename_i htake
      cases h
      refine ⟨fun hnil => htake (by simpa using congrArg String.toList hnil), ?_, happend.symm⟩
      rw [String.toList_ofList]
      intro hmem
      simpa using List.all_eq_true.mp List.all_takeWhile _ hmem
  · rintro ⟨hne, hsemicolon, rfl⟩
    have hname : ∀ c ∈ name.toList, decide (c ≠ ';') = true := by
      intro c hc
      exact decide_eq_true fun heq => hsemicolon (heq ▸ hc)
    have htake : (name.toList ++ ';' :: rest).takeWhile (· ≠ ';') = name.toList := by
      rw [List.takeWhile_append_of_pos hname]
      simp
    have hdrop : (name.toList ++ ';' :: rest).dropWhile (· ≠ ';') = ';' :: rest := by
      rw [List.dropWhile_append_of_pos hname]
      simp
    unfold readName
    rw [htake, hdrop]
    cases hchars : name.toList with
    | nil => exact absurd (String.toList_eq_nil_iff.mp hchars) hne
    | cons c tail => simp [← hchars]

end ElementType

namespace FieldType

lemma read_eq_ok_iff {chars rest : List Char} {t : FieldType} :
    read chars = .ok (t, rest) ↔ ∃ element,
      ElementType.read (chars.dropWhile (· = '[')) = .ok (element, rest) ∧
        t = ⟨(chars.takeWhile (· = '[')).length, element⟩ := by
  constructor
  · intro h
    obtain ⟨element, he, ht⟩ := Reading.map_eq_ok h
    exact ⟨element, he, ht.symm⟩
  · rintro ⟨element, he, rfl⟩
    simp [read, he, Reading.map]

/-- A bracket in front adds a dimension. -/
lemma read_bracket {chars rest : List Char} {t : FieldType} (h : read chars = .ok (t, rest)) :
    read ('[' :: chars) = .ok (⟨t.dims + 1, t.element⟩, rest) := by
  obtain ⟨element, he, rfl⟩ := read_eq_ok_iff.mp h
  exact read_eq_ok_iff.mpr ⟨element, by simpa using he, by simp⟩

lemma ofArrayName?_eq_some_iff {name : ClassName} {t : FieldType} :
    ofArrayName? name = some t ↔ ∃ chars, name.toList = '[' :: chars ∧ read chars = .ok (t, []) := by
  constructor
  · intro h
    unfold ofArrayName? at h
    split at h
    · rename_i chars hname
      refine ⟨chars, hname, ?_⟩
      unfold Reading.whole at h
      split at h <;> simp_all [Except.toOption]
    · cases h
  · rintro ⟨chars, hname, hread⟩
    simp [ofArrayName?, hname, hread, Reading.whole, Except.toOption]

/-- The name of a class in a descriptor is not empty and has no semicolon. -/
lemma name_of_read {chars rest : List Char} {name : ClassName}
    (h : read chars = .ok (⟨0, .object name⟩, rest)) : name ≠ "" ∧ ';' ∉ name.toList := by
  obtain ⟨element, he, ht⟩ := read_eq_ok_iff.mp h
  obtain ⟨_, rfl⟩ := FieldType.mk.inj ht
  unfold ElementType.read at he
  split at he
  · rename_i tail _
    obtain ⟨name', hname, heq⟩ := Reading.map_eq_ok he
    cases heq
    obtain ⟨hne, hsemicolon, _⟩ := ElementType.readName_eq_ok_iff.mp hname
    exact ⟨hne, hsemicolon⟩
  · obtain ⟨_, _, heq⟩ := Reading.map_eq_ok he
    cases heq

/-- The name of a class is its own, and that of an array class is its descriptor. -/
lemma className?_cases {t : FieldType} {name : ClassName} (h : t.className? = some name) :
    t = ⟨0, .object name⟩ ∨ name = t.render ∧ ClassName.isArray name = true := by
  obtain ⟨_ | n, element⟩ := t
  · cases element with
    | base type => cases h
    | object name' =>
      cases h
      exact Or.inl rfl
  · cases h
    right
    simp [ClassName.isArray, render, renderChars, List.replicate_succ]

end FieldType

namespace ClassName

/-- How a name stands in an array name, after the bracket. -/
def spelled (name : ClassName) : List Char :=
  if isArray name then name.toList else 'L' :: name.toList ++ [';']

lemma toList_arrayOf (name : ClassName) : (arrayOf name).toList = '[' :: name.spelled := by
  unfold arrayOf spelled
  split <;> simp

@[simp] lemma isArray_arrayOf (name : ClassName) : (arrayOf name).isArray = true := by
  simp [isArray, toList_arrayOf]

/-- Names of classes, and of arrays of them, that can be read back from an array name. -/
inductive Nameable : ClassName → Prop
  | plain {name : ClassName} (hplain : name.isArray = false) (hne : name ≠ "")
      (hsemicolon : ';' ∉ name.toList) : Nameable name
  | array {name : ClassName} (h : Nameable name) : Nameable (arrayOf name)

namespace IsInternal

lemma isArray_eq_false {name : ClassName} (h : name.IsInternal) : name.isArray = false := by
  cases hchars : name.toList with
  | nil => simp [isArray, hchars]
  | cons c rest =>
    have hc := (h.2 c (by simp [hchars])).2.2
    simp [isArray, hchars, hc]

lemma undotted {name : ClassName} (h : name.IsInternal) : '.' ∉ name.toList :=
  fun hmem => (h.2 '.' hmem).1 rfl

lemma nameable {name : ClassName} (h : name.IsInternal) : Nameable name :=
  .plain h.isArray_eq_false h.1 (fun hmem => (h.2 ';' hmem).2.1 rfl)

end IsInternal

lemma object_internal : IsInternal object := by
  decide

/-- A nameable class is read back from its spelling. -/
lemma Nameable.read_spelled {name : ClassName} (h : Nameable name) :
    ∃ t, FieldType.read name.spelled = .ok (t, []) ∧ t.className? = some name := by
  induction h with
  | @plain name hplain hne hsemicolon =>
    have hname : ElementType.readName (name.toList ++ [';']) = .ok (name, []) :=
      ElementType.readName_eq_ok_iff.mpr ⟨hne, hsemicolon, rfl⟩
    refine ⟨⟨0, .object name⟩, FieldType.read_eq_ok_iff.mpr ⟨.object name, ?_, ?_⟩, rfl⟩
    · simp [spelled, hplain, ElementType.read, hname, Reading.map]
    · simp [spelled, hplain]
  | @array name h ih =>
    obtain ⟨t, hread, hname⟩ := ih
    have hspelled : (arrayOf name).spelled = '[' :: name.spelled := by
      rw [spelled, if_pos (isArray_arrayOf name), toList_arrayOf]
    refine ⟨⟨t.dims + 1, t.element⟩, by rw [hspelled]; exact FieldType.read_bracket hread, ?_⟩
    have hrender := FieldType.renderChars_append_of_read hread
    rw [List.append_nil] at hrender
    have hchars : (FieldType.mk (t.dims + 1) t.element).renderChars = '[' :: t.renderChars := by
      simp [FieldType.renderChars, List.replicate_succ]
    simp only [FieldType.className?, FieldType.render, hchars, hrender, ← toList_arrayOf,
      String.ofList_toList]

theorem Nameable.element?_arrayOf {name : ClassName} (h : Nameable name) :
    (arrayOf name).element? = some name := by
  obtain ⟨t, hread, hname⟩ := h.read_spelled
  exact Option.bind_eq_some_iff.mpr
    ⟨t, FieldType.ofArrayName?_eq_some_iff.mpr ⟨_, toList_arrayOf name, hread⟩, hname⟩

lemma isArray_of_element? {name element : ClassName} (h : name.element? = some element) :
    name.isArray = true := by
  obtain ⟨t, ht, _⟩ := Option.bind_eq_some_iff.mp h
  obtain ⟨chars, hchars, _⟩ := FieldType.ofArrayName?_eq_some_iff.mp ht
  simp [isArray, hchars]

/-- The class of the elements of an array, if it is no array itself, can stand in a descriptor. -/
lemma proper_of_element? {name element : ClassName} (h : name.element? = some element)
    (hplain : element.isArray = false) : element ≠ "" ∧ ';' ∉ element.toList := by
  obtain ⟨t, ht, hname⟩ := Option.bind_eq_some_iff.mp h
  obtain ⟨chars, _, hread⟩ := FieldType.ofArrayName?_eq_some_iff.mp ht
  rcases FieldType.className?_cases hname with rfl | ⟨_, harray⟩
  · exact FieldType.name_of_read hread
  · simp [hplain] at harray

/-- The characters of the name of the elements stand in the name of the array class. -/
lemma mem_of_element? {name element : ClassName} (h : name.element? = some element) :
    ∀ c ∈ element.toList, c ∈ name.toList := by
  intro c hc
  obtain ⟨t, ht, hname⟩ := Option.bind_eq_some_iff.mp h
  obtain ⟨chars, hchars, hread⟩ := FieldType.ofArrayName?_eq_some_iff.mp ht
  have hrender := FieldType.renderChars_append_of_read hread
  rw [List.append_nil] at hrender
  rw [hchars, ← hrender]
  rcases FieldType.className?_cases hname with rfl | ⟨rfl, _⟩
  · simp [FieldType.renderChars, ElementType.renderChars, hc]
  · rw [FieldType.render, String.toList_ofList] at hc
    simp [hc]

/-- Slash form is the absence of dots. -/
lemma canonical_eq_iff {name : ClassName} : canonical name = name ↔ '.' ∉ name.toList := by
  constructor
  · intro h hmem
    rw [← h, canonical, String.toList_ofList] at hmem
    obtain ⟨c, _, hc⟩ := List.mem_map.mp hmem
    split at hc
    · exact absurd hc (by decide)
    · simp_all
  · intro h
    have hmap : name.toList.map (fun c => if c = '.' then '/' else c) = name.toList := by
      conv_rhs => rw [← List.map_id name.toList]
      apply List.map_congr_left
      intro c hc
      rw [if_neg]
      · rfl
      · rintro rfl
        exact h hc
    rw [canonical, hmap, String.ofList_toList]

lemma Nameable.semicolon_mem {name : ClassName} (h : Nameable name) (harray : name.isArray = true) :
    ';' ∈ name.toList := by
  induction h with
  | plain hplain => simp [hplain] at harray
  | @array name h ih =>
    rw [toList_arrayOf, spelled]
    split
    · simp [ih (by assumption)]
    · simp

/-- The only array class with nameable elements of a class is the one named after it. -/
theorem Nameable.eq_arrayOf {name array : ClassName} (h : Nameable name)
    (helement : array.element? = some name) : array = arrayOf name := by
  obtain ⟨t, ht, hname⟩ := Option.bind_eq_some_iff.mp helement
  obtain ⟨chars, hchars, hread⟩ := FieldType.ofArrayName?_eq_some_iff.mp ht
  have hrender := FieldType.renderChars_append_of_read hread
  rw [List.append_nil] at hrender
  apply String.toList_inj.mp
  rw [hchars, toList_arrayOf, ← hrender]
  congr 1
  rcases FieldType.className?_cases hname with rfl | ⟨rfl, harray⟩
  · have hplain : name.isArray = false := by
      by_contra harray
      exact (FieldType.name_of_read hread).2 (h.semicolon_mem (by simpa using harray))
    simp [spelled, hplain, FieldType.renderChars, ElementType.renderChars]
  · rw [spelled, if_pos harray, FieldType.render, String.toList_ofList]

end ClassName
end ClassAssembly
