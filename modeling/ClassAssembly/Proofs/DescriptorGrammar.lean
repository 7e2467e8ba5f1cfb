import ClassAssembly.Proofs.ArrayName
import Mathlib.Computability.Language

/-! The language of descriptors. Each reader takes exactly the spelling of one value off the front,
whatever follows it, so a text is parsed exactly if it is in the language, and rendering the result
gives the text back. -/
namespace ClassAssembly

open scoped Computability

namespace Reading

variable {α : Type}

lemma whole_eq_ok_iff {reading : Reading α} {a : α} :
    reading.whole = .ok a ↔ reading = .ok (a, []) := by
  match reading with
  | .error e => simp [whole]
  | .ok (b, []) => simp [whole]
  | .ok (b, c :: rest) => simp [whole]

lemma map_eq_ok_iff {β : Type} {f : α → β} {reading : Reading α} {b : β} {rest : List Char} :
    reading.map f = .ok (b, rest) ↔ ∃ a, reading = .ok (a, rest) ∧ f a = b := by
  constructor
  · exact map_eq_ok
  · rintro ⟨a, rfl, rfl⟩
    rfl

/-- The reader takes exactly the spelling of a proper value off the front, whatever follows. -/
def Exact (read : List Char → Reading α) (Proper : α → Prop) (spell : α → List Char) : Prop :=
  ∀ chars a rest, read chars = .ok (a, rest) ↔ Proper a ∧ chars = spell a ++ rest

/-- Reading a whole text succeeds on the spellings of proper values. -/
lemma Exact.whole_iff {read : List Char → Reading α} {Proper : α → Prop} {spell : α → List Char}
    (h : Exact read Proper spell) {text : String} {a : α} :
    (read text.toList).whole = .ok a ↔ Proper a ∧ String.ofList (spell a) = text := by
  rw [whole_eq_ok_iff, h, List.append_nil, ← String.toList_inj, String.toList_ofList, eq_comm]

/-- If a language consists of the spellings of proper values, its texts are those that are read. -/
lemma Exact.accepts_iff {read : List Char → Reading α} {Proper : α → Prop} {spell : α → List Char}
    (h : Exact read Proper spell) {language : Language Char}
    (hlanguage : ∀ {chars}, chars ∈ language ↔ ∃ a, Proper a ∧ spell a = chars) (text : String) :
    (∃ a, (read text.toList).whole = .ok a) ↔ text.toList ∈ language := by
  simp only [h.whole_iff, hlanguage, ← String.toList_inj, String.toList_ofList]

end Reading

open Reading (Exact map_eq_ok_iff)

namespace BaseType

lemma read_eq_ok_iff {chars rest : List Char} {t : BaseType} :
    read chars = .ok (t, rest) ↔ chars = t.letter :: rest := by
  constructor
  · exact fun h => (letter_cons_of_read h).symm
  · rintro rfl
    simp [read]

lemma letter_mem (t : BaseType) : t.letter ∈ ['B', 'C', 'D', 'F', 'I', 'J', 'S', 'Z'] := by
  cases t <;> decide

end BaseType

namespace ElementType

/-- A class can be spelled if its name is not empty and has no semicolon. -/
def Spellable : ElementType → Prop
  | base _ => True
  | object name => name ≠ "" ∧ ';' ∉ name.toList

lemma read_exact : Exact read Spellable renderChars := by
  intro chars t rest
  constructor
  · intro h
    refine ⟨?_, (renderChars_append_of_read h).symm⟩
    unfold read at h
    split at h
    · obtain ⟨name, hname, rfl⟩ := Reading.map_eq_ok h
      obtain ⟨hne, hsemicolon, _⟩ := readName_eq_ok_iff.mp hname
      exact ⟨hne, hsemicolon⟩
    · obtain ⟨type, _, rfl⟩ := Reading.map_eq_ok h
      trivial
  · rintro ⟨ht, rfl⟩
    cases t with
    | base type =>
      -- No primitive type has the letter that starts a class.
      have hletter : ∀ chars, type.letter :: rest ≠ 'L' :: chars := by
        intro chars heq
        cases type <;> cases heq
      rw [renderChars, List.singleton_append, read]
      · exact map_eq_ok_iff.mpr ⟨type, BaseType.read_eq_ok_iff.mpr rfl, rfl⟩
      · exact hletter
    | object name =>
      have hname : readName (name.toList ++ ';' :: rest) = .ok (name, rest) :=
        readName_eq_ok_iff.mpr ⟨ht.1, ht.2, rfl⟩
      simp [renderChars, read, hname, Reading.map]

/-- No element type is spelled with one of these characters in front. -/
lemma head_renderChars (t : ElementType) :
    ∃ c chars, t.renderChars = c :: chars ∧ c ≠ '[' ∧ c ≠ ')' ∧ c ≠ 'V' := by
  cases t with
  | base type =>
    refine ⟨type.letter, [], rfl, ?_⟩
    cases type <;> decide
  | object name => exact ⟨'L', name.toList ++ [';'], rfl, by decide⟩

end ElementType

namespace FieldType

def Spellable (t : FieldType) : Prop := t.element.Spellable

lemma renderChars_succ (n : Nat) (element : ElementType) :
    renderChars ⟨n + 1, element⟩ = '[' :: renderChars ⟨n, element⟩ := by
  simp [renderChars, List.replicate_succ]

/-- No field type is spelled with one of these characters in front. -/
lemma head_renderChars (t : FieldType) :
    ∃ c chars, t.renderChars = c :: chars ∧ c ≠ ')' ∧ c ≠ 'V' := by
  obtain ⟨_ | n, element⟩ := t
  · obtain ⟨c, chars, hchars, _, hne⟩ := element.head_renderChars
    exact ⟨c, chars, by simpa [renderChars] using hchars, hne⟩
  · exact ⟨'[', _, renderChars_succ n element, by decide⟩

lemma read_exact : Exact read Spellable renderChars := by
  intro chars t rest
  constructor
  · intro h
    obtain ⟨element, helement, rfl⟩ := read_eq_ok_iff.mp h
    exact ⟨((ElementType.read_exact _ _ _).mp helement).1, (renderChars_append_of_read h).symm⟩
  · rintro ⟨ht, rfl⟩
    obtain ⟨n, element⟩ := t
    induction n with
    | zero =>
      obtain ⟨c, tail, hchars, hbracket, _⟩ := element.head_renderChars
      have helement := (ElementType.read_exact _ element rest).mpr ⟨ht, rfl⟩
      rw [hchars] at helement
      refine read_eq_ok_iff.mpr ⟨element, ?_, ?_⟩
      · simpa [renderChars, hchars, hbracket] using helement
      · simp [renderChars, hchars, hbracket]
    | succ n ih =>
      rw [renderChars_succ, List.cons_append]
      exact read_bracket (ih ht)

/-- The rules for the descriptors of fields. -/
inductive Derives : List Char → Prop
  | base {c : Char} (hletter : c ∈ ['B', 'C', 'D', 'F', 'I', 'J', 'S', 'Z']) : Derives [c]
  | object {name : List Char} (hne : name ≠ []) (hsemicolon : ';' ∉ name) :
      Derives ('L' :: name ++ [';'])
  | array {chars : List Char} (h : Derives chars) : Derives ('[' :: chars)

def descriptors : Language Char := {chars | Derives chars}

/-- The descriptors are the spellings of types. -/
lemma mem_descriptors_iff {chars : List Char} :
    chars ∈ descriptors ↔ ∃ t : FieldType, t.Spellable ∧ t.renderChars = chars := by
  constructor
  · intro h
    change Derives chars at h
    induction h with
    | @base c hletter =>
      obtain ⟨type, rfl⟩ : ∃ type : BaseType, type.letter = c := by
        simp only [List.mem_cons, List.not_mem_nil, or_false] at hletter
        rcases hletter with rfl | rfl | rfl | rfl | rfl | rfl | rfl | rfl
        exacts [⟨.byte, rfl⟩, ⟨.char, rfl⟩, ⟨.double, rfl⟩, ⟨.float, rfl⟩, ⟨.int, rfl⟩,
          ⟨.long, rfl⟩, ⟨.short, rfl⟩, ⟨.boolean, rfl⟩]
      exact ⟨.base type, trivial, rfl⟩
    | @object name hne hsemicolon =>
      refine ⟨⟨0, .object (String.ofList name)⟩, ⟨?_, ?_⟩, ?_⟩
      · simpa [← String.toList_eq_nil_iff] using hne
      · rwa [String.toList_ofList]
      · simp [renderChars, ElementType.renderChars]
    | @array chars h ih =>
      obtain ⟨⟨n, element⟩, ht, rfl⟩ := ih
      exact ⟨⟨n + 1, element⟩, ht, renderChars_succ n element⟩
  · rintro ⟨⟨n, element⟩, ht, rfl⟩
    change Derives _
    induction n with
    | zero =>
      cases element with
      | base type => exact .base type.letter_mem
      | object name =>
        exact .object (fun hnil => ht.1 (String.toList_eq_nil_iff.mp hnil)) ht.2
    | succ n ih =>
      rw [renderChars_succ]
      exact .array (ih ht)

end FieldType

namespace MethodDescriptor

def Spellable (d : MethodDescriptor) : Prop :=
  (∀ t ∈ d.parameters, t.Spellable) ∧ ∀ t ∈ d.returns, t.Spellable

def renderReturn : Option FieldType → List Char
  | none => ['V']
  | some t => t.renderChars

lemma renderChars_eq (d : MethodDescriptor) :
    d.renderChars = '(' :: d.parameters.flatMap FieldType.renderChars ++ ')' ::
      renderReturn d.returns := by
  obtain ⟨parameters, _ | t⟩ := d <;> rfl

lemma readReturn_exact :
    Exact readReturn (fun returns => ∀ t ∈ returns, t.Spellable) renderReturn := by
  intro chars returns rest
  constructor
  · intro h
    unfold readReturn at h
    split at h
    · cases h
      exact ⟨by simp, rfl⟩
    · obtain ⟨t, ht, rfl⟩ := Reading.map_eq_ok h
      obtain ⟨hspellable, hchars⟩ := (FieldType.read_exact _ _ _).mp ht
      exact ⟨by simpa using hspellable, hchars⟩
  · rintro ⟨hreturns, rfl⟩
    cases returns with
    | none => rfl
    | some t =>
      obtain ⟨c, tail, hchars, _, hvoid⟩ := t.head_renderChars
      have hread := (FieldType.read_exact _ t rest).mpr ⟨hreturns t rfl, rfl⟩
      rw [renderReturn, readReturn]
      · exact map_eq_ok_iff.mpr ⟨t, hread, rfl⟩
      · intro chars heq
        rw [hchars] at heq
        exact hvoid (List.cons.inj heq).1

/-- A parameter is read off the front of the characters before the parenthesis. -/
lemma readParameters_of_read {before : List FieldType} {chars rest : List Char} {t : FieldType}
    (hread : FieldType.read chars = .ok (t, rest)) (hclose : ∀ tail, chars ≠ ')' :: tail) :
    readParameters before chars = readParameters (t :: before) rest := by
  conv_lhs => unfold readParameters
  split
  · cases hread
  · exact absurd rfl (hclose _)
  · split
    · rename_i heq
      rw [hread] at heq
      cases heq
    · rename_i heq
      rw [hread] at heq
      cases heq
      rfl

/-- Parameters are read until the closing parenthesis. -/
lemma readParameters_eq_ok_iff {before parameters : List FieldType} {chars rest : List Char} :
    readParameters before chars = .ok (parameters, rest) ↔
      ∃ types : List FieldType, (∀ t ∈ types, t.Spellable) ∧
        parameters = before.reverse ++ types ∧
          chars = types.flatMap FieldType.renderChars ++ ')' :: rest := by
  constructor
  · intro h
    fun_induction readParameters before chars with
    | case1 => cases h
    | case2 before tail =>
      cases h
      exact ⟨[], by simp⟩
    | case3 => cases h
    | case4 before c cs _ t tail hread _ ih =>
      obtain ⟨types, htypes, rfl, rfl⟩ := ih h
      obtain ⟨ht, hchars⟩ := (FieldType.read_exact _ _ _).mp hread
      refine ⟨t :: types, ?_, by simp, by simp [hchars]⟩
      simpa using ⟨ht, htypes⟩
  · rintro ⟨types, htypes, rfl, rfl⟩
    induction types generalizing before with
    | nil => simp [readParameters]
    | cons t types ih =>
      have hread := (FieldType.read_exact _ t
        (types.flatMap FieldType.renderChars ++ ')' :: rest)).mpr ⟨htypes t (by simp), rfl⟩
      have htail : ∀ other ∈ types, other.Spellable := fun other h => htypes other (by simp [h])
      rw [List.flatMap_cons, List.append_assoc, readParameters_of_read hread, ih htail]
      · simp
      · intro tail heq
        obtain ⟨c, chars, hchars, hclose, _⟩ := t.head_renderChars
        rw [hchars] at heq
        exact hclose (List.cons.inj heq).1

lemma read_exact : Exact read Spellable renderChars := by
  intro chars d rest
  rw [renderChars_eq]
  constructor
  · intro h
    unfold read at h
    split at h
    · split at h
      · cases h
      · rename_i hparameters
        obtain ⟨returns, hreturns, rfl⟩ := Reading.map_eq_ok h
        obtain ⟨types, htypes, rfl, rfl⟩ := readParameters_eq_ok_iff.mp hparameters
        obtain ⟨hspellable, rfl⟩ := (readReturn_exact _ _ _).mp hreturns
        exact ⟨⟨by simpa using htypes, hspellable⟩, by simp⟩
    · cases h
  · rintro ⟨⟨hparameters, hreturns⟩, rfl⟩
    have hread : readParameters [] (d.parameters.flatMap FieldType.renderChars ++
        ')' :: (renderReturn d.returns ++ rest)) = .ok (d.parameters, renderReturn d.returns ++ rest) :=
      readParameters_eq_ok_iff.mpr ⟨d.parameters, hparameters, rfl, rfl⟩
    have hreturn := (readReturn_exact _ d.returns rest).mpr ⟨hreturns, rfl⟩
    simp [read, hread, hreturn, Reading.map]

/-- The descriptors of methods: those of the parameters in parentheses, and that of the result. -/
def descriptors : Language Char :=
  {['(']} * FieldType.descriptors∗ * {[')']} * (FieldType.descriptors + {['V']})

lemma mem_parameters_iff {chars : List Char} :
    chars ∈ FieldType.descriptors∗ ↔
      ∃ types : List FieldType, (∀ t ∈ types, t.Spellable) ∧
        types.flatMap FieldType.renderChars = chars := by
  rw [Language.mem_kstar]
  constructor
  · rintro ⟨words, rfl, hwords⟩
    induction words with
    | nil => exact ⟨[], by simp⟩
    | cons word words ih =>
      obtain ⟨types, htypes, heq⟩ := ih fun other h => hwords other (by simp [h])
      obtain ⟨t, ht, rfl⟩ := FieldType.mem_descriptors_iff.mp (hwords word (by simp))
      exact ⟨t :: types, by simpa using ⟨ht, htypes⟩, by simp [heq]⟩
  · rintro ⟨types, htypes, rfl⟩
    refine ⟨types.map FieldType.renderChars, by rw [List.flatMap_def], fun word hword => ?_⟩
    obtain ⟨t, ht, rfl⟩ := List.mem_map.mp hword
    exact FieldType.mem_descriptors_iff.mpr ⟨t, htypes t ht, rfl⟩

lemma mem_returns_iff {chars : List Char} :
    chars ∈ FieldType.descriptors + {['V']} ↔
      ∃ returns : Option FieldType, (∀ t ∈ returns, t.Spellable) ∧ renderReturn returns = chars := by
  rw [Language.mem_add, FieldType.mem_descriptors_iff]
  constructor
  · rintro (⟨t, ht, rfl⟩ | rfl)
    · exact ⟨some t, by simpa using ht, rfl⟩
    · exact ⟨none, by simp, rfl⟩
  · rintro ⟨_ | t, ht, rfl⟩
    · exact Or.inr rfl
    · exact Or.inl ⟨t, ht t rfl, rfl⟩

lemma mem_descriptors_iff {chars : List Char} :
    chars ∈ descriptors ↔ ∃ d : MethodDescriptor, d.Spellable ∧ d.renderChars = chars := by
  simp only [descriptors, Language.mem_mul]
  constructor
  · rintro ⟨_, ⟨_, ⟨_, rfl, _, hparameters, rfl⟩, _, rfl, rfl⟩, _, hreturns, rfl⟩
    obtain ⟨types, htypes, rfl⟩ := mem_parameters_iff.mp hparameters
    obtain ⟨returns, hspellable, rfl⟩ := mem_returns_iff.mp hreturns
    exact ⟨⟨types, returns⟩, ⟨htypes, hspellable⟩, by simp [renderChars_eq]⟩
  · rintro ⟨d, ⟨hparameters, hreturns⟩, rfl⟩
    refine ⟨_, ⟨_, ⟨_, rfl, _, mem_parameters_iff.mpr ⟨d.parameters, hparameters, rfl⟩, rfl⟩, _, rfl,
      rfl⟩, _, mem_returns_iff.mpr ⟨d.returns, hreturns, rfl⟩, ?_⟩
    simp [renderChars_eq]

end MethodDescriptor

/-- Parsing accepts exactly the texts of the grammar, and parsing and rendering undo each other. -/
theorem parse_inverse_render :
    (∀ text : String, (∃ t, FieldType.parse text = .ok t) ↔ text.toList ∈ FieldType.descriptors) ∧
    (∀ text t, FieldType.parse text = .ok t ↔ t.Spellable ∧ t.render = text) ∧
    (∀ text : String,
      (∃ d, MethodDescriptor.parse text = .ok d) ↔ text.toList ∈ MethodDescriptor.descriptors) ∧
    ∀ text d, MethodDescriptor.parse text = .ok d ↔ d.Spellable ∧ d.render = text :=
  ⟨FieldType.read_exact.accepts_iff FieldType.mem_descriptors_iff,
    fun _ _ => FieldType.read_exact.whole_iff,
    MethodDescriptor.read_exact.accepts_iff MethodDescriptor.mem_descriptors_iff,
    fun _ _ => MethodDescriptor.read_exact.whole_iff⟩

/-- Parentheses and brackets may stand in the name of a class. -/
example : MethodDescriptor.parse "(IL)[(;[[Z)V" =
    .ok ⟨[.base .int, ⟨0, .object ")[("⟩, ⟨2, .base .boolean⟩], none⟩ := by
  decide +kernel

end ClassAssembly
