import ClassAssembly.Descriptor.Basic

/-! Reading descriptors. Each reader takes one item off the front of the characters and returns it
with what is left. -/
namespace ClassAssembly

/-- Why some text is not a descriptor. -/
inductive DescriptorError where
  | leftover (c : Char)
  | notABaseType (c : Char)
  | missingBaseType
  | emptyClassName
  | unterminated (name : String)
  | missingOpen
  | missingClose
deriving DecidableEq

namespace DescriptorError

def message : DescriptorError → String
  | leftover c => s!"Unexpected leftover input '{c}'"
  | notABaseType c => s!"Invalid base type character '{c}'"
  | missingBaseType => "Missing base type character"
  | emptyClassName => "Empty class name"
  | unterminated name => s!"Missing terminator for 'L{name}'"
  | missingOpen => "Expected '(' for method"
  | missingClose => "Expected ')' for method"

/-- The text ended too early, rather than holding a wrong character. -/
def atEnd : DescriptorError → Bool
  | missingBaseType | unterminated _ | missingClose => true
  | _ => false

end DescriptorError

/-- A value read off the front of some characters, with the characters left over. -/
abbrev Reading (α : Type) := Except DescriptorError (α × List Char)

namespace Reading

variable {α β : Type}

/-- All characters must be used. -/
def whole : Reading α → Except DescriptorError α
  | .error e => .error e
  | .ok (value, []) => .ok value
  | .ok (_, c :: _) => .error (.leftover c)

def map (f : α → β) : Reading α → Reading β
  | .error e => .error e
  | .ok (value, rest) => .ok (f value, rest)

theorem map_eq_ok {f : α → β} {reading : Reading α} {b : β} {rest : List Char}
    (h : reading.map f = .ok (b, rest)) : ∃ a, reading = .ok (a, rest) ∧ f a = b := by
  match reading with
  | .error e => cases h
  | .ok (a, rest') => cases h; exact ⟨a, rfl, rfl⟩

end Reading

namespace BaseType

def read : List Char → Reading BaseType
  | [] => .error .missingBaseType
  | c :: rest =>
    match ofLetter? c with
    | some t => .ok (t, rest)
    | none => .error (.notABaseType c)

def parse (text : String) : Except DescriptorError BaseType := (read text.toList).whole

theorem letter_of_ofLetter? {c : Char} {t : BaseType} (h : ofLetter? c = some t) :
    t.letter = c := by
  unfold ofLetter? at h
  split at h <;> cases h <;> rfl

theorem letter_cons_of_read {chars rest : List Char} {t : BaseType}
    (h : read chars = .ok (t, rest)) : t.letter :: rest = chars := by
  unfold read at h
  split at h
  · cases h
  · split at h <;> cases h
    rw [letter_of_ofLetter? (by assumption)]

end BaseType

namespace ElementType

/-- Reads a class name up to its semicolon. -/
def readName (chars : List Char) : Reading ClassName :=
  match chars.takeWhile (· ≠ ';'), chars.dropWhile (· ≠ ';') with
  | name, [] => .error (.unterminated (String.ofList name))
  | [], _ => .error .emptyClassName
  | name, _ :: rest => .ok (String.ofList name, rest)

def read : List Char → Reading ElementType
  | 'L' :: chars => (readName chars).map .object
  | chars => (BaseType.read chars).map .base

theorem append_of_readName {chars rest : List Char} {name : ClassName}
    (h : readName chars = .ok (name, rest)) : name.toList ++ ';' :: rest = chars := by
  have append := List.takeWhile_append_dropWhile (p := (· ≠ ';')) (l := chars)
  unfold readName at h
  split at h
  · cases h
  · cases h
  · rename_i c _ dropped _
    have rest_ne : chars.dropWhile (· ≠ ';') ≠ [] := dropped ▸ List.cons_ne_nil _ _
    have head : c = ';' := by
      have h := List.head_dropWhile_not (· ≠ ';') rest_ne
      simp only [dropped, List.head_cons] at h
      simpa using h
    cases h
    refine Eq.trans ?_ append
    rw [dropped, head, String.toList_ofList]

theorem renderChars_append_of_read {chars rest : List Char} {t : ElementType}
    (h : read chars = .ok (t, rest)) : t.renderChars ++ rest = chars := by
  unfold read at h
  split at h
  · obtain ⟨name, hn, rfl⟩ := Reading.map_eq_ok h
    simp [renderChars, append_of_readName hn]
  · obtain ⟨type, ht, rfl⟩ := Reading.map_eq_ok h
    simp [renderChars, BaseType.letter_cons_of_read ht]

theorem length_renderChars_pos (t : ElementType) : 0 < t.renderChars.length := by
  cases t <;> simp [renderChars]

end ElementType

namespace FieldType

def read (chars : List Char) : Reading FieldType :=
  (ElementType.read (chars.dropWhile (· = '['))).map
    (FieldType.mk (chars.takeWhile (· = '[')).length)

def parse (text : String) : Except DescriptorError FieldType := (read text.toList).whole

/-- Type of the elements of an array class, given by its name. -/
def ofArrayName? (name : ClassName) : Option FieldType :=
  match name.toList with
  | '[' :: element => (read element).whole.toOption
  | _ => none

/-- A type that is read is spelled by the characters it took. -/
theorem renderChars_append_of_read {chars rest : List Char} {t : FieldType}
    (h : read chars = .ok (t, rest)) : t.renderChars ++ rest = chars := by
  obtain ⟨element, he, rfl⟩ := Reading.map_eq_ok h
  have append := List.takeWhile_append_dropWhile (p := (· = '[')) (l := chars)
  have brackets : List.replicate (chars.takeWhile (· = '[')).length '[' =
      chars.takeWhile (· = '[') := by
    symm
    rw [List.eq_replicate_iff]
    have all := List.all_takeWhile (p := (· = '[')) (l := chars)
    exact ⟨rfl, fun c hc => by simpa using List.all_eq_true.1 all c hc⟩
  rw [renderChars, brackets, List.append_assoc, ElementType.renderChars_append_of_read he, append]

theorem length_lt_of_read {chars rest : List Char} {t : FieldType}
    (h : read chars = .ok (t, rest)) : rest.length < chars.length := by
  have := t.element.length_renderChars_pos
  rw [← renderChars_append_of_read h]
  simp only [renderChars, List.length_append]
  omega

theorem length_le_of_className? {t : FieldType} {name : ClassName} (h : t.className? = some name) :
    name.length ≤ t.renderChars.length := by
  unfold className? at h
  split at h <;> cases h
  · simp only [renderChars, ElementType.renderChars, List.length_append, List.length_cons,
      String.length_toList]
    omega
  · simp [render]

/-- The elements of an array class have a shorter name than the class. -/
theorem length_lt_of_ofArrayName? {name element : ClassName} {t : FieldType}
    (h : ofArrayName? name = some t) (he : t.className? = some element) :
    element.length < name.length := by
  unfold ofArrayName? at h
  split at h
  · rename_i chars hn
    have hr : read chars = .ok (t, []) := by
      unfold Reading.whole at h
      split at h <;> simp_all [Except.toOption]
    have render := renderChars_append_of_read hr
    have short := length_le_of_className? he
    rw [← String.length_toList (s := name), hn, List.length_cons, ← render]
    simp only [List.append_nil]
    omega
  · cases h

end FieldType

namespace MethodDescriptor

/-- Reads parameters up to the closing parenthesis; those read before are given latest first. -/
def readParameters (before : List FieldType) (chars : List Char) : Reading (List FieldType) :=
  match chars with
  | [] => .error .missingClose
  | ')' :: rest => .ok (before.reverse, rest)
  | c :: cs =>
    match h : FieldType.read (c :: cs) with
    | .error e => .error e
    | .ok (t, rest) =>
      have := FieldType.length_lt_of_read h
      readParameters (t :: before) rest
termination_by chars.length
decreasing_by exact this

def readReturn : List Char → Reading (Option FieldType)
  | 'V' :: rest => .ok (none, rest)
  | chars => (FieldType.read chars).map some

def read : List Char → Reading MethodDescriptor
  | '(' :: chars =>
    match readParameters [] chars with
    | .error e => .error e
    | .ok (parameters, chars) => (readReturn chars).map (MethodDescriptor.mk parameters)
  | _ => .error .missingOpen

def parse (text : String) : Except DescriptorError MethodDescriptor := (read text.toList).whole

end MethodDescriptor
end ClassAssembly
