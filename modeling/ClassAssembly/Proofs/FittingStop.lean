import ClassAssembly.Proofs.TextPieces
import Mathlib.Data.String.Basic

/-! Where a text is cut. Offsets count the bytes of plain UTF-8 and room is counted in bytes of modified
UTF-8, so both are compared through the characters before an offset: the later the offset, the more
of them, and the longer their encoding. -/
namespace ClassAssembly.ModifiedUtf8

/-- The offset is at an end of the text or between two of its characters. -/
def Boundary (text : String) (offset : Nat) : Prop := String.Pos.Raw.IsValid text ⟨offset⟩

instance (text : String) (offset : Nat) : Decidable (Boundary text offset) :=
  inferInstanceAs (Decidable (String.Pos.Raw.IsValid text ⟨offset⟩))

/-- The text between two offsets. -/
def between (text : String) (start stop : Nat) : String :=
  String.Pos.Raw.extract text ⟨start⟩ ⟨stop⟩

variable {text : String} {start stop budget : Nat} {before piece rest chars : List Char}

lemma utf8Length_eq (chars : List Char) : utf8Length chars = String.utf8Len chars := by
  induction chars with
  | nil => rfl
  | cons c chars ih => rw [utf8Length_cons, String.utf8Len_cons, ih, Nat.add_comm]

/-- A boundary is told by the characters before it. -/
lemma boundary_iff {offset : Nat} : Boundary text offset ↔
    ∃ before rest, text.toList = before ++ rest ∧ utf8Length before = offset := by
  rw [Boundary, String.Pos.Raw.isValid_iff_exists_append]
  constructor
  · rintro ⟨first, second, rfl, hend⟩
    refine ⟨first.toList, second.toList, String.toList_append, ?_⟩
    rw [utf8Length_eq, String.utf8Len_toList]
    exact (congrArg String.Pos.Raw.byteIdx hend).symm
  · rintro ⟨before, rest, htext, rfl⟩
    refine ⟨String.ofList before, String.ofList rest, ?_, ?_⟩
    · rw [← String.ofList_append, ← htext, String.ofList_toList]
    · rw [String.rawEndPos_ofList, utf8Length_eq]

lemma between_eq (h : text.toList = before ++ (piece ++ rest)) :
    between text (utf8Length before) (utf8Length before + utf8Length piece) =
      String.ofList piece := by
  have htext : text = String.ofList (before ++ piece ++ rest) := by
    rw [List.append_assoc, ← h, String.ofList_toList]
  rw [between, htext, utf8Length_eq, utf8Length_eq]
  exact String.extract_of_valid before piece rest

lemma length_encode_between (h : text.toList = before ++ (piece ++ rest)) :
    (encode (between text (utf8Length before) (utf8Length before + utf8Length piece))).length =
      lengthOf piece := by
  rw [between_eq h, length_encode, length, String.toList_ofList]

lemma lengthOf_append (chars chars' : List Char) :
    lengthOf (chars ++ chars') = lengthOf chars + lengthOf chars' := by
  rw [lengthOf_eq, lengthOf_eq, lengthOf_eq, List.flatMap_append, List.length_append]

lemma lengthOf_singleton (c : Char) : lengthOf [c] = charLength c := Nat.zero_add _

lemma lengthOf_le_of_startsWith (h : piece <+: chars) : lengthOf piece ≤ lengthOf chars := by
  obtain ⟨rest, rfl⟩ := h
  rw [lengthOf_append]
  exact Nat.le_add_right _ _

lemma prefix_of_utf8Length_le (hbefore : before <+: chars) (hpiece : piece <+: chars)
    (hle : utf8Length before ≤ utf8Length piece) : before <+: piece := by
  rcases List.prefix_or_prefix_of_prefix hbefore hpiece with hprefix | ⟨more, rfl⟩
  · exact hprefix
  · -- What is longer in characters is longer in bytes, so nothing comes after `piece`.
    rw [utf8Length_append] at hle
    have hmore : more = [] := by
      by_contra hne
      have hpos := utf8Length_pos hne
      omega
    exact ⟨[], by rw [hmore, List.append_nil, List.append_nil]⟩

/-- Between two boundaries in order lie whole characters. -/
lemma exists_piece (hbefore : text.toList = before ++ rest) (hstop : Boundary text stop)
    (hle : utf8Length before ≤ stop) : ∃ piece after, rest = piece ++ after ∧
      stop = utf8Length before + utf8Length piece := by
  obtain ⟨upTo, after, hupTo, rfl⟩ := boundary_iff.mp hstop
  obtain ⟨piece, rfl⟩ := prefix_of_utf8Length_le ⟨rest, hbefore.symm⟩ ⟨after, hupTo.symm⟩ hle
  refine ⟨piece, after, ?_, utf8Length_append before piece⟩
  rw [hbefore, List.append_assoc] at hupTo
  exact List.append_cancel_left hupTo

/-- What is split off leaves no room for one character more. -/
lemma lt_lengthOf_splitFitting_append {taken left : List Char} {c : Char}
    (h : (splitFitting budget taken chars).2 = c :: left) :
    lengthOf taken.reverse + budget < lengthOf ((splitFitting budget taken chars).1 ++ [c]) := by
  induction chars generalizing budget taken with
  | nil => cases h
  | cons d chars ih =>
    rw [splitFitting] at h ⊢
    split at h
    · rename_i hfits
      have hlt := ih h
      rw [if_pos hfits]
      rw [List.reverse_cons, lengthOf_append, lengthOf_singleton] at hlt
      omega
    · rename_i hlong
      cases h
      rw [if_neg hlong, lengthOf_append, lengthOf_singleton]
      exact Nat.add_lt_add_left (Nat.lt_of_not_le hlong) _

/-- The longest run that fits, and what is wrong with every longer one. -/
lemma fitting_longest (budget : Nat) (chars : List Char) :
    fitting budget chars <+: chars ∧ lengthOf (fitting budget chars) ≤ budget ∧
      ∀ longer, longer <+: chars → utf8Length (fitting budget chars) < utf8Length longer →
        budget < lengthOf longer := by
  have happend : fitting budget chars ++ (splitFitting budget [] chars).2 = chars :=
    splitFitting_append budget [] chars
  have hfits : lengthOf (fitting budget chars) ≤ 0 + budget := lengthOf_splitFitting_le budget [] chars
  rw [Nat.zero_add] at hfits
  refine ⟨⟨_, happend⟩, hfits, fun longer hlonger hlt => ?_⟩
  obtain ⟨more, rfl⟩ := prefix_of_utf8Length_le ⟨_, happend⟩ hlonger (Nat.le_of_lt hlt)
  cases more with
  | nil =>
    rw [List.append_nil] at hlt
    exact absurd hlt (Nat.lt_irrefl _)
  | cons c more =>
    obtain ⟨after, hafter⟩ := hlonger
    rw [List.append_assoc] at hafter
    have hleft := List.append_cancel_left (happend.trans hafter.symm)
    have hroom : 0 + budget < lengthOf (fitting budget chars ++ [c]) :=
      lt_lengthOf_splitFitting_append hleft
    rw [Nat.zero_add] at hroom
    refine Nat.lt_of_lt_of_le hroom (lengthOf_le_of_startsWith ⟨more, ?_⟩)
    rw [List.append_assoc, List.singleton_append]

/-- A cut is the last boundary up to which the encoding fits. -/
theorem fittingStop_greatest (hstart : Boundary text start) (hstop : Boundary text stop)
    (hle : start ≤ stop) (budget : Nat) :
    Boundary text (fittingStop text start stop budget) ∧
      start ≤ fittingStop text start stop budget ∧ fittingStop text start stop budget ≤ stop ∧
      (encode (between text start (fittingStop text start stop budget))).length ≤ budget ∧
      ∀ later, Boundary text later → fittingStop text start stop budget < later → later ≤ stop →
        budget < (encode (between text start later)).length := by
  obtain ⟨before, rest, htext, rfl⟩ := boundary_iff.mp hstart
  obtain ⟨piece, after, rfl, rfl⟩ := exists_piece htext hstop hle
  obtain ⟨⟨left, hleft⟩, hfits, hlongest⟩ := fitting_longest budget piece
  have hcut : fittingStop text (utf8Length before) (utf8Length before + utf8Length piece) budget =
      utf8Length before + utf8Length (fitting budget piece) := by
    rw [fittingStop, slice_append htext]
  have htaken : text.toList = before ++ (fitting budget piece ++ (left ++ after)) := by
    rw [htext, ← List.append_assoc (fitting budget piece), hleft]
  rw [hcut]
  refine ⟨?_, Nat.le_add_right _ _, ?_, ?_, ?_⟩
  · refine boundary_iff.mpr ⟨before ++ fitting budget piece, left ++ after, ?_, ?_⟩
    · rw [htaken, List.append_assoc]
    · exact utf8Length_append _ _
  · have hlength := congrArg utf8Length hleft
    rw [utf8Length_append] at hlength
    omega
  · rwa [length_encode_between htaken]
  · intro later hlater hlt hlast
    obtain ⟨longer, beyond, hrest, rfl⟩ := exists_piece htext hlater (by omega)
    have hlonger : longer <+: piece :=
      prefix_of_utf8Length_le ⟨beyond, hrest.symm⟩ ⟨after, rfl⟩ (by omega)
    rw [hrest] at htext
    rw [length_encode_between htext]
    exact hlongest longer hlonger (by omega)

/-- The character U+0000 takes one byte of the text and two of its encoding, and the note at the end
four and six. -/
theorem mixedText_cut :
    Boundary "aé\x00𝄞b" 1 ∧ Boundary "aé\x00𝄞b" 9 ∧ ¬Boundary "aé\x00𝄞b" 2 ∧
      fittingStop "aé\x00𝄞b" 1 9 9 = 4 ∧ (encode (between "aé\x00𝄞b" 1 4)).length ≤ 9 ∧
      ∀ later, Boundary "aé\x00𝄞b" later → 4 < later → later ≤ 9 →
        9 < (encode (between "aé\x00𝄞b" 1 later)).length := by
  have hstart : Boundary "aé\x00𝄞b" 1 := by decide
  have hstop : Boundary "aé\x00𝄞b" 9 := by decide
  have hcut : fittingStop "aé\x00𝄞b" 1 9 9 = 4 := by decide
  obtain ⟨_, _, _, hfits, hgreatest⟩ := fittingStop_greatest hstart hstop (by decide) 9
  rw [hcut] at hfits hgreatest
  exact ⟨hstart, hstop, by decide, hcut, hfits, hgreatest⟩

end ClassAssembly.ModifiedUtf8
