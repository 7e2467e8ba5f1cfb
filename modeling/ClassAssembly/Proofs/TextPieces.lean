import ClassAssembly.Text.ModifiedUtf8
import ClassAssembly.Proofs.StepLaws

/-! Cutting a text into pieces that fit. A budget of six bytes admits every character, so each cut
takes at least one and the loop over the offsets ends at the end of the text. -/
namespace ClassAssembly.ModifiedUtf8

lemma lengthOf_eq (chars : List Char) : lengthOf chars = (chars.flatMap encodeChar).length := by
  have hlength := length_encode (String.ofList chars)
  rw [length, encode, String.toList_ofList] at hlength
  exact hlength.symm

lemma charLength_le_six (c : Char) : charLength c ≤ 6 := by
  simp only [charLength]
  repeat' split
  all_goals omega

/-- A letter so many times over. -/
def letters (n : Nat) : String := String.ofList (List.replicate n 'a')

lemma length_letters (n : Nat) : length (letters n) = n := by
  have hletter : (encodeChar 'a').length = 1 := by decide
  rw [length, letters, String.toList_ofList, lengthOf_eq]
  induction n with
  | zero => rfl
  | succ n ih => rw [List.replicate_succ, List.flatMap_cons, List.length_append, ih, hletter,
      Nat.add_comm]

section Pieces

variable {budget : Nat} {chars piece : List Char}

lemma lengthOf_splitFitting_le (budget : Nat) (taken chars : List Char) :
    lengthOf (splitFitting budget taken chars).1 ≤ lengthOf taken.reverse + budget := by
  induction chars generalizing budget taken with
  | nil => exact Nat.le_add_right _ _
  | cons c rest ih =>
    rw [splitFitting]
    split
    · have hle := ih (budget - charLength c) (c :: taken)
      simp only [lengthOf_eq, List.reverse_cons, List.flatMap_append, List.flatMap_singleton,
        List.length_append, length_encodeChar] at hle ⊢
      omega
    · exact Nat.le_add_right _ _

/-- Where characters are left over, there was no room for one more. -/
lemma lt_lengthOf_splitFitting {taken : List Char} (h : (splitFitting budget taken chars).2 ≠ []) :
    lengthOf taken.reverse + budget < lengthOf (splitFitting budget taken chars).1 + 6 := by
  induction chars generalizing budget taken with
  | nil => exact absurd rfl h
  | cons c rest ih =>
    rw [splitFitting] at h ⊢
    split at h
    · rename_i hfits
      have hlt := ih h
      rw [if_pos hfits]
      simp only [lengthOf_eq, List.reverse_cons, List.flatMap_append, List.flatMap_singleton,
        List.length_append, length_encodeChar] at hlt ⊢
      omega
    · rename_i hlong
      have hle := charLength_le_six c
      rw [if_neg hlong]
      exact Nat.add_lt_add_left (by omega) _

/-- What has been taken stays at the front. -/
lemma reverse_prefix_splitFitting (budget : Nat) (taken chars : List Char) :
    taken.reverse <+: (splitFitting budget taken chars).1 := by
  induction chars generalizing budget taken with
  | nil => exact List.prefix_refl _
  | cons c rest ih =>
    rw [splitFitting]
    split
    · refine List.IsPrefix.trans ?_ (ih _ (c :: taken))
      rw [List.reverse_cons]
      exact List.prefix_append _ _
    · exact List.prefix_refl _

/-- Where there is a character left, it is taken. -/
lemma eq_nil_of_splitFitting (hbudget : 6 ≤ budget) (h : (splitFitting budget [] chars).1 = []) :
    chars = [] := by
  cases chars with
  | nil => rfl
  | cons c rest =>
    rw [splitFitting, if_pos (Nat.le_trans (charLength_le_six c) hbudget)] at h
    have hfirst := reverse_prefix_splitFitting (budget - charLength c) [c] rest
    rw [h] at hfirst
    exact absurd hfirst (by simp)

/-- Each piece of a text fits. -/
lemma lengthOf_le_of_mem_pieces (h : piece ∈ pieces budget chars) : lengthOf piece ≤ budget := by
  fun_induction pieces budget chars with
  | case1 => cases h
  | case2 chars c first rest hsplit _ ih =>
    rcases List.mem_cons.mp h with rfl | h
    · have hle := lengthOf_splitFitting_le budget [] chars
      rw [hsplit] at hle
      simpa [lengthOf_eq] using hle
    · exact ih h

lemma ne_nil_of_mem_pieces (h : piece ∈ pieces budget chars) : piece ≠ [] := by
  fun_induction pieces budget chars with
  | case1 => cases h
  | case2 chars c first rest hsplit _ ih =>
    rcases List.mem_cons.mp h with rfl | h
    · exact List.cons_ne_nil c first
    · exact ih h

/-- No part of a text is lost. -/
theorem flatten_pieces (hbudget : 6 ≤ budget) (chars : List Char) :
    (pieces budget chars).flatten = chars := by
  fun_induction pieces budget chars with
  | case1 chars rest hsplit =>
    have hnone : chars = [] := eq_nil_of_splitFitting hbudget (by rw [hsplit])
    rw [hnone, List.flatten_nil]
  | case2 chars c first rest hsplit _ ih =>
    have happend := splitFitting_append budget [] chars
    rw [hsplit] at happend
    rw [List.flatten_cons, ih]
    exact happend

/-- All pieces but the last are nearly full, so there are not many. -/
lemma length_pieces_le (hbudget : 6 ≤ budget) (chars : List Char) :
    (pieces budget chars).length * (budget - 5) ≤ lengthOf chars + (budget - 5) := by
  fun_induction pieces budget chars with
  | case1 => simp
  | case2 chars c first rest hsplit _ ih =>
    have happend := splitFitting_append budget [] chars
    rw [hsplit] at happend
    have hlength : lengthOf chars = lengthOf (c :: first) + lengthOf rest := by
      simp only [lengthOf_eq, ← List.length_append, ← List.flatMap_append]
      rw [happend]
      rfl
    rw [List.length_cons, Nat.succ_mul, hlength]
    by_cases hrest : rest = []
    · have hnone : pieces budget rest = [] := by
        rw [hrest, pieces]
        rfl
      rw [hnone]
      simp
    · have hleft : (splitFitting budget [] chars).2 ≠ [] := by rwa [hsplit]
      have hfull := lt_lengthOf_splitFitting hleft
      simp only [hsplit, List.reverse_nil] at hfull
      omega

end Pieces

section Offsets

lemma utf8Length_cons (c : Char) (chars : List Char) :
    utf8Length (c :: chars) = c.utf8Size + utf8Length chars := by
  have hacc : ∀ (chars : List Char) (n : Nat),
      chars.foldl (fun n c => n + c.utf8Size) n = n + utf8Length chars := by
    intro chars
    induction chars with
    | nil => exact fun _ => rfl
    | cons c chars ih =>
      intro n
      rw [utf8Length, List.foldl_cons, List.foldl_cons, ih, ih]
      omega
  rw [utf8Length, List.foldl_cons, hacc]
  omega

lemma utf8Length_append (chars chars' : List Char) :
    utf8Length (chars ++ chars') = utf8Length chars + utf8Length chars' := by
  induction chars with
  | nil => simp [utf8Length]
  | cons c chars ih =>
    rw [List.cons_append, utf8Length_cons, utf8Length_cons, ih]
    omega

lemma utf8Length_pos {chars : List Char} (h : chars ≠ []) : 0 < utf8Length chars := by
  cases chars with
  | nil => exact absurd rfl h
  | cons c chars =>
    rw [utf8Length_cons]
    exact Nat.add_pos_left c.utf8Size_pos _

lemma dropBytes_append (before rest : List Char) :
    dropBytes (utf8Length before) (before ++ rest) = rest := by
  induction before with
  | nil => cases rest <;> rfl
  | cons c before ih =>
    have hpos := c.utf8Size_pos
    rw [utf8Length_cons, List.cons_append, dropBytes, Nat.add_sub_cancel_left, ih]
    omega

lemma takeBytes_append (taken piece rest : List Char) :
    takeBytes (utf8Length piece) taken (piece ++ rest) = taken.reverse ++ piece := by
  induction piece generalizing taken with
  | nil => cases rest <;> simp [utf8Length, takeBytes]
  | cons c piece ih =>
    have hpos := c.utf8Size_pos
    rw [utf8Length_cons, List.cons_append, takeBytes, Nat.add_sub_cancel_left, ih]
    · simp
    · omega

/-- The part between two offsets that the characters before it tell. -/
lemma slice_append {text : String} {before piece rest : List Char}
    (h : text.toList = before ++ (piece ++ rest)) :
    slice text (utf8Length before) (utf8Length before + utf8Length piece) = piece := by
  rw [slice, h, dropBytes_append, Nat.add_sub_cancel_left, takeBytes_append]
  rfl

/-- A run of the loop that cuts a text from an offset to its end. Each turn goes on where the last
one stopped, and stops further on. -/
inductive Cuts (budget : Nat) (text : String) : Nat → List (List Char) → Prop
  | done {start : Nat} (h : utf8Length text.toList ≤ start) : Cuts budget text start []
  | turn {start stop : Nat} {pieces : List (List Char)} (h : start < utf8Length text.toList)
      (hstop : stop = fittingStop text start (utf8Length text.toList) budget)
      (hforth : start < stop) (hrest : Cuts budget text stop pieces) :
      Cuts budget text start (slice text start stop :: pieces)

/-- By induction on what is left of the text: the characters before it tell the offset. -/
lemma cuts_from {budget : Nat} (hbudget : 6 ≤ budget) {text : String} (before chars : List Char)
    (h : text.toList = before ++ chars) :
    Cuts budget text (utf8Length before) (pieces budget chars) := by
  have hlength : utf8Length text.toList = utf8Length before + utf8Length chars := by
    rw [h, utf8Length_append]
  fun_induction pieces budget chars generalizing before with
  | case1 chars rest hsplit =>
    have hnone : chars = [] := eq_nil_of_splitFitting hbudget (by rw [hsplit])
    refine .done ?_
    rw [hlength, hnone]
    exact Nat.le_refl _
  | case2 chars c first rest hsplit _ ih =>
    have happend : c :: first ++ rest = chars := by
      have happend := splitFitting_append budget [] chars
      rwa [hsplit] at happend
    have htext : text.toList = before ++ (c :: first ++ rest) := by rw [h, happend]
    have hbytes : utf8Length chars = utf8Length (c :: first) + utf8Length rest := by
      rw [← happend, utf8Length_append]
    have hpos := utf8Length_pos (List.cons_ne_nil c first)
    have hleft : slice text (utf8Length before) (utf8Length text.toList) = chars := by
      have hwhole : text.toList = before ++ (chars ++ []) := by rw [h, List.append_nil]
      rw [hlength]
      exact slice_append hwhole
    have hstop : utf8Length before + utf8Length (c :: first) =
        fittingStop text (utf8Length before) (utf8Length text.toList) budget := by
      rw [fittingStop, hleft, fitting, hsplit]
    have hrest := ih (before ++ c :: first) (by rw [htext, List.append_assoc])
      (by rw [hlength, hbytes, utf8Length_append]; omega)
    rw [utf8Length_append] at hrest
    have hturn := Cuts.turn (by omega) hstop (by omega) hrest
    rwa [slice_append htext] at hturn

/-- The loop comes to the end of every text. -/
theorem cuts_pieces {budget : Nat} (hbudget : 6 ≤ budget) (text : String) :
    Cuts budget text 0 (pieces budget text.toList) := cuts_from hbudget [] text.toList rfl

end Offsets

end ClassAssembly.ModifiedUtf8
