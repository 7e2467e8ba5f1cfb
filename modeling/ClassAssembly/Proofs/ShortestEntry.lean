import ClassAssembly.Proofs.StackMapReader

/-! The entry chosen for a frame is the shortest that describes it. At most one entry beside the full
one describes a frame after another, and wherever there is one it is chosen. -/
namespace ClassAssembly

namespace Bytes

@[simp] lemma length_u2 (v : UInt16) : (u2 v).length = 2 := length_bigEndian _ _

lemma length_table {α : Type} {encode : α → Bytes} {entries : List α} {bytes : Bytes}
    (h : table encode entries = .ok bytes) :
    bytes.length = 2 + (entries.flatMap encode).length := by
  obtain ⟨size, hsize, heq⟩ := Except.bind_eq_ok.mp h
  cases heq
  unfold count at hsize
  split at hsize
  · cases hsize
    simp
  · cases hsize

end Bytes

namespace StackMapEntry

/-- Wherever the other entry can be written, this one can, in at most as many bytes. -/
def NoLonger (entry other : StackMapEntry) : Prop :=
  ∀ bytes, other.encode = .ok bytes →
    ∃ shorter, entry.encode = .ok shorter ∧ shorter.length ≤ bytes.length

lemma NoLonger.refl (entry : StackMapEntry) : entry.NoLonger entry :=
  fun bytes h => ⟨bytes, h, Nat.le_refl _⟩

/-- A full entry repeats all types. -/
lemma length_full {delta : UInt16} {locals stack : List VerificationType} {bytes : Bytes}
    (h : (full delta locals stack).encode = .ok bytes) :
    bytes.length = 7 + (locals.flatMap VerificationType.encode).length +
      (stack.flatMap VerificationType.encode).length := by
  obtain ⟨locals', hlocals, h⟩ := Except.bind_eq_ok.mp h
  obtain ⟨stack', hstack, heq⟩ := Except.bind_eq_ok.mp h
  cases heq
  simp only [List.length_cons, List.length_append, Bytes.length_u2, Bytes.length_table hlocals,
    Bytes.length_table hstack]
  omega

variable {before : List VerificationType} {delta : UInt16} {frame : CompactFrame}
  {entry : StackMapEntry}

/-- No entry that describes a frame is longer than the full one. -/
lemma Describes.noLonger_full (h : entry.Describes before delta frame) :
    entry.NoLonger (frame.fullEntry delta) := by
  intro bytes hbytes
  have hfull := length_full hbytes
  obtain ⟨_, rfl, happly⟩ := h
  cases entry with
  | same delta =>
    refine ⟨_, rfl, ?_⟩
    split <;> simp <;> omega
  | oneStack delta value =>
    cases happly
    refine ⟨_, rfl, ?_⟩
    rw [List.flatMap_singleton] at hfull
    split <;> simp <;> omega
  | chop delta count =>
    refine ⟨_, rfl, ?_⟩
    simp only [List.length_cons, Bytes.length_u2]
    omega
  | append delta added =>
    cases happly
    refine ⟨_, rfl, ?_⟩
    rw [List.flatMap_append, List.length_append] at hfull
    simp only [List.length_append, List.length_cons, Bytes.length_u2]
    omega
  | full delta locals stack =>
    cases happly
    exact ⟨bytes, hbytes, Nat.le_refl _⟩

end StackMapEntry

namespace CompactFrame

variable {frame previous : CompactFrame} {delta : UInt16} {other : StackMapEntry}

/-- One to three locals fewer are chopped off. -/
lemma entry_eq_chop {locals : List VerificationType} (delta : UInt16)
    (hlocals : locals <+: previous.locals) (hpos : previous.locals.length - locals.length ≠ 0)
    (hlt : previous.locals.length - locals.length < 4) :
    entry ⟨locals, []⟩ previous delta =
      .chop delta (UInt8.ofNat (previous.locals.length - locals.length)) := by
  simp only [entry]
  rw [if_pos hlocals.length_le, if_pos, if_neg hpos]
  simp [hlt, hlocals]

/-- One to three more locals are appended. -/
lemma entry_eq_append {added : List VerificationType} (delta : UInt16) (hpos : added.length ≠ 0)
    (hlt : added.length < 4) :
    entry ⟨previous.locals ++ added, []⟩ previous delta = .append delta added := by
  simp only [entry, List.length_append]
  rw [if_neg (by omega), if_pos, List.drop_left]
  simp [hlt]

/-- An entry that describes the frame is the chosen one, unless it is the full one. -/
lemma eq_entry_or_full (h : other.Describes previous.locals delta frame) :
    other = frame.entry previous delta ∨ other = frame.fullEntry delta := by
  obtain ⟨htagged, rfl, happly⟩ := h
  cases other with
  | same delta =>
    cases happly
    exact Or.inl (by simp [entry, StackMapEntry.delta])
  | oneStack delta value =>
    cases happly
    exact Or.inl (by simp [entry, StackMapEntry.delta])
  | chop delta count =>
    rw [StackMapEntry.apply] at happly
    split at happly
    · rename_i hle
      cases happly
      have hcount : 0 < count.toNat ∧ count.toNat < 4 := by
        rcases htagged with rfl | rfl | rfl <;> decide
      have hgone : previous.locals.length -
          (previous.locals.take (previous.locals.length - count.toNat)).length = count.toNat := by
        rw [List.length_take]
        omega
      left
      rw [entry_eq_chop _ (List.take_prefix _ _) (by omega) (by omega), hgone, UInt8.ofNat_toNat]
      rfl
    · cases happly
  | append delta added =>
    cases happly
    have hadded : added.length ≠ 0 ∧ added.length < 4 := by
      rcases htagged with h | h | h <;> omega
    exact Or.inl (entry_eq_append delta hadded.1 hadded.2).symm
  | full delta locals stack =>
    cases happly
    exact Or.inr rfl

/-- The chosen entry describes the frame, is the shortest entry that does, and is a full one only if
there is no other. -/
theorem entry_shortest (frame previous : CompactFrame) (delta : UInt16) :
    (frame.entry previous delta).Describes previous.locals delta frame ∧
    ∀ other : StackMapEntry, other.Describes previous.locals delta frame →
      (frame.entry previous delta).NoLonger other ∧
      ∀ locals stack, frame.entry previous delta = .full delta locals stack →
        other = .full delta locals stack := by
  have hchosen := describes_entry frame previous delta
  refine ⟨hchosen, fun other hother => ?_⟩
  rcases eq_entry_or_full hother with rfl | rfl
  · exact ⟨.refl _, fun _ _ h => h⟩
  · refine ⟨hchosen.noLonger_full, fun locals stack heq => ?_⟩
    have happly := hchosen.apply_eq
    rw [heq] at happly
    cases happly
    rfl

end CompactFrame
end ClassAssembly
