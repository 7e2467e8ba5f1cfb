import ClassAssembly.Frame.Compact
import ClassAssembly.Proofs.StepLaws

/-! Reading a stack map table by the rules of the class file format, and that this undoes writing
one. -/
namespace ClassAssembly

def Bytes.readU2 : Bytes → Option (UInt16 × Bytes)
  | high :: low :: rest => some (UInt16.ofNat (high.toNat * 256 + low.toNat), rest)
  | _ => none

lemma Bytes.readU2_append (v : UInt16) (rest : Bytes) : readU2 (u2 v ++ rest) = some (v, rest) := by
  have hv := v.toNat_lt
  have hvalue : UInt16.ofNat (v.toNat / 256 % 256 * 256 + v.toNat % 256) = v := by
    apply UInt16.toNat_inj.mp
    rw [UInt16.toNat_ofNat']
    omega
  simp [u2, bigEndian, readU2, hvalue]

lemma Bytes.readU2_count {n : Nat} {bytes : Bytes} (h : count n = .ok bytes) (rest : Bytes) :
    ∃ v : UInt16, v.toNat = n ∧ readU2 (bytes ++ rest) = some (v, rest) := by
  unfold count at h
  split at h
  · rename_i hle
    cases h
    have hn : (UInt16.ofNat n).toNat = n := by
      rw [UInt16.toNat_ofNat']
      omega
    refine ⟨UInt16.ofNat n, hn, ?_⟩
    have happend := readU2_append (UInt16.ofNat n) rest
    rwa [u2, hn] at happend
  · cases h

namespace VerificationType

/-- Reads one type, and gives the bytes after it. -/
def read : Bytes → Option (VerificationType × Bytes)
  | 0 :: rest => some (top, rest)
  | 1 :: rest => some (integer, rest)
  | 2 :: rest => some (float, rest)
  | 3 :: rest => some (double, rest)
  | 4 :: rest => some (long, rest)
  | 5 :: rest => some (null, rest)
  | 6 :: rest => some (uninitializedThis, rest)
  | 7 :: rest => (Bytes.readU2 rest).map fun (index, rest) => (object index, rest)
  | 8 :: rest => (Bytes.readU2 rest).map fun (site, rest) => (uninitialized site, rest)
  | _ => none

/-- Reads so many types, one after the other. -/
def readEach : Nat → Bytes → Option (List VerificationType × Bytes)
  | 0, bytes => some ([], bytes)
  | n + 1, bytes => do
    let (t, rest) ← read bytes
    let (types, rest) ← readEach n rest
    return (t :: types, rest)

@[simp] lemma read_encode (t : VerificationType) (rest : Bytes) :
    read (t.encode ++ rest) = some (t, rest) := by
  cases t <;> simp [encode, read, Bytes.readU2_append]

@[simp] lemma readEach_encode (types : List VerificationType) (rest : Bytes) :
    readEach types.length (types.flatMap encode ++ rest) = some (types, rest) := by
  induction types with
  | nil => rfl
  | cons t types ih => simp [readEach, ih]

/-- Reads a counted list of types. -/
def readTable (bytes : Bytes) : Option (List VerificationType × Bytes) := do
  let (count, rest) ← Bytes.readU2 bytes
  readEach count.toNat rest

lemma readTable_append {types : List VerificationType} {bytes : Bytes}
    (h : Bytes.table encode types = .ok bytes) (rest : Bytes) :
    readTable (bytes ++ rest) = some (types, rest) := by
  obtain ⟨size, hsize, heq⟩ := Except.bind_eq_ok.mp h
  cases heq
  obtain ⟨v, hv, hread⟩ := Bytes.readU2_count hsize (types.flatMap encode ++ rest)
  simp [readTable, hread, hv]

end VerificationType

namespace StackMapEntry

/-- Reads one entry. The tags from 128 to 246 are reserved. -/
def read : Bytes → Option (StackMapEntry × Bytes)
  | [] => none
  | tag :: rest =>
    if tag ≤ 63 then some (.same tag.toUInt16, rest)
    else if tag ≤ 127 then do
      let (value, rest) ← VerificationType.read rest
      return (.oneStack (tag - 64).toUInt16 value, rest)
    else if tag ≤ 246 then none
    else do
      let (delta, rest) ← Bytes.readU2 rest
      if tag = 247 then
        let (value, rest) ← VerificationType.read rest
        return (.oneStack delta value, rest)
      else if tag ≤ 250 then return (.chop delta (251 - tag), rest)
      else if tag = 251 then return (.same delta, rest)
      else if tag ≤ 254 then
        let (locals, rest) ← VerificationType.readEach (tag - 251).toNat rest
        return (.append delta locals, rest)
      else
        let (locals, rest) ← VerificationType.readTable rest
        let (stack, rest) ← VerificationType.readTable rest
        return (.full delta locals stack, rest)

/-- The tag of the entry is that of its kind. -/
def Tagged : StackMapEntry → Prop
  | chop _ count => count = 1 ∨ count = 2 ∨ count = 3
  | append _ locals => locals.length = 1 ∨ locals.length = 2 ∨ locals.length = 3
  | _ => True

/-- A short distance fits into the tag of an entry without a stack. -/
lemma short_tag {delta : UInt16} (h : delta ≤ 63) :
    delta.toUInt8 ≤ 63 ∧ delta.toUInt8.toUInt16 = delta := by
  rw [UInt16.le_iff_toNat_le] at h
  have hmod : delta.toNat % 256 = delta.toNat := Nat.mod_eq_of_lt (Nat.lt_of_le_of_lt h (by decide))
  rw [UInt8.le_iff_toNat_le, ← UInt16.toNat_inj, UInt8.toNat_toUInt16, UInt16.toNat_toUInt8, hmod]
  exact ⟨h, rfl⟩

/-- A short distance fits into the tag of an entry with one value on the stack. -/
lemma short_stack_tag {delta : UInt16} (h : delta ≤ 63) :
    ¬delta.toUInt8 + 64 ≤ 63 ∧ delta.toUInt8 + 64 ≤ 127 := by
  have hle := (short_tag h).1
  rw [UInt8.le_iff_toNat_le] at hle
  have hadd : (delta.toUInt8 + 64).toNat = delta.toUInt8.toNat + 64 := by
    rw [UInt8.toNat_add]
    exact Nat.mod_eq_of_lt (Nat.lt_of_le_of_lt (Nat.add_le_add_right hle 64) (by decide))
  rw [UInt8.le_iff_toNat_le, UInt8.le_iff_toNat_le, hadd]
  exact ⟨by simp, Nat.add_le_add_right hle 64⟩

lemma read_encode {entry : StackMapEntry} {bytes : Bytes} (htagged : entry.Tagged)
    (h : entry.encode = .ok bytes) (rest : Bytes) : read (bytes ++ rest) = some (entry, rest) := by
  cases entry with
  | same delta =>
    cases h
    by_cases hshort : delta ≤ 63
    · obtain ⟨htag, hdelta⟩ := short_tag hshort
      simp [read, hshort, htag, hdelta]
    · simp [read, hshort, Bytes.readU2_append]
  | oneStack delta value =>
    cases h
    by_cases hshort : delta ≤ 63
    · obtain ⟨hlong, htag⟩ := short_stack_tag hshort
      simp [read, hshort, hlong, htag, (short_tag hshort).2]
    · simp [read, hshort, Bytes.readU2_append]
  | chop delta count =>
    cases h
    rcases htagged with rfl | rfl | rfl <;> simp [read, Bytes.readU2_append]
  | append delta locals =>
    cases h
    have heach := VerificationType.readEach_encode locals rest
    rcases htagged with hlength | hlength | hlength <;> rw [hlength] at heach <;>
      simp [read, Bytes.readU2_append, hlength, heach]
  | full delta locals stack =>
    obtain ⟨locals', hlocals, h₁⟩ := Except.bind_eq_ok.mp h
    obtain ⟨stack', hstack, h₂⟩ := Except.bind_eq_ok.mp h₁
    cases h₂
    simp [read, Bytes.readU2_append, VerificationType.readTable_append hlocals,
      VerificationType.readTable_append hstack]

/-- The frame that an entry describes, if the frame before it has these local variables. -/
def apply (locals : List VerificationType) : StackMapEntry → Option CompactFrame
  | same _ => some ⟨locals, []⟩
  | oneStack _ value => some ⟨locals, [value]⟩
  | chop _ count =>
    if count.toNat ≤ locals.length then some ⟨locals.take (locals.length - count.toNat), []⟩
    else none
  | append _ added => some ⟨locals ++ added, []⟩
  | full _ locals stack => some ⟨locals, stack⟩

/-- The entry says that this frame comes after the one before at this distance. -/
structure Describes (locals : List VerificationType) (delta : UInt16) (frame : CompactFrame)
    (entry : StackMapEntry) : Prop where
  tagged : entry.Tagged
  delta_eq : entry.delta = delta
  apply_eq : entry.apply locals = some frame

end StackMapEntry

namespace CompactFrame

lemma describes_fullEntry (frame : CompactFrame) (locals : List VerificationType) (delta : UInt16) :
    (frame.fullEntry delta).Describes locals delta frame :=
  ⟨trivial, rfl, rfl⟩

lemma describes_chop {locals before : List VerificationType} (delta : UInt16)
    (hlocals : locals <+: before) (hpos : before.length - locals.length ≠ 0)
    (hlt : before.length - locals.length < 4) :
    (StackMapEntry.chop delta (UInt8.ofNat (before.length - locals.length))).Describes before delta
      ⟨locals, []⟩ := by
  have hle := hlocals.length_le
  have htake := List.prefix_iff_eq_take.mp hlocals
  have hcount : (UInt8.ofNat (before.length - locals.length)).toNat =
      before.length - locals.length := by
    rw [UInt8.toNat_ofNat']
    omega
  refine ⟨?_, rfl, ?_⟩
  · obtain hgone | hgone | hgone : before.length - locals.length = 1 ∨
        before.length - locals.length = 2 ∨ before.length - locals.length = 3 := by omega
    · exact Or.inl (by rw [hgone]; rfl)
    · exact Or.inr (Or.inl (by rw [hgone]; rfl))
    · exact Or.inr (Or.inr (by rw [hgone]; rfl))
  · simp only [StackMapEntry.apply, hcount]
    rw [if_pos (Nat.sub_le _ _), Nat.sub_sub_self hle, ← htake]

lemma describes_append {locals before : List VerificationType} (delta : UInt16)
    (hlocals : before <+: locals) (hpos : ¬locals.length ≤ before.length)
    (hlt : locals.length - before.length < 4) :
    (StackMapEntry.append delta (locals.drop before.length)).Describes before delta
      ⟨locals, []⟩ := by
  refine ⟨?_, rfl, ?_⟩
  · simp only [StackMapEntry.Tagged, List.length_drop]
    omega
  · obtain ⟨added, rfl⟩ := hlocals
    simp [StackMapEntry.apply]

/-- The entry chosen for a frame describes it. -/
theorem describes_entry (frame previous : CompactFrame) (delta : UInt16) :
    (frame.entry previous delta).Describes previous.locals delta frame := by
  have hfull := frame.describes_fullEntry previous.locals delta
  obtain ⟨locals, stack⟩ := frame
  simp only [entry]
  split
  · split
    · split
      · rename_i hsame
        simp only [Bool.and_eq_true, decide_eq_true_eq, List.isPrefixOf_iff_prefix] at hsame
        split
        · rename_i hle _ hzero
          have hlocals := hsame.2.eq_of_length (by omega)
          exact ⟨trivial, rfl, by rw [StackMapEntry.apply, hlocals]⟩
        · rename_i hpos
          exact describes_chop delta hsame.2 hpos hsame.1
      · exact hfull
    · split
      · rename_i hlt hmore
        simp only [Bool.and_eq_true, decide_eq_true_eq, List.isPrefixOf_iff_prefix] at hmore
        exact describes_append delta hmore.2 hlt hmore.1
      · exact hfull
  · rename_i value
    split
    · rename_i hlocals
      exact ⟨trivial, rfl, by rw [StackMapEntry.apply, eq_of_beq hlocals]⟩
    · exact hfull
  · exact hfull

end CompactFrame

namespace StackMapTable

/-- The first offset is given as it is, and each later one by the distance from the offset after that
of the frame before. -/
def offsetAfter : Option Nat → Nat → Nat
  | none, delta => delta
  | some previous, delta => previous + delta + 1

/-- Reads so many frames, one after the other. -/
def readFrames : Nat → Option Nat → List VerificationType → Bytes →
    Option (List (Nat × CompactFrame) × Bytes)
  | 0, _, _, bytes => some ([], bytes)
  | n + 1, previous, locals, bytes => do
    let (entry, rest) ← StackMapEntry.read bytes
    let frame ← entry.apply locals
    let offset := offsetAfter previous entry.delta.toNat
    let (frames, rest) ← readFrames n (some offset) frame.locals rest
    return ((offset, frame) :: frames, rest)

/-- Reads a whole table, given the local variables at the start of the method. -/
def read (initial : List VerificationType) (bytes : Bytes) : Option (List (Nat × CompactFrame)) := do
  let (count, rest) ← Bytes.readU2 bytes
  let (frames, rest) ← readFrames count.toNat none initial rest
  if rest = [] then some frames else none

end StackMapTable
end ClassAssembly
