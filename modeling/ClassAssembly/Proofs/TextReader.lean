import ClassAssembly.Text.ModifiedUtf8
import ClassAssembly.Proofs.StepLaws

/-! Reading modified UTF-8: bytes spell sixteen-bit units in forms of one, two and three bytes, and
units spell characters, a pair of surrogates a supplementary one. Reading undoes writing. -/
namespace ClassAssembly.ModifiedUtf8

/-- The units that some bytes spell. A zero byte starts no form, nor does one above `0xEF`. -/
def readUnits : Bytes → Option (List Nat)
  | [] => some []
  | a :: rest =>
    if 0 < a.toNat ∧ a.toNat < 0x80 then (readUnits rest).map (a.toNat :: ·)
    else
      match rest with
      | [] => none
      | b :: rest =>
        if 0xC0 ≤ a.toNat ∧ a.toNat < 0xE0 then
          (readUnits rest).map ((a.toNat % 32 * 64 + b.toNat % 64) :: ·)
        else
          match rest with
          | [] => none
          | c :: rest =>
            if 0xE0 ≤ a.toNat ∧ a.toNat < 0xF0 then
              (readUnits rest).map
                ((a.toNat % 16 * 4096 + b.toNat % 64 * 64 + c.toNat % 64) :: ·)
            else none

/-- The characters that some units spell. A surrogate that stands alone spells none. -/
def joinUnits : List Nat → Option (List Char)
  | [] => some []
  | u :: rest =>
    if u < 0xD800 ∨ 0xE000 ≤ u then (joinUnits rest).map (Char.ofNat u :: ·)
    else
      match rest with
      | [] => none
      | v :: rest =>
        if u < 0xDC00 ∧ 0xDC00 ≤ v ∧ v < 0xE000 then
          (joinUnits rest).map
            (Char.ofNat (0x10000 + (u - 0xD800) * 1024 + (v - 0xDC00)) :: ·)
        else none

/-- The text that some bytes spell. -/
def decode (bytes : Bytes) : Option String :=
  ((readUnits bytes).bind joinUnits).map String.ofList

/-- The units of a character: its code, or two surrogates. -/
def charUnits (c : Char) : List Nat :=
  if c.toNat ≤ 0xFFFF then [c.toNat]
  else [0xD800 + (c.toNat - 0x10000) / 1024, 0xDC00 + (c.toNat - 0x10000) % 1024]

lemma toNat_lt (c : Char) : c.toNat < 0x110000 := by
  have := c.valid
  unfold UInt32.isValidChar Nat.isValidChar at this
  unfold Char.toNat
  omega

lemma not_surrogate (c : Char) : c.toNat < 0xD800 ∨ 0xE000 ≤ c.toNat := by
  have := c.valid
  unfold UInt32.isValidChar Nat.isValidChar at this
  unfold Char.toNat
  omega

lemma readUnits_one {code : Nat} (h : 0 < code ∧ code ≤ 0x7F) (rest : Bytes) :
    readUnits (UInt8.ofNat code :: rest) = (readUnits rest).map (code :: ·) := by
  have ha : (UInt8.ofNat code).toNat = code := by
    rw [UInt8.toNat_ofNat']
    omega
  rw [readUnits.eq_def]
  simp only [ha]
  rw [if_pos (by omega)]

lemma readUnits_two {code : Nat} (h : code ≤ 0x7FF) (rest : Bytes) :
    readUnits (UInt8.ofNat (0xC0 + code / 64) :: UInt8.ofNat (0x80 + code % 64) :: rest) =
      (readUnits rest).map (code :: ·) := by
  have ha : (UInt8.ofNat (0xC0 + code / 64)).toNat = 0xC0 + code / 64 := by
    rw [UInt8.toNat_ofNat']
    omega
  have hb : (UInt8.ofNat (0x80 + code % 64)).toNat = 0x80 + code % 64 := by
    rw [UInt8.toNat_ofNat']
    omega
  have hcode : (0xC0 + code / 64) % 32 * 64 + (0x80 + code % 64) % 64 = code := by omega
  rw [readUnits.eq_def]
  simp only [ha, hb, hcode]
  rw [if_neg (by omega), if_pos (by omega)]

lemma readUnits_encodeUnit {unit : Nat} (h : unit ≤ 0xFFFF) (rest : Bytes) :
    readUnits (encodeUnit unit ++ rest) = (readUnits rest).map (unit :: ·) := by
  have ha : (UInt8.ofNat (0xE0 + unit / 4096)).toNat = 0xE0 + unit / 4096 := by
    rw [UInt8.toNat_ofNat']
    omega
  have hb : (UInt8.ofNat (0x80 + unit / 64 % 64)).toNat = 0x80 + unit / 64 % 64 := by
    rw [UInt8.toNat_ofNat']
    omega
  have hc : (UInt8.ofNat (0x80 + unit % 64)).toNat = 0x80 + unit % 64 := by
    rw [UInt8.toNat_ofNat']
    omega
  have hunit : (0xE0 + unit / 4096) % 16 * 4096 + (0x80 + unit / 64 % 64) % 64 * 64 +
      (0x80 + unit % 64) % 64 = unit := by omega
  rw [readUnits.eq_def]
  simp only [encodeUnit, List.cons_append, List.nil_append, ha, hb, hc, hunit]
  rw [if_neg (by omega), if_neg (by omega), if_pos (by omega)]

lemma readUnits_encodeChar (c : Char) (rest : Bytes) :
    readUnits (encodeChar c ++ rest) = (readUnits rest).map (charUnits c ++ ·) := by
  have hlt := toNat_lt c
  have hone (hle : c.toNat ≤ 0xFFFF) : charUnits c = [c.toNat] := if_pos hle
  simp only [encodeChar]
  split
  · rw [List.singleton_append, readUnits_one ‹_›, hone (by omega)]
    rfl
  · split
    · rw [List.cons_append, List.singleton_append, readUnits_two ‹_›, hone (by omega)]
      rfl
    · split
      · rw [readUnits_encodeUnit ‹_›, hone ‹_›]
        rfl
      · rename_i hpair
        have htwo : charUnits c = _ := if_neg hpair
        rw [List.append_assoc, readUnits_encodeUnit (by omega), readUnits_encodeUnit (by omega),
          Option.map_map, htwo]
        rfl

lemma readUnits_encode (chars : List Char) :
    readUnits (chars.flatMap encodeChar) = some (chars.flatMap charUnits) := by
  induction chars with
  | nil => rfl
  | cons c chars ih => simp [readUnits_encodeChar, ih]

lemma joinUnits_charUnits (c : Char) (rest : List Nat) :
    joinUnits (charUnits c ++ rest) = (joinUnits rest).map (c :: ·) := by
  have hlt := toNat_lt c
  unfold charUnits
  split
  · have hrange := not_surrogate c
    rw [List.singleton_append, joinUnits.eq_def]
    simp [hrange]
  · rename_i h
    have hvalue : 0x10000 + (0xD800 + (c.toNat - 0x10000) / 1024 - 0xD800) * 1024 +
        (0xDC00 + (c.toNat - 0x10000) % 1024 - 0xDC00) = c.toNat := by omega
    simp only [List.cons_append, List.nil_append, joinUnits, hvalue]
    rw [if_neg (by omega), if_pos (by omega), Char.ofNat_toNat]

lemma joinUnits_flatMap (chars : List Char) :
    joinUnits (chars.flatMap charUnits) = some chars := by
  induction chars with
  | nil => rfl
  | cons c chars ih => simp [joinUnits_charUnits, ih]

@[simp] lemma decode_encode (text : String) : decode (encode text) = some text := by
  simp [decode, encode, readUnits_encode, joinUnits_flatMap]

/-- A byte that can stand in an encoding: it is not zero, and starts no form of four bytes. -/
def Legal (byte : UInt8) : Prop := byte ≠ 0 ∧ byte < 0xF0

lemma legal_ofNat {value : Nat} (hpos : 0 < value) (hlt : value < 0xF0) :
    Legal (UInt8.ofNat value) := by
  have hvalue : (UInt8.ofNat value).toNat = value := by
    rw [UInt8.toNat_ofNat']
    omega
  constructor
  · intro hzero
    rw [hzero] at hvalue
    exact absurd hvalue (Nat.ne_of_lt hpos)
  · rw [UInt8.lt_iff_toNat_lt, hvalue]
    exact hlt

lemma legal_encodeUnit {unit : Nat} (h : unit ≤ 0xFFFF) : ∀ byte ∈ encodeUnit unit, Legal byte := by
  simp only [encodeUnit, List.forall_mem_cons]
  exact ⟨legal_ofNat (by omega) (by omega), legal_ofNat (by omega) (by omega),
    legal_ofNat (by omega) (by omega), by simp⟩

lemma legal_encodeChar (c : Char) : ∀ byte ∈ encodeChar c, Legal byte := by
  have hlt := toNat_lt c
  simp only [encodeChar]
  split
  · rw [List.forall_mem_singleton]
    exact legal_ofNat (by omega) (by omega)
  · split
    · rw [List.forall_mem_cons, List.forall_mem_singleton]
      exact ⟨legal_ofNat (by omega) (by omega), legal_ofNat (by omega) (by omega)⟩
    · split
      · exact legal_encodeUnit ‹_›
      · rw [List.forall_mem_append]
        exact ⟨legal_encodeUnit (by omega), legal_encodeUnit (by omega)⟩

/-- An encoding has the length that is told without making it, no byte that is zero or above `0xEF`,
and decodes to the text; so no two texts have the same. -/
theorem encode_reversible :
    (∀ text, (encode text).length = length text ∧ (∀ byte ∈ encode text, byte ≠ 0 ∧ byte < 0xF0) ∧
      decode (encode text) = some text) ∧
    Function.Injective encode := by
  refine ⟨fun text => ⟨length_encode text, fun byte hbyte => ?_, decode_encode text⟩,
    fun text other heq => ?_⟩
  · obtain ⟨c, _, hc⟩ := List.mem_flatMap.mp hbyte
    exact legal_encodeChar c byte hc
  · have hdecode := congrArg decode heq
    rw [decode_encode, decode_encode] at hdecode
    exact Option.some.inj hdecode

end ClassAssembly.ModifiedUtf8
