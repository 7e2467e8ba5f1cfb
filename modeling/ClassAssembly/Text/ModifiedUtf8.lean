import ClassAssembly.Bytes

/-! Modified UTF-8. The character U+0000 takes two bytes, so that no byte is zero, and a
supplementary character is written as a pair of surrogates of three bytes each. -/
namespace ClassAssembly.ModifiedUtf8

/-- Three-byte form of a sixteen-bit unit. -/
def encodeUnit (unit : Nat) : Bytes :=
  [UInt8.ofNat (0xE0 + unit / 4096), UInt8.ofNat (0x80 + unit / 64 % 64),
    UInt8.ofNat (0x80 + unit % 64)]

def encodeChar (c : Char) : Bytes :=
  let code := c.toNat
  if 0 < code ∧ code ≤ 0x7F then [UInt8.ofNat code]
  else if code ≤ 0x7FF then [UInt8.ofNat (0xC0 + code / 64), UInt8.ofNat (0x80 + code % 64)]
  else if code ≤ 0xFFFF then encodeUnit code
  else
    encodeUnit (0xD800 + (code - 0x10000) / 1024) ++ encodeUnit (0xDC00 + (code - 0x10000) % 1024)

/-- Number of bytes of a character's encoding. -/
def charLength (c : Char) : Nat :=
  let code := c.toNat
  if code = 0 then 2
  else if code ≤ 0x7F then 1
  else if code ≤ 0x7FF then 2
  else if code ≤ 0xFFFF then 3
  else 6

def encode (text : String) : Bytes := text.toList.flatMap encodeChar

/-- Number of bytes of the encoding of some characters. -/
def lengthOf (chars : List Char) : Nat := chars.foldl (fun n c => n + charLength c) 0

/-- Number of bytes of a text's encoding. -/
def length (text : String) : Nat := lengthOf text.toList

theorem length_encodeChar (c : Char) : (encodeChar c).length = charLength c := by
  simp only [encodeChar, charLength]
  by_cases zero : c.toNat = 0
  · simp [zero]
  · have : 0 < c.toNat := Nat.pos_of_ne_zero zero
    simp only [this, true_and, zero, if_false]
    split
    · rfl
    · split
      · rfl
      · split <;> rfl

theorem length_encode (text : String) : (encode text).length = length text := by
  have acc (chars : List Char) (n : Nat) :
      chars.foldl (fun n c => n + charLength c) n = n + (chars.flatMap encodeChar).length := by
    induction chars generalizing n with
    | nil => rfl
    | cons c rest ih =>
      simp only [List.foldl_cons, ih, List.flatMap_cons, List.length_append, length_encodeChar]
      omega
  rw [length, lengthOf, acc, Nat.zero_add, encode]

/-- Splits off the longest run of leading characters whose encoding suits in `budget` bytes. -/
def splitFitting : Nat → List Char → List Char → List Char × List Char
  | _, taken, [] => (taken.reverse, [])
  | budget, taken, c :: rest =>
    if charLength c ≤ budget then splitFitting (budget - charLength c) (c :: taken) rest
    else (taken.reverse, c :: rest)

/-- The longest run of leading characters whose encoding suits in `budget` bytes. -/
def fitting (budget : Nat) (chars : List Char) : List Char := (splitFitting budget [] chars).1

/-- Number of bytes of some characters in plain UTF-8. -/
def utf8Length (chars : List Char) : Nat := chars.foldl (fun n c => n + c.utf8Size) 0

/-- The characters from a byte offset of the plain UTF-8 form. -/
def dropBytes : Nat → List Char → List Char
  | 0, chars => chars
  | _, [] => []
  | n, c :: rest => dropBytes (n - c.utf8Size) rest

/-- The characters before a byte offset of the plain UTF-8 form. -/
def takeBytes : Nat → List Char → List Char → List Char
  | 0, taken, _ => taken.reverse
  | _, taken, [] => taken.reverse
  | n, taken, c :: rest => takeBytes (n - c.utf8Size) (c :: taken) rest

/-- The part of a text between two byte offsets of its plain UTF-8 form. -/
def slice (text : String) (start stop : Nat) : List Char :=
  takeBytes (stop - start) [] (dropBytes start text.toList)

/-- The largest offset from `start` up to `stop` such that the text from `start` to it has an
encoding of at most `budget` bytes. Offsets count the bytes of the plain UTF-8 form. -/
def fittingStop (text : String) (start stop budget : Nat) : Nat :=
  start + utf8Length (fitting budget (slice text start stop))

/-- Nothing is lost. -/
theorem splitFitting_append (budget : Nat) (taken chars : List Char) :
    (splitFitting budget taken chars).1 ++ (splitFitting budget taken chars).2
      = taken.reverse ++ chars := by
  induction chars generalizing budget taken with
  | nil => simp [splitFitting]
  | cons c rest ih =>
    simp only [splitFitting]
    split
    · simp [ih]
    · rfl

/-- Consecutive pieces of a text, each the longest that suits in `budget` bytes. A budget of six
bytes admits every character; with less, the pieces end before the first that does not fit. -/
def pieces (budget : Nat) (chars : List Char) : List (List Char) :=
  match h : splitFitting budget [] chars with
  | ([], _) => []
  | (c :: piece, rest) =>
    have : rest.length < chars.length := by
      have append := congrArg List.length (splitFitting_append budget [] chars)
      rw [h] at append
      simp only [List.length_append, List.length_cons, List.reverse_nil, List.nil_append] at append
      omega
    (c :: piece) :: pieces budget rest
termination_by chars.length

end ClassAssembly.ModifiedUtf8
