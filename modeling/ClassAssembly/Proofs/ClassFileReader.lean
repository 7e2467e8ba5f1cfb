import ClassAssembly.ClassFile.Basic
import ClassAssembly.Proofs.Interning
import ClassAssembly.Proofs.StackMapReader
import ClassAssembly.Proofs.TextReader
import Mathlib.Tactic.Ring

/-! Reading a class file by the layout of its format. A reader takes what it needs from the front of
the bytes and gives the rest; it undoes the writer whatever comes behind. -/
namespace ClassAssembly

namespace Bytes

variable {α : Type}

/-- Takes so many bytes as they are. -/
def readBytes (n : Nat) (bytes : Bytes) : Option (Bytes × Bytes) :=
  if n ≤ bytes.length then some (bytes.take n, bytes.drop n) else none

/-- The number that the next `n` bytes spell. -/
def readNat (n : Nat) (bytes : Bytes) : Option (Nat × Bytes) :=
  (readBytes n bytes).map fun (word, rest) => (word.toNat, rest)

/-- Reads so many entries, one after the other. -/
def readEach (read : Bytes → Option (α × Bytes)) : Nat → Bytes → Option (List α × Bytes)
  | 0, bytes => some ([], bytes)
  | n + 1, bytes => do
    let (entry, rest) ← read bytes
    let (entries, rest) ← readEach read n rest
    return (entry :: entries, rest)

def readTable (read : Bytes → Option (α × Bytes)) (bytes : Bytes) : Option (List α × Bytes) := do
  let (count, rest) ← readU2 bytes
  readEach read count.toNat rest

@[simp] lemma readBytes_append (word rest : Bytes) :
    readBytes word.length (word ++ rest) = some (word, rest) := by
  simp [readBytes]

lemma foldl_bigEndian (n value before : Nat) :
    (bigEndian n value).foldl (fun value byte => value * 256 + byte.toNat) before =
      before * 256 ^ n + value % 256 ^ n := by
  induction n generalizing before with
  | zero => simp [bigEndian, Nat.mod_one]
  | succ n ih =>
    have hdigits : value % 256 ^ (n + 1) = value / 256 ^ n % 256 * 256 ^ n + value % 256 ^ n := by
      rw [pow_succ, Nat.mod_mul, Nat.mul_comm, Nat.add_comm]
    simp only [bigEndian, Nat.pow_eq, List.foldl_cons, ih, UInt8.toNat_ofNat', hdigits]
    ring

lemma readNat_bigEndian {n value : Nat} (h : value < 256 ^ n) (rest : Bytes) :
    readNat n (bigEndian n value ++ rest) = some (value, rest) := by
  have hread := readBytes_append (bigEndian n value) rest
  rw [length_bigEndian] at hread
  simp [readNat, hread, toNat, foldl_bigEndian, Nat.mod_eq_of_lt h]

@[simp] lemma readNat_u4 (value : UInt32) (rest : Bytes) :
    readNat 4 (u4 value ++ rest) = some (value.toNat, rest) :=
  readNat_bigEndian value.toNat_lt rest

@[simp] lemma readNat_u8 (value : UInt64) (rest : Bytes) :
    readNat 8 (u8 value ++ rest) = some (value.toNat, rest) :=
  readNat_bigEndian value.toNat_lt rest

section Tables

variable {read : Bytes → Option (α × Bytes)} {encode : α → Except TableOverflow Bytes}

lemma readEach_append {entries : List α} {parts : List Bytes}
    (hread : ∀ entry ∈ entries, ∀ part, encode entry = .ok part →
      ∀ rest, read (part ++ rest) = some (entry, rest))
    (h : List.Forall₂ (fun entry part => encode entry = .ok part) entries parts) (rest : Bytes) :
    readEach read entries.length (parts.flatten ++ rest) = some (entries, rest) := by
  induction h with
  | nil => rfl
  | cons hentry _ ih =>
    rw [List.forall_mem_cons] at hread
    simp [readEach, hread.1 _ hentry, ih hread.2]

lemma readTable_tableM {entries : List α} {bytes : Bytes}
    (hread : ∀ entry ∈ entries, ∀ part, encode entry = .ok part →
      ∀ rest, read (part ++ rest) = some (entry, rest))
    (h : tableM encode entries = .ok bytes) (rest : Bytes) :
    readTable read (bytes ++ rest) = some (entries, rest) := by
  obtain ⟨size, hsize, h⟩ := Except.bind_eq_ok.mp h
  obtain ⟨parts, hparts, h⟩ := Except.bind_eq_ok.mp h
  cases h
  obtain ⟨v, hv, hcount⟩ := readU2_count hsize (parts.flatten ++ rest)
  have heach := readEach_append hread (Except.forall₂_of_mapM hparts) rest
  rw [← hv] at heach
  simp [readTable, hcount, heach]

end Tables

lemma table_eq_tableM (encode : α → Bytes) (entries : List α) :
    table encode entries = tableM (fun entry => .ok (encode entry)) entries := by
  have hparts : entries.mapM (fun entry => (.ok (encode entry) : Except TableOverflow Bytes)) =
      .ok (entries.map encode) := List.mapM_pure
  simp [table, tableM, hparts, List.flatMap]
  rfl

lemma readTable_table {read : Bytes → Option (α × Bytes)} {encode : α → Bytes} {entries : List α}
    {bytes : Bytes}
    (hread : ∀ entry ∈ entries, ∀ rest, read (encode entry ++ rest) = some (entry, rest))
    (h : table encode entries = .ok bytes) (rest : Bytes) :
    readTable read (bytes ++ rest) = some (entries, rest) := by
  rw [table_eq_tableM] at h
  refine readTable_tableM ?_ h rest
  intro entry hentry part hpart
  cases hpart
  exact hread entry hentry

end Bytes

namespace OffsetTable

variable {β : Type} [Width β]

lemma eq_of_entries {s t : OffsetTable β} (first : s.first = t.first)
    (entries : s.entries = t.entries) (next : s.next = t.next) : s = t := by
  cases s
  cases t
  subst first entries next
  rfl

lemma first_foldl_push (t : OffsetTable β) (xs : List β) :
    (xs.foldl push t).first = t.first := by
  induction xs generalizing t with
  | nil => rfl
  | cons x xs ih => simpa [push] using ih (t.push x)

lemma extent_eq (t : OffsetTable β) : t.extent = t.first.toNat + (t.toList.map width).sum := by
  have hspan : ∀ entries : List (UInt64 × β),
      span entries = ((entries.map Prod.snd).map width).sum := by
    intro entries
    induction entries with
    | nil => rfl
    | cons entry rest ih => simp [span, ih]
  rw [extent, hspan, toList]

/-- Entries that lie end to end are what pushing their elements makes of them. -/
lemma foldl_push_of_tiled {t : OffsetTable β} {entries : List (UInt64 × β)} {stop : UInt64}
    (h : Tiled t.next entries stop) :
    ((entries.map Prod.snd).foldl push t).entries.toList = t.entries.toList ++ entries ∧
      ((entries.map Prod.snd).foldl push t).next = stop := by
  induction entries generalizing t with
  | nil => exact ⟨(List.append_nil _).symm, h⟩
  | cons entry rest ih =>
    obtain ⟨offset, x⟩ := entry
    obtain ⟨rfl, hrest⟩ := h
    obtain ⟨hentries, hnext⟩ := ih (t := t.push x) hrest
    refine ⟨?_, hnext⟩
    simpa [push] using hentries

/-- A table holds nothing but its elements in order and the offset of the first. -/
lemma foldl_push_toList (t : OffsetTable β) : t.toList.foldl push (empty t.first) = t := by
  obtain ⟨hentries, hnext⟩ := foldl_push_of_tiled (t := empty t.first) t.tiled
  apply eq_of_entries
  · exact first_foldl_push _ _
  · apply Array.toList_inj.mp
    simpa [empty, toList] using hentries
  · exact hnext

end OffsetTable

namespace Constant

/-- Reads one constant. -/
def read : Bytes → Option (Constant × Bytes)
  | [] => none
  | tag :: rest =>
    if tag = 1 then do
      let (length, rest) ← Bytes.readU2 rest
      let (word, rest) ← Bytes.readBytes length.toNat rest
      let text ← ModifiedUtf8.decode word
      return (utf8 text, rest)
    else if tag = 3 then do
      let (bits, rest) ← Bytes.readNat 4 rest
      return (integer (UInt32.ofNat bits).toInt32, rest)
    else if tag = 4 then do
      let (bits, rest) ← Bytes.readNat 4 rest
      return (float (UInt32.ofNat bits), rest)
    else if tag = 5 then do
      let (bits, rest) ← Bytes.readNat 8 rest
      return (long (UInt64.ofNat bits).toInt64, rest)
    else if tag = 6 then do
      let (bits, rest) ← Bytes.readNat 8 rest
      return (double (UInt64.ofNat bits), rest)
    else do
      let (first, rest) ← Bytes.readU2 rest
      if tag = 7 then return (classRef first, rest)
      else if tag = 8 then return (stringRef first, rest)
      else
        let (second, rest) ← Bytes.readU2 rest
        if tag = 9 then return (fieldRef first second, rest)
        else if tag = 10 then return (methodRef first second false, rest)
        else if tag = 11 then return (methodRef first second true, rest)
        else if tag = 12 then return (nameAndType first second, rest)
        else none

lemma read_encode {c : Constant} (h : c.textLength ≤ 65535) (rest : Bytes) :
    read (c.encode ++ rest) = some (c, rest) := by
  cases c with
  | utf8 text =>
    have hlength : (ModifiedUtf8.encode text).length ≤ 65535 := by
      rw [ModifiedUtf8.length_encode]
      exact h
    obtain ⟨length, hvalue, hread⟩ := Bytes.readU2_count (if_pos hlength)
      (ModifiedUtf8.encode text ++ rest)
    simp [encode, encodeBody, tag, read, Bytes.u1, hread, hvalue]
  | methodRef owner nameAndType interface =>
    cases interface <;> simp [encode, encodeBody, tag, read, Bytes.u1, Bytes.readU2_append]
  | _ =>
    simp [encode, encodeBody, tag, read, Bytes.u1, Bytes.readU2_append, -UInt32.toInt32_ofNat',
      -UInt64.toInt64_ofNat']

end Constant

namespace ConstantPool

lemma toNat_next_push {table : OffsetTable Constant} (h : table.next.toNat < 65536) (c : Constant) :
    (table.push c).next.toNat = table.next.toNat + width c := by
  have hlt := Nat.add_lt_add_of_lt_of_le h (width_le c)
  exact toNat_add_ofNat (Nat.lt_trans hlt (by decide))

/-- Reads constants until the indices up to `stop` are taken; one of the wide kinds takes two. -/
def readUpTo (stop : UInt16) (table : OffsetTable Constant) (bytes : Bytes) :
    Option (OffsetTable Constant × Bytes) :=
  if table.next.toNat < stop.toNat then
    match Constant.read bytes with
    | none => none
    | some (c, rest) => readUpTo stop (table.push c) rest
  else some (table, bytes)
termination_by stop.toNat - table.next.toNat
decreasing_by
  have := width_pos c
  have := stop.toNat_lt
  rw [toNat_next_push (by omega)]
  omega

def readTable (bytes : Bytes) : Option (OffsetTable Constant × Bytes) := do
  let (stop, rest) ← Bytes.readU2 bytes
  readUpTo stop (.empty 1) rest

lemma readUpTo_append {stop : UInt16} {constants : List Constant}
    (h : ∀ c ∈ constants, c.textLength ≤ 65535) {table : OffsetTable Constant}
    (hstop : stop.toNat = table.next.toNat + (constants.map width).sum) (rest : Bytes) :
    readUpTo stop table (constants.flatMap Constant.encode ++ rest) =
      some (constants.foldl .push table, rest) := by
  induction constants generalizing table with
  | nil =>
    have hend : ¬ table.next.toNat < stop.toNat := Nat.not_lt.mpr (Nat.le_of_eq hstop)
    rw [readUpTo, if_neg hend]
    rfl
  | cons c constants ih =>
    rw [List.forall_mem_cons] at h
    rw [List.map_cons, List.sum_cons] at hstop
    have hpos := width_pos c
    have hmax := stop.toNat_lt
    have hlt : table.next.toNat < 65536 := by omega
    have hnext := toNat_next_push hlt c
    rw [readUpTo, if_pos (by omega), List.flatMap_cons, List.append_assoc,
      Constant.read_encode h.1]
    exact ih h.2 (by omega)

lemma readTable_encode (pool : ConstantPool) {bytes : Bytes}
    (h : encode pool.entries = .ok bytes) (rest : Bytes) :
    readTable (bytes ++ rest) = some (pool.entries, rest) := by
  obtain ⟨size, hsize, h⟩ := Except.bind_eq_ok.mp h
  cases h
  have htext : ∀ c ∈ pool.entries.toList, c.textLength ≤ 65535 := by
    intro c hc
    obtain ⟨entry, hentry, rfl⟩ := List.mem_map.mp hc
    exact pool.text_le entry (Array.mem_toList_iff.mp hentry)
  have htable := pool.entries.foldl_push_toList
  rw [pool.first_eq] at htable
  obtain ⟨v, hv, hcount⟩ :=
    Bytes.readU2_count hsize (pool.entries.toList.flatMap Constant.encode ++ rest)
  have hextent := pool.entries.extent_eq
  rw [← pool.next_eq, pool.first_eq] at hextent
  have hstop : v.toNat = (OffsetTable.empty 1 : OffsetTable Constant).next.toNat +
      (pool.entries.toList.map width).sum := hv.trans hextent
  have hread := readUpTo_append htext hstop rest
  rw [htable] at hread
  simp [readTable, hcount, hread]

end ConstantPool

namespace Attribute

/-- Reads one attribute. -/
def read (bytes : Bytes) : Option (Attribute × Bytes) := do
  let (name, rest) ← Bytes.readU2 bytes
  let (length, rest) ← Bytes.readNat 4 rest
  let (info, rest) ← Bytes.readBytes length rest
  return (⟨name, info⟩, rest)

lemma read_encode {a : Attribute} (h : a.info.length < 2 ^ 32) (rest : Bytes) :
    read (a.encode ++ rest) = some (a, rest) := by
  have hlength := Bytes.readNat_bigEndian (n := 4) h (a.info ++ rest)
  simp [encode, read, Bytes.readU2_append, hlength]

lemma readTable_encodeAll {attributes : List Attribute} {bytes : Bytes}
    (hsized : ∀ a ∈ attributes, a.info.length < 2 ^ 32) (h : encodeAll attributes = .ok bytes)
    (rest : Bytes) : Bytes.readTable read (bytes ++ rest) = some (attributes, rest) :=
  Bytes.readTable_table (fun a ha => read_encode (hsized a ha)) h rest

end Attribute

namespace Member

variable {known : UInt16}

/-- Reads one field or method. -/
def read (bytes : Bytes) : Option (Member known × Bytes) := do
  let (bits, rest) ← Bytes.readU2 bytes
  let (name, rest) ← Bytes.readU2 rest
  let (descriptor, rest) ← Bytes.readU2 rest
  let (attributes, rest) ← Bytes.readTable Attribute.read rest
  return (⟨⟨bits⟩, name, descriptor, attributes⟩, rest)

lemma read_encode {m : Member known} {bytes : Bytes}
    (hsized : ∀ a ∈ m.attributes, a.info.length < 2 ^ 32) (h : m.encode = .ok bytes)
    (rest : Bytes) : read (bytes ++ rest) = some (m, rest) := by
  obtain ⟨attributes, hattributes, h⟩ := Except.bind_eq_ok.mp h
  cases h
  simp [read, AccessFlags.encode, Bytes.readU2_append,
    Attribute.readTable_encodeAll hsized hattributes]

end Member

namespace ClassFile

/-- Reads one class file, and gives the bytes after it. -/
def readNext (bytes : Bytes) : Option (ClassFile × Bytes) := do
  let (start, rest) ← Bytes.readBytes 4 bytes
  guard (start = magic)
  let (minor, rest) ← Bytes.readU2 rest
  let (major, rest) ← Bytes.readU2 rest
  let (constants, rest) ← ConstantPool.readTable rest
  let (flags, rest) ← Bytes.readU2 rest
  let (thisClass, rest) ← Bytes.readU2 rest
  let (superClass, rest) ← Bytes.readU2 rest
  let (interfaces, rest) ← Bytes.readTable Bytes.readU2 rest
  let (fields, rest) ← Bytes.readTable Member.read rest
  let (methods, rest) ← Bytes.readTable Member.read rest
  let (attributes, rest) ← Bytes.readTable Attribute.read rest
  return (⟨⟨major, minor⟩, constants, ⟨flags⟩, thisClass, superClass, interfaces, fields, methods,
    attributes⟩, rest)

/-- The class file that some bytes are, with none left over. -/
def read (bytes : Bytes) : Option ClassFile := do
  let (c, rest) ← readNext bytes
  guard (rest = [])
  return c

/-- The attributes of a class and of its fields and methods. -/
def allAttributes (c : ClassFile) : List Attribute :=
  c.fields.flatMap Member.attributes ++ c.methods.flatMap Member.attributes ++ c.attributes

/-- The constants are those of a pool, and the length of each attribute can be written. -/
structure Storable (c : ClassFile) : Prop where
  pooled : ∃ pool : ConstantPool, c.constants = pool.entries
  sized : ∀ a ∈ c.allAttributes, a.info.length < 2 ^ 32

lemma readNext_encode {c : ClassFile} {bytes : Bytes} (hc : c.Storable) (h : c.encode = .ok bytes)
    (rest : Bytes) : readNext (bytes ++ rest) = some (c, rest) := by
  obtain ⟨constants, hconstants, h⟩ := Except.bind_eq_ok.mp h
  obtain ⟨interfaces, hinterfaces, h⟩ := Except.bind_eq_ok.mp h
  obtain ⟨fields, hfields, h⟩ := Except.bind_eq_ok.mp h
  obtain ⟨methods, hmethods, h⟩ := Except.bind_eq_ok.mp h
  obtain ⟨attributes, hattributes, h⟩ := Except.bind_eq_ok.mp h
  cases h
  obtain ⟨pool, hpool⟩ := hc.pooled
  have hsized := hc.sized
  simp only [allAttributes, List.mem_append, List.mem_flatMap] at hsized
  rw [hpool] at hconstants
  have hfieldsRead (tail : Bytes) :
      Bytes.readTable Member.read (fields ++ tail) = some (c.fields, tail) :=
    Bytes.readTable_tableM (fun f hf part hpart => Member.read_encode
      (fun a ha => hsized a (.inl (.inl ⟨f, hf, ha⟩))) hpart) hfields tail
  have hmethodsRead (tail : Bytes) :
      Bytes.readTable Member.read (methods ++ tail) = some (c.methods, tail) :=
    Bytes.readTable_tableM (fun m hm part hpart => Member.read_encode
      (fun a ha => hsized a (.inl (.inr ⟨m, hm, ha⟩))) hpart) hmethods tail
  have hinterfacesRead := Bytes.readTable_table (fun i _ => Bytes.readU2_append i) hinterfaces
  have hattributesRead := Attribute.readTable_encodeAll
    (fun a ha => hsized a (.inr ha)) hattributes
  have hmagic (tail : Bytes) : Bytes.readBytes 4 (magic ++ tail) = some (magic, tail) :=
    Bytes.readBytes_append magic tail
  simp only [Version.encode, AccessFlags.encode, List.append_assoc]
  -- One line for each part of the file: a single call to `simp` would go through all that follows
  -- a part twice, once before and once after the part is read.
  unfold readNext
  refine Option.bind_eq_some_iff.mpr ⟨_, hmagic _, ?_⟩
  refine Option.bind_eq_some_iff.mpr ⟨(), if_pos rfl, ?_⟩
  refine Option.bind_eq_some_iff.mpr ⟨_, Bytes.readU2_append c.version.minor _, ?_⟩
  refine Option.bind_eq_some_iff.mpr ⟨_, Bytes.readU2_append c.version.major _, ?_⟩
  refine Option.bind_eq_some_iff.mpr ⟨_, pool.readTable_encode hconstants _, ?_⟩
  refine Option.bind_eq_some_iff.mpr ⟨_, Bytes.readU2_append c.flags.bits _, ?_⟩
  refine Option.bind_eq_some_iff.mpr ⟨_, Bytes.readU2_append c.thisClass _, ?_⟩
  refine Option.bind_eq_some_iff.mpr ⟨_, Bytes.readU2_append c.superClass _, ?_⟩
  refine Option.bind_eq_some_iff.mpr ⟨_, hinterfacesRead _, ?_⟩
  refine Option.bind_eq_some_iff.mpr ⟨_, hfieldsRead _, ?_⟩
  refine Option.bind_eq_some_iff.mpr ⟨_, hmethodsRead _, ?_⟩
  refine Option.bind_eq_some_iff.mpr ⟨_, hattributesRead _, ?_⟩
  rw [← hpool]
  rfl

lemma read_encode {c : ClassFile} {bytes : Bytes} (hc : c.Storable) (h : c.encode = .ok bytes) :
    read bytes = some c := by
  have hnext := readNext_encode hc h []
  rw [List.append_nil] at hnext
  simp [read, hnext]

/-- A class file is read back as it was written, so what is written tells class files apart. -/
theorem read_encoded {c : ClassFile} {bytes : Bytes} (hc : c.Storable)
    (h : c.encode = .ok bytes) :
    read bytes = some c ∧ ∀ d : ClassFile, d.Storable → d.encode = .ok bytes → d = c := by
  have hread := read_encode hc h
  refine ⟨hread, ?_⟩
  intro d hd hencode
  have hreadd := read_encode hd hencode
  rw [hread] at hreadd
  exact (Option.some.inj hreadd).symm

/-- A class with a field and a method, and constants of two indices among others. -/
def annotated : ClassFile where
  version := .java8
  constants := (ConstantPool.after [.classRef "a.B", .long (-1), .classRef "java.lang.Object",
    .utf8 "é\x00𝄞", .double 0x7FF8000000000001, .utf8 "I", .utf8 "()V"]).entries
  flags := .ofBits 0x0421
  thisClass := 2
  superClass := 6
  interfaces := [2, 6]
  fields := [⟨.ofBits 0x0002, 7, 10, [⟨7, [1, 2, 3]⟩]⟩]
  methods := [⟨.ofBits 0x0401, 7, 11, []⟩]
  attributes := [⟨7, []⟩, ⟨10, [0xCA, 0xFE]⟩]

theorem annotated_read :
    annotated.Storable ∧ annotated.constants.get? 3 = some (.long (-1)) ∧
      annotated.constants.get? 4 = none ∧ annotated.constants.get? 7 = some (.utf8 "é\x00𝄞") ∧
      ∃ bytes, annotated.encode = .ok bytes ∧ bytes.length = 139 ∧ read bytes = some annotated ∧
        ∀ d : ClassFile, d.Storable → d.encode = .ok bytes → d = annotated := by
  have hstorable : annotated.Storable := ⟨⟨_, rfl⟩, by decide⟩
  have hlength : annotated.encode.map List.length = .ok 139 := by decide +kernel
  refine ⟨hstorable, by decide +kernel, by decide +kernel, by decide +kernel, ?_⟩
  cases h : annotated.encode with
  | error e =>
    rw [h] at hlength
    cases hlength
  | ok bytes =>
    rw [h] at hlength
    exact ⟨bytes, rfl, Except.ok.inj hlength, read_encoded hstorable h⟩

end ClassFile
end ClassAssembly
