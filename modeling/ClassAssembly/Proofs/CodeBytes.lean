import ClassAssembly.Code.Emission
import ClassAssembly.Proofs.CodeWalk
import Mathlib.Algebra.Group.Nat.Defs

/-! Reading back what has been written. An encoded instruction decodes to its operands wherever its
bytes lie, and replacing bytes of the code is seen by nobody who reads elsewhere. -/
namespace ClassAssembly

namespace Bytes

@[simp] lemma length_signed (n : Nat) (value : Int) : (signed n value).length = n :=
  length_bigEndian _ _

lemma bigEndian_succ (n value : Nat) :
    bigEndian (n + 1) value = UInt8.ofNat (value / 256 ^ n) :: bigEndian n value := rfl

lemma signed_eq (n : Nat) (value : Int) :
    signed n value = bigEndian n (value % (256 ^ n : Nat)).toNat := rfl

end Bytes

namespace Code

open ClassAssembly.Except (bind_eq_ok)
open CodeDraft (write)

variable {code : Array UInt8} {offset n : Nat}

/-- The code has these bytes from an offset on. -/
def Holds (code : Array UInt8) : Nat → Bytes → Prop
  | _, [] => True
  | offset, byte :: rest => code[offset]? = some byte ∧ Holds code (offset + 1) rest

lemma holds_append {xs ys : Bytes} :
    Holds code offset (xs ++ ys) ↔ Holds code offset xs ∧ Holds code (offset + xs.length) ys := by
  induction xs generalizing offset with
  | nil => simp [Holds]
  | cons x xs ih =>
    have hnext : offset + 1 + xs.length = offset + (x :: xs).length := by
      rw [List.length_cons]
      omega
    simp only [List.cons_append, Holds, ih, hnext, and_assoc]

lemma size_appendList (code : Array UInt8) (bytes : Bytes) :
    (code ++ bytes).size = code.size + bytes.length := by
  rw [← Array.length_toList, Array.toList_appendList, List.length_append, Array.length_toList]

lemma getElem?_appendList (bytes : Bytes) (i : Nat) :
    (code ++ bytes)[i]? = if i < code.size then code[i]? else bytes[i - code.size]? := by
  rw [← Array.getElem?_toList, Array.toList_appendList, List.getElem?_append, Array.length_toList,
    Array.getElem?_toList]

/-- Appending leaves the bytes before the end alone. -/
lemma sameBytes_append {lo hi : Nat} (bytes : Bytes) (h : hi ≤ code.size) :
    SameBytes code (code ++ bytes) lo hi := by
  intro i _ hi
  rw [getElem?_appendList, if_pos (by omega)]

lemma Holds.getElem? {bytes : Bytes} {i : Nat} (h : Holds code offset bytes)
    (hi : i < bytes.length) : code[offset + i]? = bytes[i]? := by
  induction bytes generalizing offset i with
  | nil => cases hi
  | cons byte rest ih =>
    cases i with
    | zero => exact h.1
    | succ i =>
      have hnext := ih h.2 (Nat.lt_of_succ_lt_succ hi)
      rwa [List.getElem?_cons_succ, ← Nat.add_assoc, Nat.add_right_comm]

lemma holds_of_getElem? {bytes : Bytes} (h : ∀ i, i < bytes.length → code[offset + i]? = bytes[i]?) :
    Holds code offset bytes := by
  induction bytes generalizing offset with
  | nil => trivial
  | cons byte rest ih =>
    refine ⟨h 0 (by simp), ih fun i hi => ?_⟩
    have hi' := h (i + 1) (by simpa using hi)
    rwa [List.getElem?_cons_succ, ← Nat.add_assoc, Nat.add_right_comm] at hi'

lemma holds_end (code : Array UInt8) (bytes : Bytes) : Holds (code ++ bytes) code.size bytes := by
  refine holds_of_getElem? fun i _ => ?_
  rw [getElem?_appendList, if_neg (by omega), Nat.add_sub_cancel_left]

lemma getElem?_write (bytes : Bytes) (i : Nat) :
    (write code offset bytes)[i]? =
      if offset ≤ i ∧ i < offset + bytes.length ∧ i < code.size then bytes[i - offset]?
      else code[i]? := by
  induction bytes generalizing code offset with
  | nil => rw [write, if_neg (by rw [List.length_nil]; omega)]
  | cons byte rest ih =>
    rw [write, ih, Array.size_setIfInBounds, Array.getElem?_setIfInBounds, List.length_cons]
    by_cases hi : i = offset
    · subst hi
      rw [if_neg (by omega), if_pos rfl, Nat.sub_self, List.getElem?_cons_zero]
      by_cases hlt : i < code.size
      · rw [if_pos hlt, if_pos (by omega)]
      · rw [if_neg hlt, if_neg (by omega), Array.getElem?_eq_none (by omega)]
    · have hcase : (offset + 1 ≤ i ∧ i < offset + 1 + rest.length ∧ i < code.size) ↔
          (offset ≤ i ∧ i < offset + (rest.length + 1) ∧ i < code.size) := by omega
      simp only [hcase]
      split
      · have hsucc : i - offset = i - (offset + 1) + 1 := by omega
        rw [hsucc, List.getElem?_cons_succ]
      · rw [if_neg (Ne.symm hi)]

/-- Writing leaves the bytes on both sides of what is written alone. -/
lemma sameBytes_write {bytes : Bytes} {lo hi : Nat}
    (h : hi ≤ offset ∨ offset + bytes.length ≤ lo) :
    SameBytes code (write code offset bytes) lo hi := by
  intro i _ _
  rw [getElem?_write, if_neg (by omega)]

lemma holds_write {bytes : Bytes} (h : offset + bytes.length ≤ code.size) :
    Holds (write code offset bytes) offset bytes := by
  refine holds_of_getElem? fun i hi => ?_
  rw [getElem?_write, if_pos (by omega), Nat.add_sub_cancel_left]

lemma readBigEndian_of_holds {value before : Nat} (h : Holds code offset (Bytes.bigEndian n value)) :
    readBigEndian code n offset before = .ok (before * 256 ^ n + value % 256 ^ n) := by
  induction n generalizing offset before with
  | zero => simp [readBigEndian, Nat.mod_one]
  | succ n ih =>
    rw [Bytes.bigEndian_succ] at h
    rw [readBigEndian, readByte_of_getElem? h.1]
    simp only
    rw [ih h.2, Nat.mod_pow_succ, UInt8.toNat_ofNat']
    congr 1
    rw [Nat.pow_succ 256 n, Nat.add_mul, show 2 ^ 8 = 256 from rfl]
    ac_rfl

/-- Reading unsigned words gives back what fits. -/
lemma readUnsigned_of_holds {value : Int} (h : Holds code offset (Bytes.signed n value))
    (hlo : 0 ≤ value) (hhi : value < (256 ^ n : Nat)) : readUnsigned code n offset = .ok value := by
  rw [Bytes.signed_eq, Int.emod_eq_of_lt hlo hhi] at h
  rw [readUnsigned, readBigEndian_of_holds h, Nat.mod_eq_of_lt (by omega), Nat.zero_mul,
    Nat.zero_add]
  change Except.ok (value.toNat : Int) = _
  rw [Int.toNat_of_nonneg hlo]

/-- Reading signed words gives back what fits. -/
lemma readSigned_of_holds {value : Int} (h : Holds code offset (Bytes.signed n value))
    (hlo : -((256 ^ n : Nat) / 2 : Int) ≤ value) (hhi : value < ((256 ^ n : Nat) + 1) / 2) :
    readSigned code n offset = .ok value := by
  have hpos : (0 : Int) < (256 ^ n : Nat) := by exact_mod_cast Nat.pow_pos (by decide)
  have hnonneg := Int.emod_nonneg value (Int.ne_of_gt hpos)
  have hlt := Int.emod_lt_of_pos value hpos
  have hread : readUnsigned code n offset = .ok (value % (256 ^ n : Nat)) :=
    readUnsigned_of_holds (by rwa [Bytes.signed_eq, Int.emod_emod]) hnonneg hlt
  rw [readSigned, hread]
  change Except.ok (Int.bmod _ (256 ^ n)) = _
  rw [Int.emod_bmod, Int.bmod_eq_of_le hlo hhi]

end Code

namespace Opcode

lemma checkRange_eq_ok {op : Opcode} {low high operand : Int}
    (h : op.checkRange low high operand = .ok ()) : low ≤ operand ∧ operand ≤ high := by
  unfold checkRange at h
  split at h
  · assumption
  · cases h

lemma checkCount_eq_ok {op : Opcode} {form : OperandForm} {operands : List Int}
    (h : op.checkCount form operands = .ok ()) : operands.length = form.operands := by
  unfold checkCount at h
  split at h
  · assumption
  · cases h

lemma form_of_jump {op : Opcode} {traits : OpcodeTraits} (h : op.traits = .ok traits)
    (hflow : traits.flow.isJump = true) : traits.form = .branch := by
  have hall : ∀ row ∈ OpcodeTraits.table.toList, ∀ traits ∈ row, traits.flow.isJump = true →
      traits.form = .branch := by
    decide +kernel
  exact hall _ (traits_mem h) traits rfl hflow

lemma eq_ldc_of_form {op : Opcode} {traits : OpcodeTraits} (h : op.traits = .ok traits)
    (hform : traits.form = .smallConstant) : op = ldc := by
  have hall : ∀ row ∈ OpcodeTraits.table.toList.zipIdx, ∀ traits ∈ row.1,
      traits.form = .smallConstant → row.2 = ldc.byte.toNat := by
    decide +kernel
  have hbyte := hall _ (traits_mem_zipIdx h) traits rfl hform
  cases op
  cases UInt8.toNat_inj.mp hbyte
  rfl

/-- The opcode an instruction is written with: large pool indices take the longer one. -/
def spelled (op : Opcode) (first : Int) : Opcode := if op = ldc ∧ 255 < first then ldcWide else op

lemma spelled_of_form {op : Opcode} {traits : OpcodeTraits} (h : op.traits = .ok traits)
    (hform : traits.form ≠ .smallConstant) (first : Int) : op.spelled first = op := by
  refine if_neg ?_
  rintro ⟨rfl, _⟩
  have hldc : ldc.traits.map (·.form) = .ok .smallConstant := by decide +kernel
  rw [h] at hldc
  exact hform (Except.ok.inj hldc)

end Opcode

/-- The instruction has this opcode and these operands. -/
def Instruction.Spells (insn : Instruction) (op : Opcode) (operands : List Int) : Prop :=
  insn.opcode = op ∧ [insn.first, insn.second].take operands.length = operands

namespace Code

open ClassAssembly.Except (bind_eq_ok)

variable {code : Array UInt8} {pc : Nat} {op : Opcode} {traits : OpcodeTraits}

/-- An instruction whose form asks for one signed operand. -/
lemma decode_signed {n : Nat} {value : Int} (htraits : op.traits = .ok traits)
    (hform : decodeOperands code pc op traits.form = readSigned code n (pc + 1) >>= fun value =>
      pure ⟨op, n + 1, false, value, 0, n.succ_pos⟩)
    (h : Holds code pc (op.byte :: Bytes.signed n value))
    (hlo : -((256 ^ n : Nat) / 2 : Int) ≤ value) (hhi : value < ((256 ^ n : Nat) + 1) / 2) :
    decode code pc = .ok ⟨op, n + 1, false, value, 0, n.succ_pos⟩ := by
  rw [decode_of_byte h.1 htraits, hform]
  exact bind_eq_ok.mpr ⟨value, readSigned_of_holds h.2 hlo hhi, rfl⟩

/-- An instruction whose form asks for one unsigned operand. -/
lemma decode_unsigned {n : Nat} {value : Int} (htraits : op.traits = .ok traits)
    (hform : decodeOperands code pc op traits.form = readUnsigned code n (pc + 1) >>= fun value =>
      pure ⟨op, n + 1, false, value, 0, n.succ_pos⟩)
    (h : Holds code pc (op.byte :: Bytes.signed n value)) (hlo : 0 ≤ value)
    (hhi : value < (256 ^ n : Nat)) :
    decode code pc = .ok ⟨op, n + 1, false, value, 0, n.succ_pos⟩ := by
  rw [decode_of_byte h.1 htraits, hform]
  exact bind_eq_ok.mpr ⟨value, readUnsigned_of_holds h.2 hlo hhi, rfl⟩

/-- Under a `wide` opcode stands the opcode proper. -/
lemma decode_wide (hbyte : code[pc]? = some Opcode.wide.byte) :
    decode code pc = decodeWide code pc := by
  have htraits : Opcode.wide.traits = .ok ⟨"WIDE", .wide, some 0, .normal, .wide⟩ := by decide +kernel
  rw [decode_of_byte hbyte htraits]
  rfl

lemma decode_ldcWide {index : Int} (hlo : 0 ≤ index) (hhi : index ≤ 65535)
    (h : Holds code pc (Opcode.ldcWide.byte :: Bytes.signed 2 index)) :
    decode code pc = .ok ⟨.ldcWide, 3, false, index, 0, by decide⟩ := by
  have htraits : Opcode.ldcWide.traits = .ok ⟨"LDC_W", .constant, some 1, .normal, .constant⟩ := by
    decide +kernel
  exact decode_unsigned htraits rfl h hlo (by omega)

/-- An encoded instruction decodes to what was encoded, and takes up the bytes of its encoding. -/
theorem decode_encode {first second : Int} {bytes : Bytes} (htraits : op.traits = .ok traits)
    (hencode : op.encode traits.form first second = .ok bytes) (h : Holds code pc bytes) :
    ∃ insn, decode code pc = .ok insn ∧ insn.length = bytes.length ∧
      insn.opcode = op.spelled first ∧ (0 < traits.form.operands → insn.first = first) ∧
      (1 < traits.form.operands → insn.second = second) := by
  have hspelled : traits.form ≠ .smallConstant → op = op.spelled first :=
    fun hform => (Opcode.spelled_of_form htraits hform first).symm
  cases hform : traits.form <;> simp only [hform, Opcode.encode] at hencode
  case plain =>
    cases hencode
    refine ⟨⟨op, 1, false, 0, 0, by decide⟩, ?_, rfl, hspelled (by simp [hform]), nofun, nofun⟩
    rw [decode_of_byte h.1 htraits, hform]
    rfl
  case signedByte | signedShort =>
    obtain ⟨_, hrange, heq⟩ := bind_eq_ok.mp hencode
    obtain ⟨hlo, hhi⟩ := Opcode.checkRange_eq_ok hrange
    cases heq
    exact ⟨_, decode_signed htraits (by rw [hform]; rfl) h (by omega) (by omega), rfl,
      hspelled (by simp [hform]), fun _ => rfl, nofun⟩
  case constant | arrayCode =>
    obtain ⟨_, hrange, heq⟩ := bind_eq_ok.mp hencode
    obtain ⟨hlo, hhi⟩ := Opcode.checkRange_eq_ok hrange
    cases heq
    exact ⟨_, decode_unsigned htraits (by rw [hform]; rfl) h (by omega) (by omega), rfl,
      hspelled (by simp [hform]), fun _ => rfl, nofun⟩
  case smallConstant =>
    obtain ⟨_, hrange, heq⟩ := bind_eq_ok.mp hencode
    obtain ⟨hlo, hhi⟩ := Opcode.checkRange_eq_ok hrange
    obtain rfl := Opcode.eq_ldc_of_form htraits hform
    by_cases hlarge : 255 < first
    · rw [if_pos hlarge] at heq
      cases heq
      exact ⟨_, decode_ldcWide (by omega) hhi h, rfl, (if_pos ⟨rfl, hlarge⟩).symm, fun _ => rfl,
        nofun⟩
    · rw [if_neg hlarge] at heq
      cases heq
      exact ⟨_, decode_unsigned htraits (by rw [hform]; rfl) h (by omega) (by omega), rfl,
        (if_neg fun h => hlarge h.2).symm, fun _ => rfl, nofun⟩
  case localIndex =>
    obtain ⟨_, hrange, heq⟩ := bind_eq_ok.mp hencode
    obtain ⟨hlo, hhi⟩ := Opcode.checkRange_eq_ok hrange
    by_cases hlarge : 255 < first
    · rw [if_pos hlarge] at heq
      cases heq
      refine ⟨⟨op, 4, true, first, 0, by decide⟩, ?_, rfl, hspelled (by simp [hform]),
        fun _ => rfl, nofun⟩
      rw [decode_wide h.1]
      exact bind_eq_ok.mpr ⟨_, readByte_of_getElem? h.2.1, bind_eq_ok.mpr
        ⟨first, readUnsigned_of_holds h.2.2 hlo (by omega), bind_eq_ok.mpr
          ⟨traits, htraits, by rw [hform]; rfl⟩⟩⟩
    · rw [if_neg hlarge] at heq
      cases heq
      exact ⟨_, decode_unsigned htraits (by rw [hform]; rfl) h hlo (by omega), rfl,
        hspelled (by simp [hform]), fun _ => rfl, nofun⟩
  case increment =>
    obtain ⟨_, hfirst, h'⟩ := bind_eq_ok.mp hencode
    obtain ⟨_, hsecond, heq⟩ := bind_eq_ok.mp h'
    obtain ⟨hlo, hhi⟩ := Opcode.checkRange_eq_ok hfirst
    obtain ⟨hlo', hhi'⟩ := Opcode.checkRange_eq_ok hsecond
    by_cases hlarge : 255 < first ∨ second < -128 ∨ 127 < second
    · rw [if_pos hlarge] at heq
      cases heq
      obtain ⟨hindex, hvalue⟩ := holds_append.mp h.2.2
      refine ⟨⟨op, 6, true, first, second, by decide⟩, ?_, rfl, hspelled (by simp [hform]),
        fun _ => rfl, fun _ => rfl⟩
      rw [decode_wide h.1]
      refine bind_eq_ok.mpr ⟨_, readByte_of_getElem? h.2.1, bind_eq_ok.mpr
        ⟨first, readUnsigned_of_holds hindex hlo (by omega), bind_eq_ok.mpr ⟨traits, htraits, ?_⟩⟩⟩
      rw [hform]
      exact bind_eq_ok.mpr ⟨second, readSigned_of_holds hvalue (by omega) (by omega), rfl⟩
    · rw [if_neg hlarge] at heq
      cases heq
      obtain ⟨hindex, hvalue⟩ := holds_append.mp h.2
      refine ⟨⟨op, 3, false, first, second, by decide⟩, ?_, rfl, hspelled (by simp [hform]),
        fun _ => rfl, fun _ => rfl⟩
      rw [decode_of_byte h.1 htraits, hform]
      exact bind_eq_ok.mpr ⟨first, readUnsigned_of_holds hindex hlo (by omega), bind_eq_ok.mpr
        ⟨second, readSigned_of_holds hvalue (by omega) (by omega), rfl⟩⟩
  case interfaceCall =>
    obtain ⟨_, hfirst, h'⟩ := bind_eq_ok.mp hencode
    obtain ⟨_, hsecond, heq⟩ := bind_eq_ok.mp h'
    obtain ⟨hlo, hhi⟩ := Opcode.checkRange_eq_ok hfirst
    obtain ⟨hlo', hhi'⟩ := Opcode.checkRange_eq_ok hsecond
    cases heq
    obtain ⟨hboth, _⟩ := holds_append.mp h.2
    obtain ⟨hindex, hvalue⟩ := holds_append.mp hboth
    refine ⟨⟨op, 5, false, first, second, by decide⟩, ?_, rfl, hspelled (by simp [hform]),
      fun _ => rfl, fun _ => rfl⟩
    rw [decode_of_byte h.1 htraits, hform]
    exact bind_eq_ok.mpr ⟨first, readUnsigned_of_holds hindex (by omega) (by omega), bind_eq_ok.mpr
      ⟨second, readUnsigned_of_holds hvalue (by omega) (by omega), rfl⟩⟩
  case dimensions =>
    obtain ⟨_, hfirst, h'⟩ := bind_eq_ok.mp hencode
    obtain ⟨_, hsecond, heq⟩ := bind_eq_ok.mp h'
    obtain ⟨hlo, hhi⟩ := Opcode.checkRange_eq_ok hfirst
    obtain ⟨hlo', hhi'⟩ := Opcode.checkRange_eq_ok hsecond
    cases heq
    obtain ⟨hindex, hvalue⟩ := holds_append.mp h.2
    refine ⟨⟨op, 4, false, first, second, by decide⟩, ?_, rfl, hspelled (by simp [hform]),
      fun _ => rfl, fun _ => rfl⟩
    rw [decode_of_byte h.1 htraits, hform]
    exact bind_eq_ok.mpr ⟨first, readUnsigned_of_holds hindex (by omega) (by omega), bind_eq_ok.mpr
      ⟨second, readUnsigned_of_holds hvalue (by omega) (by omega), rfl⟩⟩
  all_goals cases hencode

/-- What was encoded from a list of operands decodes to that list. -/
theorem decode_operands {operands : List Int} {bytes : Bytes} (htraits : op.traits = .ok traits)
    (hcount : op.checkCount traits.form operands = .ok ())
    (hencode : op.encode traits.form (operands[0]?.getD 0) (operands[1]?.getD 0) = .ok bytes)
    (h : Holds code pc bytes) :
    ∃ insn, decode code pc = .ok insn ∧ insn.length = bytes.length ∧
      insn.Spells (op.spelled (operands[0]?.getD 0)) operands := by
  obtain ⟨insn, hdecode, hlength, hopcode, hfirst, hsecond⟩ := decode_encode htraits hencode h
  refine ⟨insn, hdecode, hlength, hopcode, ?_⟩
  have hcount' := Opcode.checkCount_eq_ok hcount
  match operands, hcount' with
  | [], _ => rfl
  | [first], hcount' =>
    have hpos : 0 < traits.form.operands := hcount' ▸ Nat.one_pos
    simp [hfirst hpos]
  | [first, second], hcount' =>
    have htwo : 1 < traits.form.operands := hcount' ▸ Nat.one_lt_two
    simp [hfirst (by omega), hsecond htwo]
  | _ :: _ :: _ :: _, hcount' =>
    have hle : traits.form.operands ≤ 2 := by cases traits.form <;> decide
    simp only [List.length_cons] at hcount'
    omega

end Code
end ClassAssembly
