import ClassAssembly.Proofs.CodeLayout

/-! Where decoded instructions end. The decoder asks for every byte of an instruction but the zero
at the end of an interface call. So the instructions of some code fill it, unless it breaks off
before that zero. -/
namespace ClassAssembly

namespace Opcode

/-- Only one opcode has operands that end with a zero. -/
lemma form_eq_interfaceCall_iff {op : Opcode} {traits : OpcodeTraits}
    (h : op.traits = .ok traits) : traits.form = .interfaceCall ↔ op = .invokeinterface := by
  have hall : ∀ row ∈ OpcodeTraits.table.toList.zipIdx, ∀ traits ∈ row.1,
      (traits.form = .interfaceCall ↔ row.2 = invokeinterface.byte.toNat) := by
    decide +kernel
  rw [hall _ (traits_mem_zipIdx h) traits rfl, UInt8.toNat_inj]
  cases op
  simp [invokeinterface]

end Opcode

namespace Code

open ClassAssembly.Except (bind_eq_ok)

variable {code : Array UInt8} {pc offset n : Nat} {insn : Instruction}

section Reads

lemma lt_of_readByte {byte : UInt8} (h : readByte code offset = .ok byte) :
    offset < code.size := by
  unfold readByte at h
  split at h
  · rename_i hget
    exact (Array.getElem?_eq_some_iff.mp hget).1
  · cases h

lemma le_of_readBigEndian {before value : Nat}
    (h : readBigEndian code (n + 1) offset before = .ok value) : offset + (n + 1) ≤ code.size := by
  induction n generalizing offset before with
  | zero =>
    rw [readBigEndian] at h
    split at h
    · cases h
    · rename_i hbyte
      exact lt_of_readByte hbyte
  | succ n ih =>
    rw [readBigEndian] at h
    split at h
    · cases h
    · have hrest := ih h
      omega

lemma le_of_readUnsigned {value : Int} (h : readUnsigned code (n + 1) offset = .ok value) :
    offset + (n + 1) ≤ code.size := by
  obtain ⟨_, hread, _⟩ := bind_eq_ok.mp h
  exact le_of_readBigEndian hread

lemma le_of_readSigned {value : Int} (h : readSigned code (n + 1) offset = .ok value) :
    offset + (n + 1) ≤ code.size := by
  obtain ⟨_, hread, _⟩ := bind_eq_ok.mp h
  exact le_of_readUnsigned hread

end Reads

/-- A switch has at least one case, and the distance of the last case is read. -/
lemma le_of_decodeSwitch {table : TableSwitch} (h : decodeSwitch code pc = .ok table) :
    pc + table.length ≤ code.size := by
  have hat := decodeSwitch_eq_ok_iff.mp h
  have hcount := hat.count
  have hordered := hat.ordered
  have hlength := hat.length
  have hlast : table.offsets.length - 1 < table.offsets.length := by omega
  have hread := le_of_readSigned (hat.arms (.case (table.offsets.length - 1)) _
    (List.getElem?_eq_getElem hlast))
  simp only [SwitchArm.slot] at hread
  omega

/-- Where the instruction under a `wide` opcode ends. -/
lemma le_of_decodeWide (h : decodeWide code pc = .ok insn) :
    pc + insn.length ≤ code.size ∧
      ∃ traits, insn.opcode.traits = .ok traits ∧ traits.form ≠ .interfaceCall := by
  obtain ⟨_, _, h⟩ := bind_eq_ok.mp h
  obtain ⟨_, hindex, h⟩ := bind_eq_ok.mp h
  obtain ⟨traits, htraits, h⟩ := bind_eq_ok.mp h
  have hend := le_of_readUnsigned hindex
  cases hform : traits.form <;> simp only [hform] at h
  case localIndex =>
    cases h
    exact ⟨hend, traits, htraits, by simp [hform]⟩
  case increment =>
    obtain ⟨_, hvalue, h⟩ := bind_eq_ok.mp h
    have hlater := le_of_readSigned hvalue
    cases h
    exact ⟨hlater, traits, htraits, by simp [hform]⟩
  all_goals cases h

/-- The instruction that is decoded ends in the code, but for the last byte of an interface call. -/
lemma decode_end (h : decode code pc = .ok insn) :
    ∃ traits, insn.opcode.traits = .ok traits ∧
      if traits.form = .interfaceCall then insn.length = 5 ∧ pc + 4 ≤ code.size
      else pc + insn.length ≤ code.size := by
  obtain ⟨byte, hbyte, h⟩ := bind_eq_ok.mp h
  obtain ⟨traits, htraits, h⟩ := bind_eq_ok.mp h
  have hwhole : ∀ insn : Instruction, insn.opcode.traits = .ok traits →
      traits.form ≠ .interfaceCall → pc + insn.length ≤ code.size →
      ∃ traits, insn.opcode.traits = .ok traits ∧
        if traits.form = .interfaceCall then insn.length = 5 ∧ pc + 4 ≤ code.size
        else pc + insn.length ≤ code.size := by
    intro insn htraits hne hend
    exact ⟨traits, htraits, by rwa [if_neg hne]⟩
  cases hform : traits.form <;> simp only [hform, decodeOperands] at h
  case wide =>
    obtain ⟨hend, under, hunder, hne⟩ := le_of_decodeWide h
    exact ⟨under, hunder, by rwa [if_neg hne]⟩
  case switch =>
    obtain ⟨table, htable, h⟩ := bind_eq_ok.mp h
    cases h
    exact hwhole _ htraits (by simp [hform]) (le_of_decodeSwitch htable)
  case plain =>
    cases h
    exact hwhole _ htraits (by simp [hform]) (lt_of_readByte hbyte)
  case interfaceCall =>
    obtain ⟨_, _, h⟩ := bind_eq_ok.mp h
    obtain ⟨_, hsecond, h⟩ := bind_eq_ok.mp h
    have hend := le_of_readUnsigned hsecond
    cases h
    refine ⟨traits, htraits, ?_⟩
    rw [if_pos hform]
    exact ⟨rfl, hend⟩
  case dimensions =>
    obtain ⟨_, _, h⟩ := bind_eq_ok.mp h
    obtain ⟨_, hsecond, h⟩ := bind_eq_ok.mp h
    have hend := le_of_readUnsigned hsecond
    cases h
    exact hwhole _ htraits (by simp [hform]) hend
  case increment =>
    obtain ⟨_, _, h⟩ := bind_eq_ok.mp h
    obtain ⟨_, hsecond, h⟩ := bind_eq_ok.mp h
    have hend := le_of_readSigned hsecond
    cases h
    exact hwhole _ htraits (by simp [hform]) hend
  case signedByte | signedShort | branch =>
    obtain ⟨_, hfirst, h⟩ := bind_eq_ok.mp h
    have hend := le_of_readSigned hfirst
    cases h
    exact hwhole _ htraits (by simp [hform]) hend
  case smallConstant | localIndex | arrayCode | constant =>
    obtain ⟨_, hfirst, h⟩ := bind_eq_ok.mp h
    have hend := le_of_readUnsigned hfirst
    cases h
    exact hwhole _ htraits (by simp [hform]) hend

/-- The code breaks off before the last byte of an interface call at `pc`. -/
def CutOff (code : Array UInt8) (pc : Nat) (insn : Instruction) : Prop :=
  insn.opcode = .invokeinterface ∧ code.size = pc + 4

instance (code : Array UInt8) (pc : Nat) (insn : Instruction) : Decidable (CutOff code pc insn) :=
  inferInstanceAs (Decidable (_ ∧ _))

lemma CutOff.length_eq (h : CutOff code pc insn) (hdecode : decode code pc = .ok insn) :
    insn.length = 5 := by
  obtain ⟨traits, htraits, hend⟩ := decode_end hdecode
  rw [if_pos ((Opcode.form_eq_interfaceCall_iff htraits).mpr h.1)] at hend
  exact hend.1

/-- Nothing but an interface call that is cut off reaches beyond the code. -/
lemma end_le_iff (h : decode code pc = .ok insn) :
    pc + insn.length ≤ code.size ↔ ¬CutOff code pc insn := by
  constructor
  · intro hle hcut
    have hlength := hcut.length_eq h
    have hsize := hcut.2
    omega
  · intro hwhole
    obtain ⟨traits, htraits, hend⟩ := decode_end h
    split at hend
    · rename_i hform
      have hsize : code.size ≠ pc + 4 := fun hsize =>
        hwhole ⟨(Opcode.form_eq_interfaceCall_iff htraits).mp hform, hsize⟩
      omega
    · exact hend

/-- All instructions from an offset on lie in the code, or all but the last, which is cut off. -/
lemma Walk.tiles_or_cutOff {starts : List Nat} (h : Walk code pc starts) (hle : pc ≤ code.size) :
    Tiles code pc starts code.size ∨ ∃ front last insn, starts = front ++ [last] ∧
      Tiles code pc front last ∧ decode code last = .ok insn ∧ CutOff code last insn := by
  induction h with
  | @stop pc hstop =>
    obtain rfl : pc = code.size := Nat.le_antisymm hle hstop
    exact .inl (.nil _)
  | @step pc insn rest hlt hdecode hrest ih =>
    by_cases hcut : CutOff code pc insn
    · -- Nothing can follow beyond the end of the code.
      have hlength := hcut.length_eq hdecode
      have hsize := hcut.2
      cases hrest with
      | stop => exact .inr ⟨[], pc, insn, rfl, .nil pc, hdecode, hcut⟩
      | step hlt' => omega
    · rcases ih ((end_le_iff hdecode).mpr hcut) with
        htiles | ⟨front, last, other, rfl, htiles, hlast⟩
      · exact .inl (.cons hdecode htiles)
      · exact .inr ⟨pc :: front, last, other, rfl, .cons hdecode htiles, hlast⟩

/-- A decoded instruction lies in the code unless it is an interface call that is cut off, and
instructions are found in some code exactly if they lie in it end to end, from its first byte to its
last; the last one may be an interface call that is cut off. -/
theorem starts_eq_ok_iff_tiles (code : Array UInt8) :
    (∀ pc insn, decode code pc = .ok insn →
      (pc + insn.length ≤ code.size ↔ ¬CutOff code pc insn)) ∧
    ∀ starts, Code.starts code = .ok starts ↔
      Tiles code 0 starts code.size ∨ ∃ front last insn, starts = front ++ [last] ∧
        Tiles code 0 front last ∧ decode code last = .ok insn ∧ CutOff code last insn := by
  refine ⟨fun pc insn => end_le_iff, fun starts => ?_⟩
  rw [starts_eq_ok_iff]
  constructor
  · intro hwalk
    exact hwalk.tiles_or_cutOff (Nat.zero_le _)
  · rintro (htiles | ⟨front, last, insn, rfl, htiles, hdecode, hcut⟩)
    · exact htiles.walk (Nat.le_refl _)
    · have hlength := hcut.length_eq hdecode
      have hsize := hcut.2
      exact (htiles.snoc hdecode).walk (by omega)

/-- A long load, a switch, an interface call and a return. -/
def mixedCode : Array UInt8 := #[
  0xc4, 0x15, 0x01, 0x2c, -- wide iload
  0xaa, 0, 0, 0, 0, 0, 0, 25, 0, 0, 0, 0, 0, 0, 0, 0, 0, 0, 0, 20, -- tableswitch
  0xb9, 0, 1, 1, 0, -- invokeinterface
  0xb1] -- return

theorem mixedCode_tiles :
    Code.starts mixedCode = .ok [0, 4, 24, 29] ∧ Tiles mixedCode 0 [0, 4, 24, 29] 30 ∧
      ∃ insn, decode mixedCode 24 = .ok insn ∧ 24 + insn.length ≤ mixedCode.size := by
  have hstarts : Code.starts mixedCode = .ok [0, 4, 24, 29] := by decide +kernel
  obtain ⟨hends, htiles⟩ := starts_eq_ok_iff_tiles mixedCode
  have hcall : decode mixedCode 24 = .ok ⟨.invokeinterface, 5, false, 1, 1, by decide⟩ := by
    decide +kernel
  refine ⟨hstarts, ?_, _, hcall, (hends 24 _ hcall).mpr (by decide)⟩
  rcases (htiles _).mp hstarts with hall | ⟨front, last, insn, hlast, _, _, hcut⟩
  · exact hall
  · have hlast' : last = 29 := by
      have heq := congrArg List.getLast? hlast
      simpa using heq.symm
    have hsize : 30 = last + 4 := hcut.2
    omega

/-- An interface call without its last byte. -/
def cutCall : Array UInt8 := #[0xb9, 0, 1, 1]

/-- The call is accepted although it ends beyond the code, so what is found does not lie in the
code. -/
theorem cutCall_accepted :
    Code.starts cutCall = .ok [0] ∧ ¬Tiles cutCall 0 [0] cutCall.size ∧
      ¬∀ pc insn, decode cutCall pc = .ok insn → pc + insn.length ≤ cutCall.size := by
  have hcall : decode cutCall 0 = .ok ⟨.invokeinterface, 5, false, 1, 1, by decide⟩ := by
    decide +kernel
  refine ⟨by decide +kernel, fun htiles => ?_, fun hall => absurd (hall 0 _ hcall) (by decide)⟩
  exact absurd (htiles.end_le List.mem_cons_self hcall) (by decide)

end Code
end ClassAssembly
