import ClassAssembly.Instruction
import ClassAssembly.Proofs.StepLaws

/-! What the opcode table says of the stack is what the effects do. Decoding reads no byte outside
of the instruction, and the instructions of some code lie end to end. -/
namespace ClassAssembly

namespace Effect

/-- Numbers of words popped and pushed, where they do not hang on a descriptor. -/
def words : Effect → Option (Nat × Nat)
  | fixed pops push => some ((pops.map Slot.words).foldr (· + ·) 0, (push.map Slot.words).getD 0)
  | load slot _ => some (0, slot.words)
  | store slot _ => some (slot.words, 0)
  | null | constant | new => some (0, 1)
  | wideConstant => some (0, 2)
  | element => some (2, 1)
  | pop => some (1, 0)
  | pop2 => some (2, 0)
  | dup => some (1, 2)
  | dupX1 => some (2, 3)
  | dupX2 => some (3, 4)
  | dup2 => some (2, 4)
  | dup2X1 => some (3, 5)
  | dup2X2 => some (4, 6)
  | swap => some (2, 2)
  | increment | wide => some (0, 0)
  | newArray | newObjectArray | cast => some (1, 1)
  | getStatic | putStatic | getField | putField | invoke | invokeStatic | newMultiArray => none

end Effect

namespace Opcode

/-- What is known of an opcode stands in the row of its byte. -/
lemma traits_mem_zipIdx {op : Opcode} {traits : OpcodeTraits} (h : op.traits = .ok traits) :
    (some traits, op.byte.toNat) ∈ OpcodeTraits.table.toList.zipIdx := by
  unfold Opcode.traits at h
  split at h
  · rename_i hrow
    cases h
    have hget := Option.join_eq_some_iff.mp hrow
    rw [← Array.getElem?_toList] at hget
    exact List.mem_zipIdx_iff_getElem?.mpr hget
  · cases h

lemma traits_mem {op : Opcode} {traits : OpcodeTraits} (h : op.traits = .ok traits) :
    some traits ∈ OpcodeTraits.table.toList :=
  List.mem_of_getElem? (List.mem_zipIdx_iff_getElem?.mp (traits_mem_zipIdx h))

/-- The column of changes in depth agrees with the effects, in every row. -/
lemma words_eq {op : Opcode} {traits : OpcodeTraits} (h : op.traits = .ok traits) :
    traits.words = traits.effect.words := by
  have hall : ∀ row ∈ OpcodeTraits.table.toList, ∀ traits ∈ row,
      traits.words = traits.effect.words := by
    decide +kernel
  exact hall _ (traits_mem h) traits rfl

lemma form_of_switch {op : Opcode} {traits : OpcodeTraits} (h : op.traits = .ok traits)
    (hflow : traits.flow = .switch) : traits.form = .switch := by
  have hall : ∀ row ∈ OpcodeTraits.table.toList, ∀ traits ∈ row, traits.flow = .switch →
      traits.form = .switch := by
    decide +kernel
  exact hall _ (traits_mem h) traits rfl hflow

lemma form_of_new {op : Opcode} {traits : OpcodeTraits} (h : op.traits = .ok traits)
    (heffect : traits.effect = .new) : traits.form = .constant := by
  have hall : ∀ row ∈ OpcodeTraits.table.toList, ∀ traits ∈ row, traits.effect = .new →
      traits.form = .constant := by
    decide +kernel
  exact hall _ (traits_mem h) traits rfl heffect

end Opcode

namespace Code

variable {code code' : Array UInt8}

/-- Both codes hold the same bytes from `lo` up to `hi`. -/
def SameBytes (code code' : Array UInt8) (lo hi : Nat) : Prop :=
  ∀ i, lo ≤ i → i < hi → code'[i]? = code[i]?

namespace SameBytes

variable {lo hi offset n : Nat}

lemma readByte (h : SameBytes code code' lo hi) (hlo : lo ≤ offset) (hhi : offset < hi) :
    readByte code' offset = readByte code offset := by
  rw [Code.readByte, Code.readByte, h offset hlo hhi]

lemma readBigEndian (h : SameBytes code code' lo hi) {before : Nat} (hlo : lo ≤ offset)
    (hhi : offset + n ≤ hi) :
    readBigEndian code' n offset before = readBigEndian code n offset before := by
  induction n generalizing offset before with
  | zero => rfl
  | succ n ih =>
    rw [Code.readBigEndian, Code.readBigEndian, h.readByte hlo (by omega)]
    split
    · rfl
    · exact ih (by omega) (by omega)

lemma readUnsigned (h : SameBytes code code' lo hi) (hlo : lo ≤ offset) (hhi : offset + n ≤ hi) :
    readUnsigned code' n offset = readUnsigned code n offset := by
  rw [Code.readUnsigned, Code.readUnsigned, h.readBigEndian hlo hhi]

lemma readSigned (h : SameBytes code code' lo hi) (hlo : lo ≤ offset) (hhi : offset + n ≤ hi) :
    readSigned code' n offset = readSigned code n offset := by
  rw [Code.readSigned, Code.readSigned, h.readUnsigned hlo hhi]

lemma readWords (h : SameBytes code code' lo hi) {before : List Int} (hlo : lo ≤ offset)
    (hhi : offset + 4 * n ≤ hi) :
    readWords code' n offset before = readWords code n offset before := by
  induction n generalizing offset before with
  | zero => rfl
  | succ n ih =>
    rw [Code.readWords, Code.readWords, h.readSigned hlo (by omega)]
    split
    · rfl
    · exact ih (by omega) (by omega)

end SameBytes

open ClassAssembly.Except (bind_eq_ok)

lemma readByte_of_getElem? {offset : Nat} {byte : UInt8} (h : code[offset]? = some byte) :
    readByte code offset = .ok byte := by
  rw [readByte, h]

lemma decode_of_byte {pc : Nat} {op : Opcode} {traits : OpcodeTraits}
    (hbyte : code[pc]? = some op.byte) (htraits : op.traits = .ok traits) :
    decode code pc = decodeOperands code pc op traits.form := by
  obtain ⟨byte⟩ := op
  simp only [decode, readByte_of_getElem? hbyte, bind, Except.bind, htraits]

/-- A switch is found again wherever its own bytes are. -/
theorem decodeSwitch_congr {pc : Nat} {table : TableSwitch} (h : decodeSwitch code pc = .ok table)
    (hsame : SameBytes code code' pc (pc + table.length)) :
    decodeSwitch code' pc = .ok table := by
  unfold decodeSwitch at h ⊢
  obtain ⟨default, hdefault, h⟩ := bind_eq_ok.mp h
  obtain ⟨low, hlow, h⟩ := bind_eq_ok.mp h
  obtain ⟨high, hhigh, h⟩ := bind_eq_ok.mp h
  split at h
  · cases h
  · rename_i hle
    obtain ⟨offsets, hoffsets, heq⟩ := bind_eq_ok.mp h
    cases heq
    simp only at hsame
    refine bind_eq_ok.mpr ⟨default, (hsame.readSigned ?_ ?_).trans hdefault, bind_eq_ok.mpr
      ⟨low, (hsame.readSigned ?_ ?_).trans hlow, bind_eq_ok.mpr
        ⟨high, (hsame.readSigned ?_ ?_).trans hhigh, ?_⟩⟩⟩
    case refine_7 =>
      rw [if_neg hle]
      exact bind_eq_ok.mpr
        ⟨offsets, (hsame.readWords (by omega) (by omega)).trans hoffsets, rfl⟩
    all_goals omega

lemma decodeWide_congr {pc : Nat} {insn : Instruction} (h : decodeWide code pc = .ok insn)
    (hsame : SameBytes code code' pc (pc + insn.length)) : decodeWide code' pc = .ok insn := by
  unfold decodeWide at h ⊢
  obtain ⟨byte, hbyte, h⟩ := bind_eq_ok.mp h
  obtain ⟨index, hindex, h⟩ := bind_eq_ok.mp h
  obtain ⟨traits, htraits, h⟩ := bind_eq_ok.mp h
  have hlength : 4 ≤ insn.length := by
    cases hform : traits.form <;> simp only [hform] at h
    case localIndex =>
      cases h
      exact Nat.le_refl _
    case increment =>
      obtain ⟨_, _, heq⟩ := bind_eq_ok.mp h
      cases heq
      exact Nat.le_add_right 4 2
    all_goals cases h
  refine bind_eq_ok.mpr ⟨byte, (hsame.readByte (by omega) (by omega)).trans hbyte, bind_eq_ok.mpr
    ⟨index, (hsame.readUnsigned (by omega) (by omega)).trans hindex, bind_eq_ok.mpr
      ⟨traits, htraits, ?_⟩⟩⟩
  cases hform : traits.form <;> simp only [hform] at h ⊢
  case increment =>
    obtain ⟨value, hvalue, heq⟩ := bind_eq_ok.mp h
    cases heq
    exact bind_eq_ok.mpr
      ⟨value, (hsame.readSigned (by omega) (by simp)).trans hvalue, rfl⟩
  all_goals exact h

/-- An instruction is found again wherever its own bytes are. -/
theorem decode_congr {pc : Nat} {insn : Instruction} (h : decode code pc = .ok insn)
    (hsame : SameBytes code code' pc (pc + insn.length)) : decode code' pc = .ok insn := by
  have hpos := insn.length_pos
  unfold decode at h ⊢
  obtain ⟨byte, hbyte, h⟩ := bind_eq_ok.mp h
  obtain ⟨traits, htraits, h⟩ := bind_eq_ok.mp h
  refine bind_eq_ok.mpr ⟨byte, (hsame.readByte (by omega) (by omega)).trans hbyte, bind_eq_ok.mpr
    ⟨traits, htraits, ?_⟩⟩
  cases hform : traits.form <;> simp only [hform, decodeOperands] at h ⊢
  case plain => exact h
  case wide => exact decodeWide_congr h hsame
  case switch =>
    obtain ⟨table, htable, heq⟩ := bind_eq_ok.mp h
    cases heq
    exact bind_eq_ok.mpr ⟨table, decodeSwitch_congr htable hsame, rfl⟩
  case signedByte | signedShort | branch =>
    obtain ⟨value, hvalue, heq⟩ := bind_eq_ok.mp h
    cases heq
    exact bind_eq_ok.mpr
      ⟨value, (hsame.readSigned (Nat.le_add_right pc 1) (Nat.le_refl _)).trans hvalue, rfl⟩
  case smallConstant | localIndex | arrayCode | constant =>
    obtain ⟨value, hvalue, heq⟩ := bind_eq_ok.mp h
    cases heq
    exact bind_eq_ok.mpr
      ⟨value, (hsame.readUnsigned (Nat.le_add_right pc 1) (Nat.le_refl _)).trans hvalue, rfl⟩
  case increment =>
    obtain ⟨index, hindex, h⟩ := bind_eq_ok.mp h
    obtain ⟨value, hvalue, heq⟩ := bind_eq_ok.mp h
    cases heq
    exact bind_eq_ok.mpr ⟨index, (hsame.readUnsigned (by omega) (by simp)).trans hindex,
      bind_eq_ok.mpr ⟨value, (hsame.readSigned (by omega) (by simp)).trans hvalue, rfl⟩⟩
  case interfaceCall | dimensions =>
    obtain ⟨index, hindex, h⟩ := bind_eq_ok.mp h
    obtain ⟨value, hvalue, heq⟩ := bind_eq_ok.mp h
    cases heq
    exact bind_eq_ok.mpr ⟨index, (hsame.readUnsigned (by omega) (by simp)).trans hindex,
      bind_eq_ok.mpr ⟨value, (hsame.readUnsigned (by omega) (by simp)).trans hvalue, rfl⟩⟩

lemma lt_of_decode {pc : Nat} {insn : Instruction} (h : decode code pc = .ok insn) :
    pc < code.size := by
  obtain ⟨byte, hbyte, _⟩ := bind_eq_ok.mp h
  unfold readByte at hbyte
  split at hbyte
  · rename_i hget
    exact (Array.getElem?_eq_some_iff.mp hget).1
  · cases hbyte

/-- Where the form of the operands fixes the length, the instruction has that length. -/
lemma decode_shape {pc : Nat} {insn : Instruction} (h : decode code pc = .ok insn) :
    ∃ traits, insn.opcode.traits = .ok traits ∧ (traits.form = .constant → insn.length = 3) ∧
      (traits.form = .switch → ∃ table, decodeSwitch code pc = .ok table ∧
        insn.length = table.length) := by
  obtain ⟨byte, _, h⟩ := bind_eq_ok.mp h
  obtain ⟨traits, htraits, h⟩ := bind_eq_ok.mp h
  cases hform : traits.form <;> simp only [hform, decodeOperands] at h
  case wide =>
    -- The opcode under a `wide` one takes the index of a local variable.
    obtain ⟨_, _, h⟩ := bind_eq_ok.mp h
    obtain ⟨_, _, h⟩ := bind_eq_ok.mp h
    obtain ⟨under, hunder, h⟩ := bind_eq_ok.mp h
    cases hform' : under.form <;> simp only [hform'] at h
    case localIndex =>
      cases h
      exact ⟨under, hunder, by simp [hform'], by simp [hform']⟩
    case increment =>
      obtain ⟨_, _, heq⟩ := bind_eq_ok.mp h
      cases heq
      exact ⟨under, hunder, by simp [hform'], by simp [hform']⟩
    all_goals cases h
  case switch =>
    obtain ⟨table, htable, heq⟩ := bind_eq_ok.mp h
    cases heq
    exact ⟨traits, htraits, by simp [hform], fun _ => ⟨table, htable, rfl⟩⟩
  case plain =>
    cases h
    exact ⟨traits, htraits, by simp [hform], by simp [hform]⟩
  case increment | interfaceCall | dimensions =>
    obtain ⟨_, _, h⟩ := bind_eq_ok.mp h
    obtain ⟨_, _, heq⟩ := bind_eq_ok.mp h
    cases heq
    exact ⟨traits, htraits, by simp [hform], by simp [hform]⟩
  all_goals
    obtain ⟨_, _, heq⟩ := bind_eq_ok.mp h
    cases heq
    exact ⟨traits, htraits, by simp [hform], by simp [hform]⟩

/-- What can be read as an instruction has traits, and targets. -/
lemma exists_targets_of_decode {pc : Nat} {insn : Instruction} (h : decode code pc = .ok insn) :
    ∃ traits, insn.opcode.traits = .ok traits ∧
      ∃ targets, jumpTargets code pc insn traits.flow = .ok targets := by
  obtain ⟨traits, htraits, _, hswitch⟩ := decode_shape h
  refine ⟨traits, htraits, ?_⟩
  cases hflow : traits.flow
  case switch =>
    obtain ⟨table, htable, _⟩ := hswitch (Opcode.form_of_switch htraits hflow)
    exact ⟨_, bind_eq_ok.mpr ⟨table, htable, rfl⟩⟩
  all_goals exact ⟨_, rfl⟩

/-- The targets of an instruction are found again wherever its own bytes are. -/
theorem jumpTargets_congr {pc : Nat} {insn : Instruction} {traits : OpcodeTraits}
    {targets : List Int} (hdecode : decode code pc = .ok insn)
    (htraits : insn.opcode.traits = .ok traits)
    (h : jumpTargets code pc insn traits.flow = .ok targets)
    (hsame : SameBytes code code' pc (pc + insn.length)) :
    jumpTargets code' pc insn traits.flow = .ok targets := by
  cases hflow : traits.flow <;> simp only [hflow, jumpTargets] at h ⊢
  case switch =>
    obtain ⟨traits', htraits', _, hswitch⟩ := decode_shape hdecode
    rw [htraits] at htraits'
    cases htraits'
    obtain ⟨table, htable, hlength⟩ := hswitch (Opcode.form_of_switch htraits hflow)
    obtain ⟨table', htable', heq⟩ := bind_eq_ok.mp h
    rw [htable] at htable'
    cases htable'
    rw [hlength] at hsame
    exact bind_eq_ok.mpr ⟨table, decodeSwitch_congr htable hsame, heq⟩
  all_goals exact h

/-- The instructions from `pc` to the end of the code start at these offsets. -/
inductive Walk (code : Array UInt8) : Nat → List Nat → Prop
  | stop {pc : Nat} (h : code.size ≤ pc) : Walk code pc []
  | step {pc : Nat} {insn : Instruction} {rest : List Nat} (h : pc < code.size)
      (hdecode : decode code pc = .ok insn) (hrest : Walk code (pc + insn.length) rest) :
      Walk code pc (pc :: rest)

lemma startsFrom_eq_ok_iff {pc : Nat} {before starts : List Nat} :
    startsFrom code pc before = .ok starts ↔
      ∃ rest, Walk code pc rest ∧ starts = before.reverse ++ rest := by
  fun_induction startsFrom code pc before with
  | case1 pc before hlt e he =>
    constructor
    · intro h
      cases h
    · rintro ⟨rest, hwalk, _⟩
      cases hwalk with
      | stop hle => omega
      | step _ hdecode _ =>
        rw [he] at hdecode
        cases hdecode
  | case2 pc before hlt insn hinsn _ ih =>
    rw [ih]
    constructor
    · rintro ⟨rest, hwalk, rfl⟩
      exact ⟨pc :: rest, .step hlt hinsn hwalk, by simp⟩
    · rintro ⟨rest, hwalk, rfl⟩
      cases hwalk with
      | stop hle => omega
      | step _ hdecode hrest =>
        rw [hinsn] at hdecode
        cases hdecode
        exact ⟨_, hrest, by simp⟩
  | case3 pc before hle =>
    constructor
    · intro h
      cases h
      exact ⟨[], .stop (by omega), by simp⟩
    · rintro ⟨rest, hwalk, rfl⟩
      cases hwalk with
      | stop => simp
      | step hlt => omega

theorem starts_eq_ok_iff {starts : List Nat} : Code.starts code = .ok starts ↔ Walk code 0 starts := by
  rw [Code.starts, startsFrom_eq_ok_iff]
  simp

namespace Walk

variable {pc : Nat} {starts : List Nat}

lemma bounds (h : Walk code pc starts) : ∀ q ∈ starts, pc ≤ q ∧ q < code.size := by
  induction h with
  | stop => simp
  | @step pc insn rest hlt _ _ ih =>
    intro q hq
    rcases List.mem_cons.mp hq with rfl | hq
    · exact ⟨Nat.le_refl _, hlt⟩
    · obtain ⟨hle, hlt'⟩ := ih q hq
      exact ⟨by omega, hlt'⟩

lemma pairwise (h : Walk code pc starts) : starts.Pairwise (· < ·) := by
  induction h with
  | stop => exact .nil
  | @step pc insn rest _ _ hrest ih =>
    refine .cons (fun q hq => ?_) ih
    have hle := (hrest.bounds q hq).1
    have hpos := insn.length_pos
    omega

lemma head_mem (h : Walk code pc starts) (hlt : pc < code.size) : pc ∈ starts := by
  cases h with
  | stop hle => omega
  | step => exact List.mem_cons_self

/-- Each start is that of an instruction, and no other instruction starts before it ends. -/
theorem next (h : Walk code pc starts) {q : Nat} (hq : q ∈ starts) :
    ∃ insn, decode code q = .ok insn ∧
      (q + insn.length ∈ starts ∨ code.size ≤ q + insn.length) ∧
      ∀ r ∈ starts, q < r → q + insn.length ≤ r := by
  induction h with
  | stop => cases hq
  | @step pc insn rest hlt hdecode hrest ih =>
    rcases List.mem_cons.mp hq with rfl | hlater
    · refine ⟨insn, hdecode, ?_, ?_⟩
      · by_cases hin : q + insn.length < code.size
        · exact Or.inl (List.mem_cons_of_mem _ (hrest.head_mem hin))
        · exact Or.inr (by omega)
      · intro r hr hqr
        rcases List.mem_cons.mp hr with rfl | hr
        · omega
        · exact (hrest.bounds r hr).1
    · obtain ⟨insn', hdecode', hnext, hother⟩ := ih hlater
      refine ⟨insn', hdecode', hnext.imp (List.mem_cons_of_mem _) id, ?_⟩
      intro r hr hqr
      rcases List.mem_cons.mp hr with rfl | hr
      · have hle := (hrest.bounds q hlater).1
        omega
      · exact hother r hr hqr

end Walk
end Code
end ClassAssembly
