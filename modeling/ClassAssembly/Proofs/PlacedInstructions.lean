import ClassAssembly.Proofs.DepthTracking

/-! What emitting an instruction does to a draft: the instruction stands at the end of the code, the
depth of the stack changes by the words that it pops and pushes, and the local variables that it uses
are in use from then on. -/
namespace ClassAssembly

namespace Effect

/-- The local variable is told by an operand. -/
def isIndexed : Effect → Bool
  | .load _ none | .store _ none | .increment => true
  | _ => false

variable {effect : Effect} {first index : Int} {words : Nat}

/-- Taking a local variable into use means just those slots. -/
lemma localUse?_of_local? (h : effect.local? first = some (index, words)) :
    effect.localUse? first = some (index.toNat, words) := by
  cases effect with
  | load slot i | store slot i =>
    cases h
    cases i <;> rfl
  | increment =>
    cases h
    rfl
  | _ => cases h

/-- The index is the operand, or the opcode implies it. -/
lemma index_of_local? (h : effect.local? first = some (index, words)) :
    effect.isIndexed = true ∧ index = first ∨ 0 ≤ index ∧ ∀ other, effect.local? other =
      some (index, words) := by
  cases effect with
  | load slot i | store slot i =>
    cases h
    cases i with
    | none => exact .inl ⟨rfl, rfl⟩
    | some i => exact .inr ⟨Int.natCast_nonneg i, fun _ => rfl⟩
  | increment =>
    cases h
    exact .inl ⟨rfl, rfl⟩
  | _ => cases h

end Effect

/-- The same instruction, but if it is a branch it may lead elsewhere. -/
structure Instruction.Redirected (insn insn' : Instruction) : Prop where
  opcode : insn'.opcode = insn.opcode
  length : insn'.length = insn.length
  operands : insn.opcode.IsBranch ∨ insn' = insn

/-- The local variables that the instruction uses are among the first `size` slots. -/
def Instruction.LocalsIn (insn : Instruction) (size : Nat) : Prop :=
  ∀ traits, insn.opcode.traits = .ok traits → ∀ index words,
    traits.effect.local? insn.first = some (index, words) → 0 ≤ index ∧ index + words ≤ size

lemma Instruction.LocalsIn.mono {insn : Instruction} {size size' : Nat} (h : insn.LocalsIn size)
    (hle : size ≤ size') : insn.LocalsIn size' := by
  intro traits htraits index words hlocal
  obtain ⟨hpos, hbound⟩ := h traits htraits index words hlocal
  exact ⟨hpos, by omega⟩

namespace Instruction.Redirected

variable {insn insn' insn'' : Instruction}

theorem refl (insn : Instruction) : Redirected insn insn := ⟨rfl, rfl, .inr rfl⟩

theorem trans (h : Redirected insn insn') (h' : Redirected insn' insn'') :
    Redirected insn insn'' where
  opcode := h'.opcode.trans h.opcode
  length := h'.length.trans h.length
  operands := by
    rcases h.operands with hbranch | rfl
    · exact .inl hbranch
    · exact h'.operands

/-- Where a branch leads has nothing to do with what it pops. -/
lemma words?_eq (h : Redirected insn insn') (pool : ConstantPool) :
    insn'.words? pool = insn.words? pool := by
  rcases h.operands with ⟨traits, htraits, hjump⟩ | rfl
  · have hwords := Opcode.words_of_jump htraits hjump
    rw [Instruction.words?_eq (h.opcode ▸ htraits), Instruction.words?_eq htraits,
      Effect.wordsIn_of_words hwords, Effect.wordsIn_of_words hwords]
  · rfl

end Instruction.Redirected

namespace Opcode

variable {op : Opcode} {traits : OpcodeTraits}

/-- Where an operand tells the local variable, it is written as such. -/
lemma form_of_isIndexed (h : op.traits = .ok traits) (hindexed : traits.effect.isIndexed = true) :
    traits.form = .localIndex ∨ traits.form = .increment := by
  have hall : ∀ row ∈ OpcodeTraits.table.toList, ∀ traits ∈ row, traits.effect.isIndexed = true →
      traits.form = .localIndex ∨ traits.form = .increment := by
    decide +kernel
  exact hall _ (traits_mem h) traits rfl hindexed

/-- A branch uses no local variable. -/
lemma local?_of_jump (h : op.traits = .ok traits) (hflow : traits.flow.isJump = true) (first : Int) :
    traits.effect.local? first = none := by
  have hall : ∀ row ∈ OpcodeTraits.table.toList, ∀ traits ∈ row, traits.flow.isJump = true →
      traits.effect.local? 0 = none ∧ traits.effect.isIndexed = false := by
    decide +kernel
  obtain ⟨hzero, hindexed⟩ := hall _ (traits_mem h) traits rfl hflow
  cases hlocal : traits.effect.local? first with
  | none => rfl
  | some found =>
    rcases Effect.index_of_local? hlocal with ⟨htrue, _⟩ | ⟨_, hsame⟩
    · rw [hindexed] at htrue
      cases htrue
    · rw [hsame 0] at hzero
      cases hzero

lemma nonneg_of_encode {form : OperandForm} {first second : Int} {bytes : Bytes}
    (hform : form = .localIndex ∨ form = .increment)
    (h : op.encode form first second = .ok bytes) : 0 ≤ first := by
  rcases hform with rfl | rfl
  · obtain ⟨_, hrange, _⟩ := Except.bind_eq_ok.mp h
    exact (checkRange_eq_ok hrange).1
  · obtain ⟨_, hrange, _⟩ := Except.bind_eq_ok.mp h
    exact (checkRange_eq_ok hrange).1

end Opcode

lemma Instruction.LocalsIn.redirected {insn insn' : Instruction} {size : Nat}
    (h : insn.LocalsIn size) (hsame : insn.Redirected insn') : insn'.LocalsIn size := by
  rcases hsame.operands with ⟨traits, htraits, hjump⟩ | rfl
  · intro traits' htraits' index words hlocal
    rw [hsame.opcode, htraits] at htraits'
    cases htraits'
    rw [Opcode.local?_of_jump htraits hjump] at hlocal
    cases hlocal
  · exact h

namespace CodeDraft

open Step (bind_eq_ok)

variable {b b' : CodeDraft} {op : Opcode} {popped pushed : Nat}

/-- An instruction that pops and pushes so many words has been added at the end of the code. -/
structure Places (b b' : CodeDraft) (insn : Instruction) (popped pushed : Nat) : Prop where
  grown : b'.code.size = b.code.size + insn.length
  kept : ∀ i, i < b.code.size → b'.code[i]? = b.code[i]?
  size : b'.code.size ≤ maxCode
  decoded : Code.decode b'.code b.code.size = .ok insn
  fits : b.Fits popped pushed
  depth : b'.depth = b.depth - popped + pushed
  maxLocals : b.maxLocals ≤ b'.maxLocals
  locals : insn.LocalsIn b'.maxLocals

lemma size_of_append {bytes : Bytes} {flow : Flow}
    (h : (append op bytes popped pushed flow).outcome b = (.ok (), b')) :
    b'.code.size ≤ maxCode := (append_eq_ok h).size

/-- Encoded operands are read back from the end of the code. -/
lemma places_of_append {bytes : Bytes} {flow : Flow} {insn : Instruction} {b₁ : CodeDraft}
    (hcode : b₁.code = b.code) (hdepth : b₁.depth = b.depth) (hlocals : b.maxLocals ≤ b₁.maxLocals)
    (h : (append op bytes popped pushed flow).outcome b₁ = (.ok (), b'))
    (hdecode : Code.Holds b'.code b.code.size bytes →
      Code.decode b'.code b.code.size = .ok insn ∧ insn.length = bytes.length)
    (huse : insn.LocalsIn b₁.maxLocals) : Places b b' insn popped pushed := by
  have hsize := size_of_append h
  obtain ⟨⟨henough, hmax⟩, rfl⟩ := append_eq h
  have hbytes : (b₁.extended bytes popped pushed flow).code = b.code ++ bytes := by
    rw [← hcode]
    rfl
  have hholds := Code.holds_end b.code bytes
  rw [← hbytes] at hholds
  obtain ⟨hdecoded, hlength⟩ := hdecode hholds
  rw [hdepth] at henough hmax
  refine ⟨?_, fun i hi => ?_, hsize, hdecoded, ⟨henough, hmax⟩, ?_, hlocals, huse⟩
  · rw [hbytes, Code.size_appendList, hlength]
  · have hsame : Code.SameBytes b.code (b.code ++ bytes) 0 b.code.size :=
      Code.sameBytes_append bytes (Nat.le_refl _)
    rw [hbytes]
    exact hsame i (Nat.zero_le i) hi
  · rw [← hdepth]
    rfl

/-- The local variables of an instruction are in use once they have been taken. -/
lemma localsIn_of_encode {traits : OpcodeTraits} {insn : Instruction} {first second : Int}
    {bytes : Bytes} {size : Nat} (htraits : op.traits = .ok traits)
    (hencode : op.encode traits.form first second = .ok bytes)
    (hopcode : insn.opcode = op.spelled first) (hfirst : 0 < traits.form.operands → insn.first = first)
    (huse : ∀ index words, traits.effect.localUse? first = some (index, words) →
      index + words ≤ size) : insn.LocalsIn size := by
  intro traits' htraits' index words hlocal
  have hsame : traits' = traits := by
    by_cases hform : traits.form = .smallConstant
    · obtain rfl := Opcode.eq_ldc_of_form htraits hform
      have hconstant : ∀ op ∈ [Opcode.ldc, Opcode.ldcWide],
          op.traits.map (·.effect) = .ok .constant := by decide +kernel
      have hmem : insn.opcode ∈ [Opcode.ldc, Opcode.ldcWide] := by
        rw [hopcode, Opcode.spelled]
        split <;> simp
      have heffect : traits'.effect = .constant := by
        have hsome := hconstant _ hmem
        rw [htraits'] at hsome
        exact Except.ok.inj hsome
      rw [heffect] at hlocal
      cases hlocal
    · rw [hopcode, Opcode.spelled_of_form htraits hform, htraits] at htraits'
      exact (Except.ok.inj htraits').symm
  subst hsame
  rcases Effect.index_of_local? hlocal with ⟨hindexed, rfl⟩ | ⟨hpos, himplied⟩
  · have hform := Opcode.form_of_isIndexed htraits hindexed
    have hoperands : 0 < traits'.form.operands := by
      rcases hform with hform | hform <;> rw [hform] <;> decide
    have hnonneg := Opcode.nonneg_of_encode hform hencode
    rw [hfirst hoperands] at hlocal ⊢
    have hbound := huse _ _ (Effect.localUse?_of_local? hlocal)
    omega
  · have hbound := huse _ _ (Effect.localUse?_of_local? (himplied first))
    omega

/-- Finding the distance of a branch changes neither the code nor the depth, and what is found fits
in two bytes. -/
lemma resolve_text {source depth : Nat} {target : BranchTarget} {distance : Int}
    (hrange : ∀ distance, target = .distance distance → -32768 ≤ distance ∧ distance ≤ 32767)
    (h : (resolve source depth target).outcome b = (.ok distance, b')) :
    b'.code = b.code ∧ b'.depth = b.depth ∧ b'.maxLocals = b.maxLocals ∧
      (-32768 ≤ distance ∧ distance ≤ 32767) ∧
      ∀ given, target = .distance given → distance = given := by
  cases target with
  | distance given =>
    cases h
    exact ⟨rfl, rfl, rfl, hrange _ rfl, by rintro _ ⟨⟩; rfl⟩
  | label label =>
    obtain ⟨_, _, hlo, hhi, _⟩ := resolve_label_eq_ok h
    obtain ⟨state, _, _, ⟨_, _, rfl⟩ | ⟨_, rfl⟩⟩ := resolve_label_eq h
    · exact ⟨rfl, rfl, rfl, ⟨hlo, hhi⟩, by rintro _ ⟨⟩⟩
    · exact ⟨rfl, rfl, rfl, ⟨hlo, hhi⟩, by rintro _ ⟨⟩⟩

/-- A branch is placed with whatever distance it has so far. -/
lemma jump_places {target : BranchTarget}
    (hrange : ∀ distance, target = .distance distance → -32768 ≤ distance ∧ distance ≤ 32767)
    (h : (jump op target).outcome b = (.ok (), b')) :
    ∃ traits insn popped, op.traits = .ok traits ∧ traits.effect.words = some (popped, 0) ∧
      Places b b' insn popped 0 ∧ insn.opcode = op ∧
      ∀ distance, target = .distance distance → insn.first = distance := by
  obtain ⟨traits, _, hofExcept, h⟩ := bind_eq_ok.mp h
  obtain ⟨rfl, htraits⟩ := Step.ofExcept_eq_ok hofExcept
  simp only at h
  split at h
  · cases h
  · rename_i hnot
    have hflow : traits.flow.isJump = true := by simpa using hnot
    obtain ⟨_, _, hget, h⟩ := bind_eq_ok.mp h
    cases hget
    split at h
    · cases h
    · obtain ⟨distance, b₁, hresolve, h⟩ := bind_eq_ok.mp h
      obtain ⟨hcode, hdepth, hlocals, hfits, hgiven⟩ := resolve_text hrange hresolve
      refine ⟨traits, ⟨op, 3, false, distance, 0, Nat.succ_pos 2⟩, _, htraits,
        Opcode.words_of_jump htraits hflow,
        places_of_append hcode hdepth (Nat.le_of_eq hlocals.symm) h (fun hholds => ?_) ?_, rfl,
        hgiven⟩
      · have hbranch : Code.BranchAt b'.code b.code.size op distance :=
          ⟨⟨traits, htraits, Opcode.form_of_jump htraits hflow⟩, hfits, hholds⟩
        exact ⟨hbranch.decode_eq, by simp⟩
      · intro traits' htraits' index words hlocal
        rw [htraits] at htraits'
        cases htraits'
        rw [Opcode.local?_of_jump htraits hflow] at hlocal
        cases hlocal

/-- An instruction that was encoded is placed with its operands. -/
lemma encoded_places {traits : OpcodeTraits} {operands : List Int} {bytes : Bytes} {b₁ : CodeDraft}
    (htraits : op.traits = .ok traits) (hcount : op.checkCount traits.form operands = .ok ())
    (hencode : op.encode traits.form (operands[0]?.getD 0) (operands[1]?.getD 0) = .ok bytes)
    (h : (append op bytes popped pushed traits.flow).outcome b₁ = (.ok (), b'))
    (hcode : b₁.code = b.code) (hdepth : b₁.depth = b.depth) (hlocals : b.maxLocals ≤ b₁.maxLocals)
    (huse : ∀ index words, traits.effect.localUse? (operands[0]?.getD 0) = some (index, words) →
      index + words ≤ b₁.maxLocals) :
    ∃ insn, Places b b' insn popped pushed ∧
      insn.Spells (op.spelled (operands[0]?.getD 0)) operands := by
  have hholds := Code.holds_end b₁.code bytes
  rw [← (append_eq_ok h).code, hcode] at hholds
  obtain ⟨insn, hdecode, hlength, hspells⟩ := Code.decode_operands htraits hcount hencode hholds
  obtain ⟨insn', hdecode', _, hopcode, hfirst, _⟩ := Code.decode_encode htraits hencode hholds
  rw [hdecode] at hdecode'
  cases hdecode'
  exact ⟨insn, places_of_append hcode hdepth hlocals h (fun _ => ⟨hdecode, hlength⟩)
    (localsIn_of_encode htraits hencode hopcode hfirst huse), hspells⟩

/-- An instruction whose opcode tells what it pops and pushes. -/
lemma emit_places {operands : List Int} (h : (emit op operands).outcome b = (.ok (), b')) :
    ∃ traits insn popped pushed, op.traits = .ok traits ∧
      traits.effect.words = some (popped, pushed) ∧ Places b b' insn popped pushed ∧
      insn.Spells (op.spelled (operands[0]?.getD 0)) operands := by
  obtain ⟨traits, _, hofExcept, h⟩ := bind_eq_ok.mp h
  obtain ⟨rfl, htraits⟩ := Step.ofExcept_eq_ok hofExcept
  simp only at h
  split at h
  · cases h
  · split at h
    · cases h
    · cases h
    · rename_i popped pushed hwords _
      obtain ⟨_, _, hofExcept, h⟩ := bind_eq_ok.mp h
      obtain ⟨rfl, hcount⟩ := Step.ofExcept_eq_ok hofExcept
      split at h
      · rename_i hform
        obtain ⟨_, _, hofExcept, h⟩ := bind_eq_ok.mp h
        obtain ⟨rfl, hrange⟩ := Step.ofExcept_eq_ok hofExcept
        have hlength := Opcode.checkCount_eq_ok hcount
        rw [hform] at hlength
        obtain ⟨distance, rfl⟩ := List.length_eq_one_iff.mp hlength
        obtain ⟨traits', insn, popped', htraits', hwords', hplaces, hopcode, hfirst⟩ :=
          jump_places (by rintro _ ⟨⟩; exact Opcode.checkRange_eq_ok hrange) h
        rw [htraits] at htraits'
        cases htraits'
        refine ⟨traits, insn, popped', 0, htraits, hwords', hplaces, ?_, ?_⟩
        · rw [Opcode.spelled_of_form htraits (by rw [hform]; decide), hopcode]
        · simpa using hfirst _ rfl
      · obtain ⟨bytes, _, hofExcept, h⟩ := bind_eq_ok.mp h
        obtain ⟨rfl, hencode⟩ := Step.ofExcept_eq_ok hofExcept
        rw [Opcode.words_eq htraits] at hwords
        split at h
        · rename_i index words huse
          obtain ⟨_, _, hlocals, h⟩ := bind_eq_ok.mp h
          obtain rfl := useLocals_eq hlocals
          have hbound : ∀ index' words', traits.effect.localUse? (operands[0]?.getD 0) =
              some (index', words') → index' + words' ≤ max b.maxLocals (index + words) := by
            intro index' words' huse'
            rw [huse] at huse'
            cases huse'
            exact Nat.le_max_right _ _
          obtain ⟨insn, hplaces, hspells⟩ := encoded_places (b := b) htraits hcount hencode h rfl rfl
            (Nat.le_max_left _ _) hbound
          exact ⟨traits, insn, popped, pushed, htraits, hwords, hplaces, hspells⟩
        · rename_i hnone
          obtain ⟨insn, hplaces, hspells⟩ := encoded_places (b := b) htraits hcount hencode h rfl rfl
            (Nat.le_refl _) fun index words huse => absurd huse (hnone index words)
          exact ⟨traits, insn, popped, pushed, htraits, hwords, hplaces, hspells⟩

/-- An instruction of which the caller tells what it pops and pushes, where its opcode does not. -/
lemma emitWithEffect_places {operands : List Int} {popped pushed : Int}
    (h : (emitWithEffect op operands popped pushed).outcome b = (.ok (), b')) :
    ∃ traits insn words, op.traits = .ok traits ∧
      words = traits.effect.words.getD (popped.toNat, pushed.toNat) ∧
      Places b b' insn words.1 words.2 ∧
      insn.Spells (op.spelled (operands[0]?.getD 0)) operands := by
  obtain ⟨traits, _, hofExcept, h⟩ := bind_eq_ok.mp h
  obtain ⟨rfl, htraits⟩ := Step.ofExcept_eq_ok hofExcept
  split at h
  · obtain ⟨traits', insn, popped', pushed', htraits', hwords, hplaces, hspells⟩ := emit_places h
    rw [htraits] at htraits'
    cases htraits'
    exact ⟨traits, insn, (popped', pushed'), htraits, by rw [hwords, Option.getD_some], hplaces,
      hspells⟩
  · rename_i hwords
    have hnone : traits.effect.words = none := by
      rw [← Opcode.words_eq htraits]
      simpa using hwords
    obtain ⟨_, _, hofExcept, h⟩ := bind_eq_ok.mp h
    obtain ⟨rfl, hcount⟩ := Step.ofExcept_eq_ok hofExcept
    split at h
    · cases h
    · obtain ⟨bytes, _, hofExcept, h⟩ := bind_eq_ok.mp h
      obtain ⟨rfl, hencode⟩ := Step.ofExcept_eq_ok hofExcept
      have hunused : ∀ index words, traits.effect.localUse? (operands[0]?.getD 0) ≠
          some (index, words) := by
        generalize traits.effect = effect at hnone
        cases effect with
        | load | store | increment => cases hnone
        | _ => exact fun _ _ huse => by cases huse
      obtain ⟨insn, hplaces, hspells⟩ := encoded_places (b := b) htraits hcount hencode h rfl rfl
        (Nat.le_refl _) fun index words huse => absurd huse (hunused index words)
      exact ⟨traits, insn, (popped.toNat, pushed.toNat), htraits, by rw [hnone, Option.getD_none],
        hplaces, hspells⟩

/-- A switch is placed over its cases. -/
lemma reserveSwitch_places {low high : Int} {start : Nat} (hlow : -2147483648 ≤ low)
    (hhigh : high ≤ 2147483647) (h : (reserveSwitch low high).outcome b = (.ok start, b')) :
    ∃ insn, Places b b' insn 1 0 ∧ insn.Spells .tableswitch [low, high] := by
  have hreserves := reserveSwitch_eq_ok h
  have hholds := Code.holds_end b.code (Code.reservedBytes b.code.size low high)
  rw [← hreserves.code] at hholds
  have hswitch := Code.switchAt_reservedSwitch hreserves.ordered hlow hhigh hholds
  have hlength := Code.length_reservedBytes b.code.size low high
  obtain ⟨_, hfits, bytes, switches, rfl⟩ := reserveSwitch_eq h
  refine ⟨_, ⟨?_, fun i hi => ?_, hreserves.size, hswitch.decode_eq, hfits, rfl, Nat.le_refl _, ?_⟩,
    rfl, rfl⟩
  · rw [hreserves.code, Code.size_appendList, hlength]
  · have hsame : Code.SameBytes b.code (b.code ++ Code.reservedBytes b.code.size low high) 0
        b.code.size := Code.sameBytes_append _ (Nat.le_refl _)
    rw [hreserves.code]
    exact hsame i (Nat.zero_le i) hi
  · intro traits htraits index words hlocal
    have heffect : Opcode.tableswitch.traits.map (·.effect) = .ok (.fixed [.int] none) := by
      decide +kernel
    rw [htraits] at heffect
    have hfixed : traits.effect = .fixed [.int] none := Except.ok.inj heffect
    rw [hfixed] at hlocal
    cases hlocal

end CodeDraft
end ClassAssembly
