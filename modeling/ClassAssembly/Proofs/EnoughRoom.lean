import ClassAssembly.Proofs.BuilderCalls

/-! Steps that succeed wherever there is room. What a step may take of the indices of the constant
pool and of the bytes of the code is told beforehand, and adds up over steps in a row. -/
namespace ClassAssembly

/-- The number of indices that the constants of a request take at most. -/
def ConstantRequest.indices : ConstantRequest → Nat
  | utf8 _ | integer _ | float _ => 1
  | classRef _ | stringRef _ | long _ | double _ => 2
  | nameAndType .. => 3
  | fieldRef .. | methodRef .. => 6

namespace ConstantPool

variable {α β : Type} {m n : Nat}

/-- With so many indices left the step succeeds, and takes no more. -/
def Suffices (indices : Nat) (step : Step ConstantPool α) : Prop :=
  ∀ pool, pool.next + indices ≤ 65535 → ∃ a pool', step.outcome pool = (.ok a, pool') ∧
    pool'.next ≤ pool.next + indices

lemma Suffices.bind {step : Step ConstantPool α} {next : α → Step ConstantPool β}
    (hs : Suffices m step) (hn : ∀ a, Suffices n (next a)) : Suffices (m + n) (step >>= next) := by
  intro pool hroom
  obtain ⟨a, pool₁, ha, hle⟩ := hs pool (by omega)
  obtain ⟨b, pool₂, hb, hle'⟩ := hn a pool₁ (by omega)
  exact ⟨b, pool₂, Step.bind_eq_ok.mpr ⟨a, pool₁, ha, hb⟩, by omega⟩

lemma next_push (pool : ConstantPool) {c : Constant} (fresh : pool.index[c]? = none)
    (text : c.textLength ≤ 65535) (room : pool.next + width c ≤ 65535) :
    (pool.push c fresh text room).next = pool.next + width c := by
  rw [next_eq, next_eq]
  exact OffsetTable.extent_push _ _

lemma suffices_intern {c : Constant} (h : c.textLength ≤ 65535) : Suffices (width c) (intern c) := by
  intro pool hroom
  simp only [intern, Step.outcome_ofOutcome]
  split
  · exact ⟨_, _, rfl, Nat.le_add_right _ _⟩
  · rw [dif_neg (Nat.not_lt.mpr h), dif_neg (Nat.not_lt.mpr hroom)]
    exact ⟨_, _, rfl, Nat.le_of_eq (next_push ..)⟩

lemma suffices_part (c : Constant) (h : c.textOrEmpty = "") : Suffices (width c) (intern c) := by
  refine suffices_intern ?_
  rw [Constant.textLength, h]
  decide

section Texts

variable {text name descriptor : String}

lemma suffices_utf8 (h : ModifiedUtf8.length text ≤ 65535) : Suffices 1 (utf8 text) :=
  @suffices_intern (.utf8 text) h

lemma suffices_classRef (h : ModifiedUtf8.length (ClassName.canonical name) ≤ 65535) :
    Suffices 2 (classRef name) :=
  (suffices_utf8 h).bind fun i => suffices_part (.classRef i) rfl

lemma suffices_nameAndType (hname : ModifiedUtf8.length name ≤ 65535)
    (hdescriptor : ModifiedUtf8.length descriptor ≤ 65535) :
    Suffices 3 (nameAndType name descriptor) :=
  (suffices_utf8 hname).bind fun i => (suffices_utf8 hdescriptor).bind fun j =>
    suffices_part (.nameAndType i j) rfl

end Texts

/-- A request succeeds where its constants have room and its texts are not too long. -/
theorem suffices_issue {request : ConstantRequest}
    (h : ∀ text ∈ request.texts, ModifiedUtf8.length text ≤ 65535) :
    Suffices request.indices request.issue := by
  cases request with
  | utf8 text => exact suffices_utf8 (h text (by simp [ConstantRequest.texts]))
  | classRef name => exact suffices_classRef (h _ (by simp [ConstantRequest.texts]))
  | stringRef text =>
    exact (suffices_utf8 (h text (by simp [ConstantRequest.texts]))).bind fun i =>
      suffices_part (.stringRef i) rfl
  | integer value => exact suffices_part (.integer value) rfl
  | float bits => exact suffices_part (.float bits) rfl
  | long value => exact suffices_part (.long value) rfl
  | double bits => exact suffices_part (.double bits) rfl
  | nameAndType name descriptor =>
    exact suffices_nameAndType (h name (by simp [ConstantRequest.texts]))
      (h descriptor (by simp [ConstantRequest.texts]))
  | fieldRef owner name descriptor =>
    exact (suffices_classRef (h _ (by simp [ConstantRequest.texts]))).bind fun i =>
      (suffices_nameAndType (h name (by simp [ConstantRequest.texts]))
        (h descriptor (by simp [ConstantRequest.texts]))).bind fun j =>
        suffices_part (.fieldRef i j) rfl
  | methodRef owner name descriptor interface =>
    exact (suffices_classRef (h _ (by simp [ConstantRequest.texts]))).bind fun i =>
      (suffices_nameAndType (h name (by simp [ConstantRequest.texts]))
        (h descriptor (by simp [ConstantRequest.texts]))).bind fun j =>
        suffices_part (.methodRef i j interface) rfl

end ConstantPool

/-- The operands of the opcode and its effect on a frame. -/
def Opcode.Has (op : Opcode) (form : OperandForm) (effect : Effect) : Prop :=
  op.traits.map (fun traits => (traits.form, traits.effect)) = .ok (form, effect)

instance (op : Opcode) (form : OperandForm) (effect : Effect) : Decidable (op.Has form effect) :=
  inferInstanceAs (Decidable (_ = _))

lemma Opcode.Has.exists_traits {op : Opcode} {form : OperandForm} {effect : Effect}
    (h : op.Has form effect) :
    ∃ traits, op.traits = .ok traits ∧ traits.form = form ∧ traits.effect = effect := by
  rw [Has] at h
  cases hop : op.traits with
  | error e =>
    rw [hop] at h
    cases h
  | ok traits =>
    rw [hop] at h
    exact ⟨traits, rfl, Prod.mk.inj (Except.ok.inj h)⟩

namespace CodeDraft

open Step (bind_eq_ok)

variable {op : Opcode} {popped pushed before : Nat}

/-- With so many bytes left and this depth of the stack the step succeeds. It takes no more bytes,
and the depth is the other one then. -/
def Suffices (bytes before after : Nat) (step : Step CodeDraft Unit) : Prop :=
  ∀ b : CodeDraft, b.code.size + bytes ≤ maxCode → b.depth = before →
    ∃ b', step.outcome b = (.ok (), b') ∧ b'.code.size ≤ b.code.size + bytes ∧ b'.depth = after

lemma suffices_append {bytes : Bytes} {flow : Flow} (hpopped : popped ≤ before)
    (hdepth : before - popped + pushed ≤ maxDepth) :
    Suffices bytes.length before (before - popped + pushed) (append op bytes popped pushed flow) := by
  intro b hroom hbefore
  have hsize : (b.code ++ bytes).size = b.code.size + bytes.length := Code.size_appendList _ _
  simp only [append, Step.outcome_ofOutcome, hbefore]
  rw [if_neg (by omega), if_neg (by omega), if_neg (by omega)]
  split
  · exact ⟨_, rfl, Nat.le_of_eq hsize, rfl⟩
  · exact ⟨_, rfl, Nat.le_of_eq hsize, rfl⟩

/-- An instruction with the index of a constant takes three bytes at most. -/
lemma encode_index {form : OperandForm} {index : PoolIndex} {second : Int} (hindex : index ≠ 0)
    (hform : form = .smallConstant ∨ form = .constant) :
    ∃ bytes, op.encode form index.toNat second = .ok bytes ∧ bytes.length ≤ 3 := by
  have hpos : 0 < index.toNat :=
    Nat.pos_of_ne_zero fun hzero => hindex (UInt16.toNat.inj hzero)
  have hlt := index.toNat_lt
  have hrange : op.checkRange 1 65535 index.toNat = .ok () := if_pos (by omega)
  rcases hform with rfl | rfl
  · refine ⟨_, by rw [Opcode.encode, hrange]; rfl, ?_⟩
    split <;> simp [Bytes.signed]
  · exact ⟨_, by rw [Opcode.encode, hrange]; rfl, by simp [Bytes.signed]⟩

variable {form : OperandForm} {effect : Effect}

/-- An instruction that is no branch and uses no local variable. -/
lemma suffices_emit {operands : List Int} {size : Nat} {bytes : Bytes}
    (hop : op.Has form effect) (hform : form = .plain ∨ form = .smallConstant ∨ form = .constant)
    (hwords : effect.words = some (popped, pushed)) (hlocal : ∀ first, effect.localUse? first = none)
    (hcount : operands.length = form.operands)
    (hencode : op.encode form (operands[0]?.getD 0) (operands[1]?.getD 0) = .ok bytes)
    (hsize : bytes.length ≤ size) (hpopped : popped ≤ before)
    (hdepth : before - popped + pushed ≤ maxDepth) :
    Suffices size before (before - popped + pushed) (emit op operands) := by
  intro b hroom hbefore
  obtain ⟨traits, htraits, rfl, rfl⟩ := hop.exists_traits
  obtain ⟨b', happend, hgrown, hafter⟩ :=
    @suffices_append op popped pushed before bytes traits.flow hpopped hdepth b (by omega) hbefore
  refine ⟨b', bind_eq_ok.mpr ⟨traits, b, by rw [htraits]; rfl, ?_⟩, by omega, hafter⟩
  have hnot : traits.form ≠ .wide ∧ traits.form ≠ .switch ∧ traits.form ≠ .branch := by
    rcases hform with hform | hform | hform <;> rw [hform] <;> decide
  simp only [if_neg hnot.1, Opcode.words_eq htraits, hwords]
  split
  · rename_i heq
    cases heq
  · rename_i hswitch _
    exact absurd hswitch hnot.2.1
  · rename_i heq _
    cases heq
    refine bind_eq_ok.mpr ⟨(), b, by rw [Opcode.checkCount, if_pos hcount]; rfl, ?_⟩
    rw [if_neg hnot.2.2]
    refine bind_eq_ok.mpr ⟨bytes, b, by rw [hencode]; rfl, ?_⟩
    rw [hlocal]
    exact happend

/-- An instruction whose effect hangs on a descriptor. -/
lemma suffices_emitWithEffect {operands : List Int} {size : Nat} {bytes : Bytes}
    (hop : op.Has form effect) (hwords : effect.words = none) (hcount : operands.length = form.operands)
    (hencode : op.encode form (operands[0]?.getD 0) (operands[1]?.getD 0) = .ok bytes)
    (hsize : bytes.length ≤ size) (hpopped : popped ≤ before)
    (hdepth : before - popped + pushed ≤ maxDepth) :
    Suffices size before (before - popped + pushed)
      (emitWithEffect op operands popped pushed) := by
  intro b hroom hbefore
  obtain ⟨traits, htraits, rfl, rfl⟩ := hop.exists_traits
  obtain ⟨b', happend, hgrown, hafter⟩ :=
    @suffices_append op popped pushed before bytes traits.flow hpopped hdepth b (by omega) hbefore
  refine ⟨b', bind_eq_ok.mpr ⟨traits, b, by rw [htraits]; rfl, ?_⟩, by omega, hafter⟩
  rw [Opcode.words_eq htraits, hwords, if_neg (by decide)]
  refine bind_eq_ok.mpr ⟨(), b, by rw [Opcode.checkCount, if_pos hcount]; rfl, ?_⟩
  rw [if_neg (by omega)]
  exact bind_eq_ok.mpr ⟨bytes, b, by rw [hencode]; rfl, happend⟩

end CodeDraft

namespace MethodBuilder

open CodeDraft (maxCode)
open Step (bind_eq_ok)

variable {m m' n n' before middle after : Nat}

/-- With so many indices and bytes left and this depth of the stack the step succeeds. It takes no
more of them, and the depth is the other one then. -/
def Suffices (indices bytes before after : Nat) (step : Step MethodBuilder Unit) : Prop :=
  ∀ s : MethodBuilder, s.pool.next + indices ≤ 65535 →
    s.method.code.code.size + bytes ≤ maxCode → s.method.code.depth = before →
    ∃ s', step.outcome s = (.ok (), s') ∧ s'.pool.next ≤ s.pool.next + indices ∧
      s'.method.code.code.size ≤ s.method.code.code.size + bytes ∧ s'.method.code.depth = after

namespace Suffices

theorem pure : Suffices 0 0 before before (pure ()) :=
  fun s _ _ hbefore => ⟨s, rfl, Nat.le_refl _, Nat.le_refl _, hbefore⟩

theorem mono {step : Step MethodBuilder Unit} (h : Suffices m n before after step) (hm : m ≤ m')
    (hn : n ≤ n') : Suffices m' n' before after step := by
  intro s hindices hbytes hbefore
  obtain ⟨s', hstep, hindices', hbytes', hafter⟩ := h s (by omega) (by omega) hbefore
  exact ⟨s', hstep, by omega, by omega, hafter⟩

/-- What steps in a row take adds up. -/
theorem bind {step next : Step MethodBuilder Unit} (hs : Suffices m n before middle step)
    (hn : Suffices m' n' middle after next) :
    Suffices (m + m') (n + n') before after (do step; next) := by
  intro s hindices hbytes hbefore
  obtain ⟨s₁, hstep, hindices₁, hbytes₁, hmiddle⟩ := hs s (by omega) (by omega) hbefore
  obtain ⟨s₂, hnext, hindices₂, hbytes₂, hafter⟩ := hn s₁ (by omega) (by omega) hmiddle
  exact ⟨s₂, bind_eq_ok.mpr ⟨(), s₁, hstep, hnext⟩, by omega, by omega, hafter⟩

theorem forM {α : Type} {f : α → Step MethodBuilder Unit} {xs : List α}
    (h : ∀ x ∈ xs, Suffices m n before before (f x)) :
    Suffices (xs.length * m) (xs.length * n) before before (xs.forM f) := by
  induction xs with
  | nil =>
    rw [List.length_nil, Nat.zero_mul, Nat.zero_mul]
    exact .pure
  | cons x xs ih =>
    have hrest := ih fun y hy => h y (List.mem_cons_of_mem _ hy)
    rw [List.length_cons, Nat.succ_mul, Nat.succ_mul, Nat.add_comm _ m, Nat.add_comm _ n]
    exact (h x List.mem_cons_self).bind hrest

lemma code {step : Step CodeDraft Unit} (h : CodeDraft.Suffices n before after step) :
    Suffices 0 n before after (code step) := by
  intro s _ hbytes hbefore
  obtain ⟨b', hstep, hgrown, hafter⟩ := h s.method.code hbytes hbefore
  refine ⟨⟨{ s.method with code := b' }, s.pool⟩, ?_, Nat.le_refl _, hgrown, hafter⟩
  simp only [MethodBuilder.code, Step.outcome_ofOutcome, hstep]

/-- A constant is asked for, and then an instruction is written with its index. -/
lemma request {request : ConstantRequest} {emission : PoolIndex → Step CodeDraft Unit}
    (htexts : ∀ text ∈ request.texts, ModifiedUtf8.length text ≤ 65535)
    (h : ∀ index, index ≠ 0 → CodeDraft.Suffices n before after (emission index)) :
    Suffices request.indices n before after (do
      let index ← constants request.issue
      MethodBuilder.code (emission index)) := by
  intro s hindices hbytes hbefore
  obtain ⟨index, pool, hissue, hle⟩ := ConstantPool.suffices_issue htexts s.pool hindices
  have hindex : index ≠ 0 := by
    obtain ⟨c, hc⟩ := (ConstantPool.holds_of_issue hissue).get?_isSome
    rintro rfl
    exact absurd (ConstantPool.bounds_of_get? hc).1 (by decide)
  have hconstants : (constants request.issue).outcome s = (.ok index, ⟨s.method, pool⟩) := by
    simp only [constants, Step.outcome_ofOutcome, hissue]
  obtain ⟨s', hcode, hpool, hgrown, hafter⟩ :=
    (code (h index hindex)) ⟨s.method, pool⟩ (by simp only; omega) hbytes hbefore
  refine ⟨s', bind_eq_ok.mpr ⟨index, _, hconstants, hcode⟩, ?_, hgrown, hafter⟩
  simp only at hpool
  omega

end Suffices

end MethodBuilder

end ClassAssembly
