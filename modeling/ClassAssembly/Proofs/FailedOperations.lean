import ClassAssembly.Proofs.DraftLedger
import ClassAssembly.Proofs.EmittedCode
import ClassAssembly.Proofs.StepEnds

/-! What an operation on a draft leaves behind when it fails. Most errors are found before anything
is changed; the others are listed here with what has been changed by then. -/
namespace ClassAssembly

namespace Error

/-- The stack has too few words for an instruction. -/
def isUnderflow : Error → Bool
  | stackUnderflow _ _ => true
  | _ => false

/-- An instruction has no room in the code or on the stack. -/
def isOutOfRoom : Error → Bool
  | limit (.codeTooLarge _) | stackOverflow _ => true
  | _ => false

/-- A branch would have to lead too far, or is not in the code at all. -/
def isOutOfReach : Error → Bool
  | limit (.branchTooFar _ _) | outOfBounds _ _ => true
  | _ => false

/-- An error about the request itself, not about the code to which it would be added. -/
structure Early (e : Error) : Prop where
  underflow : e.isUnderflow = false
  room : e.isOutOfRoom = false
  reach : e.isOutOfReach = false

end Error

namespace Step

lemma ofExcept_eq_error {σ α : Type} {result : Except Error α} {s t : σ} {e : Error}
    (h : (ofExcept result : Step σ α).outcome s = (.error e, t)) : s = t ∧ result = .error e := by
  rw [outcome_ofExcept, Prod.mk.injEq] at h
  exact ⟨h.2, h.1⟩

lemma map_eq_error {σ α β : Type} {step : Step σ α} {f : α → β} {s t : σ} {e : Error}
    (h : (f <$> step).outcome s = (.error e, t)) : step.outcome s = (.error e, t) := by
  rw [map_eq_pure_bind] at h
  rcases bind_eq_error.mp h with h | ⟨_, _, _, h⟩
  · exact h
  · cases h

end Step

namespace Opcode

variable {op : Opcode} {e : Error}

lemma early_of_traits (h : op.traits = .error e) : e.Early := by
  unfold traits at h
  split at h
  · cases h
  · cases h
    exact ⟨rfl, rfl, rfl⟩

lemma early_of_checkRange {low high operand : Int} (h : op.checkRange low high operand = .error e) :
    e.Early := by
  unfold checkRange at h
  split at h
  · cases h
  · cases h
    exact ⟨rfl, rfl, rfl⟩

lemma early_of_checkCount {form : OperandForm} {operands : List Int}
    (h : op.checkCount form operands = .error e) : e.Early := by
  unfold checkCount at h
  split at h
  · cases h
  · cases h
    exact ⟨rfl, rfl, rfl⟩

lemma early_of_encode {form : OperandForm} {first second : Int}
    (h : op.encode form first second = .error e) : e.Early := by
  -- One operand is checked, or two, and nothing fails after that.
  have hone {low high operand : Int} {bytes : Bytes}
      (h : (op.checkRange low high operand >>= fun _ => pure bytes) = .error e) : e.Early := by
    rcases Except.bind_eq_error.mp h with h | ⟨_, _, h⟩
    · exact early_of_checkRange h
    · cases h
  have htwo {low high operand low' high' operand' : Int} {bytes : Bytes}
      (h : (op.checkRange low high operand >>= fun _ =>
        op.checkRange low' high' operand' >>= fun _ => pure bytes) = .error e) : e.Early := by
    rcases Except.bind_eq_error.mp h with h | ⟨_, _, h⟩
    · exact early_of_checkRange h
    · exact hone h
  cases form with
  | plain => cases h
  | signedByte | signedShort | smallConstant | constant | localIndex | arrayCode => exact hone h
  | increment | interfaceCall | dimensions => exact htwo h
  | branch | switch | wide =>
    cases h
    exact ⟨rfl, rfl, rfl⟩

/-- The words that a branch pops. -/
def popped (op : Opcode) : Nat :=
  match op.traits with
  | .ok traits => traits.popped
  | .error _ => 0

lemma popped_of_traits {traits : OpcodeTraits} (h : op.traits = .ok traits) :
    op.popped = traits.popped := by
  unfold popped
  rw [h]

/-- The effect of a branch on the stack hangs on no descriptor. -/
lemma words_of_branch {traits : OpcodeTraits} (h : op.traits = .ok traits)
    (hform : traits.form = .branch) : traits.effect.words.isSome := by
  have hall : ∀ row ∈ OpcodeTraits.table.toList, ∀ traits ∈ row, traits.form = .branch →
      traits.effect.words.isSome := by
    decide +kernel
  exact hall _ (traits_mem h) traits rfl hform

end Opcode

namespace CodeDraft

open Step (bind_eq_ok bind_eq_error)

variable {b b' : CodeDraft} {op : Opcode} {label : Label} {e : Error}

/-- What a branch leaves when it fails: it is recorded, or waits for its label, before it is seen
whether it has room and leads not too far. -/
def branchRemains (b : CodeDraft) (e : Error) (popped : Nat) : BranchTarget → CodeDraft
  | .distance distance =>
    if e.isOutOfRoom then b.jumping b.code.size (b.code.size + distance) else b
  | .label label =>
    match b.labels[label]? with
    | none => b
    | some state =>
      if e.isOutOfRoom || e.isOutOfReach then
        match state.offset with
        | some target =>
          (b.relabelled label { state with depth := some (b.depth - popped) }).jumping
            b.code.size target
        | none =>
          b.relabelled label { state with
            depth := some (b.depth - popped), pending := b.code.size :: state.pending }
      else b

/-- What an instruction leaves when it cannot be emitted: its local variables are taken into use
before it is appended. -/
def emissionRemains (b : CodeDraft) (e : Error) (op : Opcode) (operands : List Int) : CodeDraft :=
  match op.traits with
  | .error _ => b
  | .ok traits =>
    let first := operands[0]?.getD 0
    if traits.form = .branch then b.branchRemains e op.popped (.distance first)
    else
      match traits.effect.localUse? first with
      | some (index, words) =>
        if e.isUnderflow || e.isOutOfRoom then b.occupying (max b.maxLocals (index + words)) else b
      | none => b

/-- A branch can lead to this target. -/
def inReach (target source : Nat) : Bool :=
  decide (-32768 ≤ (target : Int) - source ∧ (target : Int) - source ≤ 32767)

/-- A branch can be led to a target, in code of this size. -/
def patchable (size target source : Nat) : Bool :=
  inReach target source && decide (source + 3 ≤ size)

lemma patchable_iff {size target source : Nat} : patchable size target source = true ↔
    (-32768 ≤ (target : Int) - source ∧ (target : Int) - source ≤ 32767) ∧ source + 3 ≤ size := by
  rw [patchable, inReach, Bool.and_eq_true, decide_eq_true_eq, decide_eq_true_eq]

/-- What binding a label leaves when a branch to it cannot be patched: the label is bound, the
branches before that one are patched, and no branch waits any more. -/
def bindingRemains (b : CodeDraft) (e : Error) (label : Label) : CodeDraft :=
  match b.labels[label]? with
  | none => b
  | some state =>
    if e.isOutOfReach then
      b.landing label (if b.reachable then b.depth else state.depth.getD b.depth)
        (state.pending.reverse.takeWhile (patchable b.code.size b.code.size)).reverse
    else b

/-- What binding the label of a handler leaves: the end of the code is taken for the start of the
handler before anything is known about the label. -/
def handlerRemains (b : CodeDraft) (e : Error) (label : Label) : CodeDraft :=
  let opened :=
    if !b.reachable || b.facts.blockStarts.back? == some b.code.size then
      { b with reachable := false, depth := 1 }
    else b
  match b.labels[label]? with
  | none => opened
  | some state =>
    (opened.relabelled label { state with depth := some (state.depth.getD 1) }).bindingRemains e
      label

/-- The draft that an operation leaves when it fails with an error. -/
def remains (b : CodeDraft) (e : Error) : DraftOperation → CodeDraft
  | .emit op operands | .emitWithEffect op operands _ _ => b.emissionRemains e op operands
  | .jump op target => b.branchRemains e op.popped target
  | .bindLabel label => b.bindingRemains e label
  | .bindHandler label => b.handlerRemains e label
  | .newLabel | .reserveSwitch .. | .patchDefault .. | .patchCase .. | .setDepth _
  | .useLocals .. => b

section Untouched

lemma branchRemains_of_fits {popped : Nat} {target : BranchTarget} (hroom : e.isOutOfRoom = false)
    (hreach : e.isOutOfReach = false) : b.branchRemains e popped target = b := by
  cases target with
  | distance distance => simp [branchRemains, hroom]
  | label label =>
    simp only [branchRemains, hroom, hreach]
    split <;> rfl

lemma emissionRemains_of_fits {operands : List Int} (hunder : e.isUnderflow = false)
    (hroom : e.isOutOfRoom = false) : b.emissionRemains e op operands = b := by
  unfold emissionRemains
  split
  · rfl
  · simp only [branchRemains, hunder, hroom]
    split
    · rfl
    · split <;> rfl

/-- An instruction whose effect hangs on a descriptor uses no local variable and is no branch. -/
lemma emissionRemains_of_words {operands : List Int} {traits : OpcodeTraits}
    (htraits : op.traits = .ok traits) (hwords : traits.words = none) :
    b.emissionRemains e op operands = b := by
  rw [Opcode.words_eq htraits] at hwords
  have hform : traits.form ≠ .branch := by
    intro hform
    have hsome := Opcode.words_of_branch htraits hform
    rw [hwords] at hsome
    cases hsome
  have hnone : traits.effect.localUse? (operands[0]?.getD 0) = none := by
    generalize traits.effect = effect at hwords
    cases effect with
    | load | store | increment => cases hwords
    | _ => rfl
  unfold emissionRemains
  rw [htraits]
  simp only [if_neg hform, hnone]

lemma bindingRemains_of_reach (hreach : e.isOutOfReach = false) :
    b.bindingRemains e label = b := by
  simp only [bindingRemains, hreach]
  split <;> rfl

end Untouched

lemma append_eq_error {bytes : Bytes} {popped pushed : Nat} {flow : Flow}
    (h : (append op bytes popped pushed flow).outcome b = (.error e, b')) :
    b' = b ∧ (e.isUnderflow || e.isOutOfRoom) = true ∧
      (popped ≤ b.depth → e.isOutOfRoom = true) := by
  simp only [append, Step.outcome_ofOutcome] at h
  split at h
  · rename_i hunder
    cases h
    exact ⟨rfl, rfl, fun hle => absurd hunder (Nat.not_lt.mpr hle)⟩
  · split at h
    · cases h
      exact ⟨rfl, rfl, fun _ => rfl⟩
    · split at h
      · cases h
        exact ⟨rfl, rfl, fun _ => rfl⟩
      · split at h <;> cases h

lemma useLocals_eq_error {index words : Nat}
    (h : (useLocals index words).outcome b = (.error e, b')) : b' = b ∧ e.Early := by
  rw [useLocals, Step.outcome_ofOutcome] at h
  split at h
  · cases h
    exact ⟨rfl, rfl, rfl, rfl⟩
  · cases h

lemma labelStatus_eq_error (h : (labelStatus label).outcome b = (.error e, b')) :
    b' = b ∧ b.labels[label]? = none ∧ e.Early := by
  rcases bind_eq_error.mp h with h | ⟨_, _, hget, h⟩
  · cases h
  · cases hget
    split at h
    · cases h
    · rename_i hnone
      cases h
      exact ⟨rfl, hnone, rfl, rfl, rfl⟩

lemma agreeOnDepth_eq_error {depth : Nat}
    (h : (agreeOnDepth label depth).outcome b = (.error e, b')) : b' = b ∧ e.Early := by
  rcases bind_eq_error.mp h with h | ⟨state, _, hstatus, h⟩
  · obtain ⟨rfl, _, hearly⟩ := labelStatus_eq_error h
    exact ⟨rfl, hearly⟩
  · obtain ⟨rfl, _⟩ := labelStatus_eq_ok hstatus
    split at h
    · split at h
      · cases h
        exact ⟨rfl, rfl, rfl, rfl⟩
      · cases h
    · cases h

lemma branchDistance_eq_error {source target : Nat} (h : branchDistance source target = .error e) :
    e.isOutOfReach = true ∧ e.isOutOfRoom = false ∧ inReach target source = false := by
  simp only [branchDistance] at h
  split at h
  · cases h
  · rename_i hfar
    cases h
    exact ⟨rfl, rfl, by simpa [inReach] using hfar⟩

/-- A branch to a label fails before anything is changed, or because the label is too far away. -/
lemma resolve_label_eq_error {source depth : Nat}
    (h : (resolve source depth (.label label)).outcome b = (.error e, b')) :
    (b' = b ∧ e.Early) ∨ e.isOutOfReach = true ∧ ∃ state target, b.labels[label]? = some state ∧
      state.offset = some target ∧
      b' = (b.relabelled label { state with depth := some depth }).jumping source target := by
  rcases bind_eq_error.mp h with h | ⟨_, b₁, hagree, h⟩
  · exact .inl (agreeOnDepth_eq_error h)
  · obtain ⟨state, hstate, _, rfl⟩ := agreeOnDepth_eq hagree
    have hget : (b.relabelled label { state with depth := some depth }).labels[label]? =
        some { state with depth := some depth } := by
      rw [getElem?_relabelled hstate, if_pos rfl]
    rcases bind_eq_error.mp h with h | ⟨state₁, _, hstatus, h⟩
    · obtain ⟨_, hnone, _⟩ := labelStatus_eq_error h
      rw [hget] at hnone
      cases hnone
    · obtain ⟨rfl, hstate₁⟩ := labelStatus_eq_ok hstatus
      rw [hget] at hstate₁
      cases hstate₁
      split at h
      · rename_i target hoffset
        rcases bind_eq_error.mp h with h | ⟨_, b₂, hrecord, h⟩
        · cases h
        · cases hrecord
          obtain ⟨rfl, hdistance⟩ := Step.ofExcept_eq_error h
          exact .inr ⟨(branchDistance_eq_error hdistance).1, state, target, hstate, hoffset, rfl⟩
      · cases h

lemma jump_eq_error {target : BranchTarget} (h : (jump op target).outcome b = (.error e, b')) :
    b' = b.branchRemains e op.popped target := by
  have huntouched (hearly : e.Early) : b.branchRemains e op.popped target = b :=
    branchRemains_of_fits hearly.room hearly.reach
  rcases bind_eq_error.mp h with h | ⟨traits, _, hofExcept, h⟩
  · obtain ⟨rfl, htraits⟩ := Step.ofExcept_eq_error h
    exact (huntouched (Opcode.early_of_traits htraits)).symm
  · obtain ⟨rfl, htraits⟩ := Step.ofExcept_eq_ok hofExcept
    simp only at h
    split at h
    · cases h
      exact (huntouched ⟨rfl, rfl, rfl⟩).symm
    · rcases bind_eq_error.mp h with h | ⟨_, _, hget, h⟩
      · cases h
      · cases hget
        rw [← Opcode.popped_of_traits htraits] at h
        split at h
        · cases h
          exact (branchRemains_of_fits rfl rfl).symm
        · rename_i hdepth
          rcases bind_eq_error.mp h with h | ⟨distance, b₁, hresolve, h⟩
          · cases target with
            | distance distance => cases h
            | label label =>
              rcases resolve_label_eq_error h with ⟨rfl, hearly⟩ | ⟨hfar, state, target, hstate,
                hoffset, rfl⟩
              · exact (huntouched hearly).symm
              · simp [branchRemains, hstate, hoffset, hfar]
          · obtain ⟨rfl, _, hroom⟩ := append_eq_error h
            cases target with
            | distance given =>
              obtain rfl := resolve_distance_eq hresolve
              have hfull := hroom (Nat.le_of_not_lt hdepth)
              simp [branchRemains, hfull]
            | label label =>
              obtain ⟨state, hstate, _, hcases⟩ := resolve_label_eq hresolve
              rcases hcases with ⟨target, hoffset, rfl⟩ | ⟨hoffset, rfl⟩
              · have hfull := hroom (Nat.le_of_not_lt hdepth)
                simp [branchRemains, hstate, hoffset, hfull]
              · have hfull := hroom (Nat.le_of_not_lt hdepth)
                simp [branchRemains, hstate, hoffset, hfull]

lemma emit_eq_error {operands : List Int} (h : (emit op operands).outcome b = (.error e, b')) :
    b' = b.emissionRemains e op operands := by
  have huntouched (hearly : e.Early) : b.emissionRemains e op operands = b :=
    emissionRemains_of_fits hearly.underflow hearly.room
  rcases bind_eq_error.mp h with h | ⟨traits, _, hofExcept, h⟩
  · obtain ⟨rfl, htraits⟩ := Step.ofExcept_eq_error h
    exact (huntouched (Opcode.early_of_traits htraits)).symm
  · obtain ⟨rfl, htraits⟩ := Step.ofExcept_eq_ok hofExcept
    simp only at h
    split at h
    · cases h
      exact (huntouched ⟨rfl, rfl, rfl⟩).symm
    · split at h
      · cases h
        exact (huntouched ⟨rfl, rfl, rfl⟩).symm
      · cases h
        exact (huntouched ⟨rfl, rfl, rfl⟩).symm
      · rename_i popped pushed hwords _
        rcases bind_eq_error.mp h with h | ⟨_, _, hofExcept, h⟩
        · obtain ⟨rfl, hcount⟩ := Step.ofExcept_eq_error h
          exact (huntouched (Opcode.early_of_checkCount hcount)).symm
        · obtain ⟨rfl, _⟩ := Step.ofExcept_eq_ok hofExcept
          split at h
          · rename_i hform
            rcases bind_eq_error.mp h with h | ⟨_, _, hofExcept, h⟩
            · obtain ⟨rfl, hrange⟩ := Step.ofExcept_eq_error h
              exact (huntouched (Opcode.early_of_checkRange hrange)).symm
            · obtain ⟨rfl, _⟩ := Step.ofExcept_eq_ok hofExcept
              rw [jump_eq_error h]
              unfold emissionRemains
              rw [htraits]
              exact (if_pos hform).symm
          · rename_i hform
            rcases bind_eq_error.mp h with h | ⟨bytes, _, hofExcept, h⟩
            · obtain ⟨rfl, hencode⟩ := Step.ofExcept_eq_error h
              exact (huntouched (Opcode.early_of_encode hencode)).symm
            · obtain ⟨rfl, _⟩ := Step.ofExcept_eq_ok hofExcept
              split at h
              · rename_i index words huse
                rcases bind_eq_error.mp h with h | ⟨_, _, hlocals, h⟩
                · obtain ⟨rfl, hearly⟩ := useLocals_eq_error h
                  exact (huntouched hearly).symm
                · obtain rfl := useLocals_eq hlocals
                  obtain ⟨rfl, hlate, _⟩ := append_eq_error h
                  unfold emissionRemains
                  rw [htraits]
                  simp only [if_neg hform, huse, hlate, if_true]
                  rfl
              · rename_i hnone
                obtain ⟨rfl, _⟩ := append_eq_error h
                unfold emissionRemains
                rw [htraits]
                simp only [if_neg hform]
                split
                · rename_i huse
                  exact absurd huse (hnone _ _)
                · rfl

lemma emitWithEffect_eq_error {operands : List Int} {popped pushed : Int}
    (h : (emitWithEffect op operands popped pushed).outcome b = (.error e, b')) :
    b' = b.emissionRemains e op operands := by
  have huntouched (hearly : e.Early) : b.emissionRemains e op operands = b :=
    emissionRemains_of_fits hearly.underflow hearly.room
  rcases bind_eq_error.mp h with h | ⟨traits, _, hofExcept, h⟩
  · obtain ⟨rfl, htraits⟩ := Step.ofExcept_eq_error h
    exact (huntouched (Opcode.early_of_traits htraits)).symm
  · obtain ⟨rfl, htraits⟩ := Step.ofExcept_eq_ok hofExcept
    split at h
    · exact emit_eq_error h
    · rename_i hwords
      rw [emissionRemains_of_words htraits (by simpa using hwords)]
      rcases bind_eq_error.mp h with h | ⟨_, _, hofExcept, h⟩
      · exact (Step.ofExcept_eq_error h).1.symm
      · obtain ⟨rfl, _⟩ := Step.ofExcept_eq_ok hofExcept
        split at h
        · cases h
          rfl
        · rcases bind_eq_error.mp h with h | ⟨bytes, _, hofExcept, h⟩
          · exact (Step.ofExcept_eq_error h).1.symm
          · obtain ⟨rfl, _⟩ := Step.ofExcept_eq_ok hofExcept
            exact (append_eq_error h).1

lemma overwrite_eq_error {offset : Nat} {bytes : Bytes}
    (h : (overwrite offset bytes).outcome b = (.error e, b')) :
    b' = b ∧ e.isOutOfReach = true ∧ b.code.size < offset + bytes.length := by
  rw [overwrite, Step.outcome_ofOutcome] at h
  split at h
  · rename_i hout
    cases h
    exact ⟨rfl, rfl, hout⟩
  · cases h

lemma patch_eq_error {target : Nat} {sources : List Nat}
    (h : (patch target sources).outcome b = (.error e, b')) :
    e.isOutOfReach = true ∧
      b' = b.redirecting target (sources.takeWhile (patchable b.code.size target)) := by
  induction sources generalizing b with
  | nil => cases h
  | cons source rest ih =>
    rcases bind_eq_error.mp h with h | ⟨distance, _, hofExcept, h⟩
    · obtain ⟨rfl, hdistance⟩ := Step.ofExcept_eq_error h
      obtain ⟨hfar, _, hreach⟩ := branchDistance_eq_error hdistance
      refine ⟨hfar, ?_⟩
      rw [List.takeWhile_cons_of_neg (by simp [patchable, hreach])]
      simp [redirecting, Code.redirected]
    · obtain ⟨rfl, hdistance⟩ := Step.ofExcept_eq_ok hofExcept
      obtain ⟨rfl, hfits⟩ := branchDistance_eq_ok hdistance
      rcases bind_eq_error.mp h with h | ⟨_, b₁, hwrite, h⟩
      · obtain ⟨rfl, hfar, hout⟩ := overwrite_eq_error h
        rw [Bytes.length_signed] at hout
        refine ⟨hfar, ?_⟩
        rw [List.takeWhile_cons_of_neg (by simp [patchable, hout])]
        simp [redirecting, Code.redirected]
      · obtain ⟨hwithin, rfl⟩ := overwrite_eq_ok hwrite
        rw [Bytes.length_signed] at hwithin
        rcases bind_eq_error.mp h with h | ⟨_, b₂, hrecord, h⟩
        · cases h
        · cases hrecord
          obtain ⟨hfar, rfl⟩ := ih h
          refine ⟨hfar, ?_⟩
          rw [List.takeWhile_cons_of_pos (patchable_iff.mpr ⟨hfits, hwithin⟩)]
          simp [redirecting, Code.redirected]

lemma bindLabel_eq_error (h : (bindLabel label).outcome b = (.error e, b')) :
    b' = b.bindingRemains e label := by
  have huntouched (hearly : e.Early) : b.bindingRemains e label = b :=
    bindingRemains_of_reach hearly.reach
  -- The end of binding a label, where the depth has been found to agree.
  have hend : ∀ (depth : Nat) (state : LabelStatus),
      (modify (fun b => { b with depth, reachable := true }) >>= fun _ =>
        setLabel label ⟨some b.code.size, some depth, []⟩ >>= fun _ =>
          patch b.code.size state.pending.reverse).outcome b = (.error e, b') →
      e.isOutOfReach = true ∧ b' = b.landing label depth
        (state.pending.reverse.takeWhile (patchable b.code.size b.code.size)).reverse := by
    intro depth state h
    rcases bind_eq_error.mp h with h | ⟨_, b₁, hmodify, h⟩
    · cases h
    · cases hmodify
      rcases bind_eq_error.mp h with h | ⟨_, b₂, hset, h⟩
      · cases h
      · cases hset
        obtain ⟨hfar, rfl⟩ := patch_eq_error h
        refine ⟨hfar, ?_⟩
        rw [landing, List.reverse_reverse]
        rfl
  rcases bind_eq_error.mp h with h | ⟨state, _, hstatus, h⟩
  · obtain ⟨rfl, _, hearly⟩ := labelStatus_eq_error h
    exact (huntouched hearly).symm
  · obtain ⟨rfl, hstate⟩ := labelStatus_eq_ok hstatus
    simp only at h
    split at h
    · cases h
      exact (huntouched ⟨rfl, rfl, rfl⟩).symm
    · rcases bind_eq_error.mp h with h | ⟨_, _, hget, h⟩
      · cases h
      · cases hget
        split at h
        · rename_i hreachable
          split at h
          · split at h
            · cases h
              exact (huntouched ⟨rfl, rfl, rfl⟩).symm
            · obtain ⟨hfar, rfl⟩ := hend _ state h
              simp [bindingRemains, hstate, hfar, hreachable]
          · obtain ⟨hfar, rfl⟩ := hend _ state h
            simp [bindingRemains, hstate, hfar, hreachable]
        · rename_i hreachable
          obtain ⟨hfar, rfl⟩ := hend _ state h
          simp [bindingRemains, hstate, hfar, hreachable]

lemma bindHandler_eq_error (h : (bindHandler label).outcome b = (.error e, b')) :
    b' = b.handlerRemains e label := by
  rcases bind_eq_error.mp h with h | ⟨_, opened, hmodify, h⟩
  · cases h
  · rw [Step.outcome_modify, Prod.mk.injEq] at hmodify
    obtain ⟨_, hopened⟩ := hmodify
    have hlabels : opened.labels = b.labels := by
      rw [← hopened]
      split <;> rfl
    -- The depth of the stack at the start of a handler is always allowed.
    have hbind : ∀ b₁, (bindLabel label >>= fun _ => get >>= fun b =>
        setDepthAt b.code.size 1).outcome b₁ = (.error e, b') → b' = b₁.bindingRemains e label := by
      intro b₁ h
      rcases bind_eq_error.mp h with h | ⟨_, b₂, _, h⟩
      · exact bindLabel_eq_error h
      · cases h
    rcases bind_eq_error.mp h with h | ⟨state, _, hstatus, h⟩
    · obtain ⟨rfl, hnone, _⟩ := labelStatus_eq_error h
      rw [hlabels] at hnone
      simp only [handlerRemains, hnone]
      exact hopened.symm
    · obtain ⟨rfl, hstate⟩ := labelStatus_eq_ok hstatus
      have hstate' := hstate
      rw [hlabels] at hstate'
      simp only [handlerRemains, hstate']
      rw [hopened]
      simp only at h
      split at h
      · rename_i hdepth
        rcases bind_eq_error.mp h with h | ⟨_, b₁, hset, h⟩
        · cases h
        · cases hset
          have hone : state.depth.getD 1 = 1 := by simp_all
          rw [hone]
          exact hbind _ h
      · rename_i hdepth
        obtain ⟨depth, hsome⟩ := Option.ne_none_iff_exists'.mp (by simpa using hdepth)
        have hsame : opened.relabelled label { state with depth := some (state.depth.getD 1) } =
            opened := by
          rw [hsome, Option.getD_some, ← hsome, relabelled_self hstate]
        rw [hsame]
        exact hbind _ h

lemma reserveSwitch_eq_error {low high : Int}
    (h : (reserveSwitch low high).outcome b = (.error e, b')) : b' = b := by
  simp only [reserveSwitch] at h
  split at h
  · cases h
    rfl
  · split at h
    · cases h
      rfl
    · rcases bind_eq_error.mp h with h | ⟨_, _, hget, h⟩
      · cases h
      · cases hget
        rcases bind_eq_error.mp h with h | ⟨_, b₁, _, h⟩
        · exact (append_eq_error h).1
        · rcases bind_eq_error.mp h with h | ⟨_, _, _, h⟩ <;> cases h

lemma findSwitch_eq_error {start : Nat} (h : (findSwitch start).outcome b = (.error e, b')) :
    b' = b := by
  rcases bind_eq_error.mp h with h | ⟨_, _, hget, h⟩
  · cases h
  · cases hget
    split at h
    · split at h
      · cases h
      · cases h
        rfl
    · cases h
      rfl

lemma writeTarget_eq_error {start slot target : Nat}
    (h : (writeTarget start slot target).outcome b = (.error e, b')) : b' = b := by
  rcases bind_eq_error.mp h with h | ⟨_, _, _, h⟩
  · exact (overwrite_eq_error h).1
  · cases h

lemma patchDefault_eq_error {start target : Nat}
    (h : (patchDefault start target).outcome b = (.error e, b')) : b' = b := by
  rcases bind_eq_error.mp h with h | ⟨⟨i, slots⟩, _, hfind, h⟩
  · exact findSwitch_eq_error h
  · obtain ⟨rfl, _⟩ := findSwitch_eq_ok hfind
    rcases bind_eq_error.mp h with h | ⟨_, _, _, h⟩
    · exact writeTarget_eq_error h
    · cases h

lemma patchCase_eq_error {start index target : Nat}
    (h : (patchCase start index target).outcome b = (.error e, b')) : b' = b := by
  rcases bind_eq_error.mp h with h | ⟨⟨i, slots⟩, _, hfind, h⟩
  · exact findSwitch_eq_error h
  · obtain ⟨rfl, _⟩ := findSwitch_eq_ok hfind
    simp only at h
    split at h
    · cases h
      rfl
    · rcases bind_eq_error.mp h with h | ⟨_, _, _, h⟩
      · exact writeTarget_eq_error h
      · cases h

lemma setDepth_eq_error {depth : Int} (h : (setDepth depth).outcome b = (.error e, b')) :
    b' = b := by
  rcases bind_eq_error.mp h with h | ⟨_, _, hget, h⟩
  · cases h
  · cases hget
    simp only at h
    split at h
    · cases h
      rfl
    · rw [setDepthAt, Step.outcome_ofOutcome] at h
      split at h
      · cases h
        rfl
      · cases h

/-- A failed operation leaves exactly what is listed. -/
theorem run_eq_error {op : DraftOperation} (h : op.run.outcome b = (.error e, b')) :
    b' = b.remains e op := by
  cases op with
  | emit op operands =>
    rw [remains]
    exact emit_eq_error h
  | emitWithEffect op operands popped pushed =>
    rw [remains]
    exact emitWithEffect_eq_error h
  | jump op target => exact jump_eq_error h
  | newLabel => cases Step.map_eq_error h
  | bindLabel label => exact bindLabel_eq_error h
  | bindHandler label => exact bindHandler_eq_error h
  | reserveSwitch low high => exact reserveSwitch_eq_error (Step.map_eq_error h)
  | patchDefault start target => exact patchDefault_eq_error h
  | patchCase start index target => exact patchCase_eq_error h
  | setDepth depth => exact setDepth_eq_error h
  | useLocals index words => exact (useLocals_eq_error h).1

end CodeDraft

namespace DraftOperation

/-- The operation may fail with this error when it has changed something already. -/
def isLate (e : Error) : DraftOperation → Bool
  | emit .. | emitWithEffect .. => e.isUnderflow || e.isOutOfRoom
  | jump .. => e.isOutOfRoom || e.isOutOfReach
  | bindLabel _ => e.isOutOfReach
  | bindHandler _ => true
  | _ => false

end DraftOperation

namespace CodeDraft

variable {b : CodeDraft} {e : Error}

lemma remains_of_early {op : DraftOperation} (h : op.isLate e = false) : b.remains e op = b := by
  cases op with
  | emit | emitWithEffect =>
    obtain ⟨hunder, hroom⟩ := Bool.or_eq_false_iff.mp h
    rw [remains]
    exact emissionRemains_of_fits hunder hroom
  | jump =>
    obtain ⟨hroom, hreach⟩ := Bool.or_eq_false_iff.mp h
    exact branchRemains_of_fits hroom hreach
  | bindLabel => exact bindingRemains_of_reach h
  | bindHandler => cases h
  | _ => rfl

/-- A failure that leaves a branch without hope of being patched: it waits for its label although it
is not in the code, or it waits no more although it has not been patched. -/
def strands (b : CodeDraft) (e : Error) : DraftOperation → Bool
  | .jump _ (.label label) =>
    (e.isOutOfRoom || e.isOutOfReach) && b.labels[label]?.any (·.offset.isNone)
  | .bindLabel _ | .bindHandler _ => e.isOutOfReach
  | _ => false

lemma sameText_relabelled {label : Label} {state : LabelStatus} {depth : Option Nat}
    (h : b.labels[label]? = some state) :
    SameText b (b.relabelled label { state with depth }) :=
  sameText_setLabel h

lemma sameText_jumping (b : CodeDraft) (source : Nat) (target : Int) :
    SameText b (b.jumping source target) := ⟨rfl, rfl, rfl⟩

/-- A branch over a distance has no label to wait for. -/
lemma sameText_branchRemains (popped : Nat) (distance : Int) :
    SameText b (b.branchRemains e popped (.distance distance)) := by
  rw [branchRemains]
  split
  · exact sameText_jumping b _ _
  · exact .refl b

lemma sameText_emissionRemains (op : Opcode) (operands : List Int) :
    SameText b (b.emissionRemains e op operands) := by
  unfold emissionRemains
  split
  · exact .refl b
  · simp only
    split
    · exact sameText_branchRemains _ _
    · split
      · split
        · exact ⟨rfl, rfl, rfl⟩
        · exact .refl b
      · exact .refl b

/-- What other failures leave has the same text. -/
theorem sameText_remains {op : DraftOperation} (h : b.strands e op = false) :
    SameText b (b.remains e op) := by
  cases op with
  | emit op operands =>
    rw [remains]
    exact sameText_emissionRemains op operands
  | emitWithEffect op operands popped pushed =>
    rw [remains]
    exact sameText_emissionRemains op operands
  | jump op target =>
    cases target with
    | distance distance => exact sameText_branchRemains op.popped distance
    | label label =>
      simp only [remains, branchRemains]
      split
      · exact .refl b
      · rename_i state hstate
        split
        · rename_i hlate
          split
          · exact (sameText_relabelled hstate).trans (sameText_jumping _ _ _)
          · rename_i hoffset
            simp [strands, hlate, hstate, hoffset] at h
        · exact .refl b
  | bindLabel label =>
    rw [remains, bindingRemains_of_reach h]
    exact .refl b
  | bindHandler label =>
    have hreach : e.isOutOfReach = false := h
    have hopened : SameText b (if !b.reachable || b.facts.blockStarts.back? == some b.code.size then
        { b with reachable := false, depth := 1 } else b) := by
      split
      · exact ⟨rfl, rfl, rfl⟩
      · exact .refl b
    simp only [remains, handlerRemains]
    split
    · exact hopened
    · rename_i state hstate
      rw [bindingRemains_of_reach hreach]
      refine hopened.trans (sameText_relabelled ?_)
      split <;> exact hstate
  | _ => exact .refl b

end CodeDraft
end ClassAssembly
