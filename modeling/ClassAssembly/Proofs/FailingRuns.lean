import ClassAssembly.Proofs.DeadCode
import ClassAssembly.Proofs.PatchBounds

/-! Runs of operations on a draft that go on after failures. A failure leaves the text of the draft
alone unless it strands a branch; in a run without such failures all that is still to be patched
lies in the code, and a draft that passes the check has nothing left to patch. After a failure that
strands a branch the check may pass although the branch was never patched, or a label may lead to a
write outside of the code. -/
namespace ClassAssembly

namespace CodeDraft

variable {b : CodeDraft} {done : List DraftOperation} {items : List (Nat × DraftOperation)}

/-- The draft after operations any of which may fail. -/
def attempted (b : CodeDraft) (ops : List DraftOperation) : CodeDraft :=
  ops.foldl (fun b op => (op.run.outcome b).2) b

@[simp] lemma attempted_nil (b : CodeDraft) : attempted b [] = b := rfl

@[simp] lemma attempted_cons (b : CodeDraft) (op : DraftOperation) (ops : List DraftOperation) :
    attempted b (op :: ops) = attempted (op.run.outcome b).2 ops := rfl

lemma attempted_append (b : CodeDraft) (ops later : List DraftOperation) :
    attempted b (ops ++ later) = attempted (attempted b ops) later :=
  List.foldl_append

/-- The operations that succeed in a run, each with the end of the code before it. -/
def performed : CodeDraft → List DraftOperation → List (Nat × DraftOperation)
  | _, [] => []
  | b, op :: ops =>
    match op.run.outcome b with
    | (.ok _, b') => (b.code.size, op) :: performed b' ops
    | (.error _, b') => performed b' ops

/-- No failure in a run strands a branch. -/
def intact : CodeDraft → List DraftOperation → Bool
  | _, [] => true
  | b, op :: ops =>
    match op.run.outcome b with
    | (.ok _, b') => intact b' ops
    | (.error e, b') => !b.strands e op && intact b' ops

namespace Reflects

lemma fillsInside (h : Reflects done items b) : b.FillsInside where
  branches := by
    intro label source hwaits
    obtain ⟨op, hitem⟩ := h.waits label source hwaits
    obtain ⟨distance, hbranch, _⟩ := h.mirrors source _ hitem
    exact h.tiles.end_le (start_mem hitem) hbranch.decode_eq
  arms := by
    intro slots hslots arm harm
    obtain ⟨low, high, hitem, hcount⟩ := h.reserved slots hslots
    obtain ⟨table, hswitch, rfl, rfl, _⟩ := h.mirrors slots.start _ hitem
    have hdistance : (table.distance arm).isSome :=
      (SwitchSlots.isSome_patched_iff (hcount.trans hswitch.table.count.symm)).mp harm
    have hslot := hswitch.slot_bounds hdistance
    have hend : slots.start + table.length ≤ b.code.size :=
      h.tiles.end_le (start_mem hitem) hswitch.decode_eq
    omega

/-- A run keeps the draft in step with what it has emitted, if its failures strand no branch. -/
theorem attempt {ops : List DraftOperation} (h : Reflects done items b)
    (hrange : ∀ op ∈ ops, op.InRange) (hintact : intact b ops = true) :
    Reflects (done ++ (performed b ops).map Prod.snd)
      (items ++ (performed b ops).filter (·.2.emits)) (attempted b ops) := by
  induction ops generalizing b done items with
  | nil => simpa [performed] using h
  | cons op ops ih =>
    rw [List.forall_mem_cons] at hrange
    rw [attempted_cons]
    rcases hrun : op.run.outcome b with ⟨e | _, b'⟩
    · simp only [intact, hrun, Bool.and_eq_true, Bool.not_eq_true'] at hintact
      simp only [performed, hrun]
      obtain rfl := run_eq_error hrun
      exact ih (h.sameText rfl (sameText_remains hintact.1)) hrange.2 hintact.2
    · simp only [intact, hrun] at hintact
      have hstep := ih (h.step hrange.1 hrun) hrange.2 hintact
      have hitem : op.emission b = [(b.code.size, op)].filter (·.2.emits) := by
        cases hemits : op.emits <;> simp [DraftOperation.emission, hemits]
      rw [hitem] at hstep
      simpa only [performed, hrun, List.map_cons, List.append_assoc, List.singleton_append,
        ← List.filter_append] using hstep

end Reflects

/-- A failed operation leaves what is listed, which is the draft as it was unless the error came
late. As long as no failure strands a branch, later operations fill in bytes of the code only and none
fails for writing elsewhere, and a draft that passes the check has no branch or switch left that does
not lead where it should. -/
theorem failed_operation_remains (ops : List DraftOperation) :
    (∀ (op : DraftOperation) (e : Error) (b' : CodeDraft),
      op.run.outcome (attempted .empty ops) = (.error e, b') →
        b' = (attempted .empty ops).remains e op ∧
          (op.isLate e = false → b' = attempted .empty ops)) ∧
      ((∀ op ∈ ops, op.InRange) → intact .empty ops = true →
        (attempted .empty ops).FillsInside ∧
          (∀ (op : DraftOperation) (e : Error) (b' : CodeDraft),
            op.run.outcome (attempted .empty ops) = (.error e, b') → e.InBounds) ∧
          ((attempted .empty ops).checkResolved = .ok () →
            ∀ start op, (start, op) ∈ performed .empty ops → op.emits = true →
              ReadsBack (attempted .empty ops) ((performed .empty ops).map Prod.snd) start op)) := by
  constructor
  · intro op e b' h
    have hremains := run_eq_error h
    exact ⟨hremains, fun hlate => hremains.trans (remains_of_early hlate)⟩
  · intro hrange hintact
    have hreflects := Reflects.empty.attempt hrange hintact
    have hinside := hreflects.fillsInside
    refine ⟨hinside, fun _ _ _ => hinside.inBounds, fun hresolved start op hop hemits => ?_⟩
    have hitem : (start, op) ∈ (performed .empty ops).filter (·.2.emits) :=
      List.mem_filter.mpr ⟨hop, hemits⟩
    exact (hreflects.mirrors start op hitem).readsBack hresolved

/-- Branches, a switch and a handler, with a failure of every kind between them that strands no
branch. -/
def falteringRun : List DraftOperation := [
  .emit (.store .int) [5], -- with nothing on the stack
  .newLabel, .newLabel,
  .jump .goto (.label 7), -- to no label
  .jump .goto (.label 0),
  .bindHandler 7,
  .bindLabel 0,
  .bindLabel 0,
  .setDepth (-1),
  .emit .iconst0 [],
  .reserveSwitch 1 0,
  .reserveSwitch 0 0,
  .patchCase 4 1 0,
  .patchCase 4 0 3,
  .patchDefault 5 0,
  .patchDefault 4 24,
  .bindLabel 1,
  .jump .goto (.label 0)]

theorem falteringRun_remains :
    (∀ op ∈ falteringRun, op.InRange) ∧ intact .empty falteringRun = true ∧
      (performed .empty falteringRun).length = 10 ∧
      (attempted .empty falteringRun).FillsInside ∧
      (attempted .empty falteringRun).checkResolved = .ok () ∧
      ReadsBack (attempted .empty falteringRun) ((performed .empty falteringRun).map Prod.snd) 0
        (.jump .goto (.label 0)) ∧
      ∃ b', (emit (.store .int) [8]).outcome (attempted .empty falteringRun) =
          (.error (.stackUnderflow 27 (.store .int)), b') ∧
        b' = (attempted .empty falteringRun).remains (.stackUnderflow 27 (.store .int))
          (.emit (.store .int) [8]) ∧
        b' = (attempted .empty falteringRun).occupying 9 := by
  have hrange : ∀ op ∈ falteringRun, op.InRange := by decide +kernel
  have hintact : intact .empty falteringRun = true := by decide +kernel
  have hresolved : (attempted .empty falteringRun).checkResolved = .ok () := by decide +kernel
  have herror : ((DraftOperation.emit (.store .int) [8]).run.outcome (attempted .empty falteringRun)).1 =
      .error (.stackUnderflow 27 (.store .int)) := by decide +kernel
  have hlocals : ((DraftOperation.emit (.store .int) [8]).run.outcome (attempted .empty falteringRun)).2 =
      (attempted .empty falteringRun).occupying 9 := by decide +kernel
  obtain ⟨hfails, hruns⟩ := failed_operation_remains falteringRun
  obtain ⟨hinside, _, hreads⟩ := hruns hrange hintact
  have hrun : (DraftOperation.emit (.store .int) [8]).run.outcome (attempted .empty falteringRun) =
      (.error (.stackUnderflow 27 (.store .int)), (attempted .empty falteringRun).occupying 9) :=
    Prod.ext herror hlocals
  obtain ⟨hremains, _⟩ := hfails _ _ _ hrun
  exact ⟨hrange, hintact, by decide +kernel, hinside, hresolved,
    hreads hresolved 0 _ (by decide +kernel) rfl, _, hrun, hremains, rfl⟩

section FarBranch

/-- The draft with so many more instructions that do nothing. -/
def padded (b : CodeDraft) (n : Nat) : CodeDraft :=
  { b with code := b.code ++ List.replicate n (0 : UInt8) }

lemma emit_nop (hroom : b.code.size < maxCode) (hdepth : b.depth ≤ b.maxStack)
    (hmax : b.depth ≤ maxDepth) : (emit .nop []).outcome b = (.ok (), b.padded 1) := by
  have hencode : Opcode.nop.encode .plain 0 0 = .ok [0] := rfl
  have happend : (append .nop [0] 0 0 .normal).outcome b = (.ok (), b.padded 1) := by
    have hlength : ¬maxCode < b.code.size + 1 := by omega
    have hstack : ¬maxDepth < b.depth := Nat.not_lt.mpr hmax
    simp only [append, Step.outcome_ofOutcome, List.length_singleton, Nat.not_lt_zero, if_false,
      Nat.sub_zero, Nat.add_zero, if_neg hlength, if_neg hstack, Nat.max_eq_left hdepth]
    rfl
  simp [emit, Step.outcome_bind, Opcode.traits_nop, OpcodeTraits.words, OpcodeTraits.popped,
    Opcode.checkCount, OperandForm.operands, hencode, Effect.localUse?, happend]

lemma attempted_nops {n : Nat} (hroom : b.code.size + n ≤ maxCode) (hdepth : b.depth ≤ b.maxStack)
    (hmax : b.depth ≤ maxDepth) :
    attempted b (List.replicate n (.emit .nop [])) = b.padded n := by
  induction n generalizing b with
  | zero => simp [padded]
  | succ n ih =>
    have hsize : (b.padded 1).code.size = b.code.size + 1 := Code.size_appendList b.code [0]
    have hfirst : (DraftOperation.emit .nop []).run.outcome b = (.ok (), b.padded 1) :=
      emit_nop (by omega) hdepth hmax
    have hrest := ih (b := b.padded 1) (by omega) hdepth hmax
    rw [List.replicate_succ, attempted_cons, hfirst, hrest]
    simp [padded, List.replicate_succ]

/-- A branch to a label that is bound more than 32767 bytes later. -/
def farBranch : List DraftOperation :=
  [.newLabel, .jump .goto (.label 0)] ++ List.replicate 32766 (.emit .nop [])

/-- The draft once the branch waits for its label. -/
def waitingBranch : CodeDraft :=
  ⟨#[0xa7, 0, 0], 0, 0, 0, false, #[⟨none, some 0, [0]⟩], ⟨#[], #[3]⟩, #[]⟩

lemma attempted_farBranch : attempted .empty farBranch = waitingBranch.padded 32766 := by
  have hstart : attempted .empty [.newLabel, .jump .goto (.label 0)] = waitingBranch := by
    decide +kernel
  rw [farBranch, attempted_append, hstart]
  exact attempted_nops (by decide) (by decide) (by decide)

/-- The label is refused, and yet it is bound afterwards, the branch leads nowhere but to itself,
and the draft passes the check. -/
theorem farBranch_passes_check : ∃ b' insn,
    (bindLabel 0).outcome (attempted .empty farBranch) =
        (.error (.limit (.branchTooFar 0 32769)), b') ∧
      b' ≠ attempted .empty farBranch ∧ b'.checkResolved = .ok () ∧
      (boundAt 0).outcome b' = (.ok (some 32769), b') ∧
      Code.decode b'.code 0 = .ok insn ∧ insn.first = 0 := by
  have hsize : (waitingBranch.padded 32766).code.size = 32769 := by
    rw [padded, Code.size_appendList, List.length_replicate]
    rfl
  have hdecode : Code.decode (waitingBranch.padded 32766).code 0 =
      .ok ⟨.goto, 3, false, 0, 0, Nat.succ_pos 2⟩ :=
    Code.decode_congr (by decide +kernel) (Code.sameBytes_append _ (Nat.le_refl 3))
  have hlabels : (waitingBranch.padded 32766).labels = #[⟨none, some 0, [0]⟩] := rfl
  have hdepth : (waitingBranch.padded 32766).depth = 0 := rfl
  have hunreached : (waitingBranch.padded 32766).reachable = false := rfl
  have hswitches : (waitingBranch.padded 32766).switches = #[] := rfl
  have hfar : branchDistance 0 32769 = .error (.limit (.branchTooFar 0 32769)) := rfl
  rw [attempted_farBranch]
  -- Nothing else about the code matters, and it is long.
  generalize waitingBranch.padded 32766 = b at *
  refine ⟨{ b with reachable := true, labels := #[⟨some 32769, some 0, []⟩] }, _, ?_, ?_, ?_, rfl,
    hdecode, rfl⟩
  · simp [bindLabel, labelStatus, Step.outcome_bind, hlabels, hunreached, hsize, hdepth,
      setLabel, patch, hfar]
  · intro heq
    have hreached := congrArg CodeDraft.reachable heq
    rw [hunreached] at hreached
    cases hreached
  · simp [checkResolved, hswitches]

end FarBranch

section FullCode

variable {label : Label} {op : Opcode} {traits : OpcodeTraits}

/-- A branch to a label that nothing is known about waits for it, whether or not it has room. -/
lemma resolve_unknown {source depth : Nat} (hlabel : b.labels[label]? = some ⟨none, none, []⟩) :
    (resolve source depth (.label label)).outcome b =
      (.ok 0, b.relabelled label ⟨none, some depth, [source]⟩) := by
  obtain ⟨hlt, hget⟩ := Array.getElem?_eq_some_iff.mp hlabel
  simp [resolve, agreeOnDepth, labelStatus, setLabel, relabelled, Step.outcome_bind, Step.outcome_map,
    Except.map, hlt, hget]

/-- A label for which only a branch at the end of the code waits is bound, and the branch cannot be
patched. -/
lemma bindLabel_past_end {depth : Nat} (hlabel : b.labels[label]? = some ⟨none, some depth, [b.code.size]⟩)
    (hdepth : b.reachable = true → depth = b.depth) :
    ((bindLabel label).outcome b).1 = .error (.outOfBounds (b.code.size + 3) b.code.size) := by
  -- The distance is all right, but there is nowhere to write it.
  have hpatch : ∀ t : CodeDraft, t.code.size = b.code.size →
      (patch b.code.size [b.code.size]).outcome t =
        (.error (.outOfBounds (b.code.size + 3) b.code.size), t) := by
    intro t ht
    have hdistance : branchDistance b.code.size b.code.size = .ok 0 := by simp [branchDistance]
    have hout : b.code.size < b.code.size + 1 + 2 := by omega
    simp [patch, Step.outcome_bind, hdistance, overwrite, ht, Bytes.length_signed, hout]
  cases hreachable : b.reachable with
  | false =>
    simp [bindLabel, labelStatus, Step.outcome_bind, hlabel, hreachable, setLabel, hpatch]
  | true =>
    simp [bindLabel, labelStatus, Step.outcome_bind, hlabel, hreachable, hdepth, setLabel, hpatch]

/-- A branch for which there is no room waits for its label all the same, although it is not in the
code. If the depth of the stack at the label is not in question, then to bind the label is to write
outside of the code. -/
theorem bindLabel_after_refusal (htraits : op.traits = .ok traits)
    (hjump : traits.flow.isJump = true) (hpopped : traits.popped ≤ b.depth)
    (hlabel : b.labels[label]? = some ⟨none, none, []⟩) (hfull : maxCode < b.code.size + 3)
    (hdepth : b.reachable = true → traits.popped = 0) :
    ∃ b', (jump op (.label label)).outcome b =
        (.error (.limit (.codeTooLarge (b.code.size + 3))), b') ∧
      ((bindLabel label).outcome b').1 = .error (.outOfBounds (b.code.size + 3) b.code.size) := by
  refine ⟨b.relabelled label ⟨none, some (b.depth - traits.popped), [b.code.size]⟩, ?_, ?_⟩
  · have hroom : maxCode < b.code.size + (2 + 1) := hfull
    simp [jump, Step.outcome_bind, htraits, hjump, Nat.not_lt.mpr hpopped, resolve_unknown hlabel,
      append, relabelled, hroom, Bytes.length_signed]
  · have hwaits : (b.relabelled label
        ⟨none, some (b.depth - traits.popped), [b.code.size]⟩).labels[label]? =
          some ⟨none, some (b.depth - traits.popped), [b.code.size]⟩ := by
      rw [getElem?_relabelled hlabel, if_pos rfl]
    refine bindLabel_past_end hwaits fun hreachable => ?_
    rw [hdepth hreachable, Nat.sub_zero, relabelled]

end FullCode

end CodeDraft
end ClassAssembly
