import ClassAssembly.Proofs.FailingRuns

/-! The limits of a draft. Whatever is done to it, with or without success, its code never gets shorter
and stays short enough for offsets of two bytes, and it has no fewer local variables than it started
with. -/
namespace ClassAssembly

namespace CodeDraft

/-- The code and the local variables are within their limits, and there is room for so many words. -/
structure Limited (words : Nat) (b : CodeDraft) : Prop where
  code : b.code.size ≤ 65535
  enough : words ≤ b.maxLocals
  locals : b.maxLocals ≤ 65535

/-- A property that only the length of the code and the local variables decide, and that holds on when
there is more of either within the limits. -/
structure Sized (Inv : CodeDraft → Prop) : Prop where
  same : ∀ {b b' : CodeDraft}, Inv b → b'.code.size = b.code.size →
    b'.maxLocals = b.maxLocals → Inv b'
  longer : ∀ {b b' : CodeDraft}, Inv b → b.code.size ≤ b'.code.size → b'.code.size ≤ 65535 →
    b'.maxLocals = b.maxLocals → Inv b'
  wider : ∀ {b b' : CodeDraft}, Inv b → b'.code.size = b.code.size → b.maxLocals ≤ b'.maxLocals →
    b'.maxLocals ≤ max b.maxLocals 65535 → Inv b'

lemma sized_limited (words : Nat) : Sized (Limited words) where
  same h hcode hlocals := ⟨hcode ▸ h.code, hlocals ▸ h.enough, hlocals ▸ h.locals⟩
  longer h _ hcode hlocals := ⟨hcode, hlocals ▸ h.enough, hlocals ▸ h.locals⟩
  wider h hcode henough hlocals :=
    ⟨hcode ▸ h.code, Nat.le_trans h.enough henough,
      Nat.le_trans hlocals (Nat.max_le.mpr ⟨h.locals, Nat.le_refl _⟩)⟩

lemma sized_long (length : Nat) : Sized (fun b => length ≤ b.code.size) where
  same h hcode _ := hcode ▸ h
  longer h hcode _ _ := Nat.le_trans h hcode
  wider h hcode _ _ := hcode ▸ h

section Sizes

open Step (Keeps)

variable {Inv : CodeDraft → Prop} (hinv : Sized Inv)

include hinv

lemma keeps_recordJump (source : Nat) (target : Int) :
    Keeps Inv (recordJump source target) := .modify fun _ h => hinv.same h rfl rfl

lemma keeps_setLabel (label : Label) (state : LabelStatus) :
    Keeps Inv (setLabel label state) := .modify fun _ h => hinv.same h rfl rfl

omit hinv in
lemma keeps_labelStatus (label : Label) : Keeps Inv (labelStatus label) := by
  refine Keeps.get.bind fun b => ?_
  split
  · exact .pure _
  · exact .throw _

lemma keeps_setDepthAt (offset depth : Nat) : Keeps Inv (setDepthAt offset depth) := by
  intro b h
  rw [setDepthAt, Step.outcome_ofOutcome]
  split
  · exact h
  · exact hinv.same h rfl rfl

lemma keeps_useLocals (index count : Nat) : Keeps Inv (useLocals index count) := by
  intro b h
  rw [useLocals, Step.outcome_ofOutcome]
  split
  · exact h
  · rename_i hlimit
    refine hinv.wider h rfl (Nat.le_max_left _ _) ?_
    exact Nat.max_le.mpr ⟨Nat.le_max_left _ _,
      Nat.le_trans (Nat.le_of_not_lt hlimit) (Nat.le_max_right _ _)⟩

lemma keeps_append (op : Opcode) (bytes : Bytes) (popped pushed : Nat) (flow : Flow) :
    Keeps Inv (append op bytes popped pushed flow) := by
  intro b h
  have hsize : (b.code ++ bytes).size = b.code.size + bytes.length := by
    simp only [← Array.length_toList, Array.toList_appendList, List.length_append]
  simp only [append, Step.outcome_ofOutcome]
  split
  · exact h
  split
  · exact h
  rename_i hlength
  split
  · exact h
  rw [maxCode] at hlength
  split
  · exact hinv.longer h (by simp only; omega) (by simp only; omega) rfl
  · exact hinv.longer h (by simp only; omega) (by simp only; omega) rfl

lemma keeps_agreeOnDepth (label : Label) (depth : Nat) :
    Keeps Inv (agreeOnDepth label depth) := by
  refine (keeps_labelStatus label).bind fun state => ?_
  split
  · split
    · exact .throw _
    · exact .pure _
  · exact keeps_setLabel hinv _ _

lemma keeps_resolve (source depth : Nat) (target : BranchTarget) :
    Keeps Inv (resolve source depth target) := by
  cases target with
  | distance distance => exact (keeps_recordJump hinv _ _).bind fun _ => .pure _
  | label label =>
    refine (keeps_agreeOnDepth hinv label depth).bind fun _ => (keeps_labelStatus label).bind
      fun state => ?_
    split
    · exact (keeps_recordJump hinv _ _).bind fun _ => .ofExcept _
    · exact (keeps_setLabel hinv _ _).bind fun _ => .pure _

lemma keeps_jump (op : Opcode) (target : BranchTarget) : Keeps Inv (jump op target) := by
  refine (Keeps.ofExcept _).bind fun traits => ?_
  dsimp only
  split
  · exact .throw_bind _ _
  · refine Keeps.get.bind fun b => ?_
    split
    · exact .throw_bind _ _
    · exact (keeps_resolve hinv _ _ _).bind fun _ => keeps_append hinv _ _ _ _ _

lemma keeps_overwrite (offset : Nat) (bytes : Bytes) : Keeps Inv (overwrite offset bytes) := by
  intro b h
  rw [overwrite, Step.outcome_ofOutcome]
  split
  · exact h
  · exact hinv.same h (size_write _ _ _) rfl

lemma keeps_patch (target : Nat) (sources : List Nat) :
    Keeps Inv (patch target sources) := by
  induction sources with
  | nil => exact .pure _
  | cons source rest ih =>
    refine (Keeps.ofExcept _).bind fun distance => (keeps_overwrite hinv _ _).bind fun _ => ?_
    exact (keeps_recordJump hinv _ _).bind fun _ => ih

lemma keeps_bindLabel (label : Label) : Keeps Inv (bindLabel label) := by
  refine (keeps_labelStatus label).bind fun state => ?_
  -- However the depth at the label is found, the rest is the same.
  have hbind : ∀ (depth target : Nat), Keeps Inv (do
      modify fun b : CodeDraft => { b with depth, reachable := true }
      setLabel label ⟨some target, some depth, []⟩
      patch target state.pending.reverse) := fun depth target =>
    Keeps.bind (.modify fun _ h => hinv.same h rfl rfl) fun _ =>
      (keeps_setLabel hinv _ _).bind fun _ => keeps_patch hinv _ _
  dsimp only
  split
  · exact .throw_bind _ _
  · refine Keeps.get.bind fun b => ?_
    split
    · split
      · split
        · exact .throw_bind _ _
        · exact hbind _ _
      · exact hbind _ _
    · exact hbind _ _

lemma keeps_bindHandler (label : Label) : Keeps Inv (bindHandler label) := by
  refine (Keeps.modify fun b h => ?_).bind fun _ => (keeps_labelStatus label).bind fun state => ?_
  · split
    · exact hinv.same h rfl rfl
    · exact h
  have hbind : Keeps Inv (do
      bindLabel label
      setDepthAt (← get).code.size 1) :=
    (keeps_bindLabel hinv label).bind fun _ => Keeps.get.bind fun _ => keeps_setDepthAt hinv _ _
  split
  · exact (keeps_setLabel hinv _ _).bind fun _ => hbind
  · exact hbind

lemma keeps_emit (op : Opcode) (operands : List Int) : Keeps Inv (emit op operands) := by
  refine (Keeps.ofExcept _).bind fun traits => ?_
  dsimp only
  split
  · exact .throw_bind _ _
  split
  · exact .throw _
  · exact .throw _
  · refine (Keeps.ofExcept _).bind fun _ => ?_
    split
    · exact (Keeps.ofExcept _).bind fun _ => keeps_jump hinv _ _
    · refine (Keeps.ofExcept _).bind fun bytes => ?_
      split
      · exact (keeps_useLocals hinv _ _).bind fun _ => keeps_append hinv _ _ _ _ _
      · exact keeps_append hinv _ _ _ _ _

lemma keeps_emitWithEffect (op : Opcode) (operands : List Int) (popped pushed : Int) :
    Keeps Inv (emitWithEffect op operands popped pushed) := by
  refine (Keeps.ofExcept _).bind fun traits => ?_
  split
  · exact keeps_emit hinv _ _
  · refine (Keeps.ofExcept _).bind fun _ => ?_
    split
    · exact .throw _
    · exact (Keeps.ofExcept _).bind fun _ => keeps_append hinv _ _ _ _ _

lemma keeps_reserveSwitch (low high : Int) : Keeps Inv (reserveSwitch low high) := by
  unfold reserveSwitch
  simp only
  split
  · exact .throw _
  split
  · exact .throw _
  · refine Keeps.get.bind fun b => (keeps_append hinv _ _ _ _ _).bind fun _ => ?_
    exact Keeps.bind (.modify fun _ h => hinv.same h rfl rfl) fun _ => .pure _

omit hinv in
lemma keeps_findSwitch (start : Nat) : Keeps Inv (findSwitch start) := by
  refine Keeps.get.bind fun b => ?_
  split
  · split
    · exact .pure _
    · exact .throw _
  · exact .throw _

lemma keeps_writeTarget (start slot target : Nat) :
    Keeps Inv (writeTarget start slot target) :=
  (keeps_overwrite hinv _ _).bind fun _ => keeps_recordJump hinv _ _

lemma keeps_patchDefault (start target : Nat) :
    Keeps Inv (patchDefault start target) :=
  (keeps_findSwitch start).bind fun _ => (keeps_writeTarget hinv _ _ _).bind fun _ =>
    .modify fun _ h => hinv.same h rfl rfl

lemma keeps_patchCase (start index target : Nat) :
    Keeps Inv (patchCase start index target) := by
  refine (keeps_findSwitch start).bind fun found => ?_
  simp only
  split
  · exact .throw _
  · exact (keeps_writeTarget hinv _ _ _).bind fun _ => .modify fun _ h => hinv.same h rfl rfl

lemma keeps_setDepth (depth : Int) : Keeps Inv (setDepth depth) := by
  refine Keeps.get.bind fun b => ?_
  split
  · exact .throw _
  · exact keeps_setDepthAt hinv _ _

lemma keeps_run (op : DraftOperation) : Keeps Inv op.run := by
  cases op with
  | emit op operands => exact keeps_emit hinv op operands
  | emitWithEffect op operands popped pushed =>
    exact keeps_emitWithEffect hinv op operands popped pushed
  | jump op target => exact keeps_jump hinv op target
  | newLabel => exact Keeps.map _ fun _ h => hinv.same h rfl rfl
  | bindLabel label => exact keeps_bindLabel hinv label
  | bindHandler label => exact keeps_bindHandler hinv label
  | reserveSwitch low high => exact (keeps_reserveSwitch hinv low high).map _
  | patchDefault start target => exact keeps_patchDefault hinv start target
  | patchCase start index target => exact keeps_patchCase hinv start index target
  | setDepth depth => exact keeps_setDepth hinv depth
  | useLocals index count => exact keeps_useLocals hinv index count

end Sizes

/-- No operation, whether it succeeds or fails, takes a draft beyond its limits. -/
theorem Limited.attempted {words : Nat} {b : CodeDraft} (h : b.Limited words)
    (ops : List DraftOperation) : (attempted b ops).Limited words := by
  induction ops generalizing b with
  | nil => exact h
  | cons op ops ih => exact ih (keeps_run (sized_limited words) op b h)

end CodeDraft
end ClassAssembly
