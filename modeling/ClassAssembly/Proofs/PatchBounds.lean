import ClassAssembly.Proofs.FailedOperations

/-! Distances and targets are filled in long after room was made for them. As long as all that may
still be filled in lies in the code, no operation writes outside of it. -/
namespace ClassAssembly

/-- The error is not that of a write outside of the code. -/
def Error.InBounds : Error → Prop
  | outOfBounds _ _ => False
  | _ => True

lemma Error.Early.inBounds {e : Error} (h : e.Early) : e.InBounds := by
  cases e <;> first | trivial | cases h.reach

namespace Step

variable {σ α β : Type} {E : Error → Prop}

/-- Whatever the state is, the step fails with such errors only. -/
def Fails (E : Error → Prop) (step : Step σ α) : Prop := ∀ s, step.Ends s (fun _ _ => True) E

namespace Fails

variable {step : Step σ α}

theorem of_error (h : ∀ {s e t}, step.outcome s = (.error e, t) → E e) : Fails E step :=
  fun _ => ⟨fun _ _ _ => trivial, fun _ _ herror => h herror⟩

theorem pure (a : α) : Fails E (pure a : Step σ α) := fun _ => .pure trivial

theorem throw {e : Error} (h : E e) : Fails E (throw e : Step σ α) := fun _ => .throw h

/-- Nothing comes after an error. -/
theorem throw_bind {e : Error} (h : E e) (next : α → Step σ β) :
    Fails E ((MonadExcept.throw e : Step σ α) >>= next) := fun _ => .of_error rfl h

theorem ofExcept {result : Except Error α} (h : ∀ {e}, result = .error e → E e) :
    Fails E (ofExcept result : Step σ α) :=
  .of_error fun herror => h (Prod.mk.inj herror).1

theorem get : Fails E (get : Step σ σ) := fun _ => .of_ok rfl trivial

theorem modify (f : σ → σ) : Fails E (modify f) := fun _ => .of_ok rfl trivial

theorem bind {next : α → Step σ β} (hs : Fails E step) (hn : ∀ a, Fails E (next a)) :
    Fails E (step >>= next) := fun s => (hs s).bind fun a t _ => hn a t

theorem map (f : α → β) (hs : Fails E step) : Fails E (f <$> step) :=
  .of_error fun herror => (hs _).error _ _ (map_eq_error herror)

end Fails
end Step

namespace CodeDraft

open Error (InBounds)
open Step (Fails)

variable {b b' : CodeDraft} {e : Error} {label : Label}

section Emission

lemma fails_append (op : Opcode) (bytes : Bytes) (popped pushed : Nat) (flow : Flow) :
    Fails InBounds (append op bytes popped pushed flow) := by
  refine .of_error @fun b e b' h => ?_
  obtain ⟨_, hkind, _⟩ := append_eq_error h
  cases e <;> trivial

lemma fails_useLocals (index words : Nat) : Fails InBounds (useLocals index words) :=
  .of_error fun h => (useLocals_eq_error h).2.inBounds

lemma fails_labelStatus (label : Label) : Fails InBounds (labelStatus label) :=
  .of_error fun h => (labelStatus_eq_error h).2.2.inBounds

lemma inBounds_of_branchDistance {source target : Nat} (h : branchDistance source target = .error e) :
    e.InBounds := by
  simp only [branchDistance] at h
  split at h
  · cases h
  · cases h
    trivial

lemma fails_resolve (source depth : Nat) (target : BranchTarget) :
    Fails InBounds (resolve source depth target) := by
  cases target with
  | distance distance => exact (Fails.modify _).bind fun _ => .pure _
  | label label =>
    have hagree : Fails InBounds (agreeOnDepth label depth) :=
      .of_error fun h => (agreeOnDepth_eq_error h).2.inBounds
    refine hagree.bind fun _ => (fails_labelStatus label).bind fun state => ?_
    split
    · exact (Fails.modify _).bind fun _ => .ofExcept inBounds_of_branchDistance
    · exact (Fails.modify _).bind fun _ => .pure _

lemma fails_jump (op : Opcode) (target : BranchTarget) : Fails InBounds (jump op target) := by
  refine (Fails.ofExcept fun h => (Opcode.early_of_traits h).inBounds).bind fun traits => ?_
  dsimp only
  split
  · exact .throw_bind trivial _
  · refine Fails.get.bind fun b => ?_
    split
    · exact .throw_bind trivial _
    · exact (fails_resolve _ _ _).bind fun _ => fails_append _ _ _ _ _

lemma fails_emit (op : Opcode) (operands : List Int) : Fails InBounds (emit op operands) := by
  refine (Fails.ofExcept fun h => (Opcode.early_of_traits h).inBounds).bind fun traits => ?_
  dsimp only
  split
  · exact .throw_bind trivial _
  split
  · exact .throw trivial
  · exact .throw trivial
  · refine (Fails.ofExcept fun h => (Opcode.early_of_checkCount h).inBounds).bind fun _ => ?_
    split
    · exact (Fails.ofExcept fun h => (Opcode.early_of_checkRange h).inBounds).bind fun _ =>
        fails_jump _ _
    · refine (Fails.ofExcept fun h => (Opcode.early_of_encode h).inBounds).bind fun bytes => ?_
      split
      · exact (fails_useLocals _ _).bind fun _ => fails_append _ _ _ _ _
      · exact fails_append _ _ _ _ _

lemma fails_emitWithEffect (op : Opcode) (operands : List Int) (popped pushed : Int) :
    Fails InBounds (emitWithEffect op operands popped pushed) := by
  refine (Fails.ofExcept fun h => (Opcode.early_of_traits h).inBounds).bind fun traits => ?_
  split
  · exact fails_emit _ _
  · refine (Fails.ofExcept fun h => (Opcode.early_of_checkCount h).inBounds).bind fun _ => ?_
    split
    · exact .throw trivial
    · exact (Fails.ofExcept fun h => (Opcode.early_of_encode h).inBounds).bind fun _ =>
        fails_append _ _ _ _ _

lemma fails_reserveSwitch (low high : Int) : Fails InBounds (reserveSwitch low high) := by
  unfold reserveSwitch
  dsimp only
  split
  · exact .throw_bind trivial _
  split
  · exact .throw_bind trivial _
  · exact Fails.get.bind fun _ => (fails_append _ _ _ _ _).bind fun _ =>
      (Fails.modify _).bind fun _ => .pure _

lemma fails_setDepthAt (offset depth : Nat) : Fails InBounds (setDepthAt offset depth) := by
  refine .of_error fun h => ?_
  rw [setDepthAt, Step.outcome_ofOutcome] at h
  split at h
  · cases h
    trivial
  · cases h

lemma fails_setDepth (depth : Int) : Fails InBounds (setDepth depth) := by
  refine Fails.get.bind fun b => ?_
  dsimp only
  split
  · exact .throw_bind trivial _
  · exact fails_setDepthAt _ _

end Emission

/-- All bytes that later operations may fill in lie in the code. -/
structure FillsInside (b : CodeDraft) : Prop where
  branches : ∀ label source, Waits b label source → source + 3 ≤ b.code.size
  arms : ∀ slots ∈ b.switches, ∀ arm, (slots.patched arm).isSome →
    arm.slot slots.start + 4 ≤ b.code.size

section Filling

lemma FillsInside.sameText (h : b.FillsInside) (hsame : SameText b b') : b'.FillsInside where
  branches := by
    rintro label source ⟨offset, pending, hbinding, hmem⟩
    rw [hsame.binding] at hbinding
    rw [hsame.code]
    exact h.branches label source ⟨offset, pending, hbinding, hmem⟩
  arms := by
    rw [hsame.switches, hsame.code]
    exact h.arms

lemma ends_overwrite {offset : Nat} {bytes : Bytes} (h : offset + bytes.length ≤ b.code.size) :
    (overwrite offset bytes).Ends b (fun _ b' => b'.code.size = b.code.size) InBounds :=
  .of_ok (by rw [overwrite, Step.outcome_ofOutcome, if_neg (Nat.not_lt.mpr h)]) (size_write _ _ _)

lemma ends_labelStatus (label : Label) : (labelStatus label).Ends b
    (fun state t => b = t ∧ b.labels[label]? = some state) InBounds :=
  ⟨fun _ _ => labelStatus_eq_ok, (fails_labelStatus label b).error⟩

/-- Branches that all lie in the code are given their distances. -/
lemma ends_patch {target : Nat} {sources : List Nat}
    (h : ∀ source ∈ sources, source + 3 ≤ b.code.size) :
    (patch target sources).Ends b (fun _ _ => True) InBounds := by
  induction sources generalizing b with
  | nil => exact .pure trivial
  | cons source rest ih =>
    rw [List.forall_mem_cons] at h
    refine .ofExcept_bind (fun distance _ => ?_) fun _ => inBounds_of_branchDistance
    have hinside : source + 1 + (Bytes.signed 2 distance).length ≤ b.code.size := by
      rw [Bytes.length_signed]
      exact h.1
    refine (ends_overwrite hinside).bind fun _ b₁ hsize => ?_
    have hrecord : (recordJump source target).Ends b₁ (fun _ b₂ => b₂.code.size = b₁.code.size)
        InBounds := .of_ok rfl rfl
    refine hrecord.bind fun _ b₂ hsize' => ih ?_
    rw [hsize', hsize]
    exact h.2

lemma ends_bindLabel (h : b.FillsInside) (label : Label) :
    (bindLabel label).Ends b (fun _ _ => True) InBounds := by
  refine (ends_labelStatus label).bind ?_
  rintro state _ ⟨rfl, hstate⟩
  have hinside : ∀ source ∈ state.pending.reverse, source + 3 ≤ b.code.size := by
    intro source hmem
    exact h.branches label source ⟨_, _, binding_of_getElem? hstate, List.mem_reverse.mp hmem⟩
  -- However the depth at the label is found, the rest is the same.
  have hrest : ∀ depth : Nat, (do
      modify fun b : CodeDraft => { b with depth, reachable := true }
      setLabel label ⟨some b.code.size, some depth, []⟩
      patch b.code.size state.pending.reverse).Ends b (fun _ _ => True) InBounds := by
    intro depth
    have hmodify : Step.Ends (modify fun b : CodeDraft => { b with depth, reachable := true }) b
        (fun _ b₁ => b₁.code.size = b.code.size) InBounds := .of_ok rfl rfl
    refine hmodify.bind fun _ b₁ hsize => ?_
    have hset : (setLabel label ⟨some b.code.size, some depth, []⟩).Ends b₁
        (fun _ b₂ => b₂.code.size = b₁.code.size) InBounds := .of_ok rfl rfl
    refine hset.bind fun _ b₂ hsize' => ends_patch ?_
    rw [hsize', hsize]
    exact hinside
  dsimp only
  split
  · exact Fails.throw_bind trivial _ b
  · apply Step.Ends.get
    split
    · split
      · split
        · exact Fails.throw_bind trivial _ b
        · exact hrest _
      · exact hrest _
    · exact hrest _

lemma ends_bindHandler (h : b.FillsInside) (label : Label) :
    (bindHandler label).Ends b (fun _ _ => True) InBounds := by
  have hopen : Step.Ends (modify fun b : CodeDraft =>
      if !b.reachable || b.facts.blockStarts.back? == some b.code.size then
        { b with reachable := false, depth := 1 }
      else b) b (fun _ b₁ => b₁.FillsInside) InBounds := by
    refine .of_ok rfl (h.sameText ?_)
    dsimp only
    split
    · exact ⟨rfl, rfl, rfl⟩
    · exact .refl b
  refine hopen.bind fun _ b₁ h₁ => ?_
  refine (ends_labelStatus label).bind ?_
  rintro state _ ⟨rfl, hstate⟩
  have hbind : ∀ b₂ : CodeDraft, b₂.FillsInside → (bindLabel label >>= fun _ => get >>= fun b =>
      setDepthAt b.code.size 1).Ends b₂ (fun _ _ => True) InBounds := fun b₂ h₂ =>
    (ends_bindLabel h₂ label).bind fun _ b₃ _ => .get (fails_setDepthAt _ _ b₃)
  dsimp only
  split
  · have hset : (setLabel label { state with depth := some 1 }).Ends b₁ (fun _ b₂ => b₂.FillsInside)
        InBounds := .of_ok rfl (h₁.sameText (sameText_setLabel hstate))
    exact hset.bind fun _ b₂ h₂ => hbind b₂ h₂
  · exact hbind b₁ h₁

/-- An arm of a switch that is there is given its target. -/
lemma ends_writeTarget (h : b.FillsInside) {slots : SwitchSlots} (hmem : slots ∈ b.switches)
    {arm : SwitchArm} (harm : (slots.patched arm).isSome) (target : Nat) :
    (writeTarget slots.start (arm.slot slots.start) target).Ends b (fun _ _ => True) InBounds := by
  have hinside := h.arms slots hmem arm harm
  rw [← Bytes.length_signed 4 ((target : Int) - slots.start)] at hinside
  exact (ends_overwrite hinside).bind fun _ _ _ => .of_ok rfl trivial

lemma ends_findSwitch (start : Nat) : (findSwitch start).Ends b (fun found t => b = t ∧
    found.2 ∈ b.switches ∧ found.2.start = start) InBounds where
  ok found t hok := by
    obtain ⟨hsame, hget, hstart⟩ := findSwitch_eq_ok hok
    exact ⟨hsame, Array.mem_of_getElem? hget, hstart⟩
  error e t herror := by
    rcases Step.bind_eq_error.mp herror with h | ⟨_, _, hget, h⟩
    · cases h
    · cases hget
      split at h
      · split at h <;> cases h
        trivial
      · cases h
        trivial

lemma ends_patchDefault (h : b.FillsInside) (start target : Nat) :
    (patchDefault start target).Ends b (fun _ _ => True) InBounds := by
  refine (ends_findSwitch start).bind ?_
  rintro ⟨i, slots⟩ _ ⟨rfl, hmem, rfl⟩
  have hdefault : (slots.patched .default).isSome := rfl
  exact (ends_writeTarget h hmem hdefault target).bind fun _ _ _ => .of_ok rfl trivial

lemma ends_patchCase (h : b.FillsInside) (start index target : Nat) :
    (patchCase start index target).Ends b (fun _ _ => True) InBounds := by
  refine (ends_findSwitch start).bind ?_
  rintro ⟨i, slots⟩ _ ⟨rfl, hmem, rfl⟩
  dsimp only
  split
  · exact Fails.throw_bind trivial _ b
  · rename_i hindex
    have hcase : (slots.patched (.case index)).isSome := by
      rw [SwitchSlots.patched]
      simpa using hindex
    exact (ends_writeTarget h hmem hcase target).bind fun _ _ _ => .of_ok rfl trivial

/-- Where all that may be filled in lies in the code, no operation writes outside of it. -/
theorem FillsInside.inBounds {op : DraftOperation} (h : b.FillsInside)
    (hrun : op.run.outcome b = (.error e, b')) : e.InBounds := by
  have hends : op.run.Ends b (fun _ _ => True) InBounds := by
    cases op with
    | emit op operands => exact fails_emit op operands b
    | emitWithEffect op operands popped pushed =>
      exact fails_emitWithEffect op operands popped pushed b
    | jump op target => exact fails_jump op target b
    | newLabel => exact .of_ok rfl trivial
    | bindLabel label => exact ends_bindLabel h label
    | bindHandler label => exact ends_bindHandler h label
    | reserveSwitch low high => exact (fails_reserveSwitch low high).map _ b
    | patchDefault start target => exact ends_patchDefault h start target
    | patchCase start index target => exact ends_patchCase h start index target
    | setDepth depth => exact fails_setDepth depth b
    | useLocals index words => exact fails_useLocals index words b
  exact hends.error e b' hrun

end Filling

end CodeDraft
end ClassAssembly
