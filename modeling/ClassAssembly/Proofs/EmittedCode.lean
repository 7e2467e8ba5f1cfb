import ClassAssembly.Proofs.DraftHistory

/-! The code of a finished draft decodes to the instructions that were emitted, however emitting,
binding labels and filling in switches were interleaved. -/
namespace ClassAssembly

namespace CodeDraft

open Code (DecodesTo)
open DraftOperation (lastTarget)

variable {b b' : CodeDraft} {done : List DraftOperation} {items : List (Nat × DraftOperation)}
  {start : Nat}

namespace Reflects

/-- One operation keeps the draft in step with what has been emitted. -/
theorem step (h : Reflects done items b) {op : DraftOperation} (hrange : op.InRange)
    (hrun : op.run.outcome b = (.ok (), b')) :
    Reflects (done ++ [op]) (items ++ op.emission b) b' := by
  have hlast : (∀ start arm, op.target? start arm = none) →
      lastTarget (done ++ [op]) = lastTarget done :=
    fun hnone => DraftOperation.lastTarget_append_of_none hnone done
  cases op with
  | emit op operands => exact h.emits (hlast fun _ _ => rfl) hrun id
  | emitWithEffect op operands popped pushed =>
    rcases emitWithEffect_eq_ok hrun with hencodes | hemit
    · exact h.encodes (hlast fun _ _ => rfl) hencodes id
    · exact h.emits (hlast fun _ _ => rfl) hemit id
  | jump op target =>
    cases target with
    | label label => exact h.jumpsTo (hlast fun _ _ => rfl) hrun
    | distance distance => exact h.jumpsOver (hlast fun _ _ => rfl) hrun hrange.1 fun _ => id
  | reserveSwitch low high =>
    obtain ⟨_, hreserve, _⟩ := Step.map_eq_ok.mp hrun
    exact h.reserves (hlast fun _ _ => rfl) hrange.1.1 hrange.1.2 (reserveSwitch_eq_ok hreserve)
  | newLabel =>
    obtain ⟨label, hnew, _⟩ := Step.map_eq_ok.mp hrun
    rw [DraftOperation.emission_eq_nil rfl, List.append_nil]
    exact h.newLabel (hlast fun _ _ => rfl) hnew
  | bindLabel label =>
    obtain ⟨pending, hbinds⟩ := bindLabel_eq_ok hrun
    rw [DraftOperation.emission_eq_nil rfl, List.append_nil]
    exact h.binds (hlast fun _ _ => rfl) hbinds
  | bindHandler label =>
    obtain ⟨pending, hbinds⟩ := bindHandler_eq_ok hrun
    rw [DraftOperation.emission_eq_nil rfl, List.append_nil]
    exact h.binds (hlast fun _ _ => rfl) hbinds
  | patchDefault start target =>
    obtain ⟨i, slots, rfl, hpatches⟩ := patchDefault_eq_ok hrun
    rw [DraftOperation.emission_eq_nil rfl, List.append_nil]
    exact h.patches (hrange.2 target rfl) hpatches (DraftOperation.retargets_append (fun _ _ => rfl) done)
  | patchCase start index target =>
    obtain ⟨i, slots, rfl, hpatches⟩ := patchCase_eq_ok hrun
    rw [DraftOperation.emission_eq_nil rfl, List.append_nil]
    exact h.patches (hrange.2 target rfl) hpatches (DraftOperation.retargets_append (fun _ _ => rfl) done)
  | setDepth depth =>
    rw [DraftOperation.emission_eq_nil rfl, List.append_nil]
    exact h.sameText (hlast fun _ _ => rfl) (setDepth_eq_ok hrun)
  | useLocals index words =>
    rw [DraftOperation.emission_eq_nil rfl, List.append_nil]
    exact h.sameText (hlast fun _ _ => rfl) (useLocals_eq_ok hrun)

/-- A whole run keeps the draft in step with what has been emitted. -/
theorem run {ops : List DraftOperation} (h : Reflects done items b)
    (hrange : ∀ op ∈ ops, op.InRange)
    (hrun : (ops.forM DraftOperation.run).outcome b = (.ok (), b')) :
    Reflects (done ++ ops) (items ++ DraftOperation.emissions b ops) b' := by
  induction ops generalizing b done items with
  | nil =>
    cases hrun
    simpa [DraftOperation.emissions] using h
  | cons op ops ih =>
    rw [List.forM, Step.bind_eq_ok] at hrun
    obtain ⟨_, b₁, hop, hops⟩ := hrun
    have hstep := h.step (hrange op List.mem_cons_self) hop
    have hrest := ih hstep (fun op hop => hrange op (List.mem_cons_of_mem _ hop)) hops
    rw [DraftOperation.emissions, hop]
    simpa using hrest

end Reflects

/-- The instruction at `start` of a finished draft is the one that an operation emitted there. A
branch to a label leads to where the label is bound, and each arm of a switch to the target it was
given last. -/
def ReadsBack (b : CodeDraft) (ops : List DraftOperation) (start : Nat) : DraftOperation → Prop
  | .emit op operands | .emitWithEffect op operands _ _ =>
    DecodesTo b.code start (op.spelled (operands[0]?.getD 0)) operands
  | .jump op (.distance distance) => DecodesTo b.code start op [distance]
  | .jump op (.label label) => ∃ target : Nat,
    (boundAt label).outcome b = (.ok (some target), b) ∧
      DecodesTo b.code start op [(target : Int) - start]
  | .reserveSwitch low high => DecodesTo b.code start .tableswitch [low, high] ∧
    ∃ table, Code.decodeSwitch b.code start = .ok table ∧ table.low = low ∧ table.high = high ∧
      table.offsets.length = (high - low + 1).toNat ∧
      ∀ arm distance, table.distance arm = some distance → ∃ target : Nat,
        lastTarget ops start arm = some target ∧ distance = (target : Int) - start
  | _ => False

/-- Once every label is bound and every switch filled in, an instruction is what was emitted. -/
lemma Mirrors.readsBack {op : DraftOperation} (h : Mirrors b done start op)
    (hresolved : b.checkResolved = .ok ()) : ReadsBack b done start op := by
  obtain ⟨hbound, hpatched⟩ := checkResolved_eq_ok hresolved
  match op, h with
  | .emit .., h | .emitWithEffect .., h | .jump _ (.distance _), h => exact h
  | .jump op (.label label), ⟨distance, hbranch, offset, pending, hbinding, _, hdistance⟩ =>
    cases offset with
    | none => exact absurd rfl (hbound label none pending hbinding)
    | some target =>
      obtain rfl := hdistance target rfl
      exact ⟨target, boundAt_of_binding hbinding, _, hbranch.decode_eq, rfl, rfl⟩
  | .reserveSwitch low high, ⟨table, hswitch, hlow, hhigh, hfilled⟩ =>
    subst hlow hhigh
    refine ⟨⟨_, hswitch.decode_eq, rfl, rfl⟩, table, Code.decodeSwitch_eq_ok_iff.mpr hswitch.table,
      rfl, rfl, hswitch.table.count, fun arm distance harm => ?_⟩
    obtain ⟨slots, hslots, _, hsize, htargets⟩ := hfilled.slots
    have hsome : (slots.patched arm).isSome := by
      rw [SwitchSlots.isSome_patched_iff hsize, harm, Option.isSome_some]
    obtain ⟨flag, hflag⟩ := Option.isSome_iff_exists.mp hsome
    cases flag with
    | false => exact absurd hflag (hpatched slots hslots arm)
    | true =>
      obtain ⟨target, htarget⟩ := Option.ne_none_iff_exists'.mp (htargets arm hflag)
      refine ⟨target, htarget, ?_⟩
      rw [hfilled.leads arm target htarget] at harm
      exact (Option.some.inj harm).symm

/-- The code of a finished draft decodes to what was emitted: its instructions start where they
were emitted, in that order, and each reads back as the operation that emitted it. -/
theorem starts_emissions {ops : List DraftOperation} (hrange : ∀ op ∈ ops, op.InRange)
    (hrun : (ops.forM DraftOperation.run).outcome .empty = (.ok (), b))
    (hresolved : b.checkResolved = .ok ()) :
    Code.starts b.code = .ok ((DraftOperation.emissions .empty ops).map Prod.fst) ∧
      ∀ start op, (start, op) ∈ DraftOperation.emissions .empty ops →
        ReadsBack b ops start op := by
  have hreflects : Reflects ops (DraftOperation.emissions .empty ops) b :=
    Reflects.empty.run hrange hrun
  refine ⟨Code.starts_eq_ok_iff.mpr (hreflects.tiles.walk (Nat.le_refl _)), ?_⟩
  intro start op hitem
  exact (hreflects.mirrors start op hitem).readsBack hresolved

/-- A loop around a switch, with branches both ways, long forms, and arms that are given a target
twice. -/
def switchLoop : List DraftOperation := [
  .newLabel, .newLabel, .newLabel,
  .bindLabel 0,
  .emit .ldc [300],
  .emit (.store .int) [300],
  .emit (.load .int) [300],
  .jump .ifeq (.label 1),
  .emit .iinc [1, -200],
  .emit (.load .int) [1],
  .reserveSwitch 5 6,
  .patchDefault 22 0,
  .patchCase 22 0 44,
  .bindLabel 1,
  .emitWithEffect .invokestatic [7] 0 0,
  .patchCase 22 1 0,
  .patchDefault 22 44,
  .patchCase 22 1 47,
  .emit .goto [-47],
  .bindHandler 2,
  .emit .pop [],
  .jump .goto (.label 0)]

def switchLoopDraft : CodeDraft := ((switchLoop.forM DraftOperation.run).outcome .empty).2

theorem switchLoop_readsBack :
    (∀ op ∈ switchLoop, op.InRange) ∧
      (switchLoop.forM DraftOperation.run).outcome .empty = (.ok (), switchLoopDraft) ∧
      switchLoopDraft.checkResolved = .ok () ∧
      Code.starts switchLoopDraft.code = .ok [0, 3, 7, 11, 14, 20, 22, 44, 47, 50, 51] ∧
      ReadsBack switchLoopDraft switchLoop 0 (.emit .ldc [300]) ∧
      ReadsBack switchLoopDraft switchLoop 11 (.jump .ifeq (.label 1)) ∧
      ReadsBack switchLoopDraft switchLoop 22 (.reserveSwitch 5 6) := by
  have hrange : ∀ op ∈ switchLoop, op.InRange := by decide +kernel
  have hok : ((switchLoop.forM DraftOperation.run).outcome .empty).1 = .ok () := by decide +kernel
  have hrun : (switchLoop.forM DraftOperation.run).outcome .empty = (.ok (), switchLoopDraft) :=
    Prod.ext hok (by rw [switchLoopDraft])
  have hresolved : switchLoopDraft.checkResolved = .ok () := by decide +kernel
  obtain ⟨hstarts, hreads⟩ := starts_emissions hrange hrun hresolved
  have hfirst : (DraftOperation.emissions .empty switchLoop).map Prod.fst =
      [0, 3, 7, 11, 14, 20, 22, 44, 47, 50, 51] := by decide +kernel
  rw [hfirst] at hstarts
  exact ⟨hrange, hrun, hresolved, hstarts, hreads 0 _ (by decide +kernel),
    hreads 11 _ (by decide +kernel), hreads 22 _ (by decide +kernel)⟩

end CodeDraft
end ClassAssembly
