import ClassAssembly.Proofs.DepthTracking
import ClassAssembly.Proofs.FailedOperations

/-! Branches to a label and the code at the label agree on the depth of the stack, whether control
comes there or not. A handler is the exception: it starts with one word on the stack, whatever the
branches to it bring along. -/
namespace ClassAssembly

namespace DraftOperation

/-- The instruction that an operation adds, with the depth of the stack before and after it. -/
def record (b b' : CodeDraft) (op : DraftOperation) : List DepthEntry :=
  if op.emits then [⟨b.code.size, b.depth, op, b'.depth, b'.code.size⟩] else []

lemma record_eq_nil {b b' : CodeDraft} {op : DraftOperation} (h : op.emits = false) :
    op.record b b' = [] := by
  simp [record, h]

/-- The instructions that a run adds, with the depths that the draft goes through. -/
def records : CodeDraft → List DraftOperation → List DepthEntry
  | _, [] => []
  | b, op :: ops => op.record b (op.run.outcome b).2 ++ records (op.run.outcome b).2 ops

/-- Where an operation has a handler start. -/
def handlerStart (b : CodeDraft) : DraftOperation → List Nat
  | bindHandler _ => [b.code.size]
  | _ => []

/-- Where handlers start after a run. -/
def handlerStarts : CodeDraft → List DraftOperation → List Nat
  | _, [] => []
  | b, op :: ops => op.handlerStart b ++ handlerStarts (op.run.outcome b).2 ops

end DraftOperation

lemma Opcode.length_pos_of_encode {op : Opcode} {traits : OpcodeTraits} {first second : Int}
    {bytes : Bytes} (htraits : op.traits = .ok traits)
    (h : op.encode traits.form first second = .ok bytes) : 0 < bytes.length := by
  obtain ⟨insn, _, hlength, _⟩ := Code.decode_encode htraits h (Code.holds_end #[] bytes)
  rw [← hlength]
  exact insn.length_pos

namespace CodeDraft

variable {b b' : CodeDraft} {op : DraftOperation} {entries : List DepthEntry} {handlers : List Nat}

/-- The code has become longer. The labels are bound where they were, and have kept the depths that
were noted. -/
structure Adds (b b' : CodeDraft) : Prop where
  grows : b.code.size < b'.code.size
  offsetOf : b'.offsetOf? = b.offsetOf?
  depthAt : ∀ label depth, b.depthAt? label = some depth → b'.depthAt? label = some depth

lemma size_lt_extended {bytes : Bytes} (h : 0 < bytes.length) (b : CodeDraft) (popped pushed : Nat)
    (flow : Flow) : b.code.size < (b.extended bytes popped pushed flow).code.size := by
  rw [extended, Code.size_appendList]
  omega

lemma Emits.adds {opcode : Opcode} {operands : List Int} {words : Nat × Nat}
    (h : Emits b b' opcode operands words) : Adds b b' := by
  obtain ⟨traits, bytes, maxLocals, htraits, hencode, _, rfl⟩ := h
  have hpos := Opcode.length_pos_of_encode htraits hencode
  exact ⟨size_lt_extended hpos (b.occupying maxLocals) _ _ _, rfl, fun _ _ => id⟩

/-- A branch to a label notes the depth that is left after it there. -/
lemma adds_of_jump {opcode : Opcode} {target : BranchTarget}
    (h : (jump opcode target).outcome b = (.ok (), b')) :
    Adds b b' ∧ b'.depth + opcode.popped = b.depth ∧
      ∀ label, target = .label label → b'.depthAt? label = some b'.depth := by
  obtain ⟨traits, popped, distance, b₁, htraits, _, hpopped, hresolve, hfits, rfl⟩ := jump_eq h
  rw [← Opcode.popped_of_traits htraits] at hpopped
  have hbytes : 0 < (opcode.byte :: Bytes.signed 2 distance).length := Nat.succ_pos _
  have hgrows := size_lt_extended hbytes b₁ popped 0 traits.flow
  have hdepth : b₁.depth - popped + 0 + opcode.popped = b₁.depth := by
    rw [← hpopped]
    exact Nat.sub_add_cancel hfits.1
  cases target with
  | distance given =>
    obtain rfl := resolve_distance_eq hresolve
    exact ⟨⟨hgrows, rfl, fun _ _ => id⟩, hdepth, fun _ heq => by cases heq⟩
  | label label =>
    have hnotes := notes_of_resolve hresolve
    have hnoted : b₁.depthAt? label = some (b₁.depth - popped) := by
      rw [hnotes.depthAt, Function.update_self, hnotes.depth]
    refine ⟨⟨hnotes.size ▸ hgrows, hnotes.offsetOf, hnotes.keeps⟩, hdepth.trans hnotes.depth, ?_⟩
    rintro _ ⟨⟩
    exact hnoted

/-- Every instruction leaves the labels alone, but for the depth that a branch notes. -/
lemma adds_of_emits (hemits : op.emits = true) (hrun : op.run.outcome b = (.ok (), b')) :
    Adds b b' ∧ ∀ opcode label, op = .jump opcode (.label label) →
      b'.depth + opcode.popped = b.depth ∧ b'.depthAt? label = some b'.depth := by
  have hemit : ∀ {opcode operands}, (emit opcode operands).outcome b = (.ok (), b') →
      Adds b b' := by
    intro opcode operands h
    rcases emit_eq h with ⟨_, _, _, _, hemits⟩ | ⟨_, _, hjump⟩
    · exact hemits.adds
    · exact (adds_of_jump hjump).1
  cases op with
  | emit opcode operands => exact ⟨hemit hrun, fun _ _ heq => by cases heq⟩
  | emitWithEffect opcode operands popped pushed =>
    refine ⟨?_, fun _ _ heq => by cases heq⟩
    rcases emitWithEffect_eq hrun with ⟨_, _, _, hemits⟩ | h
    · exact hemits.adds
    · exact hemit h
  | jump opcode target =>
    obtain ⟨hadds, hdepth, hnoted⟩ := adds_of_jump hrun
    refine ⟨hadds, ?_⟩
    rintro _ label ⟨⟩
    exact ⟨hdepth, hnoted label rfl⟩
  | reserveSwitch low high =>
    obtain ⟨_, hreserve, _⟩ := Step.map_eq_ok.mp hrun
    have hcode := (reserveSwitch_eq_ok hreserve).code
    obtain ⟨rfl, _, bytes, switches, rfl⟩ := reserveSwitch_eq hreserve
    refine ⟨⟨?_, rfl, fun _ _ => id⟩, fun _ _ heq => by cases heq⟩
    rw [hcode, Code.size_appendList, Code.length_reservedBytes]
    exact Nat.lt_add_of_pos_right (TableSwitch.length_pos _)
  | newLabel | bindLabel | bindHandler | patchDefault | patchCase | setDepth | useLocals =>
    cases hemits

lemma ReachedWith.added {offset depth : Nat} (h : ReachedWith entries b offset depth)
    (hemits : op.emits = true) (b' : CodeDraft) :
    ReachedWith (entries ++ op.record b b') b' offset depth := by
  rcases h with ⟨e, he, heq⟩ | ⟨rfl, _, rfl⟩
  · exact .inl ⟨e, List.mem_append_left _ he, heq⟩
  · refine .inl ⟨⟨b.code.size, b.depth, op, b'.depth, b'.code.size⟩,
      List.mem_append_right _ ?_, rfl, rfl⟩
    rw [DraftOperation.record, if_pos hemits]
    exact List.mem_singleton_self _

/-- The instructions written so far agree with the labels on the depth of the stack, and handlers
start with one word on it. -/
structure Levelled (entries : List DepthEntry) (handlers : List Nat) (b : CodeDraft) : Prop where
  behind : ∀ e ∈ entries, e.start < b.code.size
  once : ∀ e ∈ entries, ∀ e' ∈ entries, e.start = e'.start → e = e'
  branches : ∀ e ∈ entries, ∀ opcode label, e.op = .jump opcode (.label label) →
    e.after + opcode.popped = e.before ∧ b.depthAt? label = some e.after
  labels : ∀ label offset, b.offsetOf? label = some offset → offset ∈ handlers ∨
    ∃ depth, b.depthAt? label = some depth ∧ ReachedWith entries b offset depth
  handlers : ∀ offset ∈ handlers, ReachedWith entries b offset 1

namespace Levelled

lemma empty : Levelled [] [] .empty where
  behind _ h := absurd h List.not_mem_nil
  once _ h := absurd h List.not_mem_nil
  branches _ h := absurd h List.not_mem_nil
  labels _ _ h := by cases h
  handlers _ h := absurd h List.not_mem_nil

/-- An operation that adds no instruction. It may have the end of the code reached, and bind labels
there that agree on the depth. -/
lemma idle (h : Levelled entries handlers b) (hsize : b'.code.size = b.code.size)
    (hreached : b.reachable = true → b'.reachable = true ∧ b'.depth = b.depth)
    (hdepthAt : ∀ label depth, b.depthAt? label = some depth → b'.depthAt? label = some depth)
    (hlabels : ∀ label offset, b'.offsetOf? label = some offset →
      b.offsetOf? label = some offset ∨
        offset = b.code.size ∧ b'.reachable = true ∧ b'.depthAt? label = some b'.depth) :
    Levelled entries handlers b' := by
  have hpersists : ∀ {offset depth}, ReachedWith entries b offset depth →
      ReachedWith entries b' offset depth := by
    rintro offset depth (hentry | ⟨rfl, hreachable, rfl⟩)
    · exact .inl hentry
    · obtain ⟨hreachable', hdepth⟩ := hreached hreachable
      exact .inr ⟨hsize.symm, hreachable', hdepth⟩
  refine ⟨fun e he => hsize ▸ h.behind e he, h.once, fun e he opcode label hop => ?_,
    fun label offset hoffset => ?_, fun offset hoffset => hpersists (h.handlers offset hoffset)⟩
  · obtain ⟨hpopped, hnoted⟩ := h.branches e he opcode label hop
    exact ⟨hpopped, hdepthAt label _ hnoted⟩
  · rcases hlabels label offset hoffset with hbefore | ⟨rfl, hreachable, hnoted⟩
    · refine (h.labels label offset hbefore).imp_right ?_
      rintro ⟨depth, hdepth, hreached⟩
      exact ⟨depth, hdepthAt label depth hdepth, hpersists hreached⟩
    · exact .inr ⟨b'.depth, hnoted, .inr ⟨hsize.symm, hreachable, rfl⟩⟩

/-- An operation that adds an instruction. -/
lemma extend (h : Levelled entries handlers b) (hemits : op.emits = true)
    (hrun : op.run.outcome b = (.ok (), b')) :
    Levelled (entries ++ op.record b b') handlers b' := by
  obtain ⟨hadds, hjump⟩ := adds_of_emits hemits hrun
  have hgrows := hadds.grows
  have hmem : ∀ e ∈ entries ++ op.record b b', e ∈ entries ∨
      e = ⟨b.code.size, b.depth, op, b'.depth, b'.code.size⟩ := by
    intro e he
    refine (List.mem_append.mp he).imp_right fun hnew => ?_
    rw [DraftOperation.record, if_pos hemits] at hnew
    exact List.mem_singleton.mp hnew
  refine ⟨fun e he => ?_, fun e he e' he' hstart => ?_, fun e he opcode label hop => ?_,
    fun label offset hoffset => ?_,
    fun offset hoffset => (h.handlers offset hoffset).added hemits b'⟩
  · rcases hmem e he with hold | rfl
    · exact Nat.lt_trans (h.behind e hold) hgrows
    · exact hgrows
  · -- The new instruction starts where the others have ended.
    rcases hmem e he with hold | rfl <;> rcases hmem e' he' with hold' | rfl
    · exact h.once e hold e' hold' hstart
    · exact absurd hstart (Nat.ne_of_lt (h.behind e hold))
    · exact absurd hstart.symm (Nat.ne_of_lt (h.behind e' hold'))
    · rfl
  · rcases hmem e he with hold | rfl
    · obtain ⟨hpopped, hnoted⟩ := h.branches e hold opcode label hop
      exact ⟨hpopped, hadds.depthAt label _ hnoted⟩
    · exact hjump opcode label hop
  · rw [hadds.offsetOf] at hoffset
    refine (h.labels label offset hoffset).imp_right ?_
    rintro ⟨depth, hdepth, hreached⟩
    exact ⟨depth, hadds.depthAt label depth hdepth, hreached.added hemits b'⟩

/-- A label is bound to the end of the code, with the depth of the code before or, where that does
not go on, of the branches to it. -/
lemma bindsLabel (h : Levelled entries handlers b) {label : Label}
    (hrun : (bindLabel label).outcome b = (.ok (), b')) : Levelled entries handlers b' := by
  obtain ⟨state, hstate, hoffset, hagree, rfl⟩ := bindLabel_eq hrun
  have hsame : ∀ depth, b.depthAt? label = some depth →
      depth = if b.reachable then b.depth else state.depth.getD b.depth := by
    intro depth hdepth
    rw [depthAt?_of_getElem? hstate] at hdepth
    split
    · rename_i hreachable
      exact hagree hreachable depth hdepth
    · rw [hdepth, Option.getD_some]
  refine h.idle (size_redirected _ _ _) (fun hreachable => ⟨rfl, if_pos hreachable⟩)
    (fun other depth hdepth => ?_) fun other offset hother => ?_
  · rw [depthAt?_landing hstate]
    exact update_of_agree hsame hdepth
  · rw [offsetOf?_landing hstate] at hother
    refine (eq_or_of_update hother).imp_right ?_
    rintro ⟨rfl, rfl⟩
    exact ⟨rfl, rfl, by rw [depthAt?_landing hstate, Function.update_self]; rfl⟩

/-- A handler starts at the end of the code, where labels may be bound that have other depths. -/
lemma bindsHandler (h : Levelled entries handlers b) {label : Label}
    (hrun : (bindHandler label).outcome b = (.ok (), b')) :
    Levelled entries (handlers ++ [b.code.size]) b' := by
  obtain ⟨state, hstate, _, _, hb'⟩ := bindHandler_eq hrun
  have hsize : b'.code.size = b.code.size := hb' ▸ size_redirected _ _ _
  have hreachable : b'.reachable = true := hb' ▸ rfl
  have hdepth : b'.depth = 1 := hb' ▸ rfl
  have hdepthAt : b'.depthAt? = Function.update b.depthAt? label (some (state.depth.getD 1)) :=
    hb' ▸ depthAt?_landing hstate _ state.pending
  have hoffsetOf : b'.offsetOf? = Function.update b.offsetOf? label (some b.code.size) :=
    hb' ▸ offsetOf?_landing hstate (state.depth.getD 1) state.pending
  have hkeeps : ∀ other depth, b.depthAt? other = some depth → b'.depthAt? other = some depth := by
    intro other depth hother
    rw [hdepthAt]
    refine update_of_agree (fun noted hnoted => ?_) hother
    rw [depthAt?_of_getElem? hstate] at hnoted
    rw [hnoted, Option.getD_some]
  have hend : ∀ {offset depth}, ReachedWith entries b offset depth →
      offset = b.code.size ∨ ReachedWith entries b' offset depth := by
    rintro offset depth (hentry | ⟨rfl, _, _⟩)
    · exact .inr (.inl hentry)
    · exact .inl rfl
  refine ⟨fun e he => hsize ▸ h.behind e he, h.once, fun e he opcode other hop => ?_,
    fun other offset hother => ?_, fun offset hoffset => ?_⟩
  · obtain ⟨hpopped, hnoted⟩ := h.branches e he opcode other hop
    exact ⟨hpopped, hkeeps other _ hnoted⟩
  · rw [List.mem_append, List.mem_singleton]
    rw [hoffsetOf] at hother
    rcases eq_or_of_update hother with hbefore | ⟨_, rfl⟩
    · rcases h.labels other offset hbefore with hhandler | ⟨depth, hnoted, hreached⟩
      · exact .inl (.inl hhandler)
      · rcases hend hreached with heq | hreached
        · exact .inl (.inr heq)
        · exact .inr ⟨depth, hkeeps other depth hnoted, hreached⟩
    · exact .inl (.inr rfl)
  · have hnew : ReachedWith entries b' b.code.size 1 := .inr ⟨hsize.symm, hreachable, hdepth⟩
    rcases List.mem_append.mp hoffset with hold | hlast
    · rcases hend (h.handlers offset hold) with rfl | hreached
      · exact hnew
      · exact hreached
    · rw [List.mem_singleton.mp hlast]
      exact hnew

/-- An operation that leaves depths and labels alone. -/
lemma unchanged (h : Levelled entries handlers b) (hsize : b'.code.size = b.code.size)
    (hreachable : b'.reachable = b.reachable) (hdepth : b'.depth = b.depth)
    (hdepthAt : b'.depthAt? = b.depthAt?) (hoffsetOf : b'.offsetOf? = b.offsetOf?) :
    Levelled entries handlers b' := by
  refine h.idle hsize (fun htrue => ⟨hreachable.trans htrue, hdepth⟩) ?_ ?_
  · rw [hdepthAt]
    exact fun _ _ => id
  · rw [hoffsetOf]
    exact fun _ _ => .inl

/-- One operation keeps instructions and labels in agreement. -/
theorem step (h : Levelled entries handlers b) (hdepth : ∀ depth, op ≠ .setDepth depth)
    (hrun : op.run.outcome b = (.ok (), b')) :
    Levelled (entries ++ op.record b b') (handlers ++ op.handlerStart b) b' := by
  have hquiet : op.emits = false → op.handlerStart b = [] → Levelled entries handlers b' →
      Levelled (entries ++ op.record b b') (handlers ++ op.handlerStart b) b' := by
    intro hemits hnone hb'
    rwa [DraftOperation.record_eq_nil hemits, hnone, List.append_nil, List.append_nil]
  cases op with
  | emit | emitWithEffect | jump | reserveSwitch =>
    simpa only [DraftOperation.handlerStart, List.append_nil] using h.extend rfl hrun
  | newLabel =>
    obtain ⟨label, hnew, _⟩ := Step.map_eq_ok.mp hrun
    cases hnew
    exact hquiet rfl rfl (h.unchanged rfl rfl rfl (depthAt?_newLabel b) (offsetOf?_newLabel b))
  | bindLabel label => exact hquiet rfl rfl (h.bindsLabel hrun)
  | bindHandler label =>
    rw [DraftOperation.record_eq_nil rfl, List.append_nil]
    exact h.bindsHandler hrun
  | patchDefault start target =>
    obtain ⟨_, _, _, hpatches⟩ := patchDefault_eq_ok hrun
    obtain ⟨code, switches, rfl⟩ := patchDefault_eq hrun
    exact hquiet rfl rfl (h.unchanged hpatches.size_eq rfl rfl rfl rfl)
  | patchCase start index target =>
    obtain ⟨_, _, _, hpatches⟩ := patchCase_eq_ok hrun
    obtain ⟨code, switches, rfl⟩ := patchCase_eq hrun
    exact hquiet rfl rfl (h.unchanged hpatches.size_eq rfl rfl rfl rfl)
  | setDepth depth => exact absurd rfl (hdepth depth)
  | useLocals index words =>
    obtain rfl := useLocals_eq hrun
    exact hquiet rfl rfl (h.unchanged rfl rfl rfl rfl rfl)

/-- A whole run keeps instructions and labels in agreement. -/
theorem run {ops : List DraftOperation} (h : Levelled entries handlers b)
    (hdepth : ∀ op ∈ ops, ∀ depth, op ≠ .setDepth depth)
    (hrun : (ops.forM DraftOperation.run).outcome b = (.ok (), b')) :
    Levelled (entries ++ DraftOperation.records b ops)
      (handlers ++ DraftOperation.handlerStarts b ops) b' := by
  induction ops generalizing b entries handlers with
  | nil =>
    cases hrun
    simpa [DraftOperation.records, DraftOperation.handlerStarts] using h
  | cons op ops ih =>
    rw [List.forM, Step.bind_eq_ok] at hrun
    obtain ⟨_, b₁, hop, hops⟩ := hrun
    have hstep := h.step (hdepth op List.mem_cons_self) hop
    have hrest := ih hstep (fun op hop => hdepth op (List.mem_cons_of_mem _ hop)) hops
    rw [DraftOperation.records, DraftOperation.handlerStarts, hop]
    simpa using hrest

end Levelled

/-- A branch to a label leaves the depth from which the first instruction at the label is written,
before or after the label is bound, unless a handler starts there: then that is one. -/
theorem first_depth_of_branch {ops : List DraftOperation}
    (hdepth : ∀ op ∈ ops, ∀ depth, op ≠ .setDepth depth)
    (hrun : (ops.forM DraftOperation.run).outcome .empty = (.ok (), b)) :
    ∀ branch ∈ DraftOperation.records .empty ops, ∀ first ∈ DraftOperation.records .empty ops,
      ∀ opcode label, branch.op = .jump opcode (.label label) →
        b.offsetOf? label = some first.start →
        branch.after + opcode.popped = branch.before ∧
          first.before = if first.start ∈ DraftOperation.handlerStarts .empty ops then 1
            else branch.after := by
  intro branch hbranch first hfirst opcode label hop hoffset
  have hlevelled := Levelled.empty.run hdepth hrun
  rw [List.nil_append, List.nil_append] at hlevelled
  obtain ⟨hpopped, hnoted⟩ := hlevelled.branches branch hbranch opcode label hop
  -- Control comes to the first instruction with one depth.
  have hone : ∀ depth, ReachedWith (DraftOperation.records .empty ops) b first.start depth →
      first.before = depth := by
    rintro depth (⟨e, he, hstart, rfl⟩ | ⟨hend, _⟩)
    · rw [hlevelled.once first hfirst e he hstart.symm]
    · exact absurd hend (Nat.ne_of_lt (hlevelled.behind first hfirst))
  refine ⟨hpopped, ?_⟩
  split
  · rename_i hhandler
    exact hone 1 (hlevelled.handlers first.start hhandler)
  · rename_i hplain
    obtain ⟨depth, hdepth, hreached⟩ :=
      (hlevelled.labels label first.start hoffset).resolve_left hplain
    rw [hnoted] at hdepth
    cases hdepth
    exact hone _ hreached

/-- Two branches to one place through two labels, a loop, and a branch into a handler. -/
def handledLoop : List DraftOperation := [
  .newLabel, .newLabel, .newLabel, .newLabel,
  .emit .iconst0 [],
  .emit .iconst0 [],
  .bindLabel 0,
  .jump .ifeq (.label 1),
  .emit .iconst0 [],
  .jump .goto (.label 0),
  .bindLabel 1,
  .bindLabel 2,
  .emit .pop [],
  .emit .iconst0 [],
  .emit .iconst0 [],
  .jump .ifeq (.label 2),
  .emit .iconst0 [],
  .jump .goto (.label 3),
  .bindHandler 3,
  .emit .athrow []]

def handledLoopDraft : CodeDraft := ((handledLoop.forM DraftOperation.run).outcome .empty).2

theorem handledLoop_depths :
    (∀ op ∈ handledLoop, ∀ depth, op ≠ .setDepth depth) ∧
      (handledLoop.forM DraftOperation.run).outcome .empty = (.ok (), handledLoopDraft) ∧
      DraftOperation.handlerStarts .empty handledLoop = [19] ∧
      ∃ forward ∈ DraftOperation.records .empty handledLoop,
      ∃ backward ∈ DraftOperation.records .empty handledLoop,
      ∃ again ∈ DraftOperation.records .empty handledLoop,
      ∃ first ∈ DraftOperation.records .empty handledLoop,
        forward.op = .jump .ifeq (.label 1) ∧
        handledLoopDraft.offsetOf? 1 = some first.start ∧ first.before = forward.after ∧
        again.op = .jump .ifeq (.label 2) ∧
        handledLoopDraft.offsetOf? 2 = some first.start ∧ first.before = again.after ∧
        backward.op = .jump .goto (.label 0) ∧
        handledLoopDraft.offsetOf? 0 = some forward.start ∧ forward.before = backward.after := by
  have hdepth : ∀ op ∈ handledLoop, ∀ depth, op ≠ .setDepth depth := by simp [handledLoop]
  have hok : ((handledLoop.forM DraftOperation.run).outcome .empty).1 = .ok () := by decide +kernel
  have hrun : (handledLoop.forM DraftOperation.run).outcome .empty = (.ok (), handledLoopDraft) :=
    Prod.ext hok (by rw [handledLoopDraft])
  have hhandlers : DraftOperation.handlerStarts .empty handledLoop = [19] := by decide +kernel
  obtain ⟨forward, hforward, hop, hstart⟩ :
      ∃ e ∈ DraftOperation.records .empty handledLoop, e.op = .jump .ifeq (.label 1) ∧
        e.start = 2 := by
    decide +kernel
  obtain ⟨backward, hbackward, hop'⟩ :
      ∃ e ∈ DraftOperation.records .empty handledLoop, e.op = .jump .goto (.label 0) := by
    decide +kernel
  obtain ⟨again, hagain, hop''⟩ :
      ∃ e ∈ DraftOperation.records .empty handledLoop, e.op = .jump .ifeq (.label 2) := by
    decide +kernel
  obtain ⟨first, hfirst, hnine⟩ :
      ∃ e ∈ DraftOperation.records .empty handledLoop, e.start = 9 := by
    decide +kernel
  have hzero : handledLoopDraft.offsetOf? 0 = some forward.start := by
    rw [hstart]
    decide +kernel
  have hone : handledLoopDraft.offsetOf? 1 = some first.start := by
    rw [hnine]
    decide +kernel
  have htwo : handledLoopDraft.offsetOf? 2 = some first.start := by
    rw [hnine]
    decide +kernel
  have hsame := first_depth_of_branch hdepth hrun
  rw [hhandlers] at hsame
  obtain ⟨_, hdepth₁⟩ := hsame forward hforward first hfirst _ 1 hop hone
  obtain ⟨_, hdepth₂⟩ := hsame again hagain first hfirst _ 2 hop'' htwo
  obtain ⟨_, hdepth₀⟩ := hsame backward hbackward forward hforward _ 0 hop' hzero
  rw [if_neg (by simp [hnine])] at hdepth₁ hdepth₂
  rw [if_neg (by simp [hstart])] at hdepth₀
  exact ⟨hdepth, hrun, hhandlers, forward, hforward, backward, hbackward, again, hagain, first,
    hfirst, hop, hone, hdepth₁, hop'', htwo, hdepth₂, hop', hzero, hdepth₀⟩

/-- A branch with two words on the stack leads to a handler. -/
def thrownPair : List DraftOperation := [
  .newLabel,
  .emit .iconst0 [],
  .emit .iconst0 [],
  .jump .goto (.label 0),
  .bindHandler 0,
  .emit .athrow []]

theorem handler_overrules_branch :
    (∀ op ∈ thrownPair, ∀ depth, op ≠ .setDepth depth) ∧
      ((thrownPair.forM DraftOperation.run).outcome .empty).1 = .ok () ∧
      ∃ branch ∈ DraftOperation.records .empty thrownPair,
      ∃ first ∈ DraftOperation.records .empty thrownPair,
        branch.op = .jump .goto (.label 0) ∧
        ((thrownPair.forM DraftOperation.run).outcome .empty).2.offsetOf? 0 = some first.start ∧
        branch.after = 2 ∧ first.before = 1 :=
  ⟨by simp [thrownPair], by decide +kernel, by decide +kernel⟩

end CodeDraft
end ClassAssembly
