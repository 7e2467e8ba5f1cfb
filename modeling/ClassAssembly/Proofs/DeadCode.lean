import ClassAssembly.Proofs.SoundFrames

/-! When blanking the blocks that were never reached is harmless. A blanked block has the local
variables of one handler, and throws them at all handlers that cover any part of it. -/
namespace ClassAssembly

namespace Opcode

lemma traits_nop : nop.traits = .ok ⟨"NOP", .plain, some 0, .normal, .fixed [] none⟩ := by
  decide +kernel

lemma traits_athrow : athrow.traits = .ok ⟨"ATHROW", .plain, some (-1), .throws, .fixed [.reference] none⟩ := by
  decide +kernel

end Opcode

namespace Code

lemma decode_plain {code : Array UInt8} {pc : Nat} {op : Opcode} {traits : OpcodeTraits}
    (hbyte : code[pc]? = some op.byte) (htraits : op.traits = .ok traits)
    (hform : traits.form = .plain) : decode code pc = .ok ⟨op, 1, false, 0, 0, Nat.one_pos⟩ := by
  rw [decode_of_byte hbyte htraits, hform]
  rfl

end Code

namespace Machine.Site

lemma execute_of_traits {insn : Instruction} {traits : OpcodeTraits}
    (htraits : insn.opcode.traits = .ok traits) (site : Site) (m : Machine) :
    (site.execute insn).outcome m =
      (site.perform traits.effect insn.first insn.second).outcome m := by
  simp only [execute, Step.outcome_bind, Step.outcome_ofExcept, htraits]

lemma execute_plain {op : Opcode} {traits : OpcodeTraits} (htraits : op.traits = .ok traits)
    (site : Site) (m : Machine) :
    (site.execute ⟨op, 1, false, 0, 0, Nat.one_pos⟩).outcome m =
      (site.perform traits.effect 0 0).outcome m :=
  @execute_of_traits ⟨op, 1, false, 0, 0, Nat.one_pos⟩ traits htraits site m

end Machine.Site

namespace Inference

variable {p : BlockProgram} {s : Inference} {k pc : Nat} {frame : Frame} {b : Block}

/-- The frame of the handler is wide enough for what an exception thrown with these local variables
brings there. -/
def Tolerates (p : BlockProgram) (s : Inference) (h : ExceptionHandler)
    (locals : Array VerificationType) : Prop :=
  ∃ exception entry, h.caught.outcome s.pool = (.ok exception, s.pool) ∧
    BlockProgram.handlerFrame? p.graph s.frames h = some entry ∧
    ∀ offset, (Machine.merge p.scope offset ⟨locals, [exception]⟩).outcome ⟨entry, s.pool⟩ =
      (.ok false, ⟨entry, s.pool⟩)

lemma mergeEntry_unchanged {entry : Frame} (hentry : s.frames[k]? = some (some entry))
    (hmerge : ∀ offset, (Machine.merge p.scope offset frame).outcome ⟨entry, s.pool⟩ =
      (.ok false, ⟨entry, s.pool⟩)) :
    (mergeEntry p k frame).outcome s = (.ok (), s) := by
  obtain ⟨frames, worklist, pool⟩ := s
  simp only at hentry hmerge
  simp only [mergeEntry, Step.outcome_ofOutcome, hentry, hmerge, setIfInBounds_self hentry]
  rfl

lemma sendToHandlers_unchanged (hpc : pc < 65536)
    (h : ∀ h ∈ p.handlers, h.covers pc → s.Tolerates p h frame.locals) :
    (sendToHandlers p pc frame).outcome s = (.ok (), s) := by
  rw [sendToHandlers_eq]
  refine Step.forM_unchanged _ fun handler hmem => ?_
  rw [List.mem_filter, Nat.mod_eq_of_lt hpc] at hmem
  obtain ⟨exception, entry, hcaught, hentry, hmerge⟩ := h handler hmem.1 hmem.2
  refine Step.bind_eq_ok.mpr ⟨exception, s, ?_, ?_⟩
  · simp only [constants, Step.outcome_ofOutcome, hcaught]
  · unfold BlockProgram.handlerFrame? at hentry
    obtain ⟨k, hk, hentry⟩ := Option.bind_eq_some_iff.mp (Option.join_eq_some_iff.mp hentry)
    unfold send
    rw [hk]
    exact mergeEntry_unchanged hentry hmerge

lemma sendToHandlers_nil (h : p.handlers = []) (pc : Nat) (frame : Frame) (s : Inference) :
    (sendToHandlers p pc frame).outcome s = (.ok (), s) := by
  rw [sendToHandlers, h]
  rfl

/-- An instruction that leaves the constants alone and tells its handlers nothing new. -/
lemma executeFrom_instruction {s' : Inference} {stop : Nat} {insn : Instruction}
    {traits : OpcodeTraits} {targets : List Int} {frame' : Frame} (hpc : pc < stop)
    (hdecode : Code.decode p.code pc = .ok insn)
    (hhandlers : (sendToHandlers p pc frame).outcome s = (.ok (), s))
    (hexecute : (Machine.Site.execute ⟨pc, p.code, p.scope⟩ insn).outcome ⟨frame, s.pool⟩ =
      (.ok (), ⟨frame', s.pool⟩))
    (htraits : insn.opcode.traits = .ok traits)
    (htargets : Code.jumpTargets p.code pc insn traits.flow = .ok targets)
    (hsends : (targets.forM fun target => send p pc target frame').outcome s = (.ok (), s')) :
    (executeFrom p k stop pc frame).outcome s =
      if traits.flow.isUnconditional then (.ok (), s')
      else (executeFrom p k stop (pc + insn.length) frame').outcome s' := by
  have hstep : (execute p pc insn frame).outcome s = (.ok frame', s) := by
    simp only [execute, Step.outcome_ofOutcome, hexecute]
  rw [executeFrom, if_pos hpc]
  simp only [hdecode, Step.outcome_bind, hhandlers, hstep, htraits, htargets,
    Step.outcome_ofExcept, hsends]
  split <;> rfl

lemma executeFrom_next {stop next : Nat} {insn : Instruction} {traits : OpcodeTraits} {frame' : Frame}
    (hpc : pc < stop) (hdecode : Code.decode p.code pc = .ok insn)
    (hhandlers : (sendToHandlers p pc frame).outcome s = (.ok (), s))
    (hexecute : (Machine.Site.execute ⟨pc, p.code, p.scope⟩ insn).outcome ⟨frame, s.pool⟩ =
      (.ok (), ⟨frame', s.pool⟩))
    (htraits : insn.opcode.traits = .ok traits) (hflow : traits.flow = .normal)
    (hnext : pc + insn.length = next) : (executeFrom p k stop pc frame).outcome s =
      (executeFrom p k stop next frame').outcome s := by
  have htargets : Code.jumpTargets p.code pc insn traits.flow = .ok [] := by
    rw [hflow]
    rfl
  rw [executeFrom_instruction hpc hdecode hhandlers hexecute htraits htargets rfl, hflow, hnext]
  rfl

/-- Executing a stretch of `nop` of which the handlers hear nothing new changes nothing. -/
lemma executeFrom_nops {stop : Nat} (n : Nat)
    (hnops : ∀ i, pc ≤ i → i < pc + n → p.code[i]? = some Opcode.nop.byte)
    (hsent : ∀ i, pc ≤ i → i < pc + n → (sendToHandlers p i frame).outcome s = (.ok (), s))
    (hstop : pc + n ≤ stop) : (executeFrom p k stop pc frame).outcome s =
      (executeFrom p k stop (pc + n) frame).outcome s := by
  induction n generalizing pc with
  | zero => rfl
  | succ n ih =>
    have hexecute : (Machine.Site.execute ⟨pc, p.code, p.scope⟩
        ⟨.nop, 1, false, 0, 0, Nat.one_pos⟩).outcome ⟨frame, s.pool⟩ =
          (.ok (), ⟨frame, s.pool⟩) := by
      rw [Machine.Site.execute_plain Opcode.traits_nop]
      rfl
    have hbyte := hnops pc (Nat.le_refl _) (by omega)
    rw [executeFrom_next (by omega) (Code.decode_plain hbyte Opcode.traits_nop rfl)
      (hsent pc (Nat.le_refl _) (by omega)) hexecute Opcode.traits_nop rfl rfl]
    rw [show pc + (n + 1) = pc + 1 + n by omega] at hnops hsent hstop ⊢
    exact ih (fun i hi => hnops i (Nat.le_of_succ_le hi)) (fun i hi => hsent i (Nat.le_of_succ_le hi))
      hstop

/-- A blanked block of which the handlers hear nothing new changes nothing. -/
lemma executeFrom_blank {i : PoolIndex} (hlt : b.start < b.stop)
    (hblank : ∀ pc, b.start ≤ pc ∧ pc < b.stop → p.code[pc]? =
      some (if pc + 1 = b.stop then Opcode.athrow.byte else Opcode.nop.byte))
    (hframe : frame.stack = [.object i])
    (hsent : ∀ pc, b.start ≤ pc → pc < b.stop →
      (sendToHandlers p pc frame).outcome s = (.ok (), s)) :
    (executeFrom p k b.stop b.start frame).outcome s = (.ok (), s) := by
  obtain ⟨n, hn⟩ : ∃ n, b.start + n + 1 = b.stop := ⟨b.stop - b.start - 1, by omega⟩
  rw [executeFrom_nops n (fun i hlo hhi => (hblank i (by omega)).trans (by rw [if_neg (by omega)]))
    (fun i hlo hhi => hsent i hlo (by omega)) (by omega)]
  have hbyte := hblank (b.start + n) (by omega)
  rw [if_pos hn] at hbyte
  have hexecute : (Machine.Site.execute ⟨b.start + n, p.code, p.scope⟩
      ⟨.athrow, 1, false, 0, 0, Nat.one_pos⟩).outcome ⟨frame, s.pool⟩ =
        (.ok (), ⟨⟨frame.locals, []⟩, s.pool⟩) := by
    obtain ⟨locals, stack⟩ := frame
    cases hframe
    rw [Machine.Site.execute_plain Opcode.traits_athrow]
    rfl
  exact executeFrom_instruction (by omega) (Code.decode_plain hbyte Opcode.traits_athrow rfl)
    (hsent _ (by omega) (by omega)) hexecute Opcode.traits_athrow rfl rfl

lemma executeBlock_eq {frames : Array (Option Frame)} (hb : p.graph.blocks[k]? = some b)
    (hframe : frames[k]? = some (some frame)) (worklist : Worklist) (pool : ConstantPool) :
    (executeBlock p k).outcome ⟨frames, worklist, pool⟩ =
      (executeFrom p k b.stop b.start frame).outcome ⟨frames, worklist, pool⟩ := by
  simp only [executeBlock, Step.outcome_bind, Step.outcome_get, hb, hframe]

lemma settle_done (hpop : s.worklist.pop? = none) (n : Nat) :
    (settle p (n + 1)).outcome s = (.ok (), s) := by
  simp only [settle, Step.outcome_bind, Step.outcome_get, hpop, Step.outcome_pure]

lemma settle_next {s' : Inference} {rest : Worklist} (hpop : s.worklist.pop? = some (k, rest))
    (hblock : (executeBlock p k).outcome { s with worklist := rest } = (.ok (), s')) (n : Nat) :
    (settle p (n + 1)).outcome s = (settle p n).outcome s' := by
  simp only [settle, Step.outcome_bind, Step.outcome_get, hpop, Step.outcome_set, hblock]

lemma size_lt_rounds (p : BlockProgram) (locals : Nat) : p.graph.blocks.size < rounds p locals := by
  have hmul := Nat.le_mul_of_pos_right p.graph.blocks.size
    (show 0 < 1 + (locals + 2 * p.code.size + 1) * 65538 by omega)
  exact Nat.lt_succ_of_le hmul

/-- A run in which no block changes anything ends after one round for each that waits. -/
lemma settle_unchanged (n : Nat) (hn : s.worklist.toList.length < n)
    (h : ∀ k ∈ s.worklist.toList, ∀ worklist,
      (executeBlock p k).outcome { s with worklist } = (.ok (), { s with worklist })) :
    ∃ t, (settle p n).outcome s = (.ok (), t) ∧ t.frames = s.frames ∧ t.pool = s.pool := by
  induction n generalizing s with
  | zero => omega
  | succ n ih =>
    cases hpop : s.worklist.pop? with
    | none => exact ⟨s, settle_done hpop n, rfl, rfl⟩
    | some next =>
      obtain ⟨k, rest⟩ := next
      have hlist := Worklist.toList_of_pop? hpop
      rw [hlist, List.length_cons] at hn
      obtain ⟨t, ht, hframes, hpool⟩ := ih (s := { s with worklist := rest })
        (Nat.lt_of_succ_lt_succ hn) fun j hj => h j (hlist ▸ List.mem_cons_of_mem k hj)
      refine ⟨t, ?_, hframes, hpool⟩
      rw [settle_next hpop (h k (hlist ▸ List.mem_cons_self) rest), ht]

end Inference

namespace BlockProgram

variable {p p' : BlockProgram} {s s' : Inference} {maxLocals : Nat} {exception : VerificationType}
  {dead : List Nat} {b : Block} {pool : ConstantPool} {Accepts : Nat → Frame → Prop}

/-- Nothing happens to the frame in a stretch of `nop`. -/
lemma Propagates.nops {stop pc : Nat} {frame : Frame} (n : Nat)
    (hnops : ∀ i, pc ≤ i → i < pc + n → p.code[i]? = some Opcode.nop.byte) (hstop : pc + n ≤ stop)
    (h : p.Propagates pool Accepts stop pc frame) :
    p.Propagates pool Accepts stop (pc + n) frame := by
  induction n generalizing pc with
  | zero => exact h
  | succ n ih =>
    cases h with
    | falls hpc => omega
    | instruction _ hdecode htraits _ hexecute _ _ hnext =>
      rw [Code.decode_plain (hnops pc (Nat.le_refl _) (by omega)) Opcode.traits_nop rfl] at hdecode
      cases hdecode
      rw [Opcode.traits_nop] at htraits
      cases htraits
      rw [Machine.Site.execute_plain Opcode.traits_nop] at hexecute
      cases hexecute
      rw [show pc + (n + 1) = pc + 1 + n by omega] at hnops hstop ⊢
      exact ih (fun i hi => hnops i (Nat.le_of_succ_le hi)) hstop (hnext rfl)

/-- A blanked block throws at each of its offsets, with the local variables it starts with. -/
lemma Propagates.thrown {pc : Nat} {frame : Frame}
    (hblank : ∀ pc, b.start ≤ pc ∧ pc < b.stop → p.code[pc]? =
      some (if pc + 1 = b.stop then Opcode.athrow.byte else Opcode.nop.byte))
    (hprop : p.Propagates pool Accepts b.stop b.start frame) (hstart : b.start ≤ pc)
    (hstop : pc < b.stop) {h : ExceptionHandler} (hh : h ∈ p.handlers) (hcovers : h.covers pc) :
    ∃ exception, h.caught.outcome pool = (.ok exception, pool) ∧
      p.Lands Accepts h.handler.toNat ⟨frame.locals, [exception]⟩ := by
  obtain ⟨n, rfl⟩ := Nat.exists_eq_add_of_le hstart
  have hthere := hprop.nops n
    (fun i hlo hhi => (hblank i (by omega)).trans (by rw [if_neg (by omega)])) (Nat.le_of_lt hstop)
  cases hthere with
  | falls hpc => omega
  | instruction _ _ _ hhandlers => exact hhandlers h hh hcovers

/-- The frame of a handler that was reached is kept. -/
lemma Retired.handlerFrame? (hretired : Retired p s maxLocals exception dead p' s')
    (hdead : ∀ k ∈ dead, s.frames[k]? = some none) {h : ExceptionHandler} {entry : Frame}
    (hentry : handlerFrame? p.graph s.frames h = some entry) :
    BlockProgram.handlerFrame? p'.graph s'.frames h = some entry := by
  unfold BlockProgram.handlerFrame? at hentry ⊢
  obtain ⟨k, hk, hframe⟩ := Option.bind_eq_some_iff.mp (Option.join_eq_some_iff.mp hentry)
  have hlive : k ∉ dead := by
    intro hmem
    rw [hdead k hmem] at hframe
    cases hframe
  rw [hretired.graph, hk, Option.bind_some, hretired.kept k hlive, hframe]
  rfl

lemma length_deadBlocks_le (p : BlockProgram) (frames : Array (Option Frame)) :
    (p.deadBlocks frames).length ≤ p.graph.blocks.size := by
  have hle := List.length_filter_le (fun i => frames[i]?.join.isNone)
    (List.range p.graph.blocks.size)
  rwa [List.length_range] at hle

/-- Where no handler hears anything new from the blanked blocks, the second run changes nothing. -/
theorem Retired.settle_of_sent {i : PoolIndex}
    (hretired : Retired p s maxLocals (.object i) dead p' s') (hempty : s.worklist.toList = [])
    (hblocks : ∀ k ∈ dead, ∃ b, p.graph.blocks[k]? = some b ∧ b.start < b.stop)
    (hsent : ∀ k ∈ dead, ∀ b, p.graph.blocks[k]? = some b →
      ∀ pc, b.start ≤ pc → pc < b.stop → ∀ worklist,
        (Inference.sendToHandlers p' pc (p.borrowedFrame s.frames maxLocals (.object i) b)).outcome
          { s' with worklist } = (.ok (), { s' with worklist }))
    (n : Nat) (hn : dead.length < n) :
    ∃ t, (Inference.settle p' n).outcome s' = (.ok (), t) ∧ t.frames = s'.frames ∧
      t.pool = s'.pool := by
  have hworklist : s'.worklist.toList = dead := by
    rw [hretired.worklist, hempty, List.nil_append]
  refine Inference.settle_unchanged n (by rwa [hworklist]) fun k hk worklist => ?_
  rw [hworklist] at hk
  obtain ⟨b, hb, hlt⟩ := hblocks k hk
  have hb' : p'.graph.blocks[k]? = some b := by rw [hretired.graph, hb]
  have hframe := hretired.retired k b hk hb
  rw [Inference.executeBlock_eq hb' hframe]
  exact Inference.executeFrom_blank hlt (fun pc => hretired.blanked k b pc hk hb) rfl
    fun pc hstart hstop => hsent k hk b hb pc hstart hstop worklist

/-- Where all handlers tolerate what the blanked blocks throw, the second run changes nothing. -/
theorem Retired.settle_unchanged {i : PoolIndex}
    (hretired : Retired p s maxLocals (.object i) dead p' s') (hempty : s.worklist.toList = [])
    (hdead : ∀ k ∈ dead, s.frames[k]? = some none)
    (hblocks : ∀ k ∈ dead, ∃ b, p.graph.blocks[k]? = some b ∧ b.start < b.stop)
    (hsize : p.code.size ≤ 65536)
    (htolerates : ∀ k ∈ dead, ∀ b, p.graph.blocks[k]? = some b →
      ∀ pc, b.start ≤ pc → pc < b.stop → ∀ h ∈ p.handlers, h.covers pc →
        s.Tolerates p h (p.borrowedFrame s.frames maxLocals (.object i) b).locals)
    (n : Nat) (hn : dead.length < n) :
    ∃ t, (Inference.settle p' n).outcome s' = (.ok (), t) ∧ t.frames = s'.frames ∧
      t.pool = s'.pool := by
  refine hretired.settle_of_sent hempty hblocks (fun k hk b hb pc hstart hstop worklist => ?_) n hn
  have hbyte := hretired.blanked k b pc hk hb ⟨hstart, hstop⟩
  have hpc : pc < 65536 :=
    Nat.lt_of_lt_of_le (hretired.size ▸ (Array.getElem?_eq_some_iff.mp hbyte).1) hsize
  refine Inference.sendToHandlers_unchanged hpc fun h hh hcovers => ?_
  rw [hretired.handlers] at hh
  obtain ⟨caught, entry, hcaught, hentry, hmerge⟩ :=
    htolerates k hk b hb pc hstart hstop h hh hcovers
  refine ⟨caught, entry, ?_, hretired.handlerFrame? hdead hentry, ?_⟩
  · simp only [hretired.pool, hcaught]
  · simpa only [hretired.pool, hretired.scope] using hmerge

/-- Where the second run changes nothing, all handlers tolerate what the blanked blocks throw. -/
theorem Retired.tolerates {t : Inference} {code : Array UInt8} {instructions : List Nat}
    (hretired : Retired p s maxLocals exception dead p' s')
    (hscope : p.scope.Lawful) (htiles : p.graph.Tiles code instructions)
    (hpool : s.pool.WellNamed)
    (hdead : ∀ k ∈ dead, s.frames[k]? = some none) (hsettled : Inference.Settled hscope.order p' t)
    (hempty : t.worklist.toList = []) (hframes : t.frames = s'.frames) (hsame : t.pool = s'.pool)
    {k pc : Nat} (hk : k ∈ dead) (hb : p.graph.blocks[k]? = some b) (hstart : b.start ≤ pc)
    (hstop : pc < b.stop) {h : ExceptionHandler} (hh : h ∈ p.handlers)
    (hlive : (BlockProgram.handlerFrame? p.graph s.frames h).isSome) (hcovers : h.covers pc) :
    s.Tolerates p h (p.borrowedFrame s.frames maxLocals exception b).locals := by
  have hb' : p'.graph.blocks[k]? = some b := by rw [hretired.graph, hb]
  have hprop := hsettled k b _ hb' (hframes ▸ hretired.retired k b hk hb) (by simp [hempty])
  obtain ⟨caught, hcaught, j, b₁, hb₁, hstart₁, entry, hentry, hcovered⟩ :=
    hprop.thrown (fun pc => hretired.blanked k b pc hk hb) hstart hstop (hretired.handlers ▸ hh)
      hcovers
  obtain ⟨entry', hentry'⟩ := Option.isSome_iff_exists.mp hlive
  obtain ⟨j', b₂, hb₂, hstart₂, hframe⟩ := exists_of_handlerFrame? hentry'
  -- Only one block starts where the handler does.
  rw [hretired.graph] at hb₁
  have hlt := (htiles.bounds hb₁).1
  have hlt' := (htiles.bounds hb₂).1
  have hsame' : b₂.start ≤ b₁.start ∧ b₁.start < b₂.stop := by omega
  obtain rfl : j = j' := htiles.unique hb₁ hb₂ ⟨Nat.le_refl _, hlt⟩ hsame'
  have hj : j ∉ dead := by
    intro hmem
    rw [hdead j hmem] at hframe
    cases hframe
  rw [hframes, hretired.kept j hj, hframe] at hentry
  cases hentry
  rw [hsame, hretired.pool] at hcaught hcovered
  exact ⟨caught, entry, hcaught, hentry', fun offset => Machine.merge_of_covers hscope hpool offset hcovered⟩

end BlockProgram

namespace MethodCode

variable {m : MethodCode} {facts : ControlFacts} {header : MethodHeader} {scope : ClassScope}
  {pool pool₁ middle : ConstantPool} {graph : BlockGraph} {initial : Frame} {s s' : Inference}
  {exception : VerificationType} {p' : BlockProgram}

/-- The local variables that a block borrows once the first run has ended in the state `s`. -/
def borrowed (m : MethodCode) (graph : BlockGraph) (s : Inference) (b : Block) :
    Array VerificationType :=
  BlockProgram.borrowedLocals graph (BlockProgram.liveHandlers graph s.frames m.handlers) s.frames
    m.maxLocals.toNat b.start

/-- After a first run that succeeded, blanking keeps the frames of all blocks that were reached. The
second run then succeeds without changing any frame or adding a constant exactly if each handler
left that covers some instruction of a blanked block tolerates the local variables that the block
borrowed. -/
theorem secondRun_unchanged_iff (hscope : scope.Lawful) (hpool : pool.WellNamed)
    (hsize : m.code.size ≤ 65536)
    (hlocals : header.descriptor.parameterWords (!header.isStatic) ≤ m.maxLocals.toNat)
    (hgraph : BlockGraph.partition m.code facts m.handlers = .ok graph)
    (hinitial : (header.entryFrame scope m.maxLocals.toNat).outcome pool = (.ok initial, pool₁))
    (hrun : (Inference.run (m.program graph scope) initial).outcome
      (.unreached graph.blocks.size pool₁) = (.ok (), s))
    (hexception : (VerificationType.ofClass .throwable).outcome s.pool = (.ok exception, middle))
    (hneutralize : (m.program graph scope).neutralize m.maxLocals.toNat exception
      { s with pool := middle } = (p', s')) :
    (∀ (k : Nat) (f : Frame), s.frames[k]? = some (some f) → s'.frames[k]? = some (some f)) ∧
      ((∃ t, (Inference.settle p' (Inference.rounds (m.program graph scope)
            initial.locals.size)).outcome s' = (.ok (), t) ∧
          t.frames = s'.frames ∧ t.pool = s'.pool) ↔
        ∀ (k : Nat) (b : Block), graph.blocks[k]? = some b → s.frames[k]? = some none →
          ∀ pc, b.start ≤ pc → pc < b.stop →
            ∀ h ∈ BlockProgram.liveHandlers graph s.frames m.handlers, h.covers pc →
              Inference.Tolerates (m.program graph scope) { s with pool := middle } h
                (m.borrowed graph s b)) := by
  obtain ⟨instructions, htiles⟩ := BlockGraph.tiles_of_partition hgraph
  obtain ⟨_, hnamed, _, hformed⟩ := MethodHeader.entryFrame_spec hlocals hinitial
  have hw : (m.program graph scope).Wired hscope.order := htiles.wired rfl hscope.merges rfl hsize
  obtain ⟨hs, hsettled, hempty, _⟩ := Inference.run_spec hw
    (Inference.madeBy_liveSite htiles hsize) (hnamed hpool) hformed hrun
  obtain ⟨hretired, hw', _, hs', hsettled'⟩ := BlockProgram.neutralize_spec
    (p := m.program graph scope) hscope.merges hsize htiles hs hsettled hempty hexception hneutralize
  have hdead : ∀ k, k ∈ (m.program graph scope).deadBlocks s.frames ↔ s.frames[k]? = some none :=
    fun k => BlockProgram.mem_deadBlocks hs.frames_size
  have hkept : ∀ (k : Nat) (f : Frame), s.frames[k]? = some (some f) →
      s'.frames[k]? = some (some f) := by
    intro k f hf
    refine (hretired.kept k fun hk => ?_).trans hf
    rw [(hdead k).mp hk] at hf
    cases hf
  have hnamed' : middle.WellNamed :=
    ((VerificationType.repeatable_ofClass .throwable).grows hexception).2 hs.named
  refine ⟨hkept, ?_, ?_⟩
  · rintro ⟨t, hend, hframes, hsame⟩ k b hb hnone pc hstart hstop h hh hcovers
    obtain ⟨_, _, hsettled'', hempty'⟩ := Inference.settle_spec hw'
      ⟨fun _ _ _ _ _ => trivial, fun _ _ _ _ _ _ _ _ _ _ _ _ _ _ => trivial⟩ _ hs' hsettled' hend
    exact hretired.tolerates hscope htiles hnamed' (fun k hk => (hdead k).mp hk) hsettled'' hempty'
      hframes hsame ((hdead k).mpr hnone) hb hstart hstop hh (List.mem_filter.mp hh).2 hcovers
  · intro htolerates
    obtain ⟨i, rfl, _⟩ := VerificationType.ofClass_eq_ok hexception
    refine hretired.settle_unchanged hempty (fun k hk => (hdead k).mp hk) (fun k hk => ?_) hsize
      (fun k hk b hb => htolerates k b hb ((hdead k).mp hk)) _ ?_
    · have hlt := List.mem_range.mp (List.mem_filter.mp hk).1
      have hb := Array.getElem?_eq_getElem hlt
      exact ⟨_, hb, (htiles.bounds hb).1⟩
    · exact Nat.lt_of_le_of_lt (BlockProgram.length_deadBlocks_le _ _)
        (Inference.size_lt_rounds (m.program graph scope) _)

theorem twoHandlers_unchanged_iff :
    ∃ graph initial pool₁ s exception middle p' s',
      BlockGraph.partition twoHandlers.code twoHandlersFacts twoHandlers.handlers = .ok graph ∧
      (plainHeader.entryFrame plainScope twoHandlers.maxLocals.toNat).outcome .empty =
        (.ok initial, pool₁) ∧
      (Inference.run (twoHandlers.program graph plainScope) initial).outcome
        (.unreached graph.blocks.size pool₁) = (.ok (), s) ∧
      (VerificationType.ofClass .throwable).outcome s.pool = (.ok exception, middle) ∧
      (twoHandlers.program graph plainScope).neutralize twoHandlers.maxLocals.toNat exception
        { s with pool := middle } = (p', s') ∧
      (∀ (k : Nat) (f : Frame), s.frames[k]? = some (some f) → s'.frames[k]? = some (some f)) ∧
      ((∃ t, (Inference.settle p' (Inference.rounds (twoHandlers.program graph plainScope)
            initial.locals.size)).outcome s' = (.ok (), t) ∧
          t.frames = s'.frames ∧ t.pool = s'.pool) ↔
        ∀ (k : Nat) (b : Block), graph.blocks[k]? = some b → s.frames[k]? = some none →
          ∀ pc, b.start ≤ pc → pc < b.stop →
            ∀ h ∈ BlockProgram.liveHandlers graph s.frames twoHandlers.handlers, h.covers pc →
              Inference.Tolerates (twoHandlers.program graph plainScope) { s with pool := middle } h
                (twoHandlers.borrowed graph s b)) := by
  obtain ⟨settled, later, hsettle, hchanged, _⟩ := settle_twoHandlers
  obtain ⟨pool₁, s, hgraph, hinitial, hrun, hend⟩ := settle_eq_ok hsettle
  rcases hend with ⟨_, hmethod, _⟩ | ⟨exception, middle, p', s', t, hresumed, _⟩
  · exact absurd hmethod hchanged
  · exact ⟨_, _, _, _, _, _, _, _, hgraph, hinitial, hrun, hresumed.exception_eq,
      hresumed.neutralized, secondRun_unchanged_iff lawful_plainScope ConstantPool.wellNamed_empty
        (by decide) (by decide) hgraph hinitial hrun hresumed.exception_eq hresumed.neutralized⟩

def twoHandlersGraph : BlockGraph :=
  ⟨#[⟨0, 7, [2, 3], false⟩, ⟨7, 9, [2, 3], false⟩, ⟨9, 13, [], true⟩, ⟨13, 15, [], true⟩]⟩

/-- A blanked block can widen the frame of a block that was reached. The handlers disagree on the
local variable, so the one that the block did not borrow from loses it. -/
theorem twoHandlers_frame_widened :
    ∃ s settled later,
      BlockGraph.partition twoHandlers.code twoHandlersFacts twoHandlers.handlers =
        .ok twoHandlersGraph ∧
      (plainHeader.entryFrame plainScope twoHandlers.maxLocals.toNat).outcome .empty =
        (.ok ⟨#[.top], []⟩, .empty) ∧
      (Inference.run (twoHandlers.program twoHandlersGraph plainScope) ⟨#[.top], []⟩).outcome
        (.unreached twoHandlersGraph.blocks.size .empty) = (.ok (), s) ∧
      (twoHandlers.settle twoHandlersFacts plainHeader plainScope).outcome .empty =
        (.ok settled, later) ∧
      s.frames[3]? = some (some ⟨#[.float], [.object 2]⟩) ∧
      settled.frames[3]? = some (some ⟨#[.top], [.object 2]⟩) := by
  have hgraph : BlockGraph.partition twoHandlers.code twoHandlersFacts twoHandlers.handlers =
      .ok twoHandlersGraph := by
    decide +kernel
  have heval : ((Inference.run (twoHandlers.program twoHandlersGraph plainScope)
      ⟨#[.top], []⟩ >>= fun _ => get).outcome (.unreached twoHandlersGraph.blocks.size .empty)).1.map
        (·.frames[3]?) = .ok (some (some ⟨#[.float], [.object 2]⟩)) := by
    decide +kernel
  obtain ⟨s, t, hget, hfirst⟩ := Step.exists_of_map_eq_ok heval
  obtain ⟨_, u, hrun, hu⟩ := Step.bind_eq_ok.mp hget
  cases hu
  obtain ⟨settled, later, hsettle, _, hlast⟩ := settle_twoHandlers
  exact ⟨s, settled, later, hgraph, rfl, hrun, hsettle, hfirst, hlast⟩

end MethodCode
end ClassAssembly
