import ClassAssembly.Proofs.BlockRule
import ClassAssembly.Proofs.DeadCode
import ClassAssembly.Proofs.RecordedFacts

/-! Where all jumps have been recorded, control enters a block only at its first instruction, and
inference never follows a jump to where no block starts. -/
namespace ClassAssembly

namespace Code

variable {code : Array UInt8} {pc q stop : Nat} {starts : List Nat}

lemma eq_of_transferEnd? {insn : Instruction} (hdecode : decode code q = .ok insn)
    (hend : transferEnd? code q = some stop) : stop = q + insn.length := by
  obtain ⟨traits, htraits, _⟩ := decode_shape hdecode
  rw [transferEnd?_eq hdecode htraits] at hend
  split at hend
  · exact (Option.some.inj hend).symm
  · cases hend

/-- A transfer of control ends after it starts, and before any later instruction. -/
lemma Walk.transferEnd?_bounds (h : Walk code pc starts) (hq : q ∈ starts)
    (hend : transferEnd? code q = some stop) : q < stop ∧ ∀ r ∈ starts, q < r → stop ≤ r := by
  obtain ⟨insn, hdecode, _, hother⟩ := h.next hq
  obtain rfl := eq_of_transferEnd? hdecode hend
  have hpos := insn.length_pos
  exact ⟨by omega, hother⟩

lemma Walk.transferEnds_ascend (h : Walk code pc starts) :
    (starts.filterMap (transferEnd? code)).Pairwise (· < ·) := by
  rw [List.pairwise_filterMap]
  refine h.pairwise.imp_of_mem fun {q r} hq hr hqr stop hstop stop' hstop' => ?_
  have hle := (h.transferEnd?_bounds hq hstop).2 r hr hqr
  have hlt := (h.transferEnd?_bounds hr hstop').1
  omega

end Code

namespace BlockGraph

open ClassAssembly.Except (bind_eq_ok)

variable {code : Array UInt8} {facts : ControlFacts} {handlers : List ExceptionHandler}
  {g : BlockGraph} {instructions : List Nat}

/-- Only offsets of instructions are accepted as targets of jumps and handlers. -/
lemma targets_mem_of_partition (h : partition code facts handlers = .ok g)
    (hstarts : Code.starts code = .ok instructions) :
    (∀ source target, (source, target) ∈ facts.jumps → 0 ≤ target ∧ target.toNat ∈ instructions) ∧
      ∀ h ∈ handlers, h.handler.toNat ∈ instructions := by
  have hwalk := Code.starts_eq_ok_iff.mp hstarts
  constructor
  · intro source target hjump
    by_contra hastray
    exact not_rejects_of_partition h hwalk (.jump hjump (by grind))
  · intro handler hhandler
    by_contra hastray
    exact not_rejects_of_partition h hwalk (.entry hhandler hastray)

/-- A block starts at each instruction that is a target or follows a transfer of control. -/
lemma exists_block_of_partition (h : partition code facts handlers = .ok g)
    (hstarts : Code.starts code = .ok instructions) {pc : Nat} (hpc : pc ∈ instructions)
    (hcut : pc ∈ facts.targets handlers ∨ pc ∈ facts.blockStarts) :
    ∃ (k : Nat) (b : Block), g.blocks[k]? = some b ∧ b.start = pc := by
  have hmem : pc ∈ g.blocks.toList.map Block.start := by
    rw [map_start_of_partition h (Code.starts_eq_ok_iff.mp hstarts), List.mem_filter]
    refine ⟨hpc, ?_⟩
    rcases hcut with htarget | hend
    · simp [htarget]
    · simp [hend]
  obtain ⟨b, hb, hstart⟩ := List.mem_map.mp hmem
  obtain ⟨k, hk⟩ := List.getElem?_of_mem hb
  exact ⟨k, b, by rwa [Array.getElem?_toList] at hk, hstart⟩

/-- Nothing that starts a block lies strictly inside another one. -/
lemma Tiles.not_inside (htiles : g.Tiles code instructions) {j k : Nat} {b b' : Block}
    (hb : g.blocks[j]? = some b) (hb' : g.blocks[k]? = some b') :
    ¬(b.start < b'.start ∧ b'.start < b.stop) := by
  rintro ⟨hlo, hhi⟩
  have hbounds := htiles.bounds hb'
  obtain rfl := htiles.unique hb hb' ⟨Nat.le_of_lt hlo, hhi⟩ ⟨Nat.le_refl _, hbounds.1⟩
  rw [hb] at hb'
  cases hb'
  omega

/-- A block that does not reach the end of the code has one after it. -/
lemma Tiles.next_block (htiles : g.Tiles code instructions) (k : Nat) (b : Block)
    (hb : g.blocks[k]? = some b) (hlt : b.stop < code.size) :
    ∃ b', g.blocks[k + 1]? = some b' ∧ b'.start = b.stop := by
  rcases htiles.next k b hb with hnext | ⟨_, hstop⟩
  · exact hnext
  · omega

/-- With complete facts, each jump and each handler leads to the start of a block. -/
lemma exists_block_of_jump (h : partition code facts handlers = .ok g)
    (hstarts : Code.starts code = .ok instructions) (hcomplete : facts.Complete code instructions)
    {pc : Nat} (hpc : pc ∈ instructions) {target : Int} (hjump : Code.JumpsTo code pc target) :
    ∃ (k : Nat) (b : Block), g.blocks[k]? = some b ∧ (b.start : Int) = target := by
  have hrecorded := hcomplete.jumps pc hpc target hjump
  obtain ⟨hpos, hmem⟩ := (targets_mem_of_partition h hstarts).1 pc target hrecorded
  have htarget : target.toNat ∈ facts.targets handlers := by
    refine List.mem_append_left _ (List.mem_map.mpr ⟨(pc, target), ?_, rfl⟩)
    exact Array.mem_def.mp hrecorded
  obtain ⟨k, b, hb, hstart⟩ := exists_block_of_partition h hstarts hmem (.inl htarget)
  exact ⟨k, b, hb, by omega⟩

lemma exists_block_of_handler (h : partition code facts handlers = .ok g)
    (hstarts : Code.starts code = .ok instructions) {handler : ExceptionHandler}
    (hhandler : handler ∈ handlers) :
    ∃ (k : Nat) (b : Block), g.blocks[k]? = some b ∧ b.start = handler.handler.toNat := by
  have hmem := (targets_mem_of_partition h hstarts).2 handler hhandler
  refine exists_block_of_partition h hstarts hmem (.inl ?_)
  exact List.mem_append_right _ (List.mem_map.mpr ⟨handler, hhandler, rfl⟩)

/-- With complete facts, no block goes on after an instruction that never goes on to the next one. -/
lemma stop_le_of_transfer (h : partition code facts handlers = .ok g)
    (htiles : g.Tiles code instructions) (hcomplete : facts.Complete code instructions)
    {pc stop k : Nat} {b : Block} (hpc : pc ∈ instructions)
    (hend : Code.transferEnd? code pc = some stop) (hb : g.blocks[k]? = some b)
    (hlo : b.start ≤ pc) : b.stop ≤ stop := by
  by_contra hlt
  obtain ⟨insn, hdecode, hnext, _⟩ := htiles.walk.next hpc
  have hstop := Code.eq_of_transferEnd? hdecode hend
  have hpos := insn.length_pos
  have hbounds := htiles.bounds hb
  have hmem : stop ∈ instructions := by
    rcases hnext with hmem | hsize
    · rwa [hstop]
    · omega
  have hcut : stop ∈ facts.blockStarts := by
    rw [Array.mem_def, hcomplete.ends]
    exact List.mem_filterMap.mpr ⟨pc, hpc, hend⟩
  obtain ⟨j, b', hb', hstart⟩ :=
    exists_block_of_partition h (Code.starts_eq_ok_iff.mpr htiles.walk) hmem (.inr hcut)
  exact absurd ⟨by omega, by omega⟩ (htiles.not_inside hb hb')

/-- With complete facts, an instruction that never goes on to the next one ends its block. -/
lemma stop_of_transfer (h : partition code facts handlers = .ok g)
    (htiles : g.Tiles code instructions) (hlayout : Code.Tiles code 0 instructions code.size)
    (hcomplete : facts.Complete code instructions) {pc stop k : Nat} {b : Block}
    (hpc : pc ∈ instructions) (hend : Code.transferEnd? code pc = some stop)
    (hb : g.blocks[k]? = some b) (hlo : b.start ≤ pc) (hhi : pc < b.stop) : b.stop = stop := by
  refine Nat.le_antisymm (stop_le_of_transfer h htiles hcomplete hpc hend hb hlo) ?_
  obtain ⟨insn, hdecode, _, hother⟩ := htiles.walk.next hpc
  have hle := hlayout.end_le hpc hdecode
  have hstop := Code.eq_of_transferEnd? hdecode hend
  rcases htiles.next k b hb with ⟨b', hb', hstart⟩ | ⟨_, hsize⟩
  · have hnext := hother b'.start (htiles.start_mem _ b' hb') (by omega)
    omega
  · omega

end BlockGraph

namespace BlockProgram

/-- The second program is the first one with some of its blocks blanked, and no new handler. -/
structure Blanked (dead : Nat → Prop) (p p' : BlockProgram) : Prop where
  graph : p'.graph = p.graph
  scope : p'.scope = p.scope
  size : p'.code.size = p.code.size
  handlers : ∀ h ∈ p'.handlers, h ∈ p.handlers
  bytes : ∀ i : Nat, (∀ (k : Nat) (b : Block), dead k → p.graph.blocks[k]? = some b →
    ¬(b.start ≤ i ∧ i < b.stop)) → p'.code[i]? = p.code[i]?
  blanked : ∀ (k : Nat) (b : Block) (i : Nat), dead k → p.graph.blocks[k]? = some b →
    b.start ≤ i ∧ i < b.stop →
      p'.code[i]? = some (if i + 1 = b.stop then Opcode.athrow.byte else Opcode.nop.byte)

/-- A program of which nothing has been blanked. -/
lemma Blanked.refl (p : BlockProgram) : Blanked (fun _ => False) p p :=
  ⟨rfl, rfl, rfl, fun _ hh => hh, fun _ _ => rfl, fun _ _ _ hdead => hdead.elim⟩

lemma Retired.toBlanked {p p' : BlockProgram} {s s' : Inference} {maxLocals : Nat} {dead : List Nat}
    {exception : VerificationType} {handlers : List ExceptionHandler}
    (h : Retired { p with handlers } s maxLocals exception dead p' s')
    (hhandlers : ∀ h ∈ handlers, h ∈ p.handlers) : Blanked (· ∈ dead) p p' where
  graph := h.graph
  scope := h.scope
  size := h.size
  handlers handler hmem := hhandlers handler (by rwa [h.handlers] at hmem)
  bytes i hi := h.bytes i fun k hk b hb => hi k b hk hb
  blanked k b i hk hb hi := h.blanked k b i hk hb hi

/-- Executing the block at `k` may come to the offset. -/
def Passes (p : BlockProgram) (dead : Nat → Prop) (instructions : List Nat) (k pc : Nat) : Prop :=
  ∃ b, p.graph.blocks[k]? = some b ∧ b.start ≤ pc ∧
    (¬dead k → pc ∈ instructions ∨ p.code.size ≤ pc)

namespace Blanked

variable {dead : Nat → Prop} {p p' : BlockProgram} {instructions : List Nat} {k pc : Nat} {b : Block}
  {insn : Instruction}

lemma passes_start (htiles : p.graph.Tiles p.code instructions) (hb : p.graph.blocks[k]? = some b) :
    p.Passes dead instructions k b.start :=
  ⟨b, hb, Nat.le_refl _, fun _ => .inl (htiles.start_mem k b hb)⟩

/-- The bytes of an instruction in a block that was not blanked are kept. -/
lemma sameBytes (h : Blanked dead p p') (htiles : p.graph.Tiles p.code instructions)
    (hb : p.graph.blocks[k]? = some b) (hlive : ¬dead k) (hmem : pc ∈ instructions)
    (hstart : b.start ≤ pc) (hpc : pc < b.stop) (hdecode : Code.decode p.code pc = .ok insn) :
    Code.SameBytes p.code p'.code pc (pc + insn.length) := by
  obtain ⟨insn', hdecode', _, hother⟩ := htiles.walk.next hmem
  rw [hdecode] at hdecode'
  cases hdecode'
  intro i hlo hhi
  by_cases hi : i < p.code.size
  · refine h.bytes i fun j b' hdead hb' hin => hlive ?_
    have hstop : i < b.stop := by
      rcases htiles.next k b hb with ⟨next, hnext', hstop⟩ | ⟨_, hstop⟩
      · have hend := hother next.start (htiles.start_mem _ next hnext') (by omega)
        omega
      · omega
    exact htiles.unique hb hb' ⟨by omega, hstop⟩ hin ▸ hdead
  · have hsize := h.size
    rw [Array.getElem?_eq_none (by omega), Array.getElem?_eq_none (by omega)]

/-- A block that was not blanked holds the same instructions as before. -/
lemma live (h : Blanked dead p p') (htiles : p.graph.Tiles p.code instructions)
    (hpass : p.Passes dead instructions k pc) (hb : p.graph.blocks[k]? = some b) (hpc : pc < b.stop)
    (hlive : ¬dead k) (hdecode : Code.decode p'.code pc = .ok insn) :
    pc ∈ instructions ∧ Code.decode p.code pc = .ok insn ∧
      (∀ traits targets, insn.opcode.traits = .ok traits →
        Code.jumpTargets p'.code pc insn traits.flow = .ok targets →
          Code.jumpTargets p.code pc insn traits.flow = .ok targets) ∧
      p.Passes dead instructions k (pc + insn.length) := by
  obtain ⟨b', hb', hstart, hpass⟩ := hpass
  rw [hb] at hb'
  cases hb'
  have hbounds := htiles.bounds hb
  have hmem : pc ∈ instructions := (hpass hlive).resolve_right (by omega)
  obtain ⟨insn', hdecode', hnext, _⟩ := htiles.walk.next hmem
  have hsame := h.sameBytes htiles hb hlive hmem hstart hpc hdecode'
  have hdecode'' := Code.decode_congr hdecode' hsame
  rw [hdecode] at hdecode''
  cases hdecode''
  refine ⟨hmem, hdecode', fun traits targets htraits htargets => ?_, b, hb, by omega, fun _ => hnext⟩
  exact Code.jumpTargets_congr hdecode htraits htargets fun i hlo hhi => (hsame i hlo hhi).symm

/-- A blanked block does nothing up to its last byte, where it throws. -/
lemma dead_instruction (h : Blanked dead p p') (hpass : p.Passes dead instructions k pc)
    (hb : p.graph.blocks[k]? = some b) (hpc : pc < b.stop) (hdead : dead k)
    (hdecode : Code.decode p'.code pc = .ok insn) :
    (insn = ⟨.nop, 1, false, 0, 0, Nat.one_pos⟩ ∧ pc + 1 < b.stop ∨
        insn = ⟨.athrow, 1, false, 0, 0, Nat.one_pos⟩) ∧
      p.Passes dead instructions k (pc + insn.length) := by
  obtain ⟨b', hb', hstart, _⟩ := hpass
  rw [hb] at hb'
  cases hb'
  have hbyte := h.blanked k b pc hdead hb ⟨hstart, hpc⟩
  have hnext : p.Passes dead instructions k (pc + insn.length) :=
    ⟨b, hb, by omega, fun hlive => absurd hdead hlive⟩
  refine ⟨?_, hnext⟩
  split at hbyte
  · rw [Code.decode_plain hbyte Opcode.traits_athrow rfl] at hdecode
    cases hdecode
    exact .inr rfl
  · rename_i hmore
    rw [Code.decode_plain hbyte Opcode.traits_nop rfl] at hdecode
    cases hdecode
    exact .inl ⟨rfl, by omega⟩

end Blanked
end BlockProgram

namespace Inference

open BlockProgram (Blanked)

/-- All frames are sent to where a block starts. -/
def wellAimed (p : BlockProgram) (dead : Nat → Prop) (instructions : List Nat) : Conditions where
  Inv s := s.frames.size = p.graph.blocks.size
  Before _ k pc _ := p.Passes dead instructions k pc
  Sent _ target _ := (p.graph.startingAt? target).isSome
  Fails e := ∀ source target, e ≠ .invalidJumpTarget source target

theorem hold_wellAimed {dead : Nat → Prop} {p p' : BlockProgram} {instructions : List Nat}
    (h : Blanked dead p p') (htiles : p.graph.Tiles p.code instructions)
    (hjumps : ∀ pc ∈ instructions, ∀ target, Code.JumpsTo p.code pc target →
      (p.graph.startingAt? target).isSome)
    (hhandlers : ∀ h ∈ p.handlers, (p.graph.startingAt? h.handler.toNat).isSome) :
    (wellAimed p dead instructions).Hold p' where
  plain := by
    rintro e he source target rfl
    exact he
  refl s hs := ⟨hs, fun _ _ _ h => h, fun _ _ h => h⟩
  grow s later hs _ _ := ⟨hs, fun _ _ _ h => h, fun _ _ h => h⟩
  merge s k b f hs _ _ := by
    have hends := ends_mergeEntry (ClassOrder.merges_coarse p'.scope) k f (s := s) trivial
    refine (hends.mono fun _ t hmerged => ?_).mono_error ?_
    · exact ⟨hmerged.frames_size.trans hs, fun _ _ _ h => h, fun _ _ h => h⟩
    · rintro e he source target rfl
      exact he
  lost s source target f hsent hnone := by
    rw [h.graph] at hnone
    have hsome : (p.graph.startingAt? target).isSome := hsent
    rw [hnone] at hsome
    cases hsome
  enter s k b f _ hb _ := Blanked.passes_start htiles (by rwa [h.graph] at hb)
  throws s k b pc f handler exception _ _ _ _ hmem _ _ := hhandlers handler (h.handlers handler hmem)
  step s later k b pc f f' insn traits targets popped pushed _ hb hpass hpc hdecode htraits htargets
      _ _ := by
    rw [h.graph] at hb
    by_cases hdead : dead k
    · obtain ⟨hinsn, hnext⟩ := h.dead_instruction hpass hb hpc hdead hdecode
      refine ⟨fun target htarget => ?_, fun _ => hnext⟩
      have hnone : targets = [] := by
        rcases hinsn with ⟨rfl, _⟩ | rfl
        · rw [Opcode.traits_nop] at htraits
          cases htraits
          cases htargets
          rfl
        · rw [Opcode.traits_athrow] at htraits
          cases htraits
          cases htargets
          rfl
      rw [hnone] at htarget
      cases htarget
    · obtain ⟨hmem, hdecode', hsame, hnext⟩ := h.live htiles hpass hb hpc hdead hdecode
      refine ⟨fun target htarget => ?_, fun _ => hnext⟩
      exact hjumps pc hmem target ⟨insn, traits, targets, hdecode', htraits,
        hsame traits targets htraits htargets, htarget⟩
  falls s k b pc f _ hb _ _ hlt := by
    rw [h.graph] at hb
    rw [h.size] at hlt
    obtain ⟨b', hb', hstart⟩ := htiles.next_block k b hb hlt
    have hfound := BlockGraph.startingAt?_of_start htiles hb'
    rw [hstart] at hfound
    exact Option.isSome_of_eq_some hfound

end Inference

namespace MethodCode

open BlockProgram (Blanked)
open Inference (wellAimed hold_wellAimed)

variable {m : MethodCode} {facts : ControlFacts} {header : MethodHeader} {scope : ClassScope}
  {graph : BlockGraph} {instructions : List Nat} {pool later : ConstantPool} {e : Error}

/-- If all jumps and handlers lead to blocks, inference never sends a frame elsewhere, neither in
the first run nor in the blanked code. -/
theorem ne_invalidJumpTarget_of_settle
    (hgraph : BlockGraph.partition m.code facts m.handlers = .ok graph)
    (htiles : graph.Tiles m.code instructions)
    (hjumps : ∀ pc ∈ instructions, ∀ target, Code.JumpsTo m.code pc target →
      (graph.startingAt? target).isSome)
    (hhandlers : ∀ h ∈ m.handlers, (graph.startingAt? h.handler.toNat).isSome)
    (h : (m.settle facts header scope).outcome pool = (.error e, later)) (source : Nat)
    (target : Int) : e ≠ .invalidJumpTarget source target := by
  have hhold : ∀ {dead p'}, Blanked dead (m.program graph scope) p' →
      (wellAimed (m.program graph scope) dead instructions).Hold p' :=
    fun hblanked => hold_wellAimed hblanked htiles hjumps hhandlers
  have hnone := hhold (.refl _)
  have hfirst : ∀ pool₁ initial, (Inference.run (m.program graph scope) initial).Ends
      (.unreached graph.blocks.size pool₁) (fun _ s => s.frames.size = graph.blocks.size)
      fun e => ∀ source target, e ≠ .invalidJumpTarget source target := by
    intro pool₁ initial
    have hends := Inference.ends_mergeEntry (p := m.program graph scope)
      (s := .unreached graph.blocks.size pool₁) (ClassOrder.merges_coarse scope) 0 initial trivial
    refine ((hends.mono fun _ t hmerged => ?_).mono_error hnone.plain).bind fun _ t ht =>
      hnone.settle htiles.next_block (fun _ _ hs => hs) (by rintro _ _ ⟨⟩) _ ht
    exact hmerged.frames_size.trans Array.size_replicate
  rcases settle_eq_error hgraph h with hrefusal | ⟨initial, pool₁, _, hrun | hresumed⟩
  · exact hnone.refused e hrefusal source target
  · obtain ⟨t, hrun⟩ := hrun
    exact (hfirst pool₁ initial).error e t hrun source target
  · obtain ⟨s, exception, middle, p', s', t, hrun, _, hneutralize, hend⟩ := hresumed
    have hs := (hfirst pool₁ initial).ok () s hrun
    have hretired := BlockProgram.retired_neutralize (p := m.program graph scope)
      (s := { s with pool := middle }) htiles hs m.maxLocals.toNat exception
    rw [hneutralize] at hretired
    have hblanked := hretired.toBlanked fun h hh => (List.mem_filter.mp hh).1
    refine ((hhold hblanked).settle ?_ (fun _ _ hs => hs) (by rintro _ _ ⟨⟩) _ ?_).error e t hend
      source target
    · intro k b hb hlt
      rw [hblanked.graph] at hb ⊢
      rw [hblanked.size] at hlt
      exact htiles.next_block k b hb hlt
    · exact hretired.frames_size.trans hs

end MethodCode

namespace CodeDraft

variable {b : CodeDraft}

/-- The recorded facts about control are complete, so that blocks are entered only at their start:
all jumps of a finished draft are recorded, and so are exactly the ends of the instructions that
never go on to the next one. In any partition into blocks that is accepted, for whatever handlers,
jumps and handlers lead to starts of blocks and nowhere inside one, an instruction that never goes on
to the next one ends its block, and inference never follows a jump to where no block starts. -/
theorem facts_complete {ops : List DraftOperation} (hrange : ∀ op ∈ ops, op.InRange)
    (hrun : (ops.forM DraftOperation.run).outcome .empty = (.ok (), b))
    (hresolved : b.checkResolved = .ok ()) :
    ∃ starts, Code.starts b.code = .ok starts ∧
      (∀ pc ∈ starts, ∀ target, Code.JumpsTo b.code pc target → (pc, target) ∈ b.facts.jumps) ∧
      b.facts.blockStarts.toList = starts.filterMap (Code.transferEnd? b.code) ∧
      b.facts.blockStarts.toList.Pairwise (· < ·) ∧
      ∀ handlers graph, BlockGraph.partition b.code b.facts handlers = .ok graph →
        (∀ pc ∈ starts, ∀ target, Code.JumpsTo b.code pc target →
          (∃ block ∈ graph.blocks, (block.start : Int) = target) ∧
          ∀ block ∈ graph.blocks, ¬(block.start < target ∧ target < block.stop)) ∧
        (∀ h ∈ handlers, (∃ block ∈ graph.blocks, block.start = h.handler.toNat) ∧
          ∀ block ∈ graph.blocks,
            ¬(block.start < h.handler.toNat ∧ h.handler.toNat < block.stop)) ∧
        (∀ pc ∈ starts, ∀ stop, Code.transferEnd? b.code pc = some stop → ∀ block ∈ graph.blocks,
          block.start ≤ pc → pc < block.stop → block.stop = stop) ∧
        ∀ maxStack maxLocals header scope pool source target,
          ((MethodCode.settle ⟨b.code, handlers, maxStack, maxLocals⟩ b.facts header scope).outcome
            pool).1 ≠ .error (.invalidJumpTarget source target) := by
  obtain ⟨starts, hlayout, hcomplete⟩ := complete_facts hrange hrun hresolved
  have hwalk : Code.Walk b.code 0 starts := hlayout.walk (Nat.le_refl _)
  have hstarts : Code.starts b.code = .ok starts := Code.starts_eq_ok_iff.mpr hwalk
  refine ⟨starts, hstarts, hcomplete.jumps, hcomplete.ends,
    hcomplete.ends ▸ hwalk.transferEnds_ascend, fun handlers graph hgraph => ?_⟩
  obtain ⟨instructions, htiles⟩ := BlockGraph.tiles_of_partition hgraph
  have hsame := Code.starts_eq_ok_iff.mpr htiles.walk
  rw [hstarts] at hsame
  cases hsame
  have hjumps := fun pc (hpc : pc ∈ starts) target (hjump : Code.JumpsTo b.code pc target) =>
    BlockGraph.exists_block_of_jump hgraph hstarts hcomplete hpc hjump
  have hhandlers := fun h (hh : h ∈ handlers) =>
    BlockGraph.exists_block_of_handler hgraph hstarts hh
  refine ⟨fun pc hpc target hjump => ?_, fun h hh => ?_, fun pc hpc stop hstop block hblock => ?_, ?_⟩
  · obtain ⟨k, entered, hk, rfl⟩ := hjumps pc hpc target hjump
    refine ⟨⟨entered, Array.mem_of_getElem? hk, rfl⟩, fun block hblock hinside => ?_⟩
    obtain ⟨j, hj⟩ := Array.getElem?_of_mem hblock
    exact htiles.not_inside hj hk ⟨by omega, by omega⟩
  · obtain ⟨k, entered, hk, hstart⟩ := hhandlers h hh
    refine ⟨⟨entered, Array.mem_of_getElem? hk, hstart⟩, fun block hblock hinside => ?_⟩
    obtain ⟨j, hj⟩ := Array.getElem?_of_mem hblock
    exact htiles.not_inside hj hk (hstart.symm ▸ hinside)
  · obtain ⟨k, hk⟩ := Array.getElem?_of_mem hblock
    exact BlockGraph.stop_of_transfer hgraph htiles hlayout hcomplete hpc hstop hk
  · intro maxStack maxLocals header scope pool source target hfails
    refine MethodCode.ne_invalidJumpTarget_of_settle (m := ⟨b.code, handlers, maxStack, maxLocals⟩)
      hgraph htiles (fun pc hpc target hjump => ?_) (fun h hh => ?_) (Prod.ext hfails rfl) source
      target rfl
    · obtain ⟨k, entered, hk, rfl⟩ := hjumps pc hpc target hjump
      exact Option.isSome_of_eq_some (BlockGraph.startingAt?_of_start htiles hk)
    · obtain ⟨k, entered, hk, hstart⟩ := hhandlers h hh
      rw [← hstart]
      exact Option.isSome_of_eq_some (BlockGraph.startingAt?_of_start htiles hk)

theorem switchLoop_facts_complete :
    (∀ op ∈ switchLoop, op.InRange) ∧
      (switchLoop.forM DraftOperation.run).outcome .empty = (.ok (), switchLoopDraft) ∧
      switchLoopDraft.checkResolved = .ok () ∧
      switchLoopDraft.facts.blockStarts.toList = [44, 50, 54] ∧
      ∃ starts graph, Code.starts switchLoopDraft.code = .ok starts ∧
        switchLoopDraft.facts.blockStarts.toList =
          starts.filterMap (Code.transferEnd? switchLoopDraft.code) ∧
        BlockGraph.partition switchLoopDraft.code switchLoopDraft.facts [⟨0, 47, 50, none⟩] =
          .ok graph ∧
        graph.blocks.toList.map Block.start = [0, 44, 47, 50] ∧
        (∀ pc ∈ starts, ∀ target, Code.JumpsTo switchLoopDraft.code pc target →
          (pc, target) ∈ switchLoopDraft.facts.jumps ∧
          ∀ block ∈ graph.blocks, ¬(block.start < target ∧ target < block.stop)) ∧
        ∀ header scope pool source target,
          ((MethodCode.settle ⟨switchLoopDraft.code, [⟨0, 47, 50, none⟩], 2, 301⟩
            switchLoopDraft.facts header scope).outcome pool).1 ≠
              .error (.invalidJumpTarget source target) := by
  have hrange : ∀ op ∈ switchLoop, op.InRange := by decide +kernel
  have hok : ((switchLoop.forM DraftOperation.run).outcome .empty).1 = .ok () := by decide +kernel
  have hrun : (switchLoop.forM DraftOperation.run).outcome .empty = (.ok (), switchLoopDraft) :=
    Prod.ext hok (by rw [switchLoopDraft])
  have hresolved : switchLoopDraft.checkResolved = .ok () := by decide +kernel
  obtain ⟨starts, hstarts, hjumps, hends, _, hgraphs⟩ := facts_complete hrange hrun hresolved
  have heval : (BlockGraph.partition switchLoopDraft.code switchLoopDraft.facts
      [⟨0, 47, 50, none⟩]).map (·.blocks.toList.map Block.start) = .ok [0, 44, 47, 50] := by
    decide +kernel
  cases hgraph : BlockGraph.partition switchLoopDraft.code switchLoopDraft.facts
      [⟨0, 47, 50, none⟩] with
  | error e =>
    rw [hgraph] at heval
    cases heval
  | ok graph =>
    rw [hgraph] at heval
    obtain ⟨hentered, _, _, hsettle⟩ := hgraphs _ graph hgraph
    exact ⟨hrange, hrun, hresolved, by decide +kernel, starts, graph, hstarts, hends, rfl,
      Except.ok.inj heval,
      fun pc hpc target hjump => ⟨hjumps pc hpc target hjump, (hentered pc hpc target hjump).2⟩,
      hsettle 2 301⟩

end CodeDraft
end ClassAssembly
