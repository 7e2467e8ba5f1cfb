import ClassAssembly.Proofs.SingleEntry

/-! How deep the stack gets. If the depths with which instructions may be reached agree with each
other and stay within a limit, so do all frames that inference computes, also in blanked code. -/
namespace ClassAssembly

/-- Depths with which the instructions of some code may be reached, all within a limit. From each of
them an instruction leads to depths that are on the map, wherever control goes. -/
structure Code.DepthMap (code : Array UInt8) (handlers : List ExceptionHandler)
    (pool : ConstantPool) (limit : Nat) (At : (pc depth : Nat) → Prop) : Prop where
  start : 0 < code.size → At 0 0
  handler : ∀ h ∈ handlers, h.handler.toNat < code.size → At h.handler.toNat 1
  bounded : ∀ pc depth, At pc depth → depth ≤ limit
  step : ∀ pc depth insn traits, At pc depth → decode code pc = .ok insn →
    insn.opcode.traits = .ok traits → ∃ popped pushed, insn.words? pool = some (popped, pushed) ∧
      depth - popped + pushed ≤ limit ∧
      (traits.flow.isUnconditional = false → pc + insn.length < code.size →
        At (pc + insn.length) (depth - popped + pushed)) ∧
      ∀ target : Nat, JumpsTo code pc target → target < code.size →
        At target (depth - popped + pushed)

lemma Code.DepthMap.mono {code : Array UInt8} {handlers : List ExceptionHandler}
    {pool : ConstantPool} {limit limit' : Nat} {At : (pc depth : Nat) → Prop}
    (h : DepthMap code handlers pool limit At) (hle : limit ≤ limit') :
    DepthMap code handlers pool limit' At where
  start := h.start
  handler := h.handler
  bounded pc depth hat := Nat.le_trans (h.bounded pc depth hat) hle
  step pc depth insn traits hat hdecode htraits := by
    obtain ⟨popped, pushed, hwords, hlimit, hleads⟩ :=
      h.step pc depth insn traits hat hdecode htraits
    exact ⟨popped, pushed, hwords, Nat.le_trans hlimit hle, hleads⟩

namespace BlockProgram

/-- Executing the block from its start, the machine comes to the offset in this state. -/
inductive Visits (p : BlockProgram) (b : Block) (entry : Machine) : Nat → Machine → Prop
  | enter : Visits p b entry b.start entry
  | next {pc : Nat} {m m' : Machine} {insn : Instruction} {traits : OpcodeTraits}
      (h : Visits p b entry pc m) (hpc : pc < b.stop) (hdecode : Code.decode p.code pc = .ok insn)
      (htraits : insn.opcode.traits = .ok traits) (hflow : traits.flow.isUnconditional = false)
      (hexecute : (Machine.Site.execute ⟨pc, p.code, p.scope⟩ insn).outcome m = (.ok (), m')) :
      Visits p b entry (pc + insn.length) m'

/-- The frame is computed before or after some instruction of the block, starting from its entry. -/
inductive Computes (p : BlockProgram) (b : Block) (entry : Machine) : Frame → Prop
  | before {pc : Nat} {m : Machine} (h : Visits p b entry pc m) : Computes p b entry m.frame
  | after {pc : Nat} {m m' : Machine} {insn : Instruction} (h : Visits p b entry pc m)
      (hpc : pc < b.stop) (hdecode : Code.decode p.code pc = .ok insn)
      (hexecute : (Machine.Site.execute ⟨pc, p.code, p.scope⟩ insn).outcome m = (.ok (), m')) :
      Computes p b entry m'.frame

/-- The frame lies within the map at an offset of a block, or, in a blanked block, at least within
the limit. -/
structure Mapped (p : BlockProgram) (dead : Nat → Prop) (limit : Nat)
    (At : (pc depth : Nat) → Prop) (k pc : Nat) (f : Frame) : Prop where
  depth_le : f.depth ≤ limit
  live : ¬dead k → pc < p.code.size → ∃ depth, At pc depth ∧ f.depth ≤ depth

/-- Executing the block at `k` may come to the offset with this frame. A blanked block throws before
its end. -/
structure Stands (p : BlockProgram) (dead : Nat → Prop) (instructions : List Nat) (limit : Nat)
    (At : (pc depth : Nat) → Prop) (k pc : Nat) (f : Frame) : Prop where
  passes : p.Passes dead instructions k pc
  dead_lt : dead k → ∀ b, p.graph.blocks[k]? = some b → pc < b.stop
  live_le : ¬dead k → ∀ b, p.graph.blocks[k]? = some b → b.stop < p.code.size → pc ≤ b.stop
  mapped : p.Mapped dead limit At k pc f

/-- The frame may be sent to the offset. -/
def Receives (p : BlockProgram) (At : (pc depth : Nat) → Prop) (target : Int) (f : Frame) : Prop :=
  ∀ pc : Nat, target = pc → pc < p.code.size → ∃ depth, At pc depth ∧ f.depth ≤ depth

section Step

variable {dead : Nat → Prop} {p p' : BlockProgram} {instructions : List Nat} {limit : Nat}
  {At : (pc depth : Nat) → Prop} {k pc popped pushed : Nat} {b : Block} {f : Frame}
  {m m' : Machine} {insn : Instruction} {traits : OpcodeTraits} {pool : ConstantPool}

lemma Stands.start (htiles : p.graph.Tiles p.code instructions) (hb : p.graph.blocks[k]? = some b)
    (hf : p.Mapped dead limit At k b.start f) :
    p.Stands dead instructions limit At k b.start f where
  passes := Blanked.passes_start htiles hb
  dead_lt _ b' hb' := by
    rw [hb] at hb'
    cases hb'
    exact (htiles.bounds hb).1
  live_le _ b' hb' _ := by
    rw [hb] at hb'
    cases hb'
    exact Nat.le_of_lt (htiles.bounds hb).1
  mapped := hf

/-- One instruction of a blanked block. -/
lemma Stands.step_dead (h : p.Stands dead instructions limit At k pc m.frame)
    (hblanked : Blanked dead p p') (hb : p.graph.blocks[k]? = some b) (hpc : pc < b.stop)
    (hdead : dead k) (hdecode : Code.decode p'.code pc = .ok insn)
    (htraits : insn.opcode.traits = .ok traits)
    (hwords : insn.words? m.pool = some (popped, pushed))
    (hshift : Machine.Shift popped pushed m m') :
    m'.frame.depth ≤ limit ∧
      (traits.flow.isUnconditional = false →
        p.Stands dead instructions limit At k (pc + insn.length) m'.frame) ∧
      Code.jumpTargets p'.code pc insn traits.flow = .ok [] := by
  have hdepth := hshift.depth
  have hlimit := h.mapped.depth_le
  rw [Instruction.words?_eq htraits] at hwords
  obtain ⟨⟨rfl, hmore⟩ | rfl, hnext⟩ := hblanked.dead_instruction h.passes hb hpc hdead hdecode
  · rw [Opcode.traits_nop] at htraits
    cases htraits
    cases hwords
    have hle : m'.frame.depth ≤ limit := Nat.le_trans (Nat.le_of_eq hdepth) hlimit
    refine ⟨hle, fun _ => ⟨hnext, fun _ b' hb' => ?_, fun hlive => absurd hdead hlive, hle,
      fun hlive => absurd hdead hlive⟩, rfl⟩
    rw [hb] at hb'
    cases hb'
    exact hmore
  · rw [Opcode.traits_athrow] at htraits
    cases htraits
    cases hwords
    refine ⟨?_, nofun, rfl⟩
    have hone : m'.frame.depth + 1 = m.frame.depth := hdepth
    omega

/-- One instruction of a block that was not blanked. -/
lemma Stands.step_live (h : p.Stands dead instructions limit At k pc m.frame)
    (hblanked : Blanked dead p p') (htiles : p.graph.Tiles p.code instructions)
    (hmap : Code.DepthMap p.code p.handlers pool limit At) (hpool : pool.Extends m.pool)
    (hb : p.graph.blocks[k]? = some b) (hpc : pc < b.stop) (hlive : ¬dead k)
    (hdecode : Code.decode p'.code pc = .ok insn) (htraits : insn.opcode.traits = .ok traits)
    (hwords : insn.words? m.pool = some (popped, pushed))
    (hshift : Machine.Shift popped pushed m m') :
    m'.frame.depth ≤ limit ∧
      (traits.flow.isUnconditional = false →
        p.Stands dead instructions limit At k (pc + insn.length) m'.frame) ∧
      ∀ targets, Code.jumpTargets p'.code pc insn traits.flow = .ok targets →
        ∀ target ∈ targets, p.Receives At target m'.frame := by
  have hbounds := htiles.bounds hb
  obtain ⟨hmem, hdecode', hsame, hnext⟩ := hblanked.live htiles h.passes hb hpc hlive hdecode
  obtain ⟨depth, hat, hdepth⟩ := h.mapped.live hlive (by omega)
  obtain ⟨popped', pushed', hwords', hlimit, hfalls, hjumps⟩ :=
    hmap.step pc depth insn traits hat hdecode' htraits
  -- More constants do not change what the instruction pops and pushes.
  have hagree := Instruction.words?_mono hpool hwords'
  rw [hwords] at hagree
  cases hagree
  have hafter : m'.frame.depth ≤ depth - popped + pushed := by
    have henough := hshift.enough
    have hshifted := hshift.depth
    omega
  refine ⟨Nat.le_trans hafter hlimit, fun hflow => ⟨hnext, fun hdead => absurd hdead hlive, ?_, ?_⟩,
    ?_⟩
  · intro _ b' hb' hstop
    rw [hb] at hb'
    cases hb'
    obtain ⟨insn', hinsn', _, hother⟩ := htiles.walk.next hmem
    rw [hdecode'] at hinsn'
    cases hinsn'
    obtain ⟨b', hb', hstart⟩ := htiles.next_block k b hb hstop
    have hle := hother b'.start (htiles.start_mem _ b' hb') (by omega)
    omega
  · exact ⟨Nat.le_trans hafter hlimit, fun _ hsize => ⟨_, hfalls hflow hsize, hafter⟩⟩
  · rintro targets htargets target htarget pc' rfl hsize
    have hjump : Code.JumpsTo p.code pc pc' := ⟨insn, traits, targets, hdecode', htraits,
      hsame traits targets htraits htargets, htarget⟩
    exact ⟨_, hjumps pc' hjump hsize, hafter⟩

/-- One instruction of any block. -/
lemma Stands.step (h : p.Stands dead instructions limit At k pc m.frame)
    (hblanked : Blanked dead p p') (htiles : p.graph.Tiles p.code instructions)
    (hmap : Code.DepthMap p.code p.handlers pool limit At) (hpool : pool.Extends m.pool)
    (hb : p.graph.blocks[k]? = some b) (hpc : pc < b.stop)
    (hdecode : Code.decode p'.code pc = .ok insn) (htraits : insn.opcode.traits = .ok traits)
    (hwords : insn.words? m.pool = some (popped, pushed))
    (hshift : Machine.Shift popped pushed m m') :
    m'.frame.depth ≤ limit ∧
      (traits.flow.isUnconditional = false →
        p.Stands dead instructions limit At k (pc + insn.length) m'.frame) ∧
      ∀ targets, Code.jumpTargets p'.code pc insn traits.flow = .ok targets →
        ∀ target ∈ targets, p.Receives At target m'.frame := by
  by_cases hdead : dead k
  · obtain ⟨hle, hnext, hnone⟩ := h.step_dead hblanked hb hpc hdead hdecode htraits hwords hshift
    refine ⟨hle, hnext, fun targets htargets => ?_⟩
    rw [hnone] at htargets
    cases htargets
    exact nofun
  · exact h.step_live hblanked htiles hmap hpool hb hpc hdead hdecode htraits hwords hshift

/-- A block that was not blanked ends where the next one starts. -/
lemma Stands.falls (h : p.Stands dead instructions limit At k pc f)
    (hb : p.graph.blocks[k]? = some b) (hpc : b.stop ≤ pc) (hstop : b.stop < p.code.size) :
    p.Receives At b.stop f := by
  rintro q hq hsize
  by_cases hdead : dead k
  · have hlt := h.dead_lt hdead b hb
    omega
  · have hle := h.live_le hdead b hb hstop
    obtain rfl : q = pc := by omega
    exact h.mapped.live hdead hsize

end Step
end BlockProgram

namespace Inference

open BlockProgram (Blanked)

variable {dead : Nat → Prop} {p p' : BlockProgram} {instructions : List Nat} {limit : Nat}
  {At : (pc depth : Nat) → Prop} {pool : ConstantPool} {s t : Inference}

/-- All entry frames lie within the map. -/
structure Charted (p : BlockProgram) (dead : Nat → Prop) (pool : ConstantPool) (limit : Nat)
    (At : (pc depth : Nat) → Prop) (s : Inference) : Prop where
  pool : pool.Extends s.pool
  frames_size : s.frames.size = p.graph.blocks.size
  mapped : ∀ (k : Nat) (b : Block) (f : Frame), p.graph.blocks[k]? = some b →
    s.frames[k]? = some (some f) → p.Mapped dead limit At k b.start f

namespace Charted

lemma of_pool (hs : Charted p dead pool limit At s) {later : ConstantPool}
    (hpool : s.pool.Extends later) : Charted p dead pool limit At { s with pool := later } :=
  ⟨hs.pool.trans hpool, hs.frames_size, hs.mapped⟩

/-- A block gets another entry frame. -/
lemma of_set (hs : Charted p dead pool limit At s) {k : Nat} {b : Block} {f : Frame}
    {later : ConstantPool} (hb : p.graph.blocks[k]? = some b)
    (hf : p.Mapped dead limit At k b.start f) (hpool : s.pool.Extends later) (worklist : Worklist) :
    Charted p dead pool limit At ⟨s.frames.setIfInBounds k (some f), worklist, later⟩ where
  pool := hs.pool.trans hpool
  frames_size := Array.size_setIfInBounds.trans hs.frames_size
  mapped j b' f' hb' hf' := by
    by_cases heq : k = j
    · subst heq
      rw [hb] at hb'
      cases hb'
      have hlt : k < s.frames.size := hs.frames_size ▸ (Array.getElem?_eq_some_iff.mp hb).1
      rw [Array.getElem?_setIfInBounds, if_pos rfl, if_pos hlt] at hf'
      cases hf'
      exact hf
    · rw [Array.getElem?_setIfInBounds, if_neg heq] at hf'
      exact hs.mapped j b' f' hb' hf'

/-- A frame is merged into the entry frame of a block. -/
lemma merged (hs : Charted p dead pool limit At s)
    (hmap : Code.DepthMap p.code p.handlers pool limit At)
    (htiles : p.graph.Tiles p.code instructions) {o : ClassOrder} {k : Nat} {b : Block} {f : Frame}
    (hb : p.graph.blocks[k]? = some b) (hf : p.Receives At b.start f) (h : Merged o s k f t) :
    Charted p dead pool limit At t := by
  cases h with
  | reached =>
    have hbounds := htiles.bounds hb
    obtain ⟨depth, hat, hle⟩ := hf b.start rfl (by omega)
    refine hs.of_set hb ⟨?_, fun _ _ => ⟨depth, hat, hle⟩⟩ (.refl _) _
    exact Nat.le_trans hle (hmap.bounded _ _ hat)
  | same _ hpool => exact hs.of_pool hpool
  | widened hold hpool _ hcovers =>
    -- A wider frame is not deeper than the one it takes the place of.
    have hle := Frame.depth_le_of_covers hcovers
    obtain ⟨hlimit, hlive⟩ := hs.mapped k b _ hb hold
    refine hs.of_set hb ⟨Nat.le_trans hle hlimit, fun halive hsize => ?_⟩ hpool _
    obtain ⟨depth, hat, hdepth⟩ := hlive halive hsize
    exact ⟨depth, hat, Nat.le_trans hle hdepth⟩

end Charted

/-- All frames lie within the map, at the entries of blocks and inside them. -/
def charted (p : BlockProgram) (dead : Nat → Prop) (instructions : List Nat) (pool : ConstantPool)
    (limit : Nat) (At : (pc depth : Nat) → Prop) : Conditions where
  Inv s := Charted p dead pool limit At s
  Before _ k pc f := p.Stands dead instructions limit At k pc f
  Sent _ target f := p.Receives At target f
  Fails _ := True

theorem hold_charted (h : Blanked dead p p') (htiles : p.graph.Tiles p.code instructions)
    (hmap : Code.DepthMap p.code p.handlers pool limit At) :
    (charted p dead instructions pool limit At).Hold p' where
  plain _ _ := trivial
  refl s hs := ⟨hs, fun _ _ _ hf => hf, fun _ _ hf => hf⟩
  grow s later hs hpool _ := ⟨hs.of_pool hpool, fun _ _ _ hf => hf, fun _ _ hf => hf⟩
  merge s k b f hs hb hf := by
    rw [h.graph] at hb
    have hends := ends_mergeEntry (ClassOrder.merges_coarse p'.scope) k f (s := s) trivial
    refine (hends.mono fun _ t hmerged => ?_).mono_error fun _ _ => trivial
    exact ⟨hs.merged hmap htiles hb hf hmerged, fun _ _ _ hf => hf, fun _ _ hf => hf⟩
  lost _ _ _ _ _ _ := trivial
  enter s k b f hs hb hf := by
    rw [h.graph] at hb
    exact .start htiles hb (hs.mapped k b f hb hf)
  throws s k b pc f handler exception _ _ _ _ hmem _ hwidth := by
    rintro pc' hpc' hsize
    obtain rfl : handler.handler.toNat = pc' := Int.ofNat.inj hpc'
    refine ⟨1, hmap.handler handler (h.handlers handler hmem) hsize, ?_⟩
    simp [Frame.depth_eq, hwidth]
  step s later k b pc f f' insn traits targets popped pushed hs hb hf hpc hdecode htraits htargets
      hwords hshift := by
    rw [h.graph] at hb
    have hstands : p.Stands dead instructions limit At k pc (Machine.mk f s.pool).frame := hf
    obtain ⟨_, hnext, hsent⟩ :=
      hstands.step h htiles hmap hs.pool hb hpc hdecode htraits hwords hshift
    exact ⟨hsent targets htargets, hnext⟩
  falls s k b pc f _ hb hf hpc hstop := by
    rw [h.graph] at hb
    rw [h.size] at hstop
    exact BlockProgram.Stands.falls hf hb hpc hstop

/-- So do all frames that are computed from the entry frame of a block. -/
lemma Charted.visits (hs : Charted p dead pool limit At s) (h : Blanked dead p p')
    (htiles : p.graph.Tiles p.code instructions)
    (hmap : Code.DepthMap p.code p.handlers pool limit At) {k pc : Nat} {b : Block} {f : Frame}
    {m : Machine} (hb : p.graph.blocks[k]? = some b) (hf : s.frames[k]? = some (some f))
    (hvisits : p'.Visits b ⟨f, s.pool⟩ pc m) :
    pool.Extends m.pool ∧ p.Stands dead instructions limit At k pc m.frame := by
  induction hvisits with
  | enter => exact ⟨hs.pool, .start htiles hb (hs.mapped k b f hb hf)⟩
  | next _ hpc hdecode htraits hflow hexecute ih =>
    obtain ⟨hpool, hstands⟩ := ih
    obtain ⟨popped, pushed, hwords, hshift⟩ := (Machine.Site.ends_execute _ _).ok _ _ hexecute
    obtain ⟨_, hnext, _⟩ := hstands.step h htiles hmap hpool hb hpc hdecode htraits hwords hshift
    exact ⟨hpool.trans hshift.pool, hnext hflow⟩

lemma Charted.computes (hs : Charted p dead pool limit At s) (h : Blanked dead p p')
    (htiles : p.graph.Tiles p.code instructions)
    (hmap : Code.DepthMap p.code p.handlers pool limit At) {k : Nat} {b : Block} {f g : Frame}
    (hb : p.graph.blocks[k]? = some b) (hf : s.frames[k]? = some (some f))
    (hcomputes : p'.Computes b ⟨f, s.pool⟩ g) : g.depth ≤ limit := by
  cases hcomputes with
  | before hvisits => exact (hs.visits h htiles hmap hb hf hvisits).2.mapped.depth_le
  | after hvisits hpc hdecode hexecute =>
    obtain ⟨hpool, hstands⟩ := hs.visits h htiles hmap hb hf hvisits
    obtain ⟨traits, htraits, _⟩ := Code.decode_shape hdecode
    obtain ⟨popped, pushed, hwords, hshift⟩ := (Machine.Site.ends_execute _ _).ok _ _ hexecute
    exact (hstands.step h htiles hmap hpool hb hpc hdecode htraits hwords hshift).1

end Inference

namespace MethodCode

open Inference (Charted hold_charted)

variable {m : MethodCode} {facts : ControlFacts} {header : MethodHeader} {scope : ClassScope}
  {graph : BlockGraph} {instructions : List Nat} {initial : Frame} {pool later : ConstantPool}
  {settled : SettledMethod} {At : (pc depth : Nat) → Prop} {s : Inference}

/-- The first run, from the entry frame of the method, keeps to the map. -/
lemma charted_of_run (hpos : 0 < m.code.size) (htiles : graph.Tiles m.code instructions)
    (hmap : Code.DepthMap m.code m.handlers pool m.maxStack.toNat At)
    (hinitial : (header.entryFrame scope m.maxLocals.toNat).outcome pool = (.ok initial, later))
    (hrun : (Inference.run (m.program graph scope) initial).outcome
      (.unreached graph.blocks.size later) = (.ok (), s)) :
    Charted (m.program graph scope) (fun _ => False) pool m.maxStack.toNat At s := by
  have hhold : (Inference.charted (m.program graph scope) (fun _ => False) instructions pool
      m.maxStack.toNat At).Hold (m.program graph scope) := hold_charted (.refl _) htiles hmap
  have hunreached : Charted (m.program graph scope) (fun _ => False) pool m.maxStack.toNat At
      (.unreached graph.blocks.size later) := by
    refine ⟨(MethodHeader.entryFrame_grows hinitial).1, Array.size_replicate, ?_⟩
    intro k b f _ hf
    rw [Inference.unreached, Array.getElem?_replicate] at hf
    split at hf
    · cases hf
    · cases hf
  obtain ⟨b, hb, hstart⟩ := htiles.first hpos
  have hsent : (m.program graph scope).Receives At b.start initial := by
    rintro pc hpc _
    obtain rfl : pc = 0 := by omega
    refine ⟨0, hmap.start hpos, ?_⟩
    simp [Frame.depth_eq, (MethodHeader.size_of_entryFrame hinitial).2]
  have hends := (hhold.merge _ 0 b initial hunreached hb hsent).bind fun _ t ht =>
    hhold.settle htiles.next_block (fun _ _ hs => ⟨hs.pool, hs.frames_size, hs.mapped⟩) trivial
      (Inference.rounds (m.program graph scope) initial.locals.size) ht.inv
  exact hends.ok () s hrun

lemma toNat_le_max_one (n : UInt16) : n.toNat ≤ (max n 1).toNat ∧ 1 ≤ (max n 1).toNat := by
  have hmax : max n 1 = if n ≤ 1 then 1 else n := rfl
  rw [hmax]
  split
  · rename_i hle
    exact ⟨UInt16.le_iff_toNat_le.mp hle, Nat.le_refl _⟩
  · rename_i hgt
    rw [UInt16.le_iff_toNat_le] at hgt
    exact ⟨Nat.le_refl _, Nat.le_of_not_le hgt⟩

/-- All frames that are computed from the final entry frames stay within the largest depth that is
written, if the depths at the instructions do. A blanked block needs room for the exception that it
throws. -/
theorem depth_le_of_settle (hpos : 0 < m.code.size)
    (hmap : Code.DepthMap m.code m.handlers pool m.maxStack.toNat At)
    (h : (m.settle facts header scope).outcome pool = (.ok settled, later)) {k : Nat} {b : Block}
    {f g : Frame} (hb : settled.graph.blocks[k]? = some b) (hf : settled.frames[k]? = some (some f))
    (hg : (settled.program scope).Computes b ⟨f, later⟩ g) :
    g.depth ≤ settled.method.maxStack.toNat := by
  obtain ⟨pool₁, s, hgraph, hinitial, hrun, hend⟩ := settle_eq_ok h
  obtain ⟨instructions, htiles⟩ := BlockGraph.tiles_of_partition hgraph
  have hs := charted_of_run hpos htiles hmap hinitial hrun
  rcases hend with ⟨_, hmethod, hframes, rfl⟩ |
    ⟨exception, middle, p', s', t, hresumed, hmethod, hframes, rfl⟩
  · rw [SettledMethod.program, hmethod] at hg
    rw [hmethod]
    exact hs.computes (.refl _) htiles hmap hb (hframes ▸ hf) hg
  · obtain ⟨hext, _⟩ := (VerificationType.repeatable_ofClass .throwable).grows hresumed.exception_eq
    obtain ⟨i, rfl, _⟩ := VerificationType.ofClass_eq_ok hresumed.exception_eq
    have hretired := BlockProgram.retired_neutralize (p := m.program settled.graph scope)
      (s := { s with pool := middle }) htiles hs.frames_size m.maxLocals.toNat (.object i)
    rw [hresumed.neutralized] at hretired
    have hblanked := hretired.toBlanked fun h hh => (List.mem_filter.mp hh).1
    have hroom := toNat_le_max_one m.maxStack
    have hmap' := hmap.mono hroom.1
    have hs' : Charted (m.program settled.graph scope)
        (· ∈ (m.program settled.graph scope).deadBlocks s.frames) pool (max m.maxStack 1).toNat At
        s' := by
      refine ⟨?_, hretired.frames_size.trans hs.frames_size, fun j b' f' hb' hf' => ?_⟩
      · rw [hretired.pool]
        exact hs.pool.trans hext
      · by_cases hdead : j ∈ (m.program settled.graph scope).deadBlocks s.frames
        · rw [hretired.retired j b' hdead hb'] at hf'
          cases hf'
          exact ⟨hroom.2, fun hlive => absurd hdead hlive⟩
        · rw [hretired.kept j hdead] at hf'
          obtain ⟨hle, hlive⟩ := hs.mapped j b' f' hb' hf'
          exact ⟨Nat.le_trans hle hroom.1, fun _ => hlive id⟩
    have hnext : ∀ (j : Nat) (b' : Block), p'.graph.blocks[j]? = some b' → b'.stop < p'.code.size →
        ∃ b'', p'.graph.blocks[j + 1]? = some b'' ∧ b''.start = b'.stop := by
      rw [hblanked.graph, hblanked.size]
      exact htiles.next_block
    have ht := ((hold_charted hblanked htiles hmap').settle hnext
      (fun _ _ hs => ⟨hs.pool, hs.frames_size, hs.mapped⟩) trivial _ hs').ok () t hresumed.ended
    have hprogram : settled.program scope = p' := by
      have hscope : p'.scope = scope := hretired.scope
      rw [SettledMethod.program, MethodCode.program, hmethod, ← hscope]
      exact congrArg (BlockProgram.mk p'.code p'.handlers · p'.scope) hretired.graph.symm
    rw [hprogram] at hg
    rw [hmethod]
    exact ht.computes hblanked htiles hmap' hb (hframes ▸ hf) hg

end MethodCode
end ClassAssembly
