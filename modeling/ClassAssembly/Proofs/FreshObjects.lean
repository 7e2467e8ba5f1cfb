import ClassAssembly.Proofs.ObjectSites
import ClassAssembly.Proofs.StackBound
import ClassAssembly.Proofs.UnreachableCode

/-! Objects are made afresh. The frame before an instruction that makes an object never speaks of an
object made there earlier, not even when control comes back to the instruction: the first path to its
block has no such object yet, and frames only become wider after that. -/
namespace ClassAssembly

namespace Frame

/-- No object made at this site waits for its constructor. -/
structure FreshAt (site : UInt16) (f : Frame) : Prop where
  locals : .uninitialized site ∉ f.locals.toList
  stack : .uninitialized site ∉ f.stack

lemma Formed.freshAt {f : Frame} {size : Nat} {site : UInt16} (h : f.Formed size (· ≠ site)) :
    f.FreshAt site :=
  ⟨fun hmem => h.made_local site hmem rfl, fun hmem => h.made_stack site hmem rfl⟩

end Frame

namespace Machine.Site

lemma classIndex_looks (site : Site) (operand : Int) (m : Machine) :
    (site.classIndex operand).Ends m (fun _ m' => m' = m) fun _ => True := by
  have hconstant : (site.constant operand).Ends m (fun _ m' => m' = m) fun _ => True := by
    refine .get ?_
    split
    · exact .pure rfl
    · exact .throw trivial
  refine hconstant.bind fun c m₁ hm₁ => ?_
  split
  · exact .pure hm₁
  · exact .throw trivial

/-- What making an object does: the object comes to the top of the stack. -/
lemma execute_new {site : Site} {insn : Instruction} {m m' : Machine} (hop : insn.opcode = .new)
    (h : (site.execute insn).outcome m = (.ok (), m')) :
    m'.frame = ⟨m.frame.locals, .uninitialized (UInt16.ofNat site.pc) :: m.frame.stack⟩ := by
  obtain ⟨traits, _, hofExcept, h⟩ := Step.bind_eq_ok.mp h
  obtain ⟨rfl, htraits⟩ := Step.ofExcept_eq_ok hofExcept
  rw [hop, Opcode.traits_new] at htraits
  cases htraits
  obtain ⟨_, m₁, hdiscard, hpush⟩ := Step.bind_eq_ok.mp h
  obtain ⟨_, rfl⟩ := (classIndex_looks site insn.first m).discarded.ok _ _ hdiscard
  cases hpush
  rfl

end Machine.Site

namespace BlockProgram

/-- Whenever executing the block from its entry comes to the instruction at the offset, which makes an
object, no object made there earlier is left in the frame, so that the new object is the only one of
its kind. -/
structure MakesFresh (p : BlockProgram) (b : Block) (entry : Machine) (pc : Nat)
    (insn : Instruction) : Prop where
  decoded : Code.decode p.code pc = .ok insn
  visited : ∃ m m', p.Visits b entry pc m ∧
    (Machine.Site.execute ⟨pc, p.code, p.scope⟩ insn).outcome m = (.ok (), m')
  fresh : ∀ m, p.Visits b entry pc m → m.frame.FreshAt (UInt16.ofNat pc)
  made : ∀ m m', p.Visits b entry pc m →
    (Machine.Site.execute ⟨pc, p.code, p.scope⟩ insn).outcome m = (.ok (), m') →
      m'.frame = ⟨m.frame.locals, .uninitialized (UInt16.ofNat pc) :: m.frame.stack⟩

variable {p p' : BlockProgram} {pool : ConstantPool} {Accepts : Nat → Frame → Prop}
  {Made : UInt16 → Prop} {dead : Nat → Prop} {instructions : List Nat} {size k pc q : Nat}
  {b : Block} {entry : Frame}

/-- If a block makes objects only at the sites in `Made`, all frames that it sends on speak only of
such objects. -/
lemma Propagates.formed {stop : Nat} {frame : Frame} (Visits : Nat → Prop)
    (hvisits : ∀ q insn, Visits q → q < stop → Code.decode p.code q = .ok insn →
      Visits (q + insn.length) ∧ ∀ traits, insn.opcode.traits = .ok traits → traits.effect = .new →
        Made (UInt16.ofNat q))
    (h : p.Propagates pool Accepts stop pc frame) (hpc : Visits pc)
    (hframe : frame.Formed size Made) :
    p.Propagates pool (fun k f => Accepts k f ∧ f.Formed size Made) stop pc frame := by
  have hlands : ∀ {target f}, p.Lands Accepts target f → f.Formed size Made →
      p.Lands (fun k f => Accepts k f ∧ f.Formed size Made) target f := by
    rintro target f ⟨k, b, hb, hstart, haccepts⟩ hf
    exact ⟨k, b, hb, hstart, haccepts, hf⟩
  induction h with
  | @instruction pc frame frame' insn traits targets hlt hdecode htraits hhandlers hexecute htargets
      hjumps _ ih =>
    obtain ⟨hnext, hnew⟩ := hvisits pc insn hpc hlt hdecode
    have hreplayed :=
      Machine.Site.replays_execute (.refl ⟨pc, p.code, p.scope⟩) insn hnew hframe hexecute
    have hframe' := hreplayed.formed
    refine .instruction hlt hdecode htraits (fun h hh hcovers => ?_) hexecute htargets
      (fun target htarget => hlands (hjumps target htarget) hframe')
      (fun hflow => ih hflow hnext hframe')
    obtain ⟨exception, hcaught, hland⟩ := hhandlers h hh hcovers
    refine ⟨exception, hcaught, hlands hland (hframe.with_stack ?_)⟩
    simpa using Inference.allowed_caught hcaught
  | falls hge hstop hnext => exact .falls hge hstop (hlands hnext hframe)

/-- Up to the offset, executing a block makes no object there. -/
lemma Visits.formed {later : ConstantPool} {m : Machine}
    (hentry : entry.Formed size (· ≠ UInt16.ofNat q)) (h : p.Visits b ⟨entry, later⟩ pc m)
    (hle : pc ≤ q) (hq : q < 65536) : m.frame.Formed size (· ≠ UInt16.ofNat q) := by
  induction h with
  | enter => exact hentry
  | @next pc m m' insn traits _ _ hdecode htraits _ hexecute ih =>
    have hpos := insn.length_pos
    refine (Machine.Site.replays_execute (.refl ⟨pc, p.code, p.scope⟩) insn (fun _ _ _ heq => ?_)
      (ih (by omega)) hexecute).formed
    have hsame : (UInt16.ofNat pc).toNat = (UInt16.ofNat q).toNat := congrArg UInt16.toNat heq
    rw [UInt16.toNat_ofNat', UInt16.toNat_ofNat'] at hsame
    omega

/-- A block that was not blanked can be executed up to each of its instructions. -/
lemma Propagates.exists_visits (hblanked : Blanked dead p p')
    (htiles : p.graph.Tiles p.code instructions) (hb : p.graph.blocks[k]? = some b)
    (hlive : ¬dead k)
    (hends : ∀ pc ∈ instructions, b.start ≤ pc → ∀ stop, Code.transferEnd? p.code pc = some stop →
      b.stop ≤ stop)
    (h : p'.Propagates pool Accepts b.stop b.start entry) (hq : Code.Reaches p.code b.start q)
    (hlt : q < b.stop) :
    ∃ f, p'.Visits b ⟨entry, pool⟩ q ⟨f, pool⟩ ∧ p'.Propagates pool Accepts b.stop q f := by
  induction hq with
  | here => exact ⟨entry, .enter, h⟩
  | @next pc insn hpc hdecode ih =>
    have hpos := insn.length_pos
    obtain ⟨f, hvisits, hpropagates⟩ := ih (by omega)
    obtain ⟨hstart, hmem⟩ := htiles.reaches hb hpc
    have hpc' := Code.lt_of_decode hdecode
    have hmem := hmem.resolve_right (by omega)
    have hsame := hblanked.sameBytes htiles hb hlive hmem hstart (by omega) hdecode
    cases hpropagates with
    | falls hge => omega
    | @instruction _ _ frame' _ traits _ _ hdecode' htraits _ hexecute _ _ hnext =>
      rw [Code.decode_congr hdecode hsame] at hdecode'
      cases hdecode'
      -- Nothing follows an unconditional transfer in its block.
      have hflow : traits.flow.isUnconditional = false := by
        by_contra htransfer
        have hend := hends pc hmem hstart (pc + insn.length)
          (by rw [Code.transferEnd?_eq hdecode htraits, if_pos (by simpa using htransfer)])
        omega
      exact ⟨frame', .next hvisits (by omega) (Code.decode_congr hdecode hsame) htraits hflow
        hexecute, hnext hflow⟩

end BlockProgram

namespace MethodCode

variable {m : MethodCode} {facts : ControlFacts} {header : MethodHeader} {scope : ClassScope}
  {graph : BlockGraph} {initial : Frame} {instructions : List Nat} {pool later : ConstantPool}
  {s : Inference} {settled : SettledMethod} {size k pc : Nat} {b : Block}

/-- When the first run has ended, some frame came to the block of an instruction before the
instruction was ever executed. The induction is on a path to the block; where the path passes through
the block earlier, what came there then is taken. -/
lemma accepts_fresh (hgraph : BlockGraph.partition m.code facts m.handlers = .ok graph)
    (htiles : graph.Tiles m.code instructions) (hcomplete : facts.Complete m.code instructions)
    (hsize : m.code.size ≤ 65536) (hsettled : Inference.Settled .coarse (m.program graph scope) s)
    (hempty : s.worklist.toList = []) (hinitial : ∀ Made, initial.Formed size Made)
    (hfirst : s.Accepts .coarse 0 initial) (hb : graph.blocks[k]? = some b)
    (hpath : graph.Reachable k) (hlo : b.start ≤ pc) (hhi : pc < b.stop) :
    ∃ f, s.Accepts .coarse k f ∧ f.Formed size (· ≠ UInt16.ofNat pc) := by
  obtain ⟨starts, hposition, hsuccessors⟩ := BlockGraph.successors_of_partition hgraph
  have halong : ∀ j, graph.Reachable j →
      (∃ f, s.Accepts .coarse j f ∧ f.Formed size (· ≠ UInt16.ofNat pc)) ∨
        ∃ f, s.Accepts .coarse k f ∧ f.Formed size (· ≠ UInt16.ofNat pc) := by
    intro j hpath
    induction hpath with
    | refl => exact .inl ⟨initial, hfirst, hinitial _⟩
    | @tail i j _ hedge ih =>
      rcases ih with ⟨f, ⟨entry, hentry, hcovers⟩, hf⟩ | hdone
      · by_cases hik : i = k
        · exact .inr ⟨f, hik ▸ ⟨entry, hentry, hcovers⟩, hf⟩
        · obtain ⟨b', hb', hj⟩ := hedge
          obtain ⟨found, hfound, hmem⟩ := hsuccessors i b' hb'
          have hpropagates := hsettled i b' entry hb' hentry (by simp [hempty])
          refine .inl ((Inference.accepted_of_propagates htiles hposition ?_ hb' .here
            (hpropagates.formed (Code.Reaches m.code b'.start) ?_ .here (hf.of_covers hcovers)) hfound
            j ((hmem j).mp hj)).resolve_left List.not_mem_nil)
          · intro q hq hlo' stop hend
            exact BlockGraph.stop_le_of_transfer hgraph htiles hcomplete hq hend hb' hlo'
          · -- The block is another one, so the instruction is none of its own.
            intro q insn hq hlt hdecode
            refine ⟨hq.next hdecode, fun _ _ _ heq => hik ?_⟩
            have hsame := congrArg UInt16.toNat heq
            have hbound := htiles.bounds hb
            have hbound' := htiles.bounds hb'
            rw [UInt16.toNat_ofNat', UInt16.toNat_ofNat'] at hsame
            exact htiles.unique hb' hb ⟨(htiles.reaches hb' hq).1, hlt⟩ ⟨by omega, by omega⟩
      · exact .inr hdone
  rcases halong k hpath with h | h <;> exact h

/-- How an inference that succeeds goes on from its first run: entry frames become wider, and the code
is that of the method with the blocks blanked that were not reached. -/
lemma settle_stages (hsize : m.code.size ≤ 65536)
    (hlocals : header.descriptor.parameterWords (!header.isStatic) ≤ m.maxLocals.toNat)
    (h : (m.settle facts header scope).outcome pool = (.ok settled, later)) :
    ∃ pool₁ s t, BlockGraph.partition m.code facts m.handlers = .ok settled.graph ∧
      (header.entryFrame scope m.maxLocals.toNat).outcome pool = (.ok settled.initial, pool₁) ∧
      (Inference.run (m.program settled.graph scope) settled.initial).outcome
        (.unreached settled.graph.blocks.size pool₁) = (.ok (), s) ∧
      Inference.Widens .coarse s t ∧ t.frames = settled.frames ∧ t.pool = later ∧
      BlockProgram.Blanked (· ∈ (m.program settled.graph scope).deadBlocks s.frames)
        (m.program settled.graph scope) (settled.program scope) := by
  obtain ⟨pool₁, s, hgraph, hinitial, hrun, hend⟩ := settle_eq_ok h
  rcases hend with ⟨hdead, hmethod, hframes, rfl⟩ |
    ⟨exception, middle, p', s', t, hresumed, hmethod, hframes, rfl⟩
  · refine ⟨pool₁, s, s, hgraph, hinitial, hrun, .refl s, hframes.symm, rfl, ?_⟩
    rw [SettledMethod.program, hmethod, hdead]
    exact ⟨rfl, rfl, rfl, fun _ hh => hh, fun _ _ => rfl, fun _ _ _ hmem => by cases hmem⟩
  · obtain ⟨instructions, htiles⟩ := BlockGraph.tiles_of_partition hgraph
    obtain ⟨_, _, _, hformed⟩ := MethodHeader.entryFrame_spec hlocals hinitial
    have hw : (m.program settled.graph scope).Wired .coarse :=
      htiles.wired rfl (ClassOrder.merges_coarse scope) rfl hsize
    obtain ⟨hs, hsettled, hempty, _⟩ := Inference.run_spec hw
      (Inference.madeBy_liveSite htiles hsize) trivial hformed hrun
    obtain ⟨hretired, hw', hwidens, hs', hsettled'⟩ := BlockProgram.neutralize_spec
      (p := m.program settled.graph scope) (ClassOrder.merges_coarse scope) hsize htiles hs hsettled
      hempty hresumed.exception_eq hresumed.neutralized
    obtain ⟨hwidens', _⟩ := Inference.settle_spec hw'
      ⟨fun _ _ _ _ _ => trivial, fun _ _ _ _ _ _ _ _ _ _ _ _ _ _ => trivial⟩ _ hs' hsettled'
      hresumed.ended
    refine ⟨pool₁, s, t, hgraph, hinitial, hrun, hwidens.trans hwidens', hframes.symm, rfl, ?_⟩
    have hprogram : settled.program scope = p' := by
      have hscope : p'.scope = scope := hretired.scope
      rw [SettledMethod.program, MethodCode.program, hmethod, ← hscope]
      exact congrArg (BlockProgram.mk p'.code p'.handlers · p'.scope) hretired.graph.symm
    rw [hprogram]
    exact hretired.toBlanked fun h hh => (List.mem_filter.mp hh).1

/-- No stale object at the place where it was made. If the facts about control are complete and a
stack map is inferred, the frame before each instruction that makes an object, computed from the final
entry frame of its block, has no object that was made there before, also if the instruction stands in
a loop. A constructor called afterwards initializes only what was made since. -/
theorem withStackMap_makes_fresh {mapped : MappedCode} (hsize : m.code.size ≤ 65536)
    (hlocals : header.descriptor.parameterWords (!header.isStatic) ≤ m.maxLocals.toNat)
    (hstarts : Code.starts m.code = .ok instructions) (hcomplete : facts.Complete m.code instructions)
    (h : (m.withStackMap facts header scope).outcome pool = (.ok mapped, later)) :
    ∃ settled, (m.settle facts header scope).outcome pool = (.ok settled, later) ∧
      mapped = ⟨settled.method, settled.entries, settled.deadBlocks⟩ ∧
      ∀ (k : Nat) (b : Block), settled.graph.blocks[k]? = some b → settled.graph.Reachable k →
        ∃ entry, settled.frames[k]? = some (some entry) ∧
          ∀ pc ∈ instructions, b.start ≤ pc → pc < b.stop → ∀ insn,
            Code.decode m.code pc = .ok insn → insn.opcode = .new →
              (settled.program scope).MakesFresh b ⟨entry, later⟩ pc insn := by
  obtain ⟨settled, _, hsettle, heq⟩ := Step.bind_eq_ok.mp h
  cases heq
  refine ⟨settled, hsettle, rfl, fun k b hb hpath => ?_⟩
  obtain ⟨pool₁, s, t, hgraph, hinitial, hrun, hwidens, hframes, rfl, hblanked⟩ :=
    settle_stages hsize hlocals hsettle
  obtain ⟨instructions', htiles⟩ := BlockGraph.tiles_of_partition hgraph
  have hsame := Code.starts_eq_ok_iff.mpr htiles.walk
  rw [hstarts] at hsame
  cases hsame
  obtain ⟨_, _, _, hformed⟩ := MethodHeader.entryFrame_spec hlocals hinitial
  have hw : (m.program settled.graph scope).Wired .coarse :=
    htiles.wired rfl (ClassOrder.merges_coarse scope) rfl hsize
  obtain ⟨hs, hsettled, hempty, hfirst⟩ := Inference.run_spec hw
    (Inference.madeBy_liveSite htiles hsize) trivial hformed hrun
  -- The block was reached, so that its code is as it was.
  obtain ⟨f, hf⟩ :=
    reached_of_reachable hgraph htiles hcomplete hsettled hempty hfirst hpath
  have hlive : k ∉ (m.program settled.graph scope).deadBlocks s.frames := by
    rw [BlockProgram.mem_deadBlocks hs.frames_size, hf]
    simp
  obtain ⟨entry, hentry, hcovers⟩ := hwidens.wider k f hf
  refine ⟨entry, hframes ▸ hentry, fun pc hpc hlo hhi insn hdecode hop => ?_⟩
  have hbounds := htiles.bounds hb
  have hsame := hblanked.sameBytes htiles hb hlive hpc hlo hhi hdecode
  have hdecode' := Code.decode_congr hdecode hsame
  -- Some frame came here before the instruction was ever executed, and it is accepted still.
  have hentry' : entry.Formed m.maxLocals.toNat (· ≠ UInt16.ofNat pc) := by
    obtain ⟨g, hg, hfresh⟩ := accepts_fresh hgraph htiles hcomplete hsize hsettled hempty hformed
      hfirst hb hpath hlo hhi
    obtain ⟨entry', hentry', hcovers'⟩ := hwidens.accepts hg
    rw [hentry] at hentry'
    cases hentry'
    exact hfresh.of_covers hcovers'
  refine ⟨hdecode', ?_, fun machine hvisits => ?_, fun machine machine' _ => ?_⟩
  · obtain ⟨t', hfix, hpool⟩ := settle_fixpoint (ClassOrder.merges_coarse scope) trivial hsize
      hlocals hsettle
    have hpropagates := hfix.sent k b entry hb (by rw [hfix.frames_eq, ← hframes, hentry])
      (by simp [hfix.waiting])
    rw [hpool] at hpropagates
    obtain ⟨g, hvisits, hrest⟩ := hpropagates.exists_visits hblanked htiles hb hlive
      (fun q hq hlo' stop hend =>
        BlockGraph.stop_le_of_transfer hgraph htiles hcomplete hq hend hb hlo')
      (htiles.walk.reaches (htiles.start_mem k b hb) hpc hlo) hhi
    cases hrest with
    | falls hge => omega
    | instruction _ hinsn _ _ hexecute =>
      rw [hdecode'] at hinsn
      cases hinsn
      exact ⟨_, _, hvisits, hexecute⟩
  · exact (hvisits.formed hentry' (Nat.le_refl pc) (by omega)).freshAt
  · exact Machine.Site.execute_new hop

/-- Makes two objects over and over again. The first one is never initialized, but kept in a local
variable. -/
def restlessOperations : List DraftOperation := [
  .newLabel, .bindLabel 0,
  .emit .new [2],
  .emit (.store0 .reference) [],
  .emit .new [2],
  .emitWithEffect .invokespecial [6] 1 0,
  .jump .goto (.label 0)]

def restlessDraft : CodeDraft := ((restlessOperations.forM DraftOperation.run).outcome .empty).2

def restlessMethod : MethodCode := ⟨restlessDraft.code, [], 1, 1⟩

def restlessPool : ConstantPool := .after [.classRef "Box", .methodRef "Box" "<init>" "()V" false]

theorem restlessMethod_makes_fresh :
    ∃ starts mapped later, restlessMethod.code.size ≤ 65536 ∧
      plainHeader.descriptor.parameterWords (!plainHeader.isStatic) ≤
        restlessMethod.maxLocals.toNat ∧
      Code.starts restlessMethod.code = .ok starts ∧
      restlessDraft.facts.Complete restlessMethod.code starts ∧
      (restlessMethod.withStackMap restlessDraft.facts plainHeader plainScope).outcome restlessPool =
        (.ok mapped, later) ∧
      ∃ settled entry, (restlessMethod.settle restlessDraft.facts plainHeader plainScope).outcome
          restlessPool = (.ok settled, later) ∧
        settled.graph.blocks[0]? = some ⟨0, 13, [0], true⟩ ∧
        settled.frames[0]? = some (some entry) ∧
        ∀ pc ∈ [0, 4], (settled.program plainScope).MakesFresh ⟨0, 13, [0], true⟩ ⟨entry, later⟩ pc
          ⟨.new, 3, false, 2, 0, Nat.succ_pos 2⟩ := by
  have hrange : ∀ op ∈ restlessOperations, op.InRange := by decide +kernel
  have hok : ((restlessOperations.forM DraftOperation.run).outcome .empty).1 = .ok () := by
    decide +kernel
  have hrun : (restlessOperations.forM DraftOperation.run).outcome .empty = (.ok (), restlessDraft) :=
    Prod.ext hok (by rw [restlessDraft])
  obtain ⟨starts, hlayout, hcomplete⟩ := CodeDraft.complete_facts hrange hrun (by decide +kernel)
  have hstarts := Code.starts_eq_ok_iff.mpr (hlayout.walk (Nat.le_refl _))
  have hcode : restlessMethod.code = restlessDraft.code := by rw [restlessMethod]
  rw [← hcode] at hstarts hcomplete
  have hsize : restlessMethod.code.size ≤ 65536 := by decide +kernel
  have hlocals : plainHeader.descriptor.parameterWords (!plainHeader.isStatic) ≤
      restlessMethod.maxLocals.toNat := by decide
  have heval : ((restlessMethod.settle restlessDraft.facts plainHeader plainScope).outcome
      restlessPool).1.map (fun settled => settled.graph.blocks[0]?) = .ok (some ⟨0, 13, [0], true⟩) := by
    decide +kernel
  obtain ⟨settled, later, hsettle, hblock⟩ := Step.exists_of_map_eq_ok heval
  have h := withStackMap_of_settle hsettle
  obtain ⟨settled', hsettle', _, hall⟩ :=
    withStackMap_makes_fresh hsize hlocals hstarts hcomplete h
  rw [hsettle] at hsettle'
  cases hsettle'
  obtain ⟨entry, hentry, hfresh⟩ := hall 0 _ hblock .refl
  have hinstructions : Code.starts restlessMethod.code = .ok [0, 3, 4, 7, 10] := by decide +kernel
  rw [hstarts] at hinstructions
  cases hinstructions
  refine ⟨_, _, later, hsize, hlocals, hstarts, hcomplete, h, settled, entry, hsettle, hblock, hentry,
    fun pc hpc => ?_⟩
  obtain rfl | rfl : pc = 0 ∨ pc = 4 := by simpa using hpc
  · exact hfresh 0 (by decide) (by decide) (by decide) _ (by decide +kernel) rfl
  · exact hfresh 4 (by decide) (by decide) (by decide) _ (by decide +kernel) rfl

end MethodCode
end ClassAssembly
