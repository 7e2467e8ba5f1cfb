import ClassAssembly.Proofs.NewClass
import ClassAssembly.Proofs.TwoPasses

/-! The inferred frames are sound. Executing any block from its entry frame succeeds, and whatever
frame it sends anywhere was accounted for there already. That takes an order on the classes, which an
interface with a superclass of its own breaks. -/
namespace ClassAssembly

namespace SettledMethod

/-- The program whose frames were inferred: the code with blanked blocks and the handlers left. -/
def program (s : SettledMethod) (scope : ClassScope) : BlockProgram := s.method.program s.graph scope

/-- Merging the frame into the entry frame of the block changes nothing. -/
def Absorbs (s : SettledMethod) (scope : ClassScope) (pool : ConstantPool) (k : Nat)
    (frame : Frame) : Prop :=
  ∃ entry, s.frames[k]? = some (some entry) ∧
    ∀ offset, (Machine.merge scope offset frame).outcome ⟨entry, pool⟩ = (.ok false, ⟨entry, pool⟩)

end SettledMethod

namespace MethodCode

variable {o : ClassOrder} {m : MethodCode} {facts : ControlFacts} {header : MethodHeader} {scope : ClassScope}
  {pool later : ConstantPool} {settled : SettledMethod}

/-- The second run of a successful inference, after the first one ended in the state `s`. -/
structure Resumed (m : MethodCode) (graph : BlockGraph) (scope : ClassScope) (rounds : Nat)
    (s : Inference) (exception : VerificationType) (middle : ConstantPool) (p' : BlockProgram)
    (s' t : Inference) : Prop where
  exception_eq : (VerificationType.ofClass .throwable).outcome s.pool = (.ok exception, middle)
  neutralized : (m.program graph scope).neutralize m.maxLocals.toNat exception
    { s with pool := middle } = (p', s')
  ended : (Inference.settle p' rounds).outcome s' = (.ok (), t)

lemma resume_eq_ok {graph : BlockGraph} {initial : Frame} {dead : Nat} {s t : Inference}
    (h : (m.resume graph initial scope dead).outcome s = (.ok settled, t)) :
    ∃ exception middle p' s', Resumed m graph scope
        (Inference.rounds (m.program graph scope) initial.locals.size) s exception middle p' s' t ∧
      settled = ⟨⟨p'.code, p'.handlers, max m.maxStack 1, m.maxLocals⟩, graph, initial, t.frames,
        dead⟩ := by
  obtain ⟨exception, _, hexception, h₁⟩ := Step.bind_eq_ok.mp h
  obtain ⟨middle, hmiddle, rfl⟩ := Inference.constants_eq_ok hexception
  obtain ⟨p', s', hneutralize, h₂⟩ := Step.bind_eq_ok.mp h₁
  obtain ⟨_, u, hend, h₃⟩ := Step.bind_eq_ok.mp h₂
  cases h₃
  refine ⟨exception, middle, p', s', ⟨hmiddle, ?_, hend⟩, rfl⟩
  cases hneutralize
  rfl

/-- The runs of a successful inference: the first one, and where it left blocks unreached also the
second one. -/
lemma infer_eq_ok {graph : BlockGraph} {initial : Frame} {start t : Inference}
    (h : (m.infer graph initial scope).outcome start = (.ok settled, t)) :
    ∃ s, (Inference.run (m.program graph scope) initial).outcome start = (.ok (), s) ∧
      (((m.program graph scope).deadBlocks s.frames = [] ∧
          settled = ⟨m, graph, initial, s.frames, 0⟩ ∧ t = s) ∨
        ∃ exception middle p' s', Resumed m graph scope
            (Inference.rounds (m.program graph scope) initial.locals.size) s exception middle p' s' t ∧
          settled = ⟨⟨p'.code, p'.handlers, max m.maxStack 1, m.maxLocals⟩, graph, initial, t.frames,
            ((m.program graph scope).deadBlocks s.frames).length⟩ ∧
          (m.program graph scope).deadBlocks s.frames ≠ []) := by
  obtain ⟨_, s, hrun, hdead⟩ := Step.bind_eq_ok.mp h
  obtain ⟨_, _, hget, hdead'⟩ := Step.bind_eq_ok.mp hdead
  cases hget
  refine ⟨s, hrun, ?_⟩
  split at hdead'
  · rename_i hnone
    cases hdead'
    exact .inl ⟨hnone, rfl, rfl⟩
  · rename_i hsome
    obtain ⟨exception, middle, p', s', hresumed, heq⟩ := resume_eq_ok hdead'
    exact .inr ⟨exception, middle, p', s', hresumed, heq, hsome⟩

lemma infer_of_settle (h : (m.settle facts header scope).outcome pool = (.ok settled, later)) :
    ∃ graph initial pool₁ t, BlockGraph.partition m.code facts m.handlers = .ok graph ∧
      (header.entryFrame scope m.maxLocals.toNat).outcome pool = (.ok initial, pool₁) ∧
      (m.infer graph initial scope).outcome (.unreached graph.blocks.size pool₁) =
        (.ok settled, t) ∧ later = t.pool := by
  obtain ⟨graph, _, hgraph', hrest⟩ := Step.bind_eq_ok.mp h
  obtain ⟨hgraph, rfl⟩ := Prod.mk.inj hgraph'
  obtain ⟨initial, pool₁, hinitial, hruns⟩ := Step.bind_eq_ok.mp hrest
  rcases hinfer : (m.infer graph initial scope).outcome (.unreached graph.blocks.size pool₁) with
    ⟨result, t⟩
  rw [Step.outcome_ofOutcome, hinfer] at hruns
  cases hruns
  exact ⟨graph, initial, pool₁, t, hgraph, hinitial, hinfer, rfl⟩

/-- The stages of a successful inference: the first run, and where it left blocks unreached also
the second one. -/
lemma settle_eq_ok (h : (m.settle facts header scope).outcome pool = (.ok settled, later)) :
    ∃ pool₁ s, BlockGraph.partition m.code facts m.handlers = .ok settled.graph ∧
      (header.entryFrame scope m.maxLocals.toNat).outcome pool = (.ok settled.initial, pool₁) ∧
      (Inference.run (m.program settled.graph scope) settled.initial).outcome
        (.unreached settled.graph.blocks.size pool₁) = (.ok (), s) ∧
      (((m.program settled.graph scope).deadBlocks s.frames = [] ∧
          settled.method = m ∧ settled.frames = s.frames ∧ later = s.pool) ∨
        ∃ exception middle p' s' t, Resumed m settled.graph scope (Inference.rounds
            (m.program settled.graph scope) settled.initial.locals.size) s exception middle p' s' t ∧
          settled.method = ⟨p'.code, p'.handlers, max m.maxStack 1, m.maxLocals⟩ ∧
          settled.frames = t.frames ∧ later = t.pool) := by
  obtain ⟨graph, initial, pool₁, t, hgraph, hinitial, hinfer, rfl⟩ := infer_of_settle h
  obtain ⟨s, hrun, ⟨hnone, rfl, rfl⟩ | ⟨exception, middle, p', s', hresumed, rfl, _⟩⟩ :=
    infer_eq_ok hinfer
  · exact ⟨pool₁, t, hgraph, hinitial, hrun, .inl ⟨hnone, rfl, rfl, rfl⟩⟩
  · exact ⟨pool₁, s, hgraph, hinitial, hrun,
      .inr ⟨exception, middle, p', s', t, hresumed, rfl, rfl, rfl⟩⟩

/-- Inference of the whole method has ended in this state, where all blocks have frames. -/
structure Fixpoint (o : ClassOrder) (settled : SettledMethod) (scope : ClassScope) (size : Nat)
    (t : Inference) : Prop where
  frames_eq : t.frames = settled.frames
  waiting : t.worklist.toList = []
  valid : t.Valid o (settled.program scope) size fun _ _ => True
  sent : Inference.Settled o (settled.program scope) t
  initial : t.Accepts o 0 settled.initial
  reached : ∀ (k : Nat) (b : Block), settled.graph.blocks[k]? = some b →
    ∃ entry, t.frames[k]? = some (some entry)

lemma exists_frame {p : BlockProgram} {frames : Array (Option Frame)}
    (hsize : frames.size = p.graph.blocks.size) {k : Nat} (hk : k ∉ p.deadBlocks frames) {b : Block}
    (hb : p.graph.blocks[k]? = some b) : ∃ entry, frames[k]? = some (some entry) := by
  rw [BlockProgram.mem_deadBlocks hsize] at hk
  have hlt : k < frames.size := hsize ▸ (Array.getElem?_eq_some_iff.mp hb).1
  rw [Array.getElem?_eq_getElem hlt] at hk ⊢
  cases hentry : frames[k] with
  | none => exact absurd (by rw [hentry]) hk
  | some entry => exact ⟨entry, rfl⟩

/-- A successful inference has reached a fixpoint. -/
theorem settle_fixpoint (hmerges : o.Merges scope) (hpool : o.Named pool)
    (hsize : m.code.size ≤ 65536)
    (hlocals : header.descriptor.parameterWords (!header.isStatic) ≤ m.maxLocals.toNat)
    (h : (m.settle facts header scope).outcome pool = (.ok settled, later)) :
    ∃ t, Fixpoint o settled scope m.maxLocals.toNat t ∧ t.pool = later := by
  obtain ⟨pool₁, s, hgraph, hinitial, hrun, hend⟩ := settle_eq_ok h
  obtain ⟨instructions, htiles⟩ := BlockGraph.tiles_of_partition hgraph
  obtain ⟨_, hnamed, _, hformed⟩ := MethodHeader.entryFrame_spec hlocals hinitial
  have hw : (m.program settled.graph scope).Wired o := htiles.wired rfl hmerges rfl hsize
  obtain ⟨hs, hsettled, hempty, haccepts⟩ := Inference.run_spec hw
    (Inference.madeBy_liveSite htiles hsize) (o.named_mono hnamed hpool) hformed hrun
  rcases hend with ⟨hdead, hmethod, hframes, rfl⟩ |
    ⟨exception, middle, p', s', t, hresumed, hmethod, hframes, rfl⟩
  · have hprogram : settled.program scope = m.program settled.graph scope := by
      rw [SettledMethod.program, hmethod]
    refine ⟨s, ⟨hframes.symm, hempty, ?_, ?_, haccepts, ?_⟩, rfl⟩
    · rw [hprogram]
      exact ⟨hs.frames_size, hs.named, fun k f hf => (hs.formed k f hf).mono fun _ _ => trivial⟩
    · rw [hprogram]
      exact hsettled
    · intro k b hb
      exact exists_frame hs.frames_size (by simp [hdead]) hb
  · obtain ⟨hretired, hw', hwidens, hs', hsettled'⟩ := BlockProgram.neutralize_spec
      (p := m.program settled.graph scope) hmerges hsize htiles hs hsettled hempty
      hresumed.exception_eq hresumed.neutralized
    obtain ⟨hwidens', ht, hsettled'', hempty'⟩ := Inference.settle_spec hw'
      ⟨fun _ _ _ _ _ => trivial, fun _ _ _ _ _ _ _ _ _ _ _ _ _ _ => trivial⟩ _ hs' hsettled'
      hresumed.ended
    have hscope' : p'.scope = scope := hretired.scope
    have hprogram : settled.program scope = p' := by
      rw [SettledMethod.program, MethodCode.program, hmethod, ← hscope']
      exact congrArg (BlockProgram.mk p'.code p'.handlers · p'.scope) hretired.graph.symm
    refine ⟨t, ⟨hframes.symm, hempty', hprogram ▸ ht, hprogram ▸ hsettled'',
      hwidens'.accepts (hwidens.accepts haccepts), ?_⟩, rfl⟩
    · intro k b hb
      have hentry : ∃ entry, s'.frames[k]? = some (some entry) := by
        by_cases hk : k ∈ (m.program settled.graph scope).deadBlocks s.frames
        · exact ⟨_, hretired.retired k b hk hb⟩
        · rw [hretired.kept k hk]
          exact exists_frame hs.frames_size hk hb
      obtain ⟨entry, hentry⟩ := hentry
      obtain ⟨entry', hentry', _⟩ := hwidens'.wider k entry hentry
      exact ⟨entry', hentry'⟩

lemma withStackMap_of_settle
    (h : (m.settle facts header scope).outcome pool = (.ok settled, later)) :
    (m.withStackMap facts header scope).outcome pool =
      (.ok ⟨settled.method, settled.entries, settled.deadBlocks⟩, later) :=
  Step.bind_eq_ok.mpr ⟨settled, later, h, rfl⟩

/-- Whatever stack map is inferred, its frames are a fixpoint. The frame at the start of the method
is absorbed by that of the first block, every block executes from its entry frame without an error,
and every frame that it sends on the way arrives at the start of a block and is absorbed there. -/
theorem withStackMap_postfixpoint {mapped : MappedCode} (hscope : scope.Lawful)
    (hpool : pool.WellNamed) (hsize : m.code.size ≤ 65536)
    (hlocals : header.descriptor.parameterWords (!header.isStatic) ≤ m.maxLocals.toNat)
    (h : (m.withStackMap facts header scope).outcome pool = (.ok mapped, later)) :
    ∃ settled, (m.settle facts header scope).outcome pool = (.ok settled, later) ∧
      mapped = ⟨settled.method, settled.entries, settled.deadBlocks⟩ ∧
      settled.Absorbs scope later 0 settled.initial ∧
      ∀ (k : Nat) (b : Block), settled.graph.blocks[k]? = some b →
        ∃ entry, settled.frames[k]? = some (some entry) ∧
          (settled.program scope).Propagates later (settled.Absorbs scope later) b.stop b.start
            entry := by
  obtain ⟨settled, _, hsettle, heq⟩ := Step.bind_eq_ok.mp h
  cases heq
  obtain ⟨t, hfix, rfl⟩ := settle_fixpoint hscope.merges hpool hsize hlocals hsettle
  have habsorbs : ∀ k f, t.Accepts hscope.order k f → settled.Absorbs scope t.pool k f := by
    rintro k f ⟨entry, hentry, hcovers⟩
    exact ⟨entry, hfix.frames_eq ▸ hentry,
      fun offset => Machine.merge_of_covers hscope hfix.valid.named offset hcovers⟩
  refine ⟨settled, hsettle, rfl, habsorbs 0 _ hfix.initial, fun k b hb => ?_⟩
  obtain ⟨entry, hentry⟩ := hfix.reached k b hb
  refine ⟨entry, hfix.frames_eq ▸ hentry, ?_⟩
  exact (hfix.sent k b entry hb hentry (by simp [hfix.waiting])).mono (.refl _) habsorbs
    (hfix.valid.formed k entry hentry)

/-- A method with a block that is never reached, which both of its handlers cover. They expect
different values in the only local variable. -/
def twoHandlers : MethodCode where
  code := #[0x03, 0x3b, 0x00, 0x0b, 0x43, 0x00, 0xb1, 0x00, 0xb1, 0x57, 0x1a, 0x57, 0xb1, 0x57, 0xb1]
  handlers := [⟨2, 3, 9, none⟩, ⟨5, 6, 13, none⟩, ⟨7, 9, 9, none⟩, ⟨7, 9, 13, none⟩]
  maxStack := 2
  maxLocals := 1

def twoHandlersFacts : ControlFacts := ⟨#[], #[7, 9, 13, 15]⟩

/-- A static method without parameters. -/
def plainHeader : MethodHeader := ⟨"run", ⟨[], none⟩, true⟩

/-- The handler that the unreached block did not borrow from ends up with an unusable variable. -/
lemma settle_twoHandlers :
    ∃ settled later, (twoHandlers.settle twoHandlersFacts plainHeader plainScope).outcome .empty =
        (.ok settled, later) ∧
      settled.method ≠ twoHandlers ∧
      settled.frames[3]? = some (some ⟨#[.top], [.object 2]⟩) := by
  have heval : ((twoHandlers.settle twoHandlersFacts plainHeader plainScope).outcome .empty).1.map
      (fun settled => (decide (settled.method = twoHandlers), settled.frames[3]?)) =
        .ok (false, some (some ⟨#[.top], [.object 2]⟩)) := by
    decide +kernel
  obtain ⟨settled, later, h, hvalues⟩ := Step.exists_of_map_eq_ok heval
  obtain ⟨hmethod, hframe⟩ := Prod.mk.inj hvalues
  exact ⟨settled, later, h, of_decide_eq_false hmethod, hframe⟩

theorem twoHandlers_postfixpoint :
    ∃ mapped later, (twoHandlers.withStackMap twoHandlersFacts plainHeader plainScope).outcome
        .empty = (.ok mapped, later) ∧
      ∃ settled, (twoHandlers.settle twoHandlersFacts plainHeader plainScope).outcome .empty =
          (.ok settled, later) ∧
        mapped = ⟨settled.method, settled.entries, settled.deadBlocks⟩ ∧
        settled.Absorbs plainScope later 0 settled.initial ∧
        ∀ (k : Nat) (b : Block), settled.graph.blocks[k]? = some b →
          ∃ entry, settled.frames[k]? = some (some entry) ∧
            (settled.program plainScope).Propagates later (settled.Absorbs plainScope later) b.stop
              b.start entry := by
  obtain ⟨settled, later, hsettle, _⟩ := settle_twoHandlers
  have h := withStackMap_of_settle hsettle
  exact ⟨_, later, h, withStackMap_postfixpoint lawful_plainScope ConstantPool.wellNamed_empty
    (by decide) (by decide) h⟩

/-- Frames are inferred, and yet some block does not execute from its entry frame or sends a frame that
is not absorbed where it arrives. -/
def Unabsorbed (m : MethodCode) (facts : ControlFacts) (header : MethodHeader) (scope : ClassScope)
    (pool : ConstantPool) : Prop :=
  ∃ settled later, (m.withStackMap facts header scope).outcome pool =
      (.ok ⟨settled.method, settled.entries, settled.deadBlocks⟩, later) ∧
    (m.settle facts header scope).outcome pool = (.ok settled, later) ∧
    ∃ (k : Nat) (b : Block) (entry : Frame), settled.graph.blocks[k]? = some b ∧
      settled.frames[k]? = some (some entry) ∧
      ¬(settled.program scope).Propagates later (settled.Absorbs scope later) b.stop b.start entry

section InterfaceSuperclass

/-- An interface that has a superclass, and a class that implements it. -/
def mixedScope : ClassScope :=
  ((plainScope.register "me/Base" (.plain .object [])).register "me/Shape"
    ⟨some "me/Base", [], true⟩).register "me/Circle" (.plain .object ["me/Shape"])

lemma wellDeclared_mixedScope : mixedScope.WellDeclared :=
  ((lawful_plainScope.wellDeclared.register (by decide +kernel)).register
    (by decide +kernel)).register (by decide +kernel)

/-- The first variable holds a circle, then a shape and then a base, and the handler sees them all. What
it makes of the circle and the shape is a shape, and of that and the base a base. -/
def widening : MethodCode where
  code := #[0x2b, 0x4b, 0x2c, 0x4b, 0xb1, 0x57, 0xb1]
  handlers := [⟨0, 5, 5, none⟩]
  maxStack := 1
  maxLocals := 3

def wideningFacts : ControlFacts := ⟨#[], #[5, 7]⟩

def wideningHeader : MethodHeader :=
  ⟨"run", ⟨[⟨0, .object "me/Circle"⟩, ⟨0, .object "me/Shape"⟩, ⟨0, .object "me/Base"⟩], none⟩, true⟩

lemma widening_unabsorbed :
    widening.Unabsorbed wideningFacts wideningHeader mixedScope .empty := by
  have heval : ((widening.settle wideningFacts wideningHeader mixedScope).outcome .empty).1.map
      (fun settled => (settled.graph.blocks, settled.frames, settled.method.handlers)) =
        .ok (#[⟨0, 5, [1], false⟩, ⟨5, 7, [], true⟩],
          #[some ⟨#[.object 2, .object 4, .object 6], []⟩,
            some ⟨#[.object 6, .object 4, .object 6], [.object 8]⟩], [⟨0, 5, 5, none⟩]) := by
    decide +kernel
  have hlater : ((⟨0, 5, 5, none⟩ : ExceptionHandler).caught.outcome
        ((widening.settle wideningFacts wideningHeader mixedScope).outcome .empty).2).1 =
          .ok (.object 8) ∧
      ((Machine.merge mixedScope 5 ⟨#[.object 2, .object 4, .object 6], [.object 8]⟩).outcome
        ⟨⟨#[.object 6, .object 4, .object 6], [.object 8]⟩,
          ((widening.settle wideningFacts wideningHeader mixedScope).outcome .empty).2⟩).1 =
            .ok true := by
    decide +kernel
  obtain ⟨settled, later, hsettle, hvalues⟩ := Step.exists_of_map_eq_ok heval
  rw [hsettle] at hlater
  obtain ⟨hcaught, hchanged⟩ := hlater
  simp only [Prod.mk.injEq] at hvalues
  obtain ⟨hblocks, hframes, hhandlers⟩ := hvalues
  have hhandler : ⟨0, 5, 5, none⟩ ∈ (settled.program mixedScope).handlers := by
    rw [SettledMethod.program, MethodCode.program, hhandlers]
    exact List.mem_singleton_self _
  refine ⟨settled, later, withStackMap_of_settle hsettle, hsettle, 0, ⟨0, 5, [1], false⟩,
    ⟨#[.object 2, .object 4, .object 6], []⟩, by rw [hblocks]; rfl, by rw [hframes]; rfl, ?_⟩
  intro hpropagates
  cases hpropagates with
  | falls hstop => exact absurd hstop (by decide)
  | instruction _ _ _ hsent =>
    obtain ⟨exception, hexception, k, b, hb, hstart, entry, hentry, habsorbs⟩ :=
      hsent _ hhandler rfl
    rw [hexception] at hcaught
    cases hcaught
    -- The frame that is sent first arrives at the handler, and a circle is no base.
    have hk : k = 1 := by
      have hb' : settled.graph.blocks[k]? = some b := hb
      rw [hblocks] at hb'
      match k, hb' with
      | 0, hb' =>
        cases hb'
        cases hstart
      | 1, _ => rfl
    subst hk
    rw [hframes] at hentry
    cases hentry
    rw [habsorbs 5] at hchanged
    cases hchanged

end InterfaceSuperclass

end MethodCode
end ClassAssembly
