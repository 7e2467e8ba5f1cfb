import ClassAssembly.Proofs.FreshObjects

/-! Code that is too long for its own offsets. Of the offset at which an object was made only sixteen
bits are kept, so that beyond 65536 bytes an object is taken for one that was made much earlier: the
instruction that seems to have made it may be blanked, and objects made at different places are mixed
up. -/
namespace ClassAssembly

namespace Machine.Site

variable {site : Site} {operand second : Int} {pool : ConstantPool} {made : UInt16}

/-- Making an object of a class that is among the constants. -/
lemma perform_new {m : Machine} {name : PoolIndex}
    (h : m.pool.get? (UInt16.ofInt operand) = some (.classRef name)) :
    (site.perform .new operand second).outcome m = (.ok (),
      ⟨⟨m.frame.locals, .uninitialized (UInt16.ofNat site.pc) :: m.frame.stack⟩, m.pool⟩) := by
  have hconstant : (site.constant operand).outcome m = (.ok (.classRef name), m) := by
    rw [constant, Step.outcome_bind, Step.outcome_get]
    simp only [h, Step.outcome_pure]
  have hdiscard : (discard (site.classIndex operand) : Step Machine Unit).outcome m =
      (.ok (), m) := by
    rw [Step.discard_eq]
    exact Step.bind_eq_ok.mpr ⟨_, m, Step.bind_eq_ok.mpr ⟨_, m, hconstant, rfl⟩, rfl⟩
  exact Step.bind_eq_ok.mpr ⟨_, m, hdiscard, rfl⟩

lemma initialized_of_new {high low : UInt8} (hnew : site.code[made.toNat]? = some Opcode.new.byte)
    (hhigh : site.code[made.toNat + 1]? = some high) (hlow : site.code[made.toNat + 2]? = some low)
    (m : Machine) : (site.initialized (.uninitialized made)).outcome m =
      (.ok (.object (UInt16.ofNat (high.toNat * 256 + low.toNat))), m) := by
  simp only [initialized, hnew, hhigh, hlow]
  rfl

/-- An object becomes initialized only if the instruction at its site makes objects. -/
lemma new_of_initialized {m m' : Machine} {t : VerificationType}
    (h : (site.initialized (.uninitialized made)).outcome m = (.ok t, m')) :
    site.code[made.toNat]? = some Opcode.new.byte := by
  rw [initialized] at h
  split at h
  · rename_i op _ _ hop _ _
    split at h
    · rename_i hnew
      rw [hop, ← hnew]
    · cases h
  · cases h

/-- A constructor without parameters, called on an object that waits for it, does no more than to
initialize the object. -/
lemma perform_constructor_eq_ok_iff {ref : MemberRef} {locals : Array VerificationType}
    {stack : List VerificationType} {m : Machine}
    (href : pool.memberRef? (UInt16.ofInt operand) = some ref)
    (hname : ref.name = ClassName.constructor)
    (hdescriptor : MethodDescriptor.parse ref.descriptor = .ok ⟨[], none⟩) :
    (site.perform .invoke operand second).outcome ⟨⟨locals, .uninitialized made :: stack⟩, pool⟩ =
        (.ok (), m) ↔
      ∃ t m₁, (site.initialized (.uninitialized made)).outcome ⟨⟨locals, stack⟩, pool⟩ = (.ok t, m₁) ∧
        m = ⟨m₁.frame.replace (.uninitialized made) t, m₁.pool⟩ := by
  have hmember : (site.member operand).outcome ⟨⟨locals, .uninitialized made :: stack⟩, pool⟩ =
      (.ok ref, ⟨⟨locals, .uninitialized made :: stack⟩, pool⟩) := by
    rw [member, Step.outcome_bind, Step.outcome_get]
    simp only [href, Step.outcome_pure]
  have hmethod : (site.methodType operand).outcome ⟨⟨locals, .uninitialized made :: stack⟩, pool⟩ =
      (.ok (ref, ⟨[], none⟩), ⟨⟨locals, .uninitialized made :: stack⟩, pool⟩) := by
    rw [methodType, Step.outcome_bind, hmember]
    simp only [hdescriptor, Step.outcome_pure]
  have hpop : (site.popAs .reference).outcome ⟨⟨locals, .uninitialized made :: stack⟩, pool⟩ =
      (.ok (.uninitialized made), ⟨⟨locals, stack⟩, pool⟩) := rfl
  constructor
  · intro h
    obtain ⟨_, _, hmethod', h⟩ := Step.bind_eq_ok.mp h
    rw [hmethod] at hmethod'
    cases hmethod'
    obtain ⟨_, _, hpops, h⟩ := Step.bind_eq_ok.mp h
    cases hpops
    obtain ⟨_, _, hreceive, hpush⟩ := Step.bind_eq_ok.mp h
    cases hpush
    obtain ⟨_, _, hpop', hrest⟩ := Step.bind_eq_ok.mp hreceive
    rw [hpop] at hpop'
    cases hpop'
    rw [if_pos hname] at hrest
    obtain ⟨t, m₁, hinitialized, hmodify⟩ := Step.bind_eq_ok.mp hrest
    cases hmodify
    exact ⟨t, m₁, hinitialized, rfl⟩
  · rintro ⟨t, m₁, hinitialized, rfl⟩
    have hreceive : (site.receive ref.name).outcome ⟨⟨locals, .uninitialized made :: stack⟩, pool⟩ =
        (.ok (), ⟨m₁.frame.replace (.uninitialized made) t, m₁.pool⟩) := by
      refine Step.bind_eq_ok.mpr ⟨_, _, hpop, ?_⟩
      rw [if_pos hname]
      exact Step.bind_eq_ok.mpr ⟨t, m₁, hinitialized, rfl⟩
    exact Step.bind_eq_ok.mpr ⟨_, _, hmethod, Step.bind_eq_ok.mpr
      ⟨(), _, rfl, Step.bind_eq_ok.mpr ⟨(), _, hreceive, rfl⟩⟩⟩

end Machine.Site

namespace BlockProgram

variable {p : BlockProgram} {pool : ConstantPool} {Accepts : Nat → Frame → Prop} {stop pc : Nat}
  {frame : Frame}

/-- Code that makes an object and calls its constructor at once can be executed only if objects are
made at the offset that is left of its own in sixteen bits. -/
theorem Propagates.new_at_site {making call : Instruction} {traits : OpcodeTraits} {ref : MemberRef}
    (h : p.Propagates pool Accepts stop pc frame)
    (hmaking : Code.decode p.code pc = .ok making) (hnew : making.opcode = .new)
    (hcall : Code.decode p.code (pc + making.length) = .ok call)
    (htraits : call.opcode.traits = .ok traits) (hinvoke : traits.effect = .invoke)
    (hlt : pc + making.length < stop)
    (href : pool.memberRef? (UInt16.ofInt call.first) = some ref)
    (hname : ref.name = ClassName.constructor)
    (hdescriptor : MethodDescriptor.parse ref.descriptor = .ok ⟨[], none⟩) :
    p.code[pc % 65536]? = some Opcode.new.byte := by
  cases h with
  | falls hpc => omega
  | @instruction _ _ made _ traits₁ _ _ hdecode htraits₁ _ hexecute _ _ hnext =>
    rw [hmaking] at hdecode
    cases hdecode
    rw [hnew, Opcode.traits_new] at htraits₁
    cases htraits₁
    have hmade := Machine.Site.execute_new hnew hexecute
    simp only at hmade
    subst hmade
    cases hnext rfl with
    | falls hpc => omega
    | instruction _ hdecode _ _ hexecute =>
      rw [hcall] at hdecode
      cases hdecode
      rw [Machine.Site.execute_of_traits htraits, hinvoke,
        Machine.Site.perform_constructor_eq_ok_iff href hname hdescriptor] at hexecute
      obtain ⟨_, _, hinitialized, _⟩ := hexecute
      have hbyte := Machine.Site.new_of_initialized hinitialized
      rwa [UInt16.toNat_ofNat'] at hbyte

end BlockProgram

namespace Code

/-- A stretch of `nop`, and the instructions after it. -/
lemma Walk.nops {code : Array UInt8} {rest : List Nat} {pc : Nat} (n : Nat)
    (hnops : ∀ i, pc ≤ i → i < pc + n → code[i]? = some Opcode.nop.byte)
    (hrest : Walk code (pc + n) rest) : Walk code pc (List.range' pc n ++ rest) := by
  induction n generalizing pc with
  | zero => exact hrest
  | succ n ih =>
    have hbyte := hnops pc (Nat.le_refl _) (by omega)
    rw [show pc + (n + 1) = pc + 1 + n by omega] at hnops hrest
    exact .step (Array.getElem?_eq_some_iff.mp hbyte).1 (decode_plain hbyte Opcode.traits_nop rfl)
      (ih (fun i hi => hnops i (Nat.le_of_succ_le hi)) hrest)

lemma JumpsTo.mem_targets {code : Array UInt8} {pc : Nat} {insn : Instruction}
    {traits : OpcodeTraits} {targets : List Int} {target : Int} (h : JumpsTo code pc target)
    (hdecode : decode code pc = .ok insn) (htraits : insn.opcode.traits = .ok traits)
    (htargets : jumpTargets code pc insn traits.flow = .ok targets) : target ∈ targets := by
  obtain ⟨_, _, _, hdecode', htraits', htargets', hmem⟩ := h
  rw [hdecode] at hdecode'
  cases hdecode'
  rw [htraits] at htraits'
  cases htraits'
  rw [htargets] at htargets'
  cases htargets'
  exact hmem

end Code

namespace MethodCode

section Stages

variable {m : MethodCode} {facts : ControlFacts} {header : MethodHeader} {scope : ClassScope}
  {pool pool₁ middle : ConstantPool} {graph : BlockGraph} {initial : Frame} {s : Inference}
  {exception : VerificationType}

lemma settle_of_infer {settled : SettledMethod} {t : Inference}
    (hgraph : BlockGraph.partition m.code facts m.handlers = .ok graph)
    (hinitial : (header.entryFrame scope m.maxLocals.toNat).outcome pool = (.ok initial, pool₁))
    (h : (m.infer graph initial scope).outcome (.unreached graph.blocks.size pool₁) =
      (.ok settled, t)) : (m.settle facts header scope).outcome pool = (.ok settled, t.pool) := by
  refine Step.bind_eq_ok.mpr ⟨graph, pool, ?_, Step.bind_eq_ok.mpr ⟨initial, pool₁, hinitial, ?_⟩⟩
  · rw [Step.outcome_ofExcept, hgraph]
  · rw [Step.outcome_ofOutcome, h]

/-- Inference ends with the first run if that has reached all blocks. -/
lemma settle_of_reached (hgraph : BlockGraph.partition m.code facts m.handlers = .ok graph)
    (hinitial : (header.entryFrame scope m.maxLocals.toNat).outcome pool = (.ok initial, pool₁))
    (hrun : (Inference.run (m.program graph scope) initial).outcome
      (.unreached graph.blocks.size pool₁) = (.ok (), s))
    (hdead : (m.program graph scope).deadBlocks s.frames = []) :
    (m.settle facts header scope).outcome pool = (.ok ⟨m, graph, initial, s.frames, 0⟩, s.pool) := by
  refine settle_of_infer hgraph hinitial ?_
  refine Step.bind_eq_ok.mpr ⟨(), s, hrun, Step.bind_eq_ok.mpr ⟨s, s, rfl, ?_⟩⟩
  rw [hdead]
  rfl

/-- The second run, put together again. -/
lemma settle_of_resumed {p' : BlockProgram} {s' t : Inference}
    (hgraph : BlockGraph.partition m.code facts m.handlers = .ok graph)
    (hinitial : (header.entryFrame scope m.maxLocals.toNat).outcome pool = (.ok initial, pool₁))
    (hrun : (Inference.run (m.program graph scope) initial).outcome
      (.unreached graph.blocks.size pool₁) = (.ok (), s))
    (hdead : (m.program graph scope).deadBlocks s.frames ≠ [])
    (h : Resumed m graph scope (Inference.rounds (m.program graph scope) initial.locals.size) s
      exception middle p' s' t) :
    (m.settle facts header scope).outcome pool =
      (.ok ⟨⟨p'.code, p'.handlers, max m.maxStack 1, m.maxLocals⟩, graph, initial, t.frames,
        ((m.program graph scope).deadBlocks s.frames).length⟩, t.pool) := by
  have hconstant : (Inference.constants (VerificationType.ofClass .throwable)).outcome s =
      (.ok exception, { s with pool := middle }) := by
    simp only [Inference.constants, Step.outcome_ofOutcome, h.exception_eq]
  refine settle_of_infer hgraph hinitial ?_
  refine Step.bind_eq_ok.mpr ⟨(), s, hrun, Step.bind_eq_ok.mpr ⟨s, s, rfl, ?_⟩⟩
  split
  · rename_i hnil
    exact absurd hnil hdead
  · refine Step.bind_eq_ok.mpr ⟨exception, _, hconstant, Step.bind_eq_ok.mpr ⟨p', s', ?_, ?_⟩⟩
    · rw [Step.outcome_ofOutcome, h.neutralized]
    · exact Step.bind_eq_ok.mpr ⟨(), t, h.ended, rfl⟩

/-- A method without handlers goes through once its first run has, however long its code is: the
blanked blocks have nowhere to throw to. -/
theorem settle_of_run (hhandlers : m.handlers = [])
    (hgraph : BlockGraph.partition m.code facts m.handlers = .ok graph)
    (hinitial : (header.entryFrame scope m.maxLocals.toNat).outcome pool = (.ok initial, pool₁))
    (hrun : (Inference.run (m.program graph scope) initial).outcome
      (.unreached graph.blocks.size pool₁) = (.ok (), s))
    (hempty : s.worklist.toList = []) (hframes : s.frames.size = graph.blocks.size)
    (hdead : (m.program graph scope).deadBlocks s.frames ≠ [])
    (hexception : (VerificationType.ofClass .throwable).outcome s.pool = (.ok exception, middle)) :
    ∃ settled s', (m.settle facts header scope).outcome pool = (.ok settled, middle) ∧
      settled.graph = graph ∧ settled.frames = s'.frames ∧
      BlockProgram.Retired (m.program graph scope) { s with pool := middle } m.maxLocals.toNat
        exception ((m.program graph scope).deadBlocks s.frames) (settled.program scope) s' := by
  obtain ⟨instructions, htiles⟩ := BlockGraph.tiles_of_partition hgraph
  obtain ⟨i, rfl, _⟩ := VerificationType.ofClass_eq_ok hexception
  have hretired := BlockProgram.retired_neutralize (p := m.program graph scope)
    (s := { s with pool := middle }) htiles hframes m.maxLocals.toNat (.object i)
  rcases hneutralize : (m.program graph scope).neutralize m.maxLocals.toNat (.object i)
    { s with pool := middle } with ⟨p', s'⟩
  have hlive : BlockProgram.mk m.code (BlockProgram.liveHandlers graph s.frames m.handlers) graph
      scope = m.program graph scope := by
    rw [program, hhandlers]
    rfl
  rw [hneutralize] at hretired
  simp only [program] at hretired
  rw [hlive] at hretired
  have hnone : p'.handlers = [] := hretired.handlers.trans hhandlers
  have hblocks : ∀ k ∈ (m.program graph scope).deadBlocks s.frames,
      ∃ b, graph.blocks[k]? = some b ∧ b.start < b.stop := by
    intro k hk
    have hb := Array.getElem?_eq_getElem (List.mem_range.mp (List.mem_filter.mp hk).1)
    exact ⟨_, hb, (htiles.bounds hb).1⟩
  obtain ⟨t, hend, hsame, hpool⟩ := hretired.settle_of_sent hempty hblocks
    (fun _ _ _ _ pc _ _ _ => Inference.sendToHandlers_nil hnone pc _ _)
    (Inference.rounds (m.program graph scope) initial.locals.size)
    (Nat.lt_of_le_of_lt (BlockProgram.length_deadBlocks_le _ _) (Inference.size_lt_rounds _ _))
  have hsettle := settle_of_resumed hgraph hinitial hrun hdead ⟨hexception, hneutralize, hend⟩
  rw [show t.pool = middle from hpool.trans hretired.pool] at hsettle
  have hprogram : BlockProgram.mk p'.code p'.handlers graph scope = p' := by
    rw [← show p'.graph = graph from hretired.graph, ← show p'.scope = scope from hretired.scope]
  refine ⟨_, s', hsettle, rfl, hsame, ?_⟩
  change BlockProgram.Retired _ _ _ _ _ ⟨p'.code, p'.handlers, graph, scope⟩ s'
  rwa [hprogram]

end Stages

open Code (Holds Walk decode holds_append holds_of_getElem?)

/-- Code that jumps over the making of an object to a long stretch of `nop`, and has a tail after it.
The tail starts 65536 bytes after the instruction that makes the object. -/
def longBytes (tail : Bytes) : Bytes :=
  [0xa7, 0, 7] ++ -- goto
  [0xbb, 0, 2] ++ -- new
  [0xb1] ++ -- return
  List.replicate 65532 Opcode.nop.byte ++ tail

@[irreducible] def longCode (tail : Bytes) : Array UInt8 := (longBytes tail).toArray

lemma size_longCode (tail : Bytes) : (longCode tail).size = 65539 + tail.length := by
  unfold longCode longBytes
  simp only [List.size_toArray, List.length_append, List.length_replicate, List.length_cons,
    List.length_nil]

lemma holds_longCode (tail : Bytes) : Holds (longCode tail) 0 [0xa7, 0, 7] ∧
    Holds (longCode tail) 3 [0xbb, 0, 2] ∧ Holds (longCode tail) 6 [0xb1] ∧
    Holds (longCode tail) 7 (List.replicate 65532 Opcode.nop.byte) ∧
    Holds (longCode tail) 65539 tail := by
  have h : Holds (longCode tail) 0 (longBytes tail) := by
    refine holds_of_getElem? fun i _ => ?_
    unfold longCode
    rw [Nat.zero_add, List.getElem?_toArray]
  obtain ⟨h, htail⟩ := holds_append.mp h
  obtain ⟨h, hnops⟩ := holds_append.mp h
  obtain ⟨h, hreturn⟩ := holds_append.mp h
  obtain ⟨hgoto, hnew⟩ := holds_append.mp h
  simp only [List.length_append, List.length_replicate, List.length_cons, List.length_nil]
    at htail hnops hreturn hnew
  exact ⟨hgoto, hnew, hreturn, hnops, htail⟩

lemma nop_longCode (tail : Bytes) {i : Nat} (hlo : 7 ≤ i) (hhi : i < 65539) :
    (longCode tail)[i]? = some Opcode.nop.byte := by
  obtain ⟨_, _, _, hnops, _⟩ := holds_longCode tail
  have hget := hnops.getElem? (i := i - 7) (by rw [List.length_replicate]; omega)
  rwa [List.getElem?_replicate_of_lt (by omega), Nat.add_sub_cancel' hlo] at hget

/-- An instruction with an operand of two bytes has a length. -/
lemma long_length_pos : 0 < 3 := Nat.succ_pos 2

def making : Instruction := ⟨.new, 3, false, 2, 0, long_length_pos⟩

def leaving : Instruction := ⟨.returnVoid, 1, false, 0, 0, Nat.one_pos⟩

def skipping : Instruction := ⟨.goto, 3, false, 7, 0, long_length_pos⟩

def skippingTraits : OpcodeTraits := ⟨"GOTO", .branch, some 0, .jump, .fixed [] none⟩

def leavingTraits : OpcodeTraits := ⟨"RETURN", .plain, some 0, .returns, .fixed [] none⟩

lemma traits_longCode : skipping.opcode.traits = .ok skippingTraits ∧
    leaving.opcode.traits = .ok leavingTraits := by
  decide +kernel

lemma traits_making : making.opcode.traits = .ok ⟨"NEW", .constant, some 1, .normal, .new⟩ :=
  Opcode.traits_new

lemma decode_making {code : Array UInt8} {pc : Nat} (h : Holds code pc [0xbb, 0, 2]) :
    decode code pc = .ok making :=
  Code.decode_unsigned Opcode.traits_new rfl h (by decide) (by decide)

lemma decode_leaving {code : Array UInt8} {pc : Nat} (h : Holds code pc [0xb1]) :
    decode code pc = .ok leaving :=
  Code.decode_plain h.1 traits_longCode.2 rfl

lemma decode_longCode (tail : Bytes) : decode (longCode tail) 0 = .ok skipping ∧
    decode (longCode tail) 3 = .ok making ∧ decode (longCode tail) 6 = .ok leaving := by
  obtain ⟨hgoto, hnew, hreturn, _⟩ := holds_longCode tail
  exact ⟨Code.decode_signed traits_longCode.1 rfl hgoto (by decide) (by decide), decode_making hnew,
    decode_leaving hreturn⟩

/-- Where the instructions start, if those of the tail start at these offsets. -/
def longStarts (rest : List Nat) : List Nat := 0 :: 3 :: 6 :: 7 :: (List.range' 8 65531 ++ rest)

lemma walk_longCode {tail : Bytes} {rest : List Nat} (hrest : Walk (longCode tail) 65539 rest) :
    Walk (longCode tail) 0 (longStarts rest) := by
  obtain ⟨hgoto, hnew, hreturn⟩ := decode_longCode tail
  have hsize := size_longCode tail
  have hnops : Walk (longCode tail) 7 (List.range' 7 65532 ++ rest) :=
    Walk.nops 65532 (fun i hlo hhi => nop_longCode tail hlo hhi) hrest
  have hreturn' : Walk (longCode tail) 6 (6 :: (List.range' 7 65532 ++ rest)) :=
    .step (by omega) hreturn hnops
  have hnew' : Walk (longCode tail) 3 (3 :: 6 :: (List.range' 7 65532 ++ rest)) :=
    .step (by omega) hnew hreturn'
  exact .step (by omega) hgoto hnew'

/-- The blocks of the code: the jump, what it jumps over, and the rest. -/
structure LongGraph (tail : Bytes) (b₀ b₁ b₂ : Block) : Prop where
  first : b₀.start = 0 ∧ b₀.stop = 3
  middle : b₁.start = 3 ∧ b₁.stop = 7
  last : b₂.start = 7 ∧ b₂.stop = (longCode tail).size
  middle_eq : BlockGraph.startingAt? ⟨#[b₀, b₁, b₂]⟩ 3 = some 1
  last_eq : BlockGraph.startingAt? ⟨#[b₀, b₁, b₂]⟩ 7 = some 2

lemma filter_longStarts {tail : Bytes} {rest cuts : List Nat}
    (hrest : Walk (longCode tail) 65539 rest)
    (hcuts : ∀ pc, pc ∈ cuts ↔ pc = 0 ∨ pc = 3 ∨ pc = 7 ∨ pc = (longCode tail).size) :
    (longStarts rest).filter (fun pc => cuts.contains pc) = [0, 3, 7] := by
  have hsize := size_longCode tail
  have hnops : (List.range' 8 65531).filter (fun pc => cuts.contains pc) = [] := by
    refine List.filter_eq_nil_iff.mpr fun pc hpc => ?_
    rw [List.mem_range'_1] at hpc
    rw [List.contains_iff_mem, hcuts]
    omega
  have htail : rest.filter (fun pc => cuts.contains pc) = [] := by
    refine List.filter_eq_nil_iff.mpr fun pc hpc => ?_
    have hbounds := hrest.bounds pc hpc
    rw [List.contains_iff_mem, hcuts]
    omega
  have hsix : 6 ≠ (longCode tail).size := by omega
  rw [longStarts]
  simp only [List.filter_cons, List.filter_append, hnops, htail, List.contains_iff_mem, hcuts]
  simp [hsix]

/-- Cutting this code where the jumps lead to and after transfers of control gives three blocks. -/
lemma partition_longCode {tail : Bytes} {rest : List Nat} (facts : ControlFacts)
    (hrest : Walk (longCode tail) 65539 rest)
    (hcuts : ∀ pc, pc ∈ 0 :: facts.targets [] ++ facts.blockStarts.toList ↔
      pc = 0 ∨ pc = 3 ∨ pc = 7 ∨ pc = (longCode tail).size)
    (hjumps : ∀ jump ∈ facts.jumps, jump.2 = 3 ∨ jump.2 = 7) :
    ∃ b₀ b₁ b₂, LongGraph tail b₀ b₁ b₂ ∧
      BlockGraph.partition (longCode tail) facts [] = .ok ⟨#[b₀, b₁, b₂]⟩ := by
  have hwalk := walk_longCode hrest
  cases h : BlockGraph.partition (longCode tail) facts [] with
  | error e =>
    cases BlockGraph.rejects_of_partition h hwalk with
    | @jump source target hjump hastray =>
      rcases hjumps _ hjump with rfl | rfl <;> simp [longStarts] at hastray
    | range hhandler => cases hhandler
    | entry hhandler => cases hhandler
    | @blockStart pc hstart hlt hastray =>
      have hmem := (hcuts pc).mp (List.mem_append_right _ (Array.mem_toList_iff.mpr hstart))
      rcases hmem with rfl | rfl | rfl | rfl <;> simp [longStarts] at hastray hlt
  | ok g =>
    obtain ⟨_, htiles⟩ := BlockGraph.tiles_of_partition h
    obtain ⟨_, _, hstarts, hfilter, hblocks⟩ := BlockGraph.partition_eq_ok h
    rw [Code.starts_eq_ok_iff.mpr hwalk] at hstarts
    cases hstarts
    rw [filter_longStarts hrest hcuts] at hfilter
    rw [hfilter] at hblocks
    obtain ⟨⟨blocks⟩⟩ := g
    cases hblocks with
    | @cons _ b₀ _ _ h₀ hblocks =>
      cases hblocks with
      | @cons _ b₁ _ _ h₁ hblocks =>
        cases hblocks with
        | @cons _ b₂ _ _ h₂ hblocks =>
          cases hblocks
          have hmiddle := BlockGraph.startingAt?_of_start htiles
            (show #[b₀, b₁, b₂][1]? = some b₁ from rfl)
          have hlast := BlockGraph.startingAt?_of_start htiles
            (show #[b₀, b₁, b₂][2]? = some b₂ from rfl)
          rw [show b₁.start = 3 from h₁.1] at hmiddle
          rw [show b₂.start = 7 from h₂.1] at hlast
          exact ⟨b₀, b₁, b₂, ⟨⟨h₀.1, h₀.2.1⟩, ⟨h₁.1, h₁.2.1⟩, ⟨h₂.1, h₂.2.1⟩, hmiddle, hlast⟩, rfl⟩

def longMethod (tail : Bytes) : MethodCode := ⟨longCode tail, [], 1, 0⟩

abbrev longProgram (tail : Bytes) (b₀ b₁ b₂ : Block) : BlockProgram :=
  (longMethod tail).program ⟨#[b₀, b₁, b₂]⟩ plainScope

/-- A frame without local variables and with nothing on the stack. -/
def bareFrame : Frame := ⟨#[], []⟩

lemma entryFrame_plainHeader (pool : ConstantPool) :
    (plainHeader.entryFrame plainScope 0).outcome pool = (.ok bareFrame, pool) := rfl

section Runs

variable {tail : Bytes} {b₀ b₁ b₂ : Block} {pool : ConstantPool}

lemma sendToHandlers_longProgram (pc : Nat) (frame : Frame) (s : Inference) :
    (Inference.sendToHandlers (longProgram tail b₀ b₁ b₂) pc frame).outcome s = (.ok (), s) :=
  Inference.sendToHandlers_nil rfl pc frame s

/-- The first block sends its frame on to the last one. -/
lemma executeBlock_first (hgraph : LongGraph tail b₀ b₁ b₂) :
    (Inference.executeBlock (longProgram tail b₀ b₁ b₂) 0).outcome
        ⟨#[some bareFrame, none, none], .empty, pool⟩ =
      (.ok (), ⟨#[some bareFrame, none, some bareFrame], ⟨[], [2]⟩, pool⟩) := by
  have hexecute : (Machine.Site.execute ⟨0, longCode tail, plainScope⟩ skipping).outcome
      ⟨bareFrame, pool⟩ = (.ok (), ⟨bareFrame, pool⟩) := by
    rw [Machine.Site.execute_of_traits traits_longCode.1]
    rfl
  have hsend : ([(7 : Int)].forM fun target =>
      Inference.send (longProgram tail b₀ b₁ b₂) 0 target bareFrame).outcome
        ⟨#[some bareFrame, none, none], .empty, pool⟩ =
      (.ok (), ⟨#[some bareFrame, none, some bareFrame], ⟨[], [2]⟩, pool⟩) := by
    simp only [List.forM, Step.outcome_bind, Inference.send, program, hgraph.last_eq]
    rfl
  rw [Inference.executeBlock_eq (show (longProgram tail b₀ b₁ b₂).graph.blocks[0]? = some b₀ from rfl)
    rfl, hgraph.first.1, hgraph.first.2]
  exact Inference.executeFrom_instruction (by decide) (decode_longCode tail).1
    (sendToHandlers_longProgram 0 bareFrame ⟨#[some bareFrame, none, none], .empty, pool⟩) hexecute
    traits_longCode.1 rfl hsend

/-- The last block goes through to the tail. -/
lemma executeBlock_last (hgraph : LongGraph tail b₀ b₁ b₂) {frames : Array (Option Frame)}
    (hframe : frames[2]? = some (some bareFrame)) (worklist : Worklist) :
    (Inference.executeBlock (longProgram tail b₀ b₁ b₂) 2).outcome ⟨frames, worklist, pool⟩ =
      (Inference.executeFrom (longProgram tail b₀ b₁ b₂) 2 (longCode tail).size 65539
        bareFrame).outcome ⟨frames, worklist, pool⟩ := by
  rw [Inference.executeBlock_eq (show (longProgram tail b₀ b₁ b₂).graph.blocks[2]? = some b₂ from rfl)
    hframe, hgraph.last.1, hgraph.last.2]
  exact Inference.executeFrom_nops 65532 (fun i hlo hhi => nop_longCode tail hlo hhi)
    (fun i _ _ => sendToHandlers_longProgram i _ _) (by rw [size_longCode]; omega)

/-- The run comes to the tail of the code first. -/
lemma run_longProgram (hgraph : LongGraph tail b₀ b₁ b₂) {s : Inference}
    (htail : (Inference.executeFrom (longProgram tail b₀ b₁ b₂) 2 (longCode tail).size 65539
      bareFrame).outcome ⟨#[some bareFrame, none, some bareFrame], .empty, pool⟩ = (.ok (), s)) :
    ∃ n, (Inference.run (longProgram tail b₀ b₁ b₂) bareFrame).outcome (.unreached 3 pool) =
      (Inference.settle (longProgram tail b₀ b₁ b₂) (n + 2)).outcome s := by
  have hrounds := Inference.size_lt_rounds (longProgram tail b₀ b₁ b₂) bareFrame.locals.size
  obtain ⟨n, hn⟩ := Nat.exists_eq_add_of_le' (show 4 ≤ Inference.rounds
    (longProgram tail b₀ b₁ b₂) bareFrame.locals.size from hrounds)
  have hlast := (executeBlock_last hgraph
    (show #[some bareFrame, none, some bareFrame][2]? = _ from rfl) .empty).trans htail
  have hentry : (Inference.mergeEntry (longProgram tail b₀ b₁ b₂) 0 bareFrame).outcome
      (.unreached 3 pool) = (.ok (), ⟨#[some bareFrame, none, none], ⟨[], [0]⟩, pool⟩) := rfl
  refine ⟨n, ?_⟩
  rw [Inference.run, Step.outcome_bind, hentry, hn]
  simp only
  rw [Inference.settle_next rfl (executeBlock_first hgraph), Inference.settle_next rfl hlast]

end Runs

/-- Makes an object and calls its constructor. -/
def constructing : Bytes := [0xbb, 0, 2] ++ [0xb7, 0, 6] ++ [0xb1]

def constructingFacts : ControlFacts := ⟨#[(0, 7)], #[3, 7, 65546]⟩

/-- Its second constant is a class, and the sixth one is the constructor of that class. -/
def longPool : ConstantPool := .after [.methodRef "java/lang/Object" "<init>" "()V" false]

def calling : Instruction := ⟨.invokespecial, 3, false, 6, 0, long_length_pos⟩

def callingTraits : OpcodeTraits := ⟨"INVOKESPECIAL", .constant, none, .normal, .invoke⟩

lemma traits_calling : calling.opcode.traits = .ok callingTraits := by decide +kernel

lemma decode_constructing : decode (longCode constructing) 65539 = .ok making ∧
    decode (longCode constructing) 65542 = .ok calling ∧
    decode (longCode constructing) 65545 = .ok leaving := by
  obtain ⟨_, _, _, _, htail⟩ := holds_longCode constructing
  obtain ⟨h, hreturn⟩ := holds_append.mp htail
  obtain ⟨hnew, hcall⟩ := holds_append.mp h
  exact ⟨decode_making hnew, Code.decode_unsigned traits_calling rfl hcall (by decide) (by decide),
    decode_leaving hreturn⟩

lemma walk_constructing : Walk (longCode constructing) 65539 [65539, 65542, 65545] := by
  obtain ⟨hnew, hcall, hreturn⟩ := decode_constructing
  have hsize : (longCode constructing).size = 65546 := size_longCode constructing
  exact .step (by omega) hnew (.step (by simp only [making]; omega) hcall
    (.step (by simp only [making, calling]; omega) hreturn
      (.stop (by simp only [making, calling, leaving]; omega))))

/-- The constants that the code refers to. -/
structure LinksConstructor (pool : ConstantPool) : Prop where
  made : ∃ name, pool.get? (UInt16.ofInt making.first) = some (.classRef name)
  called : pool.memberRef? (UInt16.ofInt calling.first) =
    some ⟨2, .object, ClassName.constructor, "()V", false⟩

lemma parse_noParameters : MethodDescriptor.parse "()V" = .ok ⟨[], none⟩ := by decide +kernel

/-- As long as the instruction that is jumped over is there, the tail can be executed. -/
lemma executeFrom_constructing {b₀ b₁ b₂ : Block} {pool : ConstantPool}
    (hpool : LinksConstructor pool) (frames : Array (Option Frame)) (worklist : Worklist) :
    (Inference.executeFrom (longProgram constructing b₀ b₁ b₂) 2 (longCode constructing).size 65539
      bareFrame).outcome ⟨frames, worklist, pool⟩ = (.ok (), ⟨frames, worklist, pool⟩) := by
  obtain ⟨hnew, hcall, hreturn⟩ := decode_constructing
  obtain ⟨_, ⟨hop, hhigh, hlow, _⟩, _⟩ := holds_longCode constructing
  obtain ⟨name, hclass⟩ := hpool.made
  have hsize : (longCode constructing).size = 65546 := size_longCode constructing
  have hmade : (Machine.Site.execute ⟨65539, longCode constructing, plainScope⟩ making).outcome
      ⟨bareFrame, pool⟩ = (.ok (), ⟨⟨#[], [.uninitialized 3]⟩, pool⟩) := by
    rw [Machine.Site.execute_of_traits traits_making]
    exact Machine.Site.perform_new hclass
  have hcalled : (Machine.Site.execute ⟨65542, longCode constructing, plainScope⟩ calling).outcome
      ⟨⟨#[], [.uninitialized 3]⟩, pool⟩ = (.ok (), ⟨bareFrame, pool⟩) := by
    rw [Machine.Site.execute_of_traits traits_calling]
    refine (Machine.Site.perform_constructor_eq_ok_iff hpool.called rfl parse_noParameters).mpr
      ⟨_, _, Machine.Site.initialized_of_new hop hhigh hlow _, ?_⟩
    simp [Frame.replace, bareFrame]
  have hleft : (Machine.Site.execute ⟨65545, longCode constructing, plainScope⟩ leaving).outcome
      ⟨bareFrame, pool⟩ = (.ok (), ⟨bareFrame, pool⟩) := by
    rw [Machine.Site.execute_of_traits traits_longCode.2]
    rfl
  have hnone (pc : Nat) (frame : Frame) :=
    @sendToHandlers_longProgram constructing b₀ b₁ b₂ pc frame ⟨frames, worklist, pool⟩
  rw [Inference.executeFrom_next (by omega) hnew (hnone 65539 bareFrame) hmade traits_making rfl
      (show _ = 65542 from rfl),
    Inference.executeFrom_next (by omega) hcall (hnone 65542 ⟨#[], [.uninitialized 3]⟩) hcalled
      traits_calling rfl (show _ = 65545 from rfl)]
  exact Inference.executeFrom_instruction (by omega) hreturn (hnone 65545 bareFrame) hleft
    traits_longCode.2 rfl rfl

/-- The constructor of the tail is found before and after the class of all exceptions became a
constant. -/
lemma links_longPool : LinksConstructor longPool ∧
    ∃ i later, (VerificationType.ofClass .throwable).outcome longPool = (.ok (.object i), later) ∧
      LinksConstructor later := by
  have heval : longPool.get? 2 = some (.classRef 1) ∧
      longPool.memberRef? 6 = some ⟨2, .object, ClassName.constructor, "()V", false⟩ ∧
      ((VerificationType.ofClass .throwable).outcome longPool).1 = .ok (.object 8) ∧
      ((VerificationType.ofClass .throwable).outcome longPool).2.get? 2 = some (.classRef 1) ∧
      ((VerificationType.ofClass .throwable).outcome longPool).2.memberRef? 6 =
        some ⟨2, .object, ClassName.constructor, "()V", false⟩ := by
    decide +kernel
  obtain ⟨hclass, hmethod, hthrowable, hclass', hmethod'⟩ := heval
  exact ⟨⟨⟨1, hclass⟩, hmethod⟩, 8, _, Prod.ext hthrowable rfl, ⟨1, hclass'⟩, hmethod'⟩

/-- In code that is too long blanking can make a block fail that went through before. The object made
in the tail is taken for one made by the instruction that is jumped over, and that is blanked. -/
lemma constructing_unabsorbed :
    (longMethod constructing).Unabsorbed constructingFacts plainHeader plainScope longPool := by
  have hsize : (longCode constructing).size = 65546 := size_longCode constructing
  obtain ⟨hlinks, i, later, hexception, hlinks'⟩ := links_longPool
  obtain ⟨b₀, b₁, b₂, hgraph, hpartition⟩ := partition_longCode constructingFacts walk_constructing
    (by simp [constructingFacts, ControlFacts.targets, hsize]; omega) (by simp [constructingFacts])
  obtain ⟨n, hrun⟩ := run_longProgram hgraph (executeFrom_constructing hlinks _ _)
  rw [Inference.settle_done rfl] at hrun
  have hdead : (longProgram constructing b₀ b₁ b₂).deadBlocks
      #[some bareFrame, none, some bareFrame] = [1] := rfl
  have hdead' : (longProgram constructing b₀ b₁ b₂).deadBlocks
      #[some bareFrame, none, some bareFrame] ≠ [] := by rw [hdead]; exact List.cons_ne_nil 1 []
  obtain ⟨settled, s', hsettle, hblocks, hframes, hretired⟩ := settle_of_run
    (m := longMethod constructing) rfl hpartition (entryFrame_plainHeader longPool) hrun rfl rfl
    hdead' hexception
  have hcode : ∀ i, 7 ≤ i → (settled.program plainScope).code[i]? = (longCode constructing)[i]? := by
    refine fun i hi => hretired.bytes i fun k hk b hb => ?_
    rw [hdead, List.mem_singleton] at hk
    subst hk
    have hstop := hgraph.middle.2
    rw [show b₁ = b from Option.some.inj hb] at hstop
    omega
  have hblank : (settled.program plainScope).code[3]? = some Opcode.nop.byte := by
    refine (hretired.blanked 1 b₁ 3 (hdead ▸ List.mem_singleton_self 1) rfl ?_).trans ?_
    · rw [hgraph.middle.1, hgraph.middle.2]
      decide
    · rw [hgraph.middle.2]
      rfl
  refine ⟨settled, later, withStackMap_of_settle hsettle, hsettle, 2, b₂, bareFrame, ?_, ?_, ?_⟩
  · rw [hblocks]
    rfl
  · rw [hframes, hretired.kept 2 (by rw [hdead]; decide)]
    rfl
  · intro hpropagates
    rw [hgraph.last.1, hgraph.last.2, hsize] at hpropagates
    obtain ⟨hnew, hcall, _⟩ := decode_constructing
    have htail := hpropagates.nops 65532
      (fun i hlo hhi => (hcode i hlo).trans (nop_longCode constructing hlo hhi)) (by decide)
    have hsite := htail.new_at_site
      (Code.decode_congr hnew fun i hi _ => hcode i (by omega)) rfl
      (Code.decode_congr hcall fun i hi _ => hcode i (by omega)) traits_calling rfl (by decide)
      hlinks'.called rfl parse_noParameters
    rw [show (7 + 65532) % 65536 = 3 from rfl, hblank] at hsite
    cases hsite

/-- Frames that are inferred need not be a fixpoint where the code is too long, and where an interface
has a superclass; everything else is as it should be in both cases. -/
theorem not_postfixpoint_beyond_limits :
    (plainScope.Lawful ∧ longPool.WellNamed ∧ 65536 < (longMethod constructing).code.size ∧
      plainHeader.descriptor.parameterWords (!plainHeader.isStatic) ≤
        (longMethod constructing).maxLocals.toNat ∧
      (longMethod constructing).Unabsorbed constructingFacts plainHeader plainScope longPool) ∧
    mixedScope.WellDeclared ∧ ConstantPool.empty.WellNamed ∧ widening.code.size ≤ 65536 ∧
      wideningHeader.descriptor.parameterWords (!wideningHeader.isStatic) ≤
        widening.maxLocals.toNat ∧
      widening.Unabsorbed wideningFacts wideningHeader mixedScope .empty := by
  have hlong : 65536 < (longMethod constructing).code.size := by
    rw [show (longMethod constructing).code.size = 65546 from size_longCode constructing]
    decide
  exact ⟨⟨lawful_plainScope, ConstantPool.wellNamed_after _, hlong, by decide,
      constructing_unabsorbed⟩,
    wellDeclared_mixedScope, ConstantPool.wellNamed_empty, by decide, by decide,
    widening_unabsorbed⟩

/-- Makes an object and goes back to the instruction that was jumped over. -/
def returning : Bytes :=
  [0xbb, 0, 2] ++ -- new
  [0x03] ++ -- iconst_0
  [0xaa] ++ -- tableswitch
  [0xff, 0xfe, 0xff, 0xfc] ++ [0, 0, 0, 0] ++ [0, 0, 0, 0] ++ [0xff, 0xfe, 0xff, 0xfc]

def returningFacts : ControlFacts := ⟨#[(0, 7), (65543, 3), (65543, 3)], #[3, 7, 65560]⟩

def pushing : Instruction := ⟨.iconst0, 1, false, 0, 0, Nat.one_pos⟩

def pushingTraits : OpcodeTraits := ⟨"ICONST_0", .plain, some 1, .normal, .fixed [] (some .int)⟩

/-- Both of its arms lead 65540 bytes back. -/
def switchingBack : TableSwitch := ⟨-65540, 0, 0, [-65540], 17, Nat.succ_pos 16⟩

def switching : Instruction := ⟨.tableswitch, 17, false, 0, 0, Nat.succ_pos 16⟩

def switchingTraits : OpcodeTraits := ⟨"TABLESWITCH", .switch, some (-1), .switch, .fixed [.int] none⟩

lemma traits_returning : pushing.opcode.traits = .ok pushingTraits ∧
    switching.opcode.traits = .ok switchingTraits := by
  decide +kernel

lemma switchAt_returning : Code.SwitchAt (longCode returning) 65543 switchingBack := by
  obtain ⟨_, _, _, _, htail⟩ := holds_longCode returning
  obtain ⟨h, hcase⟩ := holds_append.mp htail
  obtain ⟨h, hhigh⟩ := holds_append.mp h
  obtain ⟨h, hlow⟩ := holds_append.mp h
  obtain ⟨h, hdefault⟩ := holds_append.mp h
  obtain ⟨_, hbyte⟩ := holds_append.mp h
  refine ⟨hbyte.1, ?_, ?_, by decide, rfl, rfl, fun arm distance harm => ?_⟩
  · exact Code.readSigned_of_holds hlow (by decide) (by decide)
  · exact Code.readSigned_of_holds hhigh (by decide) (by decide)
  · cases arm with
    | default =>
      cases harm
      exact Code.readSigned_of_holds hdefault (by decide) (by decide)
    | case index =>
      obtain ⟨hlt, _⟩ := List.getElem?_eq_some_iff.mp harm
      obtain rfl : index = 0 := Nat.lt_one_iff.mp hlt
      cases harm
      exact Code.readSigned_of_holds hcase (by decide) (by decide)

lemma decode_returning : decode (longCode returning) 65539 = .ok making ∧
    decode (longCode returning) 65542 = .ok pushing ∧
    decode (longCode returning) 65543 = .ok switching := by
  obtain ⟨_, _, _, _, htail⟩ := holds_longCode returning
  have h := (holds_append.mp (holds_append.mp (holds_append.mp (holds_append.mp
    (holds_append.mp htail).1).1).1).1).1
  obtain ⟨hnew, hpush⟩ := holds_append.mp h
  exact ⟨decode_making hnew, Code.decode_plain hpush.1 traits_returning.1 rfl,
    switchAt_returning.decode_eq⟩

lemma targets_returning :
    Code.jumpTargets (longCode returning) 65543 switching .switch = .ok [3, 3] :=
  Except.bind_eq_ok.mpr
    ⟨switchingBack, Code.decodeSwitch_eq_ok_iff.mpr switchAt_returning.table, rfl⟩

lemma walk_returning : Walk (longCode returning) 65539 [65539, 65542, 65543] := by
  obtain ⟨hnew, hpush, hswitch⟩ := decode_returning
  have hsize : (longCode returning).size = 65560 := size_longCode returning
  exact .step (by omega) hnew (.step (by simp only [making]; omega) hpush
    (.step (by simp only [making, pushing]; omega) hswitch
      (.stop (by simp only [making, pushing, switching]; omega))))

/-- An object that waits for its constructor is on the stack. -/
def staleFrame : Frame := ⟨#[], [.uninitialized 3]⟩

section Runs

variable {b₀ b₁ b₂ : Block} {pool : ConstantPool}

lemma executeFrom_returning (hgraph : LongGraph returning b₀ b₁ b₂) (hpool : LinksConstructor pool) :
    (Inference.executeFrom (longProgram returning b₀ b₁ b₂) 2 (longCode returning).size 65539
        bareFrame).outcome ⟨#[some bareFrame, none, some bareFrame], .empty, pool⟩ =
      (.ok (), ⟨#[some bareFrame, some staleFrame, some bareFrame], ⟨[], [1]⟩, pool⟩) := by
  obtain ⟨hnew, hpush, hswitch⟩ := decode_returning
  obtain ⟨hpushing, hswitching⟩ := traits_returning
  obtain ⟨name, hclass⟩ := hpool.made
  have hsize : (longCode returning).size = 65560 := size_longCode returning
  have hmade : (Machine.Site.execute ⟨65539, longCode returning, plainScope⟩ making).outcome
      ⟨bareFrame, pool⟩ = (.ok (), ⟨staleFrame, pool⟩) := by
    rw [Machine.Site.execute_of_traits traits_making]
    exact Machine.Site.perform_new hclass
  have hpushed : (Machine.Site.execute ⟨65542, longCode returning, plainScope⟩ pushing).outcome
      ⟨staleFrame, pool⟩ = (.ok (), ⟨⟨#[], [.integer, .uninitialized 3]⟩, pool⟩) := by
    rw [Machine.Site.execute_of_traits hpushing]
    rfl
  have hswitched : (Machine.Site.execute ⟨65543, longCode returning, plainScope⟩ switching).outcome
      ⟨⟨#[], [.integer, .uninitialized 3]⟩, pool⟩ = (.ok (), ⟨staleFrame, pool⟩) := by
    rw [Machine.Site.execute_of_traits hswitching]
    rfl
  have hsends : ([(3 : Int), 3].forM fun target =>
      Inference.send (longProgram returning b₀ b₁ b₂) 65543 target staleFrame).outcome
        ⟨#[some bareFrame, none, some bareFrame], .empty, pool⟩ =
      (.ok (), ⟨#[some bareFrame, some staleFrame, some bareFrame], ⟨[], [1]⟩, pool⟩) := by
    simp only [List.forM, Step.outcome_bind, Inference.send, program, hgraph.middle_eq]
    rfl
  have hnone (pc : Nat) (frame : Frame) := @sendToHandlers_longProgram returning b₀ b₁ b₂ pc frame
    ⟨#[some bareFrame, none, some bareFrame], .empty, pool⟩
  rw [Inference.executeFrom_next (by omega) hnew (hnone 65539 bareFrame) hmade traits_making rfl
      (show _ = 65542 from rfl),
    Inference.executeFrom_next (by omega) hpush (hnone 65542 staleFrame) hpushed hpushing rfl
      (show _ = 65543 from rfl)]
  exact Inference.executeFrom_instruction (by omega) hswitch
    (hnone 65543 ⟨#[], [.integer, .uninitialized 3]⟩) hswitched hswitching targets_returning hsends

/-- The middle block makes another object, where one waits already. -/
lemma executeBlock_middle (hgraph : LongGraph returning b₀ b₁ b₂) (hpool : LinksConstructor pool)
    {frames : Array (Option Frame)} (hframe : frames[1]? = some (some staleFrame))
    (worklist : Worklist) :
    (Inference.executeBlock (longProgram returning b₀ b₁ b₂) 1).outcome ⟨frames, worklist, pool⟩ =
      (.ok (), ⟨frames, worklist, pool⟩) := by
  obtain ⟨_, hnew, hreturn⟩ := decode_longCode returning
  obtain ⟨name, hclass⟩ := hpool.made
  have hmade : (Machine.Site.execute ⟨3, longCode returning, plainScope⟩ making).outcome
      ⟨staleFrame, pool⟩ = (.ok (), ⟨⟨#[], [.uninitialized 3, .uninitialized 3]⟩, pool⟩) := by
    rw [Machine.Site.execute_of_traits traits_making]
    exact Machine.Site.perform_new hclass
  have hleft : (Machine.Site.execute ⟨6, longCode returning, plainScope⟩ leaving).outcome
      ⟨⟨#[], [.uninitialized 3, .uninitialized 3]⟩, pool⟩ =
        (.ok (), ⟨⟨#[], [.uninitialized 3, .uninitialized 3]⟩, pool⟩) := by
    rw [Machine.Site.execute_of_traits traits_longCode.2]
    rfl
  have hnone (pc : Nat) (frame : Frame) :=
    @sendToHandlers_longProgram returning b₀ b₁ b₂ pc frame ⟨frames, worklist, pool⟩
  rw [Inference.executeBlock_eq (show (longProgram returning b₀ b₁ b₂).graph.blocks[1]? = some b₁ from
      rfl) hframe, hgraph.middle.1, hgraph.middle.2,
    Inference.executeFrom_next (by decide) hnew (hnone 3 staleFrame) hmade traits_making rfl
      (show _ = 6 from rfl)]
  exact Inference.executeFrom_instruction (by decide) hreturn
    (hnone 6 ⟨#[], [.uninitialized 3, .uninitialized 3]⟩) hleft traits_longCode.2 rfl rfl

end Runs

lemma complete_returning :
    returningFacts.Complete (longCode returning) (longStarts [65539, 65542, 65543]) := by
  obtain ⟨hgoto, hnew, hreturn⟩ := decode_longCode returning
  obtain ⟨hnew', hpush, hswitch⟩ := decode_returning
  obtain ⟨hskipping, hleaving⟩ := traits_longCode
  obtain ⟨hpushing, hswitching⟩ := traits_returning
  have hnop : ∀ i, 7 ≤ i → i < 65539 → decode (longCode returning) i =
      .ok ⟨.nop, 1, false, 0, 0, Nat.one_pos⟩ :=
    fun i hlo hhi => Code.decode_plain (nop_longCode returning hlo hhi) Opcode.traits_nop rfl
  constructor
  · intro pc hpc target hjump
    simp only [longStarts, List.mem_cons, List.mem_append, List.mem_range'_1, List.not_mem_nil,
      or_false] at hpc
    rcases hpc with rfl | rfl | rfl | rfl | hpc | rfl | rfl | rfl
    · have hmem := hjump.mem_targets hgoto hskipping rfl
      rw [List.mem_singleton.mp hmem]
      simp [returningFacts, skipping]
    · cases hjump.mem_targets hnew traits_making rfl
    · cases hjump.mem_targets hreturn hleaving rfl
    · cases hjump.mem_targets (hnop 7 (by decide) (by decide)) Opcode.traits_nop rfl
    · cases hjump.mem_targets (hnop pc (by omega) (by omega)) Opcode.traits_nop rfl
    · cases hjump.mem_targets hnew' traits_making rfl
    · cases hjump.mem_targets hpush hpushing rfl
    · have hmem := hjump.mem_targets hswitch hswitching targets_returning
      obtain rfl : target = 3 := by simpa using hmem
      simp [returningFacts]
  · have hnops : (List.range' 8 65531).filterMap (Code.transferEnd? (longCode returning)) = [] := by
      refine List.filterMap_eq_nil_iff.mpr fun pc hpc => ?_
      rw [List.mem_range'_1] at hpc
      exact Code.transferEnd?_eq (hnop pc (by omega) (by omega)) Opcode.traits_nop
    rw [longStarts, List.filterMap_cons_some (Code.transferEnd?_eq hgoto hskipping),
      List.filterMap_cons_none (Code.transferEnd?_eq hnew traits_making),
      List.filterMap_cons_some (Code.transferEnd?_eq hreturn hleaving),
      List.filterMap_cons_none
        (Code.transferEnd?_eq (hnop 7 (by decide) (by decide)) Opcode.traits_nop),
      List.filterMap_append, hnops,
      List.filterMap_cons_none (Code.transferEnd?_eq hnew' traits_making),
      List.filterMap_cons_none (Code.transferEnd?_eq hpush hpushing),
      List.filterMap_cons_some (Code.transferEnd?_eq hswitch hswitching)]
    rfl

/-- In code that is too long objects made at different places are mixed up. The frame before the
instruction that makes an object has an object that seems to be made there, although control comes
there only once. -/
theorem returning_not_fresh :
    plainHeader.descriptor.parameterWords (!plainHeader.isStatic) ≤
        (longMethod returning).maxLocals.toNat ∧
      ∃ starts settled later, Code.starts (longMethod returning).code = .ok starts ∧
        returningFacts.Complete (longMethod returning).code starts ∧
        ((longMethod returning).withStackMap returningFacts plainHeader plainScope).outcome longPool =
          (.ok ⟨settled.method, settled.entries, settled.deadBlocks⟩, later) ∧
        ((longMethod returning).settle returningFacts plainHeader plainScope).outcome longPool =
          (.ok settled, later) ∧
        ∃ (k : Nat) (b : Block) (entry : Frame), settled.graph.blocks[k]? = some b ∧
          settled.graph.Reachable k ∧ settled.frames[k]? = some (some entry) ∧
          ∃ pc ∈ starts, b.start ≤ pc ∧ pc < b.stop ∧ ∃ insn,
            Code.decode (longMethod returning).code pc = .ok insn ∧ insn.opcode = .new ∧
              ∃ m, (settled.program plainScope).Visits b ⟨entry, later⟩ pc m ∧
                .uninitialized (UInt16.ofNat pc) ∈ m.frame.stack := by
  refine ⟨by decide, longStarts [65539, 65542, 65543], ?_⟩
  have hsize : (longCode returning).size = 65560 := size_longCode returning
  obtain ⟨hlinks, _⟩ := links_longPool
  obtain ⟨b₀, b₁, b₂, hgraph, hpartition⟩ := partition_longCode returningFacts walk_returning
    (by simp [returningFacts, ControlFacts.targets, hsize]; omega) (by simp [returningFacts])
  obtain ⟨_, htiles⟩ := BlockGraph.tiles_of_partition hpartition
  obtain ⟨n, hrun⟩ := run_longProgram hgraph (executeFrom_returning hgraph hlinks)
  rw [Inference.settle_next rfl (executeBlock_middle hgraph hlinks rfl _),
    Inference.settle_done rfl] at hrun
  have hsettle := settle_of_reached (m := longMethod returning) hpartition
    (entryFrame_plainHeader longPool) hrun rfl
  have hreachable := reachable_of_reached (m := longMethod returning) (fun _ _ h hh => by cases hh)
    htiles hpartition hrun (show #[some bareFrame, some staleFrame, some bareFrame][1]? = _ from rfl)
  refine ⟨_, _, Code.starts_eq_ok_iff.mpr (walk_longCode walk_returning), complete_returning,
    withStackMap_of_settle hsettle, hsettle, 1, b₁, staleFrame, rfl, hreachable, rfl, 3,
    by simp [longStarts], ?_, ?_, making, (decode_longCode returning).2.1, rfl,
    ⟨staleFrame, longPool⟩, ?_, ?_⟩
  · rw [hgraph.middle.1]
  · rw [hgraph.middle.2]
    decide
  · have hvisits : (longProgram returning b₀ b₁ b₂).Visits b₁ ⟨staleFrame, longPool⟩ b₁.start
        ⟨staleFrame, longPool⟩ := .enter
    rwa [hgraph.middle.1] at hvisits
  · exact List.mem_singleton_self _

end MethodCode
end ClassAssembly
