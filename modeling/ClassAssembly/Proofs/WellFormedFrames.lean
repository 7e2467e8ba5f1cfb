import ClassAssembly.Proofs.DraftLimits
import ClassAssembly.Proofs.MaxStack
import ClassAssembly.Proofs.ObjectSites

/-! Every frame that occurs while the stack map of a method is made is well formed: it has one slot for
each local variable of the method, and its types refer to classes among the constants and to places
of the code where objects are made. The method may be drafted by any operations, of which some may
have failed. -/
namespace ClassAssembly

/-- The form of the frames of a method that is given in one or more versions of its code. -/
structure Machine.WellFormed (maxLocals : Nat) (codes : List (Array UInt8)) (m : Machine) : Prop where
  size_eq : m.frame.locals.size = maxLocals
  paired : ∀ i, m.frame.locals[i]? = some .long ∨ m.frame.locals[i]? = some .double →
    i + 1 < maxLocals ∧ m.frame.locals[i + 1]? = some .top
  named : ∀ c, .object c ∈ m.frame.slots → ∃ name, m.pool.className? c = some name
  made : ∀ site, .uninitialized site ∈ m.frame.slots →
    ∀ code ∈ codes, Code.MakesAt code m.pool site

lemma Machine.Sound.wellFormed {m : Machine} {size : Nat} {Made : ConstantPool → UInt16 → Prop}
    {codes : List (Array UInt8)} (h : m.Sound size Made)
    (hmade : ∀ site, Made m.pool site → ∀ code ∈ codes, Code.MakesAt code m.pool site) :
    m.WellFormed size codes where
  size_eq := h.formed.size_eq
  paired i hi := by
    have hnext : m.frame.locals[i + 1]? = some .top := by
      rcases hi with hi | hi
      · exact h.formed.paired i _ hi rfl
      · exact h.formed.paired i _ hi rfl
    exact ⟨h.formed.size_eq ▸ (Array.getElem?_eq_some_iff.mp hnext).1, hnext⟩
  named c hc := h.types _ hc
  made site hsite := hmade site (h.types _ hsite)

lemma Account.Noted.wellFormed {t : Account} {size : Nat} {p p' : BlockProgram} {dead : Nat → Prop}
    (h : t.Noted size (p.MadeIn p' dead))
    (hcodes : ∀ code ∈ t.codes, code = p.code ∨ code = p'.code) :
    ∀ m ∈ t.seen, m.WellFormed size t.codes := by
  intro m hm
  refine (h m hm).wellFormed fun site hmade code hcode => ?_
  rcases hcodes code hcode with rfl | rfl
  · exact hmade.before
  · exact hmade.after

namespace MethodCode

open Account

/-- The account of a method: all frames in it are well formed, and it holds the code as it was drafted
and, if entry frames were found, the code that goes with them and these frames. -/
structure Documented (m : MethodCode) (result : Except Error SettledMethod) (seen : List Machine)
    (codes : List (Array UInt8)) : Prop where
  wellFormed : ∀ machine ∈ seen, machine.WellFormed m.maxLocals.toNat codes
  drafted : m.code ∈ codes
  settled : ∀ s, result = .ok s → s.method.code ∈ codes ∧
    ∀ (k : Nat) (f : Frame), s.frames[k]? = some (some f) → ∃ machine ∈ seen, machine.frame = f

variable {m : MethodCode} {graph : BlockGraph} {initial : Frame} {scope : ClassScope}
  {instructions : List Nat} {t u : Account} {result : Except Error SettledMethod}

lemma documented_of_noted {p p' : BlockProgram} {dead : Nat → Prop}
    (hnoted : u.Noted m.maxLocals.toNat (p.MadeIn p' dead)) (hcode : p.code = m.code)
    (hcodes : ∀ code, code ∈ u.codes ↔ code = m.code ∨ code = p'.code)
    (hsettled : ∀ s, result = .ok s → s.method.code = p'.code ∧
      ∀ (k : Nat) (f : Frame), s.frames[k]? = some (some f) → ∃ machine ∈ u.seen, machine.frame = f) :
    m.Documented result u.seen u.codes := by
  refine ⟨hnoted.wellFormed fun code hmem => ?_, (hcodes _).mpr (.inl rfl), fun s hs => ?_⟩
  · rw [hcode]
    exact (hcodes code).mp hmem
  · obtain ⟨hmethod, hframes⟩ := hsettled s hs
    exact ⟨(hcodes _).mpr (.inr hmethod), hframes⟩

/-- The second run, from the frames that blanked blocks begin with. -/
lemma documented_finishNoted {p p' : BlockProgram} {dead : Nat → Prop} {Passes : Nat → Nat → Prop}
    {rounds count : Nat} (hmakes : p'.Makes Passes (p.MadeIn p' dead)) (hcode : p.code = m.code)
    (ht : t.Sound p' m.maxLocals.toNat (p.MadeIn p' dead)) (hcodes : t.codes = [p'.code, m.code])
    (h : (m.finishNoted graph initial p' rounds count).outcome t = (result, u)) :
    m.Documented result u.seen u.codes := by
  have hsettle := ensures_settle hmakes rounds ht
  rw [finishNoted, Step.outcome_bind] at h
  rcases hrun : (Account.settle p' rounds).outcome t with ⟨e | _, t'⟩
  · rw [hrun] at h
    cases h
    obtain ⟨hnoted, heq⟩ := hsettle.error e u hrun
    exact documented_of_noted hnoted hcode (by simp [heq, hcodes, or_comm]) nofun
  · rw [hrun] at h
    cases h
    obtain ⟨hsound, _, heq, _⟩ := hsettle.ok _ t' hrun
    refine documented_of_noted hsound.noted hcode (by simp [heq, hcodes, or_comm]) ?_
    rintro _ ⟨⟩
    exact ⟨rfl, hsound.covered⟩

/-- The second run with the blanking before it. -/
lemma documented_resumeNoted {dead : Nat} (htiles : graph.Tiles m.code instructions)
    (hsize : m.code.size ≤ 65536)
    (ht : t.Sound (m.program graph scope) m.maxLocals.toNat
      ((m.program graph scope).MadeIn (m.program graph scope) fun _ => False))
    (hframes : t.inference.frames.size = graph.blocks.size) (hcodes : t.codes = [m.code])
    (h : (m.resumeNoted graph initial scope dead).outcome t = (result, u)) :
    m.Documented result u.seen u.codes := by
  have hmakes := (BlockProgram.Blanked.refl (m.program graph scope)).makes htiles hsize
  have hconstants := ensures_constants hmakes ht (VerificationType.repeatable_ofClass .throwable)
  rw [resumeNoted, Step.outcome_bind] at h
  rcases hstep : (carry (Inference.constants (VerificationType.ofClass .throwable))).outcome t with
    ⟨e | exception, t₁⟩
  · rw [hstep] at h
    cases h
    obtain ⟨hnoted, heq⟩ := hconstants.error e u hstep
    exact documented_of_noted hnoted rfl (by simp [heq, hcodes, program]) nofun
  · rw [hstep] at h
    obtain ⟨ht₁, honward, heq, hexception⟩ := hconstants.ok exception t₁ hstep
    -- From here on frames are sound for both versions of the code.
    rcases hneutral : (m.program graph scope).neutralize m.maxLocals.toNat exception
      t₁.inference with ⟨p', s'⟩
    obtain ⟨hblanked, ht₂⟩ := BlockProgram.sound_neutralize htiles ht₁ (honward.size.trans hframes)
      (fun _ => VerificationType.backed_ofClass hexception) hneutral (p'.code :: t₁.codes)
    simp only [Step.outcome_bind, watch, Step.outcome_ofOutcome, hneutral, noteCode,
      Step.outcome_modify] at h
    exact documented_finishNoted (hblanked.makes htiles hsize) rfl ht₂ (by simp [heq, hcodes]) h

/-- The account of both runs, from a first frame that is sound. -/
theorem documented_inferNoted {pool : ConstantPool} (htiles : graph.Tiles m.code instructions)
    (hsize : m.code.size ≤ 65536) (hpool : pool.WellNamed)
    (hcaught : ∀ h ∈ m.handlers, ∀ c, h.catchType = some c → ∃ name, pool.className? c = some name)
    (hinitial : ∀ Made, ConstantPool.Lasting Made →
      Machine.Sound m.maxLocals.toNat Made ⟨initial, pool⟩)
    (h : (m.inferNoted graph initial scope).outcome
      ⟨.unreached graph.blocks.size pool, [], [m.code]⟩ = (result, u)) :
    m.Documented result u.seen u.codes := by
  have hmakes := (BlockProgram.Blanked.refl (m.program graph scope)).makes htiles hsize
  have hnone : ∀ (k : Nat) (f : Frame),
      (Inference.unreached graph.blocks.size pool).frames[k]? ≠ some (some f) := by
    intro k f hf
    have hmem := Array.mem_of_getElem? hf
    simp [Inference.unreached] at hmem
  have hstart : Account.Sound (m.program graph scope) m.maxLocals.toNat
      ((m.program graph scope).MadeIn (m.program graph scope) fun _ => False)
      ⟨.unreached graph.blocks.size pool, [], [m.code]⟩ :=
    ⟨⟨hpool, fun k f hf => absurd hf (hnone k f)⟩, fun _ hm => absurd hm List.not_mem_nil,
      fun k f hf => absurd hf (hnone k f), hcaught⟩
  have hrun := ensures_run hmakes hstart (hinitial _ (hmakes.lasting _))
  unfold inferNoted at h
  rw [Step.outcome_bind] at h
  rcases hstep : (Account.run (m.program graph scope) initial).outcome
    ⟨.unreached graph.blocks.size pool, [], [m.code]⟩ with ⟨e | _, t⟩
  · rw [hstep] at h
    cases h
    obtain ⟨hnoted, heq⟩ := hrun.error e u hstep
    exact documented_of_noted hnoted rfl (by simp [heq, program]) fun _ hok => by cases hok
  · rw [hstep] at h
    obtain ⟨hsound, honward, heq, _⟩ := hrun.ok _ t hstep
    simp only [Step.outcome_bind, carry, Step.outcome_ofOutcome, Step.outcome_get] at h
    split at h
    · cases h
      refine documented_of_noted hsound.noted rfl (by simp [heq, program]) ?_
      rintro _ ⟨⟩
      exact ⟨rfl, hsound.covered⟩
    · refine documented_resumeNoted htiles hsize hsound ?_ heq h
      exact honward.size.trans (by simp [Inference.unreached])

/-- The account of a method whose parameters have room in its local variables. -/
theorem documented_settleNoted {facts : ControlFacts} {header : MethodHeader} {pool : ConstantPool}
    (hroom : header.descriptor.parameterWords (!header.isStatic) ≤ m.maxLocals.toNat)
    (hsize : m.code.size ≤ 65536) (hpool : pool.WellNamed)
    (hcaught : ∀ h ∈ m.handlers, ∀ c, h.catchType = some c → ∃ name, pool.className? c = some name) :
    m.Documented (m.settleNoted facts header scope pool).outcome.1
      (m.settleNoted facts header scope pool).seen (m.settleNoted facts header scope pool).codes := by
  unfold settleNoted
  cases hgraph : BlockGraph.partition m.code facts m.handlers with
  | error e => exact ⟨nofun, List.mem_singleton_self _, nofun⟩
  | ok graph =>
    simp only
    rcases hinitial : (header.entryFrame scope m.maxLocals.toNat).outcome pool with
      ⟨e | initial, later⟩
    · exact ⟨nofun, List.mem_singleton_self _, nofun⟩
    · obtain ⟨instructions, htiles⟩ := BlockGraph.tiles_of_partition hgraph
      obtain ⟨hext, hnamed, _, hformed⟩ := MethodHeader.entryFrame_spec hroom hinitial
      refine documented_inferNoted htiles hsize (hnamed hpool) ?_ ?_ rfl
      · intro h hh c hc
        obtain ⟨name, hname⟩ := hcaught h hh c hc
        exact ⟨name, hext.className? hname⟩
      · intro Made hmade
        exact ⟨hformed _, MethodHeader.backed_entryFrame hmade hinitial⟩

end MethodCode

namespace MethodBody

/-- A method that was started, and whose code has been drafted since by operations any of which may
have failed. -/
def Drafted (m : MethodBody) : Prop :=
  ∃ flags name descriptor pool first later ops,
    (start flags name descriptor).outcome pool = (.ok first, later) ∧ m.name = first.name ∧
      m.descriptor = first.descriptor ∧ m.flags = first.flags ∧ m.code = first.code.attempted ops

/-- A method that was just started has local variables for its receiver and its parameters. -/
lemma limited_start {flags : MethodFlags} {name descriptor : String} {pool later : ConstantPool}
    {m : MethodBody} (h : (start flags name descriptor).outcome pool = (.ok m, later)) :
    m.code.Limited (m.descriptor.parameterWords (!m.isStatic)) := by
  rw [start] at h
  split at h
  · cases h
  · rename_i parsed _
    obtain ⟨_, _, _, h⟩ := Step.bind_eq_ok.mp h
    obtain ⟨_, _, _, h⟩ := Step.bind_eq_ok.mp h
    simp only at h
    split at h
    · cases h
    · rename_i code huse
      cases h
      simp only [CodeDraft.useLocals, Step.outcome_ofOutcome] at huse
      split at huse
      · cases huse
      · rename_i hlimit
        cases huse
        rw [Nat.zero_add] at hlimit
        refine ⟨Nat.zero_le _, ?_, ?_⟩
        · simp [CodeDraft.empty, isStatic]
        · simpa [CodeDraft.empty, isStatic] using hlimit

lemma catchType_of_handler? {m : MethodBody} {range : ProtectedRange} {h : ExceptionHandler}
    (hhandler : m.handler? range = .ok (some h)) : h.catchType = range.catchType := by
  obtain ⟨start, _, hhandler⟩ := Except.bind_eq_ok.mp hhandler
  obtain ⟨stop, _, hhandler⟩ := Except.bind_eq_ok.mp hhandler
  obtain ⟨offset, _, hhandler⟩ := Except.bind_eq_ok.mp hhandler
  simp only at hhandler
  split at hhandler
  · cases hhandler
  · split at hhandler
    · cases hhandler
    · cases hhandler
      rfl

lemma Drafted.limited {m : MethodBody} (h : m.Drafted) :
    m.code.Limited (m.descriptor.parameterWords (!m.isStatic)) := by
  obtain ⟨_, _, _, _, first, _, ops, hstart, _, hdescriptor, hflags, hcode⟩ := h
  have hfirst := (limited_start hstart).attempted ops
  rwa [hcode, isStatic, hflags, hdescriptor]

/-- Every frame that occurs while a method is closed is well formed: entry frames of blocks, frames
after instructions, those that handlers and other blocks are sent, and those of blanked blocks, up to
the first failure if there is one. The settled entry frames are among them. -/
theorem closing_frames_wellFormed {m : MethodBody} {requests : List ConstantRequest}
    {handlers : List ExceptionHandler} {version : Version} (hm : m.Drafted)
    (hcatch : ∀ range ∈ m.ranges, ∀ c, range.catchType = some c →
      ∃ k, (ConstantPool.after requests).get? c = some (.classRef k))
    (hhandlers : m.handlers = .ok handlers) (hversion : version.hasStackMaps = true)
    (scope : ClassScope) :
    let pool := ConstantPool.after requests
    let settling := (m.draftedCode handlers).settleNoted m.code.facts m.header scope pool
    (m.mapCode handlers scope version).outcome pool =
        (settling.outcome.1.map fun s => ⟨s.method, s.entries, s.deadBlocks⟩, settling.outcome.2) ∧
      (∀ machine ∈ settling.seen, machine.WellFormed m.code.maxLocals settling.codes) ∧
      m.code.code ∈ settling.codes ∧
      ∀ s, settling.outcome.1 = .ok s → s.method.code ∈ settling.codes ∧
        ∀ (k : Nat) (f : Frame), s.frames[k]? = some (some f) →
          ∃ machine ∈ settling.seen, machine.frame = f := by
  have hlimited := hm.limited
  -- The number of local variables fits into two bytes, so nothing is cut off when it is stored.
  have hlocals : (m.draftedCode handlers).maxLocals.toNat = m.code.maxLocals := by
    have hle := hlimited.locals
    rw [draftedCode, UInt16.toNat_ofNat']
    omega
  have hnamed := ConstantPool.wellNamed_after requests
  have hcaught : ∀ h ∈ handlers, ∀ c, h.catchType = some c →
      ∃ name, (ConstantPool.after requests).className? c = some name := by
    intro h hh c hc
    obtain ⟨range, hrange, hhandler⟩ := range_of_handlers hhandlers hh
    obtain ⟨k, hk⟩ := hcatch range hrange c (catchType_of_handler? hhandler ▸ hc)
    obtain ⟨name, hname, _⟩ := hnamed c k hk
    exact ⟨name, ConstantPool.className?_eq_some_iff.mpr ⟨k, hk, hname⟩⟩
  intro pool settling
  have hdocumented : (m.draftedCode handlers).Documented settling.outcome.1 settling.seen
      settling.codes :=
    MethodCode.documented_settleNoted (hlocals ▸ hlimited.enough) (Nat.le_succ_of_le hlimited.code)
      hnamed hcaught
  refine ⟨?_, hlocals ▸ hdocumented.wellFormed, hdocumented.drafted, hdocumented.settled⟩
  have houtcome : settling.outcome =
      ((m.draftedCode handlers).settle m.code.facts m.header scope).outcome pool :=
    MethodCode.outcome_settleNoted _ _ _ _ _
  have hmap : m.mapCode handlers scope version =
      (m.draftedCode handlers).withStackMap m.code.facts m.header scope := if_pos hversion
  rw [houtcome, hmap, MethodCode.withStackMap, Step.outcome_bind]
  rcases ((m.draftedCode handlers).settle m.code.facts m.header scope).outcome pool with
    ⟨e | s, later⟩
  · rfl
  · rfl

/-- The constants of a method that makes a box. -/
def boxConstants : List ConstantRequest := [
  .utf8 "f", .utf8 "(J)V", .classRef "Box", .methodRef "Box" "<init>" "()V" false,
  .classRef "java/lang/Exception"]

/-- Makes a box under the protection of a handler. One operation is refused, and some code is never
reached. -/
def boxOperations : List DraftOperation := [
  .newLabel, .newLabel, .newLabel,
  .bindLabel 0,
  .emit .new [4],
  .emit .dup [],
  .emit .pop [7], -- it takes no operand
  .emitWithEffect .invokespecial [8] 1 0,
  .emit (.store .reference) [2],
  .bindLabel 1,
  .emit .returnVoid [],
  .emit .iconst0 [],
  .emit .returnVoid [],
  .bindHandler 2,
  .emit .pop [],
  .emit .returnVoid []]

def boxStart : MethodBody where
  name := "f"
  descriptor := ⟨[⟨0, .base .long⟩], none⟩
  flags := ⟨0x0009⟩
  nameIndex := 1
  descriptorIndex := 2
  code := { CodeDraft.empty with maxLocals := 2 }
  ranges := #[]
  lines := #[]
  named := #[]

def boxMethod : MethodBody :=
  { boxStart with
    code := boxStart.code.attempted boxOperations
    ranges := #[⟨0, 1, 2, some 10⟩] }

def boxHandlers : List ExceptionHandler := [⟨0, 9, 12, some 10⟩]

/-- How the entry frames of the method are settled. -/
def boxSettling : MethodCode.Settling :=
  (boxMethod.draftedCode boxHandlers).settleNoted boxMethod.code.facts boxMethod.header
    plainScope (.after boxConstants)

theorem boxMethod_frames_wellFormed :
    boxMethod.Drafted ∧
      (∀ range ∈ boxMethod.ranges, ∀ c, range.catchType = some c →
        ∃ k, (ConstantPool.after boxConstants).get? c = some (.classRef k)) ∧
      boxMethod.handlers = .ok boxHandlers ∧ Version.java6.hasStackMaps = true ∧
      boxSettling.outcome.1.map SettledMethod.deadBlocks = .ok 1 ∧ boxSettling.codes.length = 2 ∧
      (∃ machine ∈ boxSettling.seen, .uninitialized 0 ∈ machine.frame.slots) ∧
      boxSettling.seen.length = 29 ∧
      ∀ machine ∈ boxSettling.seen, machine.WellFormed 3 boxSettling.codes := by
  have hstart : (start ⟨0x0009⟩ "f" "(J)V").outcome .empty =
      (.ok boxStart, ((start ⟨0x0009⟩ "f" "(J)V").outcome .empty).2) :=
    Prod.ext (by decide +kernel) rfl
  have hdrafted : boxMethod.Drafted :=
    ⟨_, _, _, _, boxStart, _, boxOperations, hstart, by rw [boxMethod], by rw [boxMethod],
      by rw [boxMethod], by rw [boxMethod]⟩
  have hcatch : ∀ range ∈ boxMethod.ranges, ∀ c, range.catchType = some c →
      ∃ k, (ConstantPool.after boxConstants).get? c = some (.classRef k) := by
    intro range hrange c hc
    obtain rfl : range = ⟨0, 1, 2, some 10⟩ := by simpa [boxMethod] using hrange
    cases hc
    exact ⟨9, by decide +kernel⟩
  have hhandlers : boxMethod.handlers = .ok boxHandlers := by decide +kernel
  have hlocals : boxMethod.code.maxLocals = 3 := by decide +kernel
  have hframes : ∀ machine ∈ boxSettling.seen, machine.WellFormed 3 boxSettling.codes := by
    have h := (closing_frames_wellFormed hdrafted hcatch hhandlers
      (show Version.java6.hasStackMaps = true by decide) plainScope).2.1
    simp only [hlocals] at h
    rw [boxSettling]
    exact h
  have hsettling : boxSettling.outcome.1.map SettledMethod.deadBlocks = .ok 1 ∧
      boxSettling.codes.length = 2 ∧
      (∃ machine ∈ boxSettling.seen, .uninitialized 0 ∈ machine.frame.slots) ∧
      boxSettling.seen.length = 29 := by
    decide +kernel
  exact ⟨hdrafted, hcatch, hhandlers, by decide, hsettling.1, hsettling.2.1, hsettling.2.2.1,
    hsettling.2.2.2, hframes⟩

end MethodBody
end ClassAssembly
