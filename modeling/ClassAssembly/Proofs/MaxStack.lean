import ClassAssembly.Method.Closing
import ClassAssembly.Proofs.BuilderCalls
import ClassAssembly.Proofs.StackMapReader

/-! The largest depth of the stack that is written in a method. It is enough for all frames that
inference computes, if the depths noted at labels are those with which switches and exceptions reach
them. Nothing checks that, and where it fails the depth that is written can be too small. -/
namespace ClassAssembly

namespace BuilderCall

/-- The call leaves it to the builder to track the depth of the stack: the depth is not set, and
branches lead to labels. -/
def TracksDepth : BuilderCall → Prop
  | setDepth _ | jump _ (.distance _) => False
  | emit op _ => ¬op.IsBranch
  | _ => True

instance : (call : BuilderCall) → Decidable call.TracksDepth
  | setDepth _ | jump _ (.distance _) => .isFalse id
  | emit op _ => inferInstanceAs (Decidable (¬op.IsBranch))
  | jump _ (.label _) | constant _ | onClass .. | makeMultiArray .. | accessField .. | call ..
  | literalInt _ | literalBool _ | literalLong _ | literalFloat _ | literalDouble _
  | literalString _ | load .. | store .. | increment .. | newLabel | bindLabel _ | bindHandler _
  | reserveSwitch .. | patchDefault .. | patchCase .. | addRange .. | addLine _ | addVariable .. =>
    .isTrue trivial

def isSwitch : BuilderCall → Bool
  | reserveSwitch .. => true
  | _ => false

/-- The depth noted at a label is the one with which it is reached from elsewhere than a branch. A
handler is reached with the exception alone on the stack, and must be so from the code before it. A
label to which an arm of a switch leads is reached with the depth after the switch. The calls seen
before are given with the state that each of them found. -/
def AgreesOnDepth (seen : List (MethodBuilder × BuilderCall)) (s : MethodBuilder) :
    BuilderCall → Prop
  | bindHandler label => (s.method.code.reachable = true → s.method.code.depth = 1) ∧
    ∀ depth ∈ s.method.code.depthAt? label, depth = 1
  | patchDefault switch label | patchCase switch _ label => ∀ earlier ∈ seen,
    earlier.2.isSwitch = true → earlier.1.method.code.code.size = switch →
      earlier.1.method.code.reachable = true →
        s.method.code.depthAt? label = some (earlier.1.method.code.depth - 1)
  | _ => True

instance (seen : List (MethodBuilder × BuilderCall)) (s : MethodBuilder) :
    (call : BuilderCall) → Decidable (call.AgreesOnDepth seen s)
  | bindHandler _ => inferInstanceAs (Decidable (_ ∧ _))
  | patchDefault .. | patchCase .. => inferInstanceAs (Decidable (∀ earlier ∈ seen, _ → _))
  | setDepth _ | jump .. | emit .. | constant _ | onClass .. | makeMultiArray .. | accessField ..
  | call .. | literalInt _ | literalBool _ | literalLong _ | literalFloat _ | literalDouble _
  | literalString _ | load .. | store .. | increment .. | newLabel | bindLabel _
  | reserveSwitch .. | addRange .. | addLine _ | addVariable .. => .isTrue trivial

/-- All calls of a run agree on the depths at labels. -/
def AllAgree (seen : List (MethodBuilder × BuilderCall)) (s : MethodBuilder) :
    List BuilderCall → Prop
  | [] => True
  | first :: rest => first.AgreesOnDepth seen s ∧
    AllAgree (seen ++ [(s, first)]) (first.run.outcome s).2 rest

instance AllAgree.decidable (seen : List (MethodBuilder × BuilderCall)) (s : MethodBuilder) :
    (calls : List BuilderCall) → Decidable (AllAgree seen s calls)
  | [] => .isTrue trivial
  | first :: rest =>
    have := AllAgree.decidable (seen ++ [(s, first)]) (first.run.outcome s).2 rest
    inferInstanceAs (Decidable (_ ∧ _))

end BuilderCall

namespace MethodBuilder

open CodeDraft (Traced)
open Step (bind_eq_ok)

variable {seen seen' : List (MethodBuilder × BuilderCall)} {entries : List DepthEntry}
  {s s' : MethodBuilder}

lemma offsetOf_eq_ok {b b' : CodeDraft} {label : Label} {offset : Nat}
    (h : (offsetOf label).outcome b = (.ok offset, b')) :
    b' = b ∧ b.offsetOf? label = some offset := by
  obtain ⟨found, b₁, hbound, h⟩ := bind_eq_ok.mp h
  obtain ⟨state, b₂, hstatus, hfound⟩ := bind_eq_ok.mp hbound
  obtain ⟨rfl, hstate⟩ := CodeDraft.labelStatus_eq_ok hstatus
  cases hfound
  cases hoffset : state.offset with
  | none =>
    rw [hoffset] at h
    cases h
  | some found =>
    rw [hoffset] at h
    cases h
    exact ⟨rfl, (CodeDraft.offsetOf?_of_getElem? hstate).trans hoffset⟩

/-- The draft is what the calls seen have written, with these entries. -/
structure Written (seen : List (MethodBuilder × BuilderCall)) (entries : List DepthEntry)
    (s : MethodBuilder) : Prop where
  traced : ∃ done items, Traced done items entries s.method.code
  words : ∀ e ∈ entries, e.op.WordsIn s.pool
  switches : ∀ e ∈ entries, ∀ low high, e.op = .reserveSwitch low high →
    ∃ earlier, (earlier, .reserveSwitch low high) ∈ seen ∧
      earlier.method.code.code.size = e.start ∧ earlier.method.code.reachable = true ∧
      e.after = earlier.method.code.depth - 1

namespace Written

lemma mono (h : Written seen entries s) (hseen : ∀ call ∈ seen, call ∈ seen') :
    Written seen' entries s where
  traced := h.traced
  words := h.words
  switches e he low high hop := by
    obtain ⟨earlier, hmem, hswitch⟩ := h.switches e he low high hop
    exact ⟨earlier, hseen _ hmem, hswitch⟩

lemma grow (h : Written seen entries s) (hpool : s.pool.Extends s'.pool)
    (hcode : s'.method.code = s.method.code) : Written seen entries s' where
  traced := hcode ▸ h.traced
  words e he := (h.words e he).mono hpool
  switches := h.switches

/-- One operation on the draft. -/
lemma operation (h : Written seen entries s) (hseen : ∀ call ∈ seen, call ∈ seen')
    (op : DraftOperation) (hrange : op.InRange)
    (hagrees : CodeDraft.Agrees entries s.method.code op) (hwords : op.WordsIn s.pool)
    (hswitch : ∀ low high, op = .reserveSwitch low high → (s, .reserveSwitch low high) ∈ seen')
    (hrun : op.run.outcome s.method.code = (.ok (), s'.method.code)) (hpool : s'.pool = s.pool) :
    ∃ entries', Written seen' entries' s' := by
  obtain ⟨done, items, htraced⟩ := h.traced
  have htraced' := htraced.step hrange hagrees hrun
  -- What is new is the entry of the operation itself, if control reaches it.
  have hnew : ∀ e ∈ op.entry s.method.code s'.method.code, s.method.code.reachable = true ∧
      e.op = op ∧ e.start = s.method.code.code.size ∧ e.before = s.method.code.depth := by
    intro e he
    rw [DraftOperation.entry] at he
    split at he
    · rename_i hboth
      cases List.mem_singleton.mp he
      exact ⟨hboth.2, rfl, rfl, rfl⟩
    · cases he
  refine ⟨_, ⟨_, _, htraced'⟩, fun e he => ?_, fun e he low high hop => ?_⟩
  · rw [hpool]
    rcases List.mem_append.mp he with hold | he
    · exact h.words e hold
    · obtain ⟨_, rfl, _⟩ := hnew e he
      exact hwords
  · rcases List.mem_append.mp he with hold | he
    · obtain ⟨earlier, hmem, hearlier⟩ := h.switches e hold low high hop
      exact ⟨earlier, hseen _ hmem, hearlier⟩
    · obtain ⟨hreachable, rfl, hstart, hbefore⟩ := hnew e he
      refine ⟨s, hswitch low high hop, hstart.symm, hreachable, ?_⟩
      obtain ⟨popped, pushed, hwords, _, hafter⟩ :=
        (htraced'.tracked.accounted e (List.mem_append_right _ he)).words
      rw [hop] at hwords
      cases hwords
      rw [hafter, hbefore, Nat.add_zero]

/-- Constants and plain instructions. The induction is on how they were written. -/
lemma writes (h : Written seen entries s) (hwrites : Writes s s') :
    ∃ entries', Written seen entries' s' := by
  induction hwrites generalizing entries with
  | grow hpool hcode => exact ⟨entries, h.grow hpool hcode⟩
  | operation op hplain hrun hpool =>
    cases op with
    | emit op operands =>
      exact h.operation (fun _ => id) (.emit op operands) ⟨trivial, nofun⟩ hplain trivial nofun
        hrun hpool
    | emitWithEffect op operands popped pushed =>
      exact h.operation (fun _ => id) (.emitWithEffect op operands popped pushed) ⟨trivial, nofun⟩
        (fun hbranch => absurd hbranch hplain.1) hplain.2 nofun hrun hpool
    | _ => exact absurd hplain id
  | trans _ _ ih ih' =>
    obtain ⟨_, hmiddle⟩ := ih h
    exact ih' hmiddle

/-- An arm of a switch is pointed to a bound label. -/
lemma patch (h : Written seen entries s) (hseen : ∀ call ∈ seen, call ∈ seen') {switch : Nat}
    {label : Label} (arm : Nat → DraftOperation)
    (harm : (∃ index, arm = .patchCase switch index) ∨ arm = .patchDefault switch)
    (hagrees : ∀ earlier ∈ seen, earlier.2.isSwitch = true →
      earlier.1.method.code.code.size = switch → earlier.1.method.code.reachable = true →
        s.method.code.depthAt? label = some (earlier.1.method.code.depth - 1))
    (hrun : (code (offsetOf label >>= fun target => (arm target).run)).outcome s = (.ok (), s')) :
    ∃ entries', Written seen' entries' s' := by
  obtain ⟨hrun, hpool⟩ := code_eq_ok hrun
  obtain ⟨target, b, hoffset, hrun⟩ := bind_eq_ok.mp hrun
  obtain ⟨rfl, htarget⟩ := offsetOf_eq_ok hoffset
  obtain ⟨done, items, htraced⟩ := h.traced
  have hinside : ∀ other ∈ some target, other ≤ 65535 := by
    rintro _ ⟨⟩
    exact Nat.le_trans (htraced.offset_le htarget) htraced.reflects.size
  have hall : ∀ e ∈ entries, e.start = switch → ∀ low high, e.op = .reserveSwitch low high →
      ∃ label, s.method.code.offsetOf? label = some target ∧
        s.method.code.depthAt? label = some e.after := by
    intro e he hstart low high hop
    obtain ⟨earlier, hmem, hsize, hreachable, hafter⟩ := h.switches e he low high hop
    rw [hafter]
    exact ⟨label, htarget, hagrees _ hmem rfl (hsize.trans hstart) hreachable⟩
  rcases harm with ⟨index, rfl⟩ | rfl
  · exact h.operation hseen (.patchCase switch index target) ⟨trivial, hinside⟩ hall trivial nofun
      hrun hpool
  · exact h.operation hseen (.patchDefault switch target) ⟨trivial, hinside⟩ hall trivial nofun
      hrun hpool

/-- One call of the builder. -/
lemma call (h : Written seen entries s) (call : BuilderCall) (hrange : call.InRange)
    (htracks : call.TracksDepth) (hagrees : call.AgreesOnDepth seen s)
    (hrun : call.run.outcome s = (.ok (), s')) :
    ∃ entries', Written (seen ++ [(s, call)]) entries' s' := by
  have hseen : ∀ earlier ∈ seen, earlier ∈ seen ++ [(s, call)] := fun _ =>
    List.mem_append_left _
  have hplain : Writes s s' → ∃ entries', Written (seen ++ [(s, call)]) entries' s' :=
    (h.mono hseen).writes
  cases call with
  | constant request =>
    obtain ⟨_, hconstants, _⟩ := Step.map_eq_ok.mp hrun
    exact hplain (Writes.constants (.issue request) hconstants).1
  | emit op operands =>
    rw [BuilderCall.run] at hrun
    rw [BuilderCall.TracksDepth] at htracks
    exact hplain (.emit hrun fun hbranch => absurd hbranch htracks)
  | jump op target =>
    cases target with
    | distance => exact absurd htracks id
    | label label =>
      rw [BuilderCall.run] at hrun
      obtain ⟨hjump, hpool⟩ := code_eq_ok hrun
      exact h.operation hseen (.jump op (.label label)) ⟨trivial, nofun⟩ trivial trivial nofun
        hjump hpool
  | onClass => exact hplain (writes_onClass hrun)
  | makeMultiArray => exact hplain (writes_makeMultiArray hrun)
  | accessField => exact hplain (writes_accessField hrun)
  | call => exact hplain (writes_call hrun)
  | literalInt | literalBool => exact hplain (writes_literalInt hrun)
  | literalLong => exact hplain (writes_literalLong hrun)
  | literalFloat => exact hplain (writes_literalFloat hrun)
  | literalDouble => exact hplain (writes_literalDouble hrun)
  | literalString => exact hplain (writes_literalString hrun)
  | load slot | store slot =>
    refine hplain (writes_accessLocal ?_ hrun)
    cases slot <;> decide +kernel
  | increment index amount =>
    rw [BuilderCall.run, increment] at hrun
    exact hplain (.emit_of_flow hrun (by decide +kernel))
  | newLabel =>
    obtain ⟨label, hcode, _⟩ := Step.map_eq_ok.mp hrun
    obtain ⟨hlabel, hpool⟩ := code_eq_ok hcode
    exact h.operation hseen .newLabel ⟨trivial, nofun⟩ trivial trivial nofun
      (Step.map_eq_ok.mpr ⟨label, hlabel, rfl⟩) hpool
  | bindLabel label =>
    rw [BuilderCall.run] at hrun
    obtain ⟨hbind, hpool⟩ := code_eq_ok hrun
    exact h.operation hseen (.bindLabel label) ⟨trivial, nofun⟩ trivial trivial nofun hbind hpool
  | bindHandler label =>
    rw [BuilderCall.run] at hrun
    obtain ⟨hbind, hpool⟩ := code_eq_ok hrun
    exact h.operation hseen (.bindHandler label) ⟨trivial, nofun⟩ hagrees trivial nofun hbind
      hpool
  | reserveSwitch low high =>
    obtain ⟨start, hcode, _⟩ := Step.map_eq_ok.mp hrun
    obtain ⟨hreserve, hpool⟩ := code_eq_ok hcode
    refine h.operation hseen (.reserveSwitch low high) ⟨hrange, nofun⟩ trivial trivial ?_
      (Step.map_eq_ok.mpr ⟨start, hreserve, rfl⟩) hpool
    rintro _ _ ⟨⟩
    exact List.mem_append_right _ (List.mem_singleton_self _)
  | patchDefault switch label =>
    exact h.patch hseen (.patchDefault switch) (.inr rfl) hagrees hrun
  | patchCase switch index label =>
    exact h.patch hseen (.patchCase switch index) (.inl ⟨index, rfl⟩) hagrees hrun
  | addRange => exact hplain (writes_addRange hrun)
  | addLine =>
    cases hrun
    exact hplain (.grow (.refl _) rfl)
  | addVariable => exact hplain (writes_addVariable hrun)
  | setDepth => exact absurd htracks id

/-- A whole run of calls. -/
theorem run {calls : List BuilderCall} (h : Written seen entries s)
    (hcalls : ∀ call ∈ calls, call.InRange ∧ call.TracksDepth)
    (hagree : BuilderCall.AllAgree seen s calls)
    (hrun : (calls.forM BuilderCall.run).outcome s = (.ok (), s')) :
    ∃ seen' entries', Written seen' entries' s' := by
  induction calls generalizing seen entries s with
  | nil =>
    cases hrun
    exact ⟨seen, entries, h⟩
  | cons call calls ih =>
    rw [List.forM, bind_eq_ok] at hrun
    obtain ⟨_, s₁, hcall, hrest⟩ := hrun
    obtain ⟨hfirst, hagree⟩ := hagree
    obtain ⟨hrange, htracks⟩ := hcalls call List.mem_cons_self
    obtain ⟨entries', hwritten⟩ := h.call call hrange htracks hfirst hcall
    rw [hcall] at hagree
    exact ih hwritten (fun call hmem => hcalls call (List.mem_cons_of_mem _ hmem)) hagree hrest

end Written

/-- A method that has been started has no code yet. -/
lemma written_start {flags : MethodFlags} {name descriptor : String} {pool pool' : ConstantPool}
    {m : MethodBody} (h : (MethodBody.start flags name descriptor).outcome pool = (.ok m, pool')) :
    ∃ entries, Written [] entries ⟨m, pool'⟩ := by
  rw [MethodBody.start] at h
  split at h
  · cases h
  · obtain ⟨_, _, _, h⟩ := bind_eq_ok.mp h
    obtain ⟨_, _, _, h⟩ := bind_eq_ok.mp h
    simp only at h
    split at h
    · cases h
    · rename_i code huse
      have hempty : Written [] [] ⟨{ m with code := .empty }, pool'⟩ :=
        ⟨⟨[], [], .empty⟩, nofun, nofun⟩
      cases h
      exact hempty.operation (fun _ => id) (.useLocals 0 _) ⟨trivial, nofun⟩ trivial trivial nofun huse
        rfl

end MethodBuilder

deriving instance DecidableEq for MethodBody

namespace MethodBody

open Step (bind_eq_ok)

variable {m : MethodBody} {handlers : List ExceptionHandler}

lemma offsetOf_eq_ok {label : Label} {offset : Nat} (h : m.offsetOf label = .ok offset) :
    m.code.offsetOf? label = some offset := by
  rw [offsetOf] at h
  split at h
  · cases h
  · rename_i state hstate
    rw [CodeDraft.offsetOf?_of_getElem? hstate]
    split at h
    · rename_i found hfound
      cases h
      exact hfound
    · cases h

/-- The labels of a range that holds code are where its handler says. -/
lemma handler?_eq_ok {range : ProtectedRange} {handler : ExceptionHandler}
    (h : m.handler? range = .ok (some handler)) :
    m.code.offsetOf? range.start ≠ m.code.offsetOf? range.stop ∧
      ∃ offset, m.code.offsetOf? range.handler = some offset ∧
        handler.handler = UInt16.ofNat offset := by
  obtain ⟨start, hstart, h⟩ := Except.bind_eq_ok.mp h
  obtain ⟨stop, hstop, h⟩ := Except.bind_eq_ok.mp h
  obtain ⟨offset, hoffset, h⟩ := Except.bind_eq_ok.mp h
  simp only at h
  split at h
  · cases h
  · split at h
    · cases h
    · rename_i hne
      cases h
      rw [offsetOf_eq_ok hstart, offsetOf_eq_ok hstop]
      exact ⟨fun heq => hne (Option.some.inj heq), offset, offsetOf_eq_ok hoffset, rfl⟩

lemma range_of_handlers (h : m.handlers = .ok handlers) {handler : ExceptionHandler}
    (hmem : handler ∈ handlers) : ∃ range ∈ m.ranges, m.handler? range = .ok (some handler) := by
  obtain ⟨found, hfound, heq⟩ := Except.bind_eq_ok.mp h
  cases heq
  obtain ⟨_, hsome, rfl⟩ := List.mem_filterMap.mp hmem
  obtain ⟨i, hi⟩ := List.mem_iff_getElem?.mp hsome
  obtain ⟨range, hrange, heq⟩ := exists_of_forall₂ (Except.forall₂_of_mapM hfound).flip hi
  exact ⟨range, Array.mem_toList_iff.mp (List.mem_of_getElem? hrange), heq⟩

/-- The code with its handlers, before the blocks that are never reached are blanked. -/
def draftedCode (m : MethodBody) (handlers : List ExceptionHandler) : MethodCode :=
  ⟨m.code.code, handlers, UInt16.ofNat m.code.maxStack, UInt16.ofNat m.code.maxLocals⟩

/-- The attribute for the code of a method says first how deep the stack gets. -/
lemma internCode_eq_ok {body : CodeBody} {written : Attribute} {pool pool' : ConstantPool}
    (h : (ConstantPool.internAttribute (.code body)).outcome pool = (.ok written, pool')) :
    pool'.text? written.name = some "Code" ∧
      ∃ rest, Bytes.readU2 written.info = some (body.maxStack, rest) := by
  obtain ⟨name, _, hname, h⟩ := bind_eq_ok.mp h
  split at h
  · rename_i info hencode
    cases h
    refine ⟨(ConstantPool.holds_of_utf8 hname).text?_eq, ?_⟩
    obtain ⟨handlers, _, hencode⟩ := Except.bind_eq_ok.mp hencode
    obtain ⟨attributes, _, hencode⟩ := Except.bind_eq_ok.mp hencode
    cases hencode
    simp only [List.append_assoc]
    exact ⟨_, Bytes.readU2_append _ _⟩
  · cases h

/-- A closed method has one attribute, for its code as it is when the frames are settled. -/
lemma close_eq_ok {scope : ClassScope} {version : Version} {pool pool' : ConstantPool}
    {method : Method} (hversion : version.hasStackMaps = true)
    (h : (m.close scope version).outcome pool = (.ok method, pool')) :
    m.code.checkResolved = .ok () ∧ 0 < m.code.code.size ∧ ∃ handlers settled later written rest,
      m.handlers = .ok handlers ∧
      ((m.draftedCode handlers).settle m.code.facts m.header scope).outcome pool =
        (.ok settled, later) ∧
      method.attributes = [written] ∧ pool'.text? written.name = some "Code" ∧
      Bytes.readU2 written.info = some (settled.method.maxStack, rest) := by
  obtain ⟨_, _, hcheck, h⟩ := bind_eq_ok.mp h
  obtain ⟨rfl, hresolved⟩ := Step.ofExcept_eq_ok hcheck
  simp only at h
  split at h
  · cases h
  rename_i hsize
  obtain ⟨handlers, _, hranges, h⟩ := bind_eq_ok.mp h
  obtain ⟨rfl, hhandlers⟩ := Step.ofExcept_eq_ok hranges
  obtain ⟨named, _, hnamed, h⟩ := bind_eq_ok.mp h
  obtain ⟨rfl, _⟩ := Step.ofExcept_eq_ok hnamed
  obtain ⟨mapped, later, hmapped, h⟩ := bind_eq_ok.mp h
  simp only [mapCode, hversion, if_true] at hmapped
  obtain ⟨settled, _, hsettle, hmapped⟩ := bind_eq_ok.mp hmapped
  cases hmapped
  obtain ⟨_, _, _, h⟩ := bind_eq_ok.mp h
  obtain ⟨_, _, _, h⟩ := bind_eq_ok.mp h
  obtain ⟨_, _, _, h⟩ := bind_eq_ok.mp h
  obtain ⟨attributes, _, _, h⟩ := bind_eq_ok.mp h
  obtain ⟨written, _, hwritten, h⟩ := bind_eq_ok.mp h
  cases h
  obtain ⟨hname, rest, hread⟩ := internCode_eq_ok hwritten
  refine ⟨hresolved, ?_, handlers, settled, later, written, rest, hhandlers, hsettle, rfl, hname,
    hread⟩
  simpa [Array.size_pos_iff] using hsize

end MethodBody

namespace MethodBuilder

variable {s : MethodBuilder}

/-- Where a range holds code, the depth noted at its handler is the one with which exceptions come
there. -/
def HandlersAgree (s : MethodBuilder) : Prop :=
  ∀ range ∈ s.method.ranges,
    s.method.code.offsetOf? range.start ≠ s.method.code.offsetOf? range.stop →
      s.method.code.depthAt? range.handler = some 1

instance (s : MethodBuilder) : Decidable s.HandlersAgree :=
  inferInstanceAs (Decidable (∀ range ∈ s.method.ranges, _ → _))

/-- The depths of the instructions that were written bound those of the frames. -/
lemma Written.depth_le {seen : List (MethodBuilder × BuilderCall)} {entries : List DepthEntry}
    (h : Written seen entries s) (hagree : s.HandlersAgree)
    (hresolved : s.method.code.checkResolved = .ok ()) (hpos : 0 < s.method.code.code.size)
    {handlers : List ExceptionHandler} (hhandlers : s.method.handlers = .ok handlers)
    {facts : ControlFacts} {header : MethodHeader} {scope : ClassScope} {settled : SettledMethod}
    {later : ConstantPool} (hsettle : ((s.method.draftedCode handlers).settle facts header
      scope).outcome s.pool = (.ok settled, later)) {k : Nat} {b : Block} {f g : Frame}
    (hb : settled.graph.blocks[k]? = some b) (hf : settled.frames[k]? = some (some f))
    (hg : (settled.program scope).Computes b ⟨f, later⟩ g) :
    g.depth ≤ settled.method.maxStack.toNat := by
  obtain ⟨done, items, htraced⟩ := h.traced
  have hmax : (UInt16.ofNat s.method.code.maxStack).toNat = s.method.code.maxStack := by
    have hle := htraced.tracked.maxStack_le
    rw [CodeDraft.maxDepth] at hle
    rw [UInt16.toNat_ofNat']
    omega
  have hlabels : ∀ handler ∈ handlers, ∃ label,
      s.method.code.offsetOf? label = some handler.handler.toNat ∧
        s.method.code.depthAt? label = some 1 := by
    intro handler hmem
    obtain ⟨range, hrange, hhandler⟩ := MethodBody.range_of_handlers hhandlers hmem
    obtain ⟨hne, offset, hoffset, heq⟩ := MethodBody.handler?_eq_ok hhandler
    have hsame : handler.handler.toNat = offset := by
      have hle := Nat.le_trans (htraced.offset_le hoffset) htraced.reflects.size
      rw [CodeDraft.maxCode] at hle
      rw [heq, UInt16.toNat_ofNat']
      omega
    exact ⟨range.handler, hsame ▸ hoffset, hagree range hrange hne⟩
  have hmap := htraced.tracked.depthMap htraced.reflects htraced.recorded hresolved h.words hlabels
  rw [← hmax] at hmap
  exact MethodCode.depth_le_of_settle hpos hmap hsettle hb hf hg

/-- The largest depth of the stack that is written for a method is no less than that of any frame
which is computed before or after an instruction of a block, from the frame at its entry, so long as
switches and handlers agree with the depths noted at labels. -/
theorem computed_depth_le_maxStack {flags : MethodFlags} {name descriptor : String}
    {pool started later : ConstantPool} {m : MethodBody} {calls : List BuilderCall}
    {scope : ClassScope} {version : Version} {method : Method}
    (hstart : (MethodBody.start flags name descriptor).outcome pool = (.ok m, started))
    (hcalls : ∀ call ∈ calls, call.InRange ∧ call.TracksDepth)
    (hrun : (calls.forM BuilderCall.run).outcome ⟨m, started⟩ = (.ok (), s))
    (hagree : BuilderCall.AllAgree [] ⟨m, started⟩ calls) (hhandlers : s.HandlersAgree)
    (hversion : version.hasStackMaps = true)
    (hclose : (s.method.close scope version).outcome s.pool = (.ok method, later)) :
    ∃ handlers settled inferred written maxStack rest, s.method.handlers = .ok handlers ∧
      ((s.method.draftedCode handlers).settle s.method.code.facts s.method.header scope).outcome
        s.pool = (.ok settled, inferred) ∧
      method.attributes = [written] ∧ later.text? written.name = some "Code" ∧
      Bytes.readU2 written.info = some (maxStack, rest) ∧
      ∀ (k : Nat) b f g, settled.graph.blocks[k]? = some b → settled.frames[k]? = some (some f) →
        (settled.program scope).Computes b ⟨f, inferred⟩ g → g.depth ≤ maxStack.toNat := by
  obtain ⟨_, hempty⟩ := written_start hstart
  obtain ⟨_, _, hwritten⟩ := hempty.run hcalls hagree hrun
  obtain ⟨hresolved, hpos, handlers, settled, inferred, written, rest, hranges, hsettle, hone,
    hname, hread⟩ := MethodBody.close_eq_ok hversion hclose
  refine ⟨handlers, settled, inferred, written, _, rest, hranges, hsettle, hone, hname, hread, ?_⟩
  intro k b f g hb hf hg
  exact hwritten.depth_le hhandlers hresolved hpos hranges hsettle hb hf hg

/-- A static method without parameters. -/
def plainMethod : MethodBody := ⟨"f", ⟨[], none⟩, ⟨0x0009⟩, 1, 2, .empty, #[], #[], #[]⟩

def plainBuilder : MethodBuilder :=
  ⟨plainMethod, ((MethodBody.start ⟨0x0009⟩ "f" "()V").outcome .empty).2⟩

lemma start_plainMethod : (MethodBody.start ⟨0x0009⟩ "f" "()V").outcome .empty =
    (.ok plainMethod, plainBuilder.pool) :=
  Prod.ext (by decide +kernel) rfl

/-- A loop around a switch that may leave it, with a handler for what is thrown in the loop. -/
def guardedLoop : List BuilderCall := [
  .newLabel, .newLabel, .newLabel, .newLabel,
  .literalInt 3,
  .store .int 0,
  .bindLabel 0,
  .load .int 0,
  .reserveSwitch 0 0,
  .bindLabel 1,
  .literalLong 100000,
  .emit .pop2 [],
  .load .int 0,
  .jump .ifne (.label 0),
  .bindLabel 2,
  .emit .returnVoid [],
  .bindHandler 3,
  .emit .pop [],
  .emit .returnVoid [],
  .addRange 1 2 3 none,
  .patchDefault 3 1,
  .patchCase 3 0 2]

def guardedLoopBuilder : MethodBuilder :=
  ((guardedLoop.forM BuilderCall.run).outcome plainBuilder).2

theorem guardedLoop_depth_le :
    (MethodBody.start ⟨0x0009⟩ "f" "()V").outcome .empty =
        (.ok plainMethod, plainBuilder.pool) ∧
      (∀ call ∈ guardedLoop, call.InRange ∧ call.TracksDepth) ∧
      (guardedLoop.forM BuilderCall.run).outcome plainBuilder = (.ok (), guardedLoopBuilder) ∧
      BuilderCall.AllAgree [] plainBuilder guardedLoop ∧ guardedLoopBuilder.HandlersAgree ∧
      ∃ method later handlers settled inferred written rest,
        (guardedLoopBuilder.method.close plainScope .java6).outcome guardedLoopBuilder.pool =
          (.ok method, later) ∧
        guardedLoopBuilder.method.handlers = .ok handlers ∧
        ((guardedLoopBuilder.method.draftedCode handlers).settle
          guardedLoopBuilder.method.code.facts guardedLoopBuilder.method.header
            plainScope).outcome guardedLoopBuilder.pool = (.ok settled, inferred) ∧
        method.attributes = [written] ∧ later.text? written.name = some "Code" ∧
        Bytes.readU2 written.info = some (2, rest) ∧
        ∀ (k : Nat) b f g, settled.graph.blocks[k]? = some b →
          settled.frames[k]? = some (some f) →
            (settled.program plainScope).Computes b ⟨f, inferred⟩ g → g.depth ≤ 2 := by
  have hcalls : ∀ call ∈ guardedLoop, call.InRange ∧ call.TracksDepth := by decide +kernel
  have hok : ((guardedLoop.forM BuilderCall.run).outcome plainBuilder).1 = .ok () := by
    decide +kernel
  have hrun : (guardedLoop.forM BuilderCall.run).outcome plainBuilder =
      (.ok (), guardedLoopBuilder) :=
    Prod.ext hok (by rw [guardedLoopBuilder])
  have hagree : BuilderCall.AllAgree [] plainBuilder guardedLoop := by decide +kernel
  have hhandlers : guardedLoopBuilder.HandlersAgree := by decide +kernel
  have hclosed : ((guardedLoopBuilder.method.close plainScope .java6).outcome
      guardedLoopBuilder.pool).1.map (fun method => method.attributes.map fun written =>
        (Bytes.readU2 written.info).map Prod.fst) = .ok [some 2] := by
    decide +kernel
  obtain ⟨method, later, hclose, hmax⟩ := Step.exists_of_map_eq_ok hclosed
  obtain ⟨handlers, settled, inferred, written, maxStack, rest, hranges, hsettle, hone, hname,
    hread, hdepth⟩ := computed_depth_le_maxStack start_plainMethod hcalls hrun hagree hhandlers
      (by decide) hclose
  rw [hone, List.map_singleton, hread] at hmax
  cases hmax
  exact ⟨start_plainMethod, hcalls, hrun, hagree, hhandlers, method, later, handlers, settled,
    inferred, written, rest, hclose, hranges, hsettle, hone, hname, hread, hdepth⟩

/-- A switch leads to code that was written as if the stack were empty there. -/
def misledSwitch : List BuilderCall := [
  .newLabel,
  .emit .iconst0 [],
  .emit .iconst0 [],
  .emit .iconst0 [],
  .reserveSwitch 0 0,
  .emit .pop [],
  .emit .pop [],
  .emit .returnVoid [],
  .bindLabel 0,
  .emit .iconst0 [],
  .emit .iconst0 [],
  .emit .returnVoid [],
  .patchDefault 3 0,
  .patchCase 3 0 0]

def misledSwitchBuilder : MethodBuilder :=
  ((misledSwitch.forM BuilderCall.run).outcome plainBuilder).2

/-- No depth is checked where a switch is pointed to a label. Here the switch leaves two words on
the stack and two more are pushed, but three is the largest depth that is written. -/
theorem misledSwitch_exceeds_maxStack :
    ∃ method later settled inferred written rest b f g,
      (∀ call ∈ misledSwitch, call.InRange ∧ call.TracksDepth) ∧
      (MethodBody.start ⟨0x0009⟩ "f" "()V").outcome .empty =
        (.ok plainMethod, plainBuilder.pool) ∧
      (misledSwitch.forM BuilderCall.run).outcome plainBuilder = (.ok (), misledSwitchBuilder) ∧
      (misledSwitchBuilder.method.close plainScope .java6).outcome misledSwitchBuilder.pool =
        (.ok method, later) ∧
      misledSwitchBuilder.method.handlers = .ok [] ∧
      ((misledSwitchBuilder.method.draftedCode []).settle misledSwitchBuilder.method.code.facts
        misledSwitchBuilder.method.header plainScope).outcome misledSwitchBuilder.pool =
          (.ok settled, inferred) ∧
      method.attributes = [written] ∧ Bytes.readU2 written.info = some (3, rest) ∧
      settled.graph.blocks[2]? = some b ∧ settled.frames[2]? = some (some f) ∧
      (settled.program plainScope).Computes b ⟨f, inferred⟩ g ∧ g.depth = 4 := by
  have hok : ((misledSwitch.forM BuilderCall.run).outcome plainBuilder).1 = .ok () := by
    decide +kernel
  have hclosed : ((misledSwitchBuilder.method.close plainScope .java6).outcome
      misledSwitchBuilder.pool).1.map (fun method => method.attributes.map fun written =>
        (Bytes.readU2 written.info).map Prod.fst) = .ok [some 3] := by
    decide +kernel
  have hsettled : (((misledSwitchBuilder.method.draftedCode []).settle
      misledSwitchBuilder.method.code.facts misledSwitchBuilder.method.header plainScope).outcome
        misledSwitchBuilder.pool).1.map (fun settled => (settled.graph.blocks[2]?,
          settled.frames[2]?, Code.decode settled.method.code 23,
          Code.decode settled.method.code 24)) =
      .ok (some ⟨23, 26, [], true⟩, some (some ⟨#[], [.integer, .integer]⟩),
        .ok ⟨.iconst0, 1, false, 0, 0, Nat.one_pos⟩, .ok ⟨.iconst0, 1, false, 0, 0, Nat.one_pos⟩) := by
    decide +kernel
  obtain ⟨method, later, hclose, hmax⟩ := Step.exists_of_map_eq_ok hclosed
  obtain ⟨written, hone, hread⟩ := List.map_eq_singleton_iff.mp hmax
  obtain ⟨⟨_, rest⟩, hread, rfl⟩ := Option.map_eq_some_iff.mp hread
  obtain ⟨settled, inferred, hsettle, heq⟩ := Step.exists_of_map_eq_ok hsettled
  simp only [Prod.mk.injEq] at heq
  obtain ⟨hb, hf, hdecode, hdecode'⟩ := heq
  have htraits : Opcode.iconst0.traits =
      .ok ⟨"ICONST_0", .plain, some 1, .normal, .fixed [] (some .int)⟩ := by
    decide +kernel
  have hexecute : ∀ pc f, (Machine.Site.execute ⟨pc, settled.method.code, plainScope⟩
      ⟨.iconst0, 1, false, 0, 0, Nat.one_pos⟩).outcome ⟨f, inferred⟩ =
        (.ok (), ⟨⟨f.locals, .integer :: f.stack⟩, inferred⟩) := by
    intro pc f
    rw [Machine.Site.execute, htraits]
    rfl
  have hfirst : (settled.program plainScope).Visits ⟨23, 26, [], true⟩
      ⟨⟨#[], [.integer, .integer]⟩, inferred⟩ 23 ⟨⟨#[], [.integer, .integer]⟩, inferred⟩ := .enter
  have hsecond : (settled.program plainScope).Visits ⟨23, 26, [], true⟩
      ⟨⟨#[], [.integer, .integer]⟩, inferred⟩ 24
      ⟨⟨#[], [.integer, .integer, .integer]⟩, inferred⟩ :=
    hfirst.next (by decide) hdecode htraits rfl (hexecute 23 _)
  have hg := BlockProgram.Computes.after hsecond (by decide) hdecode' (hexecute 24 _)
  exact ⟨method, later, settled, inferred, written, rest, _, _, _, by decide +kernel,
    start_plainMethod, Prod.ext hok (by rw [misledSwitchBuilder]), hclose, by decide +kernel,
    hsettle, hone, hread, hb, hf, hg, rfl⟩

end MethodBuilder
end ClassAssembly
