import ClassAssembly.Proofs.Propagation

/-! Inference ends in a fixpoint. A block that does not wait has sent on all frames that its entry
frame gives rise to, and wider entry frames accept all that narrower ones did. -/
namespace ClassAssembly

lemma Worklist.mem_push {w : Worklist} {i j : Nat} :
    j ∈ (w.push i).toList ↔ j ∈ w.toList ∨ j = i := by
  rw [toList_push]
  split
  · constructor
    · exact Or.inl
    · rintro (hj | rfl)
      · exact hj
      · assumption
  · simp

namespace Inference

variable {o : ClassOrder} {s t u : Inference}

/-- The block was reached, and its entry frame covers this frame. -/
def Accepts (o : ClassOrder) (s : Inference) (k : Nat) (frame : Frame) : Prop :=
  ∃ entry, s.frames[k]? = some (some entry) ∧ entry.Covers o s.pool frame

/-- Entry frames become wider and constants more. -/
structure Widens (o : ClassOrder) (s t : Inference) : Prop where
  pool : s.pool.Extends t.pool
  wider : ∀ (k : Nat) (f : Frame), s.frames[k]? = some (some f) → t.Accepts o k f

namespace Widens

theorem refl (s : Inference) : Widens o s s :=
  ⟨.refl _, fun _ f hf => ⟨f, hf, .refl f⟩⟩

lemma accepts (h : Widens o s t) {k : Nat} {frame : Frame}
    (haccepts : s.Accepts o k frame) : t.Accepts o k frame := by
  obtain ⟨entry, hentry, hcovers⟩ := haccepts
  obtain ⟨entry', hentry', hcovers'⟩ := h.wider k entry hentry
  exact ⟨entry', hentry', hcovers'.trans (hcovers.mono h.pool)⟩

theorem trans (hst : Widens o s t) (htu : Widens o t u) : Widens o s u :=
  ⟨hst.pool.trans htu.pool, fun k f hf => htu.accepts (hst.wider k f hf)⟩

end Widens

/-- Besides, each block whose frame changed is waiting. -/
structure Grows (o : ClassOrder) (s t : Inference) : Prop extends Widens o s t where
  still : ∀ (k : Nat) (f : Frame), t.frames[k]? = some (some f) → k ∉ t.worklist.toList →
    s.frames[k]? = some (some f)
  waiting : ∀ k ∈ s.worklist.toList, k ∈ t.worklist.toList

namespace Grows

theorem refl (s : Inference) : Grows o s s :=
  ⟨.refl s, fun _ _ hf _ => hf, fun _ hk => hk⟩

theorem trans (hst : Grows o s t) (htu : Grows o t u) : Grows o s u where
  toWidens := hst.toWidens.trans htu.toWidens
  still k f hf hk := hst.still k f (htu.still k f hf hk) fun ht => hk (htu.waiting k ht)
  waiting k hk := htu.waiting k (hst.waiting k hk)

lemma of_pool {later : ConstantPool} (h : s.pool.Extends later) :
    Grows o s { s with pool := later } :=
  ⟨⟨h, fun _ f hf => ⟨f, hf, .refl f⟩⟩, fun _ _ hf _ => hf, fun _ hk => hk⟩

/-- One entry frame is replaced by one that covers it, and the block waits unless it is the same. -/
lemma of_set {frames : Array (Option Frame)} {worklist worklist' : Worklist}
    {pool later : ConstantPool} {i : Nat} {old : Option Frame} {new : Frame}
    (hold : frames[i]? = some old) (hpool : pool.Extends later)
    (hcovers : ∀ f, old = some f → new.Covers o later f)
    (hwait : i ∉ worklist'.toList → old = some new)
    (hworklist : ∀ k ∈ worklist.toList, k ∈ worklist'.toList) :
    Grows o ⟨frames, worklist, pool⟩ ⟨frames.setIfInBounds i (some new), worklist', later⟩ := by
  obtain ⟨hi, hold'⟩ := Array.getElem?_eq_some_iff.mp hold
  have hget : ∀ k, (frames.setIfInBounds i (some new))[k]? =
      if i = k then some (some new) else frames[k]? := by
    intro k
    rw [Array.getElem?_setIfInBounds, if_pos hi]
  refine ⟨⟨hpool, ?_⟩, ?_, hworklist⟩
  · intro k f hf
    by_cases hik : i = k
    · subst hik
      rw [hold] at hf
      cases hf
      exact ⟨new, by simp [hget], hcovers f rfl⟩
    · exact ⟨f, by simpa [hget, hik] using hf, .refl f⟩
  · intro k f hf hk
    simp only [hget] at hf
    split at hf
    · rename_i hik
      subst hik
      cases hf
      rw [hold, hwait hk]
    · exact hf

end Grows

/-- What holds of every state of the inference. The sites in `Made` are those of objects that may
wait for their constructor. -/
structure Valid (o : ClassOrder) (p : BlockProgram) (size : Nat) (Made : Inference → UInt16 → Prop)
    (s : Inference) : Prop where
  frames_size : s.frames.size = p.graph.blocks.size
  named : o.Named s.pool
  formed : ∀ (k : Nat) (f : Frame), s.frames[k]? = some (some f) → f.Formed size (Made s)

end Inference

/-- The offset is that of an instruction found from `start` on. -/
inductive Code.Reaches (code : Array UInt8) (start : Nat) : Nat → Prop
  | here : Reaches code start start
  | next {pc : Nat} {insn : Instruction} (h : Reaches code start pc)
      (hdecode : Code.decode code pc = .ok insn) : Reaches code start (pc + insn.length)

namespace BlockProgram

/-- The code is short enough for offsets of two bytes, and each block that does not end the code is
followed by the next one. -/
structure Wired (o : ClassOrder) (p : BlockProgram) : Prop where
  merges : o.Merges p.scope
  size_le : p.code.size ≤ 65536
  next : ∀ (k : Nat) (b : Block), p.graph.blocks[k]? = some b → b.stop < p.code.size →
    ∃ b', p.graph.blocks[k + 1]? = some b' ∧ b'.start = b.stop

/-- `Made` holds of each object made by a block that was reached, and goes on to do so. -/
structure MadeBy (o : ClassOrder) (p : BlockProgram) (Made : Inference → UInt16 → Prop) : Prop where
  mono : ∀ s t site, Inference.Widens o s t → Made s site → Made t site
  new : ∀ s (k : Nat) (b : Block) (f : Frame) (pc : Nat) insn traits,
    p.graph.blocks[k]? = some b → s.frames[k]? = some (some f) →
    Code.Reaches p.code b.start pc → pc < b.stop → Code.decode p.code pc = .ok insn →
    insn.opcode.traits = .ok traits → traits.effect = .new → Made s (UInt16.ofNat pc)

end BlockProgram

namespace Inference

variable {o : ClassOrder} {p : BlockProgram} {size : Nat} {Made : Inference → UInt16 → Prop} {s t : Inference}

lemma Valid.of_set (hmade : p.MadeBy o Made) {frames : Array (Option Frame)}
    {worklist worklist' : Worklist} {pool later : ConstantPool} {i : Nat} {new : Frame}
    (hs : Valid o p size Made ⟨frames, worklist, pool⟩)
    (hwidens : Widens o ⟨frames, worklist, pool⟩
      ⟨frames.setIfInBounds i (some new), worklist', later⟩)
    (hnamed : o.Named later) (hnew : new.Formed size (Made ⟨frames, worklist, pool⟩)) :
    Valid o p size Made ⟨frames.setIfInBounds i (some new), worklist', later⟩ where
  frames_size := by simpa using hs.frames_size
  named := hnamed
  formed k f hf := by
    have hmono := fun site => hmade.mono _ _ site hwidens
    simp only [Array.getElem?_setIfInBounds] at hf
    split at hf
    · split at hf
      · cases hf
        exact hnew.mono hmono
      · cases hf
    · exact (hs.formed k f hf).mono hmono

lemma Valid.of_pool (hmade : p.MadeBy o Made) (hs : s.Valid o p size Made) {later : ConstantPool}
    (hpool : s.pool.Extends later) (hnamed : o.Named later) :
    Valid o p size Made { s with pool := later } :=
  ⟨hs.frames_size, hnamed, fun k f hf =>
    (hs.formed k f hf).mono fun site => hmade.mono _ _ site (Grows.of_pool hpool).toWidens⟩

/-- A frame that was merged is accepted from then on. -/
lemma mergeEntry_spec (hw : p.Wired o) (hmade : p.MadeBy o Made) {k : Nat} {frame : Frame}
    (hs : s.Valid o p size Made) (hframe : frame.Formed size (Made s))
    (h : (mergeEntry p k frame).outcome s = (.ok (), t)) :
    Grows o s t ∧ t.Valid o p size Made ∧ t.Accepts o k frame := by
  obtain ⟨frames, worklist, pool⟩ := s
  simp only [mergeEntry, Step.outcome_ofOutcome] at h
  split at h
  · cases h
  · rename_i hreached
    cases h
    have hgrows : Grows o ⟨frames, worklist, pool⟩
        ⟨frames.setIfInBounds k (some frame), worklist.push k, pool⟩ := by
      refine .of_set hreached (.refl _) (by simp) (fun hk => ?_) (fun j hj => ?_)
      · exact absurd (Worklist.mem_push.mpr (Or.inr rfl)) hk
      · exact Worklist.mem_push.mpr (Or.inl hj)
    refine ⟨hgrows, hs.of_set hmade hgrows.toWidens hs.named hframe, frame, ?_, .refl _⟩
    simp [(Array.getElem?_eq_some_iff.mp hreached).1]
  · rename_i entry hentry
    have hformed := hs.formed k entry hentry
    rcases hmerge : (Machine.merge p.scope ((p.graph.blocks[k]?.map Block.start).getD 0)
      frame).outcome ⟨entry, pool⟩ with ⟨_ | changed, merged, later⟩
    · simp only [hmerge] at h
      cases h
    · simp only [hmerge] at h
      cases h
      obtain ⟨hext, hnamed, hold, hnew, hsame⟩ := Machine.merge_covers hw.merges hs.named
        (hformed.size_eq.trans hframe.size_eq.symm) hmerge
      have hgrows : Grows o ⟨frames, worklist, pool⟩ ⟨frames.setIfInBounds k (some merged),
          if changed then worklist.push k else worklist, later⟩ := by
        refine .of_set hentry hext (fun f hf => ?_) (fun hk => ?_) (fun j hj => ?_)
        · cases hf
          exact hold
        · cases changed with
          | false => rw [hsame rfl]
          | true => exact absurd (Worklist.mem_push.mpr (Or.inr rfl)) hk
        · split
          · exact Worklist.mem_push.mpr (Or.inl hj)
          · exact hj
      refine ⟨hgrows, hs.of_set hmade hgrows.toWidens hnamed (hformed.of_covers hold), merged, ?_,
        hnew⟩
      simp [(Array.getElem?_eq_some_iff.mp hentry).1]

/-- A frame that was sent has landed. -/
lemma send_spec (hw : p.Wired o) (hmade : p.MadeBy o Made) {source : Nat} {target : Int}
    {frame : Frame} (hs : s.Valid o p size Made) (hframe : frame.Formed size (Made s))
    (h : (send p source target frame).outcome s = (.ok (), t)) :
    Grows o s t ∧ t.Valid o p size Made ∧ p.Lands (t.Accepts o) target frame := by
  unfold send at h
  split at h
  · rename_i k hk
    obtain ⟨hgrows, ht, haccepts⟩ := mergeEntry_spec hw hmade hs hframe h
    cases target with
    | negSucc n => cases hk
    | ofNat n =>
      obtain ⟨b, hb, hstart⟩ := Search.exists_of_find?_eq_some hk
      exact ⟨hgrows, ht, k, b, hb, congrArg Int.ofNat hstart, haccepts⟩
  · cases h

/-- What it means for a handler that an exception with this frame reached it. -/
def Handled (o : ClassOrder) (p : BlockProgram) (frame : Frame) (h : ExceptionHandler) (s : Inference) : Prop :=
  ∃ exception, h.caught.outcome s.pool = (.ok exception, s.pool) ∧
    p.Lands (s.Accepts o) h.handler.toNat ⟨frame.locals, [exception]⟩

lemma constants_eq_ok {α : Type} {step : Step ConstantPool α} {a : α}
    (h : (constants step).outcome s = (.ok a, t)) :
    ∃ later, step.outcome s.pool = (.ok a, later) ∧ t = { s with pool := later } := by
  rcases hstep : step.outcome s.pool with ⟨result, later⟩
  simp only [constants, Step.outcome_ofOutcome, hstep] at h
  cases h
  exact ⟨later, rfl, rfl⟩

lemma allowed_caught {h : ExceptionHandler} {pool later : ConstantPool} {t : VerificationType}
    {Made : UInt16 → Prop} (hcaught : h.caught.outcome pool = (.ok t, later)) :
    t.Allowed Made := by
  unfold ExceptionHandler.caught at hcaught
  split at hcaught
  · cases hcaught
    rintro _ ⟨⟩
  · exact Machine.Site.allowed_ofClass hcaught

lemma sendToHandlers_eq (p : BlockProgram) (pc : Nat) (frame : Frame) :
    sendToHandlers p pc frame = (p.handlers.filter (·.covers (pc % 65536))).forM fun h =>
      constants h.caught >>= fun exception =>
        send p pc h.handler.toNat ⟨frame.locals, [exception]⟩ := by
  unfold sendToHandlers
  refine congrArg _ (funext fun h => ?_)
  unfold ExceptionHandler.caught
  cases h.catchType <;> rfl

lemma sendToHandlers_spec (hw : p.Wired o) (hmade : p.MadeBy o Made) {pc : Nat} (hpc : pc < 65536)
    {frame : Frame} (hs : s.Valid o p size Made) (hframe : frame.Formed size (Made s))
    (h : (sendToHandlers p pc frame).outcome s = (.ok (), t)) :
    Grows o s t ∧ t.Valid o p size Made ∧
      ∀ h ∈ p.handlers, h.covers pc → Handled o p frame h t := by
  rw [sendToHandlers_eq] at h
  have hloop := Step.forM_ensures (fun u => u.Valid o p size Made ∧ Grows o s u)
    (Grows o) (Handled o p frame) (fun u => .refl u) (fun _ _ _ => .trans) ?_ _ ?_ s t
    ⟨hs, .refl s⟩ h
  · obtain ⟨hgrows, ⟨ht, _⟩, hall⟩ := hloop
    refine ⟨hgrows, ht, fun h hh hcovers => hall h ?_⟩
    rw [List.mem_filter, Nat.mod_eq_of_lt hpc]
    exact ⟨hh, hcovers⟩
  · rintro h u v hgrows ⟨exception, hcaught, hlands⟩
    exact ⟨exception, h.repeatable_caught.again hcaught hgrows.pool,
      hlands.mono rfl fun _ _ => hgrows.accepts⟩
  · rintro h _ u v ⟨hu, hsu⟩ hstep
    obtain ⟨exception, _, hconstants, hsend⟩ := Step.bind_eq_ok.mp hstep
    obtain ⟨later, hcaught, rfl⟩ := constants_eq_ok hconstants
    obtain ⟨hext, hnamed⟩ := h.repeatable_caught.grows hcaught
    have hpool : Grows o u { u with pool := later } := .of_pool hext
    have hframe' : Frame.Formed size (Made { u with pool := later })
        ⟨frame.locals, [exception]⟩ :=
      (hframe.mono fun site => hmade.mono _ _ site (hsu.trans hpool).toWidens).with_stack
        (by simpa using allowed_caught hcaught)
    obtain ⟨hgrows, hv, hlands⟩ := send_spec hw hmade (hu.of_pool hmade hext (o.named_mono hnamed hu.named))
      hframe' hsend
    refine ⟨hpool.trans hgrows, ⟨hv, hsu.trans (hpool.trans hgrows)⟩,
      exception, h.repeatable_caught.again hcaught hgrows.pool, hlands⟩

lemma execute_eq_ok {pc : Nat} {insn : Instruction} {frame frame' : Frame}
    (h : (execute p pc insn frame).outcome s = (.ok frame', t)) :
    ∃ later, (Machine.Site.execute ⟨pc, p.code, p.scope⟩ insn).outcome ⟨frame, s.pool⟩ =
      (.ok (), ⟨frame', later⟩) ∧ t = { s with pool := later } := by
  rcases hstep : (Machine.Site.execute ⟨pc, p.code, p.scope⟩ insn).outcome ⟨frame, s.pool⟩ with
    ⟨_ | _, ⟨after, later⟩⟩
  · simp only [execute, Step.outcome_ofOutcome, hstep] at h
    cases h
  · simp only [execute, Step.outcome_ofOutcome, hstep] at h
    cases h
    exact ⟨later, rfl, rfl⟩

/-- The loop over the targets of an instruction. -/
lemma sendToTargets_spec (hw : p.Wired o) (hmade : p.MadeBy o Made) {pc : Nat} {targets : List Int}
    {frame : Frame} (hs : s.Valid o p size Made) (hframe : frame.Formed size (Made s))
    (h : (targets.forM fun target => send p pc target frame).outcome s = (.ok (), t)) :
    Grows o s t ∧ t.Valid o p size Made ∧
      ∀ target ∈ targets, p.Lands (t.Accepts o) target frame := by
  have hloop := Step.forM_ensures (fun u => u.Valid o p size Made ∧ Grows o s u)
    (Grows o) (fun target u => p.Lands (u.Accepts o) target frame) (fun u => .refl u)
    (fun _ _ _ => .trans)
    (fun _ _ _ hgrows hlands => hlands.mono rfl fun _ _ => hgrows.accepts) targets ?_ s t
    ⟨hs, .refl s⟩ h
  · exact ⟨hloop.1, hloop.2.1.1, hloop.2.2⟩
  · rintro target _ u v ⟨hu, hsu⟩ hsend
    obtain ⟨hgrows, hv, hlands⟩ := send_spec hw hmade hu
      (hframe.mono fun site => hmade.mono _ _ site hsu.toWidens) hsend
    exact ⟨hgrows, ⟨hv, hsu.trans hgrows⟩, hlands⟩

/-- Once a block has been executed, its frames have reached all places they go to. The induction is
on the distance to the end of the block. -/
theorem executeFrom_spec (hw : p.Wired o) (hmade : p.MadeBy o Made) {k : Nat} {b : Block}
    (hb : p.graph.blocks[k]? = some b) (n pc : Nat) (hn : b.stop - pc < n) {frame : Frame}
    (hpc : Code.Reaches p.code b.start pc) (hs : s.Valid o p size Made)
    (hframe : frame.Formed size (Made s)) (hreached : ∃ entry, s.frames[k]? = some (some entry))
    (h : (executeFrom p k b.stop pc frame).outcome s = (.ok (), t)) :
    Grows o s t ∧ t.Valid o p size Made ∧
      p.Propagates t.pool (t.Accepts o) b.stop pc frame := by
  induction n generalizing pc frame s with
  | zero => omega
  | succ n ih =>
    rw [executeFrom] at h
    split at h
    · rename_i hlt
      split at h
      · cases h
      · rename_i insn hdecode
        obtain ⟨_, s₁, hhandlers, h₁⟩ := Step.bind_eq_ok.mp h
        obtain ⟨frame', _, hstep, h₂⟩ := Step.bind_eq_ok.mp h₁
        obtain ⟨later, hexecute, rfl⟩ := execute_eq_ok hstep
        obtain ⟨traits, _, htraits', h₃⟩ := Step.bind_eq_ok.mp h₂
        obtain ⟨htraits, rfl⟩ := Prod.mk.inj htraits'
        obtain ⟨targets, _, htargets', h₄⟩ := Step.bind_eq_ok.mp h₃
        obtain ⟨htargets, rfl⟩ := Prod.mk.inj htargets'
        obtain ⟨_, s₃, hsend, h₅⟩ := Step.bind_eq_ok.mp h₄
        -- First the handlers, with the frame before the instruction.
        have hsmall : pc < 65536 := Nat.lt_of_lt_of_le (Code.lt_of_decode hdecode) hw.size_le
        obtain ⟨hgrows₁, hs₁, hhandled⟩ := sendToHandlers_spec hw hmade hsmall hs hframe hhandlers
        have hframe₁ := hframe.mono fun site => hmade.mono _ _ site hgrows₁.toWidens
        obtain ⟨entry, hentry⟩ := hreached
        obtain ⟨entry₁, hentry₁, _⟩ := hgrows₁.wider k entry hentry
        -- Then the instruction itself.
        have hreplays : Machine.Replays size (Made s₁) _ _ _ := Machine.Site.replays_execute
          (.refl ⟨pc, p.code, p.scope⟩) insn fun traits htraits hnew =>
            hmade.new s₁ k b entry₁ pc insn traits hb hentry₁ hpc hlt hdecode htraits hnew
        have hreplayed := hreplays hframe₁ hexecute
        have hgrows₂ : Grows o s₁ { s₁ with pool := later } := .of_pool hreplayed.grows
        have hs₂ := hs₁.of_pool hmade hreplayed.grows (o.named_mono hreplayed.named hs₁.named)
        have hframe₂ := hreplayed.formed.mono fun site => hmade.mono _ _ site hgrows₂.toWidens
        -- Then its targets, with the frame after it.
        obtain ⟨hgrows₃, hs₃, hlands⟩ := sendToTargets_spec hw hmade hs₂ hframe₂ hsend
        have hframe₃ := hframe₂.mono fun site => hmade.mono _ _ site hgrows₃.toWidens
        have hfrom₁ := hgrows₂.trans hgrows₃
        have hinstruction : ∀ u, Grows o s₃ u → (traits.flow.isUnconditional = false →
            p.Propagates u.pool (u.Accepts o) b.stop (pc + insn.length) frame') →
            p.Propagates u.pool (u.Accepts o) b.stop pc frame := by
          intro u hu hnext
          refine .instruction hlt hdecode htraits ?_
            (hreplayed.again _ (hgrows₃.pool.trans hu.pool)) htargets
            (fun target ht => (hlands target ht).mono rfl fun _ _ => hu.accepts) hnext
          intro h hh hcovers
          obtain ⟨exception, hcaught, hlands⟩ := hhandled h hh hcovers
          have hfrom := hfrom₁.trans hu
          exact ⟨exception, h.repeatable_caught.again hcaught hfrom.pool,
            hlands.mono rfl fun _ _ => hfrom.accepts⟩
        split at h₅
        · rename_i hflow
          cases h₅
          exact ⟨hgrows₁.trans hfrom₁, hs₃, hinstruction _ (.refl _) (by simp [hflow])⟩
        · have hpos := insn.length_pos
          obtain ⟨entry₃, hentry₃, _⟩ := (hgrows₁.trans hfrom₁).wider k entry hentry
          obtain ⟨hgrows₄, ht, hrest⟩ := ih (pc + insn.length) (by omega) (hpc.next hdecode) hs₃
            hframe₃ ⟨entry₃, hentry₃⟩ h₅
          exact ⟨(hgrows₁.trans hfrom₁).trans hgrows₄, ht,
            hinstruction t hgrows₄ fun _ => hrest⟩
    · rename_i hge
      split at h
      · cases h
      · rename_i hsize
        obtain ⟨b', hb', hstart⟩ := hw.next k b hb (by omega)
        obtain ⟨hgrows, ht, haccepts⟩ := mergeEntry_spec hw hmade hs hframe h
        exact ⟨hgrows, ht, .falls (by omega) (by omega)
          ⟨k + 1, b', hb', by rw [hstart], haccepts⟩⟩

lemma executeBlock_spec (hw : p.Wired o) (hmade : p.MadeBy o Made) {k : Nat}
    (hs : s.Valid o p size Made) (h : (executeBlock p k).outcome s = (.ok (), t)) :
    Grows o s t ∧ t.Valid o p size Made ∧
      ∀ b f, p.graph.blocks[k]? = some b → s.frames[k]? = some (some f) →
        p.Propagates t.pool (t.Accepts o) b.stop b.start f := by
  obtain ⟨_, _, hget, hmatch⟩ := Step.bind_eq_ok.mp h
  cases hget
  split at hmatch
  · rename_i b f hb hf
    obtain ⟨hgrows, ht, hpropagates⟩ := executeFrom_spec hw hmade hb _ b.start
      (Nat.lt_succ_self _) .here hs (hs.formed k f hf) ⟨f, hf⟩ hmatch
    refine ⟨hgrows, ht, fun b' f' hb' hf' => ?_⟩
    rw [hb] at hb'
    rw [hf] at hf'
    cases hb'
    cases hf'
    exact hpropagates
  · rename_i hnone
    cases hmatch
    exact ⟨.refl _, hs, fun b f hb hf => absurd hf (hnone b f hb)⟩

/-- Every block that was reached and does not wait has sent its frames. -/
def Settled (o : ClassOrder) (p : BlockProgram) (s : Inference) : Prop :=
  ∀ (k : Nat) (b : Block) (f : Frame), p.graph.blocks[k]? = some b → s.frames[k]? = some (some f) →
    k ∉ s.worklist.toList → p.Propagates s.pool (s.Accepts o) b.stop b.start f

/-- One round keeps blocks settled that do not wait, and settles the one that it executes. -/
lemma settled_round (hw : p.Wired o) (hmade : p.MadeBy o Made) {k : Nat} {rest : Worklist}
    (hs : s.Valid o p size Made) (hsettled : Settled o p s)
    (hpop : s.worklist.toList = k :: rest.toList)
    (h : (executeBlock p k).outcome { s with worklist := rest } = (.ok (), t)) :
    Widens o s t ∧ t.Valid o p size Made ∧ Settled o p t := by
  have hmono : ∀ site, Made s site → Made { s with worklist := rest } site :=
    fun site => hmade.mono _ _ site ⟨.refl _, fun _ f hf => ⟨f, hf, .refl f⟩⟩
  have hs' : Valid o p size Made { s with worklist := rest } :=
    ⟨hs.frames_size, hs.named, fun j f hf => (hs.formed j f hf).mono hmono⟩
  obtain ⟨hgrows, ht, hexecuted⟩ := executeBlock_spec hw hmade hs' h
  have hwidens : Widens o s t := ⟨hgrows.pool, hgrows.wider⟩
  refine ⟨hwidens, ht, ?_⟩
  intro j b f hb hf hj
  have hf' : s.frames[j]? = some (some f) := hgrows.still j f hf hj
  by_cases hjk : j = k
  · subst hjk
    exact hexecuted b f hb hf'
  · have hj' : j ∉ s.worklist.toList := by
      rw [hpop, List.mem_cons, not_or]
      exact ⟨hjk, fun hrest => hj (hgrows.waiting j hrest)⟩
    exact (hsettled j b f hb hf' hj').mono hwidens.pool (fun _ _ => hwidens.accepts)
      (hs.formed j f hf')

/-- When inference ends, every block that was reached has sent its frames. -/
theorem settle_spec (hw : p.Wired o) (hmade : p.MadeBy o Made) (n : Nat) (hs : s.Valid o p size Made)
    (hsettled : Settled o p s) (h : (settle p n).outcome s = (.ok (), t)) :
    Widens o s t ∧ t.Valid o p size Made ∧ Settled o p t ∧ t.worklist.toList = [] := by
  induction n generalizing s with
  | zero => cases h
  | succ n ih =>
    rw [settle] at h
    obtain ⟨_, _, hget, h⟩ := Step.bind_eq_ok.mp h
    cases hget
    split at h
    · rename_i hnone
      cases h
      exact ⟨.refl _, hs, hsettled, (Worklist.pop?_eq_none_iff _).mp hnone⟩
    · rename_i k rest hpop
      obtain ⟨_, _, hset, h⟩ := Step.bind_eq_ok.mp h
      cases hset
      obtain ⟨_, u, hblock, hrest⟩ := Step.bind_eq_ok.mp h
      obtain ⟨hwidens, hu, hsettled'⟩ := settled_round hw hmade hs hsettled
        (Worklist.toList_of_pop? hpop) hblock
      obtain ⟨hwidens', ht, hend⟩ := ih hu hsettled' hrest
      exact ⟨hwidens.trans hwidens', ht, hend⟩

end Inference
end ClassAssembly
