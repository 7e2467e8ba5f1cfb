import ClassAssembly.Proofs.CodeWalk
import ClassAssembly.Proofs.EntryFrame
import ClassAssembly.Proofs.Fixpoint
import ClassAssembly.Proofs.StackWords

/-! A rule for what holds whenever blocks are executed: conditions on the states, on the frames
between instructions and on the frames that are sent on, each of which follows from the others by one
step. -/
namespace ClassAssembly

namespace VerificationType

lemma width_le_of_covers {o : ClassOrder} {pool : ConstantPool} {a b : VerificationType}
    (h : Covers o pool a b) : width a ≤ width b := by
  cases h with
  | refl => exact Nat.le_refl _
  | top =>
    have hone : width VerificationType.top = 1 := rfl
    rcases Frame.width_eq b with hb | hb <;> omega
  | null => exact Nat.le_refl 1
  | classes => exact Nat.le_refl 1

/-- Merging fails only for want of room for a class constant. -/
lemma refusal_of_merge {c : ClassScope} {a b : VerificationType} {pool later : ConstantPool}
    {e : Error} (h : (merge c a b).outcome pool = (.error e, later)) : e.Refusal := by
  by_cases hobjects : ∃ i j, a = .object i ∧ b = .object j ∧ i ≠ j
  · obtain ⟨i, j, rfl, rfl, hij⟩ := hobjects
    rw [merge_objects c hij] at h
    exact ((Machine.adds_ofClass _).refused h).refusal
  · obtain ⟨t, ht, _⟩ := merge_eq_pure c a b hobjects
    rw [ht] at h
    cases h

end VerificationType

namespace Frame

variable {o : ClassOrder} {pool : ConstantPool} {f g : Frame}

lemma depth_le_of_covers (h : f.Covers o pool g) : f.depth ≤ g.depth := by
  have hsum : ∀ xs ys : List VerificationType, List.Forall₂ (VerificationType.Covers o pool) xs ys →
      (xs.map width).sum ≤ (ys.map width).sum := by
    intro xs ys hxs
    induction hxs with
    | nil => exact Nat.le_refl _
    | cons hab _ ih =>
      have := VerificationType.width_le_of_covers hab
      simp only [List.map_cons, List.sum_cons]
      omega
  exact hsum f.stack g.stack h.stack

end Frame

/-- If it is an error, then a plain one. -/
def Except.Plainly {α : Type} (result : Except Error α) : Prop := ∀ e, result = .error e → e.Plain

lemma Except.Plainly.bind {α β : Type} {result : Except Error α} {next : α → Except Error β}
    (hr : Except.Plainly result) (hn : ∀ a, Except.Plainly (next a)) :
    Except.Plainly (result >>= next) := by
  cases result with
  | error e =>
    intro e' h
    cases h
    exact hr e rfl
  | ok a => exact hn a

lemma Except.Plainly.ok {α : Type} (a : α) : Except.Plainly (.ok a) := nofun

namespace Code

open ClassAssembly.Except (Plainly)

variable (code : Array UInt8)

lemma plainly_readByte (offset : Nat) : Plainly (readByte code offset) := by
  rintro e h
  unfold readByte at h
  split at h
  · cases h
  · cases h
    trivial

lemma plainly_readBigEndian (n offset before : Nat) :
    Plainly (readBigEndian code n offset before) := by
  induction n generalizing offset before with
  | zero => exact .ok _
  | succ n ih =>
    rw [readBigEndian]
    split
    · rename_i e he
      rintro _ ⟨⟩
      exact plainly_readByte code offset e he
    · exact ih _ _

lemma plainly_readUnsigned (n offset : Nat) : Plainly (readUnsigned code n offset) :=
  (plainly_readBigEndian code n offset 0).bind fun _ => .ok _

lemma plainly_readSigned (n offset : Nat) : Plainly (readSigned code n offset) :=
  (plainly_readUnsigned code n offset).bind fun _ => .ok _

lemma plainly_readWords (n offset : Nat) (before : List Int) :
    Plainly (readWords code n offset before) := by
  induction n generalizing offset before with
  | zero => exact .ok _
  | succ n ih =>
    rw [readWords]
    split
    · rename_i e he
      rintro _ ⟨⟩
      exact plainly_readSigned code 4 offset e he
    · exact ih _ _

lemma plainly_decodeSwitch (pc : Nat) : Plainly (decodeSwitch code pc) := by
  refine (plainly_readSigned code _ _).bind fun _ => (plainly_readSigned code _ _).bind fun _ =>
    (plainly_readSigned code _ _).bind fun _ => ?_
  split
  · rintro _ ⟨⟩
    trivial
  · exact (plainly_readWords code _ _ _).bind fun _ => .ok _

lemma plainly_traits (op : Opcode) : Plainly op.traits := fun _ => Opcode.plain_of_traits

lemma plainly_decodeWide (pc : Nat) : Plainly (decodeWide code pc) := by
  refine (plainly_readByte code _).bind fun _ => (plainly_readUnsigned code _ _).bind fun _ =>
    (plainly_traits _).bind fun traits => ?_
  cases traits.form
  case localIndex => exact .ok _
  case increment => exact (plainly_readSigned code _ _).bind fun _ => .ok _
  all_goals
    rintro _ ⟨⟩
    trivial

lemma plainly_decode (pc : Nat) : Plainly (decode code pc) := by
  refine (plainly_readByte code _).bind fun _ => (plainly_traits _).bind fun traits => ?_
  cases traits.form
  case plain => exact .ok _
  case signedByte | signedShort | branch => exact (plainly_readSigned code _ _).bind fun _ => .ok _
  case smallConstant | localIndex | arrayCode | constant =>
    exact (plainly_readUnsigned code _ _).bind fun _ => .ok _
  case increment =>
    exact (plainly_readUnsigned code _ _).bind fun _ => (plainly_readSigned code _ _).bind fun _ => .ok _
  case interfaceCall | dimensions =>
    exact (plainly_readUnsigned code _ _).bind fun _ =>
      (plainly_readUnsigned code _ _).bind fun _ => .ok _
  case switch => exact (plainly_decodeSwitch code pc).bind fun _ => .ok _
  case wide => exact plainly_decodeWide code pc

lemma plainly_starts : Plainly (starts code) := by
  have hfrom : ∀ pc before, Plainly (startsFrom code pc before) := by
    intro pc before
    fun_induction startsFrom code pc before with
    | case1 pc before hlt e he =>
      rintro _ ⟨⟩
      exact plainly_decode code pc e he
    | case2 pc before hlt insn hdecode hpos ih => exact ih
    | case3 => exact .ok _
  exact hfrom 0 []

end Code

namespace Machine

variable {o : ClassOrder} {c : ClassScope} {pool later : ConstantPool}

/-- Merging widens the old types, as far as there are new ones, and a change is reported truly. -/
lemma mergeSlots_widens (hc : o.Merges c) {changed result : Bool}
    {before olds news slots : List VerificationType} (hpool : o.Named pool)
    (h : mergeSlots c before changed olds news pool = (.ok result, slots, later)) :
    ∃ merged, slots = before.reverse ++ merged ∧ pool.Extends later ∧ o.Named later ∧
      List.Forall₂ (VerificationType.Covers o later) merged olds ∧
      (result = true ↔ changed = true ∨ merged ≠ olds) := by
  induction olds generalizing news before changed pool with
  | nil =>
    cases h
    exact ⟨[], rfl, .refl _, hpool, .nil, by simp⟩
  | cons old olds ih =>
    obtain _ | ⟨new, news⟩ := news
    · cases h
      exact ⟨old :: olds, rfl, .refl _, hpool, List.forall₂_same.mpr fun t _ => .refl t, by simp⟩
    rw [mergeSlots] at h
    rcases htype : (old.merge c new).outcome pool with ⟨_ | m, middle⟩
    · rw [htype] at h
      cases h
    · rw [htype] at h
      obtain ⟨hext, hmiddle, hold, _⟩ := VerificationType.merge_covers hc hpool htype
      obtain ⟨merged, rfl, hext', hlater, holds, hresult⟩ := ih hmiddle h
      refine ⟨m :: merged, by simp, hext.trans hext', hlater, .cons (hold.mono hext') holds, ?_⟩
      rw [hresult]
      by_cases hm : m = old <;> simp [hm]

lemma refusal_of_mergeSlots {changed : Bool} {before olds news slots : List VerificationType}
    {e : Error} (h : mergeSlots c before changed olds news pool = (.error e, slots, later)) :
    e.Refusal := by
  induction olds generalizing news before changed pool with
  | nil => cases h
  | cons old olds ih =>
    obtain _ | ⟨new, news⟩ := news
    · cases h
    rw [mergeSlots] at h
    rcases htype : (old.merge c new).outcome pool with ⟨e' | m, middle⟩
    · rw [htype] at h
      cases h
      exact VerificationType.refusal_of_merge htype
    · rw [htype] at h
      exact ih h

/-- Frames are merged unless one has more on the stack than the other or a constant is refused. -/
lemma merge_eq_error {offset : Nat} {other : Frame} {m m' : Machine} {e : Error}
    (h : (merge c offset other).outcome m = (.error e, m')) :
    e.Refusal ∨ ∃ expected found, e = .verification offset (.stackHeight expected found) := by
  obtain ⟨frame, pool⟩ := m
  simp only [merge, Step.outcome_ofOutcome] at h
  split at h
  · cases h
    exact .inr ⟨_, _, rfl⟩
  · rcases hslots : mergeSlots c [] false frame.slots other.slots pool with ⟨result, slots, pool'⟩
    rw [hslots] at h
    cases h
    exact .inl (refusal_of_mergeSlots hslots)

/-- A merged frame is wider than the old one, and differs from it if a change was reported. -/
lemma ends_merge (hc : o.Merges c) (offset : Nat) (frame other : Frame) (hpool : o.Named pool) :
    (merge c offset other).Ends ⟨frame, pool⟩ (fun changed m => pool.Extends m.pool ∧
      o.Named m.pool ∧ m.frame.Covers o m.pool frame ∧ (changed = true ↔ m.frame ≠ frame))
      Error.Plain := by
  constructor
  · rintro changed ⟨merged, later⟩ h
    simp only [merge, Step.outcome_ofOutcome] at h
    split at h
    · cases h
    · rcases hslots : mergeSlots c [] false frame.slots other.slots pool with ⟨result, slots, pool'⟩
      rw [hslots] at h
      cases h
      obtain ⟨merged, hmerged, hext, hnamed, hwider, hchanged⟩ := mergeSlots_widens hc hpool hslots
      simp only [List.reverse_nil, List.nil_append] at hmerged
      subst hmerged
      refine ⟨hext, hnamed, .of_slots rfl hwider, hchanged.trans ?_⟩
      have hlength := hwider.length_eq
      have hslots : (frame.withSlots slots).slots = slots := by
        simp [Frame.withSlots, Frame.slots]
      constructor
      · rintro (hfalse | hne) heq
        · cases hfalse
        · have hsame : frame.withSlots slots = frame := heq
          exact hne (by rw [← hslots, hsame])
      · intro hne
        right
        rintro rfl
        exact hne (Frame.withSlots_slots frame)
  · intro e m h
    rcases merge_eq_error h with hrefusal | ⟨_, _, rfl⟩
    · exact hrefusal.plain
    · trivial

end Machine

namespace ExceptionHandler

lemma adds_caught (h : ExceptionHandler) : ∃ texts, ConstantPool.Adds texts h.caught := by
  unfold caught
  split
  · exact ⟨[], .pure _⟩
  · exact ⟨_, Machine.adds_ofClass _⟩

lemma width_caught {h : ExceptionHandler} {t : VerificationType} {pool later : ConstantPool}
    (hcaught : h.caught.outcome pool = (.ok t, later)) : width t = 1 := by
  unfold caught at hcaught
  split at hcaught
  · cases hcaught
    rfl
  · obtain ⟨_, rfl, _⟩ := VerificationType.ofClass_eq_ok hcaught
    rfl

end ExceptionHandler

namespace Inference

variable {o : ClassOrder} {p : BlockProgram} {s t : Inference}

/-- What merging a frame into the entry frame of a block does: the block gets the frame, or a wider
one than it had, and waits if its frame is new. -/
inductive Merged (o : ClassOrder) (s : Inference) (k : Nat) (f : Frame) : Inference → Prop
  | reached (h : s.frames[k]? = some none) :
      Merged o s k f ⟨s.frames.setIfInBounds k (some f), s.worklist.push k, s.pool⟩
  | same {later : ConstantPool} {old : Frame} (h : s.frames[k]? = some (some old))
      (hpool : s.pool.Extends later) (hnamed : o.Named later) : Merged o s k f { s with pool := later }
  | widened {later : ConstantPool} {old new : Frame} (h : s.frames[k]? = some (some old))
      (hpool : s.pool.Extends later) (hnamed : o.Named later) (hcovers : new.Covers o later old)
      (hne : new ≠ old) :
      Merged o s k f ⟨s.frames.setIfInBounds k (some new), s.worklist.push k, later⟩

lemma Merged.frames_size {k : Nat} {f : Frame} (h : Merged o s k f t) :
    t.frames.size = s.frames.size := by
  cases h with
  | same => rfl
  | reached | widened => exact Array.size_setIfInBounds

theorem ends_mergeEntry (hc : o.Merges p.scope) (k : Nat) (f : Frame) (hs : o.Named s.pool) :
    (mergeEntry p k f).Ends s (fun _ t => Merged o s k f t) Error.Plain := by
  obtain ⟨frames, worklist, pool⟩ := s
  cases hk : frames[k]? with
  | none =>
    have houtcome : (mergeEntry p k f).outcome ⟨frames, worklist, pool⟩ =
        (.error (.outOfBounds k frames.size), ⟨frames, worklist, pool⟩) := by
      simp only [mergeEntry, Step.outcome_ofOutcome, hk]
    exact .of_error houtcome trivial
  | some entry =>
    cases entry with
    | none =>
      have houtcome : (mergeEntry p k f).outcome ⟨frames, worklist, pool⟩ =
          (.ok (), ⟨frames.setIfInBounds k (some f), worklist.push k, pool⟩) := by
        simp only [mergeEntry, Step.outcome_ofOutcome, hk]
      exact .of_ok houtcome (.reached hk)
    | some old =>
      have hends := Machine.ends_merge hc ((p.graph.blocks[k]?.map Block.start).getD 0) old f hs
      rcases hmerge : (Machine.merge p.scope ((p.graph.blocks[k]?.map Block.start).getD 0) f).outcome
        ⟨old, pool⟩ with ⟨e | changed, merged, later⟩
      · have houtcome : (mergeEntry p k f).outcome ⟨frames, worklist, pool⟩ =
            (.error e, ⟨frames.setIfInBounds k (some merged), worklist, later⟩) := by
          simp only [mergeEntry, Step.outcome_ofOutcome, hk, hmerge]
        exact .of_error houtcome (hends.error e _ hmerge)
      · have houtcome : (mergeEntry p k f).outcome ⟨frames, worklist, pool⟩ =
            (.ok (), ⟨frames.setIfInBounds k (some merged),
              if changed then worklist.push k else worklist, later⟩) := by
          simp only [mergeEntry, Step.outcome_ofOutcome, hk, hmerge]
        obtain ⟨hext, hnamed, hcovers, hchanged⟩ := hends.ok changed _ hmerge
        cases changed with
        | false =>
          have hsame : merged = old := by simpa using hchanged
          subst hsame
          rw [setIfInBounds_self hk] at houtcome
          exact .of_ok houtcome (.same hk hext hnamed)
        | true => exact .of_ok houtcome (.widened hk hext hnamed hcovers (hchanged.mp rfl))

lemma mergeEntry_eq_error {k : Nat} {f : Frame} {e : Error}
    (h : (mergeEntry p k f).outcome s = (.error e, t)) :
    e.Refusal ∨ (∃ offset expected found, e = .verification offset (.stackHeight expected found)) ∨
      s.frames[k]? = none ∧ e = .outOfBounds k s.frames.size := by
  obtain ⟨frames, worklist, pool⟩ := s
  simp only [mergeEntry, Step.outcome_ofOutcome] at h
  split at h
  · rename_i hnone
    cases h
    exact .inr (.inr ⟨hnone, rfl⟩)
  · cases h
  · rename_i old hk
    rcases hmerge : (Machine.merge p.scope ((p.graph.blocks[k]?.map Block.start).getD 0) f).outcome
      ⟨old, pool⟩ with ⟨e' | changed, merged, later⟩
    · rw [hmerge] at h
      cases h
      rcases Machine.merge_eq_error hmerge with hrefusal | ⟨_, _, rfl⟩
      · exact .inl hrefusal
      · exact .inr (.inl ⟨_, _, _, rfl⟩)
    · rw [hmerge] at h
      cases h

lemma ends_execute (pc : Nat) (insn : Instruction) (f : Frame) :
    (execute p pc insn f).Ends s (fun f' t => ∃ later popped pushed, t = { s with pool := later } ∧
      insn.words? s.pool = some (popped, pushed) ∧
        Machine.Shift popped pushed ⟨f, s.pool⟩ ⟨f', later⟩) Error.Plain := by
  have hends : (Machine.Site.execute ⟨pc, p.code, p.scope⟩ insn).Ends ⟨f, s.pool⟩ _ _ :=
    Machine.Site.ends_execute insn ⟨f, s.pool⟩
  constructor
  · intro f' t hok
    obtain ⟨later, hexecute, rfl⟩ := execute_eq_ok hok
    obtain ⟨popped, pushed, hwords, hshift⟩ := hends.ok () ⟨f', later⟩ hexecute
    exact ⟨later, popped, pushed, rfl, hwords, hshift⟩
  · intro e t herror
    rcases hstep : (Machine.Site.execute ⟨pc, p.code, p.scope⟩ insn).outcome ⟨f, s.pool⟩ with
      ⟨e' | _, ⟨f', later⟩⟩
    · simp only [execute, Step.outcome_ofOutcome, hstep] at herror
      cases herror
      exact hends.error e ⟨f', later⟩ hstep
    · simp only [execute, Step.outcome_ofOutcome, hstep] at herror
      cases herror

/-- How an instruction by itself can fail: it cannot be read, or its effect on the frame fails. -/
inductive FailsAt (p : BlockProgram) (s : Inference) (pc : Nat) (f : Frame) (e : Error) : Prop
  | decode (h : Code.decode p.code pc = .error e)
  | execute {insn : Instruction} {t : Inference} (hdecode : Code.decode p.code pc = .ok insn)
      (h : (execute p pc insn f).outcome s = (.error e, t))

lemma FailsAt.plain {pc : Nat} {f : Frame} {e : Error} (h : FailsAt p s pc f e) : e.Plain := by
  cases h with
  | decode h => exact Code.plainly_decode p.code pc e h
  | execute _ h => exact (ends_execute pc _ f).error e _ h

/-- Conditions on an inference: on its states, on the frame before the instruction at an offset of
a block, on a frame that is sent to an offset, and on the errors that may end it. -/
structure Conditions where
  Inv : Inference → Prop
  Before : Inference → (block pc : Nat) → Frame → Prop
  Sent : Inference → (target : Int) → Frame → Prop
  Fails : Error → Prop

namespace Conditions

/-- The second state is fine, and frames that were fine in the first are so in the second. -/
structure Keeps (c : Conditions) (s t : Inference) : Prop where
  inv : c.Inv t
  before : ∀ k pc f, c.Before s k pc f → c.Before t k pc f
  sent : ∀ target f, c.Sent s target f → c.Sent t target f

lemma Keeps.trans {c : Conditions} {s t u : Inference} (hst : c.Keeps s t) (htu : c.Keeps t u) :
    c.Keeps s u :=
  ⟨htu.inv, fun k pc f h => htu.before k pc f (hst.before k pc f h),
    fun target f h => htu.sent target f (hst.sent target f h)⟩

/-- Each step of executing a block meets the conditions if all steps before did. -/
structure Meets (c : Conditions) (p : BlockProgram) : Prop where
  refused : ∀ e : Error, e.Refusal → c.Fails e
  fails : ∀ s k b pc f e, c.Inv s → p.graph.blocks[k]? = some b → c.Before s k pc f → pc < b.stop →
    FailsAt p s pc f e → c.Fails e
  ended : ∀ pc, c.Fails (.verification pc .fallsOffEnd)
  refl : ∀ s, c.Inv s → c.Keeps s s
  grow : ∀ s later, c.Inv s → s.pool.Extends later → (s.pool.WellNamed → later.WellNamed) →
    c.Keeps s { s with pool := later }
  merge : ∀ s k b f, c.Inv s → p.graph.blocks[k]? = some b → c.Sent s b.start f →
    (mergeEntry p k f).Ends s (fun _ t => c.Keeps s t) c.Fails
  lost : ∀ s source target f, c.Sent s target f → p.graph.startingAt? target = none →
    c.Fails (.invalidJumpTarget source target)
  enter : ∀ s k b f, c.Inv s → p.graph.blocks[k]? = some b → s.frames[k]? = some (some f) →
    c.Before s k b.start f
  throws : ∀ s k b pc f h (exception : VerificationType), c.Inv s →
    p.graph.blocks[k]? = some b → c.Before s k pc f → pc < b.stop → h ∈ p.handlers →
    h.covers (pc % 65536) → width exception = 1 →
    c.Sent s h.handler.toNat ⟨f.locals, [exception]⟩
  step : ∀ s later k b pc f f' insn traits targets popped pushed, c.Inv s →
    p.graph.blocks[k]? = some b → c.Before s k pc f → pc < b.stop →
    Code.decode p.code pc = .ok insn → insn.opcode.traits = .ok traits →
    Code.jumpTargets p.code pc insn traits.flow = .ok targets →
    insn.words? s.pool = some (popped, pushed) →
    Machine.Shift popped pushed ⟨f, s.pool⟩ ⟨f', later⟩ →
    (∀ target ∈ targets, c.Sent { s with pool := later } target f') ∧
      (traits.flow.isUnconditional = false →
        c.Before { s with pool := later } k (pc + insn.length) f')
  falls : ∀ s k b pc f, c.Inv s → p.graph.blocks[k]? = some b → c.Before s k pc f → b.stop ≤ pc →
    b.stop < p.code.size → c.Sent s b.stop f

/-- Conditions that leave it open which plain error ends the inference. -/
structure Hold (c : Conditions) (p : BlockProgram) : Prop extends Meets c p where
  plain : ∀ e : Error, e.Plain → c.Fails e
  refused := fun e h => plain e h.plain
  fails := fun _ _ _ _ _ e _ _ _ _ h => plain e h.plain
  ended := fun _ => plain _ trivial

namespace Meets

variable {c : Conditions}

/-- A step on the constants. -/
lemma constants (h : c.Meets p) (hs : c.Inv s) {α : Type} {texts : List String}
    {step : Step ConstantPool α} (hr : ConstantPool.Repeatable step)
    (ha : ConstantPool.Adds texts step) :
    (constants step).Ends s (fun a t => c.Keeps s t ∧ ∃ later, step.outcome s.pool = (.ok a, later))
      c.Fails := by
  have hends := hr.ends ha s.pool
  constructor
  · intro a t hok
    obtain ⟨later, hstep, rfl⟩ := constants_eq_ok hok
    obtain ⟨_, hext, hnamed⟩ := hends.ok a later hstep
    exact ⟨h.grow s later hs hext hnamed, later, hstep⟩
  · intro e t herror
    rcases hstep : step.outcome s.pool with ⟨result, later⟩
    simp only [Inference.constants, Step.outcome_ofOutcome, hstep] at herror
    cases herror
    exact h.refused e (ha.refused hstep).refusal

lemma send (h : c.Meets p) (hs : c.Inv s) {target : Int} {f : Frame} (hsent : c.Sent s target f)
    (source : Nat) : (send p source target f).Ends s (fun _ t => c.Keeps s t) c.Fails := by
  rw [Inference.send]
  cases hstart : p.graph.startingAt? target with
  | none => exact .throw (h.lost s source target f hsent hstart)
  | some k =>
    obtain ⟨b, hb, htarget⟩ := BlockGraph.exists_of_startingAt? hstart
    exact h.merge s k b f hs hb (htarget ▸ hsent)

/-- The exceptions of an instruction, which take one word each. -/
lemma sendToHandlers (h : c.Meets p) {k pc : Nat} {b : Block} {f : Frame} (hs : c.Inv s)
    (hb : p.graph.blocks[k]? = some b) (hf : c.Before s k pc f) (hpc : pc < b.stop) :
    (sendToHandlers p pc f).Ends s (fun _ t => c.Keeps s t) c.Fails := by
  rw [sendToHandlers_eq]
  refine Step.Ends.forM _ (fun handler hhandler t hst => ?_) (h.refl s hs)
  obtain ⟨hmem, hcovers⟩ := List.mem_filter.mp hhandler
  obtain ⟨_, hadds⟩ := handler.adds_caught
  refine (h.constants hst.inv handler.repeatable_caught hadds).bind ?_
  rintro exception t' ⟨htt', _, hcaught⟩
  have hst' := hst.trans htt'
  have hsent := h.throws t' k b pc f handler exception htt'.inv hb (hst'.before k pc f hf) hpc hmem
    hcovers (ExceptionHandler.width_caught hcaught)
  exact (h.send htt'.inv hsent pc).mono fun _ u htu => hst'.trans htu

/-- The rest of a block. The induction is on the distance to its end. -/
theorem executeFrom (h : c.Meets p) {k : Nat} {b : Block} (hb : p.graph.blocks[k]? = some b)
    (hnext : b.stop < p.code.size → ∃ b', p.graph.blocks[k + 1]? = some b' ∧ b'.start = b.stop)
    (n pc : Nat) (hn : b.stop - pc < n) {f : Frame} (hs : c.Inv s) (hf : c.Before s k pc f) :
    (executeFrom p k b.stop pc f).Ends s (fun _ t => c.Inv t) c.Fails := by
  induction n generalizing pc f s with
  | zero => omega
  | succ n ih =>
    rw [Inference.executeFrom]
    by_cases hpc : pc < b.stop
    · rw [if_pos hpc]
      cases hdecode : Code.decode p.code pc with
      | error e => exact .throw (h.fails s k b pc f e hs hb hf hpc (.decode hdecode))
      | ok insn =>
        refine (h.sendToHandlers hs hb hf hpc).bind fun _ s₁ hs₁ => ?_
        have hexecute : (Inference.execute p pc insn f).Ends s₁ _ c.Fails :=
          ⟨(ends_execute pc insn f).ok, fun e _ herror => h.fails s₁ k b pc f e hs₁.inv hb
            (hs₁.before k pc f hf) hpc (.execute hdecode herror)⟩
        refine hexecute.bind ?_
        rintro f' _ ⟨later, popped, pushed, rfl, hwords, hshift⟩
        have hs₂ := h.grow s₁ later hs₁.inv hshift.pool hshift.named
        -- An instruction that was read has traits and targets.
        obtain ⟨traits, htraits, targets, htargets⟩ := Code.exists_targets_of_decode hdecode
        rw [htraits]
        change Step.Ends (Step.ofExcept (Code.jumpTargets p.code pc insn traits.flow) >>= _) _ _ _
        rw [htargets]
        obtain ⟨hsent, hbefore⟩ := h.step s₁ later k b pc f f' insn traits targets popped pushed
          hs₁.inv hb (hs₁.before k pc f hf) hpc hdecode htraits htargets hwords hshift
        have hsend : (targets.forM fun target => Inference.send p pc target f').Ends
            { s₁ with pool := later } (fun _ t => c.Keeps { s₁ with pool := later } t) c.Fails :=
          Step.Ends.forM targets
            (fun target htarget t ht =>
              (h.send ht.inv (ht.sent target f' (hsent target htarget)) pc).mono
                fun _ u hu => ht.trans hu)
            (h.refl _ hs₂.inv)
        refine hsend.bind fun _ s₃ hs₃ => ?_
        by_cases hflow : traits.flow.isUnconditional = true
        · rw [if_pos hflow]
          exact .pure hs₃.inv
        · rw [if_neg hflow]
          have hpos := insn.length_pos
          exact ih (pc + insn.length) (by omega) hs₃.inv
            (hs₃.before k _ f' (hbefore (Bool.eq_false_iff.mpr hflow)))
    · rw [if_neg hpc]
      by_cases hsize : p.code.size ≤ b.stop
      · rw [if_pos hsize]
        exact .throw (h.ended _)
      · rw [if_neg hsize]
        obtain ⟨b', hb', hstart⟩ := hnext (by omega)
        have hsent := h.falls s k b pc f hs hb hf (by omega) (by omega)
        rw [← hstart] at hsent
        exact (h.merge s (k + 1) b' f hs hb' hsent).mono fun _ t ht => ht.inv

theorem executeBlock (h : c.Meets p)
    (hnext : ∀ (k : Nat) (b : Block), p.graph.blocks[k]? = some b → b.stop < p.code.size →
      ∃ b', p.graph.blocks[k + 1]? = some b' ∧ b'.start = b.stop) (k : Nat) (hs : c.Inv s) :
    (executeBlock p k).Ends s (fun _ t => c.Inv t) c.Fails := by
  apply Step.Ends.get
  split
  · rename_i b f hb hf
    exact h.executeFrom hb (hnext k b hb) _ b.start (Nat.lt_succ_self _) hs (h.enter s k b f hs hb hf)
  · exact .pure hs

/-- Executing waiting blocks. Whether they all get their turn is another question. -/
theorem settle (h : c.Meets p)
    (hnext : ∀ (k : Nat) (b : Block), p.graph.blocks[k]? = some b → b.stop < p.code.size →
      ∃ b', p.graph.blocks[k + 1]? = some b' ∧ b'.start = b.stop)
    (hworklist : ∀ s worklist, c.Inv s → c.Inv { s with worklist }) (hfuel : c.Fails .unsettled)
    (n : Nat) (hs : c.Inv s) : (settle p n).Ends s (fun _ t => c.Inv t) c.Fails := by
  induction n generalizing s with
  | zero => exact .throw hfuel
  | succ n ih =>
    rw [Inference.settle]
    apply Step.Ends.get
    split
    · exact .pure hs
    · rename_i k worklist _
      have hset : (set { s with worklist } : Step Inference PUnit).Ends s
          (fun _ t => c.Inv t) c.Fails := .of_ok rfl (hworklist s worklist hs)
      exact hset.bind fun _ t ht => (h.executeBlock hnext k ht).bind fun _ u hu => ih hu

end Meets
end Conditions
end Inference

namespace MethodHeader

/-- The first frame of a method is refused only for want of room for constants. -/
lemma refusal_of_entryFrame {header : MethodHeader} {c : ClassScope} {maxLocals : Nat}
    {pool later : ConstantPool} {e : Error}
    (h : (header.entryFrame c maxLocals).outcome pool = (.error e, later)) : e.Refusal := by
  have hreceiver : (header.receiver c).Ends pool (fun _ _ => True) Error.Refusal := by
    unfold receiver
    split
    · exact .pure trivial
    · split
      · exact .pure trivial
      · exact .bind (Q := fun _ _ => True)
          ⟨fun _ _ _ => trivial, fun _ _ herror => ((Machine.adds_ofClass _).refused herror).refusal⟩
          fun _ _ _ => .pure trivial
  have hparameters : ∀ (types : List FieldType) (before : List VerificationType) (pool : ConstantPool),
      (types.foldlM addParameter before).Ends pool (fun _ _ => True) Error.Refusal := by
    intro types
    induction types with
    | nil => exact fun _ _ => .pure trivial
    | cons t types ih =>
      intro before pool
      obtain ⟨_, hadds⟩ := Machine.adds_ofFieldType t
      have hone : (addParameter before t).Ends pool (fun _ _ => True) Error.Refusal := by
        refine .bind (Q := fun _ _ => True) ?_ fun _ _ _ => .pure trivial
        exact ⟨fun _ _ _ => trivial, fun _ _ herror => (hadds.refused herror).refusal⟩
      rw [List.foldlM_cons]
      exact hone.bind fun before pool _ => ih before pool
  rcases Step.bind_eq_error.mp h with h | ⟨receiver, middle, _, h⟩
  · exact hreceiver.error e later h
  · rcases Step.bind_eq_error.mp h with h | ⟨_, _, _, h⟩
    · exact (hparameters _ _ middle).error e later h
    · cases h

end MethodHeader

namespace MethodCode

variable {m : MethodCode} {facts : ControlFacts} {header : MethodHeader} {scope : ClassScope}
  {graph : BlockGraph} {pool later : ConstantPool} {e : Error}

/-- Where inference can fail: at the frame of the method or at a constant, in the first run, or in
the second one. -/
lemma settle_eq_error (hgraph : BlockGraph.partition m.code facts m.handlers = .ok graph)
    (h : (m.settle facts header scope).outcome pool = (.error e, later)) :
    e.Refusal ∨ ∃ initial pool₁,
      (header.entryFrame scope m.maxLocals.toNat).outcome pool = (.ok initial, pool₁) ∧
      ((∃ t, (Inference.run (m.program graph scope) initial).outcome
          (.unreached graph.blocks.size pool₁) = (.error e, t)) ∨
        ∃ s exception middle p' s' t, (Inference.run (m.program graph scope) initial).outcome
            (.unreached graph.blocks.size pool₁) = (.ok (), s) ∧
          (VerificationType.ofClass .throwable).outcome s.pool = (.ok exception, middle) ∧
          (m.program graph scope).neutralize m.maxLocals.toNat exception
            { s with pool := middle } = (p', s') ∧
          (Inference.settle p' (Inference.rounds (m.program graph scope)
            initial.locals.size)).outcome s' = (.error e, t)) := by
  unfold settle at h
  rw [hgraph] at h
  rcases Step.bind_eq_error.mp h with h | ⟨_, _, hok, h⟩
  · cases h
  cases hok
  rcases Step.bind_eq_error.mp h with h | ⟨initial, pool₁, hinitial, h⟩
  · exact .inl (MethodHeader.refusal_of_entryFrame h)
  rcases hinfer : (m.infer graph initial scope).outcome (.unreached graph.blocks.size pool₁) with
    ⟨result, t⟩
  rw [Step.outcome_ofOutcome, hinfer] at h
  cases h
  rcases Step.bind_eq_error.mp hinfer with hrun | ⟨_, s, hrun, h⟩
  · exact .inr ⟨initial, pool₁, hinitial, .inl ⟨t, hrun⟩⟩
  rcases Step.bind_eq_error.mp h with h | ⟨_, _, hget, h⟩
  · cases h
  cases hget
  split at h
  · cases h
  rcases Step.bind_eq_error.mp h with h | ⟨exception, _, hexception, h⟩
  · rcases hclass : (VerificationType.ofClass .throwable).outcome s.pool with ⟨result, middle⟩
    simp only [Inference.constants, Step.outcome_ofOutcome, hclass] at h
    cases h
    exact .inl ((Machine.adds_ofClass _).refused hclass).refusal
  obtain ⟨middle, hmiddle, rfl⟩ := Inference.constants_eq_ok hexception
  rcases Step.bind_eq_error.mp h with h | ⟨p', s', hneutralize, h⟩
  · cases h
  cases hneutralize
  rcases Step.bind_eq_error.mp h with h | ⟨_, u, _, h⟩
  · exact .inr ⟨initial, pool₁, hinitial, .inr ⟨s, exception, middle, _, _, t, hrun, hmiddle, rfl, h⟩⟩
  · cases h

end MethodCode
end ClassAssembly
