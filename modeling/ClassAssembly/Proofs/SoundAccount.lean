import ClassAssembly.Proofs.BackedTypes
import ClassAssembly.Proofs.FrameAccount

/-! All frames that occur while entry frames are inferred have the proper form, and refer to nothing
that does not exist. That holds of those noted so far whether a step succeeds or fails. -/
namespace ClassAssembly

/-- So many local variables, no wide value without its second slot, and each type is backed. -/
structure Machine.Sound (size : Nat) (Made : ConstantPool → UInt16 → Prop) (m : Machine) : Prop where
  formed : m.frame.Formed size fun _ => True
  types : ∀ t ∈ m.frame.slots, t.Backed Made m.pool

lemma Machine.Sound.mono {size : Nat} {Made Made' : ConstantPool → UInt16 → Prop} {frame : Frame}
    {pool later : ConstantPool} (h : Machine.Sound size Made ⟨frame, pool⟩)
    (hext : pool.Extends later) (hmade : ∀ site, Made pool site → Made' later site) :
    Machine.Sound size Made' ⟨frame, later⟩ :=
  ⟨h.formed, fun t ht => (h.types t ht).mono hext hmade⟩

namespace Inference

variable {s t u : Inference}

/-- Blocks that were reached stay so. -/
def Reaching (s t : Inference) : Prop :=
  ∀ (k : Nat) (f : Frame), s.frames[k]? = some (some f) → ∃ f', t.frames[k]? = some (some f')

/-- Besides, constants are only added. -/
structure Onward (s t : Inference) : Prop where
  pool : s.pool.Extends t.pool
  size : t.frames.size = s.frames.size
  reaching : s.Reaching t

theorem Onward.refl (s : Inference) : s.Onward s := ⟨.refl _, rfl, fun _ f hf => ⟨f, hf⟩⟩

theorem Onward.trans (hst : s.Onward t) (htu : t.Onward u) : s.Onward u := by
  refine ⟨hst.pool.trans htu.pool, htu.size.trans hst.size, ?_⟩
  intro k f hf
  obtain ⟨f', hf'⟩ := hst.reaching k f hf
  exact htu.reaching k f' hf'

lemma mem_entryFrames {m : Machine} :
    m ∈ s.entryFrames ↔ ∃ (k : Nat) (f : Frame), s.frames[k]? = some (some f) ∧ m = ⟨f, s.pool⟩ := by
  simp only [entryFrames, List.mem_filterMap, Option.map_eq_some_iff, Array.mem_toList_iff,
    Array.mem_iff_getElem?]
  grind

end Inference

/-- What `Made` has to say about the objects that are made while a program is executed, where
`Passes` holds of the offsets at which each block may be executed. -/
structure BlockProgram.Makes (p : BlockProgram) (Passes : Nat → Nat → Prop)
    (Made : Inference → ConstantPool → UInt16 → Prop) : Prop where
  enter : ∀ (k : Nat) (b : Block), p.graph.blocks[k]? = some b → Passes k b.start
  next : ∀ (k : Nat) (b : Block) (pc : Nat) insn, p.graph.blocks[k]? = some b → Passes k pc →
    pc < b.stop → Code.decode p.code pc = .ok insn → Passes k (pc + insn.length)
  reaching : ∀ s t pool site, Inference.Reaching s t → Made s pool site → Made t pool site
  reads : ∀ s pc, Machine.Site.Reads (Made s) ⟨pc, p.code, p.scope⟩
  new : ∀ s (k : Nat) (b : Block) (f : Frame) (pc : Nat) insn traits pool name,
    p.graph.blocks[k]? = some b → s.frames[k]? = some (some f) → Passes k pc → pc < b.stop →
    Code.decode p.code pc = .ok insn → insn.opcode.traits = .ok traits → traits.effect = .new →
    pool.className? (UInt16.ofInt insn.first) = some name → Made s pool (UInt16.ofNat pc)

section

variable {α β : Type} {p : BlockProgram} {Passes : Nat → Nat → Prop} {size : Nat}
  {Made : Inference → ConstantPool → UInt16 → Prop}

lemma BlockProgram.Makes.lasting (h : p.Makes Passes Made) (s : Inference) :
    ConstantPool.Lasting (Made s) := (h.reads s 0).lasting

namespace Inference

variable {s t : Inference}

/-- Constants have their names, and the entry frames found so far are sound. -/
structure Sound (size : Nat) (Made : Inference → ConstantPool → UInt16 → Prop) (s : Inference) :
    Prop where
  named : s.pool.WellNamed
  entries : ∀ (k : Nat) (f : Frame), s.frames[k]? = some (some f) →
    Machine.Sound size (Made s) ⟨f, s.pool⟩

lemma Sound.of_pool (h : s.Sound size Made) (hmakes : p.Makes Passes Made) {later : ConstantPool}
    (hext : s.pool.Extends later) (hnamed : s.pool.WellNamed → later.WellNamed) :
    Sound size Made { s with pool := later } ∧ s.Onward { s with pool := later } := by
  have honward : s.Onward { s with pool := later } := ⟨hext, rfl, fun k f hf => ⟨f, hf⟩⟩
  refine ⟨⟨hnamed h.named, ?_⟩, honward⟩
  intro k f hf
  refine (h.entries k f hf).mono hext ?_
  intro site hsite
  exact hmakes.reaching _ _ _ _ honward.reaching (hmakes.lasting s hext hsite)

/-- One entry frame becomes a sound one. -/
lemma Sound.of_set (hmakes : p.Makes Passes Made) {frames : Array (Option Frame)}
    {worklist worklist' : Worklist} {pool later : ConstantPool} {i : Nat} {new : Frame}
    (h : Sound size Made ⟨frames, worklist, pool⟩) (hext : pool.Extends later)
    (hnamed : pool.WellNamed → later.WellNamed)
    (hnew : Machine.Sound size (Made ⟨frames, worklist, pool⟩) ⟨new, later⟩) :
    Sound size Made ⟨frames.setIfInBounds i (some new), worklist', later⟩ ∧
      Onward ⟨frames, worklist, pool⟩ ⟨frames.setIfInBounds i (some new), worklist', later⟩ := by
  have honward : Onward ⟨frames, worklist, pool⟩
      ⟨frames.setIfInBounds i (some new), worklist', later⟩ := by
    refine ⟨hext, Array.size_setIfInBounds, ?_⟩
    intro k f hf
    simp only [Array.getElem?_setIfInBounds] at hf ⊢
    have hk := (Array.getElem?_eq_some_iff.mp hf).1
    split
    · exact ⟨new, by grind⟩
    · exact ⟨f, hf⟩
  have hmade : ∀ site, Made ⟨frames, worklist, pool⟩ later site →
      Made ⟨frames.setIfInBounds i (some new), worklist', later⟩ later site :=
    fun site => hmakes.reaching _ _ _ _ honward.reaching
  refine ⟨⟨hnamed h.named, ?_⟩, honward⟩
  intro k f hf
  simp only [Array.getElem?_setIfInBounds] at hf
  split at hf
  · split at hf
    · cases hf
      exact hnew.mono (.refl _) hmade
    · cases hf
  · refine (h.entries k f hf).mono hext fun site hsite => hmade site ?_
    exact hmakes.lasting _ hext hsite

/-- Merging a frame into an entry frame leaves all of them sound, also if it fails midway. -/
theorem Sound.mergeEntry (hmakes : p.Makes Passes Made) {k : Nat} {frame : Frame}
    {result : Except Error Unit} (hs : s.Sound size Made)
    (hframe : Machine.Sound size (Made s) ⟨frame, s.pool⟩)
    (h : (mergeEntry p k frame).outcome s = (result, t)) : t.Sound size Made ∧ s.Onward t := by
  obtain ⟨frames, worklist, pool⟩ := s
  simp only [Inference.mergeEntry, Step.outcome_ofOutcome] at h
  split at h
  · cases h
    exact ⟨hs, .refl _⟩
  · cases h
    exact hs.of_set hmakes (.refl _) id hframe
  · rename_i entry hentry
    have hold := hs.entries k entry hentry
    rcases hmerge : (Machine.merge p.scope ((p.graph.blocks[k]?.map Block.start).getD 0)
      frame).outcome ⟨entry, pool⟩ with ⟨result', merged, later⟩
    obtain ⟨⟨hext, hnamed⟩, hcovers, hbacked⟩ :=
      Machine.merge_backed (hmakes.lasting _) hold.types hframe.types hmerge
    have hmerged : Machine.Sound size (Made ⟨frames, worklist, pool⟩) ⟨merged, later⟩ :=
      ⟨hold.formed.of_covers hcovers, hbacked⟩
    cases result' with
    | ok changed =>
      simp only [hmerge] at h
      cases h
      exact hs.of_set hmakes hext hnamed hmerged
    | error e =>
      simp only [hmerge] at h
      cases h
      exact hs.of_set hmakes hext hnamed hmerged

end Inference

namespace Account

variable {t u : Account}

/-- All frames that were noted are sound. -/
def Noted (size : Nat) (Made : Inference → ConstantPool → UInt16 → Prop) (t : Account) : Prop :=
  ∀ m ∈ t.seen, m.Sound size (Made t.inference)

/-- What holds as long as nothing has failed. Entry frames have been noted, and the classes of handlers
have names. -/
structure Sound (p : BlockProgram) (size : Nat)
    (Made : Inference → ConstantPool → UInt16 → Prop) (t : Account) : Prop where
  inference : t.inference.Sound size Made
  noted : t.Noted size Made
  covered : ∀ (k : Nat) (f : Frame), t.inference.frames[k]? = some (some f) →
    ∃ m ∈ t.seen, m.frame = f
  caught : ∀ h ∈ p.handlers, ∀ c, h.catchType = some c →
    ∃ name, t.inference.pool.className? c = some name

/-- A frame that is sound beside the constants of now. -/
def Fits (size : Nat) (Made : Inference → ConstantPool → UInt16 → Prop) (t : Account)
    (frame : Frame) : Prop :=
  Machine.Sound size (Made t.inference) ⟨frame, t.inference.pool⟩

lemma Fits.onward (hmakes : p.Makes Passes Made) {frame : Frame} (h : t.Fits size Made frame)
    (honward : t.inference.Onward u.inference) : u.Fits size Made frame := by
  refine h.mono honward.pool fun site hsite => ?_
  exact hmakes.reaching _ _ _ _ honward.reaching (hmakes.lasting _ honward.pool hsite)

/-- A step that ends as in `Q`, or fails. Either way what was noted is sound. -/
structure Ensures (p : BlockProgram) (size : Nat)
    (Made : Inference → ConstantPool → UInt16 → Prop) (step : Step Account α) (t : Account)
    (Q : α → Account → Prop) : Prop where
  ok : ∀ a u, step.outcome t = (.ok a, u) →
    u.Sound p size Made ∧ t.inference.Onward u.inference ∧ u.codes = t.codes ∧ Q a u
  error : ∀ e u, step.outcome t = (.error e, u) → u.Noted size Made ∧ u.codes = t.codes

namespace Ensures

variable {step : Step Account α} {Q : α → Account → Prop} {R : β → Account → Prop}

theorem pure {a : α} (ht : t.Sound p size Made) (h : Q a t) :
    Ensures p size Made (pure a) t Q := by
  constructor
  · intro b u hstep
    cases hstep
    exact ⟨ht, .refl _, rfl, h⟩
  · intro e u hstep
    cases hstep

theorem throw {e : Error} (ht : t.Sound p size Made) : Ensures p size Made (throw e) t Q := by
  constructor
  · intro a u hstep
    cases hstep
  · intro e' u hstep
    cases hstep
    exact ⟨ht.noted, rfl⟩

theorem bind {next : α → Step Account β} (hs : Ensures p size Made step t Q)
    (hn : ∀ a u, u.Sound p size Made → t.inference.Onward u.inference → Q a u →
      Ensures p size Made (next a) u R) : Ensures p size Made (step >>= next) t R := by
  constructor
  · intro b v h
    obtain ⟨a, u, hstep, hnext⟩ := Step.bind_eq_ok.mp h
    obtain ⟨hu, htu, hcodes, ha⟩ := hs.ok a u hstep
    obtain ⟨hv, huv, hcodes', hb⟩ := (hn a u hu htu ha).ok b v hnext
    exact ⟨hv, htu.trans huv, hcodes'.trans hcodes, hb⟩
  · intro e v h
    rcases Step.bind_eq_error.mp h with hstep | ⟨a, u, hstep, hnext⟩
    · exact hs.error e v hstep
    · obtain ⟨hu, htu, hcodes, ha⟩ := hs.ok a u hstep
      obtain ⟨hv, hcodes'⟩ := (hn a u hu htu ha).error e v hnext
      exact ⟨hv, hcodes'.trans hcodes⟩

theorem ofExcept {result : Except Error α} (ht : t.Sound p size Made) :
    Ensures p size Made (Step.ofExcept result) t fun a _ => result = .ok a := by
  cases result with
  | error e => exact throw ht
  | ok a => exact pure ht rfl

theorem forM {f : α → Step Account PUnit} (xs : List α) (ht : t.Sound p size Made)
    (h : ∀ x ∈ xs, ∀ u, u.Sound p size Made → t.inference.Onward u.inference →
      Ensures p size Made (f x) u fun _ _ => True) :
    Ensures p size Made (xs.forM f) t fun _ _ => True := by
  induction xs generalizing t with
  | nil => exact pure ht trivial
  | cons x xs ih =>
    refine (h x (by simp) t ht (.refl _)).bind fun _ u hu htu _ => ih hu ?_
    intro y hy v hv huv
    exact h y (by simp [hy]) v hv (htu.trans huv)

end Ensures

lemma Sound.caught_later (ht : t.Sound p size Made) {later : ConstantPool}
    (hext : t.inference.pool.Extends later) :
    ∀ h ∈ p.handlers, ∀ c, h.catchType = some c → ∃ name, later.className? c = some name := by
  intro h hh c hc
  obtain ⟨name, hname⟩ := ht.caught h hh c hc
  exact ⟨name, hext.className? hname⟩

lemma Noted.reaching (hmakes : p.Makes Passes Made) (ht : t.Noted size Made) {s : Inference}
    (h : t.inference.Reaching s) : ∀ m ∈ t.seen, m.Sound size (Made s) := by
  intro m hm
  exact (ht m hm).mono (.refl _) fun site => hmakes.reaching _ _ _ _ h

theorem ensures_note {frame : Frame} (ht : t.Sound p size Made) (hframe : t.Fits size Made frame) :
    Ensures p size Made (note frame) t fun _ u => u.inference = t.inference := by
  constructor
  · intro a u h
    cases h
    refine ⟨⟨ht.inference, List.forall_mem_cons.mpr ⟨hframe, ht.noted⟩, ?_, ht.caught⟩, .refl _, rfl,
      rfl⟩
    intro k f hf
    obtain ⟨m, hm, hmf⟩ := ht.covered k f hf
    exact ⟨m, List.mem_cons_of_mem _ hm, hmf⟩
  · intro e u h
    cases h

/-- A step that may only add constants. -/
theorem ensures_constants (hmakes : p.Makes Passes Made) (ht : t.Sound p size Made)
    {step : Step ConstantPool α} (hr : ConstantPool.Repeatable step) :
    Ensures p size Made (carry (Inference.constants step)) t
      fun a u => step.outcome t.inference.pool = (.ok a, u.inference.pool) := by
  obtain ⟨⟨frames, worklist, pool⟩, seen, codes⟩ := t
  rcases hstep : step.outcome pool with ⟨e | a, later⟩
  · constructor
    · intro a u h
      simp [carry, Inference.constants, hstep] at h
    · intro e' u h
      simp only [carry, Inference.constants, Step.outcome_ofOutcome, hstep] at h
      cases h
      exact ⟨ht.noted.reaching hmakes fun k f hf => ⟨f, hf⟩, rfl⟩
  · constructor
    · intro a' u h
      simp only [carry, Inference.constants, Step.outcome_ofOutcome, hstep] at h
      cases h
      obtain ⟨hext, hnamed⟩ := hr.grows hstep
      obtain ⟨hsound, honward⟩ := ht.inference.of_pool hmakes hext hnamed
      exact ⟨⟨hsound, ht.noted.reaching hmakes honward.reaching, ht.covered, ht.caught_later hext⟩,
        honward, rfl, rfl⟩
    · intro e u h
      simp [carry, Inference.constants, hstep] at h

/-- Entry frames that are sound may be noted. -/
lemma Sound.of_entries {s : Inference} {seen : List Machine} (hs : s.Sound size Made)
    (hseen : ∀ m ∈ seen, m.Sound size (Made s))
    (hcaught : ∀ h ∈ p.handlers, ∀ c, h.catchType = some c → ∃ name, s.pool.className? c = some name)
    (codes : List (Array UInt8)) : Sound p size Made ⟨s, s.entryFrames ++ seen, codes⟩ := by
  refine ⟨hs, ?_, ?_, hcaught⟩
  · intro m hm
    rcases List.mem_append.mp hm with hm | hm
    · obtain ⟨k, f, hf, rfl⟩ := Inference.mem_entryFrames.mp hm
      exact hs.entries k f hf
    · exact hseen m hm
  · intro k f hf
    have hmem := Inference.mem_entryFrames.mpr ⟨k, f, hf, rfl⟩
    exact ⟨_, List.mem_append_left _ hmem, rfl⟩

/-- A step that leaves entry frames sound, also if it fails. -/
theorem ensures_watch (hmakes : p.Makes Passes Made) (ht : t.Sound p size Made)
    {step : Step Inference α}
    (hstep : ∀ result s, step.outcome t.inference = (result, s) →
      s.Sound size Made ∧ t.inference.Onward s) :
    Ensures p size Made (watch step) t fun _ _ => True := by
  obtain ⟨s, seen, codes⟩ := t
  rcases houtcome : step.outcome s with ⟨result, s'⟩
  obtain ⟨hsound, honward⟩ := hstep result s' houtcome
  have hwatch : (watch step).outcome ⟨s, seen, codes⟩ =
      (result, ⟨s', s'.entryFrames ++ seen, codes⟩) := by
    simp only [watch, Step.outcome_ofOutcome, houtcome]
  have hafter : Sound p size Made ⟨s', s'.entryFrames ++ seen, codes⟩ :=
    .of_entries hsound (ht.noted.reaching hmakes honward.reaching)
      (ht.caught_later honward.pool) codes
  constructor
  · intro a u h
    rw [hwatch] at h
    cases h
    exact ⟨hafter, honward, rfl, trivial⟩
  · intro e u h
    rw [hwatch] at h
    cases h
    exact ⟨hafter.noted, rfl⟩

theorem ensures_mergeEntry (hmakes : p.Makes Passes Made) (ht : t.Sound p size Made) {frame : Frame}
    (hframe : t.Fits size Made frame) (index : Nat) :
    Ensures p size Made (mergeEntry p index frame) t fun _ _ => True := by
  refine (ensures_note ht hframe).bind fun _ u hu htu heq => ?_
  refine ensures_watch hmakes hu fun result s h => ?_
  exact hu.inference.mergeEntry hmakes (hframe.onward hmakes htu) h

theorem ensures_send (hmakes : p.Makes Passes Made) (ht : t.Sound p size Made) {frame : Frame}
    (hframe : t.Fits size Made frame) (source : Nat) (target : Int) :
    Ensures p size Made (send p source target frame) t fun _ _ => True := by
  refine (ensures_note ht hframe).bind fun _ u hu htu heq => ?_
  refine ensures_watch hmakes hu fun result s h => ?_
  unfold Inference.send at h
  split at h
  · exact hu.inference.mergeEntry hmakes (hframe.onward hmakes htu) h
  · cases h
    exact ⟨hu.inference, .refl _⟩

/-- The frame that a handler sees: its exception is of a class that it names, or any that can be
thrown. -/
lemma Fits.handled (ht : t.Sound p size Made) {frame : Frame} {h : ExceptionHandler}
    {exception : VerificationType} {pool : ConstantPool} (hh : h ∈ p.handlers)
    (hframe : t.Fits size Made frame)
    (hcaught : h.caught.outcome pool = (.ok exception, t.inference.pool)) :
    t.Fits size Made ⟨frame.locals, [exception]⟩ := by
  refine ⟨hframe.formed.with_stack fun _ _ _ _ => trivial, ?_⟩
  intro v hv
  rcases Frame.mem_slots.mp hv with hv | hv
  · exact hframe.types v (Frame.mem_slots.mpr (.inl hv))
  · obtain rfl := List.mem_singleton.mp hv
    unfold ExceptionHandler.caught at hcaught
    split at hcaught
    · rename_i c hc
      cases hcaught
      exact ht.caught h hh c hc
    · exact VerificationType.backed_ofClass hcaught

theorem ensures_sendToHandlers (hmakes : p.Makes Passes Made) (ht : t.Sound p size Made)
    {frame : Frame} (hframe : t.Fits size Made frame) (pc : Nat) :
    Ensures p size Made (sendToHandlers p pc frame) t fun _ _ => True := by
  refine .forM _ ht fun h hh u hu htu => ?_
  have hmem : h ∈ p.handlers := (List.mem_filter.mp hh).1
  refine (ensures_constants hmakes hu h.repeatable_caught).bind fun exception v hv huv hcaught => ?_
  exact ensures_send hmakes hv
    (.handled hv hmem (hframe.onward hmakes (htu.trans huv)) hcaught) pc _

/-- Executing an instruction where the block at `k` may come to it. -/
theorem ensures_execute (hmakes : p.Makes Passes Made) (ht : t.Sound p size Made) {frame : Frame}
    (hframe : t.Fits size Made frame) {k pc : Nat} {b : Block} {insn : Instruction}
    (hb : p.graph.blocks[k]? = some b) (hreached : ∃ f, t.inference.frames[k]? = some (some f))
    (hpass : Passes k pc) (hpc : pc < b.stop) (hdecode : Code.decode p.code pc = .ok insn) :
    Ensures p size Made (carry (Inference.execute p pc insn frame)) t
      fun frame' u => u.Fits size Made frame' := by
  obtain ⟨⟨frames, worklist, pool⟩, seen, codes⟩ := t
  obtain ⟨f, hf⟩ := hreached
  rcases hstep : (Machine.Site.execute ⟨pc, p.code, p.scope⟩ insn).outcome ⟨frame, pool⟩ with
    ⟨e | _, after, later⟩
  · constructor
    · intro frame' u h
      simp [carry, Inference.execute, hstep] at h
    · intro e' u h
      simp only [carry, Inference.execute, Step.outcome_ofOutcome, hstep] at h
      cases h
      exact ⟨ht.noted.reaching hmakes fun k f hf => ⟨f, hf⟩, rfl⟩
  · constructor
    · intro frame' u h
      simp only [carry, Inference.execute, Step.outcome_ofOutcome, hstep] at h
      cases h
      have hreplay := Machine.Site.replays_execute (.refl _) insn (fun _ _ _ => trivial)
        hframe.formed hstep
      -- The locals keep their form by what is known of replays; only the types need more.
      have hbacked : Machine.Backed (Made ⟨frames, worklist, pool⟩) [] ⟨after, later⟩ := by
        refine Machine.Site.backs_execute (hmakes.reads _ pc) insn ?_
          ⟨ht.inference.named, hframe.types⟩ hstep
        intro traits htraits hnew pool' name hname
        exact hmakes.new _ k b f pc insn traits pool' name hb hf hpass hpc hdecode htraits hnew hname
      obtain ⟨hsound, honward⟩ := ht.inference.of_pool hmakes hreplay.grows hreplay.named
      have hmade := fun site => hmakes.reaching _ _ later site honward.reaching
      exact ⟨⟨hsound, ht.noted.reaching hmakes honward.reaching, ht.covered,
        ht.caught_later hreplay.grows⟩, honward, rfl, hreplay.formed,
        fun t ht => (hbacked.types t ht).mono (.refl _) hmade⟩
    · intro e u h
      simp [carry, Inference.execute, hstep] at h

/-- Executing a block from one of its instructions on. The induction is on the distance to the end of
the block. -/
theorem ensures_executeFrom (hmakes : p.Makes Passes Made) {k : Nat} {b : Block}
    (hb : p.graph.blocks[k]? = some b) (n pc : Nat) (hn : b.stop - pc < n)
    (ht : t.Sound p size Made) {frame : Frame} (hframe : t.Fits size Made frame)
    (hreached : ∃ f, t.inference.frames[k]? = some (some f)) (hpass : Passes k pc) :
    Ensures p size Made (executeFrom p k b.stop pc frame) t fun _ _ => True := by
  induction n generalizing pc frame t with
  | zero => omega
  | succ n ih =>
    rw [executeFrom]
    split
    · rename_i hpc
      cases hdecode : Code.decode p.code pc with
      | error e => exact .throw ht
      | ok insn =>
        -- A site counts only in a block that was reached, so each step has to hand this on.
        have hreached' : ∀ u : Account, t.inference.Onward u.inference →
            ∃ f, u.inference.frames[k]? = some (some f) :=
          fun u htu => hreached.elim fun f hf => htu.reaching k f hf
        have hpos := insn.length_pos
        refine (ensures_sendToHandlers hmakes ht hframe pc).bind fun _ t₁ ht₁ h₁ _ => ?_
        refine (ensures_execute hmakes ht₁ (hframe.onward hmakes h₁) hb (hreached' _ h₁) hpass hpc
          hdecode).bind fun frame' t₂ ht₂ h₂ hframe₂ => ?_
        refine (ensures_note ht₂ hframe₂).bind fun _ t₃ ht₃ h₃ _ => ?_
        refine (Ensures.ofExcept ht₃).bind fun traits t₄ ht₄ h₄ _ => ?_
        refine (Ensures.ofExcept ht₄).bind fun targets t₅ ht₅ h₅ _ => ?_
        have hframe₅ := hframe₂.onward hmakes (h₃.trans (h₄.trans h₅))
        refine (Ensures.forM targets ht₅ fun target _ u hu htu =>
          ensures_send hmakes hu (hframe₅.onward hmakes htu) pc target).bind
            fun _ t₆ ht₆ h₆ _ => ?_
        split
        · exact .pure ht₆ trivial
        · refine ih (pc + insn.length) (by omega) ht₆ (hframe₅.onward hmakes h₆) ?_
            (hmakes.next k b pc insn hb hpass hpc hdecode)
          exact hreached' _ (h₁.trans (h₂.trans (h₃.trans (h₄.trans (h₅.trans h₆)))))
    · split
      · exact .throw ht
      · exact ensures_mergeEntry hmakes ht hframe (k + 1)

lemma ensures_get (ht : t.Sound p size Made) :
    Ensures p size Made (carry get) t fun s u => s = t.inference ∧ u = t := by
  constructor
  · intro a u h
    cases h
    exact ⟨ht, .refl _, rfl, rfl, rfl⟩
  · intro e u h
    cases h

/-- The order in which blocks wait says nothing about their frames. -/
lemma ensures_set (hmakes : p.Makes Passes Made) (ht : t.Sound p size Made) (worklist : Worklist) :
    Ensures p size Made (carry (set { t.inference with worklist })) t fun _ _ => True := by
  have honward : t.inference.Onward { t.inference with worklist } :=
    ⟨.refl _, rfl, fun k f hf => ⟨f, hf⟩⟩
  have hmade := fun pool site => hmakes.reaching _ _ pool site honward.reaching
  constructor
  · intro a u h
    cases h
    refine ⟨⟨⟨ht.inference.named, ?_⟩, ht.noted.reaching hmakes honward.reaching, ht.covered,
      ht.caught⟩, honward, rfl, trivial⟩
    intro k f hf
    exact (ht.inference.entries k f hf).mono (.refl _) (hmade _)
  · intro e u h
    cases h

theorem ensures_executeBlock (hmakes : p.Makes Passes Made) (ht : t.Sound p size Made) (k : Nat) :
    Ensures p size Made (executeBlock p k) t fun _ _ => True := by
  refine (ensures_get ht).bind ?_
  rintro s u hu _ ⟨rfl, rfl⟩
  split
  · rename_i b frame hb hf
    have hframe : u.Fits size Made frame := hu.inference.entries k frame hf
    refine (ensures_note hu hframe).bind fun _ v hv huv _ => ?_
    exact ensures_executeFrom hmakes hb _ b.start (Nat.lt_succ_self _) hv (hframe.onward hmakes huv)
      (huv.reaching k frame hf) (hmakes.enter k b hb)
  · exact .pure hu trivial

/-- Executing waiting blocks keeps an account sound. -/
theorem ensures_settle (hmakes : p.Makes Passes Made) (n : Nat) (ht : t.Sound p size Made) :
    Ensures p size Made (settle p n) t fun _ _ => True := by
  induction n generalizing t with
  | zero => exact .throw ht
  | succ n ih =>
    refine (ensures_get ht).bind ?_
    rintro s u hu _ ⟨rfl, rfl⟩
    split
    · exact .pure hu trivial
    · rename_i k worklist _
      refine (ensures_set hmakes hu worklist).bind fun _ v hv _ _ => ?_
      exact (ensures_executeBlock hmakes hv k).bind fun _ w hw _ _ => ih hw

theorem ensures_run (hmakes : p.Makes Passes Made) {initial : Frame} (ht : t.Sound p size Made)
    (hinitial : t.Fits size Made initial) :
    Ensures p size Made (run p initial) t fun _ _ => True :=
  (ensures_mergeEntry hmakes ht hinitial 0).bind fun _ _ hu _ _ => ensures_settle hmakes _ hu

end Account
end
end ClassAssembly
