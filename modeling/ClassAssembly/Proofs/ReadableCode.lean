import ClassAssembly.Proofs.BuilderRuns
import ClassAssembly.Proofs.DraftLimits
import ClassAssembly.Proofs.SingleEntry

/-! Code that was drafted without failure can be read. Closing the method never fails because there is
no instruction where one should start or because a local variable is not there, neither while the code
is cut into blocks nor while the blocks are executed, before and after those that are never reached
have been blanked. -/
namespace ClassAssembly

/-- The error is not about code that cannot be read or a local variable that is not there. -/
def Error.Legible : Error → Prop
  | .unsupportedOpcode _ | .verification _ .invalidIndex => False
  | _ => True

lemma Error.Ordinary.legible {e : Error} (h : e.Ordinary) : e.Legible := by
  cases e with
  | verification offset fault => cases fault <;> trivial
  | _ => trivial

lemma Error.legible_iff {e : Error} : e.Legible ↔
    (∀ byte, e ≠ .unsupportedOpcode byte) ∧ ∀ offset, e ≠ .verification offset .invalidIndex := by
  cases e with
  | verification offset fault => cases fault <;> simp [Legible]
  | _ => simp [Legible]

lemma Opcode.form_of_wide {op : Opcode} {traits : OpcodeTraits} (h : op.traits = .ok traits)
    (heffect : traits.effect = .wide) : traits.form = .wide := by
  have hall : ∀ row ∈ OpcodeTraits.table.toList, ∀ traits ∈ row, traits.effect = .wide →
      traits.form = .wide := by
    decide +kernel
  exact hall _ (traits_mem h) traits rfl heffect

namespace Code

open ClassAssembly.Except (bind_eq_ok)

variable {code : Array UInt8} {pc size : Nat} {insn : Instruction}

/-- A `wide` opcode is not read as an instruction by itself. -/
lemma form_ne_wide_of_decode {traits : OpcodeTraits} (h : decode code pc = .ok insn)
    (htraits : insn.opcode.traits = .ok traits) : traits.form ≠ .wide := by
  obtain ⟨byte, _, h⟩ := bind_eq_ok.mp h
  obtain ⟨found, hfound, h⟩ := bind_eq_ok.mp h
  -- Unless it is a `wide` one, the opcode of the instruction is the byte that was found.
  have hsame : insn.opcode = ⟨byte⟩ → found.form ≠ .wide → traits.form ≠ .wide := by
    intro hopcode hform
    rw [hopcode, hfound] at htraits
    cases htraits
    exact hform
  cases hform : found.form <;> simp only [hform, decodeOperands] at h hsame
  case wide =>
    obtain ⟨_, _, h⟩ := bind_eq_ok.mp h
    obtain ⟨_, _, h⟩ := bind_eq_ok.mp h
    obtain ⟨under, hunder, h⟩ := bind_eq_ok.mp h
    cases hunderform : under.form <;> simp only [hunderform] at h
    case localIndex =>
      cases h
      rw [hunder] at htraits
      cases htraits
      simp [hunderform]
    case increment =>
      obtain ⟨_, _, h⟩ := bind_eq_ok.mp h
      cases h
      rw [hunder] at htraits
      cases htraits
      simp [hunderform]
    all_goals cases h
  case plain =>
    cases h
    exact hsame rfl (by simp)
  case increment | interfaceCall | dimensions =>
    obtain ⟨_, _, h⟩ := bind_eq_ok.mp h
    obtain ⟨_, _, h⟩ := bind_eq_ok.mp h
    cases h
    exact hsame rfl (by simp)
  all_goals
    obtain ⟨_, _, h⟩ := bind_eq_ok.mp h
    cases h
    exact hsame rfl (by simp)

/-- The instructions of the code can be read one after the other, and so can where each leads; and the
local variables that they use are among the first `size` ones. -/
def Readable (code : Array UInt8) (size : Nat) : Prop :=
  ∃ starts, Code.starts code = .ok starts ∧ ∀ pc ∈ starts, ∃ insn traits targets,
    decode code pc = .ok insn ∧ insn.opcode.traits = .ok traits ∧
      jumpTargets code pc insn traits.flow = .ok targets ∧ insn.LocalsIn size

/-- Reading never gets stuck if there is an instruction wherever it gets to. -/
lemma readable_of_steps (At : Nat → Prop) (hzero : At 0)
    (hstep : ∀ pc, At pc → pc < code.size → ∃ insn, decode code pc = .ok insn ∧
      insn.LocalsIn size ∧ At (pc + insn.length)) : Readable code size := by
  have hwalk : ∀ n pc, code.size - pc < n → At pc → ∃ starts, Walk code pc starts ∧
      ∀ q ∈ starts, ∃ insn, decode code q = .ok insn ∧ insn.LocalsIn size := by
    intro n
    induction n with
    | zero => exact fun pc hn => absurd hn (Nat.not_lt_zero _)
    | succ n ih =>
      intro pc hn hpc
      by_cases hlt : pc < code.size
      · obtain ⟨insn, hdecode, hlocals, hnext⟩ := hstep pc hpc hlt
        have hpos := insn.length_pos
        obtain ⟨starts, hrest, hall⟩ := ih (pc + insn.length) (by omega) hnext
        refine ⟨pc :: starts, .step hlt hdecode hrest, fun q hq => ?_⟩
        rcases List.mem_cons.mp hq with rfl | hq
        · exact ⟨insn, hdecode, hlocals⟩
        · exact hall q hq
      · exact ⟨[], .stop (Nat.le_of_not_lt hlt), fun q hq => by cases hq⟩
  obtain ⟨starts, hstarts, hall⟩ := hwalk _ 0 (Nat.lt_succ_self _) hzero
  refine ⟨starts, starts_eq_ok_iff.mpr hstarts, fun pc hpc => ?_⟩
  obtain ⟨insn, hdecode, hlocals⟩ := hall pc hpc
  obtain ⟨traits, htraits, targets, htargets⟩ := exists_targets_of_decode hdecode
  exact ⟨insn, traits, targets, hdecode, htraits, htargets, hlocals⟩

/-- The instructions that a draft is made of can be read. -/
lemma readable_of_laid {items : List (Nat × Instruction)} {b : CodeDraft} (h : b.Laid items) :
    Readable b.code b.maxLocals := by
  refine ⟨_, starts_eq_ok_iff.mpr (h.tiles.walk (Nat.le_refl _)), fun pc hpc => ?_⟩
  obtain ⟨⟨start, insn⟩, hitem, rfl⟩ := List.mem_map.mp hpc
  obtain ⟨insn', hdecode, hsame⟩ := h.stands start insn hitem
  obtain ⟨traits, htraits, targets, htargets⟩ := exists_targets_of_decode hdecode
  exact ⟨insn', traits, targets, hdecode, htraits, htargets,
    (h.locals start insn hitem).redirected hsame⟩

end Code

namespace BlockProgram.Blanked

variable {dead : Nat → Prop} {p p' : BlockProgram} {instructions : List Nat} {k pc size : Nat}
  {b : Block}

/-- In a blanked program as well there is an instruction wherever executing a block gets to. -/
lemma exists_instruction (h : Blanked dead p p') (htiles : p.graph.Tiles p.code instructions)
    (hlocals : ∀ pc ∈ instructions, ∀ insn, Code.decode p.code pc = .ok insn → insn.LocalsIn size)
    (hpass : p.Passes dead instructions k pc) (hb : p.graph.blocks[k]? = some b)
    (hpc : pc < b.stop) :
    ∃ insn, Code.decode p'.code pc = .ok insn ∧ insn.LocalsIn size ∧
      p.Passes dead instructions k (pc + insn.length) ∧
      (pc + insn.length ≤ b.stop ∨ b.stop = p.code.size) := by
  by_cases hdead : dead k
  · obtain ⟨b', hb', hstart, _⟩ := hpass
    rw [hb] at hb'
    cases hb'
    have hbyte := h.blanked k b pc hdead hb ⟨hstart, hpc⟩
    have hplain : ∀ {op : Opcode} {traits : OpcodeTraits}, p'.code[pc]? = some op.byte →
        op.traits = .ok traits → traits.form = .plain → traits.effect.local? 0 = none →
        ∃ insn, Code.decode p'.code pc = .ok insn ∧ insn.LocalsIn size ∧
          p.Passes dead instructions k (pc + insn.length) ∧
          (pc + insn.length ≤ b.stop ∨ b.stop = p.code.size) := by
      intro op traits hop htraits hform hlocal
      refine ⟨_, Code.decode_plain hop htraits hform, ?_, ⟨b, hb, by omega, fun hlive =>
        absurd hdead hlive⟩, .inl hpc⟩
      intro traits' htraits' index words hindex
      rw [htraits] at htraits'
      cases htraits'
      rw [hlocal] at hindex
      cases hindex
    split at hbyte
    · exact hplain hbyte Opcode.traits_athrow rfl rfl
    · exact hplain hbyte Opcode.traits_nop rfl rfl
  · obtain ⟨b', hb', hstart, hmem⟩ := hpass
    rw [hb] at hb'
    cases hb'
    have hbounds := htiles.bounds hb
    have hmem : pc ∈ instructions := (hmem hdead).resolve_right (by omega)
    obtain ⟨insn, hdecode, hnext, hother⟩ := htiles.walk.next hmem
    have hsame := h.sameBytes htiles hb hdead hmem hstart hpc hdecode
    refine ⟨insn, Code.decode_congr hdecode hsame, hlocals pc hmem insn hdecode,
      ⟨b, hb, by omega, fun _ => hnext⟩, ?_⟩
    rcases htiles.next k b hb with ⟨next, hb', hstop⟩ | ⟨_, hstop⟩
    · have hend := hother next.start (htiles.start_mem _ next hb')
      omega
    · exact .inr hstop

/-- A blanked program can be read if the program could be. -/
theorem readable (h : Blanked dead p p') (htiles : p.graph.Tiles p.code instructions)
    (hlocals : ∀ pc ∈ instructions, ∀ insn, Code.decode p.code pc = .ok insn → insn.LocalsIn size) :
    Code.Readable p'.code size := by
  -- Reading gets to offsets that executing some block may come to.
  apply Code.readable_of_steps fun pc => p.code.size ≤ pc ∨ ∃ k b,
    p.graph.blocks[k]? = some b ∧ pc < b.stop ∧ p.Passes dead instructions k pc
  · by_cases hpos : 0 < p.code.size
    · obtain ⟨b, hb, hstart⟩ := htiles.first hpos
      have hbounds := htiles.bounds hb
      have hpass : p.Passes dead instructions 0 b.start := passes_start htiles hb
      rw [hstart] at hpass
      exact .inr ⟨0, b, hb, by omega, hpass⟩
    · exact .inl (Nat.le_of_not_lt hpos)
  · rintro pc (hsize | ⟨k, b, hb, hpc, hpass⟩) hlt
    · rw [h.size] at hlt
      omega
    · obtain ⟨insn, hdecode, huses, hnext, hend⟩ :=
        h.exists_instruction htiles hlocals hpass hb hpc
      refine ⟨insn, hdecode, huses, ?_⟩
      by_cases hinside : pc + insn.length < b.stop
      · exact .inr ⟨k, b, hb, hinside, hnext⟩
      rcases htiles.next k b hb with ⟨next, hb', hstop⟩ | ⟨_, hstop⟩
      · have hbounds := htiles.bounds hb'
        have hstart : next.start = pc + insn.length := by omega
        exact .inr ⟨k + 1, next, hb', by omega, hstart ▸ passes_start htiles hb'⟩
      · exact .inl (by omega)

end BlockProgram.Blanked

namespace Inference

open BlockProgram (Blanked)

variable {p p' : BlockProgram} {dead : Nat → Prop} {instructions : List Nat} {size : Nat}

/-- All frames have so many local variables. -/
def RoomyFrames (size : Nat) (s : Inference) : Prop :=
  ∀ (k : Nat) (f : Frame), s.frames[k]? = some (some f) → size ≤ f.locals.size

/-- All instructions can be read, and have as many local variables as they use. -/
def roomy (p : BlockProgram) (dead : Nat → Prop) (instructions : List Nat) (size : Nat) :
    Conditions where
  Inv s := s.frames.size = p.graph.blocks.size ∧ s.RoomyFrames size
  Before _ k pc f := p.Passes dead instructions k pc ∧ size ≤ f.locals.size
  Sent _ _ f := size ≤ f.locals.size
  Fails e := e.Legible

/-- The entry frame of one block changes. -/
lemma RoomyFrames.set {s t : Inference} {k : Nat} {f : Frame} (h : s.RoomyFrames size)
    (hframes : t.frames = s.frames.setIfInBounds k (some f)) (hf : size ≤ f.locals.size) :
    t.RoomyFrames size := by
  intro j g hg
  rw [hframes, Array.getElem?_setIfInBounds] at hg
  split at hg
  · split at hg
    · cases hg
      exact hf
    · cases hg
  · exact h j g hg

lemma RoomyFrames.merged {o : ClassOrder} {s t : Inference} {k : Nat} {f : Frame}
    (h : s.RoomyFrames size) (hf : size ≤ f.locals.size) (hmerged : Merged o s k f t) :
    t.RoomyFrames size := by
  cases hmerged with
  | same => exact h
  | reached => exact h.set rfl hf
  | widened hold _ _ hcovers _ => exact h.set rfl (hcovers.size_eq ▸ h k _ hold)

/-- A blanked block borrows the local variables of another one, or has as many unusable ones. -/
lemma RoomyFrames.borrowed {s : Inference} (h : s.RoomyFrames size) (graph : BlockGraph)
    (handlers : List ExceptionHandler) (start : Nat) :
    size ≤ (BlockProgram.borrowedLocals graph handlers s.frames size start).size := by
  rcases BlockProgram.borrowedLocals_eq graph handlers s.frames size start with
    hlocals | ⟨k, f, hf, hlocals⟩
  · rw [hlocals, Frame.empty, Array.size_replicate]
  · rw [hlocals]
    exact h k f hf

lemma legible_of_mergeEntry {s t : Inference} {k : Nat} {f : Frame} {e : Error}
    (h : (mergeEntry p k f).outcome s = (.error e, t)) : e.Legible := by
  rcases mergeEntry_eq_error h with hrefusal | ⟨_, _, _, rfl⟩ | ⟨_, rfl⟩
  · exact hrefusal.ordinary.legible
  · trivial
  · trivial

lemma ends_mergeEntry_roomy {s : Inference} (k : Nat) {f : Frame}
    (hs : s.frames.size = p.graph.blocks.size ∧ s.RoomyFrames size) (hf : size ≤ f.locals.size) :
    (mergeEntry p' k f).Ends s
      (fun _ t => t.frames.size = p.graph.blocks.size ∧ t.RoomyFrames size) Error.Legible := by
  have hends := ends_mergeEntry (ClassOrder.merges_coarse p'.scope) k f (s := s) trivial
  refine ⟨fun a t hok => ?_, fun e t herror => legible_of_mergeEntry herror⟩
  have hmerged := hends.ok a t hok
  exact ⟨hmerged.frames_size.trans hs.1, hs.2.merged hf hmerged⟩

/-- An instruction by itself fails in a legible way where it can be read and has its local
variables. -/
lemma FailsAt.legible {s : Inference} {pc : Nat} {f : Frame} {e : Error} {insn : Instruction}
    (h : FailsAt p s pc f e) (hdecode : Code.decode p.code pc = .ok insn)
    (hlocals : insn.LocalsIn f.locals.size) : e.Legible := by
  cases h with
  | decode herror =>
    rw [hdecode] at herror
    cases herror
  | @execute insn' t hdecode' herror =>
    rw [hdecode] at hdecode'
    cases hdecode'
    obtain ⟨traits, htraits, _⟩ := Code.exists_targets_of_decode hdecode
    have hwide : traits.effect ≠ .wide := fun heffect =>
      Code.form_ne_wide_of_decode hdecode htraits (Opcode.form_of_wide htraits heffect)
    rcases hstep : (Machine.Site.execute ⟨pc, p.code, p.scope⟩ insn).outcome ⟨f, s.pool⟩ with
      ⟨e' | _, ⟨f', later⟩⟩
    · simp only [Inference.execute, Step.outcome_ofOutcome, hstep] at herror
      cases herror
      exact (Machine.Site.ordinary_of_execute htraits hwide (hlocals traits htraits) hstep).legible
    · simp only [Inference.execute, Step.outcome_ofOutcome, hstep] at herror
      cases herror

theorem meets_roomy (h : Blanked dead p p') (htiles : p.graph.Tiles p.code instructions)
    (hlocals : ∀ pc ∈ instructions, ∀ insn, Code.decode p.code pc = .ok insn → insn.LocalsIn size) :
    (roomy p dead instructions size).Meets p' where
  refused e he := he.ordinary.legible
  fails s k b pc f e _ hb hbefore hpc hfails := by
    rw [h.graph] at hb
    obtain ⟨insn, hdecode, huses, _⟩ := h.exists_instruction htiles hlocals hbefore.1 hb hpc
    exact hfails.legible hdecode (huses.mono hbefore.2)
  ended _ := trivial
  refl s hs := ⟨hs, fun _ _ _ hf => hf, fun _ _ hf => hf⟩
  grow s later hs _ _ := ⟨hs, fun _ _ _ hf => hf, fun _ _ hf => hf⟩
  merge s k b f hs _ hf :=
    (ends_mergeEntry_roomy k hs hf).mono fun _ t ht => ⟨ht, fun _ _ _ hf => hf, fun _ _ hf => hf⟩
  lost _ _ _ _ _ _ := trivial
  enter s k b f hs hb hf := ⟨Blanked.passes_start htiles (by rwa [h.graph] at hb), hs.2 k f hf⟩
  throws _ _ _ _ _ _ _ _ _ hbefore _ _ _ _ := hbefore.2
  step s later k b pc f f' insn traits targets popped pushed _ hb hbefore hpc hdecode _ _ _
      hshift := by
    rw [h.graph] at hb
    obtain ⟨insn', hdecode', _, hnext, _⟩ := h.exists_instruction htiles hlocals hbefore.1 hb hpc
    rw [hdecode] at hdecode'
    cases hdecode'
    have hsize : size ≤ f'.locals.size := hshift.size.symm ▸ hbefore.2
    exact ⟨fun _ _ => hsize, fun _ => ⟨hnext, hsize⟩⟩
  falls _ _ _ _ _ _ _ hbefore _ _ := hbefore.2

end Inference

namespace MethodCode

open BlockProgram (Blanked)
open Inference (roomy meets_roomy RoomyFrames)

variable {m : MethodCode} {facts : ControlFacts} {header : MethodHeader} {scope : ClassScope}
  {graph : BlockGraph} {instructions : List Nat} {size : Nat} {pool later : ConstantPool}

/-- What the first run of inference leaves, if it gets to its end. -/
lemma ends_run_roomy (htiles : graph.Tiles m.code instructions)
    (hlocals : ∀ pc ∈ instructions, ∀ insn, Code.decode m.code pc = .ok insn → insn.LocalsIn size)
    {initial : Frame} (hinitial : size ≤ initial.locals.size) :
    (Inference.run (m.program graph scope) initial).Ends (.unreached graph.blocks.size pool)
      (fun _ s => s.frames.size = graph.blocks.size ∧ s.RoomyFrames size) Error.Legible := by
  have hmeets := meets_roomy (.refl (m.program graph scope)) htiles hlocals
  have hunreached : (Inference.unreached graph.blocks.size pool).RoomyFrames size := by
    intro k f hf
    simp only [Inference.unreached, Array.getElem?_replicate] at hf
    split at hf <;> cases hf
  refine (Inference.ends_mergeEntry_roomy (p := m.program graph scope) 0
    ⟨Array.size_replicate, hunreached⟩ hinitial).bind fun _ t ht => ?_
  exact hmeets.settle htiles.next_block (fun _ _ hs => hs) trivial _ ht

/-- What the second run leaves, if it gets to its end. -/
lemma ends_resumed_roomy (htiles : graph.Tiles m.code instructions)
    (hlocals : ∀ pc ∈ instructions, ∀ insn, Code.decode m.code pc = .ok insn →
      insn.LocalsIn m.maxLocals.toNat) {s s' : Inference} {p' : BlockProgram}
    {exception : VerificationType}
    (hs : s.frames.size = graph.blocks.size ∧ s.RoomyFrames m.maxLocals.toNat)
    (hneutralize : (m.program graph scope).neutralize m.maxLocals.toNat exception s = (p', s'))
    (rounds : Nat) :
    Code.Readable p'.code m.maxLocals.toNat ∧ (Inference.settle p' rounds).Ends s'
      (fun _ t => t.frames.size = graph.blocks.size ∧ t.RoomyFrames m.maxLocals.toNat)
      Error.Legible := by
  have hretired := BlockProgram.retired_neutralize (p := m.program graph scope) (s := s) htiles hs.1
    m.maxLocals.toNat exception
  rw [hneutralize] at hretired
  have hblanked := hretired.toBlanked fun h hh => (List.mem_filter.mp hh).1
  refine ⟨hblanked.readable htiles hlocals, ?_⟩
  refine (meets_roomy hblanked htiles hlocals).settle ?_ (fun _ _ hs => hs) trivial _
    ⟨hretired.frames_size.trans hs.1, fun k f hf => ?_⟩
  · intro k b hb hlt
    rw [hblanked.graph] at hb ⊢
    rw [hblanked.size] at hlt
    exact htiles.next_block k b hb hlt
  · by_cases hdead : k ∈ (m.program graph scope).deadBlocks s.frames
    · have hk : k < graph.blocks.size := List.mem_range.mp (List.mem_filter.mp hdead).1
      rw [hretired.retired k _ hdead (Array.getElem?_eq_getElem hk)] at hf
      cases hf
      exact hs.2.borrowed _ _ _
    · rw [hretired.kept k hdead] at hf
      exact hs.2 k f hf

/-- Inference on code that can be read fails in legible ways only. Where it succeeds, the code can be
read still, and all frames have the local variables that it uses. -/
theorem ends_settle_readable (hreadable : Code.Readable m.code m.maxLocals.toNat) :
    (m.settle facts header scope).Ends pool (fun settled _ =>
      Code.Readable settled.method.code m.maxLocals.toNat ∧
        ∀ (k : Nat) (f : Frame), settled.frames[k]? = some (some f) →
          m.maxLocals.toNat ≤ f.locals.size) Error.Legible := by
  have hlocals : ∀ {graph instructions}, BlockGraph.Tiles graph m.code instructions →
      ∀ pc ∈ instructions, ∀ insn, Code.decode m.code pc = .ok insn →
        insn.LocalsIn m.maxLocals.toNat := by
    intro graph instructions htiles pc hpc insn hdecode
    obtain ⟨starts, hstarts, hall⟩ := hreadable
    have hsame := Code.starts_eq_ok_iff.mpr htiles.walk
    rw [hstarts] at hsame
    cases hsame
    obtain ⟨insn', _, _, hdecode', _, _, huses⟩ := hall pc hpc
    rw [hdecode] at hdecode'
    cases hdecode'
    exact huses
  constructor
  · intro settled later hsettle
    obtain ⟨pool₁, s, hgraph, hinitial, hrun, hend⟩ := settle_eq_ok hsettle
    obtain ⟨instructions, htiles⟩ := BlockGraph.tiles_of_partition hgraph
    have hs := (ends_run_roomy htiles (hlocals htiles)
      (MethodHeader.size_of_entryFrame hinitial).1).ok _ s hrun
    rcases hend with ⟨_, hmethod, hframes, _⟩ |
      ⟨exception, middle, p', s', t, hresumed, hmethod, hframes, _⟩
    · rw [hmethod, hframes]
      exact ⟨hreadable, hs.2⟩
    · obtain ⟨hblanked, hends⟩ := ends_resumed_roomy (s := { s with pool := middle }) htiles
        (hlocals htiles) hs hresumed.neutralized _
      rw [hmethod, hframes]
      exact ⟨hblanked, (hends.ok _ t hresumed.ended).2⟩
  · intro e later herror
    cases hgraph : BlockGraph.partition m.code facts m.handlers with
    | error e' =>
      unfold settle at herror
      rw [hgraph] at herror
      cases herror
      rcases BlockGraph.partition_eq_error hgraph with hstarts | ⟨_, _, rfl⟩ | ⟨_, _, rfl⟩
      · obtain ⟨starts, hok, _⟩ := hreadable
        rw [hok] at hstarts
        cases hstarts
      · trivial
      · trivial
    | ok graph =>
      obtain ⟨instructions, htiles⟩ := BlockGraph.tiles_of_partition hgraph
      rcases settle_eq_error hgraph herror with hrefusal | ⟨initial, pool₁, hinitial, hrun⟩
      · exact hrefusal.ordinary.legible
      have hfirst : (Inference.run (m.program graph scope) initial).Ends
          (.unreached graph.blocks.size pool₁) _ Error.Legible :=
        ends_run_roomy htiles (hlocals htiles) (MethodHeader.size_of_entryFrame hinitial).1
      rcases hrun with ⟨t, hrun⟩ | ⟨s, exception, middle, p', s', t, hrun, _, hneutralize, hend⟩
      · exact hfirst.error e t hrun
      · have hs := hfirst.ok _ s hrun
        obtain ⟨_, hends⟩ := ends_resumed_roomy (s := { s with pool := middle }) htiles
          (hlocals htiles) hs hneutralize _
        exact hends.error e t hend

end MethodCode

namespace ConstantPool

/-- The attribute that says `body`, unless that is nothing. -/
def internUnless (empty : Bool) (body : AttributeBody) : Step ConstantPool (List Attribute) :=
  if empty then pure [] else List.singleton <$> internAttribute body

lemma ends_internAttribute (body : AttributeBody) (pool : ConstantPool) :
    (internAttribute body).Ends pool (fun _ _ => True) Error.Legible := by
  refine ⟨fun _ _ _ => trivial, fun e later h => ?_⟩
  rcases Step.bind_eq_error.mp h with h | ⟨name, _, _, h⟩
  · exact ((Adds.issue (.utf8 body.name)).refused h).ordinary.legible
  · split at h
    · cases h
    · cases h
      trivial

lemma ends_internUnless (empty : Bool) (body : AttributeBody) (pool : ConstantPool) :
    (internUnless empty body).Ends pool (fun _ _ => True) Error.Legible := by
  unfold internUnless
  split
  · exact .pure trivial
  · rw [map_eq_pure_bind]
    exact (ends_internAttribute body pool).bind fun _ _ _ => .pure trivial

end ConstantPool

lemma CodeDraft.legible_of_checkResolved {b : CodeDraft} {e : Error}
    (h : b.checkResolved = .error e) : e.Legible := by
  unfold checkResolved at h
  split at h
  · cases h
    trivial
  · split at h
    · cases h
      trivial
    · cases h

namespace MethodBody

open ConstantPool (internUnless ends_internAttribute ends_internUnless)
open Step (Ends)

variable {m : MethodBody} {scope : ClassScope} {version : Version} {pool : ConstantPool} {e : Error}

lemma legible_of_offsetOf {label : Label} (h : m.offsetOf label = .error e) : e.Legible := by
  unfold offsetOf at h
  split at h
  · cases h
    trivial
  · split at h
    · cases h
    · cases h
      trivial

lemma legible_of_handlers (h : m.handlers = .error e) : e.Legible := by
  rcases Except.bind_eq_error.mp h with h | ⟨_, _, h⟩
  · obtain ⟨range, _, h⟩ := Except.exists_of_mapM_eq_error h
    rcases Except.bind_eq_error.mp h with h | ⟨_, _, h⟩
    · exact legible_of_offsetOf h
    rcases Except.bind_eq_error.mp h with h | ⟨_, _, h⟩
    · exact legible_of_offsetOf h
    rcases Except.bind_eq_error.mp h with h | ⟨_, _, h⟩
    · exact legible_of_offsetOf h
    simp only at h
    split at h
    · cases h
      trivial
    · split at h <;> cases h
  · cases h

lemma legible_of_localVariables {length : Nat} (h : m.localVariables length = .error e) :
    e.Legible := by
  obtain ⟨v, _, h⟩ := Except.exists_of_mapM_eq_error h
  rcases Except.bind_eq_error.mp h with h | ⟨_, _, h⟩
  · exact legible_of_offsetOf h
  · cases h

lemma legible_of_checkTable {table : MethodTable} {count : Nat}
    (h : checkTable table count = .error e) : e.Legible := by
  unfold checkTable at h
  split at h
  · cases h
  · cases h
    trivial

lemma ends_checkTable {α : Type} {table : MethodTable} {count : Nat}
    {next : Unit → Step ConstantPool α} {Q : α → ConstantPool → Prop}
    (h : (next ()).Ends pool Q Error.Legible) :
    (Step.ofExcept (checkTable table count) >>= next).Ends pool Q Error.Legible :=
  Ends.ofExcept_bind (fun _ _ => h) fun _ herror => legible_of_checkTable herror

/-- Each table that has entries becomes an attribute. -/
lemma codeAttributes_eq (m : MethodBody) (length : Nat) (locals : List LocalVariable)
    (entries : List StackMapEntry) : m.codeAttributes length locals entries = (do
      Step.ofExcept
        (if m.lines.isEmpty then .ok () else checkTable .lineNumbers (m.lineNumbers length).length)
      let lines ← internUnless m.lines.isEmpty (.lineNumbers (m.lineNumbers length))
      let named ← internUnless locals.isEmpty (.localVariables locals)
      let stackMap ← internUnless entries.isEmpty (.stackMap entries)
      return lines ++ named ++ stackMap) := by
  unfold codeAttributes internUnless
  by_cases hlines : m.lines.isEmpty <;> by_cases hlocals : locals.isEmpty <;>
    by_cases hentries : entries.isEmpty <;>
    simp only [hlines, hlocals, hentries, if_true, Bool.false_eq_true, if_false] <;> rfl

lemma ends_codeAttributes (length : Nat) (locals : List LocalVariable)
    (entries : List StackMapEntry) :
    (m.codeAttributes length locals entries).Ends pool (fun _ _ => True) Error.Legible := by
  rw [codeAttributes_eq]
  refine Ends.ofExcept_bind (fun _ _ => ?_) fun e h => ?_
  · refine (ends_internUnless _ _ _).bind fun lines _ _ => (ends_internUnless _ _ _).bind
      fun named _ _ => (ends_internUnless _ _ _).bind fun stackMap _ _ => .pure trivial
  · split at h
    · cases h
    · exact legible_of_checkTable h

lemma ends_mapCode (hreadable : Code.Readable m.code.code m.code.maxLocals)
    (hlimit : m.code.maxLocals ≤ 65535) (handlers : List ExceptionHandler) :
    (m.mapCode handlers scope version).Ends pool (fun _ _ => True) Error.Legible := by
  unfold mapCode
  split
  · have hlocals : (m.draftedCode handlers).maxLocals.toNat = m.code.maxLocals := by
      rw [draftedCode, UInt16.toNat_ofNat']
      omega
    rw [← hlocals] at hreadable
    exact (MethodCode.ends_settle_readable hreadable).bind fun _ _ _ => .pure trivial
  · exact .pure trivial

/-- Closing a method whose code can be read fails in legible ways only. -/
theorem ends_close (hreadable : Code.Readable m.code.code m.code.maxLocals)
    (hlimit : m.code.maxLocals ≤ 65535) :
    (m.close scope version).Ends pool (fun _ _ => True) Error.Legible := by
  refine Ends.ofExcept_bind (fun _ _ => ?_) fun _ h => CodeDraft.legible_of_checkResolved h
  simp only
  split
  · exact .of_error rfl trivial
  refine Ends.ofExcept_bind (fun handlers _ => ?_) fun _ h => legible_of_handlers h
  refine Ends.ofExcept_bind (fun locals _ => ?_) fun _ h => legible_of_localVariables h
  refine (ends_mapCode hreadable hlimit handlers).bind fun mapped _ _ => ?_
  refine ends_checkTable (ends_checkTable (ends_checkTable ?_))
  refine (ends_codeAttributes _ _ _).bind fun attributes _ _ => ?_
  exact (ends_internAttribute _ _).bind fun _ _ _ => .pure trivial

end MethodBody

/-- An operation on a method under construction: on its draft alone, or by way of a builder. -/
inductive MethodOperation where
  | draft (op : DraftOperation)
  | build (call : BuilderCall)

namespace MethodOperation

def run : MethodOperation → Step MethodBuilder Unit
  | draft op => MethodBuilder.code op.run
  | build call => call.run

/-- Distances and the cases of a switch fit into the words they are written to. -/
def InRange : MethodOperation → Prop
  | draft op => op.Encodable
  | build call => call.InRange

instance : (op : MethodOperation) → Decidable op.InRange
  | draft op => inferInstanceAs (Decidable op.Encodable)
  | build call => inferInstanceAs (Decidable call.InRange)

lemma reaches {op : MethodOperation} {s s' : MethodBuilder} (hrange : op.InRange)
    (hrun : op.run.outcome s = (.ok (), s')) : s.method.code.Reaches s'.method.code := by
  cases op with
  | draft op => exact .operation op hrange (MethodBuilder.code_eq_ok hrun).1
  | build call => exact BuilderCall.reaches hrange hrun

lemma reaches_forM {ops : List MethodOperation} {s s' : MethodBuilder}
    (hrange : ∀ op ∈ ops, op.InRange) (hrun : (ops.forM run).outcome s = (.ok (), s')) :
    s.method.code.Reaches s'.method.code := by
  induction ops generalizing s with
  | nil =>
    cases hrun
    exact .refl
  | cons op ops ih =>
    rw [List.forM] at hrun
    obtain ⟨_, middle, hop, hops⟩ := Step.bind_eq_ok.mp hrun
    have hfirst := reaches (hrange op List.mem_cons_self) hop
    exact hfirst.trans (ih (fun op hop => hrange op (List.mem_cons_of_mem _ hop)) hops)

end MethodOperation

namespace CodeDraft

/-- What operations that all succeed make of an empty draft: it is made of instructions and within
its limits. -/
theorem Reaches.laid {b : CodeDraft} (h : Reaches .empty b) : ∃ items, b.Laid items ∧ b.Limited 0 := by
  induction h with
  | refl => exact ⟨[], .empty, Nat.zero_le _, Nat.le_refl _, Nat.zero_le _⟩
  | tail _ hstep ih =>
    obtain ⟨items, hlaid, hlimited⟩ := ih
    obtain ⟨op, hop, hrun⟩ := hstep
    obtain ⟨later, hlater⟩ := hlaid.step hop hrun
    have hkept := keeps_run (sized_limited 0) op _ hlimited
    rw [hrun] at hkept
    exact ⟨items ++ later, hlater, hkept⟩

end CodeDraft

namespace MethodBody

/-- A method starts with an empty draft that uses the local variables of its parameters. -/
lemma reaches_start {flags : MethodFlags} {name descriptor : String} {pool later : ConstantPool}
    {m : MethodBody} (h : (start flags name descriptor).outcome pool = (.ok m, later)) :
    CodeDraft.Reaches .empty m.code := by
  rw [start] at h
  split at h
  · cases h
  · rename_i parsed _
    obtain ⟨_, _, _, h⟩ := Step.bind_eq_ok.mp h
    obtain ⟨_, _, _, h⟩ := Step.bind_eq_ok.mp h
    simp only at h
    split at h
    · cases h
    · rename_i code huse
      cases h
      exact .operation (.useLocals 0 _) trivial huse

end MethodBody

namespace MethodOperation

/-- The code of a method that was drafted without failure can be read, whatever its operands are, and
the local variables that it uses are counted. Closing it never fails for code that cannot be read or
for a local variable that is not there. Where inference succeeds, the code with the blanked blocks
can be read as well, and every frame has all the local variables. -/
theorem drafted_code_readable {flags : MethodFlags} {name descriptor : String}
    {pool₀ pool₁ : ConstantPool} {m : MethodBody} {ops : List MethodOperation} {s : MethodBuilder}
    (hstart : (MethodBody.start flags name descriptor).outcome pool₀ = (.ok m, pool₁))
    (hrange : ∀ op ∈ ops, op.InRange)
    (hrun : (ops.forM run).outcome ⟨m, pool₁⟩ = (.ok (), s)) :
    Code.Readable s.method.code.code s.method.code.maxLocals ∧
    ∀ (scope : ClassScope) (version : Version) (pool : ConstantPool),
      (∀ e later, (s.method.close scope version).outcome pool = (.error e, later) →
        (∀ byte, e ≠ .unsupportedOpcode byte) ∧ ∀ pc, e ≠ .verification pc .invalidIndex) ∧
      ∀ handlers settled later, s.method.handlers = .ok handlers →
        ((s.method.draftedCode handlers).settle s.method.code.facts s.method.header scope).outcome
          pool = (.ok settled, later) →
        Code.Readable settled.method.code s.method.code.maxLocals ∧
          ∀ (k : Nat) (f : Frame), settled.frames[k]? = some (some f) →
            s.method.code.maxLocals ≤ f.locals.size := by
  have hreaches : CodeDraft.Reaches .empty s.method.code :=
    (MethodBody.reaches_start hstart).trans (reaches_forM hrange hrun)
  obtain ⟨items, hlaid, hlimited⟩ := hreaches.laid
  have hreadable := Code.readable_of_laid hlaid
  refine ⟨hreadable, fun scope version pool => ⟨fun e later herror => ?_, ?_⟩⟩
  · exact Error.legible_iff.mp ((MethodBody.ends_close hreadable hlimited.locals).error e later herror)
  · intro handlers settled later _ hsettle
    have hlocals : (s.method.draftedCode handlers).maxLocals.toNat = s.method.code.maxLocals := by
      have hle := hlimited.locals
      rw [MethodBody.draftedCode, UInt16.toNat_ofNat']
      omega
    have hends : ((s.method.draftedCode handlers).settle s.method.code.facts s.method.header
        scope).Ends pool _ Error.Legible := MethodCode.ends_settle_readable (by rwa [hlocals])
    have hsettled := hends.ok settled later hsettle
    rwa [hlocals] at hsettled

open MethodBuilder (plainMethod plainBuilder start_plainMethod)

/-- A jump over code that is never reached, and a switch, with wide operands on both sides. -/
def longJump : List MethodOperation := [
  .build (.literalInt 3000),
  .build (.store .int 300),
  .draft (.jump .goto (.distance 6)),
  .build (.emit .iinc [7, 1]),
  .draft (.emit .iinc [300, -200]),
  .build .newLabel,
  .build (.load .int 300),
  .draft (.reserveSwitch 0 0),
  .draft (.bindLabel 0),
  .build (.emit .returnVoid []),
  .build (.patchDefault 23 0),
  .draft (.patchCase 23 0 40)]

def longJumpBuilder : MethodBuilder := ((longJump.forM run).outcome plainBuilder).2

theorem longJump_code_readable :
    (MethodBody.start ⟨0x0009⟩ "f" "()V").outcome .empty = (.ok plainMethod, plainBuilder.pool) ∧
      (∀ op ∈ longJump, op.InRange) ∧
      (longJump.forM run).outcome plainBuilder = (.ok (), longJumpBuilder) ∧
      Code.Readable longJumpBuilder.method.code.code 301 ∧
      (∀ e later, (longJumpBuilder.method.close plainScope .java6).outcome longJumpBuilder.pool =
        (.error e, later) →
          (∀ byte, e ≠ .unsupportedOpcode byte) ∧ ∀ pc, e ≠ .verification pc .invalidIndex) ∧
      ∃ settled later, ((longJumpBuilder.method.draftedCode []).settle
          longJumpBuilder.method.code.facts longJumpBuilder.method.header plainScope).outcome
            longJumpBuilder.pool = (.ok settled, later) ∧
        settled.deadBlocks = 1 ∧ settled.method.code ≠ longJumpBuilder.method.code.code ∧
        Code.Readable settled.method.code 301 ∧
        ∀ (k : Nat) (f : Frame), settled.frames[k]? = some (some f) → 301 ≤ f.locals.size := by
  have hrange : ∀ op ∈ longJump, op.InRange := by decide +kernel
  have hok : ((longJump.forM run).outcome plainBuilder).1 = .ok () := by decide +kernel
  have hrun : (longJump.forM run).outcome plainBuilder = (.ok (), longJumpBuilder) :=
    Prod.ext hok (by rw [longJumpBuilder])
  have hlocals : longJumpBuilder.method.code.maxLocals = 301 := by decide +kernel
  have hsettled : (((longJumpBuilder.method.draftedCode []).settle
      longJumpBuilder.method.code.facts longJumpBuilder.method.header plainScope).outcome
        longJumpBuilder.pool).1.map (fun settled => (settled.deadBlocks,
          decide (settled.method.code = longJumpBuilder.method.code.code))) = .ok (1, false) := by
    decide +kernel
  obtain ⟨hreadable, hclosing⟩ := drafted_code_readable start_plainMethod hrange hrun
  obtain ⟨settled, later, hsettle, heq⟩ := Step.exists_of_map_eq_ok hsettled
  simp only [Prod.mk.injEq] at heq
  obtain ⟨hdead, hcode⟩ := heq
  obtain ⟨hlegible, hinferred⟩ := hclosing plainScope .java6 longJumpBuilder.pool
  obtain ⟨hblanked, hframes⟩ := hinferred [] settled later (by decide +kernel) hsettle
  rw [hlocals] at hreadable hblanked hframes
  exact ⟨start_plainMethod, hrange, hrun, hreadable, hlegible, settled, later, hsettle, hdead,
    of_decide_eq_false hcode, hblanked, hframes⟩

end MethodOperation
end ClassAssembly
