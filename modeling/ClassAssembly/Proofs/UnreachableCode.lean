import ClassAssembly.Proofs.SingleEntry
import Mathlib.Data.Set.Card

/-! Inference reaches exactly the blocks to which a path leads from the first one, so that exactly
the unreachable code is rewritten. -/
namespace ClassAssembly

namespace BlockGraph

/-- Control may go from the first of these blocks to the second. -/
def LeadsTo (g : BlockGraph) (i j : Nat) : Prop := ∃ b, g.blocks[i]? = some b ∧ j ∈ b.successors

/-- A path of successors leads from the first block to this one. -/
def Reachable (g : BlockGraph) (k : Nat) : Prop := Relation.ReflTransGen g.LeadsTo 0 k

/-- A block starts at this offset to which no path leads. -/
def UnreachableAt (g : BlockGraph) (pc : Nat) : Prop :=
  ∃ k b, g.blocks[k]? = some b ∧ b.start = pc ∧ ¬g.Reachable k

section Successors

open ClassAssembly.Except (bind_eq_ok)

variable {code : Array UInt8} {handlers : List ExceptionHandler} {starts : Array Nat}
  {stop pc j : Nat} {fallsThrough : Bool} {before found : List Nat}

/-- The search looks at one instruction and goes on after it. What it finds there are the blocks at
the handlers that cover the instruction and at its targets. -/
lemma successorsFrom_eq_ok (hpc : pc < stop)
    (h : successorsFrom code handlers starts stop pc fallsThrough before = .ok found) :
    ∃ insn traits targets more, Code.decode code pc = .ok insn ∧ insn.opcode.traits = .ok traits ∧
      Code.jumpTargets code pc insn traits.flow = .ok targets ∧
      successorsFrom code handlers starts stop (pc + insn.length) (!traits.flow.isUnconditional)
        (more ++ before) = .ok found ∧
      ∀ j, j ∈ more ↔ (∃ h ∈ handlers, h.covers pc = true ∧
          position? starts h.handler.toNat = some j) ∨
        ∃ target ∈ targets, position? starts target = some j := by
  rw [successorsFrom, if_pos hpc] at h
  split at h
  · cases h
  · rename_i insn hdecode
    obtain ⟨traits, htraits, h⟩ := bind_eq_ok.mp h
    obtain ⟨targets, htargets, h⟩ := bind_eq_ok.mp h
    refine ⟨insn, traits, targets, _, hdecode, htraits, htargets, h, fun j => ?_⟩
    simp only [List.mem_reverse, List.mem_filterMap, List.mem_append, List.mem_map, List.mem_filter]
    constructor
    · rintro ⟨target, ⟨handler, ⟨hmem, hcovers⟩, rfl⟩ | htarget, hj⟩
      · exact .inl ⟨handler, hmem, hcovers, hj⟩
      · exact .inr ⟨target, htarget, hj⟩
    · rintro (⟨handler, hmem, hcovers, hj⟩ | ⟨target, htarget, hj⟩)
      · exact ⟨_, .inl ⟨handler, ⟨hmem, hcovers⟩, rfl⟩, hj⟩
      · exact ⟨target, .inr htarget, hj⟩

/-- The same for an instruction that is known. -/
lemma successorsFrom_of_decode {insn : Instruction} {traits : OpcodeTraits} {targets : List Int}
    (hpc : pc < stop) (hdecode : Code.decode code pc = .ok insn)
    (htraits : insn.opcode.traits = .ok traits)
    (htargets : Code.jumpTargets code pc insn traits.flow = .ok targets)
    (h : successorsFrom code handlers starts stop pc fallsThrough before = .ok found) :
    ∃ more, successorsFrom code handlers starts stop (pc + insn.length)
        (!traits.flow.isUnconditional) (more ++ before) = .ok found ∧
      ∀ j, j ∈ more ↔ (∃ h ∈ handlers, h.covers pc = true ∧
          position? starts h.handler.toNat = some j) ∨
        ∃ target ∈ targets, position? starts target = some j := by
  obtain ⟨_, _, _, more, hdecode', htraits', htargets', hrest, hmore⟩ := successorsFrom_eq_ok hpc h
  rw [hdecode] at hdecode'
  cases hdecode'
  rw [htraits] at htraits'
  cases htraits'
  rw [htargets] at htargets'
  cases htargets'
  exact ⟨more, hrest, hmore⟩

lemma mem_of_successorsFrom_end (hpc : stop ≤ pc)
    (h : successorsFrom code handlers starts stop pc fallsThrough before = .ok found) :
    j ∈ found ↔ j ∈ before ∨
      fallsThrough = true ∧ stop < code.size ∧ position? starts stop = some j := by
  rw [successorsFrom, if_neg (Nat.not_lt.mpr hpc)] at h
  cases h
  rw [List.mem_append, List.mem_reverse, Option.mem_toList]
  by_cases hfalls : fallsThrough = true ∧ stop < code.size
  · simp [hfalls]
  · rw [if_neg (by simpa using hfalls)]
    simp only [reduceCtorEq, or_false, ← and_assoc, hfalls, false_and]

lemma mem_of_successorsFrom
    (h : successorsFrom code handlers starts stop pc fallsThrough before = .ok found)
    (hj : j ∈ before) : j ∈ found := by
  induction hn : stop - pc using Nat.strong_induction_on generalizing pc fallsThrough before with
  | _ n ih =>
    rcases Nat.lt_or_ge pc stop with hlt | hge
    · obtain ⟨insn, traits, targets, more, _, _, _, hrest, _⟩ := successorsFrom_eq_ok hlt h
      have hpos := insn.length_pos
      exact ih _ (by omega) hrest (List.mem_append_right _ hj) rfl
    · exact (mem_of_successorsFrom_end hge h).mpr (.inl hj)

end Successors

variable {code : Array UInt8} {facts : ControlFacts} {handlers : List ExceptionHandler}
  {g : BlockGraph}

/-- Where the successors of the blocks come from. -/
lemma successors_of_partition (h : partition code facts handlers = .ok g) :
    ∃ starts : Array Nat, (∀ target, position? starts target = g.startingAt? target) ∧
      ∀ (k : Nat) (b : Block), g.blocks[k]? = some b → ∃ found,
        successorsFrom code handlers starts b.stop b.start true [] = .ok found ∧
          ∀ j, j ∈ b.successors ↔ j ∈ found := by
  obtain ⟨instructions, htiles⟩ := tiles_of_partition h
  obtain ⟨instructions', starts, hinstructions, hfilter, hblocks⟩ := partition_pieces h
  have hstart : ∀ (k : Nat), starts.toArray[k]? = g.blocks[k]?.map Block.start := by
    intro k
    rw [List.getElem?_toArray, hfilter,
      ← map_start_of_partition h (Code.starts_eq_ok_iff.mp hinstructions), List.getElem?_map,
      Array.getElem?_toList]
  have hascending : Search.Ascending id starts.toArray := by
    apply Search.Ascending.of_pairwise
    have hwalk := Code.starts_eq_ok_iff.mp hinstructions
    refine hwalk.pairwise.sublist ?_
    rw [hfilter]
    exact List.filter_sublist
  refine ⟨starts.toArray, fun target => ?_, fun k b hb => ?_⟩
  · cases target with
    | negSucc n => rfl
    | ofNat pc =>
      ext k
      rw [position?, startingAt?, Search.find?_eq_some_iff hascending,
        Search.find?_eq_some_iff htiles.ascending]
      simp only [hstart, Option.map_eq_some_iff, id_eq]
      constructor
      · rintro ⟨_, ⟨b, hb, rfl⟩, rfl⟩
        exact ⟨b, hb, rfl⟩
      · rintro ⟨b, hb, rfl⟩
        exact ⟨_, ⟨b, hb, rfl⟩, rfl⟩
  · rw [← Array.getElem?_toList] at hb
    obtain ⟨_, _, _, found, hfound, hsuccessors⟩ := exists_of_forall₂ hblocks.flip hb
    exact ⟨found, hfound, fun j => by rw [hsuccessors, List.mem_eraseDups]⟩

end BlockGraph

namespace Inference

open BlockGraph (position? successorsFrom successorsFrom_eq_ok successorsFrom_of_decode
  mem_of_successorsFrom mem_of_successorsFrom_end)

/-- Merging into the frame of a block leaves those of the others alone. -/
lemma Merged.getElem?_of_ne {o : ClassOrder} {s t : Inference} {j k : Nat} {f : Frame}
    (h : Merged o s k f t) (hjk : j ≠ k) : t.frames[j]? = s.frames[j]? := by
  cases h with
  | same => rfl
  | reached | widened => exact Array.getElem?_setIfInBounds_ne (Ne.symm hjk)

/-- A path leads to every block that is reached. A frame before some instruction comes with the rest
of the search for the successors of its block. -/
def alongPaths (p : BlockProgram) (starts : Array Nat) : Conditions where
  Inv s := ∀ (k : Nat) (f : Frame), s.frames[k]? = some (some f) → p.graph.Reachable k
  Before _ k pc _ := p.graph.Reachable k ∧ ∃ b before found, p.graph.blocks[k]? = some b ∧
    successorsFrom p.code p.handlers starts b.stop pc true before = .ok found ∧
      ∀ j ∈ found, j ∈ b.successors
  Sent _ target _ := ∀ j, p.graph.startingAt? target = some j → p.graph.Reachable j
  Fails _ := True

variable {p : BlockProgram} {starts : Array Nat} {instructions : List Nat}

/-- Paths go on to everything that the rest of the search finds. -/
lemma found_of_alongPaths {s : Inference} {k pc : Nat} {f : Frame} {b : Block}
    (hb : p.graph.blocks[k]? = some b) (h : (alongPaths p starts).Before s k pc f) :
    ∃ before found, successorsFrom p.code p.handlers starts b.stop pc true before = .ok found ∧
      (∀ j ∈ found, j ∈ b.successors) ∧ ∀ j ∈ found, p.graph.Reachable j := by
  obtain ⟨hk, b', before, found, hb', hfound, hsub⟩ := h
  rw [hb] at hb'
  cases hb'
  exact ⟨before, found, hfound, hsub, fun j hj => hk.tail ⟨b, hb, hsub j hj⟩⟩

theorem hold_alongPaths
    (hcovered : ∀ pc < p.code.size, ∀ h ∈ p.handlers, h.covers (pc % 65536) → h.covers pc)
    (htiles : p.graph.Tiles p.code instructions)
    (hposition : ∀ target, position? starts target = p.graph.startingAt? target)
    (hsuccessors : ∀ (k : Nat) (b : Block), p.graph.blocks[k]? = some b → ∃ found,
      successorsFrom p.code p.handlers starts b.stop b.start true [] = .ok found ∧
        ∀ j, j ∈ b.successors ↔ j ∈ found) : (alongPaths p starts).Hold p where
  plain _ _ := trivial
  refl s hs := ⟨hs, fun _ _ _ h => h, fun _ _ h => h⟩
  grow s later hs _ _ := ⟨hs, fun _ _ _ h => h, fun _ _ h => h⟩
  merge s k b f hs hb hsent := by
    have hk : p.graph.Reachable k := hsent k (BlockGraph.startingAt?_of_start htiles hb)
    have hends := ends_mergeEntry (ClassOrder.merges_coarse p.scope) k f (s := s) trivial
    refine (hends.mono fun _ t hmerged => ?_).mono_error fun _ _ => trivial
    refine ⟨fun j f' hf' => ?_, fun _ _ _ h => h, fun _ _ h => h⟩
    by_cases hjk : j = k
    · exact hjk ▸ hk
    · rw [hmerged.getElem?_of_ne hjk] at hf'
      exact hs j f' hf'
  lost _ _ _ _ _ _ := trivial
  enter s k b f hs hb hf := by
    obtain ⟨found, hfound, hmem⟩ := hsuccessors k b hb
    exact ⟨hs k f hf, b, [], found, hb, hfound, fun j hj => (hmem j).mpr hj⟩
  throws s k b pc f handler exception _ hb hbefore hpc hmem hcovers _ := by
    obtain ⟨before, found, hfound, _, hpaths⟩ := found_of_alongPaths hb hbefore
    obtain ⟨insn, traits, targets, more, _, _, _, hrest, hmore⟩ := successorsFrom_eq_ok hpc hfound
    intro j hj
    have hlt := Nat.lt_of_lt_of_le hpc (htiles.bounds hb).2
    have hjmore : j ∈ more :=
      (hmore j).mpr (.inl ⟨handler, hmem, hcovered pc hlt handler hmem hcovers, by rw [hposition, hj]⟩)
    exact hpaths j (mem_of_successorsFrom hrest (List.mem_append_left _ hjmore))
  step s later k b pc f f' insn traits targets popped pushed _ hb hbefore hpc hdecode htraits htargets
      _ _ := by
    obtain ⟨before, found, hfound, hsub, hpaths⟩ := found_of_alongPaths hb hbefore
    obtain ⟨more, hrest, hmore⟩ := successorsFrom_of_decode hpc hdecode htraits htargets hfound
    refine ⟨fun target htarget j hj => ?_, fun hflow => ?_⟩
    · have hjmore : j ∈ more := (hmore j).mpr (.inr ⟨target, htarget, by rw [hposition, hj]⟩)
      exact hpaths j (mem_of_successorsFrom hrest (List.mem_append_left _ hjmore))
    · rw [hflow] at hrest
      exact ⟨hbefore.1, b, _, found, hb, hrest, hsub⟩
  falls s k b pc f _ hb hbefore hpc hstop := by
    obtain ⟨before, found, hfound, _, hpaths⟩ := found_of_alongPaths hb hbefore
    intro j hj
    have hjfound := (mem_of_successorsFrom_end hpc hfound).mpr
      (.inr ⟨rfl, hstop, by rw [hposition, hj]⟩)
    exact hpaths j hjfound

/-- Every path stays within the reached blocks: a block whose frames have landed everywhere has only
successors that accept some of them. -/
lemma accepted_of_propagates {Accepts : Nat → Frame → Prop} {pool : ConstantPool} {k pc : Nat}
    {b : Block} {frame : Frame} {before found : List Nat}
    (htiles : p.graph.Tiles p.code instructions)
    (hposition : ∀ target, position? starts target = p.graph.startingAt? target)
    (hends : ∀ pc ∈ instructions, b.start ≤ pc → ∀ stop, Code.transferEnd? p.code pc = some stop →
      b.stop ≤ stop)
    (hb : p.graph.blocks[k]? = some b) (hpc : Code.Reaches p.code b.start pc)
    (h : p.Propagates pool Accepts b.stop pc frame)
    (hfound : successorsFrom p.code p.handlers starts b.stop pc true before = .ok found) :
    ∀ j ∈ found, j ∈ before ∨ ∃ f, Accepts j f := by
  have hlands : ∀ {target f j}, p.Lands Accepts target f → position? starts target = some j →
      ∃ f, Accepts j f := by
    rintro _ f j ⟨i, entered, hi, rfl, haccepts⟩ hj
    rw [hposition, BlockGraph.startingAt?_of_start htiles hi] at hj
    cases hj
    exact ⟨f, haccepts⟩
  induction h generalizing before with
  | @instruction pc frame frame' insn traits targets hlt hdecode htraits hhandlers _ htargets hjumps
      _ ih =>
    obtain ⟨more, hrest, hmore⟩ := successorsFrom_of_decode hlt hdecode htraits htargets hfound
    have hnow : ∀ j ∈ more ++ before, j ∈ before ∨ ∃ f, Accepts j f := by
      intro j hj
      rcases List.mem_append.mp hj with hj | hj
      · right
        rcases (hmore j).mp hj with ⟨handler, hmem, hcovers, hj⟩ | ⟨target, htarget, hj⟩
        · obtain ⟨exception, _, hland⟩ := hhandlers handler hmem hcovers
          exact hlands hland hj
        · exact hlands (hjumps target htarget) hj
      · exact .inl hj
    intro j hj
    cases hflow : traits.flow.isUnconditional with
    | false =>
      rw [hflow] at hrest
      rcases ih hflow (hpc.next hdecode) hrest j hj with hj | hj
      · exact hnow j hj
      · exact .inr hj
    | true =>
      -- The instruction ends its block, so the search ends here too.
      have hend : b.stop ≤ pc + insn.length := by
        obtain ⟨hstart, hmem⟩ := htiles.reaches hb hpc
        have hin := Code.lt_of_decode hdecode
        refine hends pc (hmem.resolve_right (by omega)) hstart _ ?_
        rw [Code.transferEnd?_eq hdecode htraits, if_pos hflow]
      rw [hflow] at hrest
      rcases (mem_of_successorsFrom_end hend hrest).mp hj with hj | ⟨hfalse, _⟩
      · exact hnow j hj
      · cases hfalse
  | falls hge _ hnext =>
    intro j hj
    rcases (mem_of_successorsFrom_end hge hfound).mp hj with hj | ⟨_, _, hj⟩
    · exact .inl hj
    · exact .inr (hlands hnext hj)

end Inference

namespace MethodCode

open Inference (alongPaths hold_alongPaths accepted_of_propagates)

variable {m : MethodCode} {facts : ControlFacts} {header : MethodHeader} {scope : ClassScope}
  {graph : BlockGraph} {initial : Frame} {instructions : List Nat} {pool later : ConstantPool}
  {s : Inference}

/-- A path leads to every block that the first run reaches. -/
lemma reachable_of_reached
    (hcovered : ∀ pc < m.code.size, ∀ h ∈ m.handlers, h.covers (pc % 65536) → h.covers pc)
    (htiles : graph.Tiles m.code instructions)
    (hgraph : BlockGraph.partition m.code facts m.handlers = .ok graph)
    (hrun : (Inference.run (m.program graph scope) initial).outcome
      (.unreached graph.blocks.size pool) = (.ok (), s)) {k : Nat} {f : Frame}
    (hf : s.frames[k]? = some (some f)) : graph.Reachable k := by
  obtain ⟨starts, hposition, hsuccessors⟩ := BlockGraph.successors_of_partition hgraph
  have hhold := hold_alongPaths (p := m.program graph scope) hcovered htiles hposition hsuccessors
  obtain ⟨_, s₁, hmerge, hsettle⟩ := Step.bind_eq_ok.mp hrun
  have hmerged := (Inference.ends_mergeEntry (p := m.program graph scope)
    (s := .unreached graph.blocks.size pool) (ClassOrder.merges_coarse scope) 0 initial trivial).ok
      () s₁ hmerge
  have hs₁ : (alongPaths (m.program graph scope) starts).Inv s₁ := by
    intro j f' hf'
    by_cases hj : j = 0
    · exact hj ▸ .refl
    · rw [hmerged.getElem?_of_ne hj] at hf'
      have hmem := Array.mem_of_getElem? hf'
      simp [Inference.unreached] at hmem
  exact (hhold.settle htiles.next_block (fun _ _ hs => hs) trivial _ hs₁).ok () s hsettle k f hf

/-- Once no block waits, all blocks to which a path leads are reached. -/
lemma reached_of_reachable (hgraph : BlockGraph.partition m.code facts m.handlers = .ok graph)
    (htiles : graph.Tiles m.code instructions) (hcomplete : facts.Complete m.code instructions)
    (hsettled : Inference.Settled .coarse (m.program graph scope) s)
    (hempty : s.worklist.toList = []) (hfirst : s.Accepts .coarse 0 initial) {k : Nat}
    (hpath : graph.Reachable k) : ∃ f, s.frames[k]? = some (some f) := by
  obtain ⟨starts, hposition, hsuccessors⟩ := BlockGraph.successors_of_partition hgraph
  have haccepts : ∃ f, s.Accepts .coarse k f := by
    induction hpath with
    | refl => exact ⟨initial, hfirst⟩
    | @tail i j _ hedge ih =>
      obtain ⟨_, entry, hentry, _⟩ := ih
      obtain ⟨b, hb, hj⟩ := hedge
      obtain ⟨found, hfound, hmem⟩ := hsuccessors i b hb
      have hpropagates := hsettled i b entry hb hentry (by simp [hempty])
      refine (accepted_of_propagates htiles hposition ?_ hb .here hpropagates hfound j
        ((hmem j).mp hj)).resolve_left List.not_mem_nil
      intro pc hpc hlo stop hend
      exact BlockGraph.stop_le_of_transfer hgraph htiles hcomplete hpc hend hb hlo
  obtain ⟨_, entry, hentry, _⟩ := haccepts
  exact ⟨entry, hentry⟩

/-- The first run reaches exactly the blocks to which a path leads. -/
theorem reached_iff_reachable (hsize : m.code.size ≤ 65536)
    (hstarts : Code.starts m.code = .ok instructions) (hcomplete : facts.Complete m.code instructions)
    (hgraph : BlockGraph.partition m.code facts m.handlers = .ok graph)
    (hinitial : ∀ Made, initial.Formed initial.locals.size Made)
    (hrun : (Inference.run (m.program graph scope) initial).outcome
      (.unreached graph.blocks.size pool) = (.ok (), s)) :
    s.frames.size = graph.blocks.size ∧ ∀ (k : Nat) (b : Block), graph.blocks[k]? = some b →
      ((∃ f, s.frames[k]? = some (some f)) ↔ graph.Reachable k) := by
  obtain ⟨instructions', htiles⟩ := BlockGraph.tiles_of_partition hgraph
  have hsame := Code.starts_eq_ok_iff.mpr htiles.walk
  rw [hstarts] at hsame
  cases hsame
  have hw : (m.program graph scope).Wired .coarse :=
    htiles.wired rfl (ClassOrder.merges_coarse scope) rfl hsize
  have hmade : (m.program graph scope).MadeBy .coarse fun _ _ => True :=
    ⟨fun _ _ _ _ _ => trivial, fun _ _ _ _ _ _ _ _ _ _ _ _ _ _ => trivial⟩
  obtain ⟨hvalid, hsettled, hempty, haccepts⟩ :=
    Inference.run_spec hw hmade trivial hinitial hrun
  refine ⟨hvalid.frames_size, fun k b hb => ⟨?_, fun hpath => ?_⟩⟩
  · rintro ⟨f, hf⟩
    refine reachable_of_reached (fun pc hpc h _ hcovers => ?_) htiles hgraph hrun hf
    rwa [Nat.mod_eq_of_lt (by omega)] at hcovers
  · exact reached_of_reachable hgraph htiles hcomplete hsettled hempty haccepts hpath

open Classical in
/-- The method with its unreachable blocks blanked: all other code is as before, and so are the
handlers but those in blanked blocks. -/
structure Pruned (m : MethodCode) (graph : BlockGraph) (mapped : MappedCode) : Prop where
  size : mapped.method.code.size = m.code.size
  kept : ∀ (k : Nat) (b : Block), graph.blocks[k]? = some b → graph.Reachable k →
    ∀ i, b.start ≤ i → i < b.stop → mapped.method.code[i]? = m.code[i]?
  blanked : ∀ (k : Nat) (b : Block), graph.blocks[k]? = some b → ¬graph.Reachable k →
    ∀ i, b.start ≤ i → i < b.stop → mapped.method.code[i]? =
      some (if i + 1 = b.stop then Opcode.athrow.byte else Opcode.nop.byte)
  deadBlocks : mapped.deadBlocks = {k | k < graph.blocks.size ∧ ¬graph.Reachable k}.ncard
  handlers : mapped.method.handlers =
    m.handlers.filter fun h => decide ¬graph.UnreachableAt h.handler.toNat
  maxStack : mapped.method.maxStack = if mapped.deadBlocks = 0 then m.maxStack else max m.maxStack 1
  maxLocals : mapped.method.maxLocals = m.maxLocals

/-- The blocks without a frame are counted. -/
lemma length_deadBlocks {p : BlockProgram} {frames : Array (Option Frame)}
    (hsize : frames.size = p.graph.blocks.size)
    (hreached : ∀ (k : Nat) (b : Block), p.graph.blocks[k]? = some b →
      ((∃ f, frames[k]? = some (some f)) ↔ p.graph.Reachable k)) :
    (∀ k, k ∈ p.deadBlocks frames ↔ k < p.graph.blocks.size ∧ ¬p.graph.Reachable k) ∧
      (p.deadBlocks frames).length = {k | k < p.graph.blocks.size ∧ ¬p.graph.Reachable k}.ncard := by
  have hmem : ∀ k, k ∈ p.deadBlocks frames ↔ k < p.graph.blocks.size ∧ ¬p.graph.Reachable k := by
    intro k
    constructor
    · intro hk
      have hlt := List.mem_range.mp (List.mem_filter.mp hk).1
      refine ⟨hlt, fun hpath => ?_⟩
      obtain ⟨f, hf⟩ := (hreached k _ (Array.getElem?_eq_getElem hlt)).mpr hpath
      rw [(BlockProgram.mem_deadBlocks hsize).mp hk] at hf
      cases hf
    · rintro ⟨hlt, hpath⟩
      by_contra hk
      have hb := Array.getElem?_eq_getElem hlt
      exact hpath ((hreached k _ hb).mp (exists_frame hsize hk hb))
  refine ⟨hmem, ?_⟩
  have hset : {k | k < p.graph.blocks.size ∧ ¬p.graph.Reachable k} =
      ((p.deadBlocks frames).toFinset : Set Nat) := by
    ext k
    simp [hmem]
  have hnodup : (p.deadBlocks frames).Nodup := List.nodup_range.filter _
  rw [hset, Set.ncard_coe_finset, List.toFinset_card_of_nodup hnodup]

open Classical in
/-- The handlers that are left are those that start reachable blocks. -/
lemma liveHandlers_eq (hstarts : Code.starts m.code = .ok instructions)
    (hgraph : BlockGraph.partition m.code facts m.handlers = .ok graph)
    {frames : Array (Option Frame)} (hreached : ∀ (k : Nat) (b : Block), graph.blocks[k]? = some b →
      ((∃ f, frames[k]? = some (some f)) ↔ graph.Reachable k)) :
    BlockProgram.liveHandlers graph frames m.handlers =
      m.handlers.filter fun h => decide ¬graph.UnreachableAt h.handler.toNat := by
  obtain ⟨_, htiles⟩ := BlockGraph.tiles_of_partition hgraph
  refine List.filter_congr fun h hh => ?_
  obtain ⟨k, b, hb, hstart⟩ := BlockGraph.exists_block_of_handler hgraph hstarts hh
  have hunreachable : graph.UnreachableAt h.handler.toNat ↔ ¬graph.Reachable k := by
    constructor
    · rintro ⟨j, b', hb', hstart', hj⟩
      have hfound := BlockGraph.startingAt?_of_start htiles hb'
      rw [hstart', ← hstart, BlockGraph.startingAt?_of_start htiles hb] at hfound
      cases hfound
      exact hj
    · exact fun hk => ⟨k, b, hb, hstart, hk⟩
  have hframe : BlockProgram.handlerFrame? graph frames h = frames[k]?.join := by
    rw [BlockProgram.handlerFrame?, ← hstart, BlockGraph.startingAt?_of_start htiles hb]
    rfl
  rw [Bool.eq_iff_iff, decide_eq_true_iff, hunreachable, not_not, ← hreached k b hb, hframe,
    Option.isSome_iff_exists]
  simp [Option.join_eq_some_iff]

/-- A method whose blocks can all be reached is its own pruned form. -/
lemma pruned_self {entries : List StackMapEntry}
    (hall : ∀ (k : Nat) (b : Block), graph.blocks[k]? = some b → graph.Reachable k) :
    m.Pruned graph ⟨m, entries, 0⟩ where
  size := rfl
  kept _ _ _ _ _ _ _ := rfl
  blanked k b hb hk := absurd (hall k b hb) hk
  deadBlocks := by
    have hnone : {k | k < graph.blocks.size ∧ ¬graph.Reachable k} = ∅ := by
      rw [Set.eq_empty_iff_forall_notMem]
      rintro k ⟨hlt, hk⟩
      exact hk (hall k _ (Array.getElem?_eq_getElem hlt))
    rw [hnone, Set.ncard_empty]
  handlers := by
    classical
    symm
    rw [List.filter_eq_self]
    intro handler _
    refine decide_eq_true ?_
    rintro ⟨k, b, hb, _, hk⟩
    exact hk (hall k b hb)
  maxStack := rfl
  maxLocals := rfl

open Classical in
/-- Blanking exactly the blocks that cannot be reached prunes a method. -/
lemma pruned_of_retired {dead : List Nat} {exception : VerificationType} {p' : BlockProgram}
    {s' : Inference} {live : List ExceptionHandler} {entries : List StackMapEntry}
    (htiles : graph.Tiles m.code instructions)
    (h : BlockProgram.Retired { m.program graph scope with handlers := live } s m.maxLocals.toNat
      exception dead p' s')
    (hmem : ∀ k, k ∈ dead ↔ k < graph.blocks.size ∧ ¬graph.Reachable k) (hsome : dead ≠ [])
    (hcount : dead.length = {k | k < graph.blocks.size ∧ ¬graph.Reachable k}.ncard)
    (hlive : live = m.handlers.filter fun h => decide ¬graph.UnreachableAt h.handler.toNat) :
    m.Pruned graph ⟨⟨p'.code, p'.handlers, max m.maxStack 1, m.maxLocals⟩, entries, dead.length⟩ where
  size := h.size
  kept k b hb hk i hlo hhi := by
    refine h.bytes i fun j hj b' hb' hin => ?_
    obtain rfl := htiles.unique hb hb' ⟨hlo, hhi⟩ hin
    exact ((hmem k).mp hj).2 hk
  blanked k b hb hk i hlo hhi := by
    have hdead := (hmem k).mpr ⟨(Array.getElem?_eq_some_iff.mp hb).1, hk⟩
    exact h.blanked k b i hdead hb ⟨hlo, hhi⟩
  deadBlocks := hcount
  handlers := h.handlers.trans hlive
  maxStack := by rw [if_neg (by simpa using hsome)]
  maxLocals := rfl

/-- Exactly the unreachable code is rewritten. If the facts about control are complete and a stack
map is inferred, the first run reaches exactly the blocks to which a path of successors leads from
the first block; all code stays but that of the other blocks, which is blanked, and the handlers that
start there are dropped. -/
theorem withStackMap_prunes {mapped : MappedCode} (hsize : m.code.size ≤ 65536)
    (hstarts : Code.starts m.code = .ok instructions) (hcomplete : facts.Complete m.code instructions)
    (h : (m.withStackMap facts header scope).outcome pool = (.ok mapped, later)) :
    ∃ graph initial pool₁ s, BlockGraph.partition m.code facts m.handlers = .ok graph ∧
      (header.entryFrame scope m.maxLocals.toNat).outcome pool = (.ok initial, pool₁) ∧
      (Inference.run (m.program graph scope) initial).outcome (.unreached graph.blocks.size pool₁) =
        (.ok (), s) ∧
      (∀ (k : Nat) (b : Block), graph.blocks[k]? = some b →
        ((∃ f, s.frames[k]? = some (some f)) ↔ graph.Reachable k)) ∧
      m.Pruned graph mapped := by
  obtain ⟨settled, _, hsettle, heq⟩ := Step.bind_eq_ok.mp h
  cases heq
  obtain ⟨graph, initial, pool₁, t, hgraph, hinitial, hinfer, rfl⟩ := infer_of_settle hsettle
  obtain ⟨s, hrun, hend⟩ := infer_eq_ok hinfer
  obtain ⟨hframes, hreached⟩ := reached_iff_reachable hsize hstarts hcomplete hgraph
    (MethodHeader.formed_entryFrame hinitial).2 hrun
  refine ⟨graph, initial, pool₁, s, hgraph, hinitial, hrun, hreached, ?_⟩
  obtain ⟨hmem, hcount⟩ :=
    length_deadBlocks (p := m.program graph scope) hframes hreached
  rcases hend with ⟨hnone, rfl, rfl⟩ | ⟨exception, middle, p', s', hresumed, rfl, hsome⟩
  · refine pruned_self fun k b hb => ?_
    by_contra hk
    have hdead := (hmem k).mpr ⟨(Array.getElem?_eq_some_iff.mp hb).1, hk⟩
    rw [hnone] at hdead
    cases hdead
  · obtain ⟨_, htiles⟩ := BlockGraph.tiles_of_partition hgraph
    have hretired := BlockProgram.retired_neutralize (p := m.program graph scope)
      (s := { s with pool := middle }) htiles hframes m.maxLocals.toNat exception
    rw [hresumed.neutralized] at hretired
    exact pruned_of_retired htiles hretired hmem hsome hcount
      (liveHandlers_eq hstarts hgraph hreached)

/-- Code that jumps over a few instructions, and a handler after it. -/
def skippingOperations : List DraftOperation := [
  .newLabel, .newLabel,
  .jump .goto (.label 0),
  .emit .nop [],
  .emit .aconstNull [],
  .emit .athrow [],
  .bindLabel 0,
  .emit .returnVoid [],
  .bindHandler 1,
  .emit .pop [],
  .emit .returnVoid []]

def skippingDraft : CodeDraft := ((skippingOperations.forM DraftOperation.run).outcome .empty).2

/-- The second handler starts in the code that is jumped over. -/
def skippingMethod : MethodCode :=
  ⟨skippingDraft.code, [⟨0, 3, 7, none⟩, ⟨3, 6, 3, none⟩, ⟨3, 6, 7, none⟩], 0, 0⟩

theorem skippingMethod_pruned :
    ∃ starts mapped later, skippingMethod.code.size ≤ 65536 ∧
      Code.starts skippingMethod.code = .ok starts ∧
      skippingDraft.facts.Complete skippingMethod.code starts ∧
      (skippingMethod.withStackMap skippingDraft.facts plainHeader plainScope).outcome .empty =
        (.ok mapped, later) ∧
      mapped.method = ⟨#[0xa7, 0, 6, 0, 0, 0xbf, 0xb1, 0x57, 0xb1],
        [⟨0, 3, 7, none⟩, ⟨3, 6, 7, none⟩], 1, 0⟩ ∧
      mapped.deadBlocks = 1 ∧
      ∃ graph initial pool₁ s, BlockGraph.partition skippingMethod.code skippingDraft.facts
          skippingMethod.handlers = .ok graph ∧
        (plainHeader.entryFrame plainScope skippingMethod.maxLocals.toNat).outcome .empty =
          (.ok initial, pool₁) ∧
        (Inference.run (skippingMethod.program graph plainScope) initial).outcome
          (.unreached graph.blocks.size pool₁) = (.ok (), s) ∧
        (∀ (k : Nat) (b : Block), graph.blocks[k]? = some b →
          ((∃ f, s.frames[k]? = some (some f)) ↔ graph.Reachable k)) ∧
        skippingMethod.Pruned graph mapped := by
  have hrange : ∀ op ∈ skippingOperations, op.InRange := by decide +kernel
  have hok : ((skippingOperations.forM DraftOperation.run).outcome .empty).1 = .ok () := by
    decide +kernel
  have hrun : (skippingOperations.forM DraftOperation.run).outcome .empty = (.ok (), skippingDraft) :=
    Prod.ext hok (by rw [skippingDraft])
  obtain ⟨starts, hlayout, hcomplete⟩ := CodeDraft.complete_facts hrange hrun (by decide +kernel)
  have hstarts := Code.starts_eq_ok_iff.mpr (hlayout.walk (Nat.le_refl _))
  have hcode : skippingMethod.code = skippingDraft.code := by rw [skippingMethod]
  rw [← hcode] at hstarts hcomplete
  have hsize : skippingMethod.code.size ≤ 65536 := by decide +kernel
  have heval : ((skippingMethod.withStackMap skippingDraft.facts plainHeader plainScope).outcome
      .empty).1.map (fun mapped => (mapped.method, mapped.deadBlocks)) =
        .ok (⟨#[0xa7, 0, 6, 0, 0, 0xbf, 0xb1, 0x57, 0xb1],
          [⟨0, 3, 7, none⟩, ⟨3, 6, 7, none⟩], 1, 0⟩, 1) := by
    decide +kernel
  obtain ⟨mapped, later, h, hvalues⟩ := Step.exists_of_map_eq_ok heval
  obtain ⟨hmethod, hdead⟩ := Prod.mk.inj hvalues
  exact ⟨starts, mapped, later, hsize, hstarts, hcomplete, h, hmethod, hdead,
    withStackMap_prunes hsize hstarts hcomplete h⟩

end MethodCode
end ClassAssembly
