import ClassAssembly.Proofs.Fixpoint
import ClassAssembly.StackMap.Table

/-! Blanking the blocks that were never reached. All other code stays, and so do the frames of the
blocks that were reached. -/
namespace ClassAssembly
namespace BlockProgram

lemma getElem?_fill (v : UInt8) (start n i : Nat) (code : Array UInt8) :
    ((List.range' start n).foldl (fun code pc => code.setIfInBounds pc v) code)[i]? =
      if start ≤ i ∧ i < start + n ∧ i < code.size then some v else code[i]? := by
  induction n generalizing start code with
  | zero =>
    rw [if_neg (by omega)]
    rfl
  | succ n ih =>
    rw [List.range'_succ, List.foldl_cons, ih]
    simp only [Array.size_setIfInBounds, Array.getElem?_setIfInBounds]
    grind

lemma size_fill (v : UInt8) (pcs : List Nat) (code : Array UInt8) :
    (pcs.foldl (fun code pc => code.setIfInBounds pc v) code).size = code.size := by
  induction pcs generalizing code with
  | nil => rfl
  | cons pc pcs ih => rw [List.foldl_cons, ih, Array.size_setIfInBounds]

@[simp] lemma size_blank (code : Array UInt8) (b : Block) : (blank code b).size = code.size := by
  rw [blank, Array.size_setIfInBounds, size_fill]

/-- A blanked block holds `nop` up to its last byte, which is `athrow`. -/
lemma getElem?_blank {code : Array UInt8} {b : Block} (hlt : b.start < b.stop)
    (hle : b.stop ≤ code.size) (i : Nat) :
    (blank code b)[i]? =
      if b.start ≤ i ∧ i < b.stop then
        some (if i + 1 = b.stop then Opcode.athrow.byte else Opcode.nop.byte)
      else code[i]? := by
  rw [blank, Array.getElem?_setIfInBounds, size_fill, getElem?_fill]
  grind

/-- The frame that a blanked block starts with. -/
def borrowedFrame (p : BlockProgram) (frames : Array (Option Frame)) (maxLocals : Nat)
    (exception : VerificationType) (b : Block) : Frame :=
  ⟨borrowedLocals p.graph p.handlers frames maxLocals b.start, [exception]⟩

/-- What blanking some blocks does. -/
structure Retired (p : BlockProgram) (s : Inference) (maxLocals : Nat)
    (exception : VerificationType) (dead : List Nat) (p' : BlockProgram) (s' : Inference) : Prop where
  graph : p'.graph = p.graph
  handlers : p'.handlers = p.handlers
  scope : p'.scope = p.scope
  size : p'.code.size = p.code.size
  pool : s'.pool = s.pool
  worklist : s'.worklist.toList = s.worklist.toList ++ dead
  frames_size : s'.frames.size = s.frames.size
  kept : ∀ k : Nat, k ∉ dead → s'.frames[k]? = s.frames[k]?
  retired : ∀ (k : Nat) (b : Block), k ∈ dead → p.graph.blocks[k]? = some b →
    s'.frames[k]? = some (some (p.borrowedFrame s.frames maxLocals exception b))
  bytes : ∀ i : Nat, (∀ k ∈ dead, ∀ b : Block, p.graph.blocks[k]? = some b →
    ¬(b.start ≤ i ∧ i < b.stop)) → p'.code[i]? = p.code[i]?
  blanked : ∀ (k : Nat) (b : Block) (i : Nat), k ∈ dead → p.graph.blocks[k]? = some b →
    b.start ≤ i ∧ i < b.stop →
      p'.code[i]? = some (if i + 1 = b.stop then Opcode.athrow.byte else Opcode.nop.byte)

/-- A handler that was reached has the same frame after blocks that were not got theirs. -/
lemma handlerFrame?_setIfInBounds {graph : BlockGraph} {frames : Array (Option Frame)}
    {h : ExceptionHandler} {k : Nat} {frame : Option Frame}
    (hlive : (handlerFrame? graph frames h).isSome) (hdead : frames[k]? = some none) :
    handlerFrame? graph (frames.setIfInBounds k frame) h = handlerFrame? graph frames h := by
  unfold handlerFrame? at hlive ⊢
  cases hstart : graph.startingAt? h.handler.toNat with
  | none => rfl
  | some j =>
    have hjk : k ≠ j := by
      rintro rfl
      simp [hstart, hdead] at hlive
    simp only [Option.bind_some, Array.getElem?_setIfInBounds, if_neg hjk]

lemma borrowedLocals_setIfInBounds {graph : BlockGraph} {handlers : List ExceptionHandler}
    {frames : Array (Option Frame)} {k : Nat} {frame : Option Frame}
    (hlive : ∀ h ∈ handlers, (handlerFrame? graph frames h).isSome)
    (hdead : frames[k]? = some none) (maxLocals start : Nat) :
    borrowedLocals graph handlers (frames.setIfInBounds k frame) maxLocals start =
      borrowedLocals graph handlers frames maxLocals start := by
  unfold borrowedLocals
  have hsame : (handlers.findSome? fun h => if h.covers start then
      handlerFrame? graph (frames.setIfInBounds k frame) h else none) =
      handlers.findSome? fun h => if h.covers start then handlerFrame? graph frames h else none := by
    induction handlers with
    | nil => rfl
    | cons h rest ih =>
      rw [List.findSome?_cons, List.findSome?_cons,
        handlerFrame?_setIfInBounds (hlive h List.mem_cons_self) hdead,
        ih fun h' hh' => hlive h' (List.mem_cons_of_mem _ hh')]
  simp only [hsame]

lemma retire_eq {p : BlockProgram} {s : Inference} {maxLocals k : Nat}
    {exception : VerificationType} {b : Block} (hb : p.graph.blocks[k]? = some b) :
    retire maxLocals exception (p, s) k =
      ({ p with code := blank p.code b },
        ⟨s.frames.setIfInBounds k (some (p.borrowedFrame s.frames maxLocals exception b)),
          s.worklist.enqueue k, s.pool⟩) := by
  simp [retire, hb, borrowedFrame]

/-- Blanking one block after the other. The blocks do not overlap, so what was blanked stays so. -/
theorem retired_foldl {code : Array UInt8} {instructions : List Nat} {maxLocals : Nat}
    {exception : VerificationType} (dead : List Nat) (p : BlockProgram) (s : Inference)
    (htiles : p.graph.Tiles code instructions) (hsize : p.code.size = code.size)
    (hnodup : dead.Nodup) (hblock : ∀ k ∈ dead, ∃ b, p.graph.blocks[k]? = some b)
    (hdead : ∀ k ∈ dead, s.frames[k]? = some none)
    (hlive : ∀ h ∈ p.handlers, (handlerFrame? p.graph s.frames h).isSome) :
    Retired p s maxLocals exception dead (dead.foldl (retire maxLocals exception) (p, s)).1
      (dead.foldl (retire maxLocals exception) (p, s)).2 := by
  induction dead generalizing p s with
  | nil =>
    exact ⟨rfl, rfl, rfl, rfl, rfl, by simp, rfl, fun _ _ => rfl, by simp, fun _ _ => rfl, by simp⟩
  | cons k dead ih =>
    obtain ⟨hk, hnodup⟩ := List.nodup_cons.mp hnodup
    obtain ⟨b, hb⟩ := hblock k List.mem_cons_self
    have hnone := hdead k List.mem_cons_self
    obtain ⟨hlt, hle⟩ := htiles.bounds hb
    rw [List.foldl_cons, retire_eq hb]
    have hframes : ∀ j, j ≠ k → (s.frames.setIfInBounds k
        (some (p.borrowedFrame s.frames maxLocals exception b)))[j]? = s.frames[j]? := by
      intro j hj
      rw [Array.getElem?_setIfInBounds, if_neg (Ne.symm hj)]
    have hborrowed : ∀ b', borrowedFrame { p with code := blank p.code b } (s.frames.setIfInBounds k
        (some (p.borrowedFrame s.frames maxLocals exception b))) maxLocals exception b' =
          p.borrowedFrame s.frames maxLocals exception b' := by
      intro b'
      simp only [borrowedFrame, borrowedLocals_setIfInBounds hlive hnone]
    have hrest := ih { p with code := blank p.code b }
      ⟨s.frames.setIfInBounds k (some (p.borrowedFrame s.frames maxLocals exception b)),
        s.worklist.enqueue k, s.pool⟩ htiles ((size_blank _ _).trans hsize) hnodup
      (fun j hj => hblock j (List.mem_cons_of_mem _ hj))
      (fun j hj => (hframes j fun hjk => hk (hjk ▸ hj)).trans (hdead j (List.mem_cons_of_mem _ hj)))
      (fun h hh => (handlerFrame?_setIfInBounds (hlive h hh) hnone).symm ▸ hlive h hh)
    refine ⟨hrest.graph, hrest.handlers, hrest.scope, hrest.size.trans (size_blank _ _), hrest.pool,
      ?_, ?_, ?_, ?_, ?_, ?_⟩
    · rw [hrest.worklist, Worklist.toList_enqueue, List.append_assoc, List.singleton_append]
    · rw [hrest.frames_size, Array.size_setIfInBounds]
    · intro j hj
      obtain ⟨hjk, hj⟩ := not_or.mp (mt List.mem_cons.mpr hj)
      rw [hrest.kept j hj, hframes j hjk]
    · intro j b' hj hb'
      rcases List.mem_cons.mp hj with rfl | hj
      · rw [hb] at hb'
        cases hb'
        rw [hrest.kept j hk, Array.getElem?_setIfInBounds, if_pos rfl,
          if_pos (Array.getElem?_eq_some_iff.mp hnone).1]
      · rw [hrest.retired j b' hj hb', hborrowed]
    · intro i hi
      rw [hrest.bytes i fun j hj => hi j (List.mem_cons_of_mem _ hj),
        getElem?_blank hlt (hsize ▸ hle), if_neg (hi k List.mem_cons_self b hb)]
    · intro j b' i hj hb' hi
      rcases List.mem_cons.mp hj with rfl | hj
      · rw [hb] at hb'
        cases hb'
        rw [hrest.bytes i, getElem?_blank hlt (hsize ▸ hle), if_pos hi]
        intro j' hj' b' hb' hi'
        exact hk (htiles.unique hb hb' hi hi' ▸ hj')
      · exact hrest.blanked j b' i hj hb' hi

lemma mem_deadBlocks {p : BlockProgram} {frames : Array (Option Frame)}
    (hsize : frames.size = p.graph.blocks.size) {k : Nat} :
    k ∈ p.deadBlocks frames ↔ frames[k]? = some none := by
  rw [deadBlocks, List.mem_filter, List.mem_range]
  constructor
  · rintro ⟨hk, hnone⟩
    rw [← hsize] at hk
    rw [Array.getElem?_eq_getElem hk] at hnone ⊢
    simpa using hnone
  · intro hk
    refine ⟨?_, by simp [hk]⟩
    rw [← hsize]
    exact (Array.getElem?_eq_some_iff.mp hk).1

/-- What neutralizing does to a program whose blocks tile its code. -/
theorem retired_neutralize {instructions : List Nat} {p : BlockProgram} {s : Inference}
    (htiles : p.graph.Tiles p.code instructions) (hsize : s.frames.size = p.graph.blocks.size)
    (maxLocals : Nat) (exception : VerificationType) :
    Retired { p with handlers := liveHandlers p.graph s.frames p.handlers } s maxLocals exception
      (p.deadBlocks s.frames) (p.neutralize maxLocals exception s).1
      (p.neutralize maxLocals exception s).2 := by
  refine retired_foldl (p.deadBlocks s.frames) _ s htiles rfl
    (List.nodup_range.filter _) (fun k hk => ?_) (fun k hk => (mem_deadBlocks hsize).mp hk)
    (fun h hh => (List.mem_filter.mp hh).2)
  have hk' := (List.mem_filter.mp hk).1
  exact ⟨_, Array.getElem?_eq_getElem (List.mem_range.mp hk')⟩

end BlockProgram
end ClassAssembly
