import ClassAssembly.Proofs.EntryFrame
import ClassAssembly.Proofs.Neutralize

/-! Inference runs twice: from the first block, and from the blocks that were blanked because the
first run never reached them. What the first run settled stays settled in the blanked code. -/
namespace ClassAssembly

namespace BlockGraph.Tiles

variable {o : ClassOrder} {g : BlockGraph} {code : Array UInt8} {instructions : List Nat}
  {k pc : Nat} {b : Block}

lemma reaches (h : g.Tiles code instructions) (hb : g.blocks[k]? = some b)
    (hpc : Code.Reaches code b.start pc) :
    b.start ≤ pc ∧ (pc ∈ instructions ∨ code.size ≤ pc) := by
  induction hpc with
  | here => exact ⟨Nat.le_refl _, Or.inl (h.start_mem k b hb)⟩
  | @next pc insn _ hdecode ih =>
    obtain ⟨hle, hmem | hsize⟩ := ih
    · obtain ⟨insn', hdecode', hnext, _⟩ := h.walk.next hmem
      rw [hdecode] at hdecode'
      cases hdecode'
      exact ⟨by omega, hnext⟩
    · have hlt := Code.lt_of_decode hdecode
      omega

/-- Only the last instruction of the code may end after its block. -/
lemma end_le (h : g.Tiles code instructions) (hb : g.blocks[k]? = some b)
    (hpc : Code.Reaches code b.start pc) (hlt : pc < b.stop) {insn : Instruction}
    (hdecode : Code.decode code pc = .ok insn) :
    pc + insn.length ≤ b.stop ∨ b.stop = code.size := by
  rcases h.next k b hb with ⟨b', hb', hstart⟩ | ⟨_, hstop⟩
  · left
    obtain ⟨_, hmem | hsize⟩ := h.reaches hb hpc
    · obtain ⟨insn', hdecode', _, hother⟩ := h.walk.next hmem
      rw [hdecode] at hdecode'
      cases hdecode'
      have hend := hother b'.start (h.start_mem _ b' hb')
      omega
    · have hlt' := Code.lt_of_decode hdecode
      omega
  · exact Or.inr hstop

lemma wired (h : g.Tiles code instructions) {p : BlockProgram} (hgraph : p.graph = g)
    (hmerges : o.Merges p.scope) (hsize : p.code.size = code.size) (hle : code.size ≤ 65536) :
    p.Wired o where
  merges := hmerges
  size_le := hsize ▸ hle
  next k b hb hlt := by
    rw [hgraph] at hb ⊢
    rcases h.next k b hb with hnext | ⟨_, hstop⟩
    · exact hnext
    · omega

end BlockGraph.Tiles

namespace Inference

variable {o : ClassOrder} {p : BlockProgram} {size : Nat} {Made : Inference → UInt16 → Prop}
  {s t : Inference} {instructions : List Nat}

/-- The three bytes at this offset belong to a block that was reached. -/
def LiveSite (p : BlockProgram) (s : Inference) (site : UInt16) : Prop :=
  ∃ (k : Nat) (b : Block) (f : Frame), p.graph.blocks[k]? = some b ∧
    s.frames[k]? = some (some f) ∧ b.start ≤ site.toNat ∧ (site.toNat + 3 ≤ b.stop ∨ b.stop = p.code.size)

lemma madeBy_liveSite (htiles : p.graph.Tiles p.code instructions) (hsize : p.code.size ≤ 65536) :
    p.MadeBy o (LiveSite p) where
  mono s t site hwidens := by
    rintro ⟨k, b, f, hb, hf, hsite⟩
    obtain ⟨g, hg, _⟩ := hwidens.wider k f hf
    exact ⟨k, b, g, hb, hg, hsite⟩
  new s k b f pc insn traits hb hf hpc hlt hdecode htraits hnew := by
    have hpc' := Code.lt_of_decode hdecode
    have hsite : (UInt16.ofNat pc).toNat = pc := by
      rw [UInt16.toNat_ofNat']
      omega
    obtain ⟨traits', htraits', hlength, _⟩ := Code.decode_shape hdecode
    rw [htraits] at htraits'
    cases htraits'
    have hthree := hlength (Opcode.form_of_new htraits hnew)
    have hend := htiles.end_le hb hpc hlt hdecode
    rw [hthree] at hend
    exact ⟨k, b, f, hb, hf, by rw [hsite]; exact (htiles.reaches hb hpc).1, by rwa [hsite]⟩

/-- The first run, from a method where nothing was reached. -/
theorem run_spec (hw : p.Wired o) (hmade : p.MadeBy o Made) {initial : Frame} {pool : ConstantPool}
    (hpool : o.Named pool) (hinitial : ∀ Made, initial.Formed size Made)
    (h : (run p initial).outcome (unreached p.graph.blocks.size pool) = (.ok (), t)) :
    t.Valid o p size Made ∧ Settled o p t ∧ t.worklist.toList = [] ∧ t.Accepts o 0 initial := by
  have hnone : ∀ (k : Nat) (f : Frame),
      (unreached p.graph.blocks.size pool).frames[k]? ≠ some (some f) := by
    intro k f hf
    have hmem := Array.mem_of_getElem? hf
    simp [unreached] at hmem
  obtain ⟨_, s, hmerge, hsettle⟩ := Step.bind_eq_ok.mp h
  have hvalid : Valid o p size Made (unreached p.graph.blocks.size pool) :=
    ⟨by simp [unreached], hpool, fun k f hf => absurd hf (hnone k f)⟩
  obtain ⟨hgrows, hs, haccepts⟩ := mergeEntry_spec hw hmade hvalid (hinitial _) hmerge
  have hsettled : Settled o p s :=
    fun k b f _ hf hk => absurd (hgrows.still k f hf hk) (hnone k f)
  obtain ⟨hwidens, ht, hsettled', hempty⟩ := settle_spec hw hmade _ hs hsettled hsettle
  exact ⟨ht, hsettled', hempty, hwidens.accepts haccepts⟩

end Inference

namespace BlockProgram

variable {o : ClassOrder} {p p' : BlockProgram} {size : Nat} {s s' : Inference}
  {instructions : List Nat} {exception : VerificationType}

lemma formed_empty (size : Nat) (Made : UInt16 → Prop) : (Frame.empty size).Formed size Made where
  size_eq := by simp [Frame.empty]
  paired i t hi hwide := by
    have hmem := Array.mem_of_getElem? hi
    rw [Frame.empty, Array.mem_replicate] at hmem
    rw [hmem.2] at hwide
    cases hwide
  made_local site hsite := by simp [Frame.empty] at hsite
  made_stack site hsite := by cases hsite

lemma exists_of_handlerFrame? {graph : BlockGraph} {frames : Array (Option Frame)}
    {h : ExceptionHandler} {f : Frame} (hf : handlerFrame? graph frames h = some f) :
    ∃ (k : Nat) (b : Block), graph.blocks[k]? = some b ∧ b.start = h.handler.toNat ∧
      frames[k]? = some (some f) := by
  unfold handlerFrame? at hf
  obtain ⟨k, hk, hf⟩ := Option.bind_eq_some_iff.mp (Option.join_eq_some_iff.mp hf)
  obtain ⟨b, hb, hstart⟩ := Search.exists_of_find?_eq_some hk
  exact ⟨k, b, hb, hstart, hf⟩

/-- The local variables of a blanked block are those of an entry frame, or unusable. -/
lemma borrowedLocals_eq (graph : BlockGraph) (handlers : List ExceptionHandler)
    (frames : Array (Option Frame)) (size start : Nat) :
    borrowedLocals graph handlers frames size start = (Frame.empty size).locals ∨
      ∃ (k : Nat) (f : Frame), frames[k]? = some (some f) ∧
        borrowedLocals graph handlers frames size start = f.locals := by
  unfold borrowedLocals
  cases hfind : handlers.findSome? fun h =>
      if h.covers start then handlerFrame? graph frames h else none with
  | none => exact .inl rfl
  | some f =>
    obtain ⟨h, _, hf⟩ := List.exists_of_findSome?_eq_some hfind
    split at hf
    · obtain ⟨k, _, _, _, hk⟩ := exists_of_handlerFrame? hf
      exact .inr ⟨k, f, hk, rfl⟩
    · cases hf

/-- The frame of a blanked block is in proper form, whether it was borrowed or is empty. -/
lemma formed_borrowedFrame {frames : Array (Option Frame)} {Made : UInt16 → Prop} (b : Block)
    (hframes : ∀ (k : Nat) (f : Frame), frames[k]? = some (some f) → f.Formed size Made)
    (hexception : exception.Allowed Made) :
    (p.borrowedFrame frames size exception b).Formed size Made := by
  have hstack : ∀ t ∈ [exception], t.Allowed Made := by simpa using hexception
  unfold borrowedFrame
  rcases borrowedLocals_eq p.graph p.handlers frames size b.start with hlocals | ⟨k, f, hf, hlocals⟩
  · rw [hlocals]
    exact (formed_empty size Made).with_stack hstack
  · rw [hlocals]
    exact (hframes k f hf).with_stack hstack

/-- The bytes of a block that was reached are kept. -/
lemma Retired.live_bytes {maxLocals : Nat} {handlers : List ExceptionHandler}
    (htiles : p.graph.Tiles p.code instructions) (hframes : s.frames.size = p.graph.blocks.size)
    (h : Retired { p with handlers } s maxLocals exception (p.deadBlocks s.frames) p' s')
    {k : Nat} {b : Block} {f : Frame} (hb : p.graph.blocks[k]? = some b)
    (hf : s.frames[k]? = some (some f)) {i : Nat} (hstart : b.start ≤ i)
    (hi : i < b.stop ∨ p.code.size ≤ i) : p'.code[i]? = p.code[i]? := by
  rcases hi with hlt | hge
  · refine h.bytes i fun j hj b' hb' hin => ?_
    obtain rfl := htiles.unique hb hb' ⟨hstart, hlt⟩ hin
    rw [(mem_deadBlocks hframes).mp hj] at hf
    cases hf
  · rw [Array.getElem?_eq_none (h.size.symm ▸ hge), Array.getElem?_eq_none hge]

/-- The state in which inference goes on after blanking. -/
theorem Retired.resumes {handlers : List ExceptionHandler} (hhandlers : ∀ h ∈ handlers, h ∈ p.handlers)
    (hmerges : o.Merges p.scope) (hsize : p.code.size ≤ 65536)
    (htiles : p.graph.Tiles p.code instructions) (hs : s.Valid o p size (Inference.LiveSite p))
    (hsettled : Inference.Settled o p s) (hempty : s.worklist.toList = [])
    (hexception : ∀ Made, exception.Allowed Made)
    (h : Retired { p with handlers } s size exception (p.deadBlocks s.frames) p' s') :
    p'.Wired o ∧ Inference.Widens o s s' ∧ s'.Valid o p' size (fun _ _ => True) ∧
      Inference.Settled o p' s' := by
  have hkept : ∀ (k : Nat) (f : Frame), s.frames[k]? = some (some f) →
      s'.frames[k]? = some (some f) := by
    intro k f hf
    refine (h.kept k fun hk => ?_).trans hf
    rw [(mem_deadBlocks hs.frames_size).mp hk] at hf
    cases hf
  have hpool : s.pool.Extends s'.pool := h.pool ▸ .refl _
  have hwidens : Inference.Widens o s s' :=
    ⟨hpool, fun k f hf => ⟨f, hkept k f hf, .refl f⟩⟩
  have hgraph : p'.graph = p.graph := h.graph
  refine ⟨htiles.wired hgraph (h.scope ▸ hmerges) h.size hsize, hwidens, ⟨?_, ?_, ?_⟩, ?_⟩
  · rw [h.frames_size, hs.frames_size, hgraph]
  · rw [h.pool]
    exact hs.named
  · intro k f hf
    by_cases hk : k ∈ p.deadBlocks s.frames
    · have hlt := List.mem_range.mp (List.mem_filter.mp hk).1
      rw [h.retired k _ hk (Array.getElem?_eq_getElem hlt)] at hf
      cases hf
      exact formed_borrowedFrame _ (fun j g hg => (hs.formed j g hg).mono fun _ _ => trivial)
        (hexception _)
    · rw [h.kept k hk] at hf
      exact (hs.formed k f hf).mono fun _ _ => trivial
  · intro k b f hb hf hk
    rw [h.worklist, hempty, List.nil_append] at hk
    rw [h.kept k hk] at hf
    rw [hgraph] at hb
    -- The bytes of the block and of all sites that its frames speak about are kept.
    refine (hsettled k b f hb hf (by simp [hempty])).transfer (Code.Reaches p.code b.start) hgraph
      h.scope (fun h' hh' => hhandlers h' (by rwa [h.handlers] at hh')) h.size hpool
      (fun j g hg => hwidens.accepts hg) ?_ ?_ .here (hs.formed k f hf)
    · rintro site ⟨j, b', f', hb', hf', hstart, hstop⟩ i hi
      refine h.live_bytes htiles hs.frames_size hb' hf' (by omega) ?_
      omega
    · intro q insn hq hlt hdecode
      have hend := htiles.end_le hb hq hlt hdecode
      have hstart := (htiles.reaches hb hq).1
      refine ⟨fun i hqi hi => h.live_bytes htiles hs.frames_size hb hf (by omega) (by omega),
        hq.next hdecode, fun traits htraits hnew => ?_⟩
      exact (Inference.madeBy_liveSite (o := o) htiles hsize).new s k b f q insn traits hb hf hq hlt
        hdecode htraits hnew

/-- Neutralizing a program whose first run has ended. Where the constant for the exception is new,
that unsettles nothing. -/
theorem neutralize_spec {middle : ConstantPool} (hmerges : o.Merges p.scope)
    (hsize : p.code.size ≤ 65536) (htiles : p.graph.Tiles p.code instructions)
    (hs : s.Valid o p size (Inference.LiveSite p)) (hsettled : Inference.Settled o p s)
    (hempty : s.worklist.toList = [])
    (hexception : (VerificationType.ofClass .throwable).outcome s.pool = (.ok exception, middle))
    (h : p.neutralize size exception { s with pool := middle } = (p', s')) :
    Retired { p with handlers := liveHandlers p.graph s.frames p.handlers }
        { s with pool := middle } size exception (p.deadBlocks s.frames) p' s' ∧
      p'.Wired o ∧ Inference.Widens o s s' ∧ s'.Valid o p' size (fun _ _ => True) ∧
      Inference.Settled o p' s' := by
  obtain ⟨hext, hnamed⟩ := (VerificationType.repeatable_ofClass .throwable).grows hexception
  have hgrows : Inference.Grows o s { s with pool := middle } := .of_pool hext
  have hs₁ := hs.of_pool (Inference.madeBy_liveSite htiles hsize) hext (o.named_mono hnamed hs.named)
  have hsettled₁ : Inference.Settled o p { s with pool := middle } :=
    fun k b f hb hf hk => (hsettled k b f hb hf hk).mono hext
      (fun _ _ => hgrows.accepts) (hs.formed k f hf)
  have hretired := retired_neutralize htiles hs₁.frames_size size exception
  rw [h] at hretired
  obtain ⟨hw, hwidens, hs', hsettled'⟩ := hretired.resumes (fun h hh => (List.mem_filter.mp hh).1)
    hmerges hsize htiles hs₁ hsettled₁ hempty
    (fun Made => Machine.Site.allowed_ofClass hexception)
  exact ⟨hretired, hw, hgrows.toWidens.trans hwidens, hs', hsettled'⟩

end BlockProgram
end ClassAssembly
