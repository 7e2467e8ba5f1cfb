import ClassAssembly.Proofs.SingleEntry
import ClassAssembly.Proofs.SoundAccount

/-! Where objects are made. The instruction that made an object which waits for its constructor stands
in a block that was reached, so it is still there after the other blocks have been blanked. -/
namespace ClassAssembly

namespace Opcode

lemma traits_new : new.traits = .ok ⟨"NEW", .constant, some 1, .normal, .new⟩ := by
  decide +kernel

lemma eq_new {op : Opcode} {traits : OpcodeTraits} (h : op.traits = .ok traits)
    (heffect : traits.effect = .new) : op = .new := by
  have hall : ∀ i < OpcodeTraits.table.size, ∀ traits ∈ OpcodeTraits.table[i]?.join,
      traits.effect = .new → i = new.byte.toNat := by
    decide +kernel
  unfold Opcode.traits at h
  split at h
  · rename_i hrow
    cases h
    have hlt := (Array.getElem?_eq_some_iff.mp (Option.join_eq_some_iff.mp hrow)).1
    have hbyte := hall op.byte.toNat hlt traits hrow heffect
    obtain ⟨byte⟩ := op
    exact congrArg Opcode.mk (UInt8.toNat_inj.mp hbyte)
  · cases h

end Opcode

namespace Code

open ClassAssembly.Except (bind_eq_ok)

variable {code : Array UInt8} {pool later : ConstantPool} {site : UInt16}

/-- An instruction `new` starts at the offset, and its operand is a class that has a name. -/
structure MakesAt (code : Array UInt8) (pool : ConstantPool) (site : UInt16) : Prop where
  reached : Reaches code 0 site.toNat
  made : ∃ insn name, decode code site.toNat = .ok insn ∧ insn.opcode = .new ∧
    pool.className? (UInt16.ofInt insn.first) = some name

lemma MakesAt.mono (h : MakesAt code pool site) (hext : pool.Extends later) :
    MakesAt code later site := by
  obtain ⟨insn, name, hdecode, hop, hname⟩ := h.made
  exact ⟨h.reached, insn, name, hdecode, hop, hext.className? hname⟩

/-- The operand of `new` is in the two bytes after it. -/
lemma MakesAt.operand (h : MakesAt code pool site) {high low : UInt8}
    (hnew : code[site.toNat]? = some Opcode.new.byte) (hhigh : code[site.toNat + 1]? = some high)
    (hlow : code[site.toNat + 2]? = some low) :
    ∃ name, pool.className? (UInt16.ofNat (high.toNat * 256 + low.toNat)) = some name := by
  obtain ⟨insn, name, hdecode, _, hname⟩ := h.made
  rw [decode_of_byte hnew Opcode.traits_new] at hdecode
  obtain ⟨first, hfirst, heq⟩ := bind_eq_ok.mp hdecode
  cases heq
  have hread : readUnsigned code 2 (site.toNat + 1) =
      .ok ((high.toNat * 256 + low.toNat : Nat) : Int) := by
    simp [readUnsigned, readBigEndian, readByte_of_getElem? hhigh, readByte_of_getElem? hlow, bind,
      Except.bind, pure, Except.pure]
  rw [hread] at hfirst
  cases hfirst
  refine ⟨name, ?_⟩
  have hhigh := high.toNat_lt
  have hlow := low.toNat_lt
  have hmod : (((high.toNat * 256 + low.toNat : Nat) : Int) % 2 ^ 16).toNat =
      high.toNat * 256 + low.toNat := by omega
  rwa [UInt16.ofInt, hmod] at hname

/-- From each start of an instruction one comes to all later ones. -/
lemma Walk.reaches {pc q r : Nat} {starts : List Nat} (h : Walk code pc starts) (hq : q ∈ starts)
    (hr : r ∈ starts) (hle : q ≤ r) : Reaches code q r := by
  have hhead : ∀ (pc : Nat) (starts : List Nat), Walk code pc starts → Reaches code q pc →
      ∀ r ∈ starts, Reaches code q r := by
    intro pc starts hwalk
    induction hwalk with
    | stop => simp
    | step _ hdecode _ ih =>
      intro hpc
      exact List.forall_mem_cons.mpr ⟨hpc, ih (hpc.next hdecode)⟩
  induction h with
  | stop => cases hq
  | @step pc insn rest hlt hdecode hrest ih =>
    rcases List.mem_cons.mp hq with rfl | hq
    · exact hhead q _ (.step hlt hdecode hrest) .here r hr
    · have hbound := (hrest.bounds q hq).1
      have hpos := insn.length_pos
      rcases List.mem_cons.mp hr with rfl | hr
      · omega
      · exact ih hq hr

end Code

namespace BlockProgram

variable {dead : Nat → Prop} {p p' : BlockProgram} {instructions : List Nat} {k q : Nat} {b : Block}
  {pool : ConstantPool} {site : UInt16}

namespace Blanked

/-- A block that was not blanked is passed through as before. -/
lemma reaches_live (h : Blanked dead p p') (htiles : p.graph.Tiles p.code instructions)
    (hb : p.graph.blocks[k]? = some b) (hlive : ¬dead k) (hstart : Code.Reaches p'.code 0 b.start)
    (hq : Code.Reaches p.code b.start q) (hle : q ≤ b.stop) : Code.Reaches p'.code 0 q := by
  induction hq with
  | here => exact hstart
  | @next pc insn hpc hdecode ih =>
    have hpos := insn.length_pos
    obtain ⟨hlo, hmem | hsize⟩ := htiles.reaches hb hpc
    · have hsame := h.sameBytes htiles hb hlive hmem hlo (by omega) hdecode
      exact (ih (by omega)).next (Code.decode_congr hdecode hsame)
    · have hlt := Code.lt_of_decode hdecode
      omega

/-- A blanked block is passed through byte by byte. -/
lemma reaches_dead (h : Blanked dead p p') (hb : p.graph.blocks[k]? = some b) (hdead : dead k)
    (hstart : Code.Reaches p'.code 0 b.start) (n : Nat) (hle : b.start + n ≤ b.stop) :
    Code.Reaches p'.code 0 (b.start + n) := by
  induction n with
  | zero => exact hstart
  | succ n ih =>
    have hbyte := h.blanked k b (b.start + n) hdead hb ⟨by omega, by omega⟩
    have hreached := ih (by omega)
    split at hbyte
    · exact hreached.next (Code.decode_plain hbyte Opcode.traits_athrow rfl)
    · exact hreached.next (Code.decode_plain hbyte Opcode.traits_nop rfl)

/-- After blanking, instructions start where blocks do, as before. -/
theorem reaches_start (h : Blanked dead p p') (htiles : p.graph.Tiles p.code instructions)
    (hb : p.graph.blocks[k]? = some b) : Code.Reaches p'.code 0 b.start := by
  induction k generalizing b with
  | zero =>
    have hbounds := htiles.bounds hb
    obtain ⟨b', hb', hzero⟩ := htiles.first (by omega)
    rw [hb] at hb'
    cases hb'
    rw [hzero]
    exact .here
  | succ k ih =>
    have hk : k < p.graph.blocks.size := by
      have := (Array.getElem?_eq_some_iff.mp hb).1
      omega
    have hprev : p.graph.blocks[k]? = some p.graph.blocks[k] := Array.getElem?_eq_getElem hk
    have hbounds := htiles.bounds hprev
    rcases htiles.next k _ hprev with ⟨b', hb', hstop⟩ | ⟨hnone, _⟩
    · rw [hb] at hb'
      cases hb'
      by_cases hdead : dead k
      · have hreached := h.reaches_dead hprev hdead (ih hprev)
          (p.graph.blocks[k].stop - p.graph.blocks[k].start) (by omega)
        rwa [Nat.add_sub_cancel' (by omega), ← hstop] at hreached
      · refine h.reaches_live htiles hprev hdead (ih hprev) ?_ (by omega)
        exact htiles.walk.reaches (htiles.start_mem k _ hprev) (htiles.start_mem _ b hb) (by omega)
    · rw [hb] at hnone
      cases hnone

/-- Objects made in a block that was not blanked are made there still. -/
theorem makesAt (h : Blanked dead p p') (htiles : p.graph.Tiles p.code instructions)
    (hb : p.graph.blocks[k]? = some b) (hlive : ¬dead k) (hlo : b.start ≤ site.toNat)
    (hhi : site.toNat < b.stop) (hmakes : Code.MakesAt p.code pool site) :
    Code.MakesAt p'.code pool site := by
  obtain ⟨insn, name, hdecode, hop, hname⟩ := hmakes.made
  have hlt := Code.lt_of_decode hdecode
  obtain ⟨first, hfirst, hzero⟩ := htiles.first (by omega)
  have hreached : Code.Reaches p.code first.start site.toNat := hzero ▸ hmakes.reached
  have hmem := (htiles.reaches hfirst hreached).2.resolve_right (by omega)
  refine ⟨?_, insn, name, ?_, hop, hname⟩
  · exact h.reaches_live htiles hb hlive (h.reaches_start htiles hb)
      (htiles.walk.reaches (htiles.start_mem k b hb) hmem hlo) (by omega)
  · exact Code.decode_congr hdecode (h.sameBytes htiles hb hlive hmem hlo hhi hdecode)

end Blanked

/-- An object is made at the site, before and after some blocks were blanked, in a block that was
reached and is none of them. -/
structure MadeIn (p p' : BlockProgram) (dead : Nat → Prop) (s : Inference) (pool : ConstantPool)
    (site : UInt16) : Prop where
  before : Code.MakesAt p.code pool site
  after : Code.MakesAt p'.code pool site
  live : ∃ (k : Nat) (b : Block) (f : Frame), p.graph.blocks[k]? = some b ∧
    s.frames[k]? = some (some f) ∧ ¬dead k ∧ b.start ≤ site.toNat ∧ site.toNat < b.stop

lemma MadeIn.reaching {s t : Inference} (h : MadeIn p p' dead s pool site) (hst : s.Reaching t) :
    MadeIn p p' dead t pool site := by
  obtain ⟨k, b, f, hb, hf, hrest⟩ := h.live
  obtain ⟨f', hf'⟩ := hst k f hf
  exact ⟨h.before, h.after, k, b, f', hb, hf', hrest⟩

/-- In code that two bytes can address, the site of a `new` is its offset. -/
lemma makesAt_of_decode {pc : Nat} {insn : Instruction} {name : ClassName}
    (htiles : p.graph.Tiles p.code instructions) (hsize : p.code.size ≤ 65536)
    (hmem : pc ∈ instructions) (hdecode : Code.decode p.code pc = .ok insn)
    (hop : insn.opcode = .new) (hname : pool.className? (UInt16.ofInt insn.first) = some name) :
    (UInt16.ofNat pc).toNat = pc ∧ Code.MakesAt p.code pool (UInt16.ofNat pc) := by
  have hlt := Code.lt_of_decode hdecode
  have hsite : (UInt16.ofNat pc).toNat = pc := by
    rw [UInt16.toNat_ofNat']
    omega
  obtain ⟨first, hfirst, hzero⟩ := htiles.first (by omega)
  have hreached := htiles.walk.reaches (htiles.start_mem 0 first hfirst) hmem (by omega)
  refine ⟨hsite, ?_, insn, name, ?_, hop, hname⟩
  · rwa [hsite, ← hzero]
  · rwa [hsite]

/-- Whatever is made while the blanked program is executed is made in a block that was not blanked:
the others hold no `new`. -/
theorem Blanked.makes (h : Blanked dead p p') (htiles : p.graph.Tiles p.code instructions)
    (hsize : p.code.size ≤ 65536) :
    p'.Makes (p.Passes dead instructions) (MadeIn p p' dead) where
  enter k b hb := by
    rw [h.graph] at hb
    exact passes_start htiles hb
  next k b pc insn hb hpass hpc hdecode := by
    rw [h.graph] at hb
    by_cases hdead : dead k
    · exact (h.dead_instruction hpass hb hpc hdead hdecode).2
    · exact (h.live htiles hpass hb hpc hdead hdecode).2.2.2
  reaching s t pool site hst hmade := hmade.reaching hst
  reads s pc := {
    lasting := fun pool later site hext hmade =>
      ⟨hmade.before.mono hext, hmade.after.mono hext, hmade.live⟩
    operand := fun pool made high low hmade => hmade.after.operand }
  new s k b f pc insn traits pool name hb hf hpass hpc hdecode htraits hnew hname := by
    rw [h.graph] at hb
    by_cases hdead : dead k
    · rcases (h.dead_instruction hpass hb hpc hdead hdecode).1 with ⟨rfl, _⟩ | rfl
      · rw [Opcode.traits_nop] at htraits
        cases htraits
        cases hnew
      · rw [Opcode.traits_athrow] at htraits
        cases htraits
        cases hnew
    · obtain ⟨hmem, hdecode', _, _⟩ := h.live htiles hpass hb hpc hdead hdecode
      obtain ⟨b', hb', hlo, _⟩ := hpass
      rw [hb] at hb'
      cases hb'
      obtain ⟨hsite, hbefore⟩ :=
        makesAt_of_decode htiles hsize hmem hdecode' (Opcode.eq_new htraits hnew) hname
      have hlo' : b.start ≤ (UInt16.ofNat pc).toNat := by rwa [hsite]
      have hhi' : (UInt16.ofNat pc).toNat < b.stop := by rwa [hsite]
      exact ⟨hbefore, h.makesAt htiles hb hdead hlo' hhi' hbefore, k, b, f, hb, hf, hdead, hlo', hhi'⟩

/-- The frame of a blanked block takes its types from an entry frame, and an exception. -/
lemma sound_borrowedFrame {size : Nat} {Made : ConstantPool → UInt16 → Prop}
    {frames : Array (Option Frame)} {exception : VerificationType} (b : Block)
    (hframes : ∀ (k : Nat) (f : Frame), frames[k]? = some (some f) → Machine.Sound size Made ⟨f, pool⟩)
    (hexception : exception.Backed Made pool) :
    Machine.Sound size Made ⟨p.borrowedFrame frames size exception b, pool⟩ := by
  refine ⟨formed_borrowedFrame b (fun k f hf => (hframes k f hf).formed) fun _ _ => trivial, ?_⟩
  intro t ht
  rcases Frame.mem_slots.mp ht with ht | ht
  · simp only [borrowedFrame] at ht
    rcases borrowedLocals_eq p.graph p.handlers frames size b.start with hempty | ⟨k, f, hf, hlocals⟩
    · rw [hempty] at ht
      simp only [Frame.empty, Array.toList_replicate, List.mem_replicate] at ht
      rw [ht.2]
      trivial
    · rw [hlocals] at ht
      exact (hframes k f hf).types t (Frame.mem_slots.mpr (.inl ht))
  · obtain rfl := List.mem_singleton.mp ht
    exact hexception

/-- Blanking the blocks that were not reached leaves all frames sound that have occurred, and gives
the blanked blocks sound ones. -/
theorem sound_neutralize {t : Account} {size : Nat} {exception : VerificationType} {s' : Inference}
    (htiles : p.graph.Tiles p.code instructions)
    (ht : t.Sound p size (MadeIn p p fun _ => False))
    (hframes : t.inference.frames.size = p.graph.blocks.size)
    (hexception : ∀ Made, exception.Backed Made t.inference.pool)
    (h : p.neutralize size exception t.inference = (p', s')) (codes : List (Array UInt8)) :
    Blanked (· ∈ p.deadBlocks t.inference.frames) p p' ∧
      Account.Sound p' size (MadeIn p p' (· ∈ p.deadBlocks t.inference.frames))
        ⟨s', s'.entryFrames ++ t.seen, codes⟩ := by
  have hretired := retired_neutralize htiles hframes size exception
  rw [h] at hretired
  have hblanked := hretired.toBlanked fun h hh => (List.mem_filter.mp hh).1
  have hkept : ∀ (k : Nat) (f : Frame), t.inference.frames[k]? = some (some f) →
      k ∉ p.deadBlocks t.inference.frames := by
    intro k f hf hk
    rw [(mem_deadBlocks hframes).mp hk] at hf
    cases hf
  have hreaching : t.inference.Reaching s' := by
    intro k f hf
    exact ⟨f, (hretired.kept k (hkept k f hf)).trans hf⟩
  -- What was made so far was made in blocks that were reached, and those are not blanked.
  have hmade : ∀ pool site, MadeIn p p (fun _ => False) t.inference pool site →
      MadeIn p p' (· ∈ p.deadBlocks t.inference.frames) s' pool site := by
    intro pool site hmade
    obtain ⟨k, b, f, hb, hf, _, hlo, hhi⟩ := hmade.live
    have hlive := hkept k f hf
    refine MadeIn.reaching ⟨hmade.before, ?_, k, b, f, hb, hf, hlive, hlo, hhi⟩ hreaching
    exact hblanked.makesAt htiles hb hlive hlo hhi hmade.before
  have hsound : s'.Sound size (MadeIn p p' (· ∈ p.deadBlocks t.inference.frames)) := by
    refine ⟨hretired.pool ▸ ht.inference.named, ?_⟩
    intro k f hf
    rw [hretired.pool]
    by_cases hk : k ∈ p.deadBlocks t.inference.frames
    · have hlt := List.mem_range.mp (List.mem_filter.mp hk).1
      rw [hretired.retired k _ hk (Array.getElem?_eq_getElem hlt)] at hf
      cases hf
      refine sound_borrowedFrame _ (fun j g hg => ?_) (hexception _)
      exact (ht.inference.entries j g hg).mono (.refl _) (hmade _)
    · rw [hretired.kept k hk] at hf
      exact (ht.inference.entries k f hf).mono (.refl _) (hmade _)
  refine ⟨hblanked, .of_entries hsound (fun m hm => ?_) (fun h hh c hc => ?_) codes⟩
  · exact (ht.noted m hm).mono (.refl _) (hmade _)
  · have hpool : s'.pool = t.inference.pool := hretired.pool
    rw [hpool]
    exact ht.caught h (hblanked.handlers h hh) c hc

end BlockProgram
end ClassAssembly
