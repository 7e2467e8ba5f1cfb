import ClassAssembly.ClassFile.Attribute
import ClassAssembly.Proofs.SoundFrames
import ClassAssembly.Proofs.StackMapReader
import Mathlib.Data.List.TakeWhile

/-! A stack map table, read back, gives the frames that were inferred. -/
namespace ClassAssembly

namespace VerificationType

/-- Puts the second slots of wide values back. -/
def widen (types : List VerificationType) : List VerificationType :=
  types.flatMap fun t => if width t = 2 then [t, .top] else [t]

lemma widen_append (xs ys : List VerificationType) : widen (xs ++ ys) = widen xs ++ widen ys := by
  simp [widen]

lemma widen_replicate_top (n : Nat) : widen (List.replicate n top) = List.replicate n top := by
  induction n with
  | zero => rfl
  | succ n ih =>
    rw [List.replicate_succ, ← List.singleton_append, widen_append, ih]
    rfl

lemma Paired.tail {t : VerificationType} {types : List VerificationType} (h : Paired (t :: types)) :
    Paired types :=
  fun i u hi hwide => h (i + 1) u hi hwide

/-- Types in pairs are found again from their narrow form. -/
theorem widen_narrowOnto : ∀ types : List VerificationType, Paired types →
    widen (Frame.narrowOnto [] types).reverse = types
  | [], _ => rfl
  | [t], h => by
    have hnarrow : width t ≠ 2 := by
      intro hwide
      cases h 0 t rfl hwide
    simp [Frame.narrowOnto, widen, hnarrow]
  | t :: next :: rest, h => by
    rw [Frame.narrowOnto]
    split
    · rename_i hwide
      have hnext : some next = some .top := h 0 t rfl hwide
      cases hnext
      rw [Frame.narrowOnto_eq_append, List.reverse_append, widen_append,
        widen_narrowOnto rest h.tail.tail]
      simp [widen, hwide]
    · rename_i hnarrow
      rw [Frame.narrowOnto_eq_append, List.reverse_append, widen_append,
        widen_narrowOnto (next :: rest) h.tail]
      simp [widen, hnarrow]

end VerificationType

open VerificationType (widen)

/-- The local variables of a frame slot by slot, with unusable ones at the end. -/
def CompactFrame.slots (size : Nat) (frame : CompactFrame) : List VerificationType :=
  widen frame.locals ++ List.replicate (size - (widen frame.locals).length) .top

/-- Nothing is lost in the form in which frames are listed. -/
theorem Frame.slots_compact {frame : Frame}
    (h : VerificationType.Paired frame.locals.toList) :
    frame.compact.slots frame.locals.size = frame.locals.toList := by
  have hend : ∀ types : List VerificationType, ∃ n, types.reverse =
      (types.dropWhile (· = .top)).reverse ++ List.replicate n .top := by
    intro types
    have htop : types.takeWhile (· = .top) =
        List.replicate (types.takeWhile (· = .top)).length .top :=
      List.eq_replicate_iff.mpr ⟨rfl, fun t ht => by simpa using List.mem_takeWhile_imp ht⟩
    refine ⟨(types.takeWhile (· = .top)).length, ?_⟩
    rw [← List.reverse_replicate, ← htop, ← List.reverse_append, List.takeWhile_append_dropWhile]
  obtain ⟨n, hn⟩ := hend (narrowOnto [] frame.locals.toList)
  have hlocals := VerificationType.widen_narrowOnto _ h
  rw [hn, VerificationType.widen_append, VerificationType.widen_replicate_top] at hlocals
  have hlength : (widen frame.compactLocals).length + n = frame.locals.size := by
    simpa [compactLocals] using congrArg List.length hlocals
  rw [CompactFrame.slots, compact, ← hlength, Nat.add_sub_cancel_left]
  exact hlocals

namespace SettledMethod

lemma entriesFrom_eq_append (previous : CompactFrame) (offset : Nat) (before : List StackMapEntry)
    (listed : List (Nat × CompactFrame)) :
    entriesFrom previous offset before listed =
      before.reverse ++ entriesFrom previous offset [] listed := by
  induction listed generalizing previous offset before with
  | nil => simp [entriesFrom]
  | cons head listed ih =>
    obtain ⟨start, frame⟩ := head
    simp only [entriesFrom]
    rw [ih, ih frame (start + 1) [_]]
    simp

lemma length_entriesFrom (previous : CompactFrame) (offset : Nat)
    (listed : List (Nat × CompactFrame)) :
    (entriesFrom previous offset [] listed).length = listed.length := by
  induction listed generalizing previous offset with
  | nil => rfl
  | cons head listed ih =>
    obtain ⟨start, frame⟩ := head
    simp only [entriesFrom]
    rw [entriesFrom_eq_append, List.length_append, ih]
    simp [Nat.add_comm]

/-- Entries for frames at ascending offsets are read back as these frames. -/
theorem readFrames_entriesFrom (listed : List (Nat × CompactFrame)) (before : Option Nat)
    {previous : CompactFrame} {offset : Nat} {parts : List Bytes}
    (hbefore : offset = (before.map (· + 1)).getD 0)
    (hordered : listed.Pairwise fun a b => a.1 < b.1)
    (hbounds : ∀ head ∈ listed, offset ≤ head.1 ∧ head.1 ≤ 65535)
    (h : (entriesFrom previous offset [] listed).mapM StackMapEntry.encode = .ok parts)
    (rest : Bytes) :
    StackMapTable.readFrames listed.length before previous.locals (parts.flatten ++ rest) =
      some (listed, rest) := by
  induction listed generalizing previous offset before parts with
  | nil =>
    cases h
    rfl
  | cons head listed ih =>
    obtain ⟨start, frame⟩ := head
    obtain ⟨hfirst, hordered⟩ := List.pairwise_cons.mp hordered
    obtain ⟨hge, hle⟩ := hbounds _ List.mem_cons_self
    have hdescribes := frame.describes_entry previous (UInt16.ofNat (start - offset))
    have hdelta : (UInt16.ofNat (start - offset)).toNat = start - offset := by
      rw [UInt16.toNat_ofNat']
      simp only at hge hle
      omega
    rw [entriesFrom, entriesFrom_eq_append, List.reverse_singleton, List.singleton_append,
      List.mapM_cons] at h
    obtain ⟨bytes, hbytes, h₁⟩ := Except.bind_eq_ok.mp h
    obtain ⟨parts', hparts, h₂⟩ := Except.bind_eq_ok.mp h₁
    cases h₂
    have hrest := ih (some start) rfl hordered (fun next hnext =>
      ⟨hfirst next hnext, (hbounds next (List.mem_cons_of_mem _ hnext)).2⟩) hparts
    have hoffset : StackMapTable.offsetAfter before (start - offset) = start := by
      subst hbefore
      cases before with
      | none => rfl
      | some previous =>
        simp only [Option.map_some, Option.getD_some] at hge
        simp only [StackMapTable.offsetAfter, Option.map_some, Option.getD_some]
        omega
    simp only [List.length_cons, StackMapTable.readFrames, List.flatten_cons, List.append_assoc,
      StackMapEntry.read_encode hdescribes.tagged hbytes, hdescribes.delta_eq, hdescribes.apply_eq,
      hdelta, hoffset, hrest, Option.bind_eq_bind, Option.bind_some, Option.pure_def]

/-- The blocks that need an entry: all, apart from the first one where nothing leads there. -/
def listed (targets : List Nat) : List (Block × Frame) → List (Block × Frame)
  | [] => []
  | (b, f) :: rest => if b.start ∈ targets then (b, f) :: rest else rest

lemma listed_sublist (targets : List Nat) (framed : List (Block × Frame)) :
    (listed targets framed).Sublist framed := by
  unfold listed
  split
  · exact .refl _
  · split
    · exact .refl _
    · exact List.sublist_cons_self _ _

/-- After the first block, each one has an entry. -/
lemma filterMap_zipIdx (framed : List (Block × Frame)) (n : Nat) :
    ((framed.map fun x => (x.1, some x.2)).zipIdx (n + 1)).filterMap (fun ((block, frame), index) =>
      if index = 0 ∧ ¬block.targeted then none
      else frame.map fun frame => (block.start, frame.compact)) =
      framed.map fun x => (x.1.start, x.2.compact) := by
  induction framed generalizing n with
  | nil => rfl
  | cons x framed ih =>
    rw [List.map_cons, List.zipIdx_cons, List.filterMap_cons, ih]
    simp

lemma mapped_eq {s : SettledMethod} {targets : List Nat} {framed : List (Block × Frame)}
    (hblocks : framed.map Prod.fst = s.graph.blocks.toList)
    (hframes : framed.map (fun x => some x.2) = s.frames.toList)
    (htargeted : ∀ b ∈ s.graph.blocks.toList, (b.targeted = true ↔ b.start ∈ targets)) :
    s.mapped = (listed targets framed).map fun x => (x.1.start, x.2.compact) := by
  rw [mapped, ← hblocks, ← hframes, List.zip_map']
  cases framed with
  | nil => rfl
  | cons x framed =>
    obtain ⟨b, f⟩ := x
    have htarget := htargeted b (hblocks ▸ List.mem_cons_self)
    rw [List.map_cons, List.zipIdx_cons, List.filterMap_cons, filterMap_zipIdx, listed]
    by_cases hb : b.start ∈ targets
    · simp [hb, htarget.mpr hb]
    · simp [hb, mt htarget.mp hb]

end SettledMethod

/-- If all are there, they are a list of their own. -/
lemma exists_map_some {α : Type} {xs : List (Option α)} (h : ∀ x ∈ xs, x.isSome) :
    ∃ ys : List α, ys.map some = xs := by
  induction xs with
  | nil => exact ⟨[], rfl⟩
  | cons x xs ih =>
    obtain ⟨y, rfl⟩ := Option.isSome_iff_exists.mp (h x List.mem_cons_self)
    obtain ⟨ys, rfl⟩ := ih fun z hz => h z (List.mem_cons_of_mem _ hz)
    exact ⟨y :: ys, rfl⟩

lemma BlockGraph.Tiles.pairwise {g : BlockGraph} {code : Array UInt8} {instructions : List Nat}
    (h : g.Tiles code instructions) : g.blocks.toList.Pairwise fun a b => a.start < b.start := by
  rw [List.pairwise_iff_getElem]
  intro i j hi hj hij
  exact h.start_lt (Array.getElem?_eq_getElem (by simpa using hi))
    (Array.getElem?_eq_getElem (by simpa using hj)) hij

namespace MethodCode

variable {o : ClassOrder} {m : MethodCode} {facts : ControlFacts} {header : MethodHeader}
  {scope : ClassScope} {pool later : ConstantPool} {settled : SettledMethod}

/-- When inference has ended, each block has a frame. -/
lemma Fixpoint.exists_framed {size : Nat} {t : Inference}
    (h : Fixpoint o settled scope size t) :
    ∃ framed : List (Block × Frame), framed.map Prod.fst = settled.graph.blocks.toList ∧
      framed.map (fun x => some x.2) = settled.frames.toList := by
  have hcount : settled.frames.size = settled.graph.blocks.size :=
    h.frames_eq ▸ h.valid.frames_size
  have hall : ∀ x ∈ settled.frames.toList, x.isSome := by
    intro x hx
    obtain ⟨k, hk⟩ := List.getElem?_of_mem hx
    rw [Array.getElem?_toList] at hk
    have hlt : k < settled.graph.blocks.size := hcount ▸ (Array.getElem?_eq_some_iff.mp hk).1
    obtain ⟨entry, hentry⟩ := h.reached k _ (Array.getElem?_eq_getElem hlt)
    rw [h.frames_eq, hk] at hentry
    cases hentry
    rfl
  obtain ⟨entries, hentries⟩ := exists_map_some hall
  have hlength : settled.graph.blocks.toList.length = entries.length := by
    rw [Array.length_toList, ← hcount, ← Array.length_toList, ← hentries, List.length_map]
  refine ⟨settled.graph.blocks.toList.zip entries, List.map_fst_zip (Nat.le_of_eq hlength), ?_⟩
  have hsnd := congrArg (List.map some) (List.map_snd_zip (Nat.le_of_eq hlength.symm))
  rwa [List.map_map, hentries] at hsnd

lemma Fixpoint.slots_compact {size : Nat} {t : Inference} (h : Fixpoint o settled scope size t)
    {entry : Frame} (hentry : some entry ∈ settled.frames.toList) :
    entry.compact.slots entry.locals.size = entry.locals.toList := by
  obtain ⟨k, hk⟩ := List.getElem?_of_mem hentry
  rw [Array.getElem?_toList, ← h.frames_eq] at hk
  refine Frame.slots_compact fun i t hi hwide => ?_
  rw [Array.getElem?_toList] at hi ⊢
  exact (h.valid.formed k entry hk).paired i t hi hwide

/-- The stack map of a method, read back from its bytes, has one frame for each block, apart from the
first one where nothing leads there. Each frame stands at the start of its block, and holds its stack
and its local variables. -/
theorem withStackMap_read {mapped : MappedCode} {bytes : Bytes} (hsize : m.code.size ≤ 65535)
    (hlocals : header.descriptor.parameterWords (!header.isStatic) ≤ m.maxLocals.toNat)
    (h : (m.withStackMap facts header scope).outcome pool = (.ok mapped, later))
    (hbytes : (AttributeBody.stackMap mapped.entries).encode = .ok bytes) :
    ∃ settled framed frames, (m.settle facts header scope).outcome pool = (.ok settled, later) ∧
      mapped = ⟨settled.method, settled.entries, settled.deadBlocks⟩ ∧
      framed.map Prod.fst = settled.graph.blocks.toList ∧
      framed.map (fun x => some x.2) = settled.frames.toList ∧
      StackMapTable.read settled.initial.compactLocals bytes = some frames ∧
      List.Forall₂ (fun (b, entry) (offset, frame) => offset = b.start ∧
          frame.stack = entry.stack.reverse ∧
          frame.slots entry.locals.size = entry.locals.toList)
        (SettledMethod.listed (facts.targets m.handlers) framed) frames := by
  obtain ⟨settled, _, hsettle, heq⟩ := Step.bind_eq_ok.mp h
  cases heq
  obtain ⟨t, hfix, rfl⟩ := settle_fixpoint (ClassOrder.merges_coarse scope) trivial
    (Nat.le_succ_of_le hsize) hlocals hsettle
  obtain ⟨_, _, hgraph, _⟩ := settle_eq_ok hsettle
  obtain ⟨_, htiles⟩ := BlockGraph.tiles_of_partition hgraph
  obtain ⟨framed, hblocks, hframes⟩ := hfix.exists_framed
  have hmapped := SettledMethod.mapped_eq hblocks hframes
    (fun b hb => BlockGraph.targeted_iff_of_partition hgraph hb)
  have hsub := SettledMethod.listed_sublist (facts.targets m.handlers) framed
  have hordered : settled.mapped.Pairwise fun a b => a.1 < b.1 := by
    rw [hmapped, List.pairwise_map]
    refine List.Pairwise.sublist hsub ?_
    have hpairwise := htiles.pairwise
    rwa [← hblocks, List.pairwise_map] at hpairwise
  have hbounds : ∀ head ∈ settled.mapped, 0 ≤ head.1 ∧ head.1 ≤ 65535 := by
    intro head hhead
    rw [hmapped] at hhead
    obtain ⟨x, hx, rfl⟩ := List.mem_map.mp hhead
    have hb : x.1 ∈ settled.graph.blocks.toList :=
      hblocks ▸ List.mem_map_of_mem (hsub.mem hx)
    obtain ⟨k, hk⟩ := List.getElem?_of_mem hb
    rw [Array.getElem?_toList] at hk
    have hstart := htiles.bounds hk
    exact ⟨Nat.zero_le _, by simp only; omega⟩
  obtain ⟨size, hcounted, h₁⟩ := Except.bind_eq_ok.mp hbytes
  obtain ⟨parts, hparts, h₂⟩ := Except.bind_eq_ok.mp h₁
  cases h₂
  refine ⟨settled, framed, settled.mapped, hsettle, rfl, hblocks, hframes, ?_, ?_⟩
  · obtain ⟨count, hvalue, hread⟩ := Bytes.readU2_count hcounted parts.flatten
    rw [SettledMethod.entries, SettledMethod.length_entriesFrom] at hvalue
    have hall := SettledMethod.readFrames_entriesFrom settled.mapped none rfl hordered hbounds
      hparts []
    rw [List.append_nil] at hall
    simp only [StackMapTable.read, hread, hvalue, Option.bind_eq_bind, Option.bind_some]
    simp only [Frame.compact] at hall
    simp only [hall, Option.bind_some, if_true]
  · rw [hmapped, List.forall₂_map_right_iff, List.forall₂_same]
    intro x hx
    have hentry : some x.2 ∈ settled.frames.toList :=
      hframes ▸ List.mem_map_of_mem (hsub.mem hx)
    exact ⟨rfl, rfl, hfix.slots_compact hentry⟩

/-- A loop in a method with a wide parameter. -/
def wideLoop : MethodCode where
  code := #[0x03, 0x3d, 0x1c, 0x99, 0x00, 0x06, 0xa7, 0xff, 0xfc, 0xb1]
  handlers := []
  maxStack := 1
  maxLocals := 3

def wideLoopFacts : ControlFacts := ⟨#[(3, 9), (6, 2)], #[6, 9]⟩

def wideHeader : MethodHeader := ⟨"run", ⟨[⟨0, .base .long⟩], none⟩, true⟩

theorem wideLoop_read :
    ∃ mapped later, (wideLoop.withStackMap wideLoopFacts wideHeader plainScope).outcome .empty =
        (.ok mapped, later) ∧
      (AttributeBody.stackMap mapped.entries).encode =
        .ok [0, 3, 252, 0, 2, 1, 3, 2] ∧
      ∃ settled framed frames,
        (wideLoop.settle wideLoopFacts wideHeader plainScope).outcome .empty = (.ok settled, later) ∧
        mapped = ⟨settled.method, settled.entries, settled.deadBlocks⟩ ∧
        framed.map Prod.fst = settled.graph.blocks.toList ∧
        framed.map (fun x => some x.2) = settled.frames.toList ∧
        StackMapTable.read settled.initial.compactLocals [0, 3, 252, 0, 2, 1, 3, 2] = some frames ∧
        List.Forall₂ (fun (b, entry) (offset, frame) => offset = b.start ∧
            frame.stack = entry.stack.reverse ∧
            frame.slots entry.locals.size = entry.locals.toList)
          (SettledMethod.listed (wideLoopFacts.targets wideLoop.handlers) framed) frames := by
  have heval : ((wideLoop.withStackMap wideLoopFacts wideHeader plainScope).outcome .empty).1.map
      (fun mapped => (AttributeBody.stackMap mapped.entries).encode) =
        .ok (.ok [0, 3, 252, 0, 2, 1, 3, 2]) := by
    decide +kernel
  obtain ⟨mapped, later, h, hbytes⟩ := Step.exists_of_map_eq_ok heval
  exact ⟨mapped, later, h, hbytes, withStackMap_read (by decide) (by decide) h hbytes⟩

end MethodCode
end ClassAssembly
