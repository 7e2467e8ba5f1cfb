import ClassAssembly.Proofs.BlockRule
import ClassAssembly.Proofs.MergeOrder
import ClassAssembly.Proofs.SoundFrames
import Mathlib.Algebra.Order.BigOperators.Group.Finset

/-! Inference ends. Each change of an entry frame moves a type up an order of finite height, which
new constants only make lower, and the stack of a block that is reached is bounded by the code that
was executed before. So the number of rounds is bounded in advance, whatever loops the code has. -/
namespace ClassAssembly

namespace ClassOrder

variable {o : ClassOrder} {pool later : ConstantPool} {i j : PoolIndex}

/-- Two class constants that cover each other are one. -/
def Antisymm (o : ClassOrder) : Prop :=
  ∀ {pool : ConstantPool} {i j : PoolIndex}, o.Covers pool i j → o.Covers pool j i → i = j

open Classical in
/-- The indices of classes that lie strictly below a class. -/
noncomputable def below (o : ClassOrder) (pool : ConstantPool) (i : PoolIndex) : Finset Nat :=
  (Finset.range 65536).filter fun k => o.Covers pool i (.ofNat k) ∧ i ≠ .ofNat k

lemma card_below_le (o : ClassOrder) (pool : ConstantPool) (i : PoolIndex) :
    (o.below pool i).card ≤ 65536 := by
  classical
  exact (Finset.card_filter_le _ _).trans (Finset.card_range 65536).le

lemma below_subset_of_extends (hpool : pool.Extends later) (i : PoolIndex) :
    o.below pool i ⊆ o.below later i := by
  classical
  exact Finset.monotone_filter_right _ fun k _ ⟨hcovers, hne⟩ => ⟨o.mono hpool hcovers, hne⟩

/-- What lies below a class lies below each class above it, and so does the class itself. -/
lemma card_below_lt (ho : o.Antisymm) (hcovers : o.Covers pool i j) (hne : i ≠ j) :
    (o.below pool j).card < (o.below pool i).card := by
  classical
  have hj : UInt16.ofNat j.toNat = j := UInt16.ofNat_toNat
  refine Finset.card_lt_card ⟨fun k hk => ?_, fun hsub => ?_⟩
  · simp only [below, Finset.mem_filter] at hk ⊢
    obtain ⟨hrange, hjk, _⟩ := hk
    refine ⟨hrange, o.trans hcovers hjk, ?_⟩
    rintro rfl
    exact hne (ho hcovers hjk)
  · have hmem : j.toNat ∈ o.below pool i := by
      simp only [below, Finset.mem_filter, Finset.mem_range, hj]
      exact ⟨j.toNat_lt, hcovers, hne⟩
    have hself := hsub hmem
    simp only [below, Finset.mem_filter, hj] at hself
    exact hself.2.2 rfl

end ClassOrder

namespace VerificationType

variable {o : ClassOrder} {pool later : ConstantPool} {a b : VerificationType}

/-- How often a type may still change, at most. -/
noncomputable def height (o : ClassOrder) (pool : ConstantPool) : VerificationType → Nat
  | .top => 0
  | .null => 65538
  | .object i => 65537 - (o.below pool i).card
  | _ => 1

lemma height_le (o : ClassOrder) (pool : ConstantPool) (t : VerificationType) :
    t.height o pool ≤ 65538 := by
  cases t <;> simp only [height] <;> omega

lemma height_of_extends (hpool : pool.Extends later) (t : VerificationType) :
    t.height o later ≤ t.height o pool := by
  cases t with
  | object i =>
    have hcard := Finset.card_le_card (o.below_subset_of_extends hpool i)
    simp only [height]
    omega
  | _ => exact Nat.le_refl _

/-- A type that changes to one that covers it becomes lower. -/
lemma height_lt (ho : o.Antisymm) (h : Covers o pool a b) (hne : a ≠ b) :
    a.height o pool < b.height o pool := by
  cases h with
  | refl => exact absurd rfl hne
  | top =>
    cases b with
    | top => exact absurd rfl hne
    | object i =>
      have hcard := o.card_below_le pool i
      simp only [height]
      omega
    | _ => simp [height]
  | null i =>
    simp only [height]
    omega
  | @classes i j hij =>
    have hlt := ClassOrder.card_below_lt ho hij fun heq => hne (congrArg object heq)
    have hcard := o.card_below_le pool i
    simp only [height]
    omega

end VerificationType

namespace Frame

variable {o : ClassOrder} {pool later : ConstantPool} {f g : Frame}

/-- How often the types of a frame may still change, at most. -/
noncomputable def height (o : ClassOrder) (pool : ConstantPool) (f : Frame) : Nat :=
  (f.slots.map (VerificationType.height o pool)).sum

lemma height_of_extends (hpool : pool.Extends later) (f : Frame) :
    f.height o later ≤ f.height o pool :=
  List.sum_le_sum fun t _ => VerificationType.height_of_extends hpool t

lemma length_stack_le_depth (f : Frame) : f.stack.length ≤ f.depth := by
  rw [depth_eq]
  induction f.stack with
  | nil => exact Nat.le_refl _
  | cons t rest ih =>
    have hwidth := width_eq t
    simp only [List.length_cons, List.map_cons, List.sum_cons]
    omega

lemma height_le (o : ClassOrder) (pool : ConstantPool) (f : Frame) :
    f.height o pool ≤ (f.locals.size + f.depth) * 65538 := by
  have hslots : f.height o pool ≤ f.slots.length * 65538 := by
    have hsum := List.sum_le_card_nsmul (f.slots.map (VerificationType.height o pool)) 65538 (by
      simpa using fun t _ => VerificationType.height_le o pool t)
    simpa [height] using hsum
  have hlength := f.length_stack_le_depth
  rw [length_slots] at hslots
  exact hslots.trans (Nat.mul_le_mul_right _ (by omega))

/-- A frame that changes to one that covers it becomes lower. -/
lemma height_lt (ho : o.Antisymm) (h : f.Covers o pool g) (hne : f ≠ g) :
    f.height o pool < g.height o pool := by
  have hsum : ∀ xs ys : List VerificationType, List.Forall₂ (VerificationType.Covers o pool) xs ys →
      xs = ys ∨ (xs.map (VerificationType.height o pool)).sum <
        (ys.map (VerificationType.height o pool)).sum := by
    intro xs ys hxs
    induction hxs with
    | nil => exact .inl rfl
    | @cons a b xs ys hab _ ih =>
      simp only [List.map_cons, List.sum_cons]
      by_cases heq : a = b
      · subst heq
        rcases ih with rfl | ih
        · exact .inl rfl
        · exact .inr (by omega)
      · have hlt := VerificationType.height_lt ho hab heq
        rcases ih with rfl | ih
        · exact .inr (by omega)
        · exact .inr (by omega)
  rcases hsum _ _ h.slots with hslots | hlt
  · have hsame : f.withSlots f.slots = g.withSlots g.slots := by
      rw [hslots, withSlots, withSlots, h.size_eq]
    rw [withSlots_slots, withSlots_slots] at hsame
    exact absurd hsame hne
  · exact hlt

end Frame

namespace BlockGraph

/-- Cutting code into blocks takes no rounds. -/
lemma timely_partition (code : Array UInt8) (handlers : List ExceptionHandler) (facts : ControlFacts) :
    partition code facts handlers ≠ .error .unsettled := by
  intro h
  rcases partition_eq_error h with hstarts | ⟨_, _, heq⟩ | ⟨_, _, heq⟩
  · exact Code.plainly_starts code _ hstarts
  · cases heq
  · cases heq

/-- Number of bytes in a block. -/
def span (g : BlockGraph) (k : Nat) : Nat := (g.blocks[k]?.map fun b => b.stop - b.start).getD 0

lemma span_eq {g : BlockGraph} {k : Nat} {b : Block} (hb : g.blocks[k]? = some b) :
    g.span k = b.stop - b.start := by
  rw [span, hb]
  rfl

/-- The blocks have no more bytes than the code. -/
lemma Tiles.sum_span_le {g : BlockGraph} {code : Array UInt8} {instructions : List Nat}
    (h : g.Tiles code instructions) : ∑ k ∈ Finset.range g.blocks.size, g.span k ≤ code.size := by
  have hbefore : ∀ (k : Nat) (b : Block), g.blocks[k]? = some b →
      ∑ j ∈ Finset.range k, g.span j ≤ b.start := by
    intro k
    induction k with
    | zero => simp
    | succ k ih =>
      intro b hb
      have hk : k < g.blocks.size := by
        have hsize := (Array.getElem?_eq_some_iff.mp hb).1
        omega
      have hblock : g.blocks[k]? = some g.blocks[k] := Array.getElem?_eq_getElem hk
      have hsum := ih _ hblock
      have hbounds := h.bounds hblock
      have hle := h.stop_le hblock hb (Nat.lt_succ_self k)
      rw [Finset.sum_range_succ, span_eq hblock]
      omega
  cases hsize : g.blocks.size with
  | zero => simp
  | succ n =>
    have hlast : g.blocks[n]? = some g.blocks[n] := Array.getElem?_eq_getElem (by omega)
    have hsum := hbefore n _ hlast
    have hbounds := h.bounds hlast
    rw [Finset.sum_range_succ, span_eq hlast]
    omega

end BlockGraph

namespace Inference

variable {o : ClassOrder} {g : BlockGraph} {slots : Nat} {s t : Inference}

/-- The entry frame of a block, if it was reached. -/
def entry (s : Inference) (k : Nat) : Option Frame := s.frames[k]?.join

lemma entry_eq_some_iff {k : Nat} {f : Frame} :
    s.entry k = some f ↔ s.frames[k]? = some (some f) := by
  rw [entry, Option.join_eq_some_iff]

/-- Number of bytes in the blocks that were reached. -/
def reachedBytes (g : BlockGraph) (s : Inference) : Nat :=
  ∑ k ∈ Finset.range g.blocks.size, if (s.entry k).isSome then g.span k else 0

/-- How often a block may still be queued: when it is reached and when one of its types changes. -/
noncomputable def cost (o : ClassOrder) (slots : Nat) (s : Inference) (k : Nat) : Nat :=
  match s.entry k with
  | none => 1 + slots * 65538
  | some f => f.height o s.pool

/-- A bound on the number of blocks that will still be executed. -/
noncomputable def debt (o : ClassOrder) (g : BlockGraph) (slots : Nat) (s : Inference) : Nat :=
  s.worklist.toList.length + ∑ k ∈ Finset.range g.blocks.size, cost o slots s k

/-- Queueing blocks whose costs fell makes no new debt. -/
lemma debt_le_debt {changed : List Nat} (hnodup : changed.Nodup)
    (hrange : ∀ k ∈ changed, k < g.blocks.size)
    (hlt : ∀ k ∈ changed, cost o slots t k < cost o slots s k)
    (hle : ∀ k, cost o slots t k ≤ cost o slots s k)
    (hworklist : t.worklist.toList.length ≤ s.worklist.toList.length + changed.length) :
    debt o g slots t ≤ debt o g slots s := by
  have hsum : changed.length + ∑ k ∈ Finset.range g.blocks.size, cost o slots t k ≤
      ∑ k ∈ Finset.range g.blocks.size, cost o slots s k := by
    have hcount : changed.length = ∑ k ∈ Finset.range g.blocks.size, if k ∈ changed then 1 else 0 := by
      rw [← List.toFinset_card_of_nodup hnodup, Finset.card_eq_sum_ones, ← Finset.sum_filter]
      congr 1
      ext k
      simpa using hrange k
    rw [hcount, ← Finset.sum_add_distrib]
    refine Finset.sum_le_sum fun k _ => ?_
    by_cases hk : k ∈ changed
    · have hless := hlt k hk
      rw [if_pos hk]
      omega
    · have hsame := hle k
      rw [if_neg hk]
      omega
  unfold debt
  omega

lemma cost_of_pool {later : ConstantPool} (hpool : s.pool.Extends later) (k : Nat) :
    cost o slots { s with pool := later } k ≤ cost o slots s k := by
  have hentry : Inference.entry { s with pool := later } k = s.entry k := rfl
  unfold cost
  rw [hentry]
  cases s.entry k with
  | none => exact Nat.le_refl _
  | some f => exact f.height_of_extends hpool

lemma reachedBytes_le (h : ∀ k, (s.entry k).isSome → (t.entry k).isSome) : reachedBytes g s ≤ reachedBytes g t := by
  refine Finset.sum_le_sum fun k _ => ?_
  by_cases hk : (s.entry k).isSome
  · rw [if_pos hk, if_pos (h k hk)]
  · rw [if_neg hk]
    exact Nat.zero_le _

lemma reachedBytes_le_sum (g : BlockGraph) (s : Inference) :
    reachedBytes g s ≤ ∑ k ∈ Finset.range g.blocks.size, g.span k := by
  refine Finset.sum_le_sum fun k _ => ?_
  split
  · exact Nat.le_refl _
  · exact Nat.zero_le _

/-- A block that is reached adds its bytes. -/
lemma span_add_reachedBytes_le (h : ∀ k, (s.entry k).isSome → (t.entry k).isSome) {k : Nat}
    (hk : k < g.blocks.size) (hs : s.entry k = none) (ht : (t.entry k).isSome) :
    g.span k + reachedBytes g s ≤ reachedBytes g t := by
  have hmem : k ∈ Finset.range g.blocks.size := Finset.mem_range.mpr hk
  unfold reachedBytes
  rw [← Finset.add_sum_erase _ _ hmem, ← Finset.add_sum_erase _ _ hmem, hs, if_pos ht]
  have hrest : ∑ j ∈ (Finset.range g.blocks.size).erase k, (if (s.entry j).isSome then g.span j else 0) ≤
      ∑ j ∈ (Finset.range g.blocks.size).erase k, if (t.entry j).isSome then g.span j else 0 := by
    refine Finset.sum_le_sum fun j _ => ?_
    by_cases hj : (s.entry j).isSome
    · rw [if_pos hj, if_pos (h j hj)]
    · rw [if_neg hj]
      exact Nat.zero_le _
  simp only [Option.isSome_none, Bool.false_eq_true, if_false]
  omega

lemma length_push_le (w : Worklist) (k : Nat) :
    (w.push k).toList.length ≤ w.toList.length + 1 := by
  rw [Worklist.toList_push]
  split <;> simp

/-- What holds in every state of an inference whose frames have at most so many local variables, and
where at most `rounds` blocks will still be executed. The stack of a frame is paid for by the blocks
that were reached, its own excepted. -/
structure Paced (o : ClassOrder) (g : BlockGraph) (locals slots rounds : Nat) (s : Inference) :
    Prop where
  frames_size : s.frames.size = g.blocks.size
  named : o.Named s.pool
  locals_le : ∀ (k : Nat) (f : Frame), s.frames[k]? = some (some f) → f.locals.size ≤ locals
  depth_le : ∀ (k : Nat) (f : Frame), s.frames[k]? = some (some f) →
    f.depth + 2 * g.span k ≤ 1 + 2 * reachedBytes g s
  debt_le : debt o g slots s ≤ rounds

/-- The conditions under which a round costs what it should. -/
noncomputable def pace (o : ClassOrder) (g : BlockGraph) (locals slots rounds : Nat) : Conditions where
  Inv := Paced o g locals slots rounds
  Before s k pc f := ∃ b, g.blocks[k]? = some b ∧ f.locals.size ≤ locals ∧
    f.depth + 2 * (b.stop - pc) ≤ 1 + 2 * reachedBytes g s
  Sent s _ f := f.locals.size ≤ locals ∧ f.depth ≤ 1 + 2 * reachedBytes g s
  Fails e := e ≠ .unsettled

section Pace

variable {locals rounds size : Nat}

lemma keeps_pace (ht : Paced o g locals slots rounds t) (hreached : reachedBytes g s ≤ reachedBytes g t) :
    (pace o g locals slots rounds).Keeps s t where
  inv := ht
  before k pc f := by
    rintro ⟨b, hb, hlocals, hdepth⟩
    exact ⟨b, hb, hlocals, by omega⟩
  sent target f := by
    rintro ⟨hlocals, hdepth⟩
    exact ⟨hlocals, by omega⟩

lemma Paced.of_pool (hs : Paced o g locals slots rounds s) {later : ConstantPool}
    (hpool : s.pool.Extends later) (hnamed : o.Named later) :
    Paced o g locals slots rounds { s with pool := later } where
  frames_size := hs.frames_size
  named := hnamed
  locals_le := hs.locals_le
  depth_le := hs.depth_le
  debt_le := (debt_le_debt List.nodup_nil nofun nofun (cost_of_pool hpool) (Nat.le_refl _)).trans
    hs.debt_le

/-- Some blocks get entry frames that they pay for, and wait. -/
lemma Paced.of_changed (hs : Paced o g locals slots rounds s) (changed : List Nat)
    (hnodup : changed.Nodup) (hrange : ∀ k ∈ changed, k < g.blocks.size)
    (hsize : t.frames.size = s.frames.size) (hpool : s.pool.Extends t.pool) (hnamed : o.Named t.pool)
    (hkept : ∀ k, k ∉ changed → t.frames[k]? = s.frames[k]?)
    (hnew : ∀ k ∈ changed, ∃ f, t.frames[k]? = some (some f) ∧ f.locals.size ≤ locals ∧
      f.height o t.pool < cost o slots s k ∧
      f.depth + 2 * (if (s.entry k).isSome then g.span k else 0) ≤ 1 + 2 * reachedBytes g s)
    (hworklist : t.worklist.toList.length ≤ s.worklist.toList.length + changed.length) :
    (pace o g locals slots rounds).Keeps s t := by
  have hsome : ∀ k, (s.entry k).isSome → (t.entry k).isSome := by
    intro k hk
    by_cases hmem : k ∈ changed
    · obtain ⟨f, hf, _⟩ := hnew k hmem
      rw [entry_eq_some_iff.mpr hf]
      rfl
    · rwa [entry, hkept k hmem]
  have hreached := reachedBytes_le (g := g) hsome
  have hless : ∀ k ∈ changed, cost o slots t k < cost o slots s k := by
    intro k hk
    obtain ⟨f, hf, _, hheight, _⟩ := hnew k hk
    rw [cost, entry_eq_some_iff.mpr hf]
    exact hheight
  refine keeps_pace ⟨hsize.trans hs.frames_size, hnamed, ?_, ?_, ?_⟩ hreached
  · intro k f hf
    by_cases hmem : k ∈ changed
    · obtain ⟨f', hf', hlocals, _⟩ := hnew k hmem
      rw [hf'] at hf
      cases hf
      exact hlocals
    · exact hs.locals_le k f (hkept k hmem ▸ hf)
  · intro k f hf
    by_cases hmem : k ∈ changed
    · obtain ⟨f', hf', _, _, hdepth⟩ := hnew k hmem
      rw [hf'] at hf
      cases hf
      cases hentry : s.entry k with
      | none =>
        have hspan := span_add_reachedBytes_le hsome (hrange k hmem) hentry
          (by simp [entry_eq_some_iff.mpr hf'])
        simp only [hentry, Option.isSome_none, Bool.false_eq_true, if_false] at hdepth
        omega
      | some old =>
        simp only [hentry, Option.isSome_some, if_true] at hdepth
        omega
    · have hpaid := hs.depth_le k f (hkept k hmem ▸ hf)
      omega
  · refine (debt_le_debt hnodup hrange hless (fun k => ?_) hworklist).trans hs.debt_le
    by_cases hmem : k ∈ changed
    · exact (hless k hmem).le
    · have hsame : cost o slots t k = cost o slots { s with pool := t.pool } k := by
        rw [cost, cost, entry, entry, hkept k hmem]
      rw [hsame]
      exact cost_of_pool hpool k

/-- One block gets an entry frame that it pays for, and waits. -/
lemma Paced.of_set (hs : Paced o g locals slots rounds s) {k : Nat} {new : Frame}
    {later : ConstantPool} (hk : k < g.blocks.size) (hpool : s.pool.Extends later)
    (hnamed : o.Named later) (hlocals : new.locals.size ≤ locals)
    (hcost : new.height o later < cost o slots s k)
    (hdepth : new.depth + 2 * (if (s.entry k).isSome then g.span k else 0) ≤
      1 + 2 * reachedBytes g s) :
    (pace o g locals slots rounds).Keeps s
      ⟨s.frames.setIfInBounds k (some new), s.worklist.push k, later⟩ := by
  have hk' : k < s.frames.size := hs.frames_size ▸ hk
  refine hs.of_changed [k] (List.nodup_singleton k) (by simpa using hk)
    Array.size_setIfInBounds hpool hnamed (fun j hj => ?_) (fun j hj => ?_)
    (length_push_le s.worklist k)
  · rw [List.mem_singleton] at hj
    rw [Array.getElem?_setIfInBounds, if_neg (Ne.symm hj)]
  · rw [List.mem_singleton] at hj
    subst hj
    refine ⟨new, ?_, hlocals, hcost, hdepth⟩
    rw [Array.getElem?_setIfInBounds, if_pos rfl, if_pos hk']

/-- A frame is merged into the entry frame of a block. -/
lemma Merged.keeps_pace (ho : o.Antisymm) {k : Nat} {f : Frame}
    (htotal : ∑ k ∈ Finset.range g.blocks.size, g.span k ≤ size)
    (hslots : slots = locals + 2 * size + 1) (hs : Paced o g locals slots rounds s)
    (hlocals : f.locals.size ≤ locals) (hdepth : f.depth ≤ 1 + 2 * reachedBytes g s)
    (h : Merged o s k f t) : (pace o g locals slots rounds).Keeps s t := by
  cases h with
  | same h hpool hnamed => exact Inference.keeps_pace (hs.of_pool hpool hnamed) (Nat.le_refl _)
  | reached h =>
    have hk : k < g.blocks.size := hs.frames_size ▸ (Array.getElem?_eq_some_iff.mp h).1
    have hnone : s.entry k = none := by simp [entry, h]
    have hheight := f.height_le o s.pool
    have htotal' := reachedBytes_le_sum g s
    have hmul : (f.locals.size + f.depth) * 65538 ≤ slots * 65538 :=
      Nat.mul_le_mul_right _ (by omega)
    refine hs.of_set hk (.refl _) hs.named hlocals ?_ ?_
    · simp only [cost, hnone]
      omega
    · simpa [hnone] using hdepth
  | @widened later old new h hpool hnamed hcovers hne =>
    have hk : k < g.blocks.size := hs.frames_size ▸ (Array.getElem?_eq_some_iff.mp h).1
    have hold : s.entry k = some old := entry_eq_some_iff.mpr h
    refine hs.of_set hk hpool hnamed ?_ ?_ ?_
    · rw [hcovers.size_eq]
      exact hs.locals_le k old h
    · have hlt := Frame.height_lt ho hcovers hne
      have hle := Frame.height_of_extends (o := o) hpool old
      simp only [cost, hold]
      exact hlt.trans_le hle
    · have hle := Frame.depth_le_of_covers hcovers
      have hpaid := hs.depth_le k old h
      simp only [hold, Option.isSome_some, if_true]
      omega

variable {p : BlockProgram}

/-- An instruction pushes at most two words more than it pops and takes at least one byte, so the
bytes of a block pay for its stack. -/
theorem hold_pace (hgraph : p.graph = g) (hmerges : o.Merges p.scope) (ho : o.Antisymm)
    (htotal : ∑ k ∈ Finset.range g.blocks.size, g.span k ≤ size)
    (hslots : slots = locals + 2 * size + 1) : (pace o g locals slots rounds).Hold p where
  plain := by
    rintro e he rfl
    exact he
  refl s hs := Inference.keeps_pace hs (Nat.le_refl _)
  grow s later hs hpool hnamed :=
    Inference.keeps_pace (hs.of_pool hpool (o.named_mono hnamed hs.named)) (Nat.le_refl _)
  merge s k b f hs _ hsent := by
    refine ((ends_mergeEntry hmerges k f hs.named).mono fun _ t h => ?_).mono_error ?_
    · exact h.keeps_pace ho htotal hslots hs hsent.1 hsent.2
    · rintro e he rfl
      exact he
  lost := by
    rintro s source target f _ _ ⟨⟩
  enter s k b f hs hb hf := by
    rw [hgraph] at hb
    have hdepth := hs.depth_le k f hf
    rw [BlockGraph.span_eq hb] at hdepth
    exact ⟨b, hb, hs.locals_le k f hf, hdepth⟩
  throws s k b pc f h exception _ _ hf _ _ _ hwidth := by
    obtain ⟨_, _, hlocals, _⟩ := hf
    refine ⟨hlocals, ?_⟩
    simp only [Frame.depth_eq, List.map_cons, List.map_nil, List.sum_cons, List.sum_nil, hwidth]
    omega
  step s later k b pc f f' insn traits targets popped pushed _ hb hf hpc _ _ _ hwords hshift := by
    obtain ⟨b', hb', hlocals, hdepth⟩ := hf
    rw [hgraph, hb'] at hb
    cases hb
    have hpushed := insn.pushed_le hwords
    have hshifted : f'.depth + popped = f.depth + pushed := hshift.depth
    have hlocals' : f'.locals.size ≤ locals := hshift.size.trans_le hlocals
    have hpos := insn.length_pos
    refine ⟨fun _ _ => ⟨hlocals', ?_⟩, fun _ => ⟨b, hb', hlocals', ?_⟩⟩
    · change f'.depth ≤ 1 + 2 * reachedBytes g s
      omega
    · change f'.depth + 2 * (b.stop - (pc + insn.length)) ≤ 1 + 2 * reachedBytes g s
      omega
  falls s k b pc f _ _ hf _ _ := by
    obtain ⟨_, _, hlocals, hdepth⟩ := hf
    exact ⟨hlocals, by omega⟩

/-- There are rounds enough for all blocks that will ever wait. -/
theorem ends_settle (hhold : ∀ rounds, (pace o g locals slots rounds).Hold p)
    (hnext : ∀ (k : Nat) (b : Block), p.graph.blocks[k]? = some b → b.stop < p.code.size →
      ∃ b', p.graph.blocks[k + 1]? = some b' ∧ b'.start = b.stop) (n : Nat) (hn : rounds < n)
    (hs : Paced o g locals slots rounds s) :
    (settle p n).Ends s (fun _ t => Paced o g locals slots rounds t) (· ≠ .unsettled) := by
  induction n generalizing rounds s with
  | zero => omega
  | succ n ih =>
    rw [settle]
    apply Step.Ends.get
    split
    · exact .pure hs
    · rename_i k worklist hpop
      have hlength : s.worklist.toList.length = worklist.toList.length + 1 := by
        rw [Worklist.toList_of_pop? hpop, List.length_cons]
      have hdebt := hs.debt_le
      have hpaid : debt o g slots s = debt o g slots { s with worklist } + 1 := by
        change s.worklist.toList.length + _ = worklist.toList.length + _ + 1
        rw [hlength]
        exact Nat.add_right_comm _ _ _
      obtain ⟨rounds, rfl⟩ : ∃ m, rounds = m + 1 := ⟨rounds - 1, by omega⟩
      have hpopped : Paced o g locals slots rounds { s with worklist } :=
        ⟨hs.frames_size, hs.named, hs.locals_le, hs.depth_le, by omega⟩
      have hset : (set { s with worklist } : Step Inference PUnit).Ends s
          (fun _ t => Paced o g locals slots rounds t) (· ≠ .unsettled) := .of_ok rfl hpopped
      refine hset.bind fun _ t ht => ((hhold rounds).executeBlock hnext k ht).bind fun _ u hu => ?_
      refine (ih (by omega) hu).mono fun _ v hv => ?_
      exact ⟨hv.frames_size, hv.named, hv.locals_le, hv.depth_le, Nat.le_succ_of_le hv.debt_le⟩

/-- Before the first block is reached, all of them may still be queued as often as a block can. -/
lemma paced_unreached (o : ClassOrder) (g : BlockGraph) (locals slots : Nat) {pool : ConstantPool}
    (hpool : o.Named pool) :
    Paced o g locals slots (g.blocks.size * (1 + slots * 65538)) (unreached g.blocks.size pool) := by
  have hentry : ∀ k, (unreached g.blocks.size pool).entry k = none := by
    intro k
    simp only [entry, unreached, Array.getElem?_replicate]
    split <;> rfl
  have hnone : ∀ (k : Nat) (f : Frame),
      (unreached g.blocks.size pool).frames[k]? ≠ some (some f) := by
    intro k f hf
    rw [← entry_eq_some_iff, hentry] at hf
    cases hf
  refine ⟨Array.size_replicate, hpool, fun k f hf => absurd hf (hnone k f),
    fun k f hf => absurd hf (hnone k f), ?_⟩
  have hcost : ∀ k, cost o slots (unreached g.blocks.size pool) k = 1 + slots * 65538 := by
    intro k
    rw [cost, hentry]
  rw [debt, Finset.sum_congr rfl fun k _ => hcost k]
  simp [unreached, Worklist.empty, Worklist.toList]

/-- The blocks that are blanked pay for their turn with what they would have cost if reached. -/
lemma Paced.of_retired {p' : BlockProgram} {maxLocals : Nat} {exception : VerificationType}
    {handlers : List ExceptionHandler} (hs : Paced o g locals slots rounds s) (size : Nat)
    (hgraph : p.graph = g) (hmax : maxLocals ≤ locals)
    (hexception : width exception = 1) (hslots : slots = locals + 2 * size + 1)
    (h : BlockProgram.Retired { p with handlers } s maxLocals exception (p.deadBlocks s.frames)
      p' t) : Paced o g locals slots rounds t := by
  have hdead : ∀ {k}, k ∈ p.deadBlocks s.frames ↔ s.frames[k]? = some none :=
    BlockProgram.mem_deadBlocks (by rw [hgraph, hs.frames_size])
  have hborrowed : ∀ b : Block, (BlockProgram.borrowedFrame { p with handlers } s.frames maxLocals
      exception b).locals.size ≤ locals := by
    intro b
    unfold BlockProgram.borrowedFrame BlockProgram.borrowedLocals
    cases hfind : handlers.findSome? fun h =>
        if h.covers b.start then BlockProgram.handlerFrame? p.graph s.frames h else none with
    | none => simpa [hfind, Frame.empty] using hmax
    | some f =>
      obtain ⟨h, _, hf⟩ := List.exists_of_findSome?_eq_some hfind
      split at hf
      · obtain ⟨k, _, _, _, hk⟩ := BlockProgram.exists_of_handlerFrame? hf
        simpa [hfind] using hs.locals_le k f hk
      · cases hf
  have hdepth : ∀ b : Block, (BlockProgram.borrowedFrame { p with handlers } s.frames maxLocals
      exception b).depth = 1 := by
    intro b
    simp [BlockProgram.borrowedFrame, Frame.depth_eq, hexception]
  have hrange : ∀ k ∈ p.deadBlocks s.frames, k < g.blocks.size := by
    intro k hk
    rw [← hs.frames_size]
    exact (Array.getElem?_eq_some_iff.mp (hdead.mp hk)).1
  have hnodup : (p.deadBlocks s.frames).Nodup := List.nodup_range.filter _
  refine (hs.of_changed _ hnodup hrange h.frames_size (h.pool ▸ .refl _) (h.pool ▸ hs.named) h.kept
    (fun k hk => ?_) (by rw [h.worklist, List.length_append])).inv
  have hlt : k < p.graph.blocks.size := hgraph ▸ hrange k hk
  have hnone : s.entry k = none := by simp [entry, hdead.mp hk]
  refine ⟨_, h.retired k _ hk (Array.getElem?_eq_getElem hlt), hborrowed _, ?_, ?_⟩
  · have hheight := (BlockProgram.borrowedFrame { p with handlers } s.frames maxLocals exception
      p.graph.blocks[k]).height_le o t.pool
    have hlocals := hborrowed p.graph.blocks[k]
    rw [hdepth] at hheight
    have hmul := Nat.mul_le_mul_right 65538 (show (BlockProgram.borrowedFrame { p with handlers }
      s.frames maxLocals exception p.graph.blocks[k]).locals.size + 1 ≤ slots by omega)
    simp only [cost, hnone]
    omega
  · rw [hdepth, hnone]
    simp

end Pace

/-- Waiting blocks are executed one after the other, `n` of them, until none is left or one fails. -/
inductive Settles (p : BlockProgram) : Nat → Inference → Except Error Unit × Inference → Prop
  | done {s : Inference} (h : s.worklist.pop? = none) : Settles p 0 s (.ok (), s)
  | fails {s t : Inference} {k : Nat} {worklist : Worklist} {e : Error}
      (h : s.worklist.pop? = some (k, worklist))
      (hblock : (executeBlock p k).outcome { s with worklist } = (.error e, t)) :
      Settles p 1 s (.error e, t)
  | round {s t : Inference} {k n : Nat} {worklist : Worklist} {outcome : Except Error Unit × Inference}
      (h : s.worklist.pop? = some (k, worklist))
      (hblock : (executeBlock p k).outcome { s with worklist } = (.ok (), t))
      (hrest : Settles p n t outcome) : Settles p (n + 1) s outcome

/-- A bounded run that did not meet its bound is a run. -/
lemma exists_settles {p : BlockProgram} {rounds : Nat} {result : Except Error Unit}
    (h : (settle p rounds).outcome s = (result, t)) (hne : result ≠ .error .unsettled) :
    ∃ n ≤ rounds, Settles p n s (result, t) := by
  induction rounds generalizing s with
  | zero =>
    cases h
    exact absurd rfl hne
  | succ rounds ih =>
    rw [settle, Step.outcome_bind, Step.outcome_get] at h
    simp only at h
    cases hpop : s.worklist.pop? with
    | none =>
      rw [hpop] at h
      cases h
      exact ⟨0, Nat.zero_le _, .done hpop⟩
    | some next =>
      obtain ⟨k, worklist⟩ := next
      rw [hpop] at h
      simp only [Step.outcome_bind, Step.outcome_set] at h
      rcases hblock : (executeBlock p k).outcome { s with worklist } with ⟨e | _, u⟩
      · rw [hblock] at h
        cases h
        exact ⟨1, by omega, .fails hpop hblock⟩
      · rw [hblock] at h
        obtain ⟨n, hn, hsettles⟩ := ih h
        exact ⟨n + 1, by omega, .round hpop hblock hsettles⟩

lemma Settles.worklist_eq_nil {p : BlockProgram} {n : Nat} (h : Settles p n s (.ok (), t)) :
    t.worklist.toList = [] := by
  generalize hr : ((Except.ok (), t) : Except Error Unit × Inference) = outcome at h
  induction h with
  | done h =>
    cases hr
    exact (Worklist.pop?_eq_none_iff _).mp h
  | fails => cases hr
  | round _ _ _ ih => exact ih hr

end Inference

namespace MethodCode

open Inference (Paced Settles)

variable {m : MethodCode} {facts : ControlFacts} {header : MethodHeader} {scope : ClassScope}
  {graph : BlockGraph} {pool later : ConstantPool} {initial : Frame} {s t : Inference}

/-- A state from which as many blocks will be executed as the method has rounds for. -/
def InTime (hscope : scope.WellDeclared) (m : MethodCode) (graph : BlockGraph) (initial : Frame) :
    Inference → Prop :=
  Paced hscope.order graph initial.locals.size (initial.locals.size + 2 * m.code.size + 1)
    (graph.blocks.size * (1 + (initial.locals.size + 2 * m.code.size + 1) * 65538))

lemma antisymm_order (hscope : scope.WellDeclared) : hscope.order.Antisymm :=
  fun hij hji => hscope.covers_antisymm hij hji

/-- The first block is reached. -/
lemma ends_mergeEntry_inTime (hscope : scope.WellDeclared) (hpool : pool.WellNamed)
    (hgraph : BlockGraph.partition m.code facts m.handlers = .ok graph)
    (hinitial : (header.entryFrame scope m.maxLocals.toNat).outcome pool = (.ok initial, later)) :
    (Inference.mergeEntry (m.program graph scope) 0 initial).Ends
      (.unreached graph.blocks.size later) (fun _ s => InTime hscope m graph initial s)
      (· ≠ .unsettled) := by
  obtain ⟨instructions, htiles⟩ := BlockGraph.tiles_of_partition hgraph
  obtain ⟨_, hstack⟩ := MethodHeader.size_of_entryFrame hinitial
  have hnamed : later.WellNamed := (MethodHeader.entryFrame_grows hinitial).2 hpool
  have hdepth : initial.depth = 0 := by simp [Frame.depth_eq, hstack]
  have hpaced := Inference.paced_unreached hscope.order graph initial.locals.size
    (initial.locals.size + 2 * m.code.size + 1) hnamed
  refine ((Inference.ends_mergeEntry (p := m.program graph scope) hscope.merges 0 initial
    hpaced.named).mono fun _ t h => ?_).mono_error ?_
  · exact (h.keeps_pace (antisymm_order hscope) htiles.sum_span_le rfl hpaced (Nat.le_refl _)
      (by omega)).inv
  · rintro e he rfl
    exact he

/-- A run of blocks, in the code or in what blanking made of it. -/
lemma ends_settle_inTime (hscope : scope.WellDeclared)
    (hgraph : BlockGraph.partition m.code facts m.handlers = .ok graph) {p : BlockProgram}
    (hgraph' : p.graph = graph) (hscope' : p.scope = scope) (hsize : p.code.size = m.code.size)
    (hs : InTime hscope m graph initial s) :
    (Inference.settle p (Inference.rounds (m.program graph scope) initial.locals.size)).Ends s
      (fun _ t => InTime hscope m graph initial t) (· ≠ .unsettled) := by
  obtain ⟨instructions, htiles⟩ := BlockGraph.tiles_of_partition hgraph
  have hmerges : hscope.order.Merges p.scope := by
    rw [hscope']
    exact hscope.merges
  have hhold : ∀ rounds, (Inference.pace hscope.order graph initial.locals.size
      (initial.locals.size + 2 * m.code.size + 1) rounds).Hold p :=
    fun rounds => Inference.hold_pace hgraph' hmerges (antisymm_order hscope) htiles.sum_span_le rfl
  refine Inference.ends_settle hhold (fun k b hb hlt => ?_) _ ?_ hs
  · rw [hgraph'] at hb ⊢
    rcases htiles.next k b hb with hnext | ⟨_, hstop⟩
    · exact hnext
    · omega
  · simp only [Inference.rounds, program]
    exact Nat.lt_succ_self _

/-- Blanking the blocks that were not reached. -/
lemma inTime_of_neutralize (hscope : scope.WellDeclared)
    (hgraph : BlockGraph.partition m.code facts m.handlers = .ok graph)
    (hinitial : (header.entryFrame scope m.maxLocals.toNat).outcome pool = (.ok initial, later))
    {exception : VerificationType} {middle : ConstantPool} {p' : BlockProgram} {s' : Inference}
    (hs : InTime hscope m graph initial s)
    (hexception : (VerificationType.ofClass .throwable).outcome s.pool = (.ok exception, middle))
    (hneutralize : (m.program graph scope).neutralize m.maxLocals.toNat exception
      { s with pool := middle } = (p', s')) :
    p'.graph = graph ∧ p'.scope = scope ∧ p'.code.size = m.code.size ∧
      InTime hscope m graph initial s' := by
  obtain ⟨instructions, htiles⟩ := BlockGraph.tiles_of_partition hgraph
  obtain ⟨hext, hnamed⟩ := (VerificationType.repeatable_ofClass .throwable).grows hexception
  obtain ⟨i, rfl, _⟩ := VerificationType.ofClass_eq_ok hexception
  have hretired := BlockProgram.retired_neutralize (p := m.program graph scope)
    (s := { s with pool := middle }) htiles hs.frames_size m.maxLocals.toNat (.object i)
  rw [hneutralize] at hretired
  have hs' := (hs.of_pool hext (hnamed hs.named)).of_retired m.code.size rfl
    (MethodHeader.size_of_entryFrame hinitial).1 rfl rfl hretired
  exact ⟨hretired.graph, hretired.scope, hretired.size, hs'⟩

/-- Inference ends. Both runs of the worklist, the one from the first block and the one over the
blanked code, come to an end after a number of blocks that is bounded in advance: the worklist is
empty or a block has failed. So inference never runs out of rounds. -/
theorem settle_terminates (hscope : scope.WellDeclared) (hpool : pool.WellNamed) :
    ((m.settle facts header scope).outcome pool).1 ≠ .error .unsettled ∧
      ∀ graph initial later s,
        BlockGraph.partition m.code facts m.handlers = .ok graph →
        (header.entryFrame scope m.maxLocals.toNat).outcome pool = (.ok initial, later) →
        (Inference.mergeEntry (m.program graph scope) 0 initial).outcome
          (.unreached graph.blocks.size later) = (.ok (), s) →
        ∃ n result t, Settles (m.program graph scope) n s (result, t) ∧
          n ≤ Inference.rounds (m.program graph scope) initial.locals.size ∧
          (result = .ok () → t.worklist.toList = [] ∧ ∀ exception middle p' s',
            (VerificationType.ofClass .throwable).outcome t.pool = (.ok exception, middle) →
            (m.program graph scope).neutralize m.maxLocals.toNat exception
              { t with pool := middle } = (p', s') →
            ∃ n' result' t', Settles p' n' s' (result', t') ∧
              n' ≤ Inference.rounds (m.program graph scope) initial.locals.size ∧
              (result' = .ok () → t'.worklist.toList = [])) := by
  constructor
  · intro hfails
    cases hpartition : BlockGraph.partition m.code facts m.handlers with
    | error e =>
      unfold settle at hfails
      rw [hpartition] at hfails
      cases hfails
      exact BlockGraph.timely_partition m.code m.handlers facts hpartition
    | ok graph =>
      rcases settle_eq_error hpartition (Prod.ext hfails rfl) with
        hrefusal | ⟨initial, later, hinitial, ⟨t, hrun⟩ | hresumed⟩
      · exact hrefusal.plain
      · rcases Step.bind_eq_error.mp hrun with hfirst | ⟨_, s, hfirst, hsettle⟩
        · exact (ends_mergeEntry_inTime hscope hpool hpartition hinitial).error _ t hfirst rfl
        · have hs := (ends_mergeEntry_inTime hscope hpool hpartition hinitial).ok _ s hfirst
          exact (ends_settle_inTime hscope hpartition rfl rfl rfl hs).error _ t hsettle rfl
      · obtain ⟨t, exception, middle, p', s', u, hrun, hexception, hneutralize, hsettle⟩ := hresumed
        obtain ⟨_, s, hfirst, hrun⟩ := Step.bind_eq_ok.mp hrun
        have hs := (ends_mergeEntry_inTime hscope hpool hpartition hinitial).ok _ s hfirst
        have ht := (ends_settle_inTime hscope hpartition rfl rfl rfl hs).ok _ t hrun
        obtain ⟨hgraph, hscope', hsize, hs'⟩ :=
          inTime_of_neutralize hscope hpartition hinitial ht hexception hneutralize
        exact (ends_settle_inTime hscope hpartition hgraph hscope' hsize hs').error _ u hsettle rfl
  · intro graph initial later s hgraph hinitial hfirst
    have hs := (ends_mergeEntry_inTime hscope hpool hgraph hinitial).ok _ s hfirst
    have hends := ends_settle_inTime hscope hgraph (p := m.program graph scope) rfl rfl rfl hs
    rcases hrun : (Inference.settle (m.program graph scope) (Inference.rounds
      (m.program graph scope) initial.locals.size)).outcome s with ⟨result, t⟩
    have hresult : result ≠ .error .unsettled := by
      rintro rfl
      exact hends.error _ t hrun rfl
    obtain ⟨n, hn, hsettles⟩ := Inference.exists_settles hrun hresult
    refine ⟨n, result, t, hsettles, hn, ?_⟩
    rintro rfl
    refine ⟨hsettles.worklist_eq_nil, fun exception middle p' s' hexception hneutralize => ?_⟩
    obtain ⟨hgraph', hscope', hsize, hs'⟩ :=
      inTime_of_neutralize hscope hgraph hinitial (hends.ok _ t hrun) hexception hneutralize
    have hends' := ends_settle_inTime hscope hgraph hgraph' hscope' hsize hs'
    rcases hrun' : (Inference.settle p' (Inference.rounds (m.program graph scope)
      initial.locals.size)).outcome s' with ⟨result', t'⟩
    have hresult' : result' ≠ .error .unsettled := by
      rintro rfl
      exact hends'.error _ t' hrun' rfl
    obtain ⟨n', hn', hsettles'⟩ := Inference.exists_settles hrun' hresult'
    refine ⟨n', result', t', hsettles', hn', ?_⟩
    rintro rfl
    exact hsettles'.worklist_eq_nil

/-- A loop in which a variable changes from null to an object, and code after it that is never
reached. -/
def climbingLoop : MethodCode where
  code := #[0x01, 0x4c, 0x2a, 0x4c, 0xa7, 0xff, 0xfe, 0x00, 0xb1]
  handlers := []
  maxStack := 1
  maxLocals := 2

def climbingFacts : ControlFacts := ⟨#[(4, 2)], #[7, 9]⟩

def climbingHeader : MethodHeader := ⟨"run", ⟨[⟨0, .object .object⟩], none⟩, true⟩

theorem climbingLoop_terminates :
    plainScope.WellDeclared ∧ ConstantPool.WellNamed .empty ∧
      ((climbingLoop.settle climbingFacts climbingHeader plainScope).outcome .empty).1.map
        (fun settled => (settled.deadBlocks, settled.frames[1]?)) =
          .ok (1, some (some ⟨#[.object 2, .object 2], []⟩)) ∧
      ((climbingLoop.settle climbingFacts climbingHeader plainScope).outcome .empty).1 ≠
        .error .unsettled ∧
      ∃ graph initial later s,
        BlockGraph.partition climbingLoop.code climbingFacts climbingLoop.handlers = .ok graph ∧
        (climbingHeader.entryFrame plainScope climbingLoop.maxLocals.toNat).outcome .empty =
          (.ok initial, later) ∧
        (Inference.mergeEntry (climbingLoop.program graph plainScope) 0 initial).outcome
          (.unreached graph.blocks.size later) = (.ok (), s) ∧
        ∃ n result t, Settles (climbingLoop.program graph plainScope) n s (result, t) ∧
          (result = .ok () → t.worklist.toList = []) := by
  have heval : ((climbingLoop.settle climbingFacts climbingHeader plainScope).outcome .empty).1.map
      (fun settled => (settled.deadBlocks, settled.frames[1]?)) =
        .ok (1, some (some ⟨#[.object 2, .object 2], []⟩)) := by
    decide +kernel
  obtain ⟨hends, hruns⟩ := @settle_terminates climbingLoop climbingFacts climbingHeader _ _
    lawful_plainScope.wellDeclared ConstantPool.wellNamed_empty
  refine ⟨lawful_plainScope.wellDeclared, ConstantPool.wellNamed_empty, heval, hends, ?_⟩
  obtain ⟨settled, _, hsettle, _⟩ := Step.exists_of_map_eq_ok heval
  obtain ⟨later, t, hgraph, hinitial, hrun, _⟩ := settle_eq_ok hsettle
  obtain ⟨_, s, hfirst, _⟩ := Step.bind_eq_ok.mp hrun
  obtain ⟨n, result, u, hsettles, _, hempty⟩ := hruns _ _ _ s hgraph hinitial hfirst
  exact ⟨_, _, later, s, hgraph, hinitial, hfirst, n, result, u, hsettles, fun h => (hempty h).1⟩

end MethodCode
end ClassAssembly
