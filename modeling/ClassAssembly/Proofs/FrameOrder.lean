import ClassAssembly.Frame.Basic
import ClassAssembly.Proofs.TypeOrder
import Mathlib.Data.List.Forall2

/-! Merging frames. The merged frame covers both, and what is reported about a change is true. -/
namespace ClassAssembly

open List (Forall₂)

namespace Frame

variable {o : ClassOrder} {pool later : ConstantPool} {f g h : Frame}

/-- Slot by slot; both frames have as many local variables and the same height of the stack. -/
structure Covers (o : ClassOrder) (pool : ConstantPool) (f g : Frame) : Prop where
  locals : Forall₂ (VerificationType.Covers o pool) f.locals.toList g.locals.toList
  stack : Forall₂ (VerificationType.Covers o pool) f.stack g.stack

namespace Covers

theorem refl (f : Frame) : Covers o pool f f :=
  ⟨List.forall₂_same.mpr fun t _ => .refl t, List.forall₂_same.mpr fun t _ => .refl t⟩

theorem mono (hpool : pool.Extends later) (hfg : Covers o pool f g) :
    Covers o later f g :=
  ⟨hfg.locals.imp fun _ _ ht => ht.mono hpool, hfg.stack.imp fun _ _ ht => ht.mono hpool⟩

lemma forall₂_trans {α : Type} {R : α → α → Prop} (htrans : ∀ a b c, R a b → R b c → R a c)
    {xs ys zs : List α} (hxy : Forall₂ R xs ys) (hyz : Forall₂ R ys zs) : Forall₂ R xs zs := by
  induction hxy generalizing zs with
  | nil => exact hyz
  | cons hab _ ih =>
    cases hyz with
    | cons hbc hrest => exact .cons (htrans _ _ _ hab hbc) (ih hrest)

theorem trans (hfg : Covers o pool f g) (hgh : Covers o pool g h) :
    Covers o pool f h where
  locals := forall₂_trans (fun _ _ _ hab hbd => hab.trans hbd) hfg.locals hgh.locals
  stack := forall₂_trans (fun _ _ _ hab hbd => hab.trans hbd) hfg.stack hgh.stack

lemma size_eq (hfg : Covers o pool f g) : f.locals.size = g.locals.size := by
  simpa using hfg.locals.length_eq

lemma slots (hfg : Covers o pool f g) :
    Forall₂ (VerificationType.Covers o pool) f.slots g.slots :=
  List.rel_append hfg.locals (List.forall₂_reverse_iff.mpr hfg.stack)

lemma of_slots {slots : List VerificationType} (hsize : f.locals.size = g.locals.size)
    (hslots : Forall₂ (VerificationType.Covers o pool) slots g.slots) :
    Covers o pool (f.withSlots slots) g := by
  have hlocals := List.forall₂_take g.locals.size hslots
  have hstack := List.forall₂_drop g.locals.size hslots
  simp only [Frame.slots, ← Array.length_toList, List.take_left, List.drop_left] at hlocals hstack
  constructor
  · simpa [withSlots, hsize] using hlocals
  · rw [← List.forall₂_reverse_iff]
    simpa [withSlots, hsize] using hstack

end Covers

lemma length_slots (f : Frame) : f.slots.length = f.locals.size + f.stack.length := by
  simp [slots]

end Frame

namespace Machine

variable {o : ClassOrder} {c : ClassScope} {pool later : ConstantPool}

lemma mergeSlots_covers (hc : o.Merges c) {changed result : Bool}
    {before olds news slots : List VerificationType} (hpool : o.Named pool)
    (hlength : olds.length = news.length)
    (h : mergeSlots c before changed olds news pool = (.ok result, slots, later)) :
    ∃ merged, slots = before.reverse ++ merged ∧ pool.Extends later ∧ o.Named later ∧
      Forall₂ (VerificationType.Covers o later) merged olds ∧
      Forall₂ (VerificationType.Covers o later) merged news ∧
      (result = false → changed = false ∧ merged = olds) := by
  induction olds generalizing news before changed pool with
  | nil =>
    obtain rfl := List.length_eq_zero_iff.mp hlength.symm
    cases h
    exact ⟨[], rfl, .refl _, hpool, .nil, .nil, fun h => ⟨h, rfl⟩⟩
  | cons old olds ih =>
    obtain _ | ⟨new, news⟩ := news
    · cases hlength
    rw [mergeSlots] at h
    rcases htype : (old.merge c new).outcome pool with ⟨_ | m, middle⟩
    · rw [htype] at h
      cases h
    · rw [htype] at h
      obtain ⟨hext, hmiddle, hold, hnew⟩ := VerificationType.merge_covers hc hpool htype
      obtain ⟨merged, rfl, hext', hlater, holds, hnews, hsame⟩ :=
        ih hmiddle (Nat.succ.inj hlength) h
      refine ⟨m :: merged, by simp, hext.trans hext', hlater, .cons (hold.mono hext') holds,
        .cons (hnew.mono hext') hnews, ?_⟩
      intro hresult
      obtain ⟨hchanged, rfl⟩ := hsame hresult
      simpa using hchanged

lemma mergeSlots_of_covers (hc : c.Lawful) (hpool : pool.WellNamed) {changed : Bool}
    {before olds news : List VerificationType}
    (h : Forall₂ (VerificationType.Covers hc.order pool) olds news) :
    mergeSlots c before changed olds news pool = (.ok changed, before.reverse ++ olds, pool) := by
  induction h generalizing before with
  | nil => rfl
  | cons htype _ ih =>
    rw [mergeSlots, VerificationType.merge_of_covers hc hpool htype]
    simp [ih]

/-- A merged frame covers both, and is the old one unless a change was reported. -/
theorem merge_covers (hc : o.Merges c) {offset : Nat} {frame other merged : Frame} {changed : Bool}
    (hpool : o.Named pool) (hsize : frame.locals.size = other.locals.size)
    (h : (merge c offset other).outcome ⟨frame, pool⟩ = (.ok changed, ⟨merged, later⟩)) :
    pool.Extends later ∧ o.Named later ∧ merged.Covers o later frame ∧
      merged.Covers o later other ∧ (changed = false → merged = frame) := by
  simp only [merge, Step.outcome_ofOutcome] at h
  split at h
  · cases h
  · rename_i hheight
    have hlength : frame.slots.length = other.slots.length := by
      rw [Frame.length_slots, Frame.length_slots]
      omega
    rcases hslots : mergeSlots c [] false frame.slots other.slots pool with ⟨result, slots, pool'⟩
    rw [hslots] at h
    cases h
    obtain ⟨merged, hmerged, hext, hwell, hold, hnew, hsame⟩ :=
      mergeSlots_covers hc hpool hlength hslots
    simp only [List.reverse_nil, List.nil_append] at hmerged
    subst hmerged
    refine ⟨hext, hwell, .of_slots rfl hold, .of_slots hsize hnew, ?_⟩
    intro hchanged
    rw [(hsame hchanged).2, Frame.withSlots_slots]

/-- Merging a frame that is covered already changes nothing. -/
theorem merge_of_covers (hc : c.Lawful) (hpool : pool.WellNamed) (offset : Nat) {frame other : Frame}
    (h : frame.Covers hc.order pool other) :
    (merge c offset other).outcome ⟨frame, pool⟩ = (.ok false, ⟨frame, pool⟩) := by
  have hheight := h.stack.length_eq
  simp only [merge, Step.outcome_ofOutcome, hheight, ne_eq, not_true_eq_false, if_false,
    mergeSlots_of_covers hc hpool h.slots, List.reverse_nil, List.nil_append, Frame.withSlots_slots]

end Machine

end ClassAssembly
