import ClassAssembly.Proofs.FrameOrder

/-! The form that all frames of a method have. Merging keeps it, and so do storing a value and
calling a constructor. -/
namespace ClassAssembly

open List (Forall₂)

/-- Only an object made at one of these sites may still wait for its constructor. -/
def VerificationType.Allowed (Made : UInt16 → Prop) (t : VerificationType) : Prop :=
  ∀ site, t = .uninitialized site → Made site

/-- The form of the frames of a method: so many local variables, no wide value without its second
slot, and only objects made at the sites in `Made` wait for their constructor. -/
structure Frame.Formed (size : Nat) (Made : UInt16 → Prop) (f : Frame) : Prop where
  size_eq : f.locals.size = size
  paired : ∀ i t, f.locals[i]? = some t → width t = 2 → f.locals[i + 1]? = some .top
  made_local : ∀ site, .uninitialized site ∈ f.locals.toList → Made site
  made_stack : ∀ site, .uninitialized site ∈ f.stack → Made site

namespace Frame.Formed

variable {o : ClassOrder} {pool : ConstantPool} {size : Nat} {Made Made' : UInt16 → Prop}
  {f g : Frame} {t : VerificationType}

theorem mono (h : f.Formed size Made) (hmade : ∀ site, Made site → Made' site) :
    f.Formed size Made' :=
  ⟨h.size_eq, h.paired, fun site hsite => hmade site (h.made_local site hsite),
    fun site hsite => hmade site (h.made_stack site hsite)⟩

lemma uninitialized_mem {xs ys : List VerificationType}
    (h : Forall₂ (VerificationType.Covers o pool) xs ys) {site : UInt16}
    (hmem : .uninitialized site ∈ xs) : .uninitialized site ∈ ys := by
  obtain ⟨i, hi⟩ := List.getElem?_of_mem hmem
  obtain ⟨t, ht, hcovers⟩ := exists_of_forall₂ h hi
  rw [hcovers.eq_of_uninitialized] at ht
  exact List.mem_of_getElem? ht

/-- A frame that covers one in proper form is in proper form. -/
theorem of_covers (h : g.Formed size Made) (hfg : f.Covers o pool g) : f.Formed size Made where
  size_eq := hfg.size_eq.trans h.size_eq
  paired i t hi hwide := by
    rw [← Array.getElem?_toList] at hi
    obtain ⟨t', ht', hcovers⟩ := exists_of_forall₂ hfg.locals hi
    obtain rfl := hcovers.eq_of_wide hwide
    rw [Array.getElem?_toList] at ht'
    have hnext := h.paired i t ht' hwide
    have hbound : i + 1 < f.locals.size := by
      rw [hfg.size_eq]
      exact (Array.getElem?_eq_some_iff.mp hnext).1
    have hget : f.locals.toList[i + 1]? = some f.locals[i + 1] := by simp [hbound]
    obtain ⟨s, hs, hcovers'⟩ := exists_of_forall₂ hfg.locals hget
    rw [Array.getElem?_toList, hnext] at hs
    cases hs
    rw [← Array.getElem?_toList, hget, hcovers'.eq_top]
  made_local site hmem := h.made_local site (uninitialized_mem hfg.locals hmem)
  made_stack site hmem := h.made_stack site (uninitialized_mem hfg.stack hmem)

lemma allowed_local (h : f.Formed size Made) {i : Nat} (hi : f.locals[i]? = some t) :
    t.Allowed Made := by
  rintro site rfl
  rw [← Array.getElem?_toList] at hi
  exact h.made_local site (List.mem_of_getElem? hi)

lemma with_stack (h : f.Formed size Made) {stack : List VerificationType}
    (hstack : ∀ t ∈ stack, t.Allowed Made) : Frame.Formed size Made ⟨f.locals, stack⟩ :=
  ⟨h.size_eq, h.paired, h.made_local, fun site hsite => hstack _ hsite site rfl⟩

lemma allowed_stack (h : f.Formed size Made) : ∀ t ∈ f.stack, t.Allowed Made := by
  rintro t ht site rfl
  exact h.made_stack site ht

end Frame.Formed

namespace Frame

lemma width_eq (t : VerificationType) : width t = 1 ∨ width t = 2 := by
  cases t <;> simp [width]

/-- The slots after a type was stored. -/
lemma getElem?_store? {f f' : Frame} {i : Nat} {t : VerificationType} (h : f.store? i t = some f')
    (j : Nat) :
    f'.locals[j]? =
      if j = i then some t
      else if width t = 2 ∧ j = i + 1 then some .top
      else if j + 1 = i ∧ f.locals[j]?.map width = some 2 then some .top
      else f.locals[j]? := by
  unfold store? at h
  split at h
  · cases h
    rename_i hroom
    have hwidth := width_eq t
    grind
  · cases h

lemma stack_store? {f f' : Frame} {i : Nat} {t : VerificationType} (h : f.store? i t = some f') :
    f'.stack = f.stack ∧ f'.locals.size = f.locals.size := by
  unfold store? at h
  split at h
  · cases h
    refine ⟨rfl, ?_⟩
    simp only
    split <;> split <;> simp
  · cases h

lemma Formed.store? {size : Nat} {Made : UInt16 → Prop} {f f' : Frame} {i : Nat}
    {t : VerificationType} (hf : f.Formed size Made) (ht : t.Allowed Made)
    (h : f.store? i t = some f') : f'.Formed size Made where
  size_eq := (stack_store? h).2.trans hf.size_eq
  paired j u hj hwide := by
    have htop : width VerificationType.top = 1 := rfl
    rw [getElem?_store? h] at hj ⊢
    have hpaired := hf.paired j u
    grind
  made_local site hmem := by
    obtain ⟨j, hj⟩ := List.getElem?_of_mem hmem
    rw [Array.getElem?_toList, getElem?_store? h] at hj
    split at hj
    · exact ht site (Option.some.inj hj)
    · split at hj
      · cases hj
      · split at hj
        · cases hj
        · exact hf.allowed_local hj site rfl
  made_stack site hmem := by
    rw [(stack_store? h).1] at hmem
    exact hf.made_stack site hmem

/-- Replacing one narrow type by another keeps the form of a frame. -/
lemma Formed.replace {size : Nat} {Made : UInt16 → Prop} {f : Frame} {old new : VerificationType}
    (hf : f.Formed size Made) (hold : old ≠ .top) (hwidth : width old = width new)
    (hnew : new.Allowed Made) : (f.replace old new).Formed size Made where
  size_eq := by
    simp [Frame.replace, hf.size_eq]
  paired i t hi hwide := by
    simp only [Frame.replace, Array.getElem?_map, Option.map_eq_some_iff] at hi ⊢
    obtain ⟨u, hu, rfl⟩ := hi
    have hu' : width u = 2 := by
      split at hwide
      · rename_i heq
        rw [heq, hwidth, hwide]
      · exact hwide
    exact ⟨.top, hf.paired i u hu hu', if_neg (Ne.symm hold)⟩
  made_local site hmem := by
    simp only [Frame.replace, Array.toList_map, List.mem_map] at hmem
    obtain ⟨u, hu, heq⟩ := hmem
    split at heq
    · exact hnew site heq
    · exact hf.made_local site (heq ▸ hu)
  made_stack site hmem := by
    simp only [Frame.replace, List.mem_map] at hmem
    obtain ⟨u, hu, heq⟩ := hmem
    split at heq
    · exact hnew site heq
    · exact hf.made_stack site (heq ▸ hu)

end Frame
end ClassAssembly
