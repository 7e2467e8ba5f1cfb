import ClassAssembly.Step
import Mathlib.Data.List.Forall2
import Mathlib.Tactic.Lemma

/-! How steps that succeeded are taken apart, and what a loop over a list of steps keeps. -/
namespace ClassAssembly

/-- The element at the same place of the second list. -/
theorem exists_of_forall₂ {α β : Type} {R : α → β → Prop} {xs : List α} {ys : List β}
    (h : List.Forall₂ R xs ys) {i : Nat} {x : α} (hx : xs[i]? = some x) :
    ∃ y, ys[i]? = some y ∧ R x y := by
  induction h generalizing i with
  | nil => simp at hx
  | @cons a b _ _ hab _ ih =>
    cases i with
    | zero =>
      cases hx
      exact ⟨b, rfl, hab⟩
    | succ i => exact ih hx

/-- Writing what stands there already. -/
theorem setIfInBounds_self {α : Type} {xs : Array α} {i : Nat} {x : α} (h : xs[i]? = some x) :
    xs.setIfInBounds i x = xs := by
  obtain ⟨hlt, rfl⟩ := Array.getElem?_eq_some_iff.mp h
  simp [Array.setIfInBounds, hlt]

namespace Except

variable {ε α β : Type}

theorem bind_eq_ok {x : Except ε α} {f : α → Except ε β} {b : β} :
    (x >>= f) = .ok b ↔ ∃ a, x = .ok a ∧ f a = .ok b := by
  cases x with
  | error e => simp [bind, Except.bind]
  | ok a => simp [bind, Except.bind]

theorem bind_eq_error {x : Except ε α} {f : α → Except ε β} {e : ε} :
    (x >>= f) = .error e ↔ x = .error e ∨ ∃ a, x = .ok a ∧ f a = .error e := by
  cases x with
  | error e' => simp [bind, Except.bind]
  | ok a => simp [bind, Except.bind]

/-- A loop fails at one of its elements. -/
theorem exists_of_forM_eq_error {f : α → Except ε Unit} {xs : List α} {e : ε}
    (h : xs.forM f = .error e) : ∃ x ∈ xs, f x = .error e := by
  induction xs with
  | nil => cases h
  | cons x xs ih =>
    rw [List.forM] at h
    rcases bind_eq_error.mp h with hx | ⟨_, _, hxs⟩
    · exact ⟨x, List.mem_cons_self, hx⟩
    · obtain ⟨y, hy, hfails⟩ := ih hxs
      exact ⟨y, List.mem_cons_of_mem x hy, hfails⟩

theorem forall_of_forM {f : α → Except ε Unit} {xs : List α} (h : xs.forM f = .ok ()) :
    ∀ x ∈ xs, f x = .ok () := by
  induction xs with
  | nil => simp
  | cons x xs ih =>
    rw [List.forM] at h
    obtain ⟨_, hx, hxs⟩ := bind_eq_ok.mp h
    intro y hy
    rcases List.mem_cons.mp hy with rfl | hy
    · exact hx
    · exact ih hxs y hy

theorem exists_of_mapM_eq_error {f : α → Except ε β} {xs : List α} {e : ε}
    (h : xs.mapM f = .error e) : ∃ x ∈ xs, f x = .error e := by
  induction xs with
  | nil => cases h
  | cons x xs ih =>
    rw [List.mapM_cons] at h
    rcases bind_eq_error.mp h with hx | ⟨_, _, h⟩
    · exact ⟨x, List.mem_cons_self, hx⟩
    · rcases bind_eq_error.mp h with hxs | ⟨_, _, h⟩
      · obtain ⟨y, hy, hfails⟩ := ih hxs
        exact ⟨y, List.mem_cons_of_mem x hy, hfails⟩
      · cases h

theorem forall₂_of_mapM {f : α → Except ε β} {xs : List α} {ys : List β}
    (h : xs.mapM f = .ok ys) : List.Forall₂ (fun x y => f x = .ok y) xs ys := by
  induction xs generalizing ys with
  | nil =>
    cases h
    exact .nil
  | cons x xs ih =>
    rw [List.mapM_cons] at h
    obtain ⟨y, hy, h⟩ := bind_eq_ok.mp h
    obtain ⟨rest, hrest, heq⟩ := bind_eq_ok.mp h
    cases heq
    exact .cons hy (ih hrest)

end Except

namespace Step

variable {σ α β : Type}

@[simp] theorem outcome_get (s : σ) : (get : Step σ σ).outcome s = (.ok s, s) := rfl

@[simp] theorem outcome_set (s t : σ) : (set t : Step σ PUnit).outcome s = (.ok ⟨⟩, t) := rfl

@[simp] theorem outcome_modify (f : σ → σ) (s : σ) :
    (modify f : Step σ PUnit).outcome s = (.ok ⟨⟩, f s) := rfl

theorem ofExcept_eq_ok {result : Except Error α} {s t : σ} {a : α}
    (h : (ofExcept result : Step σ α).outcome s = (.ok a, t)) : s = t ∧ result = .ok a := by
  rw [outcome_ofExcept, Prod.mk.injEq] at h
  exact ⟨h.2, h.1⟩

theorem bind_eq_ok {step : Step σ α} {next : α → Step σ β} {s t : σ} {b : β} :
    (step >>= next).outcome s = (.ok b, t) ↔
      ∃ a u, step.outcome s = (.ok a, u) ∧ (next a).outcome u = (.ok b, t) := by
  rw [outcome_bind]
  rcases h : step.outcome s with ⟨_ | a, u⟩
  · simp
  · constructor
    · intro hnext
      exact ⟨a, u, rfl, hnext⟩
    · rintro ⟨_, _, heq, hnext⟩
      cases heq
      exact hnext

lemma exists_of_map_eq_ok {step : Step σ α} {f : α → β} {s : σ} {b : β}
    (h : (step.outcome s).1.map f = .ok b) : ∃ a t, step.outcome s = (.ok a, t) ∧ f a = b := by
  rcases hstep : step.outcome s with ⟨_ | a, t⟩
  · rw [hstep] at h
    cases h
  · rw [hstep] at h
    cases h
    exact ⟨a, t, rfl, rfl⟩

theorem map_eq_ok {step : Step σ α} {f : α → β} {s t : σ} {b : β} :
    (f <$> step).outcome s = (.ok b, t) ↔ ∃ a, step.outcome s = (.ok a, t) ∧ f a = b := by
  rw [map_eq_pure_bind, bind_eq_ok]
  simp

theorem discard_eq (step : Step σ α) : discard step = step >>= fun _ => pure ⟨⟩ := by
  simp [discard, map_const]

/-- What each step of a loop keeps is kept by the loop, and what each step brings about for its own
element holds in the end if the others keep it. -/
theorem forM_ensures {f : α → Step σ PUnit} (Inv : σ → Prop) (Later : σ → σ → Prop)
    (Done : α → σ → Prop) (hrefl : ∀ s, Later s s)
    (htrans : ∀ s t u, Later s t → Later t u → Later s u)
    (hkeep : ∀ x s t, Later s t → Done x s → Done x t) :
    ∀ (xs : List α)
      (_ : ∀ x ∈ xs, ∀ s t, Inv s → (f x).outcome s = (.ok ⟨⟩, t) →
        Later s t ∧ Inv t ∧ Done x t) (s t : σ),
      Inv s → (xs.forM f).outcome s = (.ok ⟨⟩, t) → Later s t ∧ Inv t ∧ ∀ x ∈ xs, Done x t := by
  intro xs
  induction xs with
  | nil =>
    intro _ s t hs h
    rw [List.forM, outcome_pure] at h
    cases h
    exact ⟨hrefl s, hs, by simp⟩
  | cons x xs ih =>
    intro hstep s t hs h
    rw [List.forM, bind_eq_ok] at h
    obtain ⟨_, u, hx, hxs⟩ := h
    obtain ⟨hsu, hu, hdone⟩ := hstep x (by simp) s u hs hx
    obtain ⟨hut, ht, hall⟩ := ih (fun y hy => hstep y (by simp [hy])) u t hu hxs
    refine ⟨htrans s u t hsu hut, ht, ?_⟩
    intro y hy
    rcases List.mem_cons.mp hy with rfl | hy
    · exact hkeep y u t hut hdone
    · exact hall y hy

/-- A loop whose steps leave the state alone leaves it alone. -/
theorem forM_unchanged {f : α → Step σ PUnit} {s : σ} :
    ∀ xs : List α, (∀ x ∈ xs, (f x).outcome s = (.ok ⟨⟩, s)) →
      (xs.forM f).outcome s = (.ok ⟨⟩, s) := by
  intro xs h
  induction xs with
  | nil => rfl
  | cons x xs ih =>
    rw [List.forM, bind_eq_ok]
    exact ⟨⟨⟩, s, h x (by simp), ih fun y hy => h y (by simp [hy])⟩

end Step
end ClassAssembly
