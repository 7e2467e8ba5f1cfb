import ClassAssembly.Proofs.Interning

/-! How a step ends: in a value and a state, or in an error of some kind. -/
namespace ClassAssembly

namespace Step

variable {σ α β : Type} {Q Q' : α → σ → Prop} {E E' : Error → Prop} {s t : σ}

/-- A function on the value leaves the state alone. -/
lemma outcome_map (f : α → β) (step : Step σ α) (s : σ) :
    (f <$> step).outcome s = ((step.outcome s).1.map f, (step.outcome s).2) := by
  rw [map_eq_pure_bind, outcome_bind]
  rcases step.outcome s with ⟨e | a, t⟩ <;> rfl

lemma bind_eq_error {step : Step σ α} {next : α → Step σ β} {e : Error} :
    (step >>= next).outcome s = (.error e, t) ↔ step.outcome s = (.error e, t) ∨
      ∃ a u, step.outcome s = (.ok a, u) ∧ (next a).outcome u = (.error e, t) := by
  rw [outcome_bind]
  rcases hstep : step.outcome s with ⟨e' | a, u⟩
  · simp
  · constructor
    · intro h
      exact .inr ⟨a, u, rfl, h⟩
    · rintro (h | ⟨_, _, heq, h⟩)
      · cases h
      · cases heq
        exact h

/-- The step gives a value and a state as in `Q`, or fails with an error as in `E`. -/
structure Ends (step : Step σ α) (s : σ) (Q : α → σ → Prop) (E : Error → Prop) : Prop where
  ok : ∀ a t, step.outcome s = (.ok a, t) → Q a t
  error : ∀ e t, step.outcome s = (.error e, t) → E e

namespace Ends

variable {step : Step σ α}

lemma of_ok {a : α} (h : step.outcome s = (.ok a, t)) (ha : Q a t) : step.Ends s Q E where
  ok a' t' h' := by
    rw [h] at h'
    cases h'
    exact ha
  error e' t' h' := by
    rw [h] at h'
    cases h'

lemma of_error {e : Error} (h : step.outcome s = (.error e, t)) (he : E e) : step.Ends s Q E where
  ok a' t' h' := by
    rw [h] at h'
    cases h'
  error e' t' h' := by
    rw [h] at h'
    cases h'
    exact he

theorem mono (h : step.Ends s Q E) (hQ : ∀ a t, Q a t → Q' a t) : step.Ends s Q' E :=
  ⟨fun a t hok => hQ a t (h.ok a t hok), h.error⟩

theorem mono_error (h : step.Ends s Q E) (hE : ∀ e, E e → E' e) : step.Ends s Q E' :=
  ⟨h.ok, fun e t herror => hE e (h.error e t herror)⟩

theorem bind {next : α → Step σ β} {R : β → σ → Prop} (hs : step.Ends s Q E)
    (hn : ∀ a t, Q a t → (next a).Ends t R E) : (step >>= next).Ends s R E := by
  constructor
  · intro b u h
    obtain ⟨a, t, ha, hb⟩ := bind_eq_ok.mp h
    exact (hn a t (hs.ok a t ha)).ok b u hb
  · intro e u h
    rcases bind_eq_error.mp h with h | ⟨a, t, ha, h⟩
    · exact hs.error e u h
    · exact (hn a t (hs.ok a t ha)).error e u h

theorem pure {a : α} (h : Q a s) : (pure a : Step σ α).Ends s Q E := .of_ok rfl h

theorem throw {e : Error} (h : E e) : (throw e : Step σ α).Ends s Q E := .of_error rfl h

/-- A step that first looks at the state. -/
theorem get {next : σ → Step σ α} (h : (next s).Ends s Q E) : (get >>= next).Ends s Q E := by
  have hget : (MonadState.get : Step σ σ).Ends s (fun s' t => s' = s ∧ t = s) E :=
    .of_ok rfl ⟨rfl, rfl⟩
  apply hget.bind
  rintro s' t ⟨rfl, rfl⟩
  exact h

theorem ofExcept_bind {result : Except Error α} {next : α → Step σ β} {R : β → σ → Prop}
    (hok : ∀ a, result = .ok a → (next a).Ends s R E) (herror : ∀ e, result = .error e → E e) :
    (Step.ofExcept result >>= next).Ends s R E := by
  cases result with
  | error e => exact .of_error rfl (herror e rfl)
  | ok a => exact hok a rfl

theorem discarded (hs : step.Ends s Q E) :
    (discard step).Ends s (fun _ t => ∃ a, Q a t) E := by
  rw [discard_eq]
  exact hs.bind fun a t h => .pure ⟨a, h⟩

/-- What each step of a loop keeps is kept by the loop. -/
theorem forM {f : α → Step σ PUnit} {Inv : σ → Prop} (xs : List α)
    (h : ∀ x ∈ xs, ∀ t, Inv t → (f x).Ends t (fun _ u => Inv u) E) (hs : Inv s) :
    (xs.forM f).Ends s (fun _ t => Inv t) E := by
  induction xs generalizing s with
  | nil => exact .pure hs
  | cons x xs ih =>
    rw [List.forM]
    exact (h x (by simp) s hs).bind fun _ t ht => ih (fun y hy => h y (by simp [hy])) ht

end Ends

/-- Whether the step succeeds or not, the state it leaves is as in `Inv` if the one it found was. -/
def Keeps (Inv : σ → Prop) (step : Step σ α) : Prop := ∀ s, Inv s → Inv (step.outcome s).2

namespace Keeps

variable {Inv : σ → Prop} {step : Step σ α}

theorem pure (a : α) : Keeps Inv (pure a) := fun _ h => h

theorem throw (e : Error) : Keeps Inv (throw e : Step σ α) := fun _ h => h

/-- Nothing comes after an error. -/
theorem throw_bind (e : Error) (next : α → Step σ β) :
    Keeps Inv ((MonadExcept.throw e : Step σ α) >>= next) := fun _ h => h

theorem ofExcept (result : Except Error α) : Keeps Inv (ofExcept result) := fun _ h => h

theorem get : Keeps Inv (get : Step σ σ) := fun _ h => h

/-- A step that first looks at the state. -/
theorem get_bind {next : σ → Step σ α} (h : ∀ s, Inv s → Inv ((next s).outcome s).2) :
    Keeps Inv (MonadState.get >>= next) := h

theorem modify {f : σ → σ} (h : ∀ s, Inv s → Inv (f s)) : Keeps Inv (modify f) := h

theorem bind {next : α → Step σ β} (hs : Keeps Inv step) (hn : ∀ a, Keeps Inv (next a)) :
    Keeps Inv (step >>= next) := by
  intro s h
  have hmiddle := hs s h
  rw [outcome_bind]
  rcases hstep : step.outcome s with ⟨e | a, middle⟩
  · rwa [hstep] at hmiddle
  · rw [hstep] at hmiddle
    exact hn a middle hmiddle

theorem map (f : α → β) (hs : Keeps Inv step) : Keeps Inv (f <$> step) := by
  rw [map_eq_pure_bind]
  exact hs.bind fun a => .pure (f a)

end Keeps
end Step

/-- Neither a jump that leads nowhere nor a want of rounds. -/
def Error.Plain : Error → Prop
  | .invalidJumpTarget _ _ | .unsettled => False
  | _ => True

/-- What a single instruction can do wrong if it can be read and its local variables are there. -/
def Error.Ordinary : Error → Prop
  | .invalidJumpTarget _ _ | .unsettled | .unsupportedOpcode _ | .verification _ .invalidIndex => False
  | _ => True

lemma Error.Ordinary.plain {e : Error} (h : e.Ordinary) : e.Plain := by
  cases e <;> trivial

/-- Some constant was refused, for want of room or for its text. -/
def Error.Refusal (e : Error) : Prop := ∃ texts pool, ConstantPool.Refused texts pool e

namespace ConstantPool

lemma Refused.ordinary {texts : List String} {pool : ConstantPool} {e : Error}
    (h : Refused texts pool e) : e.Ordinary := by
  cases h <;> trivial

lemma Refused.refusal {texts : List String} {pool : ConstantPool} {e : Error}
    (h : Refused texts pool e) : e.Refusal := ⟨texts, pool, h⟩


/-- A repeatable step that fails only for want of room or for a text. -/
lemma Repeatable.ends {α : Type} {texts : List String} {step : Step ConstantPool α}
    (hr : Repeatable step) (ha : Adds texts step) (pool : ConstantPool) :
    step.Ends pool (fun a later => step.outcome pool = (.ok a, later) ∧ pool.Extends later ∧
      (pool.WellNamed → later.WellNamed)) Error.Ordinary :=
  ⟨fun _ _ hok => ⟨hok, hr.grows hok⟩, fun _ _ herror => (ha.refused herror).ordinary⟩

end ConstantPool

lemma Error.Refusal.ordinary {e : Error} (h : e.Refusal) : e.Ordinary := by
  obtain ⟨_, _, h⟩ := h
  exact h.ordinary

lemma Error.Refusal.plain {e : Error} (h : e.Refusal) : e.Plain := h.ordinary.plain

end ClassAssembly
