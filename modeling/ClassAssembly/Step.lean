import ClassAssembly.Error

/-! Steps that may fail. A step that fails keeps what it had already changed, so its outcome is a
result beside a state. -/
namespace ClassAssembly

/-- A change of a state of type `σ` that gives a value or an error. -/
abbrev Step (σ α : Type) := ExceptT Error (StateM σ) α

namespace Step

variable {σ α β : Type}

@[inline] def outcome (step : Step σ α) (s : σ) : Except Error α × σ := ExceptT.run step s

/-- A step given by its outcome. -/
@[inline] def ofOutcome (f : σ → Except Error α × σ) : Step σ α := ExceptT.mk f

/-- A result that touches no state. -/
@[inline] def ofExcept (result : Except Error α) : Step σ α := ofOutcome fun s => (result, s)

@[simp] theorem outcome_ofOutcome (f : σ → Except Error α × σ) (s : σ) :
    (ofOutcome f).outcome s = f s := rfl

@[simp] theorem outcome_ofExcept (result : Except Error α) (s : σ) :
    (ofExcept result : Step σ α).outcome s = (result, s) := rfl

@[simp] theorem outcome_pure (a : α) (s : σ) : (pure a : Step σ α).outcome s = (.ok a, s) := rfl

@[simp] theorem outcome_throw (e : Error) (s : σ) :
    (throw e : Step σ α).outcome s = (.error e, s) := rfl

theorem outcome_bind (step : Step σ α) (next : α → Step σ β) (s : σ) :
    (step >>= next).outcome s =
      match step.outcome s with
      | (.ok a, s') => (next a).outcome s'
      | (.error e, s') => (.error e, s') := by
  simp only [outcome, bind, ExceptT.bind, ExceptT.run, ExceptT.mk, StateT.bind]
  cases h : step s with
  | mk result s' => cases result <;> rfl

end Step
end ClassAssembly
