import TunnelView.Note

/-!
# Runs that can be stopped, and guards

`Act W τ α` changes a world and ends with a value or a stop; what was done before a stop stays done.
A guard takes the outcome of foreign code and holds failures back, leaving a note of them.
Interrupts pass every guard.

Key definitions: `Act`, `Act.stop`, `Guard`, `Guard.settle`, `Guard.cleanup`.
-/

namespace TunnelView

/-- A run over a world `W`. -/
def Act (W τ α : Type) : Type := W → Except (Stop τ) α × W

namespace Act

variable {W τ α β γ : Type}

instance : Monad (Act W τ) where
  pure a := fun w => (.ok a, w)
  bind m next := fun w => match m w with
    | (.ok a, w) => next a w
    | (.error stop, w) => (.error stop, w)

/-- Ends the run. -/
def stop (s : Stop τ) : Act W τ α := fun w => (.error s, w)

/-- Ends the run with a failure. -/
def fail (f : Failure τ) : Act W τ α := stop (.failure f)

/-- The world as it is. -/
def world : Act W τ W := fun w => (.ok w, w)

/-- Changes the world. -/
def change (f : W → W) : Act W τ Unit := fun w => (.ok (), f w)

theorem pure_apply (a : α) (w : W) : (pure a : Act W τ α) w = (.ok a, w) := rfl

theorem bind_apply (m : Act W τ α) (next : α → Act W τ β) (w : W) :
    (m >>= next) w = match m w with
      | (.ok a, w) => next a w
      | (.error stop, w) => (.error stop, w) := rfl

theorem bind_assoc (m : Act W τ α) (next : α → Act W τ β) (last : β → Act W τ γ) :
    (m >>= next) >>= last = m >>= fun a => next a >>= last := by
  funext w
  simp only [bind_apply]
  rcases m w with ⟨_ | _, _⟩ <;> rfl

end Act

/-- What is done about a failure. -/
structure Guard where
  message : String := "Error in operation"
  logs : Bool := true
  rethrows : Bool := false

namespace Guard

variable {τ α : Type}

/-- The notes that an outcome leaves, and the outcome behind the guard: a failure gives way to
`instead`, unless the guard throws it again. -/
def settle (guard : Guard) (instead : α) : Except (Stop τ) α → List (Note τ) × Except (Stop τ) α
  | .error (.failure f) =>
    (if guard.logs then [.failed guard.message f] else [],
      if guard.rethrows then .error (.failure f) else .ok instead)
  | outcome => ([], outcome)

/-- The same for a clean-up, whose failures are noted in passing. -/
def cleanup (name : String) : Except (Stop τ) Unit → List (Note τ) × Except (Stop τ) Unit
  | .error (.failure f) => ([.cleanup name f], .ok ())
  | outcome => ([], outcome)

end Guard
end TunnelView
