import Mathlib
import StackCode.Machine.Step

/-! What a computation that may fail promises: which faults it can have, and what holds of its result. -/

namespace StackCode

/-- The computation fails with an allowed fault or has a result with the given property. -/
def Ensures {α : Type} (allowed : Fault → Prop) (property : α → Prop) : Except Fault α → Prop
  | .ok value => property value
  | .error cause => allowed cause

namespace Ensures

variable {α β : Type} {allowed : Fault → Prop} {property : α → Prop} {result : β → Prop}

theorem bind {first : Except Fault α} {next : α → Except Fault β}
    (hfirst : Ensures allowed property first)
    (hnext : ∀ value, property value → Ensures allowed result (next value)) :
    Ensures allowed result (first >>= next) := by
  cases first with
  | ok value => exact hnext value hfirst
  | error cause => exact hfirst

theorem map {first : Except Fault α} {transform : α → β} (hfirst : Ensures allowed property first)
    (hresult : ∀ value, property value → result (transform value)) :
    Ensures allowed result (first.map transform) := by
  cases first with
  | ok value => exact hresult value hfirst
  | error cause => exact hfirst

theorem imp {other : α → Prop} {first : Except Fault α} (hfirst : Ensures allowed property first)
    (hproperty : ∀ value, property value → other value) : Ensures allowed other first := by
  cases first with
  | ok value => exact hproperty value hfirst
  | error cause => exact hfirst

theorem of_ok {first : Except Fault α} {value : α} (hfirst : Ensures allowed property first)
    (hvalue : first = .ok value) : property value := by
  rw [hvalue] at hfirst
  exact hfirst

theorem of_error {first : Except Fault α} {cause : Fault} (hfirst : Ensures allowed property first)
    (hcause : first = .error cause) : allowed cause := by
  rw [hcause] at hfirst
  exact hfirst

end Ensures

/-- Any computation ends in some way. -/
theorem ensures_any {α : Type} (computation : Except Fault α) :
    Ensures (fun _ => True) (fun _ => True) computation := by
  cases computation <;> trivial

end StackCode
