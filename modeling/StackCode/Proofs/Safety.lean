import StackCode.Proofs.Instructions
import StackCode.Proofs.Typing

/-! Evaluations that are safe for a typing: from variables with values of their types they come to such
variables again, and they have no internal fault but that of a variable that no one has bound yet. -/

namespace StackCode

namespace Typing

/-- The variables of a run that began with the initial ones: bound ones have values of their types, and none
of the initial ones got lost. -/
structure Holds (typing : Typing) (initial : Scope) (scopes : Scopes) : Prop where
  globals : typing.Admits scopes.globals
  locals : ∀ locals ∈ scopes.locals, typing.Admits locals
  kept : ∀ id, (initial.get? id).isSome = true → (scopes.globals.get? id).isSome = true

/-- The only internal fault that a run may have: a variable that it began without. -/
def Allows (typing : Typing) (initial : Scope) (cause : Fault) : Prop :=
  cause.isInternal = true →
    ∃ id, cause = .undefinedVariable id ∧ (typing.types.get? id).isSome = true ∧ initial.get? id = none

section Variables

variable {typing : Typing} {initial scope : Scope} {scopes : Scopes} {id : SymbolId} {value : Value}
  {ty : DataType}

theorem Admits.insert (hscope : typing.Admits scope) (hty : typing.types.get? id = some ty)
    (hvalue : value.Fits ty.shape) : typing.Admits (scope.insert id value) := by
  intro other otherType found hother hfound
  rw [Table.get?_insert] at hfound
  split at hfound
  · rename_i hsame
    rw [hsame, hty] at hother
    cases hother
    cases hfound
    exact hvalue
  · exact hscope other otherType found hother hfound

theorem Holds.insertGlobal (hholds : typing.Holds initial scopes) (hty : typing.types.get? id = some ty)
    (hvalue : value.Fits ty.shape) :
    typing.Holds initial { scopes with globals := scopes.globals.insert id value } where
  globals := hholds.globals.insert hty hvalue
  locals := hholds.locals
  kept other hother := by
    rw [Table.get?_insert]
    split
    · rfl
    · exact hholds.kept other hother

theorem Holds.insertLocal {locals : Scope} (hholds : typing.Holds initial scopes)
    (hlocals : scopes.locals = some locals) (hty : typing.types.get? id = some ty)
    (hvalue : value.Fits ty.shape) :
    typing.Holds initial { scopes with locals := some (locals.insert id value) } where
  globals := hholds.globals
  locals found hfound := by
    cases hfound
    exact (hholds.locals locals hlocals).insert hty hvalue
  kept := hholds.kept

theorem Holds.store (hholds : typing.Holds initial scopes) (hty : typing.types.get? id = some ty)
    (hvalue : value.Fits ty.shape) : typing.Holds initial (scopes.store id value) := by
  unfold Scopes.store
  split
  · exact hholds.insertGlobal hty hvalue
  · split
    · exact hholds.insertLocal ‹_› hty hvalue
    · exact hholds.insertGlobal hty hvalue

theorem Holds.replace (hholds : typing.Holds initial scopes) (hty : typing.types.get? id = some ty)
    (hvalue : value.Fits ty.shape) : typing.Holds initial (scopes.replace id value) := by
  unfold Scopes.replace
  split
  · split
    · exact hholds.insertLocal ‹_› hty hvalue
    · split
      · exact hholds.insertGlobal hty hvalue
      · exact hholds
  · split
    · exact hholds.insertGlobal hty hvalue
    · exact hholds

theorem Holds.load (hholds : typing.Holds initial scopes) (hty : typing.types.get? id = some ty) :
    match scopes.load id with
    | some value => value.Fits ty.shape
    | none => initial.get? id = none := by
  unfold Scopes.load
  cases hlocal : scopes.locals.bind (·.get? id) with
  | some value =>
      obtain ⟨locals, hlocals, hget⟩ := Option.bind_eq_some_iff.mp hlocal
      exact hholds.locals locals hlocals id ty value hty hget
  | none =>
      simp only
      cases hglobal : scopes.globals.get? id with
      | some value => exact hholds.globals id ty value hty hglobal
      | none =>
          by_contra hbound
          have hkept := hholds.kept id (Option.isSome_iff_ne_none.mpr hbound)
          rw [hglobal] at hkept
          cases hkept

end Variables

end Typing

/-- There is a meaning, the value has the property, and the typing is kept to. -/
def Outcome.IsSafe {α : Type} (typing : Typing) (initial : Scope) (property : α → Prop) : Outcome α → Prop
  | .done value state => property value ∧ typing.Holds initial state.scopes
  | .fault cause globals _ => typing.Allows initial cause ∧ typing.Admits globals
  | .undefined => False
  | .exhausted => True

def Safe {α : Type} (typing : Typing) (initial : Scope) (evaluation : Evaluation α) (property : α → Prop) :
    Prop :=
  ∀ state, typing.Holds initial state.scopes → (evaluation.run state).IsSafe typing initial property

namespace Safe

open Evaluation

variable {α β : Type} {typing : Typing} {initial : Scope} {property : α → Prop} {result : β → Prop}

theorem of_pure {value : α} (hvalue : property value) : Safe typing initial (pure value) property :=
  fun _ hholds => ⟨hvalue, hholds⟩

theorem bind {first : Evaluation α} {next : α → Evaluation β} (hfirst : Safe typing initial first property)
    (hnext : ∀ value, property value → Safe typing initial (next value) result) :
    Safe typing initial (first >>= next) result := by
  intro state hholds
  have hone := hfirst state hholds
  rw [run_bind]
  cases houtcome : first.run state with
  | done value after =>
      rw [houtcome] at hone
      exact hnext value hone.1 after hone.2
  | fault cause globals console =>
      rw [houtcome] at hone
      exact hone
  | undefined =>
      rw [houtcome] at hone
      exact hone
  | exhausted => trivial

theorem map {first : Evaluation α} {transform : α → β} (hfirst : Safe typing initial first property)
    (hresult : ∀ value, property value → result (transform value)) :
    Safe typing initial (transform <$> first) result :=
  hfirst.bind fun value hvalue => of_pure (hresult value hvalue)

/-- What a value of the evaluation has beside its property. -/
theorem imp {other : α → Prop} {evaluation : Evaluation α} (hsafe : Safe typing initial evaluation property)
    (hother : ∀ state value after, evaluation.run state = .done value after → property value → other value) :
    Safe typing initial evaluation other := by
  intro state hholds
  have hone := hsafe state hholds
  cases houtcome : evaluation.run state with
  | done value after =>
      rw [houtcome] at hone
      exact ⟨hother state value after houtcome hone.1, hone.2⟩
  | fault cause globals console =>
      rw [houtcome] at hone
      exact hone
  | undefined =>
      rw [houtcome] at hone
      exact hone
  | exhausted => trivial

theorem mono {other : α → Prop} {evaluation : Evaluation α} (hsafe : Safe typing initial evaluation property)
    (hother : ∀ value, property value → other value) : Safe typing initial evaluation other :=
  hsafe.imp fun _ value _ _ => hother value

theorem of_exhausted : Safe typing initial (exhausted : Evaluation α) property := fun _ _ => trivial

theorem of_fail {cause : Fault} (hexternal : cause.External) :
    Safe typing initial (fail cause : Evaluation α) property := by
  refine fun state hholds => ⟨fun hinternal => ?_, hholds.globals⟩
  rw [hexternal] at hinternal
  cases hinternal

theorem of_attempt {computation : Except Fault α} (hensures : Ensures Fault.External property computation) :
    Safe typing initial (attempt computation) property := by
  cases computation with
  | ok value => exact of_pure hensures
  | error cause => exact of_fail hensures

theorem of_keep {property : Value → Prop} {value : Value} (limits : Limits) (pending : Nat)
    (hvalue : property value) : Safe typing initial (keep limits pending value) property := by
  unfold keep
  split
  · exact of_pure hvalue
  · exact of_fail rfl

theorem of_needed {property : Value → Prop} {evaluation : Evaluation (Option Value)}
    (hsafe : Safe typing initial evaluation fun result => ∃ value, result = some value ∧ property value) :
    Safe typing initial evaluation.needed property := by
  refine hsafe.bind fun result hresult => ?_
  obtain ⟨value, rfl, hvalue⟩ := hresult
  exact of_pure hvalue

section Variables

variable {id : SymbolId} {ty : DataType}

theorem load (hty : typing.types.get? id = some ty) :
    Safe typing initial (Evaluation.load id) (·.Fits ty.shape) := by
  intro state hholds
  have hload := hholds.load hty
  rw [run_load]
  cases hfound : state.scopes.load id with
  | some value =>
      rw [hfound] at hload
      exact ⟨hload, hholds⟩
  | none =>
      rw [hfound] at hload
      refine ⟨fun _ => ⟨id, rfl, ?_, hload⟩, hholds.globals⟩
      rw [hty]
      rfl

theorem store {value : Value} (hty : typing.types.get? id = some ty) (hvalue : value.Fits ty.shape) :
    Safe typing initial (Evaluation.store id value) fun _ => True :=
  fun _ hholds => ⟨trivial, hholds.store hty hvalue⟩

theorem storeElement {value : Value} {path : List Value} {shape : Shape}
    (hty : typing.types.get? id = some ty) (hunder : ty.shape.under? path.length = some shape)
    (hpath : ∀ index ∈ path, index.Fits .integer) (hvalue : value.Fits shape) :
    Safe typing initial (Evaluation.storeElement id path value) fun _ => True := by
  refine (load hty).bind fun base hbase => ?_
  refine (of_attempt (hbase.write hunder hpath hvalue)).bind fun updated hupdated => ?_
  exact fun state hholds => ⟨trivial, hholds.replace hty hupdated⟩

end Variables

theorem of_onConsole (action : Console → Except ConsoleFailure α × Console) :
    Safe typing initial (onConsole action) fun _ => True := by
  intro state hholds
  rw [onConsole]
  dsimp only
  rcases action state.console with ⟨failure | value, console⟩
  · exact ⟨fun hinternal => (by cases hinternal), hholds.globals⟩
  · exact ⟨trivial, hholds⟩

/-- A body runs in a scope of its own, and the caller finds its locals as they were. -/
theorem within {locals : Scope} {body : Evaluation α} (hlocals : typing.Admits locals)
    (hbody : Safe typing initial body property) :
    Safe typing initial (Evaluation.within locals body) property := by
  intro state hholds
  have hentered : typing.Holds initial ⟨state.scopes.globals, some locals⟩ := by
    refine ⟨hholds.globals, fun found hfound => ?_, hholds.kept⟩
    cases hfound
    exact hlocals
  have hleft : Safe typing initial (body >>= fun value => (⟨fun after => .done value
      ⟨⟨after.scopes.globals, state.scopes.locals⟩, after.console⟩⟩ : Evaluation α)) property := by
    refine hbody.bind fun value hvalue after hafter => ⟨hvalue, ?_⟩
    exact ⟨hafter.globals, hholds.locals, hafter.kept⟩
  exact hleft ⟨⟨state.scopes.globals, some locals⟩, state.console⟩ hentered

end Safe
end StackCode
