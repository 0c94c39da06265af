import StackCode.Proofs.Slots

/-! Calls in progress. Every frame but that of the main stream runs a function that the frame below it has
called: the instruction which that frame executed last names it. A variable of the call that is also a global
one is a parameter of the function. -/

namespace StackCode

/-- The frames belong to one stream and have the same variables. -/
def Frame.Alike (frame next : Frame) : Prop := next.code = frame.code ∧ next.locals = frame.locals

/-- The first frame runs the function that the second has called and waits for. -/
def Frame.CalledBy (functions : FunctionTable) (globals : Scope) (callee caller : Frame) : Prop :=
  ∃ id function locals, caller.code.decodeAt caller.current = .ok (.call id) ∧
    functions.get? id = some function ∧ callee.code = function.code ∧ callee.locals = some locals ∧
    ∀ key, locals.contains key = true → globals.contains key = true → key ∈ function.params

/-- The active frame and the frames that wait, each for the one before it. -/
def Nested (functions : FunctionTable) (globals : Scope) : Frame → List Frame → Prop
  | main, [] => main.locals = none
  | callee, caller :: rest => callee.CalledBy functions globals caller ∧ Nested functions globals caller rest

variable {functions : FunctionTable} {globals after : Scope} {frame other : Frame} {callers : List Frame}

/-- A waiting frame stands behind the call that it has made. -/
theorem Frame.decodeAt_behindCall {id : SymbolId} (hdecode : frame.code.decodeAt frame.next = .ok (.call id))
    (below : Stack) :
    (frame.behindCall id below).code.decodeAt (frame.behindCall id below).current = .ok (.call id) :=
  hdecode

namespace Nested

/-- Of the active frame only the stream and the variables matter. -/
theorem of_alike (hnested : Nested functions globals frame callers) (halike : frame.Alike other) :
    Nested functions globals other callers := by
  obtain ⟨hcode, hlocals⟩ := halike
  cases callers with
  | nil => exact hlocals.trans hnested
  | cons caller rest =>
      obtain ⟨⟨id, function, locals, hcall, hfunction, hstream, hown, hparams⟩, hrest⟩ := hnested
      exact ⟨⟨id, function, locals, hcall, hfunction, hcode.trans hstream, hlocals.trans hown, hparams⟩, hrest⟩

/-- Of the globals only their names matter. -/
theorem of_contains (hnested : Nested functions globals frame callers)
    (hglobals : ∀ key, after.contains key = globals.contains key) :
    Nested functions after frame callers := by
  induction callers generalizing frame with
  | nil => exact hnested
  | cons caller rest ih =>
      obtain ⟨⟨id, function, locals, hcall, hfunction, hstream, hown, hparams⟩, hrest⟩ := hnested
      refine ⟨⟨id, function, locals, hcall, hfunction, hstream, hown, ?_⟩, ih hrest⟩
      intro key hlocal hglobal
      rw [hglobals key] at hglobal
      exact hparams key hlocal hglobal

theorem isSome_locals (hnested : Nested functions globals frame callers) :
    frame.locals.isSome = true ↔ callers ≠ [] := by
  cases callers with
  | nil => simp [show frame.locals = none from hnested]
  | cons caller rest =>
      obtain ⟨⟨id, function, locals, -, -, -, hown, -⟩, -⟩ := hnested
      simp [hown]

/-- An instruction of the active frame keeps the calls nested. -/
theorem of_advances {limits : Limits} {instruction : Instruction} {left : Frame}
    (hnested : Nested functions globals frame callers)
    (hadvances : (frame.advance instruction).Advances limits globals left after) :
    Nested functions after left callers := by
  have hchanges := hadvances.scopes
  cases callers with
  | nil =>
      have hnone : frame.locals = none := hnested
      have hleft := hchanges.isSome_locals
      exact Option.isNone_iff_eq_none.mp (by simpa [Frame.scopes, Frame.advance, hnone] using hleft)
  | cons caller rest =>
      have hsome := hnested.isSome_locals.mpr (List.cons_ne_nil _ _)
      have hglobals : ∀ key, after.contains key = globals.contains key := hchanges.holds_shared_eq hsome
      obtain ⟨hcalled, hrest⟩ := hnested.of_contains hglobals
      obtain ⟨id, function, locals, hcall, hfunction, hstream, hown, hparams⟩ := hcalled
      obtain ⟨now, hnow⟩ := Option.isSome_iff_exists.mp (hchanges.isSome_locals.trans hsome)
      refine ⟨⟨id, function, now, hcall, hfunction, hadvances.code.trans hstream, hnow, ?_⟩, hrest⟩
      intro key hlocal hglobal
      refine hparams key ?_ hglobal
      have hleft : (left.scopes after).holds .own key = true := by
        rw [Scopes.holds_own_of_some hnow, hlocal]
      have hshared : (frame.scopes globals).holds .shared key = true := (hglobals key).symm.trans hglobal
      have hbefore : (frame.scopes globals).holds .own key = true :=
        hchanges.holds_own_of_shared hsome hleft hshared
      rwa [Scopes.holds_own_of_some hown] at hbefore

/-- A function that has been entered runs over its caller, and its parameters are its only variables. -/
theorem of_call {id : SymbolId} {function : Function} {arguments : List Value} {below : Stack}
    (hnested : Nested functions globals frame callers)
    (hdecode : frame.code.decodeAt frame.next = .ok (.call id)) (hfunction : functions.get? id = some function)
    (harity : arguments.length = function.arity) :
    Nested functions globals
      (.start function.code (some (.ofList (function.params.zip arguments).reverse)))
      (frame.behindCall id below :: callers) := by
  refine ⟨⟨id, function, _, Frame.decodeAt_behindCall hdecode below, hfunction, rfl, rfl, ?_⟩,
    hnested.of_alike ⟨rfl, rfl⟩⟩
  intro key hlocal _
  rw [Table.contains, Table.get?_ofList_reverse] at hlocal
  exact (Table.isSome_lookup_zip harity key).mp hlocal

/-- A frame with variables of its own runs a function that the frame below it has called. -/
theorem exists_caller (hnested : Nested functions globals frame callers) {position : Nat} {callee : Frame}
    (hcallee : (frame :: callers)[position]? = some callee) (hlocals : callee.locals.isSome = true) :
    ∃ caller, (frame :: callers)[position + 1]? = some caller ∧ callee.CalledBy functions globals caller := by
  induction callers generalizing frame position with
  | nil =>
      obtain rfl := List.mem_singleton.mp (List.mem_of_getElem? hcallee)
      rw [show callee.locals = none from hnested] at hlocals
      cases hlocals
  | cons caller rest ih =>
      cases position with
      | zero =>
          cases hcallee
          exact ⟨caller, rfl, hnested.1⟩
      | succ position =>
          rw [List.getElem?_cons_succ] at hcallee
          exact ih hnested.2 hcallee

end Nested

namespace Machine

/-- The calls of the machine are nested. -/
def CallsNested (functions : FunctionTable) (machine : Machine) : Prop :=
  Nested functions machine.globals machine.frame machine.callers

variable {environment : Environment} {machine next : Machine}

theorem CallsNested.transition (hnested : machine.CallsNested environment.functions)
    (htransition : machine.Transition environment next) : next.CallsNested environment.functions := by
  cases htransition with
  | goesOn hdecode hadvances => exact Nested.of_advances hnested hadvances
  | enters hdecode _ hfunction _ harity _ => exact Nested.of_call hnested hdecode hfunction harity
  | leaves _ hcallers _ =>
      rw [CallsNested, hcallers] at hnested
      exact hnested.2.of_alike ⟨rfl, rfl⟩

theorem callsNested_of_run {count : Nat} {code : Stream} {console : Console} {globals : Scope}
    (hrun : (start code globals console).run environment count = .running machine) :
    machine.CallsNested environment.functions := by
  have hstart : (start code globals console).CallsNested environment.functions := rfl
  exact invariant_of_run (fun _ _ hnested htransition => hnested.transition htransition) hstart hrun

end Machine
end StackCode
