import StackCode.Proofs.ScopeSeparation

/-! Undefined variables. A run that ends because a variable is undefined ends at an instruction that looks for it in
scopes which do not have it. Variables stay as long as the frames that they belong to, so it has not been bound
before where it would be found: not among the globals at any time, not by the main stream, and not by the call that
looks for it. -/

namespace StackCode

theorem Scopes.holds_eq_false_of_load {scopes : Scopes} {id : SymbolId} (hload : scopes.load id = none)
    (slot : Slot) : scopes.holds slot id = false := by
  unfold load at hload
  split at hload
  · cases hload
  · rename_i hown
    cases slot with
    | own => exact congrArg Option.isSome hown
    | shared => exact congrArg Option.isSome hload

theorem sparesVariables_beginCall (environment : Environment) (depth : Nat) (id : SymbolId) (stack : Stack) :
    SparesVariables (beginCall environment depth id stack) := by
  unfold beginCall
  split
  · trivial
  · split
    · trivial
    · split <;> trivial

theorem sparesVariables_receive (limits : Limits) (value : Option Value) (stack : Stack) :
    SparesVariables (receive limits value stack) := by
  unfold receive
  split
  · trivial
  · split <;> trivial

namespace Machine

variable {environment : Environment} {machine last next : Machine} {id : SymbolId}

/-- Only the instruction that the active frame stands at can find a variable undefined. -/
theorem load_of_undefined {report : Report} {offset : Nat} (hstep : machine.step environment = .finished report)
    (hresult : report.result = .error (.fault offset (.undefinedVariable id))) :
    offset = machine.frame.next ∧ (machine.frame.scopes machine.globals).load id = none := by
  have hadvances := machine.frame.move_advances environment.limits machine.globals machine.console
  rw [step_eq_move] at hstep
  cases hmove : machine.frame.move environment.limits machine.globals machine.console with
  | proceed frame globals console =>
      simp only [hmove] at hstep
      cases hstep
  | call callee caller =>
      simp only [hmove] at hstep
      have hspares := sparesVariables_beginCall environment machine.callers.length callee caller.stack
      split at hstep
      · cases hstep
      · rename_i fault hfault
        cases hstep
        cases hresult
        exact (hspares.of_error hfault).elim
  | leave value =>
      simp only [hmove] at hstep
      cases hcallers : machine.callers with
      | nil =>
          rw [hcallers] at hstep
          cases hstep
          cases hresult
      | cons caller rest =>
          have hspares := sparesVariables_receive environment.limits value caller.stack
          simp only [hcallers, Report.deliver] at hstep
          split at hstep
          · cases hstep
          · rename_i fault hfault
            cases hstep
            cases hresult
            exact (hspares.of_error hfault).elim
  | fail error console =>
      rw [hmove] at hadvances
      simp only [hmove] at hstep
      cases hstep
      cases hresult
      exact hadvances offset _ rfl

/-- The last machine of a run looks for a variable that it does not have and that was never bound where it would look
for it. -/
structure Misses (environment : Environment) (first last : Machine) (id : SymbolId) : Prop where
  unbound : (last.frame.scopes last.globals).load id = none
  globals : ∀ count machine, first.run environment count = .running machine → machine.globals.contains id = false
  /-- What has bound the variable is a call, and another one than that which looks for it. -/
  stored : ∀ count machine next, first.run environment count = .running machine →
    machine.frame.code.decodeAt machine.frame.next = .ok (.store id) → machine.step environment = .running next →
    machine.callers ≠ [] ∧
      (Staying environment machine.callers.length next last → last.callers.length ≠ machine.callers.length)

section Runs

variable {code : Stream} {globals : Scope} {console : Console} {report : Report}

/-- A binding is among the globals, or that of a call. -/
theorem holds_of_store (hdecode : machine.frame.code.decodeAt machine.frame.next = .ok (.store id))
    (hstep : machine.step environment = .running next) :
    next.callers = machine.callers ∧
      (next.globals.contains id = true ∨ machine.frame.locals.isSome = true ∧ next.frame.owns id = true) := by
  obtain ⟨value, -, hcallers, hwritten⟩ := store_of_step hdecode hstep
  refine ⟨hcallers, ?_⟩
  have hholds := (machine.frame.scopes machine.globals).holds_target_store id value
  rw [← hwritten] at hholds
  cases hslot : (machine.frame.scopes machine.globals).target id with
  | own =>
      rw [hslot] at hholds
      exact Or.inr ⟨(Scopes.target_eq_own_iff.mp hslot).2, hholds⟩
  | shared =>
      rw [hslot] at hholds
      exact Or.inl hholds

/-- Whoever misses a variable in the end has never had it. -/
theorem misses_of_load {total : Nat} (hlast : (start code globals console).run environment total = .running last)
    (hend : last.step environment = .finished report)
    (hload : (last.frame.scopes last.globals).load id = none) :
    Misses environment (start code globals console) last id := by
  have hunbound := Scopes.holds_eq_false_of_load hload
  have hglobals : ∀ count machine, (start code globals console).run environment count = .running machine →
      machine.globals.contains id = false := by
    intro count machine hrun
    obtain ⟨more, hmore⟩ := exists_run_to_last hlast hend hrun
    rw [← Bool.not_eq_true]
    intro hcontains
    have hkept : (machine.run environment more).Meets (fun later => later.globals.contains id = true) _ :=
      run_contains_globals more hcontains
    rw [hmore] at hkept
    exact Bool.false_ne_true ((hunbound .shared).symm.trans hkept)
  refine ⟨hload, hglobals, fun count machine next hrun hdecode hstep => ?_⟩
  have hnext := (run_add_one hrun).trans hstep
  obtain ⟨hcallers, hshared | ⟨hlocals, howns⟩⟩ := holds_of_store hdecode hstep
  · exact (Bool.false_ne_true ((hglobals (count + 1) next hnext).symm.trans hshared)).elim
  · refine ⟨(callsNested_of_run hrun).isSome_locals.mp hlocals, fun hstaying hdepth => ?_⟩
    -- the frame that bound the variable is on top again, and still has it
    have howned : OwnedAt machine.callers.length id (next.frame :: next.callers) := by
      rwa [OwnedAt, if_pos (congrArg List.length hcallers)]
    have hstill := hstaying.ownedAt howned
    rw [OwnedAt, if_pos hdepth] at hstill
    exact Bool.false_ne_true ((hunbound .own).symm.trans hstill)

/-- A run that ends because a variable is undefined has missed it at the instruction that the error names. -/
theorem Ends.misses {offset : Nat} (hends : (start code globals console).Ends environment report)
    (hresult : report.result = .error (.fault offset (.undefinedVariable id))) :
    ∃ count last, (start code globals console).run environment count = .running last ∧
      last.step environment = .finished report ∧ offset = last.frame.next ∧
      Misses environment (start code globals console) last id := by
  obtain ⟨count, last, hlast, hend⟩ := hends.exists_last
  obtain ⟨hoffset, hload⟩ := load_of_undefined hend hresult
  exact ⟨count, last, hlast, hend, hoffset, misses_of_load hlast hend hload⟩

end Runs

end Machine
end StackCode
