import StackCode.Proofs.ResourceBounds

/-! Reading what was written. Loading looks at the variables of a call before it looks at the globals, binding looks
at the globals first. A run takes no global away and adds none while a call is active, and the only variables that a
call shares with the globals are parameters. So if no call is made with a parameter that is a global, then a variable
never has two slots, and a frame finds what it has bound in the slot where it was put. -/

namespace StackCode

/-- What an instruction does with the variable that it names. -/
inductive Access where
  | load
  | store
  | loadElement (depth : UInt64)
  | storeElement (depth : UInt64)

def Access.instruction (id : SymbolId) : Access → Instruction
  | .load => .load id
  | .store => .store id
  | .loadElement depth => .loadElement id depth
  | .storeElement depth => .storeElement id depth

namespace Scopes

/-- A variable is found in the slot that it would be bound in. -/
structure Resolves (scopes : Scopes) (id : SymbolId) (slot : Slot) : Prop where
  found : scopes.found? id = some slot
  target : scopes.target id = slot

namespace Resolves

variable {scopes : Scopes} {id : SymbolId} {slot : Slot}

theorem of_own (hown : scopes.holds .own id = true) (hshared : scopes.holds .shared id = false) :
    scopes.Resolves id .own :=
  ⟨found?_of_own hown, target_eq_own_iff.mpr ⟨hshared, isSome_locals_of_holds hown⟩⟩

theorem of_shared (hown : scopes.holds .own id = false) (hshared : scopes.holds .shared id = true) :
    scopes.Resolves id .shared :=
  ⟨found?_of_shared_only hown hshared, if_pos hshared⟩

theorem load_eq (hresolves : scopes.Resolves id slot) : scopes.load id = scopes.content slot id := by
  rw [load_eq_content, hresolves.found]
  rfl

theorem store_eq (hresolves : scopes.Resolves id slot) (value : Value) :
    scopes.store id value = scopes.put slot id value := by
  rw [store_eq_put, hresolves.target]

theorem replace_eq (hresolves : scopes.Resolves id slot) (value : Value) :
    scopes.replace id value = scopes.put slot id value := by
  rw [replace_eq_put, hresolves.found]

end Resolves
end Scopes

namespace Frame

/-- Goes on with a value put into a slot. -/
def proceedWith (globals : Scope) (frame : Frame) (slot : Slot) (id : SymbolId) (value : Value) (rest : Stack) :
    Action :=
  let scopes := (frame.scopes globals).put slot id value
  .proceed { frame with stack := rest, locals := scopes.locals } scopes.globals

/-- Executes an access to the variable in the given slot. -/
def access (limits : Limits) (globals : Scope) (frame : Frame) (slot : Slot) (id : SymbolId) :
    Access → Except Fault Action
  | .load => do
    let value ← require id ((frame.scopes globals).content slot id)
    let frame ← frame.push limits value
    .ok (.proceed frame globals)
  | .store => do
    let (value, rest) ← frame.stack.pop
    .ok (frame.proceedWith globals slot id value rest)
  | .loadElement depth => do
    let (path, rest) ← frame.stack.popPath depth.toNat
    let base ← require id ((frame.scopes globals).content slot id)
    let value ← base.read path
    let frame ← frame.pushOn limits rest value
    .ok (.proceed frame globals)
  | .storeElement depth => do
    let (value, rest) ← frame.stack.pop
    let (path, rest) ← Stack.popPath depth.toNat rest
    let base ← require id ((frame.scopes globals).content slot id)
    let updated ← base.write path value
    .ok (frame.proceedWith globals slot id updated rest)

/-- Instructions access a variable in the slot that it resolves to. -/
theorem execute_eq_access {globals : Scope} {frame : Frame} {slot : Slot} {id : SymbolId}
    (hresolves : (frame.scopes globals).Resolves id slot) (limits : Limits) (access : Access) :
    frame.execute limits globals (access.instruction id) = frame.access limits globals slot id access := by
  have hload := hresolves.load_eq
  cases access with
  | load =>
      rw [Frame.access, ← hload]
      rfl
  | store =>
      simp only [Frame.access, proceedWith, ← hresolves.store_eq]
      rfl
  | loadElement depth =>
      rw [Frame.access, ← hload]
      rfl
  | storeElement depth =>
      simp only [Frame.access, proceedWith, ← hload, ← hresolves.replace_eq]
      rfl

end Frame

namespace Frame

section Moves

variable {limits : Limits} {globals : Scope} {frame : Frame} {instruction : Instruction}

theorem move_of_proceed {next : Frame} {after : Scope}
    (hdecode : frame.code.decodeAt frame.next = .ok instruction)
    (hexecute : (frame.advance instruction).execute limits globals instruction = .ok (.proceed next after))
    (console : Console) : frame.move limits globals console = .proceed next after console := by
  have hlt := Stream.lt_size_of_decodeAt hdecode
  rw [move, if_neg (by omega), hdecode]
  simp only [performed, hexecute]

theorem move_of_error {fault : Fault} (hdecode : frame.code.decodeAt frame.next = .ok instruction)
    (hexecute : (frame.advance instruction).execute limits globals instruction = .error fault)
    (console : Console) : frame.move limits globals console = .fail (.fault frame.next fault) console := by
  have hlt := Stream.lt_size_of_decodeAt hdecode
  rw [move, if_neg (by omega), hdecode]
  simp only [performed, hexecute]
  rfl

end Moves

/-- The call of the frame has a variable of that name. -/
def owns (frame : Frame) (key : SymbolId) : Bool := (frame.locals.bind (·.get? key)).isSome

theorem holds_own_eq_owns (frame : Frame) (globals : Scope) (key : SymbolId) :
    (frame.scopes globals).holds .own key = frame.owns key := rfl

theorem owns_eq_contains {frame : Frame} {locals : Scope} (hlocals : frame.locals = some locals) (key : SymbolId) :
    frame.owns key = locals.contains key := by
  rw [owns, hlocals]
  rfl

theorem owns_of_locals_none {frame : Frame} (hlocals : frame.locals = none) (key : SymbolId) :
    frame.owns key = false := by
  rw [owns, hlocals]
  rfl

end Frame

/-- The frame over which so many others wait has a variable of that name. -/
def OwnedAt (depth : Nat) (key : SymbolId) : List Frame → Prop
  | [] => False
  | frame :: waiting => if waiting.length = depth then frame.owns key = true else OwnedAt depth key waiting

namespace OwnedAt

variable {depth : Nat} {key : SymbolId} {frame other : Frame} {waiting : List Frame}

theorem le_length (howned : OwnedAt depth key (frame :: waiting)) : depth ≤ waiting.length := by
  induction waiting generalizing frame with
  | nil =>
      rw [OwnedAt] at howned
      split at howned
      · rename_i hlength
        exact hlength.ge
      · exact howned.elim
  | cons next rest ih =>
      rw [OwnedAt] at howned
      split at howned
      · rename_i hlength
        exact hlength.ge
      · exact (ih howned).trans (Nat.le_succ _)

theorem of_owns (howned : OwnedAt depth key (frame :: waiting))
    (howns : frame.owns key = true → other.owns key = true) : OwnedAt depth key (other :: waiting) := by
  rw [OwnedAt] at howned ⊢
  split
  · rename_i hlength
    rw [if_pos hlength] at howned
    exact howns howned
  · rename_i hlength
    rwa [if_neg hlength] at howned

theorem cons (howned : OwnedAt depth key (frame :: waiting)) : OwnedAt depth key (other :: frame :: waiting) := by
  have hlength : (frame :: waiting).length ≠ depth := by
    have hle := howned.le_length
    rw [List.length_cons]
    omega
  rwa [OwnedAt, if_neg hlength]

theorem tail {next : Frame} (howned : OwnedAt depth key (other :: next :: waiting)) (hdepth : depth ≤ waiting.length) :
    OwnedAt depth key (next :: waiting) := by
  have hlength : (next :: waiting).length ≠ depth := by
    rw [List.length_cons]
    omega
  rwa [OwnedAt, if_neg hlength] at howned

end OwnedAt

namespace Machine

variable {environment : Environment} {machine next first : Machine}

/-- A run from one machine to another during which at least so many frames wait. -/
inductive Staying (environment : Environment) (depth : Nat) (first : Machine) : Machine → Prop where
  | here : Staying environment depth first first
  | step {current next : Machine} (hstaying : Staying environment depth first current)
      (hstep : current.step environment = .running next) (hdeep : depth ≤ next.callers.length) :
      Staying environment depth first next

theorem globals_of_finished {report : Report} (hstep : machine.step environment = .finished report) :
    report.globals = machine.globals := by
  rw [step_eq_move] at hstep
  split at hstep
  · cases hstep
  · split at hstep
    · cases hstep
    · cases hstep
      rfl
  · rename_i value hmove
    cases hcallers : machine.callers with
    | nil =>
        rw [hcallers] at hstep
        cases hstep
        rfl
    | cons caller rest =>
        simp only [hcallers, Report.deliver] at hstep
        split at hstep
        · cases hstep
        · cases hstep
          rfl
  · cases hstep
    rfl

namespace Transition

theorem contains_globals (htransition : machine.Transition environment next) {key : SymbolId}
    (hkey : machine.globals.contains key = true) : next.globals.contains key = true := by
  cases htransition with
  | goesOn hdecode hadvances =>
      exact hadvances.scopes.holds_mono (show Scopes.holds _ .shared key = true from hkey)
  | enters _ _ _ _ _ _ => exact hkey
  | leaves _ _ _ => exact hkey

/-- While a call is active, the global variables stay the same ones. -/
theorem contains_globals_eq (htransition : machine.Transition environment next)
    (hnested : machine.CallsNested environment.functions) (hcallers : machine.callers ≠ []) (key : SymbolId) :
    next.globals.contains key = machine.globals.contains key := by
  cases htransition with
  | goesOn hdecode hadvances =>
      exact hadvances.scopes.holds_shared_eq (hnested.isSome_locals.mpr hcallers) key
  | enters _ _ _ _ _ _ => rfl
  | leaves _ _ _ => rfl

/-- A variable of a call stays until its frame is left. -/
theorem ownedAt (htransition : machine.Transition environment next) {depth : Nat} {key : SymbolId}
    (howned : OwnedAt depth key (machine.frame :: machine.callers)) (hdepth : depth ≤ next.callers.length) :
    OwnedAt depth key (next.frame :: next.callers) := by
  cases htransition with
  | goesOn hdecode hadvances =>
      refine howned.of_owns fun howns => ?_
      exact hadvances.scopes.holds_mono (show Scopes.holds _ .own key = true from howns)
  | @enters id function arguments below _ _ _ _ _ _ =>
      have hbehind : OwnedAt depth key (machine.frame.behindCall id below :: machine.callers) :=
        howned.of_owns fun howns => howns
      exact hbehind.cons
  | leaves _ hcallers _ =>
      rw [hcallers] at howned
      exact (howned.tail hdepth).of_owns fun howns => howns

end Transition

/-- No variable of an active call is also a global one. -/
def Separate (machine : Machine) : Prop :=
  ∀ frame ∈ machine.frame :: machine.callers, ∀ key, frame.owns key = true → machine.globals.contains key = false

theorem Separate.transition (hseparate : machine.Separate) (hnested : machine.CallsNested environment.functions)
    (hfresh : ∀ id function, machine.frame.code.decodeAt machine.frame.next = .ok (.call id) →
      isReserved id = false → environment.functions.get? id = some function →
      ∀ param ∈ function.params, machine.globals.contains param = false)
    (htransition : machine.Transition environment next) : next.Separate := by
  have hafter := htransition.contains_globals_eq hnested
  obtain ⟨hframe, hwaiting⟩ := List.forall_mem_cons.mp hseparate
  cases htransition with
  | @goesOn instruction frame globals console hdecode hadvances =>
      by_cases hcallers : machine.callers = []
      · have hnone : frame.locals = none := by
          have hleft := hnested.of_advances hadvances
          rw [hcallers] at hleft
          exact hleft
        refine List.forall_mem_cons.mpr ⟨fun key howns => ?_, ?_⟩
        · rw [Frame.owns_of_locals_none hnone] at howns
          cases howns
        · simp [hcallers]
      · have hsome : (machine.frame.scopes machine.globals).locals.isSome = true := hnested.isSome_locals.mpr hcallers
        refine List.forall_mem_cons.mpr ⟨fun key howns => ?_, fun other hother key howns => ?_⟩
        · rw [hafter hcallers key, ← Bool.not_eq_true]
          intro hshared
          have hbefore := hadvances.scopes.holds_own_of_shared hsome howns hshared
          rw [hframe key hbefore] at hshared
          cases hshared
        · rw [hafter hcallers key]
          exact hwaiting other hother key howns
  | @enters id function arguments below hdecode hreserved hfunction _ harity _ =>
      refine List.forall_mem_cons.mpr ⟨fun key howns => ?_, List.forall_mem_cons.mpr ⟨hframe, hwaiting⟩⟩
      refine hfresh id function hdecode hreserved hfunction key ?_
      rw [Frame.owns_eq_contains rfl, Table.contains, Table.get?_ofList_reverse] at howns
      exact (Table.isSome_lookup_zip harity key).mp howns
  | @leaves value caller rest stack _ hcallers _ =>
      rw [hcallers] at hwaiting
      obtain ⟨hcaller, hrest⟩ := List.forall_mem_cons.mp hwaiting
      exact List.forall_mem_cons.mpr ⟨hcaller, hrest⟩

/-- Whenever the run makes a call, no parameter of the function is a global variable. -/
def FreshParameters (environment : Environment) (first : Machine) : Prop :=
  ∀ count machine entered id function, first.run environment count = .running machine →
    machine.frame.code.decodeAt machine.frame.next = .ok (.call id) → isReserved id = false →
    environment.functions.get? id = some function → machine.step environment = .running entered →
    ∀ param ∈ function.params, machine.globals.contains param = false

section Runs

variable {count : Nat} {code : Stream} {globals : Scope} {console : Console}

theorem separate_of_run (hfresh : (start code globals console).FreshParameters environment)
    (hrun : (start code globals console).run environment count = .running machine) : machine.Separate := by
  induction count generalizing machine with
  | zero =>
      cases hrun
      intro frame hframe key howns
      rw [List.mem_singleton.mp hframe, Frame.owns_of_locals_none rfl] at howns
      cases howns
  | succ count ih =>
      obtain ⟨last, hlast, hstep⟩ := exists_last_of_running hrun
      refine (ih hlast).transition (callsNested_of_run hlast) ?_ (transition_of_step hstep)
      intro id function hdecode hreserved hfunction
      exact hfresh count last machine id function hlast hdecode hreserved hfunction hstep

/-- The machines that a reachable one goes on to are reachable. -/
theorem Staying.exists_run {depth : Nat} {current : Machine} (hstaying : Staying environment depth machine current)
    (hrun : first.run environment count = .running machine) :
    ∃ later, first.run environment later = .running current := by
  induction hstaying with
  | here => exact ⟨count, hrun⟩
  | step _ hstep _ ih =>
      obtain ⟨later, hlater⟩ := ih
      exact ⟨later + 1, (run_add_one hlater).trans hstep⟩

theorem Staying.contains_globals {depth : Nat} {current : Machine}
    (hstaying : Staying environment depth machine current) {key : SymbolId}
    (hkey : machine.globals.contains key = true) : current.globals.contains key = true := by
  induction hstaying with
  | here => exact hkey
  | step _ hstep _ ih => exact (transition_of_step hstep).contains_globals ih

theorem Staying.ownedAt {depth : Nat} {current : Machine} (hstaying : Staying environment depth machine current)
    {key : SymbolId} (howned : OwnedAt depth key (machine.frame :: machine.callers)) :
    OwnedAt depth key (current.frame :: current.callers) := by
  induction hstaying with
  | here => exact howned
  | step _ hstep hdeep ih => exact (transition_of_step hstep).ownedAt ih hdeep

/-- As long as calls are active, the global variables stay the same ones. -/
theorem Staying.contains_globals_eq {current : Machine} (hstaying : Staying environment 1 machine current)
    (hrun : (start code globals console).run environment count = .running machine) (hcallers : machine.callers ≠ [])
    (key : SymbolId) :
    current.callers ≠ [] ∧ current.globals.contains key = machine.globals.contains key := by
  induction hstaying with
  | here => exact ⟨hcallers, rfl⟩
  | @step current next hstaying hstep hdeep ih =>
      obtain ⟨later, hlater⟩ := hstaying.exists_run hrun
      refine ⟨List.ne_nil_of_length_pos hdeep, ?_⟩
      have hsame := (transition_of_step hstep).contains_globals_eq (callsNested_of_run hlater) ih.1 key
      exact hsame.trans ih.2

end Runs

/-- A global variable stays one, also in the report on the run. -/
theorem run_contains_globals (more : Nat) {key : SymbolId} (hkey : machine.globals.contains key = true) :
    (machine.run environment more).Meets (fun later => later.globals.contains key = true)
      fun report => report.globals.contains key = true := by
  refine run_meets (fun current hcurrent => ?_) more hkey
  cases hstatus : current.step environment with
  | running next => exact (transition_of_step hstatus).contains_globals hcurrent
  | finished report =>
      rw [Status.Meets, globals_of_finished hstatus]
      exact hcurrent

/-- A step that binds a variable takes the value from the stack. -/
theorem store_of_step {id : SymbolId} (hdecode : machine.frame.code.decodeAt machine.frame.next = .ok (.store id))
    (hstep : machine.step environment = .running next) :
    ∃ value, machine.frame.stack = value :: next.frame.stack ∧ next.callers = machine.callers ∧
      next.frame.scopes next.globals = (machine.frame.scopes machine.globals).store id value := by
  obtain ⟨frame, callers, globals, console⟩ := machine
  simp only at hdecode
  have hexecute : (frame.advance (.store id)).execute environment.limits globals (.store id) =
      frame.stack.pop >>= fun popped =>
        .ok (.proceed { frame.advance (.store id) with
          stack := popped.2, locals := ((frame.scopes globals).store id popped.1).locals }
          ((frame.scopes globals).store id popped.1).globals) := rfl
  cases hstack : frame.stack with
  | nil =>
      rw [hstack] at hexecute
      rw [step_of_fail (Frame.move_of_error hdecode hexecute console)] at hstep
      cases hstep
  | cons value rest =>
      rw [hstack] at hexecute
      rw [step_of_proceed (Frame.move_of_proceed hdecode hexecute console)] at hstep
      cases hstep
      exact ⟨value, rfl, rfl, rfl⟩

/-- A step that loads a variable puts its value on the stack if there is room. -/
theorem step_of_load {id : SymbolId} {value : Value}
    (hdecode : machine.frame.code.decodeAt machine.frame.next = .ok (.load id))
    (hload : (machine.frame.scopes machine.globals).load id = some value)
    (hroom : machine.frame.stack.length < environment.limits.stack) :
    ∃ after, machine.step environment = .running after ∧ after.frame.stack = value :: machine.frame.stack := by
  obtain ⟨frame, callers, globals, console⟩ := machine
  simp only at hdecode hload hroom
  have hpush : (frame.advance (.load id)).push environment.limits value =
      .ok { frame.advance (.load id) with stack := value :: frame.stack } := by
    rw [Frame.push, Stack.push, if_pos (show (frame.advance (.load id)).stack.length < _ from hroom)]
    rfl
  have hexecute : (frame.advance (.load id)).execute environment.limits globals (.load id) =
      .ok (.proceed { frame.advance (.load id) with stack := value :: frame.stack } globals) := by
    change (Frame.require id ((frame.scopes globals).load id) >>= fun value =>
      (frame.advance (.load id)).push environment.limits value >>= fun after =>
        .ok (Action.proceed after globals)) = _
    rw [hload]
    change ((frame.advance (.load id)).push environment.limits value >>= _) = _
    rw [hpush]
    rfl
  exact ⟨_, step_of_proceed (Frame.move_of_proceed hdecode hexecute console), rfl⟩

/-- What a frame has bound it finds again. -/
structure ReadsBack (environment : Environment) (machine : Machine) (id : SymbolId) (value : Value) (slot : Slot)
    (next : Machine) : Prop where
  operand : machine.frame.stack = value :: next.frame.stack
  written : next.frame.scopes next.globals = (machine.frame.scopes machine.globals).put slot id value
  /-- Whenever the frame is active again, instructions access the variable in the slot that was written. -/
  later : ∀ current, Staying environment machine.callers.length next current →
    current.callers.length = machine.callers.length →
    (current.frame.scopes current.globals).holds slot id = true ∧
    ∀ access : Access, (current.frame.advance (access.instruction id)).execute environment.limits current.globals
        (access.instruction id) =
      (current.frame.advance (access.instruction id)).access environment.limits current.globals slot id access
  loaded : next.frame.code.decodeAt next.frame.next = .ok (.load id) →
    ∃ after, next.step environment = .running after ∧ after.frame.stack = value :: next.frame.stack

theorem Separate.resolves_own (hseparate : machine.Separate) {id : SymbolId} (howns : machine.frame.owns id = true) :
    (machine.frame.scopes machine.globals).Resolves id .own :=
  .of_own howns (hseparate machine.frame List.mem_cons_self id howns)

theorem Separate.resolves_shared (hseparate : machine.Separate) {id : SymbolId}
    (hglobal : machine.globals.contains id = true) :
    (machine.frame.scopes machine.globals).Resolves id .shared := by
  refine .of_shared ?_ hglobal
  rw [Frame.holds_own_eq_owns, ← Bool.not_eq_true]
  intro howns
  rw [hseparate machine.frame List.mem_cons_self id howns] at hglobal
  cases hglobal

section Bindings

variable {count : Nat} {code : Stream} {globals : Scope} {console : Console} {id : SymbolId} {value : Value}

/-- Whenever a frame that has bound a variable is active again, the variable resolves to the slot that it was bound
in: one of the call is still there, a global one is not hidden. -/
theorem resolves_of_store (hfresh : (start code globals console).FreshParameters environment)
    (hrun : (start code globals console).run environment count = .running next)
    (hcallers : next.callers.length = machine.callers.length)
    (hwritten : next.frame.scopes next.globals = (machine.frame.scopes machine.globals).store id value)
    {current : Machine} (hstaying : Staying environment machine.callers.length next current)
    (hdepth : current.callers.length = machine.callers.length) :
    (current.frame.scopes current.globals).Resolves id ((machine.frame.scopes machine.globals).target id) := by
  obtain ⟨later, hlater⟩ := hstaying.exists_run hrun
  have hseparate := separate_of_run hfresh hlater
  have hholds := (machine.frame.scopes machine.globals).holds_target_store id value
  rw [← hwritten] at hholds
  cases hslot : (machine.frame.scopes machine.globals).target id with
  | own =>
      rw [hslot] at hholds
      have howned : OwnedAt machine.callers.length id (next.frame :: next.callers) := by
        rwa [OwnedAt, if_pos hcallers]
      have hcurrent := hstaying.ownedAt howned
      rw [OwnedAt, if_pos hdepth] at hcurrent
      exact hseparate.resolves_own hcurrent
  | shared =>
      rw [hslot] at hholds
      exact hseparate.resolves_shared (hstaying.contains_globals hholds)

theorem readsBack_of_store (hfresh : (start code globals console).FreshParameters environment)
    (hrun : (start code globals console).run environment count = .running machine)
    (hdecode : machine.frame.code.decodeAt machine.frame.next = .ok (.store id))
    (hstep : machine.step environment = .running next) :
    ∃ value slot, machine.ReadsBack environment id value slot next := by
  obtain ⟨value, hstack, hcallers, hwritten⟩ := store_of_step hdecode hstep
  have hnext := (run_add_one hrun).trans hstep
  have hresolves : ∀ current, Staying environment machine.callers.length next current →
      current.callers.length = machine.callers.length →
      (current.frame.scopes current.globals).Resolves id ((machine.frame.scopes machine.globals).target id) :=
    fun current => resolves_of_store hfresh hnext (congrArg List.length hcallers) hwritten
  rw [Scopes.store_eq_put] at hwritten
  refine ⟨value, (machine.frame.scopes machine.globals).target id, {
    operand := hstack
    written := hwritten
    later := ?_
    loaded := ?_ }⟩
  · intro current hstaying hdepth
    have hcurrent := hresolves current hstaying hdepth
    refine ⟨Scopes.holds_of_found? hcurrent.found, fun access => ?_⟩
    exact Frame.execute_eq_access
      (show ((current.frame.advance _).scopes current.globals).Resolves id _ from hcurrent) _ access
  · intro hload
    refine step_of_load hload ?_ ?_
    · rw [(hresolves next .here (congrArg List.length hcallers)).load_eq, hwritten,
        Scopes.content_put fun hown => (Scopes.target_eq_own_iff.mp hown).2]
      simp
    · have hheight := ((bounded_of_run hrun).frames machine.frame List.mem_cons_self).height
      rw [hstack] at hheight
      exact hheight

end Bindings

end Machine

/-- In every run, global variables stay; they stay the same ones while a call is active; and the variables that an
active call shares with them are parameters of its function. If no call is made with a parameter that is a global,
then every frame finds what it has bound. -/
theorem scopes_separate (program : Program) (limits : Limits) (globals : Scope) (console : Console) {count : Nat}
    {machine : Machine}
    (hrun : (Machine.start program.main globals console).run ⟨program.functions, limits⟩ count = .running machine) :
    (∀ more key, machine.globals.contains key = true →
      (machine.run ⟨program.functions, limits⟩ more).Meets (fun later => later.globals.contains key = true)
        fun report => report.globals.contains key = true) ∧
    (machine.callers ≠ [] → ∀ current, Machine.Staying ⟨program.functions, limits⟩ 1 machine current → ∀ key,
      current.globals.contains key = machine.globals.contains key ∧
      (current.step ⟨program.functions, limits⟩).Meets
        (fun next => next.globals.contains key = machine.globals.contains key)
        fun report => report.globals.contains key = machine.globals.contains key) ∧
    (∀ position callee locals, (machine.frame :: machine.callers)[position]? = some callee →
      callee.locals = some locals →
      ∃ caller id function, (machine.frame :: machine.callers)[position + 1]? = some caller ∧
        caller.code.decodeAt caller.current = .ok (.call id) ∧ program.functions.get? id = some function ∧
        callee.code = function.code ∧
        ∀ key, locals.contains key = true → machine.globals.contains key = true → key ∈ function.params) ∧
    ((Machine.start program.main globals console).FreshParameters ⟨program.functions, limits⟩ →
      ∀ id next, machine.frame.code.decodeAt machine.frame.next = .ok (.store id) →
        machine.step ⟨program.functions, limits⟩ = .running next →
        ∃ value slot, machine.ReadsBack ⟨program.functions, limits⟩ id value slot next) := by
  refine ⟨fun more key hkey => Machine.run_contains_globals more hkey, ?_, ?_, ?_⟩
  · intro hcallers current hstaying key
    obtain ⟨later, hlater⟩ := hstaying.exists_run hrun
    obtain ⟨hactive, hsame⟩ := hstaying.contains_globals_eq hrun hcallers key
    refine ⟨hsame, ?_⟩
    cases hstatus : current.step ⟨program.functions, limits⟩ with
    | running next =>
        have hnested := Machine.callsNested_of_run hlater
        exact ((Machine.transition_of_step hstatus).contains_globals_eq hnested hactive key).trans hsame
    | finished report =>
        rw [Status.Meets, Machine.globals_of_finished hstatus]
        exact hsame
  · intro position callee locals hcallee hlocals
    obtain ⟨caller, hcaller, id, function, own, hcall, hfunction, hstream, hown, hparams⟩ :=
      (Machine.callsNested_of_run hrun).exists_caller hcallee (Option.isSome_of_eq_some hlocals)
    obtain rfl := Option.some.inj (hown.symm.trans hlocals)
    exact ⟨caller, id, function, hcaller, hcall, hfunction, hstream, hparams⟩
  · intro hfresh id next hdecode hstep
    exact Machine.readsBack_of_store hfresh hrun hdecode hstep

/-- The globals of the machine, or those that its run has left. -/
def Status.globals : Status → Scope
  | .running machine => machine.globals
  | .finished report => report.globals

/-- A call that binds and loads a variable of its own and then a global one. -/
def bindsTwice : Program where
  main := .ofInstructions [.pushInt 1, .store 80, .pushInt 5, .call 64, .plain .ret]
  functions := .ofList
    [(64, ⟨[70], .ofInstructions [.pushInt 7, .store 71, .load 71, .store 80, .load 80, .plain .ret]⟩)]

def bindingTwice (locals : Scope) (stack : Stack) (next current : Nat) : Machine where
  frame := ⟨.ofInstructions [.pushInt 7, .store 71, .load 71, .store 80, .load 80, .plain .ret], some locals, stack,
    next, current⟩
  callers := [⟨bindsTwice.main, none, [], 22, 13⟩]
  globals := .ofList [(80, .int 1)]
  console := ⟨[], #[], none⟩

theorem scopes_separate_bindsTwice :
    (Machine.start bindsTwice.main .empty ⟨[], #[], none⟩).run ⟨bindsTwice.functions, .default⟩ 5 =
      .running (bindingTwice (.ofList [(70, .int 5)]) [.int 7] 2 0) ∧
    (Machine.start bindsTwice.main .empty ⟨[], #[], none⟩).FreshParameters ⟨bindsTwice.functions, .default⟩ ∧
    (bindingTwice (.ofList [(70, .int 5)]) [.int 7] 2 0).step ⟨bindsTwice.functions, .default⟩ =
      .running (bindingTwice (.ofList [(70, .int 5), (71, .int 7)]) [] 11 2) ∧
    ∃ value slot, (bindingTwice (.ofList [(70, .int 5)]) [.int 7] 2 0).ReadsBack ⟨bindsTwice.functions, .default⟩ 71
      value slot (bindingTwice (.ofList [(70, .int 5), (71, .int 7)]) [] 11 2) := by
  have hrun : (Machine.start bindsTwice.main .empty ⟨[], #[], none⟩).run ⟨bindsTwice.functions, .default⟩ 5 =
      .running (bindingTwice (.ofList [(70, .int 5)]) [.int 7] 2 0) := by decide +kernel
  have hstep : (bindingTwice (.ofList [(70, .int 5)]) [.int 7] 2 0).step ⟨bindsTwice.functions, .default⟩ =
      .running (bindingTwice (.ofList [(70, .int 5), (71, .int 7)]) [] 11 2) := by decide +kernel
  have hfresh : (Machine.start bindsTwice.main .empty ⟨[], #[], none⟩).FreshParameters
      ⟨bindsTwice.functions, .default⟩ := by
    intro count machine entered id function hreached _ _ hfunction _ param hparam
    have hparams : ∀ entry ∈ bindsTwice.functions.entries, entry.2.params = [70] := by decide
    rw [hparams _ (Table.mem_of_get? hfunction), List.mem_singleton] at hparam
    rw [hparam]
    -- The run is over after eleven steps, before which the parameter is no global.
    have hglobals : ∀ before : Fin 11,
        ((Machine.start bindsTwice.main .empty ⟨[], #[], none⟩).run ⟨bindsTwice.functions, .default⟩
          before).globals.contains 70 = false := by decide +kernel
    have hend : (Machine.start bindsTwice.main .empty ⟨[], #[], none⟩).run ⟨bindsTwice.functions, .default⟩ 11 =
        .finished ⟨.ok (some (.int 7)), .ofList [(80, .int 7)], ⟨[], #[], none⟩⟩ := by decide +kernel
    rcases Nat.lt_or_ge count 11 with hlt | hge
    · have hkey := hglobals ⟨count, hlt⟩
      rw [hreached] at hkey
      exact hkey
    · rw [Machine.run_finished_of_le hend hge] at hreached
      cases hreached
  obtain ⟨-, -, -, hbinds⟩ := scopes_separate bindsTwice .default .empty ⟨[], #[], none⟩ hrun
  exact ⟨hrun, hfresh, hstep, hbinds hfresh 71 _ (by decide +kernel) hstep⟩

end StackCode
