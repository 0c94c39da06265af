import StackCode.Proofs.Dispatcher

/-! The dispatcher agrees with the machine, step by step. Where an instruction fails, the variables on its bench
are those it started with, so that the machine is right to report the globals from before it. -/

namespace StackCode

namespace Table

variable {α : Type}

theorem insertEntry_of_lookup {key : SymbolId} {value : α} {entries : List (SymbolId × α)}
    (hentries : Ascending entries) (hlookup : lookup key entries = some value) :
    insertEntry key value entries = entries := by
  induction entries with
  | nil => cases hlookup
  | cons head rest ih =>
      obtain ⟨hhead, hrest⟩ := List.pairwise_cons.mp hentries
      rw [lookup] at hlookup
      by_cases hkey : key = head.1
      · rw [if_pos hkey] at hlookup
        cases hlookup
        rw [insertEntry, hkey, if_neg (UInt64.lt_irrefl _), if_neg (UInt64.lt_irrefl _)]
      · rw [if_neg hkey] at hlookup
        have hlt : head.1 < key := hhead _ (mem_of_lookup hlookup)
        rw [insertEntry, if_neg (UInt64.lt_asymm hlt), if_pos hlt, ih hrest hlookup]

/-- To bind a key to what it is bound to changes nothing. -/
theorem insert_of_get? {table : Table α} {key : SymbolId} {value : α} (hget : table.get? key = some value) :
    table.insert key value = table := by
  obtain ⟨entries, hentries⟩ := table
  simp only [insert, insertEntry_of_lookup hentries hget]

end Table

namespace Scopes

theorem put_of_content {scopes : Scopes} {slot : Slot} {id : SymbolId} {value : Value}
    (hcontent : scopes.content slot id = some value) : scopes.put slot id value = scopes := by
  obtain ⟨globals, locals⟩ := scopes
  cases slot with
  | shared => simp only [put, Table.insert_of_get? hcontent]
  | own =>
      cases locals with
      | none => rfl
      | some locals => simp only [put, Option.map_some, Table.insert_of_get? hcontent]

/-- To overwrite a variable with its own value changes nothing. -/
theorem replace_of_load {scopes : Scopes} {id : SymbolId} {value : Value}
    (hload : scopes.load id = some value) : scopes.replace id value = scopes := by
  rw [load_eq_content] at hload
  rw [replace_eq_put]
  cases hfound : scopes.found? id with
  | none => rfl
  | some slot =>
      rw [hfound] at hload
      exact put_of_content hload

end Scopes

namespace Bench

/-- The frame whose strand and variables are on the bench. -/
def frame (bench : Bench) : Frame :=
  ⟨bench.strand.code, bench.scopes.locals, bench.strand.stack, bench.strand.next, bench.strand.current⟩

theorem bind_of_ok {α β : Type} {work : Work α} {next : α → Work β} {bench after : Bench} {value : α}
    (hwork : work bench = .ok value after) : (work >>= next) bench = next value after := by
  simp only [bind, EStateM.bind, hwork]

theorem bind_of_error {α β : Type} {work : Work α} {next : α → Work β} {bench after : Bench} {fault : Fault}
    (hwork : work bench = .error fault after) : (work >>= next) bench = .error fault after := by
  simp only [bind, EStateM.bind, hwork]

/-- Work on a bench does what a move of its frame tells, and spares the variables where it fails. -/
inductive Agrees (bench : Bench) : EStateM.Result Fault Bench Request → Move → Prop where
  | goOn (after : Bench) :
      Agrees bench (.ok .goOn after) (.proceed after.frame after.scopes.globals after.console)
  | call (id : SymbolId) : Agrees bench (.ok (.call id) bench) (.call id bench.frame)
  | leave (value : Option Value) (stack : Stack) :
      Agrees bench (.ok (.leave value) (bench.on stack)) (.leave value)
  | fail (fault : Fault) (stack : Stack) (console : Console) :
      Agrees bench (.error fault { bench.on stack with console })
        (.fail (.fault bench.strand.current fault) console)

/-- The move that a frame makes once its instruction is executed. -/
def complete (limits : Limits) (bench : Bench) : Except Fault Action → Move
  | .error fault => .fail (.fault bench.strand.current fault) bench.console
  | .ok (.proceed frame globals) => .proceed frame globals bench.console
  | .ok (.leave value) => .leave value
  | .ok (.call id frame) => .call id frame
  | .ok (.builtin function frame) =>
    match function.perform limits frame.stack bench.console with
    | (.ok stack, console) => .proceed { frame with stack } bench.scopes.globals console
    | (.error fault, console) => .fail (.fault frame.current fault) console

theorem performed_eq_complete (limits : Limits) (bench : Bench) (instruction : Instruction) :
    bench.frame.performed limits bench.scopes.globals bench.console instruction =
      bench.complete limits (bench.frame.execute limits bench.scopes.globals instruction) := by
  unfold Frame.performed
  rcases bench.frame.execute limits bench.scopes.globals instruction with
    fault | ⟨frame, globals⟩ | ⟨function, frame⟩ | ⟨id, frame⟩ | value <;> rfl

/-- Work that starts with the given operands does what an action of the frame asks for. -/
def Follows (limits : Limits) (bench : Bench) (stack : Stack) (work : Work Request)
    (action : Except Fault Action) : Prop :=
  bench.Agrees (work (bench.on stack)) (bench.complete limits action)

namespace Follows

variable {α : Type} {limits : Limits} {bench : Bench} {stack : Stack}

theorem attempt {computation : Except Fault α} {work : α → Work Request} {next : α → Except Fault Action}
    (hnext : ∀ value, bench.Follows limits stack (work value) (next value)) :
    bench.Follows limits stack (Bench.attempt computation >>= work) (computation >>= next) := by
  cases computation with
  | error fault => exact .fail fault stack bench.console
  | ok value => exact hnext value

theorem take {operands : Stack → Except Fault (α × Stack)} {work : α → Work Request}
    {next : α × Stack → Except Fault Action}
    (hnext : ∀ value rest, bench.Follows limits rest (work value) (next (value, rest))) :
    bench.Follows limits stack (Bench.take operands >>= work) (operands stack >>= next) := by
  unfold Follows
  rcases htaken : operands stack with fault | ⟨value, rest⟩
  · rw [bind_of_error (show Bench.take operands (bench.on stack) = .error fault (bench.on stack) by
      simp only [Bench.take, on, htaken])]
    exact .fail fault stack bench.console
  · rw [bind_of_ok (show Bench.take operands (bench.on stack) = .ok value (bench.on rest) by
      simp only [Bench.take, on, htaken])]
    exact hnext value rest

/-- The last thing that most instructions do is to put their result on the stack. -/
theorem push (value : Value) :
    bench.Follows limits stack (Bench.push limits value >>= fun _ => pure .goOn)
      (bench.frame.pushOn limits stack value >>= fun frame => .ok (.proceed frame bench.scopes.globals)) := by
  unfold Follows
  rcases hpush : stack.push limits value with fault | pushed
  · rw [bind_of_error (show Bench.push limits value (bench.on stack) = .error fault (bench.on stack) by
      simp only [Bench.push, on, hpush])]
    simp only [Frame.pushOn, Frame.push, hpush]
    exact .fail fault stack bench.console
  · rw [bind_of_ok (show Bench.push limits value (bench.on stack) = .ok () (bench.on pushed) by
      simp only [Bench.push, on, hpush])]
    simp only [Frame.pushOn, Frame.push, hpush]
    exact .goOn (bench.on pushed)

theorem load {id : SymbolId} {work : Value → Work Request} {next : Value → Except Fault Action}
    (hnext : ∀ value, bench.Follows limits stack (work value) (next value)) :
    bench.Follows limits stack (Bench.load id >>= work)
      (Frame.require id ((bench.frame.scopes bench.scopes.globals).load id) >>= next) :=
  (attempt hnext : bench.Follows limits stack
    (Bench.attempt (Frame.require id (bench.scopes.load id)) >>= work) _)

/-- An element that cannot be overwritten leaves its variable as it was. -/
theorem overwrite (id : SymbolId) (path : List Value) (value : Value) :
    bench.Follows limits stack (Bench.overwrite id path value >>= fun _ => pure .goOn)
      (Frame.require id ((bench.frame.scopes bench.scopes.globals).load id) >>= fun base =>
        base.write path value >>= fun updated =>
          let scopes := (bench.frame.scopes bench.scopes.globals).replace id updated
          .ok (.proceed { bench.frame with stack, locals := scopes.locals } scopes.globals)) := by
  have hscopes : bench.frame.scopes bench.scopes.globals = bench.scopes := rfl
  rw [hscopes]
  unfold Follows
  cases hload : bench.scopes.load id with
  | none =>
      rw [bind_of_error (show Bench.overwrite id path value (bench.on stack) =
        .error (.undefinedVariable id) (bench.on stack) by simp only [Bench.overwrite, on, hload])]
      exact .fail (.undefinedVariable id) stack bench.console
  | some base =>
      have hleft := base.overwrite_eq_write path value
      cases hwrite : base.write path value with
      | error fault =>
          rw [hwrite] at hleft
          rw [bind_of_error (show Bench.overwrite id path value (bench.on stack) = .error fault (bench.on stack) by
            simp only [Bench.overwrite, on, hload, hleft, Scopes.replace_of_load hload, Bench.attempt])]
          simp only [Frame.require, bind, Except.bind, hwrite]
          exact .fail fault stack bench.console
      | ok updated =>
          rw [hwrite] at hleft
          rw [bind_of_ok (show Bench.overwrite id path value (bench.on stack) =
            .ok () { bench.on stack with scopes := bench.scopes.replace id updated } by
              simp only [Bench.overwrite, on, hload, hleft, Bench.attempt])]
          simp only [Frame.require, bind, Except.bind, hwrite]
          exact .goOn { bench.on stack with scopes := bench.scopes.replace id updated }

theorem forward (distance : UInt64) :
    bench.Follows limits stack (Bench.forward distance >>= fun _ => pure .goOn)
      ({ bench.frame with stack }.jumpForward distance >>= fun frame =>
        .ok (.proceed frame bench.scopes.globals)) := by
  unfold Follows
  by_cases htarget : bench.strand.next + distance.toNat ≤ bench.strand.code.size
  · rw [bind_of_ok (show Bench.forward distance (bench.on stack) =
      Bench.jumpTo (bench.strand.next + distance.toNat) (bench.on stack) from if_pos htarget),
      Frame.jumpForward_of_le htarget]
    exact .goOn _
  · have hjump : Frame.jumpForward { bench.frame with stack } distance = .error .jumpOutOfBounds := if_neg htarget
    rw [bind_of_error (show Bench.forward distance (bench.on stack) = .error .jumpOutOfBounds (bench.on stack)
      from if_neg htarget), hjump]
    exact .fail .jumpOutOfBounds stack bench.console

theorem backward (distance : UInt64) :
    bench.Follows limits stack (Bench.backward distance >>= fun _ => pure .goOn)
      ({ bench.frame with stack }.jumpBackward distance >>= fun frame =>
        .ok (.proceed frame bench.scopes.globals)) := by
  unfold Follows
  by_cases htarget : distance.toNat ≤ bench.strand.next
  · rw [bind_of_ok (show Bench.backward distance (bench.on stack) =
      Bench.jumpTo (bench.strand.next - distance.toNat) (bench.on stack) from if_pos htarget),
      Frame.jumpBackward_of_le htarget]
    exact .goOn _
  · have hjump : Frame.jumpBackward { bench.frame with stack } distance = .error .jumpOutOfBounds := if_neg htarget
    rw [bind_of_error (show Bench.backward distance (bench.on stack) = .error .jumpOutOfBounds (bench.on stack)
      from if_neg htarget), hjump]
    exact .fail .jumpOutOfBounds stack bench.console

end Follows

/-- A built-in function reads or prints before it can fail for want of room. -/
theorem callBuiltin_agrees (limits : Limits) (bench : Bench) (function : Builtin) :
    bench.Agrees ((callBuiltin limits function >>= fun _ => pure .goOn) bench)
      (bench.complete limits (.ok (.builtin function bench.frame))) := by
  obtain ⟨⟨code, stack, next, current⟩, scopes, console⟩ := bench
  cases function with
  | input =>
      rcases hline : console.readLine with ⟨failure | line, after⟩
      · simp only [callBuiltin, bind, EStateM.bind, readLine, complete, Builtin.perform, hline]
        exact .fail _ stack after
      · simp only [callBuiltin, bind, EStateM.bind, readLine, complete, Builtin.perform, hline, push, frame]
        rcases hpush : stack.push limits (.str line) with fault | pushed
        · exact .fail fault stack after
        · exact .goOn ⟨⟨code, pushed, next, current⟩, scopes, after⟩
  | print form =>
      cases stack with
      | nil => exact .fail .stackUnderflow [] console
      | cons value rest =>
          simp only [callBuiltin, bind, EStateM.bind, take, Stack.pop, complete, Builtin.perform, frame, attempt]
          rcases form.text value with fault | text
          · exact .fail fault rest console
          · simp only [print, on]
            rcases console.write text with ⟨failure | _, after⟩
            · exact .fail _ rest after
            · exact .goOn ⟨⟨code, rest, next, current⟩, scopes, after⟩
  | convert conversion =>
      cases stack with
      | nil => exact .fail .stackUnderflow [] console
      | cons value rest =>
          simp only [callBuiltin, bind, EStateM.bind, take, Stack.pop, complete, Builtin.perform, frame, attempt]
          rcases conversion.apply value with fault | result
          · exact .fail fault rest console
          · simp only [push, on]
            rcases Stack.push limits result rest with fault | pushed
            · exact .fail fault rest console
            · exact .goOn ⟨⟨code, pushed, next, current⟩, scopes, console⟩

theorem instruct_follows (limits : Limits) (bench : Bench) (instruction : Instruction) :
    bench.Follows limits bench.strand.stack (instruct limits instruction)
      (bench.frame.execute limits bench.scopes.globals instruction) := by
  obtain ⟨opcode, operand⟩ := instruction
  cases opcode with
  | pushInt | pushUInt | pushSingle | pushDouble => exact .attempt fun value => .push value
  | operate operation => exact .take fun result rest => .push result
  | load => exact .attempt fun id => .load fun value => .push value
  | store => exact .attempt fun id => .take fun value rest => .goOn _
  | loadElement =>
      exact .attempt fun place => .take fun path rest => .load fun base => .attempt fun value => .push value
  | storeElement =>
      exact .attempt fun place => .take fun value rest => .take fun path below => .overwrite place.1 path value
  | allocString => exact .attempt fun count => .take fun codes rest => .attempt fun chars => .push _
  | allocArray => exact .attempt fun count => .take fun items rest => .push _
  | allocFilled =>
      exact .attempt fun fill => .take fun sizes rest => .attempt fun shape => .attempt fun _ => .push _
  | jump => exact .attempt fun distance => .forward distance
  | jumpBackward => exact .attempt fun distance => .backward distance
  | jumpIfFalse =>
      refine .attempt fun distance => .take fun cond rest => ?_
      simp only
      rcases cond.truth? with _ | (_ | _)
      · exact .fail _ rest bench.console
      · exact .forward distance
      · exact .goOn (bench.on rest)
  | call =>
      refine .attempt fun id => ?_
      cases isReserved id with
      | false => exact .call id
      | true =>
          cases Builtin.ofId? id with
          | none => exact .fail _ bench.strand.stack bench.console
          | some function => exact bench.callBuiltin_agrees limits function
  | ret => exact .leave _ _
  | pop => exact .take fun value rest => .goOn (bench.on rest)

theorem bindArguments_eq (params : List SymbolId) (scope : Scope) (bench : Bench) :
    bindArguments params scope bench =
      if bench.strand.stack.length < params.length then .error .stackUnderflow (bench.on [])
      else .ok ((params.zip bench.strand.stack).foldl (fun scope binding => scope.insert binding.1 binding.2) scope)
        (bench.on (bench.strand.stack.drop params.length)) := by
  obtain ⟨⟨code, stack, next, current⟩, scopes, console⟩ := bench
  induction params generalizing stack scope with
  | nil => rfl
  | cons param rest ih =>
      cases stack with
      | nil => rfl
      | cons value below =>
          change bindArguments rest (scope.insert param value) ⟨⟨code, below, next, current⟩, scopes, console⟩ = _
          rw [ih]
          simp [on]

/-- A call begins in place as it does apart; where it fails, only operands are gone. -/
theorem enter_eq_beginCall (environment : Environment) (depth : Nat) (id : SymbolId) (bench : Bench) :
    (∃ code locals stack,
      beginCall environment depth id bench.frame.stack = .ok (.start code (some locals), stack) ∧
      enter environment depth id bench = .ok (code, locals) (bench.on stack)) ∨
    ∃ fault stack, beginCall environment depth id bench.frame.stack = .error fault ∧
      enter environment depth id bench = .error fault (bench.on stack) := by
  rw [show bench.frame.stack = bench.strand.stack from rfl]
  unfold beginCall enter
  cases environment.functions.get? id with
  | none => exact Or.inr ⟨_, bench.strand.stack, rfl, rfl⟩
  | some function =>
      by_cases hdepth : environment.limits.calls ≤ depth
      · simp only [if_pos hdepth]
        exact Or.inr ⟨_, bench.strand.stack, rfl, rfl⟩
      · simp only [if_neg hdepth]
        rw [Function.arity]
        by_cases harity : bench.strand.stack.length < function.params.length
        · rw [if_pos harity]
          refine Or.inr ⟨_, [], rfl, bind_of_error ?_⟩
          rw [bindArguments_eq, List.length_reverse, if_pos harity]
        · rw [if_neg harity]
          refine Or.inl ⟨_, _, _, rfl, bind_of_ok ?_⟩
          rw [bindArguments_eq, List.length_reverse, if_neg harity]
          rfl

def advance (bench : Bench) (instruction : Instruction) : Bench :=
  { bench with strand := bench.strand.advance instruction }

/-- What dispatching on a bench comes to, and the move of its frame. -/
inductive Dispatched (bench : Bench) : Except RuntimeError Request × Bench → Move → Prop where
  | goOn (after : Bench) :
      Dispatched bench (.ok .goOn, after) (.proceed after.frame after.scopes.globals after.console)
  | call {instruction : Instruction} (hdecode : bench.strand.code.decodeAt bench.strand.next = .ok instruction)
      (id : SymbolId) :
      Dispatched bench (.ok (.call id), bench.advance instruction) (.call id (bench.advance instruction).frame)
  | leave (value : Option Value) (strand : Strand) :
      Dispatched bench (.ok (.leave value), { bench with strand }) (.leave value)
  | fail {instruction : Instruction} (hdecode : bench.strand.code.decodeAt bench.strand.next = .ok instruction)
      (fault : Fault) (stack : Stack) (console : Console) :
      Dispatched bench
        (.error (.fault bench.strand.next fault), { (bench.advance instruction).on stack with console })
        (.fail (.fault bench.strand.next fault) console)
  | malformed (error : DecodeError) :
      Dispatched bench (.error (.malformed error), bench) (.fail (.malformed error) bench.console)

theorem dispatch_of_decodeAt {limits : Limits} {bench : Bench} {instruction : Instruction}
    (hdecode : bench.strand.code.decodeAt bench.strand.next = .ok instruction) :
    Dispatcher.dispatch limits bench =
      match instruct limits instruction (bench.advance instruction) with
      | .ok request after => (.ok request, after)
      | .error fault after => (.error (.fault after.strand.current fault), after) := by
  rw [Dispatcher.dispatch, if_pos (Stream.lt_size_of_decodeAt hdecode), hdecode]
  rfl

theorem dispatch_dispatched (limits : Limits) (bench : Bench) :
    bench.Dispatched (Dispatcher.dispatch limits bench)
      (bench.frame.move limits bench.scopes.globals bench.console) := by
  by_cases hend : bench.strand.code.size ≤ bench.strand.next
  · rw [Dispatcher.dispatch, if_neg (Nat.not_lt.mpr hend), Frame.move,
      if_pos (show bench.frame.code.size ≤ bench.frame.next from hend)]
    exact .leave none bench.strand
  · rw [Frame.move, if_neg (show ¬ bench.frame.code.size ≤ bench.frame.next from hend),
      show bench.frame.code.decodeAt bench.frame.next = bench.strand.code.decodeAt bench.strand.next from rfl]
    rcases hdecode : bench.strand.code.decodeAt bench.strand.next with error | instruction
    · rw [Dispatcher.dispatch, if_pos (Nat.not_le.mp hend), hdecode]
      exact .malformed error
    · have hfollows : (bench.advance instruction).Agrees (instruct limits instruction (bench.advance instruction)) _ :=
        (bench.advance instruction).instruct_follows limits instruction
      rw [← performed_eq_complete] at hfollows
      rw [dispatch_of_decodeAt hdecode]
      change bench.Dispatched _ ((bench.advance instruction).frame.performed limits
        (bench.advance instruction).scopes.globals (bench.advance instruction).console instruction)
      revert hfollows
      generalize instruct limits instruction (bench.advance instruction) = result
      generalize (bench.advance instruction).frame.performed limits (bench.advance instruction).scopes.globals
        (bench.advance instruction).console instruction = move
      intro hfollows
      cases hfollows with
      | goOn after => exact .goOn after
      | call id => exact .call hdecode id
      | leave value stack => exact .leave value _
      | fail fault stack console => exact .fail hdecode fault stack console

end Bench

/-- The strand of a frame, without its variables. -/
def Frame.strand (frame : Frame) : Strand := ⟨frame.code, frame.stack, frame.next, frame.current⟩

/-- The variables of the calls among some frames. -/
def localScopes (frames : List Frame) : List Scope := frames.filterMap Frame.locals

theorem localScopes_cons (frame : Frame) (callers : List Frame) :
    localScopes (frame :: callers) = frame.locals.toList ++ localScopes callers := by
  rw [localScopes, List.filterMap_cons]
  cases frame.locals <;> rfl

namespace Nested

variable {functions : FunctionTable} {globals : Scope} {frame : Frame} {callers : List Frame}

/-- There are as many scopes as there are calls. -/
theorem length_localScopes (hnested : Nested functions globals frame callers) :
    (localScopes (frame :: callers)).length = callers.length := by
  induction callers generalizing frame with
  | nil =>
      rw [localScopes_cons, show frame.locals = none from hnested]
      rfl
  | cons caller rest ih =>
      obtain ⟨⟨id, function, locals, -, -, -, hown, -⟩, hrest⟩ := hnested
      rw [localScopes_cons, hown, List.length_append, ih hrest, List.length_cons, Nat.add_comm]
      rfl

theorem localScopes_of_locals_none (hnested : Nested functions globals frame callers) (hnone : frame.locals = none) :
    localScopes callers = [] := by
  cases callers with
  | nil => rfl
  | cons caller rest =>
      have hsome := hnested.isSome_locals.mpr (List.cons_ne_nil caller rest)
      rw [hnone] at hsome
      cases hsome

/-- The scope on top is that of the active frame, if it is a call. -/
theorem head?_localScopes (hnested : Nested functions globals frame callers) :
    (localScopes (frame :: callers)).head? = frame.locals := by
  rw [localScopes_cons]
  cases hlocals : frame.locals with
  | none => rw [hnested.localScopes_of_locals_none hlocals]; rfl
  | some locals => rfl

theorem tail_localScopes (hnested : Nested functions globals frame callers) :
    (localScopes (frame :: callers)).tail = localScopes callers := by
  rw [localScopes_cons]
  cases hlocals : frame.locals with
  | none => rw [hnested.localScopes_of_locals_none hlocals]; rfl
  | some locals => rfl

end Nested

/-- The machine with its variables on a stack of their own. -/
def Machine.dispatcher (machine : Machine) : Dispatcher where
  strands := (machine.frame :: machine.callers).map Frame.strand
  scopes := localScopes (machine.frame :: machine.callers)
  globals := machine.globals
  console := machine.console

/-- What the active frame works on. -/
def Machine.bench (machine : Machine) : Bench :=
  ⟨machine.frame.strand, machine.frame.scopes machine.globals, machine.console⟩

/-- The dispatcher with a bench in place of the active frame. -/
def Machine.resume (machine : Machine) (bench : Bench) : Dispatcher :=
  Dispatcher.resume bench (machine.callers.map Frame.strand) (localScopes machine.callers)

namespace Dispatcher

/-- The dispatcher has come to the state of the machine, or to its report. -/
def Outcome.Agrees : Outcome → Status → Prop
  | .going state, .running machine => state = machine.dispatcher
  | .returned value left, .finished report => report = ⟨.ok value, left.globals, left.console⟩
  | .failed error left, .finished report => report = ⟨.error error, left.globals, left.console⟩
  | _, _ => False

variable {environment : Environment}

/-- A step of the dispatcher, with the two stacks told by the frames. -/
theorem step_dispatcher (machine : Machine) (hnested : machine.CallsNested environment.functions) :
    machine.dispatcher.step environment =
      match dispatch environment.limits machine.bench with
      | (.error error, bench) => .failed error (machine.resume bench)
      | (.ok .goOn, bench) => .going (machine.resume bench)
      | (.ok (.leave value), bench) =>
        (machine.resume bench).leave environment.limits machine.callers.length value
      | (.ok (.call id), bench) =>
        match Bench.enter environment machine.callers.length id bench with
        | .error fault bench => .failed (.fault bench.strand.current fault) (machine.resume bench)
        | .ok (code, locals) bench =>
          let caller := machine.resume bench
          .going { caller with strands := .start code :: caller.strands, scopes := locals :: caller.scopes } := by
  simp only [step, Machine.dispatcher, List.map_cons, hnested.head?_localScopes, hnested.tail_localScopes,
    hnested.length_localScopes]
  exact rfl

section Agreeing

variable {outcome : Outcome} {status : Status}

theorem running_of_going {state : Dispatcher} (hagrees : outcome.Agrees status) (hgoing : outcome = .going state) :
    ∃ machine, status = .running machine ∧ state = machine.dispatcher := by
  subst hgoing
  cases status with
  | running machine => exact ⟨machine, rfl, hagrees⟩
  | finished report => cases hagrees

theorem going_of_running {machine : Machine} (hagrees : outcome.Agrees status) (hrunning : status = .running machine) :
    outcome = .going machine.dispatcher := by
  subst hrunning
  cases outcome with
  | going state => exact congrArg Outcome.going hagrees
  | returned value left => cases hagrees
  | failed error left => cases hagrees

theorem finished_of_failed {error : RuntimeError} {left : Dispatcher} (hagrees : outcome.Agrees status)
    (hfailed : outcome = .failed error left) : status = .finished ⟨.error error, left.globals, left.console⟩ := by
  subst hfailed
  cases status with
  | running machine => cases hagrees
  | finished report => exact congrArg Status.finished hagrees

theorem failed_of_finished {error : RuntimeError} {globals : Scope} {console : Console}
    (hagrees : outcome.Agrees status) (hfinished : status = .finished ⟨.error error, globals, console⟩) :
    ∃ left, outcome = .failed error left ∧ left.globals = globals ∧ left.console = console := by
  subst hfinished
  cases outcome with
  | going state => cases hagrees
  | returned value left => cases hagrees
  | failed other left =>
      cases hagrees
      exact ⟨left, rfl, rfl, rfl⟩

end Agreeing

/-- What is left of the machine once its active frame is gone. -/
def waiting (machine : Machine) : Dispatcher :=
  ⟨machine.callers.map Frame.strand, localScopes machine.callers, machine.globals, machine.console⟩

/-- A return to a caller takes the strand of the callee and its variables, one of each. -/
theorem leave_resume {machine : Machine} (hnested : machine.CallsNested environment.functions) (strand : Strand)
    (value : Option Value) {caller : Frame} {rest : List Frame} (hcallers : machine.callers = caller :: rest) :
    (machine.resume { machine.bench with strand }).leave environment.limits machine.callers.length value =
      match value with
      | none => .going (waiting machine)
      | some value =>
        match caller.stack.push environment.limits value with
        | .ok stack => .going { waiting machine with strands := { caller.strand with stack } :: rest.map Frame.strand }
        | .error fault => .failed (.fault caller.current fault) (waiting machine) := by
  obtain ⟨frame, callers, globals, console⟩ := machine
  obtain rfl : callers = caller :: rest := hcallers
  obtain ⟨locals, hlocals⟩ := Option.isSome_iff_exists.mp (hnested.isSome_locals.mpr (List.cons_ne_nil _ _))
  simp only at hlocals
  simp only [leave, Machine.resume, Machine.bench, Frame.scopes, resume, hlocals, List.length_cons,
    Nat.succ_ne_zero, if_false, List.tail_cons, Option.toList_some, List.map_cons, List.cons_append,
    List.nil_append, waiting]
  cases value with
  | none => rfl
  | some value => rfl

theorem leave_agrees (machine : Machine) (hnested : machine.CallsNested environment.functions) (strand : Strand)
    (value : Option Value) :
    ((machine.resume { machine.bench with strand }).leave environment.limits machine.callers.length value).Agrees
      (Report.deliver environment ⟨.ok value, machine.globals, machine.console⟩ machine.callers) := by
  cases hcallers : machine.callers with
  | nil => exact rfl
  | cons caller rest =>
      rw [← hcallers, leave_resume hnested strand value hcallers, hcallers, Report.deliver]
      cases value with
      | none =>
          simp only [Outcome.Agrees, waiting, hcallers]
          exact rfl
      | some value =>
          simp only [show receive environment.limits (some value) caller.stack =
            caller.stack.push environment.limits value from rfl]
          rcases caller.stack.push environment.limits value with fault | stack
          · exact rfl
          · simp only [Outcome.Agrees, waiting, hcallers]
            exact rfl

theorem step_agrees (machine : Machine) (hnested : machine.CallsNested environment.functions) :
    (machine.dispatcher.step environment).Agrees (machine.step environment) := by
  have hdispatched : machine.bench.Dispatched (dispatch environment.limits machine.bench)
      (machine.frame.move environment.limits machine.globals machine.console) :=
    machine.bench.dispatch_dispatched environment.limits
  rw [Machine.step_eq_move, step_dispatcher machine hnested]
  revert hdispatched
  generalize dispatch environment.limits machine.bench = dispatched
  generalize machine.frame.move environment.limits machine.globals machine.console = move
  intro hdispatched
  cases hdispatched with
  | goOn after =>
      simp only [Outcome.Agrees, Machine.resume, resume, Machine.dispatcher, localScopes_cons]
      exact rfl
  | call hdecode id =>
      rename_i instruction
      simp only
      rcases (machine.bench.advance instruction).enter_eq_beginCall environment machine.callers.length id with
        ⟨code, locals, stack, hbegin, henter⟩ | ⟨fault, stack, hbegin, henter⟩
      · rw [henter, hbegin]
        simp only [Outcome.Agrees, Machine.resume, resume, Machine.dispatcher, localScopes_cons]
        exact rfl
      · rw [henter, hbegin]
        exact rfl
  | leave value strand => exact leave_agrees machine hnested strand value
  | fail hdecode fault stack console => exact rfl
  | malformed error => exact rfl

theorem run_agrees (count : Nat) (machine : Machine) (hnested : machine.CallsNested environment.functions) :
    (machine.dispatcher.run environment count).Agrees (machine.run environment count) := by
  induction count generalizing machine with
  | zero => exact rfl
  | succ count ih =>
      have hstep := step_agrees machine hnested
      rw [run, Machine.run_succ]
      cases houtcome : machine.dispatcher.step environment with
      | going state =>
          obtain ⟨next, hnext, rfl⟩ := running_of_going hstep houtcome
          rw [hnext]
          exact ih next (hnested.transition (Machine.transition_of_step hnext))
      | returned value left =>
          rw [houtcome] at hstep
          cases hstatus : machine.step environment with
          | running next =>
              rw [hstatus] at hstep
              cases hstep
          | finished report =>
              rw [hstatus] at hstep
              exact hstep
      | failed error left =>
          rw [finished_of_failed hstep houtcome]
          exact rfl

theorem start_agrees (environment : Environment) (count : Nat) (code : Stream) (globals : Scope)
    (console : Console) :
    ((start code globals console).run environment count).Agrees
      ((Machine.start code globals console).run environment count) :=
  run_agrees count (.start code globals console) rfl

/-- A state that the dispatcher comes to is that of the machine after as many steps. -/
theorem exists_machine_of_run {count : Nat} {code : Stream} {globals : Scope} {console : Console}
    {state : Dispatcher} (hrun : (start code globals console).run environment count = .going state) :
    ∃ machine, (Machine.start code globals console).run environment count = .running machine ∧
      state = machine.dispatcher :=
  running_of_going (start_agrees environment count code globals console) hrun

end Dispatcher
end StackCode
