import StackCode.Proofs.Execution

/-! Calls leave alone what is not theirs. A function starts on an empty stack with its parameters as its only
variables; until it returns, the frames below it wait as they are and no global variable comes into being. -/

namespace StackCode

namespace Table

variable {α : Type}

/-- In bindings made from the last to the first, the first one of a key stays. -/
theorem get?_ofList_reverse (entries : List (SymbolId × α)) (key : SymbolId) :
    (ofList entries.reverse).get? key = lookup key entries := by
  rw [ofList, List.foldl_reverse]
  induction entries with
  | nil => rfl
  | cons entry rest ih =>
      rw [List.foldr_cons, get?_insert, ih, lookup]

theorem isSome_lookup_zip {params : List SymbolId} {arguments : List α}
    (hlength : arguments.length = params.length) (key : SymbolId) :
    (lookup key (params.zip arguments)).isSome = true ↔ key ∈ params := by
  induction params generalizing arguments with
  | nil => simp [lookup]
  | cons param rest ih =>
      cases arguments with
      | nil => cases hlength
      | cons argument others =>
          have hrest := ih (Nat.succ.inj hlength)
          by_cases hkey : key = param
          · simp [lookup, hkey]
          · simp [lookup, hkey, hrest]

theorem lookup_zip {params : List SymbolId} (hdistinct : params.Nodup) {arguments : List α}
    (hlength : arguments.length = params.length) {position : Nat} {param : SymbolId}
    (hparam : params[position]? = some param) :
    lookup param (params.zip arguments) = arguments[position]? := by
  induction params generalizing arguments position with
  | nil => simp at hparam
  | cons first rest ih =>
      cases arguments with
      | nil => cases hlength
      | cons argument others =>
          obtain ⟨hfirst, hrest⟩ := List.nodup_cons.mp hdistinct
          cases position with
          | zero =>
              simp only [List.getElem?_cons_zero, Option.some.injEq] at hparam
              simp [lookup, hparam]
          | succ position =>
              rw [List.getElem?_cons_succ] at hparam
              have hne : param ≠ first := by
                rintro rfl
                exact hfirst (List.mem_of_getElem? hparam)
              rw [List.zip_cons_cons, lookup, if_neg hne, List.getElem?_cons_succ]
              exact ih hrest (Nat.succ.inj hlength) hparam

end Table

/-- The frame goes on in its stream. The stack, the offset and the values of variables may have changed, but
within a call no global variable has come into being. -/
structure Frame.GoesOn (frame : Frame) (globals : Scope) (next : Frame) (after : Scope) : Prop where
  code : next.code = frame.code
  locals : next.locals.isSome = frame.locals.isSome
  globals : frame.locals.isSome = true → ∀ key, after.contains key = globals.contains key

/-- What a move tells about the frame that makes it. -/
def Move.Keeps (frame : Frame) (globals : Scope) : Move → Prop
  | .proceed next after _ => frame.GoesOn globals next after
  | .call id caller =>
    frame.code.decodeAt frame.next = .ok (.call id) ∧ isReserved id = false ∧ caller = frame.advance (.call id)
  | .leave value => frame.Returns value
  | .fail _ _ => True

namespace Frame

theorem move_keeps (limits : Limits) (globals : Scope) (console : Console) (frame : Frame) :
    (frame.move limits globals console).Keeps frame globals := by
  have hadvances := frame.move_advances limits globals console
  cases hmove : frame.move limits globals console with
  | proceed next after written =>
      rw [hmove] at hadvances
      obtain ⟨instruction, -, hadvances⟩ := hadvances
      exact ⟨hadvances.code, hadvances.scopes.isSome_locals, hadvances.scopes.contains_globals⟩
  | call id caller =>
      rw [hmove] at hadvances
      exact hadvances
  | leave value =>
      rw [hmove] at hadvances
      exact hadvances
  | fail error written => trivial

theorem move_of_call {frame : Frame} {id : SymbolId}
    (hdecode : frame.code.decodeAt frame.next = .ok (.call id)) (hreserved : isReserved id = false)
    (limits : Limits) (globals : Scope) (console : Console) :
    frame.move limits globals console = .call id (frame.advance (.call id)) := by
  have hlt := Stream.lt_size_of_decodeAt hdecode
  rw [move, if_neg (by omega), hdecode]
  simp only [performed, execute_call hreserved]

end Frame

/-- The frame behind the call that it is about to make, with the given stack. -/
def Frame.behindCall (frame : Frame) (id : SymbolId) (stack : Stack) : Frame :=
  { frame with stack, next := frame.next + (Instruction.call id).length, current := frame.next }

/-- What a call begins with, told by the arguments in the order of the parameters. -/
theorem beginCall_eq_ok {environment : Environment} {depth : Nat} {id : SymbolId} {stack below : Stack}
    {callee : Frame} (hbegin : beginCall environment depth id stack = .ok (callee, below)) :
    ∃ (function : Function) (arguments : List Value), environment.functions.get? id = some function ∧
      arguments.length = function.arity ∧ stack = arguments.reverse ++ below ∧
      callee = .start function.code (some (.ofList (function.params.zip arguments).reverse)) := by
  unfold beginCall at hbegin
  split at hbegin
  · cases hbegin
  · rename_i function hfunction
    split at hbegin
    · cases hbegin
    · split at hbegin
      · cases hbegin
      · rename_i henough
        cases hbegin
        have hlength : (stack.take function.arity).reverse.length = function.params.length := by
          rw [List.length_reverse, List.length_take, Function.arity]
          rw [Function.arity] at henough
          omega
        have hstack : stack = (stack.take function.arity).reverse.reverse ++ stack.drop function.arity := by
          rw [List.reverse_reverse, List.take_append_drop]
        refine ⟨function, (stack.take function.arity).reverse, hfunction, hlength, hstack, ?_⟩
        rw [← Machine.zip_reverse_append (stack.drop function.arity) hlength, ← hstack]

theorem receive_eq_ok {limits : Limits} {value : Option Value} {stack received : Stack}
    (hreceive : receive limits value stack = .ok received) : received = value.toList ++ stack := by
  unfold receive at hreceive
  split at hreceive
  · cases hreceive
    rfl
  · split at hreceive
    · cases hreceive
      rfl
    · cases hreceive

namespace Machine

variable {environment : Environment}

/-- A run from one machine to another during which more frames wait than the given number. -/
inductive Inside (environment : Environment) (depth : Nat) (first : Machine) : Machine → Prop where
  | entered : Inside environment depth first first
  | step {current next : Machine} (hinside : Inside environment depth first current)
      (hstep : current.step environment = .running next) (hdeep : depth < next.callers.length) :
      Inside environment depth first next

/-- The machine works above the given frames: only calls have put frames over them, and the global variables
are those there were. -/
structure Above (below : List Frame) (globals : Scope) (machine : Machine) : Prop where
  waiting : ∃ inner, machine.callers = inner ++ below ∧
    ∀ frame ∈ machine.frame :: inner, frame.locals.isSome = true
  globals : ∀ key, machine.globals.contains key = globals.contains key

/-- A call has returned to the caller that waited for it. -/
structure Returned (caller : Frame) (below : List Frame) (globals : Scope) (last machine : Machine) : Prop where
  frame : ∃ value, last.frame.Returns value ∧
    machine.frame = { caller with stack := value.toList ++ caller.stack }
  callers : machine.callers = below
  globals : ∀ key, machine.globals.contains key = globals.contains key

/-- A step above a caller stays above it or returns to it. -/
theorem Above.step {caller : Frame} {below : List Frame} {globals : Scope} {current next : Machine}
    (habove : current.Above (caller :: below) globals) (hstep : current.step environment = .running next) :
    next.Above (caller :: below) globals ∨ Returned caller below globals current next := by
  obtain ⟨⟨inner, hcallers, hlocals⟩, hglobals⟩ := habove
  obtain ⟨frame, callers, currentGlobals, console⟩ := current
  simp only at hcallers hlocals hglobals
  subst hcallers
  have hframe : frame.locals.isSome = true := hlocals frame List.mem_cons_self
  have hinner : ∀ other ∈ inner, other.locals.isSome = true := by
    intro other hother
    exact hlocals other (List.mem_cons_of_mem _ hother)
  have hkeeps := frame.move_keeps environment.limits currentGlobals console
  cases hmove : frame.move environment.limits currentGlobals console with
  | proceed after globals' written =>
      rw [step_of_proceed hmove] at hstep
      cases hstep
      rw [hmove] at hkeeps
      obtain ⟨-, hsame, hkeys⟩ := hkeeps
      refine Or.inl ⟨⟨inner, rfl, ?_⟩, ?_⟩
      · intro other hother
        rcases List.mem_cons.mp hother with rfl | hother
        · rw [hsame, hframe]
        · exact hinner other hother
      · intro key
        rw [hkeys hframe key, hglobals key]
  | fail error written =>
      rw [step_of_fail hmove] at hstep
      cases hstep
  | call id behind =>
      rw [hmove] at hkeeps
      obtain ⟨-, -, rfl⟩ := hkeeps
      rcases hbegin : beginCall environment (inner ++ caller :: below).length id
          (frame.advance (.call id)).stack with fault | ⟨callee, stack⟩
      · rw [step_of_refused hmove hbegin] at hstep
        cases hstep
      · rw [step_of_call hmove hbegin] at hstep
        cases hstep
        obtain ⟨function, arguments, -, -, -, rfl⟩ := beginCall_eq_ok hbegin
        refine Or.inl ⟨⟨_ :: inner, rfl, ?_⟩, hglobals⟩
        intro other hother
        rcases List.mem_cons.mp hother with rfl | hother
        · rfl
        rcases List.mem_cons.mp hother with rfl | hother
        · exact hframe
        · exact hinner other hother
  | leave value =>
      rw [step_of_leave hmove] at hstep
      rw [hmove] at hkeeps
      -- the frame on top of the callers is one that was entered above the caller, or the caller itself
      cases inner with
      | nil =>
          simp only [Report.deliver, List.nil_append] at hstep
          split at hstep
          · rename_i stack hreceive
            cases hstep
            refine Or.inr ⟨⟨value, hkeeps, ?_⟩, rfl, hglobals⟩
            rw [receive_eq_ok hreceive]
          · cases hstep
      | cons nearest rest =>
          simp only [Report.deliver, List.cons_append] at hstep
          split at hstep
          · rename_i stack hreceive
            cases hstep
            refine Or.inl ⟨⟨rest, rfl, ?_⟩, hglobals⟩
            intro other hother
            rcases List.mem_cons.mp hother with rfl | hother
            · exact hinner nearest List.mem_cons_self
            · exact hinner other (List.mem_cons_of_mem _ hother)
          · cases hstep

theorem Inside.above {caller : Frame} {below : List Frame} {globals : Scope} {first current : Machine}
    (hinside : Inside environment below.length first current)
    (hfirst : first.Above (caller :: below) globals) : current.Above (caller :: below) globals := by
  induction hinside with
  | entered => exact hfirst
  | step _ hstep hdeep ih =>
      rcases ih.step hstep with habove | hreturned
      · exact habove
      · rw [hreturned.callers] at hdeep
        omega

end Machine

/-- The call of a function that has been entered: what the function starts with, what stays the same while it
and the calls nested in it run, and what the caller goes on with. -/
structure Isolated (environment : Environment) (machine : Machine) (id : SymbolId) (function : Function)
    (arguments : List Value) (below : Stack) (entered : Machine) : Prop where
  passed : machine.frame.stack = arguments.reverse ++ below ∧ arguments.length = function.arity
  stack : entered.frame.stack = []
  code : entered.frame.code = function.code ∧ entered.frame.next = 0
  locals : ∃ locals, entered.frame.locals = some locals ∧
    (∀ key, locals.contains key = true ↔ key ∈ function.params) ∧
    (function.params.Nodup → ∀ (position : Nat) (param : SymbolId), function.params[position]? = some param →
      locals.get? param = arguments[position]?)
  globals : entered.globals = machine.globals
  during : ∀ current, Machine.Inside environment machine.callers.length entered current →
    (∃ inner, current.callers = inner ++ machine.frame.behindCall id below :: machine.callers) ∧
      ∀ key, current.globals.contains key = machine.globals.contains key
  after : ∀ last next, Machine.Inside environment machine.callers.length entered last →
    last.step environment = .running next → next.callers.length ≤ machine.callers.length →
      (∃ value, last.frame.Returns value ∧
        next.frame = machine.frame.behindCall id (value.toList ++ below)) ∧
      next.callers = machine.callers ∧
      ∀ key, next.globals.contains key = machine.globals.contains key

/-- A call that begins is isolated from its caller, whatever the streams are. -/
theorem call_isolated {environment : Environment} {machine entered : Machine} {id : SymbolId}
    (hdecode : machine.frame.code.decodeAt machine.frame.next = .ok (.call id))
    (hreserved : isReserved id = false) (hstep : machine.step environment = .running entered) :
    ∃ function arguments below, environment.functions.get? id = some function ∧
      Isolated environment machine id function arguments below entered := by
  obtain ⟨frame, callers, globals, console⟩ := machine
  simp only at hdecode
  have hmove := Frame.move_of_call hdecode hreserved environment.limits globals console
  rcases hbegin : beginCall environment callers.length id (frame.advance (.call id)).stack with
    fault | ⟨callee, below⟩
  · rw [Machine.step_of_refused hmove hbegin] at hstep
    cases hstep
  rw [Machine.step_of_call hmove hbegin] at hstep
  cases hstep
  obtain ⟨function, arguments, hfunction, hlength, hstack, rfl⟩ := beginCall_eq_ok hbegin
  refine ⟨function, arguments, below, hfunction, ?_⟩
  have hfirst : Machine.Above (frame.behindCall id below :: callers) globals
      ⟨.start function.code (some (.ofList (function.params.zip arguments).reverse)),
        frame.behindCall id below :: callers, globals, console⟩ := by
    refine ⟨⟨[], rfl, ?_⟩, fun _ => rfl⟩
    intro other hother
    rw [List.mem_singleton.mp hother]
    rfl
  exact {
    passed := ⟨hstack, hlength⟩
    stack := rfl
    code := ⟨rfl, rfl⟩
    locals := by
      refine ⟨_, rfl, ?_, ?_⟩
      · intro key
        rw [Table.contains, Table.get?_ofList_reverse]
        exact Table.isSome_lookup_zip hlength key
      · intro hdistinct position param hparam
        rw [Table.get?_ofList_reverse]
        exact Table.lookup_zip hdistinct hlength hparam
    globals := rfl
    during := by
      intro current hinside
      obtain ⟨⟨inner, hcallers, -⟩, hglobals⟩ := hinside.above hfirst
      exact ⟨⟨inner, hcallers⟩, hglobals⟩
    after := by
      intro last next hinside hreturn hshallow
      rcases (hinside.above hfirst).step hreturn with habove | hreturned
      · obtain ⟨⟨inner, hcallers, -⟩, -⟩ := habove
        rw [hcallers, List.length_append, List.length_cons] at hshallow
        simp only at hshallow
        omega
      · exact ⟨hreturned.frame, hreturned.callers, hreturned.globals⟩ }

/-- A function that stores its second argument in the variable 80 and returns its first. -/
def keepsSecond : Environment where
  functions := .ofList [(64, ⟨[70, 71], .ofInstructions [.load 71, .store 80, .load 70, .plain .ret]⟩)]
  limits := .default

/-- A machine before a call with the arguments 5 and 9, or behind it, with the variable 80 among its globals. -/
def aroundCall (stack : Stack) (next : Nat) (kept : Value) : Machine where
  frame := ⟨.ofInstructions [.call 64], none, stack, next, 0⟩
  callers := []
  globals := .ofList [(80, kept)]
  console := ⟨[], #[], none⟩

def withinCall (stack : Stack) (next current : Nat) (kept : Value) : Machine where
  frame := ⟨.ofInstructions [.load 71, .store 80, .load 70, .plain .ret],
    some (.ofList [(70, .int 5), (71, .int 9)]), stack, next, current⟩
  callers := [⟨.ofInstructions [.call 64], none, [.int 3], 9, 0⟩]
  globals := .ofList [(80, kept)]
  console := ⟨[], #[], none⟩

theorem call_isolated_keepsSecond :
    (aroundCall [.int 9, .int 5, .int 3] 0 (.int 1)).step keepsSecond = .running (withinCall [] 0 0 (.int 1)) ∧
    (∃ function arguments below, keepsSecond.functions.get? 64 = some function ∧
      Isolated keepsSecond (aroundCall [.int 9, .int 5, .int 3] 0 (.int 1)) 64 function arguments below
        (withinCall [] 0 0 (.int 1))) ∧
    Machine.Inside keepsSecond 0 (withinCall [] 0 0 (.int 1)) (withinCall [.int 5] 27 18 (.int 9)) ∧
    (withinCall [.int 5] 27 18 (.int 9)).step keepsSecond = .running (aroundCall [.int 5, .int 3] 9 (.int 9)) := by
  have hcall : (aroundCall [.int 9, .int 5, .int 3] 0 (.int 1)).step keepsSecond =
      .running (withinCall [] 0 0 (.int 1)) := by decide +kernel
  have hload : (withinCall [] 0 0 (.int 1)).step keepsSecond =
      .running (withinCall [.int 9] 9 0 (.int 1)) := by decide +kernel
  have hstore : (withinCall [.int 9] 9 0 (.int 1)).step keepsSecond =
      .running (withinCall [] 18 9 (.int 9)) := by decide +kernel
  have hresult : (withinCall [] 18 9 (.int 9)).step keepsSecond =
      .running (withinCall [.int 5] 27 18 (.int 9)) := by decide +kernel
  have hinside : Machine.Inside keepsSecond 0 (withinCall [] 0 0 (.int 1)) (withinCall [.int 5] 27 18 (.int 9)) :=
    ((Machine.Inside.entered.step hload (by decide)).step hstore (by decide)).step hresult (by decide)
  refine ⟨hcall, ?_, hinside, by decide +kernel⟩
  exact call_isolated (by decide +kernel) (by decide) hcall

end StackCode
