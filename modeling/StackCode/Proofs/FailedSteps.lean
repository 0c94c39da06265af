import StackCode.Proofs.DispatcherAgreement

/-! Failures. A step that fails, be it at an instruction, at the beginning of a call or at a return, has changed no
variable. It may have consumed a line of input or have printed a part of a text, and its error names the
instruction which the strand on top dispatched last. -/

namespace StackCode

namespace Console

/-- A sink that is full has taken the first bytes of the text. -/
theorem of_write_error {console after : Console} {text : String} {failure : ConsoleFailure}
    (hwrite : console.write text = (.error failure, after)) :
    failure = .sinkFull ∧ after.unread = console.unread ∧
      ∃ printed, printed <+: text.toUTF8.data.toList ∧ after.written.toList = console.written.toList ++ printed := by
  by_cases htakes : console.Takes text
  · rw [write_of_takes htakes] at hwrite
    cases hwrite
  · obtain ⟨capacity, hcapacity, hfull⟩ : ∃ capacity, console.capacity = some capacity ∧
        capacity - console.written.size < text.toUTF8.data.size := by
      simpa [Takes] using htakes
    rw [write_of_full hcapacity hfull] at hwrite
    cases hwrite
    refine ⟨rfl, rfl, _, ?_, Array.toList_append⟩
    rw [Array.toList_extract, List.extract_eq_take_drop, List.drop_zero]
    exact List.take_prefix _ _

end Console

/-- What a step of the strand that fails leaves of the console: a built-in function may have printed a part of a text
or have read a line. -/
structure Strand.SparesConsole (strand : Strand) (console : Console) (error : RuntimeError) (left : Console) :
    Prop where
  output : left.written = console.written ∨
    ∃ form value text printed offset,
      strand.code.decodeAt strand.next = .ok (.call (Builtin.print form).id) ∧ strand.stack.head? = some value ∧
      form.text value = .ok text ∧ printed <+: text.toUTF8.data.toList ∧
      left.written.toList = console.written.toList ++ printed ∧ error = .fault offset (.console .sinkFull)
  input : left.unread = console.unread ∨ strand.code.decodeAt strand.next = .ok (.call Builtin.input.id)

theorem Strand.sparesConsole_refl (strand : Strand) (console : Console) (error : RuntimeError) :
    strand.SparesConsole console error console :=
  ⟨Or.inl rfl, Or.inl rfl⟩

namespace Frame

variable {limits : Limits} {globals : Scope} {frame : Frame} {console left : Console} {error : RuntimeError}

theorem sparesConsole_of_perform {function : Builtin} {offset : Nat} {fault : Fault}
    (hdecode : frame.code.decodeAt frame.next = .ok (.call function.id))
    (hperform : function.perform limits frame.stack console = (.error fault, left)) :
    frame.strand.SparesConsole console (.fault offset fault) left := by
  cases function with
  | input =>
      have hleft : left = console.readLine.2 := by
        simp only [Builtin.perform] at hperform
        split at hperform <;>
        · rename_i hread
          rw [hread]
          exact (Prod.mk.inj hperform).2.symm
      refine ⟨Or.inl ?_, Or.inr hdecode⟩
      rw [hleft]
      rfl
  | print form =>
      simp only [Builtin.perform] at hperform
      split at hperform
      · cases hperform
        exact frame.strand.sparesConsole_refl console _
      · rename_i value rest hstack
        split at hperform
        · cases hperform
          exact frame.strand.sparesConsole_refl console _
        · rename_i text htext
          split at hperform
          · cases hperform
          · rename_i failure after hwrite
            cases hperform
            obtain ⟨rfl, hunread, printed, hprinted, hgrown⟩ := Console.of_write_error hwrite
            have htop : frame.stack.head? = some value := by
              rw [hstack]
              rfl
            exact ⟨Or.inr ⟨form, value, text, printed, offset, hdecode, htop, htext, hprinted, hgrown, rfl⟩,
              Or.inl hunread⟩
  | convert conversion =>
      simp only [Builtin.perform] at hperform
      split at hperform
      · cases hperform
        exact frame.strand.sparesConsole_refl console _
      · split at hperform
        · cases hperform
          exact frame.strand.sparesConsole_refl console _
        · obtain rfl := (Prod.mk.inj hperform).2
          exact frame.strand.sparesConsole_refl console _

/-- Only a built-in function that reads or prints can fail with the console changed. -/
theorem sparesConsole_of_fail (hmove : frame.move limits globals console = .fail error left) :
    frame.strand.SparesConsole console error left := by
  unfold move at hmove
  split at hmove
  · cases hmove
  · split at hmove
    · cases hmove
      exact frame.strand.sparesConsole_refl console _
    · rename_i instruction hdecode
      have hadvances := (frame.advance instruction).execute_advances limits globals instruction
      unfold performed at hmove
      split at hmove
      · cases hmove
        exact frame.strand.sparesConsole_refl console _
      · cases hmove
      · cases hmove
      · cases hmove
      · rename_i function caller hexecute
        obtain ⟨rfl, rfl⟩ := hadvances.of_ok hexecute
        split at hmove
        · cases hmove
        · rename_i fault after hperform
          cases hmove
          exact sparesConsole_of_perform hdecode hperform

end Frame

namespace Dispatcher

/-- A step of the strand on top that fails, and what it leaves. Below is the rest of the strands. -/
structure Spared (state : Dispatcher) (strand : Strand) (below : List Strand) (error : RuntimeError)
    (left : Dispatcher) : Prop where
  strands : state.strands = strand :: below
  globals : left.globals = state.globals
  /-- The call that is left by a return is no longer active. -/
  scopes : left.scopes = state.scopes ∨
    strand.code.decodeAt strand.next = .ok (.plain .ret) ∧ left.scopes = state.scopes.tail
  console : strand.SparesConsole state.console error left.console
  /-- The instruction dispatched last is that of the step, or the call that the caller waited for. -/
  offset : ∀ offset cause, error = .fault offset cause → ∃ top rest, left.strands = top :: rest ∧
    top.current = offset ∧
    ((top.code = strand.code ∧ rest = below ∧ strand.next = offset ∧
        ∃ instruction, strand.code.decodeAt offset = .ok instruction) ∨
      (below = top :: rest ∧ ∃ id, top.code.decodeAt offset = .ok (.call id)))

variable {environment : Environment}

/-- A return that fails has left the frame of the callee, and nothing else. -/
theorem spared_of_leave {machine : Machine} (hnested : machine.CallsNested environment.functions)
    {value : Option Value} (hreturns : machine.frame.Returns value) {strand : Strand} {error : RuntimeError}
    {left : Dispatcher}
    (hleave : (machine.resume { machine.bench with strand }).leave environment.limits machine.callers.length value =
      .failed error left) :
    machine.dispatcher.Spared machine.frame.strand (machine.callers.map Frame.strand) error left := by
  cases hcallers : machine.callers with
  | nil =>
      rw [hcallers] at hleave
      cases hleave
  | cons caller rest =>
      rw [leave_resume hnested strand value hcallers] at hleave
      cases value with
      | none => cases hleave
      | some value =>
          simp only at hleave
          split at hleave
          · cases hleave
          · cases hleave
            have hscopes : (waiting machine).scopes = machine.dispatcher.scopes.tail := hnested.tail_localScopes.symm
            refine {
              strands := congrArg (fun callers => (machine.frame :: callers).map Frame.strand) hcallers
              globals := rfl
              scopes := Or.inr ⟨?_, hscopes⟩
              console := machine.frame.strand.sparesConsole_refl machine.console _
              offset := ?_ }
            · rcases hreturns with ⟨-, hvalue⟩ | ⟨hret, -⟩
              · cases hvalue
              · exact hret
            · intro offset cause herror
              cases herror
              rw [Machine.CallsNested, hcallers] at hnested
              obtain ⟨id, function, -, hcall, -⟩ := hnested.1
              refine ⟨caller.strand, rest.map Frame.strand, ?_, rfl, Or.inr ⟨rfl, id, hcall⟩⟩
              simp only [waiting, hcallers, List.map_cons]

/-- An instruction that fails has moved its strand on and changed nothing but operands and the console. -/
theorem spared_of_instruction {machine : Machine} {instruction : Instruction} {fault : Fault} {stack : Stack}
    {console : Console} (hdecode : machine.frame.code.decodeAt machine.frame.next = .ok instruction)
    (hconsole : machine.frame.strand.SparesConsole machine.console (.fault machine.frame.next fault) console) :
    machine.dispatcher.Spared machine.frame.strand (machine.callers.map Frame.strand)
      (.fault machine.frame.next fault)
      (machine.resume { (machine.bench.advance instruction).on stack with console }) where
  strands := rfl
  globals := rfl
  scopes := Or.inl (localScopes_cons machine.frame machine.callers).symm
  console := hconsole
  offset := by
    intro offset cause herror
    cases herror
    exact ⟨_, _, rfl, rfl, Or.inl ⟨rfl, rfl, rfl, instruction, hdecode⟩⟩

/-- Where no instruction can be decoded, nothing has happened. -/
theorem spared_of_malformed (machine : Machine) (error : DecodeError) :
    machine.dispatcher.Spared machine.frame.strand (machine.callers.map Frame.strand) (.malformed error)
      (machine.resume machine.bench) where
  strands := rfl
  globals := rfl
  scopes := Or.inl (localScopes_cons machine.frame machine.callers).symm
  console := machine.frame.strand.sparesConsole_refl machine.console _
  offset := by
    intro offset cause herror
    cases herror

theorem spared_of_failed {machine : Machine} (hnested : machine.CallsNested environment.functions)
    {error : RuntimeError} {left : Dispatcher}
    (hstep : machine.dispatcher.step environment = .failed error left) :
    machine.dispatcher.Spared machine.frame.strand (machine.callers.map Frame.strand) error left := by
  have hdispatched : machine.bench.Dispatched (dispatch environment.limits machine.bench)
      (machine.frame.move environment.limits machine.globals machine.console) :=
    machine.bench.dispatch_dispatched environment.limits
  rw [step_dispatcher machine hnested] at hstep
  revert hstep hdispatched
  generalize dispatch environment.limits machine.bench = dispatched
  generalize hmove : machine.frame.move environment.limits machine.globals machine.console = move
  intro hstep hdispatched
  cases hdispatched with
  | goOn after => cases hstep
  | call hdecode id =>
      rename_i instruction
      simp only at hstep
      rcases (machine.bench.advance instruction).enter_eq_beginCall environment machine.callers.length id with
        ⟨code, locals, stack, -, henter⟩ | ⟨fault, stack, -, henter⟩
      · rw [henter] at hstep
        cases hstep
      · rw [henter] at hstep
        cases hstep
        exact spared_of_instruction hdecode (machine.frame.strand.sparesConsole_refl machine.console _)
  | leave value strand =>
      have hreturns := machine.frame.move_keeps environment.limits machine.globals machine.console
      rw [hmove] at hreturns
      exact spared_of_leave hnested hreturns hstep
  | fail hdecode fault stack console =>
      cases hstep
      exact spared_of_instruction hdecode (Frame.sparesConsole_of_fail hmove)
  | malformed error =>
      cases hstep
      exact spared_of_malformed machine error

/-- A run that has failed did so in one step from a state that it came to. -/
theorem exists_last_of_failed {count : Nat} {first left : Dispatcher} {error : RuntimeError}
    (hrun : first.run environment count = .failed error left) :
    ∃ before state, first.run environment before = .going state ∧ state.step environment = .failed error left := by
  induction count generalizing first with
  | zero => cases hrun
  | succ count ih =>
      rw [run] at hrun
      cases hstep : first.step environment with
      | going next =>
          rw [hstep] at hrun
          obtain ⟨before, state, hbefore, hlast⟩ := ih hrun
          refine ⟨before + 1, state, ?_, hlast⟩
          rw [run, hstep]
          exact hbefore
      | returned value left =>
          rw [hstep] at hrun
          cases hrun
      | failed error' left' =>
          rw [hstep] at hrun
          cases hrun
          exact ⟨0, first, rfl, hstep⟩

end Dispatcher

/-- A step that fails spares the globals and the variables of all calls that are still active, in whatever state the
run has come to. The report on the run has the globals of that state, and every report of an error is of this
kind. -/
theorem failed_step_spares (program : Program) (limits : Limits) (globals : Scope) (console : Console) :
    (∀ count state error left,
      (Dispatcher.start program.main globals console).run ⟨program.functions, limits⟩ count = .going state →
      state.step ⟨program.functions, limits⟩ = .failed error left →
      (∃ strand below, state.Spared strand below error left) ∧
      ∃ machine, (Machine.start program.main globals console).run ⟨program.functions, limits⟩ count = .running machine ∧
        state = machine.dispatcher ∧
        machine.step ⟨program.functions, limits⟩ = .finished ⟨.error error, machine.globals, left.console⟩) ∧
    ∀ error after written,
      (Machine.start program.main globals console).Ends ⟨program.functions, limits⟩ ⟨.error error, after, written⟩ →
      ∃ count state left,
        (Dispatcher.start program.main globals console).run ⟨program.functions, limits⟩ count = .going state ∧
        state.step ⟨program.functions, limits⟩ = .failed error left ∧
        after = state.globals ∧ written = left.console := by
  constructor
  · intro count state error left hrun hstep
    obtain ⟨machine, hmachine, rfl⟩ := Dispatcher.exists_machine_of_run hrun
    have hnested := Machine.callsNested_of_run hmachine
    have hspared := Dispatcher.spared_of_failed hnested hstep
    refine ⟨⟨_, _, hspared⟩, machine, hmachine, rfl, ?_⟩
    have hreport := Dispatcher.finished_of_failed (Dispatcher.step_agrees machine hnested) hstep
    rw [hreport, hspared.globals]
    rfl
  · intro error after written hends
    obtain ⟨count, hfinished⟩ := hends
    obtain ⟨left, hfailed, rfl, rfl⟩ := Dispatcher.failed_of_finished
      (Dispatcher.start_agrees ⟨program.functions, limits⟩ count program.main globals console) hfinished
    obtain ⟨before, state, hrun, hstep⟩ := Dispatcher.exists_last_of_failed hfailed
    obtain ⟨machine, hmachine, rfl⟩ := Dispatcher.exists_machine_of_run hrun
    have hspared := Dispatcher.spared_of_failed (Machine.callsNested_of_run hmachine) hstep
    exact ⟨before, machine.dispatcher, left, hrun, hstep, hspared.globals, rfl⟩

/-- Prints a text of two characters from within a call. -/
def printsArgument : Program where
  main := .ofInstructions [.pushInt 97, .pushInt 98, .withWord .allocString 2, .call 64]
  functions := .ofList [(64, ⟨[70], .ofInstructions [.load 70, .call 11, .plain .ret]⟩)]

/-- The call within which the text is printed, to a sink for a single byte. -/
def printingArgument (stack : Stack) (next current : Nat) (written : Array UInt8) : Dispatcher where
  strands :=
    [⟨.ofInstructions [.load 70, .call 11, .plain .ret], stack, next, current⟩, ⟨printsArgument.main, [], 22, 13⟩]
  scopes := [.ofList [(70, .str "ab")]]
  globals := .ofList [(80, .int 1)]
  console := ⟨[], written, some 1⟩

theorem failed_step_spares_printsArgument :
    (Dispatcher.start printsArgument.main (.ofList [(80, .int 1)]) ⟨[], #[], some 1⟩).run
      ⟨printsArgument.functions, .default⟩ 5 = .going (printingArgument [.str "ab"] 9 0 #[]) ∧
    (printingArgument [.str "ab"] 9 0 #[]).step ⟨printsArgument.functions, .default⟩ =
      .failed (.fault 9 (.console .sinkFull)) (printingArgument [] 18 9 #[97]) ∧
    (∃ strand below, (printingArgument [.str "ab"] 9 0 #[]).Spared strand below (.fault 9 (.console .sinkFull))
      (printingArgument [] 18 9 #[97])) ∧
    (Machine.start printsArgument.main (.ofList [(80, .int 1)]) ⟨[], #[], some 1⟩).Ends
      ⟨printsArgument.functions, .default⟩
      ⟨.error (.fault 9 (.console .sinkFull)), .ofList [(80, .int 1)], ⟨[], #[97], some 1⟩⟩ ∧
    ∃ count state left,
      (Dispatcher.start printsArgument.main (.ofList [(80, .int 1)]) ⟨[], #[], some 1⟩).run
        ⟨printsArgument.functions, .default⟩ count = .going state ∧
      state.step ⟨printsArgument.functions, .default⟩ = .failed (.fault 9 (.console .sinkFull)) left ∧
      .ofList [(80, .int 1)] = state.globals ∧ ⟨[], #[97], some 1⟩ = left.console := by
  have hrun : (Dispatcher.start printsArgument.main (.ofList [(80, .int 1)]) ⟨[], #[], some 1⟩).run
      ⟨printsArgument.functions, .default⟩ 5 = .going (printingArgument [.str "ab"] 9 0 #[]) := by decide +kernel
  have hstep : (printingArgument [.str "ab"] 9 0 #[]).step ⟨printsArgument.functions, .default⟩ =
      .failed (.fault 9 (.console .sinkFull)) (printingArgument [] 18 9 #[97]) := by decide +kernel
  have hends : (Machine.start printsArgument.main (.ofList [(80, .int 1)]) ⟨[], #[], some 1⟩).Ends
      ⟨printsArgument.functions, .default⟩
      ⟨.error (.fault 9 (.console .sinkFull)), .ofList [(80, .int 1)], ⟨[], #[97], some 1⟩⟩ :=
    ⟨6, by decide +kernel⟩
  obtain ⟨hsteps, hreports⟩ :=
    failed_step_spares printsArgument .default (.ofList [(80, .int 1)]) ⟨[], #[], some 1⟩
  exact ⟨hrun, hstep, (hsteps 5 _ _ _ hrun hstep).1, hends, hreports _ _ _ hends⟩

end StackCode
