import StackCode.Proofs.AlignedCode
import StackCode.Proofs.CarriedStatements
import StackCode.Proofs.Moves

/-! A compiled program does what its statements mean. Calls are carried out like other code: the callee runs
on top of its caller, and its depth and the fuel it has left carry the induction over all calls. -/

namespace StackCode

open Evaluation

/-- The functions of the environment are the declared ones, and their offsets fit the words of jumps. -/
structure Environment.Provides (environment : Environment) (declared : List Declaration) : Prop where
  functions : ∀ id, environment.functions.get? id = (Declaration.find? declared id).map Declaration.function
  short : ∀ id function, environment.functions.get? id = some function →
    function.code.size < Instruction.offsetBound

namespace Machine

theorem bindArguments_reverse {params : List SymbolId} {arguments : List Value} (below : Stack)
    (hlength : arguments.length = params.length) :
    bindArguments params.reverse (arguments.reverse ++ below) .empty =
      .ok (Meaning.bindArguments params arguments, below) := by
  have hreverse : arguments.reverse.length = params.reverse.length := by
    rw [List.length_reverse, List.length_reverse, hlength]
  rw [bindArguments_eq, if_neg (by rw [List.length_append]; omega), zip_reverse_append below hlength,
    List.foldl_reverse, ← hreverse, List.drop_left]
  rfl

theorem ends_of_run_step {environment : Environment} {machine target : Machine} {count : Nat} {report : Report}
    (hrun : machine.run environment count = .running target) (hstep : target.step environment = .finished report) :
    machine.Ends environment report := by
  refine ⟨count + 1, ?_⟩
  rw [run_add, hrun]
  change run _ 1 target = _
  rw [run_succ, hstep]

theorem enter_eq_ok {environment : Environment} {declared : List Declaration} {id : SymbolId}
    {declaration : Declaration} {depth next current : Nat} {code : Stream} {locals : Option Scope}
    {arguments : List Value} {below : Stack} (hprovides : environment.Provides declared)
    (hfind : Declaration.find? declared id = some declaration)
    (hdepth : ¬ environment.limits.calls ≤ depth) (hlength : arguments.length = declaration.params.length) :
    enter environment depth id ⟨code, locals, arguments.reverse ++ below, next, current⟩ =
      .ok (.start declaration.function.code (some (Meaning.bindArguments declaration.params arguments)),
        ⟨code, locals, below, next, current⟩) := by
  have hget : environment.functions.get? id = some declaration.function := by
    rw [hprovides.functions, hfind]
    rfl
  unfold enter
  rw [hget]
  simp only
  rw [if_neg hdepth]
  change (bindArguments declaration.params.reverse (arguments.reverse ++ below) .empty >>= _) = _
  rw [bindArguments_reverse below hlength]
  rfl

end Machine

/-- At its end a stream leaves its frame with what its statements come to. -/
theorem Completion.Reached.step {environment : Environment} {site : Site} {target : Nat} {state : State}
    {machine : Machine} {completion : Completion}
    (hreached : completion.Reached environment site target state machine) (hend : site.code.size ≤ target) :
    machine.step environment = (site.machine 0 0 [] state).leave environment completion.value := by
  cases completion with
  | normal left =>
      obtain ⟨current, rfl⟩ := hreached
      exact Machine.step_of_end hend
  | returned value => exact hreached

section Calls

variable {environment : Environment} {declared : List Declaration} {fuel : Nat} {site : Site}

/-- The value that a callee leaves with goes onto the stack of its caller. -/
theorem follows_handOver {machine : Machine} {callee : Site} {state : State} {next current : Nat}
    {below : Stack} {value : Option Value}
    (hcallers : callee.callers = ⟨site.code, state.scopes.locals, below, next, current⟩ :: site.callers)
    (hstep : machine.step environment = (callee.machine 0 0 [] state).leave environment value) :
    Follows environment fuel machine
      (fun result after target => Completion.Reached environment site next after target
        (.normal (result.toList ++ below)))
      ((Meaning.handOver environment.limits below.length value).run state) := by
  rw [Site.machine, hcallers, Machine.leave] at hstep
  cases value with
  | none =>
      refine ⟨1, _, ?_, current, rfl⟩
      rw [Machine.run_succ, hstep]
      rfl
  | some value =>
      have hpush : Frame.push ⟨site.code, state.scopes.locals, below, next, current⟩ environment.limits value = _ :=
        Frame.pushOn_eq ⟨site.code, state.scopes.locals, below, next, current⟩ environment.limits below value
      change Follows _ _ _ _ ((some <$> keep environment.limits below.length value).run _)
      by_cases hroom : below.length < environment.limits.stack
      · rw [if_pos hroom] at hpush
        rw [Evaluation.keep, if_pos hroom]
        refine ⟨1, _, ?_, current, rfl⟩
        rw [Machine.run_succ, hstep]
        simp only [hpush]
        rfl
      · rw [if_neg hroom] at hpush
        rw [Evaluation.keep, if_neg hroom]
        refine ⟨current, 1, ?_⟩
        rw [Machine.run_succ, hstep]
        simp only [hpush]
        rfl

/-- The body of a call runs in a scope of its own, and leaves the locals of the caller as they were. -/
theorem follows_within {callee : Site} {target : Nat} {locals : Scope} {body : Evaluation Completion}
    {state : State} {machine : Machine} (hend : callee.code.size ≤ target)
    (hbody : Follows environment fuel machine
      (fun completion after arrived => completion.Reached environment callee target after arrived)
      (body.run ⟨⟨state.scopes.globals, some locals⟩, state.console⟩)) :
    Follows environment fuel machine
      (fun completion after arrived =>
        arrived.step environment = (callee.machine 0 0 [] after).leave environment completion.value ∧
          after.scopes.locals = state.scopes.locals)
      ((within locals body).run state) := by
  have hwithin : (within locals body).run state =
      (body >>= fun completion => ⟨fun after => .done completion
        ⟨⟨after.scopes.globals, state.scopes.locals⟩, after.console⟩⟩).run
          ⟨⟨state.scopes.globals, some locals⟩, state.console⟩ := rfl
  rw [hwithin]
  refine hbody.bind fun completion after arrived _ hreached => ?_
  exact ⟨0, arrived, rfl, hreached.step hend, rfl⟩

theorem carries_declared {function : SymbolId} {declaration : Declaration} {arguments : List Value}
    {below : Stack} {body : Evaluation Completion} (hprovides : environment.Provides declared)
    (hreserved : isReserved function = false)
    (hfind : Declaration.find? declared function = some declaration)
    (hdepth : ¬ environment.limits.calls ≤ site.callers.length)
    (hlength : arguments.length = declaration.params.length)
    (hbody : ∀ callee : Site, callee.code = declaration.function.code →
      callee.callers.length = site.callers.length + 1 →
      Carries environment fuel callee (Code.stmts declaration.body) [] body id) :
    Carries environment (fuel + 1) site [.call function] (arguments.reverse ++ below)
      (do
        let completion ← within (Meaning.bindArguments declaration.params arguments) body
        Meaning.handOver environment.limits below.length completion.value)
      fun result => .normal (result.toList ++ below) := by
  intro offset hholds current state
  have hget : environment.functions.get? function = some declaration.function := by
    rw [hprovides.functions, hfind]
    rfl
  let next := offset + (Instruction.call function).length
  let caller : Frame := ⟨site.code, state.scopes.locals, below, next, offset⟩
  let callee : Site := ⟨declaration.function.code, hprovides.short _ _ hget, caller :: site.callers⟩
  let entered : State :=
    ⟨⟨state.scopes.globals, some (Meaning.bindArguments declaration.params arguments)⟩, state.console⟩
  have henter : (site.machine offset current (arguments.reverse ++ below) state).run environment 1 =
      .running (callee.machine 0 0 [] entered) := by
    rw [Machine.run_succ, site.step_machine environment hholds.decodeAt]
    simp only [Machine.perform, Site.machine, Frame.execute_call hreserved,
      Machine.enter_eq_ok hprovides hfind hdepth hlength]
    rfl
  have hcode : callee.code.Holds 0 (Code.stmts declaration.body) :=
    Stream.holds_ofInstructions (Code.closed_stmts declaration.body).encodable
  have hend : callee.code.size ≤ 0 + codeSize (Code.stmts declaration.body) := by
    change (Stream.ofInstructions (Code.stmts declaration.body)).size ≤ _
    rw [Stream.size_ofInstructions, Nat.zero_add]
  rw [Nat.add_comm fuel 1]
  refine .of_run_add henter ?_
  refine (follows_within hend (hbody callee rfl rfl 0 hcode 0 entered)).bind ?_
  rintro completion ⟨⟨globals, locals⟩, console⟩ target _ ⟨hstep, rfl⟩
  rw [codeSize_cons, codeSize_nil]
  exact follows_handOver rfl hstep

theorem carries_refused {function : SymbolId} {cause : Fault} (stack : Stack) (leaves : Option Value → Stack)
    (hreserved : isReserved function = false)
    (henter : ∀ frame, Machine.enter environment site.callers.length function frame = .error cause) :
    Carries environment fuel site [.call function] stack (fail cause) fun result => .normal (leaves result) := by
  refine .of_perform fun before next current state => ?_
  change Machine.perform _ _ _ _ = _
  simp only [Machine.perform, Frame.execute_call hreserved, henter]
  rfl

theorem carries_callWith {run : List Stmt → Evaluation Completion} (hprovides : environment.Provides declared)
    (hrun : ∀ declaration : Declaration, ∀ callee : Site, callee.code = declaration.function.code →
      callee.callers.length = site.callers.length + 1 →
      Carries environment fuel callee (Code.stmts declaration.body) [] (run declaration.body) id) :
    CallsCarried environment (fuel + 1) site
      (Meaning.callWith environment.limits declared site.callers.length run) := by
  intro function arguments below
  rw [Meaning.callWith]
  cases hreserved : isReserved function with
  | true =>
      rw [if_pos rfl]
      cases hbuiltin : Builtin.ofId? function with
      | some builtin => exact .callBuiltin hreserved hbuiltin arguments below
      | none =>
          refine .of_execute fun locals globals next current console => ⟨?_, rfl, rfl⟩
          rw [Frame.execute_call_reserved hreserved, hbuiltin]
  | false =>
      rw [if_neg Bool.false_ne_true]
      have hget := hprovides.functions function
      cases hfind : Declaration.find? declared function with
      | none =>
          rw [hfind] at hget
          refine carries_refused _ _ hreserved fun frame => ?_
          unfold Machine.enter
          rw [hget]
          rfl
      | some declaration =>
          rw [hfind] at hget
          simp only
          by_cases hdepth : environment.limits.calls ≤ site.callers.length
          · rw [if_pos hdepth]
            refine carries_refused _ _ hreserved fun frame => ?_
            unfold Machine.enter
            rw [hget]
            simp only [Option.map_some]
            rw [if_pos hdepth]
            rfl
          · rw [if_neg hdepth]
            split
            · exact carries_declared hprovides hreserved hfind hdepth ‹_› (hrun declaration)
            · exact .of_undefined

/-- The calls of a program are carried out from any depth. The body of a call has less fuel than the call. -/
theorem carries_call (hprovides : environment.Provides declared) (fuel : Nat) (site : Site) :
    CallsCarried environment fuel site (Meaning.call environment.limits declared fuel site.callers.length) := by
  induction fuel generalizing site with
  | zero =>
      have hcalls : CallsCarried environment (0 + 1) site
          (Meaning.callWith environment.limits declared site.callers.length fun _ => exhausted) :=
        carries_callWith hprovides fun _ callee _ _ _ _ _ _ => ⟨_, rfl⟩
      intro function arguments below offset hholds current state
      exact (hcalls function arguments below offset hholds current state).less_fuel (Nat.zero_le 1)
  | succ fuel ih =>
      refine carries_callWith hprovides fun declaration callee _ hdepth => ?_
      rw [← hdepth]
      exact carries_stmts (ih callee) declaration.body []

end Calls

/-- Every stream of the program is short enough for the words of its jumps. -/
def Program.Short (program : Program) : Prop :=
  program.main.size < Instruction.offsetBound ∧
    ∀ entry ∈ program.functions.entries, entry.2.code.size < Instruction.offsetBound

instance (program : Program) : Decidable program.Short :=
  inferInstanceAs (Decidable (_ ∧ _))

/-- What a run comes to, unless it met bytes that are no instruction. -/
def Report.conclusion? (report : Report) : Option Conclusion :=
  match report.result with
  | .ok value => some ⟨.ok value, report.globals, report.console⟩
  | .error (.fault _ cause) => some ⟨.error cause, report.globals, report.console⟩
  | .error (.malformed _) => none

/-- What statements come to that stand alone, beside functions that are declared anywhere. -/
def Meaning.main (limits : Limits) (declared : List Declaration) (statements : List Stmt) (globals : Scope)
    (console : Console) (fuel : Nat) : Outcome Completion :=
  (stmts limits (call limits declared fuel 0) fuel [] statements).run ⟨⟨globals, none⟩, console⟩

section Programs

variable {statements : List Stmt} {program : Program}

theorem compileProgram_of_ok (hcompile : compileProgram statements = .ok program) :
    program.main = .ofInstructions (Code.stmts statements) ∧
      ∀ id, program.functions.get? id =
        (Declaration.find? (Declaration.ofStmts statements) id).map Declaration.function := by
  rcases hgenerated : compile .empty statements with ⟨result, context⟩
  unfold compileProgram at hcompile
  rw [hgenerated] at hcompile
  cases result with
  | error error => cases hcompile
  | ok main =>
      cases hcompile
      obtain ⟨hmain, hdeclares⟩ := compile_of_ok hgenerated
      refine ⟨hmain, fun id => ?_⟩
      rw [hdeclares.functions id]
      cases Declaration.find? (Declaration.ofStmts statements) id with
      | none => rfl
      | some declaration => rfl

theorem follows_main {environment : Environment} {declared : List Declaration} {code : Stream}
    (hprovides : environment.Provides declared) (hcode : code = .ofInstructions (Code.stmts statements))
    (hshort : code.size < Instruction.offsetBound) (globals : Scope) (console : Console) (fuel : Nat) :
    Follows environment fuel (.start code globals console)
      (fun completion after target => completion.Reached environment ⟨code, hshort, []⟩ code.size after target)
      (Meaning.main environment.limits declared statements globals console fuel) := by
  let site : Site := ⟨code, hshort, []⟩
  have hholds : site.code.Holds 0 (Code.stmts statements) := by
    change code.Holds 0 (Code.stmts statements)
    rw [hcode]
    exact Stream.holds_ofInstructions (Code.closed_stmts statements).encodable
  have hend : code.size = 0 + codeSize (Code.stmts statements) := by
    rw [hcode, Stream.size_ofInstructions, Nat.zero_add]
  rw [hend]
  exact carries_stmts (carries_call hprovides fuel site) statements [] 0 hholds 0 ⟨⟨globals, none⟩, console⟩

/-- The machine that runs the program, and what its statements mean. -/
theorem follows_program (hcompile : compileProgram statements = .ok program) (hshort : program.Short)
    (limits : Limits) (globals : Scope) (console : Console) (fuel : Nat) :
    Follows ⟨program.functions, limits⟩ fuel (.start program.main globals console)
      (fun completion after target => target.step ⟨program.functions, limits⟩ =
        .finished ⟨.ok completion.value, after.scopes.globals, after.console⟩)
      (Meaning.program limits statements globals console fuel) := by
  obtain ⟨hmain, hfunctions⟩ := compileProgram_of_ok hcompile
  have hprovides : Environment.Provides ⟨program.functions, limits⟩ (Declaration.ofStmts statements) :=
    ⟨hfunctions, fun id function hget => hshort.2 (id, function) (Table.mem_of_get? hget)⟩
  refine (follows_main hprovides hmain hshort.1 globals console fuel).extend ?_
  intro completion after target hreached
  exact ⟨0, target, rfl, hreached.step (Nat.le_refl _)⟩

theorem ends_of_conclusion (hcompile : compileProgram statements = .ok program) (hshort : program.Short)
    {limits : Limits} {globals : Scope} {console : Console} {fuel : Nat} {conclusion : Conclusion}
    (hconclusion : (Meaning.program limits statements globals console fuel).conclusion? = some conclusion) :
    ∃ report, (Machine.start program.main globals console).Ends ⟨program.functions, limits⟩ report ∧
      report.conclusion? = some conclusion := by
  have hfollows := follows_program hcompile hshort limits globals console fuel
  cases houtcome : Meaning.program limits statements globals console fuel with
  | done completion state =>
      rw [houtcome] at hfollows hconclusion
      cases hconclusion
      obtain ⟨count, target, hrun, hstep⟩ := hfollows
      exact ⟨_, Machine.ends_of_run_step hrun hstep, rfl⟩
  | fault cause globals console =>
      rw [houtcome] at hfollows hconclusion
      cases hconclusion
      obtain ⟨offset, hends⟩ := hfollows
      exact ⟨_, hends, rfl⟩
  | undefined =>
      rw [houtcome] at hconclusion
      cases hconclusion
  | exhausted =>
      rw [houtcome] at hconclusion
      cases hconclusion

/-- A run that ends is explained by the meaning of the statements, with fuel for each of its steps. -/
theorem conclusion_of_ends (hcompile : compileProgram statements = .ok program) (hshort : program.Short)
    {limits : Limits} {globals : Scope} {console : Console} {report : Report}
    (hends : (Machine.start program.main globals console).Ends ⟨program.functions, limits⟩ report) :
    ∃ fuel, Meaning.program limits statements globals console fuel = .undefined ∨
      ∃ conclusion, (Meaning.program limits statements globals console fuel).conclusion? = some conclusion ∧
        report.conclusion? = some conclusion := by
  obtain ⟨fuel, hrun⟩ := hends
  refine ⟨fuel, ?_⟩
  have hconcludes : ∀ conclusion,
      (Meaning.program limits statements globals console fuel).conclusion? = some conclusion →
        report.conclusion? = some conclusion := by
    intro conclusion hconclusion
    obtain ⟨other, hother, hsame⟩ := ends_of_conclusion hcompile hshort hconclusion
    rwa [Machine.Ends.unique ⟨fuel, hrun⟩ hother]
  have hfollows := follows_program hcompile hshort limits globals console fuel
  cases houtcome : Meaning.program limits statements globals console fuel with
  | done completion state =>
      rw [houtcome] at hconcludes
      exact .inr ⟨_, rfl, hconcludes _ rfl⟩
  | fault cause globals console =>
      rw [houtcome] at hconcludes
      exact .inr ⟨_, rfl, hconcludes _ rfl⟩
  | undefined => exact .inl rfl
  | exhausted =>
      rw [houtcome] at hfollows
      obtain ⟨next, hrunning⟩ := hfollows
      rw [hrunning] at hrun
      cases hrun

end Programs

/-- Running a compiled program is carrying out its statements. What these come to is the end of the run; as
long as they go on the run goes on; and a run that ends came to what they mean, unless a call in them passes
a wrong number of arguments or has no value where one is needed. -/
theorem compileProgram_correct {statements : List Stmt} {program : Program}
    (hcompile : compileProgram statements = .ok program) (hshort : program.Short) (limits : Limits)
    (globals : Scope) (console : Console) :
    (∀ fuel conclusion,
      (Meaning.program limits statements globals console fuel).conclusion? = some conclusion →
        ∃ report, (Machine.start program.main globals console).Ends ⟨program.functions, limits⟩ report ∧
          report.conclusion? = some conclusion) ∧
      (∀ fuel, Meaning.program limits statements globals console fuel = .exhausted →
        ∃ next, (Machine.start program.main globals console).run ⟨program.functions, limits⟩ fuel =
          .running next) ∧
      ∀ report, (Machine.start program.main globals console).Ends ⟨program.functions, limits⟩ report →
        ∃ fuel, Meaning.program limits statements globals console fuel = .undefined ∨
          ∃ conclusion,
            (Meaning.program limits statements globals console fuel).conclusion? = some conclusion ∧
              report.conclusion? = some conclusion := by
  refine ⟨fun fuel conclusion => ends_of_conclusion hcompile hshort, fun fuel hexhausted => ?_,
    fun report => conclusion_of_ends hcompile hshort⟩
  have hfollows := follows_program hcompile hshort limits globals console fuel
  rwa [hexhausted] at hfollows

/-- Adds up the doubles of some numbers. The function that doubles stands in a branch that is not taken. -/
def doubled : List Stmt :=
  [.declare 300 .int64 [] none,
   .conditional (.arm (.literal (.bool false) (some .bool))
     [.function 310 [311] [.ret (some (.binary (.arith .mul) (.var 311 (some .int64))
       (.literal (.int 2) (some .int64)) (some .int64)))]] (.otherwise [])),
   .forLoop (.declare 301 .int64 [] (some (.literal (.int 3) (some .int64))))
     (.binary (.compare .gt) (.var 301 (some .int64)) (.literal (.int 0) (some .int64)) (some .bool))
     [.assign 300 .int64 (some .add) (.call 310 [.var 301 (some .int64)] (some .int64)),
      .assign 301 .int64 (some .sub) (.literal (.int 1) (some .int64))],
   .ret (some (.var 300 (some .int64)))]

theorem compileProgram_correct_doubled :
    ∃ program report, compileProgram doubled = .ok program ∧
      (Machine.start program.main .empty ⟨[], #[], none⟩).Ends ⟨program.functions, ⟨16, 4, 16⟩⟩ report ∧
      report.conclusion?.map (·.result) = some (.ok (some (.int 12))) := by
  have hcompile : compileProgram doubled =
      .ok ⟨.ofInstructions (Code.stmts doubled), (compile .empty doubled).2.functions⟩ := by decide +kernel
  have hmeaning : ∃ conclusion,
      (Meaning.program ⟨16, 4, 16⟩ doubled .empty ⟨[], #[], none⟩ 8).conclusion? = some conclusion ∧
        conclusion.result = .ok (some (.int 12)) := by
    refine ⟨⟨.ok (some (.int 12)), (Table.empty.insert 300 (.int 12)).insert 301 (.int 0),
      ⟨[], #[], none⟩⟩, ?_, rfl⟩
    decide +kernel
  obtain ⟨conclusion, hconclusion, hresult⟩ := hmeaning
  obtain ⟨report, hends, hreport⟩ := (compileProgram_correct hcompile (by decide +kernel) ⟨16, 4, 16⟩ .empty
    ⟨[], #[], none⟩).1 8 conclusion hconclusion
  refine ⟨_, report, hcompile, hends, ?_⟩
  rw [hreport, Option.map_some, hresult]

end StackCode
