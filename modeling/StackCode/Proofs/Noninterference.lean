import StackCode.Proofs.Locality

/-! Variables that a program does not mention do not matter to it. Two runs of verified streams from global scopes that
agree on the variables that some instruction names stay side by side: the frames and the console are the same, the
globals still agree on these variables, and no other global has changed. -/

namespace StackCode

/-- The variable that an instruction names. -/
def Instruction.named? (instruction : Instruction) : Option SymbolId :=
  match instruction.opcode, instruction.operand with
  | .load, .word id => some id
  | .store, .word id => some id
  | .loadElement, .element id _ => some id
  | .storeElement, .element id _ => some id
  | _, _ => none

/-- The variables that the instructions of a stream name. -/
def Stream.mentioned (code : Stream) : List SymbolId :=
  code.scan.instructions.filterMap fun entry => entry.2.named?

/-- The variables that the instructions of a program name, those of all its functions included. -/
def Program.mentioned (program : Program) : List SymbolId :=
  program.main.mentioned ++ program.functions.entries.flatMap fun entry => entry.2.code.mentioned

/-- Instructions that name no variables but these. -/
def Instruction.NamesOnly (ids : List SymbolId) (instruction : Instruction) : Prop :=
  ∀ id, instruction.named? = some id → id ∈ ids

theorem Stream.all_namesOnly {code : Stream} {ids : List SymbolId} (hids : ∀ id ∈ code.mentioned, id ∈ ids) :
    code.All (Instruction.NamesOnly ids) :=
  fun entry hentry id hnamed => hids id (List.mem_filterMap.mpr ⟨entry, hentry, hnamed⟩)

theorem Program.all_main (program : Program) : program.main.All (Instruction.NamesOnly program.mentioned) :=
  Stream.all_namesOnly fun _ hid => List.mem_append_left _ hid

theorem Program.all_function {program : Program} {id : SymbolId} {function : Function}
    (hfunction : program.functions.get? id = some function) :
    function.code.All (Instruction.NamesOnly program.mentioned) :=
  Stream.all_namesOnly fun _ hid =>
    List.mem_append_right _ (List.mem_flatMap.mpr ⟨(id, function), Table.mem_of_get? hfunction, hid⟩)

/-- Two global scopes that have come from a first and a second one: they agree on some variables, and all others are as
they were. -/
structure Scope.Parallel (ids : List SymbolId) (first second globals others : Scope) : Prop where
  agree : ∀ id ∈ ids, others.get? id = globals.get? id
  kept : ∀ id, id ∉ ids → globals.get? id = first.get? id
  othersKept : ∀ id, id ∉ ids → others.get? id = second.get? id

variable {ids : List SymbolId} {first second globals others : Scope}

namespace Scope.Parallel

theorem insert (hparallel : Parallel ids first second globals others) {id : SymbolId} (hid : id ∈ ids) (value : Value) :
    Parallel ids first second (Table.insert globals id value) (Table.insert others id value) where
  agree key hkey := by rw [Table.get?_insert, Table.get?_insert, hparallel.agree key hkey]
  kept key hkey := by
    have hne : key ≠ id := fun heq => hkey (heq ▸ hid)
    rw [Table.get?_insert, if_neg hne, hparallel.kept key hkey]
  othersKept key hkey := by
    have hne : key ≠ id := fun heq => hkey (heq ▸ hid)
    rw [Table.get?_insert, if_neg hne, hparallel.othersKept key hkey]

theorem contains (hparallel : Parallel ids first second globals others) {id : SymbolId} (hid : id ∈ ids) :
    Table.contains others id = Table.contains globals id := by
  rw [Table.contains, Table.contains, hparallel.agree id hid]

end Scope.Parallel

/-- The scopes that running code sees on either side: the variables of the call are the same. -/
structure Scopes.Parallel (ids : List SymbolId) (first second : Scope) (scopes others : Scopes) : Prop where
  locals : others.locals = scopes.locals
  globals : Scope.Parallel ids first second scopes.globals others.globals

namespace Scopes.Parallel

variable {scopes others : Scopes} {id : SymbolId}

theorem load (hparallel : Parallel ids first second scopes others) (hid : id ∈ ids) :
    others.load id = scopes.load id := by
  rw [Scopes.load, Scopes.load, hparallel.locals, hparallel.globals.agree id hid]

/-- Where a variable is stored depends on whether it is a global one, which it is on both sides or on none. -/
theorem store (hparallel : Parallel ids first second scopes others) (hid : id ∈ ids) (value : Value) :
    Parallel ids first second (scopes.store id value) (others.store id value) := by
  obtain ⟨globals, locals⟩ := scopes
  obtain ⟨otherGlobals, otherLocals⟩ := others
  obtain ⟨rfl, hglobals⟩ := hparallel
  simp only [Scopes.store, hglobals.contains hid]
  split
  · exact ⟨rfl, hglobals.insert hid value⟩
  · cases otherLocals with
    | some locals => exact ⟨rfl, hglobals⟩
    | none => exact ⟨rfl, hglobals.insert hid value⟩

theorem replace (hparallel : Parallel ids first second scopes others) (hid : id ∈ ids) (value : Value) :
    Parallel ids first second (scopes.replace id value) (others.replace id value) := by
  obtain ⟨globals, locals⟩ := scopes
  obtain ⟨otherGlobals, otherLocals⟩ := others
  obtain ⟨rfl, hglobals⟩ := hparallel
  simp only [Scopes.replace, hglobals.contains hid]
  split
  · split
    · exact ⟨rfl, hglobals⟩
    · split
      · exact ⟨rfl, hglobals.insert hid value⟩
      · exact ⟨rfl, hglobals⟩
  · split
    · exact ⟨rfl, hglobals.insert hid value⟩
    · exact ⟨rfl, hglobals⟩

end Scopes.Parallel

/-- Two executions of an instruction that do the same to the frame and keep the globals side by side. -/
inductive ActsAlike (ids : List SymbolId) (first second : Scope) :
    Except Fault Action → Except Fault Action → Prop where
  | fault (fault : Fault) : ActsAlike ids first second (.error fault) (.error fault)
  | proceed {globals others : Scope} (frame : Frame) (hglobals : Scope.Parallel ids first second globals others) :
      ActsAlike ids first second (.ok (.proceed frame globals)) (.ok (.proceed frame others))
  | builtin (function : Builtin) (frame : Frame) :
      ActsAlike ids first second (.ok (.builtin function frame)) (.ok (.builtin function frame))
  | call (id : SymbolId) (frame : Frame) :
      ActsAlike ids first second (.ok (.call id frame)) (.ok (.call id frame))
  | leave (value : Option Value) : ActsAlike ids first second (.ok (.leave value)) (.ok (.leave value))

namespace ActsAlike

theorem after {α : Type} {computed otherwise : Except Fault α} (hsame : otherwise = computed)
    {next other : α → Except Fault Action}
    (hnext : ∀ value, computed = .ok value → ActsAlike ids first second (next value) (other value)) :
    ActsAlike ids first second (computed >>= next) (otherwise >>= other) := by
  subst hsame
  cases otherwise with
  | error fault => exact .fault fault
  | ok value => exact hnext value rfl

theorem withScopes {scopes others : Scopes} (hscopes : scopes.Parallel ids first second others) (frame : Frame)
    (stack : Stack) :
    ActsAlike ids first second (.ok (.proceed { frame with stack, locals := scopes.locals } scopes.globals))
      (.ok (.proceed { frame with stack, locals := others.locals } others.globals)) := by
  rw [hscopes.locals]
  exact .proceed _ hscopes.globals

end ActsAlike

theorem Instruction.requireWord_eq_ok {instruction : Instruction} {word : UInt64}
    (hword : instruction.requireWord = .ok word) : instruction.operand = .word word := by
  unfold requireWord at hword
  split at hword
  · rename_i hoperand
    rw [hoperand, Except.ok.inj hword]
  · cases hword

theorem Instruction.requireElement_eq_ok {instruction : Instruction} {place : SymbolId × UInt64}
    (hplace : instruction.requireElement = .ok place) : instruction.operand = .element place.1 place.2 := by
  unfold requireElement at hplace
  split at hplace
  · rename_i hoperand
    rw [hoperand, ← Except.ok.inj hplace]
  · cases hplace

namespace Frame

theorem execute_alike {instruction : Instruction} (hnames : instruction.NamesOnly ids)
    (hglobals : Scope.Parallel ids first second globals others) (limits : Limits) (frame : Frame) :
    ActsAlike ids first second (frame.execute limits globals instruction)
      (frame.execute limits others instruction) := by
  have hscopes : (frame.scopes globals).Parallel ids first second (frame.scopes others) := ⟨rfl, hglobals⟩
  have hproceed : ∀ next : Except Fault Frame, ActsAlike ids first second
      (next >>= fun frame => .ok (.proceed frame globals)) (next >>= fun frame => .ok (.proceed frame others)) :=
    fun next => .after rfl fun frame _ => .proceed frame hglobals
  obtain ⟨opcode, operand⟩ := instruction
  cases opcode with
  | pushInt | pushUInt | pushSingle | pushDouble => exact .after rfl fun value _ => hproceed _
  | operate operation => exact .after rfl fun result _ => hproceed _
  | load =>
      refine .after rfl fun id hword => ?_
      obtain rfl : operand = .word id := Instruction.requireWord_eq_ok hword
      exact .after (congrArg (require id) (hscopes.load (hnames id rfl))) fun value _ => hproceed _
  | store =>
      refine .after rfl fun id hword => .after rfl fun popped _ => ?_
      obtain rfl : operand = .word id := Instruction.requireWord_eq_ok hword
      exact .withScopes (hscopes.store (hnames id rfl) popped.1) frame popped.2
  | loadElement =>
      refine .after rfl fun place hplace => .after rfl fun path _ => ?_
      obtain rfl : operand = .element place.1 place.2 := Instruction.requireElement_eq_ok hplace
      refine .after (congrArg (require place.1) (hscopes.load (hnames place.1 rfl))) fun base _ => ?_
      exact .after rfl fun value _ => hproceed _
  | storeElement =>
      refine .after rfl fun place hplace => .after rfl fun popped _ => .after rfl fun path _ => ?_
      obtain rfl : operand = .element place.1 place.2 := Instruction.requireElement_eq_ok hplace
      refine .after (congrArg (require place.1) (hscopes.load (hnames place.1 rfl))) fun base _ => ?_
      refine .after rfl fun updated _ => ?_
      exact .withScopes (hscopes.replace (hnames place.1 rfl) updated) frame path.2
  | allocString =>
      refine .after rfl fun count _ => .after rfl fun codes _ => ?_
      exact .after rfl fun chars _ => hproceed _
  | allocArray => exact .after rfl fun count _ => .after rfl fun items _ => hproceed _
  | allocFilled =>
      refine .after rfl fun fill _ => .after rfl fun sizes _ => ?_
      exact .after rfl fun shape _ => .after rfl fun _ _ => hproceed _
  | jump | jumpBackward => exact .after rfl fun distance _ => hproceed _
  | jumpIfFalse =>
      refine .after rfl fun distance _ => .after rfl fun popped _ => ?_
      simp only
      split
      · exact .proceed _ hglobals
      · exact hproceed _
      · exact .fault _
  | call =>
      refine .after rfl fun id _ => ?_
      split
      · split
        · exact .builtin _ _
        · exact .fault _
      · exact .call _ _
  | ret => exact .leave _
  | pop => exact .after rfl fun popped _ => .proceed _ hglobals

end Frame

/-- Two moves that do the same to the frame and the console and keep the globals side by side. -/
inductive Move.Alike (ids : List SymbolId) (first second : Scope) : Move → Move → Prop where
  | proceed {globals others : Scope} (frame : Frame) (console : Console)
      (hglobals : Scope.Parallel ids first second globals others) :
      Alike ids first second (.proceed frame globals console) (.proceed frame others console)
  | call (id : SymbolId) (frame : Frame) : Alike ids first second (.call id frame) (.call id frame)
  | leave (value : Option Value) : Alike ids first second (.leave value) (.leave value)
  | fail (error : RuntimeError) (console : Console) :
      Alike ids first second (.fail error console) (.fail error console)

namespace Frame

theorem performed_alike {instruction : Instruction} (hnames : instruction.NamesOnly ids)
    (hglobals : Scope.Parallel ids first second globals others) (limits : Limits) (console : Console) (frame : Frame) :
    (frame.performed limits globals console instruction).Alike ids first second
      (frame.performed limits others console instruction) := by
  have hexecute := frame.execute_alike hnames hglobals limits
  unfold performed
  generalize frame.execute limits globals instruction = result at hexecute
  generalize frame.execute limits others instruction = other at hexecute
  cases hexecute with
  | fault fault => exact .fail _ _
  | proceed frame hglobals => exact .proceed frame console hglobals
  | builtin function frame =>
      simp only
      rcases function.perform limits frame.stack console with ⟨fault | stack, written⟩
      · exact .fail _ _
      · exact .proceed _ written hglobals
  | call id frame => exact .call id frame
  | leave value => exact .leave value

theorem move_alike {frame : Frame} (hframe : frame.Executes (Instruction.NamesOnly ids))
    (hglobals : Scope.Parallel ids first second globals others) (limits : Limits) (console : Console) :
    (frame.move limits globals console).Alike ids first second (frame.move limits others console) := by
  unfold move
  split
  · exact .leave none
  · cases hdecode : frame.code.decodeAt frame.next with
    | error error => exact .fail _ _
    | ok instruction => exact performed_alike (hframe.of_decodeAt hdecode) hglobals limits console _

end Frame

/-- Two reports with the same result and the same console, and globals side by side. -/
structure Report.Alike (ids : List SymbolId) (first second : Scope) (report other : Report) : Prop where
  result : other.result = report.result
  console : other.console = report.console
  globals : Scope.Parallel ids first second report.globals other.globals

/-- Two machines that differ at most in their globals, which are side by side. -/
inductive Machine.Alike (ids : List SymbolId) (first second : Scope) : Machine → Machine → Prop where
  | mk {globals others : Scope} (frame : Frame) (callers : List Frame) (console : Console)
      (hglobals : Scope.Parallel ids first second globals others) :
      Alike ids first second ⟨frame, callers, globals, console⟩ ⟨frame, callers, others, console⟩

theorem Report.deliver_alike (environment : Environment) (value : Option Value) (console : Console)
    (hglobals : Scope.Parallel ids first second globals others) (callers : List Frame) :
    (deliver environment ⟨.ok value, globals, console⟩ callers).Related (Machine.Alike ids first second)
      (Report.Alike ids first second) (deliver environment ⟨.ok value, others, console⟩ callers) := by
  cases callers with
  | nil => exact .finished ⟨rfl, rfl, hglobals⟩
  | cons caller rest =>
      simp only [deliver]
      cases receive environment.limits value caller.stack with
      | ok stack => exact .running (.mk _ _ _ hglobals)
      | error fault => exact .finished ⟨rfl, rfl, hglobals⟩

namespace Machine

variable {environment : Environment} {machine other : Machine}

theorem Alike.step (halike : machine.Alike ids first second other)
    (hmachine : machine.Executes (Instruction.NamesOnly ids)) :
    (machine.step environment).Related (Alike ids first second) (Report.Alike ids first second)
      (other.step environment) := by
  obtain ⟨frame, callers, console, hglobals⟩ := halike
  have hmove := Frame.move_alike (hmachine frame List.mem_cons_self) hglobals environment.limits console
  rw [step_eq_move, step_eq_move]
  simp only
  generalize frame.move environment.limits _ console = move at hmove
  generalize frame.move environment.limits _ console = otherMove at hmove
  cases hmove with
  | proceed next written hafter => exact .running (.mk _ _ _ hafter)
  | call id caller =>
      simp only
      cases beginCall environment callers.length id caller.stack with
      | error fault => exact .finished ⟨rfl, rfl, hglobals⟩
      | ok begun => exact .running (.mk _ _ _ hglobals)
  | leave value => exact Report.deliver_alike environment value console hglobals callers
  | fail error written => exact .finished ⟨rfl, rfl, hglobals⟩

theorem Alike.run (hfunctions : environment.Executes (Instruction.NamesOnly ids)) (count : Nat)
    (hmachine : machine.Executes (Instruction.NamesOnly ids)) (halike : machine.Alike ids first second other) :
    (machine.run environment count).Related
      (fun machine other => machine.Executes (Instruction.NamesOnly ids) ∧ machine.Alike ids first second other)
      (Report.Alike ids first second) (other.run environment count) := by
  refine run_related ?_ count ⟨hmachine, halike⟩
  rintro machine other ⟨hmachine, halike⟩
  exact (halike.step hmachine).with_left fun next hstep => hmachine.step hfunctions hstep

end Machine

theorem Program.executes_mentioned {program : Program} {limits : Limits}
    (hfunctions : Environment.Verified ⟨program.functions, limits⟩) :
    Environment.Executes (Instruction.NamesOnly program.mentioned) ⟨program.functions, limits⟩ :=
  fun id function hfunction => ⟨hfunctions id function hfunction, program.all_function hfunction⟩

/-- Globals that no instruction of a verified program names do not matter: from two scopes that agree on what is named
the runs end both or not at all, with the same result and the same console. All the while the globals agree on what
is named, and the rest of them stay as they were. -/
theorem noninterference (program : Program) (limits : Limits) (console : Console) (first second : Scope)
    (hmain : program.main.checkJumps = .ok ()) (hfunctions : Environment.Verified ⟨program.functions, limits⟩)
    (hagree : ∀ id ∈ program.mentioned, second.get? id = first.get? id) :
    ((∃ report, (Machine.start program.main first console).Ends ⟨program.functions, limits⟩ report) ↔
      ∃ other, (Machine.start program.main second console).Ends ⟨program.functions, limits⟩ other) ∧
    (∀ report other, (Machine.start program.main first console).Ends ⟨program.functions, limits⟩ report →
      (Machine.start program.main second console).Ends ⟨program.functions, limits⟩ other →
      report.Alike program.mentioned first second other) ∧
    ∀ count machine, (Machine.start program.main first console).run ⟨program.functions, limits⟩ count =
        .running machine →
      ∃ other, (Machine.start program.main second console).run ⟨program.functions, limits⟩ count = .running other ∧
        Scope.Parallel program.mentioned first second machine.globals other.globals := by
  have hstart : (Machine.start program.main first console).Alike program.mentioned first second
      (Machine.start program.main second console) :=
    .mk _ _ _ ⟨hagree, fun _ _ => rfl, fun _ _ => rfl⟩
  have hruns := fun count => hstart.run (Program.executes_mentioned hfunctions) count
    (Machine.start_executes hmain program.all_main first console)
  obtain ⟨hends, hotherEnds⟩ := Machine.ends_related hruns
  refine ⟨⟨?_, ?_⟩, ?_, ?_⟩
  · rintro ⟨report, hreport⟩
    obtain ⟨other, hother, -⟩ := hends report hreport
    exact ⟨other, hother⟩
  · rintro ⟨other, hother⟩
    obtain ⟨report, hreport, -⟩ := hotherEnds other hother
    exact ⟨report, hreport⟩
  · intro report other hreport hother
    obtain ⟨counterpart, hcounterpart, halike⟩ := hends report hreport
    rwa [hcounterpart.unique hother] at halike
  · intro count machine hrun
    have hboth := hruns count
    rw [hrun] at hboth
    generalize (Machine.start program.main second console).run ⟨program.functions, limits⟩ count = status at hboth
    cases hboth with
    | running hmachines =>
        obtain ⟨frame, callers, written, hglobals⟩ := hmachines.2
        exact ⟨_, rfl, hglobals⟩

/-- Adds an argument to a variable by way of a variable of the call. -/
def raisesTotal : Program where
  main := .ofInstructions [.pushInt 3, .call 64, .store 70]
  functions := .ofList [(64, ⟨[71], .ofInstructions [.load 71, .store 72, .load 72, .load 70,
    .operate (.intArith .add), .plain .ret]⟩)]

/-- The one scope binds a variable that the program does not name, the other does not. -/
theorem noninterference_raisesTotal :
    raisesTotal.mentioned = [70, 71, 72, 72, 70] ∧
    (Machine.start raisesTotal.main (.ofList [(70, .int 5), (99, .int 1)]) ⟨[], #[], none⟩).Ends
      ⟨raisesTotal.functions, .default⟩ ⟨.ok none, .ofList [(70, .int 8), (99, .int 1)], ⟨[], #[], none⟩⟩ ∧
    (∃ other, (Machine.start raisesTotal.main (.ofList [(70, .int 5)]) ⟨[], #[], none⟩).Ends
      ⟨raisesTotal.functions, .default⟩ other) ∧
    ∀ other, (Machine.start raisesTotal.main (.ofList [(70, .int 5)]) ⟨[], #[], none⟩).Ends
        ⟨raisesTotal.functions, .default⟩ other →
      other.result = .ok none ∧ other.globals.get? 70 = some (.int 8) ∧ other.globals.get? 99 = none := by
  have hmain : raisesTotal.main.checkJumps = .ok () := by decide +kernel
  have hfunctions : Environment.Verified ⟨raisesTotal.functions, .default⟩ := by
    intro id function hfunction
    have hchecked : ∀ entry ∈ raisesTotal.functions.entries, entry.2.code.checkJumps = .ok () := by decide +kernel
    exact hchecked _ (Table.mem_of_get? hfunction)
  have hmentioned : raisesTotal.mentioned = [70, 71, 72, 72, 70] := by decide +kernel
  have hends : (Machine.start raisesTotal.main (.ofList [(70, .int 5), (99, .int 1)]) ⟨[], #[], none⟩).Ends
      ⟨raisesTotal.functions, .default⟩ ⟨.ok none, .ofList [(70, .int 8), (99, .int 1)], ⟨[], #[], none⟩⟩ :=
    ⟨10, by decide +kernel⟩
  have hagree : ∀ id ∈ raisesTotal.mentioned, Table.get? (.ofList [(70, .int 5)] : Scope) id =
      Table.get? (.ofList [(70, .int 5), (99, .int 1)]) id := by
    simp only [hmentioned, List.forall_mem_cons]
    exact ⟨rfl, rfl, rfl, rfl, rfl, nofun⟩
  obtain ⟨hboth, halike, -⟩ := noninterference raisesTotal .default ⟨[], #[], none⟩
    (.ofList [(70, .int 5), (99, .int 1)]) (.ofList [(70, .int 5)]) hmain hfunctions hagree
  refine ⟨hmentioned, hends, hboth.mp ⟨_, hends⟩, fun other hother => ?_⟩
  obtain ⟨hresult, -, hagree, -, hkept⟩ := halike _ other hends hother
  refine ⟨hresult, (hagree 70 (by simp [hmentioned])).trans (by decide +kernel), ?_⟩
  exact (hkept 99 (by simp [hmentioned])).trans (by decide +kernel)

end StackCode
