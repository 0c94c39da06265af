import StackCode.Proofs.Moves

/-! Calls as recursion. The machine keeps the frames of callers in a list; a recursive interpreter keeps them
in its own recursion, and runs the stream of a callee to its end before it goes on with the caller. Both come
to the same reports, on any streams whatsoever. -/

namespace StackCode
namespace Recursive

/-- Runs a frame until it is left or fails, while `depth` calls are active. Without a report the fuel, which
bounds the recursion, did not suffice. -/
def run (environment : Environment) : (fuel depth : Nat) → Frame → Scope → Console → Option Report
  | 0, _, _, _, _ => none
  | fuel + 1, depth, frame, globals, console =>
    match frame.move environment.limits globals console with
    | .proceed frame globals console => run environment fuel depth frame globals console
    | .leave value => some ⟨.ok value, globals, console⟩
    | .fail error console => some ⟨.error error, globals, console⟩
    | .call id frame =>
      match beginCall environment depth id frame.stack with
      | .error fault => some ⟨.error (.fault frame.current fault), globals, console⟩
      | .ok (callee, stack) =>
        match run environment fuel (depth + 1) callee globals console with
        | none => none
        | some ⟨.error error, globals, console⟩ => some ⟨.error error, globals, console⟩
        | some ⟨.ok value, globals, console⟩ =>
          match receive environment.limits value stack with
          | .error fault => some ⟨.error (.fault frame.current fault), globals, console⟩
          | .ok stack => run environment fuel depth { frame with stack } globals console

variable {environment : Environment}

/-- More fuel does not change a report. -/
theorem run_mono {fuel more depth : Nat} {frame : Frame} {globals : Scope} {console : Console}
    {report : Report} (hrun : run environment fuel depth frame globals console = some report)
    (hle : fuel ≤ more) : run environment more depth frame globals console = some report := by
  induction fuel generalizing more depth frame globals console report with
  | zero => cases hrun
  | succ fuel ih =>
      obtain ⟨more, rfl⟩ : ∃ less, more = less + 1 := ⟨more - 1, by omega⟩
      have hless : fuel ≤ more := by omega
      cases hmove : frame.move environment.limits globals console with
      | proceed next after written =>
          simp only [run, hmove] at hrun ⊢
          exact ih hrun hless
      | leave value =>
          simp only [run, hmove] at hrun ⊢
          exact hrun
      | fail error written =>
          simp only [run, hmove] at hrun ⊢
          exact hrun
      | call id caller =>
          rcases hbegin : beginCall environment depth id caller.stack with fault | ⟨callee, stack⟩
          · simp only [run, hmove, hbegin] at hrun ⊢
            exact hrun
          simp only [run, hmove, hbegin] at hrun ⊢
          rcases hcallee : run environment fuel (depth + 1) callee globals console with
            _ | ⟨error | value, after, written⟩
          · simp only [hcallee] at hrun
            cases hrun
          · simp only [hcallee] at hrun
            simp only [ih hcallee hless]
            exact hrun
          · simp only [hcallee] at hrun
            simp only [ih hcallee hless]
            cases hreceive : receive environment.limits value stack with
            | error fault =>
                simp only [hreceive] at hrun ⊢
                exact hrun
            | ok received =>
                simp only [hreceive] at hrun ⊢
                exact ih hrun hless

/-- A machine does with its active frame what the recursive interpreter does, and hands the report on to the
callers. The callers are arbitrary, since a callee runs over one caller more. -/
theorem run_machine {fuel : Nat} {frame : Frame} {callers : List Frame} {globals : Scope} {console : Console}
    {report : Report} (hrun : run environment fuel callers.length frame globals console = some report) :
    ∃ count, Machine.run environment count ⟨frame, callers, globals, console⟩ =
      report.deliver environment callers := by
  induction fuel generalizing frame callers globals console report with
  | zero => cases hrun
  | succ fuel ih =>
      cases hmove : frame.move environment.limits globals console with
      | proceed next after written =>
          simp only [run, hmove] at hrun
          obtain ⟨count, hcount⟩ := ih hrun
          refine ⟨count + 1, ?_⟩
          rw [Machine.run_succ_of_running (Machine.step_of_proceed hmove)]
          exact hcount
      | leave value =>
          simp only [run, hmove] at hrun
          cases hrun
          refine ⟨1, ?_⟩
          rw [Machine.run_one, Machine.step_of_leave hmove]
      | fail error written =>
          simp only [run, hmove] at hrun
          cases hrun
          refine ⟨1, ?_⟩
          rw [Machine.run_one, Machine.step_of_fail hmove, Report.deliver_error]
      | call id caller =>
          rcases hbegin : beginCall environment callers.length id caller.stack with fault | ⟨callee, stack⟩
          · simp only [run, hmove, hbegin] at hrun
            cases hrun
            refine ⟨1, ?_⟩
            rw [Machine.run_one, Machine.step_of_refused hmove hbegin, Report.deliver_error]
          simp only [run, hmove, hbegin] at hrun
          rcases hcallee : run environment fuel (callers.length + 1) callee globals console with
            _ | ⟨result, after, written⟩
          · simp only [hcallee] at hrun
            cases hrun
          obtain ⟨count, hcount⟩ : ∃ count, Machine.run environment count
              ⟨callee, { caller with stack } :: callers, globals, console⟩ =
                Report.deliver environment ⟨result, after, written⟩ ({ caller with stack } :: callers) :=
            ih hcallee
          have hreturn : Machine.run environment (count + 1) ⟨frame, callers, globals, console⟩ =
              Report.deliver environment ⟨result, after, written⟩ ({ caller with stack } :: callers) := by
            rw [Machine.run_succ_of_running (Machine.step_of_call hmove hbegin)]
            exact hcount
          simp only [hcallee] at hrun
          cases result with
          | error error =>
              cases hrun
              refine ⟨count + 1, ?_⟩
              rw [hreturn, Report.deliver_error, Report.deliver_error]
          | ok value =>
              cases hreceive : receive environment.limits value stack with
              | error fault =>
                  simp only [hreceive] at hrun
                  cases hrun
                  refine ⟨count + 1, ?_⟩
                  rw [hreturn, Report.deliver_error]
                  simp only [Report.deliver, hreceive]
              | ok received =>
                  simp only [hreceive] at hrun
                  obtain ⟨more, hmore⟩ := ih hrun
                  refine ⟨count + 1 + more, ?_⟩
                  rw [Machine.run_add, hreturn]
                  simp only [Report.deliver, hreceive]
                  exact hmore

/-- If a machine comes to its end, then the recursive interpreter comes to the end of its active frame. -/
theorem exists_run {count : Nat} {frame : Frame} {callers : List Frame} {globals : Scope} {console : Console}
    {last : Report}
    (hrun : Machine.run environment count ⟨frame, callers, globals, console⟩ = .finished last) :
    ∃ fuel report, run environment fuel callers.length frame globals console = some report := by
  induction count using Nat.strong_induction_on generalizing frame callers globals console with
  | _ count ih =>
      obtain ⟨count, rfl⟩ : ∃ less, count = less + 1 := by
        cases count with
        | zero => cases hrun
        | succ less => exact ⟨less, rfl⟩
      cases hmove : frame.move environment.limits globals console with
      | proceed next after written =>
          rw [Machine.run_succ_of_running (Machine.step_of_proceed hmove)] at hrun
          obtain ⟨fuel, report, hreport⟩ := ih count (by omega) hrun
          refine ⟨fuel + 1, report, ?_⟩
          simp only [run, hmove]
          exact hreport
      | leave value =>
          refine ⟨1, ⟨.ok value, globals, console⟩, ?_⟩
          simp only [run, hmove]
      | fail error written =>
          refine ⟨1, ⟨.error error, globals, written⟩, ?_⟩
          simp only [run, hmove]
      | call id caller =>
          rcases hbegin : beginCall environment callers.length id caller.stack with fault | ⟨callee, stack⟩
          · refine ⟨1, ⟨.error (.fault caller.current fault), globals, console⟩, ?_⟩
            simp only [run, hmove, hbegin]
          rw [Machine.run_succ_of_running (Machine.step_of_call hmove hbegin)] at hrun
          obtain ⟨calleeFuel, ⟨result, after, written⟩, hcallee⟩ := ih count (by omega) hrun
          rw [List.length_cons] at hcallee
          cases result with
          | error error =>
              refine ⟨calleeFuel + 1, ⟨.error error, after, written⟩, ?_⟩
              simp only [run, hmove, hbegin, hcallee]
          | ok value =>
              cases hreceive : receive environment.limits value stack with
              | error fault =>
                  refine ⟨calleeFuel + 1, ⟨.error (.fault caller.current fault), after, written⟩, ?_⟩
                  simp only [run, hmove, hbegin, hcallee, hreceive]
              | ok received =>
                  -- the callee takes some of the steps, and the caller ends within the rest
                  obtain ⟨taken, htaken⟩ : ∃ taken, Machine.run environment taken
                      ⟨callee, { caller with stack } :: callers, globals, console⟩ =
                        Report.deliver environment ⟨.ok value, after, written⟩ ({ caller with stack } :: callers) :=
                    run_machine hcallee
                  simp only [Report.deliver, hreceive] at htaken
                  have hlt : taken < count := by
                    by_contra hle
                    rw [Machine.run_finished_of_le hrun (by omega)] at htaken
                    cases htaken
                  obtain ⟨left, rfl⟩ := Nat.exists_eq_add_of_lt hlt
                  rw [Nat.add_assoc, Machine.run_add, htaken] at hrun
                  obtain ⟨fuel, report, hreport⟩ := ih (left + 1) (by omega) hrun
                  have hmore := run_mono hcallee (Nat.le_max_left calleeFuel fuel)
                  refine ⟨max calleeFuel fuel + 1, report, ?_⟩
                  simp only [run, hmove, hbegin, hmore, hreceive]
                  exact run_mono hreport (Nat.le_max_right calleeFuel fuel)

end Recursive

/-- The machine, which keeps its callers in a list, ends with a report if and only if the recursive interpreter
comes to that report: the same value or error, globals, unread input and output. -/
theorem ends_iff_recursive (functions : FunctionTable) (limits : Limits) (main : Stream) (globals : Scope)
    (console : Console) (report : Report) :
    (Machine.start main globals console).Ends ⟨functions, limits⟩ report ↔
      ∃ fuel, Recursive.run ⟨functions, limits⟩ fuel 0 (.start main none) globals console = some report := by
  have hends : ∀ {fuel : Nat} {found : Report},
      Recursive.run ⟨functions, limits⟩ fuel 0 (.start main none) globals console = some found →
        (Machine.start main globals console).Ends ⟨functions, limits⟩ found := by
    intro fuel found hfound
    exact Recursive.run_machine hfound
  constructor
  · rintro ⟨count, hrun⟩
    obtain ⟨fuel, found, hfound⟩ := Recursive.exists_run hrun
    rw [Machine.Ends.unique ⟨count, hrun⟩ (hends hfound)]
    exact ⟨fuel, hfound⟩
  · rintro ⟨fuel, hfound⟩
    exact hends hfound

-- the stack of the caller is full, so the fault lies at the call and not in the callee
example :
    (Recursive.run ⟨.ofList [(64, ⟨[], .ofInstructions [.pushInt 7, .plain .ret]⟩)], ⟨1, 1, 0⟩⟩ 5 0
      (.start (.ofInstructions [.pushInt 1, .call 64]) none) .empty ⟨[], #[], none⟩).map (·.result) =
        some (.error (.fault 2 .stackOverflow)) := by decide +kernel

end StackCode
