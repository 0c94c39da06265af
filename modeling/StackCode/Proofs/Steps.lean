import Mathlib
import StackCode.Machine.Step

/-! Runs as sequences of steps: runs add up, end in one way only, and keep what every step keeps. Two runs stay side by
side if every step keeps them there. -/

namespace StackCode

deriving instance DecidableEq for Report, Status

namespace Status

/-- Of a machine that goes on the one property holds, of the report of one that ended the other. -/
def Meets (invariant : Machine → Prop) (final : Report → Prop) : Status → Prop
  | .running machine => invariant machine
  | .finished report => final report

/-- Of two machines that both go on the one relation holds, of the reports of two that both ended the other. -/
inductive Related (machines : Machine → Machine → Prop) (reports : Report → Report → Prop) :
    Status → Status → Prop where
  | running {machine other : Machine} (hmachines : machines machine other) :
      Related machines reports (.running machine) (.running other)
  | finished {report other : Report} (hreports : reports report other) :
      Related machines reports (.finished report) (.finished other)

theorem Related.with_left {machines : Machine → Machine → Prop} {reports : Report → Report → Prop}
    {property : Machine → Prop} {status other : Status} (hrelated : status.Related machines reports other)
    (hproperty : ∀ machine, status = .running machine → property machine) :
    status.Related (fun machine other => property machine ∧ machines machine other) reports other := by
  cases hrelated with
  | running hmachines => exact .running ⟨hproperty _ rfl, hmachines⟩
  | finished hreports => exact .finished hreports

end Status

namespace Frame

theorem jumpForward_of_le {frame : Frame} {distance : UInt64}
    (hle : frame.next + distance.toNat ≤ frame.code.size) :
    frame.jumpForward distance = .ok { frame with next := frame.next + distance.toNat } :=
  if_pos hle

theorem jumpBackward_of_le {frame : Frame} {distance : UInt64} (hle : distance.toNat ≤ frame.next) :
    frame.jumpBackward distance = .ok { frame with next := frame.next - distance.toNat } :=
  if_pos hle

theorem execute_jumpIfFalse (limits : Limits) (globals : Scope) (frame : Frame) (distance : UInt64) :
    frame.execute limits globals ⟨.jumpIfFalse, .word distance⟩ =
      match frame.stack with
      | [] => .error .stackUnderflow
      | cond :: rest =>
        match cond.truth? with
        | some true => .ok (.proceed { frame with stack := rest } globals)
        | some false => { frame with stack := rest }.jumpForward distance >>= fun next => .ok (.proceed next globals)
        | none => .error (.mismatch .jumpIfFalse cond) := by
  obtain ⟨code, locals, stack, next, current⟩ := frame
  cases stack <;> rfl

theorem execute_call {id : SymbolId} (hreserved : isReserved id = false) (limits : Limits)
    (globals : Scope) (frame : Frame) : frame.execute limits globals (.call id) = .ok (.call id frame) := by
  change (if isReserved id = true then _ else _) = _
  rw [hreserved]
  rfl

theorem execute_call_reserved {id : SymbolId} (hreserved : isReserved id = true) (limits : Limits)
    (globals : Scope) (frame : Frame) :
    frame.execute limits globals (.call id) =
      match Builtin.ofId? id with
      | some builtin => .ok (.builtin builtin frame)
      | none => .error (.unknownFunction id) :=
  if_pos hreserved

end Frame

namespace Machine

variable {environment : Environment}

theorem run_succ (count : Nat) (machine : Machine) :
    machine.run environment (count + 1) =
      match machine.step environment with
      | .running next => next.run environment count
      | .finished report => .finished report :=
  rfl

theorem run_one (machine : Machine) : machine.run environment 1 = machine.step environment := by
  rw [run_succ]
  cases machine.step environment <;> rfl

theorem run_succ_of_running {machine next : Machine} (hstep : machine.step environment = .running next)
    (count : Nat) : machine.run environment (count + 1) = next.run environment count := by
  rw [run_succ, hstep]

theorem run_add (first second : Nat) (machine : Machine) :
    machine.run environment (first + second) =
      match machine.run environment first with
      | .running next => next.run environment second
      | .finished report => .finished report := by
  induction first generalizing machine with
  | zero =>
      rw [Nat.zero_add]
      rfl
  | succ first ih =>
      rw [Nat.succ_add, run_succ, run_succ]
      cases machine.step environment with
      | running next => exact ih next
      | finished report => rfl

/-- A run that is over stays as it is. -/
theorem run_finished_of_le {count more : Nat} {machine : Machine} {report : Report}
    (hrun : machine.run environment count = .finished report) (hle : count ≤ more) :
    machine.run environment more = .finished report := by
  obtain ⟨extra, rfl⟩ := Nat.exists_eq_add_of_le hle
  rw [run_add, hrun]

/-- A run that goes on after some steps went on after fewer. -/
theorem run_running_of_le {count less : Nat} {machine next : Machine}
    (hrun : machine.run environment count = .running next) (hle : less ≤ count) :
    ∃ between, machine.run environment less = .running between := by
  cases hless : machine.run environment less with
  | running between => exact ⟨between, rfl⟩
  | finished report =>
      rw [run_finished_of_le hless hle] at hrun
      cases hrun

theorem run_add_one {count : Nat} {first machine : Machine} (hrun : first.run environment count = .running machine) :
    first.run environment (count + 1) = machine.step environment := by
  rw [run_add, hrun]
  exact run_one machine

/-- A run that goes on has come to where it is by one last step. -/
theorem exists_last_of_running {count : Nat} {first machine : Machine}
    (hrun : first.run environment (count + 1) = .running machine) :
    ∃ last, first.run environment count = .running last ∧ last.step environment = .running machine := by
  obtain ⟨last, hlast⟩ := run_running_of_le hrun (Nat.le_succ count)
  rw [run_add_one hlast] at hrun
  exact ⟨last, hlast, hrun⟩

/-- A run that has ended did so in one step from a machine that it came to. -/
theorem Ends.exists_last {first : Machine} {report : Report} (hends : first.Ends environment report) :
    ∃ count last, first.run environment count = .running last ∧ last.step environment = .finished report := by
  obtain ⟨count, hrun⟩ := hends
  induction count with
  | zero => cases hrun
  | succ count ih =>
      cases hbefore : first.run environment count with
      | running last => exact ⟨count, last, hbefore, (run_add_one hbefore).symm.trans hrun⟩
      | finished other =>
          rw [run_finished_of_le hbefore (Nat.le_succ count)] at hrun
          cases hrun
          exact ih hbefore

/-- The machines that a run comes to lead to the one from which it ends. -/
theorem exists_run_to_last {count total : Nat} {first machine last : Machine} {report : Report}
    (hlast : first.run environment total = .running last) (hend : last.step environment = .finished report)
    (hrun : first.run environment count = .running machine) :
    ∃ more, machine.run environment more = .running last := by
  by_cases hle : count ≤ total
  · obtain ⟨more, rfl⟩ := Nat.exists_eq_add_of_le hle
    rw [run_add, hrun] at hlast
    exact ⟨more, hlast⟩
  · have hended : first.run environment (total + 1) = .finished report := (run_add_one hlast).trans hend
    rw [run_finished_of_le hended (by omega)] at hrun
    cases hrun

theorem Ends.unique {machine : Machine} {report other : Report}
    (hends : machine.Ends environment report) (hother : machine.Ends environment other) :
    report = other := by
  obtain ⟨count, hrun⟩ := hends
  obtain ⟨otherCount, hotherRun⟩ := hother
  have hfirst := run_finished_of_le hrun (Nat.le_add_right count otherCount)
  have hsecond := run_finished_of_le hotherRun (Nat.le_add_left otherCount count)
  rw [hfirst] at hsecond
  exact Status.finished.inj hsecond

/-- What every step keeps, every run keeps. -/
theorem run_meets {invariant : Machine → Prop} {final : Report → Prop}
    (hstep : ∀ machine, invariant machine → (machine.step environment).Meets invariant final)
    (count : Nat) {machine : Machine} (hmachine : invariant machine) :
    (machine.run environment count).Meets invariant final := by
  induction count generalizing machine with
  | zero => exact hmachine
  | succ count ih =>
      have hnext := hstep machine hmachine
      rw [run_succ]
      cases hstatus : machine.step environment with
      | running next =>
          rw [hstatus] at hnext
          exact ih hnext
      | finished report =>
          rw [hstatus] at hnext
          exact hnext

section Related

variable {machines : Machine → Machine → Prop} {reports : Report → Report → Prop} {machine other : Machine}

/-- Two machines that every step keeps side by side run side by side. -/
theorem run_related
    (hstep : ∀ machine other, machines machine other →
      (machine.step environment).Related machines reports (other.step environment))
    (count : Nat) (hmachines : machines machine other) :
    (machine.run environment count).Related machines reports (other.run environment count) := by
  induction count generalizing machine other with
  | zero => exact .running hmachines
  | succ count ih =>
      have hnext := hstep machine other hmachines
      rw [run_succ, run_succ]
      generalize machine.step environment = status at hnext
      generalize other.step environment = otherStatus at hnext
      cases hnext with
      | running hmachines => exact ih hmachines
      | finished hreports => exact .finished hreports

/-- If only steps that go on keep two machines side by side, they stay there as long as the first one goes on. -/
theorem exists_related_of_running
    (hstep : ∀ machine other next, machines machine other → machine.step environment = .running next →
      (machine.step environment).Related machines reports (other.step environment))
    {count : Nat} {last : Machine} (hmachines : machines machine other)
    (hrun : machine.run environment count = .running last) :
    ∃ otherLast, other.run environment count = .running otherLast ∧ machines last otherLast := by
  induction count generalizing machine other with
  | zero =>
      cases hrun
      exact ⟨other, rfl, hmachines⟩
  | succ count ih =>
      rw [run_succ] at hrun
      cases hstatus : machine.step environment with
      | finished report =>
          rw [hstatus] at hrun
          cases hrun
      | running next =>
          have hnext := hstep machine other next hmachines hstatus
          rw [hstatus] at hrun hnext
          rw [run_succ]
          generalize other.step environment = otherStatus at hnext
          cases hnext with
          | running hmachines => exact ih hmachines hrun

/-- Runs that stay side by side end both or not at all. -/
theorem ends_related
    (hrun : ∀ count, (machine.run environment count).Related machines reports (other.run environment count)) :
    (∀ report, machine.Ends environment report →
      ∃ counterpart, other.Ends environment counterpart ∧ reports report counterpart) ∧
    ∀ counterpart, other.Ends environment counterpart →
      ∃ report, machine.Ends environment report ∧ reports report counterpart := by
  constructor
  · rintro report ⟨count, hreport⟩
    have hboth := hrun count
    rw [hreport] at hboth
    generalize hother : other.run environment count = status at hboth
    cases hboth with
    | finished hreports => exact ⟨_, ⟨count, hother⟩, hreports⟩
  · rintro counterpart ⟨count, hcounterpart⟩
    have hboth := hrun count
    rw [hcounterpart] at hboth
    generalize hmachine : machine.run environment count = status at hboth
    cases hboth with
    | finished hreports => exact ⟨_, ⟨count, hmachine⟩, hreports⟩

end Related

theorem step_of_end {machine : Machine} (hend : machine.frame.code.size ≤ machine.frame.next) :
    machine.step environment = machine.leave environment none :=
  if_pos hend

end Machine
end StackCode
