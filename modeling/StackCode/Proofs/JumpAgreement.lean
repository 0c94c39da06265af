import StackCode.Proofs.Locality
import StackCode.Proofs.Numerals
import StackCode.Proofs.UniqueFraming

/-! Three accounts of where a jump leads: the check of a stream, the machine that takes the jump, and the listing that
prints its target. They agree at every offset that holds a jump, and the check accepts a stream if and only if the
machine never leaves the boundaries of the stream by a jump that it takes. -/

namespace StackCode

namespace Instruction

/-- A jump of the right shape carries its distance. -/
theorem exists_word_of_isJump {jump : Instruction} (hshape : jump.WellShaped) (hjump : jump.opcode.isJump = true) :
    ∃ distance, jump.operand = .word distance := by
  obtain ⟨opcode, operand⟩ := jump
  cases opcode with
  | jump | jumpBackward | jumpIfFalse =>
      cases operand with
      | word distance => exact ⟨distance, rfl⟩
      | _ => cases hshape
  | _ => cases hjump

end Instruction

namespace Frame

/-- The frame takes the jump: a conditional jump finds that its condition fails. -/
def Takes (frame : Frame) (jump : Instruction) : Prop :=
  match jump.opcode with
  | .jump | .jumpBackward => True
  | .jumpIfFalse => ∃ cond rest, frame.stack = cond :: rest ∧ cond.truth? = some false
  | _ => False

/-- The frame after a jump: a condition is gone from the stack. -/
def landed (frame : Frame) (jump : Instruction) (target : Nat) : Frame :=
  { frame with
    stack := if jump.opcode = .jumpIfFalse then frame.stack.tail else frame.stack
    next := target
    current := frame.next }

theorem jumpForward_of_lt {frame : Frame} {distance : UInt64}
    (hlt : frame.code.size < frame.next + distance.toNat) :
    frame.jumpForward distance = .error .jumpOutOfBounds :=
  if_neg (by omega)

theorem jumpBackward_of_lt {frame : Frame} {distance : UInt64} (hlt : frame.next < distance.toNat) :
    frame.jumpBackward distance = .error .jumpOutOfBounds :=
  if_neg (by omega)

theorem Takes.isJump {frame : Frame} {jump : Instruction} (htakes : frame.Takes jump) :
    jump.opcode.isJump = true := by
  obtain ⟨opcode, operand⟩ := jump
  cases opcode with
  | jump | jumpBackward | jumpIfFalse => rfl
  | _ => cases htakes

section Takes

variable {frame : Frame} {opcode : Opcode} {distance : UInt64}

theorem execute_forward (hforward : opcode = .jump ∨ opcode = .jumpIfFalse)
    (htakes : frame.Takes ⟨opcode, .word distance⟩) (limits : Limits) (globals : Scope) :
    (frame.advance ⟨opcode, .word distance⟩).execute limits globals ⟨opcode, .word distance⟩ =
      ((frame.landed ⟨opcode, .word distance⟩ (frame.next + opcode.encodedLength)).jumpForward distance >>=
        fun next => .ok (.proceed next globals)) := by
  rcases hforward with rfl | rfl
  · rfl
  · obtain ⟨cond, rest, hstack, hcond⟩ := htakes
    rw [execute_jumpIfFalse]
    simp only [advance, landed, hstack, hcond]
    rfl

theorem execute_backward (limits : Limits) (globals : Scope) :
    (frame.advance ⟨.jumpBackward, .word distance⟩).execute limits globals ⟨.jumpBackward, .word distance⟩ =
      ((frame.landed ⟨.jumpBackward, .word distance⟩
        (frame.next + Opcode.jumpBackward.encodedLength)).jumpBackward distance >>=
        fun next => .ok (.proceed next globals)) :=
  rfl

end Takes

variable {frame : Frame} {jump : Instruction}

/-- A jump that leads to a place within the stream is made. -/
theorem execute_of_leadsTo {target : Nat} (htakes : frame.Takes jump) (hleads : jump.LeadsTo frame.next target)
    (hle : target ≤ frame.code.size) (limits : Limits) (globals : Scope) :
    (frame.advance jump).execute limits globals jump = .ok (.proceed (frame.landed jump target) globals) := by
  obtain ⟨opcode, operand⟩ := jump
  cases operand with
  | word distance =>
      cases opcode with
      | jump =>
          cases hleads
          rw [execute_forward (Or.inl rfl) htakes, jumpForward_of_le hle]
          rfl
      | jumpIfFalse =>
          cases hleads
          rw [execute_forward (Or.inr rfl) htakes, jumpForward_of_le hle]
          rfl
      | jumpBackward =>
          have hnext : target + distance.toNat = frame.next + Opcode.jumpBackward.encodedLength := hleads
          have htarget : target = frame.next + Opcode.jumpBackward.encodedLength - distance.toNat := by omega
          rw [execute_backward, jumpBackward_of_le (by simp only [landed]; omega), htarget]
          rfl
      | _ => cases hleads
  | _ => cases opcode <;> cases hleads

/-- A jump that leads to no place within the stream is refused. -/
theorem execute_of_not_leadsTo {distance : UInt64} (htakes : frame.Takes jump) (hword : jump.operand = .word distance)
    (hend : frame.next + jump.length ≤ frame.code.size)
    (hpast : ∀ target, jump.LeadsTo frame.next target → frame.code.size < target) (limits : Limits) (globals : Scope) :
    (frame.advance jump).execute limits globals jump = .error .jumpOutOfBounds := by
  obtain ⟨opcode, operand⟩ := jump
  cases hword
  cases opcode with
  | jump =>
      rw [execute_forward (Or.inl rfl) htakes, jumpForward_of_lt]
      · rfl
      · exact hpast _ rfl
  | jumpIfFalse =>
      rw [execute_forward (Or.inr rfl) htakes, jumpForward_of_lt]
      · rfl
      · exact hpast _ rfl
  | jumpBackward =>
      rw [execute_backward, jumpBackward_of_lt]
      · rfl
      · -- otherwise the jump leads to a place before itself
        by_contra hle
        change ¬ frame.next + Opcode.jumpBackward.encodedLength < distance.toNat at hle
        change frame.next + Opcode.jumpBackward.encodedLength ≤ _ at hend
        have hlt := hpast (frame.next + Opcode.jumpBackward.encodedLength - distance.toNat)
          (Nat.sub_add_cancel (by omega))
        omega
  | _ => cases htakes

end Frame

namespace Machine

variable {environment : Environment} {machine : Machine} {jump : Instruction}

theorem step_of_decodeAt {instruction : Instruction}
    (hdecode : machine.frame.code.decodeAt machine.frame.next = .ok instruction) :
    machine.step environment = machine.perform environment (machine.frame.advance instruction) instruction := by
  have hlt := Stream.lt_size_of_decodeAt hdecode
  rw [step, if_neg (by omega), hdecode]

/-- The machine after a jump. -/
def landed (machine : Machine) (jump : Instruction) (target : Nat) : Machine :=
  { machine with frame := machine.frame.landed jump target }

theorem landed_injective {target other : Nat} (hlanded : machine.landed jump target = machine.landed jump other) :
    target = other :=
  congrArg (fun machine => machine.frame.next) hlanded

/-- The machine goes on at the target of a jump that it takes, if there is one within the stream. -/
theorem step_of_jumpTarget? {target : Nat}
    (hdecode : machine.frame.code.decodeAt machine.frame.next = .ok jump) (htakes : machine.frame.Takes jump)
    (htarget : jump.jumpTarget? machine.frame.next = some target) (hle : target ≤ machine.frame.code.size) :
    machine.step environment = .running (machine.landed jump target) := by
  rw [step_of_decodeAt hdecode, perform,
    Frame.execute_of_leadsTo htakes (Instruction.leadsTo_of_jumpTarget? htarget) hle]
  rfl

/-- The run ends at a jump that is taken and has no target within the stream. -/
theorem step_of_past (hsize : machine.frame.code.size < Instruction.offsetBound)
    (hdecode : machine.frame.code.decodeAt machine.frame.next = .ok jump) (htakes : machine.frame.Takes jump)
    (hpast : ∀ target, jump.jumpTarget? machine.frame.next = some target → machine.frame.code.size < target) :
    machine.step environment = machine.fail machine.console (.fault machine.frame.next .jumpOutOfBounds) := by
  obtain ⟨hend, hshape⟩ := Instruction.of_decode hdecode
  obtain ⟨distance, hword⟩ := Instruction.exists_word_of_isJump hshape htakes.isJump
  have hleads : ∀ target, jump.LeadsTo machine.frame.next target → machine.frame.code.size < target := by
    intro target hleads
    by_contra hle
    exact hle (hpast target (Instruction.jumpTarget?_of_leadsTo hleads (by omega)))
  rw [step_of_decodeAt hdecode, perform, Frame.execute_of_not_leadsTo htakes hword hend hleads]
  rfl

/-- A jump that is taken is made or ends the run, by where its target lies. -/
theorem step_cases (hsize : machine.frame.code.size < Instruction.offsetBound)
    (hdecode : machine.frame.code.decodeAt machine.frame.next = .ok jump) (htakes : machine.frame.Takes jump) :
    (∃ target, jump.jumpTarget? machine.frame.next = some target ∧ target ≤ machine.frame.code.size ∧
      machine.step environment = .running (machine.landed jump target)) ∨
    (∀ target, jump.jumpTarget? machine.frame.next = some target → machine.frame.code.size < target) ∧
      machine.step environment = machine.fail machine.console (.fault machine.frame.next .jumpOutOfBounds) := by
  by_cases hpast : ∀ target, jump.jumpTarget? machine.frame.next = some target → machine.frame.code.size < target
  · exact Or.inr ⟨hpast, step_of_past hsize hdecode htakes hpast⟩
  · obtain ⟨target, hwithin⟩ := not_forall.mp hpast
    obtain ⟨htarget, hlt⟩ := Classical.not_imp.mp hwithin
    have hle : target ≤ machine.frame.code.size := by omega
    exact Or.inl ⟨target, htarget, hle, step_of_jumpTarget? hdecode htakes htarget hle⟩

theorem step_eq_landed_iff (hsize : machine.frame.code.size < Instruction.offsetBound)
    (hdecode : machine.frame.code.decodeAt machine.frame.next = .ok jump) (htakes : machine.frame.Takes jump)
    {target : Nat} :
    machine.step environment = .running (machine.landed jump target) ↔
      jump.jumpTarget? machine.frame.next = some target ∧ target ≤ machine.frame.code.size := by
  constructor
  · intro hstep
    rcases step_cases hsize hdecode htakes with ⟨found, hfound, hle, hlanded⟩ | ⟨-, hfail⟩
    · rw [hstep] at hlanded
      cases landed_injective (Status.running.inj hlanded)
      exact ⟨hfound, hle⟩
    · rw [hstep] at hfail
      cases hfail
  · rintro ⟨htarget, hle⟩
    exact step_of_jumpTarget? hdecode htakes htarget hle

theorem step_eq_fail_iff (hsize : machine.frame.code.size < Instruction.offsetBound)
    (hdecode : machine.frame.code.decodeAt machine.frame.next = .ok jump) (htakes : machine.frame.Takes jump) :
    machine.step environment = machine.fail machine.console (.fault machine.frame.next .jumpOutOfBounds) ↔
      jump.jumpTarget? machine.frame.next = none ∨
        ∃ target, jump.jumpTarget? machine.frame.next = some target ∧ machine.frame.code.size < target := by
  constructor
  · intro hstep
    rcases step_cases hsize hdecode htakes with ⟨found, -, -, hlanded⟩ | ⟨hpast, -⟩
    · rw [hstep] at hlanded
      cases hlanded
    · cases htarget : jump.jumpTarget? machine.frame.next with
      | none => exact Or.inl rfl
      | some target => exact Or.inr ⟨target, rfl, hpast target htarget⟩
  · intro hnone
    apply step_of_past hsize hdecode htakes
    intro target htarget
    rcases hnone with hnone | ⟨found, hfound, hlt⟩
    · rw [hnone] at htarget
      cases htarget
    · rw [hfound] at htarget
      cases htarget
      exact hlt

end Machine

/-- Some machine takes the jump at an offset. -/
theorem exists_takes (code : Stream) (offset : Nat) {jump : Instruction} (hjump : jump.opcode.isJump = true) :
    ∃ machine : Machine, machine.frame.code = code ∧ machine.frame.next = offset ∧ machine.frame.Takes jump := by
  refine ⟨⟨⟨code, none, [.int 0], offset, 0⟩, [], .empty, ⟨[], #[], none⟩⟩, rfl, rfl, ?_⟩
  obtain ⟨opcode, operand⟩ := jump
  cases opcode with
  | jump | jumpBackward => trivial
  | jumpIfFalse => exact ⟨.int 0, [], rfl, rfl⟩
  | _ => cases hjump

namespace Listing

/-- The target of a jump in its line. -/
def targetText (target : Option Nat) : String := target.elim "?" offsetText

theorem line_of_isJump {jump : Instruction} {distance : UInt64} (hjump : jump.opcode.isJump = true)
    (hword : jump.operand = .word distance) (offset : Nat) :
    line offset jump = offsetText offset ++ "  " ++ jump.opcode.mnemonic ++ " " ++ Numeral.ofNat distance.toNat ++
      " -> " ++ targetText (jump.jumpTarget? offset) := by
  have htext : operandText offset jump =
      some (Numeral.ofNat distance.toNat ++ " -> " ++ targetText (jump.jumpTarget? offset)) := by
    simp only [operandText, hword, wordText, hjump, if_true]
    cases jump.jumpTarget? offset with
    | none => simp [targetText, String.append_assoc]
    | some target => rfl
  simp only [line, htext, String.append_assoc]

/-- The target is read off its text, and there is none if no number is printed. -/
theorem readNat?_targetText (target : Option Nat) : Numeral.readNat? (targetText target).toList = target := by
  cases target with
  | none => rfl
  | some target => exact Numeral.readNat?_padded 4 target

theorem targetText_eq_unknown_iff (target : Option Nat) : targetText target = "?" ↔ target = none := by
  constructor
  · intro htext
    rw [← readNat?_targetText target, htext]
    rfl
  · rintro rfl
    rfl

end Listing

/-- The check of a stream, the machine and the listing agree on jumps. The check accepts a stream that has boundaries
if the machine comes from every jump on them that it takes to one of them again, and no other stream. Wherever a jump
is read, the machine that takes it goes on at the target that is printed for it; the run ends instead if no target is
known or it lies past the end. -/
theorem jumps_agree {code : Stream} (hsize : code.size < Instruction.offsetBound) :
    (code.checkJumps = .ok () ↔ ∃ offsets, code.boundaries = .ok offsets ∧
      ∀ (environment : Environment) (machine : Machine) jump, machine.frame.code = code → machine.frame.next ∈ offsets →
        code.decodeAt machine.frame.next = .ok jump → machine.frame.Takes jump →
          ∃ target ∈ offsets, machine.step environment = .running (machine.landed jump target)) ∧
    ∀ offset jump, code.decodeAt offset = .ok jump → jump.opcode.isJump = true →
      (∃ distance printed, jump.operand = .word distance ∧
        Listing.line offset jump = Listing.offsetText offset ++ "  " ++ jump.opcode.mnemonic ++ " " ++
          Numeral.ofNat distance.toNat ++ " -> " ++ printed ∧
        Numeral.readNat? printed.toList = jump.jumpTarget? offset ∧
        (printed = "?" ↔ jump.jumpTarget? offset = none)) ∧
      ∀ (environment : Environment) (machine : Machine), machine.frame.code = code → machine.frame.next = offset → machine.frame.Takes jump →
        (∀ target, machine.step environment = .running (machine.landed jump target) ↔
          jump.jumpTarget? offset = some target ∧ target ≤ code.size) ∧
        (machine.step environment = machine.fail machine.console (.fault offset .jumpOutOfBounds) ↔
          jump.jumpTarget? offset = none ∨ ∃ target, jump.jumpTarget? offset = some target ∧ code.size < target) := by
  refine ⟨⟨?_, ?_⟩, ?_⟩
  · intro hcheck
    obtain ⟨hdecodes, haligned⟩ := Stream.checkJumps_eq_ok_iff.mp hcheck
    refine ⟨_, Stream.boundaries_eq_ok_iff.mpr ⟨hdecodes, rfl⟩, ?_⟩
    rintro environment machine jump rfl hoffset hdecode htakes
    have hboundary := (Stream.mem_boundaries_iff hdecodes).mp hoffset
    obtain ⟨target, htarget, hreached⟩ := haligned _ jump hboundary hdecode htakes.isJump
    exact ⟨target, (Stream.mem_boundaries_iff hdecodes).mpr hreached,
      Machine.step_of_jumpTarget? hdecode htakes htarget hreached.le_size⟩
  · rintro ⟨offsets, hboundaries, htaken⟩
    obtain ⟨hdecodes, rfl⟩ := Stream.boundaries_eq_ok_iff.mp hboundaries
    refine Stream.checkJumps_eq_ok_iff.mpr ⟨hdecodes, ?_⟩
    intro offset jump hboundary hdecode hjump
    obtain ⟨machine, rfl, rfl, htakes⟩ := exists_takes code offset hjump
    obtain ⟨target, hmem, hstep⟩ := htaken ⟨.empty, .default⟩ machine jump rfl
      ((Stream.mem_boundaries_iff hdecodes).mpr hboundary) hdecode htakes
    exact ⟨target, ((Machine.step_eq_landed_iff hsize hdecode htakes).mp hstep).1,
      (Stream.mem_boundaries_iff hdecodes).mp hmem⟩
  · intro offset jump hdecode hjump
    obtain ⟨distance, hword⟩ := Instruction.exists_word_of_isJump (Instruction.of_decode hdecode).2 hjump
    refine ⟨⟨distance, Listing.targetText (jump.jumpTarget? offset), hword, Listing.line_of_isJump hjump hword offset,
      Listing.readNat?_targetText _, Listing.targetText_eq_unknown_iff _⟩, ?_⟩
    rintro environment machine rfl rfl htakes
    exact ⟨fun target => Machine.step_eq_landed_iff hsize hdecode htakes,
      Machine.step_eq_fail_iff hsize hdecode htakes⟩

/-- A loop, and behind it a jump past the end and one to before the start. -/
def leapsOut : Stream :=
  .ofInstructions [.withWord .jumpIfFalse 9, .withWord .jumpBackward 18, .withWord .jump 10, .withWord .jumpBackward 37]

/-- The machine at an offset of this stream, with a condition that fails. -/
def leaping (offset : Nat) : Machine := ⟨⟨leapsOut, none, [.int 0], offset, 0⟩, [], .empty, ⟨[], #[], none⟩⟩

theorem jumps_agree_leapsOut :
    leapsOut.size < Instruction.offsetBound ∧
      leapsOut.checkJumps = .error (.misalignedJump 18 (some 37)) ∧
      (leaping 0).step ⟨.empty, .default⟩ = .running ((leaping 0).landed (.withWord .jumpIfFalse 9) 18) ∧
      (leaping 9).step ⟨.empty, .default⟩ = .running ((leaping 9).landed (.withWord .jumpBackward 18) 0) ∧
      (leaping 18).step ⟨.empty, .default⟩ = (leaping 18).fail ⟨[], #[], none⟩ (.fault 18 .jumpOutOfBounds) ∧
      (leaping 27).step ⟨.empty, .default⟩ = (leaping 27).fail ⟨[], #[], none⟩ (.fault 27 .jumpOutOfBounds) ∧
      Listing.line 9 (.withWord .jumpBackward 18) = "0009  JUMP_BACKWARD 18 -> 0000" ∧
      Listing.line 27 (.withWord .jumpBackward 37) = "0027  JUMP_BACKWARD 37 -> ?" := by
  have hsize : leapsOut.size < Instruction.offsetBound := by decide
  have hagree := (jumps_agree hsize).2
  have hfirst := (hagree 0 (.withWord .jumpIfFalse 9) (by decide) rfl).2 ⟨.empty, .default⟩ (leaping 0) rfl rfl
    ⟨.int 0, [], rfl, rfl⟩
  have hsecond := (hagree 9 (.withWord .jumpBackward 18) (by decide) rfl).2 ⟨.empty, .default⟩ (leaping 9) rfl rfl
    trivial
  have hthird := (hagree 18 (.withWord .jump 10) (by decide) rfl).2 ⟨.empty, .default⟩ (leaping 18) rfl rfl trivial
  have hfourth := (hagree 27 (.withWord .jumpBackward 37) (by decide) rfl).2 ⟨.empty, .default⟩ (leaping 27) rfl rfl
    trivial
  refine ⟨hsize, by decide, (hfirst.1 18).mpr (by decide), (hsecond.1 0).mpr (by decide),
    hthird.2.mpr (Or.inr ⟨37, by decide⟩), hfourth.2.mpr (Or.inl (by decide)), by decide, by decide⟩

end StackCode
