import StackCode.Proofs.IntegerTrees

/-! Literals come back as they were written. The code for a literal pushes its value, and that for a text first pushes the
codes of its characters; if the stack has room for these, a run returns the value, and otherwise it overflows. -/

namespace StackCode

namespace Literal

/-- The value that a literal stands for. -/
def value : Literal → Value
  | .bool truth => .ofBool truth
  | .char c => .ofChar c
  | .int n => .int n
  | .uint n => .uint n
  | .float x => .float x
  | .str text => .str text

/-- How many values the code for a literal holds at a time. The characters of a text are all held before it is made. -/
def room : Literal → Nat
  | .str text => max 1 text.length
  | .bool _ | .char _ | .int _ | .uint _ | .float _ => 1

theorem room_pos (literal : Literal) : 0 < literal.room := by
  cases literal with
  | str text => exact Nat.lt_of_lt_of_le Nat.one_pos (Nat.le_max_left 1 text.length)
  | _ => exact Nat.one_pos

end Literal

/-- The instruction does nothing but push the value. -/
def Instruction.Pushes (instruction : Instruction) (value : Value) : Prop :=
  ∀ (limits : Limits) (globals : Scope) (frame : Frame),
    frame.execute limits globals instruction = do
      let next ← frame.pushOn limits frame.stack value
      .ok (.proceed next globals)

namespace Instruction

theorem pushes_pushInt (n : Int64) : (pushInt n).Pushes (.int n) := fun _ _ _ => rfl

theorem pushes_pushUInt (n : UInt64) : (pushUInt n).Pushes (.uint n) := fun _ _ _ => rfl

theorem pushes_pushFloat (x : Binary64) : (pushFloat x).Pushes (.float x) := by
  intro limits globals frame
  unfold pushFloat
  split <;> rfl

theorem pushes_chars (chars : List Char) :
    List.Forall₂ Pushes (chars.map fun c => pushInt (Int64.ofNat c.toNat)) (chars.map Value.ofChar) := by
  rw [List.forall₂_map_left_iff, List.forall₂_map_right_iff, List.forall₂_same]
  intro c _
  exact pushes_pushInt _

end Instruction

/-- The code for a literal that is no text is one instruction. -/
theorem Literal.pushed_or_text (literal : Literal) :
    (∃ instruction : Instruction, literal.code = [instruction] ∧ instruction.Pushes literal.value ∧ literal.room = 1) ∨
      ∃ text, literal = .str text := by
  cases literal with
  | str text => exact Or.inr ⟨text, rfl⟩
  | float x => exact Or.inl ⟨_, rfl, Instruction.pushes_pushFloat x, rfl⟩
  | uint n => exact Or.inl ⟨_, rfl, Instruction.pushes_pushUInt n, rfl⟩
  | _ => exact Or.inl ⟨_, rfl, Instruction.pushes_pushInt _, rfl⟩

namespace Machine

variable {environment : Environment} {machine : Machine} {instruction : Instruction} {value : Value}

/-- The machine runs into an overflow of its stack, and no variable changes. -/
def Overflows (environment : Environment) (machine : Machine) : Prop :=
  ∃ offset, machine.Ends environment ⟨.error (.fault offset .stackOverflow), machine.globals, machine.console⟩

theorem overflows_of_run {count next current : Nat} {stack : Stack}
    (hrun : machine.run environment count = .running (machine.moved next current stack))
    (hoverflows : (machine.moved next current stack).Overflows environment) : machine.Overflows environment := by
  obtain ⟨offset, hends⟩ := hoverflows
  exact ⟨offset, (ends_of_run hrun _).mpr hends⟩

theorem overflows_of_put {below : Stack} (hdecode : machine.frame.code.decodeAt machine.frame.next = .ok instruction)
    (hputs : machine.Puts environment instruction below value) (hfull : ¬ below.length < environment.limits.stack) :
    machine.Overflows environment := by
  refine ⟨machine.frame.next, 1, ?_⟩
  rw [run_one, step_of_decodeAt hdecode, perform, hputs, Frame.pushOn_eq, if_neg hfull]
  rfl

section Pushes

variable {code : List Instruction} {values : List Value}

theorem run_pushes (hpushes : List.Forall₂ Instruction.Pushes code values)
    (hholds : machine.frame.code.Holds machine.frame.next code)
    (hroom : machine.frame.stack.length + values.length ≤ environment.limits.stack) :
    ∃ count current, machine.run environment count =
      .running (machine.moved (machine.frame.next + codeSize code) current (values.reverse ++ machine.frame.stack)) := by
  induction hpushes generalizing machine with
  | nil => exact ⟨0, machine.frame.current, rfl⟩
  | @cons instruction value code values hfirst _ ih =>
      rw [List.length_cons] at hroom
      let pushed := machine.moved (machine.frame.next + instruction.length) machine.frame.next
        (value :: machine.frame.stack)
      have hone : machine.run environment 1 = .running pushed :=
        run_put hholds.decodeAt (hfirst _ _ _) (by omega)
      have hrest : pushed.frame.stack.length + values.length ≤ environment.limits.stack := by
        change machine.frame.stack.length + 1 + values.length ≤ _
        omega
      have hheld : pushed.frame.code.Holds pushed.frame.next code := hholds.tail
      obtain ⟨count, current, hrun⟩ := ih hheld hrest
      refine ⟨1 + count, current, ?_⟩
      rw [run_add, hone]
      change pushed.run environment count = _
      rw [hrun, List.reverse_cons, List.append_assoc, codeSize_cons, ← Nat.add_assoc]
      rfl

theorem overflows_of_pushes (hpushes : List.Forall₂ Instruction.Pushes code values)
    (hholds : machine.frame.code.Holds machine.frame.next code)
    (hkept : machine.frame.stack.length ≤ environment.limits.stack)
    (hfull : environment.limits.stack < machine.frame.stack.length + values.length) :
    machine.Overflows environment := by
  induction hpushes generalizing machine with
  | nil => exact absurd hfull (Nat.not_lt.mpr hkept)
  | @cons instruction value code values hfirst _ ih =>
      rw [List.length_cons] at hfull
      by_cases hroom : machine.frame.stack.length < environment.limits.stack
      · have hone := run_put hholds.decodeAt (hfirst environment.limits machine.globals _) hroom
        refine overflows_of_run hone (ih hholds.tail hroom ?_)
        change _ < machine.frame.stack.length + 1 + values.length
        omega
      · exact overflows_of_put hholds.decodeAt (hfirst _ _ _) hroom

end Pushes

/-- The codes of all characters of a text are on the stack, and the text is made of them. -/
theorem puts_text {text : String} {below : Stack} (hlength : text.length < UInt64.size)
    (hstack : machine.frame.stack = (text.toList.map Value.ofChar).reverse ++ below) :
    machine.Puts environment (.withWord .allocString (UInt64.ofNat text.length)) below (.str text) := by
  have hcount : (UInt64.ofNat text.length).toNat = (text.toList.map Value.ofChar).length := by
    rw [List.length_map, String.length_toList, toNat_ofNat_of_short hlength]
  change (machine.frame.stack.popMany (UInt64.ofNat text.length).toNat >>= fun popped =>
    Frame.joinChars popped.1 >>= fun chars =>
      Frame.pushOn _ environment.limits popped.2 (.str (String.ofList chars)) >>= fun frame =>
        .ok (Action.proceed frame machine.globals)) = _
  rw [hstack, Stack.popMany_append _ below hcount]
  change (Frame.joinChars (text.toList.map Value.ofChar) >>= _) = _
  rw [Frame.joinChars_ofChar]
  change (Frame.pushOn _ environment.limits below (.str (String.ofList text.toList)) >>= _) = _
  rw [String.ofList_toList]

section Literals

variable {literal : Literal} (hword : environment.limits.stack < UInt64.size)
  (hholds : machine.frame.code.Holds machine.frame.next literal.code)

include hword hholds

theorem run_literal (hroom : machine.frame.stack.length + literal.room ≤ environment.limits.stack) :
    ∃ count current, machine.run environment count =
      .running (machine.moved (machine.frame.next + codeSize literal.code) current
        (literal.value :: machine.frame.stack)) := by
  rcases literal.pushed_or_text with ⟨instruction, hcode, hpushes, hone⟩ | ⟨text, rfl⟩
  · rw [hcode] at hholds ⊢
    rw [hone] at hroom
    exact ⟨1, _, run_put hholds.decodeAt (hpushes _ _ _) hroom⟩
  · let pushes := text.toList.map fun c => Instruction.pushInt (Int64.ofNat c.toNat)
    have hlength : (text.toList.map Value.ofChar).length = text.length := by
      rw [List.length_map, String.length_toList]
    change machine.frame.stack.length + max 1 text.length ≤ _ at hroom
    have hchars : machine.frame.stack.length + (text.toList.map Value.ofChar).length ≤ environment.limits.stack := by
      omega
    obtain ⟨count, current, hrun⟩ := run_pushes (Instruction.pushes_chars text.toList) hholds.left hchars
    refine ⟨count + 1, machine.frame.next + codeSize pushes, ?_⟩
    rw [run_add, hrun]
    refine (run_put hholds.right.decodeAt (puts_text (by omega) rfl) (by omega)).trans ?_
    rw [Literal.code, codeSize_append, codeSize_cons, codeSize_nil, ← Nat.add_assoc]
    rfl

theorem overflows_of_literal (hkept : machine.frame.stack.length ≤ environment.limits.stack)
    (hfull : environment.limits.stack < machine.frame.stack.length + literal.room) :
    machine.Overflows environment := by
  rcases literal.pushed_or_text with ⟨instruction, hcode, hpushes, hone⟩ | ⟨text, rfl⟩
  · rw [hcode] at hholds
    rw [hone] at hfull
    have hnone : ¬ machine.frame.stack.length < environment.limits.stack := by omega
    exact overflows_of_put hholds.decodeAt (hpushes _ _ _) hnone
  · have hlength : (text.toList.map Value.ofChar).length = text.length := by
      rw [List.length_map, String.length_toList]
    change _ < machine.frame.stack.length + max 1 text.length at hfull
    by_cases hpushed : environment.limits.stack < machine.frame.stack.length + text.length
    · exact overflows_of_pushes (Instruction.pushes_chars text.toList) hholds.left hkept (by omega)
    · -- Only the empty text needs more room than its characters.
      have hempty : text.toList = [] := List.length_eq_zero_iff.mp (by rw [String.length_toList]; omega)
      have hstack : machine.frame.stack = (text.toList.map Value.ofChar).reverse ++ machine.frame.stack := by
        rw [hempty]
        rfl
      rw [Literal.code, hempty] at hholds
      exact overflows_of_put hholds.decodeAt (puts_text (by omega) hstack) (by omega)

end Literals

end Machine

/-- The statement that returns a literal. -/
def Literal.returned (literal : Literal) (ty : Option DataType) : List Stmt := [.ret (some (.literal literal ty))]

theorem Literal.compile_returned (literal : Literal) (ty : Option DataType) (context : Context) :
    compile context (literal.returned ty) = (.ok (.ofInstructions (literal.code ++ [.plain .ret])), context) := by
  have hcompile : compile context (literal.returned ty) =
      (.ok ((Emitter.empty.emitAll literal.code).emitAll [.plain .ret]).code, context) := rfl
  rw [hcompile, Emitter.emitAll_append, Emitter.code_emitAll_empty]

/-- A literal that is returned comes back as it was written, whatever its bits and characters, if there is room for one
value and for all characters of a text. Without room the run ends with an overflow of the stack. -/
theorem returned_literal (literal : Literal) (ty : Option DataType) (context : Context) (functions : FunctionTable)
    (limits : Limits) (hword : limits.stack < UInt64.size) (globals : Scope) (console : Console) :
    ∃ code, compile context (literal.returned ty) = (.ok code, context) ∧
      if literal.room ≤ limits.stack then
        (Machine.start code globals console).Ends ⟨functions, limits⟩ ⟨.ok (some literal.value), globals, console⟩
      else
        ∃ offset, (Machine.start code globals console).Ends ⟨functions, limits⟩
          ⟨.error (.fault offset .stackOverflow), globals, console⟩ := by
  refine ⟨_, literal.compile_returned ty context, ?_⟩
  let code := Stream.ofInstructions (literal.code ++ [.plain .ret])
  have hholds : code.Holds 0 (literal.code ++ [.plain .ret]) := by
    apply Stream.holds_ofInstructions
    have hencodable := (Code.closed_stmts (literal.returned ty)).encodable
    simpa [Literal.returned, Code.stmts, Code.stmt, Code.expr] using hencodable
  let machine := Machine.start code globals console
  let environment : Environment := ⟨functions, limits⟩
  have hliteral : machine.frame.code.Holds machine.frame.next literal.code := hholds.left
  have hword : environment.limits.stack < UInt64.size := hword
  split
  · have hroom : machine.frame.stack.length + literal.room ≤ environment.limits.stack :=
      (Nat.zero_add literal.room).trans_le ‹_›
    obtain ⟨count, current, hrun⟩ := Machine.run_literal hword hliteral hroom
    have hret : (machine.moved (0 + codeSize literal.code) current [literal.value]).step environment = _ :=
      Machine.step_of_decodeAt hholds.right.decodeAt
    refine (Machine.ends_of_run hrun _).mpr ⟨1, ?_⟩
    rw [Machine.run_one]
    exact hret
  · have hfull : environment.limits.stack < machine.frame.stack.length + literal.room := by
      change limits.stack < 0 + literal.room
      omega
    exact Machine.overflows_of_literal hword hliteral (Nat.zero_le _) hfull

/-- An accented letter and a sign beyond the first plane, built from their codes. -/
theorem returned_literal_accented :
    (∃ code, compile .empty (Literal.returned (.str "é😀") none) = (.ok code, .empty) ∧
      (Machine.start code .empty ⟨[], #[], none⟩).Ends ⟨.empty, ⟨2, 0, 0⟩⟩
        ⟨.ok (some (.str "é😀")), .empty, ⟨[], #[], none⟩⟩) ∧
    ∃ code offset, compile .empty (Literal.returned (.str "é😀") none) = (.ok code, .empty) ∧
      (Machine.start code .empty ⟨[], #[], none⟩).Ends ⟨.empty, ⟨1, 0, 0⟩⟩
        ⟨.error (.fault offset .stackOverflow), .empty, ⟨[], #[], none⟩⟩ := by
  have hroom : (Literal.str "é😀").room = 2 := by decide
  constructor
  · obtain ⟨code, hcompile, hends⟩ := returned_literal (.str "é😀") none .empty .empty ⟨2, 0, 0⟩ (by decide) .empty
      ⟨[], #[], none⟩
    rw [hroom, if_pos (by decide)] at hends
    exact ⟨code, hcompile, hends⟩
  · obtain ⟨code, hcompile, hends⟩ := returned_literal (.str "é😀") none .empty .empty ⟨1, 0, 0⟩ (by decide) .empty
      ⟨[], #[], none⟩
    rw [hroom, if_neg (by decide)] at hends
    obtain ⟨offset, hoverflow⟩ := hends
    exact ⟨code, offset, hcompile, hoverflow⟩

end StackCode
