import StackCode.Proofs.Ensures
import StackCode.Proofs.Framing
import StackCode.Proofs.Moves

/-! What executing an instruction can do, said once for all that is proved about steps. The instruction fails, calls,
leaves the frame or goes on with it; going on touches the variables only as a single binding or a single overwritten
value does. It reports a variable as undefined only if the scopes do not have it. -/

namespace StackCode

namespace Table

variable {α : Type}

theorem contains_insert (table : Table α) (key other : SymbolId) (value : α) :
    (table.insert key value).contains other = (decide (other = key) || table.contains other) := by
  rw [contains, get?_insert]
  by_cases hkey : other = key
  · simp [hkey]
  · simp [hkey, contains]

theorem contains_insert_of_contains {table : Table α} {key : SymbolId} (hkey : table.contains key = true)
    (value : α) (other : SymbolId) : (table.insert key value).contains other = table.contains other := by
  rw [contains_insert]
  by_cases hother : other = key
  · simp [hother, hkey]
  · simp [hother]

end Table

/-- How an instruction may change the variables. -/
inductive Scopes.Changes (scopes : Scopes) : Scopes → Prop where
  | kept : Changes scopes scopes
  | stored (id : SymbolId) (value : Value) : Changes scopes (scopes.store id value)
  | replaced (id : SymbolId) (value : Value) : Changes scopes (scopes.replace id value)

namespace Scopes

variable {scopes after : Scopes}

theorem isSome_locals_store (scopes : Scopes) (id : SymbolId) (value : Value) :
    (scopes.store id value).locals.isSome = scopes.locals.isSome := by
  obtain ⟨globals, locals⟩ := scopes
  unfold store
  split
  · rfl
  · cases locals <;> rfl

theorem isSome_locals_replace (scopes : Scopes) (id : SymbolId) (value : Value) :
    (scopes.replace id value).locals.isSome = scopes.locals.isSome := by
  obtain ⟨globals, locals⟩ := scopes
  cases locals with
  | none =>
      simp only [replace]
      split <;> rfl
  | some locals =>
      simp only [replace]
      split
      · rfl
      · split <;> rfl

theorem contains_globals_store (hlocals : scopes.locals.isSome = true) (id : SymbolId) (value : Value)
    (key : SymbolId) : (scopes.store id value).globals.contains key = scopes.globals.contains key := by
  obtain ⟨locals, hlocals⟩ := Option.isSome_iff_exists.mp hlocals
  unfold store
  split
  · rename_i hglobal
    exact Table.contains_insert_of_contains hglobal value key
  · rw [hlocals]

theorem contains_globals_replace (scopes : Scopes) (id : SymbolId) (value : Value) (key : SymbolId) :
    (scopes.replace id value).globals.contains key = scopes.globals.contains key := by
  unfold replace
  split <;> split
  · rfl
  · split
    · rename_i hglobal
      exact Table.contains_insert_of_contains hglobal value key
    · rfl
  · rename_i hglobal
    exact Table.contains_insert_of_contains hglobal value key
  · rfl

namespace Changes

theorem isSome_locals (hchanges : scopes.Changes after) : after.locals.isSome = scopes.locals.isSome := by
  cases hchanges with
  | kept => rfl
  | stored id value => exact isSome_locals_store scopes id value
  | replaced id value => exact isSome_locals_replace scopes id value

/-- Within a call no global variable comes into being, and none goes away. -/
theorem contains_globals (hchanges : scopes.Changes after) (hlocals : scopes.locals.isSome = true)
    (key : SymbolId) : after.globals.contains key = scopes.globals.contains key := by
  cases hchanges with
  | kept => rfl
  | stored id value => exact contains_globals_store hlocals id value key
  | replaced id value => exact contains_globals_replace scopes id value key

end Changes

/-- A fault that is possible in these scopes: a variable that it reports as undefined is in neither of them. -/
def Justify (scopes : Scopes) : Fault → Prop
  | .undefinedVariable id => scopes.load id = none
  | _ => True

end Scopes

/-- Every fault but that of an undefined variable. -/
def Fault.SparesVariables : Fault → Prop
  | .undefinedVariable _ => False
  | _ => True

theorem Fault.SparesVariables.justify {fault : Fault} (hspares : fault.SparesVariables) (scopes : Scopes) :
    scopes.Justify fault := by
  cases fault with
  | undefinedVariable id => exact hspares.elim
  | _ => trivial

/-- A computation on values, which knows of no variables. -/
def SparesVariables {α : Type} (computation : Except Fault α) : Prop :=
  Ensures Fault.SparesVariables (fun _ => True) computation

/-- What follows a computation on values may still miss a variable. -/
theorem Ensures.andThen {α β : Type} {scopes : Scopes} {property : α → Prop} {result : β → Prop}
    {first : Except Fault α} {next : α → Except Fault β}
    (hfirst : Ensures Fault.SparesVariables property first)
    (hnext : ∀ value, property value → Ensures scopes.Justify result (next value)) :
    Ensures scopes.Justify result (first >>= next) := by
  cases first with
  | ok value => exact hnext value hfirst
  | error cause => exact Fault.SparesVariables.justify hfirst scopes

namespace Stack

theorem pop_le (stack : Stack) :
    Ensures Fault.SparesVariables (fun popped => popped.2.length ≤ stack.length) stack.pop := by
  cases stack with
  | nil => trivial
  | cons value rest => exact Nat.le_succ rest.length

theorem popPath_le (count : Nat) (stack : Stack) :
    Ensures Fault.SparesVariables (fun popped => popped.2.length ≤ stack.length) (stack.popPath count) := by
  unfold popPath
  split
  · exact (show (stack.drop count).length ≤ stack.length by rw [List.length_drop]; omega)
  · trivial

theorem push_le (limits : Limits) (value : Value) (stack : Stack) :
    Ensures Fault.SparesVariables (fun pushed => pushed.length ≤ limits.stack) (stack.push limits value) := by
  unfold push
  split
  · rename_i hroom
    exact hroom
  · trivial

theorem sparesVariables_popMany (count : Nat) (stack : Stack) : SparesVariables (stack.popMany count) := by
  unfold popMany
  split <;> trivial

theorem sparesVariables_popInteger (operation : Operation) (stack : Stack) :
    SparesVariables (stack.popInteger operation) := by
  refine (pop_le stack).bind fun popped _ => ?_
  simp only
  split <;> trivial

theorem sparesVariables_popFloat (operation : Operation) (stack : Stack) :
    SparesVariables (stack.popFloat operation) := by
  refine (pop_le stack).bind fun popped _ => ?_
  split <;> trivial

theorem sparesVariables_popText (operation : Operation) (stack : Stack) :
    SparesVariables (stack.popText operation) := by
  refine (pop_le stack).bind fun popped _ => ?_
  split <;> trivial

end Stack

namespace Value

theorem sparesVariables_position (index : Value) (length : Nat) : SparesVariables (index.position length) := by
  unfold position
  split
  · trivial
  · split <;> trivial

theorem sparesVariables_toChar (code : Value) : SparesVariables code.toChar := by
  unfold toChar
  split
  · trivial
  · split <;> trivial

theorem sparesVariables_toSize (value : Value) : SparesVariables value.toSize := by
  cases value with
  | int n =>
      simp only [toSize]
      split <;> trivial
  | _ => trivial

theorem sparesVariables_read (base : Value) (path : List Value) : SparesVariables (base.read path) := by
  induction path generalizing base with
  | nil =>
      rw [read]
      trivial
  | cons index rest ih =>
      cases base with
      | array items =>
          rw [read]
          have hposition := index.sparesVariables_position items.length
          split
          · exact ih _
          · rename_i fault hfault
            exact hposition.of_error hfault
      | str text =>
          cases rest with
          | nil =>
              rw [read]
              have hposition := index.sparesVariables_position text.toList.length
              split
              · trivial
              · rename_i fault hfault
                exact hposition.of_error hfault
          | cons _ _ => trivial
      | _ => trivial

theorem sparesVariables_write (base : Value) (path : List Value) (value : Value) :
    SparesVariables (base.write path value) := by
  induction path generalizing base with
  | nil =>
      rw [write]
      trivial
  | cons index rest ih =>
      cases base with
      | array items =>
          rw [write]
          have hposition := index.sparesVariables_position items.length
          split
          · rename_i fault hfault
            exact hposition.of_error hfault
          · rename_i position _
            have hitem := ih items[position]
            split
            · trivial
            · rename_i fault hfault
              exact hitem.of_error hfault
      | str text =>
          cases rest with
          | nil =>
              rw [write]
              have hposition := index.sparesVariables_position text.toList.length
              have hchar := value.sparesVariables_toChar
              split
              · rename_i fault hfault
                exact hposition.of_error hfault
              · split
                · trivial
                · rename_i fault hfault
                  exact hchar.of_error hfault
          | cons _ _ => trivial
      | _ => trivial

end Value

theorem sparesVariables_checkShape (limit count : Nat) (shape : List Nat) :
    SparesVariables (checkShape limit count shape) := by
  induction shape generalizing count with
  | nil => trivial
  | cons size rest ih =>
      rw [checkShape]
      split
      · exact ih _
      · trivial

theorem Instruction.sparesVariables_requireWord (instruction : Instruction) :
    SparesVariables instruction.requireWord := by
  unfold requireWord
  split <;> trivial

theorem Instruction.sparesVariables_requireElement (instruction : Instruction) :
    SparesVariables instruction.requireElement := by
  unfold requireElement
  split <;> trivial

theorem Instruction.sparesVariables_requireFill (instruction : Instruction) :
    SparesVariables instruction.requireFill := by
  unfold requireFill
  split <;> trivial

theorem Instruction.sparesVariables_requireLiteral (instruction : Instruction) :
    SparesVariables instruction.requireLiteral := by
  unfold requireLiteral
  split <;> trivial

namespace Operation

theorem sparesVariables_onValues (op : Arith) (left right : Value) : SparesVariables (op.onValues left right) := by
  unfold Arith.onValues
  split <;> trivial

theorem sparesVariables_onFloats (op : FloatArith) (left right : Binary64) :
    SparesVariables (op.onFloats left right) := by
  cases op with
  | div =>
      simp only [FloatArith.onFloats]
      split <;> trivial
  | _ => trivial

theorem sparesVariables_truthOf (operation : Operation) (value : Value) :
    SparesVariables (operation.truthOf value) := by
  unfold truthOf
  split <;> trivial

theorem sparesVariables_apply (operation : Operation) (stack : Stack) :
    SparesVariables (operation.apply stack) := by
  cases operation with
  | negInt =>
      refine (Stack.pop_le stack).bind fun popped _ => ?_
      split <;> trivial
  | notInt | intToFloat => exact (stack.sparesVariables_popInteger _).bind fun _ _ => trivial
  | negFloat | notFloat | floatToInt | floatToBool =>
      exact (stack.sparesVariables_popFloat _).bind fun _ _ => trivial
  | intArith op =>
      simp only [apply]
      split
      · trivial
      · refine (Stack.pop_le stack).bind fun right _ => (Stack.pop_le right.2).bind fun left _ => ?_
        exact (sparesVariables_onValues op left.1 right.1).bind fun _ _ => trivial
  | floatArith op =>
      refine (stack.sparesVariables_popFloat _).bind fun right _ => ?_
      refine (Stack.sparesVariables_popFloat _ right.2).bind fun left _ => ?_
      exact (sparesVariables_onFloats op left.1 right.1).bind fun _ _ => trivial
  | concat =>
      refine (stack.sparesVariables_popText _).bind fun right _ => ?_
      exact (Stack.sparesVariables_popText _ right.2).bind fun _ _ => trivial
  | compare relation family =>
      cases family with
      | int =>
          refine (stack.sparesVariables_popInteger _).bind fun right _ => ?_
          exact (Stack.sparesVariables_popInteger _ right.2).bind fun _ _ => trivial
      | float =>
          refine (stack.sparesVariables_popFloat _).bind fun right _ => ?_
          exact (Stack.sparesVariables_popFloat _ right.2).bind fun _ _ => trivial
      | str =>
          refine (stack.sparesVariables_popText _).bind fun right _ => ?_
          exact (Stack.sparesVariables_popText _ right.2).bind fun _ _ => trivial
  | logic connective =>
      refine (Stack.pop_le stack).bind fun right _ => (Stack.pop_le right.2).bind fun left _ => ?_
      refine (sparesVariables_truthOf _ right.1).bind fun _ _ => ?_
      exact (sparesVariables_truthOf _ left.1).bind fun _ _ => trivial
  | index =>
      refine (Stack.pop_le stack).bind fun subscript _ => (Stack.pop_le subscript.2).bind fun container _ => ?_
      exact (container.1.sparesVariables_read [subscript.1]).bind fun _ _ => trivial

end Operation

theorem Builtin.id_of_ofId? {id : SymbolId} {function : Builtin} (hfunction : ofId? id = some function) :
    function.id = id := by
  have hids : ∀ position : Fin all.length, all[position].id.toNat = position := by decide
  obtain ⟨hlt, hget⟩ := List.getElem?_eq_some_iff.mp hfunction
  have hid := hids ⟨id.toNat, hlt⟩
  rw [Fin.getElem_fin, hget] at hid
  exact UInt64.toNat_inj.mp hid

/-- A frame that has moved on to an instruction, and the frame and the globals that the instruction leaves. -/
structure Frame.Advances (limits : Limits) (globals : Scope) (frame left : Frame) (after : Scope) : Prop where
  code : left.code = frame.code
  current : left.current = frame.current
  offset : frame.next ≤ frame.code.size → left.next ≤ frame.code.size
  height : frame.stack.length ≤ limits.stack → left.stack.length ≤ limits.stack
  scopes : (frame.scopes globals).Changes (left.scopes after)

/-- What an instruction can ask for. Calls name the function and come from the frame as it is, and a frame is left
with what lies on top of its stack. -/
def Action.Advances (limits : Limits) (globals : Scope) (frame : Frame) (instruction : Instruction) : Action → Prop
  | .proceed next after => frame.Advances limits globals next after
  | .builtin function next => instruction = .call function.id ∧ next = frame
  | .call id next => instruction = .call id ∧ isReserved id = false ∧ next = frame
  | .leave value => instruction.opcode = .ret ∧ value = frame.stack.head?

namespace Frame

variable {limits : Limits} {globals : Scope}

theorem sparesVariables_joinChars (codes : List Value) : SparesVariables (joinChars codes) := by
  induction codes with
  | nil => trivial
  | cons code rest ih => exact code.sparesVariables_toChar.bind fun _ _ => ih.bind fun _ _ => trivial

theorem sparesVariables_toSizes (values : List Value) : SparesVariables (toSizes values) := by
  induction values with
  | nil => trivial
  | cons value rest ih => exact value.sparesVariables_toSize.bind fun _ _ => ih.bind fun _ _ => trivial

/-- The one place where a variable is missed. -/
theorem require_justified (scopes : Scopes) (id : SymbolId) :
    Ensures scopes.Justify (fun _ => True) (require id (scopes.load id)) := by
  cases hload : scopes.load id with
  | none => exact hload
  | some value => trivial

/-- The instruction leaves the variables alone and brings the frame to another stack or offset. -/
theorem advances_of_within {frame : Frame} {stack : Stack} {next : Nat}
    (hstack : frame.stack.length ≤ limits.stack → stack.length ≤ limits.stack)
    (hnext : frame.next ≤ frame.code.size → next ≤ frame.code.size) :
    frame.Advances limits globals { frame with stack, next } globals :=
  ⟨rfl, rfl, hnext, hstack, .kept⟩

theorem pushOn_advances (frame : Frame) (rest : Stack) (value : Value) :
    Ensures Fault.SparesVariables (fun next => frame.Advances limits globals next globals)
      (frame.pushOn limits rest value) :=
  (Stack.push_le limits value rest).bind fun _ hpushed => advances_of_within (fun _ => hpushed) id

theorem jumpForward_advances (frame : Frame) {stack : Stack} (hstack : stack.length ≤ frame.stack.length)
    (distance : UInt64) :
    Ensures Fault.SparesVariables (fun next => frame.Advances limits globals next globals)
      ({ frame with stack }.jumpForward distance) := by
  simp only [jumpForward]
  split
  · rename_i htarget
    exact advances_of_within hstack.trans fun _ => htarget
  · trivial

theorem jumpBackward_advances (frame : Frame) (distance : UInt64) :
    Ensures Fault.SparesVariables (fun next => frame.Advances limits globals next globals)
      (frame.jumpBackward distance) := by
  simp only [jumpBackward]
  split
  · exact advances_of_within id (Nat.sub_le _ _).trans
  · trivial

theorem execute_advances (limits : Limits) (globals : Scope) (frame : Frame) (instruction : Instruction) :
    Ensures (frame.scopes globals).Justify (Action.Advances limits globals frame instruction)
      (frame.execute limits globals instruction) := by
  have hproceed : ∀ next : Except Fault Frame,
      Ensures Fault.SparesVariables (fun next => frame.Advances limits globals next globals) next →
        Ensures (frame.scopes globals).Justify (Action.Advances limits globals frame instruction)
          (next >>= fun frame => .ok (.proceed frame globals)) := by
    intro next hnext
    exact hnext.andThen fun _ hadvances => hadvances
  have hpush : ∀ rest value, Ensures (frame.scopes globals).Justify (Action.Advances limits globals frame instruction)
      (frame.pushOn limits rest value >>= fun frame => .ok (.proceed frame globals)) := by
    intro rest value
    exact hproceed _ (frame.pushOn_advances rest value)
  have hword := instruction.sparesVariables_requireWord
  have helement := instruction.sparesVariables_requireElement
  have hrequire := require_justified (frame.scopes globals)
  obtain ⟨opcode, operand⟩ := instruction
  cases opcode with
  | pushInt | pushUInt | pushSingle | pushDouble =>
      exact (Instruction.sparesVariables_requireLiteral _).andThen fun value _ => hpush frame.stack value
  | operate operation =>
      exact (operation.sparesVariables_apply frame.stack).andThen fun result _ => hpush result.2 result.1
  | load =>
      refine hword.andThen fun id _ => (hrequire id).bind fun value _ => ?_
      exact hpush frame.stack value
  | store =>
      refine hword.andThen fun id _ => (Stack.pop_le frame.stack).andThen fun popped hpopped => ?_
      exact ⟨rfl, rfl, fun hnext => hnext, hpopped.trans, .stored id popped.1⟩
  | loadElement =>
      refine helement.andThen fun place _ => (Stack.popPath_le _ frame.stack).andThen fun path _ => ?_
      refine (hrequire place.1).bind fun base _ => (base.sparesVariables_read path.1).andThen fun value _ => ?_
      exact hpush path.2 value
  | storeElement =>
      refine helement.andThen fun place _ => (Stack.pop_le frame.stack).andThen fun popped hpopped => ?_
      refine (Stack.popPath_le _ popped.2).andThen fun path hpath => (hrequire place.1).bind fun base _ => ?_
      refine (base.sparesVariables_write path.1 popped.1).andThen fun updated _ => ?_
      exact ⟨rfl, rfl, fun hnext => hnext, (hpath.trans hpopped).trans, .replaced place.1 updated⟩
  | allocString =>
      refine hword.andThen fun count _ => (frame.stack.sparesVariables_popMany _).andThen fun codes _ => ?_
      exact (sparesVariables_joinChars codes.1).andThen fun chars _ => hpush codes.2 _
  | allocArray =>
      refine hword.andThen fun count _ => (frame.stack.sparesVariables_popMany _).andThen fun items _ => ?_
      exact hpush items.2 _
  | allocFilled =>
      refine (Instruction.sparesVariables_requireFill _).andThen fun fill _ => ?_
      refine (frame.stack.sparesVariables_popMany _).andThen fun sizes _ => ?_
      refine (sparesVariables_toSizes sizes.1).andThen fun shape _ => ?_
      exact (sparesVariables_checkShape limits.array 1 shape).andThen fun _ _ => hpush sizes.2 _
  | jump =>
      refine hword.andThen fun distance _ => ?_
      exact hproceed _ (frame.jumpForward_advances (Nat.le_refl _) distance)
  | jumpBackward =>
      exact hword.andThen fun distance _ => hproceed _ (frame.jumpBackward_advances distance)
  | jumpIfFalse =>
      refine hword.andThen fun distance _ => (Stack.pop_le frame.stack).andThen fun popped hpopped => ?_
      simp only
      split
      · exact advances_of_within hpopped.trans id
      · exact hproceed _ (frame.jumpForward_advances hpopped distance)
      · trivial
  | call =>
      cases operand with
      | word id =>
          change Ensures _ _ (if isReserved id then _ else _)
          split
          · split
            · rename_i function hfunction
              have hcall : Instruction.call id = .call function.id := by rw [Builtin.id_of_ofId? hfunction]
              exact ⟨hcall, rfl⟩
            · trivial
          · rename_i hreserved
            exact ⟨rfl, Bool.not_eq_true _ ▸ hreserved, rfl⟩
      | _ => trivial
  | ret => exact ⟨rfl, rfl⟩
  | pop =>
      refine (Stack.pop_le frame.stack).andThen fun popped hpopped => ?_
      exact advances_of_within hpopped.trans id

end Frame

namespace Builtin

theorem sparesVariables_text (form : PrintForm) (value : Value) : SparesVariables (form.text value) := by
  cases form with
  | char => exact value.sparesVariables_toChar.map fun _ _ => trivial
  | _ =>
      simp only [PrintForm.text]
      split <;> trivial

theorem sparesVariables_reading {α : Type} (conversion : Conversion) (text : String) (read : Option α) :
    SparesVariables (conversion.reading text read) := by
  cases read <;> trivial

theorem sparesVariables_apply (conversion : Conversion) (value : Value) :
    SparesVariables (conversion.apply value) := by
  cases conversion with
  | charToStr => exact value.sparesVariables_toChar.map fun _ _ => trivial
  | char =>
      cases value with
      | str text => exact (sparesVariables_reading _ text _).map fun _ _ => trivial
      | int | uint => exact (Value.sparesVariables_toChar _).map fun _ _ => trivial
      | float | array => trivial
  | bool | int | uint | float =>
      cases value with
      | str text => exact (sparesVariables_reading _ text _).map fun _ _ => trivial
      | _ => trivial
  | str | length => cases value <;> trivial

/-- A built-in function that succeeds leaves a stack within the limit. -/
theorem perform_le (limits : Limits) (stack : Stack) (console : Console) (function : Builtin) :
    Ensures Fault.SparesVariables (fun after => stack.length ≤ limits.stack → after.length ≤ limits.stack)
      (function.perform limits stack console).1 := by
  have hpush : ∀ value below, Ensures Fault.SparesVariables
      (fun after => stack.length ≤ limits.stack → after.length ≤ limits.stack) (Stack.push limits value below) := by
    intro value below
    exact (Stack.push_le limits value below).imp fun _ hpushed _ => hpushed
  cases function with
  | input =>
      simp only [perform]
      split
      · exact hpush _ stack
      · trivial
  | print form =>
      cases stack with
      | nil => trivial
      | cons value rest =>
          simp only [perform]
          split
          · rename_i fault hfault
            exact (sparesVariables_text form value).of_error hfault
          · split
            · exact (Nat.le_succ rest.length).trans
            · trivial
  | convert conversion =>
      cases stack with
      | nil => trivial
      | cons value rest =>
          simp only [perform]
          split
          · rename_i fault hfault
            exact (sparesVariables_apply conversion value).of_error hfault
          · exact hpush _ rest

end Builtin

/-- What a frame returns: nothing at the end of its stream, and at a return what lies on top of its stack. -/
def Frame.Returns (frame : Frame) (value : Option Value) : Prop :=
  (frame.code.size ≤ frame.next ∧ value = none) ∨
    (frame.code.decodeAt frame.next = .ok (.plain .ret) ∧ value = frame.stack.head?)

/-- What the next move of a frame can be. An instruction that fails is the one that the frame stands at. -/
def Move.Advances (limits : Limits) (globals : Scope) (frame : Frame) : Move → Prop
  | .proceed next after _ => ∃ instruction, frame.code.decodeAt frame.next = .ok instruction ∧
    (frame.advance instruction).Advances limits globals next after
  | .call id caller =>
    frame.code.decodeAt frame.next = .ok (.call id) ∧ isReserved id = false ∧ caller = frame.advance (.call id)
  | .leave value => frame.Returns value
  | .fail error _ => ∀ offset cause, error = .fault offset cause →
    offset = frame.next ∧ (frame.scopes globals).Justify cause

theorem Frame.move_advances (limits : Limits) (globals : Scope) (console : Console) (frame : Frame) :
    (frame.move limits globals console).Advances limits globals frame := by
  unfold move
  split
  · rename_i hend
    exact Or.inl ⟨hend, rfl⟩
  split
  · rintro offset cause ⟨⟩
  rename_i instruction hdecode
  have hadvances := (frame.advance instruction).execute_advances limits globals instruction
  unfold performed
  split
  · rename_i fault hfault
    rintro offset cause ⟨⟩
    exact ⟨rfl, hadvances.of_error hfault⟩
  · rename_i next after hproceed
    exact ⟨instruction, hdecode, hadvances.of_ok hproceed⟩
  · rename_i value hleave
    obtain ⟨hopcode, hvalue⟩ := hadvances.of_ok hleave
    have hshape := (Instruction.of_decode hdecode).2
    obtain ⟨opcode, operand⟩ := instruction
    cases hopcode
    cases operand with
    | none => exact Or.inr ⟨hdecode, hvalue⟩
    | _ => cases hshape
  · rename_i id next hcall
    obtain ⟨rfl, hreserved, rfl⟩ := hadvances.of_ok hcall
    exact ⟨hdecode, hreserved, rfl⟩
  · rename_i function next hbuiltin
    obtain ⟨-, rfl⟩ := hadvances.of_ok hbuiltin
    have hperform := function.perform_le limits frame.stack console
    split
    · rename_i stack written hstack
      refine ⟨instruction, hdecode, advances_of_within (fun hle => ?_) id⟩
      exact hperform.of_ok (congrArg Prod.fst hstack) hle
    · rename_i fault written hfault
      rintro offset cause ⟨⟩
      exact ⟨rfl, (hperform.of_error (congrArg Prod.fst hfault)).justify _⟩

end StackCode
