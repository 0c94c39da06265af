import StackCode.Proofs.Simulation

/-! What single instructions carry out: each works on the values on top of the stack and leaves those below
as they are. -/

namespace StackCode

namespace Operation

/-- An operation depends on its operands alone. -/
theorem apply_one {operation : Operation} (harity : operation.arity = 1) (x : Value) (below : Stack) :
    operation.apply (x :: below) = (operation.onOne x).map fun result => (result, below) := by
  cases operation <;> simp [arity] at harity <;> cases x <;> rfl

theorem apply_two {operation : Operation} (harity : operation.arity = 2) (left right : Value) (below : Stack) :
    operation.apply (right :: left :: below) =
      (operation.onTwo left right).map fun result => (result, below) := by
  cases operation with
  | intArith op =>
      have hdivisor : hasZeroDivisor (right :: left :: below) = hasZeroDivisor [right, left] := by
        cases right <;> rfl
      simp only [apply, onTwo, hdivisor]
      by_cases hzero : (op.divides && hasZeroDivisor [right, left]) = true
      · simp only [hzero, if_true]
        rfl
      · simp only [hzero]
        cases hresult : op.onValues left right <;> simp [Stack.pop, bind, Except.bind, hresult, Except.map]
  | floatArith op =>
      cases right with
      | float y =>
          cases left with
          | float x =>
              change (op.onFloats x y >>= fun result => .ok (Value.float result, below)) =
                ((op.onFloats x y >>= fun result => .ok (Value.float result, [])).map Prod.fst).map _
              cases op.onFloats x y <;> rfl
          | _ => rfl
      | _ => rfl
  | concat => cases right <;> cases left <;> rfl
  | compare relation family => cases family <;> cases right <;> cases left <;> rfl
  | logic connective => cases right <;> cases left <;> rfl
  | index =>
      change (left.read [right] >>= fun result => .ok (result, below)) =
        ((left.read [right] >>= fun result => .ok (result, [])).map Prod.fst).map _
      cases left.read [right] <;> rfl
  | _ => cases harity

end Operation

namespace Evaluation

variable {α β : Type}

theorem run_map (transform : α → β) (evaluation : Evaluation α) (state : State) :
    (transform <$> evaluation).run state = (evaluation >>= fun value => pure (transform value)).run state :=
  rfl

/-- What always has a value has the value that is needed. -/
theorem needed_map_some (evaluation : Evaluation Value) : (some <$> evaluation).needed = evaluation := by
  ext state
  rw [needed, run_bind, run_map, run_bind]
  cases evaluation.run state <;> rfl

/-- The evaluation of a variable fails where the machine does, and with the same fault. -/
theorem run_load (id : SymbolId) (state : State) :
    (load id).run state = (attempt (Frame.require id (state.scopes.load id))).run state := by
  rw [load, run_bind, scopes]
  dsimp only
  cases state.scopes.load id <;> rfl

theorem yields_keep (limits : Limits) (pending : Nat) (value : Value) :
    (keep limits pending value).Yields (· = value) := by
  intro state found after hdone
  unfold keep at hdone
  split at hdone
  · cases hdone
    rfl
  · cases hdone

end Evaluation

namespace Stack

/-- The first subscript of a path lies on top. -/
theorem popPath_append (path below : Stack) {count : Nat} (hcount : count = path.length) :
    popPath count (path ++ below) = .ok (path, below) := by
  subst hcount
  simp [popPath]

/-- The last item of a list lies on top. -/
theorem popMany_append (items : List Value) (below : Stack) {count : Nat} (hcount : count = items.length) :
    popMany count (items.reverse ++ below) = .ok (items, below) := by
  subst hcount
  simp [popMany]

end Stack

namespace Carries

open Evaluation

variable {environment : Environment} {fuel : Nat} {site : Site}

/-- Code that is carried out if it is short enough; all code of a stream is. -/
theorem of_short {α : Type} {code : List Instruction} {stack : Stack} {evaluation : Evaluation α}
    {completion : α → Completion} (hcarries : codeSize code < Instruction.offsetBound →
      Carries environment fuel site code stack evaluation completion) :
    Carries environment fuel site code stack evaluation completion := by
  intro offset hholds
  have hsize := hholds.le_size
  have hshort := site.short
  exact hcarries (by omega) offset hholds

/-- Of the stack a constant needs only the room. -/
theorem pushInt (n : Int64) (stack : Stack) :
    Carries environment fuel site [.pushInt n] stack (keep environment.limits stack.length (.int n))
      fun value => .normal (value :: stack) :=
  of_push (fun _ => .ok (.int n)) (fun _ => rfl) fun _ _ _ _ => rfl

theorem pushUInt (n : UInt64) (stack : Stack) :
    Carries environment fuel site [.pushUInt n] stack (keep environment.limits stack.length (.uint n))
      fun value => .normal (value :: stack) :=
  of_push (fun _ => .ok (.uint n)) (fun _ => rfl) fun _ _ _ _ => rfl

theorem pushFloat (x : Binary64) (stack : Stack) :
    Carries environment fuel site [.pushFloat x] stack (keep environment.limits stack.length (.float x))
      fun value => .normal (value :: stack) := by
  refine of_push (fun _ => .ok (.float x)) (fun _ => rfl) fun _ _ _ _ => ?_
  unfold Instruction.pushFloat
  split <;> rfl

theorem operate_one {operation : Operation} (harity : operation.arity = 1) (x : Value) (below : Stack) :
    Carries environment fuel site [.operate operation] (x :: below)
      (Meaning.unary environment.limits below.length operation x) fun value => .normal (value :: below) := by
  refine of_push (fun _ => operation.onOne x) (fun _ => rfl) fun locals globals next current => ?_
  change (operation.apply (x :: below) >>= fun popped =>
    Frame.pushOn _ environment.limits popped.2 popped.1 >>= fun frame => .ok (Action.proceed frame globals)) = _
  rw [Operation.apply_one harity]
  cases operation.onOne x <;> rfl

/-- The right operand lies on top, as it was evaluated last. -/
theorem operate_two {operation : Operation} (harity : operation.arity = 2) (left right : Value) (below : Stack) :
    Carries environment fuel site [.operate operation] (right :: left :: below)
      (Meaning.binary environment.limits below.length operation left right)
      fun value => .normal (value :: below) := by
  refine of_push (fun _ => operation.onTwo left right) (fun _ => rfl) fun locals globals next current => ?_
  change (operation.apply (right :: left :: below) >>= fun popped =>
    Frame.pushOn _ environment.limits popped.2 popped.1 >>= fun frame => .ok (Action.proceed frame globals)) = _
  rw [Operation.apply_two harity]
  cases operation.onTwo left right <;> rfl

theorem load (id : SymbolId) (stack : Stack) :
    Carries environment fuel site [.load id] stack
      (Evaluation.load id >>= keep environment.limits stack.length) fun value => .normal (value :: stack) := by
  refine of_push (fun scopes => Frame.require id (scopes.load id)) (fun state => ?_) fun _ _ _ _ => rfl
  rw [run_bind, run_bind, run_load]

/-- The subscripts are there, so only the variable and its elements can be missed. -/
theorem loadElement (id : SymbolId) {depth : UInt64} (path below : Stack) (hdepth : depth.toNat = path.length) :
    Carries environment fuel site [.loadElement id depth] (path ++ below)
      (do
        let element ← attempt ((← Evaluation.load id).read path)
        keep environment.limits below.length element) fun value => .normal (value :: below) := by
  refine of_push (fun scopes => Frame.require id (scopes.load id) >>= fun base => base.read path)
    (fun state => ?_) fun locals globals next current => ?_
  · rw [run_bind, run_load]
    cases Frame.require id (state.scopes.load id) <;> rfl
  · change (Stack.popPath depth.toNat (path ++ below) >>= fun popped =>
      Frame.require id (Scopes.load ⟨globals, locals⟩ id) >>= fun base => base.read popped.1 >>= fun value =>
        Frame.pushOn _ environment.limits popped.2 value >>= fun frame =>
          .ok (Action.proceed frame globals)) = _
    rw [Stack.popPath_append path below hdepth]
    cases Frame.require id (Scopes.load ⟨globals, locals⟩ id) <;> rfl

theorem store (id : SymbolId) (value : Value) (below : Stack) :
    Carries environment fuel site [.store id] (value :: below) (Evaluation.store id value)
      fun _ => .normal below :=
  of_execute fun _ _ _ _ _ => ⟨rfl, rfl⟩

/-- The value lies above the subscripts, and the variable is written back as a whole. -/
theorem storeElement (id : SymbolId) {depth : UInt64} (path below : Stack) (value : Value)
    (hdepth : depth.toNat = path.length) :
    Carries environment fuel site [.storeElement id depth] (value :: path ++ below)
      (Evaluation.storeElement id path value) fun _ => .normal below := by
  refine of_execute fun locals globals next current console => ?_
  let updated := Frame.require id (Scopes.load ⟨globals, locals⟩ id) >>= fun base => base.write path value
  have hexecute : Frame.execute environment.limits globals
      ⟨site.code, locals, value :: path ++ below, next, current⟩ (.storeElement id depth) =
        (updated >>= fun updated => .ok (.proceed ⟨site.code, (Scopes.replace ⟨globals, locals⟩ id updated).locals,
          below, next, current⟩ (Scopes.replace ⟨globals, locals⟩ id updated).globals)) := by
    change (Stack.popPath depth.toNat (path ++ below) >>= fun popped =>
      Frame.require id (Scopes.load ⟨globals, locals⟩ id) >>= fun base => base.write popped.1 value >>=
        fun updated => .ok (Action.proceed ⟨site.code, (Scopes.replace ⟨globals, locals⟩ id updated).locals,
          popped.2, next, current⟩ (Scopes.replace ⟨globals, locals⟩ id updated).globals)) = _
    rw [Stack.popPath_append path below hdepth]
    simp only [updated]
    cases Frame.require id (Scopes.load ⟨globals, locals⟩ id) <;> rfl
  have hstore : (Evaluation.storeElement id path value).run ⟨⟨globals, locals⟩, console⟩ =
      (attempt updated >>= fun updated => setScopes (Scopes.replace ⟨globals, locals⟩ id updated)).run
        ⟨⟨globals, locals⟩, console⟩ := by
    rw [Evaluation.storeElement, run_bind, run_load]
    simp only [updated]
    cases Frame.require id (Scopes.load ⟨globals, locals⟩ id) with
    | error cause => rfl
    | ok base =>
        change (attempt (base.write path value) >>= fun updated => Evaluation.scopes >>= fun scopes =>
          setScopes (scopes.replace id updated)).run _ = (attempt (base.write path value) >>= _).run _
        cases base.write path value <;> rfl
  rw [hexecute, hstore]
  cases updated with
  | error cause => exact ⟨rfl, rfl, rfl⟩
  | ok updated => exact ⟨rfl, rfl⟩

theorem allocArray {count : UInt64} (items : List Value) (below : Stack) (hcount : count.toNat = items.length) :
    Carries environment fuel site [.withWord .allocArray count] (items.reverse ++ below)
      (keep environment.limits below.length (.array items)) fun value => .normal (value :: below) := by
  refine of_push (fun _ => .ok (.array items)) (fun _ => rfl) fun locals globals next current => ?_
  change (Stack.popMany count.toNat (items.reverse ++ below) >>= fun popped =>
    Frame.pushOn _ environment.limits popped.2 (.array popped.1) >>= fun frame =>
      .ok (Action.proceed frame globals)) = _
  rw [Stack.popMany_append items below hcount]
  rfl

/-- The sizes are looked at before the shape, and the shape before the room for the array. -/
theorem allocFilled {dims : UInt64} (leaf : Kind) (values : List Value) (below : Stack)
    (hdims : dims.toNat = values.length) :
    Carries environment fuel site [.allocFilled dims leaf] (values.reverse ++ below)
      (do
        let shape ← attempt (Frame.toSizes values)
        attempt (checkShape environment.limits.array 1 shape)
        keep environment.limits below.length (.filled leaf shape)) fun value => .normal (value :: below) := by
  refine of_push (fun _ => Frame.toSizes values >>= fun shape =>
    checkShape environment.limits.array 1 shape >>= fun _ => .ok (.filled leaf shape))
    (fun state => ?_) fun locals globals next current => ?_
  · cases Frame.toSizes values with
    | error cause => rfl
    | ok shape =>
        change (attempt (checkShape environment.limits.array 1 shape) >>= _).run _ =
          (attempt (checkShape environment.limits.array 1 shape >>= _) >>= _).run _
        cases checkShape environment.limits.array 1 shape <;> rfl
  · change (Stack.popMany dims.toNat (values.reverse ++ below) >>= fun popped =>
      Frame.toSizes popped.1 >>= fun shape => checkShape environment.limits.array 1 shape >>= fun _ =>
        Frame.pushOn _ environment.limits popped.2 (.filled leaf shape) >>= fun frame =>
          .ok (Action.proceed frame globals)) = _
    rw [Stack.popMany_append values below hdims]
    change (Frame.toSizes values >>= _) = (Frame.toSizes values >>= _) >>= _
    cases Frame.toSizes values with
    | error cause => rfl
    | ok shape =>
        change (checkShape environment.limits.array 1 shape >>= _) =
          (checkShape environment.limits.array 1 shape >>= _) >>= _
        cases checkShape environment.limits.array 1 shape <;> rfl

end Carries

theorem Value.toChar_ofChar (c : Char) : (ofChar c).toChar = .ok c := by
  have hlt : c.toNat < 2 ^ 63 := Nat.lt_trans c.val.toNat_lt (by decide)
  have hcode : (Int64.ofNat c.toNat).toInt = c.toNat := Int64.toInt_ofNat_of_lt hlt
  have hvalid : 0 ≤ (Int64.ofNat c.toNat).toInt ∧ (Int64.ofNat c.toNat).toInt.toNat.isValidChar := by
    rw [hcode]
    exact ⟨Int.natCast_nonneg _, c.valid⟩
  change (if 0 ≤ (Int64.ofNat c.toNat).toInt ∧ (Int64.ofNat c.toNat).toInt.toNat.isValidChar then
    Except.ok (Char.ofNat (Int64.ofNat c.toNat).toInt.toNat) else _) = _
  rw [if_pos hvalid, hcode, Int.toNat_natCast, Char.ofNat_toNat]

/-- Texts that are joined from characters have no fault. -/
theorem Frame.joinChars_ofChar (chars : List Char) : joinChars (chars.map Value.ofChar) = .ok chars := by
  induction chars with
  | nil => rfl
  | cons c chars ih => simp [joinChars, Value.toChar_ofChar, ih, bind, Except.bind]

namespace Carries

open Evaluation

variable {environment : Environment} {fuel : Nat} {site : Site}

/-- The machine finds out at some character that there is no room for all of them; the evaluation counts them first. A
text without characters needs no room yet. -/
theorem pushChars (chars : List Char) (stack : Stack) :
    Carries environment fuel site (chars.map fun c => .pushInt (Int64.ofNat c.toNat)) stack
      (if chars = [] ∨ stack.length + chars.length ≤ environment.limits.stack then pure ()
        else fail .stackOverflow)
      fun _ => .normal ((chars.map Value.ofChar).reverse ++ stack) := by
  induction chars generalizing stack with
  | nil => exact of_pure rfl
  | cons c chars ih =>
      have hcons : (if c :: chars = [] ∨ stack.length + (c :: chars).length ≤ environment.limits.stack then
          pure () else fail .stackOverflow : Evaluation Unit) =
        (keep environment.limits stack.length (.ofChar c) >>= fun _ =>
          if chars = [] ∨ (Value.ofChar c :: stack).length + chars.length ≤ environment.limits.stack then
            pure () else fail .stackOverflow) := by
        unfold keep
        by_cases hroom : stack.length < environment.limits.stack
        · rw [if_pos hroom]
          change _ = if _ then _ else _
          refine if_congr ?_ rfl rfl
          cases chars with
          | nil => simpa using hroom
          | cons next chars => simp [Nat.add_comm, Nat.add_left_comm]
        · rw [if_neg hroom, if_neg]
          · rfl
          · simp only [List.length_cons, reduceCtorEq, false_or]
            omega
      rw [hcons]
      refine bind_of_yields (yields_keep _ _ _) (pushInt (Int64.ofNat c.toNat) stack) fun value hvalue => ?_
      rw [hvalue, List.map_cons, List.reverse_cons, List.append_assoc]
      exact ih (Value.ofChar c :: stack)

/-- The characters of a text are pushed one by one and joined. -/
theorem text (content : String) (stack : Stack)
    (hshort : codeSize (Literal.str content).code < Instruction.offsetBound) :
    Carries environment fuel site (Literal.str content).code stack
      (Meaning.literal environment.limits stack.length (.str content)) fun value => .normal (value :: stack) := by
  have hliteral : Meaning.literal environment.limits stack.length (.str content) =
      ((if content.toList = [] ∨ stack.length + content.toList.length ≤ environment.limits.stack then pure ()
        else fail .stackOverflow) >>= fun _ => keep environment.limits stack.length (.str content)) := by
    rw [Meaning.literal, String.length_toList]
    by_cases hroom : stack.length + content.length ≤ environment.limits.stack
    · rw [if_pos hroom, if_pos (Or.inr hroom)]
      rfl
    rw [if_neg hroom]
    by_cases hempty : content.toList = []
    · have hlength : content.length = 0 := by rw [← String.length_toList, hempty, List.length_nil]
      have hfull : ¬ stack.length < environment.limits.stack := by omega
      rw [if_pos (Or.inl hempty), keep, if_neg hfull]
      rfl
    · rw [if_neg (not_or.mpr ⟨hempty, hroom⟩)]
      rfl
  have hcount : (UInt64.ofNat content.length).toNat = (content.toList.map Value.ofChar).length := by
    have hlength := length_le_codeSize (Literal.str content).code
    rw [Literal.code, List.length_append, List.length_map, String.length_toList] at hlength
    rw [List.length_map, String.length_toList]
    exact toNat_ofNat_of_short (Nat.lt_of_le_of_lt (Nat.le_of_add_right_le hlength) hshort)
  rw [hliteral]
  refine (pushChars content.toList stack).bind fun _ => ?_
  refine of_push (fun _ => .ok (.str content)) (fun _ => rfl) fun locals globals next current => ?_
  change (Stack.popMany (UInt64.ofNat content.length).toNat
    ((content.toList.map Value.ofChar).reverse ++ stack) >>= fun popped => Frame.joinChars popped.1 >>= fun chars =>
      Frame.pushOn _ environment.limits popped.2 (.str (String.ofList chars)) >>= fun frame =>
        .ok (Action.proceed frame globals)) = _
  rw [Stack.popMany_append _ stack hcount]
  change (Frame.joinChars (content.toList.map Value.ofChar) >>= _) = _
  rw [Frame.joinChars_ofChar]
  change (Frame.pushOn _ environment.limits stack (.str (String.ofList content.toList)) >>= _) = _
  rw [String.ofList_toList]
  rfl

end Carries

namespace Builtin

/-- What a built-in function does to the operands and the console is what its call means. -/
def Performs (limits : Limits) (builtin : Builtin) (arguments : List Value) (below : Stack) (state : State) :
    Outcome (Option Value) → Prop
  | .done result after =>
    builtin.perform limits (arguments.reverse ++ below) state.console =
      (.ok (result.toList ++ below), after.console) ∧ after.scopes = state.scopes
  | .fault cause globals console =>
    builtin.perform limits (arguments.reverse ++ below) state.console = (.error cause, console) ∧
      globals = state.scopes.globals
  | .undefined => True
  | .exhausted => False

/-- A call with another number of arguments than the function takes is undefined. -/
theorem performs_callBuiltin (limits : Limits) (builtin : Builtin) (arguments : List Value) (below : Stack)
    (state : State) :
    builtin.Performs limits arguments below state
      ((Meaning.callBuiltin limits below.length builtin arguments).run state) := by
  -- the value of a call is pushed by the machine where the evaluation keeps it
  have hkept : ∀ (value : Value) (now : State), now.scopes = state.scopes →
      builtin.perform limits (arguments.reverse ++ below) state.console =
        (Stack.push limits value below, now.console) →
      builtin.Performs limits arguments below state
        ((Evaluation.keep limits below.length value >>= fun value => pure (some value)).run now) := by
    intro value now hscopes hperform
    unfold Evaluation.keep
    unfold Stack.push at hperform
    by_cases hroom : below.length < limits.stack
    · rw [if_pos hroom] at hperform ⊢
      exact ⟨hperform, hscopes⟩
    · rw [if_neg hroom] at hperform ⊢
      exact ⟨hperform, congrArg Scopes.globals hscopes⟩
  cases builtin with
  | input =>
      cases arguments with
      | cons _ _ => trivial
      | nil =>
          rcases hread : state.console.readLine with ⟨failure | line, console⟩
          · have hrun : (Meaning.callBuiltin limits below.length .input []).run state =
                .fault (.console failure) state.scopes.globals console := by
              simp [Meaning.callBuiltin, Evaluation.run_map, Evaluation.run_bind, Evaluation.onConsole, hread]
            rw [hrun]
            refine ⟨?_, rfl⟩
            simp [perform, hread]
          · have hrun : (Meaning.callBuiltin limits below.length .input []).run state =
                (Evaluation.keep limits below.length (.str line) >>= fun value => pure (some value)).run
                  { state with console } := by
              simp [Meaning.callBuiltin, Evaluation.run_map, Evaluation.run_bind, Evaluation.onConsole, hread]
            rw [hrun]
            refine hkept (.str line) { state with console } rfl ?_
            simp [perform, hread]
  | print form =>
      rcases arguments with _ | ⟨x, _ | _⟩
      · trivial
      · cases htext : form.text x with
        | error cause =>
            have hrun : (Meaning.callBuiltin limits below.length (.print form) [x]).run state =
                .fault cause state.scopes.globals state.console := by
              simp [Meaning.callBuiltin, Evaluation.run_bind, Evaluation.attempt, Evaluation.fail, htext]
            rw [hrun]
            refine ⟨?_, rfl⟩
            simp [perform, htext]
        | ok text =>
            rcases hwrite : state.console.write text with ⟨failure | ⟨⟩, console⟩
            · have hrun : (Meaning.callBuiltin limits below.length (.print form) [x]).run state =
                  .fault (.console failure) state.scopes.globals console := by
                simp [Meaning.callBuiltin, Evaluation.run_bind, Evaluation.attempt, htext, Evaluation.onConsole,
                  hwrite]
              rw [hrun]
              refine ⟨?_, rfl⟩
              simp [perform, htext, hwrite]
            · have hrun : (Meaning.callBuiltin limits below.length (.print form) [x]).run state =
                  .done none { state with console } := by
                simp [Meaning.callBuiltin, Evaluation.run_bind, Evaluation.attempt, htext, Evaluation.onConsole,
                  hwrite]
              rw [hrun]
              refine ⟨?_, rfl⟩
              simp [perform, htext, hwrite]
      · trivial
  | convert conversion =>
      rcases arguments with _ | ⟨x, _ | _⟩
      · trivial
      · cases happly : conversion.apply x with
        | error cause =>
            have hrun : (Meaning.callBuiltin limits below.length (.convert conversion) [x]).run state =
                .fault cause state.scopes.globals state.console := by
              simp [Meaning.callBuiltin, Evaluation.run_map, Evaluation.run_bind, Evaluation.attempt, Evaluation.fail, happly]
            rw [hrun]
            refine ⟨?_, rfl⟩
            simp [perform, happly]
        | ok value =>
            have hrun : (Meaning.callBuiltin limits below.length (.convert conversion) [x]).run state =
                (Evaluation.keep limits below.length value >>= fun value => pure (some value)).run state := by
              simp [Meaning.callBuiltin, Evaluation.run_map, Evaluation.run_bind, Evaluation.attempt, happly]
            rw [hrun]
            refine hkept value state rfl ?_
            simp [perform, happly]
      · trivial

end Builtin

namespace Carries

variable {environment : Environment} {fuel : Nat} {site : Site}

/-- A built-in function runs in the frame that calls it, within one step. -/
theorem callBuiltin {id : SymbolId} {builtin : Builtin} (hreserved : isReserved id = true)
    (hbuiltin : Builtin.ofId? id = some builtin) (arguments : List Value) (below : Stack) :
    Carries environment fuel site [.call id] (arguments.reverse ++ below)
      (Meaning.callBuiltin environment.limits below.length builtin arguments)
      fun result => .normal (result.toList ++ below) := by
  refine of_perform fun before next current state => ?_
  have hexecute : ∀ frame : Frame, frame.execute environment.limits state.scopes.globals (.call id) =
      .ok (.builtin builtin frame) := by
    intro frame
    rw [Frame.execute_call_reserved hreserved, hbuiltin]
  have hperforms := builtin.performs_callBuiltin environment.limits arguments below state
  cases houtcome : (Meaning.callBuiltin environment.limits below.length builtin arguments).run state with
  | done result after =>
      rw [houtcome] at hperforms
      obtain ⟨hperform, hscopes⟩ := hperforms
      simp only [Machine.perform, hexecute, Machine.performBuiltin, hperform, Site.machine, hscopes]
  | fault cause globals console =>
      rw [houtcome] at hperforms
      obtain ⟨hperform, rfl⟩ := hperforms
      simp only [Machine.perform, hexecute, Machine.performBuiltin, hperform]
  | undefined => trivial
  | exhausted =>
      rw [houtcome] at hperforms
      exact hperforms.elim

end Carries
end StackCode
