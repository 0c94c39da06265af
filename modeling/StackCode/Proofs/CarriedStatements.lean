import StackCode.Proofs.Carried

/-! The code of statements carries out their meaning. A statement comes to its end with the values it leaves
behind, or stands at an instruction that leaves the frame with what the statement returns. -/

namespace StackCode

open Code (jumpOver)

namespace Site

variable {environment : Environment} {site : Site} {offset current : Nat} {stack : Stack} {state : State}

/-- One step over an instruction that changes the stack and the place. -/
theorem run_proceed {instruction : Instruction} {target : Nat} {left : Stack}
    (hholds : site.code.Holds offset [instruction])
    (hexecute : Frame.execute environment.limits state.scopes.globals
        ⟨site.code, state.scopes.locals, stack, offset + instruction.length, offset⟩ instruction =
      .ok (.proceed ⟨site.code, state.scopes.locals, left, target, offset⟩ state.scopes.globals)) :
    (site.machine offset current stack state).run environment 1 =
      .running (site.machine target offset left state) := by
  rw [Machine.run_succ, site.step_machine environment hholds.decodeAt]
  simp only [Machine.perform, Site.machine, hexecute]
  rfl

/-- A jump over code that stands after it leads to the end of that code. -/
theorem jumpForward_over {opcode : Opcode} {skipped : List Instruction} {locals : Option Scope}
    (hholds : site.code.Holds offset (jumpOver opcode skipped :: skipped)) :
    Frame.jumpForward ⟨site.code, locals, stack, offset + (jumpOver opcode skipped).length, current⟩
        (UInt64.ofNat (codeSize skipped)) =
      .ok ⟨site.code, locals, stack, offset + codeSize (jumpOver opcode skipped :: skipped), current⟩ := by
  have hsize := hholds.le_size
  have hshort := site.short
  rw [codeSize_cons] at hsize ⊢
  have hword : (UInt64.ofNat (codeSize skipped)).toNat = codeSize skipped := toNat_ofNat_of_short (by omega)
  have hle : offset + (jumpOver opcode skipped).length + (UInt64.ofNat (codeSize skipped)).toNat ≤
      site.code.size := by
    omega
  refine (Frame.jumpForward_of_le hle).trans ?_
  rw [hword, Nat.add_assoc]

theorem run_jump {skipped : List Instruction}
    (hholds : site.code.Holds offset (jumpOver .jump skipped :: skipped)) :
    (site.machine offset current stack state).run environment 1 =
      .running (site.machine (offset + codeSize (jumpOver .jump skipped :: skipped)) offset stack state) := by
  refine run_proceed (Stream.Holds.left hholds) ?_
  change (Frame.jumpForward _ (UInt64.ofNat (codeSize skipped)) >>= fun frame => .ok (Action.proceed frame _)) = _
  rw [jumpForward_over hholds]
  rfl

/-- A jump back over the code before it leads to the start of that code. -/
theorem run_jumpBackward {before : List Instruction} {distance : Nat}
    (hdistance : distance = codeSize before + Opcode.jumpBackward.encodedLength)
    (hholds : site.code.Holds offset (before ++ [.withWord .jumpBackward (UInt64.ofNat distance)])) :
    (site.machine (offset + codeSize before) current stack state).run environment 1 =
      .running (site.machine offset (offset + codeSize before) stack state) := by
  have hsize := hholds.le_size
  have hshort := site.short
  have hlength : (Instruction.withWord .jumpBackward (UInt64.ofNat distance)).length =
      Opcode.jumpBackward.encodedLength := rfl
  rw [codeSize_append, codeSize_cons, codeSize_nil, hlength] at hsize
  have hword : (UInt64.ofNat distance).toNat = distance := toNat_ofNat_of_short (by omega)
  refine run_proceed hholds.right ?_
  change (Frame.jumpBackward _ (UInt64.ofNat distance) >>= fun frame => .ok (Action.proceed frame _)) = _
  have hle : (UInt64.ofNat distance).toNat ≤
      offset + codeSize before + Opcode.jumpBackward.encodedLength := by
    omega
  rw [Frame.jumpBackward_of_le hle]
  change Except.ok (Action.proceed ⟨_, _, _, offset + codeSize before + Opcode.jumpBackward.encodedLength -
    (UInt64.ofNat distance).toNat, _⟩ _) = _
  rw [show offset + codeSize before + Opcode.jumpBackward.encodedLength -
    (UInt64.ofNat distance).toNat = offset by omega]

end Site

section Statements

variable {environment : Environment} {fuel : Nat} {site : Site} {call : Call}

/-- A test goes on at the code after it, or at the end of that code. -/
theorem follows_truth (hcalls : CallsCarried environment fuel site call) (cond : Expr)
    {skipped : List Instruction} {offset : Nat}
    (hholds : site.code.Holds offset (Code.expr cond ++ jumpOver .jumpIfFalse skipped :: skipped))
    (current : Nat) (stack : Stack) (state : State) :
    Follows environment fuel (site.machine offset current stack state)
      (fun truth after target => ∃ current, target = site.machine (offset + codeSize (Code.expr cond) +
        if truth then Opcode.jumpIfFalse.encodedLength
        else codeSize (jumpOver .jumpIfFalse skipped :: skipped)) current stack after)
      ((Meaning.truth environment.limits call stack.length cond).run state) := by
  refine (carries_value hcalls cond stack offset hholds.left current state).bind ?_
  rintro x after target - ⟨between, rfl⟩
  have htest : site.code.Holds (offset + codeSize (Code.expr cond)) [jumpOver .jumpIfFalse skipped] :=
    Stream.Holds.left hholds.right
  cases htruth : x.truth? with
  | none =>
      refine ⟨offset + codeSize (Code.expr cond), 1, ?_⟩
      rw [Machine.run_succ, site.step_machine environment htest.decodeAt]
      have hexecute : Frame.execute environment.limits after.scopes.globals
          ⟨site.code, after.scopes.locals, x :: stack, offset + codeSize (Code.expr cond) +
            (jumpOver .jumpIfFalse skipped).length, offset + codeSize (Code.expr cond)⟩
          (jumpOver .jumpIfFalse skipped) = .error (.mismatch .jumpIfFalse x) := by
        refine (Frame.execute_jumpIfFalse _ _ _ _).trans ?_
        simp only [htruth]
      simp only [Machine.perform, Site.machine, hexecute]
      rfl
  | some truth =>
      refine ⟨1, _, Site.run_proceed htest ?_, _, rfl⟩
      refine (Frame.execute_jumpIfFalse _ _ _ _).trans ?_
      simp only [htruth]
      cases truth with
      | true => rfl
      | false =>
          change (Frame.jumpForward _ (UInt64.ofNat (codeSize skipped)) >>= fun frame =>
            .ok (Action.proceed frame _)) = _
          rw [Site.jumpForward_over hholds.right]
          rfl

theorem carries_andThen {code rest : List Instruction} {stack : Stack} {first : Evaluation Completion}
    {next : List Value → Evaluation Completion} (hfirst : Carries environment fuel site code stack first id)
    (hnext : ∀ left, Carries environment fuel site rest left (next left) id) :
    Carries environment fuel site (code ++ rest) stack (Meaning.andThen first next) id := by
  intro offset hholds current state
  refine (hfirst offset hholds.left current state).bind ?_
  intro completion after target _ hreached
  cases completion with
  | normal left =>
      obtain ⟨between, rfl⟩ := hreached
      have hsecond := hnext left _ hholds.right between after
      rwa [codeSize_append, ← Nat.add_assoc]
  | returned value => exact ⟨0, target, rfl, hreached⟩

/-- At the end of its body a loop goes back to its condition. -/
theorem Site.run_loop_back {cond body : List Instruction} {offset : Nat}
    (hholds : site.code.Holds offset (Code.loop cond body)) (current : Nat) (stack : Stack) (state : State) :
    (site.machine (offset + codeSize cond + Opcode.jumpIfFalse.encodedLength + codeSize body)
        current stack state).run environment 1 =
      .running (site.machine offset
        (offset + codeSize cond + Opcode.jumpIfFalse.encodedLength + codeSize body) stack state) := by
  let test := jumpOver .jumpIfFalse (Code.loopBody cond body)
  have hsize : codeSize (cond ++ test :: body) =
      codeSize cond + Opcode.jumpIfFalse.encodedLength + codeSize body := by
    rw [codeSize_append, codeSize_cons, Code.length_jumpOver, Nat.add_assoc]
  have hwhole : Code.loop cond body = (cond ++ test :: body) ++ [.withWord .jumpBackward (UInt64.ofNat
      (codeSize cond + Opcode.jumpIfFalse.encodedLength + codeSize body +
        Opcode.jumpBackward.encodedLength))] := by
    rw [List.append_assoc]
    rfl
  rw [hwhole] at hholds
  have hback : (site.machine (offset + codeSize (cond ++ test :: body)) current stack state).run environment 1 =
      _ := Site.run_jumpBackward (by rw [hsize]) hholds
  rw [hsize] at hback
  rwa [Nat.add_assoc offset, Nat.add_assoc offset]

/-- A loop takes a round less than it has fuel for, and each round takes the jump back. -/
theorem carries_loop (hcalls : CallsCarried environment fuel site call) (cond : Expr)
    {body : List Instruction} {run : List Value → Evaluation Completion}
    (hbody : ∀ left, Carries environment fuel site body left (run left) id) (left : List Value) :
    Carries environment fuel site (Code.loop (Code.expr cond) body) left
      (Meaning.repeatWhile (fun pending => Meaning.truth environment.limits call pending cond) run fuel left)
      id := by
  intro offset hholds
  suffices hrounds : ∀ rounds ≤ fuel, ∀ left current state,
      Follows environment rounds (site.machine offset current left state)
        (fun completion after target =>
          completion.Reached environment site (offset + codeSize (Code.loop (Code.expr cond) body)) after target)
        ((Meaning.repeatWhile (fun pending => Meaning.truth environment.limits call pending cond) run
          rounds left).run state) from
    hrounds fuel (Nat.le_refl fuel) left
  intro rounds
  induction rounds with
  | zero =>
      intro _ left current state
      exact ⟨_, rfl⟩
  | succ rounds ih =>
      intro hrounds left current state
      refine ((follows_truth hcalls cond hholds current left state).less_fuel hrounds).bind ?_
      rintro truth after target - ⟨between, rfl⟩
      cases truth with
      | false =>
          refine ⟨0, _, rfl, between, ?_⟩
          rw [Code.loop, codeSize_append, ← Nat.add_assoc]
          rfl
      | true =>
          refine ((hbody left _ hholds.right.tail.left between after).less_fuel hrounds).bind ?_
          intro completion later target _ hreached
          cases completion with
          | returned value => exact ⟨0, target, rfl, hreached⟩
          | normal left =>
              obtain ⟨last, rfl⟩ := hreached
              rw [Nat.add_comm rounds 1]
              exact .of_run_add (Site.run_loop_back hholds last left later)
                (ih (Nat.le_of_succ_le hrounds) left _ later)

/-- At the end of its body a branch goes on after the rest of them. -/
theorem Site.run_branch_end {cond body rest : List Instruction} {offset : Nat}
    (hholds : site.code.Holds offset (Code.branch cond body rest)) (current : Nat) (stack : Stack)
    (state : State) :
    (site.machine (offset + codeSize cond + Opcode.jumpIfFalse.encodedLength + codeSize body)
        current stack state).run environment 1 =
      .running (site.machine (offset + codeSize (Code.branch cond body rest))
        (offset + codeSize cond + Opcode.jumpIfFalse.encodedLength + codeSize body) stack state) := by
  let test := jumpOver .jumpIfFalse (body ++ [jumpOver .jump rest])
  have hsize : codeSize (cond ++ test :: body) =
      codeSize cond + Opcode.jumpIfFalse.encodedLength + codeSize body := by
    rw [codeSize_append, codeSize_cons, Code.length_jumpOver, Nat.add_assoc]
  have hwhole : Code.branch cond body rest = (cond ++ test :: body) ++ jumpOver .jump rest :: rest := by
    simp [Code.branch, test]
  rw [hwhole] at hholds ⊢
  have hjump : (site.machine (offset + codeSize (cond ++ test :: body)) current stack state).run environment 1 =
      _ := Site.run_jump hholds.right
  rw [codeSize_append (cond ++ test :: body), ← Nat.add_assoc offset (codeSize (cond ++ test :: body))]
  rw [hsize] at hjump ⊢
  rwa [Nat.add_assoc offset, Nat.add_assoc offset]

theorem carries_branch (hcalls : CallsCarried environment fuel site call) (cond : Expr)
    {body rest : List Instruction} {taken otherwise : Evaluation Completion} {left : List Value}
    (hbody : Carries environment fuel site body left taken id)
    (hrest : Carries environment fuel site rest left otherwise id) :
    Carries environment fuel site (Code.branch (Code.expr cond) body rest) left
      (do if ← Meaning.truth environment.limits call left.length cond then taken else otherwise) id := by
  intro offset hholds current state
  have htest := Stream.Holds.left hholds
  refine (follows_truth hcalls cond htest current left state).bind ?_
  rintro truth after target - ⟨between, rfl⟩
  cases truth with
  | false =>
      have hfollows := hrest _ (Stream.Holds.right hholds) between after
      rw [Code.branch, codeSize_append, ← Nat.add_assoc]
      rwa [codeSize_append, ← Nat.add_assoc offset] at hfollows ⊢
  | true =>
      refine (hbody _ htest.right.tail.left between after).extend ?_
      intro completion later target hreached
      cases completion with
      | returned value => exact ⟨0, target, rfl, hreached⟩
      | normal left =>
          obtain ⟨last, rfl⟩ := hreached
          exact ⟨1, _, Site.run_branch_end hholds last left later, _, rfl⟩

theorem carries_ret (stack : Stack) :
    Carries environment fuel site [.plain .ret] stack (pure (.returned stack.head?)) id := by
  intro offset hholds current state
  refine ⟨0, _, rfl, ?_⟩
  exact site.step_machine environment hholds.decodeAt

theorem carries_normal {α : Type} {code : List Instruction} {stack : Stack} {first : Evaluation α}
    {leaves : α → Stack}
    (hfirst : Carries environment fuel site code stack first fun value => .normal (leaves value)) :
    Carries environment fuel site code stack (first >>= fun value => pure (.normal (leaves value))) id :=
  hfirst.map fun value => Completion.normal (leaves value)

theorem carries_pop (value : Value) (stack : Stack) :
    Carries environment fuel site [.plain .pop] (value :: stack) (pure (.normal stack)) id := by
  have hpop : Carries environment fuel site [.plain .pop] (value :: stack) (pure ()) fun _ => .normal stack :=
    .of_execute fun _ _ _ _ _ => ⟨rfl, rfl⟩
  exact carries_normal hpop

theorem carries_pop_empty :
    Carries environment fuel site [.plain .pop] [] (Evaluation.fail .stackUnderflow) id := by
  have hpop : Carries environment fuel site [.plain .pop] [] (Evaluation.fail .stackUnderflow : Evaluation Unit)
      fun _ => .normal [] :=
    .of_execute fun _ _ _ _ _ => ⟨rfl, rfl, rfl⟩
  exact carries_normal hpop

theorem carries_assignElement (hcalls : CallsCarried environment fuel site call) (symbol : SymbolId)
    (ty : DataType) (indices : List Expr) (op : Option Arith) (tree : Expr) (left : List Value) :
    Carries environment fuel site (Code.stmt (.assignElement symbol ty indices op tree)) left
      (Meaning.stmt environment.limits call fuel left (.assignElement symbol ty indices op tree)) id := by
  refine .of_short fun hshort => ?_
  rw [Code.stmt, List.append_assoc] at hshort ⊢
  rw [Meaning.stmt]
  refine .bind_of_yields (yields_exprs _ _ _ _) (carries_exprs hcalls indices.reverse left)
    fun path hlength => ?_
  have hpending : left.length + path.length = (path.reverse ++ left).length := by
    rw [List.length_append, List.length_reverse, Nat.add_comm]
  rw [hpending]
  refine (carries_assignedValue hcalls ty op _ tree (path.reverse ++ left)).bind fun value => ?_
  have hcount := Code.length_le_codeSize_exprs indices.reverse
  rw [codeSize_append] at hshort
  rw [List.length_reverse] at hcount hlength
  have hdepth : (UInt64.ofNat indices.length).toNat = path.reverse.length := by
    rw [List.length_reverse, hlength]
    exact toNat_ofNat_of_short (by omega)
  exact carries_normal (.storeElement symbol path.reverse left value hdepth)

mutual

theorem carries_stmt (hcalls : CallsCarried environment fuel site call) :
    ∀ (tree : Stmt) (left : List Value), Carries environment fuel site (Code.stmt tree) left
      (Meaning.stmt environment.limits call fuel left tree) id
  | .declare id ty declared init, left =>
    (carries_initialValue hcalls ty declared init left).bind fun value => carries_normal (.store id value left)
  | .assign id ty op tree, left =>
    (carries_assignedValue hcalls ty op _ tree left).bind fun value => carries_normal (.store id value left)
  | .assignElement id ty indices op tree, left => carries_assignElement hcalls id ty indices op tree left
  | .conditional list, left => carries_branches hcalls list left
  | .whileLoop cond body, left => carries_loop hcalls cond (carries_stmts hcalls body) left
  | .forLoop init cond body, left =>
    carries_andThen (carries_stmt hcalls init left) (carries_loop hcalls cond (carries_stmts hcalls body))
  | .function _ _ _, _ => .of_pure rfl
  | .ret none, left => carries_ret left
  | .ret (some tree), left => by
    refine (carries_expr hcalls tree left).bind fun result => ?_
    have hhead : result.or left.head? = (result.toList ++ left).head? := by
      cases result <;> rfl
    rw [hhead]
    exact carries_ret (result.toList ++ left)
  | .expr tree, left => by
    refine (carries_expr hcalls tree left).bind fun result => ?_
    split
    · cases result.toList ++ left with
      | nil => exact carries_pop_empty
      | cons value rest => exact carries_pop value rest
    · exact .of_pure rfl

theorem carries_stmts (hcalls : CallsCarried environment fuel site call) :
    ∀ (trees : List Stmt) (left : List Value), Carries environment fuel site (Code.stmts trees) left
      (Meaning.stmts environment.limits call fuel left trees) id
  | [], _ => .of_pure rfl
  | first :: rest, left => carries_andThen (carries_stmt hcalls first left) (carries_stmts hcalls rest)

theorem carries_branches (hcalls : CallsCarried environment fuel site call) :
    ∀ (list : Branches) (left : List Value), Carries environment fuel site (Code.branches list) left
      (Meaning.branches environment.limits call fuel left list) id
  | .otherwise body, left => carries_stmts hcalls body left
  | .arm cond body rest, left =>
    carries_branch hcalls cond (carries_stmts hcalls body left) (carries_branches hcalls rest left)

end

end Statements

end StackCode
