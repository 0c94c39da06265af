import StackCode.Proofs.Visits

/-! Function declarations can be moved. What a statement emits and the code that it gives to functions are the same in
every context that accepts it; the functions of the context decide only whether it is accepted. So two lists that differ
in where their functions are declared are compiled to the same program, if both are accepted. -/

namespace StackCode

/-- The statement declares a function; what stands in its body does not count. -/
def Stmt.isFunction : Stmt → Bool
  | .function _ _ _ => true
  | _ => false

/-- Lists with the same function declarations, in any order, and the same other statements, in the same order. -/
structure Rearranged (first second : List Stmt) : Prop where
  functions : (first.filter (·.isFunction)).Perm (second.filter (·.isFunction))
  others : first.filter (!·.isFunction) = second.filter (!·.isFunction)

namespace Rearranged

variable {first second : List Stmt}

theorem perm (hmoved : Rearranged first second) : first.Perm second := by
  have hfirst := List.filter_append_perm (·.isFunction) first
  have hsecond := List.filter_append_perm (·.isFunction) second
  refine hfirst.symm.trans (List.Perm.trans ?_ hsecond)
  exact hmoved.functions.append (List.Perm.of_eq hmoved.others)

end Rearranged

/-- A function declaration emits nothing where it stands. -/
theorem Code.stmts_filter (statements : List Stmt) :
    stmts (statements.filter (!·.isFunction)) = stmts statements := by
  induction statements with
  | nil => rfl
  | cons statement rest ih =>
      cases statement with
      | function id params body => exact ih
      | _ => exact congrArg (stmt _ ++ ·) ih

namespace Declaration

theorem ofStmts_eq_flatMap (statements : List Stmt) : ofStmts statements = statements.flatMap ofStmt := by
  induction statements with
  | nil => rfl
  | cons statement rest ih => rw [ofStmts, ih, List.flatMap_cons]

/-- Where every identifier is declared once, the order of the declarations does not matter. -/
theorem find?_of_perm {declared others : List Declaration} (hperm : declared.Perm others)
    (hdistinct : declared.Pairwise fun first second => first.id ≠ second.id) (id : SymbolId) :
    find? declared id = find? others id := by
  have hothers : others.Pairwise fun first second => first.id ≠ second.id :=
    (hperm.pairwise_iff fun hne => hne.symm).mp hdistinct
  cases hfind : find? others id with
  | none => exact find?_eq_none.mpr fun declaration hmem => find?_eq_none.mp hfind declaration (hperm.mem_iff.mp hmem)
  | some declaration =>
      obtain ⟨hmem, rfl⟩ := find?_eq_some hfind
      exact find?_of_mem hdistinct (hperm.mem_iff.mpr hmem)

end Declaration

/-- Two compilations of rearranged lists in one context have the same outcome if both succeed. -/
theorem compile_of_rearranged {context after later : Context} {first second : List Stmt} {code other : Stream}
    (hmoved : Rearranged first second) (hfirst : compile context first = (.ok code, after))
    (hsecond : compile context second = (.ok other, later)) : code = other ∧ after = later := by
  obtain ⟨hcode, hdeclares⟩ := compile_of_ok hfirst
  obtain ⟨hother, hlater⟩ := compile_of_ok hsecond
  refine ⟨?_, ?_⟩
  · rw [hcode, hother, ← Code.stmts_filter first, hmoved.others, Code.stmts_filter second]
  · have hperm : (Declaration.ofStmts first).Perm (Declaration.ofStmts second) := by
      rw [Declaration.ofStmts_eq_flatMap, Declaration.ofStmts_eq_flatMap]
      exact hmoved.perm.flatMap_right _
    have hfunctions : after.functions = later.functions := by
      refine Table.ext_get? fun id => ?_
      rw [hdeclares.functions, hlater.functions, Declaration.find?_of_perm hperm hdeclares.distinct]
    obtain ⟨nextId, functions⟩ := after
    obtain ⟨laterId, laterFunctions⟩ := later
    obtain rfl : nextId = laterId := hdeclares.nextId.trans hlater.nextId.symm
    obtain rfl : functions = laterFunctions := hfunctions
    rfl

theorem compile_of_compileProgram {statements : List Stmt} {program : Program}
    (hcompile : compileProgram statements = .ok program) :
    ∃ after, compile .empty statements = (.ok program.main, after) ∧ program.functions = after.functions := by
  unfold compileProgram at hcompile
  rcases hresult : compile .empty statements with ⟨error | main, after⟩ <;> rw [hresult] at hcompile
  · cases hcompile
  · cases hcompile
    exact ⟨after, rfl, rfl⟩

/-- What a statement contributes wherever it is accepted: the stream that it emits behind what is there, and the
functions that it enters. -/
theorem Gen.exists_contribution (statement : Stmt) :
    ∃ (code : Stream) (entered : SymbolId → Option Function), ∀ context out after,
      (stmt statement).on ⟨context, out⟩ = (.ok (), after) →
        after.out.code = out.code.append code ∧
        ∀ id, after.context.functions.get? id = (entered id).or (context.functions.get? id) := by
  refine ⟨.ofInstructions (Code.stmt statement),
    fun id => (Declaration.find? (Declaration.ofStmt statement) id).map Declaration.function, ?_⟩
  intro context out after hon
  have hcompiles := compiles_stmt statement out context
  rw [hon] at hcompiles
  obtain ⟨-, hout, hdeclares⟩ := hcompiles
  refine ⟨?_, fun id => ?_⟩
  · have hemitter : after.out = ⟨out.code.append (.ofInstructions (Code.stmt statement))⟩ := by
      refine Emitter.eq_of_toList ?_
      rw [hout, Emitter.toList_emitAll, Stream.append, Array.toList_append, Stream.toList_ofInstructions]
    rw [hemitter]
  · dsimp only
    rw [hdeclares.functions]
    cases Declaration.find? (Declaration.ofStmt statement) id <;> rfl

/-- Function declarations can be moved freely. Rearranged lists that are both accepted are compiled to the same program.
More generally every statement has a stream that it emits and functions that it enters, in whatever context it is
accepted: the functions of the context have no influence on either. -/
theorem functions_move_freely :
    (∀ first second program other, Rearranged first second → compileProgram first = .ok program →
      compileProgram second = .ok other → program = other) ∧
    ∀ statement, ∃ (code : Stream) (entered : SymbolId → Option Function), ∀ context out after,
      (Gen.stmt statement).on ⟨context, out⟩ = (.ok (), after) →
        after.out.code = out.code.append code ∧
        ∀ id, after.context.functions.get? id = (entered id).or (context.functions.get? id) := by
  refine ⟨?_, Gen.exists_contribution⟩
  rintro first second ⟨main, functions⟩ ⟨otherMain, otherFunctions⟩ hmoved hfirst hsecond
  obtain ⟨after, hafter, rfl⟩ := compile_of_compileProgram hfirst
  obtain ⟨later, hlater, rfl⟩ := compile_of_compileProgram hsecond
  obtain ⟨rfl, rfl⟩ := compile_of_rearranged hmoved hafter hlater
  rfl

-- Whether a list is accepted may depend on the order: an arity is checked only where it is known.
example : compileProgram [.function 64 [70] [], .expr (.call 64 [] none)] = .error (.arityMismatch 64 1 0) ∧
    (compileProgram [.expr (.call 64 [] none), .function 64 [70] []]).toOption.isSome = true := by
  decide +kernel

/-- Calls functions before they are declared, one of them within another. -/
def declaredLate : List Stmt :=
  [.declare 80 .int64 [] (some (.call 65 [.literal (.int 5) (some .int64)] (some .int64))),
   .function 64 [70] [.function 66 [] [.expr (.call 65 [.var 80 none] none)], .ret (some (.var 70 (some .int64)))],
   .expr (.call 66 [] none),
   .function 65 [71] [.ret (some (.call 64 [.var 71 (some .int64)] (some .int64)))]]

/-- The same statements with the functions in front, the last one first. -/
def declaredEarly : List Stmt :=
  [.function 65 [71] [.ret (some (.call 64 [.var 71 (some .int64)] (some .int64)))],
   .function 64 [70] [.function 66 [] [.expr (.call 65 [.var 80 none] none)], .ret (some (.var 70 (some .int64)))],
   .declare 80 .int64 [] (some (.call 65 [.literal (.int 5) (some .int64)] (some .int64))),
   .expr (.call 66 [] none)]

theorem functions_move_freely_declaredEarly :
    Rearranged declaredLate declaredEarly ∧ ∃ program, compileProgram declaredLate = .ok program ∧
      compileProgram declaredEarly = .ok program ∧ program.functions.keys = [64, 65, 66] := by
  have hmoved : Rearranged declaredLate declaredEarly := ⟨List.Perm.swap _ _ [], rfl⟩
  have hlate : compileProgram declaredLate =
      .ok ⟨.ofInstructions (Code.stmts declaredLate), (compile .empty declaredLate).2.functions⟩ := by decide +kernel
  have hearly : compileProgram declaredEarly =
      .ok ⟨.ofInstructions (Code.stmts declaredEarly), (compile .empty declaredEarly).2.functions⟩ := by decide +kernel
  refine ⟨hmoved, _, hlate, ?_, by decide +kernel⟩
  rw [functions_move_freely.1 _ _ _ _ hmoved hlate hearly]
  exact hearly

end StackCode
