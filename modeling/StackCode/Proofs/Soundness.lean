import StackCode.Proofs.Correctness
import StackCode.Proofs.SafeTrees
import StackCode.Proofs.UndefinedVariables

/-! Well-typed programs are safe. Statements are safe if the calls in them are, calls are safe by the fuel they
have, and compiled programs do what their statements mean. -/

namespace StackCode

open Evaluation

/-- What a body returns is as expected. -/
def Returns.Allows (expected : Returns) (value : Option Value) : Prop :=
  match expected with
  | .anything | .nothing => True
  | .value shape => ∃ found, value = some found ∧ found.Fits shape

def Completion.IsReturn (completion : Completion) : Prop := ∃ value, completion = .returned value

/-- A statement of a body returns nothing that is not expected. -/
def Completion.Suits (expected : Returns) : Completion → Prop
  | .normal _ => True
  | .returned value => expected.Allows value

section Returning

variable {limits : Limits} {call : Call} {fuel : Nat}

theorem yields_andThen_left {first : Evaluation Completion} {next : List Value → Evaluation Completion}
    (hfirst : first.Yields (·.IsReturn)) :
    (Meaning.andThen first next).Yields (·.IsReturn) := by
  refine hfirst.bind fun completion hreturned => ?_
  obtain ⟨value, rfl⟩ := hreturned
  exact yields_pure ⟨value, rfl⟩

theorem yields_andThen_right {first : Evaluation Completion} {next : List Value → Evaluation Completion}
    (hnext : ∀ left, (next left).Yields (·.IsReturn)) :
    (Meaning.andThen first next).Yields (·.IsReturn) := by
  refine (yields_true first).bind fun completion _ => ?_
  cases completion with
  | normal left => exact hnext left
  | returned value => exact yields_pure ⟨value, rfl⟩

mutual

theorem yields_stmt (tree : Stmt) (left : List Value) (hreturns : tree.returns = true) :
    (Meaning.stmt limits call fuel left tree).Yields (·.IsReturn) := by
  cases tree with
  | ret value =>
      cases value with
      | none => exact yields_pure ⟨_, rfl⟩
      | some tree => exact (yields_true _).bind fun result _ => yields_pure ⟨_, rfl⟩
  | conditional list => exact yields_branches list left hreturns
  | forLoop init cond body => exact yields_andThen_left (yields_stmt init left hreturns)
  | _ => cases hreturns

theorem yields_stmts (trees : List Stmt) (left : List Value) (hreturns : Stmt.anyReturns trees = true) :
    (Meaning.stmts limits call fuel left trees).Yields (·.IsReturn) := by
  cases trees with
  | nil => cases hreturns
  | cons first rest =>
      obtain hfirst | hrest := Bool.or_eq_true_iff.mp hreturns
      · exact yields_andThen_left (yields_stmt first left hfirst)
      · exact yields_andThen_right fun left => yields_stmts rest left hrest

theorem yields_branches (list : Branches) (left : List Value) (hreturns : Stmt.branchesReturn list = true) :
    (Meaning.branches limits call fuel left list).Yields (·.IsReturn) := by
  cases list with
  | otherwise body => exact yields_stmts body left hreturns
  | arm cond body rest =>
      obtain ⟨hbody, hrest⟩ := Bool.and_eq_true_iff.mp hreturns
      refine (yields_true _).bind fun truth _ => ?_
      cases truth with
      | true => exact yields_stmts body left hbody
      | false => exact yields_branches rest left hrest

end

end Returning

namespace Typing

variable {typing : Typing} {initial : Scope} {limits : Limits}

section Statements

variable {call : Call} {fuel : Nat} {expected : Returns}

theorem safe_andThen {first : Evaluation Completion} {next : List Value → Evaluation Completion}
    (hfirst : Safe typing initial first (·.Suits expected))
    (hnext : ∀ left, Safe typing initial (next left) (·.Suits expected)) :
    Safe typing initial (Meaning.andThen first next) (·.Suits expected) := by
  refine hfirst.bind fun completion hcompletion => ?_
  cases completion with
  | normal left => exact hnext left
  | returned value => exact .of_pure hcompletion

theorem safe_repeatWhile {cond : Nat → Evaluation Bool} {body : List Value → Evaluation Completion}
    (hcond : ∀ pending, Safe typing initial (cond pending) fun _ => True)
    (hbody : ∀ left, Safe typing initial (body left) (·.Suits expected)) (fuel : Nat) (left : List Value) :
    Safe typing initial (Meaning.repeatWhile cond body fuel left) (·.Suits expected) := by
  induction fuel generalizing left with
  | zero => exact .of_exhausted
  | succ fuel ih =>
      refine (hcond left.length).bind fun truth _ => ?_
      cases truth with
      | true => exact safe_andThen (hbody left) ih
      | false => exact .of_pure trivial

theorem types_of_variableShape? {id : SymbolId} {shape : Shape}
    (hvariable : typing.variableShape? id = some shape) :
    ∃ ty, typing.types.get? id = some ty ∧ ty.shape = shape :=
  Option.map_eq_some_iff.mp hvariable

/-- A value of the right shape is stored. -/
theorem safe_stored {id : SymbolId} {shape : Shape} {evaluation : Evaluation Value} {left : List Value}
    (hvariable : typing.variableShape? id = some shape)
    (hsafe : Safe typing initial evaluation (·.Fits shape)) :
    Safe typing initial (do store id (← evaluation); return .normal left : Evaluation Completion)
      (·.Suits expected) := by
  obtain ⟨ty, hty, rfl⟩ := types_of_variableShape? hvariable
  exact hsafe.bind fun value hvalue => (Safe.store hty hvalue).bind fun _ _ => .of_pure trivial

theorem safe_indices (hcalls : typing.CallsSafe initial call) {indices : List Expr} (pending : Nat)
    (hindices : ∀ tree ∈ indices, typing.shape? tree = some .integer) :
    Safe typing initial (Meaning.exprs limits call pending indices) fun values =>
      values.length = indices.length ∧ ∀ value ∈ values, value.Fits .integer := by
  induction indices generalizing pending with
  | nil => exact .of_pure ⟨rfl, fun _ hmem => absurd hmem List.not_mem_nil⟩
  | cons index rest ih =>
      obtain ⟨hindex, hrest⟩ := List.forall_mem_cons.mp hindices
      refine (safe_value hcalls index pending hindex).bind fun value hvalue => ?_
      refine (ih (pending + 1) hrest).bind fun values hvalues => ?_
      exact .of_pure ⟨congrArg (· + 1) hvalues.1, List.forall_mem_cons.mpr ⟨hvalue, hvalues.2⟩⟩

theorem safe_assignElement (hcalls : typing.CallsSafe initial call) {id : SymbolId} {ty : DataType}
    {indices : List Expr} {op : Option Arith} {tree : Expr} (left : List Value)
    (htyped : typing.stmt expected (.assignElement id ty indices op tree) = true) :
    Safe typing initial (Meaning.stmt limits call fuel left (.assignElement id ty indices op tree))
      (·.Suits expected) := by
  obtain ⟨hboth, hassigns⟩ := Bool.and_eq_true_iff.mp htyped
  obtain ⟨hindices, helement⟩ := Bool.and_eq_true_iff.mp hboth
  obtain ⟨whole, hvariable, hunder⟩ := Option.bind_eq_some_iff.mp (of_decide_eq_true helement)
  obtain ⟨given, hgiven, rfl⟩ := types_of_variableShape? hvariable
  have hintegers : ∀ index ∈ indices.reverse, typing.shape? index = some .integer := by
    intro index hindex
    exact of_decide_eq_true (List.all_eq_true.mp hindices index (List.mem_reverse.mp hindex))
  refine (safe_indices hcalls left.length hintegers).bind fun path hpath => ?_
  refine (safe_assignedValue hcalls _ hassigns).bind fun value hvalue => ?_
  rw [List.length_reverse] at hpath
  have hdepth : given.shape.under? path.reverse.length = some ty.shape := by
    rw [List.length_reverse, hpath.1]
    exact hunder
  have hreversed : ∀ index ∈ path.reverse, index.Fits .integer :=
    fun index hindex => hpath.2 index (List.mem_reverse.mp hindex)
  exact (Safe.storeElement hgiven hdepth hreversed hvalue).bind fun _ _ => .of_pure trivial

theorem safe_ret (hcalls : typing.CallsSafe initial call) {value : Option Expr} (left : List Value)
    (hreturns : typing.returnsAs expected value = true) :
    Safe typing initial (Meaning.stmt limits call fuel left (.ret value)) (·.Suits expected) := by
  cases value with
  | none =>
      refine .of_pure ?_
      cases expected with
      | anything => trivial
      | nothing => trivial
      | value shape => cases hreturns
  | some tree =>
      cases expected with
      | anything =>
          obtain ⟨shape, hshape⟩ := Option.isSome_iff_exists.mp hreturns
          exact (safe_expr hcalls tree left.length hshape).bind fun _ _ => .of_pure trivial
      | nothing => cases hreturns
      | value shape =>
          refine (safe_expr hcalls tree left.length (of_decide_eq_true hreturns)).bind fun result hresult => ?_
          obtain ⟨value, rfl, hvalue⟩ := hresult
          exact .of_pure ⟨value, rfl, hvalue⟩

theorem safe_exprStmt (hcalls : typing.CallsSafe initial call) {tree : Expr} (left : List Value)
    (htyped : typing.stmt expected (.expr tree) = true) :
    Safe typing initial (Meaning.stmt limits call fuel left (.expr tree)) (·.Suits expected) := by
  obtain hsome | hvoid := Bool.or_eq_true_iff.mp htyped
  · obtain ⟨shape, hshape⟩ := Option.isSome_iff_exists.mp hsome
    refine (safe_expr hcalls tree left.length hshape).bind fun result hresult => ?_
    obtain ⟨value, rfl, -⟩ := hresult
    simp only
    split
    · exact .of_pure trivial
    · exact .of_pure trivial
  · cases tree with
    | call id args given =>
        cases given with
        | some ty => cases hvoid
        | none =>
            obtain ⟨shapes, hshapes, hcall⟩ := Option.bind_eq_some_iff.mp (of_decide_eq_true hvoid)
            have hsafe : Safe typing initial (Meaning.expr limits call left.length (.call id args none))
                fun _ => True := by
              refine (safe_exprs hcalls args left.length hshapes).bind fun arguments harguments => ?_
              exact (hcalls left.length id arguments shapes none hcall harguments).mono fun _ _ => trivial
            exact hsafe.bind fun result _ => .of_pure trivial
    | _ => cases hvoid

mutual

theorem safe_stmt (hcalls : typing.CallsSafe initial call) (tree : Stmt) (left : List Value)
    (htyped : typing.stmt expected tree = true) :
    Safe typing initial (Meaning.stmt limits call fuel left tree) (·.Suits expected) := by
  cases tree with
  | declare id ty declared init =>
      obtain ⟨hboth, hinitializes⟩ := Bool.and_eq_true_iff.mp htyped
      obtain ⟨hvariable, hsizes⟩ := Bool.and_eq_true_iff.mp hboth
      have hintegers : typing.SizesTyped declared := by
        intro size hsize tree htree
        exact of_decide_eq_true ((Option.all_eq_true _ _).mp (List.all_eq_true.mp hsizes size hsize) tree htree)
      exact safe_stored (of_decide_eq_true hvariable)
        (safe_initialValue hcalls left.length hintegers hinitializes)
  | assign id ty op tree =>
      obtain ⟨hvariable, hassigns⟩ := Bool.and_eq_true_iff.mp htyped
      exact safe_stored (of_decide_eq_true hvariable) (safe_assignedValue hcalls left.length hassigns)
  | assignElement id ty indices op tree => exact safe_assignElement hcalls left htyped
  | conditional list => exact safe_branches hcalls list left htyped
  | whileLoop cond body =>
      obtain ⟨hcond, hbody⟩ := Bool.and_eq_true_iff.mp htyped
      exact safe_repeatWhile (fun pending => safe_truth hcalls pending hcond)
        (fun left => safe_stmts hcalls body left hbody) fuel left
  | forLoop init cond body =>
      obtain ⟨hboth, hbody⟩ := Bool.and_eq_true_iff.mp htyped
      obtain ⟨hinit, hcond⟩ := Bool.and_eq_true_iff.mp hboth
      exact safe_andThen (safe_stmt hcalls init left hinit)
        (safe_repeatWhile (fun pending => safe_truth hcalls pending hcond)
          (fun left => safe_stmts hcalls body left hbody) fuel)
  | function id params body => exact .of_pure trivial
  | ret value => exact safe_ret hcalls left htyped
  | expr tree => exact safe_exprStmt hcalls left htyped

theorem safe_stmts (hcalls : typing.CallsSafe initial call) (trees : List Stmt) (left : List Value)
    (htyped : typing.stmts expected trees = true) :
    Safe typing initial (Meaning.stmts limits call fuel left trees) (·.Suits expected) := by
  cases trees with
  | nil => exact .of_pure trivial
  | cons first rest =>
      obtain ⟨hfirst, hrest⟩ := Bool.and_eq_true_iff.mp htyped
      exact safe_andThen (safe_stmt hcalls first left hfirst) fun left => safe_stmts hcalls rest left hrest

theorem safe_branches (hcalls : typing.CallsSafe initial call) (list : Branches) (left : List Value)
    (htyped : typing.branches expected list = true) :
    Safe typing initial (Meaning.branches limits call fuel left list) (·.Suits expected) := by
  cases list with
  | otherwise body => exact safe_stmts hcalls body left htyped
  | arm cond body rest =>
      obtain ⟨hboth, hrest⟩ := Bool.and_eq_true_iff.mp htyped
      obtain ⟨hcond, hbody⟩ := Bool.and_eq_true_iff.mp hboth
      refine (safe_truth hcalls left.length hcond).bind fun truth _ => ?_
      cases truth with
      | true => exact safe_stmts hcalls body left hbody
      | false => exact safe_branches hcalls rest left hrest

end

end Statements

section Calls

/-- The declaration agrees with the signature of its function. -/
structure Declares (typing : Typing) (declaration : Declaration) (signature : Signature) : Prop where
  known : typing.signatures.get? declaration.id = some signature
  params : declaration.params.map typing.variableShape? = signature.params.map fun ty => some ty.shape
  body : typing.stmts signature.returns declaration.body = true
  returns : (signature.result.isNone || Stmt.anyReturns declaration.body) = true

mutual

theorem declares_of_stmt (tree : Stmt) {expected : Returns} (htyped : typing.stmt expected tree = true)
    {declaration : Declaration} (hmem : declaration ∈ Declaration.ofStmt tree) :
    ∃ signature, typing.Declares declaration signature := by
  cases tree with
  | conditional list => exact declares_of_branches list htyped hmem
  | whileLoop cond body => exact declares_of_stmts body (Bool.and_eq_true_iff.mp htyped).2 hmem
  | forLoop init cond body =>
      obtain ⟨hboth, hbody⟩ := Bool.and_eq_true_iff.mp htyped
      obtain hinit | hrest := List.mem_append.mp hmem
      · exact declares_of_stmt init (Bool.and_eq_true_iff.mp hboth).1 hinit
      · exact declares_of_stmts body hbody hrest
  | function id params body =>
      unfold stmt at htyped
      cases hsignature : typing.signatures.get? id with
      | none =>
          rw [hsignature] at htyped
          cases htyped
      | some signature =>
          rw [hsignature] at htyped
          obtain ⟨hboth, hreturns⟩ := Bool.and_eq_true_iff.mp htyped
          obtain ⟨hparams, hbody⟩ := Bool.and_eq_true_iff.mp hboth
          obtain rfl | hinner := List.mem_cons.mp hmem
          · exact ⟨signature, hsignature, of_decide_eq_true hparams, hbody, hreturns⟩
          · exact declares_of_stmts body hbody hinner
  | _ => cases hmem

theorem declares_of_stmts (trees : List Stmt) {expected : Returns} (htyped : typing.stmts expected trees = true)
    {declaration : Declaration} (hmem : declaration ∈ Declaration.ofStmts trees) :
    ∃ signature, typing.Declares declaration signature := by
  cases trees with
  | nil => cases hmem
  | cons first rest =>
      obtain ⟨hfirst, hrest⟩ := Bool.and_eq_true_iff.mp htyped
      obtain hone | hother := List.mem_append.mp hmem
      · exact declares_of_stmt first hfirst hone
      · exact declares_of_stmts rest hrest hother

theorem declares_of_branches (list : Branches) {expected : Returns}
    (htyped : typing.branches expected list = true) {declaration : Declaration}
    (hmem : declaration ∈ Declaration.ofBranches list) :
    ∃ signature, typing.Declares declaration signature := by
  cases list with
  | otherwise body => exact declares_of_stmts body htyped hmem
  | arm cond body rest =>
      obtain ⟨hboth, hrest⟩ := Bool.and_eq_true_iff.mp htyped
      obtain hone | hother := List.mem_append.mp hmem
      · exact declares_of_stmts body (Bool.and_eq_true_iff.mp hboth).2 hone
      · exact declares_of_branches rest hrest hother

end

/-- Arguments of the right shapes are bound to the parameters. -/
theorem admits_bindArguments {params : List SymbolId} {arguments : List Value} {shapes : List Shape}
    (hparams : params.map typing.variableShape? = shapes.map some)
    (harguments : List.Forall₂ Value.Fits arguments shapes) :
    typing.Admits (Meaning.bindArguments params arguments) := by
  induction harguments generalizing params with
  | nil =>
      obtain rfl := List.map_eq_nil_iff.mp hparams
      exact fun _ _ _ _ hget => nomatch hget
  | @cons value shape values shapes hvalue _ ih =>
      cases params with
      | nil => cases hparams
      | cons param rest =>
          obtain ⟨hparam, hrest⟩ := List.cons.inj hparams
          obtain ⟨ty, hty, rfl⟩ := types_of_variableShape? hparam
          exact (ih hrest).insert hty hvalue

theorem safe_callBuiltin {builtin : Builtin} {arguments : List Value} {shapes : List Shape}
    {result : Option Shape} (pending : Nat) (hresult : builtin.result? shapes = some result)
    (harguments : List.Forall₂ Value.Fits arguments shapes) :
    Safe typing initial (Meaning.callBuiltin limits pending builtin arguments) fun value =>
      ∀ shape ∈ result, ∃ found, value = some found ∧ found.Fits shape := by
  have hgiven : ∀ {evaluation : Evaluation Value} {shape : Shape},
      Safe typing initial evaluation (·.Fits shape) → result = some shape →
        Safe typing initial (some <$> evaluation) fun value =>
          ∀ shape ∈ result, ∃ found, value = some found ∧ found.Fits shape := by
    rintro evaluation shape hsafe rfl
    refine hsafe.map fun found hfound => ?_
    rintro _ ⟨⟩
    exact ⟨found, rfl, hfound⟩
  cases builtin with
  | input =>
      cases harguments with
      | nil =>
          have hline : Safe typing initial (do keep limits pending (.str (← onConsole Console.readLine)))
              (·.Fits .text) :=
            (Safe.of_onConsole _).bind fun _ _ => .of_keep limits pending rfl
          exact hgiven hline (Option.some.inj hresult).symm
      | cons _ _ => cases hresult
  | print form =>
      cases harguments with
      | nil => cases hresult
      | cons hvalue hrest =>
          cases hrest with
          | nil =>
              change (if form.prints _ = true then some none else none) = some result at hresult
              split at hresult
              · cases hresult
                refine (Safe.of_attempt (PrintForm.ensures_text ‹_› hvalue)).bind fun text _ => ?_
                refine (Safe.of_onConsole _).bind fun _ _ => .of_pure ?_
                exact fun _ hmem => nomatch hmem
              · cases hresult
          | cons _ _ => cases hresult
  | convert conversion =>
      cases harguments with
      | nil => cases hresult
      | cons hvalue hrest =>
          cases hrest with
          | nil =>
              change (if conversion.converts _ = true then some (some conversion.resultShape) else none) =
                some result at hresult
              split at hresult
              · refine hgiven ?_ (Option.some.inj hresult).symm
                exact (Safe.of_attempt (Conversion.gives_apply ‹_› hvalue)).bind fun _ hfound =>
                  .of_keep limits pending hfound
              · cases hresult
          | cons _ _ => cases hresult

theorem safe_handOver {signature : Signature} {value : Option Value} (pending : Nat)
    (hvalue : signature.returns.Allows value) :
    Safe typing initial (Meaning.handOver limits pending value) fun value =>
      ∀ shape ∈ signature.result.map DataType.shape, ∃ found, value = some found ∧ found.Fits shape := by
  obtain ⟨params, result⟩ := signature
  cases result with
  | none =>
      cases value with
      | none => exact .of_pure fun _ hmem => nomatch hmem
      | some value =>
          have hkeep : Safe typing initial (keep limits pending value) fun _ => True := .of_keep limits pending trivial
          exact hkeep.map fun _ _ _ hmem => nomatch hmem
  | some ty =>
      obtain ⟨found, rfl, hfound⟩ := hvalue
      refine (Safe.of_keep limits pending hfound).map fun kept hkept => ?_
      rintro _ ⟨⟩
      exact ⟨kept, rfl, hkept⟩

/-- The scope of a call, its body and the value that is handed over are safe. -/
theorem safe_callWith {declared : List Declaration} {run : List Stmt → Evaluation Completion} (depth : Nat)
    (hdeclared : ∀ id signature, typing.signatures.get? id = some signature →
      ∃ declaration, Declaration.find? declared id = some declaration ∧ typing.Declares declaration signature)
    (hrun : ∀ declaration signature, typing.Declares declaration signature →
      Safe typing initial (run declaration.body) fun completion => signature.returns.Allows completion.value) :
    typing.CallsSafe initial (Meaning.callWith limits declared depth run) := by
  intro pending id arguments shapes result hcall harguments
  unfold Meaning.callWith
  unfold call? at hcall
  split
  · rename_i hreserved
    rw [if_pos hreserved] at hcall
    obtain ⟨builtin, hbuiltin, hresult⟩ := Option.bind_eq_some_iff.mp hcall
    rw [hbuiltin]
    exact safe_callBuiltin pending hresult harguments
  · rename_i hreserved
    rw [if_neg hreserved] at hcall
    obtain ⟨signature, hsignature, hresult⟩ := Option.bind_eq_some_iff.mp hcall
    split at hresult
    · rename_i hshapes
      cases hresult
      subst hshapes
      obtain ⟨declaration, hfind, hdeclares⟩ := hdeclared id signature hsignature
      rw [hfind]
      simp only
      split
      · exact .of_fail rfl
      · have hparams : declaration.params.map typing.variableShape? =
            (signature.params.map DataType.shape).map some := by
          rw [List.map_map]
          exact hdeclares.params
        have hlength : arguments.length = declaration.params.length := by
          rw [harguments.length_eq, ← List.length_map some, ← hparams, List.length_map]
        rw [if_pos hlength]
        refine (Safe.within (admits_bindArguments hparams harguments)
          (hrun declaration signature hdeclares)).bind fun completion hcompletion => ?_
        exact safe_handOver pending hcompletion
    · cases hresult

/-- A body that has to return a value does so on every way through it. -/
theorem safe_body {call : Call} {fuel : Nat} {declaration : Declaration} {signature : Signature}
    (hcalls : typing.CallsSafe initial call) (hdeclares : typing.Declares declaration signature) :
    Safe typing initial (Meaning.stmts limits call fuel [] declaration.body) fun completion =>
      signature.returns.Allows completion.value := by
  refine (safe_stmts hcalls declaration.body [] hdeclares.body).imp fun state completion after hdone hsuits => ?_
  cases completion with
  | returned value => exact hsuits
  | normal left =>
      obtain ⟨params, result⟩ := signature
      cases result with
      | none => trivial
      | some ty =>
          obtain ⟨value, hreturned⟩ := yields_stmts declaration.body [] hdeclares.returns state _ after hdone
          cases hreturned

variable {statements : List Stmt}

theorem Explains.declares (hexplains : typing.Explains statements) {id : SymbolId} {signature : Signature}
    (hsignature : typing.signatures.get? id = some signature) :
    ∃ declaration, Declaration.find? (Declaration.ofStmts statements) id = some declaration ∧
      typing.Declares declaration signature := by
  have hfound := hexplains.declared (id, signature) (Table.mem_of_get? hsignature)
  obtain ⟨declaration, hfind⟩ := Option.isSome_iff_exists.mp hfound
  obtain ⟨hmem, rfl⟩ := Declaration.find?_eq_some hfind
  obtain ⟨other, hdeclares⟩ := declares_of_stmts statements hexplains.wellTyped hmem
  obtain rfl : other = signature := Option.some.inj (hdeclares.known.symm.trans hsignature)
  exact ⟨declaration, hfind, hdeclares⟩

theorem safe_call (hexplains : typing.Explains statements) (fuel depth : Nat) :
    typing.CallsSafe initial (Meaning.call limits (Declaration.ofStmts statements) fuel depth) := by
  induction fuel generalizing depth with
  | zero =>
      exact safe_callWith depth (fun _ _ hsignature => hexplains.declares hsignature) fun _ _ _ => .of_exhausted
  | succ fuel ih =>
      exact safe_callWith depth (fun _ _ hsignature => hexplains.declares hsignature) fun _ _ hdeclares =>
        safe_body (ih (depth + 1)) hdeclares

/-- The statements of a well-typed program have a meaning that keeps to the typing. -/
theorem safe_program (hexplains : typing.Explains statements) {globals : Scope}
    (hglobals : typing.Admits globals) (limits : Limits) (console : Console) (fuel : Nat) :
    (Meaning.program limits statements globals console fuel).IsSafe typing globals
      (·.Suits .anything) :=
  safe_stmts (safe_call hexplains fuel 0) statements [] hexplains.wellTyped _
    ⟨hglobals, fun _ hlocals => (nomatch hlocals), fun _ hbound => hbound⟩

end Calls

end Typing

theorem Outcome.IsSafe.conclusion {typing : Typing} {initial : Scope} {property : Completion → Prop}
    {outcome : Outcome Completion} {conclusion : Conclusion} (hsafe : outcome.IsSafe typing initial property)
    (hconclusion : outcome.conclusion? = some conclusion) :
    (∀ cause, conclusion.result = .error cause → typing.Allows initial cause) ∧
      typing.Admits conclusion.globals := by
  cases outcome with
  | done completion state =>
      cases hconclusion
      exact ⟨fun _ herror => (nomatch herror), hsafe.2.globals⟩
  | fault cause globals console =>
      cases hconclusion
      refine ⟨?_, hsafe.2⟩
      rintro _ ⟨⟩
      exact hsafe.1
  | undefined => cases hconclusion
  | exhausted => cases hconclusion

theorem Report.conclusion?_eq_some {report : Report} {conclusion : Conclusion}
    (hconclusion : report.conclusion? = some conclusion) :
    report.globals = conclusion.globals ∧
      ∀ error, report.result = .error error →
        ∃ offset cause, error = .fault offset cause ∧ conclusion.result = .error cause := by
  obtain ⟨result, globals, console⟩ := report
  rcases result with (⟨offset, cause⟩ | malformed) | value
  · cases hconclusion
    refine ⟨rfl, ?_⟩
    rintro _ ⟨⟩
    exact ⟨offset, cause, rfl, rfl⟩
  · cases hconclusion
  · cases hconclusion
    exact ⟨rfl, fun _ herror => nomatch herror⟩

/-- A well-typed program that is compiled and run from variables with values of their types never has an
internal error, except that it may look for a variable that it has not bound yet: one that was at no time among the
globals and that the call which looks for it has not bound either. Whatever the end of the run, its variables have
values of their types again. -/
theorem wellTyped_run {typing : Typing} {statements : List Stmt} {program : Program}
    (hexplains : typing.Explains statements) (hcompile : compileProgram statements = .ok program)
    (hshort : program.Short) (limits : Limits) {globals : Scope} (hglobals : typing.Admits globals)
    (console : Console) (report : Report)
    (hends : (Machine.start program.main globals console).Ends ⟨program.functions, limits⟩ report) :
    (∀ error, report.result = .error error → error.isInternal = true →
      ∃ id count last, error = .fault last.frame.next (.undefinedVariable id) ∧
        (typing.types.get? id).isSome = true ∧ globals.get? id = none ∧
        (Machine.start program.main globals console).run ⟨program.functions, limits⟩ count = .running last ∧
        last.step ⟨program.functions, limits⟩ = .finished report ∧
        Machine.Misses ⟨program.functions, limits⟩ (Machine.start program.main globals console) last id) ∧
      typing.Admits report.globals := by
  obtain ⟨fuel, hmeaning⟩ := conclusion_of_ends hcompile hshort hends
  have hsafe := Typing.safe_program hexplains hglobals limits console fuel
  rcases hmeaning with hundefined | ⟨conclusion, hconclusion, hreport⟩
  · rw [hundefined] at hsafe
    exact hsafe.elim
  · obtain ⟨hallows, hadmits⟩ := hsafe.conclusion hconclusion
    obtain ⟨hsame, herrors⟩ := Report.conclusion?_eq_some hreport
    refine ⟨fun error herror hinternal => ?_, by rwa [hsame]⟩
    obtain ⟨offset, cause, rfl, hcause⟩ := herrors error herror
    obtain ⟨id, rfl, htyped, hunbound⟩ := hallows cause hcause hinternal
    obtain ⟨count, last, hrun, hlast, rfl, hmisses⟩ := hends.misses herror
    exact ⟨id, count, last, rfl, htyped, hunbound, hrun, hlast, hmisses⟩

/-- Pads an array of floats from integers, hands it to a function that asks for an item that is not there, and
prints a text. -/
def measured : List Stmt :=
  [.declare 400 ⟨.float, 1⟩ [some (.literal (.int 3) (some .int64))]
     (some (.array [.literal (.int 1) (some .int64), .literal (.float .zero) (some .float)] none)),
   .function 410 [411, 412]
     [.conditional (.arm (.binary (.logic .or) (.var 412 (some .int64)) (.subscript (.var 411 none)
         (.literal (.int 0) none) (some .float)) (some .bool))
       [.ret (some (.subscript (.var 411 (some ⟨.float, 1⟩)) (.var 412 (some .int64)) (some .float)))]
       (.otherwise [.ret (some (.literal (.float .zero) none))]))],
   .declare 401 .str [] (some (.binary (.arith .add) (.literal (.str "at ") (some .str))
     (.literal (.char '7') (some .char)) (some .str))),
   .expr (.call 11 [.var 401 (some .str)] none),
   .assign 402 .int64 none (.call 410 [.var 400 none, .literal (.int 7) none] (some .float))]

def measuredTyping : Typing where
  types := .ofList [(400, ⟨.float, 1⟩), (401, .str), (402, .int64), (411, ⟨.float, 1⟩), (412, .int64)]
  signatures := .ofList [(410, ⟨[⟨.float, 1⟩, .int64], some .float⟩)]

theorem wellTyped_run_measured :
    ∃ program report, compileProgram measured = .ok program ∧
      (Machine.start program.main .empty ⟨[], #[], none⟩).Ends ⟨program.functions, ⟨16, 4, 16⟩⟩ report ∧
      report.conclusion?.map (·.result) = some (.error (.indexOutOfBounds 7 3)) ∧
      measuredTyping.Admits report.globals := by
  have hexplains : measuredTyping.Explains measured := ⟨by decide +kernel, by decide +kernel⟩
  have hcompile : compileProgram measured =
      .ok ⟨.ofInstructions (Code.stmts measured), (compile .empty measured).2.functions⟩ := by decide +kernel
  have hshort : Program.Short ⟨.ofInstructions (Code.stmts measured), (compile .empty measured).2.functions⟩ := by
    decide +kernel
  have hmeaning : (Meaning.program ⟨16, 4, 16⟩ measured .empty ⟨[], #[], none⟩ 8).conclusion?.map (·.result) =
      some (.error (.indexOutOfBounds 7 3)) := by
    decide +kernel
  obtain ⟨conclusion, hconclusion, hresult⟩ := Option.map_eq_some_iff.mp hmeaning
  obtain ⟨report, hends, hreport⟩ := ends_of_conclusion hcompile hshort hconclusion
  have hglobals : measuredTyping.Admits .empty := fun _ _ _ _ hget => nomatch hget
  refine ⟨_, report, hcompile, hends, ?_, ?_⟩
  · rw [hreport, Option.map_some, hresult]
  · exact (wellTyped_run hexplains hcompile hshort ⟨16, 4, 16⟩ hglobals ⟨[], #[], none⟩ report hends).2

/-- A function that reads a global variable, called before the variable is declared. -/
def earlyCall : List Stmt :=
  [.expr (.call 410 [] (some .int64)),
   .declare 400 .int64 [] (some (.literal (.int 1) (some .int64))),
   .function 410 [] [.ret (some (.var 400 (some .int64)))]]

/-- A function that binds a variable of its own, which is read after the call. -/
def lateRead : List Stmt :=
  [.function 410 []
     [.declare 400 .int64 [] (some (.literal (.int 1) (some .int64))), .ret (some (.var 400 (some .int64)))],
   .expr (.call 410 [] (some .int64)),
   .declare 401 .int64 [] (some (.var 400 (some .int64)))]

def readingTyping : Typing where
  types := .ofList [(400, .int64), (401, .int64)]
  signatures := .ofList [(410, ⟨[], some .int64⟩)]

/-- Well-typed programs can have an internal error: a variable is read before it is bound, or where only a call that
has ended has bound it. -/
theorem wellTyped_undefined :
    (readingTyping.Explains earlyCall ∧ ∃ program, compileProgram earlyCall = .ok program ∧ program.Short ∧
      (Machine.start program.main .empty ⟨[], #[], none⟩).Ends ⟨program.functions, .default⟩
        ⟨.error (.fault 0 (.undefinedVariable 400)), .empty, ⟨[], #[], none⟩⟩) ∧
    (readingTyping.Explains lateRead ∧ ∃ program, compileProgram lateRead = .ok program ∧ program.Short ∧
      (Machine.start program.main .empty ⟨[], #[], none⟩).Ends ⟨program.functions, .default⟩
        ⟨.error (.fault 10 (.undefinedVariable 400)), .empty, ⟨[], #[], none⟩⟩) ∧
    ∀ offset id, (RuntimeError.fault offset (.undefinedVariable id)).isInternal = true := by
  have hearly : compileProgram earlyCall =
      .ok ⟨.ofInstructions (Code.stmts earlyCall), (compile .empty earlyCall).2.functions⟩ := by decide +kernel
  have hlate : compileProgram lateRead =
      .ok ⟨.ofInstructions (Code.stmts lateRead), (compile .empty lateRead).2.functions⟩ := by decide +kernel
  refine ⟨⟨⟨by decide +kernel, by decide +kernel⟩, _, hearly, by decide +kernel, 2, by decide +kernel⟩,
    ⟨⟨by decide +kernel, by decide +kernel⟩, _, hlate, by decide +kernel, 7, by decide +kernel⟩, ?_⟩
  intro offset id
  rfl

end StackCode
