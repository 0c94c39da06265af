import StackCode.Proofs.AlignedCode
import StackCode.Proofs.Visits

/-! The functions of a context are written once. A compilation enters each function that it comes to under an
identifier of its own and gives it its code when the body is through; what the context had before stays as it was, and
a second declaration of an identifier is refused, in the same compilation or in a later one. -/

namespace StackCode

/-- The stream that a compilation of the body gives, in whatever context it succeeds. -/
def Declaration.CompilesTo (declaration : Declaration) (code : Stream) : Prop :=
  (∃ context, (compile context declaration.body).1 = .ok code) ∧
    ∀ context other, (compile context declaration.body).1 = .ok other → other = code

namespace Visit

variable {context after : Context} {done : List Visit} {declaration : Declaration}

/-- A body that has been left has been compiled. -/
theorem compilesTo_of_leave (hnested : Nested done) (hwalk : walk context done = (.ok (), after))
    (hleave : .leave declaration ∈ done) : declaration.CompilesTo declaration.function.code := by
  refine ⟨?_, ?_⟩
  · obtain ⟨front, back, rfl⟩ := List.append_of_mem hleave
    obtain ⟨outer, rfl⟩ := hnested front declaration back rfl
    obtain ⟨between, hfront, -⟩ := exists_between hwalk
    rw [List.append_cons] at hfront
    obtain ⟨inner, -, hbody⟩ := exists_between hfront
    refine ⟨inner, ?_⟩
    rw [compile_eq_walk, hbody]
    rfl
  · intro inner other hother
    rw [compile_eq_walk] at hother
    cases hresult : (walk inner (ofStmts declaration.body)).1 with
    | error error =>
        rw [hresult] at hother
        cases hother
    | ok value =>
        rw [hresult] at hother
        exact (Except.ok.inj hother).symm

theorem Nested.enter_of_leave (hnested : Nested done) (hleave : .leave declaration ∈ done) :
    .enter declaration ∈ done := by
  obtain ⟨front, back, rfl⟩ := List.append_of_mem hleave
  obtain ⟨outer, rfl⟩ := hnested front declaration back rfl
  simp

/-- The functions of a context after some visits. Those that were left have their code, those that are still open have
none, and all others are as before. -/
structure Writes (context : Context) (done : List Visit) (after : Context) : Prop where
  distinct : ((entered done).map Declaration.id).Nodup
  unreserved : ∀ declaration ∈ entered done, isReserved declaration.id = false
  fresh : ∀ declaration ∈ entered done, context.functions.get? declaration.id = none
  finished : ∀ declaration, .leave declaration ∈ done →
    after.functions.get? declaration.id = some declaration.function
  unfinished : ∀ declaration ∈ entered done, .leave declaration ∉ done →
    after.functions.get? declaration.id = some ⟨declaration.params, .empty⟩
  kept : ∀ id, id ∉ (entered done).map Declaration.id → after.functions.get? id = context.functions.get? id

theorem writes_nil (context : Context) : Writes context [] context where
  distinct := List.nodup_nil
  unreserved _ hmem := by cases hmem
  fresh _ hmem := by cases hmem
  finished _ hmem := by cases hmem
  unfinished _ hmem := by cases hmem
  kept _ _ := rfl

/-- Every function that was entered is there with its parameters. -/
theorem Writes.exists_code (hwrites : Writes context done after) (hmem : declaration ∈ entered done) :
    ∃ code, after.functions.get? declaration.id = some ⟨declaration.params, code⟩ := by
  by_cases hleave : .leave declaration ∈ done
  · exact ⟨_, hwrites.finished declaration hleave⟩
  · exact ⟨_, hwrites.unfinished declaration hmem hleave⟩

theorem Writes.eq_of_id (hwrites : Writes context done after) {other : Declaration}
    (hmem : declaration ∈ entered done) (hother : other ∈ entered done) (hid : declaration.id = other.id) :
    declaration = other :=
  List.inj_on_of_nodup_map hwrites.distinct hmem hother hid

theorem Writes.piece (hwrites : Writes context done after) (statement : Stmt) :
    Writes context (done ++ [.piece statement]) after := by
  have hentered : entered (done ++ [.piece statement]) = entered done := by simp [entered]
  have hleave : ∀ declaration, .leave declaration ∈ done ++ [.piece statement] ↔ .leave declaration ∈ done := by simp
  refine ⟨?_, ?_, ?_, ?_, ?_, ?_⟩ <;> simp only [hentered, hleave]
  · exact hwrites.distinct
  · exact hwrites.unreserved
  · exact hwrites.fresh
  · exact hwrites.finished
  · exact hwrites.unfinished
  · exact hwrites.kept

/-- A function is entered under an identifier that no other has. -/
theorem Writes.enter (hwrites : Writes context done after) (hnested : Nested done)
    (hreserved : isReserved declaration.id = false) (hnone : after.functions.get? declaration.id = none) :
    Writes context (done ++ [.enter declaration]) (after.enter declaration.id declaration.params) := by
  have hnew : declaration.id ∉ (entered done).map Declaration.id := by
    rintro hmem
    obtain ⟨other, hother, hid⟩ := List.mem_map.mp hmem
    obtain ⟨code, hcode⟩ := hwrites.exists_code hother
    rw [hid, hnone] at hcode
    cases hcode
  have hentered : entered (done ++ [.enter declaration]) = entered done ++ [declaration] := by simp [entered]
  have hleave : ∀ other, .leave other ∈ done ++ [.enter declaration] ↔ .leave other ∈ done := by simp
  have hother : ∀ other ∈ entered done, other.id ≠ declaration.id := fun other hmem hid =>
    hnew (hid ▸ List.mem_map_of_mem hmem)
  have hget : ∀ id, id ≠ declaration.id →
      (after.enter declaration.id declaration.params).functions.get? id = after.functions.get? id := by
    intro id hid
    rw [Context.enter, Table.get?_insert, if_neg hid]
  refine ⟨?_, ?_, ?_, ?_, ?_, ?_⟩ <;> simp only [hentered, hleave]
  · rw [List.map_append, List.nodup_append]
    refine ⟨hwrites.distinct, by simp, ?_⟩
    rintro id hmem _ hlast rfl
    rw [List.map_singleton, List.mem_singleton] at hlast
    exact hnew (hlast ▸ hmem)
  · intro other hmem
    rcases List.mem_append.mp hmem with hmem | hmem
    · exact hwrites.unreserved other hmem
    · rw [List.mem_singleton.mp hmem]
      exact hreserved
  · intro other hmem
    rcases List.mem_append.mp hmem with hmem | hmem
    · exact hwrites.fresh other hmem
    · rw [List.mem_singleton.mp hmem, ← hwrites.kept _ hnew, hnone]
  · intro other hmem
    have hopened := mem_entered.mpr (hnested.enter_of_leave hmem)
    rw [hget _ (hother other hopened)]
    exact hwrites.finished other hmem
  · intro other hmem hopen
    rcases List.mem_append.mp hmem with hmem | hmem
    · rw [hget _ (hother other hmem)]
      exact hwrites.unfinished other hmem hopen
    · rw [List.mem_singleton.mp hmem, Table.get?_insert, if_pos rfl]
  · intro id hmem
    rw [List.map_append, List.mem_append, not_or, List.map_singleton, List.mem_singleton] at hmem
    rw [hget id hmem.2]
    exact hwrites.kept id hmem.1

/-- A function that is left gets its code, and no other one changes. -/
theorem Writes.leave (hwrites : Writes context done after) (hnested : Nested done)
    (hopened : declaration ∈ entered done) :
    Writes context (done ++ [.leave declaration])
      (after.defineFunction declaration.id declaration.function.code) := by
  obtain ⟨code, hcode⟩ := hwrites.exists_code hopened
  have hentered : entered (done ++ [.leave declaration]) = entered done := by simp [entered]
  have hget : ∀ id, (after.defineFunction declaration.id declaration.function.code).functions.get? id =
      if id = declaration.id then some declaration.function else after.functions.get? id := by
    intro id
    rw [Context.defineFunction, hcode, Table.get?_insert]
    rfl
  refine ⟨?_, ?_, ?_, ?_, ?_, ?_⟩ <;> simp only [hentered, hget]
  · exact hwrites.distinct
  · exact hwrites.unreserved
  · exact hwrites.fresh
  · intro other hmem
    rcases List.mem_append.mp hmem with hmem | hmem
    · by_cases hid : other.id = declaration.id
      · have hother := mem_entered.mpr (hnested.enter_of_leave hmem)
        rw [if_pos hid, hwrites.eq_of_id hother hopened hid]
      · rw [if_neg hid]
        exact hwrites.finished other hmem
    · cases List.mem_singleton.mp hmem
      rw [if_pos rfl]
  · intro other hmem hopen
    rw [List.mem_append, not_or, List.mem_singleton] at hopen
    have hid : other.id ≠ declaration.id := fun hid => hopen.2 (by rw [hwrites.eq_of_id hmem hopened hid])
    rw [if_neg hid]
    exact hwrites.unfinished other hmem hopen.1
  · intro id hmem
    have hid : id ≠ declaration.id := fun hid => hmem (hid ▸ List.mem_map_of_mem hopened)
    rw [if_neg hid]
    exact hwrites.kept id hmem

/-- What a walk has written, up to its end or up to the visit at which it fails. -/
theorem writes_of_walk (hnested : Nested done) (hwalk : walk context done = (.ok (), after)) :
    Writes context done after := by
  induction done using List.reverseRecOn generalizing after with
  | nil =>
      cases hwalk
      exact writes_nil context
  | append_singleton done visit ih =>
      obtain ⟨between, hdone, hstep⟩ := exists_last hwalk
      have hbefore := hnested.of_append
      have hwrites := ih hbefore hdone
      cases visit with
      | piece statement =>
          have hsame : after = between := by
            change (compile between [statement]).1.map (fun _ => between) = .ok after at hstep
            cases hresult : (compile between [statement]).1 with
            | error error =>
                rw [hresult] at hstep
                cases hstep
            | ok code =>
                rw [hresult] at hstep
                exact (Except.ok.inj hstep).symm
          rw [hsame]
          exact hwrites.piece statement
      | enter declaration =>
          obtain ⟨hreserved, hnone, rfl⟩ := Context.declareFunction_eq_ok hstep
          exact hwrites.enter hbefore hreserved hnone
      | leave declaration =>
          obtain ⟨outer, houter⟩ := hnested done declaration [] rfl
          cases hstep
          exact hwrites.leave hbefore (mem_entered.mpr (by simp [houter]))

/-- A function as it stands in the table after some visits: with its parameters, and with the stream of its body if
the body is through. -/
def Stored (done : List Visit) (after : Context) (declaration : Declaration) : Prop :=
  ∃ code, after.functions.get? declaration.id = some ⟨declaration.params, code⟩ ∧
    (.leave declaration ∈ done → declaration.CompilesTo code) ∧ (.leave declaration ∉ done → code = .empty)

theorem stored_of_walk (hnested : Nested done) (hwalk : walk context done = (.ok (), after))
    (hmem : declaration ∈ entered done) : Stored done after declaration := by
  have hwrites := writes_of_walk hnested hwalk
  by_cases hleave : .leave declaration ∈ done
  · refine ⟨_, hwrites.finished declaration hleave, ?_, fun hopen => absurd hleave hopen⟩
    exact fun _ => compilesTo_of_leave hnested hwalk hleave
  · exact ⟨_, hwrites.unfinished declaration hmem hleave, fun hmem => absurd hmem hleave, fun _ => rfl⟩

/-- The identifiers that are new in the table are those of the functions that were entered. -/
theorem Writes.new_iff (hwrites : Writes context done after) (id : SymbolId) :
    context.functions.get? id = none ∧ (∃ function, after.functions.get? id = some function) ↔
      id ∈ (entered done).map Declaration.id := by
  constructor
  · rintro ⟨hnone, function, hget⟩
    by_contra hother
    rw [hwrites.kept id hother, hnone] at hget
    cases hget
  · intro hmem
    obtain ⟨declaration, hdeclaration, rfl⟩ := List.mem_map.mp hmem
    obtain ⟨code, hcode⟩ := hwrites.exists_code hdeclaration
    exact ⟨hwrites.fresh declaration hdeclaration, _, hcode⟩

theorem Writes.get? (hwrites : Writes context done after) {id : SymbolId} {function : Function}
    (hget : context.functions.get? id = some function) : after.functions.get? id = some function := by
  rw [hwrites.kept, hget]
  intro hmem
  obtain ⟨declaration, hdeclaration, rfl⟩ := List.mem_map.mp hmem
  rw [hwrites.fresh declaration hdeclaration] at hget
  cases hget

mutual

theorem leave_of_ofStmt : (tree : Stmt) → declaration ∈ Declaration.ofStmt tree → .leave declaration ∈ ofStmt tree
  | .conditional list, hmem => leave_of_ofBranches list hmem
  | .whileLoop _ body, hmem => List.mem_cons_of_mem _ (leave_of_ofStmts body hmem)
  | .forLoop init _ body, hmem => by
      rcases List.mem_append.mp hmem with hmem | hmem
      · exact List.mem_append_left _ (leave_of_ofStmt init hmem)
      · exact List.mem_append_right _ (List.mem_cons_of_mem _ (leave_of_ofStmts body hmem))
  | .function _ _ body, hmem => by
      rcases List.mem_cons.mp hmem with rfl | hmem
      · exact List.mem_append_right _ List.mem_cons_self
      · exact List.mem_append_left _ (List.mem_cons_of_mem _ (leave_of_ofStmts body hmem))
  | .declare _ _ _ _, hmem | .assign _ _ _ _, hmem | .assignElement _ _ _ _ _, hmem | .ret _, hmem
  | .expr _, hmem => by cases hmem

theorem leave_of_ofStmts :
    (list : List Stmt) → declaration ∈ Declaration.ofStmts list → .leave declaration ∈ ofStmts list
  | [], hmem => by cases hmem
  | first :: rest, hmem => by
      rcases List.mem_append.mp hmem with hmem | hmem
      · exact List.mem_append_left _ (leave_of_ofStmt first hmem)
      · exact List.mem_append_right _ (leave_of_ofStmts rest hmem)

theorem leave_of_ofBranches :
    (list : Branches) → declaration ∈ Declaration.ofBranches list → .leave declaration ∈ ofBranches list
  | .otherwise body, hmem => leave_of_ofStmts body hmem
  | .arm _ body rest, hmem => by
      rcases List.mem_append.mp hmem with hmem | hmem
      · exact List.mem_append_left _ (List.mem_cons_of_mem _ (leave_of_ofStmts body hmem))
      · exact List.mem_append_right _ (leave_of_ofBranches rest hmem)

end

end Visit

open Visit

theorem walk_of_compile_ok {context after : Context} {statements : List Stmt} {code : Stream}
    (hcompile : compile context statements = (.ok code, after)) :
    walk context (ofStmts statements) = (.ok (), after) := by
  rw [compile_eq_walk] at hcompile
  rcases hwalk : walk context (ofStmts statements) with ⟨error | value, last⟩ <;> rw [hwalk] at hcompile
  · cases hcompile
  · cases hcompile
    rfl

theorem walk_of_compile_error {context after : Context} {statements : List Stmt} {error : CompileError}
    (hcompile : compile context statements = (.error error, after)) :
    walk context (ofStmts statements) = (.error error, after) := by
  rw [compile_eq_walk] at hcompile
  rcases hwalk : walk context (ofStmts statements) with ⟨cause | value, last⟩ <;> rw [hwalk] at hcompile
  · cases hcompile
    rfl
  · cases hcompile

/-- Whether it succeeds or not, a compilation has made the first visits of its statements. -/
theorem exists_writes (context : Context) (statements : List Stmt) :
    ∃ done, Writes context done (compile context statements).2 := by
  rcases hcompile : compile context statements with ⟨error | code, after⟩
  · obtain ⟨done, failing, rest, hvisits, hdone, -⟩ := exists_failing (walk_of_compile_error hcompile)
    exact ⟨done, writes_of_walk (hvisits ▸ nested_ofStmts statements).of_append hdone⟩
  · exact ⟨_, writes_of_walk (nested_ofStmts statements) (walk_of_compile_ok hcompile)⟩

namespace Context

/-- The contexts that a session leaves from one that it has come to. -/
inductive Leads (context : Context) : Context → Prop where
  | refl : Leads context context
  | compile {later : Context} (hleads : Leads context later) (statements : List Stmt) :
      Leads context (compile later statements).2
  | allocateId {later after : Context} {id : SymbolId} (hleads : Leads context later)
      (hallocate : later.allocateId = .ok (id, after)) : Leads context after

theorem functions_of_allocateId {context after : Context} {id : SymbolId}
    (hallocate : context.allocateId = .ok (id, after)) : after.functions = context.functions := by
  unfold allocateId at hallocate
  split at hallocate
  · cases hallocate
    rfl
  · cases hallocate

theorem Leads.get? {context later : Context} (hleads : context.Leads later) {id : SymbolId} {function : Function}
    (hget : context.functions.get? id = some function) : later.functions.get? id = some function := by
  induction hleads with
  | refl => exact hget
  | @compile later hleads statements ih =>
      obtain ⟨done, hwrites⟩ := exists_writes later statements
      exact hwrites.get? ih
  | allocateId hleads hallocate ih => rwa [functions_of_allocateId hallocate]

theorem Reached.unreserved {context : Context} (hreached : context.Reached) {id : SymbolId} {function : Function}
    (hget : context.functions.get? id = some function) : isReserved id = false := by
  induction hreached with
  | empty => cases hget
  | @compile context hreached statements ih =>
      obtain ⟨done, hwrites⟩ := exists_writes context statements
      by_cases hmem : id ∈ (entered done).map Declaration.id
      · obtain ⟨declaration, hdeclaration, rfl⟩ := List.mem_map.mp hmem
        exact hwrites.unreserved declaration hdeclaration
      · rw [hwrites.kept id hmem] at hget
        exact ih hget
  | allocateId hreached hallocate ih =>
      rw [functions_of_allocateId hallocate] at hget
      exact ih hget

theorem declareFunction_of_present {context : Context} {id : SymbolId} {function : Function}
    (hreserved : isReserved id = false) (hget : context.functions.get? id = some function)
    (params : List SymbolId) : context.declareFunction id params = .error (.duplicateFunction id) := by
  have hcontains : context.functions.contains id = true := by rw [Table.contains, hget]; rfl
  rw [declareFunction, hreserved, if_neg (by simp), if_pos hcontains]

end Context

/-- The compilation that comes to a declaration whose identifier is taken fails there. -/
theorem compile_of_duplicate {context passed : Context} {statements : List Stmt} {done rest : List Visit}
    {declaration : Declaration} {function : Function}
    (hvisits : ofStmts statements = done ++ .enter declaration :: rest)
    (hwalk : walk context done = (.ok (), passed)) (hreserved : isReserved declaration.id = false)
    (hget : passed.functions.get? declaration.id = some function) :
    compile context statements = (.error (.duplicateFunction declaration.id), passed) := by
  have hstep : step passed (.enter declaration) = .error (.duplicateFunction declaration.id) :=
    Context.declareFunction_of_present hreserved hget declaration.params
  rw [compile_eq_walk, hvisits, walk_of_failing hwalk hstep rest]
  rfl

/-- The functions of a session are written once. None has a reserved identifier, and none is lost or changed later. A
compilation that succeeds adds the functions declared in its statements at any depth, each under an identifier of its
own and with the stream of its body. One that fails adds those that it has entered before; the ones that it has not left
have no code. A declaration of an identifier that is taken fails, wherever it is come to, and leaves the table alone. -/
theorem functions_writeOnce {context : Context} (hreached : context.Reached) :
    (∀ id function, context.functions.get? id = some function → reservedIds ≤ id) ∧
    (∀ later id function, context.Leads later → context.functions.get? id = some function →
      later.functions.get? id = some function) ∧
    ∀ statements,
      (∀ code after, compile context statements = (.ok code, after) →
        ((Declaration.ofStmts statements).map Declaration.id).Nodup ∧
        (∀ id, context.functions.get? id = none ∧ (∃ function, after.functions.get? id = some function) ↔
          id ∈ (Declaration.ofStmts statements).map Declaration.id) ∧
        ∀ declaration ∈ Declaration.ofStmts statements, ∃ stream,
          after.functions.get? declaration.id = some ⟨declaration.params, stream⟩ ∧
            declaration.CompilesTo stream) ∧
      (∀ error after, compile context statements = (.error error, after) →
        ∃ done failing rest, Visit.ofStmts statements = done ++ failing :: rest ∧
          Visit.walk context done = (.ok (), after) ∧ Visit.step after failing = .error error ∧
          (∀ id, context.functions.get? id = none ∧ (∃ function, after.functions.get? id = some function) ↔
            id ∈ (Visit.entered done).map Declaration.id) ∧
          ∀ declaration ∈ Visit.entered done, Visit.Stored done after declaration) ∧
      ∀ done declaration rest passed, Visit.ofStmts statements = done ++ .enter declaration :: rest →
        Visit.walk context done = (.ok (), passed) →
        (∀ (earlier : Context) function, earlier.Leads context →
          earlier.functions.get? declaration.id = some function →
            compile context statements = (.error (.duplicateFunction declaration.id), passed) ∧
              passed.functions.get? declaration.id = some function) ∧
        ∀ first ∈ Visit.entered done, first.id = declaration.id →
          compile context statements = (.error (.duplicateFunction declaration.id), passed) ∧
            Visit.Stored done passed first := by
  refine ⟨?_, ?_, ?_⟩
  · intro id function hget
    have hreserved : decide (id < reservedIds) = false := hreached.unreserved hget
    exact UInt64.not_lt.mp (of_decide_eq_false hreserved)
  · intro later id function hleads hget
    exact hleads.get? hget
  · intro statements
    have hnested := nested_ofStmts statements
    refine ⟨?_, ?_, ?_⟩
    · intro code after hcompile
      have hwalk := walk_of_compile_ok hcompile
      have hwrites := writes_of_walk hnested hwalk
      rw [← entered_ofStmts]
      refine ⟨hwrites.distinct, hwrites.new_iff, ?_⟩
      intro declaration hmem
      obtain ⟨stream, hget, hcompiles, -⟩ := stored_of_walk hnested hwalk hmem
      exact ⟨stream, hget, hcompiles (leave_of_ofStmts statements (entered_ofStmts statements ▸ hmem))⟩
    · intro error after hcompile
      obtain ⟨done, failing, rest, hvisits, hdone, hfailing⟩ := exists_failing (walk_of_compile_error hcompile)
      have hbefore : Visit.Nested done := (hvisits ▸ hnested).of_append
      exact ⟨done, failing, rest, hvisits, hdone, hfailing, (writes_of_walk hbefore hdone).new_iff,
        fun declaration hmem => stored_of_walk hbefore hdone hmem⟩
    · intro done declaration rest passed hvisits hdone
      have hbefore : Visit.Nested done := (hvisits ▸ hnested).of_append
      have hwrites := writes_of_walk hbefore hdone
      refine ⟨?_, ?_⟩
      · intro earlier function hleads hget
        have hcontext := hleads.get? hget
        have hpassed := hwrites.get? hcontext
        exact ⟨compile_of_duplicate hvisits hdone (hreached.unreserved hcontext) hpassed, hpassed⟩
      · intro first hmem hid
        obtain ⟨stream, hget⟩ := hwrites.exists_code hmem
        have hreserved := hwrites.unreserved first hmem
        rw [hid] at hget hreserved
        exact ⟨compile_of_duplicate hvisits hdone hreserved hget, stored_of_walk hbefore hdone hmem⟩

/-- A function within which one more is declared, and then one that is refused. -/
def halfDeclared : List Stmt := [.function 64 [70] [.function 65 [] [.ret none], .function 3 [] []]]

/-- Declares a new function in a loop, and then one of the first list again. -/
def declaredAgain : List Stmt :=
  [.whileLoop (.literal (.bool true) (some .bool)) [.function 66 [] [.ret none]], .function 65 [71] []]

theorem functions_writeOnce_declaredAgain :
    (compile .empty halfDeclared).1 = .error (.reservedId 3) ∧
      (compile .empty halfDeclared).2.functions.entries =
        [(64, ⟨[70], .empty⟩), (65, ⟨[], .ofInstructions [.plain .ret]⟩)] ∧
      ∃ after, compile (compile .empty halfDeclared).2 declaredAgain = (.error (.duplicateFunction 65), after) ∧
        after.functions.get? 65 = some ⟨[], .ofInstructions [.plain .ret]⟩ ∧
        after.functions.get? 66 = some ⟨[], .ofInstructions [.plain .ret]⟩ := by
  have hget : (compile .empty halfDeclared).2.functions.get? 65 = some ⟨[], .ofInstructions [.plain .ret]⟩ := by
    decide +kernel
  have hwriteOnce := (functions_writeOnce (.compile .empty halfDeclared)).2.2 declaredAgain
  have hduplicate := hwriteOnce.2.2
    [.piece (.expr (.literal (.bool true) (some .bool))), .enter ⟨66, [], [.ret none]⟩, .piece (.ret none),
      .leave ⟨66, [], [.ret none]⟩] ⟨65, [71], []⟩ [.leave ⟨65, [71], []⟩] _ rfl
    (Prod.ext (by decide +kernel) rfl)
  obtain ⟨hcompile, hkept⟩ := hduplicate.1 (compile .empty halfDeclared).2 _ .refl hget
  exact ⟨by decide +kernel, by decide +kernel, _, hcompile, hkept, by decide +kernel⟩

end StackCode
