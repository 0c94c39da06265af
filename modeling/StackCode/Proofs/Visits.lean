import StackCode.Proofs.Composition

/-! The order in which a compilation visits a tree. Functions are entered before their bodies are visited and get
their code afterwards; nothing else changes the context. A compilation does what a walk along the visits does, and
fails at the visit at which the walk fails. -/

namespace StackCode

namespace Table

variable {α : Type}

theorem lookup_eq_none_of_lt {key : SymbolId} {entries : List (SymbolId × α)}
    (hlt : ∀ entry ∈ entries, key < entry.1) : lookup key entries = none := by
  cases hlookup : lookup key entries with
  | none => rfl
  | some value =>
      have hself := hlt _ (mem_of_lookup hlookup)
      exact absurd hself (UInt64.lt_irrefl key)

theorem eq_of_lookup {entries others : List (SymbolId × α)} (hentries : Ascending entries) (hothers : Ascending others)
    (hlookup : ∀ key, lookup key entries = lookup key others) : entries = others := by
  induction entries generalizing others with
  | nil =>
      cases others with
      | nil => rfl
      | cons other others =>
          have hother := hlookup other.1
          simp [lookup] at hother
  | cons entry entries ih =>
      obtain ⟨hhead, htail⟩ := List.pairwise_cons.mp hentries
      cases others with
      | nil =>
          have hentry := hlookup entry.1
          simp [lookup] at hentry
      | cons other others =>
          obtain ⟨hotherHead, hotherTail⟩ := List.pairwise_cons.mp hothers
          have hfirst : lookup entry.1 (other :: others) = some entry.2 := by
            rw [← hlookup, lookup, if_pos rfl]
          have hsecond : lookup other.1 (entry :: entries) = some other.2 := by
            rw [hlookup, lookup, if_pos rfl]
          have hkey : entry.1 = other.1 := by
            -- the smaller of two different keys would be found in one list only
            by_contra hne
            rw [lookup, if_neg hne] at hfirst
            rw [lookup, if_neg (Ne.symm hne)] at hsecond
            have hless := hotherHead _ (mem_of_lookup hfirst)
            have hgreater := hhead _ (mem_of_lookup hsecond)
            exact UInt64.lt_asymm hless hgreater
          have hvalue : entry.2 = other.2 := by
            rw [lookup, if_pos hkey] at hfirst
            exact (Option.some.inj hfirst).symm
          have hrest : entries = others := by
            refine ih htail hotherTail fun key => ?_
            by_cases hown : key = entry.1
            · rw [hown, lookup_eq_none_of_lt hhead, hkey, lookup_eq_none_of_lt hotherHead]
            · have hboth := hlookup key
              rwa [lookup, if_neg hown, lookup, if_neg (hkey ▸ hown)] at hboth
          rw [hrest, Prod.ext hkey hvalue]

/-- Two tables with the same content are equal. -/
theorem ext_get? {table other : Table α} (hget : ∀ key, table.get? key = other.get? key) : table = other := by
  obtain ⟨entries, hentries⟩ := table
  obtain ⟨others, hothers⟩ := other
  cases eq_of_lookup hentries hothers hget
  rfl

end Table

namespace Context

theorem Declares.eq_of_nil {before after : Context} (hdeclares : before.Declares [] after) : after = before := by
  obtain ⟨nextId, functions⟩ := after
  obtain rfl : nextId = before.nextId := hdeclares.nextId
  obtain rfl : functions = before.functions := Table.ext_get? hdeclares.functions
  rfl

theorem DeclaresPart.eq_of_nil {before after : Context} (hpart : before.DeclaresPart [] after) : after = before := by
  apply Declares.eq_of_nil
  refine ⟨hpart.nextId, by simp, by simp, List.Pairwise.nil, ?_⟩
  intro id
  show after.functions.get? id = before.functions.get? id
  apply Option.ext
  intro function
  constructor
  · intro hget
    rcases hpart.added id function hget with hbefore | ⟨declaration, hmem, -⟩
    · exact hbefore
    · cases hmem
  · exact hpart.kept id function

end Context

/-- One step of a compilation, as far as contexts are concerned. -/
inductive Visit where
  /-- A statement without a body, or a condition. -/
  | piece (statement : Stmt)
  | enter (declaration : Declaration)
  | leave (declaration : Declaration)

namespace Visit

mutual

/-- The visits of a statement in their order. -/
def ofStmt : Stmt → List Visit
  | .conditional list => ofBranches list
  | .whileLoop cond body => .piece (.expr cond) :: ofStmts body
  | .forLoop init cond body => ofStmt init ++ .piece (.expr cond) :: ofStmts body
  | .function id params body => .enter ⟨id, params, body⟩ :: ofStmts body ++ [.leave ⟨id, params, body⟩]
  | statement => [.piece statement]

def ofStmts : List Stmt → List Visit
  | [] => []
  | first :: rest => ofStmt first ++ ofStmts rest

def ofBranches : Branches → List Visit
  | .otherwise body => ofStmts body
  | .arm cond body rest => .piece (.expr cond) :: ofStmts body ++ ofBranches rest

end

/-- What a visit makes of a context. -/
def step (context : Context) : Visit → Except CompileError Context
  | .piece statement => (compile context [statement]).1.map fun _ => context
  | .enter declaration => context.declareFunction declaration.id declaration.params
  | .leave declaration => .ok (context.defineFunction declaration.id declaration.function.code)

/-- Visits in their order up to the first one that fails, with the context before it. -/
def walk : Context → List Visit → Except CompileError Unit × Context
  | context, [] => (.ok (), context)
  | context, visit :: rest =>
    match step context visit with
    | .ok after => walk after rest
    | .error error => (.error error, context)

theorem walk_append (context : Context) (first second : List Visit) :
    walk context (first ++ second) =
      match walk context first with
      | (.ok _, between) => walk between second
      | (.error error, between) => (.error error, between) := by
  induction first generalizing context with
  | nil => rfl
  | cons visit first ih =>
      rw [List.cons_append, walk, walk]
      cases step context visit with
      | ok after => exact ih after
      | error error => rfl

variable {context after : Context} {visits done rest : List Visit}

/-- A walk that comes to its end has passed through every place on its way. -/
theorem exists_between (hwalk : walk context (done ++ rest) = (.ok (), after)) :
    ∃ between, walk context done = (.ok (), between) ∧ walk between rest = (.ok (), after) := by
  rw [walk_append] at hwalk
  rcases hdone : walk context done with ⟨error | value, between⟩ <;> rw [hdone] at hwalk
  · cases hwalk
  · exact ⟨between, rfl, hwalk⟩

theorem exists_last {visit : Visit} (hwalk : walk context (done ++ [visit]) = (.ok (), after)) :
    ∃ between, walk context done = (.ok (), between) ∧ step between visit = .ok after := by
  obtain ⟨between, hdone, hlast⟩ := exists_between hwalk
  refine ⟨between, hdone, ?_⟩
  rw [walk] at hlast
  cases hstep : step between visit with
  | ok last =>
      rw [hstep] at hlast
      exact congrArg Except.ok (congrArg Prod.snd hlast)
  | error error =>
      rw [hstep] at hlast
      cases hlast

theorem walk_of_failing {visit : Visit} {error : CompileError} (hwalk : walk context done = (.ok (), after))
    (hstep : step after visit = .error error) (rest : List Visit) :
    walk context (done ++ visit :: rest) = (.error error, after) := by
  rw [walk_append, hwalk]
  simp only [walk, hstep]

/-- A walk that fails has passed all visits before the one that fails. -/
theorem exists_failing {error : CompileError} (hwalk : walk context visits = (.error error, after)) :
    ∃ done failing rest, visits = done ++ failing :: rest ∧ walk context done = (.ok (), after) ∧
      step after failing = .error error := by
  induction visits generalizing context with
  | nil => cases hwalk
  | cons visit visits ih =>
      rw [walk] at hwalk
      cases hstep : step context visit with
      | error cause =>
          rw [hstep] at hwalk
          cases hwalk
          exact ⟨[], visit, visits, rfl, rfl, hstep⟩
      | ok next =>
          rw [hstep] at hwalk
          obtain ⟨done, failing, rest, rfl, hdone, hfailing⟩ := ih hwalk
          refine ⟨visit :: done, failing, rest, rfl, ?_, hfailing⟩
          rw [walk, hstep]
          exact hdone

/-- A function is left right after the visits of its body, which follow its entry. -/
def Nested (visits : List Visit) : Prop :=
  ∀ front declaration back, visits = front ++ .leave declaration :: back →
    ∃ outer, front = outer ++ .enter declaration :: ofStmts declaration.body

theorem Nested.of_append (hnested : Nested (done ++ rest)) : Nested done := by
  rintro front declaration back rfl
  exact hnested front declaration (back ++ rest) (by simp)

theorem Nested.append (hdone : Nested done) (hrest : Nested rest) : Nested (done ++ rest) := by
  intro front declaration back hvisits
  rcases List.append_eq_append_iff.mp hvisits with ⟨middle, rfl, hmiddle⟩ | ⟨middle, rfl, hmiddle⟩
  · obtain ⟨outer, rfl⟩ := hrest middle declaration back hmiddle
    exact ⟨done ++ outer, by simp⟩
  · cases middle with
    | nil =>
        obtain ⟨outer, houter⟩ := hrest [] declaration back hmiddle.symm
        simp at houter
    | cons first middle =>
        cases hmiddle
        exact hdone front declaration middle rfl

theorem nested_nil : Nested [] := by
  intro front declaration back hvisits
  simp at hvisits

theorem nested_piece (statement : Stmt) : Nested [.piece statement] := by
  intro front declaration back hvisits
  have hmem : Visit.leave declaration ∈ [Visit.piece statement] := by simp [hvisits]
  cases List.mem_singleton.mp hmem

theorem nested_function {declaration : Declaration} (hbody : Nested (ofStmts declaration.body)) :
    Nested (.enter declaration :: ofStmts declaration.body ++ [.leave declaration]) := by
  intro front other back hvisits
  rcases last_or_split hvisits with ⟨rfl, hlast⟩ | ⟨rest, hrest, -⟩
  · cases hlast
    exact ⟨[], rfl⟩
  · cases front with
    | nil => cases hrest
    | cons first front =>
        obtain ⟨rfl, htail⟩ := List.cons.inj hrest
        obtain ⟨outer, rfl⟩ := hbody front other rest htail
        exact ⟨.enter declaration :: outer, rfl⟩

mutual

theorem nested_ofStmt : (tree : Stmt) → Nested (ofStmt tree)
  | .conditional list => nested_ofBranches list
  | .whileLoop cond body => (nested_piece (.expr cond)).append (nested_ofStmts body)
  | .forLoop init cond body =>
      (nested_ofStmt init).append ((nested_piece (.expr cond)).append (nested_ofStmts body))
  | .function _ _ body => nested_function (nested_ofStmts body)
  | .declare _ _ _ _ | .assign _ _ _ _ | .assignElement _ _ _ _ _ | .ret _ | .expr _ => nested_piece _

theorem nested_ofStmts : (list : List Stmt) → Nested (ofStmts list)
  | [] => nested_nil
  | first :: rest => (nested_ofStmt first).append (nested_ofStmts rest)

theorem nested_ofBranches : (list : Branches) → Nested (ofBranches list)
  | .otherwise body => nested_ofStmts body
  | .arm cond body rest =>
      ((nested_piece (.expr cond)).append (nested_ofStmts body)).append (nested_ofBranches rest)

end

/-- The functions that are entered on the way. -/
def entered : List Visit → List Declaration
  | [] => []
  | .enter declaration :: rest => declaration :: entered rest
  | .piece _ :: rest | .leave _ :: rest => entered rest

@[simp] theorem entered_append (done rest : List Visit) : entered (done ++ rest) = entered done ++ entered rest := by
  induction done with
  | nil => rfl
  | cons visit done ih => cases visit <;> simp [entered, ih]

theorem mem_entered {declaration : Declaration} : declaration ∈ entered visits ↔ .enter declaration ∈ visits := by
  induction visits with
  | nil => simp [entered]
  | cons visit visits ih => cases visit <;> simp [entered, ih]

mutual

theorem entered_ofStmt : (tree : Stmt) → entered (ofStmt tree) = Declaration.ofStmt tree
  | .conditional list => entered_ofBranches list
  | .whileLoop _ body => entered_ofStmts body
  | .forLoop init cond body => by
      rw [ofStmt, entered_append, entered_ofStmt init]
      exact congrArg _ (entered_ofStmts body)
  | .function id params body => by
      rw [ofStmt, List.cons_append, entered, entered_append, entered_ofStmts body]
      exact congrArg _ (List.append_nil _)
  | .declare _ _ _ _ | .assign _ _ _ _ | .assignElement _ _ _ _ _ | .ret _ | .expr _ => rfl

theorem entered_ofStmts : (list : List Stmt) → entered (ofStmts list) = Declaration.ofStmts list
  | [] => rfl
  | first :: rest => by
      rw [ofStmts, entered_append, entered_ofStmt first, entered_ofStmts rest]
      rfl

theorem entered_ofBranches : (list : Branches) → entered (ofBranches list) = Declaration.ofBranches list
  | .otherwise body => entered_ofStmts body
  | .arm _ body rest => by
      rw [ofBranches, entered_append, entered_ofBranches rest, entered, entered_ofStmts body]
      rfl

end

end Visit

namespace Gen

open Visit

variable {α β : Type}

/-- The part of a compilation makes the visits. It may fail to patch a jump at any time. -/
def Walks (part : Gen α) (visits : List Visit) : Prop :=
  ∀ generator, match part.on generator with
    | (.ok _, after) => walk generator.context visits = (.ok (), after.context)
    | (.error error, after) => error.isPatch = false → walk generator.context visits = (.error error, after.context)

theorem Walks.bind {part : Gen α} {next : α → Gen β} {visits rest : List Visit} (hpart : Walks part visits)
    (hnext : ∀ value, Walks (next value) rest) : Walks (part >>= next) (visits ++ rest) := by
  intro generator
  have hfirst := hpart generator
  rw [on_bind, walk_append]
  rcases hrun : part.on generator with ⟨error | value, between⟩ <;> rw [hrun] at hfirst
  · intro herror
    rw [hfirst herror]
  · rw [hfirst]
    exact hnext value between

/-- Parts that only emit. -/
theorem walks_nil {part : Gen α} (hpart : ∀ generator, match part.on generator with
    | (.ok _, after) => after.context = generator.context
    | (.error error, _) => error.isPatch = true) : Walks part [] := by
  intro generator
  have hkeeps := hpart generator
  rcases hrun : part.on generator with ⟨error | value, after⟩ <;> rw [hrun] at hkeeps
  · intro herror
    rw [hkeeps] at herror
    cases herror
  · have hcontext : after.context = generator.context := hkeeps
    exact congrArg (Prod.mk (Except.ok ())) hcontext.symm

theorem walks_here : Walks here [] := walks_nil fun _ => rfl

theorem walks_emitJump (opcode : Opcode) : Walks (emitJump opcode) [] := walks_nil fun _ => rfl

theorem walks_emitJumpBack (target : Nat) : Walks (emitJumpBack target) [] := walks_nil fun _ => rfl

theorem walks_patchToHere (site : JumpSite) : Walks (patchToHere site) [] := by
  apply walks_nil
  rintro ⟨context, out⟩
  cases hpatch : out.patchToHere site with
  | ok patched => rw [on_patchToHere hpatch]
  | error error =>
      rw [on_patchToHere_error hpatch]
      unfold Emitter.patchToHere at hpatch
      split at hpatch
      · cases hpatch
      · cases hpatch
        rfl

/-- A statement that declares nothing leaves the context as it is, wherever it is compiled. -/
theorem walks_piece {statement : Stmt} (hdeclared : Declaration.ofStmt statement = []) :
    Walks (stmt statement) [.piece statement] := by
  rintro ⟨context, out⟩
  have hsingle : stmts [statement] = stmt statement := bind_pure (stmt statement)
  have hstep : step context (.piece statement) = (compile context [statement]).1.map fun _ => context := rfl
  have hcompiles := compiles_stmt statement .empty context
  have hplaced := (placeless_stmt statement).on_behind (compiles_stmt statement) context out
  rw [compile_eq, hsingle] at hstep
  rw [hdeclared] at hcompiles
  rcases halone : (stmt statement).on ⟨context, .empty⟩ with ⟨error | value, after⟩ <;>
    rw [halone] at hstep hcompiles hplaced
  · obtain ⟨left, hplaced⟩ := hplaced
    rw [hplaced, hcompiles.2.eq_of_nil]
    intro _
    rw [walk, hstep]
    rfl
  · rw [hplaced, hcompiles.2.2.eq_of_nil]
    rw [walk, hstep]
    rfl

/-- A condition fails if it fails as a statement. -/
theorem walks_cond (cond : Expr) : Walks (expr cond) [.piece (.expr cond)] := by
  intro generator
  have hpiece := @walks_piece (.expr cond) rfl generator
  have hstmt : stmt (.expr cond) =
      (expr cond >>= fun _ => if cond.ty.isSome then emit (.plain .pop) else pure ()) := rfl
  rw [hstmt, on_bind] at hpiece
  rcases hrun : (expr cond).on generator with ⟨error | value, after⟩ <;> rw [hrun] at hpiece
  · exact hpiece
  · by_cases hty : cond.ty.isSome = true
    · rw [if_pos hty] at hpiece
      exact hpiece
    · rw [if_neg hty] at hpiece
      exact hpiece

theorem walks_function (declaration : Declaration)
    (hbody : Walks (stmts declaration.body) (Visit.ofStmts declaration.body)) :
    Walks (stmt (.function declaration.id declaration.params declaration.body))
      (.enter declaration :: Visit.ofStmts declaration.body ++ [.leave declaration]) := by
  rintro ⟨context, out⟩
  have hstep : step context (.enter declaration) = context.declareFunction declaration.id declaration.params := rfl
  rw [stmt, on_bind, on_declareFunction, List.cons_append, walk, hstep]
  cases context.declareFunction declaration.id declaration.params with
  | error error => exact fun _ => rfl
  | ok entered =>
      have hcompiled := compiles_stmts declaration.body .empty entered
      have hwalk := hbody ⟨entered, .empty⟩
      simp only [on_bind, on_separately, walk_append]
      rcases hrun : (stmts declaration.body).on ⟨entered, .empty⟩ with ⟨error | value, after⟩ <;>
        rw [hrun] at hcompiled hwalk
      · intro _
        rw [hwalk hcompiled.1]
      · have hcode : after.out.code = declaration.function.code := by
          rw [hcompiled.2.1, Emitter.code_emitAll_empty]
          rfl
        rw [hwalk]
        change walk after.context [.leave declaration] =
          (.ok (), after.context.defineFunction declaration.id after.out.code)
        rw [hcode]
        rfl

theorem walks_loop (cond : Expr) {body : Gen Unit} {visits : List Visit} (hbody : Walks body visits) :
    Walks (loop cond body) (.piece (.expr cond) :: visits) := by
  have hloop : Walks (loop cond body) ([] ++ ([.piece (.expr cond)] ++ ([] ++ (visits ++ ([] ++ []))))) :=
    walks_here.bind fun start => (walks_cond cond).bind fun _ => (walks_emitJump .jumpIfFalse).bind fun exit =>
      hbody.bind fun _ => (walks_emitJumpBack start).bind fun _ => walks_patchToHere exit
  simpa using hloop

theorem walks_arm (cond : Expr) {body others : Gen Unit} {visits rest : List Visit} (hbody : Walks body visits)
    (hothers : Walks others rest) :
    Walks (do
      expr cond
      let skip ← emitJump .jumpIfFalse
      body
      let exit ← emitJump .jump
      patchToHere skip
      others
      patchToHere exit) (.piece (.expr cond) :: visits ++ rest) := by
  have harm := (walks_cond cond).bind fun _ => (walks_emitJump .jumpIfFalse).bind fun skip =>
    hbody.bind fun _ => (walks_emitJump .jump).bind fun exit => (walks_patchToHere skip).bind fun _ =>
      hothers.bind fun _ => walks_patchToHere exit
  simpa using harm

mutual

theorem walks_stmt : (tree : Stmt) → Walks (stmt tree) (Visit.ofStmt tree)
  | .conditional list => walks_branches list
  | .whileLoop cond body => walks_loop cond (walks_stmts body)
  | .forLoop init cond body => (walks_stmt init).bind fun _ => walks_loop cond (walks_stmts body)
  | .function id params body => walks_function ⟨id, params, body⟩ (walks_stmts body)
  | .declare _ _ _ _ | .assign _ _ _ _ | .assignElement _ _ _ _ _ | .ret _ | .expr _ => walks_piece rfl

theorem walks_stmts : (list : List Stmt) → Walks (stmts list) (Visit.ofStmts list)
  | [] => walks_nil fun _ => rfl
  | first :: rest => (walks_stmt first).bind fun _ => walks_stmts rest

theorem walks_branches : (list : Branches) → Walks (branches list) (Visit.ofBranches list)
  | .otherwise body => walks_stmts body
  | .arm cond body rest => walks_arm cond (walks_stmts body) (walks_branches rest)

end

end Gen

/-- A compilation does what a walk along its visits does. -/
theorem compile_eq_walk (context : Context) (statements : List Stmt) :
    compile context statements =
      ((Visit.walk context (Visit.ofStmts statements)).1.map fun _ => .ofInstructions (Code.stmts statements),
        (Visit.walk context (Visit.ofStmts statements)).2) := by
  have hwalk := Gen.walks_stmts statements ⟨context, .empty⟩
  have hcompiles := Gen.compiles_stmts statements .empty context
  rw [compile_eq]
  rcases hrun : (Gen.stmts statements).on ⟨context, .empty⟩ with ⟨error | value, after⟩ <;>
    rw [hrun] at hwalk hcompiles
  · rw [hwalk hcompiles.1]
    rfl
  · have hcode : after.out.code = .ofInstructions (Code.stmts statements) := by
      rw [hcompiles.2.1, Emitter.code_emitAll_empty]
    rw [hwalk]
    exact congrArg (fun code => (Except.ok code, after.context)) hcode

end StackCode
