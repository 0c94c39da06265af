import StackCode.Proofs.Generated

/-! Compilations put together. A part of a compilation that finds other code in front of it emits the same bytes
behind this code, enters the same functions and fails with the same error; so statements can be compiled in one go or
list by list. -/

namespace StackCode

namespace Stream

theorem overwrite_append (front : Array UInt8) (new : List UInt8) (bytes : Array UInt8) (offset : Nat) :
    overwrite (front ++ bytes) (front.size + offset) new = front ++ overwrite bytes offset new := by
  induction new generalizing bytes offset with
  | nil => rfl
  | cons byte new ih =>
      rw [overwrite, overwrite, Array.setIfInBounds_append_right (Nat.le_add_right _ _), Nat.add_sub_cancel_left]
      exact ih _ (offset + 1)

theorem patchWord_append (front : Stream) {code patched : Stream} {offset : Nat} {word : UInt64}
    (hpatch : code.patchWord offset word = .ok patched) :
    (front.append code).patchWord (front.size + offset) word = .ok (front.append patched) := by
  unfold patchWord at hpatch
  split at hpatch
  · rename_i hroom
    have happended : front.size + offset + 1 + Layout.wordBytes ≤ (front.append code).size := by
      rw [size_append]
      omega
    obtain rfl := Except.ok.inj hpatch
    rw [patchWord, if_pos happended]
    generalize littleEndian Layout.wordBytes word.toNat = new
    simp only [append, ← overwrite_append, size, Nat.add_assoc]
  · cases hpatch

theorem patchWord_append_of_error (front : Stream) {code : Stream} {offset : Nat} {word : UInt64} {error : DecodeError}
    (hpatch : code.patchWord offset word = .error error) :
    ∃ cause, (front.append code).patchWord (front.size + offset) word = .error cause := by
  unfold patchWord at hpatch
  split at hpatch
  · cases hpatch
  · rename_i hroom
    have happended : ¬ front.size + offset + 1 + Layout.wordBytes ≤ (front.append code).size := by
      rw [size_append]
      omega
    exact ⟨_, if_neg happended⟩

end Stream

/-- The jump with a stream in front of that in which it stands. -/
def JumpSite.behind (front : Stream) (site : JumpSite) : JumpSite := { site with offset := front.size + site.offset }

namespace Emitter

/-- The emitter with a stream in front of what it has emitted. -/
def behind (front : Stream) (out : Emitter) : Emitter := ⟨front.append out.code⟩

theorem here_behind (front : Stream) (out : Emitter) : (out.behind front).here = front.size + out.here :=
  Stream.size_append front out.code

theorem emitAll_behind (front : Stream) (out : Emitter) (instructions : List Instruction) :
    (out.behind front).emitAll instructions = (out.emitAll instructions).behind front := by
  refine eq_of_toList ?_
  rw [toList_emitAll]
  simp [behind, Stream.append, toList_emitAll]

/-- Distances do not change, so a jump back is the same. -/
theorem emitJumpBack_behind (front : Stream) (out : Emitter) (target : Nat) :
    (out.behind front).emitJumpBack (front.size + target) = (out.emitJumpBack target).behind front := by
  rw [emitJumpBack, here_behind, Nat.add_assoc, Nat.add_sub_add_left]
  exact emitAll_behind front out [_]

theorem patchToHere_behind (front : Stream) (out : Emitter) (site : JumpSite) :
    (∃ patched, out.patchToHere site = .ok patched ∧
      (out.behind front).patchToHere (site.behind front) = .ok (patched.behind front)) ∨
    ∃ error cause, out.patchToHere site = .error (.patch error) ∧
      (out.behind front).patchToHere (site.behind front) = .error (.patch cause) := by
  have hdistance : (out.behind front).here - ((site.behind front).offset + (site.behind front).length) =
      out.here - (site.offset + site.length) := by
    rw [here_behind]
    simp only [JumpSite.behind]
    omega
  unfold patchToHere
  rw [hdistance]
  cases hpatch : out.code.patchWord site.offset (UInt64.ofNat (out.here - (site.offset + site.length))) with
  | ok patched =>
      left
      refine ⟨⟨patched⟩, rfl, ?_⟩
      simp only [behind, JumpSite.behind, Stream.patchWord_append front hpatch]
  | error error =>
      obtain ⟨cause, hcause⟩ := Stream.patchWord_append_of_error front hpatch
      right
      refine ⟨error, cause, rfl, ?_⟩
      simp only [behind, JumpSite.behind, hcause]

end Emitter

/-- The generator with a stream in front of what it has emitted. -/
def Generator.behind (front : Stream) (generator : Generator) : Generator :=
  { generator with out := generator.out.behind front }

namespace Gen

variable {α β : Type} {front : Stream}

/-- How a part of a compilation ends by itself, and with a stream in front of it. Only a failure to patch may be told
differently. -/
inductive Shifted (front : Stream) (related : α → α → Prop) :
    Except CompileError α × Generator → Except CompileError α × Generator → Prop where
  | ok {value moved : α} {after : Generator} (hvalue : related value moved) :
      Shifted front related (.ok value, after) (.ok moved, after.behind front)
  | error {error cause : CompileError} {after left : Generator} (herror : error.isPatch = false → cause = error)
      (hcontext : left.context = after.context) : Shifted front related (.error error, after) (.error cause, left)

/-- The second part does behind a stream what the first one does by itself. -/
def Shifts (front : Stream) (related : α → α → Prop) (part other : Gen α) : Prop :=
  ∀ generator, Shifted front related (part.on generator) (other.on (generator.behind front))

/-- What the part does does not depend on where it starts. -/
def Placeless (part : Gen α) : Prop := ∀ front, Shifts front Eq part part

theorem Shifts.bind {related : α → α → Prop} {relatedNext : β → β → Prop} {part other : Gen α}
    {next otherNext : α → Gen β} (hpart : Shifts front related part other)
    (hnext : ∀ value moved, related value moved → Shifts front relatedNext (next value) (otherNext moved)) :
    Shifts front relatedNext (part >>= next) (other >>= otherNext) := by
  intro generator
  have hfirst := hpart generator
  rw [on_bind, on_bind]
  generalize part.on generator = outcome at hfirst
  generalize other.on (generator.behind front) = otherOutcome at hfirst
  cases hfirst with
  | ok hvalue => exact hnext _ _ hvalue _
  | error herror hcontext => exact .error herror hcontext

theorem Placeless.bind {part : Gen α} {next : α → Gen β} (hpart : Placeless part)
    (hnext : ∀ value, Placeless (next value)) : Placeless (part >>= next) := by
  intro front
  refine (hpart front).bind ?_
  rintro value _ rfl
  exact hnext value front

theorem placeless_pure (value : α) : Placeless (pure value) := fun _ _ => .ok rfl

theorem placeless_throw (error : CompileError) : Placeless (throw error : Gen α) :=
  fun _ _ => .error (fun _ => rfl) rfl

theorem placeless_fromExcept (result : Except CompileError α) : Placeless (fromExcept result) := by
  cases result with
  | ok value => exact placeless_pure value
  | error error => exact placeless_throw error

theorem shifts_modify (change otherChange : Emitter → Emitter)
    (hchange : ∀ out, otherChange (out.behind front) = (change out).behind front) :
    Shifts front Eq (modify fun generator => { generator with out := change generator.out } : Gen Unit)
      (modify fun generator => { generator with out := otherChange generator.out }) := by
  rintro ⟨context, out⟩
  have hbehind : (modify fun generator => { generator with out := otherChange generator.out } : Gen Unit).on
      (Generator.behind front ⟨context, out⟩) = (.ok (), Generator.behind front ⟨context, change out⟩) := by
    rw [Generator.behind, Generator.behind, ← hchange]
    rfl
  rw [hbehind]
  exact .ok rfl

theorem placeless_emitAll (instructions : List Instruction) : Placeless (emitAll instructions) :=
  fun front => shifts_modify (·.emitAll instructions) (·.emitAll instructions) (·.emitAll_behind front instructions)

theorem placeless_emit (instruction : Instruction) : Placeless (emit instruction) := placeless_emitAll [instruction]

theorem shifts_here (front : Stream) : Shifts front (fun start moved => moved = front.size + start) here here :=
  fun generator => .ok (generator.out.here_behind front)

theorem shifts_emitJump (front : Stream) (opcode : Opcode) :
    Shifts front (fun site moved => moved = site.behind front) (emitJump opcode) (emitJump opcode) := by
  intro generator
  have hbehind : (emitJump opcode).on (generator.behind front) =
      (.ok ((generator.out.nextSite opcode).behind front),
        Generator.behind front { generator with out := generator.out.emitJump opcode }) := by
    have hsite : (generator.out.behind front).nextSite opcode = (generator.out.nextSite opcode).behind front :=
      congrArg (JumpSite.mk · _) (generator.out.here_behind front)
    have hout : (generator.out.behind front).emitJump opcode = (generator.out.emitJump opcode).behind front :=
      generator.out.emitAll_behind front [_]
    simp only [Generator.behind, ← hsite, ← hout]
    rfl
  rw [hbehind]
  exact .ok rfl

theorem shifts_emitJumpBack (front : Stream) (target : Nat) :
    Shifts front Eq (emitJumpBack target) (emitJumpBack (front.size + target)) :=
  shifts_modify (·.emitJumpBack target) (·.emitJumpBack (front.size + target)) (·.emitJumpBack_behind front target)

theorem on_patchToHere_error {out : Emitter} {site : JumpSite} {error : CompileError}
    (hpatch : out.patchToHere site = .error error) (context : Context) :
    (patchToHere site).on ⟨context, out⟩ = (.error error, ⟨context, out⟩) := by
  change (fromExcept (out.patchToHere site) >>= fun patched => modify fun generator =>
    { generator with out := patched } : Gen Unit).on ⟨context, out⟩ = _
  rw [hpatch]
  rfl

theorem shifts_patchToHere (front : Stream) (site : JumpSite) :
    Shifts front Eq (patchToHere site) (patchToHere (site.behind front)) := by
  rintro ⟨context, out⟩
  rw [Generator.behind]
  rcases out.patchToHere_behind front site with ⟨patched, hown, hbehind⟩ | ⟨error, cause, hown, hbehind⟩
  · rw [on_patchToHere hown, on_patchToHere hbehind]
    exact .ok rfl
  · rw [on_patchToHere_error hown, on_patchToHere_error hbehind]
    exact .error nofun rfl

theorem placeless_checkDepth (ty : Option DataType) (depth : Nat) : Placeless (checkDepth ty depth) := by
  cases ty with
  | none => exact placeless_pure ()
  | some ty => exact placeless_fromExcept (ty.checkDepth depth)

theorem placeless_expectedArity (id : SymbolId) : Placeless (expectedArity id) := by
  unfold expectedArity
  split
  · split
    · exact placeless_pure _
    · exact placeless_throw _
  · exact fun _ _ => .ok rfl

theorem placeless_checkArity (id : SymbolId) (found : Nat) : Placeless (checkArity id found) := by
  refine (placeless_expectedArity id).bind fun expected => ?_
  split
  · split
    · exact placeless_throw _
    · exact placeless_pure ()
  · exact placeless_pure ()

theorem placeless_unaryOperation (op : UnaryOp) (operand : Expr) : Placeless (unaryOperation op operand) := by
  refine (placeless_fromExcept _).bind fun ty => ?_
  split
  · exact placeless_pure _
  · exact placeless_throw _

theorem placeless_binaryWith (op : BinaryOp) (left right : Expr) {emitLeft emitRight : Gen Unit}
    (hleft : Placeless emitLeft) (hright : Placeless emitRight) :
    Placeless (binaryWith op left right emitLeft emitRight) := by
  refine (placeless_fromExcept _).bind fun leftType => (placeless_fromExcept _).bind fun rightType => ?_
  split
  · exact hleft.bind fun _ => hright.bind fun _ => (placeless_emit _).bind fun _ => placeless_pure _
  · split
    · exact placeless_throw _
    · split
      · exact placeless_throw _
      · refine hleft.bind fun _ => (placeless_fromExcept _).bind fun first => (placeless_emitAll first).bind fun _ => ?_
        refine hright.bind fun _ => (placeless_fromExcept _).bind fun second => ?_
        exact (placeless_emitAll second).bind fun _ => (placeless_emit _).bind fun _ => placeless_pure _

mutual

theorem placeless_expr : (tree : Expr) → Placeless (expr tree)
  | .literal value _ => placeless_emitAll value.code
  | .var id _ => placeless_emit (.load id)
  | .array items _ => (placeless_exprs items).bind fun _ => placeless_emit _
  | .unary op operand _ =>
      (placeless_unaryOperation op operand).bind fun _ => (placeless_expr operand).bind fun _ => placeless_emit _
  | .binary op left right _ =>
      (placeless_binaryWith op left right (placeless_expr left) (placeless_expr right)).bind fun _ => placeless_pure ()
  | .subscript base index _ => by
      rw [expr]
      split
      · refine (placeless_checkDepth _ _).bind fun _ => (placeless_expr index).bind fun _ => ?_
        exact (placeless_subscripts base).bind fun _ => placeless_emit _
      · refine (placeless_checkDepth _ _).bind fun _ => (placeless_expr base).bind fun _ => ?_
        exact (placeless_expr index).bind fun _ => placeless_emit _
  | .call id args _ => (placeless_checkArity id _).bind fun _ => (placeless_exprs args).bind fun _ => placeless_emit _

theorem placeless_exprs : (list : List Expr) → Placeless (exprs list)
  | [] => placeless_pure ()
  | item :: rest => (placeless_expr item).bind fun _ => placeless_exprs rest

theorem placeless_subscripts : (tree : Expr) → Placeless (subscripts tree)
  | .subscript base index _ => (placeless_expr index).bind fun _ => placeless_subscripts base
  | .literal _ _ | .var _ _ | .array _ _ | .unary _ _ _ | .binary _ _ _ _ | .call _ _ _ => placeless_pure ()

end

theorem placeless_convert (source target : DataType) : Placeless (convert source target) := by
  unfold convert
  split
  · exact placeless_emit _
  · exact placeless_pure ()

theorem placeless_converted (value : Expr) (place : TypedPlace) (target : DataType) :
    Placeless (converted value place target) :=
  (placeless_expr value).bind fun _ => (placeless_fromExcept _).bind fun source => placeless_convert source target

theorem placeless_sizes : (dims : Nat) → (declared : List (Option Expr)) → Placeless (sizes dims declared)
  | 0, _ => placeless_pure ()
  | dims + 1, [] => (placeless_emit _).bind fun _ => placeless_sizes dims []
  | dims + 1, none :: rest => (placeless_emit _).bind fun _ => placeless_sizes dims rest
  | dims + 1, some size :: rest => (placeless_expr size).bind fun _ => placeless_sizes dims rest

theorem placeless_zero (ty : DataType) (declared : List (Option Expr)) : Placeless (zero ty declared) := by
  unfold zero
  split
  · exact (placeless_sizes ty.dims declared).bind fun _ => placeless_emit _
  · exact placeless_emit _

theorem placeless_padding (ty : DataType) (declared : List (Option Expr)) :
    (count : Nat) → Placeless (padding ty declared count)
  | 0 => placeless_pure ()
  | count + 1 => (placeless_zero ty declared).bind fun _ => placeless_padding ty declared count

theorem placeless_finishArray (itemType : DataType) (declared : List (Option Expr)) (found : Nat) :
    Placeless (finishArray itemType declared found) :=
  (placeless_padding itemType declared.tail _).bind fun _ => placeless_emit _

mutual

theorem placeless_arrayItem (itemType : DataType) (declared : List (Option Expr)) :
    (item : Expr) → Placeless (arrayItem itemType declared item)
  | .array items ty => by
      rw [arrayItem]
      split
      · exact (placeless_arrayItems itemType.itemType declared.tail items).bind fun _ => placeless_finishArray _ _ _
      · exact placeless_converted _ _ _
  | .literal _ _ | .var _ _ | .unary _ _ _ | .binary _ _ _ _ | .subscript _ _ _ | .call _ _ _ =>
      placeless_converted _ _ _

theorem placeless_arrayItems (itemType : DataType) (declared : List (Option Expr)) :
    (items : List Expr) → Placeless (arrayItems itemType declared items)
  | [] => placeless_pure ()
  | item :: rest =>
      (placeless_arrayItem itemType declared item).bind fun _ => placeless_arrayItems itemType declared rest

end

theorem placeless_initialValue (ty : DataType) (declared : List (Option Expr)) (init : Option Expr) :
    Placeless (initialValue ty declared init) := by
  unfold initialValue
  split
  · exact placeless_zero ty declared
  · split
    · split
      · exact (placeless_arrayItems _ _ _).bind fun _ => placeless_finishArray _ _ _
      · exact placeless_expr _
    · exact placeless_converted _ _ _

theorem placeless_assignedValue (ty : DataType) (op : Option Arith) (current value : Expr) :
    Placeless (assignedValue ty op current value) := by
  cases op with
  | none => exact placeless_converted value .assignedValue ty
  | some op =>
      refine (placeless_binaryWith (.arith op) current value ?_ ?_).bind fun result => placeless_convert result ty
      · exact placeless_expr current
      · exact placeless_expr value

/-- A body that becomes a stream of its own starts at the front of this stream in any case. -/
theorem placeless_separately (body : Gen Unit) : Placeless (separately body) := by
  intro front generator
  rw [on_separately, on_separately]
  have hempty : { generator.behind front with out := Emitter.empty } = { generator with out := Emitter.empty } := rfl
  rw [hempty]
  rcases body.on { generator with out := .empty } with ⟨error | value, after⟩
  · exact .error (fun _ => rfl) rfl
  · exact .ok rfl

theorem placeless_declareFunction (id : SymbolId) (params : List SymbolId) :
    Placeless (declareFunction id params) := by
  intro front generator
  obtain ⟨context, out⟩ := generator
  rw [Generator.behind, on_declareFunction, on_declareFunction]
  cases context.declareFunction id params with
  | error error => exact .error (fun _ => rfl) rfl
  | ok entered => exact .ok rfl

theorem placeless_defineFunction (id : SymbolId) (code : Stream) : Placeless (defineFunction id code) :=
  fun _ _ => .ok rfl

theorem placeless_loop (cond : Expr) {body : Gen Unit} (hbody : Placeless body) : Placeless (loop cond body) := by
  intro front
  -- where the loop starts and where its exit stands is told by other offsets, but only differences are emitted
  refine (shifts_here front).bind ?_
  rintro start _ rfl
  refine (placeless_expr cond front).bind fun _ _ _ => (shifts_emitJump front .jumpIfFalse).bind ?_
  rintro exit _ rfl
  refine (hbody front).bind fun _ _ _ => (shifts_emitJumpBack front start).bind fun _ _ _ => ?_
  exact shifts_patchToHere front exit

theorem placeless_arm (cond : Expr) {body others : Gen Unit} (hbody : Placeless body) (hothers : Placeless others) :
    Placeless (do
      expr cond
      let skip ← emitJump .jumpIfFalse
      body
      let exit ← emitJump .jump
      patchToHere skip
      others
      patchToHere exit) := by
  intro front
  refine (placeless_expr cond front).bind fun _ _ _ => (shifts_emitJump front .jumpIfFalse).bind ?_
  rintro skip _ rfl
  refine (hbody front).bind fun _ _ _ => (shifts_emitJump front .jump).bind ?_
  rintro exit _ rfl
  refine (shifts_patchToHere front skip).bind fun _ _ _ => (hothers front).bind fun _ _ _ => ?_
  exact shifts_patchToHere front exit

mutual

theorem placeless_stmt : (tree : Stmt) → Placeless (stmt tree)
  | .declare _ _ _ _ => (placeless_initialValue _ _ _).bind fun _ => placeless_emit _
  | .assign _ _ _ _ => (placeless_assignedValue _ _ _ _).bind fun _ => placeless_emit _
  | .assignElement _ _ _ _ _ =>
      (placeless_exprs _).bind fun _ => (placeless_assignedValue _ _ _ _).bind fun _ => placeless_emit _
  | .conditional list => placeless_branches list
  | .whileLoop cond body => placeless_loop cond (placeless_stmts body)
  | .forLoop init cond body => (placeless_stmt init).bind fun _ => placeless_loop cond (placeless_stmts body)
  | .function id params body =>
      (placeless_declareFunction id params).bind fun _ =>
        (placeless_separately (stmts body)).bind fun code => placeless_defineFunction id code
  | .ret none => placeless_emit _
  | .ret (some value) => (placeless_expr value).bind fun _ => placeless_emit _
  | .expr value => by
      refine (placeless_expr value).bind fun _ => ?_
      split
      · exact placeless_emit _
      · exact placeless_pure ()

theorem placeless_stmts : (list : List Stmt) → Placeless (stmts list)
  | [] => placeless_pure ()
  | first :: rest => (placeless_stmt first).bind fun _ => placeless_stmts rest

theorem placeless_branches : (list : Branches) → Placeless (branches list)
  | .otherwise body => placeless_stmts body
  | .arm cond body rest => placeless_arm cond (placeless_stmts body) (placeless_branches rest)

end

theorem stmts_append (first second : List Stmt) :
    stmts (first ++ second) = (stmts first >>= fun _ => stmts second) := by
  induction first with
  | nil => rfl
  | cons statement first ih =>
      rw [List.cons_append, stmts, stmts, ih]
      exact (bind_assoc _ _ _).symm

/-- A part that never fails to patch ends behind a stream as it ends by itself. -/
theorem Placeless.on_behind {part : Gen Unit} {code : List Instruction} {declared : List Declaration}
    (hpart : Placeless part) (hcompiles : Compiles part () code declared) (context : Context) (out : Emitter) :
    match part.on ⟨context, .empty⟩ with
    | (.ok _, after) => part.on ⟨context, out⟩ = (.ok (), ⟨after.context, ⟨out.code.append after.out.code⟩⟩)
    | (.error error, after) => ∃ left, part.on ⟨context, out⟩ = (.error error, ⟨after.context, left⟩) := by
  have hown := hcompiles .empty context
  have hshifted := hpart out.code ⟨context, .empty⟩
  have hout : Generator.behind out.code ⟨context, .empty⟩ = ⟨context, out⟩ :=
    congrArg (Generator.mk context) (Emitter.eq_of_toList (by simp [Emitter.behind, Stream.append, Emitter.empty,
      Stream.empty]))
  rw [hout] at hshifted
  generalize part.on ⟨context, .empty⟩ = alone at hown hshifted
  generalize part.on ⟨context, out⟩ = outcome at hshifted
  cases hshifted with
  | ok => rfl
  | @error error cause after left herror hcontext =>
      obtain ⟨hpatch, -⟩ := hown
      exact ⟨left.out, by rw [herror hpatch, ← hcontext]⟩

end Gen

/-- Compilation is compositional: two lists of statements are compiled together as one after the other in the context
that the first one leaves. So the bytes of a statement do not depend on what stands in front of it, and leave it as it
is. -/
theorem compile_append (context : Context) (first second : List Stmt) :
    (compile context (first ++ second) =
      match compile context first with
      | (.error error, between) => (.error error, between)
      | (.ok code, between) =>
        match compile between second with
        | (.error error, after) => (.error error, after)
        | (.ok rest, after) => (.ok (code.append rest), after)) ∧
    ∀ statement out, match compile context [statement] with
      | (.ok code, after) => (Gen.stmt statement).on ⟨context, out⟩ = (.ok (), ⟨after, ⟨out.code.append code⟩⟩)
      | (.error error, after) => ∃ left, (Gen.stmt statement).on ⟨context, out⟩ = (.error error, ⟨after, left⟩) := by
  constructor
  · rw [compile_eq, compile_eq, Gen.stmts_append, Gen.on_bind]
    rcases (Gen.stmts first).on ⟨context, .empty⟩ with ⟨error | value, between, out⟩
    · rfl
    · have hsecond := (Gen.placeless_stmts second).on_behind (Gen.compiles_stmts second) between out
      simp only [compile_eq]
      rcases halone : (Gen.stmts second).on ⟨between, .empty⟩ with ⟨error | value, after⟩ <;>
        rw [halone] at hsecond
      · obtain ⟨left, hsecond⟩ := hsecond
        rw [hsecond]
      · simp only [hsecond]
  · intro statement out
    have hstmt := (Gen.placeless_stmt statement).on_behind (Gen.compiles_stmt statement) context out
    have hsingle : Gen.stmts [statement] = Gen.stmt statement := bind_pure (Gen.stmt statement)
    rw [compile_eq, hsingle]
    rcases halone : (Gen.stmt statement).on ⟨context, .empty⟩ with ⟨error | value, after⟩ <;>
      rw [halone] at hstmt <;> exact hstmt

end StackCode
