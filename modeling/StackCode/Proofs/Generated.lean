import StackCode.Proofs.Declared

/-! What a compilation emits. A part of a compilation that succeeds has added the code of its tree; one that
fails has never failed at patching a jump. -/

namespace StackCode

namespace Gen

/-- What a part of a compilation makes of a generator. -/
def on {α : Type} (part : Gen α) (generator : Generator) : Except CompileError α × Generator :=
  part.run.run generator

theorem on_bind {α β : Type} (first : Gen α) (next : α → Gen β) (generator : Generator) :
    (first >>= next).on generator =
      match first.on generator with
      | (.ok value, after) => (next value).on after
      | (.error error, after) => (.error error, after) := by
  have hbind : (first >>= next).on generator =
      match first.on generator with
      | (result, after) => ExceptT.bindCont next result after := rfl
  rw [hbind]
  rcases first.on generator with ⟨error | value, after⟩ <;> rfl

/-- On success a part that starts at an emitter returns the value, adds the code and enters the declared
functions. -/
def CompilesAt {α : Type} (out : Emitter) (part : Gen α) (value : α) (code : List Instruction)
    (declared : List Declaration) : Prop :=
  ∀ context, match part.on ⟨context, out⟩ with
    | (.ok result, after) =>
      result = value ∧ after.out = out.emitAll code ∧ context.Declares declared after.context
    | (.error error, after) => error.isPatch = false ∧ context.DeclaresPart declared after.context

/-- The value and the code do not depend on where the part starts. -/
def Compiles {α : Type} (part : Gen α) (value : α) (code : List Instruction) (declared : List Declaration) :
    Prop :=
  ∀ out, CompilesAt out part value code declared

/-- A part that declares nothing. -/
abbrev Emits {α : Type} (part : Gen α) (value : α) (code : List Instruction) : Prop :=
  Compiles part value code []

section Compiles

variable {α β : Type} {out : Emitter} {part : Gen α} {value : α} {code rest : List Instruction}
  {declared further : List Declaration}

theorem CompilesAt.bind {next : α → Gen β} {result : β} (hpart : CompilesAt out part value code declared)
    (hnext : CompilesAt (out.emitAll code) (next value) result rest further) :
    CompilesAt out (part >>= next) result (code ++ rest) (declared ++ further) := by
  intro context
  rw [on_bind]
  have hfirst := hpart context
  rcases hrun : part.on ⟨context, out⟩ with ⟨error | found, between⟩ <;> rw [hrun] at hfirst
  · obtain ⟨herror, hdeclares⟩ := hfirst
    exact ⟨herror, hdeclares.mono fun _ hmem => List.mem_append_left _ hmem⟩
  · obtain ⟨middle, emitted⟩ := between
    obtain ⟨rfl, rfl, hdeclares⟩ := hfirst
    have hsecond := hnext middle
    change match (next found).on ⟨middle, out.emitAll code⟩ with | (.ok _, _) => _ | (.error _, _) => _
    rcases hrun : (next found).on ⟨middle, out.emitAll code⟩ with ⟨error | result', after⟩ <;>
      rw [hrun] at hsecond
    · exact ⟨hsecond.1, hdeclares.part.trans hsecond.2⟩
    · refine ⟨hsecond.1, ?_, hdeclares.append hsecond.2.2⟩
      rw [hsecond.2.1, Emitter.emitAll_append]

theorem Compiles.bind {next : α → Gen β} {result : β} (hpart : Compiles part value code declared)
    (hnext : Compiles (next value) result rest further) :
    Compiles (part >>= next) result (code ++ rest) (declared ++ further) :=
  fun out => (hpart out).bind (hnext (out.emitAll code))

theorem emits_pure (value : α) : Emits (pure value) value [] :=
  fun _ context => ⟨rfl, rfl, context.declares_nil⟩

theorem emits_emitAll (code : List Instruction) : Emits (emitAll code) () code :=
  fun _ context => ⟨rfl, rfl, context.declares_nil⟩

theorem emits_emit (instruction : Instruction) : Emits (emit instruction) () [instruction] :=
  fun _ context => ⟨rfl, rfl, context.declares_nil⟩

/-- A part that always fails compiles to anything. -/
theorem compiles_throw {error : CompileError} (herror : error.isPatch = false) :
    Compiles (throw error) value code declared :=
  fun _ context => ⟨herror, context.declaresPart_refl declared⟩

theorem Compiles.fromExcept_bind {result : Except CompileError β} {next : β → Gen α}
    (herror : ∀ error, result = .error error → error.isPatch = false)
    (hok : ∀ found, result = .ok found → Compiles (next found) value code declared) :
    Compiles (fromExcept result >>= next) value code declared := by
  cases result with
  | ok found => exact hok found rfl
  | error error => exact compiles_throw (herror error rfl)

end Compiles
end Gen

theorem Expr.requireType_eq_ok {expr : Expr} {place : TypedPlace} {ty : DataType}
    (hrequire : expr.requireType place = .ok ty) : expr.ty = some ty := by
  unfold requireType at hrequire
  split at hrequire
  · rename_i found hfound
    cases hrequire
    exact hfound
  · cases hrequire

theorem Expr.isPatch_of_requireType {expr : Expr} {place : TypedPlace} (error : CompileError)
    (hrequire : expr.requireType place = .error error) : error.isPatch = false := by
  unfold requireType at hrequire
  split at hrequire <;> cases hrequire
  rfl

theorem BinaryOp.isPatch_of_widening {op : BinaryOp} {family : Family} {ty : DataType} (error : CompileError)
    (hwidening : op.widening family ty = .error error) : error.isPatch = false := by
  unfold widening at hwidening
  split at hwidening <;> repeat' split at hwidening
  all_goals
    cases hwidening
    try rfl

theorem DataType.isPatch_of_checkDepth (depth : Nat) {ty : DataType} (error : CompileError)
    (hcheck : ty.checkDepth depth = .error error) : error.isPatch = false := by
  induction depth generalizing ty with
  | zero => cases hcheck
  | succ depth ih =>
      unfold checkDepth at hcheck
      split at hcheck
      · exact ih hcheck
      · cases hcheck
        rfl

namespace Gen

theorem emits_checkDepth (ty : Option DataType) (depth : Nat) : Emits (checkDepth ty depth) () [] := by
  cases ty with
  | none => exact emits_pure ()
  | some ty =>
      have hcheck : Emits (fromExcept (ty.checkDepth depth) >>= pure) () [] :=
        .fromExcept_bind (DataType.isPatch_of_checkDepth depth) fun _ _ => emits_pure ()
      rwa [bind_pure] at hcheck

/-- The arity that is expected may depend on the context, but is only compared. -/
theorem emits_compareArity (id : SymbolId) (found : Nat) (expected : Option Nat) :
    Emits (match expected with
      | some expected => if expected ≠ found then throw (.arityMismatch id expected found) else pure ()
      | none => pure () : Gen Unit) () [] := by
  cases expected with
  | none => exact emits_pure ()
  | some expected =>
      by_cases hne : expected ≠ found
      · simp only [if_pos hne]
        exact compiles_throw rfl
      · simp only [if_neg hne]
        exact emits_pure ()

theorem emits_checkArity (id : SymbolId) (found : Nat) : Emits (checkArity id found) () [] := by
  intro out context
  rw [checkArity, on_bind, expectedArity]
  by_cases hreserved : isReserved id = true
  · rw [if_pos hreserved]
    cases Builtin.ofId? id with
    | none => exact ⟨rfl, context.declaresPart_refl []⟩
    | some builtin => exact emits_compareArity id found (some builtin.arity) out context
  · rw [if_neg hreserved]
    exact emits_compareArity id found (context.arity? id) out context

theorem emits_unary (op : UnaryOp) {operand : Expr} {code : List Instruction}
    (hoperand : Emits (expr operand) () code) :
    Emits (do
      let operation ← unaryOperation op operand
      expr operand
      operate operation) () (code ++ [.operate (op.operationOn operand.ty)]) := by
  simp only [unaryOperation, bind_assoc]
  refine .fromExcept_bind Expr.isPatch_of_requireType fun ty hrequire => ?_
  rw [Expr.requireType_eq_ok hrequire]
  cases hoperation : op.operation? ty.family? with
  | none => exact compiles_throw rfl
  | some operation =>
      have htail : op.operationOn (some ty) = operation := by simp [UnaryOp.operationOn, hoperation]
      rw [htail, pure_bind]
      exact hoperand.bind (emits_emit _)

/-- The part of a binary operator that is the same for all families. -/
theorem emits_joined (op : BinaryOp) (family : Family) (operation : Operation) (leftType rightType : DataType)
    {emitLeft emitRight : Gen Unit} {left right : List Instruction} (hleft : Emits emitLeft () left)
    (hright : Emits emitRight () right) (result : DataType) :
    Emits (do
      emitLeft
      emitAll (← fromExcept (op.widening family leftType))
      emitRight
      emitAll (← fromExcept (op.widening family rightType))
      operate operation
      return result) result
      (left ++ (Code.widening op (some family) (some leftType) ++ (right ++
        (Code.widening op (some family) (some rightType) ++ ([.operate operation] ++ []))))) := by
  refine hleft.bind (.fromExcept_bind BinaryOp.isPatch_of_widening fun first hfirst => ?_)
  have hcode : Code.widening op (some family) (some leftType) = first := by
    simp [Code.widening, hfirst, Except.toOption]
  rw [hcode]
  refine (emits_emitAll first).bind (hright.bind
    (.fromExcept_bind BinaryOp.isPatch_of_widening fun second hsecond => ?_))
  have hcode : Code.widening op (some family) (some rightType) = second := by
    simp [Code.widening, hsecond, Except.toOption]
  rw [hcode]
  exact (emits_emitAll second).bind ((emits_emit _).bind (emits_pure result))

/-- Operands whose families do not meet are refused, so the operator has a family where code results. -/
theorem emits_binaryWith (op : BinaryOp) {left right : Expr} {emitLeft emitRight : Gen Unit}
    {leftCode rightCode : List Instruction} (hleft : Emits emitLeft () leftCode)
    (hright : Emits emitRight () rightCode) :
    Emits (binaryWith op left right emitLeft emitRight) (BinaryOp.typeOn op left.ty right.ty)
      (Code.binary op left.ty right.ty leftCode rightCode) := by
  refine .fromExcept_bind Expr.isPatch_of_requireType fun leftType hleftType => ?_
  refine .fromExcept_bind Expr.isPatch_of_requireType fun rightType hrightType => ?_
  rw [Expr.requireType_eq_ok hleftType, Expr.requireType_eq_ok hrightType]
  have hfamilies : ∀ (family : Family) (operation : Operation), op.operationOn (some family) = operation →
      BinaryOp.familyOn op (some leftType) (some rightType) = some family →
      Emits (do
        emitLeft
        emitAll (← fromExcept (op.widening family leftType))
        emitRight
        emitAll (← fromExcept (op.widening family rightType))
        operate operation
        return op.resultType leftType family)
        (BinaryOp.typeOn op (some leftType) (some rightType))
        (Code.binary op (some leftType) (some rightType) leftCode rightCode) := by
    intro family operation hoperation hfamily
    simp only [Code.binary, BinaryOp.typeOn, hfamily, hoperation, List.append_assoc]
    exact emits_joined op family operation leftType rightType hleft hright _
  cases op with
  | logic connective =>
      simp only [Code.binary, BinaryOp.familyOn, Code.widening, BinaryOp.operationOn, List.append_assoc]
      exact hleft.bind (hright.bind ((emits_emit _).bind (emits_pure DataType.bool)))
  | _ =>
      simp only
      cases hfamily : BinaryOp.familyOf? leftType rightType with
      | none => exact compiles_throw rfl
      | some family =>
          simp only
          cases hoperation : BinaryOp.operation? _ family with
          | none => exact compiles_throw rfl
          | some operation =>
              exact hfamilies family operation (by simp [BinaryOp.operationOn, hoperation]) hfamily

mutual

theorem emits_expr : (tree : Expr) → Emits (expr tree) () (Code.expr tree)
  | .literal value _ => emits_emitAll value.code
  | .var id _ => emits_emit (.load id)
  | .array items _ => (emits_exprs items).bind (emits_emit _)
  | .unary op operand _ => emits_unary op (emits_expr operand)
  | .binary op left right _ => by
      rw [Code.expr, ← List.append_nil (Code.binary _ _ _ _ _)]
      exact (emits_binaryWith op (emits_expr left) (emits_expr right)).bind (emits_pure ())
  | .subscript base index _ => by
      rw [expr, Code.expr]
      cases base.root? with
      | some root =>
          simp only [List.append_assoc]
          exact (emits_checkDepth _ _).bind ((emits_expr index).bind ((emits_subscripts base).bind (emits_emit _)))
      | none =>
          simp only [List.append_assoc]
          exact (emits_checkDepth _ _).bind ((emits_expr base).bind ((emits_expr index).bind (emits_emit _)))
  | .call id args _ => (emits_checkArity id _).bind ((emits_exprs args).bind (emits_emit _))

theorem emits_exprs : (list : List Expr) → Emits (exprs list) () (Code.exprs list)
  | [] => emits_pure ()
  | item :: rest => (emits_expr item).bind (emits_exprs rest)

theorem emits_subscripts : (tree : Expr) → Emits (subscripts tree) () (Code.subscripts tree)
  | .subscript base index _ => (emits_expr index).bind (emits_subscripts base)
  | .literal _ _ | .var _ _ | .array _ _ | .unary _ _ _ | .binary _ _ _ _ | .call _ _ _ => emits_pure ()

end

theorem emits_convert (source target : DataType) :
    Emits (convert source target) () (Code.conversion (some source) target) := by
  rw [convert, Code.conversion, Option.bind_some]
  cases source.conversion? target with
  | none => exact emits_pure ()
  | some operation => exact emits_emit _

theorem emits_converted (value : Expr) (place : TypedPlace) (target : DataType) :
    Emits (converted value place target) () (Code.converted value target) := by
  refine (emits_expr value).bind (.fromExcept_bind Expr.isPatch_of_requireType fun ty hrequire => ?_)
  rw [Expr.requireType_eq_ok hrequire]
  exact emits_convert ty target

theorem emits_sizes : (dims : Nat) → (declared : List (Option Expr)) →
    Emits (sizes dims declared) () (Code.sizes dims declared)
  | 0, _ => emits_pure ()
  | dims + 1, [] => (emits_emit _).bind (emits_sizes dims [])
  | dims + 1, none :: rest => (emits_emit _).bind (emits_sizes dims rest)
  | dims + 1, some size :: rest => (emits_expr size).bind (emits_sizes dims rest)

theorem emits_zero (ty : DataType) (declared : List (Option Expr)) :
    Emits (zero ty declared) () (Code.zero ty declared) := by
  rw [zero, Code.zero]
  split
  · exact (emits_sizes ty.dims declared).bind (emits_emit _)
  · exact emits_emit _

theorem emits_padding (ty : DataType) (declared : List (Option Expr)) : (count : Nat) →
    Emits (padding ty declared count) () (Code.padding ty declared count)
  | 0 => emits_pure ()
  | count + 1 => (emits_zero ty declared).bind (emits_padding ty declared count)

theorem emits_finishArray (itemType : DataType) (declared : List (Option Expr)) (found : Nat) :
    Emits (finishArray itemType declared found) () (Code.finishArray itemType declared found) :=
  (emits_padding itemType declared.tail _).bind (emits_emit _)

mutual

theorem emits_arrayItem (itemType : DataType) (declared : List (Option Expr)) :
    (item : Expr) → Emits (arrayItem itemType declared item) () (Code.arrayItem itemType declared item)
  | .array items ty => by
      rw [arrayItem, Code.arrayItem]
      split
      · exact (emits_arrayItems itemType.itemType declared.tail items).bind (emits_finishArray _ _ _)
      · exact emits_converted _ _ _
  | .literal _ _ | .var _ _ | .unary _ _ _ | .binary _ _ _ _ | .subscript _ _ _ | .call _ _ _ =>
      emits_converted _ _ _

theorem emits_arrayItems (itemType : DataType) (declared : List (Option Expr)) :
    (items : List Expr) → Emits (arrayItems itemType declared items) () (Code.arrayItems itemType declared items)
  | [] => emits_pure ()
  | item :: rest => (emits_arrayItem itemType declared item).bind (emits_arrayItems itemType declared rest)

end

theorem emits_arrayLiteral (ty : DataType) (declared : List (Option Expr)) (items : List Expr) :
    Emits (arrayLiteral ty declared items) () (Code.arrayLiteral ty declared items) :=
  (emits_arrayItems ty.itemType declared.tail items).bind (emits_finishArray ty.itemType declared _)

theorem emits_initialValue (ty : DataType) (declared : List (Option Expr)) (init : Option Expr) :
    Emits (initialValue ty declared init) () (Code.initialValue ty declared init) := by
  cases init with
  | none => exact emits_zero ty declared
  | some value =>
      unfold initialValue Code.initialValue
      simp only
      split
      · cases value with
        | array items _ => exact emits_arrayLiteral ty declared items
        | _ => exact emits_expr _
      · exact emits_converted value .initializer ty

theorem emits_assignedValue (ty : DataType) (op : Option Arith) (current value : Expr) :
    Emits (assignedValue ty op current value) () (Code.assignedValue ty op current value) := by
  cases op with
  | none => exact emits_converted value .assignedValue ty
  | some op =>
      exact (emits_binaryWith (.arith op) (emits_expr current) (emits_expr value)).bind (emits_convert _ ty)

end Gen

theorem Stream.toList_overwrite (new : List UInt8) {front old back : List UInt8} {bytes : Array UInt8}
    (hbytes : bytes.toList = front ++ old ++ back) (hlength : new.length = old.length) :
    (overwrite bytes front.length new).toList = front ++ new ++ back := by
  induction new generalizing front old bytes with
  | nil =>
      obtain rfl := List.length_eq_zero_iff.mp hlength.symm
      exact hbytes
  | cons byte new ih =>
      cases old with
      | nil => cases hlength
      | cons first old =>
          have hset : (bytes.setIfInBounds front.length byte).toList = (front ++ [byte]) ++ old ++ back := by
            rw [Array.toList_setIfInBounds, hbytes]
            simp
          have hrest := ih hset (Nat.succ.inj hlength)
          rw [List.length_append, List.length_singleton] at hrest
          rw [overwrite, hrest]
          simp

/-- A jump can be patched at any later time, whatever its distance was, and then leads over all that was emitted
since. -/
theorem Emitter.patchToHere_emitAll (out : Emitter) {opcode : Opcode} (hlayout : opcode.layout = .word)
    (word : UInt64) (code : List Instruction) :
    ((out.emit (.withWord opcode word)).emitAll code).patchToHere (out.nextSite opcode) =
      .ok ((out.emit (Code.jumpOver opcode code)).emitAll code) := by
  have hlength : opcode.encodedLength = 1 + Layout.wordBytes := by
    rw [Opcode.encodedLength, hlayout]
    rfl
  have hemit : (out.emit (.withWord opcode word)).here = out.here + opcode.encodedLength :=
    Stream.size_push out.code (.withWord opcode word)
  have hhere : ((out.emit (.withWord opcode word)).emitAll code).here =
      out.here + opcode.encodedLength + codeSize code := by
    rw [here_emitAll, hemit]
  have hroom : (out.nextSite opcode).offset + 1 + Layout.wordBytes ≤
      ((out.emit (.withWord opcode word)).emitAll code).code.size := by
    change out.here + 1 + Layout.wordBytes ≤ ((out.emit (.withWord opcode word)).emitAll code).here
    omega
  have hdistance : ((out.emit (.withWord opcode word)).emitAll code).here -
      ((out.nextSite opcode).offset + (out.nextSite opcode).length) = codeSize code := by
    rw [hhere]
    exact Nat.add_sub_cancel_left ..
  have hbytes : ((out.emit (.withWord opcode word)).emitAll code).code.bytes.toList =
      (out.code.bytes.toList ++ [opcode.byte]) ++ littleEndian Layout.wordBytes word.toNat ++ encodeAll code := by
    rw [toList_emitAll, toList_emit]
    simp [Instruction.encode, Instruction.withWord, hlayout, Operand.encode, Operand.pattern, Layout.wordBytes]
  have hoverwrite := Stream.toList_overwrite
    (littleEndian Layout.wordBytes (UInt64.ofNat (codeSize code)).toNat) hbytes (by simp)
  rw [patchToHere, hdistance, Stream.patchWord, if_pos hroom]
  refine congrArg Except.ok (eq_of_toList ?_)
  have hfront : (out.code.bytes.toList ++ [opcode.byte]).length = out.here + 1 := by simp [here, Stream.size]
  rw [hfront] at hoverwrite
  rw [toList_emitAll, toList_emit]
  refine hoverwrite.trans ?_
  simp [Code.jumpOver, Instruction.encode, Instruction.withWord, hlayout, Operand.encode, Operand.pattern,
    Layout.wordBytes]

namespace Gen

section Jumps

variable {α β : Type} {out : Emitter} {part : Gen α} {value : α} {front code rest : List Instruction}
  {declared further : List Declaration}

theorem compilesAt_here (out : Emitter) : CompilesAt out here out.here [] [] :=
  fun context => ⟨rfl, rfl, context.declares_nil⟩

theorem compilesAt_emitJump (out : Emitter) (opcode : Opcode) :
    CompilesAt out (emitJump opcode) (out.nextSite opcode) [.withWord opcode 0] [] :=
  fun context => ⟨rfl, rfl, context.declares_nil⟩

theorem compilesAt_emitJumpBack (out : Emitter) (target : Nat) :
    CompilesAt out (emitJumpBack target) () [.withWord .jumpBackward
      (UInt64.ofNat (out.here + Opcode.jumpBackward.encodedLength - target))] [] :=
  fun context => ⟨rfl, rfl, context.declares_nil⟩

theorem on_patchToHere {site : JumpSite} {patched : Emitter} (hpatch : out.patchToHere site = .ok patched)
    (context : Context) : (patchToHere site).on ⟨context, out⟩ = (.ok (), ⟨context, patched⟩) := by
  change (fromExcept (out.patchToHere site) >>= fun patched => modify fun generator =>
    { generator with out := patched } : Gen Unit).on ⟨context, out⟩ = _
  rw [hpatch]
  rfl

/-- A part that leaves a jump waiting, and what follows once the jump is patched. -/
theorem CompilesAt.patch {opcode : Opcode} (hlayout : opcode.layout = .word) (site : α → JumpSite)
    (next : α → Gen β) {result : β}
    (hpart : CompilesAt out part value (front ++ .withWord opcode 0 :: code) declared)
    (hsite : site value = (out.emitAll front).nextSite opcode)
    (hnext : CompilesAt (out.emitAll (front ++ Code.jumpOver opcode code :: code)) (next value) result rest
      further) :
    CompilesAt out (part >>= fun found => patchToHere (site found) >>= fun _ => next found) result
      (front ++ Code.jumpOver opcode code :: code ++ rest) (declared ++ further) := by
  intro context
  rw [on_bind]
  have hfirst := hpart context
  rcases hrun : part.on ⟨context, out⟩ with ⟨error | found, between⟩ <;> rw [hrun] at hfirst
  · obtain ⟨herror, hdeclares⟩ := hfirst
    exact ⟨herror, hdeclares.mono fun _ hmem => List.mem_append_left _ hmem⟩
  · obtain ⟨middle, emitted⟩ := between
    obtain ⟨rfl, rfl, hdeclares⟩ := hfirst
    have hpatch := (out.emitAll front).patchToHere_emitAll hlayout 0 code
    have hplaceholder : ((out.emitAll front).emit (.withWord opcode 0)).emitAll code =
        out.emitAll (front ++ .withWord opcode 0 :: code) := Emitter.emitAll_append out front (_ :: code)
    have hpatched : ((out.emitAll front).emit (Code.jumpOver opcode code)).emitAll code =
        out.emitAll (front ++ Code.jumpOver opcode code :: code) :=
      Emitter.emitAll_append out front (_ :: code)
    rw [← hsite, hplaceholder, hpatched] at hpatch
    have hsecond := hnext middle
    simp only [on_bind, on_patchToHere hpatch]
    rcases hrun : (next found).on ⟨middle, out.emitAll (front ++ Code.jumpOver opcode code :: code)⟩ with
      ⟨error | result', after⟩ <;> rw [hrun] at hsecond
    · exact ⟨hsecond.1, hdeclares.part.trans hsecond.2⟩
    · refine ⟨hsecond.1, ?_, hdeclares.append hsecond.2.2⟩
      rw [hsecond.2.1, Emitter.emitAll_append]

theorem CompilesAt.patch_last {part : Gen JumpSite} {opcode : Opcode} (hlayout : opcode.layout = .word)
    {site : JumpSite} (hpart : CompilesAt out part site (front ++ .withWord opcode 0 :: code) declared)
    (hsite : site = (out.emitAll front).nextSite opcode) :
    CompilesAt out (part >>= patchToHere) () (front ++ Code.jumpOver opcode code :: code) declared := by
  have hpatch := CompilesAt.patch hlayout id (fun _ => pure ()) hpart hsite (emits_pure () _)
  simpa using hpatch

theorem compiles_loop (cond : Expr) {body : Gen Unit} (hbody : Compiles body () code declared) :
    Compiles (loop cond body) () (Code.loop (Code.expr cond) code) declared := by
  intro out
  have hloop : loop cond body = (do
      let start ← here
      let exit ← (do
        expr cond
        let exit ← emitJump .jumpIfFalse
        body
        emitJumpBack start
        return exit)
      patchToHere exit) := by
    simp [loop]
  have hdistance : (((out.emitAll (Code.expr cond)).emitAll [.withWord .jumpIfFalse 0]).emitAll code).here +
      Opcode.jumpBackward.encodedLength - out.here = codeSize (Code.expr cond) +
        Opcode.jumpIfFalse.encodedLength + codeSize code + Opcode.jumpBackward.encodedLength := by
    have hjump : codeSize [.withWord .jumpIfFalse 0] = Opcode.jumpIfFalse.encodedLength := rfl
    rw [Emitter.here_emitAll, Emitter.here_emitAll, Emitter.here_emitAll, hjump]
    omega
  have hpart : CompilesAt out (do
      expr cond
      let exit ← emitJump .jumpIfFalse
      body
      emitJumpBack out.here
      return exit) ((out.emitAll (Code.expr cond)).nextSite .jumpIfFalse)
      (Code.expr cond ++ .withWord .jumpIfFalse 0 :: Code.loopBody (Code.expr cond) code) declared := by
    rw [Code.loopBody, ← hdistance, ← List.append_nil declared]
    exact (emits_expr cond out).bind ((compilesAt_emitJump _ .jumpIfFalse).bind
      ((hbody _).bind ((compilesAt_emitJumpBack _ out.here).bind (emits_pure _ _))))
  rw [hloop]
  exact (compilesAt_here out).bind (hpart.patch_last rfl rfl)

/-- An arm up to the jump behind its body, with the places of its two jumps. -/
theorem compilesAt_arm (out : Emitter) (cond : Expr) {body : Gen Unit} (hbody : Compiles body () code declared) :
    CompilesAt out (do
      expr cond
      let skip ← emitJump .jumpIfFalse
      body
      let exit ← emitJump .jump
      return (skip, exit))
      ((out.emitAll (Code.expr cond)).nextSite .jumpIfFalse,
        (((out.emitAll (Code.expr cond)).emitAll [.withWord .jumpIfFalse 0]).emitAll code).nextSite .jump)
      (Code.expr cond ++ .withWord .jumpIfFalse 0 :: (code ++ [.withWord .jump 0])) declared := by
  rw [← List.append_nil declared]
  exact (emits_expr cond out).bind ((compilesAt_emitJump _ .jumpIfFalse).bind
    ((hbody _).bind ((compilesAt_emitJump _ .jump).bind (emits_pure _ _))))

theorem compiles_branch (cond : Expr) {body others : Gen Unit} (hbody : Compiles body () code declared)
    (hothers : Compiles others () rest further) :
    Compiles (do
      expr cond
      let skip ← emitJump .jumpIfFalse
      body
      let exit ← emitJump .jump
      patchToHere skip
      others
      patchToHere exit) () (Code.branch (Code.expr cond) code rest) (declared ++ further) := by
  intro out
  -- the jumps overlap: the first leads behind the second, which is patched last
  have hskip : Code.jumpOver .jumpIfFalse (code ++ [Code.jumpOver .jump rest]) =
      Code.jumpOver .jumpIfFalse (code ++ [.withWord .jump 0]) := by
    simp only [Code.jumpOver, codeSize_append]
    rfl
  have hcode : Code.branch (Code.expr cond) code rest =
      (Code.expr cond ++ Code.jumpOver .jumpIfFalse (code ++ [.withWord .jump 0]) :: code) ++
        Code.jumpOver .jump rest :: rest := by
    simp [Code.branch, hskip]
  have hexit : CompilesAt out (do
      let sites ← (do
        expr cond
        let skip ← emitJump .jumpIfFalse
        body
        let exit ← emitJump .jump
        return (skip, exit))
      patchToHere sites.1
      others
      return sites.2)
      ((((out.emitAll (Code.expr cond)).emitAll [.withWord .jumpIfFalse 0]).emitAll code).nextSite .jump)
      ((Code.expr cond ++ Code.jumpOver .jumpIfFalse (code ++ [.withWord .jump 0]) :: code) ++
        .withWord .jump 0 :: rest) (declared ++ further) := by
    have hpatched := CompilesAt.patch rfl Prod.fst (fun sites => others >>= fun _ => pure sites.2)
      (compilesAt_arm out cond hbody) rfl ((hothers _).bind (emits_pure _ _))
    simpa using hpatched
  have hsite : ((((out.emitAll (Code.expr cond)).emitAll [.withWord .jumpIfFalse 0]).emitAll code).nextSite
      .jump) = (out.emitAll (Code.expr cond ++
        Code.jumpOver .jumpIfFalse (code ++ [.withWord .jump 0]) :: code)).nextSite .jump := by
    have hjump : (Code.jumpOver .jumpIfFalse (code ++ [.withWord .jump 0])).length =
      (Instruction.withWord .jumpIfFalse 0).length := rfl
    simp only [Emitter.nextSite, Emitter.here_emitAll, codeSize_append, codeSize_cons, codeSize_nil,
      Nat.add_assoc, Nat.add_zero, hjump]
  rw [hcode]
  simpa using hexit.patch_last rfl hsite

end Jumps

theorem on_separately (body : Gen Unit) (generator : Generator) :
    (separately body).on generator =
      match body.on { generator with out := .empty } with
      | (.ok _, after) => (.ok after.out.code, { after with out := generator.out })
      | (.error error, after) => (.error error, after) := by
  change (body >>= fun _ => get >>= fun after => modify (fun now => { now with out := generator.out }) >>=
    fun _ => pure after.out.code : Gen Stream).on { generator with out := .empty } = _
  rw [on_bind]
  rcases body.on { generator with out := .empty } with ⟨error | value, after⟩ <;> rfl

theorem on_declareFunction (id : SymbolId) (params : List SymbolId) (context : Context) (out : Emitter) :
    (declareFunction id params).on ⟨context, out⟩ =
      match context.declareFunction id params with
      | .ok entered => (.ok (), ⟨entered, out⟩)
      | .error error => (.error error, ⟨context, out⟩) := by
  change (fromExcept (context.declareFunction id params) >>= fun entered =>
    modify fun generator => { generator with context := entered } : Gen Unit).on ⟨context, out⟩ = _
  cases context.declareFunction id params <;> rfl

theorem compiles_function (declaration : Declaration) {declared : List Declaration}
    (hbody : Compiles (stmts declaration.body) () (Code.stmts declaration.body) declared) :
    Compiles (do
      declareFunction declaration.id declaration.params
      defineFunction declaration.id (← separately (stmts declaration.body))) () [] (declaration :: declared) := by
  intro out context
  rw [on_bind, on_declareFunction]
  cases hresult : context.declareFunction declaration.id declaration.params with
  | error error => exact ⟨Context.isPatch_of_declareFunction hresult, context.declaresPart_refl _⟩
  | ok entered =>
      obtain ⟨hreserved, hfresh, rfl⟩ := Context.declareFunction_eq_ok hresult
      have hcompiled := hbody .empty (context.enter declaration.id declaration.params)
      simp only [on_bind, on_separately]
      rcases hrun : (stmts declaration.body).on ⟨context.enter declaration.id declaration.params, .empty⟩
        with ⟨error | value, after⟩ <;> rw [hrun] at hcompiled
      · exact ⟨hcompiled.1, hcompiled.2.of_enter declaration hfresh⟩
      · obtain ⟨-, hout, hdeclares⟩ := hcompiled
        have hcode : after.out.code = declaration.function.code := by
          rw [hout, Emitter.code_emitAll_empty]
          rfl
        refine ⟨trivial, rfl, ?_⟩
        change context.Declares _ (after.context.defineFunction declaration.id after.out.code)
        rw [hcode]
        exact hdeclares.define declaration hreserved hfresh

mutual

theorem compiles_stmt : (tree : Stmt) → Compiles (stmt tree) () (Code.stmt tree) (Declaration.ofStmt tree)
  | .declare _ _ _ _ => (emits_initialValue _ _ _).bind (emits_emit _)
  | .assign _ _ _ _ => (emits_assignedValue _ _ _ _).bind (emits_emit _)
  | .assignElement id ty indices op value => by
      rw [Code.stmt, List.append_assoc]
      exact (emits_exprs _).bind ((emits_assignedValue _ _ _ _).bind (emits_emit _))
  | .conditional list => compiles_branches list
  | .whileLoop cond body => compiles_loop cond (compiles_stmts body)
  | .forLoop init cond body => (compiles_stmt init).bind (compiles_loop cond (compiles_stmts body))
  | .function id params body => compiles_function ⟨id, params, body⟩ (compiles_stmts body)
  | .ret none => emits_emit _
  | .ret (some value) => (emits_expr value).bind (emits_emit _)
  | .expr value => by
      refine (emits_expr value).bind ?_
      split
      · exact emits_emit _
      · exact emits_pure ()

theorem compiles_stmts : (list : List Stmt) → Compiles (stmts list) () (Code.stmts list) (Declaration.ofStmts list)
  | [] => emits_pure ()
  | first :: rest => (compiles_stmt first).bind (compiles_stmts rest)

theorem compiles_branches :
    (list : Branches) → Compiles (branches list) () (Code.branches list) (Declaration.ofBranches list)
  | .otherwise body => compiles_stmts body
  | .arm cond body rest => compiles_branch cond (compiles_stmts body) (compiles_branches rest)

end

end Gen

theorem compile_eq (context : Context) (statements : List Stmt) :
    compile context statements =
      match (Gen.stmts statements).on ⟨context, .empty⟩ with
      | (.ok _, after) => (.ok after.out.code, after.context)
      | (.error error, after) => (.error error, after.context) := by
  change (let (result, generator) := (Gen.stmts statements).on ⟨context, .empty⟩
    (result.map fun _ => generator.out.code, generator.context)) = _
  rcases (Gen.stmts statements).on ⟨context, .empty⟩ with ⟨error | value, after⟩ <;> rfl

/-- The stream of a compilation that succeeds, and the functions it enters. -/
theorem compile_of_ok {context after : Context} {statements : List Stmt} {code : Stream}
    (hcompile : compile context statements = (.ok code, after)) :
    code = .ofInstructions (Code.stmts statements) ∧
      context.Declares (Declaration.ofStmts statements) after := by
  have hcompiles := Gen.compiles_stmts statements .empty context
  rw [compile_eq] at hcompile
  rcases hrun : (Gen.stmts statements).on ⟨context, .empty⟩ with ⟨error | value, generator⟩ <;>
    rw [hrun] at hcompile hcompiles
  · cases hcompile
  · obtain ⟨-, hout, hdeclares⟩ := hcompiles
    cases hcompile
    rw [hout, Emitter.code_emitAll_empty]
    exact ⟨rfl, hdeclares⟩

/-- What a compilation that fails leaves behind. -/
theorem compile_of_error {context after : Context} {statements : List Stmt} {error : CompileError}
    (hcompile : compile context statements = (.error error, after)) :
    error.isPatch = false ∧ context.DeclaresPart (Declaration.ofStmts statements) after := by
  have hcompiles := Gen.compiles_stmts statements .empty context
  rw [compile_eq] at hcompile
  rcases hrun : (Gen.stmts statements).on ⟨context, .empty⟩ with ⟨error | value, generator⟩ <;>
    rw [hrun] at hcompile hcompiles
  · cases hcompile
    exact hcompiles
  · cases hcompile

end StackCode
