import StackCode.Proofs.Instructions

/-! The code of a tree carries out the tree. Expressions leave their value on the stack above what was there,
whatever that is; the depth of the stack is the number of values that the evaluation counts as pending. -/

namespace StackCode

namespace DataType

theorem not_isIntegral_of_isFloat {ty : DataType} (hfloat : ty.isFloat = true) : ty.isIntegral = false := by
  obtain ⟨base, dims⟩ := ty
  cases base <;> simp_all [isFloat, isIntegral, BaseType.isIntegral]

theorem not_isChar_of_isStr {ty : DataType} (hstr : ty.isStr = true) : ty.isChar = false := by
  obtain ⟨base, dims⟩ := ty
  cases base <;> simp_all [isStr, isChar]

end DataType

namespace Code

/-- No operand is brought down to an integer. -/
theorem widening_int (op : BinaryOp) (ty : DataType) : widening op (some .int) (some ty) = [] := by
  simp only [widening, BinaryOp.widening]
  split <;> rfl

/-- Only integers become floats; a float operand is one already. -/
theorem widening_float (op : BinaryOp) (ty : DataType) :
    widening op (some .float) (some ty) = if ty.isIntegral then [.operate .intToFloat] else [] := by
  simp only [widening, BinaryOp.widening]
  by_cases hfloat : ty.isFloat = true
  · rw [if_pos hfloat, if_neg (by simp [DataType.not_isIntegral_of_isFloat hfloat])]
    rfl
  · rw [if_neg hfloat]
    split <;> rfl

/-- A character becomes a text only where texts are joined. -/
theorem widening_str (op : BinaryOp) (ty : DataType) :
    widening op (some .str) (some ty) =
      if ty.isChar && op == .arith .add then [.call (Builtin.convert .charToStr).id] else [] := by
  simp only [widening, BinaryOp.widening]
  by_cases hstr : ty.isStr = true
  · rw [if_pos hstr, if_neg (by simp [DataType.not_isChar_of_isStr hstr])]
    rfl
  · rw [if_neg hstr]
    split <;> rfl

theorem one_le_codeSize_concat (code : List Instruction) (last : Instruction) :
    1 ≤ codeSize (code ++ [last]) := by
  have hlength := last.one_le_length
  rw [codeSize_append, codeSize_cons]
  omega

/-- No expression has empty code. So the numbers of items, sizes and subscripts that instructions state are bounded by
the size of the code which puts these on the stack, and fit into 64 bits with it. -/
theorem one_le_codeSize_expr (tree : Expr) : 1 ≤ codeSize (expr tree) := by
  cases tree with
  | literal value _ =>
      cases value with
      | str text => exact one_le_codeSize_concat _ _
      | _ => exact one_le_codeSize_concat [] _
  | var _ _ => exact one_le_codeSize_concat [] _
  | subscript base index _ =>
      rw [expr]
      split <;> exact one_le_codeSize_concat _ _
  | _ => exact one_le_codeSize_concat _ _

theorem length_le_codeSize_exprs (list : List Expr) : list.length ≤ codeSize (exprs list) := by
  induction list with
  | nil => exact Nat.le_refl 0
  | cons item rest ih =>
      have hitem := one_le_codeSize_expr item
      rw [exprs, codeSize_append, List.length_cons]
      omega

/-- There is code for the size of every level, declared or not. -/
theorem dims_le_codeSize_sizes : (dims : Nat) → (declared : List (Option Expr)) →
    dims ≤ codeSize (sizes dims declared)
  | 0, _ => Nat.zero_le _
  | dims + 1, [] => by
      have hfirst := (Instruction.pushInt 0).one_le_length
      have hrest := dims_le_codeSize_sizes dims []
      rw [sizes, codeSize_cons]
      omega
  | dims + 1, none :: rest => by
      have hfirst := (Instruction.pushInt 0).one_le_length
      have hrest := dims_le_codeSize_sizes dims rest
      rw [sizes, codeSize_cons]
      omega
  | dims + 1, some size :: rest => by
      have hfirst := one_le_codeSize_expr size
      have hrest := dims_le_codeSize_sizes dims rest
      rw [sizes, codeSize_append]
      omega

theorem one_le_codeSize_zero (ty : DataType) (declared : List (Option Expr)) :
    1 ≤ codeSize (zero ty declared) := by
  unfold zero
  split
  · exact one_le_codeSize_concat _ _
  · exact one_le_codeSize_concat [] _

theorem count_le_codeSize_padding (ty : DataType) (declared : List (Option Expr)) : (count : Nat) →
    count ≤ codeSize (padding ty declared count)
  | 0 => Nat.zero_le _
  | count + 1 => by
      have hfirst := one_le_codeSize_zero ty declared
      have hrest := count_le_codeSize_padding ty declared count
      rw [padding, codeSize_append]
      omega

theorem one_le_codeSize_converted (value : Expr) (target : DataType) : 1 ≤ codeSize (converted value target) := by
  have hvalue := one_le_codeSize_expr value
  rw [converted, codeSize_append]
  omega

/-- A nested literal ends in an allocation even if nothing is listed in it. -/
theorem one_le_codeSize_arrayItem (itemType : DataType) (declared : List (Option Expr)) (item : Expr) :
    1 ≤ codeSize (arrayItem itemType declared item) := by
  cases item with
  | array items ty =>
      rw [arrayItem]
      split
      · rw [finishArray, ← List.append_assoc]
        exact one_le_codeSize_concat _ _
      · exact one_le_codeSize_converted _ _
  | _ => exact one_le_codeSize_converted _ _

theorem length_le_codeSize_arrayItems (itemType : DataType) (declared : List (Option Expr)) (items : List Expr) :
    items.length ≤ codeSize (arrayItems itemType declared items) := by
  induction items with
  | nil => exact Nat.le_refl 0
  | cons item rest ih =>
      have hitem := one_le_codeSize_arrayItem itemType declared item
      rw [arrayItems, codeSize_append, List.length_cons]
      omega

/-- There is code for every subscript on the way to the variable. -/
theorem depth_le_codeSize_subscripts : (tree : Expr) → {root : Expr.Root} → tree.root? = some root →
    root.depth ≤ codeSize (subscripts tree)
  | .subscript base index _, root, hroot => by
      obtain ⟨inner, hinner, rfl⟩ := Option.map_eq_some_iff.mp hroot
      have hindex := one_le_codeSize_expr index
      have hbase := depth_le_codeSize_subscripts base hinner
      rw [subscripts, codeSize_append]
      change inner.depth + 1 ≤ _
      omega
  | .var _ _, _, hroot => by
      cases hroot
      exact Nat.zero_le _
  | .literal _ _, _, hroot | .array _ _, _, hroot | .unary _ _ _, _, hroot | .binary _ _ _ _, _, hroot
  | .call _ _ _, _, hroot => by cases hroot

end Code

/-- The machine carries out the calls that an evaluation makes. -/
def CallsCarried (environment : Environment) (fuel : Nat) (site : Site) (call : Call) : Prop :=
  ∀ id arguments below, Carries environment fuel site [.call id] (arguments.reverse ++ below)
    (call below.length id arguments) fun result => .normal (result.toList ++ below)

section Trees

open Evaluation

variable {environment : Environment} {fuel : Nat} {site : Site} {call : Call}

/-- There are as many values as expressions; the instruction behind them takes that many from the stack. -/
theorem yields_exprs (limits : Limits) (call : Call) : (list : List Expr) → (pending : Nat) →
    (Meaning.exprs limits call pending list).Yields (·.length = list.length)
  | [], _ => yields_pure rfl
  | _ :: rest, pending =>
      (yields_true _).bind fun _ _ => (yields_exprs limits call rest (pending + 1)).bind fun _ hlength =>
        yields_pure (congrArg (· + 1) hlength)

theorem yields_subscripts (limits : Limits) (call : Call) : (tree : Expr) → (pending : Nat) →
    {root : Expr.Root} → tree.root? = some root →
      (Meaning.subscripts limits call pending tree).Yields (·.length = root.depth)
  | .subscript base _ _, pending, root, hroot => by
      obtain ⟨inner, hinner, rfl⟩ := Option.map_eq_some_iff.mp hroot
      refine (yields_true _).bind fun last _ =>
        (yields_subscripts limits call base (pending + 1) hinner).bind fun path hlength => yields_pure ?_
      rw [List.length_append, hlength]
      rfl
  | .var _ _, _, _, hroot => by
      cases hroot
      exact yields_pure rfl
  | .literal _ _, _, _, hroot | .array _ _, _, _, hroot | .unary _ _ _, _, _, hroot
  | .binary _ _ _ _, _, _, hroot | .call _ _ _, _, _, hroot => by cases hroot

/-- Truths and characters are pushed as integers, and a text is joined from its characters. -/
theorem carries_literal (value : Literal) (stack : Stack) :
    Carries environment fuel site value.code stack (Meaning.literal environment.limits stack.length value)
      fun value => .normal (value :: stack) := by
  cases value with
  | bool truth => exact Carries.pushInt _ stack
  | char c => exact Carries.pushInt _ stack
  | int n => exact Carries.pushInt n stack
  | uint n => exact Carries.pushUInt n stack
  | float x => exact Carries.pushFloat x stack
  | str content => exact Carries.of_short (Carries.text content stack)

/-- The conversion returns a value whenever it returns, so its call stands for the value. -/
theorem carries_charToStr (x : Value) (below : Stack) :
    Carries environment fuel site [.call (Builtin.convert .charToStr).id] (x :: below)
      (do keep environment.limits below.length (← attempt (Conversion.charToStr.apply x)))
      fun value => .normal (value :: below) := by
  have hcall : Carries environment fuel site [.call (Builtin.convert .charToStr).id] (x :: below)
      (Meaning.callBuiltin environment.limits below.length (.convert .charToStr) [x]) _ :=
    Carries.callBuiltin rfl (Builtin.ofId?_id _) [x] below
  rw [← needed_map_some (do keep environment.limits below.length (← attempt (Conversion.charToStr.apply x)))]
  exact hcall.needed

/-- What is done to an operand before the other one is evaluated. -/
theorem carries_widened (op : BinaryOp) (family : Option Family) (ty : Option DataType) (x : Value)
    (below : Stack) :
    Carries environment fuel site (Code.widening op family ty) (x :: below)
      (Meaning.widened environment.limits below.length op family ty x)
      fun value => .normal (value :: below) := by
  cases ty with
  | none => rcases family with _ | _ | _ | _ <;> exact Carries.of_pure rfl
  | some ty =>
      rcases family with _ | _ | _ | _
      · exact Carries.of_pure rfl
      · rw [Code.widening_int]
        exact Carries.of_pure rfl
      · rw [Code.widening_float, Meaning.widened]
        split
        · exact Carries.operate_one rfl x below
        · exact Carries.of_pure rfl
      · rw [Code.widening_str, Meaning.widened]
        split
        · exact carries_charToStr x below
        · exact Carries.of_pure rfl

mutual

/-- An expression leaves its value on top of the stack, and a call without a value leaves nothing. The induction is
over the tree for all stacks at once: later operands are evaluated above earlier ones. -/
theorem carries_expr (hcalls : CallsCarried environment fuel site call) : (tree : Expr) → (stack : Stack) →
    Carries environment fuel site (Code.expr tree) stack
      (Meaning.expr environment.limits call stack.length tree)
      fun result => .normal (result.toList ++ stack)
  | .literal value _, stack => .map some (carries_literal value stack)
  | .var id _, stack => .map some (Carries.load id stack)
  | .array items _, stack => by
      refine .of_short fun hshort => .map some ?_
      refine .bind_of_yields (yields_exprs _ _ items stack.length) (carries_exprs hcalls items stack)
        fun values hlength => Carries.allocArray values stack ?_
      rw [hlength]
      refine toNat_ofNat_of_short (Nat.lt_of_le_of_lt ?_ hshort)
      rw [Code.expr, codeSize_append]
      exact Nat.le_add_right_of_le (Code.length_le_codeSize_exprs items)
  | .unary op operand _, stack =>
      .map some ((carries_expr hcalls operand stack).needed.bind fun x =>
        Carries.operate_one (op.arity_operationOn operand.ty) x stack)
  | .binary op left right _, stack => by
      rw [Code.expr, Code.binary]
      simp only [List.append_assoc]
      exact .map some ((carries_expr hcalls left stack).needed.bind fun a =>
        (carries_widened op _ left.ty a stack).bind fun x =>
          (carries_expr hcalls right (x :: stack)).needed.bind fun b =>
            (carries_widened op _ right.ty b (x :: stack)).bind fun y =>
              Carries.operate_two (op.arity_operationOn _) x y stack)
  | .subscript base index _, stack => by
      rw [Code.expr, Meaning.expr]
      refine .of_short fun hshort => ?_
      cases hroot : base.root? with
      | some root =>
          rw [hroot] at hshort
          simp only [List.append_assoc] at hshort ⊢
          refine .map some ((carries_expr hcalls index stack).needed.bind fun last => ?_)
          refine .bind_of_yields (yields_subscripts _ _ base _ hroot) (carries_subscripts hcalls base _)
            fun path hlength => ?_
          have hdepth : (UInt64.ofNat (root.depth + 1)).toNat = (path ++ [last]).length := by
            rw [List.length_append, hlength]
            refine toNat_ofNat_of_short (Nat.lt_of_le_of_lt ?_ hshort)
            have hindex := Code.one_le_codeSize_expr index
            have hbase := Code.depth_le_codeSize_subscripts base hroot
            rw [codeSize_append, codeSize_append]
            omega
          rw [List.append_cons path last stack]
          exact Carries.loadElement root.id (path ++ [last]) stack hdepth
      | none =>
          simp only [List.append_assoc]
          exact .map some ((carries_expr hcalls base stack).needed.bind fun container =>
            (carries_expr hcalls index (container :: stack)).needed.bind fun position =>
              Carries.operate_two rfl container position stack)
  | .call id args _, stack => (carries_exprs hcalls args stack).bind fun values => hcalls id values stack

/-- The last value lies on top. -/
theorem carries_exprs (hcalls : CallsCarried environment fuel site call) :
    (list : List Expr) → (stack : Stack) →
      Carries environment fuel site (Code.exprs list) stack
        (Meaning.exprs environment.limits call stack.length list)
        fun values => .normal (values.reverse ++ stack)
  | [], _ => .of_pure rfl
  | item :: rest, stack => (carries_expr hcalls item stack).needed.bind fun value => by
      have hrest := carries_exprs hcalls rest (value :: stack)
      refine .map (value :: ·) ?_
      simpa using hrest

/-- The last subscript is evaluated first, so that the outermost one lies on top. -/
theorem carries_subscripts (hcalls : CallsCarried environment fuel site call) :
    (tree : Expr) → (stack : Stack) →
      Carries environment fuel site (Code.subscripts tree) stack
        (Meaning.subscripts environment.limits call stack.length tree) fun path => .normal (path ++ stack)
  | .subscript base index _, stack => (carries_expr hcalls index stack).needed.bind fun last => by
      have hrest := carries_subscripts hcalls base (last :: stack)
      refine .map (· ++ [last]) ?_
      simpa using hrest
  | .literal _ _, _ | .var _ _, _ | .array _ _, _ | .unary _ _ _, _ | .binary _ _ _ _, _ | .call _ _ _, _ =>
      .of_pure rfl

end

/-- Where a value is needed, a call without one is undefined, and nothing is claimed of the code. -/
theorem carries_value (hcalls : CallsCarried environment fuel site call) (tree : Expr) (stack : Stack) :
    Carries environment fuel site (Code.expr tree) stack
      (Meaning.value environment.limits call stack.length tree) fun value => .normal (value :: stack) :=
  (carries_expr hcalls tree stack).needed

theorem arity_of_conversion? {source target : DataType} {operation : Operation}
    (hconversion : source.conversion? target = some operation) : operation.arity = 1 := by
  unfold DataType.conversion? at hconversion
  repeat' split at hconversion
  all_goals cases hconversion <;> rfl

/-- Between types of one family there is no code, and the value stays as it is. -/
theorem carries_convert (source : Option DataType) (target : DataType) (x : Value) (below : Stack) :
    Carries environment fuel site (Code.conversion source target) (x :: below)
      (Meaning.convert environment.limits below.length source target x) fun value => .normal (value :: below) := by
  unfold Code.conversion Meaning.convert
  cases hconversion : source.bind (·.conversion? target) with
  | none => exact Carries.of_pure rfl
  | some operation =>
      obtain ⟨ty, -, hoperation⟩ := Option.bind_eq_some_iff.mp hconversion
      exact Carries.operate_one (arity_of_conversion? hoperation) x below

theorem carries_converted (hcalls : CallsCarried environment fuel site call) (tree : Expr) (target : DataType)
    (stack : Stack) :
    Carries environment fuel site (Code.converted tree target) stack
      (Meaning.converted environment.limits call stack.length tree target)
      fun value => .normal (value :: stack) :=
  (carries_value hcalls tree stack).bind fun x => carries_convert tree.ty target x stack

/-- A size that is not declared is zero. -/
theorem carries_sizes (hcalls : CallsCarried environment fuel site call) : (dims : Nat) →
    (declared : List (Option Expr)) → (stack : Stack) →
      Carries environment fuel site (Code.sizes dims declared) stack
        (Meaning.sizes environment.limits call stack.length dims declared)
        fun values => .normal (values.reverse ++ stack)
  | 0, _, _ => .of_pure rfl
  | dims + 1, [], stack => (Carries.pushInt 0 stack).bind fun size => by
      refine .map (size :: ·) ?_
      simpa using carries_sizes hcalls dims [] (size :: stack)
  | dims + 1, none :: rest, stack => (Carries.pushInt 0 stack).bind fun size => by
      refine .map (size :: ·) ?_
      simpa using carries_sizes hcalls dims rest (size :: stack)
  | dims + 1, some size :: rest, stack => (carries_value hcalls size stack).bind fun size => by
      refine .map (size :: ·) ?_
      simpa using carries_sizes hcalls dims rest (size :: stack)

/-- The empty text is joined from no characters; the other zeros are pushed. -/
theorem carries_zeroScalar (ty : DataType) (stack : Stack) :
    Carries environment fuel site [ty.zeroScalar] stack
      (keep environment.limits stack.length (.zero ty.leafKind)) fun value => .normal (value :: stack) := by
  obtain ⟨base, dims⟩ := ty
  cases base with
  | float => exact Carries.pushFloat .zero stack
  | uint width => exact Carries.pushUInt 0 stack
  | str =>
      refine Carries.of_push (fun _ => .ok (.str "")) (fun _ => rfl) fun locals globals next current => ?_
      change (Stack.popMany 0 stack >>= fun popped => Frame.joinChars popped.1 >>= fun chars =>
        Frame.pushOn _ environment.limits popped.2 (.str (String.ofList chars)) >>= fun frame =>
          .ok (Action.proceed frame globals)) = _
      have hnone : Stack.popMany 0 stack = .ok ([], stack) := Stack.popMany_append [] stack rfl
      rw [hnone]
      rfl
  | bool => exact Carries.pushInt 0 stack
  | char => exact Carries.pushInt 0 stack
  | int width => exact Carries.pushInt 0 stack

theorem yields_sizes (limits : Limits) (call : Call) : (dims pending : Nat) → (declared : List (Option Expr)) →
    (Meaning.sizes limits call pending dims declared).Yields (·.length = dims)
  | 0, _, _ => yields_pure rfl
  | dims + 1, pending, declared =>
      (yields_true _).bind fun _ _ => (yields_sizes limits call dims (pending + 1) declared.tail).bind
        fun _ hlength => yields_pure (congrArg (· + 1) hlength)

theorem yields_padding (limits : Limits) (call : Call) (ty : DataType) (declared : List (Option Expr)) :
    (count pending : Nat) → (Meaning.padding limits call pending ty declared count).Yields (·.length = count)
  | 0, _ => yields_pure rfl
  | count + 1, pending =>
      (yields_true _).bind fun _ _ => (yields_padding limits call ty declared count (pending + 1)).bind
        fun _ hlength => yields_pure (congrArg (· + 1) hlength)

theorem yields_arrayItems (limits : Limits) (call : Call) (itemType : DataType) (declared : List (Option Expr)) :
    (items : List Expr) → (pending : Nat) →
      (Meaning.arrayItems limits call pending itemType declared items).Yields (·.length = items.length)
  | [], _ => yields_pure rfl
  | _ :: rest, pending =>
      (yields_true _).bind fun _ _ => (yields_arrayItems limits call itemType declared rest (pending + 1)).bind
        fun _ hlength => yields_pure (congrArg (· + 1) hlength)

/-- The zero of an array type is allocated with a size for each dimension. -/
theorem carries_zero (hcalls : CallsCarried environment fuel site call) (ty : DataType)
    (declared : List (Option Expr)) (stack : Stack) :
    Carries environment fuel site (Code.zero ty declared) stack
      (Meaning.zero environment.limits call stack.length ty declared) fun value => .normal (value :: stack) := by
  unfold Code.zero Meaning.zero
  split
  · refine .of_short fun hshort => ?_
    refine .bind_of_yields (yields_sizes _ _ ty.dims _ declared) (carries_sizes hcalls ty.dims declared stack)
      fun values hlength => Carries.allocFilled ty.leafKind values stack ?_
    rw [hlength]
    refine toNat_ofNat_of_short (Nat.lt_of_le_of_lt ?_ hshort)
    rw [Code.zeroArray, codeSize_append]
    exact Nat.le_add_right_of_le (Code.dims_le_codeSize_sizes ty.dims declared)
  · exact carries_zeroScalar ty stack

theorem carries_padding (hcalls : CallsCarried environment fuel site call) (ty : DataType)
    (declared : List (Option Expr)) : (count : Nat) → (stack : Stack) →
      Carries environment fuel site (Code.padding ty declared count) stack
        (Meaning.padding environment.limits call stack.length ty declared count)
        fun values => .normal (values.reverse ++ stack)
  | 0, _ => .of_pure rfl
  | count + 1, stack => (carries_zero hcalls ty declared stack).bind fun item => by
      refine .map (item :: ·) ?_
      simpa using carries_padding hcalls ty declared count (item :: stack)

/-- Items that lie on the stack are completed by zeros up to the declared size and put into an array. All of them had
code, so the instruction can state their number. -/
theorem carries_paddedArray (hcalls : CallsCarried environment fuel site call) (itemType : DataType)
    (declared : List (Option Expr)) (items : List Value) (below : Stack)
    (hshort : items.length + codeSize (Code.finishArray itemType declared items.length) <
      Instruction.offsetBound) :
    Carries environment fuel site (Code.finishArray itemType declared items.length) (items.reverse ++ below)
      (Meaning.paddedArray environment.limits call below.length itemType declared items)
      fun value => .normal (value :: below) := by
  have hpending : below.length + items.length = (items.reverse ++ below).length := by
    rw [List.length_append, List.length_reverse, Nat.add_comm]
  have hmissing : max items.length ((Gen.declaredSize? declared).getD 0) - items.length =
      (Gen.declaredSize? declared).getD 0 - items.length := by
    omega
  rw [Code.finishArray, codeSize_append] at hshort
  rw [Code.finishArray, Meaning.paddedArray, hpending]
  rw [hmissing] at hshort ⊢
  refine .bind_of_yields (yields_padding _ _ _ _ _ _) (carries_padding hcalls itemType declared.tail _ _)
    fun zeros hlength => ?_
  have hstack : zeros.reverse ++ (items.reverse ++ below) = (items ++ zeros).reverse ++ below := by simp
  rw [hstack]
  refine Carries.allocArray (items ++ zeros) below ?_
  have hzeros := Code.count_le_codeSize_padding itemType declared.tail
    ((Gen.declaredSize? declared).getD 0 - items.length)
  rw [List.length_append, hlength, toNat_ofNat_of_short (by omega)]
  omega

/-- The items of an array literal and what is added to them. -/
theorem carries_finished (hcalls : CallsCarried environment fuel site call) (itemType : DataType)
    (declared : List (Option Expr)) (items : List Expr) (stack : Stack)
    (hitems : Carries environment fuel site (Code.arrayItems itemType declared.tail items) stack
      (Meaning.arrayItems environment.limits call stack.length itemType declared.tail items)
      fun values => .normal (values.reverse ++ stack)) :
    Carries environment fuel site
      (Code.arrayItems itemType declared.tail items ++ Code.finishArray itemType declared items.length) stack
      (do
        let values ← Meaning.arrayItems environment.limits call stack.length itemType declared.tail items
        Meaning.paddedArray environment.limits call stack.length itemType declared values)
      fun value => .normal (value :: stack) := by
  refine .of_short fun hshort => ?_
  refine .bind_of_yields (yields_arrayItems _ _ _ _ items _) hitems fun values hlength => ?_
  have hcount := Code.length_le_codeSize_arrayItems itemType declared.tail items
  rw [codeSize_append] at hshort
  rw [← hlength] at hshort hcount ⊢
  exact carries_paddedArray hcalls _ _ values stack (by omega)

mutual

/-- A nested literal is padded by the sizes declared for the levels below; any other item is converted. -/
theorem carries_arrayItem (hcalls : CallsCarried environment fuel site call) (itemType : DataType)
    (declared : List (Option Expr)) : (item : Expr) → (stack : Stack) →
      Carries environment fuel site (Code.arrayItem itemType declared item) stack
        (Meaning.arrayItem environment.limits call stack.length itemType declared item)
        fun value => .normal (value :: stack)
  | .array items ty, stack => by
      rw [Code.arrayItem, Meaning.arrayItem]
      split
      · refine carries_finished hcalls itemType.itemType declared items stack ?_
        exact carries_arrayItems hcalls itemType.itemType declared.tail items stack
      · exact carries_converted hcalls _ _ stack
  | .literal _ _, stack | .var _ _, stack | .unary _ _ _, stack | .binary _ _ _ _, stack
  | .subscript _ _ _, stack | .call _ _ _, stack => carries_converted hcalls _ _ stack

theorem carries_arrayItems (hcalls : CallsCarried environment fuel site call) (itemType : DataType)
    (declared : List (Option Expr)) : (items : List Expr) → (stack : Stack) →
      Carries environment fuel site (Code.arrayItems itemType declared items) stack
        (Meaning.arrayItems environment.limits call stack.length itemType declared items)
        fun values => .normal (values.reverse ++ stack)
  | [], _ => .of_pure rfl
  | item :: rest, stack => (carries_arrayItem hcalls itemType declared item stack).bind fun value => by
      refine .map (value :: ·) ?_
      simpa using carries_arrayItems hcalls itemType declared rest (value :: stack)

end

/-- A literal is padded, another array is taken as it is, and a scalar is converted. -/
theorem carries_initialValue (hcalls : CallsCarried environment fuel site call) (ty : DataType)
    (declared : List (Option Expr)) (init : Option Expr) (stack : Stack) :
    Carries environment fuel site (Code.initialValue ty declared init) stack
      (Meaning.initialValue environment.limits call stack.length ty declared init)
      fun value => .normal (value :: stack) := by
  cases init with
  | none => exact carries_zero hcalls ty declared stack
  | some tree =>
      unfold Code.initialValue Meaning.initialValue
      simp only
      split
      · cases tree with
        | array items _ =>
            exact carries_finished hcalls ty.itemType declared items stack
              (carries_arrayItems hcalls ty.itemType declared.tail items stack)
        | _ => exact carries_value hcalls _ stack
      · exact carries_converted hcalls tree ty stack

/-- A compound assignment converts the result of the operation, not its operand. -/
theorem carries_assignedValue (hcalls : CallsCarried environment fuel site call) (ty : DataType)
    (op : Option Arith) (current tree : Expr) (stack : Stack) :
    Carries environment fuel site (Code.assignedValue ty op current tree) stack
      (Meaning.assignedValue environment.limits call stack.length ty op current tree)
      fun value => .normal (value :: stack) := by
  cases op with
  | none => exact carries_converted hcalls tree ty stack
  | some op =>
      exact (carries_value hcalls (.binary (.arith op) current tree none) stack).bind fun result =>
        carries_convert _ ty result stack

end Trees
end StackCode
