import StackCode.Proofs.Carried
import StackCode.Proofs.Heights

/-! Generated code is balanced. The code of an expression puts one value on the stack, and that of a
statement comes back to the empty stack, if calls in the tree are as the signatures of the functions say. -/

namespace StackCode

namespace CallSignatures

variable (signatures : CallSignatures)

mutual

/-- Whether an expression may stand where a value is needed: every call in it has the arguments of its
signature, returns a value and has a type. -/
def value : Expr → Bool
  | .literal _ _ | .var _ _ => true
  | .array items _ => values items
  | .unary _ operand _ => value operand
  | .binary _ left right _ => value left && value right
  | .subscript base index _ => value base && value index
  | .call id args ty => (signatures.of id = ⟨args.length, true⟩ && ty.isSome) && values args

def values : List Expr → Bool
  | [] => true
  | item :: rest => value item && values rest

end

/-- Whether an expression may be a statement: it has a type if and only if it yields a value. -/
def effect : Expr → Bool
  | .call id args ty => signatures.of id = ⟨args.length, ty.isSome⟩ && signatures.values args
  | tree => tree.ty.isSome && signatures.value tree

mutual

def stmt : Stmt → Bool
  | .declare _ _ declared init => declared.all (·.all signatures.value) && init.all signatures.value
  | .assign _ _ _ value => signatures.value value
  | .assignElement _ _ indices _ value => signatures.values indices && signatures.value value
  | .conditional list => branches list
  | .whileLoop cond body => signatures.value cond && stmts body
  | .forLoop init cond body => (stmt init && signatures.value cond) && stmts body
  | .function _ _ body => stmts body
  | .ret value => value.all signatures.value
  | .expr value => signatures.effect value

/-- Whether the calls in statements are as the signatures say. -/
def stmts : List Stmt → Bool
  | [] => true
  | first :: rest => stmt first && stmts rest

def branches : Branches → Bool
  | .otherwise body => stmts body
  | .arm cond body rest => (signatures.value cond && stmts body) && branches rest

end

end CallSignatures

variable {signatures : CallSignatures}

/-- Code takes the stack from one height to another, as long as its counts fit words. -/
def Brings (signatures : CallSignatures) (code : List Instruction) (before after : Nat) : Prop :=
  codeSize code < Instruction.offsetBound → Rises signatures before code after

namespace Brings

variable {before between after height count : Nat} {first second code : List Instruction}

theorem nil (height : Nat) : Brings signatures [] height height := fun _ => rfl

theorem append (hfirst : Brings signatures first before between)
    (hsecond : Brings signatures second between after) : Brings signatures (first ++ second) before after := by
  intro hsize
  rw [codeSize_append] at hsize
  exact (hfirst (by omega)).append (hsecond (by omega))

theorem single {instruction : Instruction} {pops pushes : Nat}
    (hchange : instruction.change? signatures = some ⟨pops, pushes⟩) (height : Nat) :
    Brings signatures [instruction] (height + pops) (height + pushes) := by
  intro _
  refine ⟨_, hchange, Nat.le_add_left pops height, ?_⟩
  rw [Nat.add_sub_cancel]
  rfl

/-- One value and then as many as are counted. -/
theorem one_more (hfirst : Brings signatures first height (height + 1))
    (hrest : Brings signatures second (height + 1) (height + 1 + count)) :
    Brings signatures (first ++ second) height (height + (count + 1)) := by
  rw [Nat.add_comm count, ← Nat.add_assoc]
  exact hfirst.append hrest

theorem push {instruction : Instruction} (hchange : instruction.change? signatures = some ⟨0, 1⟩)
    (height : Nat) : Brings signatures [instruction] height (height + 1) :=
  single hchange height

theorem operate {operation : Operation} {arity : Nat} (harity : operation.arity = arity) (height : Nat) :
    Brings signatures [.operate operation] (height + arity) (height + 1) := by
  subst harity
  exact single (Instruction.change?_of_fixed rfl) height

/-- An instruction that takes the value before it and leaves none. -/
theorem taken {last : Instruction} (hcode : Brings signatures code height (height + 1))
    (hchange : last.change? signatures = some ⟨1, 0⟩) : Brings signatures (code ++ [last]) height height :=
  hcode.append (single hchange height)

/-- A call takes its arguments. -/
theorem call {id : SymbolId} {arguments : Nat} {returnsValue : Bool}
    (hsignature : signatures.of id = ⟨arguments, returnsValue⟩) (height : Nat) :
    Brings signatures [.call id] (height + arguments) (height + returnsValue.toNat) := by
  refine single ?_ height
  change some (HeightChange.mk (signatures.of id).arguments (signatures.of id).returnsValue.toNat) = _
  rw [hsignature]

/-- An instruction that takes as many values as its operand counts. The code before it is no shorter than the
count, which therefore fits a word. -/
theorem counted {last : Instruction} (extra count : Nat) {pushes : Nat}
    (hcode : Brings signatures code height (height + (extra + count))) (hcount : count ≤ codeSize code)
    (hchange : last.change? signatures = some ⟨extra + (UInt64.ofNat count).toNat, pushes⟩) :
    Brings signatures (code ++ [last]) height (height + pushes) := by
  intro hsize
  have hshort : count < Instruction.offsetBound := by
    rw [codeSize_append] at hsize
    omega
  rw [toNat_ofNat_of_short hshort] at hchange
  exact hcode.append (single hchange height) hsize

/-- An instruction that makes one value of as many as its operand counts. -/
theorem joined {last : Instruction} (count : Nat)
    (hcode : Brings signatures code height (height + count)) (hcount : count ≤ codeSize code)
    (hchange : last.change? signatures = some ⟨0 + (UInt64.ofNat count).toNat, 1⟩) :
    Brings signatures (code ++ [last]) height (height + 1) := by
  refine counted 0 count ?_ hcount hchange
  rwa [Nat.zero_add]

end Brings

namespace CallSignatures

/-- Every size that is declared is a value. -/
def Sizes (signatures : CallSignatures) (declared : List (Option Expr)) : Prop :=
  ∀ size, some size ∈ declared → signatures.value size = true

theorem sizes_of_all {declared : List (Option Expr)} (hall : declared.all (·.all signatures.value) = true) :
    signatures.Sizes declared :=
  fun size hmem => List.all_eq_true.mp hall (some size) hmem

theorem Sizes.tail {declared : List (Option Expr)} (hsizes : signatures.Sizes declared) :
    signatures.Sizes declared.tail :=
  fun size hmem => hsizes size (List.mem_of_mem_tail hmem)

theorem value_call {id : SymbolId} {args : List Expr} {ty : Option DataType}
    (hvalue : signatures.value (.call id args ty) = true) :
    signatures.of id = ⟨args.length, true⟩ ∧ signatures.values args = true := by
  obtain ⟨hcall, hargs⟩ := Bool.and_eq_true_iff.mp hvalue
  exact ⟨of_decide_eq_true (Bool.and_eq_true_iff.mp hcall).1, hargs⟩

theorem values_iff {list : List Expr} :
    signatures.values list = true ↔ ∀ item ∈ list, signatures.value item = true := by
  induction list with
  | nil => simp [values]
  | cons item rest ih => simp [values, ih]

theorem value_elementOf {indices : List Expr} (hindices : signatures.values indices = true) (id : SymbolId)
    (ty : DataType) : signatures.value (.elementOf id indices ty) = true := by
  -- only the outermost subscript carries the type, so the chain below it is looked at first
  have hchain : ∀ list base, signatures.value base = true → signatures.values list = true →
      signatures.value (list.foldl (fun base index => .subscript base index none) base) = true := by
    intro list
    induction list with
    | nil => exact fun base hbase _ => hbase
    | cons index rest ih =>
        intro base hbase hlist
        obtain ⟨hindex, hrest⟩ := Bool.and_eq_true_iff.mp hlist
        exact ih _ (Bool.and_eq_true_iff.mpr ⟨hbase, hindex⟩) hrest
  cases indices using List.reverseRecOn with
  | nil => rfl
  | append_singleton front last =>
      have hall := values_iff.mp hindices
      have hfront : signatures.values front = true :=
        values_iff.mpr fun item hmem => hall item (List.mem_append_left _ hmem)
      rw [Expr.elementOf, List.foldl_append]
      exact Bool.and_eq_true_iff.mpr
        ⟨hchain front _ rfl hfront, hall last (List.mem_append_right _ List.mem_cons_self)⟩

end CallSignatures

namespace Code

theorem brings_chars (chars : List Char) (height : Nat) :
    Brings signatures (chars.map fun c => Instruction.pushInt (Int64.ofNat c.toNat)) height
      (height + chars.length) := by
  induction chars generalizing height with
  | nil => exact .nil height
  | cons c chars ih =>
      exact (Brings.push rfl height).one_more (ih (height + 1))

theorem brings_pushFloat (x : Binary64) (height : Nat) :
    Brings signatures [.pushFloat x] height (height + 1) := by
  refine Brings.push ?_ height
  unfold Instruction.pushFloat
  split <;> rfl

theorem brings_literal (literal : Literal) (height : Nat) :
    Brings signatures literal.code height (height + 1) := by
  cases literal with
  | float x => exact brings_pushFloat x height
  | str text =>
      refine Brings.joined text.length ?_ ?_ rfl
      · rw [← String.length_toList]
        exact brings_chars text.toList height
      · have hlength := length_le_codeSize
          (text.toList.map fun c => Instruction.pushInt (Int64.ofNat c.toNat))
        rwa [List.length_map, String.length_toList] at hlength
  | _ => exact Brings.push rfl height

theorem brings_operations {operation : Option Operation} (harity : ∀ found ∈ operation, found.arity = 1)
    (height : Nat) :
    Brings signatures (operation.map Instruction.operate).toList (height + 1) (height + 1) := by
  cases operation with
  | none => exact .nil _
  | some operation => exact Brings.operate (harity operation rfl) height

theorem brings_widening (op : BinaryOp) (family : Option Family) (ty : Option DataType) (height : Nat) :
    Brings signatures (widening op family ty) (height + 1) (height + 1) := by
  rcases family with _ | family
  · exact .nil _
  rcases ty with _ | ty
  · exact .nil _
  cases family with
  | int =>
      rw [widening_int]
      exact .nil _
  | float =>
      rw [widening_float]
      split
      · exact Brings.operate rfl height
      · exact .nil _
  | str =>
      rw [widening_str]
      split
      · exact Brings.call (signatures.builtins (.convert .charToStr)) height
      · exact .nil _

theorem brings_binary (op : BinaryOp) (leftType rightType : Option DataType) {left right : List Instruction}
    (hleft : ∀ height, Brings signatures left height (height + 1))
    (hright : ∀ height, Brings signatures right height (height + 1)) (height : Nat) :
    Brings signatures (binary op leftType rightType left right) height (height + 1) := by
  refine Brings.append ?_ (Brings.operate (op.arity_operationOn _) height)
  refine Brings.append ?_ (brings_widening op _ rightType (height + 1))
  refine Brings.append ?_ (hright (height + 1))
  exact (hleft height).append (brings_widening op _ leftType height)

mutual

theorem brings_expr : (tree : Expr) → signatures.value tree = true → (height : Nat) →
    Brings signatures (expr tree) height (height + 1)
  | .literal value _, _, height => brings_literal value height
  | .var _ _, _, height => Brings.push rfl height
  | .array items _, hvalue, height =>
      Brings.joined items.length (brings_exprs items hvalue height) (length_le_codeSize_exprs items) rfl
  | .unary op operand _, hvalue, height =>
      (brings_expr operand hvalue height).append (Brings.operate (op.arity_operationOn _) height)
  | .binary op left right _, hvalue, height => by
      obtain ⟨hleft, hright⟩ := Bool.and_eq_true_iff.mp hvalue
      exact brings_binary op _ _ (brings_expr left hleft) (brings_expr right hright) height
  | .subscript base index _, hvalue, height => by
      obtain ⟨hbase, hindex⟩ := Bool.and_eq_true_iff.mp hvalue
      rw [expr]
      split
      · rename_i root hroot
        have hpath := (brings_expr index hindex height).one_more (brings_subscripts base hbase hroot (height + 1))
        refine Brings.joined (root.depth + 1) hpath ?_ rfl
        have hfirst := one_le_codeSize_expr index
        have hrest := depth_le_codeSize_subscripts base hroot
        rw [codeSize_append]
        omega
      · have hboth := (brings_expr base hbase height).append (brings_expr index hindex (height + 1))
        exact hboth.append (Brings.operate rfl height)
  | .call id args ty, hvalue, height => by
      obtain ⟨hsignature, hargs⟩ := CallSignatures.value_call hvalue
      exact (brings_exprs args hargs height).append (Brings.call hsignature height)

theorem brings_exprs : (list : List Expr) → signatures.values list = true → (height : Nat) →
    Brings signatures (exprs list) height (height + list.length)
  | [], _, height => .nil height
  | item :: rest, hvalues, height => by
      obtain ⟨hitem, hothers⟩ := Bool.and_eq_true_iff.mp hvalues
      exact (brings_expr item hitem height).one_more (brings_exprs rest hothers (height + 1))

theorem brings_subscripts : (tree : Expr) → signatures.value tree = true → {root : Expr.Root} →
    tree.root? = some root → (height : Nat) →
      Brings signatures (subscripts tree) height (height + root.depth)
  | .subscript base index _, hvalue, root, hroot, height => by
      obtain ⟨hbase, hindex⟩ := Bool.and_eq_true_iff.mp hvalue
      obtain ⟨inner, hinner, rfl⟩ := Option.map_eq_some_iff.mp hroot
      exact (brings_expr index hindex height).one_more (brings_subscripts base hbase hinner (height + 1))
  | .var _ _, _, _, hroot, height => by
      cases hroot
      exact .nil height
  | .literal _ _, _, _, hroot, _ | .array _ _, _, _, hroot, _ | .unary _ _ _, _, _, hroot, _
  | .binary _ _ _ _, _, _, hroot, _ | .call _ _ _, _, _, hroot, _ => by cases hroot

end

theorem brings_conversion (source : Option DataType) (target : DataType) (height : Nat) :
    Brings signatures (conversion source target) (height + 1) (height + 1) := by
  refine brings_operations ?_ height
  intro operation hoperation
  obtain ⟨ty, -, hconversion⟩ := Option.bind_eq_some_iff.mp hoperation
  exact arity_of_conversion? hconversion

theorem brings_converted {value : Expr} (hvalue : signatures.value value = true) (target : DataType)
    (height : Nat) : Brings signatures (converted value target) height (height + 1) :=
  (brings_expr value hvalue height).append (brings_conversion value.ty target height)

theorem brings_sizes : (dims : Nat) → (declared : List (Option Expr)) → signatures.Sizes declared →
    (height : Nat) → Brings signatures (sizes dims declared) height (height + dims)
  | 0, _, _, height => .nil height
  | dims + 1, [], hsizes, height => (Brings.push rfl height).one_more (brings_sizes dims [] hsizes (height + 1))
  | dims + 1, none :: rest, hsizes, height =>
      (Brings.push rfl height).one_more (brings_sizes dims rest hsizes.tail (height + 1))
  | dims + 1, some size :: rest, hsizes, height =>
      (brings_expr size (hsizes size List.mem_cons_self) height).one_more
        (brings_sizes dims rest hsizes.tail (height + 1))

section Arrays

variable {declared : List (Option Expr)}

theorem brings_zero (ty : DataType) (hsizes : signatures.Sizes declared)
    (height : Nat) : Brings signatures (zero ty declared) height (height + 1) := by
  unfold zero
  split
  · exact Brings.joined ty.dims (brings_sizes ty.dims declared hsizes height)
      (dims_le_codeSize_sizes ty.dims declared) rfl
  · unfold DataType.zeroScalar
    split
    · exact brings_pushFloat .zero height
    all_goals exact Brings.push rfl height

theorem brings_padding (ty : DataType) (hsizes : signatures.Sizes declared) :
    (count height : Nat) → Brings signatures (padding ty declared count) height (height + count)
  | 0, height => .nil height
  | count + 1, height => (brings_zero ty hsizes height).one_more (brings_padding ty hsizes count (height + 1))

/-- The items of an array literal, its padding and the array that they make. -/
theorem brings_finished (itemType : DataType) {items : List Instruction} {found height : Nat}
    (hsizes : signatures.Sizes declared)
    (hitems : Brings signatures items height (height + found)) (hfound : found ≤ codeSize items) :
    Brings signatures (items ++ finishArray itemType declared found) height (height + 1) := by
  rw [finishArray, ← List.append_assoc]
  generalize hcount : max found ((Gen.declaredSize? declared).getD 0) = count
  have hle : found ≤ count := by omega
  have hpadded := hitems.append (brings_padding itemType hsizes.tail (count - found) (height + found))
  rw [Nat.add_assoc, Nat.add_sub_cancel' hle] at hpadded
  refine Brings.joined count hpadded ?_ rfl
  have hpadding := count_le_codeSize_padding itemType declared.tail (count - found)
  rw [codeSize_append]
  omega

end Arrays

mutual

theorem brings_arrayItem (itemType : DataType) (declared : List (Option Expr))
    (hsizes : signatures.Sizes declared) :
    (item : Expr) → signatures.value item = true → (height : Nat) →
      Brings signatures (arrayItem itemType declared item) height (height + 1)
  | .array items ty, hvalue, height => by
      rw [arrayItem]
      split
      · exact brings_finished itemType.itemType hsizes
          (brings_arrayItems itemType.itemType declared.tail hsizes.tail items hvalue height)
          (length_le_codeSize_arrayItems itemType.itemType declared.tail items)
      · exact brings_converted hvalue itemType height
  | .literal _ _, hvalue, height | .var _ _, hvalue, height | .unary _ _ _, hvalue, height
  | .binary _ _ _ _, hvalue, height | .subscript _ _ _, hvalue, height | .call _ _ _, hvalue, height =>
      brings_converted hvalue itemType height

theorem brings_arrayItems (itemType : DataType) (declared : List (Option Expr))
    (hsizes : signatures.Sizes declared) :
    (items : List Expr) → signatures.values items = true → (height : Nat) →
      Brings signatures (arrayItems itemType declared items) height (height + items.length)
  | [], _, height => .nil height
  | item :: rest, hvalues, height => by
      obtain ⟨hitem, hothers⟩ := Bool.and_eq_true_iff.mp hvalues
      exact (brings_arrayItem itemType declared hsizes item hitem height).one_more
        (brings_arrayItems itemType declared hsizes rest hothers (height + 1))

end

theorem brings_initialValue (ty : DataType) {declared : List (Option Expr)} {init : Option Expr}
    (hsizes : signatures.Sizes declared)
    (hinit : ∀ value ∈ init, signatures.value value = true) (height : Nat) :
    Brings signatures (initialValue ty declared init) height (height + 1) := by
  cases init with
  | none => exact brings_zero ty hsizes height
  | some value =>
      have hvalue := hinit value rfl
      unfold initialValue
      simp only
      split
      · cases value with
        | array items _ =>
            exact brings_finished ty.itemType hsizes
              (brings_arrayItems ty.itemType declared.tail hsizes.tail items hvalue height)
              (length_le_codeSize_arrayItems ty.itemType declared.tail items)
        | _ => exact brings_expr _ hvalue height
      · exact brings_converted hvalue ty height

theorem brings_assignedValue (ty : DataType) (op : Option Arith) {current value : Expr}
    (hcurrent : signatures.value current = true) (hvalue : signatures.value value = true) (height : Nat) :
    Brings signatures (assignedValue ty op current value) height (height + 1) := by
  cases op with
  | none => exact brings_converted hvalue ty height
  | some op =>
      exact (brings_binary (.arith op) _ _ (brings_expr current hcurrent) (brings_expr value hvalue) height).append
        (brings_conversion _ ty height)

theorem brings_assignElement (id : SymbolId) (ty : DataType) {indices : List Expr} (op : Option Arith)
    {value : Expr} (hindices : signatures.values indices = true) (hvalue : signatures.value value = true) :
    Brings signatures (stmt (.assignElement id ty indices op value)) 0 0 := by
  have hreverse : signatures.values indices.reverse = true :=
    CallSignatures.values_iff.mpr fun item hmem =>
      CallSignatures.values_iff.mp hindices item (List.mem_reverse.mp hmem)
  have hpath := brings_exprs indices.reverse hreverse 0
  rw [List.length_reverse] at hpath
  have helement := CallSignatures.value_elementOf hindices id ty
  have hassigned := hpath.append (brings_assignedValue ty op helement hvalue (0 + indices.length))
  rw [Nat.add_assoc, Nat.add_comm indices.length 1] at hassigned
  have hchange : (Instruction.storeElement id (UInt64.ofNat indices.length)).change? signatures =
      some ⟨1 + (UInt64.ofNat indices.length).toNat, 0⟩ := rfl
  refine Brings.counted 1 indices.length hassigned ?_ hchange
  have hlength := length_le_codeSize_exprs indices.reverse
  rw [List.length_reverse] at hlength
  rw [codeSize_append]
  omega

/-- An expression that is a statement leaves a value if and only if it has a type. -/
theorem brings_effect {tree : Expr} (heffect : signatures.effect tree = true) (height : Nat) :
    Brings signatures (expr tree) height (height + tree.ty.isSome.toNat) := by
  cases tree with
  | call id args ty =>
      obtain ⟨hsignature, hargs⟩ := Bool.and_eq_true_iff.mp heffect
      exact (brings_exprs args hargs height).append (Brings.call (of_decide_eq_true hsignature) height)
  | _ =>
      obtain ⟨hty, hvalue⟩ := Bool.and_eq_true_iff.mp heffect
      rw [hty]
      exact brings_expr _ hvalue height

/-- The returns in code that stands at an offset, each with what it returns. -/
abbrev ReturnSites := List (Nat × Option Expr)

mutual

/-- Where the returns of a statement stand if its code starts at an offset. Those of a function that is
declared stand in a stream of their own. -/
def returnSites (start : Nat) : Stmt → ReturnSites
  | .conditional list => branchReturnSites start list
  | .whileLoop cond body =>
    allReturnSites (start + codeSize (expr cond) + Opcode.jumpIfFalse.encodedLength) body
  | .forLoop init cond body =>
    returnSites start init ++
      allReturnSites (start + codeSize (stmt init) + codeSize (expr cond) + Opcode.jumpIfFalse.encodedLength) body
  | .ret value => [(start + codeSize (value.elim [] expr), value)]
  | .declare _ _ _ _ | .assign _ _ _ _ | .assignElement _ _ _ _ _ | .function _ _ _ | .expr _ => []

def allReturnSites (start : Nat) : List Stmt → ReturnSites
  | [] => []
  | first :: rest => returnSites start first ++ allReturnSites (start + codeSize (stmt first)) rest

def branchReturnSites (start : Nat) : Branches → ReturnSites
  | .otherwise body => allReturnSites start body
  | .arm cond body rest =>
    allReturnSites (start + codeSize (expr cond) + Opcode.jumpIfFalse.encodedLength) body ++
      branchReturnSites (start + codeSize (expr cond) + Opcode.jumpIfFalse.encodedLength +
        codeSize (stmts body) + Opcode.jump.encodedLength) rest

end

/-- The heights at which returns are to stand: a value is all that is on the stack if one is returned. -/
def ReturnSites.heights (sites : ReturnSites) : List (Nat × Nat) :=
  sites.map fun site => (site.1, site.2.isSome.toNat)

theorem ReturnSites.heights_append (first second : ReturnSites) :
    heights (first ++ second) = heights first ++ heights second :=
  List.map_append

/-- Code of statements comes back to the empty stack, as long as its counts and distances fit words. -/
def Settles (signatures : CallSignatures) (code : List Instruction) (sites : Nat → ReturnSites) : Prop :=
  codeSize code < Instruction.offsetBound → Steady signatures 0 code 0 fun start => (sites start).heights

theorem settles_of_brings {code : List Instruction} (hbrings : Brings signatures code 0 0)
    (hstraight : Straight code) : Settles signatures code fun _ => [] :=
  fun hsize => (hbrings hsize).steady hstraight

theorem Settles.append {first second : List Instruction} {sites others : Nat → ReturnSites}
    (hfirst : Settles signatures first sites) (hsecond : Settles signatures second others) :
    Settles signatures (first ++ second) fun start => sites start ++ others (start + codeSize first) := by
  intro hsize
  rw [codeSize_append] at hsize
  refine ((hfirst (by omega)).append (hsecond (by omega))).congr fun start => ?_
  rw [ReturnSites.heights_append]

theorem settles_loop {cond : Expr} (hcond : signatures.value cond = true) {body : List Instruction}
    {sites : Nat → ReturnSites} (hbody : Settles signatures body sites) :
    Settles signatures (loop (expr cond) body) fun start =>
      sites (start + codeSize (expr cond) + Opcode.jumpIfFalse.encodedLength) := by
  intro hsize
  have htotal := codeSize_loop (expr cond) body
  have hrises := brings_expr cond hcond 0 (by omega)
  exact Steady.loop hsize (hrises.steady (straight_expr cond)) (hbody (by omega))

theorem settles_branch {cond : Expr} (hcond : signatures.value cond = true) {body rest : List Instruction}
    {sites others : Nat → ReturnSites} (hbody : Settles signatures body sites)
    (hrest : Settles signatures rest others) :
    Settles signatures (branch (expr cond) body rest) fun start =>
      sites (start + codeSize (expr cond) + Opcode.jumpIfFalse.encodedLength) ++
        others (start + codeSize (expr cond) + Opcode.jumpIfFalse.encodedLength + codeSize body +
          Opcode.jump.encodedLength) := by
  intro hsize
  have htotal := hsize
  simp only [branch, codeSize_append, codeSize_cons, codeSize_nil] at htotal
  have hrises := brings_expr cond hcond 0 (by omega)
  refine (Steady.branch hsize (hrises.steady (straight_expr cond)) (hbody (by omega)) (hrest (by omega))).congr
    fun start => ?_
  rw [ReturnSites.heights_append]

mutual

theorem settles_stmt : (tree : Stmt) → signatures.stmt tree = true →
    Settles signatures (stmt tree) fun start => returnSites start tree
  | .declare id ty declared init, hcalls => by
      obtain ⟨hsizes, hinit⟩ := Bool.and_eq_true_iff.mp hcalls
      have hgiven : ∀ value ∈ init, signatures.value value = true := by
        rintro value rfl
        exact hinit
      have hvalue := brings_initialValue ty (CallSignatures.sizes_of_all hsizes) hgiven 0
      exact settles_of_brings (hvalue.taken rfl) (.concat (straight_initialValue ty declared init) ⟨trivial, rfl⟩)
  | .assign id ty op value, hcalls => by
      have hcurrent : signatures.value (.var id (some ty)) = true := rfl
      have hvalue := brings_assignedValue ty op hcurrent hcalls 0
      exact settles_of_brings (hvalue.taken rfl) (.concat (straight_assignedValue ty op _ value) ⟨trivial, rfl⟩)
  | .assignElement id ty indices op value, hcalls => by
      obtain ⟨hindices, hvalue⟩ := Bool.and_eq_true_iff.mp hcalls
      exact settles_of_brings (brings_assignElement id ty op hindices hvalue)
        (.concat (straight_append.mpr ⟨straight_exprs indices.reverse, straight_assignedValue ty op _ value⟩)
          ⟨trivial, rfl⟩)
  | .conditional list, hcalls => settles_branches list hcalls
  | .whileLoop cond body, hcalls => by
      obtain ⟨hcond, hbody⟩ := Bool.and_eq_true_iff.mp hcalls
      exact settles_loop hcond (settles_stmts body hbody)
  | .forLoop init cond body, hcalls => by
      obtain ⟨hboth, hbody⟩ := Bool.and_eq_true_iff.mp hcalls
      obtain ⟨hinit, hcond⟩ := Bool.and_eq_true_iff.mp hboth
      exact (settles_stmt init hinit).append (settles_loop hcond (settles_stmts body hbody))
  | .function _ _ _, _ => settles_of_brings (.nil 0) straight_nil
  | .ret none, _ => fun _ => Steady.ret 0
  | .ret (some value), hcalls => by
      intro hsize
      rw [stmt, codeSize_append] at hsize
      have hrises := brings_expr value hcalls 0 (by change codeSize (expr value) + _ < _ at hsize; omega)
      exact (hrises.steady (straight_expr value)).append (Steady.ret 1)
  | .expr value, hcalls => by
      have hvalue := brings_effect hcalls 0
      rw [stmt]
      cases hty : value.ty.isSome with
      | true =>
          rw [hty] at hvalue
          exact settles_of_brings (hvalue.taken rfl) (.concat (straight_expr value) ⟨trivial, rfl⟩)
      | false =>
          rw [hty] at hvalue
          exact settles_of_brings (hvalue.append (.nil 0)) (straight_append.mpr ⟨straight_expr value, straight_nil⟩)

theorem settles_stmts : (list : List Stmt) → signatures.stmts list = true →
    Settles signatures (stmts list) fun start => allReturnSites start list
  | [], _ => settles_of_brings (.nil 0) straight_nil
  | first :: rest, hcalls => by
      obtain ⟨hfirst, hrest⟩ := Bool.and_eq_true_iff.mp hcalls
      exact (settles_stmt first hfirst).append (settles_stmts rest hrest)

theorem settles_branches : (list : Branches) → signatures.branches list = true →
    Settles signatures (branches list) fun start => branchReturnSites start list
  | .otherwise body, hcalls => settles_stmts body hcalls
  | .arm cond body rest, hcalls => by
      obtain ⟨hboth, hrest⟩ := Bool.and_eq_true_iff.mp hcalls
      obtain ⟨hcond, hbody⟩ := Bool.and_eq_true_iff.mp hboth
      exact settles_branch hcond (settles_stmts body hbody) (settles_branches rest hrest)

end

end Code

namespace CallSignatures

mutual

/-- What holds of statements holds of the functions that they declare. -/
theorem stmts_of_ofStmt (tree : Stmt) (hcalls : signatures.stmt tree = true) {declaration : Declaration}
    (hmem : declaration ∈ Declaration.ofStmt tree) : signatures.stmts declaration.body = true := by
  cases tree with
  | conditional list => exact stmts_of_ofBranches list hcalls hmem
  | whileLoop cond body => exact stmts_of_ofStmts body (Bool.and_eq_true_iff.mp hcalls).2 hmem
  | forLoop init cond body =>
      obtain ⟨hboth, hbody⟩ := Bool.and_eq_true_iff.mp hcalls
      rcases List.mem_append.mp hmem with hinit | hrest
      · exact stmts_of_ofStmt init (Bool.and_eq_true_iff.mp hboth).1 hinit
      · exact stmts_of_ofStmts body hbody hrest
  | function id params body =>
      rcases List.mem_cons.mp hmem with rfl | hinner
      · exact hcalls
      · exact stmts_of_ofStmts body hcalls hinner
  | _ => cases hmem

theorem stmts_of_ofStmts (list : List Stmt) (hcalls : signatures.stmts list = true) {declaration : Declaration}
    (hmem : declaration ∈ Declaration.ofStmts list) : signatures.stmts declaration.body = true := by
  cases list with
  | nil => cases hmem
  | cons first rest =>
      obtain ⟨hfirst, hothers⟩ := Bool.and_eq_true_iff.mp hcalls
      rcases List.mem_append.mp hmem with hone | hother
      · exact stmts_of_ofStmt first hfirst hone
      · exact stmts_of_ofStmts rest hothers hother

theorem stmts_of_ofBranches (list : Branches) (hcalls : signatures.branches list = true)
    {declaration : Declaration} (hmem : declaration ∈ Declaration.ofBranches list) :
    signatures.stmts declaration.body = true := by
  cases list with
  | otherwise body => exact stmts_of_ofStmts body hcalls hmem
  | arm cond body rest =>
      obtain ⟨hboth, hothers⟩ := Bool.and_eq_true_iff.mp hcalls
      rcases List.mem_append.mp hmem with hone | hother
      · exact stmts_of_ofStmts body (Bool.and_eq_true_iff.mp hboth).2 hone
      · exact stmts_of_ofBranches rest hothers hother

end

end CallSignatures

/-- The stream of some statements is balanced. Its returns are those of the statements: one that returns a
value finds just this value on the stack, and one that returns nothing finds the stack empty. -/
structure Stream.BalancedFor (signatures : CallSignatures) (statements : List Stmt) (code : Stream)
    (height : Nat → Nat) : Prop where
  wellFormed : code.WellFormed
  balanced : code.Balanced signatures height
  returns : ∀ offset, (∃ instruction, code.Boundary offset ∧ code.decodeAt offset = .ok instruction ∧
    instruction.opcode = .ret) ↔ ∃ value, (offset, value) ∈ Code.allReturnSites 0 statements
  valued : ∀ offset value, (offset, some value) ∈ Code.allReturnSites 0 statements → height offset = 1
  bare : ∀ offset, (offset, none) ∈ Code.allReturnSites 0 statements → height offset = 0

theorem balancedFor_ofInstructions {statements : List Stmt} (hcalls : signatures.stmts statements = true)
    (hsize : (Stream.ofInstructions (Code.stmts statements)).size < Instruction.offsetBound) :
    (Stream.ofInstructions (Code.stmts statements)).BalancedFor signatures statements
      (heightAt signatures 0 (Code.stmts statements)) := by
  have hclosed := Code.closed_stmts statements
  have hwellFormed := Stream.wellFormed_ofInstructions hclosed hsize
  rw [Stream.size_ofInstructions] at hsize
  have hsteady := Code.settles_stmts statements hcalls hsize
  have hsite : ∀ offset value, (offset, value) ∈ Code.allReturnSites 0 statements →
      heightAt signatures 0 (Code.stmts statements) offset = value.isSome.toNat := by
    intro offset value hmem
    exact hsteady.heightAt_of_mem_returns (List.mem_map_of_mem hmem)
  refine ⟨hwellFormed, hsteady.balanced hclosed hsize, ?_, ?_, ?_⟩
  · intro offset
    rw [hsteady.mem_returns hclosed]
    constructor
    · intro hmem
      obtain ⟨⟨found, value⟩, hsites, hfound⟩ := List.mem_map.mp hmem
      obtain ⟨rfl, -⟩ := Prod.mk.inj hfound
      exact ⟨value, hsites⟩
    · rintro ⟨value, hmem⟩
      rw [hsite offset value hmem]
      exact List.mem_map_of_mem hmem
  · intro offset value hmem
    exact hsite offset (some value) hmem
  · intro offset hmem
    exact hsite offset none hmem

/-- If the calls in statements are as the signatures say, then the stream that they are compiled to and those
of the functions that they declare have heights that suit every instruction, unless they exceed the offsets. -/
theorem compile_balanced {signatures : CallSignatures} {context after : Context} {statements : List Stmt}
    {code : Stream} (hcompile : compile context statements = (.ok code, after))
    (hcalls : signatures.stmts statements = true) :
    (code.size < Instruction.offsetBound → ∃ height, code.BalancedFor signatures statements height) ∧
      ∀ declaration ∈ Declaration.ofStmts statements, ∃ function,
        after.functions.get? declaration.id = some function ∧ function.params = declaration.params ∧
          (function.code.size < Instruction.offsetBound →
            ∃ height, function.code.BalancedFor signatures declaration.body height) := by
  obtain ⟨rfl, hdeclares⟩ := compile_of_ok hcompile
  refine ⟨fun hsize => ⟨_, balancedFor_ofInstructions hcalls hsize⟩, ?_⟩
  intro declaration hmem
  have hbody := CallSignatures.stmts_of_ofStmts statements hcalls hmem
  refine ⟨declaration.function, ?_, rfl, fun hsize => ⟨_, balancedFor_ofInstructions hbody hsize⟩⟩
  rw [hdeclares.functions, Declaration.find?_of_mem hdeclares.distinct hmem]

/-- The built-in functions beside those of a table. -/
def CallSignatures.ofTable (functions : Table CallSignature) : CallSignatures where
  of id :=
    match Builtin.ofId? id with
    | some builtin => ⟨builtin.arity, builtin.returnsValue⟩
    | none => (functions.get? id).getD ⟨0, false⟩
  builtins builtin := by rw [Builtin.ofId?_id]

def countDown : Declaration where
  id := 100
  params := [101]
  body :=
    [.whileLoop (.var 101 (some .int64))
      [.conditional (.arm (.binary (.compare .lt) (.var 101 (some .int64)) (.literal (.int 3) (some .int64))
        (some .bool)) [.ret (some (.var 101 (some .int64)))] (.otherwise
          [.assign 101 .int64 (some .sub) (.literal (.int 1) (some .int64))]))],
     .ret none]

/-- Pads an array, adds to an element what a function returns, prints it and drops another result. -/
def tally : List Stmt :=
  [.function countDown.id countDown.params countDown.body,
   .declare 102 ⟨.int .w64, 1⟩ [some (.literal (.int 3) none)] (some (.array [.literal (.int 7) (some .int64)] none)),
   .assignElement 102 .int64 [.literal (.int 0) none] (some .add)
     (.call 100 [.literal (.int 9) none] (some .int64)),
   .expr (.call (Builtin.print (.int .w64)).id
     [.subscript (.var 102 (some ⟨.int .w64, 1⟩)) (.literal (.int 0) none) (some .int64)] none),
   .expr (.call 100 [.literal (.int 4) none] (some .int64)),
   .ret none]

theorem compile_balanced_tally :
    ∃ (code : Stream) (function : Function), (compile .empty tally).1 = .ok code ∧
      (compile .empty tally).2.functions.get? 100 = some function ∧
      (∃ height, code.BalancedFor (.ofTable (.ofList [(100, ⟨1, true⟩)])) tally height) ∧
      ∃ height, function.code.BalancedFor (.ofTable (.ofList [(100, ⟨1, true⟩)])) countDown.body height := by
  have hok : (compile .empty tally).1 = .ok (.ofInstructions (Code.stmts tally)) := by decide +kernel
  have hcompile : compile .empty tally = ((compile .empty tally).1, (compile .empty tally).2) :=
    (Prod.mk.eta).symm
  rw [hok] at hcompile
  have hcalls : (CallSignatures.ofTable (.ofList [(100, ⟨1, true⟩)])).stmts tally = true := by decide +kernel
  have hsize : (Stream.ofInstructions (Code.stmts tally)).size < Instruction.offsetBound := by decide +kernel
  have hbodySize : countDown.function.code.size < Instruction.offsetBound := by decide +kernel
  obtain ⟨hmain, hfunctions⟩ := compile_balanced hcompile hcalls
  obtain ⟨function, hget, -, hfunction⟩ := hfunctions countDown List.mem_cons_self
  have hdefined : (compile .empty tally).2.functions.get? 100 = some countDown.function := by decide +kernel
  have hsame : function = countDown.function := Option.some.inj (hget.symm.trans hdefined)
  exact ⟨_, function, hok, hget, hmain hsize, hfunction (by rw [hsame]; exact hbodySize)⟩

end StackCode
