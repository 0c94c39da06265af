import StackCode.Proofs.Carried
import StackCode.Proofs.Safety

/-! Well-typed expressions are safe if the calls in them are, and have values of their shapes. So have the
values that declarations and assignments store. -/

namespace StackCode

open Evaluation

namespace DataType

variable {ty : DataType}

theorem shape_of_isIntegral (hintegral : ty.isIntegral = true) : ty.shape = .integer := by
  have hfamily : ty.family? = some .int := if_pos hintegral
  exact shape_of_family? hfamily

theorem shape_of_isFloat (hfloat : ty.isFloat = true) : ty.shape = .float := by
  obtain ⟨base, dims⟩ := ty
  cases dims with
  | zero => cases base <;> first | rfl | cases hfloat
  | succ dims => cases hfloat

theorem shape_of_isStr (hstr : ty.isStr = true) : ty.shape = .text := by
  obtain ⟨base, dims⟩ := ty
  cases dims with
  | zero => cases base <;> first | rfl | cases hstr
  | succ dims => cases hstr

theorem shape_of_isChar (hchar : ty.isChar = true) : ty.shape = .integer := by
  obtain ⟨base, dims⟩ := ty
  cases dims with
  | zero => cases base <;> first | rfl | cases hchar
  | succ dims => cases hchar

end DataType

namespace Typing

variable {typing : Typing} {initial : Scope} {limits : Limits} {shape : Shape} {x y : Value} {pending : Nat}

theorem safe_unary {operation : Operation} (hgives : Gives shape (operation.onOne x)) :
    Safe typing initial (Meaning.unary limits pending operation x) (·.Fits shape) :=
  (Safe.of_attempt hgives).bind fun _ hresult => .of_keep limits pending hresult

theorem safe_binary {operation : Operation} (hgives : Gives shape (operation.onTwo x y)) :
    Safe typing initial (Meaning.binary limits pending operation x y) (·.Fits shape) :=
  (Safe.of_attempt hgives).bind fun _ hresult => .of_keep limits pending hresult

/-- An operand that the generator accepts is brought into the family. -/
theorem safe_widened {op : BinaryOp} {family : Family} {ty : DataType} (hx : x.Fits ty.shape)
    (hwidening : (op.widening family ty).isOk = true) :
    Safe typing initial (Meaning.widened limits pending op (some family) (some ty) x)
      (·.Fits ⟨family, 0⟩) := by
  unfold BinaryOp.widening at hwidening
  cases family with
  | int =>
      simp only at hwidening
      split at hwidening
      · rw [DataType.shape_of_isIntegral ‹_›] at hx
        exact .of_pure hx
      · cases hwidening
  | float =>
      unfold Meaning.widened
      simp only at hwidening ⊢
      split at hwidening
      · rename_i hfloat
        rw [DataType.not_isIntegral_of_isFloat hfloat, if_neg Bool.false_ne_true]
        rw [DataType.shape_of_isFloat hfloat] at hx
        exact .of_pure hx
      · split at hwidening
        · rename_i hintegral
          rw [if_pos hintegral]
          rw [DataType.shape_of_isIntegral hintegral] at hx
          refine safe_unary ?_
          obtain ⟨n, rfl⟩ | ⟨n, rfl⟩ := hx.integer <;> rfl
        · cases hwidening
  | str =>
      unfold Meaning.widened
      simp only at hwidening ⊢
      split at hwidening
      · rename_i hstr
        rw [DataType.not_isChar_of_isStr hstr, Bool.false_and, if_neg Bool.false_ne_true]
        rw [DataType.shape_of_isStr hstr] at hx
        exact .of_pure hx
      · split at hwidening
        · rename_i hchar
          rw [if_pos hchar]
          rw [DataType.shape_of_isChar (Bool.and_eq_true_iff.mp hchar).1] at hx
          have hgives : Gives .text (Conversion.charToStr.apply x) := Conversion.gives_apply rfl hx
          exact (Safe.of_attempt hgives).bind fun _ hresult => .of_keep limits pending hresult
        · cases hwidening

theorem annotated_eq_some {ty : Option DataType} {found : Shape} :
    annotated ty shape = some found ↔ (∀ given ∈ ty, given.shape = shape) ∧ found = shape := by
  unfold annotated
  split
  · rename_i hall
    exact ⟨fun hsome => ⟨hall, (Option.some.inj hsome).symm⟩, fun hboth => by rw [hboth.2]⟩
  · rename_i hnot
    exact ⟨(nomatch ·), fun hboth => absurd hboth.1 hnot⟩

theorem of_shape?_subscript {base index : Expr} {ty : Option DataType}
    (hshape : typing.shape? (.subscript base index ty) = some shape) :
    ∃ whole, typing.shape? base = some whole ∧ typing.shape? index = some .integer ∧
      whole.element? = some shape := by
  obtain ⟨whole, hwhole, hrest⟩ := Option.bind_eq_some_iff.mp hshape
  split at hrest
  · rename_i hindex
    obtain ⟨element, helement, hfound⟩ := Option.bind_eq_some_iff.mp hrest
    obtain ⟨-, rfl⟩ := annotated_eq_some.mp hfound
    exact ⟨whole, hwhole, hindex, helement⟩
  · cases hrest

theorem of_shape?_binary {op : BinaryOp} {left right : Expr} {ty : Option DataType}
    (hshape : typing.shape? (.binary op left right ty) = some shape) :
    ∃ leftShape rightShape, typing.shape? left = some leftShape ∧ typing.shape? right = some rightShape ∧
      binary? op left.ty right.ty = some shape := by
  obtain ⟨leftShape, hleft, hrest⟩ := Option.bind_eq_some_iff.mp hshape
  obtain ⟨rightShape, hright, hrest⟩ := Option.bind_eq_some_iff.mp hrest
  obtain ⟨result, hbinary, hfound⟩ := Option.bind_eq_some_iff.mp hrest
  obtain ⟨-, rfl⟩ := annotated_eq_some.mp hfound
  exact ⟨leftShape, rightShape, hleft, hright, hbinary⟩

/-- The type on a node that is well typed has the shape of the node's values. -/
theorem shape_of_ty {tree : Expr} {ty : DataType} (hshape : typing.shape? tree = some shape)
    (hty : tree.ty = some ty) : ty.shape = shape := by
  have hannotated : ∀ {found : Shape}, annotated tree.ty found = some shape → ty.shape = shape := by
    intro found hfound
    obtain ⟨hall, rfl⟩ := annotated_eq_some.mp hfound
    exact hall ty hty
  cases tree with
  | literal value given => exact hannotated hshape
  | var id given =>
      obtain ⟨_, _, hfound⟩ := Option.bind_eq_some_iff.mp hshape
      exact hannotated hfound
  | array items given =>
      cases hty
      obtain ⟨shapes, _, hrest⟩ := Option.bind_eq_some_iff.mp hshape
      change (if _ then some ty.shape else none) = some shape at hrest
      split at hrest
      · exact Option.some.inj hrest
      · cases hrest
  | unary op operand given =>
      obtain ⟨_, _, hrest⟩ := Option.bind_eq_some_iff.mp hshape
      obtain ⟨_, _, hfound⟩ := Option.bind_eq_some_iff.mp hrest
      exact hannotated hfound
  | binary op left right given =>
      obtain ⟨_, _, hrest⟩ := Option.bind_eq_some_iff.mp hshape
      obtain ⟨_, _, hrest⟩ := Option.bind_eq_some_iff.mp hrest
      obtain ⟨_, _, hfound⟩ := Option.bind_eq_some_iff.mp hrest
      exact hannotated hfound
  | subscript base index given =>
      obtain ⟨_, _, hrest⟩ := Option.bind_eq_some_iff.mp hshape
      split at hrest
      · obtain ⟨_, _, hfound⟩ := Option.bind_eq_some_iff.mp hrest
        exact hannotated hfound
      · cases hrest
  | call id args given =>
      obtain ⟨_, _, hrest⟩ := Option.bind_eq_some_iff.mp hshape
      obtain ⟨_, _, hrest⟩ := Option.bind_eq_some_iff.mp hrest
      obtain ⟨_, _, hfound⟩ := Option.bind_eq_some_iff.mp hrest
      exact hannotated hfound

/-- The calls of functions with arguments that they take are safe. -/
def CallsSafe (typing : Typing) (initial : Scope) (call : Call) : Prop :=
  ∀ pending id arguments shapes result, typing.call? id shapes = some result →
    List.Forall₂ Value.Fits arguments shapes →
      Safe typing initial (call pending id arguments) fun value =>
        ∀ shape ∈ result, ∃ found, value = some found ∧ found.Fits shape

theorem safe_literal (value : Literal) :
    Safe typing initial (Meaning.literal limits pending value) (·.Fits value.defaultType.shape) := by
  cases value with
  | str text =>
      change Safe typing initial (if pending + text.length ≤ limits.stack then _ else _) _
      split
      · exact .of_keep limits pending rfl
      · exact .of_fail rfl
  | _ => exact .of_keep limits pending rfl

theorem fits_of_forall₂ {values : List Value} {shapes : List Shape}
    (hvalues : List.Forall₂ Value.Fits values shapes) (hshapes : ∀ found ∈ shapes, found = shape) :
    ∀ value ∈ values, value.Fits shape := by
  induction hvalues with
  | nil => exact fun _ hmem => nomatch hmem
  | @cons value found values shapes hfits _ ih =>
      intro other hother
      obtain rfl | hrest := List.mem_cons.mp hother
      · rw [← hshapes found List.mem_cons_self]
        exact hfits
      · exact ih (fun other hmem => hshapes other (List.mem_cons_of_mem _ hmem)) other hrest

theorem fits_array_of_element? {values : List Value} {shapes : List Shape} (hdims : shape.dims ≠ 0)
    (hitems : ∀ item ∈ shapes, shape.element? = some item) (hvalues : List.Forall₂ Value.Fits values shapes) :
    (Value.array values).Fits shape := by
  obtain ⟨family, dims⟩ := shape
  cases dims with
  | zero => exact absurd rfl hdims
  | succ dims =>
      refine Value.fits_array (fits_of_forall₂ hvalues fun item hitem => ?_)
      exact (Option.some.inj (hitems item hitem)).symm

/-- The variable under a chain of subscripts, and the shape that the chain leads to. -/
theorem root_of_shape? (tree : Expr) {root : Expr.Root} {shape : Shape}
    (hshape : typing.shape? tree = some shape) (hroot : tree.root? = some root) :
    ∃ ty, typing.types.get? root.id = some ty ∧ ty.shape.under? root.depth = some shape := by
  cases tree with
  | var id given =>
      cases hroot
      obtain ⟨ty, hty, hfound⟩ := Option.bind_eq_some_iff.mp hshape
      obtain ⟨-, rfl⟩ := annotated_eq_some.mp hfound
      exact ⟨ty, hty, rfl⟩
  | subscript base index given =>
      obtain ⟨inner, hinner, rfl⟩ := Option.map_eq_some_iff.mp hroot
      obtain ⟨whole, hwhole, -, helement⟩ := of_shape?_subscript hshape
      obtain ⟨ty, hty, hunder⟩ := root_of_shape? base hwhole hinner
      exact ⟨ty, hty, Shape.under?_succ hunder helement⟩
  | _ => cases hroot

section Trees

variable {call : Call}

theorem safe_some {evaluation : Evaluation Value} (hsafe : Safe typing initial evaluation (·.Fits shape)) :
    Safe typing initial (some <$> evaluation) fun result =>
      ∃ value, result = some value ∧ value.Fits shape :=
  hsafe.map fun value hvalue => ⟨value, rfl, hvalue⟩

theorem safe_unaryOp {op : UnaryOp} {ty : Option DataType} {operand : Shape}
    (hunary : unary? op ty = some shape) (hx : x.Fits operand) (hty : ∀ given ∈ ty, given.shape = operand) :
    Safe typing initial (Meaning.unary limits pending (op.operationOn ty) x) (·.Fits shape) := by
  obtain ⟨given, rfl, hrest⟩ := Option.bind_eq_some_iff.mp hunary
  obtain ⟨family, hfamily, hrest⟩ := Option.bind_eq_some_iff.mp hrest
  split at hrest
  · rename_i hsome
    cases hrest
    obtain ⟨operation, hoperation⟩ := Option.isSome_iff_exists.mp hsome
    rw [← hty given rfl, DataType.shape_of_family? hfamily] at hx
    have hon : op.operationOn (some given) = operation := by
      change (op.operation? given.family?).getD _ = operation
      rw [hfamily, hoperation]
      rfl
    rw [hon]
    exact safe_unary (op.gives_onOne hoperation hx)
  · cases hrest

/-- Both operands of an operator are brought to shapes that it takes. -/
structure SafeOperands (typing : Typing) (initial : Scope) (limits : Limits) (op : BinaryOp)
    (leftType rightType : Option DataType) (left right leftWide rightWide shape : Shape) : Prop where
  safeLeft : ∀ pending x, x.Fits left →
    Safe typing initial (Meaning.widened limits pending op (op.familyOn leftType rightType) leftType x)
      (·.Fits leftWide)
  safeRight : ∀ pending x, x.Fits right →
    Safe typing initial (Meaning.widened limits pending op (op.familyOn leftType rightType) rightType x)
      (·.Fits rightWide)
  safeResult : ∀ pending x y, x.Fits leftWide → y.Fits rightWide →
    Safe typing initial (Meaning.binary limits pending (op.operationOn (op.familyOn leftType rightType)) x y)
      (·.Fits shape)

theorem safeOperands_joined {op : BinaryOp} {left right : DataType}
    (hlogic : ∀ connective, op ≠ .logic connective) (hjoined : joined? op left right = some shape) :
    ∃ wide, SafeOperands typing initial limits op (some left) (some right) left.shape right.shape wide wide
      shape := by
  obtain ⟨family, hfamily, hrest⟩ := Option.bind_eq_some_iff.mp hjoined
  split at hrest
  · rename_i hall
    obtain ⟨hboth, hright⟩ := Bool.and_eq_true_iff.mp hall
    obtain ⟨hsome, hleft⟩ := Bool.and_eq_true_iff.mp hboth
    obtain ⟨operation, hoperation⟩ := Option.isSome_iff_exists.mp hsome
    cases hrest
    have hon : op.familyOn (some left) (some right) = some family := by
      cases op with
      | logic connective => exact absurd rfl (hlogic connective)
      | _ => exact hfamily
    have hoperationOn : op.operationOn (some family) = operation := by
      cases op with
      | logic connective => exact absurd rfl (hlogic connective)
      | _ => exact congrArg (Option.getD · .concat) hoperation
    refine ⟨⟨family, 0⟩, ?_, ?_, ?_⟩
    · intro pending x hx
      rw [hon]
      exact safe_widened hx hleft
    · intro pending x hx
      rw [hon]
      exact safe_widened hx hright
    · intro pending x y hx hy
      rw [hon, hoperationOn]
      exact safe_binary (op.gives_onTwo hoperation hlogic hx hy)
  · cases hrest

theorem safeOperands_binary {op : BinaryOp} {leftType rightType : Option DataType} {left right : Shape}
    (hbinary : binary? op leftType rightType = some shape)
    (hleft : ∀ given ∈ leftType, given.shape = left) (hright : ∀ given ∈ rightType, given.shape = right) :
    ∃ leftWide rightWide,
      SafeOperands typing initial limits op leftType rightType left right leftWide rightWide shape := by
  cases leftType with
  | none => cases op <;> cases hbinary
  | some leftType =>
      cases rightType with
      | none => cases op <;> cases hbinary
      | some rightType =>
          obtain rfl := hleft leftType rfl
          obtain rfl := hright rightType rfl
          cases op with
          | arith op =>
              obtain ⟨wide, hsafe⟩ := safeOperands_joined (by simp) hbinary
              exact ⟨wide, wide, hsafe⟩
          | compare relation =>
              obtain ⟨wide, hsafe⟩ := safeOperands_joined (by simp) hbinary
              exact ⟨wide, wide, hsafe⟩
          | logic connective =>
              change (if _ then some Shape.integer else none) = some shape at hbinary
              split at hbinary
              · rename_i hnumbers
                obtain ⟨hleftNumber, hrightNumber⟩ := Bool.and_eq_true_iff.mp hnumbers
                cases hbinary
                refine ⟨_, _, fun _ _ hx => .of_pure hx, fun _ _ hx => .of_pure hx, fun pending x y hx hy => ?_⟩
                exact safe_binary (gives_logic connective hx hy hleftNumber hrightNumber)
              · cases hbinary

mutual

theorem safe_expr (hcalls : typing.CallsSafe initial call) (tree : Expr) (pending : Nat) {shape : Shape}
    (hshape : typing.shape? tree = some shape) :
    Safe typing initial (Meaning.expr limits call pending tree) fun result =>
      ∃ value, result = some value ∧ value.Fits shape := by
  cases tree with
  | literal value given =>
      obtain ⟨-, rfl⟩ := annotated_eq_some.mp hshape
      exact safe_some (safe_literal value)
  | var id given =>
      obtain ⟨ty, hty, hfound⟩ := Option.bind_eq_some_iff.mp hshape
      obtain ⟨-, rfl⟩ := annotated_eq_some.mp hfound
      exact safe_some ((Safe.load hty).bind fun _ hvalue => .of_keep limits pending hvalue)
  | array items given =>
      obtain ⟨shapes, hshapes, hrest⟩ := Option.bind_eq_some_iff.mp hshape
      obtain ⟨whole, -, hrest⟩ := Option.bind_eq_some_iff.mp hrest
      split at hrest
      · rename_i hitems
        cases hrest
        refine safe_some ((safe_exprs hcalls items pending hshapes).bind fun values hvalues => ?_)
        exact .of_keep limits pending (fits_array_of_element? hitems.1 hitems.2 hvalues)
      · cases hrest
  | unary op operand given =>
      obtain ⟨inner, hinner, hrest⟩ := Option.bind_eq_some_iff.mp hshape
      obtain ⟨result, hunary, hfound⟩ := Option.bind_eq_some_iff.mp hrest
      obtain ⟨-, rfl⟩ := annotated_eq_some.mp hfound
      refine safe_some ((safe_expr hcalls operand pending hinner).of_needed.bind fun x hx => ?_)
      exact safe_unaryOp hunary hx fun ty hty => shape_of_ty hinner hty
  | binary op left right given =>
      obtain ⟨leftShape, rightShape, hleft, hright, hbinary⟩ := of_shape?_binary hshape
      obtain ⟨leftWide, rightWide, hoperands⟩ : ∃ leftWide rightWide, SafeOperands typing initial limits op
          left.ty right.ty leftShape rightShape leftWide rightWide shape :=
        safeOperands_binary hbinary (fun _ hty => shape_of_ty hleft hty) fun _ hty => shape_of_ty hright hty
      refine safe_some ((safe_expr hcalls left pending hleft).of_needed.bind fun x hx => ?_)
      refine (hoperands.safeLeft pending x hx).bind fun x hx => ?_
      refine (safe_expr hcalls right (pending + 1) hright).of_needed.bind fun y hy => ?_
      refine (hoperands.safeRight (pending + 1) y hy).bind fun y hy => ?_
      exact hoperands.safeResult pending x y hx hy
  | subscript base index given =>
      obtain ⟨whole, hwhole, hindex, helement⟩ := of_shape?_subscript hshape
      unfold Meaning.expr
      cases hroot : base.root? with
      | some root =>
          obtain ⟨ty, hty, hunder⟩ := root_of_shape? base hwhole hroot
          refine safe_some ((safe_expr hcalls index pending hindex).of_needed.bind fun last hlast => ?_)
          refine (safe_subscripts hcalls base (pending + 1) hwhole hroot).bind fun path hpath => ?_
          refine (Safe.load hty).bind fun base hbase => ?_
          have hread : Gives shape (base.read (path ++ [last])) := by
            refine hbase.read ?_ ?_
            · rw [List.length_append, hpath.1]
              exact Shape.under?_succ hunder helement
            · exact List.forall_mem_append.mpr ⟨hpath.2, List.forall_mem_singleton.mpr hlast⟩
          exact (Safe.of_attempt hread).bind fun _ hvalue => .of_keep limits pending hvalue
      | none =>
          refine safe_some ((safe_expr hcalls base pending hwhole).of_needed.bind fun container hcontainer => ?_)
          refine (safe_expr hcalls index (pending + 1) hindex).of_needed.bind fun position hposition => ?_
          exact safe_binary (hcontainer.gives_index hposition helement)
  | call id args given =>
      obtain ⟨shapes, hshapes, hrest⟩ := Option.bind_eq_some_iff.mp hshape
      obtain ⟨result, hcall, hrest⟩ := Option.bind_eq_some_iff.mp hrest
      obtain ⟨found, rfl, hfound⟩ := Option.bind_eq_some_iff.mp hrest
      obtain ⟨-, rfl⟩ := annotated_eq_some.mp hfound
      refine (safe_exprs hcalls args pending hshapes).bind fun arguments harguments => ?_
      exact (hcalls pending id arguments shapes _ hcall harguments).mono fun value hvalue => hvalue _ rfl

theorem safe_exprs (hcalls : typing.CallsSafe initial call) (list : List Expr) (pending : Nat)
    {shapes : List Shape} (hshapes : typing.shapes? list = some shapes) :
    Safe typing initial (Meaning.exprs limits call pending list) (List.Forall₂ Value.Fits · shapes) := by
  cases list with
  | nil =>
      cases hshapes
      exact .of_pure .nil
  | cons item rest =>
      obtain ⟨first, hfirst, hrest⟩ := Option.bind_eq_some_iff.mp hshapes
      obtain ⟨others, hothers, hsome⟩ := Option.bind_eq_some_iff.mp hrest
      cases hsome
      refine (safe_expr hcalls item pending hfirst).of_needed.bind fun value hvalue => ?_
      refine (safe_exprs hcalls rest (pending + 1) hothers).bind fun values hvalues => ?_
      exact .of_pure (.cons hvalue hvalues)

theorem safe_subscripts (hcalls : typing.CallsSafe initial call) (tree : Expr) (pending : Nat)
    {root : Expr.Root} {shape : Shape} (hshape : typing.shape? tree = some shape)
    (hroot : tree.root? = some root) :
    Safe typing initial (Meaning.subscripts limits call pending tree) fun path =>
      path.length = root.depth ∧ ∀ index ∈ path, index.Fits .integer := by
  cases tree with
  | var id given =>
      cases hroot
      exact .of_pure ⟨rfl, fun _ hmem => nomatch hmem⟩
  | subscript base index given =>
      obtain ⟨inner, hinner, rfl⟩ := Option.map_eq_some_iff.mp hroot
      obtain ⟨whole, hwhole, hindex, -⟩ := of_shape?_subscript hshape
      refine (safe_expr hcalls index pending hindex).of_needed.bind fun last hlast => ?_
      refine (safe_subscripts hcalls base (pending + 1) hwhole hinner).bind fun path hpath => ?_
      refine .of_pure ⟨?_, List.forall_mem_append.mpr ⟨hpath.2, List.forall_mem_singleton.mpr hlast⟩⟩
      rw [List.length_append, hpath.1]
      rfl
  | _ => cases hroot

end

theorem safe_value (hcalls : typing.CallsSafe initial call) (tree : Expr) (pending : Nat)
    (hshape : typing.shape? tree = some shape) :
    Safe typing initial (Meaning.value limits call pending tree) (·.Fits shape) :=
  (safe_expr hcalls tree pending hshape).of_needed

theorem safe_truth (hcalls : typing.CallsSafe initial call) {cond : Expr} (pending : Nat)
    (hcond : typing.isCondition cond = true) :
    Safe typing initial (Meaning.truth limits call pending cond) fun _ => True := by
  obtain ⟨shape, hshape, hnumber⟩ := (Option.any_eq_true _ _).mp hcond
  refine (safe_value hcalls cond pending hshape).bind fun x hx => ?_
  obtain ⟨truth, htruth⟩ := hx.truth? hnumber
  rw [htruth]
  exact .of_pure trivial

theorem safe_convert {source target : DataType} (hx : x.Fits source.shape)
    (hbecomes : source.shape.becomes target.shape = true) :
    Safe typing initial (Meaning.convert limits pending (some source) target x) (·.Fits target.shape) := by
  have hconverted := hx.converted hbecomes
  rw [Meaning.convert, Option.bind_some]
  cases hconversion : source.conversion? target with
  | some operation =>
      rw [hconversion] at hconverted
      exact safe_unary hconverted
  | none =>
      rw [hconversion] at hconverted
      exact .of_pure hconverted

theorem safe_converted (hcalls : typing.CallsSafe initial call) {tree : Expr} {ty : DataType} (pending : Nat)
    (htakes : typing.takes ty tree = true) :
    Safe typing initial (Meaning.converted limits call pending tree ty) (·.Fits ty.shape) := by
  obtain ⟨hsome, hany⟩ := Bool.and_eq_true_iff.mp htakes
  obtain ⟨source, hsource⟩ := Option.isSome_iff_exists.mp hsome
  obtain ⟨shape, hshape, hbecomes⟩ := (Option.any_eq_true _ _).mp hany
  refine (safe_value hcalls tree pending hshape).bind fun x hx => ?_
  rw [← shape_of_ty hshape hsource] at hx hbecomes
  rw [hsource]
  exact safe_convert hx hbecomes

/-- The sizes that are given are integers. -/
def SizesTyped (typing : Typing) (declared : List (Option Expr)) : Prop :=
  ∀ size ∈ declared, ∀ tree ∈ size, typing.shape? tree = some .integer

theorem SizesTyped.tail {declared : List (Option Expr)} (hsizes : typing.SizesTyped declared) :
    typing.SizesTyped declared.tail :=
  fun size hsize => hsizes size (List.mem_of_mem_tail hsize)

theorem safe_size (hcalls : typing.CallsSafe initial call) {declared : List (Option Expr)} (pending : Nat)
    (hsizes : typing.SizesTyped declared) :
    Safe typing initial (Meaning.size limits call pending declared.head?.join) (·.Fits .integer) := by
  cases hhead : declared.head?.join with
  | none => exact .of_keep limits pending rfl
  | some tree =>
      have hmem : some tree ∈ declared := List.mem_of_head? (Option.join_eq_some_iff.mp hhead)
      exact safe_value hcalls tree pending (hsizes _ hmem tree rfl)

theorem safe_sizes (hcalls : typing.CallsSafe initial call) {declared : List (Option Expr)} (dims pending : Nat)
    (hsizes : typing.SizesTyped declared) :
    Safe typing initial (Meaning.sizes limits call pending dims declared) fun values =>
      values.length = dims ∧ ∀ value ∈ values, value.Fits .integer := by
  induction dims generalizing declared pending with
  | zero => exact .of_pure ⟨rfl, fun _ hmem => nomatch hmem⟩
  | succ dims ih =>
      refine (safe_size hcalls pending hsizes).bind fun first hfirst => ?_
      refine (ih (pending + 1) hsizes.tail).bind fun others hothers => ?_
      exact .of_pure ⟨congrArg (· + 1) hothers.1, List.forall_mem_cons.mpr ⟨hfirst, hothers.2⟩⟩

theorem safe_zero (hcalls : typing.CallsSafe initial call) (ty : DataType) {declared : List (Option Expr)}
    (pending : Nat) (hsizes : typing.SizesTyped declared) :
    Safe typing initial (Meaning.zero limits call pending ty declared) (·.Fits ty.shape) := by
  unfold Meaning.zero
  split
  · refine (safe_sizes hcalls ty.dims pending hsizes).bind fun values hvalues => ?_
    refine (Safe.of_attempt (ensures_toSizes hvalues.2)).bind fun sizes hlength => ?_
    refine (Safe.of_attempt (ensures_checkShape limits.array 1 sizes)).bind fun _ _ => ?_
    have hfilled := ty.fits_filled sizes
    rw [hlength, hvalues.1] at hfilled
    exact .of_keep limits pending hfilled
  · rename_i harray
    have hdims : ty.dims = 0 := by simpa [DataType.isArray] using harray
    have hzero := ty.fits_zero
    rw [← hdims] at hzero
    exact .of_keep limits pending hzero

theorem safe_padding (hcalls : typing.CallsSafe initial call) (ty : DataType) {declared : List (Option Expr)}
    (count pending : Nat) (hsizes : typing.SizesTyped declared) :
    Safe typing initial (Meaning.padding limits call pending ty declared count) fun values =>
      ∀ value ∈ values, value.Fits ty.shape := by
  induction count generalizing pending with
  | zero => exact .of_pure fun _ hmem => nomatch hmem
  | succ count ih =>
      refine (safe_zero hcalls ty pending hsizes).bind fun item hitem => ?_
      refine (ih (pending + 1)).bind fun others hothers => ?_
      exact .of_pure (List.forall_mem_cons.mpr ⟨hitem, hothers⟩)

theorem safe_paddedArray (hcalls : typing.CallsSafe initial call) {ty : DataType}
    {declared : List (Option Expr)} {items : List Value} (pending : Nat) (harray : ty.isArray = true)
    (hsizes : typing.SizesTyped declared) (hitems : ∀ item ∈ items, item.Fits ty.itemType.shape) :
    Safe typing initial (Meaning.paddedArray limits call pending ty.itemType declared items)
      (·.Fits ty.shape) := by
  refine (safe_padding hcalls ty.itemType _ _ hsizes.tail).bind fun zeros hzeros => ?_
  have hall : ∀ item ∈ items ++ zeros, item.Fits ty.itemType.shape :=
    List.forall_mem_append.mpr ⟨hitems, hzeros⟩
  have hwhole : (Value.array (items ++ zeros)).Fits ⟨ty.base.family, ty.dims - 1 + 1⟩ := Value.fits_array hall
  have hdims : ty.dims - 1 + 1 = ty.dims := by
    have hne : ty.dims ≠ 0 := by simpa [DataType.isArray] using harray
    omega
  rw [hdims] at hwhole
  exact .of_keep limits pending hwhole

mutual

theorem safe_arrayItem (hcalls : typing.CallsSafe initial call) (itemType : DataType)
    {declared : List (Option Expr)} (tree : Expr) (pending : Nat) (hsizes : typing.SizesTyped declared)
    (htakes : typing.takesItem itemType tree = true) :
    Safe typing initial (Meaning.arrayItem limits call pending itemType declared tree)
      (·.Fits itemType.shape) := by
  cases tree with
  | array items ty =>
      unfold Meaning.arrayItem
      unfold takesItem at htakes
      split
      · rename_i harray
        rw [if_pos harray] at htakes
        refine (safe_arrayItems hcalls itemType.itemType items pending hsizes.tail htakes).bind
          fun values hvalues => ?_
        exact safe_paddedArray hcalls pending harray hsizes hvalues
      · rename_i harray
        rw [if_neg harray] at htakes
        exact safe_converted hcalls pending htakes
  | _ => exact safe_converted hcalls pending htakes

theorem safe_arrayItems (hcalls : typing.CallsSafe initial call) (itemType : DataType)
    {declared : List (Option Expr)} (items : List Expr) (pending : Nat) (hsizes : typing.SizesTyped declared)
    (htakes : typing.takesItems itemType items = true) :
    Safe typing initial (Meaning.arrayItems limits call pending itemType declared items) fun values =>
      ∀ value ∈ values, value.Fits itemType.shape := by
  cases items with
  | nil => exact .of_pure fun _ hmem => nomatch hmem
  | cons item rest =>
      obtain ⟨hitem, hrest⟩ := Bool.and_eq_true_iff.mp htakes
      refine (safe_arrayItem hcalls itemType item pending hsizes hitem).bind fun value hvalue => ?_
      refine (safe_arrayItems hcalls itemType rest (pending + 1) hsizes hrest).bind fun values hvalues => ?_
      exact .of_pure (List.forall_mem_cons.mpr ⟨hvalue, hvalues⟩)

end

theorem safe_initialValue (hcalls : typing.CallsSafe initial call) {ty : DataType}
    {declared : List (Option Expr)} {init : Option Expr} (pending : Nat) (hsizes : typing.SizesTyped declared)
    (hinitializes : typing.initializes ty init = true) :
    Safe typing initial (Meaning.initialValue limits call pending ty declared init) (·.Fits ty.shape) := by
  cases init with
  | none => exact safe_zero hcalls ty pending hsizes
  | some tree =>
      unfold Meaning.initialValue
      unfold initializes at hinitializes
      simp only at hinitializes ⊢
      split
      · rename_i harray
        rw [if_pos harray] at hinitializes
        cases tree with
        | array items _ =>
            refine (safe_arrayItems hcalls ty.itemType items pending hsizes.tail hinitializes).bind
              fun values hvalues => ?_
            exact safe_paddedArray hcalls pending harray hsizes hvalues
        | _ => exact safe_value hcalls _ pending (of_decide_eq_true hinitializes)
      · rename_i harray
        rw [if_neg harray] at hinitializes
        exact safe_converted hcalls pending hinitializes

/-- The result of a compound assignment has the type that it is converted from. -/
theorem shape_typeOn {op : Arith} {current tree : Expr}
    (hshape : typing.shape? (.binary (.arith op) current tree none) = some shape) :
    (BinaryOp.typeOn (.arith op) current.ty tree.ty).shape = shape := by
  obtain ⟨_, _, _, _, hbinary⟩ := of_shape?_binary hshape
  cases hcurrent : current.ty with
  | none =>
      rw [hcurrent] at hbinary
      cases hbinary
  | some left =>
      cases htree : tree.ty with
      | none =>
          rw [hcurrent, htree] at hbinary
          cases hbinary
      | some right =>
          rw [hcurrent, htree] at hbinary
          obtain ⟨family, hfamily, hjoined⟩ := Option.bind_eq_some_iff.mp hbinary
          have htype : BinaryOp.typeOn (.arith op) (some left) (some right) =
              BinaryOp.familyType left family := by
            rw [BinaryOp.typeOn, show BinaryOp.familyOn (.arith op) (some left) (some right) = some family from hfamily]
            rfl
          rw [htype]
          split at hjoined
          · rename_i hall
            cases hjoined
            have hleft := (Bool.and_eq_true_iff.mp (Bool.and_eq_true_iff.mp hall).1).2
            cases family with
            | int =>
                change (if left.isIntegral = true then _ else _ : Except _ _).isOk = true at hleft
                split at hleft
                · exact DataType.shape_of_isIntegral ‹_›
                · cases hleft
            | float => rfl
            | str => rfl
          · cases hjoined

theorem safe_assignedValue (hcalls : typing.CallsSafe initial call) {ty : DataType} {op : Option Arith}
    {current tree : Expr} (pending : Nat) (hassigns : typing.assigns ty op current tree = true) :
    Safe typing initial (Meaning.assignedValue limits call pending ty op current tree) (·.Fits ty.shape) := by
  cases op with
  | none => exact safe_converted hcalls pending hassigns
  | some op =>
      obtain ⟨shape, hshape, hbecomes⟩ := (Option.any_eq_true _ _).mp hassigns
      refine (safe_value hcalls _ pending hshape).bind fun result hresult => ?_
      rw [← shape_typeOn hshape] at hresult hbecomes
      exact safe_convert hresult hbecomes

end Trees

end Typing
end StackCode
