import Mathlib
import StackCode.Generator.Typing
import StackCode.Syntax.Stmt

/-! What syntax trees say before they are run: which operation an operator stands for by the types of its
operands, and which functions are declared. -/

namespace StackCode

namespace UnaryOp

/-- The operation on an operand of a type. Where there is none the operator is refused, and it does not
matter which one stands here. -/
def operationOn (op : UnaryOp) (ty : Option DataType) : Operation :=
  (op.operation? (ty.bind DataType.family?)).getD .negInt

theorem arity_operationOn (op : UnaryOp) (ty : Option DataType) : (op.operationOn ty).arity = 1 := by
  unfold operationOn
  rcases ty.bind DataType.family? with _ | _ | _ | _ <;> cases op <;> rfl

end UnaryOp

namespace BinaryOp

/-- The family in which operands of two types meet. Connectives look at no types. -/
def familyOn (op : BinaryOp) (leftType rightType : Option DataType) : Option Family :=
  match op with
  | .logic _ => none
  | _ => leftType.bind fun left => rightType.bind fun right => familyOf? left right

/-- The operation on operands of a family. Where there is none the operator is refused, and it does not
matter which one stands here. -/
def operationOn (op : BinaryOp) (family : Option Family) : Operation :=
  match op with
  | .logic connective => .logic connective
  | _ => (family.bind op.operation?).getD .concat

theorem arity_operationOn (op : BinaryOp) (family : Option Family) : (op.operationOn family).arity = 2 := by
  cases op with
  | arith op => rcases family with _ | _ | _ | _ <;> cases op <;> rfl
  | compare relation => cases family <;> rfl
  | logic connective => rfl

/-- The type of the result. -/
def typeOn (op : BinaryOp) (leftType rightType : Option DataType) : DataType :=
  match op.familyOn leftType rightType with
  | some family => op.resultType (leftType.getD .bool) family
  | none => .bool

end BinaryOp

/-- A function as a tree declares it. -/
structure Declaration where
  id : SymbolId
  params : List SymbolId
  body : List Stmt

namespace Declaration

/-- The declaration of an identifier. -/
def find? (declared : List Declaration) (id : SymbolId) : Option Declaration :=
  declared.find? (·.id = id)

mutual

/-- The functions that a statement declares, at any depth. -/
def ofStmt : Stmt → List Declaration
  | .conditional list => ofBranches list
  | .whileLoop _ body => ofStmts body
  | .forLoop init _ body => ofStmt init ++ ofStmts body
  | .function id params body => ⟨id, params, body⟩ :: ofStmts body
  | .declare _ _ _ _ | .assign _ _ _ _ | .assignElement _ _ _ _ _ | .ret _ | .expr _ => []

def ofStmts : List Stmt → List Declaration
  | [] => []
  | first :: rest => ofStmt first ++ ofStmts rest

def ofBranches : Branches → List Declaration
  | .otherwise body => ofStmts body
  | .arm _ body rest => ofStmts body ++ ofBranches rest

end

theorem find?_eq_some {declared : List Declaration} {id : SymbolId} {declaration : Declaration}
    (hfind : find? declared id = some declaration) : declaration ∈ declared ∧ declaration.id = id := by
  have htest := List.find?_some hfind
  exact ⟨List.mem_of_find?_eq_some hfind, of_decide_eq_true htest⟩

theorem find?_eq_none {declared : List Declaration} {id : SymbolId} :
    find? declared id = none ↔ ∀ declaration ∈ declared, declaration.id ≠ id := by
  simp [find?]

theorem find?_append (first second : List Declaration) (id : SymbolId) :
    find? (first ++ second) id = (find? first id).or (find? second id) :=
  List.find?_append

theorem find?_of_mem {declared : List Declaration}
    (hdistinct : declared.Pairwise fun first second => first.id ≠ second.id) {declaration : Declaration}
    (hmem : declaration ∈ declared) : find? declared declaration.id = some declaration := by
  induction declared with
  | nil => cases hmem
  | cons first rest ih =>
      obtain ⟨hfirst, hrest⟩ := List.pairwise_cons.mp hdistinct
      rcases List.mem_cons.mp hmem with rfl | hlater
      · simp [find?]
      · have hfind := ih hrest hlater
        rw [find?] at hfind ⊢
        rw [List.find?_cons_of_neg (by simp [hfirst declaration hlater]), hfind]

end Declaration
end StackCode
