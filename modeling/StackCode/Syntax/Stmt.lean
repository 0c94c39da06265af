import StackCode.Syntax.Expr

/-! Statements. -/

namespace StackCode

mutual

inductive Stmt where
  /-- Declares a variable. A missing size counts as zero. -/
  | declare (id : SymbolId) (ty : DataType) (sizes : List (Option Expr)) (init : Option Expr)
  /-- Assigns to a variable, plainly or through an arithmetic operation with its value. -/
  | assign (id : SymbolId) (ty : DataType) (op : Option Arith) (value : Expr)
  /-- Assigns to an element; `ty` is the type of the element. -/
  | assignElement (id : SymbolId) (ty : DataType) (indices : List Expr) (op : Option Arith) (value : Expr)
  | conditional (branches : Branches)
  | whileLoop (cond : Expr) (body : List Stmt)
  | forLoop (init : Stmt) (cond : Expr) (body : List Stmt)
  | function (id : SymbolId) (params : List SymbolId) (body : List Stmt)
  | ret (value : Option Expr)
  | expr (value : Expr)

/-- Conditions tried in order, each with its body, and what to do if none holds. -/
inductive Branches where
  | otherwise (body : List Stmt)
  | arm (cond : Expr) (body : List Stmt) (rest : Branches)

end

instance : Inhabited Stmt := ⟨.ret none⟩

namespace Branches

def ofArms (arms : List (Expr × List Stmt)) (fallback : List Stmt) : Branches :=
  arms.foldr (fun arm rest => .arm arm.1 arm.2 rest) (.otherwise fallback)

end Branches
end StackCode
