/-! The operations that take operands from the stack and leave one result there. -/

namespace StackCode

/-- The operand families that arithmetic and comparison come in. -/
inductive Family where
  | int
  | float
  | str
deriving DecidableEq

inductive Arith where
  | add
  | sub
  | mul
  | div
  | mod
deriving DecidableEq

inductive FloatArith where
  | add
  | sub
  | mul
  | div
deriving DecidableEq

inductive Relation where
  | lt
  | le
  | gt
  | ge
  | eq
  | ne
deriving DecidableEq

inductive Connective where
  | and
  | or
deriving DecidableEq

inductive Operation where
  | negInt
  | negFloat
  | notInt
  | notFloat
  | intArith (op : Arith)
  | floatArith (op : FloatArith)
  | concat
  | compare (relation : Relation) (family : Family)
  | logic (connective : Connective)
  | intToFloat
  | floatToInt
  | floatToBool
  | index
deriving DecidableEq

namespace Operation

/-- How many operands an operation takes. -/
def arity : Operation → Nat
  | .negInt | .negFloat | .notInt | .notFloat | .intToFloat | .floatToInt | .floatToBool => 1
  | .intArith _ | .floatArith _ | .concat | .compare _ _ | .logic _ | .index => 2

end Operation
end StackCode
