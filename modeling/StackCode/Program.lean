import StackCode.Stream
import StackCode.Table

/-! Programs: a main stream and the functions that it can call. -/

namespace StackCode

structure Function where
  /-- The variables that the arguments are bound to, first argument first. -/
  params : List SymbolId
  code : Stream
deriving DecidableEq

namespace Function

def arity (function : Function) : Nat := function.params.length

end Function

abbrev FunctionTable := Table Function

structure Program where
  main : Stream
  functions : FunctionTable
deriving DecidableEq

end StackCode
