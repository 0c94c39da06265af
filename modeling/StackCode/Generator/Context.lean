import StackCode.Builtin
import StackCode.CompileError
import StackCode.Program

/-! What compilations share: the functions declared so far and the next free identifier. -/

namespace StackCode

structure Context where
  nextId : SymbolId
  functions : FunctionTable
deriving DecidableEq

namespace Context

def empty : Context := ⟨reservedIds, .empty⟩

/-- Hands out an identifier that was not handed out before. -/
def allocateId (context : Context) : Except CompileError (SymbolId × Context) :=
  if context.nextId.toNat + 1 < UInt64.size then
    .ok (context.nextId, { context with nextId := context.nextId + 1 })
  else .error .idsExhausted

/-- How many parameters a declared function has. -/
def arity? (context : Context) (id : SymbolId) : Option Nat := (context.functions.get? id).map Function.arity

/-- Enters a function with its parameters and no code yet. -/
def declareFunction (context : Context) (id : SymbolId) (params : List SymbolId) :
    Except CompileError Context :=
  if isReserved id then .error (.reservedId id)
  else if context.functions.contains id then .error (.duplicateFunction id)
  else .ok { context with functions := context.functions.insert id ⟨params, .empty⟩ }

/-- Gives a declared function its code. -/
def defineFunction (context : Context) (id : SymbolId) (code : Stream) : Context :=
  match context.functions.get? id with
  | some function => { context with functions := context.functions.insert id { function with code } }
  | none => context

end Context
end StackCode
