import StackCode.Table
import StackCode.Value

/-! Variables. The global scope outlives a run; a call has a scope of its own over it. -/

namespace StackCode

abbrev Scope := Table Value

namespace Scope

/-- Makes an identifier a variable, with the integer zero if it was none. -/
def declare (scope : Scope) (id : SymbolId) : Scope := scope.insertIfNew id (.int 0)

end Scope

/-- The scopes that running code sees: the global one and, within a call, that of the call. -/
structure Scopes where
  globals : Scope
  locals : Option Scope
deriving DecidableEq

namespace Scopes

/-- A variable of the call hides a global one. -/
def load (scopes : Scopes) (id : SymbolId) : Option Value :=
  match scopes.locals.bind (·.get? id) with
  | some value => some value
  | none => scopes.globals.get? id

/-- Overwrites the variable that `load` finds; nothing changes if there is none. -/
def replace (scopes : Scopes) (id : SymbolId) (value : Value) : Scopes :=
  match scopes.locals with
  | some locals =>
    if locals.contains id then { scopes with locals := some (locals.insert id value) }
    else if scopes.globals.contains id then { scopes with globals := scopes.globals.insert id value }
    else scopes
  | none =>
    if scopes.globals.contains id then { scopes with globals := scopes.globals.insert id value } else scopes

/-- Binds a variable: a global one where there is one of that name, else one of the innermost scope. -/
def store (scopes : Scopes) (id : SymbolId) (value : Value) : Scopes :=
  if scopes.globals.contains id then { scopes with globals := scopes.globals.insert id value }
  else
    match scopes.locals with
    | some locals => { scopes with locals := some (locals.insert id value) }
    | none => { scopes with globals := scopes.globals.insert id value }

end Scopes
end StackCode
