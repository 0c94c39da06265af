import StackCode.Generator.Stmt
import StackCode.Machine.Step

/-! Sessions: a host that compiles and runs code piece by piece over one context, one global scope and
one console. -/

namespace StackCode

structure Session where
  context : Context
  globals : Scope
  console : Console
  limits : Limits

namespace Session

/-- Compiles statements; the context keeps the functions that were entered, also after an error. -/
def compile (session : Session) (statements : List Stmt) : Except CompileError Stream × Session :=
  let (result, context) := StackCode.compile session.context statements
  (result, { session with context })

/-- The environment of the runs: all functions compiled so far. -/
def environment (session : Session) : Environment := ⟨session.context.functions, session.limits⟩

/-- The machine that runs a stream in the session. -/
def machine (session : Session) (code : Stream) : Machine := .start code session.globals session.console

/-- The session after a run. -/
def after (session : Session) (report : Report) : Session :=
  { session with globals := report.globals, console := report.console }

end Session
end StackCode
