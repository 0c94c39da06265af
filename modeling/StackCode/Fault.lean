import StackCode.Builtin
import StackCode.Console
import StackCode.DecodeError
import StackCode.Kind
import StackCode.Text.Quoted

/-! How a run fails. -/

namespace StackCode

/-- What finds fault with a value. -/
inductive Actor where
  | opcode (opcode : Opcode)
  | builtin (builtin : Builtin)
deriving DecidableEq

namespace Actor

def name : Actor → String
  | .opcode op => op.mnemonic
  | .builtin function => function.name

end Actor

/-- Why an instruction fails. -/
inductive Fault where
  | divisionByZero
  | indexOutOfBounds (index : Int64) (length : Nat)
  | negativeSize (size : Int64)
  | stackUnderflow
  | stackOverflow
  | callDepthExceeded (limit : Nat)
  | arrayTooLarge (limit : Nat)
  | invalidConversion (text : String) (target : Conversion)
  | invalidChar (code : Int64)
  | undefinedVariable (id : SymbolId)
  | typeMismatch (actor : Actor) (found : Kind)
  | unknownFunction (id : SymbolId)
  | console (failure : ConsoleFailure)
  | jumpOutOfBounds
  | invalidOperand
deriving DecidableEq

inductive RuntimeError where
  /-- The instruction at an offset of its stream failed. -/
  | fault (offset : Nat) (cause : Fault)
  /-- There is no instruction where the next one should be. -/
  | malformed (error : DecodeError)
deriving DecidableEq

namespace Fault

/-- The message for a fault at an offset. -/
def message (offset : Nat) (fault : Fault) : String :=
  let place := " at byte " ++ Numeral.ofNat offset
  match fault with
  | .divisionByZero => "division by zero" ++ place
  | .indexOutOfBounds index length =>
    "index " ++ Numeral.ofInt index.toInt ++ " out of bounds (length " ++ Numeral.ofNat length ++ ")" ++ place
  | .negativeSize size => "negative array size " ++ Numeral.ofInt size.toInt ++ place
  | .stackUnderflow => "stack underflow" ++ place
  | .stackOverflow => "stack overflow" ++ place
  | .callDepthExceeded limit => "call depth exceeded limit " ++ Numeral.ofNat limit ++ place
  | .arrayTooLarge limit => "array allocation exceeds " ++ Numeral.ofNat limit ++ " values" ++ place
  | .invalidConversion text target =>
    "cannot convert " ++ Text.quote text ++ " to " ++ (Builtin.convert target).name ++ place
  | .invalidChar code => "invalid character code " ++ Numeral.ofInt code.toInt ++ place
  | .undefinedVariable id => "undefined variable " ++ Numeral.ofNat id.toNat ++ place
  | .typeMismatch actor found => actor.name ++ " cannot operate on " ++ found.name ++ place
  | .unknownFunction id => "unknown function " ++ Numeral.ofNat id.toNat ++ place
  | .console failure => "I/O error" ++ place ++ ": " ++ failure.message
  | .jumpOutOfBounds => "jump" ++ place ++ " leaves the stream"
  | .invalidOperand => "operand does not match opcode" ++ place

/-- Faults that compiled code of a well-typed program does not have, unless it looks for a variable that it has not
bound yet. -/
def isInternal : Fault → Bool
  | .jumpOutOfBounds | .invalidOperand | .typeMismatch _ _ | .unknownFunction _ | .undefinedVariable _ => true
  | _ => false

end Fault

namespace RuntimeError

def message : RuntimeError → String
  | .fault offset cause => cause.message offset
  | .malformed error => "malformed instruction stream: " ++ error.message

def isInternal : RuntimeError → Bool
  | .fault _ cause => cause.isInternal
  | .malformed _ => true

end RuntimeError
end StackCode
