import StackCode.Element
import StackCode.Operation

/-! What operations compute. The right operand is on top of the stack and is taken first. -/

namespace StackCode

/-- Operands, the last pushed first. -/
abbrev Stack := List Value

namespace Stack

def pop : Stack → Except Fault (Value × Stack)
  | value :: rest => .ok (value, rest)
  | [] => .error .stackUnderflow

/-- Takes `count` values, in the order in which they were pushed. -/
def popMany (count : Nat) (stack : Stack) : Except Fault (List Value × Stack) :=
  if count ≤ stack.length then .ok ((stack.take count).reverse, stack.drop count)
  else .error .stackUnderflow

/-- Takes `count` subscripts; that of the outermost dimension is on top. -/
def popPath (count : Nat) (stack : Stack) : Except Fault (List Value × Stack) :=
  if count ≤ stack.length then .ok (stack.take count, stack.drop count) else .error .stackUnderflow

/-- Takes an integer of either signedness at its exact value. -/
def popInteger (operation : Operation) (stack : Stack) : Except Fault (Int × Stack) := do
  let (value, rest) ← stack.pop
  match value.integer? with
  | some n => .ok (n, rest)
  | none => .error (.mismatch (.operate operation) value)

def popFloat (operation : Operation) (stack : Stack) : Except Fault (Binary64 × Stack) := do
  match ← stack.pop with
  | (.float x, rest) => .ok (x, rest)
  | (value, _) => .error (.mismatch (.operate operation) value)

def popText (operation : Operation) (stack : Stack) : Except Fault (String × Stack) := do
  match ← stack.pop with
  | (.str text, rest) => .ok (text, rest)
  | (value, _) => .error (.mismatch (.operate operation) value)

end Stack

namespace Relation

def onIntegers : Relation → Int → Int → Bool
  | .lt, left, right => left < right
  | .le, left, right => left ≤ right
  | .gt, left, right => right < left
  | .ge, left, right => right ≤ left
  | .eq, left, right => left = right
  | .ne, left, right => left ≠ right

def onFloats : Relation → Binary64 → Binary64 → Bool
  | .lt, left, right => left.isBelow right
  | .le, left, right => left.isAtMost right
  | .gt, left, right => right.isBelow left
  | .ge, left, right => right.isAtMost left
  | .eq, left, right => left.isEqual right
  | .ne, left, right => !left.isEqual right

/-- Texts are ordered by the bytes of their encodings, the first difference deciding. -/
def onTexts : Relation → String → String → Bool
  | .lt, left, right => left.toUTF8.data.toList < right.toUTF8.data.toList
  | .le, left, right => left.toUTF8.data.toList ≤ right.toUTF8.data.toList
  | .gt, left, right => right.toUTF8.data.toList < left.toUTF8.data.toList
  | .ge, left, right => right.toUTF8.data.toList ≤ left.toUTF8.data.toList
  | .eq, left, right => left = right
  | .ne, left, right => left ≠ right

end Relation

namespace Connective

def onTruths : Connective → Bool → Bool → Bool
  | .and, left, right => left && right
  | .or, left, right => left || right

end Connective

namespace Arith

/-- Signed arithmetic modulo `2 ^ 64`; division goes towards zero. -/
def onSigned : Arith → Int64 → Int64 → Int64
  | .add, left, right => left + right
  | .sub, left, right => left - right
  | .mul, left, right => left * right
  | .div, left, right => left / right
  | .mod, left, right => left % right

/-- Unsigned arithmetic modulo `2 ^ 64`. -/
def onUnsigned : Arith → UInt64 → UInt64 → UInt64
  | .add, left, right => left + right
  | .sub, left, right => left - right
  | .mul, left, right => left * right
  | .div, left, right => left / right
  | .mod, left, right => left % right

/-- Two unsigned operands have an unsigned result, a signed operand makes it signed. -/
def onValues (op : Arith) : Value → Value → Except Fault Value
  | .uint left, .uint right => .ok (.uint (op.onUnsigned left right))
  | .int left, .int right => .ok (.int (op.onSigned left right))
  | .int left, .uint right => .ok (.int (op.onSigned left right.toInt64))
  | .uint left, .int right => .ok (.int (op.onSigned left.toInt64 right))
  | .int _, right => .error (.mismatch (.operate (.intArith op)) right)
  | .uint _, right => .error (.mismatch (.operate (.intArith op)) right)
  | left, _ => .error (.mismatch (.operate (.intArith op)) left)

/-- Division and remainder need a divisor that is not zero. -/
def divides : Arith → Bool
  | .div | .mod => true
  | .add | .sub | .mul => false

end Arith

namespace FloatArith

def onFloats : FloatArith → Binary64 → Binary64 → Except Fault Binary64
  | .add, left, right => .ok (left + right)
  | .sub, left, right => .ok (left - right)
  | .mul, left, right => .ok (left * right)
  | .div, left, right => if right.isZero then .error .divisionByZero else .ok (left / right)

end FloatArith

namespace Operation

/-- The truth of an operand of a connective. -/
def truthOf (operation : Operation) (value : Value) : Except Fault Bool :=
  match value.truth? with
  | some truth => .ok truth
  | none => .error (.mismatch (.operate operation) value)

/-- A zero on top of the stack, which no integer can be divided by. -/
def hasZeroDivisor : Stack → Bool
  | .int n :: _ => n == 0
  | .uint n :: _ => n == 0
  | _ => false

/-- The result of an operation and the stack without its operands. -/
def apply (operation : Operation) (stack : Stack) : Except Fault (Value × Stack) :=
  match operation with
  | .negInt => do
    match ← stack.pop with
    | (.int n, rest) => .ok (.int (-n), rest)
    | (.uint n, rest) => .ok (.int (-n.toInt64), rest)
    | (value, _) => .error (.mismatch (.operate operation) value)
  | .negFloat => do
    let (x, rest) ← stack.popFloat operation
    .ok (.float (-x), rest)
  | .notInt => do
    let (n, rest) ← stack.popInteger operation
    .ok (.ofBool (n = 0), rest)
  | .notFloat => do
    let (x, rest) ← stack.popFloat operation
    .ok (.ofBool x.isZero, rest)
  | .intArith op => do
    if op.divides && hasZeroDivisor stack then .error .divisionByZero
    let (right, rest) ← stack.pop
    let (left, rest) ← Stack.pop rest
    let result ← op.onValues left right
    .ok (result, rest)
  | .floatArith op => do
    let (right, rest) ← stack.popFloat operation
    let (left, rest) ← Stack.popFloat operation rest
    let result ← op.onFloats left right
    .ok (.float result, rest)
  | .concat => do
    let (right, rest) ← stack.popText operation
    let (left, rest) ← Stack.popText operation rest
    .ok (.str (left ++ right), rest)
  | .compare relation .int => do
    let (right, rest) ← stack.popInteger operation
    let (left, rest) ← Stack.popInteger operation rest
    .ok (.ofBool (relation.onIntegers left right), rest)
  | .compare relation .float => do
    let (right, rest) ← stack.popFloat operation
    let (left, rest) ← Stack.popFloat operation rest
    .ok (.ofBool (relation.onFloats left right), rest)
  | .compare relation .str => do
    let (right, rest) ← stack.popText operation
    let (left, rest) ← Stack.popText operation rest
    .ok (.ofBool (relation.onTexts left right), rest)
  | .logic connective => do
    let (right, rest) ← stack.pop
    let (left, rest) ← Stack.pop rest
    let rightTruth ← truthOf operation right
    let leftTruth ← truthOf operation left
    .ok (.ofBool (connective.onTruths leftTruth rightTruth), rest)
  | .intToFloat => do
    let (n, rest) ← stack.popInteger operation
    .ok (.float (.ofInt n), rest)
  | .floatToInt => do
    let (x, rest) ← stack.popFloat operation
    .ok (.int x.toInt64, rest)
  | .floatToBool => do
    let (x, rest) ← stack.popFloat operation
    .ok (.ofBool (!x.isZero), rest)
  | .index => do
    let (subscript, rest) ← stack.pop
    let (container, rest) ← Stack.pop rest
    let element ← container.read [subscript]
    .ok (element, rest)

end Operation
end StackCode
