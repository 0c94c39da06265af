import StackCode.Fault
import StackCode.Value

/-! Values as positions, sizes and characters, and elements within arrays and texts. -/

namespace StackCode

namespace Fault

def mismatch (opcode : Opcode) (found : Value) : Fault := .typeMismatch (.opcode opcode) found.kind

def mismatchIn (builtin : Builtin) (found : Value) : Fault := .typeMismatch (.builtin builtin) found.kind

end Fault

namespace Value

/-- An integer value in the signed range; what exceeds it counts as the greatest signed integer. -/
def clamped? : Value → Option Int64
  | .int n => some n
  | .uint n => some (if n < 0x8000000000000000 then n.toInt64 else Int64.maxValue)
  | .float _ | .str _ | .array _ => none

/-- The position that an integer value names in a row of the given length. -/
def position (index : Value) (length : Nat) : Except Fault (Fin length) :=
  match index.clamped? with
  | none => .error (.mismatch (.operate .index) index)
  | some n =>
    if bounds : 0 ≤ n.toInt ∧ n.toInt.toNat < length then .ok ⟨n.toInt.toNat, bounds.2⟩
    else .error (.indexOutOfBounds n length)

/-- The character that an integer value is the code of. -/
def toChar (code : Value) : Except Fault Char :=
  match code.clamped? with
  | none => .error (.mismatchIn (.convert .char) code)
  | some n =>
    if 0 ≤ n.toInt ∧ n.toInt.toNat.isValidChar then .ok (Char.ofNat n.toInt.toNat)
    else .error (.invalidChar n)

/-- The size that an integer value gives for a level of an array. -/
def toSize : Value → Except Fault Nat
  | .int n => if 0 ≤ n.toInt then .ok n.toInt.toNat else .error (.negativeSize n)
  | .uint n => .ok n.toNat
  | value => .error (.mismatch .allocFilled value)

/-- The value under a path of subscripts, outermost first. The last subscript may reach into a text, and
gives the code of a character there. -/
def read : Value → List Value → Except Fault Value
  | base, [] => .ok base
  | .array items, index :: rest =>
    match index.position items.length with
    | .ok position => read items[position] rest
    | .error fault => .error fault
  | .str text, [index] =>
    match index.position text.toList.length with
    | .ok position => .ok (ofChar text.toList[position])
    | .error fault => .error fault
  | base, _ :: _ => .error (.mismatch (.operate .index) base)

/-- The base with the value under a path of subscripts overwritten. -/
def write : Value → List Value → Value → Except Fault Value
  | _, [], value => .ok value
  | .array items, index :: rest, value =>
    match index.position items.length with
    | .error fault => .error fault
    | .ok position =>
      match write items[position] rest value with
      | .ok item => .ok (.array (items.set position item))
      | .error fault => .error fault
  | .str text, [index], value =>
    match index.position text.toList.length with
    | .error fault => .error fault
    | .ok position =>
      match value.toChar with
      | .ok c => .ok (.str (String.ofList (text.toList.set position c)))
      | .error fault => .error fault
  | base, _ :: _, _ => .error (.mismatch .storeElement base)

end Value

/-- The number of values at each level of a shape, outermost first, must not exceed a limit. The count
starts from that of the level around. -/
def checkShape (limit : Nat) : (count : Nat) → List Nat → Except Fault Unit
  | _, [] => .ok ()
  | count, size :: rest =>
    if count * size ≤ limit then checkShape limit (count * size) rest else .error (.arrayTooLarge limit)

end StackCode
