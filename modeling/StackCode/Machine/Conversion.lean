import StackCode.Decimal.Reader
import StackCode.Element

/-! What the built-in functions make of a value. -/

namespace StackCode

namespace Value

/-- The 64-bit pattern of an integer value, read as a signed integer. -/
def signedPattern? : Value → Option Int64
  | .int n => some n
  | .uint n => some n.toInt64
  | .float _ | .str _ | .array _ => none

/-- The 64-bit pattern of an integer value, read as an unsigned integer. -/
def unsignedPattern? : Value → Option UInt64
  | .int n => some n.toUInt64
  | .uint n => some n
  | .float _ | .str _ | .array _ => none

end Value

namespace PrintForm

/-- The text that is printed for a value. -/
def text (form : PrintForm) (value : Value) : Except Fault String :=
  let mismatch : Except Fault String := .error (.mismatchIn (.print form) value)
  match form with
  | .bool =>
    match value.truth? with
    | some truth => .ok (if truth then "true" else "false")
    | none => mismatch
  | .char => value.toChar.map Char.toString
  | .int width =>
    match value.signedPattern? with
    | some n => .ok (Numeral.ofInt (width.wrapSigned n).toInt)
    | none => mismatch
  | .uint width =>
    match value.unsignedPattern? with
    | some n => .ok (Numeral.ofNat (width.wrapUnsigned n).toNat)
    | none => mismatch
  | .float =>
    match value with
    | .float x => .ok (Value.floatStyle.render x)
    | _ => mismatch
  | .str =>
    match value with
    | .str content => .ok content
    | _ => mismatch

end PrintForm

namespace Conversion

/-- The reading of a text, or the fault that it does not convert. -/
def reading {α : Type} (conversion : Conversion) (text : String) : Option α → Except Fault α
  | some result => .ok result
  | none => .error (.invalidConversion text conversion)

def readTruth? (text : String) : Option Bool :=
  if text = "true" then some true
  else if text = "false" then some false
  else none

/-- The only character of a text. -/
def onlyChar? : List Char → Option Char
  | [c] => some c
  | _ => none

/-- White space around a numeral does not count. -/
def readSigned (width : Width) (text : String) : Except Fault Int64 :=
  reading (.int width) text (Numeral.readInt64? (Text.trim text.toList))

def readUnsigned (width : Width) (text : String) : Except Fault UInt64 :=
  reading (.uint width) text (Numeral.readUInt64? (Text.trim text.toList))

def readFloat (text : String) : Except Fault Binary64 :=
  reading .float text (Decimal.read? (Text.trim text.toList))

/-- The value that a conversion makes of its argument. -/
def apply (conversion : Conversion) (value : Value) : Except Fault Value :=
  let mismatch : Except Fault Value := .error (.mismatchIn (.convert conversion) value)
  match conversion, value with
  | .bool, .str text => (reading .bool text (readTruth? text)).map Value.ofBool
  | .bool, .array _ => mismatch
  | .bool, .int n => .ok (.ofBool (n != 0))
  | .bool, .uint n => .ok (.ofBool (n != 0))
  | .bool, .float x => .ok (.ofBool (!x.isZero))
  | .char, .str text => (reading .char text (onlyChar? text.toList)).map Value.ofChar
  | .char, code => code.toChar.map Value.ofChar
  | .int width, .int n => .ok (.int (width.wrapSigned n))
  | .int width, .uint n => .ok (.int (width.wrapSigned n.toInt64))
  | .int width, .float x => .ok (.int (width.wrapSigned x.toInt64))
  | .int width, .str text => (readSigned width text).map fun n => .int (width.wrapSigned n)
  | .int _, .array _ => mismatch
  | .uint width, .int n => .ok (.uint (width.wrapUnsigned n.toUInt64))
  | .uint width, .uint n => .ok (.uint (width.wrapUnsigned n))
  | .uint width, .float x => .ok (.uint (width.wrapUnsigned x.toUInt64))
  | .uint width, .str text => (readUnsigned width text).map fun n => .uint (width.wrapUnsigned n)
  | .uint _, .array _ => mismatch
  | .float, .int n => .ok (.float (.ofInt n.toInt))
  | .float, .uint n => .ok (.float (.ofInt n.toNat))
  | .float, .float x => .ok (.float x)
  | .float, .str text => (readFloat text).map Value.float
  | .float, .array _ => mismatch
  | .str, .array _ => mismatch
  | .str, scalar => .ok (.str scalar.text)
  | .charToStr, code => code.toChar.map fun c => .str c.toString
  | .length, .str text => .ok (.int (Int64.ofNat text.length))
  | .length, .array items => .ok (.int (Int64.ofNat items.length))
  | .length, .int _ => mismatch
  | .length, .uint _ => mismatch
  | .length, .float _ => mismatch

end Conversion
end StackCode
