import StackCode.Decimal.Style
import StackCode.Kind
import StackCode.Text.Joined

/-! Run-time values. Truth values and characters are integers: 0 or 1, and the code point. -/

namespace StackCode

inductive Value where
  | int (n : Int64)
  | uint (n : UInt64)
  | float (x : Binary64)
  | str (text : String)
  | array (items : List Value)
deriving Inhabited

namespace Value

mutual

/-- Structural equality; floats are compared by their patterns. -/
def same : Value → Value → Bool
  | .int left, .int right => left == right
  | .uint left, .uint right => left == right
  | .float left, .float right => left == right
  | .str left, .str right => left == right
  | .array left, .array right => sameAll left right
  | _, _ => false

def sameAll : List Value → List Value → Bool
  | [], [] => true
  | left :: lefts, right :: rights => same left right && sameAll lefts rights
  | _, _ => false

end

mutual

theorem same_iff : (left right : Value) → (same left right = true ↔ left = right)
  | .int _, right => by cases right <;> simp [same]
  | .uint _, right => by cases right <;> simp [same]
  | .float _, right => by cases right <;> simp [same]
  | .str _, right => by cases right <;> simp [same]
  | .array left, right => by
    cases right with
    | array right => simp [same, sameAll_iff left right]
    | _ => simp [same]

theorem sameAll_iff : (left right : List Value) → (sameAll left right = true ↔ left = right)
  | [], right => by cases right <;> simp [sameAll]
  | left :: lefts, right => by
    cases right with
    | nil => simp [sameAll]
    | cons right rights => simp [sameAll, same_iff left right, sameAll_iff lefts rights]

end

instance : DecidableEq Value := fun left right => decidable_of_iff _ (same_iff left right)

def ofBool (truth : Bool) : Value := .int (if truth then 1 else 0)

def ofChar (c : Char) : Value := .int (Int64.ofNat c.toNat)

def kind : Value → Kind
  | .int _ => .int
  | .uint _ => .uint
  | .float _ => .float
  | .str _ => .str
  | .array _ => .array

/-- The zero of a kind: a number, the empty text or the empty array. -/
def zero : Kind → Value
  | .int => .int 0
  | .uint => .uint 0
  | .float => .float .zero
  | .str => .str ""
  | .array => .array []

/-- Nested arrays of the given shape, outermost size first, with zeros of one kind as leaves. What would
stand inside an empty array is not built. -/
def filled (leaf : Kind) : List Nat → Value
  | [] => zero leaf
  | size :: rest => if size = 0 then .array [] else .array (List.replicate size (filled leaf rest))

/-- The truth of a number: every number but zero is true. Texts and arrays have none. -/
def truth? : Value → Option Bool
  | .int n => some (n != 0)
  | .uint n => some (n != 0)
  | .float x => some (!x.isZero)
  | .str _ => none
  | .array _ => none

/-- Characters of a text, items of an array. -/
def length? : Value → Option Nat
  | .str text => some text.length
  | .array items => some items.length
  | .int _ | .uint _ | .float _ => none

def isEmpty (value : Value) : Bool := value.length? == some 0

/-- The exact integer that an integer value of either signedness stands for. -/
def integer? : Value → Option Int
  | .int n => some n.toInt
  | .uint n => some n.toNat
  | .float _ | .str _ | .array _ => none

/-- Floats in texts are positional at any size, and whole ones have no point. -/
def floatStyle : Decimal.Style where
  pointZero := false
  isPositional := fun _ => true

mutual

def text : Value → String
  | .int n => Numeral.ofInt n.toInt
  | .uint n => Numeral.ofNat n.toNat
  | .float x => floatStyle.render x
  | .str content => content
  | .array items => "[" ++ Text.commaSeparated (texts items) ++ "]"

def texts : List Value → List String
  | [] => []
  | value :: rest => value.text :: texts rest

end

end Value
end StackCode
