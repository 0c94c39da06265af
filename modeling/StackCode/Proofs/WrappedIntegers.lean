import StackCode.Proofs.Codec
import StackCode.Proofs.Meaning

/-! Integer operations as operations on mathematical numbers. Values wrap around at the 64 bits they are kept in;
which of the two ways depends on the operands. Comparisons do not wrap: they see the numbers as they are. -/

namespace StackCode

/-- An integer of a program: how it is kept, and the number it stands for. -/
structure Number where
  signed : Bool
  value : Int
deriving DecidableEq

namespace Number

/-- The 64 bits of a number, read as signed. -/
def pattern (x : Number) : Int := x.value.bmod (2 ^ 64)

def ofSigned (n : Int) : Number := ⟨true, n.bmod (2 ^ 64)⟩

def ofUnsigned (n : Int) : Number := ⟨false, n % 2 ^ 64⟩

def ofTruth (p : Prop) [Decidable p] : Number := ⟨true, if p then 1 else 0⟩

/-- A result of two operands; it is unsigned only if both are. -/
def wrapped (left right : Number) (n : Int) : Number :=
  if left.signed || right.signed then ofSigned n else ofUnsigned n

/-- Unsigned numbers are divided as they are, others by their patterns and towards zero. One quotient of
patterns is too large for 64 bits. -/
def quotient (left right : Number) : Number :=
  if left.signed || right.signed then
    if left.pattern = -2 ^ 63 ∧ right.pattern = -1 then ⟨true, -2 ^ 63⟩
    else ⟨true, left.pattern.tdiv right.pattern⟩
  else ⟨false, left.value / right.value⟩

def remainder (left right : Number) : Number :=
  if left.signed || right.signed then ⟨true, left.pattern.tmod right.pattern⟩
  else ⟨false, left.value % right.value⟩

def unary : UnaryOp → Number → Number
  | .neg, x => ofSigned (-x.value)
  | .not, x => ofTruth (x.value = 0)

/-- There is no result where the divisor is zero. -/
def arith : Arith → Number → Number → Option Number
  | .add, left, right => some (wrapped left right (left.value + right.value))
  | .sub, left, right => some (wrapped left right (left.value - right.value))
  | .mul, left, right => some (wrapped left right (left.value * right.value))
  | .div, left, right => if right.value = 0 then none else some (quotient left right)
  | .mod, left, right => if right.value = 0 then none else some (remainder left right)

def compare : Relation → Number → Number → Number
  | .lt, left, right => ofTruth (left.value < right.value)
  | .le, left, right => ofTruth (left.value ≤ right.value)
  | .gt, left, right => ofTruth (left.value > right.value)
  | .ge, left, right => ofTruth (left.value ≥ right.value)
  | .eq, left, right => ofTruth (left.value = right.value)
  | .ne, left, right => ofTruth (left.value ≠ right.value)

def logic : Connective → Number → Number → Number
  | .and, left, right => ofTruth (left.value ≠ 0 ∧ right.value ≠ 0)
  | .or, left, right => ofTruth (left.value ≠ 0 ∨ right.value ≠ 0)

def binary : BinaryOp → Number → Number → Option Number
  | .arith op, left, right => arith op left right
  | .compare relation, left, right => some (compare relation left right)
  | .logic connective, left, right => some (logic connective left right)

theorem pattern_wrapped (left right : Number) (n : Int) : (wrapped left right n).pattern = n.bmod (2 ^ 64) := by
  unfold wrapped pattern
  split
  · exact Int.bmod_bmod
  · exact Int.emod_bmod n (2 ^ 64)

/-- In a result that wraps around a factor counts by its pattern only. -/
theorem bmod_mul_pattern_add (factor rest : Int) (x : Number) :
    (factor * x.pattern + rest).bmod (2 ^ 64) = (factor * x.value + rest).bmod (2 ^ 64) := by
  rw [← Int.bmod_add_bmod, pattern, Int.mul_bmod_bmod, Int.bmod_add_bmod]

/-- Quotient and remainder make up the dividend again, modulo `2 ^ 64`. -/
theorem quotient_mul_add_remainder (left right : Number) :
    ((quotient left right).value * right.value + (remainder left right).value).bmod (2 ^ 64) = left.pattern := by
  unfold quotient remainder
  by_cases hsigned : (left.signed || right.signed) = true
  · have hself : left.pattern.bmod (2 ^ 64) = left.pattern := Int.bmod_bmod
    rw [if_pos hsigned, if_pos hsigned, ← bmod_mul_pattern_add]
    by_cases hlargest : left.pattern = -2 ^ 63 ∧ right.pattern = -1
    · rw [if_pos hlargest, hlargest.1, hlargest.2]
      decide
    · rw [if_neg hlargest, Int.tdiv_mul_add_tmod, hself]
  · rw [if_neg hsigned, if_neg hsigned, Int.ediv_mul_add_emod]
    rfl

end Number

namespace Value

/-- The number that an integer value stands for. -/
def number? : Value → Option Number
  | .int n => some ⟨true, n.toInt⟩
  | .uint n => some ⟨false, n.toNat⟩
  | .float _ | .str _ | .array _ => none

/-- The signed integer of the same bits. -/
def asSigned : Value → Int64
  | .int n => n
  | .uint n => n.toInt64
  | .float _ | .str _ | .array _ => 0

variable {value left right : Value} {x y : Number}

theorem toInt_asSigned (hvalue : value.number? = some x) : value.asSigned.toInt = x.pattern := by
  cases value with
  | int n =>
      cases hvalue
      exact (Int64.toInt_bmod n).symm
  | uint n =>
      cases hvalue
      change n.toInt64.toInt = _
      rw [toInt_eq_bmod_toUInt64, UInt64.toUInt64_toInt64]
      rfl
  | _ => cases hvalue

theorem integer?_of_number? (hvalue : value.number? = some x) : value.integer? = some x.value := by
  cases value with
  | int n =>
      cases hvalue
      rfl
  | uint n =>
      cases hvalue
      rfl
  | _ => cases hvalue

theorem truth?_of_number? (hvalue : value.number? = some x) : value.truth? = some (decide (x.value ≠ 0)) := by
  cases value with
  | int n =>
      cases hvalue
      have hzero : n.toInt = 0 ↔ n = 0 := Int64.toInt_inj (y := 0)
      simp [truth?, hzero, bne, beq_eq_decide]
  | uint n =>
      cases hvalue
      have hzero : n.toNat = 0 ↔ n = 0 := UInt64.toNat_inj (b := 0)
      simp [truth?, hzero, bne, beq_eq_decide]
  | _ => cases hvalue

theorem number?_ofBool (p : Prop) [Decidable p] : (ofBool (decide p)).number? = some (.ofTruth p) := by
  by_cases hp : p <;> simp [hp, ofBool, number?, Number.ofTruth]

theorem unsigned_of_number? (hleft : left.number? = some x) (hright : right.number? = some y)
    (hunsigned : (x.signed || y.signed) = false) :
    ∃ m n : UInt64, left = .uint m ∧ right = .uint n ∧ x = ⟨false, m.toNat⟩ ∧ y = ⟨false, n.toNat⟩ := by
  cases left with
  | int m =>
      cases hleft
      cases hunsigned
  | uint m =>
      cases hleft
      cases right with
      | int n =>
          cases hright
          cases hunsigned
      | uint n =>
          cases hright
          exact ⟨m, n, rfl, rfl, rfl, rfl⟩
      | _ => cases hright
  | _ => cases hleft

theorem onValues_of_signed (op : Arith) (hleft : left.number? = some x) (hright : right.number? = some y)
    (hsigned : (x.signed || y.signed) = true) :
    op.onValues left right = .ok (.int (op.onSigned left.asSigned right.asSigned)) := by
  cases left with
  | int m =>
      cases right with
      | int n => rfl
      | uint n => rfl
      | _ => cases hright
  | uint m =>
      cases right with
      | int n => rfl
      | uint n =>
          cases hleft
          cases hright
          cases hsigned
      | _ => cases hright
  | _ => cases hleft

end Value

/-- A computation has the number as its result; without a number it failed at a zero divisor. -/
inductive Computes : Except Fault Value → Option Number → Prop where
  | number {value : Value} {x : Number} (hvalue : value.number? = some x) : Computes (.ok value) (some x)
  | zeroDivisor : Computes (.error .divisionByZero) none

namespace Arith

/-- Of all quotients only that of the least number and -1 does not fit. -/
theorem toInt_onSigned_div (m n : Int64) :
    (onSigned .div m n).toInt =
      if m.toInt = -2 ^ 63 ∧ n.toInt = -1 then -2 ^ 63 else m.toInt.tdiv n.toInt := by
  change (m / n).toInt = _
  by_cases hleast : m = .minValue
  · by_cases hone : n = -1
    · subst hleast hone
      rfl
    · have hne : n.toInt ≠ -1 := fun heq => hone (Int64.toInt_inj.mp heq)
      rw [if_neg (fun hboth => hne hboth.2), Int64.toInt_div_of_ne_right _ _ hone]
  · have hne : m.toInt ≠ -2 ^ 63 := fun heq => hleast (Int64.toInt_inj.mp heq)
    rw [if_neg (fun hboth => hne hboth.1), Int64.toInt_div_of_ne_left _ _ hleast]

theorem number_onSigned (op : Arith) {m n : Int64} {x y : Number} (hm : m.toInt = x.pattern)
    (hn : n.toInt = y.pattern) (hsigned : (x.signed || y.signed) = true)
    (hdivisor : op.divides = true → y.value ≠ 0) :
    Number.arith op x y = some ⟨true, (op.onSigned m n).toInt⟩ := by
  cases op with
  | add =>
      rw [Number.arith, Number.wrapped, if_pos hsigned, onSigned, Int64.toInt_add, hm, hn, Number.pattern,
        Number.pattern, Int.add_bmod_bmod, Int.bmod_add_bmod]
      rfl
  | sub =>
      rw [Number.arith, Number.wrapped, if_pos hsigned, onSigned, Int64.toInt_sub, hm, hn, Number.pattern,
        Number.pattern, Int.sub_bmod_bmod, Int.bmod_sub_bmod]
      rfl
  | mul =>
      rw [Number.arith, Number.wrapped, if_pos hsigned, onSigned, Int64.toInt_mul, hm, hn, Number.pattern,
        Number.pattern, Int.mul_bmod_bmod, Int.bmod_mul_bmod]
      rfl
  | div =>
      rw [Number.arith, if_neg (hdivisor rfl), Number.quotient, if_pos hsigned, toInt_onSigned_div, hm, hn]
      split <;> rfl
  | mod =>
      rw [Number.arith, if_neg (hdivisor rfl), Number.remainder, if_pos hsigned, onSigned, Int64.toInt_mod, hm, hn]

theorem number_onUnsigned (op : Arith) (m n : UInt64) (hdivisor : op.divides = true → (n.toNat : Int) ≠ 0) :
    Number.arith op ⟨false, m.toNat⟩ ⟨false, n.toNat⟩ = some ⟨false, (op.onUnsigned m n).toNat⟩ := by
  have hbound := n.toNat_lt
  cases op with
  | add =>
      have hsum : ((m + n).toNat : Int) = ((m.toNat : Int) + n.toNat) % 2 ^ 64 := by
        rw [UInt64.toNat_add]
        omega
      rw [onUnsigned, hsum]
      rfl
  | sub =>
      have hdifference : ((m - n).toNat : Int) = ((m.toNat : Int) - n.toNat) % 2 ^ 64 := by
        rw [UInt64.toNat_sub]
        omega
      rw [onUnsigned, hdifference]
      rfl
  | mul =>
      have hproduct : ((m * n).toNat : Int) = ((m.toNat : Int) * n.toNat) % 2 ^ 64 := by
        rw [UInt64.toNat_mul]
        push_cast
        rfl
      rw [onUnsigned, hproduct]
      rfl
  | div =>
      rw [Number.arith, if_neg (hdivisor rfl), onUnsigned, UInt64.toNat_div, Int.natCast_div]
      rfl
  | mod =>
      rw [Number.arith, if_neg (hdivisor rfl), onUnsigned, UInt64.toNat_mod, Int.natCast_emod]
      rfl

end Arith

namespace Operation

variable {left right : Value} {x y : Number}

theorem hasZeroDivisor_iff (hright : right.number? = some y) (below : Stack) :
    hasZeroDivisor (right :: below) = true ↔ y.value = 0 := by
  cases right with
  | int n =>
      cases hright
      exact beq_iff_eq.trans (Int64.toInt_inj (y := 0)).symm
  | uint n =>
      cases hright
      exact (beq_iff_eq.trans (UInt64.toNat_inj (b := 0)).symm).trans Int.natCast_eq_zero.symm
  | _ => cases hright

theorem onTwo_intArith_of_ne (op : Arith) (hright : right.number? = some y)
    (hdivisor : op.divides = true → y.value ≠ 0) :
    (intArith op).onTwo left right = op.onValues left right := by
  have hcheck : ¬ (op.divides && hasZeroDivisor [right, left]) = true := by
    rw [Bool.and_eq_true, hasZeroDivisor_iff hright]
    exact fun hboth => hdivisor hboth.1 hboth.2
  simp only [onTwo, apply, hcheck]
  cases hresult : op.onValues left right <;> simp [Stack.pop, bind, Except.bind, hresult, Except.map]

theorem onTwo_intArith_of_eq {op : Arith} (hright : right.number? = some y) (hdivides : op.divides = true)
    (hzero : y.value = 0) : (intArith op).onTwo left right = .error .divisionByZero := by
  have hcheck : (op.divides && hasZeroDivisor [right, left]) = true := by
    rw [Bool.and_eq_true, hasZeroDivisor_iff hright]
    exact ⟨hdivides, hzero⟩
  simp only [onTwo, apply, hcheck]
  rfl

theorem computes_intArith (op : Arith) (hleft : left.number? = some x) (hright : right.number? = some y) :
    Computes ((intArith op).onTwo left right) (Number.arith op x y) := by
  by_cases hzero : op.divides = true ∧ y.value = 0
  · have hnone : Number.arith op x y = none := by
      cases op with
      | div => exact if_pos hzero.2
      | mod => exact if_pos hzero.2
      | _ => cases hzero.1
    rw [onTwo_intArith_of_eq hright hzero.1 hzero.2, hnone]
    exact .zeroDivisor
  · have hdivisor : op.divides = true → y.value ≠ 0 := fun hdivides heq => hzero ⟨hdivides, heq⟩
    rw [onTwo_intArith_of_ne op hright hdivisor]
    by_cases hsigned : (x.signed || y.signed) = true
    · rw [Value.onValues_of_signed op hleft hright hsigned,
        op.number_onSigned (Value.toInt_asSigned hleft) (Value.toInt_asSigned hright) hsigned hdivisor]
      exact .number rfl
    · obtain ⟨m, n, rfl, rfl, rfl, rfl⟩ :=
        Value.unsigned_of_number? hleft hright (Bool.eq_false_of_not_eq_true hsigned)
      rw [op.number_onUnsigned m n hdivisor]
      exact .number rfl

theorem computes_compare (relation : Relation) (hleft : left.number? = some x) (hright : right.number? = some y) :
    Computes ((compare relation .int).onTwo left right) (some (Number.compare relation x y)) := by
  have hresult : (compare relation .int).onTwo left right =
      .ok (.ofBool (relation.onIntegers x.value y.value)) := by
    simp [onTwo, apply, Stack.popInteger, Stack.pop, bind, Except.bind, Except.map,
      Value.integer?_of_number? hleft, Value.integer?_of_number? hright]
  rw [hresult]
  refine .number ?_
  cases relation <;> exact Value.number?_ofBool _

theorem computes_logic (connective : Connective) (hleft : left.number? = some x)
    (hright : right.number? = some y) :
    Computes ((logic connective).onTwo left right) (some (Number.logic connective x y)) := by
  have hresult : (logic connective).onTwo left right =
      .ok (.ofBool (connective.onTruths (decide (x.value ≠ 0)) (decide (y.value ≠ 0)))) := by
    simp [onTwo, apply, truthOf, Stack.pop, bind, Except.bind, Except.map,
      Value.truth?_of_number? hleft, Value.truth?_of_number? hright]
  rw [hresult]
  refine .number ?_
  cases connective with
  | and =>
      rw [Connective.onTruths, ← Bool.decide_and]
      exact Value.number?_ofBool _
  | or =>
      rw [Connective.onTruths, ← Bool.decide_or]
      exact Value.number?_ofBool _

/-- A binary operator computes the number that it stands for, or fails for a zero divisor. -/
theorem computes_binary (op : BinaryOp) (hleft : left.number? = some x) (hright : right.number? = some y) :
    Computes ((op.operationOn (some .int)).onTwo left right) (Number.binary op x y) := by
  cases op with
  | arith op => exact computes_intArith op hleft hright
  | compare relation => exact computes_compare relation hleft hright
  | logic connective => exact computes_logic connective hleft hright

theorem computes_unary (op : UnaryOp) {ty : DataType} (hty : ty.isIntegral = true) (hleft : left.number? = some x) :
    Computes ((op.operationOn (some ty)).onOne left) (some (Number.unary op x)) := by
  have hfamily : (some ty).bind DataType.family? = some .int := if_pos hty
  rw [UnaryOp.operationOn, hfamily]
  cases op with
  | neg =>
      have hresult : negInt.onOne left = .ok (.int (-left.asSigned)) := by
        cases left with
        | int n => rfl
        | uint n => rfl
        | _ => cases hleft
      change Computes (negInt.onOne left) _
      rw [hresult]
      refine .number ?_
      rw [Value.number?, Int64.toInt_neg, Value.toInt_asSigned hleft, Number.pattern, Int.bmod_neg_bmod]
      rfl
  | not =>
      have hresult : notInt.onOne left = .ok (.ofBool (decide (x.value = 0))) := by
        simp [onOne, apply, Stack.popInteger, Stack.pop, bind, Except.bind, Except.map,
          Value.integer?_of_number? hleft]
      change Computes (notInt.onOne left) _
      rw [hresult]
      exact .number (Value.number?_ofBool _)

end Operation

end StackCode
