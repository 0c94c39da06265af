import StackCode.Generator.Stmt
import StackCode.Proofs.Codec
import StackCode.Proofs.Trees

/-! The code of syntax trees as lists of instructions. Jumps carry distances, so the code of a tree does not
depend on where it stands, and the code of a whole is put together from that of its parts. A part of a tree
that is refused has some code here too; only trees that are accepted matter. -/

namespace StackCode

/-- An item of a longer list is its last one, or an item of the rest. -/
theorem last_or_split {α : Type} {items before after : List α} {last item : α}
    (hitems : items ++ [last] = before ++ item :: after) :
    (items = before ∧ last = item) ∨ ∃ rest, items = before ++ item :: rest ∧ after = rest ++ [last] := by
  rcases List.eq_nil_or_concat after with rfl | ⟨rest, final, rfl⟩
  · obtain ⟨rfl, hlast⟩ := List.append_inj' hitems rfl
    exact Or.inl ⟨rfl, List.singleton_inj.mp hlast⟩
  · have hsplit : items ++ [last] = (before ++ item :: rest) ++ [final] := by simpa using hitems
    obtain ⟨hrest, hlast⟩ := List.append_inj' hsplit rfl
    rw [List.singleton_inj.mp hlast, List.concat_eq_append]
    exact Or.inr ⟨rest, hrest, rfl⟩

/-- The bytes that a list of instructions takes. -/
def codeSize (code : List Instruction) : Nat := (code.map Instruction.length).sum

def encodeAll (code : List Instruction) : List UInt8 := code.flatMap Instruction.encode

@[simp] theorem codeSize_nil : codeSize [] = 0 := rfl

@[simp] theorem codeSize_cons (instruction : Instruction) (code : List Instruction) :
    codeSize (instruction :: code) = instruction.length + codeSize code := rfl

@[simp] theorem codeSize_append (first second : List Instruction) :
    codeSize (first ++ second) = codeSize first + codeSize second := by
  simp [codeSize]

theorem codeSize_concat (code : List Instruction) (last : Instruction) :
    codeSize (code ++ [last]) = codeSize code + last.length := by
  simp

@[simp] theorem encodeAll_nil : encodeAll [] = [] := rfl

@[simp] theorem encodeAll_cons (instruction : Instruction) (code : List Instruction) :
    encodeAll (instruction :: code) = instruction.encode ++ encodeAll code := rfl

@[simp] theorem encodeAll_append (first second : List Instruction) :
    encodeAll (first ++ second) = encodeAll first ++ encodeAll second :=
  List.flatMap_append

@[simp] theorem length_encodeAll (code : List Instruction) : (encodeAll code).length = codeSize code := by
  induction code with
  | nil => rfl
  | cons instruction code ih => simp [ih]

theorem length_le_codeSize (code : List Instruction) : code.length ≤ codeSize code := by
  induction code with
  | nil => exact Nat.le_refl 0
  | cons instruction code ih =>
      have hlength := instruction.one_le_length
      rw [List.length_cons, codeSize_cons]
      omega

/-- Distances and counts below the bound of offsets fit a word. -/
theorem toNat_ofNat_of_short {n : Nat} (hshort : n < Instruction.offsetBound) : (UInt64.ofNat n).toNat = n :=
  UInt64.toNat_ofNat_of_lt hshort

namespace Emitter

theorem emitAll_append (out : Emitter) (first second : List Instruction) :
    (out.emitAll first).emitAll second = out.emitAll (first ++ second) :=
  List.foldl_append.symm

theorem toList_emit (out : Emitter) (instruction : Instruction) :
    (out.emit instruction).code.bytes.toList = out.code.bytes.toList ++ instruction.encode := by
  simp [emit, Stream.push]

theorem toList_emitAll (out : Emitter) (code : List Instruction) :
    (out.emitAll code).code.bytes.toList = out.code.bytes.toList ++ encodeAll code := by
  induction code generalizing out with
  | nil => simp [emitAll]
  | cons instruction code ih =>
      change ((out.emit instruction).emitAll code).code.bytes.toList = _
      rw [ih, toList_emit, encodeAll_cons, List.append_assoc]

theorem here_emitAll (out : Emitter) (code : List Instruction) :
    (out.emitAll code).here = out.here + codeSize code := by
  rw [here, here, Stream.size, Stream.size, ← Array.length_toList, toList_emitAll, List.length_append,
    length_encodeAll, Array.length_toList]

/-- An emitter is known by its bytes. -/
theorem eq_of_toList {out other : Emitter} (hbytes : out.code.bytes.toList = other.code.bytes.toList) :
    out = other := by
  obtain ⟨⟨bytes⟩⟩ := out
  obtain ⟨⟨otherBytes⟩⟩ := other
  have heq : bytes = otherBytes := Array.toList_inj.mp hbytes
  rw [heq]

end Emitter

theorem Stream.toList_ofInstructions (code : List Instruction) :
    (ofInstructions code).bytes.toList = encodeAll code := by
  have hemit : ∀ start : Stream, (code.foldl push start).bytes.toList =
      start.bytes.toList ++ encodeAll code := by
    induction code with
    | nil => simp
    | cons instruction code ih =>
        intro start
        rw [List.foldl_cons, ih, encodeAll_cons, ← List.append_assoc]
        simp [push]
  rw [ofInstructions, hemit]
  rfl

theorem Emitter.code_emitAll_empty (code : List Instruction) :
    (empty.emitAll code).code = .ofInstructions code := by
  have hemitter : empty.emitAll code = ⟨.ofInstructions code⟩ := by
    refine eq_of_toList ?_
    rw [toList_emitAll, Stream.toList_ofInstructions]
    rfl
  rw [hemitter]

theorem Stream.size_ofInstructions (code : List Instruction) :
    (ofInstructions code).size = codeSize code := by
  rw [size, ← Array.length_toList, toList_ofInstructions, length_encodeAll]

namespace Code

/-- What follows an operand to bring it into the operator's family. -/
def widening (op : BinaryOp) (family : Option Family) (ty : Option DataType) : List Instruction :=
  match family, ty with
  | some family, some ty => (op.widening family ty).toOption.getD []
  | _, _ => []

def binary (op : BinaryOp) (leftType rightType : Option DataType) (left right : List Instruction) :
    List Instruction :=
  let family := op.familyOn leftType rightType
  left ++ widening op family leftType ++ right ++ widening op family rightType ++
    [.operate (op.operationOn family)]

mutual

def expr : Expr → List Instruction
  | .literal value _ => value.code
  | .var id _ => [.load id]
  | .array items _ => exprs items ++ [.withWord .allocArray (UInt64.ofNat items.length)]
  | .unary op operand _ => expr operand ++ [.operate (op.operationOn operand.ty)]
  | .binary op left right _ => binary op left.ty right.ty (expr left) (expr right)
  | .subscript base index _ =>
    match base.root? with
    | some root => expr index ++ subscripts base ++ [.loadElement root.id (UInt64.ofNat (root.depth + 1))]
    | none => expr base ++ expr index ++ [.operate .index]
  | .call id args _ => exprs args ++ [.call id]

def exprs : List Expr → List Instruction
  | [] => []
  | item :: rest => expr item ++ exprs rest

def subscripts : Expr → List Instruction
  | .subscript base index _ => expr index ++ subscripts base
  | _ => []

end

def conversion (source : Option DataType) (target : DataType) : List Instruction :=
  ((source.bind (·.conversion? target)).map Instruction.operate).toList

def converted (value : Expr) (target : DataType) : List Instruction :=
  expr value ++ conversion value.ty target

def sizes : (dims : Nat) → List (Option Expr) → List Instruction
  | 0, _ => []
  | dims + 1, [] => .pushInt 0 :: sizes dims []
  | dims + 1, none :: rest => .pushInt 0 :: sizes dims rest
  | dims + 1, some size :: rest => expr size ++ sizes dims rest

def zeroArray (ty : DataType) (declared : List (Option Expr)) : List Instruction :=
  sizes ty.dims declared ++ [.allocFilled (UInt64.ofNat ty.dims) ty.leafKind]

def zero (ty : DataType) (declared : List (Option Expr)) : List Instruction :=
  if ty.isArray then zeroArray ty declared else [ty.zeroScalar]

def padding (ty : DataType) (declared : List (Option Expr)) : (count : Nat) → List Instruction
  | 0 => []
  | count + 1 => zero ty declared ++ padding ty declared count

def finishArray (itemType : DataType) (declared : List (Option Expr)) (found : Nat) : List Instruction :=
  let count := max found ((Gen.declaredSize? declared).getD 0)
  padding itemType declared.tail (count - found) ++ [.withWord .allocArray (UInt64.ofNat count)]

mutual

def arrayItem (itemType : DataType) (declared : List (Option Expr)) : Expr → List Instruction
  | .array items ty =>
    if itemType.isArray then
      arrayItems itemType.itemType declared.tail items ++
        finishArray itemType.itemType declared items.length
    else converted (.array items ty) itemType
  | item => converted item itemType

def arrayItems (itemType : DataType) (declared : List (Option Expr)) : List Expr → List Instruction
  | [] => []
  | item :: rest => arrayItem itemType declared item ++ arrayItems itemType declared rest

end

def arrayLiteral (ty : DataType) (declared : List (Option Expr)) (items : List Expr) : List Instruction :=
  arrayItems ty.itemType declared.tail items ++ finishArray ty.itemType declared items.length

def initialValue (ty : DataType) (declared : List (Option Expr)) : Option Expr → List Instruction
  | none => zero ty declared
  | some value =>
    if ty.isArray then
      match value with
      | .array items _ => arrayLiteral ty declared items
      | _ => expr value
    else converted value ty

def assignedValue (ty : DataType) (op : Option Arith) (current value : Expr) : List Instruction :=
  match op with
  | none => converted value ty
  | some op =>
    binary (.arith op) current.ty value.ty (expr current) (expr value) ++
      conversion (some (BinaryOp.typeOn (.arith op) current.ty value.ty)) ty

/-- A jump forwards over the given code. -/
def jumpOver (opcode : Opcode) (code : List Instruction) : Instruction :=
  .withWord opcode (UInt64.ofNat (codeSize code))

@[simp] theorem length_jumpOver (opcode : Opcode) (code : List Instruction) :
    (jumpOver opcode code).length = opcode.encodedLength := rfl

/-- The part of a loop that is left if the condition fails. -/
def loopBody (cond body : List Instruction) : List Instruction :=
  body ++ [.withWord .jumpBackward (UInt64.ofNat
    (codeSize cond + Opcode.jumpIfFalse.encodedLength + codeSize body + Opcode.jumpBackward.encodedLength))]

def loop (cond body : List Instruction) : List Instruction :=
  cond ++ jumpOver .jumpIfFalse (loopBody cond body) :: loopBody cond body

/-- A body that is skipped if the condition fails, and that skips the rest. -/
def branch (cond body rest : List Instruction) : List Instruction :=
  let taken := body ++ [jumpOver .jump rest]
  cond ++ jumpOver .jumpIfFalse taken :: taken ++ rest

mutual

def stmt : Stmt → List Instruction
  | .declare id ty declared init => initialValue ty declared init ++ [.store id]
  | .assign id ty op value => assignedValue ty op (.var id (some ty)) value ++ [.store id]
  | .assignElement id ty indices op value =>
    exprs indices.reverse ++ assignedValue ty op (.elementOf id indices ty) value ++
      [.storeElement id (UInt64.ofNat indices.length)]
  | .conditional list => branches list
  | .whileLoop cond body => loop (expr cond) (stmts body)
  | .forLoop init cond body => stmt init ++ loop (expr cond) (stmts body)
  | .function _ _ _ => []
  | .ret value => value.elim [] expr ++ [.plain .ret]
  | .expr value => expr value ++ if value.ty.isSome then [.plain .pop] else []

def stmts : List Stmt → List Instruction
  | [] => []
  | first :: rest => stmt first ++ stmts rest

def branches : Branches → List Instruction
  | .otherwise body => stmts body
  | .arm cond body rest => branch (expr cond) (stmts body) (branches rest)

end

end Code

/-- The function that a declaration is compiled to. -/
def Declaration.function (declaration : Declaration) : Function :=
  ⟨declaration.params, .ofInstructions (Code.stmts declaration.body)⟩

end StackCode
