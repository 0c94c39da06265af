import StackCode.Proofs.Ensures
import StackCode.Proofs.Meaning

/-! What matters about a type at run time is its shape: the family of the values at its leaves, and how many
arrays are around them. Operations on values of the right shape have no internal fault, and a result of the
shape that the generator takes it to have. -/

namespace StackCode

namespace BaseType

/-- The family of the values of a base type. -/
def family : BaseType → Family
  | .bool | .char | .int _ | .uint _ => .int
  | .float => .float
  | .str => .str

end BaseType

structure Shape where
  family : Family
  dims : Nat
deriving DecidableEq

namespace Shape

def integer : Shape := ⟨.int, 0⟩

def float : Shape := ⟨.float, 0⟩

def text : Shape := ⟨.str, 0⟩

def isNumber (shape : Shape) : Bool := shape == integer || shape == float

/-- The shape of the items of an array, or of the characters of a text. -/
def element? : Shape → Option Shape
  | ⟨family, dims + 1⟩ => some ⟨family, dims⟩
  | ⟨.str, 0⟩ => some integer
  | ⟨.int, 0⟩ | ⟨.float, 0⟩ => none

/-- The shape under a number of subscripts. -/
def under? (shape : Shape) : (depth : Nat) → Option Shape
  | 0 => some shape
  | depth + 1 => shape.element?.bind (·.under? depth)

/-- Whether a variable of the target shape takes values of the source shape: numbers are converted, and
everything else has to have the shape already. -/
def becomes (source target : Shape) : Bool := source == target || source.isNumber && target.isNumber

variable {source target shape : Shape}

/-- One subscript more leads to the elements. -/
theorem under?_succ {depth : Nat} {inner element : Shape} (hunder : shape.under? depth = some inner)
    (helement : inner.element? = some element) : shape.under? (depth + 1) = some element := by
  induction depth generalizing shape with
  | zero =>
      cases hunder
      rw [under?, helement]
      rfl
  | succ depth ih =>
      obtain ⟨next, hnext, hrest⟩ := Option.bind_eq_some_iff.mp hunder
      rw [under?, hnext]
      exact ih hrest

theorem isNumber_iff : shape.isNumber = true ↔ shape = integer ∨ shape = float := by
  simp [isNumber]

theorem becomes_iff : source.becomes target = true ↔
    source = target ∨ source.isNumber = true ∧ target.isNumber = true := by
  simp [becomes]

end Shape

namespace DataType

def shape (ty : DataType) : Shape := ⟨ty.base.family, ty.dims⟩

theorem shape_of_family? {ty : DataType} {family : Family} (hfamily : ty.family? = some family) :
    ty.shape = ⟨family, 0⟩ := by
  obtain ⟨base, dims⟩ := ty
  cases dims with
  | zero => cases base <;> cases hfamily <;> rfl
  | succ dims => cases hfamily

variable {source target : DataType}

theorem conversion?_of_shape_eq (hshape : source.shape = target.shape) : source.conversion? target = none := by
  obtain ⟨source, sourceDims⟩ := source
  obtain ⟨target, targetDims⟩ := target
  obtain ⟨hfamily, rfl⟩ := Shape.mk.inj hshape
  cases sourceDims with
  | zero => cases source <;> cases target <;> first | rfl | cases hfamily
  | succ dims => rfl

theorem conversion?_integer_float (hsource : source.shape = .integer) (htarget : target.shape = .float) :
    source.conversion? target = some .intToFloat := by
  obtain ⟨source, sourceDims⟩ := source
  obtain ⟨target, targetDims⟩ := target
  obtain ⟨hsourceFamily, rfl⟩ := Shape.mk.inj hsource
  obtain ⟨htargetFamily, rfl⟩ := Shape.mk.inj htarget
  cases target <;> cases htargetFamily
  cases source <;> first | rfl | cases hsourceFamily

theorem conversion?_float_integer (hsource : source.shape = .float) (htarget : target.shape = .integer) :
    source.conversion? target = some .floatToBool ∨ source.conversion? target = some .floatToInt := by
  obtain ⟨source, sourceDims⟩ := source
  obtain ⟨target, targetDims⟩ := target
  obtain ⟨hsourceFamily, rfl⟩ := Shape.mk.inj hsource
  obtain ⟨htargetFamily, rfl⟩ := Shape.mk.inj htarget
  cases source <;> cases hsourceFamily
  cases target with
  | bool => exact .inl rfl
  | char => exact .inr rfl
  | int width => exact .inr rfl
  | uint width => exact .inr rfl
  | float => cases htargetFamily
  | str => cases htargetFamily

end DataType

namespace Family

/-- The values of a family within a number of arrays. -/
def Contains (family : Family) : (dims : Nat) → Value → Prop
  | 0, .int _ | 0, .uint _ => family = .int
  | 0, .float _ => family = .float
  | 0, .str _ => family = .str
  | 0, .array _ => False
  | dims + 1, .array items => ∀ item ∈ items, family.Contains dims item
  | _ + 1, .int _ | _ + 1, .uint _ | _ + 1, .float _ | _ + 1, .str _ => False

end Family

namespace Value

def Fits (value : Value) (shape : Shape) : Prop := shape.family.Contains shape.dims value

variable {value : Value}

theorem Fits.integer (hfits : value.Fits .integer) : (∃ n, value = .int n) ∨ ∃ n, value = .uint n := by
  cases value with
  | int n => exact .inl ⟨n, rfl⟩
  | uint n => exact .inr ⟨n, rfl⟩
  | _ => cases hfits

theorem Fits.float (hfits : value.Fits .float) : ∃ x, value = .float x := by
  cases value with
  | float x => exact ⟨x, rfl⟩
  | _ => cases hfits

theorem Fits.text (hfits : value.Fits .text) : ∃ content, value = .str content := by
  cases value with
  | str content => exact ⟨content, rfl⟩
  | _ => cases hfits

theorem Fits.array {family : Family} {dims : Nat} (hfits : value.Fits ⟨family, dims + 1⟩) :
    ∃ items, value = .array items ∧ ∀ item ∈ items, item.Fits ⟨family, dims⟩ := by
  cases value with
  | array items => exact ⟨items, rfl, hfits⟩
  | _ => cases hfits

theorem fits_array {family : Family} {dims : Nat} {items : List Value}
    (hitems : ∀ item ∈ items, item.Fits ⟨family, dims⟩) : (Value.array items).Fits ⟨family, dims + 1⟩ :=
  hitems

theorem Fits.truth? {shape : Shape} (hfits : value.Fits shape) (hnumber : shape.isNumber = true) :
    ∃ truth, value.truth? = some truth := by
  obtain rfl | rfl := Shape.isNumber_iff.mp hnumber
  · obtain ⟨n, rfl⟩ | ⟨n, rfl⟩ := hfits.integer
    · exact ⟨_, rfl⟩
    · exact ⟨_, rfl⟩
  · obtain ⟨x, rfl⟩ := hfits.float
    exact ⟨_, rfl⟩

end Value

/-- A fault that comes from what a program does at run time. -/
def Fault.External (cause : Fault) : Prop := cause.isInternal = false

/-- The computation has no internal fault and a result of the shape. -/
abbrev Gives (shape : Shape) : Except Fault Value → Prop := Ensures Fault.External (·.Fits shape)

section Operators

variable {x y : Value} {family : Family} {operation : Operation}

/-- The shape of the result of an operator in a family. -/
def UnaryOp.resultShape (op : UnaryOp) (family : Family) : Shape :=
  match op with
  | .neg => ⟨family, 0⟩
  | .not => .integer

theorem UnaryOp.gives_onOne {op : UnaryOp} (hoperation : op.operation? (some family) = some operation)
    (hx : x.Fits ⟨family, 0⟩) : Gives (op.resultShape family) (operation.onOne x) := by
  cases family with
  | int =>
      obtain ⟨n, rfl⟩ | ⟨n, rfl⟩ := hx.integer <;> cases op <;> cases hoperation <;> rfl
  | float =>
      obtain ⟨a, rfl⟩ := hx.float
      cases op <;> cases hoperation <;> rfl
  | str => cases op <;> cases hoperation

/-- The shape of the result of an operator in a family. -/
def BinaryOp.resultShape (op : BinaryOp) (family : Family) : Shape :=
  match op with
  | .arith _ => ⟨family, 0⟩
  | .compare _ | .logic _ => .integer

theorem gives_intArith (op : Arith) (hx : x.Fits .integer) (hy : y.Fits .integer) :
    Gives .integer ((Operation.intArith op).onTwo x y) := by
  have hvalues : Gives .integer (op.onValues x y) := by
    obtain ⟨n, rfl⟩ | ⟨n, rfl⟩ := hx.integer <;> obtain ⟨m, rfl⟩ | ⟨m, rfl⟩ := hy.integer <;> rfl
  unfold Operation.onTwo Operation.apply
  simp only
  split
  · rfl
  · change Gives .integer ((op.onValues x y >>= fun result => .ok (result, ([] : Stack))).map Prod.fst)
    cases hresult : op.onValues x y with
    | ok result => exact hvalues.of_ok hresult
    | error cause => exact hvalues.of_error hresult

theorem gives_floatArith (op : FloatArith) (hx : x.Fits .float) (hy : y.Fits .float) :
    Gives .float ((Operation.floatArith op).onTwo x y) := by
  obtain ⟨a, rfl⟩ := hx.float
  obtain ⟨b, rfl⟩ := hy.float
  have hfloats : Ensures Fault.External (fun _ => True) (op.onFloats a b) := by
    cases op with
    | div =>
        change Ensures _ _ (if b.isZero = true then .error .divisionByZero else .ok (a / b))
        split
        · rfl
        · trivial
    | _ => trivial
  change Gives .float ((op.onFloats a b >>= fun result => .ok (.float result, ([] : Stack))).map Prod.fst)
  cases hresult : op.onFloats a b with
  | ok result => rfl
  | error cause => exact hfloats.of_error hresult

theorem gives_compare (relation : Relation) (hx : x.Fits ⟨family, 0⟩) (hy : y.Fits ⟨family, 0⟩) :
    Gives .integer ((Operation.compare relation family).onTwo x y) := by
  cases family with
  | int =>
      obtain ⟨n, rfl⟩ | ⟨n, rfl⟩ := hx.integer <;> obtain ⟨m, rfl⟩ | ⟨m, rfl⟩ := hy.integer <;> rfl
  | float =>
      obtain ⟨a, rfl⟩ := hx.float
      obtain ⟨b, rfl⟩ := hy.float
      rfl
  | str =>
      obtain ⟨left, rfl⟩ := hx.text
      obtain ⟨right, rfl⟩ := hy.text
      rfl

theorem BinaryOp.gives_onTwo {op : BinaryOp} (hoperation : op.operation? family = some operation)
    (hlogic : ∀ connective, op ≠ .logic connective) (hx : x.Fits ⟨family, 0⟩) (hy : y.Fits ⟨family, 0⟩) :
    Gives (op.resultShape family) (operation.onTwo x y) := by
  cases op with
  | arith op =>
      cases family with
      | int =>
          cases hoperation
          exact gives_intArith op hx hy
      | float =>
          obtain ⟨floatOp, -, rfl⟩ := Option.map_eq_some_iff.mp hoperation
          exact gives_floatArith floatOp hx hy
      | str =>
          obtain ⟨left, rfl⟩ := hx.text
          obtain ⟨right, rfl⟩ := hy.text
          cases op <;> cases hoperation
          rfl
  | compare relation =>
      cases hoperation
      exact gives_compare relation hx hy
  | logic connective => exact absurd rfl (hlogic connective)

theorem gives_logic (connective : Connective) {left right : Shape} (hx : x.Fits left)
    (hy : y.Fits right) (hleft : left.isNumber = true) (hright : right.isNumber = true) :
    Gives .integer ((Operation.logic connective).onTwo x y) := by
  obtain ⟨leftTruth, hleftTruth⟩ := hx.truth? hleft
  obtain ⟨rightTruth, hrightTruth⟩ := hy.truth? hright
  change Gives .integer ((Operation.truthOf _ y >>= fun rightTruth => Operation.truthOf _ x >>= fun leftTruth =>
    .ok (.ofBool (connective.onTruths leftTruth rightTruth), ([] : Stack))).map Prod.fst)
  unfold Operation.truthOf
  rw [hleftTruth, hrightTruth]
  rfl

/-- A value that has the shape of the target already, or is a number, has it after a conversion. -/
theorem Value.Fits.converted {source target : DataType} (hx : x.Fits source.shape)
    (hbecomes : source.shape.becomes target.shape = true) :
    match source.conversion? target with
    | some operation => Gives target.shape (operation.onOne x)
    | none => x.Fits target.shape := by
  obtain hsame | ⟨hsource, htarget⟩ := Shape.becomes_iff.mp hbecomes
  · rw [DataType.conversion?_of_shape_eq hsame]
    rwa [← hsame]
  · obtain hsource | hsource := Shape.isNumber_iff.mp hsource <;>
      obtain htarget | htarget := Shape.isNumber_iff.mp htarget
    · rw [DataType.conversion?_of_shape_eq (hsource.trans htarget.symm), htarget]
      rwa [hsource] at hx
    · rw [DataType.conversion?_integer_float hsource htarget, htarget]
      rw [hsource] at hx
      obtain ⟨n, rfl⟩ | ⟨n, rfl⟩ := hx.integer <;> rfl
    · rw [hsource] at hx
      obtain ⟨a, rfl⟩ := hx.float
      obtain hbool | hint := DataType.conversion?_float_integer hsource htarget
      · rw [hbool, htarget]
        rfl
      · rw [hint, htarget]
        rfl
    · rw [DataType.conversion?_of_shape_eq (hsource.trans htarget.symm), htarget]
      rwa [hsource] at hx

end Operators

section Elements

variable {index base value : Value} {shape result : Shape} {path : List Value}

theorem Value.Fits.clamped? (hvalue : value.Fits .integer) : ∃ n, value.clamped? = some n := by
  obtain ⟨n, rfl⟩ | ⟨n, rfl⟩ := hvalue.integer
  · exact ⟨_, rfl⟩
  · exact ⟨_, rfl⟩

theorem Value.Fits.position (hindex : index.Fits .integer) (length : Nat) :
    Ensures Fault.External (fun _ => True) (index.position length) := by
  obtain ⟨n, hn⟩ := hindex.clamped?
  unfold Value.position
  rw [hn]
  simp only
  split
  · trivial
  · rfl

theorem Value.Fits.toChar (hvalue : value.Fits .integer) :
    Ensures Fault.External (fun _ => True) value.toChar := by
  obtain ⟨n, hn⟩ := hvalue.clamped?
  unfold Value.toChar
  rw [hn]
  simp only
  split
  · trivial
  · rfl

theorem Shape.depth_of_integer {depth : Nat} (hunder : Shape.integer.under? depth = some result) :
    depth = 0 ∧ result = .integer := by
  cases depth with
  | zero =>
      cases hunder
      exact ⟨rfl, rfl⟩
  | succ depth => cases hunder

theorem Value.Fits.read (hbase : base.Fits shape) (hunder : shape.under? path.length = some result)
    (hpath : ∀ index ∈ path, index.Fits .integer) : Gives result (base.read path) := by
  induction path generalizing base shape with
  | nil =>
      cases hunder
      unfold Value.read
      exact hbase
  | cons index rest ih =>
      obtain ⟨element, helement, hrest⟩ := Option.bind_eq_some_iff.mp hunder
      have hindex := hpath index List.mem_cons_self
      obtain ⟨family, dims⟩ := shape
      cases dims with
      | succ dims =>
          cases helement
          obtain ⟨items, rfl, hitems⟩ := hbase.array
          unfold Value.read
          cases hposition : index.position items.length with
          | ok position =>
              exact ih (hitems _ (List.getElem_mem _)) hrest fun other hother =>
                hpath other (List.mem_cons_of_mem _ hother)
          | error cause => exact (hindex.position _).of_error hposition
      | zero =>
          cases family <;> cases helement
          obtain ⟨hdepth, rfl⟩ := Shape.depth_of_integer hrest
          obtain ⟨text, rfl⟩ := hbase.text
          rw [List.length_eq_zero_iff.mp hdepth]
          unfold Value.read
          cases hposition : index.position text.toList.length with
          | ok position => rfl
          | error cause => exact (hindex.position _).of_error hposition

theorem Value.Fits.gives_index (hbase : base.Fits shape) (hindex : index.Fits .integer)
    (helement : shape.element? = some result) : Gives result (Operation.index.onTwo base index) := by
  have hread : Gives result (base.read [index]) :=
    hbase.read (Shape.under?_succ rfl helement) (List.forall_mem_singleton.mpr hindex)
  change Gives result ((base.read [index] >>= fun element => .ok (element, ([] : Stack))).map Prod.fst)
  cases hresult : base.read [index] with
  | ok element => exact hread.of_ok hresult
  | error cause => exact hread.of_error hresult

theorem Value.Fits.write (hbase : base.Fits shape) (hunder : shape.under? path.length = some result)
    (hpath : ∀ index ∈ path, index.Fits .integer) (hvalue : value.Fits result) :
    Gives shape (base.write path value) := by
  induction path generalizing base shape with
  | nil =>
      cases hunder
      unfold Value.write
      exact hvalue
  | cons index rest ih =>
      obtain ⟨element, helement, hrest⟩ := Option.bind_eq_some_iff.mp hunder
      have hindex := hpath index List.mem_cons_self
      obtain ⟨family, dims⟩ := shape
      cases dims with
      | succ dims =>
          cases helement
          obtain ⟨items, rfl, hitems⟩ := hbase.array
          unfold Value.write
          cases hposition : index.position items.length with
          | error cause => exact (hindex.position _).of_error hposition
          | ok position =>
              have hitem := ih (hitems _ (List.getElem_mem position.isLt)) hrest fun other hother =>
                hpath other (List.mem_cons_of_mem _ hother)
              simp only
              cases hwrite : Value.write items[position] rest value with
              | error cause => exact hitem.of_error hwrite
              | ok item =>
                  refine Value.fits_array fun other hother => ?_
                  obtain hold | rfl := List.mem_or_eq_of_mem_set hother
                  · exact hitems other hold
                  · exact hitem.of_ok hwrite
      | zero =>
          cases family <;> cases helement
          obtain ⟨hdepth, rfl⟩ := Shape.depth_of_integer hrest
          obtain ⟨text, rfl⟩ := hbase.text
          rw [List.length_eq_zero_iff.mp hdepth]
          unfold Value.write
          cases hposition : index.position text.toList.length with
          | error cause => exact (hindex.position _).of_error hposition
          | ok position =>
              simp only
              cases hchar : value.toChar with
              | error cause => exact hvalue.toChar.of_error hchar
              | ok c => rfl

end Elements

section Arrays

theorem DataType.fits_zero (ty : DataType) : (Value.zero ty.leafKind).Fits ⟨ty.base.family, 0⟩ := by
  obtain ⟨base, dims⟩ := ty
  cases base <;> rfl

theorem DataType.fits_filled (ty : DataType) (sizes : List Nat) :
    (Value.filled ty.leafKind sizes).Fits ⟨ty.base.family, sizes.length⟩ := by
  induction sizes with
  | nil => exact ty.fits_zero
  | cons size rest ih =>
      unfold Value.filled
      split
      · exact Value.fits_array fun item hitem => nomatch hitem
      · refine Value.fits_array fun item hitem => ?_
        rw [List.eq_of_mem_replicate hitem]
        exact ih

theorem ensures_toSizes {values : List Value} (hvalues : ∀ value ∈ values, value.Fits .integer) :
    Ensures Fault.External (·.length = values.length) (Frame.toSizes values) := by
  induction values with
  | nil => rfl
  | cons value rest ih =>
      have hsize : Ensures Fault.External (fun _ => True) value.toSize := by
        obtain ⟨n, rfl⟩ | ⟨n, rfl⟩ := (hvalues value List.mem_cons_self).integer
        · change Ensures _ _ (if 0 ≤ n.toInt then .ok n.toInt.toNat else .error (.negativeSize n))
          split
          · trivial
          · rfl
        · trivial
      refine hsize.bind fun size _ => ?_
      refine (ih fun other hother => hvalues other (List.mem_cons_of_mem _ hother)).bind fun others hlength => ?_
      exact congrArg (· + 1) hlength

theorem ensures_checkShape (limit count : Nat) (sizes : List Nat) :
    Ensures Fault.External (fun _ => True) (checkShape limit count sizes) := by
  induction sizes generalizing count with
  | nil => trivial
  | cons size rest ih =>
      unfold checkShape
      split
      · exact ih (count * size)
      · rfl

end Arrays

section Builtins

variable {value : Value} {shape : Shape}

/-- The shapes of the values that a form prints. -/
def PrintForm.prints : PrintForm → Shape → Bool
  | .bool, shape => shape.isNumber
  | .char, shape | .int _, shape | .uint _, shape => shape == .integer
  | .float, shape => shape == .float
  | .str, shape => shape == .text

/-- The shapes of the values that are converted. -/
def Conversion.converts : Conversion → Shape → Bool
  | .bool, shape | .int _, shape | .uint _, shape | .float, shape | .str, shape => shape.dims == 0
  | .char, shape => shape == .integer || shape == .text
  | .charToStr, shape => shape == .integer
  | .length, shape => shape.element?.isSome

def Conversion.resultShape : Conversion → Shape
  | .bool | .char | .int _ | .uint _ | .length => .integer
  | .float => .float
  | .str | .charToStr => .text

theorem PrintForm.ensures_text {form : PrintForm} (hprints : form.prints shape = true)
    (hvalue : value.Fits shape) : Ensures Fault.External (fun _ => True) (form.text value) := by
  cases form with
  | bool =>
      obtain ⟨truth, htruth⟩ := hvalue.truth? hprints
      unfold text
      simp only
      rw [htruth]
      trivial
  | char =>
      rw [beq_iff_eq.mp hprints] at hvalue
      exact hvalue.toChar.map fun _ _ => trivial
  | int width =>
      rw [beq_iff_eq.mp hprints] at hvalue
      obtain ⟨n, rfl⟩ | ⟨n, rfl⟩ := hvalue.integer <;> trivial
  | uint width =>
      rw [beq_iff_eq.mp hprints] at hvalue
      obtain ⟨n, rfl⟩ | ⟨n, rfl⟩ := hvalue.integer <;> trivial
  | float =>
      rw [beq_iff_eq.mp hprints] at hvalue
      obtain ⟨x, rfl⟩ := hvalue.float
      trivial
  | str =>
      rw [beq_iff_eq.mp hprints] at hvalue
      obtain ⟨content, rfl⟩ := hvalue.text
      trivial

/-- A text that is no numeral, truth value or character is a fault of the input. -/
theorem Conversion.ensures_reading {α : Type} (conversion : Conversion) (text : String) (found : Option α) :
    Ensures Fault.External (fun _ => True) (conversion.reading text found) := by
  cases found with
  | some result => trivial
  | none => rfl

theorem Value.Fits.not_array {items : List Value} (hdims : shape.dims = 0)
    (hvalue : (Value.array items).Fits shape) : False := by
  unfold Fits at hvalue
  rw [hdims] at hvalue
  exact hvalue

/-- Every value but an array is a truth value, a number and a text if its text reads as one. -/
theorem Conversion.gives_apply_scalar (hdims : shape.dims = 0) (hvalue : value.Fits shape) (width : Width) :
    Gives .integer (Conversion.bool.apply value) ∧ Gives .integer ((Conversion.int width).apply value) ∧
      Gives .integer ((Conversion.uint width).apply value) ∧ Gives .float (Conversion.float.apply value) ∧
      Gives .text (Conversion.str.apply value) := by
  cases value with
  | array items => exact (hvalue.not_array hdims).elim
  | str text =>
      refine ⟨?_, ?_, ?_, ?_, rfl⟩
      · exact (ensures_reading .bool text _).map fun _ _ => rfl
      · exact (ensures_reading (.int width) text _).map fun _ _ => rfl
      · exact (ensures_reading (.uint width) text _).map fun _ _ => rfl
      · exact (ensures_reading .float text _).map fun _ _ => rfl
  | _ => exact ⟨rfl, rfl, rfl, rfl, rfl⟩

theorem Conversion.gives_apply {conversion : Conversion} (hconverts : conversion.converts shape = true)
    (hvalue : value.Fits shape) : Gives conversion.resultShape (conversion.apply value) := by
  cases conversion with
  | bool => exact (gives_apply_scalar (beq_iff_eq.mp hconverts) hvalue .w64).1
  | int width => exact (gives_apply_scalar (beq_iff_eq.mp hconverts) hvalue width).2.1
  | uint width => exact (gives_apply_scalar (beq_iff_eq.mp hconverts) hvalue width).2.2.1
  | float => exact (gives_apply_scalar (beq_iff_eq.mp hconverts) hvalue .w64).2.2.2.1
  | str => exact (gives_apply_scalar (beq_iff_eq.mp hconverts) hvalue .w64).2.2.2.2
  | char =>
      obtain hinteger | htext := Bool.or_eq_true_iff.mp hconverts
      · rw [beq_iff_eq.mp hinteger] at hvalue
        have hchar := hvalue.toChar
        obtain ⟨n, rfl⟩ | ⟨n, rfl⟩ := hvalue.integer
        · exact hchar.map fun _ _ => rfl
        · exact hchar.map fun _ _ => rfl
      · rw [beq_iff_eq.mp htext] at hvalue
        obtain ⟨text, rfl⟩ := hvalue.text
        exact (ensures_reading .char text _).map fun _ _ => rfl
  | charToStr =>
      rw [beq_iff_eq.mp hconverts] at hvalue
      exact hvalue.toChar.map fun _ _ => rfl
  | length =>
      obtain ⟨family, dims⟩ := shape
      cases dims with
      | succ dims =>
          obtain ⟨items, rfl, -⟩ := hvalue.array
          rfl
      | zero =>
          cases family <;> cases hconverts
          obtain ⟨text, rfl⟩ := hvalue.text
          rfl

end Builtins
end StackCode
