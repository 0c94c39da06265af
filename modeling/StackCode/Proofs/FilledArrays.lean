import StackCode.Proofs.ElementLens
import StackCode.Proofs.JumpAgreement

/-! Filled arrays. An allocation succeeds if and only if all sizes are natural numbers and no level of the shape exceeds
the limit, where products are taken without bound. The array then has the shape that was asked for: zeros under every
full path inside, arrays of the right length on the way to them, and nothing outside. -/

namespace StackCode

/-- No level of a shape has more values than the limit. A level has as many as the product of the sizes down to it. -/
def ShapeWithin (limit : Nat) (sizes : List Nat) : Prop :=
  ∀ level < sizes.length, (sizes.take (level + 1)).prod ≤ limit

instance (limit : Nat) (sizes : List Nat) : Decidable (ShapeWithin limit sizes) :=
  inferInstanceAs (Decidable (∀ level < sizes.length, _))

namespace Value

/-- The value is the size, as a signed or an unsigned integer. -/
def IsSize (value : Value) (size : Nat) : Prop := value.integer? = some (size : Int)

/-- The index is inside a row of the given length. Beyond the signed range all indices count as the greatest signed
integer; to rows of less than `2 ^ 63` items this makes no difference (`inside_iff_lt`). -/
def Inside (index : Value) (length : Nat) : Prop :=
  ∃ i : Nat, index.integer? = some (i : Int) ∧ min i (2 ^ 63 - 1) < length

/-- The array reads as one of the given shape with zeros as leaves. -/
structure FilledWith (value : Value) (leaf : Kind) (sizes : List Nat) : Prop where
  leaves : ∀ path, List.Forall₂ Inside path sizes → value.read path = .ok (.zero leaf)
  lengths : ∀ path front size back, sizes = front ++ size :: back → List.Forall₂ Inside path front →
    ∃ items, value.read path = .ok (.array items) ∧ items.length = size
  outside : ∀ path, path.length ≤ sizes.length → (∀ index ∈ path, index.integer? ≠ none) →
    ¬ List.Forall₂ Inside path (sizes.take path.length) →
      ∃ index length, value.read path = .error (.indexOutOfBounds index length)

theorem toSize_eq_ok_iff {value : Value} {size : Nat} : value.toSize = .ok size ↔ value.IsSize size := by
  cases value with
  | int n =>
      simp only [toSize, IsSize, integer?, Option.some.injEq]
      split
      · simp only [Except.ok.injEq]
        omega
      · simp only [reduceCtorEq, false_iff]
        omega
  | uint n => simp [toSize, IsSize, integer?]
  | float | str | array => simp [toSize, IsSize, integer?]

end Value

theorem Frame.toSizes_eq_ok_iff {values : List Value} {sizes : List Nat} :
    toSizes values = .ok sizes ↔ List.Forall₂ Value.IsSize values sizes := by
  induction values generalizing sizes with
  | nil => cases sizes <;> simp [toSizes]
  | cons value rest ih =>
      change (value.toSize >>= fun size => toSizes rest >>= fun others => .ok (size :: others)) = _ ↔ _
      cases hsize : value.toSize with
      | error fault =>
          refine ⟨fun hsizes => (by cases hsizes), fun hsizes => ?_⟩
          cases hsizes with
          | cons hfirst hrest =>
              rw [Value.toSize_eq_ok_iff.mpr hfirst] at hsize
              cases hsize
      | ok size =>
          change (toSizes rest >>= fun others => .ok (size :: others)) = _ ↔ _
          cases hrest : toSizes rest with
          | error fault =>
              refine ⟨fun hsizes => (by cases hsizes), fun hsizes => ?_⟩
              cases hsizes with
              | cons hfirst hothers =>
                  rw [ih.mpr hothers] at hrest
                  cases hrest
          | ok others =>
              refine ⟨fun hsizes => ?_, fun hsizes => ?_⟩
              · cases hsizes
                exact .cons (Value.toSize_eq_ok_iff.mp hsize) (ih.mp hrest)
              · cases hsizes with
                | cons hfirst hothers =>
                    rw [Value.toSize_eq_ok_iff.mpr hfirst] at hsize
                    rw [ih.mpr hothers] at hrest
                    cases hsize
                    cases hrest
                    rfl

theorem Value.IsSize.unique {values : List Value} {sizes found : List Nat}
    (hsizes : List.Forall₂ IsSize values sizes) (hfound : List.Forall₂ IsSize values found) : sizes = found := by
  rw [← Frame.toSizes_eq_ok_iff] at hsizes hfound
  exact Except.ok.inj (hsizes.symm.trans hfound)

section Limits

variable {limit : Nat} {sizes : List Nat}

theorem checkShape_eq_ok_iff {count : Nat} : checkShape limit count sizes = .ok () ↔
    ∀ level < sizes.length, count * (sizes.take (level + 1)).prod ≤ limit := by
  induction sizes generalizing count with
  | nil => simp [checkShape]
  | cons size rest ih =>
      rw [checkShape]
      have hlevels : (∀ level < (size :: rest).length, count * ((size :: rest).take (level + 1)).prod ≤ limit) ↔
          count * size ≤ limit ∧ ∀ level < rest.length, count * size * (rest.take (level + 1)).prod ≤ limit := by
        constructor
        · intro hall
          refine ⟨by simpa using hall 0 (by simp), fun level hlevel => ?_⟩
          have hnext := hall (level + 1) (by simpa using hlevel)
          rwa [List.take_succ_cons, List.prod_cons, ← Nat.mul_assoc] at hnext
        · rintro ⟨hfirst, hrest⟩ level hlevel
          cases level with
          | zero => simpa using hfirst
          | succ level =>
              rw [List.take_succ_cons, List.prod_cons, ← Nat.mul_assoc]
              exact hrest level (by simpa using hlevel)
      rw [hlevels]
      by_cases hfirst : count * size ≤ limit
      · rw [if_pos hfirst, ih]
        exact ⟨fun hrest => ⟨hfirst, hrest⟩, fun hboth => hboth.2⟩
      · rw [if_neg hfirst]
        simp [hfirst]

theorem checkShape_one_eq_ok_iff : checkShape limit 1 sizes = .ok () ↔ ShapeWithin limit sizes := by
  simp only [checkShape_eq_ok_iff, Nat.one_mul, ShapeWithin]

/-- Behind an empty level no size matters. -/
theorem shapeWithin_zero (front back : List Nat) : ShapeWithin limit (front ++ 0 :: back) ↔ ShapeWithin limit front := by
  constructor
  · intro hall level hlevel
    have hthere := hall level (by rw [List.length_append]; omega)
    rwa [List.take_append_of_le_length (by omega)] at hthere
  · intro hfront level hlevel
    by_cases hlt : level < front.length
    · rw [List.take_append_of_le_length (by omega)]
      exact hfront level hlt
    · have hzero : 0 ∈ (front ++ 0 :: back).take (level + 1) := by
        rw [List.take_append]
        apply List.mem_append_right
        rw [show level + 1 - front.length = level - front.length + 1 by omega, List.take_succ_cons]
        exact List.mem_cons_self
      rw [List.prod_eq_zero hzero]
      exact Nat.zero_le limit

end Limits

section Words

/-- The product of two counts of 64 bits, if it has no more bits than that. -/
def checkedMul (count size : UInt64) : Option UInt64 :=
  if BitVec.umulOverflow count.toBitVec size.toBitVec then none else some (count * size)

/-- The check of a shape on counts of 64 bits. A product that does not fit into them is refused like one above the
limit. -/
def checkShapeInWords (limit : UInt64) : (count : UInt64) → List UInt64 → Except Fault Unit
  | _, [] => .ok ()
  | count, size :: rest =>
    match (checkedMul count size).filter (· ≤ limit) with
    | some product => checkShapeInWords limit product rest
    | none => .error (.arrayTooLarge limit.toNat)

theorem checkedMul_of_le {limit count size : UInt64} (hle : count.toNat * size.toNat ≤ limit.toNat) :
    checkedMul count size = some (count * size) ∧ (count * size).toNat = count.toNat * size.toNat := by
  have hlt : count.toNat * size.toNat < 2 ^ 64 := hle.trans_lt limit.toNat_lt
  constructor
  · rw [checkedMul, if_neg]
    simp only [BitVec.umulOverflow, decide_eq_true_eq, not_le]
    exact hlt
  · rw [UInt64.toNat_mul, Nat.mod_eq_of_lt hlt]

theorem le_of_checkedMul {limit count size product : UInt64}
    (hproduct : (checkedMul count size).filter (· ≤ limit) = some product) : count.toNat * size.toNat ≤ limit.toNat := by
  obtain ⟨hmul, hle⟩ := Option.filter_eq_some_iff.mp hproduct
  unfold checkedMul at hmul
  split at hmul
  · cases hmul
  · rename_i hfits
    cases hmul
    have hlt : count.toNat * size.toNat < 2 ^ 64 := by
      simpa [BitVec.umulOverflow] using hfits
    have hle : (count * size).toNat ≤ limit.toNat := by simpa [UInt64.le_iff_toNat_le] using hle
    rwa [UInt64.toNat_mul, Nat.mod_eq_of_lt hlt] at hle

/-- Products without bound decide on a shape as products of 64 bits do. -/
theorem checkShapeInWords_eq (limit count : UInt64) (sizes : List UInt64) :
    checkShapeInWords limit count sizes = checkShape limit.toNat count.toNat (sizes.map UInt64.toNat) := by
  induction sizes generalizing count with
  | nil => rfl
  | cons size rest ih =>
      rw [checkShapeInWords, List.map_cons, checkShape]
      by_cases hle : count.toNat * size.toNat ≤ limit.toNat
      · obtain ⟨hmul, hproduct⟩ := checkedMul_of_le hle
        have hwithin : count * size ≤ limit := by rwa [UInt64.le_iff_toNat_le, hproduct]
        rw [hmul, Option.filter_some, if_pos (decide_eq_true hwithin), if_pos hle, ← hproduct]
        exact ih _
      · have hnone : (checkedMul count size).filter (· ≤ limit) = none := by
          rw [Option.eq_none_iff_forall_ne_some]
          intro product hproduct
          exact hle (le_of_checkedMul hproduct)
        rw [hnone, if_neg hle]

theorem Value.IsSize.lt {value : Value} {size : Nat} (hsize : value.IsSize size) : size < 2 ^ 64 := by
  cases value with
  | int n =>
      have hvalue : n.toInt = size := Option.some.inj hsize
      have hlt := n.toInt_lt
      omega
  | uint n =>
      have hvalue : (n.toNat : Int) = size := Option.some.inj hsize
      have hlt := n.toNat_lt
      omega
  | float | str | array => cases hsize

/-- So the check of an allocation may count in 64 bits, for every limit of 64 bits. -/
theorem checkShape_eq_inWords {values : List Value} {sizes : List Nat}
    (hsizes : List.Forall₂ Value.IsSize values sizes) (limit : UInt64) :
    checkShape limit.toNat 1 sizes = checkShapeInWords limit 1 (sizes.map UInt64.ofNat) := by
  have hwords : (sizes.map UInt64.ofNat).map UInt64.toNat = sizes := by
    induction hsizes with
    | nil => rfl
    | cons hsize _ ih =>
        rw [List.map_cons, List.map_cons, ih, UInt64.toNat_ofNat_of_lt' hsize.lt]
  rw [checkShapeInWords_eq, hwords]
  rfl

end Words

namespace Value

variable {index : Value} {length : Nat} {leaf : Kind}

theorem filled_cons (leaf : Kind) (size : Nat) (rest : List Nat) :
    filled leaf (size :: rest) = .array (List.replicate size (filled leaf rest)) := by
  rw [filled]
  split
  · rename_i hzero
    rw [hzero]
    rfl
  · rfl

theorem inside_iff_lt {i : Nat} (hindex : index.integer? = some (i : Int)) (hlength : length < 2 ^ 63) :
    index.Inside length ↔ i < length := by
  simp only [Inside, hindex, Option.some.injEq, Int.natCast_inj, exists_eq_left']
  omega

theorem position_of_inside (hinside : index.Inside length) : ∃ found, index.position length = .ok found := by
  obtain ⟨i, hinteger, hlt⟩ := hinside
  obtain ⟨n, hclamped, hmin⟩ := clamped?_of_integer? hinteger
  refine ⟨⟨min i (2 ^ 63 - 1), hlt⟩, position_eq_ok_iff.mpr ⟨n, hclamped, ?_⟩⟩
  show n.toInt = (min i (2 ^ 63 - 1) : Nat)
  omega

theorem position_of_outside (hinteger : index.integer? ≠ none) (houtside : ¬ index.Inside length) :
    ∃ n, index.position length = .error (.indexOutOfBounds n length) := by
  obtain ⟨i, hi⟩ := Option.ne_none_iff_exists'.mp hinteger
  obtain ⟨n, hclamped, hmin⟩ := clamped?_of_integer? hi
  have hbounds : ¬ (0 ≤ n.toInt ∧ n.toInt.toNat < length) := by
    rintro ⟨hnonneg, hlt⟩
    apply houtside
    refine ⟨i.toNat, by rw [hi, Int.toNat_of_nonneg (by omega)], by omega⟩
  refine ⟨n, ?_⟩
  unfold position
  rw [hclamped]
  simp only
  rw [dif_neg hbounds]

/-- A path through the first levels of a shape leads to an array of the levels that are left. -/
theorem read_filled {path : List Value} {front : List Nat} (hinside : List.Forall₂ Inside path front)
    (back : List Nat) : (filled leaf (front ++ back)).read path = .ok (filled leaf back) := by
  induction hinside with
  | nil => exact read_nil _
  | @cons index size path front hindex hrest ih =>
      obtain ⟨found, hfound⟩ := position_of_inside hindex
      rw [List.cons_append, filled_cons, read_array List.length_replicate, hfound]
      simp only [List.get_eq_getElem, List.getElem_replicate]
      exact ih

theorem read_filled_outside {path : List Value} {sizes : List Nat} (hlength : path.length ≤ sizes.length)
    (hintegers : ∀ index ∈ path, index.integer? ≠ none)
    (houtside : ¬ List.Forall₂ Inside path (sizes.take path.length)) :
    ∃ index length, (filled leaf sizes).read path = .error (.indexOutOfBounds index length) := by
  induction path generalizing sizes with
  | nil => exact absurd .nil houtside
  | cons index rest ih =>
      cases sizes with
      | nil => simp at hlength
      | cons size sizes =>
          rw [filled_cons, read_array List.length_replicate]
          by_cases hindex : index.Inside size
          · obtain ⟨found, hfound⟩ := position_of_inside hindex
            rw [hfound]
            simp only [List.get_eq_getElem, List.getElem_replicate]
            refine ih (Nat.le_of_succ_le_succ hlength) (fun other hother => hintegers other (List.mem_cons_of_mem _ hother)) ?_
            intro hrest
            exact houtside (.cons hindex hrest)
          · obtain ⟨n, hn⟩ := position_of_outside (hintegers index List.mem_cons_self) hindex
            rw [hn]
            exact ⟨n, size, rfl⟩

theorem filled_filledWith (leaf : Kind) (sizes : List Nat) : (filled leaf sizes).FilledWith leaf sizes where
  leaves path hinside := by
    have hread : (filled leaf (sizes ++ [])).read path = .ok (filled leaf []) := read_filled hinside []
    rwa [List.append_nil] at hread
  lengths path front size back hsizes hinside := by
    refine ⟨List.replicate size (filled leaf back), ?_, List.length_replicate⟩
    rw [hsizes, read_filled hinside, filled_cons]
  outside path := read_filled_outside

end Value

/-- The shape that size values stand for, if it passes the checks. -/
def checkedShape (limit : Nat) (values : List Value) : Except Fault (List Nat) := do
  let sizes ← Frame.toSizes values
  checkShape limit 1 sizes
  return sizes

theorem checkedShape_eq_ok_iff {limit : Nat} {values : List Value} {sizes : List Nat} :
    checkedShape limit values = .ok sizes ↔ List.Forall₂ Value.IsSize values sizes ∧ ShapeWithin limit sizes := by
  rw [← Frame.toSizes_eq_ok_iff, ← checkShape_one_eq_ok_iff, checkedShape]
  cases Frame.toSizes values with
  | error fault =>
      exact ⟨fun hsizes => (by cases hsizes), fun hsizes => (by cases hsizes.1)⟩
  | ok found =>
      change (checkShape limit 1 found >>= fun _ => .ok found) = _ ↔ _
      cases hcheck : checkShape limit 1 found with
      | error fault =>
          refine ⟨fun hsizes => (by cases hsizes), fun hsizes => ?_⟩
          cases hsizes.1
          rw [hsizes.2] at hcheck
          cases hcheck
      | ok _ =>
          refine ⟨fun hsizes => ?_, fun hsizes => hsizes.1⟩
          cases hsizes
          exact ⟨rfl, hcheck⟩

theorem Frame.execute_allocFilled {frame : Frame} {values : List Value} {below : Stack} {dims : UInt64}
    {limits : Limits} (hstack : frame.stack = values.reverse ++ below) (hdims : dims.toNat = values.length)
    (hroom : below.length < limits.stack) (globals : Scope) (leaf : Kind) :
    frame.execute limits globals (.allocFilled dims leaf) =
      (checkedShape limits.array values).map fun sizes =>
        .proceed { frame with stack := .filled leaf sizes :: below } globals := by
  change (frame.stack.popMany dims.toNat >>= fun popped => toSizes popped.1 >>= fun sizes =>
    checkShape limits.array 1 sizes >>= fun _ => frame.pushOn limits popped.2 (.filled leaf sizes) >>= fun next =>
      .ok (Action.proceed next globals)) = _
  rw [hstack, Stack.popMany_append values below hdims, checkedShape]
  change (toSizes values >>= _) = _
  cases toSizes values with
  | error fault => rfl
  | ok sizes =>
      change (checkShape limits.array 1 sizes >>= _) = (checkShape limits.array 1 sizes >>= _).map _
      cases checkShape limits.array 1 sizes with
      | error fault => rfl
      | ok _ =>
          change (frame.pushOn limits below (.filled leaf sizes) >>= _) = _
          rw [Frame.pushOn_eq, if_pos hroom]
          rfl

/-- An allocation ends the run with the fault of the checks, or puts the filled array in the place of its sizes. -/
theorem Machine.step_allocFilled {environment : Environment} {machine : Machine} {dims : UInt64} {leaf : Kind}
    {values : List Value} {below : Stack}
    (hdecode : machine.frame.code.decodeAt machine.frame.next = .ok (.allocFilled dims leaf))
    (hstack : machine.frame.stack = values.reverse ++ below) (hdims : dims.toNat = values.length)
    (hroom : below.length < environment.limits.stack) :
    machine.step environment =
      match checkedShape environment.limits.array values with
      | .ok sizes =>
        let frame := machine.frame.advance (.allocFilled dims leaf)
        .running { machine with frame := { frame with stack := .filled leaf sizes :: below } }
      | .error fault => machine.fail machine.console (.fault machine.frame.next fault) := by
  let frame := machine.frame.advance (.allocFilled dims leaf)
  have hadvanced : frame.stack = values.reverse ++ below := hstack
  rw [step_of_decodeAt hdecode, perform, Frame.execute_allocFilled hadvanced hdims hroom]
  cases checkedShape environment.limits.array values <;> rfl

/-- A filled allocation succeeds if and only if its sizes are natural numbers and no level of the shape exceeds the
limit, and then builds an array of exactly this shape. Sizes behind a zero do not matter to the limit. -/
theorem allocFilled_builds_shape {environment : Environment} {machine : Machine} {dims : UInt64} {leaf : Kind}
    {values : List Value} {below : Stack}
    (hdecode : machine.frame.code.decodeAt machine.frame.next = .ok (.allocFilled dims leaf))
    (hstack : machine.frame.stack = values.reverse ++ below) (hdims : dims.toNat = values.length)
    (hroom : below.length < environment.limits.stack) :
    ((∃ next, machine.step environment = .running next) ↔
      ∃ sizes, List.Forall₂ Value.IsSize values sizes ∧ ShapeWithin environment.limits.array sizes) ∧
    (∀ next sizes, machine.step environment = .running next → List.Forall₂ Value.IsSize values sizes →
      ∃ result, next.frame.stack = result :: below ∧ result.FilledWith leaf sizes) ∧
    ∀ front back, List.Forall₂ Value.IsSize values (front ++ 0 :: back) →
      ((∃ next, machine.step environment = .running next) ↔ ShapeWithin environment.limits.array front) := by
  have hstep : machine.step environment = _ := Machine.step_allocFilled hdecode hstack hdims hroom
  have hsucceeds : (∃ next, machine.step environment = .running next) ↔
      ∃ sizes, List.Forall₂ Value.IsSize values sizes ∧ ShapeWithin environment.limits.array sizes := by
    simp only [← checkedShape_eq_ok_iff, hstep]
    cases checkedShape environment.limits.array values with
    | error fault => simp [Machine.fail]
    | ok sizes => simp
  refine ⟨hsucceeds, fun next sizes hruns hsizes => ?_, fun front back hsizes => ?_⟩
  · cases hshape : checkedShape environment.limits.array values with
    | error fault =>
        rw [hstep, hshape] at hruns
        cases hruns
    | ok found =>
        rw [hstep, hshape] at hruns
        cases hruns
        obtain rfl := Value.IsSize.unique hsizes (checkedShape_eq_ok_iff.mp hshape).1
        exact ⟨_, rfl, Value.filled_filledWith leaf sizes⟩
  · rw [hsucceeds, ← shapeWithin_zero front back]
    constructor
    · rintro ⟨sizes, hfound, hwithin⟩
      rwa [Value.IsSize.unique hsizes hfound]
    · intro hwithin
      exact ⟨_, hsizes, hwithin⟩

/-- A machine that is about to allocate an array of floats with the given sizes. -/
def allocating (values : List Value) : Machine where
  frame := ⟨.ofInstructions [.allocFilled (UInt64.ofNat values.length) .float], none, values.reverse, 0, 0⟩
  callers := []
  globals := .empty
  console := ⟨[], #[], none⟩

/-- A zero makes the greatest size harmless, and a product that is zero in 64 bits is not taken for one. -/
theorem allocFilled_builds_shape_allocating :
    (∃ next result, (allocating [.uint 2, .int 0, .uint 0xFFFFFFFFFFFFFFFF]).step ⟨.empty, ⟨8, 1, 2⟩⟩ = .running next ∧
      next.frame.stack = [result] ∧ (∃ items, result.read [.int 1] = .ok (.array items) ∧ items.length = 0) ∧
      ∃ index length, result.read [.uint 1, .int 0] = .error (.indexOutOfBounds index length)) ∧
      ¬ ∃ next, (allocating [.uint 0x100000000, .uint 0x100000000]).step ⟨.empty, ⟨8, 1, 0x100000000⟩⟩ =
        .running next := by
  have hroom : ([] : Stack).length < 8 := by decide
  constructor
  · let values : List Value := [.uint 2, .int 0, .uint 0xFFFFFFFFFFFFFFFF]
    have hdecode : (allocating values).frame.code.decodeAt (allocating values).frame.next =
        .ok (.allocFilled 3 .float) := by decide +kernel
    have hsizes : List.Forall₂ Value.IsSize values [2, 0, 0xFFFFFFFFFFFFFFFF] :=
      .cons rfl (.cons rfl (.cons rfl .nil))
    obtain ⟨-, hbuilds, hzero⟩ := @allocFilled_builds_shape ⟨.empty, ⟨8, 1, 2⟩⟩ _ _ _ values [] hdecode rfl rfl hroom
    obtain ⟨next, hstep⟩ := (hzero [2] [0xFFFFFFFFFFFFFFFF] hsizes).mpr (by decide)
    obtain ⟨result, hstack, hfilled⟩ := hbuilds next _ hstep hsizes
    have hone : Value.Inside (.int 1) 2 := (Value.inside_iff_lt rfl (by decide)).mpr Nat.one_lt_two
    have hnone : ¬ Value.Inside (.int 0) 0 := by
      rw [Value.inside_iff_lt rfl (by decide)]
      exact Nat.lt_irrefl 0
    refine ⟨next, result, hstep, hstack, ?_, ?_⟩
    · exact hfilled.lengths [.int 1] [2] 0 [0xFFFFFFFFFFFFFFFF] rfl (.cons hone .nil)
    · refine hfilled.outside [.uint 1, .int 0] (by decide) (by simp [Value.integer?]) ?_
      rintro (_ | ⟨-, hrest⟩)
      cases hrest with
      | cons hindex _ => exact hnone hindex
  · let values : List Value := [.uint 0x100000000, .uint 0x100000000]
    have hdecode : (allocating values).frame.code.decodeAt (allocating values).frame.next =
        .ok (.allocFilled 2 .float) := by decide +kernel
    rw [(@allocFilled_builds_shape ⟨.empty, ⟨8, 1, 0x100000000⟩⟩ _ _ _ values [] hdecode rfl rfl hroom).1]
    rintro ⟨sizes, hsizes, hwithin⟩
    have hlisted : List.Forall₂ Value.IsSize values [0x100000000, 0x100000000] := .cons rfl (.cons rfl .nil)
    obtain rfl := Value.IsSize.unique hlisted hsizes
    -- the first level is within the limit, the second is not
    exact absurd (hwithin 1 (by decide)) (by decide)

end StackCode
