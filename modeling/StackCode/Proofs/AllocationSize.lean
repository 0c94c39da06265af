import StackCode.Proofs.FilledArrays

/-! How many values a filled allocation creates. Its check holds every level to the limit, so the levels together come to
at most the limit for each dimension, and with any number of dimensions they can come to that many. -/

namespace StackCode

namespace Value

mutual

/-- How many values stand inside an array, at all levels together. -/
def contents : Value → Nat
  | .array items => contentsAll items
  | .int _ | .uint _ | .float _ | .str _ => 0

def contentsAll : List Value → Nat
  | [] => 0
  | item :: rest => 1 + item.contents + contentsAll rest

end

/-- How many values stand at a level of an array, which itself is the level zero. -/
def countAt : (level : Nat) → Value → Nat
  | 0, _ => 1
  | level + 1, .array items => (items.map (countAt level)).sum
  | _ + 1, _ => 0

theorem contentsAll_replicate (count : Nat) (item : Value) :
    contentsAll (List.replicate count item) = count * (1 + item.contents) := by
  induction count with
  | zero => simp [contentsAll]
  | succ count ih =>
      rw [List.replicate_succ, contentsAll, ih]
      ring

theorem contents_filled_cons (leaf : Kind) (size : Nat) (rest : List Nat) :
    (filled leaf (size :: rest)).contents = size * (1 + (filled leaf rest).contents) := by
  rw [filled_cons, contents, contentsAll_replicate]

theorem countAt_filled {leaf : Kind} {level : Nat} {sizes : List Nat} (hlevel : level ≤ sizes.length) :
    (filled leaf sizes).countAt level = (sizes.take level).prod := by
  induction level generalizing sizes with
  | zero => simp [countAt]
  | succ level ih =>
      cases sizes with
      | nil => simp at hlevel
      | cons size rest =>
          rw [filled_cons, countAt, List.map_replicate, List.sum_replicate, ih (Nat.le_of_succ_le_succ hlevel),
            List.take_succ_cons, List.prod_cons, smul_eq_mul]

/-- The values inside a filled array are those of its levels. -/
theorem contents_filled (leaf : Kind) (sizes : List Nat) :
    (filled leaf sizes).contents = ∑ level ∈ Finset.range sizes.length, (sizes.take (level + 1)).prod := by
  induction sizes with
  | nil => cases leaf <;> rfl
  | cons size rest ih =>
      calc
        _ = size * (1 + (filled leaf rest).contents) := contents_filled_cons leaf size rest
        _ = size + ∑ level ∈ Finset.range rest.length, size * (rest.take (level + 1)).prod := by
          rw [ih, Nat.mul_add, Nat.mul_one, Finset.mul_sum]
        _ = ∑ level ∈ Finset.range (rest.length + 1), ((size :: rest).take (level + 1)).prod := by
          rw [Finset.sum_range_succ', Nat.add_comm]
          simp

theorem contents_filled_ones (leaf : Kind) (size dims : Nat) :
    (filled leaf (size :: List.replicate dims 1)).contents = size * (dims + 1) := by
  have hones : (filled leaf (List.replicate dims 1)).contents = dims := by
    induction dims with
    | zero => cases leaf <;> rfl
    | succ dims ih =>
        rw [List.replicate_succ, contents_filled_cons, ih]
        ring
  rw [contents_filled_cons, hones, Nat.add_comm]

end Value

theorem shapeWithin_ones (limit dims : Nat) : ShapeWithin limit (limit :: List.replicate dims 1) := by
  intro level _
  rw [List.take_succ_cons, List.prod_cons, List.take_replicate, List.prod_replicate, Nat.one_pow, Nat.mul_one]

/-- A shape that passes the check has as many values at a level as the product of the sizes down to it, at most the
limit. It creates as many values as its levels have together, at most the limit for each dimension; and arrays of single
items within a row of the limit create that many. -/
theorem contents_of_checkShape (limit : Nat) (leaf : Kind) :
    (∀ sizes, checkShape limit 1 sizes = .ok () →
      (∀ level < sizes.length, (Value.filled leaf sizes).countAt (level + 1) = (sizes.take (level + 1)).prod ∧
        (sizes.take (level + 1)).prod ≤ limit) ∧
      (Value.filled leaf sizes).contents = ∑ level ∈ Finset.range sizes.length, (sizes.take (level + 1)).prod ∧
      (Value.filled leaf sizes).contents ≤ sizes.length * limit) ∧
    ∀ dims, checkShape limit 1 (limit :: List.replicate dims 1) = .ok () ∧
      (Value.filled leaf (limit :: List.replicate dims 1)).contents = (dims + 1) * limit := by
  constructor
  · intro sizes hchecked
    have hwithin : ShapeWithin limit sizes := checkShape_one_eq_ok_iff.mp hchecked
    refine ⟨fun level hlevel => ⟨Value.countAt_filled hlevel, hwithin level hlevel⟩, Value.contents_filled leaf sizes, ?_⟩
    calc
      _ = ∑ level ∈ Finset.range sizes.length, (sizes.take (level + 1)).prod := Value.contents_filled leaf sizes
      _ ≤ ∑ _ ∈ Finset.range sizes.length, limit :=
        Finset.sum_le_sum fun level hlevel => hwithin level (Finset.mem_range.mp hlevel)
      _ = sizes.length * limit := by rw [Finset.sum_const, Finset.card_range, smul_eq_mul]
  · intro dims
    refine ⟨checkShape_one_eq_ok_iff.mpr (shapeWithin_ones limit dims), ?_⟩
    rw [Value.contents_filled_ones, Nat.mul_comm]

/-- Allocates two rows of two integers and returns them. -/
def allocatesSquare : Stream :=
  .ofInstructions [.pushInt 2, .pushInt 2, .allocFilled 2 .int, .plain .ret]

/-- Under a limit of four values the allocation creates six. -/
theorem allocation_exceeds_limit :
    ∃ value, (Machine.start allocatesSquare .empty ⟨[], #[], none⟩).Ends ⟨.empty, ⟨8, 1, 4⟩⟩
        ⟨.ok (some value), .empty, ⟨[], #[], none⟩⟩ ∧
      value.contents = 6 := by
  have hends : (Machine.start allocatesSquare .empty ⟨[], #[], none⟩).Ends ⟨.empty, ⟨8, 1, 4⟩⟩
      ⟨.ok (some (.filled .int [2, 2])), .empty, ⟨[], #[], none⟩⟩ := ⟨4, by decide +kernel⟩
  exact ⟨_, hends, rfl⟩

end StackCode
