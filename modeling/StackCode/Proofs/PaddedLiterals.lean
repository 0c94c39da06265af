import StackCode.Proofs.FilledArrays
import StackCode.Proofs.StoredKinds

/-! Array literals that initialize variables. Where all sizes are literals and no list is longer than its size, the
variable is bound to an array of exactly the declared sizes. Under the listed positions it holds the values of the listed
expressions, which are evaluated in the order of the text, brought to the base type; under all others the zeros that a
declaration without an initial value stores there.

This is about initial values in which every call passes as many arguments as its function has parameters, and has a value
where one is needed. A call that passes more leaves values behind, and these get into the array. -/

namespace StackCode

namespace Evaluation

variable {α β : Type}

/-- The evaluation has this value unless it fails, and changes nothing. -/
def Constant (evaluation : Evaluation α) (value : α) : Prop :=
  ∀ state, evaluation.run state = .done value state ∨
    ∃ cause, evaluation.run state = .fault cause state.scopes.globals state.console

namespace Constant

variable {first : Evaluation α} {next : α → Evaluation β} {value : α} {result : β}

theorem of_pure (value : α) : (pure value : Evaluation α).Constant value := fun _ => .inl rfl

theorem bind (hfirst : first.Constant value) (hnext : (next value).Constant result) :
    (first >>= next).Constant result := by
  intro state
  rw [run_bind]
  obtain hdone | ⟨cause, hfault⟩ := hfirst state
  · rw [hdone]
    exact hnext state
  · rw [hfault]
    exact .inr ⟨cause, rfl⟩

theorem of_keep (limits : Limits) (pending : Nat) (value : Value) : (keep limits pending value).Constant value := by
  intro state
  unfold keep
  split
  · exact .inl rfl
  · exact .inr ⟨_, rfl⟩

theorem of_attempt {computation : Except Fault α} (hvalue : ∀ found, computation = .ok found → found = value) :
    (attempt computation).Constant value := by
  intro state
  cases computation with
  | ok found =>
      obtain rfl := hvalue found rfl
      exact .inl rfl
  | error cause => exact .inr ⟨cause, rfl⟩

theorem eq_of_done {state after : State} {found : α} (hconstant : first.Constant value)
    (hdone : first.run state = .done found after) : found = value ∧ after = state := by
  obtain hsame | ⟨cause, hfault⟩ := hconstant state
  · rw [hsame] at hdone
    cases hdone
    exact ⟨rfl, rfl⟩
  · rw [hfault] at hdone
    cases hdone

end Constant
end Evaluation

namespace Value

/-- Arrays of the given sizes within each other, outermost size first. -/
def HasShape : Value → List Nat → Prop
  | _, [] => True
  | .array items, size :: rest => items.length = size ∧ ∀ item ∈ items, item.HasShape rest
  | _, _ :: _ => False

/-- What stands at a position of nested arrays. -/
def item? : Value → List Nat → Option Value
  | value, [] => some value
  | .array items, i :: rest => items[i]?.bind (item? · rest)
  | _, _ :: _ => none

end Value

namespace Expr

/-- Literals within each other, as deep as there are sizes and none longer than its size, around expressions of scalar
types. -/
inductive NestedWithin : List Nat → Expr → Prop
  | leaf {tree : Expr} {source : BaseType} (htype : tree.ty = some (.scalar source)) : NestedWithin [] tree
  | array {size : Nat} {rest : List Nat} {items : List Expr} {ty : Option DataType} (hlength : items.length ≤ size)
      (hitems : ∀ item ∈ items, NestedWithin rest item) : NestedWithin (size :: rest) (.array items ty)

/-- The expressions under literals of the given depth with their positions, in the order of the text. -/
def listed : (depth : Nat) → Expr → List (List Nat × Expr)
  | 0, tree => [([], tree)]
  | depth + 1, .array items _ =>
    items.zipIdx.flatMap fun numbered =>
      (listed depth numbered.1).map fun entry => (numbered.2 :: entry.1, entry.2)
  | _ + 1, _ => []

end Expr

/-- Every size is declared by a literal. -/
def LiteralSizes (declared : List (Option Expr)) (sizes : List Nat) : Prop :=
  List.Forall₂ (fun tree size => tree.bind Expr.literalSize? = some size) declared sizes

instance (declared : List (Option Expr)) (sizes : List Nat) : Decidable (LiteralSizes declared sizes) :=
  inferInstanceAs (Decidable (List.Forall₂ _ _ _))

/-- Expressions are evaluated one after the other. -/
inductive InTurn (limits : Limits) (call : Call) : State → List Expr → List Value → State → Prop
  | nil {state : State} : InTurn limits call state [] [] state
  | cons {state between after : State} {tree : Expr} {trees : List Expr} {value : Value} {values : List Value}
      (pending : Nat) (hvalue : (Meaning.value limits call pending tree).run state = .done value between)
      (hrest : InTurn limits call between trees values after) :
      InTurn limits call state (tree :: trees) (value :: values) after

theorem InTurn.append {limits : Limits} {call : Call} {state between after : State} {trees others : List Expr}
    {values found : List Value} (hfirst : InTurn limits call state trees values between)
    (hothers : InTurn limits call between others found after) :
    InTurn limits call state (trees ++ others) (values ++ found) after := by
  induction hfirst with
  | nil => exact hothers
  | cons pending hvalue _ ih => exact .cons pending hvalue (ih hothers)

namespace Value

/-- The position of an entry holds the value of its expression, brought to the base type. -/
def Stores (stored : Value) (base : BaseType) (entry : List Nat × Expr) (value : Value) : Prop :=
  ∃ source, entry.2.ty = some (.scalar source) ∧ stored.item? entry.1 = some (source.cast base value)

/-- An array of the given sizes holds the values of the entries, and zeros at all other positions. -/
structure PaddedWith (stored : Value) (base : BaseType) (sizes : List Nat) (entries : List (List Nat × Expr))
    (values : List Value) : Prop where
  shape : stored.HasShape sizes
  listed : List.Forall₂ (stored.Stores base) entries values
  others : ∀ path, List.Forall₂ (· < ·) path sizes → path ∉ entries.map Prod.fst →
    stored.item? path = some (.zero base.kind)

theorem item?_array (items : List Value) (i : Nat) (rest : List Nat) :
    (array items).item? (i :: rest) = items[i]?.bind (item? · rest) := rfl

theorem hasShape_filled (leaf : Kind) (sizes : List Nat) : (filled leaf sizes).HasShape sizes := by
  induction sizes with
  | nil => trivial
  | cons size rest ih =>
      rw [filled_cons]
      refine ⟨List.length_replicate, fun item hitem => ?_⟩
      rwa [List.eq_of_mem_replicate hitem]

theorem item?_filled (leaf : Kind) {path sizes : List Nat} (hinside : List.Forall₂ (· < ·) path sizes) :
    (filled leaf sizes).item? path = some (.zero leaf) := by
  induction hinside with
  | nil => rfl
  | cons hi _ ih => rw [filled_cons, item?_array, List.getElem?_replicate, if_pos hi, Option.bind_some, ih]

end Value

section Rows

variable {base : BaseType} {depth start missing : Nat} {sizes : List Nat} {items : List Expr} {stored : List Value}
  {rows : List (Value × List Value)}

/-- The entries of some items of a literal, counted from `start`. -/
def Expr.listedFrom (depth start : Nat) (items : List Expr) : List (List Nat × Expr) :=
  (items.zipIdx start).flatMap fun numbered =>
    (numbered.1.listed depth).map fun entry => (numbered.2 :: entry.1, entry.2)

theorem Expr.listed_array (items : List Expr) (ty : Option DataType) :
    (Expr.array items ty).listed (depth + 1) = listedFrom depth 0 items := rfl

theorem Expr.listedFrom_cons (item : Expr) (items : List Expr) :
    listedFrom depth start (item :: items) =
      (item.listed depth).map (fun entry => (start :: entry.1, entry.2)) ++ listedFrom depth (start + 1) items := by
  rw [listedFrom, List.zipIdx_cons, List.flatMap_cons]
  rfl

theorem Expr.map_snd_listedFrom (items : List Expr) :
    (listedFrom depth start items).map Prod.snd = items.flatMap fun item => (item.listed depth).map Prod.snd := by
  induction items generalizing start with
  | nil => rfl
  | cons item items ih =>
      rw [listedFrom_cons, List.map_append, List.map_map, ih, List.flatMap_cons]
      rfl

/-- The rows that the items of a literal have become, with the values in them. -/
abbrev Rows (base : BaseType) (sizes : List Nat) (items : List Expr) (rows : List (Value × List Value)) : Prop :=
  List.Forall₂ (fun item row => row.1.PaddedWith base sizes (item.listed sizes.length) row.2) items rows

theorem getElem?_of_drop_eq {row : Value} {rest : List Value} (hdrop : stored.drop start = row :: rest) :
    stored[start]? = some row ∧ stored.drop (start + 1) = rest := by
  constructor
  · rw [← List.head?_drop, hdrop, List.head?_cons]
  · rw [← List.tail_drop, hdrop, List.tail_cons]

-- Both statements about rows are proved for the rest of an array behind the first `start` items.

theorem forall₂_stores_of_rows {zeros : List Value} (hrows : Rows base sizes items rows)
    (hdrop : stored.drop start = rows.map Prod.fst ++ zeros) :
    List.Forall₂ ((Value.array stored).Stores base) (Expr.listedFrom sizes.length start items)
      (rows.flatMap Prod.snd) := by
  induction hrows generalizing start with
  | nil => exact .nil
  | @cons item row items rows hrow _ ih =>
      obtain ⟨hhead, htail⟩ := getElem?_of_drop_eq hdrop
      rw [Expr.listedFrom_cons, List.flatMap_cons]
      refine List.rel_append ?_ (ih htail)
      rw [List.forall₂_map_left_iff]
      refine hrow.listed.imp ?_
      rintro entry value ⟨source, htype, hitem⟩
      refine ⟨source, htype, ?_⟩
      rw [Value.item?_array, hhead, Option.bind_some, hitem]

theorem item?_of_rows (hrows : Rows base sizes items rows)
    (hdrop : stored.drop start = rows.map Prod.fst ++ List.replicate missing (.filled base.kind sizes))
    {i : Nat} {path : List Nat} (hpath : List.Forall₂ (· < ·) path sizes) (hstart : start ≤ i)
    (hend : i < start + (items.length + missing))
    (hother : i :: path ∉ (Expr.listedFrom sizes.length start items).map Prod.fst) :
    (Value.array stored).item? (i :: path) = some (.zero base.kind) := by
  induction hrows generalizing start with
  | nil =>
      obtain ⟨position, rfl⟩ := Nat.exists_eq_add_of_le hstart
      rw [List.length_nil, Nat.zero_add] at hend
      rw [Value.item?_array, ← List.getElem?_drop, hdrop, List.map_nil, List.nil_append, List.getElem?_replicate,
        if_pos (Nat.lt_of_add_lt_add_left hend), Option.bind_some, Value.item?_filled base.kind hpath]
  | @cons item row items rows hrow _ ih =>
      obtain ⟨hhead, htail⟩ := getElem?_of_drop_eq hdrop
      rw [Expr.listedFrom_cons, List.map_append, List.mem_append, not_or, List.map_map] at hother
      obtain hfirst | hlater := Nat.eq_or_lt_of_le hstart
      · subst hfirst
        rw [Value.item?_array, hhead, Option.bind_some]
        refine hrow.others path hpath fun hlisted => hother.1 ?_
        obtain ⟨entry, hentry, rfl⟩ := List.mem_map.mp hlisted
        exact List.mem_map.mpr ⟨entry, hentry, rfl⟩
      · rw [List.length_cons] at hend
        exact ih htail hlater (by omega) hother.2

theorem Rows.hasShape (hrows : Rows base sizes items rows) : ∀ row ∈ rows, row.1.HasShape sizes := by
  induction hrows with
  | nil => exact fun _ hmem => (List.not_mem_nil hmem).elim
  | cons hrow _ ih => exact List.forall_mem_cons.mpr ⟨hrow.shape, ih⟩

/-- Rows and zeros up to the size make an array. -/
theorem Rows.paddedWith {size : Nat} {ty : Option DataType} (hrows : Rows base sizes items rows)
    (hlength : items.length ≤ size) :
    (Value.array (rows.map Prod.fst ++ List.replicate (size - items.length) (.filled base.kind sizes))).PaddedWith base
      (size :: sizes) ((Expr.array items ty).listed (size :: sizes).length) (rows.flatMap Prod.snd) where
  shape := by
    refine ⟨?_, fun item hitem => ?_⟩
    · rw [List.length_append, List.length_map, List.length_replicate, ← hrows.length_eq]
      omega
    · obtain hrow | hzero := List.mem_append.mp hitem
      · obtain ⟨row, hmem, rfl⟩ := List.mem_map.mp hrow
        exact hrows.hasShape row hmem
      · rw [List.eq_of_mem_replicate hzero]
        exact Value.hasShape_filled base.kind sizes
  listed := forall₂_stores_of_rows hrows rfl
  others := by
    rintro path (_ | ⟨hi, hpath⟩) hother
    exact item?_of_rows hrows rfl hpath (Nat.zero_le _) (by omega) hother

end Rows

namespace Meaning

open Evaluation

variable {limits : Limits} {call : Call} {base : BaseType} {sizes : List Nat} {declared : List (Option Expr)}
  {tree : Expr} {pending : Nat} {state after : State} {stored : Value}

theorem constant_size {declares : Option Expr} {n : Nat} (hsize : declares.bind Expr.literalSize? = some n)
    (pending : Nat) : ∃ found : Value, found.IsSize n ∧ (size limits call pending declares).Constant found := by
  obtain ⟨tree, rfl, hliteral⟩ := Option.bind_eq_some_iff.mp hsize
  rw [size, value]
  unfold Expr.literalSize? at hliteral
  split at hliteral
  · rename_i m ty
    split at hliteral
    · cases hliteral
      rw [expr, needed_map_some]
      exact ⟨.int m, congrArg some (Int.toNat_of_nonneg ‹_›).symm, .of_keep limits pending _⟩
    · cases hliteral
  · rename_i m ty
    cases hliteral
    rw [expr, needed_map_some]
    exact ⟨.uint m, rfl, .of_keep limits pending _⟩
  · cases hliteral

theorem constant_sizes (hsizes : LiteralSizes declared sizes) (pending : Nat) :
    ∃ found, List.Forall₂ Value.IsSize found sizes ∧
      (Meaning.sizes limits call pending sizes.length declared).Constant found := by
  induction hsizes generalizing pending with
  | nil => exact ⟨[], .nil, .of_pure []⟩
  | cons hsize _ ih =>
      obtain ⟨first, hfirst, hconstant⟩ := constant_size hsize pending
      obtain ⟨rest, hrest, hconstants⟩ := ih (pending + 1)
      exact ⟨first :: rest, .cons hfirst hrest, hconstant.bind (hconstants.bind (.of_pure _))⟩

/-- The zero of a type whose sizes are literals. -/
theorem constant_zero (hsizes : LiteralSizes declared sizes) (pending : Nat) :
    (zero limits call pending ⟨base, sizes.length⟩ declared).Constant (.filled base.kind sizes) := by
  unfold zero
  split
  · obtain ⟨found, hfound, hconstant⟩ := constant_sizes hsizes pending
    have hshape : (attempt (Frame.toSizes found)).Constant sizes := by
      rw [Frame.toSizes_eq_ok_iff.mpr hfound]
      exact .of_pure sizes
    have hcheck : (attempt (checkShape limits.array 1 sizes)).Constant () := .of_attempt fun _ _ => rfl
    exact hconstant.bind (hshape.bind (hcheck.bind (.of_keep limits pending _)))
  · rename_i hscalar
    cases sizes with
    | nil => exact .of_keep limits pending _
    | cons => exact absurd rfl hscalar

theorem constant_padding (hsizes : LiteralSizes declared sizes) (pending count : Nat) :
    (padding limits call pending ⟨base, sizes.length⟩ declared count).Constant
      (List.replicate count (.filled base.kind sizes)) := by
  induction count generalizing pending with
  | zero => exact .of_pure []
  | succ count ih => exact (constant_zero hsizes pending).bind ((ih (pending + 1)).bind (.of_pure _))

/-- An expression of a scalar type is evaluated, and its value brought to the base type. -/
theorem exists_of_converted {source : BaseType} (htype : tree.ty = some (.scalar source))
    (hdone : (converted limits call pending tree (.scalar base)).run state = .done stored after) :
    ∃ found, (value limits call pending tree).run state = .done found after ∧ stored = source.cast base found := by
  obtain ⟨found, between, hfound, hconvert⟩ := exists_of_run_bind hdone
  rw [htype, convert, Option.bind_some] at hconvert
  cases hconversion : (DataType.scalar source).conversion? (.scalar base) with
  | none =>
      rw [hconversion] at hconvert
      cases hconvert
      exact ⟨_, hfound, (DataType.cast_of_conversion?_eq_none hconversion _).symm⟩
  | some operation =>
      rw [hconversion] at hconvert
      change (attempt (operation.onOne found) >>= keep limits pending).run between = _ at hconvert
      cases hresult : operation.onOne found with
      | error cause =>
          rw [hresult] at hconvert
          cases hconvert
      | ok result =>
          rw [hresult] at hconvert
          obtain ⟨rfl, rfl⟩ := (Constant.of_keep limits pending result).eq_of_done hconvert
          exact ⟨found, hfound, DataType.eq_cast_of_onOne hconversion hresult⟩

theorem arrayItem_scalar (limits : Limits) (call : Call) (pending : Nat) (base : BaseType)
    (declared : List (Option Expr)) (tree : Expr) :
    arrayItem limits call pending (.scalar base) declared tree = converted limits call pending tree (.scalar base) := by
  cases tree <;> rfl

theorem arrayItem_array (limits : Limits) (call : Call) (pending : Nat) (base : BaseType) (dims : Nat)
    (declared : List (Option Expr)) (items : List Expr) (ty : Option DataType) :
    arrayItem limits call pending ⟨base, dims + 1⟩ declared (.array items ty) =
      (do
        let values ← arrayItems limits call pending ⟨base, dims⟩ declared.tail items
        paddedArray limits call pending ⟨base, dims⟩ declared values) := rfl

/-- Every item becomes a row if every single one does. -/
theorem exists_rows_of_arrayItems {items : List Expr} {found : List Value}
    (hitems : ∀ item ∈ items, ∀ pending state stored after,
      (arrayItem limits call pending ⟨base, sizes.length⟩ declared item).run state = .done stored after →
        ∃ values, InTurn limits call state ((item.listed sizes.length).map Prod.snd) values after ∧
          stored.PaddedWith base sizes (item.listed sizes.length) values)
    (hdone : (arrayItems limits call pending ⟨base, sizes.length⟩ declared items).run state = .done found after) :
    ∃ rows : List (Value × List Value), found = rows.map Prod.fst ∧ Rows base sizes items rows ∧
      InTurn limits call state (items.flatMap fun item => (item.listed sizes.length).map Prod.snd)
        (rows.flatMap Prod.snd) after := by
  induction items generalizing pending state found with
  | nil =>
      cases hdone
      exact ⟨[], rfl, .nil, .nil⟩
  | cons item items ih =>
      obtain ⟨hitem, hrest⟩ := List.forall_mem_cons.mp hitems
      rw [arrayItems] at hdone
      obtain ⟨first, between, hfirst, hdone⟩ := exists_of_run_bind hdone
      obtain ⟨others, _, hothers, hdone⟩ := exists_of_run_bind hdone
      cases hdone
      obtain ⟨values, hturn, hpadded⟩ := hitem pending state first between hfirst
      obtain ⟨rows, rfl, hrows, hturns⟩ := ih hrest hothers
      exact ⟨(first, values) :: rows, rfl, .cons hpadded hrows, hturn.append hturns⟩

/-- An item that is a literal becomes an array of the declared sizes. -/
theorem paddedWith_of_arrayItem (hnested : tree.NestedWithin sizes) (hsizes : LiteralSizes declared sizes)
    (hdone : (arrayItem limits call pending ⟨base, sizes.length⟩ declared tree).run state = .done stored after) :
    ∃ values, InTurn limits call state ((tree.listed sizes.length).map Prod.snd) values after ∧
      stored.PaddedWith base sizes (tree.listed sizes.length) values := by
  induction hnested generalizing declared pending state stored after with
  | leaf htype =>
      change (arrayItem limits call pending (.scalar base) declared _).run state = _ at hdone
      rw [arrayItem_scalar] at hdone
      obtain ⟨found, hfound, rfl⟩ := exists_of_converted htype hdone
      refine ⟨[found], .cons pending hfound .nil, trivial, .cons ⟨_, htype, rfl⟩ .nil, ?_⟩
      rintro path (_ | _) hother
      exact absurd (List.mem_singleton_self _) hother
  | @array size rest items ty hlength hitems ih =>
      rw [List.length_cons, arrayItem_array] at hdone
      obtain ⟨found, between, hfound, hpadded⟩ := exists_of_run_bind hdone
      -- The first of the declared sizes is that of this literal, the others are those of its items.
      cases hsizes with
      | @cons declares _ others _ hsize hothers =>
          obtain ⟨rows, rfl, hrows, hturns⟩ :=
            exists_rows_of_arrayItems (fun item hmem _ _ _ _ hitem => ih item hmem hothers hitem) hfound
          rw [paddedArray] at hpadded
          obtain ⟨zeros, _, hzeros, hkept⟩ := exists_of_run_bind hpadded
          obtain ⟨rfl, rfl⟩ := (constant_padding hothers _ _).eq_of_done hzeros
          obtain ⟨rfl, rfl⟩ := (Constant.of_keep limits pending _).eq_of_done hkept
          have hmissing : (Gen.declaredSize? (declares :: others)).getD 0 - (rows.map Prod.fst).length =
              size - items.length := by
            rw [show Gen.declaredSize? (declares :: others) = some size from hsize, Option.getD_some, List.length_map,
              hrows.length_eq]
          refine ⟨rows.flatMap Prod.snd, ?_, ?_⟩
          · rwa [List.length_cons, Expr.listed_array, Expr.map_snd_listedFrom]
          · rw [hmissing]
            exact hrows.paddedWith hlength

end Meaning

section Runs

open Evaluation

variable {environment : Environment} {functions : List Declaration} {code : Stream} {globals finals : Scope}
  {console remaining : Console} {result : Option Value}

/-- A run that succeeds is explained by what the statements mean, if they have a meaning. -/
theorem exists_done_of_ends {statements : List Stmt} (hprovides : environment.Provides functions)
    (hcode : code = .ofInstructions (Code.stmts statements)) (hshort : code.size < Instruction.offsetBound)
    (hdefined : ∀ fuel, Meaning.main environment.limits functions statements globals console fuel ≠ .undefined)
    (hends : (Machine.start code globals console).Ends environment ⟨.ok result, finals, remaining⟩) :
    ∃ fuel completion after,
      Meaning.main environment.limits functions statements globals console fuel = .done completion after ∧
        result = completion.value ∧ finals = after.scopes.globals ∧ remaining = after.console ∧
        ∀ left, completion = .normal left → after.scopes.locals = none := by
  obtain ⟨fuel, hrun⟩ := hends
  have hfollows := follows_main hprovides hcode hshort globals console fuel
  cases houtcome : Meaning.main environment.limits functions statements globals console fuel with
  | done completion after =>
      rw [houtcome] at hfollows
      obtain ⟨count, target, htarget, hreached⟩ := hfollows
      have hfinished : (Machine.start code globals console).Ends environment
          ⟨.ok completion.value, after.scopes.globals, after.console⟩ :=
        Machine.ends_of_run_step htarget (hreached.step (Nat.le_refl _))
      cases Machine.Ends.unique ⟨fuel, hrun⟩ hfinished
      refine ⟨fuel, completion, after, houtcome, rfl, rfl, rfl, ?_⟩
      rintro left rfl
      obtain ⟨current, rfl⟩ := hreached
      -- The frame of the main stream has no variables of its own.
      exact Machine.callsNested_of_run htarget
  | fault cause =>
      rw [houtcome] at hfollows
      obtain ⟨offset, hfault⟩ := hfollows
      cases Machine.Ends.unique ⟨fuel, hrun⟩ hfault
  | undefined => exact absurd houtcome (hdefined fuel)
  | exhausted =>
      rw [houtcome] at hfollows
      obtain ⟨next, hrunning⟩ := hfollows
      rw [hrun] at hrunning
      cases hrunning

theorem Meaning.main_declare (limits : Limits) (functions : List Declaration) (id : SymbolId) (ty : DataType)
    (declared : List (Option Expr)) (init : Option Expr) (globals : Scope) (console : Console) (fuel : Nat) :
    main limits functions [.declare id ty declared init] globals console fuel =
      (initialValue limits (call limits functions fuel 0) 0 ty declared init >>= fun stored =>
        store id stored >>= fun _ => pure (.normal [])).run ⟨⟨globals, none⟩, console⟩ := by
  change (andThen (initialValue _ _ _ _ _ _ >>= _) _).run _ = _
  rw [andThen, run_bind, run_bind, run_bind]
  cases (initialValue limits (call limits functions fuel 0) 0 ty declared init).run ⟨⟨globals, none⟩, console⟩ <;> rfl

theorem Scopes.globals_store_of_locals {scopes : Scopes} {id : SymbolId} {value : Value}
    (hnone : (scopes.store id value).locals = none) :
    (scopes.store id value).globals = scopes.globals.insert id value := by
  unfold store at hnone ⊢
  by_cases hglobal : scopes.globals.contains id = true
  · rw [if_pos hglobal]
  · rw [if_neg hglobal] at hnone ⊢
    cases hlocals : scopes.locals with
    | none => rfl
    | some locals =>
        rw [hlocals] at hnone
        cases hnone

/-- A declaration that runs alone binds its variable to the initial value. -/
theorem exists_initialValue_of_ends {id : SymbolId} {ty : DataType} {declared : List (Option Expr)} {init : Option Expr}
    (hprovides : environment.Provides functions)
    (hcode : code = .ofInstructions (Code.stmts [.declare id ty declared init]))
    (hshort : code.size < Instruction.offsetBound)
    (hdefined : ∀ fuel,
      Meaning.main environment.limits functions [.declare id ty declared init] globals console fuel ≠ .undefined)
    (hends : (Machine.start code globals console).Ends environment ⟨.ok result, finals, remaining⟩) :
    ∃ fuel stored between,
      (Meaning.initialValue environment.limits (Meaning.call environment.limits functions fuel 0) 0 ty declared init).run
        ⟨⟨globals, none⟩, console⟩ = .done stored between ∧
      result = none ∧ finals = between.scopes.globals.insert id stored ∧ remaining = between.console := by
  obtain ⟨fuel, completion, after, hdone, rfl, rfl, rfl, hlocals⟩ :=
    exists_done_of_ends hprovides hcode hshort hdefined hends
  rw [Meaning.main_declare] at hdone
  obtain ⟨stored, between, hstored, hdone⟩ := exists_of_run_bind hdone
  cases hdone
  refine ⟨fuel, stored, between, hstored, rfl, ?_, rfl⟩
  exact Scopes.globals_store_of_locals (hlocals [] rfl)

theorem Meaning.initialValue_eq_arrayItem {limits : Limits} {call : Call} {pending : Nat} {base : BaseType}
    {declared : List (Option Expr)} {sizes : List Nat} {init : Expr} (hnested : init.NestedWithin sizes) :
    initialValue limits call pending ⟨base, sizes.length⟩ declared (some init) =
      arrayItem limits call pending ⟨base, sizes.length⟩ declared init := by
  cases hnested with
  | leaf => exact (arrayItem_scalar limits call pending base declared init).symm
  | array => rfl

/-- The statement, compiled in some context and run alone, may leave the variable bound to this value. -/
def Stmt.CanStore (environment : Environment) (statement : Stmt) (id : SymbolId) (value : Value) : Prop :=
  ∃ context after code globals console result finals remaining,
    compile context [statement] = (.ok code, after) ∧ code.size < Instruction.offsetBound ∧
      (Machine.start code globals console).Ends environment ⟨.ok result, finals, remaining⟩ ∧
      finals.get? id = some value

/-- Without an initial value the zeros of the declared shape are stored. -/
theorem Stmt.CanStore.eq_filled {id : SymbolId} {base : BaseType} {declared : List (Option Expr)} {sizes : List Nat}
    {blank : Value} (hprovides : environment.Provides functions) (hsizes : LiteralSizes declared sizes)
    (hstores : (Stmt.declare id ⟨base, sizes.length⟩ declared none).CanStore environment id blank) :
    blank = .filled base.kind sizes := by
  obtain ⟨context, after, code, globals, console, result, finals, remaining, hcompile, hshort, hends, hblank⟩ := hstores
  have hzero : ∀ fuel, (Meaning.initialValue environment.limits (Meaning.call environment.limits functions fuel 0) 0
      ⟨base, sizes.length⟩ declared none).Constant (.filled base.kind sizes) :=
    fun fuel => Meaning.constant_zero hsizes 0
  have hdefined : ∀ fuel, Meaning.main environment.limits functions
      [.declare id ⟨base, sizes.length⟩ declared none] globals console fuel ≠ .undefined := by
    intro fuel hundefined
    rw [Meaning.main_declare, run_bind] at hundefined
    obtain hdone | ⟨cause, hfault⟩ := hzero fuel ⟨⟨globals, none⟩, console⟩
    · rw [hdone] at hundefined
      cases hundefined
    · rw [hfault] at hundefined
      cases hundefined
  obtain ⟨fuel, stored, between, hstored, -, rfl, -⟩ :=
    exists_initialValue_of_ends hprovides (compile_of_ok hcompile).1 hshort hdefined hends
  obtain ⟨rfl, -⟩ := (hzero fuel).eq_of_done hstored
  rw [Table.get?_insert, if_pos rfl] at hblank
  exact (Option.some.inj hblank).symm

/-- An array literal initializes a variable, or an expression a scalar one. Whenever the declaration runs alone with
success, the listed expressions have been evaluated one after the other, and the variable is all that is bound after them.
The array has exactly the declared sizes. At the listed positions it holds the values of their expressions, brought to the
base type, and at all others zeros, as they also stand there if the variable is declared without an initial value. -/
theorem padded_literal {context after : Context} {id : SymbolId} {base : BaseType} {declared : List (Option Expr)}
    {sizes : List Nat} {init : Expr} {code : Stream} {environment : Environment} {functions : List Declaration}
    {globals finals : Scope} {console remaining : Console} {result : Option Value}
    (hsizes : LiteralSizes declared sizes) (hnested : init.NestedWithin sizes)
    (hcompile : compile context [.declare id ⟨base, sizes.length⟩ declared (some init)] = (.ok code, after))
    (hshort : code.size < Instruction.offsetBound) (hprovides : environment.Provides functions)
    (hdefined : ∀ fuel, Meaning.main environment.limits functions
      [.declare id ⟨base, sizes.length⟩ declared (some init)] globals console fuel ≠ .undefined)
    (hends : (Machine.start code globals console).Ends environment ⟨.ok result, finals, remaining⟩) :
    ∃ fuel values between stored,
      InTurn environment.limits (Meaning.call environment.limits functions fuel 0) ⟨⟨globals, none⟩, console⟩
        ((init.listed sizes.length).map Prod.snd) values between ∧
      finals = between.scopes.globals.insert id stored ∧ remaining = between.console ∧ result = none ∧
      stored.PaddedWith base sizes (init.listed sizes.length) values ∧
      ∀ blank, (Stmt.declare id ⟨base, sizes.length⟩ declared none).CanStore environment id blank →
        ∀ path, List.Forall₂ (· < ·) path sizes → path ∉ (init.listed sizes.length).map Prod.fst →
          stored.item? path = blank.item? path := by
  obtain ⟨fuel, stored, between, hstored, hresult, hfinals, hremaining⟩ :=
    exists_initialValue_of_ends hprovides (compile_of_ok hcompile).1 hshort hdefined hends
  rw [Meaning.initialValue_eq_arrayItem hnested] at hstored
  obtain ⟨values, hturn, hpadded⟩ := Meaning.paddedWith_of_arrayItem hnested hsizes hstored
  refine ⟨fuel, values, between, stored, hturn, hfinals, hremaining, hresult, hpadded, ?_⟩
  intro blank hblank path hpath hother
  rw [hpadded.others path hpath hother, hblank.eq_filled hprovides hsizes, Value.item?_filled base.kind hpath]

end Runs

/-- One of two rows, and two of its three integers: a float and a variable. -/
def shortRows : Expr :=
  .array [.array [.literal (.float ⟨0x4004000000000000⟩) (some .float), .var 301 (some .int64)] none] none

def shortRowsSizes : List (Option Expr) :=
  [some (.literal (.int 2) (some .int64)), some (.literal (.uint 3) (some .uint64))]

theorem padded_literal_shortRows :
    ∃ code values, compile .empty [.declare 300 ⟨.int .w64, 2⟩ shortRowsSizes (some shortRows)] = (.ok code, .empty) ∧
      (Machine.start code (.ofList [(301, .int 7)]) ⟨[], #[], none⟩).Ends ⟨.empty, ⟨8, 0, 8⟩⟩
        ⟨.ok none, .ofList [(300, .array [.array [.int 2, .int 7, .int 0], .array [.int 0, .int 0, .int 0]]),
          (301, .int 7)], ⟨[], #[], none⟩⟩ ∧
      (Value.array [.array [.int 2, .int 7, .int 0], .array [.int 0, .int 0, .int 0]]).PaddedWith (.int .w64) [2, 3]
        [([0, 0], .literal (.float ⟨0x4004000000000000⟩) (some .float)), ([0, 1], .var 301 (some .int64))] values := by
  let statement : Stmt := .declare 300 ⟨.int .w64, 2⟩ shortRowsSizes (some shortRows)
  let code := Stream.ofInstructions (Code.stmts [statement])
  let globals : Scope := .ofList [(301, .int 7)]
  let environment : Environment := ⟨.empty, ⟨8, 0, 8⟩⟩
  let filled : Value := .array [.array [.int 2, .int 7, .int 0], .array [.int 0, .int 0, .int 0]]
  have hcompile : compile .empty [statement] = (.ok code, .empty) := by decide +kernel
  have hends : (Machine.start code globals ⟨[], #[], none⟩).Ends environment
      ⟨.ok none, .ofList [(300, filled), (301, .int 7)], ⟨[], #[], none⟩⟩ := ⟨10, by decide +kernel⟩
  have hnested : shortRows.NestedWithin [2, 3] := by
    refine .array (by decide) (List.forall_mem_singleton.mpr (.array (by decide) ?_))
    exact List.forall_mem_cons.mpr ⟨.leaf rfl, List.forall_mem_singleton.mpr (.leaf rfl)⟩
  have hprovides : environment.Provides [] := ⟨fun _ => rfl, fun _ _ hget => (by cases hget)⟩
  have hdefined : ∀ fuel, Meaning.main ⟨8, 0, 8⟩ [] [statement] globals ⟨[], #[], none⟩ fuel ≠ .undefined := by
    intro fuel hundefined
    have hdone : Meaning.main ⟨8, 0, 8⟩ [] [statement] globals ⟨[], #[], none⟩ fuel =
        .done (.normal []) ⟨⟨.ofList [(300, filled), (301, .int 7)], none⟩, ⟨[], #[], none⟩⟩ := rfl
    rw [hdone] at hundefined
    cases hundefined
  obtain ⟨fuel, values, between, stored, -, hfinals, -, -, hpadded, -⟩ :=
    padded_literal (by decide) hnested hcompile (by decide +kernel) hprovides hdefined hends
  have hstored : some filled = some stored := by
    have hget := congrArg (Table.get? · 300) hfinals
    rwa [Table.get?_insert, if_pos rfl] at hget
  cases hstored
  exact ⟨code, values, hcompile, hends, hpadded⟩

/-- Two integers are listed, and the call that gives the second passes one argument too many. -/
def strayArgument : List Stmt :=
  [.declare 300 ⟨.int .w64, 1⟩ [some (.literal (.int 2) (some .int64))]
     (some (.array [.literal (.int 5) (some .int64),
       .call 310 [.literal (.int 1) (some .int64), .literal (.int 2) (some .int64)] (some .int64)] none)),
   .function 310 [311] [.ret (some (.var 311 (some .int64)))]]

/-- A signed integer in an array of unsigned ones. -/
def signedItem : List Stmt :=
  [.declare 300 ⟨.uint .w64, 1⟩ [some (.literal (.int 2) (some .int64))]
     (some (.array [.literal (.int 5) (some .int64)] none))]

/-- An argument that no parameter takes stands in the array, and the listed 5 does not. A listed integer keeps its
signedness. -/
theorem listed_misplaced_or_signed :
    (∃ program, compileProgram strayArgument = .ok program ∧
      (Machine.start program.main .empty ⟨[], #[], none⟩).Ends ⟨program.functions, .default⟩
        ⟨.ok none, .ofList [(300, .array [.int 1, .int 2])], ⟨[], #[], none⟩⟩) ∧
    ∃ program, compileProgram signedItem = .ok program ∧
      (Machine.start program.main .empty ⟨[], #[], none⟩).Ends ⟨program.functions, .default⟩
        ⟨.ok none, .ofList [(300, .array [.int 5, .uint 0])], ⟨[], #[], none⟩⟩ := by
  have hstray : compileProgram strayArgument =
      .ok ⟨.ofInstructions (Code.stmts strayArgument), (compile .empty strayArgument).2.functions⟩ := by decide +kernel
  have hsigned : compileProgram signedItem = .ok ⟨.ofInstructions (Code.stmts signedItem), .empty⟩ := by
    decide +kernel
  exact ⟨⟨_, hstray, 9, by decide +kernel⟩, ⟨_, hsigned, 5, by decide +kernel⟩⟩

end StackCode
