import StackCode.Proofs.Code

/-! What a compilation does to the functions of a context. A tree that is accepted enters all functions that
it declares; one that is refused may have entered some of them, a few without their code. -/

namespace StackCode

def CompileError.isPatch : CompileError → Bool
  | .patch _ => true
  | _ => false

namespace Context

/-- All functions declared are new in the context, and the later context has them beside what it had. -/
structure Declares (declared : List Declaration) (before after : Context) : Prop where
  nextId : after.nextId = before.nextId
  unreserved : ∀ declaration ∈ declared, isReserved declaration.id = false
  fresh : ∀ declaration ∈ declared, before.functions.get? declaration.id = none
  distinct : declared.Pairwise fun first second => first.id ≠ second.id
  functions : ∀ id, after.functions.get? id =
    match Declaration.find? declared id with
    | some declaration => some declaration.function
    | none => before.functions.get? id

/-- The later context has what the earlier one had, and beside it only functions declared, some of them
without their code. -/
structure DeclaresPart (declared : List Declaration) (before after : Context) : Prop where
  nextId : after.nextId = before.nextId
  kept : ∀ id function, before.functions.get? id = some function → after.functions.get? id = some function
  added : ∀ id function, after.functions.get? id = some function →
    before.functions.get? id = some function ∨
      ∃ declaration ∈ declared, declaration.id = id ∧ function.params = declaration.params ∧
        (function.code = .empty ∨ function.code = declaration.function.code)

theorem declares_nil (context : Context) : context.Declares [] context where
  nextId := rfl
  unreserved _ hmem := by cases hmem
  fresh _ hmem := by cases hmem
  distinct := List.Pairwise.nil
  functions _ := rfl

theorem declaresPart_refl (declared : List Declaration) (context : Context) :
    context.DeclaresPart declared context where
  nextId := rfl
  kept _ _ hget := hget
  added _ _ hget := Or.inl hget

variable {declared first second : List Declaration} {before between after : Context}

theorem Declares.get?_of_mem (hdeclares : before.Declares declared after) {declaration : Declaration}
    (hmem : declaration ∈ declared) : (after.functions.get? declaration.id).isSome = true := by
  rw [hdeclares.functions]
  cases hfind : Declaration.find? declared declaration.id with
  | some found => rfl
  | none => exact absurd rfl (Declaration.find?_eq_none.mp hfind declaration hmem)

theorem Declares.kept (hdeclares : before.Declares declared after) {id : SymbolId} {function : Function}
    (hget : before.functions.get? id = some function) : after.functions.get? id = some function := by
  rw [hdeclares.functions]
  cases hfind : Declaration.find? declared id with
  | none => exact hget
  | some declaration =>
      obtain ⟨hmem, rfl⟩ := Declaration.find?_eq_some hfind
      rw [hdeclares.fresh declaration hmem] at hget
      cases hget

theorem Declares.part (hdeclares : before.Declares declared after) : before.DeclaresPart declared after where
  nextId := hdeclares.nextId
  kept _ _ hget := hdeclares.kept hget
  added id function hget := by
    rw [hdeclares.functions] at hget
    cases hfind : Declaration.find? declared id with
    | none =>
        rw [hfind] at hget
        exact Or.inl hget
    | some declaration =>
        rw [hfind] at hget
        cases hget
        obtain ⟨hmem, hid⟩ := Declaration.find?_eq_some hfind
        exact Or.inr ⟨declaration, hmem, hid, rfl, Or.inr rfl⟩

theorem Declares.append (hfirst : before.Declares first between) (hsecond : between.Declares second after) :
    before.Declares (first ++ second) after where
  nextId := hsecond.nextId.trans hfirst.nextId
  unreserved declaration hmem := by
    rcases List.mem_append.mp hmem with hmem | hmem
    · exact hfirst.unreserved declaration hmem
    · exact hsecond.unreserved declaration hmem
  fresh declaration hmem := by
    rcases List.mem_append.mp hmem with hmem | hmem
    · exact hfirst.fresh declaration hmem
    · cases hget : before.functions.get? declaration.id with
      | none => rfl
      | some function =>
          have hbetween := hfirst.kept hget
          rw [hsecond.fresh declaration hmem] at hbetween
          cases hbetween
  distinct := by
    refine List.pairwise_append.mpr ⟨hfirst.distinct, hsecond.distinct, ?_⟩
    intro declaration hmem other hother hid
    have hsome := hfirst.get?_of_mem hmem
    rw [hid, hsecond.fresh other hother] at hsome
    cases hsome
  functions id := by
    rw [hsecond.functions, hfirst.functions, Declaration.find?_append]
    cases hfind : Declaration.find? first id with
    | none => cases Declaration.find? second id <;> rfl
    | some declaration =>
        obtain ⟨hmem, rfl⟩ := Declaration.find?_eq_some hfind
        have hnone : Declaration.find? second declaration.id = none := by
          refine Declaration.find?_eq_none.mpr fun other hother hid => ?_
          have hsome := hfirst.get?_of_mem hmem
          rw [← hid, hsecond.fresh other hother] at hsome
          cases hsome
        rw [hnone]
        rfl

theorem DeclaresPart.trans (hfirst : before.DeclaresPart first between)
    (hsecond : between.DeclaresPart second after) : before.DeclaresPart (first ++ second) after where
  nextId := hsecond.nextId.trans hfirst.nextId
  kept id function hget := hsecond.kept id function (hfirst.kept id function hget)
  added id function hget := by
    rcases hsecond.added id function hget with hbetween | ⟨declaration, hmem, hid, hcode⟩
    · rcases hfirst.added id function hbetween with hbefore | ⟨declaration, hmem, hid, hcode⟩
      · exact Or.inl hbefore
      · exact Or.inr ⟨declaration, List.mem_append_left _ hmem, hid, hcode⟩
    · exact Or.inr ⟨declaration, List.mem_append_right _ hmem, hid, hcode⟩

theorem DeclaresPart.mono (hpart : before.DeclaresPart first after)
    (hsubset : ∀ declaration ∈ first, declaration ∈ second) : before.DeclaresPart second after where
  nextId := hpart.nextId
  kept := hpart.kept
  added id function hget := by
    rcases hpart.added id function hget with hbefore | ⟨declaration, hmem, hid, hcode⟩
    · exact Or.inl hbefore
    · exact Or.inr ⟨declaration, hsubset declaration hmem, hid, hcode⟩

/-- The context with a function that has no code yet. -/
abbrev enter (context : Context) (id : SymbolId) (params : List SymbolId) : Context :=
  { context with functions := context.functions.insert id ⟨params, .empty⟩ }

theorem declareFunction_eq_ok {context entered : Context} {id : SymbolId} {params : List SymbolId}
    (hdeclare : context.declareFunction id params = .ok entered) :
    isReserved id = false ∧ context.functions.get? id = none ∧ entered = context.enter id params := by
  unfold declareFunction at hdeclare
  split at hdeclare
  · cases hdeclare
  · rename_i hreserved
    split at hdeclare
    · cases hdeclare
    · rename_i hcontains
      cases hdeclare
      refine ⟨Bool.not_eq_true _ ▸ hreserved, ?_, rfl⟩
      rw [Table.contains, Option.isSome_iff_ne_none, not_not] at hcontains
      exact hcontains

theorem isPatch_of_declareFunction {context : Context} {id : SymbolId} {params : List SymbolId}
    {error : CompileError} (hdeclare : context.declareFunction id params = .error error) :
    error.isPatch = false := by
  unfold declareFunction at hdeclare
  repeat' split at hdeclare
  all_goals
    cases hdeclare
    try rfl

theorem DeclaresPart.of_enter {context : Context} (declaration : Declaration)
    (hfresh : context.functions.get? declaration.id = none)
    (hpart : (context.enter declaration.id declaration.params).DeclaresPart declared after) :
    context.DeclaresPart (declaration :: declared) after where
  nextId := hpart.nextId
  kept id function hget := by
    refine hpart.kept id function ?_
    have hne : id ≠ declaration.id := by
      rintro rfl
      rw [hfresh] at hget
      cases hget
    rw [enter, Table.get?_insert, if_neg hne, hget]
  added id function hget := by
    rcases hpart.added id function hget with hentered | ⟨other, hmem, hother⟩
    · rw [enter, Table.get?_insert] at hentered
      split at hentered
      · rename_i hid
        cases hentered
        exact Or.inr ⟨declaration, List.mem_cons_self, hid.symm, rfl, Or.inl rfl⟩
      · exact Or.inl hentered
    · exact Or.inr ⟨other, List.mem_cons_of_mem _ hmem, hother⟩

/-- A function is entered before its body is compiled and gets its code afterwards. -/
theorem Declares.define {context : Context} (declaration : Declaration)
    (hreserved : isReserved declaration.id = false)
    (hfresh : context.functions.get? declaration.id = none)
    (hbody : (context.enter declaration.id declaration.params).Declares declared after) :
    context.Declares (declaration :: declared)
      (after.defineFunction declaration.id declaration.function.code) := by
  have hentered : after.functions.get? declaration.id = some ⟨declaration.params, .empty⟩ :=
    hbody.kept (by rw [enter, Table.get?_insert, if_pos rfl])
  have hdefine : after.defineFunction declaration.id declaration.function.code =
      { after with functions := after.functions.insert declaration.id declaration.function } := by
    rw [defineFunction, hentered]
    rfl
  have hne : ∀ other ∈ declared, other.id ≠ declaration.id := by
    intro other hmem hid
    have hnone := hbody.fresh other hmem
    rw [hid, enter, Table.get?_insert, if_pos rfl] at hnone
    cases hnone
  rw [hdefine]
  refine ⟨hbody.nextId, ?_, ?_, ?_, ?_⟩
  · intro other hmem
    rcases List.mem_cons.mp hmem with rfl | hmem
    · exact hreserved
    · exact hbody.unreserved other hmem
  · intro other hmem
    rcases List.mem_cons.mp hmem with rfl | hmem
    · exact hfresh
    · have hnone := hbody.fresh other hmem
      rwa [enter, Table.get?_insert, if_neg (hne other hmem)] at hnone
  · exact List.pairwise_cons.mpr ⟨fun other hmem => (hne other hmem).symm, hbody.distinct⟩
  · intro id
    rw [Table.get?_insert, Declaration.find?, List.find?_cons]
    by_cases hid : id = declaration.id
    · simp [hid]
    · rw [if_neg hid, decide_eq_false (Ne.symm hid), hbody.functions id, enter, Table.get?_insert, if_neg hid]
      rfl

end Context
end StackCode
