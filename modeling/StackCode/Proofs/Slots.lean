import StackCode.Proofs.Transitions

/-! Where variables live. An identifier can be bound among the globals and among the variables of a call. Loading
and overwriting look at the call first, binding looks at the globals first; each of them comes to one slot. -/

namespace StackCode

/-- The two places of a variable. -/
inductive Slot where
  /-- Among the globals. -/
  | shared
  /-- Among the variables of the call. -/
  | own
deriving DecidableEq

namespace Scopes

def content (scopes : Scopes) : Slot → SymbolId → Option Value
  | .shared, id => scopes.globals.get? id
  | .own, id => scopes.locals.bind (·.get? id)

def put (scopes : Scopes) (slot : Slot) (id : SymbolId) (value : Value) : Scopes :=
  match slot with
  | .shared => { scopes with globals := scopes.globals.insert id value }
  | .own => { scopes with locals := scopes.locals.map (·.insert id value) }

def holds (scopes : Scopes) (slot : Slot) (id : SymbolId) : Bool := (scopes.content slot id).isSome

/-- The slot that loading and overwriting come to. -/
def found? (scopes : Scopes) (id : SymbolId) : Option Slot :=
  if scopes.holds .own id then some .own
  else if scopes.holds .shared id then some .shared
  else none

/-- The slot that binding comes to. -/
def target (scopes : Scopes) (id : SymbolId) : Slot :=
  if scopes.holds .shared id then .shared
  else if scopes.locals.isSome then .own
  else .shared

variable {scopes after : Scopes}

theorem holds_shared (scopes : Scopes) (id : SymbolId) : scopes.holds .shared id = scopes.globals.contains id := rfl

theorem holds_own_of_some {locals : Scope} (hlocals : scopes.locals = some locals) (id : SymbolId) :
    scopes.holds .own id = locals.contains id := by
  rw [holds, content, hlocals]
  rfl

theorem holds_own_of_none (hlocals : scopes.locals = none) (id : SymbolId) : scopes.holds .own id = false := by
  rw [holds, content, hlocals]
  rfl

theorem isSome_locals_of_holds {id : SymbolId} (hown : scopes.holds .own id = true) :
    scopes.locals.isSome = true := by
  cases hlocals : scopes.locals with
  | none =>
      rw [holds_own_of_none hlocals] at hown
      cases hown
  | some locals => rfl

theorem load_eq_content (scopes : Scopes) (id : SymbolId) :
    scopes.load id = (scopes.found? id).bind fun slot => scopes.content slot id := by
  unfold load found? holds
  cases hown : scopes.content .own id with
  | some value =>
      rw [content] at hown
      simp [hown, content]
  | none =>
      rw [content] at hown
      cases hshared : scopes.content .shared id with
      | some value =>
          rw [content] at hshared
          simp [hown, hshared, content]
      | none =>
          rw [content] at hshared
          simp [hown, hshared]

theorem store_eq_put (scopes : Scopes) (id : SymbolId) (value : Value) :
    scopes.store id value = scopes.put (scopes.target id) id value := by
  obtain ⟨globals, locals⟩ := scopes
  unfold store target
  rw [holds_shared]
  split
  · rfl
  · cases locals <;> rfl

theorem replace_eq_put (scopes : Scopes) (id : SymbolId) (value : Value) :
    scopes.replace id value =
      match scopes.found? id with
      | some slot => scopes.put slot id value
      | none => scopes := by
  obtain ⟨globals, locals⟩ := scopes
  unfold replace found?
  rw [holds_shared]
  cases locals with
  | none =>
      rw [holds_own_of_none rfl]
      simp only [Bool.false_eq_true, if_false]
      split <;> rfl
  | some locals =>
      rw [holds_own_of_some rfl]
      simp only
      split
      · rfl
      · split <;> rfl

theorem holds_of_found? {id : SymbolId} {slot : Slot} (hfound : scopes.found? id = some slot) :
    scopes.holds slot id = true := by
  unfold found? at hfound
  split at hfound
  · cases hfound
    assumption
  · split at hfound
    · cases hfound
      assumption
    · cases hfound

/-- A binding that leaves the globals alone is one of a call, and of a name that no global has. -/
theorem target_eq_own_iff {id : SymbolId} :
    scopes.target id = .own ↔ scopes.holds .shared id = false ∧ scopes.locals.isSome = true := by
  unfold target
  cases scopes.holds .shared id <;> cases scopes.locals.isSome <;> simp

theorem found?_of_shared_only {id : SymbolId} (hown : scopes.holds .own id = false)
    (hshared : scopes.holds .shared id = true) : scopes.found? id = some .shared := by
  rw [found?, hown, hshared]
  rfl

theorem found?_of_own {id : SymbolId} (hown : scopes.holds .own id = true) : scopes.found? id = some .own :=
  if_pos hown

theorem content_put {slot : Slot} (hslot : slot = .own → scopes.locals.isSome = true) (id : SymbolId)
    (value : Value) (other : Slot) (key : SymbolId) :
    (scopes.put slot id value).content other key =
      if other = slot ∧ key = id then some value else scopes.content other key := by
  cases slot with
  | shared => cases other <;> simp [put, content]
  | own =>
      obtain ⟨locals, hlocals⟩ := Option.isSome_iff_exists.mp (hslot rfl)
      cases other <;> simp [put, content, hlocals]

theorem holds_put {slot : Slot} (hslot : slot = .own → scopes.locals.isSome = true) (id : SymbolId)
    (value : Value) (other : Slot) (key : SymbolId) :
    (scopes.put slot id value).holds other key = (decide (other = slot ∧ key = id) || scopes.holds other key) := by
  rw [holds, content_put hslot]
  by_cases hplace : other = slot ∧ key = id
  · simp [hplace]
  · simp [hplace, holds]

/-- What was bound is in the slot that binding came to. -/
theorem holds_target_store (scopes : Scopes) (id : SymbolId) (value : Value) :
    (scopes.store id value).holds (scopes.target id) id = true := by
  rw [store_eq_put, holds_put fun hown => (target_eq_own_iff.mp hown).2]
  simp

namespace Changes

/-- A change that is one is a value put where its name is found or would be bound. -/
theorem eq_put (hchanges : scopes.Changes after) :
    after = scopes ∨ ∃ slot id value, after = scopes.put slot id value ∧
      (slot = .own → scopes.locals.isSome = true) ∧
      (scopes.holds slot id = true ∨ scopes.target id = slot) := by
  cases hchanges with
  | kept => exact Or.inl rfl
  | stored id value =>
      refine Or.inr ⟨scopes.target id, id, value, store_eq_put scopes id value, ?_, Or.inr rfl⟩
      intro hown
      exact (target_eq_own_iff.mp hown).2
  | replaced id value =>
      rw [replace_eq_put]
      split
      · rename_i slot hfound
        have hholds := holds_of_found? hfound
        refine Or.inr ⟨slot, id, value, rfl, ?_, Or.inl hholds⟩
        rintro rfl
        exact isSome_locals_of_holds hholds
      · exact Or.inl rfl

/-- No variable goes away. -/
theorem holds_mono (hchanges : scopes.Changes after) {slot : Slot} {key : SymbolId}
    (hholds : scopes.holds slot key = true) : after.holds slot key = true := by
  rcases hchanges.eq_put with rfl | ⟨place, id, value, rfl, hplace, -⟩
  · exact hholds
  · rw [holds_put hplace, hholds, Bool.or_true]

/-- Within a call the global variables stay the same ones. -/
theorem holds_shared_eq (hchanges : scopes.Changes after) (hlocals : scopes.locals.isSome = true)
    (key : SymbolId) : after.holds .shared key = scopes.holds .shared key :=
  hchanges.contains_globals hlocals key

/-- A variable of a call that is also a global one was both before. -/
theorem holds_own_of_shared (hchanges : scopes.Changes after) (hlocals : scopes.locals.isSome = true)
    {key : SymbolId} (hown : after.holds .own key = true) (hshared : scopes.holds .shared key = true) :
    scopes.holds .own key = true := by
  rcases hchanges.eq_put with rfl | ⟨slot, id, value, rfl, hslot, hfound⟩
  · exact hown
  rw [holds_put hslot, Bool.or_eq_true, decide_eq_true_iff] at hown
  rcases hown with ⟨rfl, rfl⟩ | hown
  · rcases hfound with hholds | htarget
    · exact hholds
    · rw [(target_eq_own_iff.mp htarget).1] at hshared
      cases hshared
  · exact hown

end Changes
end Scopes
end StackCode
