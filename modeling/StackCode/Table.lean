/-! Finite tables keyed by symbol identifiers. The entries stand in ascending order of their keys, so
two tables with the same content are equal. -/

namespace StackCode

/-- The name of a variable or a function. -/
abbrev SymbolId := UInt64

/-- Strictly ascending keys. -/
def Ascending {α : Type} (entries : List (SymbolId × α)) : Prop :=
  entries.Pairwise fun left right => left.1 < right.1

structure Table (α : Type) where
  entries : List (SymbolId × α)
  ascending : Ascending entries

namespace Table

variable {α : Type}

/-- The value bound to a key in a list of entries. -/
def lookup (key : SymbolId) : List (SymbolId × α) → Option α
  | [] => none
  | entry :: rest => if key = entry.1 then some entry.2 else lookup key rest

/-- Binds a key in a list of ascending entries, before the first greater key. -/
def insertEntry (key : SymbolId) (value : α) : List (SymbolId × α) → List (SymbolId × α)
  | [] => [(key, value)]
  | entry :: rest =>
    if key < entry.1 then (key, value) :: entry :: rest
    else if entry.1 < key then entry :: insertEntry key value rest
    else (key, value) :: rest

theorem mem_insertEntry {key : SymbolId} {value : α} {entries : List (SymbolId × α)}
    {entry : SymbolId × α} (hmem : entry ∈ insertEntry key value entries) :
    entry = (key, value) ∨ entry ∈ entries := by
  induction entries with
  | nil => simpa [insertEntry] using hmem
  | cons head rest ih =>
    unfold insertEntry at hmem
    split at hmem
    · simpa using hmem
    · split at hmem
      · rcases List.mem_cons.mp hmem with h | h
        · exact Or.inr (by simp [h])
        · exact (ih h).imp id (List.mem_cons_of_mem _)
      · rcases List.mem_cons.mp hmem with h | h
        · exact Or.inl h
        · exact Or.inr (List.mem_cons_of_mem _ h)

theorem ascending_insertEntry (key : SymbolId) (value : α) {entries : List (SymbolId × α)}
    (hentries : Ascending entries) : Ascending (insertEntry key value entries) := by
  induction entries with
  | nil => simp [insertEntry, Ascending]
  | cons head rest ih =>
    have hhead : ∀ entry ∈ rest, head.1 < entry.1 := (List.pairwise_cons.mp hentries).1
    have hrest : Ascending rest := (List.pairwise_cons.mp hentries).2
    unfold insertEntry
    split
    · rename_i hlt
      refine List.pairwise_cons.mpr ⟨?_, hentries⟩
      intro entry hentry
      rcases List.mem_cons.mp hentry with h | h
      · simpa [h] using hlt
      · exact UInt64.lt_trans hlt (hhead entry h)
    · split
      · rename_i hgt
        refine List.pairwise_cons.mpr ⟨?_, ih hrest⟩
        intro entry hentry
        rcases mem_insertEntry hentry with h | h
        · simpa [h] using hgt
        · exact hhead entry h
      · rename_i hnlt hngt
        have hkey : key = head.1 := UInt64.le_antisymm (UInt64.not_lt.mp hngt) (UInt64.not_lt.mp hnlt)
        refine List.pairwise_cons.mpr ⟨?_, hrest⟩
        intro entry hentry
        simpa [hkey] using hhead entry hentry

def empty : Table α := ⟨[], List.Pairwise.nil⟩

instance : Inhabited (Table α) := ⟨empty⟩

def size (table : Table α) : Nat := table.entries.length

def isEmpty (table : Table α) : Bool := table.entries.isEmpty

def keys (table : Table α) : List SymbolId := table.entries.map (·.1)

def get? (table : Table α) (key : SymbolId) : Option α := lookup key table.entries

def contains (table : Table α) (key : SymbolId) : Bool := (table.get? key).isSome

/-- Binds a key, replacing what it was bound to. -/
def insert (table : Table α) (key : SymbolId) (value : α) : Table α :=
  ⟨insertEntry key value table.entries, ascending_insertEntry key value table.ascending⟩

/-- Binds a key that has no value yet, and leaves a bound key as it is. -/
def insertIfNew (table : Table α) (key : SymbolId) (value : α) : Table α :=
  if table.contains key then table else table.insert key value

/-- The bindings in the order given; a later one replaces an earlier one of the same key. -/
def ofList (entries : List (SymbolId × α)) : Table α :=
  entries.foldl (fun table entry => table.insert entry.1 entry.2) empty

instance [DecidableEq α] : DecidableEq (Table α) := fun left right =>
  decidable_of_iff (left.entries = right.entries)
    ⟨fun h => by cases left; cases right; simp_all, fun h => by rw [h]⟩

theorem lookup_insertEntry (key other : SymbolId) (value : α) (entries : List (SymbolId × α)) :
    lookup other (insertEntry key value entries) =
      if other = key then some value else lookup other entries := by
  induction entries with
  | nil => simp [insertEntry, lookup]
  | cons head rest ih =>
    unfold insertEntry
    split
    · simp [lookup]
    · split
      · rename_i hgt
        by_cases h : other = head.1
        · have hne : ¬ head.1 = key := fun heq => UInt64.lt_irrefl key (heq ▸ hgt)
          simp [lookup, h, hne]
        · simp [lookup, h, ih]
      · rename_i hnlt hngt
        have hkey : head.1 = key := UInt64.le_antisymm (UInt64.not_lt.mp hnlt) (UInt64.not_lt.mp hngt)
        by_cases h : other = key <;> simp [lookup, h, hkey]

@[simp] theorem get?_insert (table : Table α) (key other : SymbolId) (value : α) :
    (table.insert key value).get? other = if other = key then some value else table.get? other :=
  lookup_insertEntry key other value table.entries

theorem mem_of_lookup {key : SymbolId} {value : α} {entries : List (SymbolId × α)}
    (hlookup : lookup key entries = some value) : (key, value) ∈ entries := by
  induction entries with
  | nil => cases hlookup
  | cons head rest ih =>
    rw [lookup] at hlookup
    split at hlookup
    · rename_i hkey
      cases hlookup
      rw [hkey]
      exact List.mem_cons_self
    · exact List.mem_cons_of_mem _ (ih hlookup)

theorem mem_of_get? {table : Table α} {key : SymbolId} {value : α} (hget : table.get? key = some value) :
    (key, value) ∈ table.entries :=
  mem_of_lookup hget

@[simp] theorem get?_empty (key : SymbolId) : (empty : Table α).get? key = none := rfl

end Table
end StackCode
