import StackCode.Proofs.Dispatcher
import StackCode.Proofs.Instructions

/-! Reading and writing elements obey the laws of a lens. What is written under a path is read back there, paths that
part from it read as before, and no array or text on the way changes its length. A write fails where a read fails, and
beside that only where a character would be overwritten by what is no code of one. -/

namespace StackCode
namespace Value

/-- The path ends at a character of a text. -/
def EndsInText (base : Value) (path : List Value) : Prop :=
  ∃ front index text, path = front ++ [index] ∧ base.read front = .ok (.str text)

/-- At some place the paths have subscripts that name different positions. -/
def Apart (path other : List Value) : Prop :=
  ∃ (place : Nat) (left right : Value),
    path[place]? = some left ∧ other[place]? = some right ∧ left.clamped? ≠ right.clamped?

/-- Two subscripts stand for the same integer, be they signed or not. -/
def SameIndex (left right : Value) : Prop :=
  ∃ i, left.integer? = some i ∧ right.integer? = some i

/-- The value is an integer, and this is the code of a character. -/
def IsCharCode (value : Value) : Prop := ∃ c : Char, value.integer? = some (c.toNat : Int)

/-- What a write under a path has done to the base. -/
structure Written (base : Value) (path : List Value) (value updated : Value) : Prop where
  /-- The value is read back. -/
  same : ¬ base.EndsInText path → updated.read path = .ok value
  /-- In a text the code of the character is read back, as a signed integer. -/
  code : base.EndsInText path →
    ∃ c : Char, value.integer? = some (c.toNat : Int) ∧ updated.read path = .ok (.ofChar c)
  /-- Other paths lead to what they led to before, or fail as they did. -/
  elsewhere : ∀ other, Apart path other → updated.read other = base.read other
  /-- All containers on the way have the kind and the length that they had. -/
  lengths : ∀ front index back, path = front ++ index :: back →
    ∃ container after length, base.read front = .ok container ∧ updated.read front = .ok after ∧
      container.length? = some length ∧ after.length? = some length ∧ after.kind = container.kind

section Subscripts

variable {index other value : Value} {length : Nat}

theorem clamped?_of_integer? {i : Int} (hinteger : value.integer? = some i) :
    ∃ n, value.clamped? = some n ∧ n.toInt = min i (2 ^ 63 - 1) := by
  cases value with
  | int n =>
      cases hinteger
      have hlt := n.toInt_lt
      exact ⟨n, rfl, by omega⟩
  | uint n =>
      cases hinteger
      simp only [clamped?]
      by_cases hsmall : n < 0x8000000000000000
      · have hlt : n.toNat < 2 ^ 63 := UInt64.lt_iff_toNat_lt.mp hsmall
        refine ⟨n.toInt64, by rw [if_pos hsmall], ?_⟩
        rw [toInt_eq_bmod_toUInt64, UInt64.toUInt64_toInt64, Int.bmod_eq_of_le (by omega) (by simp; omega)]
        omega
      · have hle : 2 ^ 63 ≤ n.toNat := Nat.le_of_not_lt fun hlt => hsmall (UInt64.lt_iff_toNat_lt.mpr hlt)
        refine ⟨Int64.maxValue, by rw [if_neg hsmall], ?_⟩
        rw [Int64.toInt_maxValue]
        omega
  | float | str | array => cases hinteger

theorem exists_integer? {n : Int64} (hclamped : value.clamped? = some n) :
    ∃ i, value.integer? = some i ∧ n.toInt = min i (2 ^ 63 - 1) := by
  have hsome : ∃ i, value.integer? = some i := by
    cases value with
    | int | uint => exact ⟨_, rfl⟩
    | float | str | array => cases hclamped
  obtain ⟨i, hinteger⟩ := hsome
  obtain ⟨m, hm, hmin⟩ := clamped?_of_integer? hinteger
  rw [hclamped] at hm
  cases hm
  exact ⟨i, hinteger, hmin⟩

theorem position_eq_ok_iff {found : Fin length} :
    index.position length = .ok found ↔ ∃ n, index.clamped? = some n ∧ n.toInt = (found : Nat) := by
  unfold position
  cases index.clamped? with
  | none => simp
  | some n =>
      by_cases hbounds : 0 ≤ n.toInt ∧ n.toInt.toNat < length
      · simp only [dif_pos hbounds, Except.ok.injEq, Fin.ext_iff, Option.some.injEq, exists_eq_left']
        omega
      · simp only [dif_neg hbounds, reduceCtorEq, false_iff, Option.some.injEq, exists_eq_left']
        intro hfound
        have hlt := found.isLt
        omega

theorem position_congr {n : Int64} (hindex : index.clamped? = some n) (hother : other.clamped? = some n) :
    index.position length = other.position length := by
  unfold position
  rw [hindex, hother]

theorem position_ne {found position : Fin length} (hindex : index.position length = .ok found)
    (hother : other.position length = .ok position) (hne : other.clamped? ≠ index.clamped?) :
    (found : Nat) ≠ position := by
  intro heq
  obtain ⟨n, hn, hfound⟩ := position_eq_ok_iff.mp hindex
  obtain ⟨m, hm, hposition⟩ := position_eq_ok_iff.mp hother
  apply hne
  rw [hn, hm, Int64.toInt_inj.mp (show m.toInt = n.toInt by omega)]

/-- Signed and unsigned subscripts of the same value resolve alike. -/
theorem SameIndex.position_eq (hsame : SameIndex index other) (length : Nat) :
    index.position length = other.position length := by
  obtain ⟨i, hindex, hother⟩ := hsame
  obtain ⟨n, hn, hmin⟩ := clamped?_of_integer? hindex
  obtain ⟨m, hm, hsame⟩ := clamped?_of_integer? hother
  obtain rfl : m = n := Int64.toInt_inj.mp (hsame.trans hmin.symm)
  exact position_congr hn hm

theorem toChar_eq_ok_iff {c : Char} : value.toChar = .ok c ↔ value.integer? = some (c.toNat : Int) := by
  constructor
  · intro hchar
    unfold toChar at hchar
    split at hchar
    · cases hchar
    · rename_i n hclamped
      obtain ⟨i, hinteger, hmin⟩ := exists_integer? hclamped
      split at hchar
      · rename_i hvalid
        cases hchar
        have hbound : n.toInt.toNat < 0x110000 := by
          rcases hvalid.2 with hlow | hhigh
          · omega
          · exact hhigh.2
        rw [hinteger, Char.toNat_ofNat, if_pos hvalid.2]
        congr 1
        omega
      · cases hchar
  · intro hinteger
    obtain ⟨n, hclamped, hmin⟩ := clamped?_of_integer? hinteger
    have hlt : c.toNat < 2 ^ 32 := c.val.toNat_lt
    have hcode : n.toInt = c.toNat := by omega
    have hvalid : 0 ≤ n.toInt ∧ n.toInt.toNat.isValidChar := by
      rw [hcode]
      exact ⟨Int.natCast_nonneg _, c.valid⟩
    unfold toChar
    rw [hclamped]
    simp only
    rw [if_pos hvalid, hcode, Int.toNat_natCast, Char.ofNat_toNat]

end Subscripts
section Walks

variable {items path rest : List Value} {base value updated index : Value} {text : String}

theorem read_nil (base : Value) : base.read [] = .ok base := by
  rw [read]

theorem read_array {length : Nat} (hlength : items.length = length) :
    (array items).read (index :: rest) =
      match index.position length with
      | .ok found => (items.get (found.cast hlength.symm)).read rest
      | .error fault => .error fault := by
  subst hlength
  rw [read]
  cases index.position items.length <;> rfl

theorem write_array : (array items).write (index :: rest) value =
    match index.position items.length with
    | .error fault => .error fault
    | .ok found =>
      match (items.get found).write rest value with
      | .ok item => .ok (.array (items.set found item))
      | .error fault => .error fault := by
  rw [write]
  rfl

theorem read_str {length : Nat} (hlength : text.toList.length = length) :
    (str text).read [index] =
      match index.position length with
      | .ok found => .ok (ofChar (text.toList.get (found.cast hlength.symm)))
      | .error fault => .error fault := by
  subst hlength
  rw [read]
  cases index.position text.toList.length <;> rfl

/-- A path leads to a value: it ends at the base, leads on from an item of an array, or ends at a character. -/
inductive Leads : (base : Value) → (path : List Value) → (value : Value) → Prop where
  | whole (base : Value) : Leads base [] base
  | item {items rest : List Value} {index value : Value} {found : Fin items.length}
      (hfound : index.position items.length = .ok found) (hitem : Leads (items.get found) rest value) :
      Leads (.array items) (index :: rest) value
  | character {text : String} {index : Value} {found : Fin text.toList.length}
      (hfound : index.position text.toList.length = .ok found) :
      Leads (.str text) [index] (ofChar (text.toList.get found))

/-- A write along a path makes one value of another. -/
inductive Updates : (base : Value) → (path : List Value) → (value updated : Value) → Prop where
  | whole (base value : Value) : Updates base [] value value
  | item {items rest : List Value} {index value item : Value} {found : Fin items.length}
      (hfound : index.position items.length = .ok found) (hitem : Updates (items.get found) rest value item) :
      Updates (.array items) (index :: rest) value (.array (items.set found item))
  | character {text : String} {index value : Value} {found : Fin text.toList.length} {c : Char}
      (hfound : index.position text.toList.length = .ok found) (hchar : value.toChar = .ok c) :
      Updates (.str text) [index] value (.str (String.ofList (text.toList.set found c)))

theorem leads_of_read (hread : base.read path = .ok value) : Leads base path value := by
  induction path generalizing base with
  | nil =>
      rw [read_nil] at hread
      cases hread
      exact .whole value
  | cons index rest ih =>
      cases base with
      | array items =>
          rw [read_array rfl] at hread
          cases hfound : index.position items.length with
          | error fault =>
              rw [hfound] at hread
              cases hread
          | ok found =>
              rw [hfound] at hread
              exact .item hfound (ih hread)
      | str text =>
          cases rest with
          | nil =>
              rw [read_str rfl] at hread
              cases hfound : index.position text.toList.length with
              | error fault =>
                  rw [hfound] at hread
                  cases hread
              | ok found =>
                  rw [hfound] at hread
                  cases hread
                  exact .character hfound
          | cons next rest => simp [read] at hread
      | int | uint | float => simp [read] at hread

theorem updates_of_write (hwrite : base.write path value = .ok updated) : Updates base path value updated := by
  induction path generalizing base updated with
  | nil =>
      rw [write] at hwrite
      cases hwrite
      exact .whole base _
  | cons index rest ih =>
      cases base with
      | array items =>
          rw [write_array] at hwrite
          cases hfound : index.position items.length with
          | error fault =>
              rw [hfound] at hwrite
              cases hwrite
          | ok found =>
              simp only [hfound] at hwrite
              cases hitem : (items.get found).write rest value with
              | error fault =>
                  rw [hitem] at hwrite
                  cases hwrite
              | ok item =>
                  rw [hitem] at hwrite
                  cases hwrite
                  exact .item hfound (ih hitem)
      | str text =>
          cases rest with
          | nil =>
              rw [write] at hwrite
              cases hfound : index.position text.toList.length with
              | error fault =>
                  rw [hfound] at hwrite
                  cases hwrite
              | ok found =>
                  simp only [hfound] at hwrite
                  cases hchar : value.toChar with
                  | error fault =>
                      rw [hchar] at hwrite
                      cases hwrite
                  | ok c =>
                      rw [hchar] at hwrite
                      cases hwrite
                      exact .character hfound hchar
          | cons next rest => simp [write] at hwrite
      | int | uint | float => simp [write] at hwrite

theorem Updates.write_eq (hupdates : Updates base path value updated) : base.write path value = .ok updated := by
  induction hupdates with
  | whole base value => rw [write]
  | item hfound hitem ih =>
      rw [write_array, hfound]
      simp only
      rw [ih]
  | character hfound hchar =>
      rw [write, hfound]
      simp only
      rw [hchar]

theorem read_of_found {found : Fin items.length} (hfound : index.position items.length = .ok found) :
    (array items).read (index :: rest) = (items.get found).read rest := by
  rw [read_array rfl, hfound]
  rfl

/-- Behind the subscript of an item that was set, the new item is read. -/
theorem read_set_same {found : Fin items.length} {item : Value}
    (hfound : index.position items.length = .ok found) :
    (array (items.set found item)).read (index :: rest) = item.read rest := by
  rw [read_array List.length_set, hfound]
  simp

theorem read_set_other {found : Fin items.length} {item other : Value} (hfound : index.position items.length = .ok found)
    (hother : other.clamped? ≠ index.clamped?) :
    (array (items.set found item)).read (other :: rest) = (array items).read (other :: rest) := by
  rw [read_array List.length_set, read_array rfl]
  cases hposition : other.position items.length with
  | error fault => rfl
  | ok position =>
      simp [List.getElem_set_ne (position_ne hfound hposition hother)]

theorem length_set_character (found : Nat) (c : Char) :
    (String.ofList (text.toList.set found c)).toList.length = text.toList.length := by
  rw [String.toList_ofList, List.length_set]

theorem read_character_same {found : Fin text.toList.length} {c : Char}
    (hfound : index.position text.toList.length = .ok found) :
    (str (String.ofList (text.toList.set found c))).read [index] = .ok (ofChar c) := by
  rw [read_str (length_set_character found c), hfound]
  simp

theorem read_character_other {found : Fin text.toList.length} {c : Char} {other : Value}
    (hfound : index.position text.toList.length = .ok found) (hother : other.clamped? ≠ index.clamped?) :
    (str (String.ofList (text.toList.set found c))).read [other] = (str text).read [other] := by
  rw [read_str (length_set_character found c), read_str rfl]
  cases hposition : other.position text.toList.length with
  | error fault => rfl
  | ok position =>
      simp [List.getElem_set_ne (position_ne hfound hposition hother)]

theorem not_endsInText_nil (base : Value) : ¬ base.EndsInText [] := by
  rintro ⟨front, index, text, hpath, -⟩
  simp at hpath

theorem endsInText_singleton (text : String) (index : Value) : (str text).EndsInText [index] :=
  ⟨[], index, text, rfl, read_nil _⟩

theorem endsInText_item {found : Fin items.length} (hfound : index.position items.length = .ok found) :
    (array items).EndsInText (index :: rest) ↔ (items.get found).EndsInText rest := by
  constructor
  · rintro ⟨front, last, text, hpath, hread⟩
    cases front with
    | nil =>
        rw [read_nil] at hread
        cases hread
    | cons first front =>
        rw [List.cons_append, List.cons.injEq] at hpath
        obtain ⟨rfl, rfl⟩ := hpath
        rw [read_of_found hfound] at hread
        exact ⟨front, last, text, rfl, hread⟩
  · rintro ⟨front, last, text, rfl, hread⟩
    refine ⟨index :: front, last, text, rfl, ?_⟩
    rw [read_of_found hfound, hread]

theorem apart_cons {left right : Value} {lefts rights : List Value} :
    Apart (left :: lefts) (right :: rights) ↔ left.clamped? ≠ right.clamped? ∨ Apart lefts rights := by
  constructor
  · rintro ⟨place, first, second, hfirst, hsecond, hne⟩
    cases place with
    | zero =>
        cases hfirst
        cases hsecond
        exact Or.inl hne
    | succ place => exact Or.inr ⟨place, first, second, hfirst, hsecond, hne⟩
  · rintro (hne | ⟨place, first, second, hfirst, hsecond, hne⟩)
    · exact ⟨0, left, right, rfl, rfl, hne⟩
    · exact ⟨place + 1, first, second, hfirst, hsecond, hne⟩

end Walks

namespace Updates

variable {base value updated : Value} {path : List Value}

theorem same (hupdates : Updates base path value updated) (htext : ¬ base.EndsInText path) :
    updated.read path = .ok value := by
  induction hupdates with
  | whole base value => exact read_nil value
  | item hfound hitem ih =>
      rw [read_set_same hfound]
      exact ih fun hinner => htext ((endsInText_item hfound).mpr hinner)
  | character hfound hchar => exact absurd (endsInText_singleton _ _) htext

theorem code (hupdates : Updates base path value updated) (htext : base.EndsInText path) :
    ∃ c : Char, value.integer? = some (c.toNat : Int) ∧ updated.read path = .ok (.ofChar c) := by
  induction hupdates with
  | whole base value => exact absurd htext base.not_endsInText_nil
  | item hfound hitem ih =>
      rw [read_set_same hfound]
      exact ih ((endsInText_item hfound).mp htext)
  | character hfound hchar => exact ⟨_, toChar_eq_ok_iff.mp hchar, read_character_same hfound⟩

theorem elsewhere (hupdates : Updates base path value updated) {other : List Value} (hapart : Apart path other) :
    updated.read other = base.read other := by
  induction hupdates generalizing other with
  | whole base value =>
      obtain ⟨place, left, right, hleft, -⟩ := hapart
      simp at hleft
  | @item items rest index value item found hfound hitem ih =>
      cases other with
      | nil =>
          obtain ⟨place, left, right, -, hright, -⟩ := hapart
          simp at hright
      | cons first others =>
          by_cases hfirst : first.clamped? = index.clamped?
          · obtain ⟨n, hn, -⟩ := position_eq_ok_iff.mp hfound
            have hsame : first.position items.length = .ok found := by
              rw [← hfound]
              exact position_congr (hfirst.trans hn) hn
            rw [read_set_same hsame, read_of_found hsame]
            exact ih ((apart_cons.mp hapart).resolve_left fun hne => hne hfirst.symm)
          · exact read_set_other hfound hfirst
  | @character text index value found c hfound hchar =>
      cases other with
      | nil =>
          obtain ⟨place, left, right, -, hright, -⟩ := hapart
          simp at hright
      | cons first others =>
          cases others with
          | nil =>
              rcases apart_cons.mp hapart with hne | ⟨place, left, right, hleft, -⟩
              · exact read_character_other hfound hne.symm
              · simp at hleft
          | cons second others =>
              -- no path leads on from a text
              rw [read, read] <;> simp [Fault.mismatch, kind]

theorem lengths (hupdates : Updates base path value updated) {front back : List Value} {index : Value}
    (hpath : path = front ++ index :: back) :
    ∃ container after length, base.read front = .ok container ∧ updated.read front = .ok after ∧
      container.length? = some length ∧ after.length? = some length ∧ after.kind = container.kind := by
  induction hupdates generalizing front with
  | whole base value => simp at hpath
  | item hfound hitem ih =>
      cases front with
      | nil =>
          refine ⟨_, _, _, read_nil _, read_nil _, rfl, ?_, rfl⟩
          simp [length?]
      | cons first front =>
          rw [List.cons_append, List.cons.injEq] at hpath
          obtain ⟨rfl, rfl⟩ := hpath
          rw [read_of_found hfound, read_set_same hfound]
          exact ih rfl
  | character hfound hchar =>
      cases front with
      | nil =>
          refine ⟨_, _, _, read_nil _, read_nil _, rfl, ?_, rfl⟩
          simp [length?, String.length_toList]
      | cons first front => simp at hpath

theorem written (hupdates : Updates base path value updated) : Written base path value updated where
  same := hupdates.same
  code := hupdates.code
  elsewhere _ := hupdates.elsewhere
  lengths _ _ _ := hupdates.lengths

end Updates
section Laws

variable {base value : Value} {path : List Value}

theorem write_of_read (hread : base.read path = .ok value) : base.write path value = .ok base := by
  have hleads := leads_of_read hread
  clear hread
  induction hleads with
  | whole base => rw [write]
  | item hfound hitem ih =>
      rw [write_array, hfound]
      simp only
      rw [ih]
      simp
  | character hfound =>
      rw [write, hfound]
      simp only
      rw [toChar_ofChar]
      simp

theorem Updates.exists_read {updated : Value} (hupdates : Updates base path value updated) :
    ∃ found, base.read path = .ok found := by
  induction hupdates with
  | whole base value => exact ⟨base, base.read_nil⟩
  | item hfound hitem ih =>
      rw [read_of_found hfound]
      exact ih
  | character hfound hchar =>
      rw [read_str rfl, hfound]
      exact ⟨_, rfl⟩

theorem Leads.exists_updates {found : Value} (hleads : Leads base path found)
    (hcode : base.EndsInText path → value.IsCharCode) : ∃ updated, Updates base path value updated := by
  induction hleads with
  | whole base => exact ⟨value, .whole base value⟩
  | item hfound hitem ih =>
      obtain ⟨item, hupdates⟩ := ih fun htext => hcode ((endsInText_item hfound).mpr htext)
      exact ⟨_, .item hfound hupdates⟩
  | character hfound =>
      obtain ⟨c, hinteger⟩ := hcode (endsInText_singleton _ _)
      exact ⟨_, .character hfound (toChar_eq_ok_iff.mpr hinteger)⟩

/-- A write succeeds if a read does, unless it would put into a text what is no character. -/
theorem exists_write_iff : (∃ updated, base.write path value = .ok updated) ↔
    (∃ found, base.read path = .ok found) ∧ (base.EndsInText path → value.IsCharCode) := by
  constructor
  · rintro ⟨updated, hwrite⟩
    have hupdates := updates_of_write hwrite
    refine ⟨hupdates.exists_read, fun htext => ?_⟩
    obtain ⟨c, hinteger, -⟩ := hupdates.code htext
    exact ⟨c, hinteger⟩
  · rintro ⟨⟨found, hread⟩, hcode⟩
    obtain ⟨updated, hupdates⟩ := (leads_of_read hread).exists_updates hcode
    exact ⟨updated, hupdates.write_eq⟩

theorem write_fails_iff : (∃ fault, base.write path value = .error fault) ↔
    (∃ fault, base.read path = .error fault) ∨ base.EndsInText path ∧ ¬ value.IsCharCode := by
  have hiff : (∃ updated, base.write path value = .ok updated) ↔ _ := exists_write_iff
  cases hwrite : base.write path value with
  | ok updated =>
      obtain ⟨⟨found, hread⟩, hcode⟩ := hiff.mp ⟨updated, hwrite⟩
      rw [hread]
      simp only [reduceCtorEq, exists_false, false_or, false_iff, not_and, not_not]
      exact hcode
  | error fault =>
      simp only [Except.error.injEq, exists_eq', true_iff]
      cases hread : base.read path with
      | error fault => exact Or.inl ⟨fault, rfl⟩
      | ok found =>
          right
          by_contra hnot
          obtain ⟨updated, hok⟩ := hiff.mpr ⟨⟨found, hread⟩, fun htext => by_contra fun hcode => hnot ⟨htext, hcode⟩⟩
          rw [hwrite] at hok
          cases hok

/-- Signed and unsigned subscripts of the same values lead to the same place. -/
theorem access_congr {other : List Value} (hsame : List.Forall₂ SameIndex path other) :
    base.read other = base.read path ∧ base.write other value = base.write path value := by
  induction hsame generalizing base with
  | nil => exact ⟨rfl, rfl⟩
  | @cons index first rest others hindex hrest ih =>
      cases base with
      | array items =>
          have hposition := hindex.position_eq items.length
          constructor
          · rw [read_array rfl, read_array rfl, hposition]
            cases first.position items.length with
            | error fault => rfl
            | ok found => exact ih.1
          · rw [write, write, hposition]
            cases first.position items.length with
            | error fault => rfl
            | ok found => simp only [ih.2]
      | str text =>
          have hposition := hindex.position_eq text.toList.length
          cases hrest with
          | nil => constructor <;> simp only [read, write, hposition]
          | cons => constructor <;> simp only [read, write]
      | int | uint | float => constructor <;> simp only [read, write]

end Laws

/-- Element access is a lens, up to the characters of texts, which are read as their codes. A write that fails leaves
the base as it was, and subscripts are told apart by the positions that they name, not by their signedness. -/
theorem element_lens (base : Value) (path : List Value) (value : Value) :
    (∀ updated, base.write path value = .ok updated → Written base path value updated) ∧
      (base.read path = .ok value → base.write path value = .ok base) ∧
      ((∃ fault, base.write path value = .error fault) ↔
        (∃ fault, base.read path = .error fault) ∨ base.EndsInText path ∧ ¬ value.IsCharCode) ∧
      (∀ fault, base.write path value = .error fault → base.overwrite path value = (.error fault, base)) ∧
      ∀ other, List.Forall₂ SameIndex path other →
        base.read other = base.read path ∧ base.write other value = base.write path value := by
  refine ⟨fun updated hwrite => (updates_of_write hwrite).written, write_of_read, write_fails_iff, ?_,
    fun other => access_congr⟩
  intro fault hwrite
  rw [overwrite_eq_write, hwrite]

/-- An array of numbers beside a text. -/
def shelf : Value := .array [.array [.int 1, .int 2], .str "abc"]

theorem element_lens_shelf :
    ∃ updated, shelf.write [.uint 1, .int 2] (.uint 100) = .ok updated ∧
      updated.read [.uint 1, .int 2] = .ok (.int 100) ∧ updated.read [.int 1, .uint 2] = .ok (.int 100) ∧
      updated.read [.int 0, .int 1] = .ok (.int 2) ∧
      updated.read [.int 1, .int (-1)] = .error (.indexOutOfBounds (-1) 3) ∧
      (∃ fault, shelf.write [.uint 1, .int 2] (.int 0xD800) = .error fault) := by
  have hwrite : shelf.write [.uint 1, .int 2] (.uint 100) =
      .ok (.array [.array [.int 1, .int 2], .str "abd"]) := by cbv
  have htext : shelf.EndsInText [.uint 1, .int 2] := ⟨[.uint 1], .int 2, "abc", rfl, by cbv⟩
  have hcode : ¬ (Value.int 0xD800).IsCharCode := by
    rintro ⟨c, hinteger⟩
    have hcode : (0xD800 : Int) = c.toNat := Option.some.inj hinteger
    have hvalid : c.toNat < 0xD800 ∨ 0xDFFF < c.toNat ∧ c.toNat < 0x110000 := c.valid
    omega
  have hwritten := (element_lens shelf [.uint 1, .int 2] (.uint 100)).1 _ hwrite
  obtain ⟨c, hinteger, hread⟩ := hwritten.code htext
  have hc : ofChar c = .int 100 := by
    have hd : (Value.uint 100).toChar = .ok 'd' := by cbv
    rw [toChar_eq_ok_iff.mpr hinteger] at hd
    cases hd
    rfl
  rw [hc] at hread
  refine ⟨_, hwrite, hread, ?_, ?_, ?_, ?_⟩
  · rw [← hread]
    refine ((element_lens _ [.uint 1, .int 2] (.uint 100)).2.2.2.2 [.int 1, .uint 2] ?_).1
    exact .cons ⟨1, rfl, rfl⟩ (.cons ⟨2, rfl, rfl⟩ .nil)
  · rw [hwritten.elsewhere [.int 0, .int 1] ⟨0, .uint 1, .int 0, rfl, rfl, by decide⟩]
    cbv
  · rw [hwritten.elsewhere [.int 1, .int (-1)] ⟨1, .int 2, .int (-1), rfl, rfl, by decide⟩]
    cbv
  · exact (element_lens shelf [.uint 1, .int 2] (.int 0xD800)).2.2.1.mpr (Or.inr ⟨htext, hcode⟩)

end Value
end StackCode
