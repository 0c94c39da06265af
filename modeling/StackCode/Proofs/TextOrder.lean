import StackCode.Proofs.ElementLens

/-! Texts as an ordered monoid. A text is the row of the codes that subscripts read from it. Comparisons look at the
bytes of the encodings instead, and agree with the lexicographic order of these rows: the encodings of two characters
part at a byte, and the character with the smaller code has the smaller byte there. -/

namespace StackCode

/-- The rows agree up to a place where the left one has the smaller byte. -/
inductive PartsBelow : List UInt8 → List UInt8 → Prop
  | here {x y : UInt8} (hlt : x < y) (left right : List UInt8) : PartsBelow (x :: left) (y :: right)
  | later (x : UInt8) {left right : List UInt8} (hparts : PartsBelow left right) :
      PartsBelow (x :: left) (x :: right)

namespace PartsBelow

theorem append_lt {left right : List UInt8} (hparts : PartsBelow left right) (leftRest rightRest : List UInt8) :
    left ++ leftRest < right ++ rightRest := by
  induction hparts with
  | here hlt left right => exact .rel hlt
  | later x _ ih => exact .cons ih

variable {m n : Nat} {left right : List UInt8}

theorem ofNat_here (hlt : m < n) (hn : n < 256) : PartsBelow (UInt8.ofNat m :: left) (UInt8.ofNat n :: right) :=
  .here ((UInt8.ofNat_lt_iff_lt (hlt.trans hn) hn).mpr hlt) left right

theorem ofNat_cons (hle : m ≤ n) (hn : n < 256) (hrest : m = n → PartsBelow left right) :
    PartsBelow (UInt8.ofNat m :: left) (UInt8.ofNat n :: right) := by
  rcases hle.lt_or_eq with hlt | rfl
  · exact ofNat_here hlt hn
  · exact .later _ (hrest rfl)

end PartsBelow

/-- A longer encoding has the greater lead byte. Encodings of one length are rows of digits, the highest first. -/
theorem partsBelow_utf8EncodeChar {c d : Char} (hlt : c.toNat < d.toNat) :
    PartsBelow (String.utf8EncodeChar c) (String.utf8EncodeChar d) := by
  have hd : d.toNat < 0x110000 := by
    have hvalid := d.valid
    have hval : d.val.toNat = d.toNat := Char.toNat_val
    unfold UInt32.isValidChar Nat.isValidChar at hvalid
    omega
  simp only [String.utf8EncodeChar, Char.toNat_val]
  split_ifs
  -- An encoding longer than that of the greater code is out of question.
  any_goals omega
  -- One byte against one to four.
  iterate 4 exact .ofNat_here (by omega) (by omega)
  -- Two bytes against two to four.
  · exact .ofNat_cons (by omega) (by omega) fun _ => .ofNat_here (by omega) (by omega)
  iterate 2 exact .ofNat_here (by omega) (by omega)
  -- Three bytes against three and four.
  · exact .ofNat_cons (by omega) (by omega) fun _ => .ofNat_cons (by omega) (by omega) fun _ =>
      .ofNat_here (by omega) (by omega)
  · exact .ofNat_here (by omega) (by omega)
  -- Four bytes against four.
  · exact .ofNat_cons (by omega) (by omega) fun _ => .ofNat_cons (by omega) (by omega) fun _ =>
      .ofNat_cons (by omega) (by omega) fun _ => .ofNat_here (by omega) (by omega)

namespace Text

/-- The bytes of the encoding of a text. -/
def bytes (text : String) : List UInt8 := text.toUTF8.data.toList

/-- The codes of the characters of a text. -/
def codes (text : String) : List Nat := text.toList.map Char.toNat

theorem bytes_eq_flatMap (text : String) : bytes text = text.toList.flatMap String.utf8EncodeChar := by
  change text.toByteArray.data.toList = _
  rw [← String.utf8Encode_toList, List.utf8Encode, List.toList_data_toByteArray]

theorem codes_append (left right : String) : codes (left ++ right) = codes left ++ codes right := by
  rw [codes, String.toList_append, List.map_append, codes, codes]

theorem length_codes (text : String) : (codes text).length = text.length := by
  rw [codes, List.length_map, String.length_toList]

theorem codes_inj {left right : String} : codes left = codes right ↔ left = right := by
  have hinjective : Function.Injective Char.toNat := fun _ _ => Char.toNat_inj.mp
  rw [codes, codes, (List.map_injective_iff.mpr hinjective).eq_iff, String.toList_inj]

theorem flatMap_lt_of_map_lt {left right : List Char} (hlt : left.map Char.toNat < right.map Char.toNat) :
    left.flatMap String.utf8EncodeChar < right.flatMap String.utf8EncodeChar := by
  induction left generalizing right with
  | nil =>
      cases right with
      | nil => exact absurd hlt (List.lt_irrefl _)
      | cons d right =>
          obtain ⟨byte, rest, hbytes⟩ := List.exists_cons_of_ne_nil (String.utf8EncodeChar_ne_nil (c := d))
          rw [List.flatMap_cons, hbytes]
          exact .nil
  | cons c left ih =>
      cases right with
      | nil => exact absurd hlt (List.not_lt_nil _)
      | cons d right =>
          rw [List.flatMap_cons, List.flatMap_cons]
          rw [List.map_cons, List.map_cons, List.cons_lt_cons_iff] at hlt
          rcases hlt with hcode | ⟨hcode, hrest⟩
          · exact (partsBelow_utf8EncodeChar hcode).append_lt _ _
          · rw [Char.toNat_inj.mp hcode]
            exact List.append_left_lt (ih hrest)

theorem bytes_lt_of_codes_lt {left right : String} (hlt : codes left < codes right) : bytes left < bytes right := by
  rw [bytes_eq_flatMap, bytes_eq_flatMap]
  exact flatMap_lt_of_map_lt hlt

/-- The bytes of texts are ordered as the codes of their characters. -/
theorem codes_lt_iff {left right : String} : codes left < codes right ↔ bytes left < bytes right := by
  refine ⟨bytes_lt_of_codes_lt, fun hbytes => ?_⟩
  rcases lt_trichotomy (codes left) (codes right) with hlt | heq | hgt
  · exact hlt
  · rw [codes_inj.mp heq] at hbytes
    exact absurd hbytes (List.lt_irrefl _)
  · exact absurd hbytes (List.lt_asymm (bytes_lt_of_codes_lt hgt))

end Text

namespace Relation

/-- What a relation says of two rows of codes in the lexicographic order. -/
def OnCodes : Relation → List Nat → List Nat → Prop
  | .lt, left, right => left < right
  | .le, left, right => left < right ∨ left = right
  | .gt, left, right => right < left
  | .ge, left, right => right < left ∨ left = right
  | .eq, left, right => left = right
  | .ne, left, right => left ≠ right

theorem onTexts_iff (relation : Relation) (left right : String) :
    relation.onTexts left right = true ↔ relation.OnCodes (Text.codes left) (Text.codes right) := by
  have hle (left right : String) :
      left.toUTF8.data.toList ≤ right.toUTF8.data.toList ↔
        Text.codes left < Text.codes right ∨ Text.codes left = Text.codes right := by
    change ¬ Text.bytes right < Text.bytes left ↔ _
    rw [← Text.codes_lt_iff, not_lt, le_iff_lt_or_eq]
  cases relation with
  | lt => exact decide_eq_true_iff.trans Text.codes_lt_iff.symm
  | le => exact decide_eq_true_iff.trans (hle left right)
  | gt => exact decide_eq_true_iff.trans Text.codes_lt_iff.symm
  | ge =>
      rw [OnCodes, eq_comm (a := Text.codes left)]
      exact decide_eq_true_iff.trans (hle right left)
  | eq => exact decide_eq_true_iff.trans Text.codes_inj.symm
  | ne => exact decide_eq_true_iff.trans (not_congr Text.codes_inj.symm)

end Relation

namespace Operation

/-- The operation takes a left and a right operand off the stack, the right one on top, and gives a result. -/
def Gives (operation : Operation) (left right result : Value) : Prop :=
  ∀ rest, operation.apply (right :: left :: rest) = .ok (result, rest)

theorem concat_gives (left right : String) : Operation.concat.Gives (.str left) (.str right) (.str (left ++ right)) :=
  fun _ => rfl

theorem compare_gives (relation : Relation) (left right : String) :
    (Operation.compare relation .str).Gives (.str left) (.str right) (.ofBool (relation.onTexts left right)) :=
  fun _ => rfl

theorem compare_gives_one_iff (relation : Relation) (left right : String) :
    (Operation.compare relation .str).Gives (.str left) (.str right) (.int 1) ↔
      relation.OnCodes (Text.codes left) (Text.codes right) := by
  rw [← relation.onTexts_iff]
  constructor
  · intro hgives
    have hone := (compare_gives relation left right []).symm.trans (hgives [])
    cases htruth : relation.onTexts left right with
    | true => rfl
    | false => simp [htruth, Value.ofBool] at hone
  · intro htruth
    have hgives := compare_gives relation left right
    rwa [htruth] at hgives

theorem index_gives_iff_read {container index result : Value} :
    Operation.index.Gives container index result ↔ container.read [index] = .ok result := by
  have happly (rest : Stack) :
      Operation.index.apply (index :: container :: rest) = (container.read [index]).map (·, rest) := by
    change (container.read [index] >>= fun element => .ok (element, rest)) = _
    cases container.read [index] <;> rfl
  simp only [Gives, happly]
  cases container.read [index] with
  | error fault => simp [Except.map]
  | ok element => simp [Except.map]

section Subscripts

variable {text : String} {index result : Value} {i : Nat}

theorem index_gives_iff (hindex : index.integer? = some (i : Int)) (hsmall : i < 2 ^ 63) :
    Operation.index.Gives (.str text) index result ↔
      ∃ code, (Text.codes text)[i]? = some code ∧ result = .int (Int64.ofNat code) := by
  obtain ⟨n, hclamped, hmin⟩ := Value.clamped?_of_integer? hindex
  have hn : n.toInt = i := by omega
  rw [index_gives_iff_read, Value.read_str rfl]
  cases hposition : index.position text.toList.length with
  | error fault =>
      have hout : text.toList.length ≤ i := by
        by_contra hlt
        have hinside : index.position text.toList.length = .ok ⟨i, Nat.lt_of_not_le hlt⟩ :=
          Value.position_eq_ok_iff.mpr ⟨n, hclamped, hn⟩
        rw [hposition] at hinside
        cases hinside
      simp [Text.codes, List.getElem?_eq_none hout]
  | ok found =>
      obtain ⟨m, hm, hfound⟩ := Value.position_eq_ok_iff.mp hposition
      rw [hclamped] at hm
      cases hm
      obtain rfl : (found : Nat) = i := by omega
      simp [Text.codes, Value.ofChar, eq_comm]

end Subscripts

end Operation

namespace Text

/-- Subscripts of either signedness read the codes of a text, and nothing past its end. -/
def ReadAsCodes (text : String) : Prop :=
  ∀ (index result : Value) (i : Nat), index.integer? = some (i : Int) → i < 2 ^ 63 →
    (Operation.index.Gives (.str text) index result ↔
      ∃ code, (codes text)[i]? = some code ∧ result = .int (Int64.ofNat code))

/-- The comparisons of two texts are those of their codes. -/
structure ComparedAsCodes (left right : String) : Prop where
  /-- Each comparison has the result of the lexicographic order. -/
  result : ∀ relation, ∃ truth, (Operation.compare relation .str).Gives (.str left) (.str right) (.ofBool truth) ∧
    (truth = true ↔ relation.OnCodes (codes left) (codes right))
  /-- The order is that of the bytes of the encodings. -/
  bytes : codes left < codes right ↔ bytes left < bytes right
  /-- Exactly one of less, equal and greater gives one. -/
  trichotomy : ∃ holding ∈ [Relation.lt, .eq, .gt], ∀ relation ∈ [Relation.lt, .eq, .gt],
    (Operation.compare relation .str).Gives (.str left) (.str right) (.int (if relation = holding then 1 else 0))

/-- What joining two texts gives. -/
structure Joined (left right : String) : Prop where
  gives : Operation.concat.Gives (.str left) (.str right) (.str (left ++ right))
  size : ∃ m n, (Value.str left).length? = some m ∧ (Value.str right).length? = some n ∧
    (Value.str (left ++ right)).length? = some (m + n)
  length : ∃ m n, Conversion.length.apply (.str left) = .ok (.int m) ∧
    Conversion.length.apply (.str right) = .ok (.int n) ∧
    Conversion.length.apply (.str (left ++ right)) = .ok (.int (m + n))
  /-- Below the length of the left text its own characters are read. -/
  first : ∀ (index result : Value) (i : Nat), index.integer? = some (i : Int) → i < 2 ^ 63 → i < left.length →
    (Operation.index.Gives (.str (left ++ right)) index result ↔ Operation.index.Gives (.str left) index result)
  /-- From there on the characters of the right text are read. -/
  second : ∀ (index offset result : Value) (i : Nat), index.integer? = some ((left.length + i : Nat) : Int) →
    left.length + i < 2 ^ 63 → offset.integer? = some (i : Int) →
    (Operation.index.Gives (.str (left ++ right)) index result ↔ Operation.index.Gives (.str right) offset result)

theorem readAsCodes (text : String) : ReadAsCodes text :=
  fun _ _ _ hindex hsmall => Operation.index_gives_iff hindex hsmall

theorem exists_holding (left right : String) :
    ∃ holding ∈ [Relation.lt, .eq, .gt], ∀ relation ∈ [Relation.lt, .eq, .gt],
      (relation.OnCodes (codes left) (codes right) ↔ relation = holding) := by
  simp only [List.mem_cons, List.not_mem_nil, or_false, forall_eq_or_imp, forall_eq, Relation.OnCodes]
  rcases lt_trichotomy (codes left) (codes right) with hlt | heq | hgt
  · exact ⟨.lt, by simp, by simp [hlt], by simp [hlt.ne], by simp [hlt.le]⟩
  · exact ⟨.eq, by simp, by simp [heq], by simp [heq], by simp [heq]⟩
  · exact ⟨.gt, by simp, by simp [hgt.le], by simp [hgt.ne'], by simp [hgt]⟩

theorem comparedAsCodes (left right : String) : ComparedAsCodes left right where
  result relation := ⟨_, Operation.compare_gives relation left right, relation.onTexts_iff left right⟩
  bytes := codes_lt_iff
  trichotomy := by
    obtain ⟨holding, hmem, hiff⟩ := exists_holding left right
    refine ⟨holding, hmem, fun relation hrelation => ?_⟩
    have htruth := (relation.onTexts_iff left right).trans (hiff relation hrelation)
    have hgives := Operation.compare_gives relation left right
    simpa only [Value.ofBool, htruth] using hgives

theorem joined (left right : String) : Joined left right where
  gives := Operation.concat_gives left right
  size := ⟨_, _, rfl, rfl, congrArg some (String.length_append left right)⟩
  length := ⟨_, _, rfl, rfl, by rw [← Int64.ofNat_add, ← String.length_append]; rfl⟩
  first index result i hindex hsmall hinside := by
    rw [Operation.index_gives_iff hindex hsmall, Operation.index_gives_iff hindex hsmall, codes_append,
      List.getElem?_append_left (by rwa [length_codes])]
  second index offset result i hindex hsmall hoffset := by
    have hrest : left.length + i - (codes left).length = i := by
      rw [length_codes, Nat.add_sub_cancel_left]
    rw [Operation.index_gives_iff hindex hsmall, Operation.index_gives_iff hoffset (by omega), codes_append,
      List.getElem?_append_right (by rw [length_codes]; omega), hrest]

end Text

/-- Texts form an ordered monoid. They are read and compared as rows of character codes, in the lexicographic order.
Joining them is associative with the empty text as unit, and texts joined to the same text keep their order. -/
theorem texts_ordered_monoid (a b c : String) :
    Text.ReadAsCodes a ∧ Text.ComparedAsCodes a b ∧ Text.Joined a b ∧
    (∃ abc, Operation.concat.Gives (.str (a ++ b)) (.str c) abc ∧ Operation.concat.Gives (.str a) (.str (b ++ c)) abc) ∧
    Operation.concat.Gives (.str "") (.str a) (.str a) ∧ Operation.concat.Gives (.str a) (.str "") (.str a) ∧
    ((Operation.compare .lt .str).Gives (.str a) (.str b) (.int 1) →
      (Operation.compare .lt .str).Gives (.str (c ++ a)) (.str (c ++ b)) (.int 1)) := by
  refine ⟨Text.readAsCodes a, Text.comparedAsCodes a b, Text.joined a b, ⟨_, Operation.concat_gives (a ++ b) c, ?_⟩,
    ?_, ?_, ?_⟩
  · rw [String.append_assoc]
    exact Operation.concat_gives a (b ++ c)
  · have hunit := Operation.concat_gives "" a
    rwa [String.empty_append] at hunit
  · have hunit := Operation.concat_gives a ""
    rwa [String.append_empty] at hunit
  · rw [Operation.compare_gives_one_iff, Operation.compare_gives_one_iff, Text.codes_append, Text.codes_append]
    exact List.append_left_lt

/-- Of the last code of three bytes and a code of four the shorter one comes first, also after another character. The
code of four bytes is read behind that character by an unsigned subscript as it is read alone by a signed one. -/
theorem texts_ordered_monoid_wide :
    ((Operation.compare .lt .str).Gives (.str "\uffff") (.str "😀") (.int 1) ∧
      (Operation.compare .lt .str).Gives (.str ("é" ++ "\uffff")) (.str ("é" ++ "😀")) (.int 1)) ∧
    Operation.index.Gives (.str "😀") (.int 0) (.int 0x1F600) ∧
      Operation.index.Gives (.str ("é" ++ "😀")) (.uint 1) (.int 0x1F600) := by
  have hlt : (Operation.compare .lt .str).Gives (.str "\uffff") (.str "😀") (.int 1) := by
    rw [Operation.compare_gives_one_iff]
    change Text.codes "\uffff" < Text.codes "😀"
    decide
  have halone : Operation.index.Gives (.str "😀") (.int 0) (.int 0x1F600) := fun _ => rfl
  have hjoined := (texts_ordered_monoid "é" "😀" "").2.2.1.second (.uint 1) (.int 0) (.int 0x1F600) 0 rfl (by decide) rfl
  exact ⟨⟨hlt, (texts_ordered_monoid "\uffff" "😀" "é").2.2.2.2.2.2 hlt⟩, halone, hjoined.mpr halone⟩

end StackCode
