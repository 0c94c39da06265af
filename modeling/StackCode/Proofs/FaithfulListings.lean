import StackCode.Proofs.IntegerTexts
import StackCode.Proofs.UniqueFraming

/-! Listings can be told apart. What a part of a listing stands for is seen from where it begins, and so is where it ends:
a numeral ends before the first character that is no digit, a name before a blank, a line at its newline, the lines of a
stream before the first that does not begin with a digit. So the listing of a program without float literals is the
listing of no other program. -/

namespace StackCode

namespace Text

/-- The text does not begin with a character of the class. -/
def StopsBefore (p : Char → Bool) (text : List Char) : Prop := ∀ c ∈ text.head?, p c = false

theorem stopsBefore_nil (p : Char → Bool) : StopsBefore p [] := by
  intro c hmem
  cases hmem

@[simp] theorem stopsBefore_cons {p : Char → Bool} {c : Char} {text : List Char} :
    StopsBefore p (c :: text) ↔ p c = false := by
  simp [StopsBefore]

theorem takeWhile_append_of_stopsBefore {p : Char → Bool} {word rest : List Char} (hword : ∀ c ∈ word, p c = true)
    (hrest : StopsBefore p rest) : (word ++ rest).takeWhile p = word := by
  rw [List.takeWhile_append_of_pos hword]
  cases rest with
  | nil => simp
  | cons c rest => simp [stopsBefore_cons.mp hrest]

section Words

variable {word other rest further : List Char}

/-- A word of characters of one class ends where the class does. -/
theorem word_append_inj {p : Char → Bool} (hword : ∀ c ∈ word, p c = true) (hother : ∀ c ∈ other, p c = true)
    (hrest : StopsBefore p rest) (hfurther : StopsBefore p further) (heq : word ++ rest = other ++ further) :
    word = other ∧ rest = further := by
  obtain rfl : word = other := by
    rw [← takeWhile_append_of_stopsBefore hword hrest, heq, takeWhile_append_of_stopsBefore hother hfurther]
  exact ⟨rfl, List.append_cancel_left heq⟩

/-- Different names without white space are told apart. -/
theorem name_append_inj {α : Type} {name : α → String} {all : List α}
    (hunspaced : ∀ item ∈ all, (name item).toList.all (!isBlank ·) = true) (hdistinct : (all.map name).Nodup)
    {item partner : α} (hitem : item ∈ all) (hpartner : partner ∈ all) (hrest : StopsBefore (!isBlank ·) rest)
    (hfurther : StopsBefore (!isBlank ·) further)
    (heq : (name item).toList ++ rest = (name partner).toList ++ further) : item = partner ∧ rest = further := by
  obtain ⟨hnames, hsame⟩ := word_append_inj (List.all_eq_true.mp (hunspaced item hitem))
    (List.all_eq_true.mp (hunspaced partner hpartner)) hrest hfurther heq
  exact ⟨List.inj_on_of_nodup_map hdistinct hitem hpartner (String.toList_inj.mp hnames), hsame⟩

end Words

section Rows

variable {α : Type} {write : α → List Char} {p q : Char → Bool} {rest further : List Char}

theorem stopsBefore_flatMap (hbegins : ∀ item, ∃ c tail, write item = c :: tail ∧ q c = false) (items : List α)
    (hrest : StopsBefore q rest) : StopsBefore q (items.flatMap write ++ rest) := by
  cases items with
  | nil => exact hrest
  | cons item items =>
      obtain ⟨c, tail, hwrite, hc⟩ := hbegins item
      rw [List.flatMap_cons, hwrite]
      exact stopsBefore_cons.mpr hc

/-- Items in a row are told apart if each of them is, as long as nothing of the class `q` follows it. They begin with
characters of the class `p`, outside `q`, and what follows the last one begins with neither. -/
theorem flatMap_append_inj {items others : List α}
    (htold : ∀ item ∈ items, ∀ other ∈ others, ∀ tail ending, StopsBefore q tail → StopsBefore q ending →
      write item ++ tail = write other ++ ending → item = other ∧ tail = ending)
    (hbegins : ∀ item, ∃ c tail, write item = c :: tail ∧ p c = true ∧ q c = false)
    (hrest : StopsBefore p rest ∧ StopsBefore q rest) (hfurther : StopsBefore p further ∧ StopsBefore q further)
    (heq : items.flatMap write ++ rest = others.flatMap write ++ further) : items = others ∧ rest = further := by
  have hfollows : ∀ item, ∃ c tail, write item = c :: tail ∧ q c = false := by
    intro item
    obtain ⟨c, tail, hwrite, -, hc⟩ := hbegins item
    exact ⟨c, tail, hwrite, hc⟩
  have hgoesOn : ∀ (item : α) (items : List α) (rest : List Char),
      ¬ StopsBefore p ((item :: items).flatMap write ++ rest) := by
    intro item items rest
    obtain ⟨c, tail, hwrite, hc, -⟩ := hbegins item
    simp [hwrite, hc]
  induction items generalizing others with
  | nil =>
      cases others with
      | nil => exact ⟨rfl, heq⟩
      | cons other others =>
          rw [List.flatMap_nil, List.nil_append] at heq
          exact absurd (heq ▸ hrest.1) (hgoesOn other others further)
  | cons item items ih =>
      cases others with
      | nil =>
          rw [List.flatMap_nil, List.nil_append] at heq
          exact absurd (heq ▸ hfurther.1) (hgoesOn item items rest)
      | cons other others =>
          rw [List.flatMap_cons, List.flatMap_cons, List.append_assoc, List.append_assoc] at heq
          obtain ⟨rfl, htail⟩ := htold item List.mem_cons_self other List.mem_cons_self _ _
            (stopsBefore_flatMap hfollows items hrest.2) (stopsBefore_flatMap hfollows others hfurther.2) heq
          obtain ⟨rfl, hsame⟩ := ih (fun item hitem other hother => htold item (List.mem_cons_of_mem _ hitem) other
            (List.mem_cons_of_mem _ hother)) htail
          exact ⟨rfl, hsame⟩

end Rows

end Text

open Text (StopsBefore)

namespace Numeral

variable {rest further : List Char}

theorem Denotes.append_inj {digits others : List Char} {n m : Nat} (hdigits : Denotes digits n)
    (hothers : Denotes others m) (hrest : StopsBefore Numeral.isDigit rest)
    (hfurther : StopsBefore Numeral.isDigit further) (heq : digits ++ rest = others ++ further) :
    n = m ∧ rest = further := by
  obtain ⟨rfl, hsame⟩ := Text.word_append_inj hdigits.isDigit hothers.isDigit hrest hfurther heq
  exact ⟨hdigits.value_eq.symm.trans hothers.value_eq, hsame⟩

theorem Denotes.exists_digit {digits : List Char} {n : Nat} (hdigits : Denotes digits n) :
    ∃ c tail, digits = c :: tail ∧ Numeral.isDigit c = true := by
  obtain ⟨c, tail, rfl⟩ := List.exists_cons_of_ne_nil hdigits.ne_nil
  exact ⟨c, tail, rfl, hdigits.isDigit c List.mem_cons_self⟩

theorem denotes_padded (width n : Nat) : Denotes (padded width n).toList n :=
  readNat?_eq_some_iff.mp (readNat?_padded width n)

theorem ofNat_append_inj {n m : UInt64} (hrest : StopsBefore isDigit rest) (hfurther : StopsBefore isDigit further)
    (heq : (ofNat n.toNat).toList ++ rest = (ofNat m.toNat).toList ++ further) : n = m ∧ rest = further := by
  obtain ⟨hn, hsame⟩ := (denotes_ofNat n.toNat).append_inj (denotes_ofNat m.toNat) hrest hfurther heq
  exact ⟨UInt64.toNat_inj.mp hn, hsame⟩

theorem ofInt_append_inj {n m : Int64} (hrest : StopsBefore (!Text.isBlank ·) rest)
    (hfurther : StopsBefore (!Text.isBlank ·) further)
    (heq : (ofInt n.toInt).toList ++ rest = (ofInt m.toInt).toList ++ further) : n = m ∧ rest = further := by
  have hn := denotesSigned_ofInt n.toInt
  have hm := denotesSigned_ofInt m.toInt
  obtain ⟨htexts, hsame⟩ := Text.word_append_inj (by simpa using hn.not_blank.2) (by simpa using hm.not_blank.2) hrest
    hfurther heq
  have hread := readSigned?_eq_some_iff.mpr hn
  rw [htexts, readSigned?_eq_some_iff.mpr hm] at hread
  exact ⟨Int64.toInt_inj.mp (Option.some.inj hread).symm, hsame⟩

end Numeral

theorem Kind.mem_all (kind : Kind) : kind ∈ all := by
  cases kind <;> decide

theorem Kind.name_append_inj {kind other : Kind} {rest further : List Char} (hrest : StopsBefore (!Text.isBlank ·) rest)
    (hfurther : StopsBefore (!Text.isBlank ·) further)
    (heq : kind.name.toList ++ rest = other.name.toList ++ further) : kind = other ∧ rest = further :=
  Text.name_append_inj (by decide) (by decide) kind.mem_all other.mem_all hrest hfurther heq

namespace Opcode

theorem mem_all (opcode : Opcode) : opcode ∈ all := by
  rcases opcode with width | width | _ | _ | operation | _ | _ | _ | _ | _ | _ | _ | _ | _ | _ | _ | _ | _
  case pushInt => cases width <;> decide
  case pushUInt => cases width <;> decide
  case operate =>
    cases operation
    case intArith op => cases op <;> decide
    case floatArith op => cases op <;> decide
    case compare relation family => cases relation <;> cases family <;> decide
    case logic connective => cases connective <;> decide
    all_goals decide
  all_goals decide

theorem mnemonic_append_inj {opcode other : Opcode} {rest further : List Char}
    (hrest : StopsBefore (!Text.isBlank ·) rest) (hfurther : StopsBefore (!Text.isBlank ·) further)
    (heq : opcode.mnemonic.toList ++ rest = other.mnemonic.toList ++ further) : opcode = other ∧ rest = further :=
  Text.name_append_inj (by decide +kernel) (by decide +kernel) opcode.mem_all other.mem_all hrest hfurther heq

theorem layout_ne_double {opcode : Opcode} (hopcode : opcode ≠ .pushDouble) : opcode.layout ≠ .double := by
  cases opcode <;> simp_all [layout]

end Opcode

/-- The instruction is no float literal. -/
def Instruction.NoFloat (instruction : Instruction) : Prop :=
  instruction.opcode ≠ .pushSingle ∧ instruction.opcode ≠ .pushDouble

instance (instruction : Instruction) : Decidable instruction.NoFloat :=
  inferInstanceAs (Decidable (_ ∧ _))

namespace Listing

/-- What stands behind the mnemonic in a line. -/
def operandPart (offset : Nat) (instruction : Instruction) : List Char :=
  (operandText offset instruction).elim [] fun text => ' ' :: text.toList

theorem toList_line (offset : Nat) (instruction : Instruction) :
    (line offset instruction).toList = (offsetText offset).toList ++
      ' ' :: ' ' :: (instruction.opcode.mnemonic.toList ++ operandPart offset instruction) := by
  unfold line operandPart
  cases operandText offset instruction <;> simp

section Operands

variable (offset : Nat) (opcode : Opcode)

theorem operandPart_int (n : Int64) :
    operandPart offset ⟨opcode, .int n⟩ = ' ' :: (Numeral.ofInt n.toInt).toList :=
  rfl

theorem operandPart_uint (n : UInt64) :
    operandPart offset ⟨opcode, .uint n⟩ = ' ' :: (Numeral.ofNat n.toNat).toList :=
  rfl

theorem operandPart_element (id : SymbolId) (depth : UInt64) :
    operandPart offset ⟨opcode, .element id depth⟩ =
      ' ' :: ((Numeral.ofNat id.toNat).toList ++ ' ' :: (Numeral.ofNat depth.toNat).toList) := by
  simp [operandPart, operandText]

theorem operandPart_fill (dims : UInt64) (leaf : Kind) :
    operandPart offset ⟨opcode, .fill dims leaf⟩ =
      ' ' :: ((Numeral.ofNat dims.toNat).toList ++ ' ' :: leaf.name.toList) := by
  simp [operandPart, operandText]

/-- A word is written as its numeral, and what is said about it, if anything, is set off by a blank. -/
theorem operandPart_word (word : UInt64) : ∃ remark,
    operandPart offset ⟨opcode, .word word⟩ = ' ' :: ((Numeral.ofNat word.toNat).toList ++ remark) ∧
      (remark = [] ∨ ∃ text, remark = ' ' :: text) := by
  simp only [operandPart, operandText, wordText, Option.elim_some]
  split
  · split
    · rename_i target _
      exact ⟨' ' :: '-' :: '>' :: ' ' :: (offsetText target).toList, by simp, .inr ⟨_, rfl⟩⟩
    · exact ⟨[' ', '-', '>', ' ', '?'], by simp, .inr ⟨_, rfl⟩⟩
  · split
    · split
      · rename_i builtin _
        exact ⟨' ' :: '(' :: (builtin.name.toList ++ [')']), by simp, .inr ⟨_, rfl⟩⟩
      · exact ⟨[], by simp, .inl rfl⟩
    · exact ⟨[], by simp, .inl rfl⟩

end Operands

/-- With the opcode known, the operand is read off the rest of the line. -/
theorem operandPart_append_inj {offset : Nat} {opcode : Opcode} {operand other : Operand} {rest further : List Char}
    (hfloat : Instruction.NoFloat ⟨opcode, operand⟩) (hshape : operand.HasShape opcode.layout)
    (hother : other.HasShape opcode.layout)
    (heq : operandPart offset ⟨opcode, operand⟩ ++ '\n' :: rest =
      operandPart offset ⟨opcode, other⟩ ++ '\n' :: further) : operand = other := by
  have hsingle := Opcode.layout_ne_single hfloat.1
  have hdouble := Opcode.layout_ne_double hfloat.2
  have hdigits : ∀ c text, Numeral.isDigit c = false → StopsBefore Numeral.isDigit (c :: text) :=
    fun c text => Text.stopsBefore_cons.mpr
  have hline : ∀ text, StopsBefore (!Text.isBlank ·) ('\n' :: text) :=
    fun text => Text.stopsBefore_cons.mpr rfl
  generalize opcode.layout = layout at hshape hother hsingle hdouble
  -- the layout decides which parts both operands have
  cases layout <;> cases operand <;> try exact hshape.elim
  all_goals cases other <;> try exact hother.elim
  case none.none.none => rfl
  case signed.int.int width n m =>
    simp only [operandPart_int, List.cons_append, List.cons.injEq, true_and] at heq
    rw [(Numeral.ofInt_append_inj (hline rest) (hline further) heq).1]
  case unsigned.uint.uint width n m =>
    simp only [operandPart_uint, List.cons_append, List.cons.injEq, true_and] at heq
    rw [(Numeral.ofNat_append_inj (hdigits _ _ rfl) (hdigits _ _ rfl) heq).1]
  case single.float.float => exact absurd rfl hsingle
  case double.float.float => exact absurd rfl hdouble
  case word.word.word n m =>
    have hremark : ∀ remark text : List Char, (remark = [] ∨ ∃ text, remark = ' ' :: text) →
        StopsBefore Numeral.isDigit (remark ++ '\n' :: text) := by
      rintro remark text (rfl | ⟨comment, rfl⟩)
      · exact hdigits _ _ rfl
      · exact hdigits _ _ rfl
    obtain ⟨remark, hn, hset⟩ := operandPart_word offset opcode n
    obtain ⟨otherRemark, hm, hotherSet⟩ := operandPart_word offset opcode m
    simp only [hn, hm, List.cons_append, List.append_assoc, List.cons.injEq, true_and] at heq
    rw [(Numeral.ofNat_append_inj (hremark _ rest hset) (hremark _ further hotherSet) heq).1]
  case twoWords.element.element id depth otherId otherDepth =>
    simp only [operandPart_element, List.cons_append, List.append_assoc, List.cons.injEq, true_and] at heq
    obtain ⟨rfl, hdepths⟩ := Numeral.ofNat_append_inj (hdigits _ _ rfl) (hdigits _ _ rfl) heq
    rw [(Numeral.ofNat_append_inj (hdigits _ _ rfl) (hdigits _ _ rfl) (List.cons.inj hdepths).2).1]
  case wordAndKind.fill.fill dims leaf otherDims otherLeaf =>
    simp only [operandPart_fill, List.cons_append, List.append_assoc, List.cons.injEq, true_and] at heq
    obtain ⟨rfl, hkinds⟩ := Numeral.ofNat_append_inj (hdigits _ _ rfl) (hdigits _ _ rfl) heq
    rw [(Kind.name_append_inj (hline rest) (hline further) (List.cons.inj hkinds).2).1]

/-- A line shows its offset, its instruction, and where it ends. -/
theorem line_append_inj {offset other : Nat} {instruction found : Instruction} {rest further : List Char}
    (hfloat : instruction.NoFloat) (hshape : instruction.WellShaped) (hfound : found.WellShaped)
    (heq : (line offset instruction).toList ++ '\n' :: rest = (line other found).toList ++ '\n' :: further) :
    (offset, instruction) = (other, found) ∧ rest = further := by
  have hbehind : ∀ (instruction : Instruction) rest,
      StopsBefore (!Text.isBlank ·) (operandPart offset instruction ++ '\n' :: rest) := by
    intro instruction rest
    unfold operandPart
    cases operandText offset instruction <;> exact Text.stopsBefore_cons.mpr rfl
  simp only [toList_line, List.append_assoc, List.cons_append] at heq
  obtain ⟨rfl, hparts⟩ := (Numeral.denotes_padded 4 offset).append_inj (Numeral.denotes_padded 4 other)
    (Text.stopsBefore_cons.mpr rfl) (Text.stopsBefore_cons.mpr rfl) heq
  simp only [List.cons.injEq, true_and] at hparts
  obtain ⟨opcode, operand⟩ := instruction
  obtain ⟨otherOpcode, otherOperand⟩ := found
  obtain ⟨rfl, hoperands⟩ := Opcode.mnemonic_append_inj (hbehind _ rest) (hbehind _ further) hparts
  obtain rfl := operandPart_append_inj hfloat hshape hfound hoperands
  exact ⟨rfl, (List.cons.inj (List.append_cancel_left hoperands)).2⟩

theorem toList_lines (entries : List (Nat × Instruction)) :
    (lines entries).toList = entries.flatMap fun entry => (line entry.1 entry.2).toList ++ ['\n'] := by
  induction entries with
  | nil => rfl
  | cons entry entries ih => simp [lines, ih]

/-- The lines of a stream end before the first that does not begin with a digit. -/
theorem lines_append_inj {entries others : List (Nat × Instruction)} {rest further : List Char}
    (hfloat : ∀ entry ∈ entries, entry.2.NoFloat) (hshape : ∀ entry ∈ entries, entry.2.WellShaped)
    (hothers : ∀ entry ∈ others, entry.2.WellShaped) (hrest : StopsBefore Numeral.isDigit rest)
    (hfurther : StopsBefore Numeral.isDigit further)
    (heq : (lines entries).toList ++ rest = (lines others).toList ++ further) : entries = others ∧ rest = further := by
  rw [toList_lines, toList_lines] at heq
  -- a newline ends the line, so anything may follow it
  have hanything : ∀ text, StopsBefore (fun _ => false) text := fun text c hmem => rfl
  refine Text.flatMap_append_inj (p := Numeral.isDigit) (q := fun _ => false) ?_ ?_ ⟨hrest, hanything _⟩
    ⟨hfurther, hanything _⟩ heq
  · intro entry hentry other hother tail ending _ _ hlines
    rw [List.append_assoc, List.append_assoc] at hlines
    exact line_append_inj (hfloat entry hentry) (hshape entry hentry) (hothers other hother) hlines
  · intro entry
    obtain ⟨c, tail, hdigits, hc⟩ := (Numeral.denotes_padded 4 entry.1).exists_digit
    rw [toList_line, offsetText, hdigits]
    exact ⟨c, _, rfl, hc, rfl⟩

theorem toList_commaSeparated_cons (first : String) (rest : List String) :
    (Text.commaSeparated (first :: rest)).toList = first.toList ++ rest.flatMap fun text => ',' :: ' ' :: text.toList := by
  induction rest generalizing first with
  | nil => simp [Text.commaSeparated]
  | cons second rest ih => simp [Text.commaSeparated, ih]

/-- The parameters of a function as they stand in its header. -/
def paramsPart (params : List SymbolId) : List Char :=
  (Text.commaSeparated (params.map fun param => Numeral.ofNat param.toNat)).toList

/-- With a comma before the first one too, all parameters are written alike. -/
theorem paramsPart_cons (param : SymbolId) (params : List SymbolId) :
    ',' :: ' ' :: paramsPart (param :: params) =
      (param :: params).flatMap fun param => ',' :: ' ' :: (Numeral.ofNat param.toNat).toList := by
  rw [paramsPart, List.map_cons, toList_commaSeparated_cons, List.flatMap_map, List.flatMap_cons]
  rfl

theorem paramsPart_begins (param : SymbolId) (params : List SymbolId) :
    ∃ c tail, paramsPart (param :: params) = c :: tail ∧ Numeral.isDigit c = true := by
  obtain ⟨c, tail, hdigits, hc⟩ := (Numeral.denotes_ofNat param.toNat).exists_digit
  rw [paramsPart, List.map_cons, toList_commaSeparated_cons, hdigits]
  exact ⟨c, _, rfl, hc⟩

/-- Parameters end at the bracket. -/
theorem paramsPart_append_inj {params others : List SymbolId} {rest further : List Char}
    (heq : paramsPart params ++ ')' :: rest = paramsPart others ++ ')' :: further) :
    params = others ∧ rest = further := by
  have hsome : ∀ param params rest further, ')' :: rest ≠ paramsPart (param :: params) ++ further := by
    intro param params rest further hsame
    obtain ⟨c, tail, hparams, hc⟩ := paramsPart_begins param params
    rw [hparams] at hsame
    rw [← (List.cons.inj hsame).1] at hc
    cases hc
  cases params with
  | nil =>
      cases others with
      | nil => exact ⟨rfl, (List.cons.inj heq).2⟩
      | cons other others => exact absurd heq (hsome other others rest _)
  | cons param params =>
      cases others with
      | nil => exact absurd heq.symm (hsome param params further _)
      | cons other others =>
          have hcommas := congrArg (fun text => ',' :: ' ' :: text) heq
          simp only [← List.cons_append, paramsPart_cons] at hcommas
          have hbracket : ∀ text, StopsBefore (· == ',') (')' :: text) ∧ StopsBefore Numeral.isDigit (')' :: text) :=
            fun text => ⟨Text.stopsBefore_cons.mpr rfl, Text.stopsBefore_cons.mpr rfl⟩
          obtain ⟨hparams, hsame⟩ := Text.flatMap_append_inj (p := (· == ',')) (q := Numeral.isDigit)
            (fun param _ other _ tail ending htail hending hparams =>
              Numeral.ofNat_append_inj htail hending (List.cons.inj (List.cons.inj hparams).2).2)
            (fun param => ⟨',', _, rfl, rfl, rfl⟩) (hbracket rest) (hbracket further) hcommas
          exact ⟨hparams, (List.cons.inj hsame).2⟩

theorem toList_functionHeader (id : SymbolId) (params : List SymbolId) :
    (functionHeader id params).toList = '\n' :: ("function ".toList ++ ((Numeral.ofNat id.toNat).toList ++
      ' ' :: '(' :: (paramsPart params ++ [')', ':', '\n']))) := by
  simp [functionHeader, paramsPart]

theorem functionHeader_append_inj {id other : SymbolId} {params others : List SymbolId} {rest further : List Char}
    (heq : (functionHeader id params).toList ++ rest = (functionHeader other others).toList ++ further) :
    id = other ∧ params = others ∧ rest = further := by
  simp only [toList_functionHeader, List.cons_append, List.append_assoc, List.nil_append] at heq
  obtain ⟨rfl, hparams⟩ := Numeral.ofNat_append_inj (Text.stopsBefore_cons.mpr rfl) (Text.stopsBefore_cons.mpr rfl)
    (List.append_cancel_left (List.cons.inj heq).2)
  simp only [List.cons.injEq, true_and] at hparams
  obtain ⟨rfl, hrest⟩ := paramsPart_append_inj hparams
  simp only [List.cons.injEq, true_and] at hrest
  exact ⟨rfl, rfl, hrest⟩

end Listing

/-- An instruction that is no float in four bytes is encoded as the bytes that it fills. -/
theorem Instruction.Fills.encode_eq {instruction : Instruction} {chunk : List UInt8} (hfills : instruction.Fills chunk)
    (hopcode : instruction.opcode ≠ .pushSingle) : instruction.encode = chunk := by
  rw [encode_of_decode hfills.1 hopcode, Nat.zero_add, hfills.2, ← List.size_toArray, Array.extract_size]

namespace Stream

variable {code other : Stream}

/-- No instruction of the stream is a float literal. -/
def FloatFree (code : Stream) : Prop := code.All Instruction.NoFloat

instance (code : Stream) : Decidable code.FloatFree :=
  inferInstanceAs (Decidable (∀ entry ∈ code.scan.instructions, entry.2.NoFloat))

/-- The bytes of a stream without floats in four bytes are those that its instructions are encoded as. -/
theorem Decodes.eq_ofInstructions (hdecodes : code.Decodes)
    (hall : code.All fun instruction => instruction.opcode ≠ .pushSingle) :
    code = ofInstructions (code.scan.instructions.map (·.2)) := by
  obtain ⟨chunks, found, hsplits⟩ := exists_splitsInto hdecodes
  have hfound : code.scan.instructions.map (·.2) = found := by
    rw [hsplits.scan_eq]
    apply List.map_snd_zip
    rw [hsplits.fills.length_eq]
    simp [edges]
  have hopcodes : ∀ instruction ∈ found, instruction.opcode ≠ .pushSingle := by
    rw [← hfound]
    exact List.forall_mem_map.mpr hall
  have hchunks : found.map Instruction.encode = chunks := by
    rw [← List.forall₂_eq_eq_eq, List.forall₂_map_left_iff]
    refine ((List.forall₂_and_left found chunks).mpr ⟨hopcodes, hsplits.fills⟩).imp ?_
    rintro instruction chunk ⟨hopcode, hfills⟩
    exact hfills.encode_eq hopcode
  have hbytes : code.bytes = (ofInstructions found).bytes := by
    rw [← Array.toList_inj, hsplits.bytes, ← hchunks, toList_ofInstructions, encodeAll, List.flatMap_def]
  rw [hfound]
  exact congrArg Stream.mk hbytes

theorem eq_of_scan_eq (hdecodes : code.Decodes) (hfloat : code.FloatFree) (hother : other.Decodes)
    (hscan : code.scan.instructions = other.scan.instructions) : code = other := by
  have hall : code.All fun instruction => instruction.opcode ≠ .pushSingle :=
    fun entry hentry => (hfloat entry hentry).1
  have hotherAll : other.All fun instruction => instruction.opcode ≠ .pushSingle :=
    fun entry hentry => hall entry (hscan ▸ hentry)
  rw [hdecodes.eq_ofInstructions hall, hother.eq_ofInstructions hotherAll, hscan]

theorem wellShaped_of_mem_scan {entry : Nat × Instruction} (hentry : entry ∈ code.scan.instructions) :
    entry.2.WellShaped :=
  (Instruction.of_decode (mem_scan.mp hentry).2).2

/-- The lines of a stream show the stream and where they end. -/
theorem listed_append_inj (hdecodes : code.Decodes) (hfloat : code.FloatFree) (hother : other.Decodes)
    {rest further : List Char} (hrest : StopsBefore Numeral.isDigit rest)
    (hfurther : StopsBefore Numeral.isDigit further)
    (heq : (Listing.lines code.scan.instructions).toList ++ rest =
      (Listing.lines other.scan.instructions).toList ++ further) : code = other ∧ rest = further := by
  obtain ⟨hscan, hsame⟩ := Listing.lines_append_inj hfloat (fun _ hentry => wellShaped_of_mem_scan hentry)
    (fun _ hentry => wellShaped_of_mem_scan hentry) hrest hfurther heq
  exact ⟨eq_of_scan_eq hdecodes hfloat hother hscan, hsame⟩

end Stream

namespace Program

/-- Every stream of the program decodes to its end. -/
def Decodes (program : Program) : Prop :=
  program.main.Decodes ∧ ∀ entry ∈ program.functions.entries, entry.2.code.Decodes

/-- No instruction of the program is a float literal. -/
def FloatFree (program : Program) : Prop :=
  program.main.FloatFree ∧ ∀ entry ∈ program.functions.entries, entry.2.code.FloatFree

instance (program : Program) : Decidable program.FloatFree :=
  inferInstanceAs (Decidable (_ ∧ _))

end Program

namespace Listing

theorem ofStream_eq_ok_iff {code : Stream} {text : String} :
    ofStream code = .ok text ↔ code.Decodes ∧ text = lines code.scan.instructions := by
  unfold ofStream
  cases hinstructions : code.instructions with
  | ok found =>
      obtain ⟨hdecodes, rfl⟩ := Stream.instructions_eq_ok_iff.mp hinstructions
      simp [Except.map, hdecodes, eq_comm]
  | error error =>
      have hdecodes : ¬ code.Decodes := by
        intro hdecodes
        rw [Stream.instructions_eq_ok_iff.mpr ⟨hdecodes, rfl⟩] at hinstructions
        cases hinstructions
      simp [Except.map, hdecodes]

theorem bind_both_eq_ok_iff {first second : Except DecodeError String} {join : String → String → String}
    {text : String} : (first >>= fun left => second >>= fun right => return join left right) = .ok text ↔
      ∃ left right, first = .ok left ∧ second = .ok right ∧ join left right = text := by
  cases first with
  | error error => simp [bind, Except.bind]
  | ok left => cases second <;> simp [bind, Except.bind, pure, Except.pure]

/-- The part of a listing that a function has. -/
def sectionPart (entry : SymbolId × Function) : List Char :=
  (functionHeader entry.1 entry.2.params).toList ++ (lines entry.2.code.scan.instructions).toList

theorem ofFunctions_eq_ok_iff {entries : List (SymbolId × Function)} {text : String} :
    ofFunctions entries = .ok text ↔
      (∀ entry ∈ entries, entry.2.code.Decodes) ∧ text = String.ofList (entries.flatMap sectionPart) := by
  induction entries generalizing text with
  | nil =>
      rw [ofFunctions, Except.ok.injEq, eq_comm]
      simp
  | cons entry entries ih =>
      rw [ofFunctions, bind_both_eq_ok_iff]
      simp only [ofStream_eq_ok_iff, ih, List.forall_mem_cons, List.flatMap_cons, sectionPart, String.ofList_append,
        String.ofList_toList]
      constructor
      · rintro ⟨_, _, ⟨hbody, rfl⟩, ⟨hothers, rfl⟩, rfl⟩
        exact ⟨⟨hbody, hothers⟩, rfl⟩
      · rintro ⟨⟨hbody, hothers⟩, rfl⟩
        exact ⟨_, _, ⟨hbody, rfl⟩, ⟨hothers, rfl⟩, rfl⟩

/-- The listing of a program whose streams decode. -/
def programText (program : Program) : String :=
  "main:\n" ++ lines program.main.scan.instructions ++
    String.ofList (program.functions.entries.flatMap sectionPart)

theorem ofProgram_eq_ok_iff {program : Program} {text : String} :
    ofProgram program = .ok text ↔ program.Decodes ∧ text = programText program := by
  rw [ofProgram, bind_both_eq_ok_iff]
  simp only [ofStream_eq_ok_iff, ofFunctions_eq_ok_iff, Program.Decodes, programText]
  constructor
  · rintro ⟨_, _, ⟨hmain, rfl⟩, ⟨hfunctions, rfl⟩, rfl⟩
    exact ⟨⟨hmain, hfunctions⟩, rfl⟩
  · rintro ⟨⟨hmain, hfunctions⟩, rfl⟩
    exact ⟨_, _, ⟨hmain, rfl⟩, ⟨hfunctions, rfl⟩, rfl⟩

/-- A section begins with an empty line. -/
theorem sectionPart_begins (entry : SymbolId × Function) : ∃ tail, sectionPart entry = '\n' :: tail := by
  rw [sectionPart, toList_functionHeader]
  exact ⟨_, rfl⟩

theorem stopsBefore_sections (entries : List (SymbolId × Function)) :
    StopsBefore Numeral.isDigit (entries.flatMap sectionPart) := by
  rw [← List.append_nil (entries.flatMap sectionPart)]
  refine Text.stopsBefore_flatMap (fun entry => ?_) entries (Text.stopsBefore_nil _)
  obtain ⟨tail, hsection⟩ := sectionPart_begins entry
  exact ⟨'\n', tail, hsection, rfl⟩

theorem sections_inj {entries others : List (SymbolId × Function)}
    (hdecodes : ∀ entry ∈ entries, entry.2.code.Decodes) (hfloat : ∀ entry ∈ entries, entry.2.code.FloatFree)
    (hothers : ∀ entry ∈ others, entry.2.code.Decodes)
    (heq : entries.flatMap sectionPart = others.flatMap sectionPart) : entries = others := by
  have hends : StopsBefore (· == '\n') [] ∧ StopsBefore Numeral.isDigit [] :=
    ⟨Text.stopsBefore_nil _, Text.stopsBefore_nil _⟩
  refine (Text.flatMap_append_inj (p := (· == '\n')) (q := Numeral.isDigit) ?_ ?_ hends hends
    (congrArg (· ++ []) heq)).1
  · rintro ⟨id, params, code⟩ hentry ⟨otherId, otherParams, otherCode⟩ hother tail ending htail hending hsections
    simp only [sectionPart, List.append_assoc] at hsections
    obtain ⟨rfl, rfl, hbodies⟩ := functionHeader_append_inj hsections
    obtain ⟨rfl, hsame⟩ := Stream.listed_append_inj (hdecodes _ hentry) (hfloat _ hentry) (hothers _ hother) htail
      hending hbodies
    exact ⟨rfl, hsame⟩
  · intro entry
    obtain ⟨tail, hsection⟩ := sectionPart_begins entry
    exact ⟨'\n', tail, hsection, rfl, rfl⟩

theorem programText_inj {program other : Program} (hdecodes : program.Decodes) (hfloat : program.FloatFree)
    (hother : other.Decodes) (heq : programText program = programText other) : program = other := by
  obtain ⟨main, functions, hascending⟩ := program
  obtain ⟨otherMain, others, hothers⟩ := other
  have htexts := congrArg String.toList heq
  simp only [programText, String.toList_append, List.append_assoc, String.toList_ofList] at htexts
  obtain ⟨rfl, hsections⟩ := Stream.listed_append_inj hdecodes.1 hfloat.1 hother.1 (stopsBefore_sections _)
    (stopsBefore_sections _) (List.append_cancel_left htexts)
  obtain rfl := sections_inj hdecodes.2 hfloat.2 hother.2 hsections
  rfl

end Listing

/-- Listings lose nothing but floats. A program whose streams decode and have no float literals has a listing, and it is
the only program with this listing, even among those with float literals. -/
theorem listing_faithful {program : Program} (hdecodes : program.Decodes) (hfloat : program.FloatFree) :
    ∃ text, Listing.ofProgram program = .ok text ∧
      ∀ other, Listing.ofProgram other = .ok text → other = program := by
  refine ⟨_, Listing.ofProgram_eq_ok_iff.mpr ⟨hdecodes, rfl⟩, ?_⟩
  intro other hother
  obtain ⟨hotherDecodes, htext⟩ := Listing.ofProgram_eq_ok_iff.mp hother
  exact (Listing.programText_inj hdecodes hfloat hotherDecodes htext).symm

/-- Two functions, the second one entered first and the first one empty, and a jump to before the start. -/
def enteredLate : Program where
  main := .ofInstructions
    [.pushInt (-300), .withWord .jumpIfFalse 18, .call 5, .withWord .jumpBackward 50, .call 80]
  functions := .ofList
    [(90, ⟨[91, 92], .ofInstructions [.loadElement 91 2, .allocFilled 3 .float, .plain .ret]⟩), (80, ⟨[], .empty⟩)]

def lateListing : String :=
  "main:\n0000  PUSH_I16 -300\n0003  JUMP_IF_FALSE 18 -> 0030\n0012  CALL 5 (print_int64)\n" ++
    "0021  JUMP_BACKWARD 50 -> ?\n0030  CALL 80\n" ++
    "\nfunction 80 ():\n" ++
    "\nfunction 90 (91, 92):\n0000  LOAD_ELEM 91 2\n0017  ALLOCATE_ARRAY_FILLED 3 float\n0027  RETURN\n"

theorem listing_faithful_enteredLate :
    enteredLate.Decodes ∧ enteredLate.FloatFree ∧ Listing.ofProgram enteredLate = .ok lateListing ∧
      ∀ other, Listing.ofProgram other = .ok lateListing → other = enteredLate := by
  have hlisting : Listing.ofProgram enteredLate = .ok lateListing := by decide +kernel
  have hdecodes : enteredLate.Decodes := (Listing.ofProgram_eq_ok_iff.mp hlisting).1
  have hfloat : enteredLate.FloatFree := by decide +kernel
  obtain ⟨text, htext, honly⟩ := listing_faithful hdecodes hfloat
  obtain rfl : lateListing = text := Except.ok.inj (hlisting.symm.trans htext)
  exact ⟨hdecodes, hfloat, hlisting, honly⟩

/-- Float literals are excepted because all patterns that are no numbers are listed alike. -/
example : Listing.ofProgram ⟨.ofInstructions [⟨.pushDouble, .float ⟨0x7FF8000000000000⟩⟩], .empty⟩ =
    Listing.ofProgram ⟨.ofInstructions [⟨.pushDouble, .float ⟨0x7FF8000000000001⟩⟩], .empty⟩ := by decide +kernel

end StackCode
