import Mathlib
import StackCode.Numeral
import StackCode.Text.Blank

/-! Numerals. A grammar says which rows of characters are numerals and what number each denotes; the readers accept
exactly these, and what is written for a number is one of its numerals. -/

namespace StackCode

namespace Numeral

/-- One or more digits, and the number that they denote. Zeros in front are no different from other digits. -/
inductive Denotes : List Char → Nat → Prop where
  | digit {d : Nat} (hd : d < 10) : Denotes [Nat.digitChar d] d
  | more {digits : List Char} {n d : Nat} (hdigits : Denotes digits n) (hd : d < 10) :
      Denotes (digits ++ [Nat.digitChar d]) (10 * n + d)

/-- Digits, with a sign in front or not. -/
inductive DenotesSigned : List Char → Int → Prop where
  | plain {digits : List Char} {n : Nat} (hdigits : Denotes digits n) : DenotesSigned digits n
  | plus {digits : List Char} {n : Nat} (hdigits : Denotes digits n) : DenotesSigned ('+' :: digits) n
  | minus {digits : List Char} {n : Nat} (hdigits : Denotes digits n) : DenotesSigned ('-' :: digits) (-n)

/-- Digits, with a plus sign in front or not. -/
inductive DenotesUnsigned : List Char → Nat → Prop where
  | plain {digits : List Char} {n : Nat} (hdigits : Denotes digits n) : DenotesUnsigned digits n
  | plus {digits : List Char} {n : Nat} (hdigits : Denotes digits n) : DenotesUnsigned ('+' :: digits) n

theorem valueFrom_eq_ofDigitChars (value : Nat) (digits : List Char) :
    valueFrom value digits = Nat.ofDigitChars 10 digits value := by
  induction digits generalizing value with
  | nil => exact Nat.ofDigitChars_nil.symm
  | cons c rest ih =>
      rw [Nat.ofDigitChars_cons]
      exact ih (10 * value + digitValue c)

theorem value_nil : value [] = 0 := rfl

theorem value_concat (digits : List Char) (c : Char) : value (digits ++ [c]) = 10 * value digits + digitValue c := by
  rw [value_eq_valueFrom, value_eq_valueFrom, valueFrom_eq_ofDigitChars, Nat.ofDigitChars_append,
    valueFrom_eq_ofDigitChars, Nat.ofDigitChars_cons, Nat.ofDigitChars_nil]
  rfl

theorem isDigit_iff {c : Char} : isDigit c = true ↔ 48 ≤ c.toNat ∧ c.toNat ≤ 57 := by
  have hlower : '0' ≤ c ↔ 48 ≤ c.toNat := Iff.rfl
  have hupper : c ≤ '9' ↔ c.toNat ≤ 57 := Iff.rfl
  rw [isDigit, Bool.and_eq_true, decide_eq_true_iff, decide_eq_true_iff, hlower, hupper]

theorem isDigit_digitChar {d : Nat} (hd : d < 10) : isDigit (Nat.digitChar d) = true := by
  rw [isDigit_iff, Nat.toNat_digitChar_of_lt_ten hd]
  omega

theorem digitValue_digitChar {d : Nat} (hd : d < 10) : digitValue (Nat.digitChar d) = d := by
  have hzero : '0'.toNat = 48 := rfl
  rw [digitValue, Nat.toNat_digitChar_of_lt_ten hd, hzero]
  omega

/-- A digit is that of its value. -/
theorem exists_digitChar {c : Char} (hdigit : isDigit c = true) : ∃ d < 10, c = Nat.digitChar d := by
  rw [isDigit_iff] at hdigit
  have hlt : c.toNat - 48 < 10 := by omega
  refine ⟨c.toNat - 48, hlt, Char.toNat_inj.mp ?_⟩
  rw [Nat.toNat_digitChar_of_lt_ten hlt]
  omega

namespace Denotes

variable {digits : List Char} {n : Nat}

theorem ne_nil (hdigits : Denotes digits n) : digits ≠ [] := by
  cases hdigits <;> simp

theorem isDigit (hdigits : Denotes digits n) : ∀ c ∈ digits, Numeral.isDigit c = true := by
  induction hdigits with
  | digit hd =>
      intro c hmem
      rw [List.mem_singleton.mp hmem]
      exact isDigit_digitChar hd
  | more hdigits hd ih =>
      intro c hmem
      rcases List.mem_append.mp hmem with hmem | hmem
      · exact ih c hmem
      · rw [List.mem_singleton.mp hmem]
        exact isDigit_digitChar hd

theorem value_eq (hdigits : Denotes digits n) : value digits = n := by
  induction hdigits with
  | @digit d hd =>
      have hsingle := value_concat [] (Nat.digitChar d)
      rwa [List.nil_append, value_nil, digitValue_digitChar hd, Nat.mul_zero, Nat.zero_add] at hsingle
  | more hdigits hd ih => rw [value_concat, ih, digitValue_digitChar hd]

end Denotes

/-- A row of digits denotes what its value is computed to be. -/
theorem denotes_value {digits : List Char} (hne : digits ≠ []) (hdigits : ∀ c ∈ digits, isDigit c = true) :
    Denotes digits (value digits) := by
  induction digits using List.reverseRecOn with
  | nil => exact absurd rfl hne
  | append_singleton front c ih =>
      obtain ⟨d, hd, rfl⟩ := exists_digitChar (hdigits c (by simp))
      rw [value_concat, digitValue_digitChar hd]
      by_cases hfront : front = []
      · subst hfront
        rw [value_nil, Nat.mul_zero, Nat.zero_add]
        exact .digit hd
      · exact .more (ih hfront fun c hmem => hdigits c (List.mem_append_left _ hmem)) hd

theorem readNat?_eq_some_iff {text : List Char} {n : Nat} : readNat? text = some n ↔ Denotes text n := by
  unfold readNat?
  constructor
  · intro hread
    split at hread
    · rename_i hdigits
      cases hread
      exact denotes_value hdigits.1 (List.all_eq_true.mp hdigits.2)
    · cases hread
  · intro hdenotes
    rw [if_pos ⟨hdenotes.ne_nil, List.all_eq_true.mpr hdenotes.isDigit⟩, hdenotes.value_eq]

/-- Neither sign is a digit. -/
theorem Denotes.not_sign {sign : Char} {digits : List Char} {n : Nat} (hdenotes : Denotes (sign :: digits) n) :
    sign ≠ '+' ∧ sign ≠ '-' := by
  have hdigit := hdenotes.isDigit sign List.mem_cons_self
  refine ⟨?_, ?_⟩
  all_goals
    rintro rfl
    cases hdigit

theorem readUnsigned?_eq_some_iff {text : List Char} {n : Nat} :
    readUnsigned? text = some n ↔ DenotesUnsigned text n := by
  constructor
  · intro hread
    unfold readUnsigned? at hread
    split at hread
    · exact .plus (readNat?_eq_some_iff.mp hread)
    · exact .plain (readNat?_eq_some_iff.mp hread)
  · rintro (hdigits | hdigits)
    · unfold readUnsigned?
      split
      · exact absurd rfl hdigits.not_sign.1
      · exact readNat?_eq_some_iff.mpr hdigits
    · exact readNat?_eq_some_iff.mpr hdigits

theorem readSigned?_eq_some_iff {text : List Char} {n : Int} : readSigned? text = some n ↔ DenotesSigned text n := by
  constructor
  · intro hread
    unfold readSigned? at hread
    split at hread
    · obtain ⟨m, hm, rfl⟩ := Option.map_eq_some_iff.mp hread
      exact .plus (readNat?_eq_some_iff.mp hm)
    · rename_i digits
      cases hm : readNat? digits with
      | none =>
          rw [hm] at hread
          cases hread
      | some m =>
          rw [hm] at hread
          cases hread
          exact .minus (readNat?_eq_some_iff.mp hm)
    · obtain ⟨m, hm, rfl⟩ := Option.map_eq_some_iff.mp hread
      exact .plain (readNat?_eq_some_iff.mp hm)
  · rintro (hdigits | hdigits | hdigits)
    · unfold readSigned?
      split
      · exact absurd rfl hdigits.not_sign.1
      · exact absurd rfl hdigits.not_sign.2
      · rw [readNat?_eq_some_iff.mpr hdigits]
        rfl
    · rw [readSigned?, readNat?_eq_some_iff.mpr hdigits]
      rfl
    · rw [readSigned?, readNat?_eq_some_iff.mpr hdigits]
      rfl

/-- A padded numeral is read as the number that it was written for. -/
theorem readNat?_padded (width n : Nat) : readNat? (padded width n).toList = some n := by
  have htext : (padded width n).toList =
      List.replicate (width - (ofNat n).length) '0' ++ Nat.toDigits 10 n := by
    rw [padded, String.toList_append, String.toList_ofList, ofNat, Nat.toList_repr]
  have hdigits : ∀ c ∈ Nat.toDigits 10 n, isDigit c = true := fun c hmem =>
    Nat.isDigit_of_mem_toDigits (by omega) (by omega) hmem
  rw [htext, readNat?, if_pos]
  · rw [value_eq_valueFrom, valueFrom_eq_ofDigitChars, Nat.ofDigitChars_append, Nat.ofDigitChars_replicate_zero,
      Nat.mul_zero, Nat.ofDigitChars_toDigits (by omega) (by omega)]
  · refine ⟨List.append_ne_nil_of_right_ne_nil _ Nat.toDigits_ne_nil, ?_⟩
    rw [List.all_append, List.all_replicate, List.all_eq_true.mpr hdigits]
    simp [isDigit]

theorem denotes_ofNat (n : Nat) : Denotes (ofNat n).toList n := by
  have hpadded : padded 0 n = ofNat n := by simp [padded]
  rw [← readNat?_eq_some_iff, ← hpadded, readNat?_padded]

theorem denotesSigned_ofInt (n : Int) : DenotesSigned (ofInt n).toList n := by
  have hdigits := denotes_ofNat n.natAbs
  unfold ofInt
  split
  · rename_i hneg
    have hminus := DenotesSigned.minus hdigits
    have htext : ("-" ++ ofNat n.natAbs).toList = '-' :: (ofNat n.natAbs).toList := String.toList_append
    rw [Int.ofNat_natAbs_of_nonpos (by omega), neg_neg] at hminus
    rwa [htext]
  · have hplain := DenotesSigned.plain hdigits
    rwa [Int.natAbs_of_nonneg (by omega)] at hplain

theorem readInt64?_eq_some_iff {text : List Char} {n : Int64} :
    readInt64? text = some n ↔ DenotesSigned text n.toInt := by
  unfold readInt64?
  rw [← readSigned?_eq_some_iff]
  cases readSigned? text with
  | none => simp
  | some m =>
      dsimp only
      split
      · rename_i hrange
        obtain ⟨hlower, hupper⟩ := hrange
        rw [Int64.toInt_maxValue] at hupper
        rw [Option.some.injEq, Option.some.injEq]
        constructor
        · rintro rfl
          exact (Int64.toInt_ofInt_of_le hlower (by omega)).symm
        · rintro rfl
          exact Int64.ofInt_toInt n
      · rename_i hrange
        rw [Option.some.injEq]
        simp only [reduceCtorEq, false_iff]
        rintro rfl
        exact hrange ⟨n.minValue_le_toInt, n.toInt_le⟩

theorem readUInt64?_eq_some_iff {text : List Char} {n : UInt64} :
    readUInt64? text = some n ↔ DenotesUnsigned text n.toNat := by
  unfold readUInt64?
  rw [← readUnsigned?_eq_some_iff]
  cases readUnsigned? text with
  | none => simp
  | some m =>
      dsimp only
      split
      · rename_i hrange
        rw [Option.some.injEq, Option.some.injEq]
        constructor
        · rintro rfl
          exact (UInt64.toNat_ofNat_of_lt hrange).symm
        · rintro rfl
          exact UInt64.ofNat_toNat
      · rename_i hrange
        rw [Option.some.injEq]
        simp only [reduceCtorEq, false_iff]
        rintro rfl
        exact hrange n.toNat_lt

end Numeral

namespace Text

/-- The text is the other one with white space in front of it and behind it. -/
def Surrounds (text core : List Char) : Prop :=
  ∃ before after, before.all isBlank = true ∧ after.all isBlank = true ∧ text = before ++ core ++ after

theorem dropWhile_front {p : Char → Bool} {front core : List Char} (rest : List Char) (hfront : front.all p = true)
    (hne : core ≠ []) (hcore : ∀ c ∈ core, p c = false) :
    (front ++ (core ++ rest)).dropWhile p = core ++ rest := by
  rw [List.dropWhile_append_of_pos (List.all_eq_true.mp hfront)]
  cases core with
  | nil => exact absurd rfl hne
  | cons first core => exact List.dropWhile_cons_of_neg (by simp [hcore first List.mem_cons_self])

/-- Trimming gives back what stands between the white space. -/
theorem trim_of_surrounds {text core : List Char} (htext : Surrounds text core) (hne : core ≠ [])
    (hcore : ∀ c ∈ core, isBlank c = false) : trim text = core := by
  obtain ⟨before, after, hbefore, hafter, rfl⟩ := htext
  have hend : (after.reverse ++ (core.reverse ++ [])).dropWhile isBlank = core.reverse ++ [] :=
    dropWhile_front [] (by simpa using hafter) (by simpa using hne) (by simpa using hcore)
  rw [List.append_nil] at hend
  rw [trim, List.append_assoc, dropWhile_front after hbefore hne hcore, dropLastWhile, List.reverse_append, hend,
    List.reverse_reverse]

theorem surrounds_trim (text : List Char) : Surrounds text (trim text) := by
  refine ⟨text.takeWhile isBlank, ((text.dropWhile isBlank).reverse.takeWhile isBlank).reverse, ?_, ?_, ?_⟩
  · exact List.all_takeWhile
  · rw [List.all_reverse]
    exact List.all_takeWhile
  · rw [trim, dropLastWhile, List.append_assoc, ← List.reverse_append, List.takeWhile_append_dropWhile,
      List.reverse_reverse, List.takeWhile_append_dropWhile]

/-- A grammar without white space holds of the trimmed text if it holds of something between white space. -/
theorem trim_iff_surrounds {grammar : List Char → Prop} {text : List Char}
    (hgrammar : ∀ core, grammar core → core ≠ [] ∧ ∀ c ∈ core, isBlank c = false) :
    grammar (trim text) ↔ ∃ core, Surrounds text core ∧ grammar core := by
  constructor
  · exact fun htrim => ⟨_, surrounds_trim text, htrim⟩
  · rintro ⟨core, hsurrounds, hcore⟩
    obtain ⟨hne, hblank⟩ := hgrammar core hcore
    rwa [trim_of_surrounds hsurrounds hne hblank]

end Text
end StackCode
