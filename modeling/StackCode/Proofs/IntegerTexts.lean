import StackCode.Proofs.Numerals
import StackCode.Proofs.WidthConversions

/-! Integers and their texts. The text of an integer is converted back to it, with any white space around it. A text is
converted to an integer if it is a numeral of a 64-bit integer between white space, and then to what the width leaves of
this integer; any other text is refused and named in the fault. -/

namespace StackCode

namespace Numeral

theorem isBlank_of_isDigit {c : Char} (hdigit : isDigit c = true) : Text.isBlank c = false := by
  rw [isDigit_iff] at hdigit
  simp only [Text.isBlank, Bool.or_eq_false_iff, Bool.and_eq_false_iff, decide_eq_false_iff_not, beq_eq_false_iff_ne]
  omega

theorem Denotes.not_blank {digits : List Char} {n : Nat} (hdigits : Denotes digits n) :
    ∀ c ∈ digits, Text.isBlank c = false :=
  fun c hmem => isBlank_of_isDigit (hdigits.isDigit c hmem)

theorem DenotesSigned.not_blank {text : List Char} {n : Int} (htext : DenotesSigned text n) :
    text ≠ [] ∧ ∀ c ∈ text, Text.isBlank c = false := by
  cases htext with
  | plain hdigits => exact ⟨hdigits.ne_nil, hdigits.not_blank⟩
  | plus hdigits | minus hdigits => exact ⟨by simp, List.forall_mem_cons.mpr ⟨rfl, hdigits.not_blank⟩⟩

theorem DenotesUnsigned.not_blank {text : List Char} {n : Nat} (htext : DenotesUnsigned text n) :
    text ≠ [] ∧ ∀ c ∈ text, Text.isBlank c = false := by
  cases htext with
  | plain hdigits => exact ⟨hdigits.ne_nil, hdigits.not_blank⟩
  | plus hdigits => exact ⟨by simp, List.forall_mem_cons.mpr ⟨rfl, hdigits.not_blank⟩⟩

end Numeral

namespace Text

/-- The text is a signed numeral of the number, with white space around it. -/
def HoldsSigned (text : String) (n : Int) : Prop :=
  ∃ core, Surrounds text.toList core ∧ Numeral.DenotesSigned core n

/-- The text is an unsigned numeral of the number, with white space around it. -/
def HoldsUnsigned (text : String) (n : Nat) : Prop :=
  ∃ core, Surrounds text.toList core ∧ Numeral.DenotesUnsigned core n

theorem readInt64?_trim_iff {text : String} {n : Int64} :
    Numeral.readInt64? (trim text.toList) = some n ↔ HoldsSigned text n.toInt := by
  rw [Numeral.readInt64?_eq_some_iff]
  exact trim_iff_surrounds fun _ hcore => Numeral.DenotesSigned.not_blank hcore

theorem readUInt64?_trim_iff {text : String} {n : UInt64} :
    Numeral.readUInt64? (trim text.toList) = some n ↔ HoldsUnsigned text n.toNat := by
  rw [Numeral.readUInt64?_eq_some_iff]
  exact trim_iff_surrounds fun _ hcore => Numeral.DenotesUnsigned.not_blank hcore

end Text

/-- The integers of 64 bits are those in the range. -/
theorem exists_toInt_iff {p : Int → Prop} : (∃ n : Int64, p n.toInt) ↔ ∃ n, p n ∧ -2 ^ 63 ≤ n ∧ n < 2 ^ 63 := by
  constructor
  · rintro ⟨n, hn⟩
    exact ⟨n.toInt, hn, n.le_toInt, n.toInt_lt⟩
  · rintro ⟨n, hn, hlower, hupper⟩
    exact ⟨Int64.ofInt n, by rwa [Int64.toInt_ofInt_of_le hlower hupper]⟩

theorem exists_toNat_iff {p : Nat → Prop} : (∃ n : UInt64, p n.toNat) ↔ ∃ n, p n ∧ n < 2 ^ 64 := by
  constructor
  · rintro ⟨n, hn⟩
    exact ⟨n.toNat, hn, n.toNat_lt⟩
  · rintro ⟨n, hn, hupper⟩
    have hround : (UInt64.ofNat n).toNat = n := UInt64.toNat_ofNat_of_lt hupper
    exact ⟨UInt64.ofNat n, by rwa [hround]⟩

namespace Width

theorem wrapSigned_w64 (n : Int64) : Width.w64.wrapSigned n = n := by
  rw [← Int64.toInt_inj, toInt_wrapSigned]
  exact n.toInt_bmod

theorem wrapUnsigned_w64 (n : UInt64) : Width.w64.wrapUnsigned n = n := by
  rw [← UInt64.toNat_inj, toNat_wrapUnsigned]
  exact Nat.mod_eq_of_lt n.toNat_lt

theorem wrapSigned_eq_iff (width : Width) (n r : Int64) :
    width.wrapSigned n = r ↔ width.SignedResidue n.toInt r.toInt := by
  rw [signedResidue_iff, ← toInt_wrapSigned, Int64.toInt_inj, eq_comm]

theorem wrapUnsigned_eq_iff (width : Width) (n r : UInt64) :
    width.wrapUnsigned n = r ↔ width.UnsignedResidue n.toNat r.toNat := by
  rw [unsignedResidue_iff, ← natCast_wrapUnsigned, Nat.cast_inj, UInt64.toNat_inj, eq_comm]

end Width

namespace Conversion

section Reading

variable {α : Type} (conversion : Conversion) (text : String) (read : Option α) (make : α → Value)

theorem reading_map_eq_ok_iff (result : Value) :
    (reading conversion text read).map make = .ok result ↔ ∃ n, read = some n ∧ result = make n := by
  cases read with
  | some n =>
      change Except.ok (make n) = .ok result ↔ _
      simp [eq_comm]
  | none =>
      change Except.error _ = .ok result ↔ _
      simp

/-- A text that cannot be read is named in the fault. -/
theorem reading_map_of_none (hread : ¬ ∃ n, read = some n) :
    (reading conversion text read).map make = .error (.invalidConversion text conversion) := by
  cases read with
  | some n => exact absurd ⟨n, rfl⟩ hread
  | none => rfl

end Reading

variable (width : Width) (text : String)

theorem apply_int_str :
    (Conversion.int width).apply (.str text) =
      (reading (.int width) text (Numeral.readInt64? (Text.trim text.toList))).map
        fun n => .int (width.wrapSigned n) :=
  rfl

theorem apply_uint_str :
    (Conversion.uint width).apply (.str text) =
      (reading (.uint width) text (Numeral.readUInt64? (Text.trim text.toList))).map
        fun n => .uint (width.wrapUnsigned n) :=
  rfl

theorem apply_int_str_eq_ok_iff (result : Value) : (Conversion.int width).apply (.str text) = .ok result ↔
    ∃ n : Int64, Text.HoldsSigned text n.toInt ∧ result = .int (width.wrapSigned n) := by
  simp only [apply_int_str, reading_map_eq_ok_iff, Text.readInt64?_trim_iff]

theorem apply_uint_str_eq_ok_iff (result : Value) : (Conversion.uint width).apply (.str text) = .ok result ↔
    ∃ n : UInt64, Text.HoldsUnsigned text n.toNat ∧ result = .uint (width.wrapUnsigned n) := by
  simp only [apply_uint_str, reading_map_eq_ok_iff, Text.readUInt64?_trim_iff]

theorem apply_int_str_of_not_holds (htext : ¬ ∃ n : Int64, Text.HoldsSigned text n.toInt) :
    (Conversion.int width).apply (.str text) = .error (.invalidConversion text (.int width)) := by
  simp only [← Text.readInt64?_trim_iff] at htext
  rw [apply_int_str, reading_map_of_none _ _ _ _ htext]

theorem apply_uint_str_of_not_holds (htext : ¬ ∃ n : UInt64, Text.HoldsUnsigned text n.toNat) :
    (Conversion.uint width).apply (.str text) = .error (.invalidConversion text (.uint width)) := by
  simp only [← Text.readUInt64?_trim_iff] at htext
  rw [apply_uint_str, reading_map_of_none _ _ _ _ htext]

end Conversion

theorem Text.surrounds_append {before after : String} (hbefore : before.toList.all isBlank = true)
    (hafter : after.toList.all isBlank = true) (core : String) :
    Surrounds (before ++ core ++ after).toList core.toList :=
  ⟨before.toList, after.toList, hbefore, hafter, by rw [String.toList_append, String.toList_append]⟩

/-- Integers and texts are converted into each other. The text of an integer, with any white space around it, is
converted back to the integer. A text is converted to a signed integer of a width if it is a signed numeral in the range
of 64 bits, between white space; the result is the residue of that number. The same holds of unsigned integers and
unsigned numerals. Otherwise the conversion fails, and the fault carries the text as it is. -/
theorem integer_texts :
    (∀ (n : Int64) (before after : String), before.toList.all Text.isBlank = true →
      after.toList.all Text.isBlank = true → ∃ text, Conversion.str.apply (.int n) = .ok (.str text) ∧
        (Conversion.int .w64).apply (.str (before ++ text ++ after)) = .ok (.int n)) ∧
    (∀ (n : UInt64) (before after : String), before.toList.all Text.isBlank = true →
      after.toList.all Text.isBlank = true → ∃ text, Conversion.str.apply (.uint n) = .ok (.str text) ∧
        (Conversion.uint .w64).apply (.str (before ++ text ++ after)) = .ok (.uint n)) ∧
    ∀ (width : Width) (text : String),
      (∀ result, (Conversion.int width).apply (.str text) = .ok result ↔
        ∃ n, (Text.HoldsSigned text n ∧ ∃ r : Int64, width.SignedResidue n r.toInt ∧ result = .int r) ∧
          -2 ^ 63 ≤ n ∧ n < 2 ^ 63) ∧
      ((¬ ∃ n, Text.HoldsSigned text n ∧ -2 ^ 63 ≤ n ∧ n < 2 ^ 63) →
        (Conversion.int width).apply (.str text) = .error (.invalidConversion text (.int width))) ∧
      (∀ result, (Conversion.uint width).apply (.str text) = .ok result ↔
        ∃ n, (Text.HoldsUnsigned text n ∧ ∃ r : UInt64, width.UnsignedResidue n r.toNat ∧ result = .uint r) ∧
          n < 2 ^ 64) ∧
      ((¬ ∃ n, Text.HoldsUnsigned text n ∧ n < 2 ^ 64) →
        (Conversion.uint width).apply (.str text) = .error (.invalidConversion text (.uint width))) := by
  refine ⟨?_, ?_, fun width text => ⟨fun result => ?_, ?_, fun result => ?_, ?_⟩⟩
  · intro n before after hbefore hafter
    refine ⟨_, rfl, (Conversion.apply_int_str_eq_ok_iff _ _ _).mpr ⟨n, ?_, by rw [Width.wrapSigned_w64]⟩⟩
    exact ⟨_, Text.surrounds_append hbefore hafter _, Numeral.denotesSigned_ofInt n.toInt⟩
  · intro n before after hbefore hafter
    refine ⟨_, rfl, (Conversion.apply_uint_str_eq_ok_iff _ _ _).mpr ⟨n, ?_, by rw [Width.wrapUnsigned_w64]⟩⟩
    exact ⟨_, Text.surrounds_append hbefore hafter _, .plain (Numeral.denotes_ofNat n.toNat)⟩
  · rw [Conversion.apply_int_str_eq_ok_iff, ← exists_toInt_iff]
    simp only [← Width.wrapSigned_eq_iff, exists_eq_left']
  · rw [← exists_toInt_iff]
    exact Conversion.apply_int_str_of_not_holds width text
  · rw [Conversion.apply_uint_str_eq_ok_iff, ← exists_toNat_iff]
    simp only [← Width.wrapUnsigned_eq_iff, exists_eq_left']
  · rw [← exists_toNat_iff]
    exact Conversion.apply_uint_str_of_not_holds width text

/-- The least integer comes back from its text between blanks, one of them outside ASCII; the numeral after the greatest
integer is refused. -/
theorem integer_texts_bounds :
    (("\u2003".toList.all Text.isBlank = true ∧ "\n".toList.all Text.isBlank = true) ∧
      ∃ text, Conversion.str.apply (.int Int64.minValue) = .ok (.str text) ∧
        (Conversion.int .w64).apply (.str ("\u2003" ++ text ++ "\n")) = .ok (.int Int64.minValue)) ∧
    (¬ ∃ n, Text.HoldsSigned "9223372036854775808" n ∧ -2 ^ 63 ≤ n ∧ n < 2 ^ 63) ∧
      (Conversion.int .w8).apply (.str "9223372036854775808") =
        .error (.invalidConversion "9223372036854775808" (.int .w8)) := by
  have hrefused : ¬ ∃ n, Text.HoldsSigned "9223372036854775808" n ∧ -2 ^ 63 ≤ n ∧ n < 2 ^ 63 := by
    rw [← exists_toInt_iff]
    rintro ⟨n, hholds⟩
    have hread := Text.readInt64?_trim_iff.mpr hholds
    have hnone : Numeral.readInt64? (Text.trim "9223372036854775808".toList) = none := by decide
    exact Option.some_ne_none n (hread.symm.trans hnone)
  exact ⟨⟨⟨by decide, by decide⟩, integer_texts.1 _ _ _ (by decide) (by decide)⟩, hrefused,
    (integer_texts.2.2 .w8 _).2.1 hrefused⟩

end StackCode
