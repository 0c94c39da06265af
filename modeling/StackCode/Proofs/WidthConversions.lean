import StackCode.Machine.Step
import StackCode.Proofs.Codec

/-! Conversions of integers to a width. The bits of a value are shifted up and down again, after they were read with the
signedness of the result; what comes out is the residue of the number that the value stands for. So a detour over a
greater width, signed or not, changes nothing, and printing with a width shows the converted value. -/

namespace StackCode

namespace Width

theorem pow_excess_mul_pow_bits (width : Width) : 2 ^ width.excess * 2 ^ width.bits = UInt64.size := by
  cases width <;> rfl

theorem pow_bits_dvd_size (width : Width) : 2 ^ width.bits ∣ UInt64.size :=
  Dvd.intro_left _ width.pow_excess_mul_pow_bits

theorem two_dvd_pow_bits (width : Width) : 2 ∣ 2 ^ width.bits := by
  cases width <;> decide

theorem toInt_wrapSigned (width : Width) (n : Int64) :
    (width.wrapSigned n).toInt = n.toInt.bmod (2 ^ width.bits) := by
  have hshift : ((Int64.ofNat width.excess).toBitVec.smod 64).toNat = width.excess := by cases width <;> rfl
  have hsize : 2 ^ 64 = 2 ^ width.excess * 2 ^ width.bits := width.pow_excess_mul_pow_bits.symm
  have hraised : (n.toBitVec <<< width.excess).toInt =
      2 ^ width.excess * (n.toUInt64.toNat : Int).bmod (2 ^ width.bits) := by
    rw [BitVec.toInt_shiftLeft, hsize, Nat.shiftLeft_eq, Nat.mul_comm, Nat.cast_mul,
      Int.mod_bmod_mul_of_pos _ _ (Nat.two_pow_pos _) width.two_dvd_pow_bits]
    push_cast
    rfl
  calc (width.wrapSigned n).toInt
      = (n.toBitVec <<< width.excess).toInt >>> width.excess := by
        rw [wrapSigned, Int64.toInt, Int64.toBitVec_shiftRight, Int64.toBitVec_shiftLeft, BitVec.toInt_sshiftRight',
          BitVec.shiftLeft_eq', hshift]
    _ = (n.toUInt64.toNat : Int).bmod (2 ^ width.bits) := by
        rw [hraised, Int.shiftRight_eq_div_pow]
        push_cast
        exact Int.mul_ediv_cancel_left _ (by positivity)
    _ = n.toInt.bmod (2 ^ width.bits) := by
        rw [toInt_eq_bmod_toUInt64, Int.bmod_bmod_of_dvd width.pow_bits_dvd_size]

theorem toNat_wrapUnsigned (width : Width) (n : UInt64) :
    (width.wrapUnsigned n).toNat = n.toNat % 2 ^ width.bits := by
  have hshift : (UInt64.ofNat width.excess).toNat % 64 = width.excess := by cases width <;> rfl
  have hsize : 2 ^ 64 = 2 ^ width.excess * 2 ^ width.bits := width.pow_excess_mul_pow_bits.symm
  rw [wrapUnsigned, UInt64.toNat_shiftRight, UInt64.toNat_shiftLeft, hshift, hsize, Nat.shiftLeft_eq, Nat.mul_comm,
    Nat.mul_mod_mul_left, Nat.shiftRight_eq_div_pow, Nat.mul_div_cancel_left _ (Nat.two_pow_pos _)]

theorem natCast_wrapUnsigned (width : Width) (n : UInt64) :
    ((width.wrapUnsigned n).toNat : Int) = n.toNat % 2 ^ width.bits := by
  rw [toNat_wrapUnsigned, Int.natCast_mod]
  push_cast
  rfl

/-- The integers in the signed range of the width that agree with `n` in its lowest bits. -/
def SignedResidue (width : Width) (n residue : Int) : Prop :=
  -2 ^ (width.bits - 1) ≤ residue ∧ residue < 2 ^ (width.bits - 1) ∧ residue ≡ n [ZMOD 2 ^ width.bits]

/-- The integers in the unsigned range of the width that agree with `n` in its lowest bits. -/
def UnsignedResidue (width : Width) (n residue : Int) : Prop :=
  0 ≤ residue ∧ residue < 2 ^ width.bits ∧ residue ≡ n [ZMOD 2 ^ width.bits]

theorem signedResidue_iff (width : Width) (n residue : Int) :
    width.SignedResidue n residue ↔ residue = n.bmod (2 ^ width.bits) := by
  have hlower : -(((2 ^ width.bits : Nat) : Int) / 2) = -2 ^ (width.bits - 1) := by cases width <;> decide
  have hupper : (((2 ^ width.bits : Nat) : Int) + 1) / 2 = 2 ^ (width.bits - 1) := by cases width <;> decide
  rw [eq_comm, Int.bmod_eq_iff (Nat.two_pow_pos _), hlower, hupper, SignedResidue, Int.modEq_comm,
    Int.modEq_iff_dvd]
  push_cast
  rfl

theorem unsignedResidue_iff (width : Width) (n residue : Int) :
    width.UnsignedResidue n residue ↔ residue = n % 2 ^ width.bits := by
  have hpos : (0 : Int) < 2 ^ width.bits := by positivity
  constructor
  · rintro ⟨hlower, hupper, hmod⟩
    rw [← hmod.eq, Int.emod_eq_of_lt hlower hupper]
  · rintro rfl
    exact ⟨Int.emod_nonneg n hpos.ne', Int.emod_lt_of_pos n hpos, Int.mod_modEq n _⟩

/-- The signed value of the width with the lowest bits of `n`. -/
def signedValue (width : Width) (n : Int) : Value := .int (Int64.ofInt (n.bmod (2 ^ width.bits)))

/-- The unsigned value of the width with the lowest bits of `n`. -/
def unsignedValue (width : Width) (n : Int) : Value := .uint (UInt64.ofNat (n % 2 ^ width.bits).toNat)

theorem integer?_signedValue (width : Width) (n : Int) :
    (width.signedValue n).integer? = some (n.bmod (2 ^ width.bits)) := by
  obtain ⟨hlower, hupper, -⟩ := (width.signedResidue_iff n _).mpr rfl
  have hbound : (2 : Int) ^ (width.bits - 1) ≤ 2 ^ 63 := by cases width <;> decide
  have hround : (Int64.ofInt (n.bmod (2 ^ width.bits))).toInt = n.bmod (2 ^ width.bits) :=
    Int64.toInt_ofInt_of_le (by omega) (by omega)
  exact congrArg some hround

theorem integer?_unsignedValue (width : Width) (n : Int) :
    (width.unsignedValue n).integer? = some (n % 2 ^ width.bits) := by
  obtain ⟨hlower, hupper, -⟩ := (width.unsignedResidue_iff n _).mpr rfl
  have hbound : (2 : Int) ^ width.bits ≤ 2 ^ 64 := by cases width <;> decide
  have hround : (UInt64.ofNat (n % 2 ^ width.bits).toNat).toNat = (n % 2 ^ width.bits).toNat :=
    UInt64.toNat_ofNat_of_lt ((Int.toNat_lt hlower).mpr (hupper.trans_le hbound))
  have hinteger : ((UInt64.ofNat (n % 2 ^ width.bits).toNat).toNat : Int) = n % 2 ^ width.bits := by
    rw [hround, Int.toNat_of_nonneg hlower]
  exact congrArg some hinteger

end Width

namespace Value

variable {value : Value} {n : Int}

theorem exists_signedPattern? (hinteger : value.integer? = some n) :
    ∃ bits, value.signedPattern? = some bits ∧ bits.toInt = n.bmod UInt64.size := by
  cases value with
  | int m =>
      cases hinteger
      exact ⟨m, rfl, m.toInt_bmod.symm⟩
  | uint m =>
      cases hinteger
      exact ⟨m.toInt64, rfl, toInt_eq_bmod_toUInt64 m.toInt64⟩
  | float | str | array => cases hinteger

theorem exists_unsignedPattern? (hinteger : value.integer? = some n) :
    ∃ bits, value.unsignedPattern? = some bits ∧ (bits.toNat : Int) = n % UInt64.size := by
  cases value with
  | int m =>
      cases hinteger
      refine ⟨m.toUInt64, rfl, ?_⟩
      have hlt : (m.toUInt64.toNat : Int) < UInt64.size := by exact_mod_cast m.toUInt64.toNat_lt
      rw [toInt_eq_bmod_toUInt64, Int.bmod_emod, Int.emod_eq_of_lt (Int.natCast_nonneg _) hlt]
  | uint m =>
      cases hinteger
      have hlt : (m.toNat : Int) < UInt64.size := by exact_mod_cast m.toNat_lt
      exact ⟨m, rfl, (Int.emod_eq_of_lt (Int.natCast_nonneg _) hlt).symm⟩
  | float | str | array => cases hinteger

end Value

namespace Width

variable {n : Int}

theorem wrapSigned_eq_signedValue {width : Width} {bits : Int64} (hbits : bits.toInt = n.bmod UInt64.size) :
    .int (width.wrapSigned bits) = width.signedValue n := by
  rw [signedValue, ← Int.bmod_bmod_of_dvd width.pow_bits_dvd_size, ← hbits, ← toInt_wrapSigned, Int64.ofInt_toInt]

theorem wrapUnsigned_eq_unsignedValue {width : Width} {bits : UInt64} (hbits : (bits.toNat : Int) = n % UInt64.size) :
    .uint (width.wrapUnsigned bits) = width.unsignedValue n := by
  have hdvd : (2 ^ width.bits : Int) ∣ UInt64.size := by exact_mod_cast width.pow_bits_dvd_size
  have hwrapped : ((width.wrapUnsigned bits).toNat : Int) = n % 2 ^ width.bits := by
    rw [natCast_wrapUnsigned, hbits, Int.emod_emod_of_dvd n hdvd]
  rw [unsignedValue, ← hwrapped, Int.toNat_natCast, UInt64.ofNat_toNat]

end Width

/-- Printing takes the value from the stack and writes the bytes of the text, and nothing else. If the sink has no room
for all of them, it writes the first ones, as many as there is room for, and fails. -/
structure PrintForm.Prints (form : PrintForm) (value : Value) (text : String) : Prop where
  whole : ∀ limits rest (console : Console), console.Takes text →
    (Builtin.print form).perform limits (value :: rest) console =
      (.ok rest, { console with written := console.written ++ text.toUTF8.data })
  part : ∀ limits rest (console : Console) capacity, console.capacity = some capacity →
    capacity - console.written.size < text.toUTF8.data.size →
    (Builtin.print form).perform limits (value :: rest) console =
      (.error (.console .sinkFull),
        { console with written := console.written ++ text.toUTF8.data.extract 0 (capacity - console.written.size) })

theorem PrintForm.prints_of_text {form : PrintForm} {value : Value} {text : String}
    (htext : form.text value = .ok text) : form.Prints value text where
  whole limits rest console htakes := by
    simp only [Builtin.perform, htext, Console.write_of_takes htakes]
  part limits rest console capacity hcapacity hfull := by
    simp only [Builtin.perform, htext, Console.write_of_full hcapacity hfull]

section Integers

variable {value : Value} {n : Int}

theorem Conversion.apply_int (hinteger : value.integer? = some n) (width : Width) :
    (Conversion.int width).apply value = .ok (width.signedValue n) := by
  obtain ⟨bits, hbits, hresidue⟩ := value.exists_signedPattern? hinteger
  rw [← Width.wrapSigned_eq_signedValue hresidue]
  cases value with
  | int | uint =>
      cases hbits
      rfl
  | float | str | array => cases hbits

theorem Conversion.apply_uint (hinteger : value.integer? = some n) (width : Width) :
    (Conversion.uint width).apply value = .ok (width.unsignedValue n) := by
  obtain ⟨bits, hbits, hresidue⟩ := value.exists_unsignedPattern? hinteger
  rw [← Width.wrapUnsigned_eq_unsignedValue hresidue]
  cases value with
  | int | uint =>
      cases hbits
      rfl
  | float | str | array => cases hbits

theorem PrintForm.prints_int (hinteger : value.integer? = some n) (width : Width) :
    (PrintForm.int width).Prints value (width.signedValue n).text := by
  obtain ⟨bits, hbits, hresidue⟩ := value.exists_signedPattern? hinteger
  apply prints_of_text
  rw [← Width.wrapSigned_eq_signedValue hresidue]
  simp only [text, hbits, Value.text]

theorem PrintForm.prints_uint (hinteger : value.integer? = some n) (width : Width) :
    (PrintForm.uint width).Prints value (width.unsignedValue n).text := by
  obtain ⟨bits, hbits, hresidue⟩ := value.exists_unsignedPattern? hinteger
  apply prints_of_text
  rw [← Width.wrapUnsigned_eq_unsignedValue hresidue]
  simp only [text, hbits, Value.text]

/-- A number that agrees with `n` in the lowest bits is converted alike. -/
theorem Conversion.apply_congr {other : Value} {m : Int} {width : Width} (hinteger : value.integer? = some n)
    (hother : other.integer? = some m) (hmod : m ≡ n [ZMOD 2 ^ width.bits]) {conversion : Conversion}
    (hconversion : conversion ∈ [Conversion.int width, .uint width]) :
    conversion.apply other = conversion.apply value := by
  have hunsigned : m % 2 ^ width.bits = n % 2 ^ width.bits := hmod
  have hsigned : m.bmod (2 ^ width.bits) = n.bmod (2 ^ width.bits) := by
    refine ((width.signedResidue_iff n _).mp ?_)
    obtain ⟨hlower, hupper, hresidue⟩ := (width.signedResidue_iff m _).mpr rfl
    exact ⟨hlower, hupper, hresidue.trans hmod⟩
  rcases List.mem_pair.mp hconversion with rfl | rfl
  · rw [apply_int hother, apply_int hinteger, Width.signedValue, hsigned, Width.signedValue]
  · rw [apply_uint hother, apply_uint hinteger, Width.unsignedValue, hunsigned, Width.unsignedValue]

/-- What a conversion to a width makes of an integer agrees with it in the lowest bits of that width. -/
theorem Conversion.exists_residue {width : Width} (hinteger : value.integer? = some n) {conversion : Conversion}
    (hconversion : conversion ∈ [Conversion.int width, .uint width]) :
    ∃ result m, conversion.apply value = .ok result ∧ result.integer? = some m ∧ m ≡ n [ZMOD 2 ^ width.bits] := by
  rcases List.mem_pair.mp hconversion with rfl | rfl
  · exact ⟨_, _, apply_int hinteger width, width.integer?_signedValue n, ((width.signedResidue_iff n _).mpr rfl).2.2⟩
  · exact ⟨_, _, apply_uint hinteger width, width.integer?_unsignedValue n,
      ((width.unsignedResidue_iff n _).mpr rfl).2.2⟩

end Integers

/-- Conversions to a width are the modular ones. Of an integer they give the only residue in the range of the width;
converting to a greater width first, signed or not, makes no difference, and printing with the width writes the text of
the converted value and nothing else. -/
theorem width_conversions {value : Value} {n : Int} (hinteger : value.integer? = some n) (width : Width) :
    (∃ r : Int64, (Conversion.int width).apply value = .ok (.int r) ∧
      ∀ k, width.SignedResidue n k ↔ k = r.toInt) ∧
    (∃ r : UInt64, (Conversion.uint width).apply value = .ok (.uint r) ∧
      ∀ k, width.UnsignedResidue n k ↔ k = r.toNat) ∧
    (∀ wider : Width, width.bits ≤ wider.bits → ∀ first ∈ [Conversion.int wider, .uint wider],
      ∀ last ∈ [Conversion.int width, .uint width], (first.apply value >>= last.apply) = last.apply value) ∧
    (∃ r text, (Conversion.int width).apply value = .ok r ∧ Conversion.str.apply r = .ok (.str text) ∧
      (PrintForm.int width).Prints value text) ∧
    ∃ r text, (Conversion.uint width).apply value = .ok r ∧ Conversion.str.apply r = .ok (.str text) ∧
      (PrintForm.uint width).Prints value text := by
  have hsigned := Conversion.apply_int hinteger width
  have hunsigned := Conversion.apply_uint hinteger width
  refine ⟨⟨_, hsigned, fun k => ?_⟩, ⟨_, hunsigned, fun k => ?_⟩, ?_, ?_, ?_⟩
  · rw [width.signedResidue_iff, Option.some.inj (width.integer?_signedValue n)]
  · rw [width.unsignedResidue_iff, Option.some.inj (width.integer?_unsignedValue n)]
  · intro wider hwider first hfirst last hlast
    obtain ⟨between, m, hbetween, hm, hmod⟩ := Conversion.exists_residue hinteger hfirst
    rw [hbetween]
    exact Conversion.apply_congr hinteger hm (hmod.of_dvd (pow_dvd_pow 2 hwider)) hlast
  · exact ⟨_, _, hsigned, rfl, PrintForm.prints_int hinteger width⟩
  · exact ⟨_, _, hunsigned, rfl, PrintForm.prints_uint hinteger width⟩

/-- An unsigned value above the signed range whose lowest byte is that of the least signed byte. -/
def highValue : Value := .uint 0xFFFFFFFFFFFFFF80

theorem width_conversions_highValue :
    highValue.integer? = some 18446744073709551488 ∧ Width.SignedResidue .w8 18446744073709551488 (-128) ∧
      ((Conversion.uint .w32).apply highValue >>= (Conversion.int .w8).apply) = .ok (.int (-128)) ∧
      (Builtin.print (.int .w8)).perform .default [highValue] ⟨[], #[62], none⟩ =
        (.ok [], ⟨[], #[62, 45, 49, 50, 56], none⟩) ∧
      (Builtin.print (.int .w8)).perform .default [highValue] ⟨[], #[62], some 3⟩ =
        (.error (.console .sinkFull), ⟨[], #[62, 45, 49], some 3⟩) := by
  have hinteger : highValue.integer? = some 18446744073709551488 := rfl
  have hdirect : (Conversion.int .w8).apply highValue = .ok (.int (-128)) := by decide +kernel
  obtain ⟨⟨r, hr, hresidue⟩, -, hdetour, ⟨shown, text, hshown, htext, hprints⟩, -⟩ := width_conversions hinteger .w8
  rw [hdirect] at hr hshown
  cases hr
  cases hshown
  cases htext
  have hbytes : (Value.int (-128)).text.toUTF8.data = #[45, 49, 50, 56] := by decide +kernel
  refine ⟨hinteger, (hresidue _).mpr rfl, ?_, ?_, ?_⟩
  · rw [hdetour .w32 (by decide) _ (by simp) _ List.mem_cons_self, hdirect]
  · rw [hprints.whole .default [] ⟨[], #[62], none⟩ (fun _ hcapacity => by cases hcapacity), hbytes]
    rfl
  · rw [hprints.part .default [] ⟨[], #[62], some 3⟩ 3 rfl (by rw [hbytes]; decide), hbytes]
    rfl

end StackCode
