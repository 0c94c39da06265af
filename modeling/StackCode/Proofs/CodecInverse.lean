import StackCode.Proofs.AlignedCode

/-! Encoding and decoding are inverse to each other. Beside the way into bytes and back there is the way
from bytes and back: an instruction that was decoded is encoded as the very bytes that it was read from,
unless it is a float in four bytes, where several patterns of NaN are read alike. -/

namespace StackCode

theorem ofLittleEndian_lt (bytes : List UInt8) : ofLittleEndian bytes < 256 ^ bytes.length := by
  induction bytes with
  | nil => simp [ofLittleEndian]
  | cons byte rest ih =>
      have hbyte : byte.toNat < 256 := byte.toNat_lt
      rw [ofLittleEndian, List.length_cons, Nat.pow_succ]
      omega

theorem littleEndian_ofLittleEndian (bytes : List UInt8) :
    littleEndian bytes.length (ofLittleEndian bytes) = bytes := by
  induction bytes with
  | nil => rfl
  | cons byte rest ih =>
      have hbyte : byte.toNat < 256 := byte.toNat_lt
      have hlow : UInt8.ofNat (byte.toNat + 256 * ofLittleEndian rest) = byte := by
        apply UInt8.toNat_inj.mp
        simp
      have hhigh : (byte.toNat + 256 * ofLittleEndian rest) / 256 = ofLittleEndian rest := by omega
      rw [List.length_cons, ofLittleEndian, littleEndian, hlow, hhigh, ih]

/-- Only the low bytes of a number are looked at. -/
theorem littleEndian_mod (count n : Nat) : littleEndian count (n % 256 ^ count) = littleEndian count n := by
  have hagain := littleEndian_ofLittleEndian (littleEndian count n)
  rwa [length_littleEndian, ofLittleEndian_littleEndian] at hagain

/-- The two's complement of a signed integer in a width is what it was read from. -/
theorem toUInt64_ofTwosComplement {width : Width} {n : Nat} (hn : n < width.modulus) :
    (ofTwosComplement width n).toUInt64.toNat % width.modulus = n := by
  have hpattern : (ofTwosComplement width n).toUInt64.toNat =
      (((n : Int).bmod width.modulus) % (UInt64.size : Nat)).toNat :=
    BitVec.toNat_ofInt _
  have hnonneg : 0 ≤ ((n : Int).bmod width.modulus) % (UInt64.size : Nat) :=
    Int.emod_nonneg _ (by decide)
  have hdvd : (width.modulus : Int) ∣ (UInt64.size : Nat) := Int.natCast_dvd_natCast.mpr width.modulus_dvd_size
  apply Int.natCast_inj.mp
  rw [hpattern, Int.natCast_mod, Int.toNat_of_nonneg hnonneg, Int.emod_emod_of_dvd _ hdvd, Int.bmod_emod,
    ← Int.natCast_mod, Nat.mod_eq_of_lt hn]

theorem toNat_ofNat_ofLittleEndian {bytes : List UInt8} (hlength : bytes.length ≤ 8) :
    (UInt64.ofNat (ofLittleEndian bytes)).toNat = ofLittleEndian bytes := by
  have hlt := ofLittleEndian_lt bytes
  have hpow : 256 ^ bytes.length ≤ 256 ^ 8 := Nat.pow_le_pow_right (by decide) hlength
  exact UInt64.toNat_ofNat_of_lt (lt_of_lt_of_le hlt hpow)

theorem littleEndian_word {bytes : List UInt8} (hlength : bytes.length = 8) :
    littleEndian 8 (UInt64.ofNat (ofLittleEndian bytes)).toNat = bytes := by
  rw [toNat_ofNat_ofLittleEndian hlength.le, ← hlength, littleEndian_ofLittleEndian]

theorem Kind.byte_of_ofByte? {byte : UInt8} {kind : Kind} (hkind : ofByte? byte = some kind) :
    kind.byte = byte := by
  unfold ofByte? at hkind
  split at hkind <;> cases hkind <;> rfl

theorem Opcode.byte_of_ofByte? {byte : UInt8} {opcode : Opcode} (hopcode : ofByte? byte = some opcode) :
    opcode.byte = byte := by
  unfold ofByte? at hopcode
  split at hopcode <;> cases hopcode <;> rfl

theorem Opcode.byte_of_decode {offset : Nat} {byte : UInt8} {opcode : Opcode}
    (hdecode : Opcode.decode offset byte = .ok opcode) : opcode.byte = byte := by
  unfold Opcode.decode at hdecode
  split at hdecode
  · rename_i found hfound
    cases hdecode
    exact byte_of_ofByte? hfound
  · cases hdecode

theorem Opcode.layout_ne_single {opcode : Opcode} (hopcode : opcode ≠ .pushSingle) :
    opcode.layout ≠ .single := by
  cases opcode <;> simp_all [layout]

namespace Operand

/-- An operand takes the bytes that it was read from. Of a float in four bytes this does not hold. -/
theorem encode_of_decode {layout : Layout} {bytes : List UInt8} {operand : Operand}
    (hlength : bytes.length = layout.byteCount) (hlayout : layout ≠ .single)
    (hdecode : decode layout bytes = .ok operand) : operand.encode layout = bytes := by
  cases layout with
  | none =>
      cases hdecode
      exact (List.length_eq_zero_iff.mp hlength).symm
  | signed width =>
      cases hdecode
      have hlt : ofLittleEndian bytes < width.modulus := by
        rw [width.modulus_eq_pow, ← show bytes.length = width.bytes from hlength]
        exact ofLittleEndian_lt bytes
      change littleEndian width.bytes (ofTwosComplement width (ofLittleEndian bytes)).toUInt64.toNat = bytes
      rw [← littleEndian_mod, ← width.modulus_eq_pow, toUInt64_ofTwosComplement hlt,
        ← show bytes.length = width.bytes from hlength, littleEndian_ofLittleEndian]
  | unsigned width =>
      cases hdecode
      have hle : bytes.length ≤ 8 := by
        rw [hlength]
        cases width <;> decide
      change littleEndian width.bytes (UInt64.ofNat (ofLittleEndian bytes)).toNat = bytes
      rw [toNat_ofNat_ofLittleEndian hle, ← show bytes.length = width.bytes from hlength,
        littleEndian_ofLittleEndian]
  | single => exact absurd rfl hlayout
  | double =>
      cases hdecode
      exact littleEndian_word hlength
  | word =>
      cases hdecode
      exact littleEndian_word hlength
  | twoWords =>
      cases hdecode
      change bytes.length = 16 at hlength
      change littleEndian 8 _ ++ littleEndian 8 _ = bytes
      rw [littleEndian_word (by simp [hlength]), littleEndian_word (by simp [hlength]),
        List.take_append_drop]
  | wordAndKind =>
      change bytes.length = 9 at hlength
      obtain ⟨kindByte, hlast⟩ : ∃ kindByte, bytes.drop 8 = [kindByte] :=
        List.length_eq_one_iff.mp (by simp [hlength])
      simp only [decode, hlast, List.headD_cons] at hdecode
      split at hdecode
      · rename_i leaf hleaf
        cases hdecode
        change littleEndian 8 _ ++ [leaf.byte] = bytes
        rw [littleEndian_word (by simp [hlength]), Kind.byte_of_ofByte? hleaf, ← hlast,
          List.take_append_drop]
      · cases hdecode

end Operand

namespace Instruction

/-- All that a successful decoding has read. -/
theorem reads_of_decode {bytes : Array UInt8} {offset : Nat} {instruction : Instruction}
    (hdecode : decode bytes offset = .ok instruction) :
    bytes[offset]? = some instruction.opcode.byte ∧
      Operand.decode instruction.opcode.layout
        (bytes.extract (offset + 1) (offset + 1 + instruction.opcode.layout.byteCount)).toList =
          .ok instruction.operand := by
  unfold decode at hdecode
  split at hdecode
  · cases hdecode
  · rename_i byte hbyte
    split at hdecode
    · cases hdecode
    · rename_i opcode hopcode
      simp only at hdecode
      split at hdecode
      · cases hdecode
      · split at hdecode
        · rename_i operand hoperand
          cases hdecode
          rw [Opcode.byte_of_decode hopcode]
          exact ⟨hbyte, hoperand⟩
        · cases hdecode

/-- To decode an instruction, its bytes must be there, and no more is looked at. -/
theorem decode_of_reads {bytes : Array UInt8} {offset : Nat} {instruction : Instruction}
    (hend : offset + instruction.length ≤ bytes.size) (hbyte : bytes[offset]? = some instruction.opcode.byte)
    (hoperand : Operand.decode instruction.opcode.layout
      (bytes.extract (offset + 1) (offset + 1 + instruction.opcode.layout.byteCount)).toList =
        .ok instruction.operand) :
    decode bytes offset = .ok instruction := by
  have havailable : ¬ bytes.size - (offset + 1) < instruction.opcode.layout.byteCount := by
    rw [length, Opcode.encodedLength] at hend
    omega
  simp only [decode, hbyte, Opcode.decode, Opcode.ofByte?_byte, havailable, if_false, hoperand]

theorem encode_of_decode {bytes : Array UInt8} {offset : Nat} {instruction : Instruction}
    (hdecode : decode bytes offset = .ok instruction) (hopcode : instruction.opcode ≠ .pushSingle) :
    instruction.encode = (bytes.extract offset (offset + instruction.length)).toList := by
  obtain ⟨hbyte, hoperand⟩ := reads_of_decode hdecode
  have hend : offset + instruction.length ≤ bytes.size := (of_decode hdecode).1
  have hlength : instruction.length = 1 + instruction.opcode.layout.byteCount := rfl
  have hoperandBytes : instruction.operand.encode instruction.opcode.layout =
      (bytes.extract (offset + 1) (offset + 1 + instruction.opcode.layout.byteCount)).toList := by
    apply Operand.encode_of_decode _ (Opcode.layout_ne_single hopcode) hoperand
    rw [Array.length_toList, Array.size_extract]
    omega
  have hoffset : offset < bytes.toList.length := by
    rw [Array.length_toList]
    omega
  have hhead : bytes.toList[offset] = instruction.opcode.byte := by
    rw [← Array.getElem?_toList, List.getElem?_eq_getElem hoffset] at hbyte
    exact Option.some.inj hbyte
  calc instruction.encode
      = instruction.opcode.byte ::
          (bytes.extract (offset + 1) (offset + 1 + instruction.opcode.layout.byteCount)).toList := by
        rw [encode, hoperandBytes]
    _ = (bytes.toList.drop offset).take instruction.length := by
        rw [List.drop_eq_getElem_cons hoffset, hhead, hlength, Nat.add_comm 1, List.take_succ_cons,
          Array.toList_extract, List.extract_eq_take_drop, Nat.add_sub_cancel_left]
    _ = (bytes.extract offset (offset + instruction.length)).toList := by
        rw [Array.toList_extract, List.extract_eq_take_drop, Nat.add_sub_cancel_left]

theorem decode_between {instruction : Instruction} (hfits : instruction.Encodable) (front back : List UInt8) :
    decode (front ++ instruction.encode ++ back).toArray front.length = .ok instruction :=
  decode_of_split hfits rfl

end Instruction

namespace Width

/-- The first width in ascending order that will do is the least one. -/
theorem bytes_least_le (Holds : Width → Prop) [DecidablePred Holds] {width : Width} (hholds : Holds width) :
    (if Holds .w8 then w8 else if Holds .w16 then w16 else if Holds .w32 then w32 else w64).bytes ≤
      width.bytes := by
  split_ifs with hw8 hw16 hw32
  · cases width <;> decide
  · cases width with
    | w8 => exact absurd hholds hw8
    | _ => decide
  · cases width with
    | w8 => exact absurd hholds hw8
    | w16 => exact absurd hholds hw16
    | _ => decide
  · cases width with
    | w8 => exact absurd hholds hw8
    | w16 => exact absurd hholds hw16
    | w32 => exact absurd hholds hw32
    | w64 => exact Nat.le_refl 8

theorem leastSigned_le {width : Width} {n : Int64} (hholds : width.HoldsSigned n) :
    (leastSigned n).bytes ≤ width.bytes :=
  bytes_least_le (fun width => width.HoldsSigned n) hholds

theorem leastUnsigned_le {width : Width} {n : UInt64} (hholds : width.HoldsUnsigned n) :
    (leastUnsigned n).bytes ≤ width.bytes :=
  bytes_least_le (fun width => width.HoldsUnsigned n) hholds

end Width

/-- Encoding and decoding undo each other. An instruction whose operand fits is decoded as it was encoded,
whatever stands around it; what was decoded, but for a float in four bytes, is encoded as the bytes it was
read from; and a pushed number is decoded as itself, an integer from the fewest bytes that hold it. -/
theorem codec_inverse :
    (∀ (instruction : Instruction) (front back : List UInt8), instruction.Encodable →
      Instruction.decode (front ++ instruction.encode ++ back).toArray front.length = .ok instruction ∧
        instruction.encode.length = instruction.length) ∧
    (∀ (bytes : Array UInt8) (offset : Nat) (instruction : Instruction),
      Instruction.decode bytes offset = .ok instruction → instruction.opcode ≠ .pushSingle →
        offset + instruction.length ≤ bytes.size ∧
          instruction.encode = (bytes.extract offset (offset + instruction.length)).toList) ∧
    (∀ (n : Int64) (front back : List UInt8), ∃ width : Width,
      Instruction.decode (front ++ (Instruction.pushInt n).encode ++ back).toArray front.length =
          .ok ⟨.pushInt width, .int n⟩ ∧
        width.HoldsSigned n ∧ ∀ other : Width, other.HoldsSigned n → width.bytes ≤ other.bytes) ∧
    (∀ (n : UInt64) (front back : List UInt8), ∃ width : Width,
      Instruction.decode (front ++ (Instruction.pushUInt n).encode ++ back).toArray front.length =
          .ok ⟨.pushUInt width, .uint n⟩ ∧
        width.HoldsUnsigned n ∧ ∀ other : Width, other.HoldsUnsigned n → width.bytes ≤ other.bytes) ∧
    ∀ (x : Binary64) (front back : List UInt8),
      Instruction.decode (front ++ (Instruction.pushFloat x).encode ++ back).toArray front.length =
        .ok ⟨if x.FitsSingle then .pushSingle else .pushDouble, .float x⟩ := by
  refine ⟨?_, ?_, ?_, ?_, ?_⟩
  · intro instruction front back hfits
    exact ⟨Instruction.decode_between hfits front back, instruction.length_encode⟩
  · intro bytes offset instruction hdecode hopcode
    exact ⟨(Instruction.of_decode hdecode).1, Instruction.encode_of_decode hdecode hopcode⟩
  · intro n front back
    have hfits := (Instruction.straight_pushInt n).encodable
    exact ⟨.leastSigned n, Instruction.decode_between hfits front back, hfits,
      fun _ hholds => Width.leastSigned_le hholds⟩
  · intro n front back
    have hfits := (Instruction.straight_pushUInt n).encodable
    exact ⟨.leastUnsigned n, Instruction.decode_between hfits front back, hfits,
      fun _ hholds => Width.leastUnsigned_le hholds⟩
  · intro x front back
    exact Instruction.decode_between (Instruction.straight_pushFloat x).encodable front back

/-- The least signed integer of two bytes between other bytes, there and back, and a half in four bytes. -/
theorem codec_inverse_lowest :
    Instruction.decode ([0x65] ++ (⟨.pushInt .w16, .int (-32768)⟩ : Instruction).encode ++ [0x64]).toArray 1 =
        .ok ⟨.pushInt .w16, .int (-32768)⟩ ∧
      (⟨.pushInt .w16, .int (-32768)⟩ : Instruction).encode = [0x02, 0x00, 0x80] ∧
      Instruction.decode ([] ++ (⟨.pushSingle, .float ⟨0x3FE0000000000000⟩⟩ : Instruction).encode ++ []).toArray 0 =
        .ok ⟨.pushSingle, .float ⟨0x3FE0000000000000⟩⟩ := by
  have hlowest : Width.HoldsSigned .w16 (-32768) := by decide
  have hhalf : Binary64.FitsSingle ⟨0x3FE0000000000000⟩ := by decide +kernel
  have hdecode : Instruction.decode #[0x65, 0x02, 0x00, 0x80, 0x64] 1 = .ok ⟨.pushInt .w16, .int (-32768)⟩ := by
    decide +kernel
  exact ⟨(codec_inverse.1 ⟨.pushInt .w16, .int (-32768)⟩ [0x65] [0x64] hlowest).1,
    (codec_inverse.2.1 _ 1 _ hdecode (by decide)).2,
    (codec_inverse.1 ⟨.pushSingle, .float ⟨0x3FE0000000000000⟩⟩ [] [] hhalf).1⟩

end StackCode
