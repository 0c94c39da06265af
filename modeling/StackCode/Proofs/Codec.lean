import Mathlib
import StackCode.Stream

/-! Instructions survive the way into bytes and back. An operand that has the shape of its opcode's layout
and fits the layout's width is decoded as it was encoded, wherever the bytes stand, and any other operand is
read back as what is left of it; whatever decodes has the shape of its layout and lies within the stream. -/

namespace StackCode

theorem ofLittleEndian_littleEndian (count n : Nat) :
    ofLittleEndian (littleEndian count n) = n % 256 ^ count := by
  induction count generalizing n with
  | zero => simp [littleEndian, ofLittleEndian, Nat.mod_one]
  | succ count ih =>
      rw [littleEndian, ofLittleEndian, ih, Nat.pow_succ', Nat.mod_mul]
      simp

theorem Width.modulus_eq_pow (width : Width) : width.modulus = 256 ^ width.bytes := by
  cases width <;> rfl

theorem Width.modulus_dvd_size (width : Width) : width.modulus ∣ UInt64.size := by
  cases width <;> decide

theorem toInt_eq_bmod_toUInt64 (n : Int64) :
    n.toInt = (n.toUInt64.toNat : Int).bmod UInt64.size :=
  BitVec.toInt_eq_toNat_bmod n.toBitVec

theorem ofTwosComplement_of_holds {width : Width} {n : Int64} (hholds : width.HoldsSigned n) :
    ofTwosComplement width (n.toUInt64.toNat % width.modulus) = n := by
  obtain ⟨hlower, hupper⟩ := hholds
  have hmiddle : ((width.modulus / 2 : Nat) : Int) = (width.modulus : Int) / 2 ∧
      ((width.modulus : Int) + 1) / 2 = (width.modulus : Int) / 2 := by
    cases width <;> decide
  have hround : ((n.toUInt64.toNat % width.modulus : Nat) : Int).bmod width.modulus = n.toInt := by
    rw [Int.natCast_mod, Int.emod_bmod, ← Int.bmod_bmod_of_dvd width.modulus_dvd_size,
      ← toInt_eq_bmod_toUInt64]
    apply Int.bmod_eq_of_le
    · rw [← hmiddle.1]
      exact hlower
    · rw [hmiddle.2, ← hmiddle.1]
      exact hupper
  rw [ofTwosComplement, hround, Int64.ofInt_toInt]

theorem ofNat_mod_of_holds {width : Width} {n : UInt64} (hholds : width.HoldsUnsigned n) :
    UInt64.ofNat (n.toNat % width.modulus) = n := by
  rw [Nat.mod_eq_of_lt hholds, UInt64.ofNat_toNat]

theorem ofNat_ofLittleEndian_word (n : UInt64) :
    UInt64.ofNat (ofLittleEndian (littleEndian 8 n.toNat)) = n := by
  rw [ofLittleEndian_littleEndian]
  exact @ofNat_mod_of_holds .w64 n n.toNat_lt

theorem ofNat_ofLittleEndian_single (n : UInt32) :
    UInt32.ofNat (ofLittleEndian (littleEndian 4 n.toNat)) = n := by
  rw [ofLittleEndian_littleEndian, Nat.mod_eq_of_lt (show n.toNat < 256 ^ 4 from n.toNat_lt),
    UInt32.ofNat_toNat]

namespace Operand

/-- The operand has the parts that a layout calls for. -/
def HasShape : Layout → Operand → Prop
  | .none, .none => True
  | .signed _, .int _ => True
  | .unsigned _, .uint _ => True
  | .single, .float _ => True
  | .double, .float _ => True
  | .word, .word _ => True
  | .twoWords, .element _ _ => True
  | .wordAndKind, .fill _ _ => True
  | _, _ => False

/-- No part of the operand is cut by the width that a layout gives it. -/
def Fits : Layout → Operand → Prop
  | .signed width, .int n => width.HoldsSigned n
  | .unsigned width, .uint n => width.HoldsUnsigned n
  | .single, .float x => x.FitsSingle
  | layout, operand => HasShape layout operand

theorem decode_encode {layout : Layout} {operand : Operand} (hfits : Fits layout operand) :
    decode layout (operand.encode layout) = .ok operand := by
  cases layout with
  | none => cases operand <;> first | rfl | exact hfits.elim
  | signed width =>
      cases operand with
      | int n =>
          simp only [decode, encode, pattern, ofLittleEndian_littleEndian, ← width.modulus_eq_pow]
          rw [ofTwosComplement_of_holds hfits]
      | _ => exact hfits.elim
  | unsigned width =>
      cases operand with
      | uint n =>
          simp only [decode, encode, pattern, ofLittleEndian_littleEndian, ← width.modulus_eq_pow]
          rw [ofNat_mod_of_holds hfits]
      | _ => exact hfits.elim
  | single =>
      cases operand with
      | float x =>
          simp only [decode, encode, singlePattern, ofNat_ofLittleEndian_single]
          rw [show Binary64.widen x.narrow = x from hfits]
      | _ => exact hfits.elim
  | double =>
      cases operand with
      | float x => simp only [decode, encode, pattern, ofNat_ofLittleEndian_word]
      | _ => exact hfits.elim
  | word =>
      cases operand with
      | word n => simp only [decode, encode, pattern, ofNat_ofLittleEndian_word]
      | _ => exact hfits.elim
  | twoWords =>
      cases operand with
      | element id depth =>
          simp only [decode, encode]
          rw [List.take_left' (length_littleEndian 8 _), List.drop_left' (length_littleEndian 8 _),
            ofNat_ofLittleEndian_word, ofNat_ofLittleEndian_word]
      | _ => exact hfits.elim
  | wordAndKind =>
      cases operand with
      | fill dims leaf =>
          simp only [decode, encode]
          rw [List.take_left' (length_littleEndian 8 _), List.drop_left' (length_littleEndian 8 _),
            ofNat_ofLittleEndian_word]
          simp only [List.headD_cons, Kind.ofByte?_byte]
      | _ => exact hfits.elim

/-- What is read back of an operand: the operand itself if it fits, otherwise what the layout has left of
it. -/
def reread (layout : Layout) (operand : Operand) : Operand :=
  (decode layout (operand.encode layout)).toOption.getD operand

/-- Whatever is written into a layout can be read back; a missing kind was filled in. -/
theorem decode_encode_eq_reread (layout : Layout) (operand : Operand) :
    decode layout (operand.encode layout) = .ok (operand.reread layout) := by
  have hsome : ∃ found, decode layout (operand.encode layout) = .ok found := by
    cases layout with
    | wordAndKind =>
        obtain ⟨word, leaf, hbytes⟩ : ∃ word leaf,
            operand.encode .wordAndKind = littleEndian 8 word ++ [Kind.byte leaf] := by
          cases operand <;> exact ⟨_, _, rfl⟩
        refine ⟨.fill (UInt64.ofNat (ofLittleEndian (littleEndian 8 word))) leaf, ?_⟩
        rw [hbytes, decode, List.take_left' (length_littleEndian 8 word),
          List.drop_left' (length_littleEndian 8 word)]
        simp only [List.headD_cons, Kind.ofByte?_byte]
    | _ => exact ⟨_, rfl⟩
  obtain ⟨found, hfound⟩ := hsome
  rw [reread, hfound]
  rfl

theorem hasShape_of_decode {layout : Layout} {bytes : List UInt8} {operand : Operand}
    (hdecode : decode layout bytes = .ok operand) : HasShape layout operand := by
  cases layout with
  | wordAndKind =>
      simp only [decode] at hdecode
      split at hdecode
      · cases hdecode
        trivial
      · cases hdecode
  | _ =>
      cases hdecode
      trivial

end Operand

namespace Instruction

/-- The operand has the shape that the opcode calls for. -/
def WellShaped (instruction : Instruction) : Prop :=
  instruction.operand.HasShape instruction.opcode.layout

/-- Encoding loses nothing of the instruction. -/
def Encodable (instruction : Instruction) : Prop :=
  instruction.operand.Fits instruction.opcode.layout

theorem one_le_length (instruction : Instruction) : 1 ≤ instruction.length :=
  Nat.le_add_right 1 _

/-- What is read back of an instruction. -/
def reread (instruction : Instruction) : Instruction :=
  ⟨instruction.opcode, instruction.operand.reread instruction.opcode.layout⟩

@[simp] theorem opcode_reread (instruction : Instruction) : instruction.reread.opcode = instruction.opcode := rfl

@[simp] theorem length_reread (instruction : Instruction) : instruction.reread.length = instruction.length := rfl

theorem reread_of_encodable {instruction : Instruction} (hfits : instruction.Encodable) :
    instruction.reread = instruction := by
  have hread := Operand.decode_encode_eq_reread instruction.opcode.layout instruction.operand
  rw [Operand.decode_encode hfits] at hread
  rw [reread, ← Except.ok.inj hread]

theorem decode_of_split_eq_reread {bytes : Array UInt8} {front back : List UInt8} {instruction : Instruction}
    (hbytes : bytes.toList = front ++ instruction.encode ++ back) :
    decode bytes front.length = .ok instruction.reread := by
  have hsize : bytes.size = front.length + instruction.length + back.length := by
    rw [← Array.length_toList, hbytes]
    simp [Nat.add_assoc]
  have hopcode : bytes[front.length]? = some instruction.opcode.byte := by
    rw [← Array.getElem?_toList, hbytes]
    simp [encode]
  have hoperand : (bytes.extract (front.length + 1)
      (front.length + 1 + instruction.opcode.layout.byteCount)).toList =
        instruction.operand.encode instruction.opcode.layout := by
    rw [Array.toList_extract, hbytes, List.extract_eq_take_drop, List.append_assoc,
      ← List.drop_drop, List.drop_left, encode, List.cons_append, List.drop_one, List.tail_cons]
    apply List.take_left'
    simp
  have havailable : ¬ bytes.size - (front.length + 1) < instruction.opcode.layout.byteCount := by
    rw [hsize, length, Opcode.encodedLength]
    omega
  simp only [decode, hopcode, Opcode.decode, Opcode.ofByte?_byte, havailable, if_false, hoperand,
    Operand.decode_encode_eq_reread, reread]

theorem decode_of_split {bytes : Array UInt8} {front back : List UInt8} {instruction : Instruction}
    (hfits : instruction.Encodable) (hbytes : bytes.toList = front ++ instruction.encode ++ back) :
    decode bytes front.length = .ok instruction := by
  rw [decode_of_split_eq_reread hbytes, reread_of_encodable hfits]

/-- What a successful decoding tells: where the instruction ends, and the shape of its operand. -/
theorem of_decode {bytes : Array UInt8} {offset : Nat} {instruction : Instruction}
    (hdecode : decode bytes offset = .ok instruction) :
    offset + instruction.length ≤ bytes.size ∧ instruction.WellShaped := by
  unfold decode at hdecode
  split at hdecode
  · cases hdecode
  · rename_i byte hbyte
    have hoffset : offset < bytes.size := (Array.getElem?_eq_some_iff.mp hbyte).1
    split at hdecode
    · cases hdecode
    · rename_i opcode hopcode
      simp only at hdecode
      split at hdecode
      · cases hdecode
      · rename_i havailable
        split at hdecode
        · rename_i operand hoperand
          cases hdecode
          refine ⟨?_, Operand.hasShape_of_decode hoperand⟩
          simp only [length, Opcode.encodedLength]
          omega
        · cases hdecode

end Instruction
end StackCode
