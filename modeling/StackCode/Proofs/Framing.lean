import StackCode.Proofs.Codec

/-! Instruction boundaries. A scan from the start of a stream passes through its boundaries one instruction
at a time; the jump check accepts a stream if the scan comes to its end and every jump on the way leads to
a boundary. -/

namespace StackCode
namespace Stream

/-- A scan that starts at one offset comes to another. -/
inductive Reaches (code : Stream) : Nat → Nat → Prop where
  | refl (offset : Nat) : Reaches code offset offset
  | step {offset target : Nat} {instruction : Instruction}
      (hdecode : code.decodeAt offset = .ok instruction)
      (hrest : Reaches code (offset + instruction.length) target) : Reaches code offset target

def Boundary (code : Stream) (offset : Nat) : Prop := code.Reaches 0 offset

theorem le_size_of_decodeAt {code : Stream} {offset : Nat} {instruction : Instruction}
    (hdecode : code.decodeAt offset = .ok instruction) : offset + instruction.length ≤ code.size :=
  (Instruction.of_decode hdecode).1

theorem lt_size_of_decodeAt {code : Stream} {offset : Nat} {instruction : Instruction}
    (hdecode : code.decodeAt offset = .ok instruction) : offset < code.size := by
  have hend := le_size_of_decodeAt hdecode
  have hlength := instruction.one_le_length
  omega

theorem Reaches.next {code : Stream} {start offset : Nat} {instruction : Instruction}
    (hreaches : code.Reaches start offset) (hdecode : code.decodeAt offset = .ok instruction) :
    code.Reaches start (offset + instruction.length) := by
  induction hreaches with
  | refl offset => exact .step hdecode (.refl _)
  | step hfirst _ ih => exact .step hfirst (ih hdecode)

theorem Reaches.le {code : Stream} {start offset : Nat} (hreaches : code.Reaches start offset) :
    start ≤ offset := by
  induction hreaches with
  | refl offset => exact Nat.le_refl offset
  | step _ _ ih => omega

theorem Reaches.le_size {code : Stream} {start offset : Nat} (hreaches : code.Reaches start offset)
    (hstart : start ≤ code.size) : offset ≤ code.size := by
  induction hreaches with
  | refl offset => exact hstart
  | step hdecode _ ih => exact ih (le_size_of_decodeAt hdecode)

theorem boundary_zero (code : Stream) : code.Boundary 0 := .refl 0

theorem Boundary.le_size {code : Stream} {offset : Nat} (hboundary : code.Boundary offset) :
    offset ≤ code.size :=
  Reaches.le_size hboundary (Nat.zero_le _)

theorem scanFrom_of_size_le {code : Stream} {offset : Nat} (hend : code.size ≤ offset) (count : Nat) :
    code.scanFrom offset count = ⟨[], none⟩ := by
  cases count with
  | zero => rfl
  | succ count => rw [scanFrom, if_pos hend]

theorem scanFrom_of_decodeAt {code : Stream} {offset count : Nat} {instruction : Instruction}
    (hdecode : code.decodeAt offset = .ok instruction) :
    code.scanFrom offset (count + 1) =
      ⟨(offset, instruction) :: (code.scanFrom (offset + instruction.length) count).instructions,
        (code.scanFrom (offset + instruction.length) count).failure⟩ := by
  have hoffset := lt_size_of_decodeAt hdecode
  rw [scanFrom, if_neg (by omega), hdecode]

theorem scanFrom_of_error {code : Stream} {offset count : Nat} {error : DecodeError}
    (hoffset : offset < code.size) (hdecode : code.decodeAt offset = .error error) :
    code.scanFrom offset (count + 1) = ⟨[], some error⟩ := by
  rw [scanFrom, if_neg (by omega), hdecode]

theorem Reaches.not_decodes {code : Stream} {start offset : Nat} (hreaches : code.Reaches start offset)
    (hend : code.size ≤ start) (instruction : Instruction) :
    code.decodeAt offset ≠ .ok instruction := by
  intro hdecode
  have hoffset := lt_size_of_decodeAt hdecode
  have hstart := hreaches.le
  omega

/-- From an offset that holds an instruction, a scan goes on behind that instruction only. -/
theorem reaches_iff_of_decodeAt {code : Stream} {start offset : Nat} {first : Instruction}
    (hfirst : code.decodeAt start = .ok first) :
    code.Reaches start offset ↔ offset = start ∨ code.Reaches (start + first.length) offset := by
  constructor
  · intro hreaches
    cases hreaches with
    | refl => exact Or.inl rfl
    | step hstep hrest =>
        rw [hfirst] at hstep
        cases hstep
        exact Or.inr hrest
  · rintro (rfl | hrest)
    · exact .refl _
    · exact .step hfirst hrest

theorem reaches_iff_of_error {code : Stream} {start offset : Nat} {error : DecodeError}
    (hfirst : code.decodeAt start = .error error) : code.Reaches start offset ↔ offset = start := by
  constructor
  · intro hreaches
    cases hreaches with
    | refl => rfl
    | step hstep _ =>
        rw [hfirst] at hstep
        cases hstep
  · rintro rfl
    exact .refl _

theorem mem_scanFrom_of_size_le {code : Stream} {start : Nat} (hend : code.size ≤ start) (count : Nat)
    {offset : Nat} {instruction : Instruction} :
    (offset, instruction) ∈ (code.scanFrom start count).instructions ↔
      code.Reaches start offset ∧ code.decodeAt offset = .ok instruction := by
  rw [scanFrom_of_size_le hend]
  constructor
  · intro hmem
    cases hmem
  · rintro ⟨hreaches, hdecode⟩
    exact absurd hdecode (hreaches.not_decodes hend instruction)

/-- A scan lists the instructions at the offsets that it comes to. -/
theorem mem_scanFrom {code : Stream} {count start : Nat} (hcount : code.size ≤ start + count)
    {offset : Nat} {instruction : Instruction} :
    (offset, instruction) ∈ (code.scanFrom start count).instructions ↔
      code.Reaches start offset ∧ code.decodeAt offset = .ok instruction := by
  induction count generalizing start with
  | zero => exact mem_scanFrom_of_size_le hcount 0
  | succ count ih =>
      by_cases hend : code.size ≤ start
      · exact mem_scanFrom_of_size_le hend (count + 1)
      cases hfirst : code.decodeAt start with
      | error error =>
          rw [scanFrom_of_error (by omega) hfirst, reaches_iff_of_error hfirst]
          constructor
          · intro hmem
            cases hmem
          · rintro ⟨rfl, hdecode⟩
            rw [hfirst] at hdecode
            cases hdecode
      | ok first =>
          have hlength := first.one_le_length
          rw [scanFrom_of_decodeAt hfirst, List.mem_cons, ih (by omega), reaches_iff_of_decodeAt hfirst,
            Prod.mk.injEq]
          constructor
          · rintro (⟨rfl, rfl⟩ | ⟨hreaches, hdecode⟩)
            · exact ⟨Or.inl rfl, hfirst⟩
            · exact ⟨Or.inr hreaches, hdecode⟩
          · rintro ⟨rfl | hreaches, hdecode⟩
            · rw [hfirst] at hdecode
              cases hdecode
              exact Or.inl ⟨rfl, rfl⟩
            · exact Or.inr ⟨hreaches, hdecode⟩

/-- Every offset that a scan comes to before the end of the stream holds an instruction. -/
def DecodesFrom (code : Stream) (start : Nat) : Prop :=
  ∀ offset, code.Reaches start offset → offset < code.size →
    ∃ instruction, code.decodeAt offset = .ok instruction

theorem decodesFrom_of_size_le {code : Stream} {start : Nat} (hend : code.size ≤ start) :
    code.DecodesFrom start := by
  intro offset hreaches hoffset
  have hstart := hreaches.le
  omega

theorem failure_scanFrom_eq_none_iff {code : Stream} {count start : Nat}
    (hcount : code.size ≤ start + count) :
    (code.scanFrom start count).failure = none ↔ code.DecodesFrom start := by
  induction count generalizing start with
  | zero =>
      rw [scanFrom_of_size_le (show code.size ≤ start from hcount)]
      exact iff_of_true rfl (decodesFrom_of_size_le hcount)
  | succ count ih =>
      by_cases hend : code.size ≤ start
      · rw [scanFrom_of_size_le hend]
        exact iff_of_true rfl (decodesFrom_of_size_le hend)
      cases hfirst : code.decodeAt start with
      | error error =>
          rw [scanFrom_of_error (by omega) hfirst]
          refine iff_of_false (by simp) fun hall => ?_
          obtain ⟨instruction, hdecode⟩ := hall start (.refl start) (by omega)
          rw [hfirst] at hdecode
          cases hdecode
      | ok first =>
          have hlength := first.one_le_length
          rw [scanFrom_of_decodeAt hfirst, ih (by omega)]
          constructor
          · intro hall offset hreaches hoffset
            rcases (reaches_iff_of_decodeAt hfirst).mp hreaches with rfl | hrest
            · exact ⟨first, hfirst⟩
            · exact hall offset hrest hoffset
          · intro hall offset hreaches hoffset
            exact hall offset (.step hfirst hreaches) hoffset

/-- The stream decodes from its start to its end. -/
def Decodes (code : Stream) : Prop := code.DecodesFrom 0

/-- Every jump that a scan passes leads to a boundary. -/
def JumpsAligned (code : Stream) : Prop :=
  ∀ offset instruction, code.Boundary offset → code.decodeAt offset = .ok instruction →
    instruction.opcode.isJump = true →
      ∃ target, instruction.jumpTarget? offset = some target ∧ code.Boundary target

theorem boundary_size_of_reaches {code : Stream} (hdecodes : code.Decodes) (remaining : Nat) {offset : Nat}
    (hboundary : code.Boundary offset) (hremaining : code.size ≤ offset + remaining) :
    code.Boundary code.size := by
  induction remaining generalizing offset with
  | zero =>
      have hle := hboundary.le_size
      rwa [show offset = code.size by omega] at hboundary
  | succ remaining ih =>
      by_cases hend : code.size ≤ offset
      · have hle := hboundary.le_size
        rwa [show offset = code.size by omega] at hboundary
      · obtain ⟨instruction, hdecode⟩ := hdecodes offset hboundary (by omega)
        have hlength := instruction.one_le_length
        exact ih (Reaches.next hboundary hdecode) (by omega)

theorem Decodes.boundary_size {code : Stream} (hdecodes : code.Decodes) : code.Boundary code.size :=
  boundary_size_of_reaches hdecodes code.size code.boundary_zero (by omega)

theorem instructions_eq_ok_iff {code : Stream} {list : List (Nat × Instruction)} :
    code.instructions = .ok list ↔ code.Decodes ∧ code.scan.instructions = list := by
  have hiff : code.scan.failure = none ↔ code.Decodes := failure_scanFrom_eq_none_iff (by omega)
  unfold instructions
  cases hfailure : code.scan.failure with
  | none =>
      have hdecodes := hiff.mp hfailure
      simp [hdecodes]
  | some error =>
      have hdecodes : ¬ code.Decodes := fun h => by
        rw [hiff.mpr h] at hfailure
        cases hfailure
      simp [hdecodes]

theorem mem_scan {code : Stream} {offset : Nat} {instruction : Instruction} :
    (offset, instruction) ∈ code.scan.instructions ↔
      code.Boundary offset ∧ code.decodeAt offset = .ok instruction :=
  mem_scanFrom (by omega)

theorem mem_boundaries_iff {code : Stream} (hdecodes : code.Decodes) {offset : Nat} :
    offset ∈ code.scan.instructions.map (·.1) ++ [code.size] ↔ code.Boundary offset := by
  rw [List.mem_append, List.mem_singleton, List.mem_map]
  constructor
  · rintro (⟨⟨start, instruction⟩, hmem, rfl⟩ | rfl)
    · exact (mem_scan.mp hmem).1
    · exact hdecodes.boundary_size
  · intro hboundary
    by_cases hend : offset < code.size
    · obtain ⟨instruction, hdecode⟩ := hdecodes offset hboundary hend
      exact Or.inl ⟨(offset, instruction), mem_scan.mpr ⟨hboundary, hdecode⟩, rfl⟩
    · have hle := hboundary.le_size
      exact Or.inr (by omega)

theorem boundaries_eq_ok_iff {code : Stream} {list : List Nat} :
    code.boundaries = .ok list ↔
      code.Decodes ∧ code.scan.instructions.map (·.1) ++ [code.size] = list := by
  unfold boundaries
  cases hinstructions : code.instructions with
  | ok found =>
      obtain ⟨hdecodes, hfound⟩ := instructions_eq_ok_iff.mp hinstructions
      simp [Except.map, hdecodes, hfound]
  | error error =>
      have hdecodes : ¬ code.Decodes := fun h => by
        rw [instructions_eq_ok_iff.mpr ⟨h, rfl⟩] at hinstructions
        cases hinstructions
      simp [Except.map, hdecodes]

theorem misalignedJump?_eq_none_iff (boundaries : List Nat) (list : List (Nat × Instruction)) :
    misalignedJump? boundaries list = none ↔
      ∀ entry ∈ list, entry.2.opcode.isJump = true →
        ∃ target, entry.2.jumpTarget? entry.1 = some target ∧ target ∈ boundaries := by
  induction list with
  | nil => simp [misalignedJump?]
  | cons entry rest ih =>
      obtain ⟨offset, instruction⟩ := entry
      rw [misalignedJump?, List.forall_mem_cons]
      by_cases hjump : instruction.opcode.isJump = true
      · cases htarget : instruction.jumpTarget? offset with
        | none => simp [hjump]
        | some target =>
            by_cases hmem : target ∈ boundaries
            · simp [hjump, hmem, ih]
            · simp [hjump, hmem]
      · simp [hjump, ih]

/-- What the jump check accepts. -/
theorem checkJumps_of_decodes {code : Stream} (hdecodes : code.Decodes) :
    code.checkJumps =
      match misalignedJump? (code.scan.instructions.map (·.1) ++ [code.size]) code.scan.instructions with
      | some error => .error error
      | none => .ok () := by
  unfold checkJumps
  rw [instructions_eq_ok_iff.mpr ⟨hdecodes, rfl⟩, boundaries_eq_ok_iff.mpr ⟨hdecodes, rfl⟩]
  rfl

theorem checkJumps_eq_ok_iff {code : Stream} :
    code.checkJumps = .ok () ↔ code.Decodes ∧ code.JumpsAligned := by
  by_cases hdecodes : code.Decodes
  · have hnone : code.checkJumps = .ok () ↔
        misalignedJump? (code.scan.instructions.map (·.1) ++ [code.size]) code.scan.instructions = none := by
      rw [checkJumps_of_decodes hdecodes]
      cases misalignedJump? (code.scan.instructions.map (·.1) ++ [code.size]) code.scan.instructions <;> simp
    rw [hnone, misalignedJump?_eq_none_iff]
    constructor
    · intro hall
      refine ⟨hdecodes, fun offset instruction hboundary hdecode hjump => ?_⟩
      obtain ⟨target, htarget, hmem⟩ := hall (offset, instruction) (mem_scan.mpr ⟨hboundary, hdecode⟩) hjump
      exact ⟨target, htarget, (mem_boundaries_iff hdecodes).mp hmem⟩
    · rintro ⟨_, haligned⟩ ⟨offset, instruction⟩ hmem hjump
      obtain ⟨hboundary, hdecode⟩ := mem_scan.mp hmem
      obtain ⟨target, htarget, htargetBoundary⟩ := haligned offset instruction hboundary hdecode hjump
      exact ⟨target, htarget, (mem_boundaries_iff hdecodes).mpr htargetBoundary⟩
  · constructor
    · intro hcheck
      cases hinstructions : code.instructions with
      | ok list => exact absurd (instructions_eq_ok_iff.mp hinstructions).1 hdecodes
      | error error =>
          rw [checkJumps, hinstructions] at hcheck
          cases hcheck
    · intro h
      exact absurd h.1 hdecodes

end Stream
end StackCode
