import StackCode.Listing
import StackCode.Proofs.Relocation

/-! How bytes are divided into instructions. A stream that a scan passes through to its end is a row of chunks
with one instruction each, and there is only one way to divide it so; a scan that fails has come to a first offset
that holds no instruction. Streams that were written from instructions are divided as they were written, whatever the
operands, and streams put together are divided as their parts are. -/

namespace StackCode

/-- Where pieces of the given lengths begin one after another, and where the last one ends. -/
def edges (start : Nat) (lengths : List Nat) : List Nat := lengths.scanl (· + ·) start

@[simp] theorem edges_nil (start : Nat) : edges start [] = [start] := List.scanl_nil

@[simp] theorem edges_cons (start length : Nat) (lengths : List Nat) :
    edges start (length :: lengths) = start :: edges (start + length) lengths :=
  List.scanl_cons

theorem le_of_mem_edges {start edge : Nat} {lengths : List Nat} (hmem : edge ∈ edges start lengths) :
    start ≤ edge := by
  induction lengths generalizing start with
  | nil => simp_all
  | cons length lengths ih =>
      rcases List.mem_cons.mp (edges_cons start length lengths ▸ hmem) with rfl | hmem
      · exact Nat.le_refl edge
      · have hle := ih hmem
        omega

theorem pairwise_edges (start : Nat) {lengths : List Nat} (hpos : ∀ length ∈ lengths, 0 < length) :
    (edges start lengths).Pairwise (· < ·) := by
  induction lengths generalizing start with
  | nil => simp
  | cons length lengths ih =>
      obtain ⟨hlength, hrest⟩ := List.forall_mem_cons.mp hpos
      rw [edges_cons, List.pairwise_cons]
      refine ⟨?_, ih (start + length) hrest⟩
      intro edge hmem
      have hle := le_of_mem_edges hmem
      omega

theorem edges_injective (start : Nat) {lengths others : List Nat} (hedges : edges start lengths = edges start others) :
    lengths = others := by
  induction lengths generalizing start others with
  | nil =>
      cases others with
      | nil => rfl
      | cons other others => simp [edges] at hedges
  | cons length lengths ih =>
      cases others with
      | nil => simp [edges] at hedges
      | cons other others =>
          rw [edges_cons, edges_cons, List.cons.injEq] at hedges
          -- the first length is the difference of the first two edges
          have hsecond : start + length = start + other := by
            have hheads := congrArg List.head? hedges.2
            simpa [edges] using hheads
          obtain rfl : length = other := by omega
          rw [ih (start + length) hedges.2]

section Entries

variable {α : Type} {start : Nat} {lengths : List Nat} {items : List α}

theorem map_fst_zip_edges (hlength : lengths.length = items.length) :
    ((edges start lengths).zip items).map (·.1) ++ [start + lengths.sum] = edges start lengths := by
  induction lengths generalizing start items with
  | nil => simp [List.length_eq_zero_iff.mp hlength.symm]
  | cons length lengths ih =>
      cases items with
      | nil => cases hlength
      | cons item items =>
          simp only [edges_cons, List.zip_cons_cons, List.map_cons, List.sum_cons, List.cons_append]
          rw [← Nat.add_assoc, ih (Nat.succ.inj hlength)]

theorem zip_edges_append (hlength : lengths.length = items.length) (further : List Nat) (others : List α) :
    (edges start (lengths ++ further)).zip (items ++ others) =
      (edges start lengths).zip items ++ (edges (start + lengths.sum) further).zip others := by
  induction lengths generalizing start items with
  | nil => simp [List.length_eq_zero_iff.mp hlength.symm]
  | cons length lengths ih =>
      cases items with
      | nil => cases hlength
      | cons item items =>
          simp only [List.cons_append, edges_cons, List.zip_cons_cons, List.sum_cons]
          rw [ih (Nat.succ.inj hlength), Nat.add_assoc]

theorem zip_edges_shift (start distance : Nat) (lengths : List Nat) (items : List α) :
    (edges (start + distance) lengths).zip items =
      ((edges start lengths).zip items).map fun entry => (entry.1 + distance, entry.2) := by
  induction lengths generalizing start items with
  | nil => cases items <;> simp
  | cons length lengths ih =>
      cases items with
      | nil => simp
      | cons item items =>
          simp only [edges_cons, List.zip_cons_cons, List.map_cons]
          rw [Nat.add_right_comm, ih]

end Entries

namespace Instruction

/-- The bytes hold the instruction and nothing else. -/
def Fills (instruction : Instruction) (chunk : List UInt8) : Prop :=
  decode chunk.toArray 0 = .ok instruction ∧ instruction.length = chunk.length

/-- An instruction written with any operand fills its bytes with what is read back of it. -/
theorem fills_encode (instruction : Instruction) : instruction.reread.Fills instruction.encode := by
  constructor
  · exact @decode_of_split_eq_reread _ [] [] instruction (by simp)
  · rw [length_reread, length_encode]

theorem fills_leftUnique : Relator.LeftUnique Fills := by
  intro instruction chunk other hfills hother
  exact Except.ok.inj (hfills.1.symm.trans hother.1)

/-- An instruction fills the bytes that it was decoded from. -/
theorem fills_of_decode {bytes : Array UInt8} {offset : Nat} {instruction : Instruction}
    (hdecode : decode bytes offset = .ok instruction) :
    instruction.Fills (bytes.extract offset (offset + instruction.length)).toList := by
  obtain ⟨hbyte, hoperand⟩ := reads_of_decode hdecode
  have hend : offset + instruction.length ≤ bytes.size := (of_decode hdecode).1
  have hlength : instruction.length = 1 + instruction.opcode.layout.byteCount := rfl
  have hsize : (bytes.extract offset (offset + instruction.length)).size = instruction.length := by
    rw [Array.size_extract]
    omega
  constructor
  · rw [Array.toArray_toList]
    apply decode_of_reads
    · omega
    · rw [Array.getElem?_extract, if_pos (by omega), Nat.add_zero, hbyte]
    · rw [Array.extract_extract, Nat.zero_add, ← hlength, Nat.min_self, hlength, ← Nat.add_assoc, hoperand]
  · rw [Array.length_toList, hsize]

theorem leadsTo_of_jumpTarget? {instruction : Instruction} {offset target : Nat}
    (htarget : instruction.jumpTarget? offset = some target) : instruction.LeadsTo offset target := by
  obtain ⟨opcode, operand⟩ := instruction
  cases operand with
  | word distance =>
      cases opcode with
      | jump | jumpIfFalse =>
          obtain ⟨-, htarget⟩ := Option.ite_none_right_eq_some.mp htarget
          exact (Option.some.inj htarget).symm
      | jumpBackward =>
          obtain ⟨hle, htarget⟩ := Option.ite_none_right_eq_some.mp htarget
          have hnext := Option.some.inj htarget
          show target + distance.toNat = offset + _
          omega
      | _ => cases htarget
  | _ => cases htarget

/-- Distances are relative, so a jump that is moved leads to where its target is moved. -/
theorem LeadsTo.shift {instruction : Instruction} {offset target : Nat} (hleads : instruction.LeadsTo offset target)
    (distance : Nat) : instruction.LeadsTo (offset + distance) (target + distance) := by
  unfold LeadsTo at hleads ⊢
  split at hleads <;> omega

end Instruction

namespace Stream

/-- The stream consists of the chunks, and each chunk is filled by one of the instructions. -/
structure SplitsInto (code : Stream) (chunks : List (List UInt8)) (found : List Instruction) : Prop where
  bytes : code.bytes.toList = chunks.flatten
  fills : List.Forall₂ Instruction.Fills found chunks

theorem splitsInto_ofInstructions (list : List Instruction) :
    (ofInstructions list).SplitsInto (list.map Instruction.encode) (list.map Instruction.reread) where
  bytes := by
    rw [toList_ofInstructions, encodeAll, List.flatMap_def]
  fills := by
    rw [List.forall₂_map_left_iff, List.forall₂_map_right_iff]
    exact List.forall₂_same.mpr fun instruction _ => instruction.fills_encode

variable {code : Stream} {chunks : List (List UInt8)} {found : List Instruction}

/-- A scan passes through chunks one by one, wherever they begin. -/
theorem scanFrom_of_fills {front : List UInt8} (hbytes : code.bytes.toList = front ++ chunks.flatten)
    (hfills : List.Forall₂ Instruction.Fills found chunks) {count : Nat} (hcount : chunks.flatten.length ≤ count) :
    code.scanFrom front.length count = ⟨(edges front.length (chunks.map List.length)).zip found, none⟩ := by
  induction hfills generalizing front count with
  | nil =>
      have hsize : code.size = front.length := by
        rw [size, ← Array.length_toList, hbytes]
        simp
      rw [scanFrom_of_size_le hsize.le, List.zip_nil_right]
  | @cons instruction chunk found chunks hfirst hrest ih =>
      have hdecode : code.decodeAt (0 + front.length) = .ok instruction :=
        Instruction.decode_within front chunks.flatten (by simp [hbytes]) hfirst.1
      rw [Nat.zero_add] at hdecode
      have hlength := instruction.one_le_length
      rw [List.flatten_cons, List.length_append, ← hfirst.2] at hcount
      obtain ⟨count, rfl⟩ : ∃ less, count = less + 1 := ⟨count - 1, by omega⟩
      have hbehind : code.bytes.toList = (front ++ chunk) ++ chunks.flatten := by simp [hbytes]
      have hothers := @ih (front ++ chunk) hbehind count (by omega)
      rw [List.length_append, ← hfirst.2] at hothers
      rw [scanFrom_of_decodeAt hdecode, hothers, List.map_cons, edges_cons, List.zip_cons_cons, ← hfirst.2]

theorem SplitsInto.scan_eq (hsplits : code.SplitsInto chunks found) :
    code.scan = ⟨(edges 0 (chunks.map List.length)).zip found, none⟩ := by
  have hsize : chunks.flatten.length = code.size := by
    rw [size, ← Array.length_toList, hsplits.bytes]
  exact @scanFrom_of_fills code chunks found [] hsplits.bytes hsplits.fills code.size hsize.le

theorem SplitsInto.boundaries_eq (hsplits : code.SplitsInto chunks found) :
    code.boundaries = .ok (edges 0 (chunks.map List.length)) := by
  have hsize : code.size = 0 + (chunks.map List.length).sum := by
    rw [size, ← Array.length_toList, hsplits.bytes, List.length_flatten, Nat.zero_add]
  have hlength : (chunks.map List.length).length = found.length := by
    rw [List.length_map, hsplits.fills.length_eq]
  rw [boundaries, instructions, hsplits.scan_eq]
  simp only [Except.map]
  rw [hsize, map_fst_zip_edges hlength]

/-- From each boundary on, a stream that decodes can be divided. -/
theorem exists_chunks_drop (hdecodes : code.Decodes) (remaining : Nat) {offset : Nat}
    (hboundary : code.Boundary offset) (hremaining : code.size ≤ offset + remaining) :
    ∃ chunks found, code.bytes.toList.drop offset = chunks.flatten ∧
      List.Forall₂ Instruction.Fills found chunks := by
  induction remaining generalizing offset with
  | zero =>
      refine ⟨[], [], ?_, .nil⟩
      rw [List.drop_eq_nil_of_le (by rwa [Array.length_toList]), List.flatten_nil]
  | succ remaining ih =>
      by_cases hend : code.size ≤ offset
      · exact ih hboundary (by omega)
      · obtain ⟨instruction, hdecode⟩ := hdecodes offset hboundary (by omega)
        have hlength := instruction.one_le_length
        obtain ⟨chunks, found, hbytes, hfills⟩ := ih (Reaches.next hboundary hdecode) (by omega)
        refine ⟨_ :: chunks, instruction :: found, ?_, .cons (Instruction.fills_of_decode hdecode) hfills⟩
        rw [List.flatten_cons, ← hbytes, Array.toList_extract, List.extract_eq_take_drop, Nat.add_sub_cancel_left,
          ← List.drop_drop, List.take_append_drop]

theorem exists_splitsInto (hdecodes : code.Decodes) : ∃ chunks found, code.SplitsInto chunks found := by
  obtain ⟨chunks, found, hbytes, hfills⟩ :=
    exists_chunks_drop hdecodes code.size code.boundary_zero (Nat.le_add_left _ _)
  exact ⟨chunks, found, hbytes, hfills⟩

/-- A stream can be divided in one way only. -/
theorem SplitsInto.unique (hsplits : code.SplitsInto chunks found) {others : List (List UInt8)}
    {otherFound : List Instruction} (hothers : code.SplitsInto others otherFound) :
    chunks = others ∧ found = otherFound := by
  have hedges : edges 0 (chunks.map List.length) = edges 0 (others.map List.length) := by
    have hboth := hsplits.boundaries_eq.symm.trans hothers.boundaries_eq
    exact Except.ok.inj hboth
  obtain rfl : chunks = others :=
    List.eq_iff_flatten_eq.mpr ⟨hsplits.bytes.symm.trans hothers.bytes, edges_injective 0 hedges⟩
  exact ⟨rfl, List.left_unique_forall₂' Instruction.fills_leftUnique hsplits.fills hothers.fills⟩

/-- The chunks decide what the boundaries are, and there are boundaries only if there are chunks. -/
theorem boundaries_eq_ok_iff_splitsInto {offsets : List Nat} :
    code.boundaries = .ok offsets ↔
      ∃ chunks found, code.SplitsInto chunks found ∧ offsets = edges 0 (chunks.map List.length) := by
  constructor
  · intro hboundaries
    obtain ⟨hdecodes, -⟩ := boundaries_eq_ok_iff.mp hboundaries
    obtain ⟨chunks, found, hsplits⟩ := exists_splitsInto hdecodes
    rw [hsplits.boundaries_eq, Except.ok.injEq] at hboundaries
    exact ⟨chunks, found, hsplits, hboundaries.symm⟩
  · rintro ⟨chunks, found, hsplits, rfl⟩
    exact hsplits.boundaries_eq

theorem length_pos_of_fills (hfills : List.Forall₂ Instruction.Fills found chunks) :
    ∀ length ∈ chunks.map List.length, 0 < length := by
  induction hfills with
  | nil => simp
  | @cons instruction chunk found chunks hfirst _ ih =>
      rw [List.map_cons, List.forall_mem_cons, ← hfirst.2]
      exact ⟨instruction.one_le_length, ih⟩

/-- A scan comes to an offset that holds no instruction, and could not have stopped earlier. -/
structure StopsAt (code : Stream) (offset : Nat) (error : DecodeError) : Prop where
  boundary : code.Boundary offset
  inside : offset < code.size
  fails : code.decodeAt offset = .error error
  first : ∀ earlier, code.Boundary earlier → earlier < offset → ∃ instruction, code.decodeAt earlier = .ok instruction

theorem failure_scanFrom_eq_some_iff {count start : Nat} (hcount : code.size ≤ start + count) {error : DecodeError} :
    (code.scanFrom start count).failure = some error ↔
      ∃ offset, code.Reaches start offset ∧ offset < code.size ∧ code.decodeAt offset = .error error := by
  induction count generalizing start with
  | zero =>
      rw [scanFrom_of_size_le (show code.size ≤ start from hcount)]
      refine iff_of_false (by simp) ?_
      rintro ⟨offset, hreaches, hinside, -⟩
      have hle := hreaches.le
      omega
  | succ count ih =>
      by_cases hend : code.size ≤ start
      · rw [scanFrom_of_size_le hend]
        refine iff_of_false (by simp) ?_
        rintro ⟨offset, hreaches, hinside, -⟩
        have hle := hreaches.le
        omega
      cases hfirst : code.decodeAt start with
      | error cause =>
          rw [scanFrom_of_error (by omega) hfirst]
          constructor
          · intro hcause
            cases hcause
            exact ⟨start, .refl start, by omega, hfirst⟩
          · rintro ⟨offset, hreaches, -, hfails⟩
            rw [(reaches_iff_of_error hfirst).mp hreaches, hfirst] at hfails
            cases hfails
            rfl
      | ok first =>
          have hlength := first.one_le_length
          rw [scanFrom_of_decodeAt hfirst, ih (by omega)]
          constructor
          · rintro ⟨offset, hreaches, hrest⟩
            exact ⟨offset, .step hfirst hreaches, hrest⟩
          · rintro ⟨offset, hreaches, hinside, hfails⟩
            rcases (reaches_iff_of_decodeAt hfirst).mp hreaches with rfl | hreaches
            · rw [hfirst] at hfails
              cases hfails
            · exact ⟨offset, hreaches, hinside, hfails⟩

/-- Where a scan comes to an instruction it comes to nothing between this one and the next. -/
theorem Reaches.decodes_of_lt {start offset earlier : Nat} (hreaches : code.Reaches start offset)
    (hearlier : code.Reaches start earlier) (hlt : earlier < offset) :
    ∃ instruction, code.decodeAt earlier = .ok instruction := by
  induction hreaches with
  | refl offset =>
      have hle := hearlier.le
      omega
  | step hdecode _ ih =>
      rcases (reaches_iff_of_decodeAt hdecode).mp hearlier with rfl | hbehind
      · exact ⟨_, hdecode⟩
      · exact ih hbehind hlt

theorem failure_scan_eq_some_iff {error : DecodeError} :
    code.scan.failure = some error ↔ ∃ offset, code.StopsAt offset error := by
  rw [scan, failure_scanFrom_eq_some_iff (Nat.le_add_left _ _)]
  constructor
  · rintro ⟨offset, hreaches, hinside, hfails⟩
    exact ⟨offset, hreaches, hinside, hfails, fun _ hearlier => hreaches.decodes_of_lt hearlier⟩
  · rintro ⟨offset, hstops⟩
    exact ⟨offset, hstops.boundary, hstops.inside, hstops.fails⟩

theorem instructions_eq_error_iff {error : DecodeError} :
    code.instructions = .error error ↔ code.scan.failure = some error := by
  unfold instructions
  cases code.scan.failure <;> simp

theorem boundaries_eq_error_iff {error : DecodeError} :
    code.boundaries = .error error ↔ code.scan.failure = some error := by
  rw [← instructions_eq_error_iff, boundaries]
  cases code.instructions <;> simp [Except.map]

theorem listing_eq_error_iff {error : DecodeError} :
    Listing.ofStream code = .error error ↔ code.scan.failure = some error := by
  rw [← instructions_eq_error_iff, Listing.ofStream]
  cases code.instructions <;> simp [Except.map]

/-- Streams one after another are divided as they are by themselves. -/
theorem SplitsInto.append (hsplits : code.SplitsInto chunks found) {other : Stream} {others : List (List UInt8)}
    {otherFound : List Instruction} (hothers : other.SplitsInto others otherFound) :
    (code.append other).SplitsInto (chunks ++ others) (found ++ otherFound) where
  bytes := by simp [Stream.append, hsplits.bytes, hothers.bytes]
  fills := List.rel_append hsplits.fills hothers.fills

theorem scan_append {other : Stream} (hdecodes : code.Decodes) (hother : other.Decodes) :
    (code.append other).scan =
      ⟨code.scan.instructions ++ other.scan.instructions.map fun entry => (entry.1 + code.size, entry.2), none⟩ := by
  obtain ⟨chunks, found, hsplits⟩ := exists_splitsInto hdecodes
  obtain ⟨others, otherFound, hothers⟩ := exists_splitsInto hother
  have hlength : (chunks.map List.length).length = found.length := by
    rw [List.length_map, hsplits.fills.length_eq]
  have hsize : 0 + (chunks.map List.length).sum = 0 + code.size := by
    rw [size, ← Array.length_toList, hsplits.bytes, List.length_flatten]
  rw [(hsplits.append hothers).scan_eq, hsplits.scan_eq, hothers.scan_eq, List.map_append,
    zip_edges_append hlength, hsize, zip_edges_shift]

theorem Reaches.trans {start between offset : Nat} (hfirst : code.Reaches start between)
    (hrest : code.Reaches between offset) : code.Reaches start offset := by
  induction hfirst with
  | refl => exact hrest
  | step hdecode _ ih => exact .step hdecode (ih hrest)

theorem Reaches.liesIn {outer : Stream} {distance : Nat} (hlies : code.LiesIn outer distance) {start offset : Nat}
    (hreaches : code.Reaches start offset) : outer.Reaches (start + distance) (offset + distance) := by
  induction hreaches with
  | refl offset => exact .refl _
  | @step offset target instruction hdecode _ ih =>
      refine .step (hlies.decodeAt offset instruction hdecode) ?_
      rwa [Nat.add_right_comm]

theorem boundary_append_left {offset : Nat} (hboundary : code.Boundary offset) (other : Stream) :
    (code.append other).Boundary offset :=
  Reaches.liesIn (liesIn_append_left code other) hboundary

theorem boundary_append_right (hdecodes : code.Decodes) {other : Stream} {offset : Nat}
    (hboundary : other.Boundary offset) : (code.append other).Boundary (offset + code.size) := by
  have hshifted := Reaches.liesIn (liesIn_append_right code other) hboundary
  rw [Nat.zero_add] at hshifted
  exact (boundary_append_left hdecodes.boundary_size other).trans hshifted

/-- Verified streams one after another are a verified stream. -/
theorem checkJumps_append {other : Stream} (hcheck : code.checkJumps = .ok ()) (hother : other.checkJumps = .ok ())
    (hsize : (code.append other).size < Instruction.offsetBound) : (code.append other).checkJumps = .ok () := by
  obtain ⟨hdecodes, haligned⟩ := checkJumps_eq_ok_iff.mp hcheck
  obtain ⟨hotherDecodes, hotherAligned⟩ := checkJumps_eq_ok_iff.mp hother
  have hscan := scan_append hdecodes hotherDecodes
  refine checkJumps_eq_ok_iff.mpr ⟨?_, ?_⟩
  · exact (instructions_eq_ok_iff.mp (show (code.append other).instructions = .ok _ by
      rw [instructions, hscan])).1
  · intro offset instruction hboundary hdecode hjump
    have hmem := mem_scan.mpr ⟨hboundary, hdecode⟩
    rw [hscan, List.mem_append] at hmem
    rcases hmem with hmem | hmem
    · obtain ⟨hboundary, hdecode⟩ := mem_scan.mp hmem
      obtain ⟨target, htarget, hbetween⟩ := haligned offset instruction hboundary hdecode hjump
      exact ⟨target, htarget, boundary_append_left hbetween other⟩
    · obtain ⟨⟨start, found⟩, hentry, heq⟩ := List.mem_map.mp hmem
      cases heq
      obtain ⟨hboundary, hdecode⟩ := mem_scan.mp hentry
      obtain ⟨target, htarget, hbetween⟩ := hotherAligned start found hboundary hdecode hjump
      have hle := hbetween.le_size
      rw [size_append] at hsize
      have hleads := (Instruction.leadsTo_of_jumpTarget? htarget).shift code.size
      exact ⟨target + code.size, Instruction.jumpTarget?_of_leadsTo hleads (by omega),
        boundary_append_right hdecodes hbetween⟩

theorem scan_ofInstructions (list : List Instruction) :
    (ofInstructions list).scan = ⟨(edges 0 (list.map Instruction.length)).zip (list.map Instruction.reread), none⟩ := by
  rw [(splitsInto_ofInstructions list).scan_eq, List.map_map]
  simp only [Function.comp_def, Instruction.length_encode]

theorem boundaries_ofInstructions (list : List Instruction) :
    (ofInstructions list).boundaries = .ok (edges 0 (list.map Instruction.length)) := by
  rw [(splitsInto_ofInstructions list).boundaries_eq, List.map_map]
  simp only [Function.comp_def, Instruction.length_encode]

theorem getLast?_of_boundaries {offsets : List Nat} (hboundaries : code.boundaries = .ok offsets) :
    offsets.getLast? = some code.size := by
  obtain ⟨-, rfl⟩ := boundaries_eq_ok_iff.mp hboundaries
  exact List.getLast?_concat

end Stream

/-- Bytes are divided into instructions in one way only, and part by part. What was written from instructions with any
operands is divided as it was written, each instruction being what is read back of it alone. Any bytes have boundaries
if and only if they are a row of chunks with one instruction each; the boundaries then rise from the start to the end,
and otherwise the scan, the boundaries and the listing all fail as the first offset does that holds no instruction.
Verified streams put together are verified, unless there are more bytes than offsets. -/
theorem stream_framed :
    (∀ list : List Instruction, ∃ found,
      List.Forall₂ (fun written read => Instruction.decode written.encode.toArray 0 = .ok read) list found ∧
        (Stream.ofInstructions list).scan = ⟨(edges 0 (list.map Instruction.length)).zip found, none⟩ ∧
        (Stream.ofInstructions list).boundaries = .ok (edges 0 (list.map Instruction.length)) ∧
        (edges 0 (list.map Instruction.length)).getLast? = some (Stream.ofInstructions list).size) ∧
    (∀ code : Stream,
      (∀ offsets, code.boundaries = .ok offsets ↔
        ∃ chunks found, code.SplitsInto chunks found ∧ offsets = edges 0 (chunks.map List.length)) ∧
      (∀ chunks found others otherFound, code.SplitsInto chunks found → code.SplitsInto others otherFound →
        chunks = others ∧ found = otherFound) ∧
      (∀ offsets, code.boundaries = .ok offsets →
        offsets.head? = some 0 ∧ offsets.getLast? = some code.size ∧ offsets.Pairwise (· < ·)) ∧
      ∀ error, (code.boundaries = .error error ↔ Listing.ofStream code = .error error) ∧
        (code.boundaries = .error error ↔ code.scan.failure = some error) ∧
        (code.boundaries = .error error ↔ ∃ offset, code.StopsAt offset error)) ∧
    ∀ first second : Stream, first.checkJumps = .ok () → second.checkJumps = .ok () →
      (first.append second).scan = ⟨first.scan.instructions ++
        second.scan.instructions.map fun entry => (entry.1 + first.size, entry.2), none⟩ ∧
      ((first.append second).size < Instruction.offsetBound → (first.append second).checkJumps = .ok ()) := by
  refine ⟨?_, ?_, ?_⟩
  · intro list
    have hboundaries := Stream.boundaries_ofInstructions list
    refine ⟨list.map Instruction.reread, ?_, Stream.scan_ofInstructions list, hboundaries,
      Stream.getLast?_of_boundaries hboundaries⟩
    rw [List.forall₂_map_right_iff]
    exact List.forall₂_same.mpr fun instruction _ => instruction.fills_encode.1
  · intro code
    refine ⟨fun offsets => Stream.boundaries_eq_ok_iff_splitsInto, ?_, ?_, ?_⟩
    · intro chunks found others otherFound hsplits hothers
      exact hsplits.unique hothers
    · intro offsets hboundaries
      have hlast := Stream.getLast?_of_boundaries hboundaries
      obtain ⟨chunks, found, hsplits, rfl⟩ := Stream.boundaries_eq_ok_iff_splitsInto.mp hboundaries
      exact ⟨List.head?_scanl, hlast, pairwise_edges 0 (Stream.length_pos_of_fills hsplits.fills)⟩
    · intro error
      rw [Stream.boundaries_eq_error_iff, Stream.listing_eq_error_iff]
      exact ⟨Iff.rfl, Iff.rfl, Stream.failure_scan_eq_some_iff⟩
  · intro first second hfirst hsecond
    have hfirstDecodes := (Stream.checkJumps_eq_ok_iff.mp hfirst).1
    have hsecondDecodes := (Stream.checkJumps_eq_ok_iff.mp hsecond).1
    exact ⟨Stream.scan_append hfirstDecodes hsecondDecodes, Stream.checkJumps_append hfirst hsecond⟩

/-- An array without its kind, and a loop that is left at once. -/
def fillsUntold : Stream :=
  .ofInstructions [⟨.allocFilled, .word 2⟩, .withWord .jumpIfFalse 9, .withWord .jumpBackward 18]

/-- A jump to the end, over a number that does not fit. -/
def skipsOver : Stream := .ofInstructions [.withWord .jump 2, ⟨.pushInt .w8, .int 300⟩]

theorem stream_framed_fillsUntold :
    fillsUntold.checkJumps = .ok () ∧ skipsOver.checkJumps = .ok () ∧
      (fillsUntold.append skipsOver).checkJumps = .ok () ∧
      (fillsUntold.append skipsOver).scan.instructions =
        [(0, .allocFilled 0 .int), (10, .withWord .jumpIfFalse 9), (19, .withWord .jumpBackward 18),
          (28, .withWord .jump 2), (37, ⟨.pushInt .w8, .int 44⟩)] ∧
      (fillsUntold.append skipsOver).boundaries = .ok [0, 10, 19, 28, 37, 39] ∧
      [0, 10, 19, 28, 37, 39].Pairwise (· < ·) := by
  have hfirst : fillsUntold.checkJumps = .ok () := by decide +kernel
  have hsecond : skipsOver.checkJumps = .ok () := by decide +kernel
  have hboundaries : (fillsUntold.append skipsOver).boundaries = .ok [0, 10, 19, 28, 37, 39] := by decide +kernel
  obtain ⟨hscan, hcheck⟩ := stream_framed.2.2 fillsUntold skipsOver hfirst hsecond
  refine ⟨hfirst, hsecond, hcheck (by decide +kernel), ?_, hboundaries, ?_⟩
  · rw [hscan]
    decide +kernel
  · exact ((stream_framed.2.1 (fillsUntold.append skipsOver)).2.2.1 _ hboundaries).2.2

end StackCode
