import StackCode.Proofs.AlignedCode

/-! Heights of the operand stack. The boundaries of a stream are given heights that change along every edge
as the effects of the opcodes say. In code that comes back to the empty stack wherever a jump leads, the
heights can be read off in the order of the instructions. -/

namespace StackCode

/-- How a function is called: with how many arguments, and whether it returns a value. -/
structure CallSignature where
  arguments : Nat
  returnsValue : Bool
deriving DecidableEq

/-- The signatures of all functions, those of the built-in functions being fixed. -/
structure CallSignatures where
  of : SymbolId → CallSignature
  builtins : ∀ builtin : Builtin, of builtin.id = ⟨builtin.arity, builtin.returnsValue⟩

/-- How many values are taken from a stack, and how many are put there in their place. -/
structure HeightChange where
  pops : Nat
  pushes : Nat
deriving DecidableEq

namespace Instruction

/-- The count in an operand. -/
def count? (instruction : Instruction) : Option Nat :=
  match instruction.operand with
  | .word n | .element _ n | .fill n _ => some n.toNat
  | _ => none

/-- What the effect of the opcode comes to with this operand. A return has no height after it. -/
def change? (signatures : CallSignatures) (instruction : Instruction) : Option HeightChange :=
  match instruction.opcode.stackEffect with
  | .fixed pops pushes => some ⟨pops, pushes⟩
  | .counted extra pushes => instruction.count?.map fun count => ⟨extra + count, pushes⟩
  | .call => instruction.word?.map fun id =>
      ⟨(signatures.of id).arguments, (signatures.of id).returnsValue.toNat⟩
  | .ret => none

/-- Where execution may go on after the instruction at an offset. -/
def successors (offset : Nat) (instruction : Instruction) : List Nat :=
  match instruction.opcode with
  | .ret => []
  | .jump | .jumpBackward => (instruction.jumpTarget? offset).toList
  | .jumpIfFalse => (offset + instruction.length) :: (instruction.jumpTarget? offset).toList
  | _ => [offset + instruction.length]

end Instruction

/-- Heights for the boundaries of a stream: the stack is empty at both ends, and along every edge the height
changes as the instruction says, which finds its operands on the stack. -/
structure Stream.Balanced (signatures : CallSignatures) (code : Stream) (height : Nat → Nat) : Prop where
  start : height 0 = 0
  finish : height code.size = 0
  edges : ∀ offset instruction target, code.Boundary offset → code.decodeAt offset = .ok instruction →
    target ∈ instruction.successors offset →
      code.Boundary target ∧ ∃ change, instruction.change? signatures = some change ∧
        change.pops ≤ height offset ∧ height target + change.pops = height offset + change.pushes

variable {signatures : CallSignatures}

/-- The height behind an instruction in the order of the code. Nothing falls through a return, and the code
behind it starts on an empty stack. -/
def Instruction.levelAfter (signatures : CallSignatures) (height : Nat) (instruction : Instruction) : Nat :=
  match instruction.change? signatures with
  | some change => height - change.pops + change.pushes
  | none => 0

/-- The height behind some code. -/
def level (signatures : CallSignatures) (height : Nat) (code : List Instruction) : Nat :=
  code.foldl (Instruction.levelAfter signatures) height

@[simp] theorem level_nil (height : Nat) : level signatures height [] = height := rfl

@[simp] theorem level_cons (height : Nat) (instruction : Instruction) (code : List Instruction) :
    level signatures height (instruction :: code) =
      level signatures (instruction.levelAfter signatures height) code := rfl

@[simp] theorem level_append (height : Nat) (first second : List Instruction) :
    level signatures height (first ++ second) = level signatures (level signatures height first) second :=
  List.foldl_append

/-- The heights of code by offsets. -/
def heightAt (signatures : CallSignatures) : (height : Nat) → List Instruction → (offset : Nat) → Nat
  | height, [], _ => height
  | height, instruction :: rest, offset =>
    if offset < instruction.length then height
    else heightAt signatures (instruction.levelAfter signatures height) rest (offset - instruction.length)

theorem heightAt_of_split {height : Nat} {code front back : List Instruction} (hcode : code = front ++ back) :
    heightAt signatures height code (codeSize front) = level signatures height front := by
  subst hcode
  induction front generalizing height with
  | nil =>
      cases back with
      | nil => rfl
      | cons instruction back => exact if_pos instruction.one_le_length
  | cons instruction front ih =>
      rw [List.cons_append, heightAt, codeSize_cons, if_neg (by omega), Nat.add_sub_cancel_left, ih, level_cons]

/-- An instruction finds its operands at a height, and if it is a jump then nothing beside them. -/
structure Instruction.Ready (signatures : CallSignatures) (height : Nat) (instruction : Instruction) : Prop where
  operands : instruction.opcode = .ret ∨
    ∃ change, instruction.change? signatures = some change ∧ change.pops ≤ height
  jump : instruction.opcode.isJump = true → instruction.levelAfter signatures height = 0

def AllReady (signatures : CallSignatures) : (height : Nat) → List Instruction → Prop
  | _, [] => True
  | height, instruction :: rest =>
    instruction.Ready signatures height ∧ AllReady signatures (instruction.levelAfter signatures height) rest

theorem allReady_append (height : Nat) (first second : List Instruction) :
    AllReady signatures height (first ++ second) ↔
      AllReady signatures height first ∧ AllReady signatures (level signatures height first) second := by
  induction first generalizing height with
  | nil => simp [AllReady]
  | cons instruction first ih => rw [List.cons_append, AllReady, AllReady, ih, level_cons, and_assoc]

/-- The offsets and the heights of the returns in code that starts at an offset. -/
def returnHeights (signatures : CallSignatures) : (offset height : Nat) → List Instruction → List (Nat × Nat)
  | _, _, [] => []
  | offset, height, instruction :: rest =>
    (if instruction.opcode = .ret then [(offset, height)] else []) ++
      returnHeights signatures (offset + instruction.length) (instruction.levelAfter signatures height) rest

theorem returnHeights_append (offset height : Nat) (first second : List Instruction) :
    returnHeights signatures offset height (first ++ second) =
      returnHeights signatures offset height first ++
        returnHeights signatures (offset + codeSize first) (level signatures height first) second := by
  induction first generalizing offset height with
  | nil => rfl
  | cons instruction first ih =>
      rw [List.cons_append, returnHeights, returnHeights, ih, codeSize_cons, level_cons, List.append_assoc,
        Nat.add_assoc]

theorem mem_returnHeights {offset height : Nat} {code : List Instruction} {found : Nat × Nat} :
    found ∈ returnHeights signatures offset height code ↔
      ∃ front instruction back, code = front ++ instruction :: back ∧ instruction.opcode = .ret ∧
        found = (offset + codeSize front, level signatures height front) := by
  constructor
  · intro hfound
    induction code generalizing offset height with
    | nil => cases hfound
    | cons instruction code ih =>
        rcases List.mem_append.mp hfound with hhere | hrest
        · by_cases hret : instruction.opcode = .ret
          · rw [if_pos hret, List.mem_singleton] at hhere
            exact ⟨[], instruction, code, rfl, hret, hhere⟩
          · rw [if_neg hret] at hhere
            cases hhere
        · obtain ⟨front, ret, back, rfl, hret, hfound⟩ := ih hrest
          refine ⟨instruction :: front, ret, back, rfl, hret, ?_⟩
          rw [hfound, codeSize_cons, level_cons, Nat.add_assoc]
  · rintro ⟨front, instruction, back, rfl, hret, rfl⟩
    rw [returnHeights_append, returnHeights, if_pos hret]
    simp

/-- An offset between two instructions where the stack is empty, in code that starts at the given height. -/
def RestCut (signatures : CallSignatures) (height start : Nat) (code : List Instruction) (offset : Nat) : Prop :=
  ∃ front back, code = front ++ back ∧ level signatures height front = 0 ∧ offset = start + codeSize front

theorem RestCut.cut {height start offset : Nat} {code : List Instruction}
    (hcut : RestCut signatures height start code offset) : Cut start code offset := by
  obtain ⟨front, back, hcode, -, hoffset⟩ := hcut
  exact ⟨front, back, hcode, hoffset⟩

theorem RestCut.heightAt_eq_zero {height offset : Nat} {code : List Instruction}
    (hcut : RestCut signatures height 0 code offset) : heightAt signatures height code offset = 0 := by
  obtain ⟨front, back, hcode, hlevel, rfl⟩ := hcut
  rw [Nat.zero_add, heightAt_of_split hcode, hlevel]

theorem RestCut.append_right {height start offset : Nat} {code : List Instruction}
    (hcut : RestCut signatures height start code offset) (rest : List Instruction) :
    RestCut signatures height start (code ++ rest) offset := by
  obtain ⟨front, back, rfl, hlevel, rfl⟩ := hcut
  exact ⟨front, back ++ rest, List.append_assoc _ _ _, hlevel, rfl⟩

theorem RestCut.append_left {height start offset : Nat} (first : List Instruction) {code : List Instruction}
    (hcut : RestCut signatures (level signatures height first) (start + codeSize first) code offset) :
    RestCut signatures height start (first ++ code) offset := by
  obtain ⟨front, back, rfl, hlevel, rfl⟩ := hcut
  refine ⟨first ++ front, back, (List.append_assoc _ _ _).symm, ?_, ?_⟩
  · rw [level_append, hlevel]
  · rw [codeSize_append, Nat.add_assoc]

/-- Code takes the stack from one height to another in the order of its instructions. These are ready, and the
returns among them stand at the given places. -/
structure Passes (signatures : CallSignatures) (before : Nat) (code : List Instruction) (after : Nat)
    (returns : Nat → List (Nat × Nat)) : Prop where
  ready : AllReady signatures before code
  arrives : level signatures before code = after
  returns : ∀ start, returnHeights signatures start before code = returns start

/-- Beside that, all jumps of the code lead to where the stack is empty. -/
structure Steady (signatures : CallSignatures) (before : Nat) (code : List Instruction) (after : Nat)
    (returns : Nat → List (Nat × Nat)) : Prop extends Passes signatures before code after returns where
  jumps : ∀ start, JumpsInto (RestCut signatures before start code) start code

/-- Code without returns takes the stack from one height to another. -/
def Rises (signatures : CallSignatures) : (before : Nat) → List Instruction → (after : Nat) → Prop
  | before, [], after => before = after
  | before, instruction :: rest, after =>
    ∃ change, instruction.change? signatures = some change ∧ change.pops ≤ before ∧
      Rises signatures (before - change.pops + change.pushes) rest after

theorem Rises.append {before between after : Nat} {first second : List Instruction}
    (hfirst : Rises signatures before first between) (hsecond : Rises signatures between second after) :
    Rises signatures before (first ++ second) after := by
  induction first generalizing before with
  | nil =>
      obtain rfl : before = between := hfirst
      exact hsecond
  | cons instruction first ih =>
      obtain ⟨change, hchange, hpops, hrest⟩ := hfirst
      exact ⟨change, hchange, hpops, ih hrest⟩

namespace Instruction

theorem change?_of_fixed {instruction : Instruction} {pops pushes : Nat}
    (heffect : instruction.opcode.stackEffect = .fixed pops pushes) :
    instruction.change? signatures = some ⟨pops, pushes⟩ := by
  rw [change?, heffect]

theorem opcode_ne_ret {instruction : Instruction} {change : HeightChange}
    (hchange : instruction.change? signatures = some change) : instruction.opcode ≠ .ret := by
  intro hret
  rw [change?, hret] at hchange
  cases hchange

theorem levelAfter_of_change? {instruction : Instruction} {change : HeightChange}
    (hchange : instruction.change? signatures = some change) (height : Nat) :
    instruction.levelAfter signatures height = height - change.pops + change.pushes := by
  rw [levelAfter, hchange]

end Instruction

variable {before between after : Nat} {first second : List Instruction}
  {returns others : Nat → List (Nat × Nat)}

namespace Passes

theorem append (hfirst : Passes signatures before first between returns)
    (hsecond : Passes signatures between second after others) :
    Passes signatures before (first ++ second) after
      fun start => returns start ++ others (start + codeSize first) where
  ready := by
    rw [allReady_append, hfirst.arrives]
    exact ⟨hfirst.ready, hsecond.ready⟩
  arrives := by rw [level_append, hfirst.arrives, hsecond.arrives]
  returns start := by rw [returnHeights_append, hfirst.arrives, hfirst.returns, hsecond.returns]

/-- A jump that takes all there is from the stack. -/
theorem jump {instruction : Instruction} (hchange : instruction.change? signatures = some ⟨before, 0⟩) :
    Passes signatures before [instruction] 0 fun _ => [] := by
  have hlevel : instruction.levelAfter signatures before = 0 := by
    simp [Instruction.levelAfter_of_change? hchange]
  refine ⟨⟨⟨Or.inr ⟨_, hchange, Nat.le_refl before⟩, fun _ => hlevel⟩, trivial⟩, hlevel, fun _ => ?_⟩
  rw [returnHeights, if_neg (Instruction.opcode_ne_ret hchange)]
  rfl

end Passes

theorem Rises.steady {code : List Instruction} (hrises : Rises signatures before code after)
    (hstraight : Straight code) : Steady signatures before code after fun _ => [] := by
  refine ⟨?_, fun start => jumpsInto_of_straight _ start hstraight⟩
  induction code generalizing before with
  | nil => exact ⟨trivial, hrises, fun _ => rfl⟩
  | cons instruction code ih =>
      obtain ⟨change, hchange, hpops, hrest⟩ := hrises
      obtain ⟨hfirst, hothers⟩ := straight_cons.mp hstraight
      have hpasses := ih hrest hothers
      rw [← Instruction.levelAfter_of_change? hchange] at hpasses
      refine ⟨⟨⟨Or.inr ⟨change, hchange, hpops⟩, fun hjump => ?_⟩, hpasses.ready⟩, hpasses.arrives, fun start => ?_⟩
      · rw [hfirst.isJump] at hjump
        cases hjump
      · rw [returnHeights, if_neg (Instruction.opcode_ne_ret hchange), hpasses.returns]
        rfl

namespace Steady

theorem append (hfirst : Steady signatures before first between returns)
    (hsecond : Steady signatures between second after others) :
    Steady signatures before (first ++ second) after
      fun start => returns start ++ others (start + codeSize first) where
  toPasses := hfirst.toPasses.append hsecond.toPasses
  jumps start := by
    rw [jumpsInto_append]
    constructor
    · exact (hfirst.jumps start).mono fun _ hcut => hcut.append_right second
    · refine (hsecond.jumps _).mono fun _ hcut => RestCut.append_left first ?_
      rwa [hfirst.arrives]

theorem ret (height : Nat) :
    Steady signatures height [.plain .ret] 0 fun start => [(start, height)] where
  ready := ⟨⟨Or.inl rfl, fun hjump => by cases hjump⟩, trivial⟩
  arrives := rfl
  returns _ := rfl
  jumps _ := ⟨fun hjump => (by cases hjump), trivial⟩

/-- A jump over code that leaves the stack empty, into the code that follows. -/
theorem jumpOver {opcode : Opcode} (hforward : opcode = .jump ∨ opcode = .jumpIfFalse)
    (heffect : opcode.stackEffect = .fixed before 0) {front back : List Instruction}
    (hsize : codeSize front < Instruction.offsetBound) (hfront : level signatures 0 front = 0)
    (hcode : Steady signatures 0 (front ++ back) after returns) :
    Steady signatures before (Code.jumpOver opcode front :: (front ++ back)) after
      fun start => returns (start + opcode.encodedLength) := by
  have hjump : Passes signatures before [Code.jumpOver opcode front] 0 fun _ => [] :=
    .jump (Instruction.change?_of_fixed heffect)
  refine ⟨hjump.append hcode.toPasses, fun start => ⟨fun _ => ?_, ?_⟩⟩
  · refine ⟨_, Code.leadsTo_jumpOver hforward hsize start, Code.jumpOver opcode front :: front, back, rfl, ?_, ?_⟩
    · change level signatures (level signatures before [Code.jumpOver opcode front]) front = 0
      rw [hjump.arrives, hfront]
    · rw [codeSize_cons, Nat.add_assoc]
  · refine (hcode.jumps _).mono fun _ hcut => RestCut.append_left [Code.jumpOver opcode front] ?_
    rw [hjump.arrives]
    exact hcut

theorem congr {code : List Instruction} (hsteady : Steady signatures before code after returns)
    (hreturns : ∀ start, returns start = others start) : Steady signatures before code after others where
  ready := hsteady.ready
  arrives := hsteady.arrives
  returns start := (hsteady.returns start).trans (hreturns start)
  jumps := hsteady.jumps

theorem branch {cond body rest : List Instruction}
    (hsize : codeSize (Code.branch cond body rest) < Instruction.offsetBound)
    (hcond : Steady signatures 0 cond 1 fun _ => []) (hbody : Steady signatures 0 body 0 returns)
    (hrest : Steady signatures 0 rest 0 others) :
    Steady signatures 0 (Code.branch cond body rest) 0 fun start =>
      returns (start + codeSize cond + Opcode.jumpIfFalse.encodedLength) ++
        others (start + codeSize cond + Opcode.jumpIfFalse.encodedLength + codeSize body +
          Opcode.jump.encodedLength) := by
  simp only [Code.branch, codeSize_append, codeSize_cons, codeSize_nil] at hsize
  have hexit : Steady signatures 0 (Code.jumpOver .jump rest :: (rest ++ [])) 0
      fun start => others (start + Opcode.jump.encodedLength) := by
    refine jumpOver (Or.inl rfl) rfl (by omega) hrest.arrives ?_
    rwa [List.append_nil]
  have htaken := hbody.append hexit
  rw [List.append_nil, ← List.singleton_append, ← List.append_assoc] at htaken
  have hleft : level signatures 0 (body ++ [Code.jumpOver .jump rest]) = 0 := by
    rw [level_append, hbody.arrives]
    rfl
  have hskip := jumpOver (Or.inr rfl) rfl (by simp only [codeSize_append, codeSize_cons, codeSize_nil]; omega)
    hleft htaken
  rw [Code.branch, List.append_assoc, List.cons_append]
  exact (hcond.append hskip).congr fun start => List.nil_append _

theorem loop {cond body : List Instruction}
    (hsize : codeSize (Code.loop cond body) < Instruction.offsetBound)
    (hcond : Steady signatures 0 cond 1 fun _ => []) (hbody : Steady signatures 0 body 0 returns) :
    Steady signatures 0 (Code.loop cond body) 0 fun start =>
      returns (start + codeSize cond + Opcode.jumpIfFalse.encodedLength) := by
  -- the jump back leads out of every part of the loop, so only the heights are put together from parts
  have hskip : Passes signatures 1 [Code.jumpOver .jumpIfFalse (Code.loopBody cond body)] 0 fun _ => [] :=
    .jump rfl
  have hback : Passes signatures 0 (Code.loopBody cond body) 0 fun start => returns start ++ [] :=
    hbody.toPasses.append (Passes.jump rfl)
  have hhead := hcond.toPasses.append hskip
  have hpasses := hhead.append hback
  rw [← Code.loop_eq_append] at hpasses
  have hreturns : ∀ start, (([] ++ []) ++ (returns (start + codeSize (cond ++
      [Code.jumpOver .jumpIfFalse (Code.loopBody cond body)])) ++ [])) =
        returns (start + codeSize cond + Opcode.jumpIfFalse.encodedLength) := by
    intro start
    rw [List.append_nil, List.append_nil, List.nil_append, codeSize_append, ← Nat.add_assoc]
    rfl
  refine ⟨⟨hpasses.ready, hpasses.arrives, fun start => (hpasses.returns start).trans (hreturns start)⟩, ?_⟩
  intro start
  refine Code.jumpsInto_loop hsize ?_ ?_ ⟨[], _, rfl, rfl, rfl⟩
    ⟨_, [], (List.append_nil _).symm, hpasses.arrives, rfl⟩
  · exact (hcond.jumps start).mono fun _ hcut => hcut.append_right _
  · refine (hbody.jumps _).mono fun offset hcut => ?_
    rw [Code.loop_eq_append]
    refine RestCut.append_left _ (RestCut.append_right ?_ _)
    rw [hhead.arrives, codeSize_append, ← Nat.add_assoc]
    exact hcut

end Steady

namespace Instruction

/-- Execution goes on behind an instruction or where it jumps to. -/
theorem of_mem_successors {instruction : Instruction} {offset target : Nat}
    (hmem : target ∈ instruction.successors offset) :
    instruction.opcode ≠ .ret ∧ (target = offset + instruction.length ∨
      instruction.opcode.isJump = true ∧ instruction.jumpTarget? offset = some target) := by
  obtain ⟨opcode, operand⟩ := instruction
  cases opcode with
  | ret => cases hmem
  | jump | jumpBackward => exact ⟨by simp, Or.inr ⟨rfl, Option.mem_toList.mp hmem⟩⟩
  | jumpIfFalse =>
      rcases List.mem_cons.mp hmem with hnext | htarget
      · exact ⟨by simp, Or.inl hnext⟩
      · exact ⟨by simp, Or.inr ⟨rfl, Option.mem_toList.mp htarget⟩⟩
  | _ => exact ⟨by simp, Or.inl (List.mem_singleton.mp hmem)⟩

end Instruction

namespace Steady

variable {code : List Instruction}

/-- The heights in the order of the code suit the jumps as well. -/
theorem balanced (hclosed : Closed code) (hsize : codeSize code < Instruction.offsetBound)
    (hsteady : Steady signatures 0 code 0 returns) :
    (Stream.ofInstructions code).Balanced signatures (heightAt signatures 0 code) where
  start := heightAt_of_split (List.nil_append code).symm
  finish := by
    rw [Stream.size_ofInstructions, heightAt_of_split (List.append_nil code).symm, hsteady.arrives]
  edges offset instruction target hboundary hdecode hmem := by
    obtain ⟨front, back, hcode, rfl⟩ := Stream.exists_split hclosed.encodable hboundary hdecode
    obtain ⟨hret, hedge⟩ := Instruction.of_mem_successors hmem
    have hready := hsteady.ready
    rw [hcode, allReady_append] at hready
    obtain ⟨hoperands, hempty⟩ := hready.2.1
    obtain ⟨change, hchange, hpops⟩ := hoperands.resolve_left hret
    have hlevel := Instruction.levelAfter_of_change? hchange (level signatures 0 front)
    rw [Stream.boundary_ofInstructions_iff code, heightAt_of_split hcode]
    rcases hedge with rfl | ⟨hjump, htarget⟩
    · have hnext : code = (front ++ [instruction]) ++ back := by simp [hcode]
      have hoffset : codeSize front + instruction.length = codeSize (front ++ [instruction]) := by simp
      refine ⟨⟨front ++ [instruction], back, hnext, by rw [hoffset, Nat.zero_add]⟩, change, hchange, hpops, ?_⟩
      rw [hoffset, heightAt_of_split hnext, level_append, level_cons, level_nil, hlevel]
      omega
    -- a jump leaves the stack empty, and so it is where the jump leads
    · obtain ⟨found, hfound, hcut⟩ :=
        Stream.jumpTarget?_of_jumpsInto hsize (fun _ hcut => hcut.cut) (hsteady.jumps 0) hcode hjump
      rw [htarget] at hfound
      cases hfound
      have hnothing := hempty hjump
      refine ⟨hcut.cut, change, hchange, hpops, ?_⟩
      rw [hcut.heightAt_eq_zero]
      omega

/-- The returns of the stream are those of the code, with their heights. -/
theorem mem_returns (hclosed : Closed code) (hsteady : Steady signatures 0 code 0 returns) (offset : Nat) :
    (∃ instruction, (Stream.ofInstructions code).Boundary offset ∧
      (Stream.ofInstructions code).decodeAt offset = .ok instruction ∧ instruction.opcode = .ret) ↔
        (offset, heightAt signatures 0 code offset) ∈ returns 0 := by
  rw [← hsteady.returns 0, mem_returnHeights]
  constructor
  · rintro ⟨instruction, hboundary, hdecode, hret⟩
    obtain ⟨front, back, hcode, rfl⟩ := Stream.exists_split hclosed.encodable hboundary hdecode
    exact ⟨front, instruction, back, hcode, hret, by rw [heightAt_of_split hcode, Nat.zero_add]⟩
  · rintro ⟨front, instruction, back, hcode, hret, hfound⟩
    obtain ⟨rfl, -⟩ := Prod.mk.inj hfound
    refine ⟨instruction, ?_, ?_, hret⟩
    · exact (Stream.boundary_ofInstructions_iff code _).mpr ⟨front, _, hcode, rfl⟩
    · rw [Nat.zero_add]
      exact Stream.decodeAt_ofInstructions hclosed.encodable hcode

theorem heightAt_of_mem_returns (hsteady : Steady signatures 0 code 0 returns) {offset height : Nat}
    (hmem : (offset, height) ∈ returns 0) : heightAt signatures 0 code offset = height := by
  rw [← hsteady.returns 0, mem_returnHeights] at hmem
  obtain ⟨front, instruction, back, hcode, -, hfound⟩ := hmem
  obtain ⟨rfl, rfl⟩ := Prod.mk.inj hfound
  rw [Nat.zero_add, heightAt_of_split hcode]

end Steady
end StackCode
