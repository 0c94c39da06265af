import StackCode.Proofs.Framing
import StackCode.Proofs.Generated

/-! Generated code is well formed: it decodes to its end, and every jump leads to a boundary. Code without
jumps is closed, and loops and branches keep closed code closed, as long as no distance exceeds a word. -/

namespace StackCode

namespace Instruction

/-- The instruction encodes without loss and is no jump. -/
structure Straight (instruction : Instruction) : Prop where
  encodable : instruction.Encodable
  isJump : instruction.opcode.isJump = false

theorem straight_operate (operation : Operation) : (operate operation).Straight := ⟨trivial, rfl⟩

theorem straight_call (id : SymbolId) : (call id).Straight := ⟨trivial, rfl⟩

theorem straight_pushInt (n : Int64) : (pushInt n).Straight := by
  refine ⟨?_, rfl⟩
  change (Width.leastSigned n).HoldsSigned n
  unfold Width.leastSigned
  split
  · assumption
  · split
    · assumption
    · split
      · assumption
      · have hlower := n.le_toInt
        have hupper := n.toInt_lt
        exact ⟨by simp [Width.modulus]; omega, by simp [Width.modulus]; omega⟩

theorem straight_pushUInt (n : UInt64) : (pushUInt n).Straight := by
  refine ⟨?_, rfl⟩
  change (Width.leastUnsigned n).HoldsUnsigned n
  unfold Width.leastUnsigned
  split
  · assumption
  · split
    · assumption
    · split
      · assumption
      · exact n.toNat_lt

theorem straight_pushFloat (x : Binary64) : (pushFloat x).Straight := by
  unfold pushFloat
  split
  · rename_i hfits
    exact ⟨hfits, rfl⟩
  · exact ⟨trivial, rfl⟩

/-- The jump at one offset leads to another. -/
def LeadsTo (instruction : Instruction) (offset target : Nat) : Prop :=
  match instruction.opcode, instruction.operand with
  | .jump, .word distance | .jumpIfFalse, .word distance =>
    target = offset + instruction.length + distance.toNat
  | .jumpBackward, .word distance => target + distance.toNat = offset + instruction.length
  | _, _ => False

theorem jumpTarget?_of_leadsTo {instruction : Instruction} {offset target : Nat}
    (hleads : instruction.LeadsTo offset target) (htarget : target < offsetBound) :
    instruction.jumpTarget? offset = some target := by
  obtain ⟨opcode, operand⟩ := instruction
  unfold LeadsTo at hleads
  split at hleads
  · rename_i distance hopcode hoperand
    subst hleads
    cases hopcode
    cases hoperand
    exact if_pos htarget
  · rename_i distance hopcode hoperand
    subst hleads
    cases hopcode
    cases hoperand
    exact if_pos htarget
  · rename_i distance hopcode hoperand
    cases hopcode
    cases hoperand
    have hle : distance.toNat ≤ offset + length ⟨.jumpBackward, .word distance⟩ := by omega
    refine (if_pos hle).trans (congrArg some ?_)
    omega
  · exact hleads.elim

/-- A jump that leads somewhere is read back as it was written. -/
theorem reread_of_leadsTo {jump : Instruction} {offset target : Nat} (hleads : jump.LeadsTo offset target) :
    jump.reread = jump := by
  apply reread_of_encodable
  obtain ⟨opcode, operand⟩ := jump
  cases operand with
  | word distance =>
      cases opcode with
      | jump | jumpBackward | jumpIfFalse => trivial
      | _ => cases hleads
  | _ => cases opcode <;> cases hleads

end Instruction

/-- Code without jumps. -/
def Straight (code : List Instruction) : Prop := ∀ instruction ∈ code, instruction.Straight

@[simp] theorem straight_nil : Straight [] := by simp [Straight]

@[simp] theorem straight_cons {instruction : Instruction} {code : List Instruction} :
    Straight (instruction :: code) ↔ instruction.Straight ∧ Straight code := by
  simp [Straight]

@[simp] theorem straight_append {first second : List Instruction} :
    Straight (first ++ second) ↔ Straight first ∧ Straight second := by
  simp [Straight, or_imp, forall_and]

theorem Straight.concat {code : List Instruction} {last : Instruction} (hcode : Straight code)
    (hlast : last.Straight) : Straight (code ++ [last]) :=
  straight_append.mpr ⟨hcode, straight_cons.mpr ⟨hlast, straight_nil⟩⟩

/-- An offset between two instructions of the code that starts at an offset. -/
def Cut (start : Nat) (code : List Instruction) (offset : Nat) : Prop :=
  ∃ front back, code = front ++ back ∧ offset = start + codeSize front

theorem cut_start (start : Nat) (code : List Instruction) : Cut start code start := ⟨[], code, rfl, rfl⟩

theorem cut_end (start : Nat) (code : List Instruction) : Cut start code (start + codeSize code) :=
  ⟨code, [], (List.append_nil code).symm, rfl⟩

theorem Cut.append_right {start offset : Nat} {code : List Instruction} (hcut : Cut start code offset)
    (rest : List Instruction) : Cut start (code ++ rest) offset := by
  obtain ⟨front, back, rfl, rfl⟩ := hcut
  exact ⟨front, back ++ rest, List.append_assoc _ _ _, rfl⟩

theorem Cut.append_left {start offset : Nat} (first : List Instruction) {code : List Instruction}
    (hcut : Cut (start + codeSize first) code offset) : Cut start (first ++ code) offset := by
  obtain ⟨front, back, rfl, rfl⟩ := hcut
  refine ⟨first ++ front, back, (List.append_assoc _ _ _).symm, ?_⟩
  rw [codeSize_append, Nat.add_assoc]

theorem Cut.le {start offset : Nat} {code : List Instruction} (hcut : Cut start code offset) :
    offset ≤ start + codeSize code := by
  obtain ⟨front, back, rfl, rfl⟩ := hcut
  rw [codeSize_append]
  omega

/-- Every jump of the code that starts at an offset leads to one of the targets. -/
def JumpsInto (target : Nat → Prop) : Nat → List Instruction → Prop
  | _, [] => True
  | offset, instruction :: rest =>
    (instruction.opcode.isJump = true → ∃ found, instruction.LeadsTo offset found ∧ target found) ∧
      JumpsInto target (offset + instruction.length) rest

theorem jumpsInto_append (target : Nat → Prop) (offset : Nat) (first second : List Instruction) :
    JumpsInto target offset (first ++ second) ↔
      JumpsInto target offset first ∧ JumpsInto target (offset + codeSize first) second := by
  induction first generalizing offset with
  | nil => simp [JumpsInto]
  | cons instruction first ih =>
      rw [List.cons_append, JumpsInto, JumpsInto, ih, codeSize_cons, Nat.add_assoc, and_assoc]

theorem JumpsInto.exists_leadsTo {target : Nat → Prop} {code front back : List Instruction} {jump : Instruction}
    (hjumps : JumpsInto target 0 code) (hcode : code = front ++ jump :: back) (hjump : jump.opcode.isJump = true) :
    ∃ found, jump.LeadsTo (codeSize front) found ∧ target found := by
  rw [hcode, jumpsInto_append, Nat.zero_add] at hjumps
  exact hjumps.2.1 hjump

theorem JumpsInto.mono {target wider : Nat → Prop} {offset : Nat} {code : List Instruction}
    (hjumps : JumpsInto target offset code) (hwider : ∀ found, target found → wider found) :
    JumpsInto wider offset code := by
  induction code generalizing offset with
  | nil => trivial
  | cons instruction code ih =>
      obtain ⟨hfirst, hrest⟩ := hjumps
      refine ⟨fun hjump => ?_, ih hrest⟩
      obtain ⟨found, hleads, htarget⟩ := hfirst hjump
      exact ⟨found, hleads, hwider found htarget⟩

theorem jumpsInto_of_straight (target : Nat → Prop) (offset : Nat) {code : List Instruction}
    (hstraight : Straight code) : JumpsInto target offset code := by
  induction code generalizing offset with
  | nil => trivial
  | cons instruction code ih =>
      obtain ⟨hfirst, hrest⟩ := straight_cons.mp hstraight
      refine ⟨fun hjump => ?_, ih _ hrest⟩
      rw [hfirst.isJump] at hjump
      cases hjump

/-- Wherever code that is short enough starts, its jumps stay within it and lead to its cuts. -/
structure Closed (code : List Instruction) : Prop where
  encodable : ∀ instruction ∈ code, instruction.Encodable
  jumps : codeSize code < Instruction.offsetBound → ∀ start, JumpsInto (Cut start code) start code

theorem Straight.closed {code : List Instruction} (hstraight : Straight code) : Closed code where
  encodable instruction hmem := (hstraight instruction hmem).encodable
  jumps _ start := jumpsInto_of_straight _ start hstraight

theorem Closed.append {first second : List Instruction} (hfirst : Closed first) (hsecond : Closed second) :
    Closed (first ++ second) where
  encodable instruction hmem := by
    rcases List.mem_append.mp hmem with hmem | hmem
    · exact hfirst.encodable instruction hmem
    · exact hsecond.encodable instruction hmem
  jumps hsize start := by
    rw [codeSize_append] at hsize
    rw [jumpsInto_append]
    constructor
    · exact (hfirst.jumps (by omega) start).mono fun _ hcut => hcut.append_right second
    · exact (hsecond.jumps (by omega) _).mono fun _ hcut => hcut.append_left first

namespace Code

theorem encodable_jumpOver {opcode : Opcode} (hforward : opcode = .jump ∨ opcode = .jumpIfFalse)
    (code : List Instruction) : (jumpOver opcode code).Encodable := by
  rcases hforward with rfl | rfl <;> trivial

theorem leadsTo_jumpOver {opcode : Opcode} (hforward : opcode = .jump ∨ opcode = .jumpIfFalse)
    {code : List Instruction} (hsize : codeSize code < Instruction.offsetBound) (offset : Nat) :
    (jumpOver opcode code).LeadsTo offset
      (offset + (jumpOver opcode code).length + codeSize code) := by
  rcases hforward with rfl | rfl <;>
    exact congrArg (offset + _ + ·) (toNat_ofNat_of_short hsize).symm

theorem codeSize_loop (cond body : List Instruction) :
    codeSize (loop cond body) = codeSize cond + Opcode.jumpIfFalse.encodedLength + codeSize body +
      Opcode.jumpBackward.encodedLength := by
  simp only [loop, loopBody, codeSize_append, codeSize_cons, codeSize_nil, length_jumpOver]
  change _ + (_ + (_ + (Opcode.jumpBackward.encodedLength + 0))) = _
  omega

/-- The jumps of a loop lead to its start and to its end. -/
theorem jumpsInto_loop {target : Nat → Prop} {start : Nat} {cond body : List Instruction}
    (hsize : codeSize (loop cond body) < Instruction.offsetBound) (hcond : JumpsInto target start cond)
    (hbody : JumpsInto target (start + codeSize cond + Opcode.jumpIfFalse.encodedLength) body)
    (hstart : target start) (hend : target (start + codeSize (loop cond body))) :
    JumpsInto target start (loop cond body) := by
  rw [codeSize_loop] at hsize hend
  have hrest : codeSize (loopBody cond body) = codeSize body + Opcode.jumpBackward.encodedLength := by
    rw [loopBody, codeSize_append]
    rfl
  rw [loop, jumpsInto_append]
  refine ⟨hcond, fun _ => ⟨_, leadsTo_jumpOver (Or.inr rfl) (by omega) _, ?_⟩, ?_⟩
  · rw [hrest]
    simpa only [length_jumpOver, Nat.add_assoc] using hend
  · rw [loopBody, jumpsInto_append]
    refine ⟨hbody, fun _ => ⟨start, ?_, hstart⟩, trivial⟩
    change start + (UInt64.ofNat _).toNat = _
    rw [toNat_ofNat_of_short hsize]
    simp only [Nat.add_assoc]
    rfl

theorem loop_eq_append (cond body : List Instruction) :
    loop cond body = (cond ++ [jumpOver .jumpIfFalse (loopBody cond body)]) ++ loopBody cond body := by
  simp [loop]

theorem closed_loop {cond body : List Instruction} (hcond : Closed cond) (hbody : Closed body) :
    Closed (loop cond body) where
  encodable instruction hmem := by
    simp only [loop, loopBody, List.mem_append, List.mem_cons, List.not_mem_nil, or_false] at hmem
    rcases hmem with hmem | rfl | hmem | rfl
    · exact hcond.encodable instruction hmem
    · trivial
    · exact hbody.encodable instruction hmem
    · trivial
  jumps hsize start := by
    have htotal := codeSize_loop cond body
    refine jumpsInto_loop hsize ?_ ?_ (cut_start _ _) (cut_end _ _)
    · exact (hcond.jumps (by omega) start).mono fun _ hcut => hcut.append_right _
    · refine (hbody.jumps (by omega) _).mono fun offset hcut => ?_
      rw [loop_eq_append]
      refine Cut.append_left _ (Cut.append_right ?_ _)
      rw [codeSize_append, ← Nat.add_assoc]
      exact hcut

/-- A jump into closed code that it stands before. -/
theorem closed_jumpOver {opcode : Opcode} (hforward : opcode = .jump ∨ opcode = .jumpIfFalse)
    {front : List Instruction} (back : List Instruction) (hclosed : Closed (front ++ back)) :
    Closed (jumpOver opcode front :: (front ++ back)) where
  encodable instruction hmem := by
    rcases List.mem_cons.mp hmem with rfl | hmem
    · exact encodable_jumpOver hforward front
    · exact hclosed.encodable instruction hmem
  jumps hsize start := by
    rw [codeSize_cons] at hsize
    have hfront : codeSize (front ++ back) = codeSize front + codeSize back := codeSize_append front back
    have hinner : ∀ offset, Cut (start + (jumpOver opcode front).length) (front ++ back) offset →
        Cut start (jumpOver opcode front :: (front ++ back)) offset :=
      fun _ hcut => Cut.append_left [jumpOver opcode front] hcut
    refine ⟨fun _ => ⟨_, leadsTo_jumpOver hforward (by omega) start, ?_⟩, ?_⟩
    · exact hinner _ ((cut_end _ front).append_right back)
    · exact (hclosed.jumps (by omega) _).mono hinner

theorem closed_branch {cond body rest : List Instruction} (hcond : Closed cond) (hbody : Closed body)
    (hothers : Closed rest) : Closed (branch cond body rest) := by
  have hexit : Closed (jumpOver .jump rest :: (rest ++ [])) :=
    closed_jumpOver (Or.inl rfl) [] (by rwa [List.append_nil])
  have htaken : Closed ((body ++ [jumpOver .jump rest]) ++ rest) := by
    simpa using hbody.append hexit
  rw [branch, List.append_assoc]
  exact hcond.append (closed_jumpOver (Or.inr rfl) rest htaken)

theorem straight_literal (value : Literal) : Straight value.code := by
  cases value with
  | bool truth => simpa [Literal.code] using Instruction.straight_pushInt _
  | char c => simpa [Literal.code] using Instruction.straight_pushInt _
  | int n => simpa [Literal.code] using Instruction.straight_pushInt n
  | uint n => simpa [Literal.code] using Instruction.straight_pushUInt n
  | float x => simpa [Literal.code] using Instruction.straight_pushFloat x
  | str text =>
      refine straight_append.mpr ⟨?_, ?_⟩
      · intro instruction hmem
        obtain ⟨c, -, rfl⟩ := List.mem_map.mp hmem
        exact Instruction.straight_pushInt _
      · exact straight_cons.mpr ⟨⟨trivial, rfl⟩, straight_nil⟩

theorem straight_operations (operation : Option Operation) :
    Straight (operation.map Instruction.operate).toList := by
  cases operation with
  | none => exact straight_nil
  | some operation => exact straight_cons.mpr ⟨Instruction.straight_operate operation, straight_nil⟩

theorem straight_widening (op : BinaryOp) (family : Option Family) (ty : Option DataType) :
    Straight (widening op family ty) := by
  unfold widening
  split
  · rename_i family ty
    unfold BinaryOp.widening
    repeat' split
    all_goals simp [Except.toOption, Instruction.straight_operate, Instruction.straight_call]
  · exact straight_nil

theorem straight_binary (op : BinaryOp) (leftType rightType : Option DataType)
    {left right : List Instruction} (hleft : Straight left) (hright : Straight right) :
    Straight (binary op leftType rightType left right) := by
  refine .concat ?_ (Instruction.straight_operate _)
  simp only [straight_append]
  exact ⟨⟨⟨hleft, straight_widening _ _ _⟩, hright⟩, straight_widening _ _ _⟩

mutual

theorem straight_expr : (tree : Expr) → Straight (expr tree)
  | .literal value _ => straight_literal value
  | .var _ _ => straight_cons.mpr ⟨⟨trivial, rfl⟩, straight_nil⟩
  | .array items _ => .concat (straight_exprs items) ⟨trivial, rfl⟩
  | .unary _ operand _ => .concat (straight_expr operand) (Instruction.straight_operate _)
  | .binary op left right _ => straight_binary op _ _ (straight_expr left) (straight_expr right)
  | .subscript base index _ => by
      rw [expr]
      split
      · exact .concat (straight_append.mpr ⟨straight_expr index, straight_subscripts base⟩) ⟨trivial, rfl⟩
      · exact .concat (straight_append.mpr ⟨straight_expr base, straight_expr index⟩) ⟨trivial, rfl⟩
  | .call id args _ => .concat (straight_exprs args) (Instruction.straight_call id)

theorem straight_exprs : (list : List Expr) → Straight (exprs list)
  | [] => straight_nil
  | item :: rest => straight_append.mpr ⟨straight_expr item, straight_exprs rest⟩

theorem straight_subscripts : (tree : Expr) → Straight (subscripts tree)
  | .subscript base index _ => straight_append.mpr ⟨straight_expr index, straight_subscripts base⟩
  | .literal _ _ | .var _ _ | .array _ _ | .unary _ _ _ | .binary _ _ _ _ | .call _ _ _ => straight_nil

end

theorem straight_converted (value : Expr) (target : DataType) : Straight (converted value target) :=
  straight_append.mpr ⟨straight_expr value, straight_operations _⟩

theorem straight_sizes : (dims : Nat) → (declared : List (Option Expr)) → Straight (sizes dims declared)
  | 0, _ => straight_nil
  | dims + 1, [] => straight_cons.mpr ⟨Instruction.straight_pushInt 0, straight_sizes dims []⟩
  | dims + 1, none :: rest => straight_cons.mpr ⟨Instruction.straight_pushInt 0, straight_sizes dims rest⟩
  | dims + 1, some size :: rest => straight_append.mpr ⟨straight_expr size, straight_sizes dims rest⟩

theorem straight_zero (ty : DataType) (declared : List (Option Expr)) : Straight (zero ty declared) := by
  unfold zero
  split
  · exact .concat (straight_sizes _ _) ⟨trivial, rfl⟩
  · refine straight_cons.mpr ⟨?_, straight_nil⟩
    unfold DataType.zeroScalar
    split
    · exact Instruction.straight_pushFloat .zero
    · exact Instruction.straight_pushUInt 0
    · exact ⟨trivial, rfl⟩
    · exact Instruction.straight_pushInt 0
    · exact Instruction.straight_pushInt 0
    · exact Instruction.straight_pushInt 0

theorem straight_padding (ty : DataType) (declared : List (Option Expr)) :
    (count : Nat) → Straight (padding ty declared count)
  | 0 => straight_nil
  | count + 1 => straight_append.mpr ⟨straight_zero ty declared, straight_padding ty declared count⟩

theorem straight_finishArray (itemType : DataType) (declared : List (Option Expr)) (found : Nat) :
    Straight (finishArray itemType declared found) :=
  .concat (straight_padding _ _ _) ⟨trivial, rfl⟩

mutual

theorem straight_arrayItem (itemType : DataType) (declared : List (Option Expr)) :
    (item : Expr) → Straight (arrayItem itemType declared item)
  | .array items ty => by
      rw [arrayItem]
      split
      · exact straight_append.mpr ⟨straight_arrayItems _ _ items, straight_finishArray _ _ _⟩
      · exact straight_converted _ _
  | .literal _ _ | .var _ _ | .unary _ _ _ | .binary _ _ _ _ | .subscript _ _ _ | .call _ _ _ =>
      straight_converted _ _

theorem straight_arrayItems (itemType : DataType) (declared : List (Option Expr)) :
    (items : List Expr) → Straight (arrayItems itemType declared items)
  | [] => straight_nil
  | item :: rest =>
      straight_append.mpr ⟨straight_arrayItem itemType declared item, straight_arrayItems itemType declared rest⟩

end

theorem straight_initialValue (ty : DataType) (declared : List (Option Expr)) (init : Option Expr) :
    Straight (initialValue ty declared init) := by
  cases init with
  | none => exact straight_zero ty declared
  | some value =>
      unfold initialValue
      simp only
      split
      · cases value with
        | array items _ =>
            exact straight_append.mpr ⟨straight_arrayItems _ _ items, straight_finishArray _ _ _⟩
        | _ => exact straight_expr _
      · exact straight_converted value ty

theorem straight_assignedValue (ty : DataType) (op : Option Arith) (current value : Expr) :
    Straight (assignedValue ty op current value) := by
  cases op with
  | none => exact straight_converted value ty
  | some op =>
      exact straight_append.mpr ⟨straight_binary _ _ _ (straight_expr current) (straight_expr value),
        straight_operations _⟩

mutual

theorem closed_stmt : (tree : Stmt) → Closed (stmt tree)
  | .declare _ ty declared init => Straight.closed (.concat (straight_initialValue ty declared init) ⟨trivial, rfl⟩)
  | .assign _ ty op value => Straight.closed (.concat (straight_assignedValue ty op _ value) ⟨trivial, rfl⟩)
  | .assignElement _ ty indices op value =>
      Straight.closed (.concat (straight_append.mpr ⟨straight_exprs indices.reverse,
        straight_assignedValue ty op _ value⟩) ⟨trivial, rfl⟩)
  | .conditional list => closed_branches list
  | .whileLoop cond body => closed_loop (straight_expr cond).closed (closed_stmts body)
  | .forLoop init cond body =>
      (closed_stmt init).append (closed_loop (straight_expr cond).closed (closed_stmts body))
  | .function _ _ _ => straight_nil.closed
  | .ret none => Straight.closed (.concat straight_nil ⟨trivial, rfl⟩)
  | .ret (some value) => Straight.closed (.concat (straight_expr value) ⟨trivial, rfl⟩)
  | .expr value => by
      refine (straight_append.mpr ⟨straight_expr value, ?_⟩).closed
      split
      · exact straight_cons.mpr ⟨⟨trivial, rfl⟩, straight_nil⟩
      · exact straight_nil

theorem closed_stmts : (list : List Stmt) → Closed (stmts list)
  | [] => straight_nil.closed
  | first :: rest => (closed_stmt first).append (closed_stmts rest)

theorem closed_branches : (list : Branches) → Closed (branches list)
  | .otherwise body => closed_stmts body
  | .arm cond body rest => closed_branch (straight_expr cond).closed (closed_stmts body) (closed_branches rest)

end

end Code

namespace Stream

variable {code : List Instruction}

/-- An instruction of the list is read back at the offset behind those before it. -/
theorem decodeAt_ofInstructions_eq_reread {front back : List Instruction} {instruction : Instruction}
    (hcode : code = front ++ instruction :: back) :
    (ofInstructions code).decodeAt (codeSize front) = .ok instruction.reread := by
  have hbytes : (ofInstructions code).bytes.toList =
      encodeAll front ++ instruction.encode ++ encodeAll back := by
    rw [toList_ofInstructions, hcode]
    simp
  have hdecode := Instruction.decode_of_split_eq_reread hbytes
  rwa [length_encodeAll] at hdecode

theorem decodeAt_ofInstructions (hencodable : ∀ instruction ∈ code, instruction.Encodable)
    {front back : List Instruction} {instruction : Instruction}
    (hcode : code = front ++ instruction :: back) :
    (ofInstructions code).decodeAt (codeSize front) = .ok instruction := by
  have hfits : instruction.Encodable := hencodable instruction (by simp [hcode])
  rw [decodeAt_ofInstructions_eq_reread hcode, Instruction.reread_of_encodable hfits]

/-- The boundaries of a stream of instructions are the cuts between them. -/
theorem boundary_ofInstructions_iff (code : List Instruction) (offset : Nat) :
    (ofInstructions code).Boundary offset ↔ Cut 0 code offset := by
  constructor
  · have hreaches : ∀ start target, (ofInstructions code).Reaches start target → Cut 0 code start →
        Cut 0 code target := by
      intro start target hreaches
      induction hreaches with
      | refl offset => exact id
      | @step offset target instruction hdecode _ ih =>
          rintro ⟨front, back, hcode, rfl⟩
          rw [Nat.zero_add] at hdecode ih
          cases back with
          | nil =>
              have hlt := lt_size_of_decodeAt hdecode
              rw [size_ofInstructions, hcode, List.append_nil] at hlt
              omega
          | cons next back =>
              rw [decodeAt_ofInstructions_eq_reread hcode] at hdecode
              cases hdecode
              refine ih ⟨front ++ [next], back, by simp [hcode], ?_⟩
              simp
    exact fun hboundary => hreaches 0 offset hboundary (cut_start 0 code)
  · rintro ⟨front, back, hcode, rfl⟩
    rw [Nat.zero_add]
    induction front using List.reverseRecOn generalizing back with
    | nil => exact boundary_zero _
    | append_singleton front last ih =>
        have hsplit : code = front ++ last :: back := by simp [hcode]
        have hnext := (ih (last :: back) hsplit).next (decodeAt_ofInstructions_eq_reread hsplit)
        rwa [Instruction.length_reread, ← codeSize_concat] at hnext

/-- An instruction that is decoded at a boundary is what is read back of one of the list. -/
theorem exists_split_eq_reread {offset : Nat} {instruction : Instruction}
    (hboundary : (ofInstructions code).Boundary offset)
    (hdecode : (ofInstructions code).decodeAt offset = .ok instruction) :
    ∃ front written back, code = front ++ written :: back ∧ offset = codeSize front ∧
      instruction = written.reread := by
  obtain ⟨front, back, hcode, hoffset⟩ := (boundary_ofInstructions_iff code offset).mp hboundary
  rw [Nat.zero_add] at hoffset
  subst hoffset
  cases back with
  | nil =>
      have hlt := lt_size_of_decodeAt hdecode
      rw [size_ofInstructions, hcode, List.append_nil] at hlt
      omega
  | cons next back =>
      rw [decodeAt_ofInstructions_eq_reread hcode] at hdecode
      cases hdecode
      exact ⟨front, next, back, hcode, rfl, rfl⟩

theorem exists_split (hencodable : ∀ instruction ∈ code, instruction.Encodable) {offset : Nat}
    {instruction : Instruction} (hboundary : (ofInstructions code).Boundary offset)
    (hdecode : (ofInstructions code).decodeAt offset = .ok instruction) :
    ∃ front back, code = front ++ instruction :: back ∧ offset = codeSize front := by
  obtain ⟨front, written, back, hcode, hoffset, rfl⟩ := exists_split_eq_reread hboundary hdecode
  have hfits : written.Encodable := hencodable written (by simp [hcode])
  rw [Instruction.reread_of_encodable hfits]
  exact ⟨front, back, hcode, hoffset⟩

theorem decodes_ofInstructions (code : List Instruction) : (ofInstructions code).Decodes := by
  intro offset hboundary hlt
  obtain ⟨front, back, hcode, rfl⟩ := (boundary_ofInstructions_iff code offset).mp hboundary
  rw [Nat.zero_add] at hlt ⊢
  cases back with
  | nil =>
      rw [size_ofInstructions, hcode, List.append_nil] at hlt
      omega
  | cons next back => exact ⟨next.reread, decodeAt_ofInstructions_eq_reread hcode⟩

/-- A jump of the list leads to one of the targets that its jumps lead to. -/
theorem jumpTarget?_of_jumpsInto {target : Nat → Prop} (hsize : codeSize code < Instruction.offsetBound)
    (hcuts : ∀ found, target found → Cut 0 code found) (hjumps : JumpsInto target 0 code)
    {front back : List Instruction} {instruction : Instruction} (hcode : code = front ++ instruction :: back)
    (hjump : instruction.opcode.isJump = true) :
    ∃ found, instruction.jumpTarget? (codeSize front) = some found ∧ target found := by
  obtain ⟨found, hleads, htarget⟩ := hjumps.exists_leadsTo hcode hjump
  have hle := (hcuts found htarget).le
  exact ⟨found, Instruction.jumpTarget?_of_leadsTo hleads (by omega), htarget⟩

/-- Jumps that lead to cuts of the code are aligned, whatever the other instructions are. -/
theorem jumpsAligned_of_leadsTo (hsize : codeSize code < Instruction.offsetBound)
    (hjumps : ∀ front jump back, code = front ++ jump :: back → jump.opcode.isJump = true →
      ∃ target, jump.LeadsTo (codeSize front) target ∧ Cut 0 code target) :
    (ofInstructions code).JumpsAligned := by
  intro offset instruction hboundary hdecode hjump
  obtain ⟨front, written, back, hcode, rfl, rfl⟩ := exists_split_eq_reread hboundary hdecode
  obtain ⟨target, hleads, hcut⟩ := hjumps front written back hcode hjump
  have hle := hcut.le
  rw [Instruction.reread_of_leadsTo hleads]
  exact ⟨target, Instruction.jumpTarget?_of_leadsTo hleads (by omega),
    (boundary_ofInstructions_iff code target).mpr hcut⟩

theorem jumpsAligned_ofInstructions (hclosed : Closed code)
    (hsize : (ofInstructions code).size < Instruction.offsetBound) : (ofInstructions code).JumpsAligned := by
  rw [size_ofInstructions] at hsize
  apply jumpsAligned_of_leadsTo hsize
  intro front jump back hcode hjump
  exact (hclosed.jumps hsize 0).exists_leadsTo hcode hjump

/-- The stream passes the jump check, that is, it decodes to its end and every jump leads to a boundary. -/
structure WellFormed (stream : Stream) : Prop where
  checkJumps : stream.checkJumps = .ok ()
  decodes : stream.Decodes
  jumpsAligned : stream.JumpsAligned

theorem wellFormed_ofInstructions (hclosed : Closed code)
    (hsize : (ofInstructions code).size < Instruction.offsetBound) : (ofInstructions code).WellFormed := by
  have hdecodes := decodes_ofInstructions code
  have haligned := jumpsAligned_ofInstructions hclosed hsize
  exact ⟨checkJumps_eq_ok_iff.mpr ⟨hdecodes, haligned⟩, hdecodes, haligned⟩

end Stream

namespace Context

/-- The contexts that come about from the empty one. A compilation leaves a context whether it succeeds
or not. -/
inductive Reached : Context → Prop where
  | empty : Reached .empty
  | compile {context : Context} (hreached : Reached context) (statements : List Stmt) :
      Reached (compile context statements).2
  | allocateId {context after : Context} {id : SymbolId} (hreached : Reached context)
      (hallocate : context.allocateId = .ok (id, after)) : Reached after

/-- Every function has the code of some statements. -/
def Generated (context : Context) : Prop :=
  ∀ id function, context.functions.get? id = some function →
    ∃ statements, function.code = .ofInstructions (Code.stmts statements)

theorem DeclaresPart.generated {declared : List Declaration} {before after : Context}
    (hpart : before.DeclaresPart declared after) (hbefore : before.Generated) : after.Generated := by
  intro id function hget
  rcases hpart.added id function hget with hold | ⟨declaration, -, -, -, hempty | hcode⟩
  · exact hbefore id function hold
  · exact ⟨[], hempty⟩
  · exact ⟨declaration.body, hcode⟩

theorem Generated.compile {context : Context} (hgenerated : context.Generated) (statements : List Stmt) :
    (StackCode.compile context statements).2.Generated := by
  rcases hcompile : StackCode.compile context statements with ⟨error | code, after⟩
  · exact (compile_of_error hcompile).2.generated hgenerated
  · exact (compile_of_ok hcompile).2.part.generated hgenerated

theorem Reached.generated {context : Context} (hreached : context.Reached) : context.Generated := by
  induction hreached with
  | empty => exact fun _ _ hget => by cases hget
  | compile _ statements ih => exact ih.compile statements
  | @allocateId context after id _ hallocate ih =>
      have hfunctions : after.functions = context.functions := by
        unfold Context.allocateId at hallocate
        split at hallocate
        · cases hallocate
          rfl
        · cases hallocate
      intro id function hget
      rw [hfunctions] at hget
      exact ih id function hget

end Context

/-- In any context that compilations have led to, a compilation never fails at patching a jump, and the
streams that it makes and that it leaves in the context are well formed unless they exceed the offsets. -/
theorem compile_wellFormed {context : Context} (hreached : context.Reached) (statements : List Stmt) :
    (∀ error, (compile context statements).1 ≠ .error (.patch error)) ∧
      (∀ code, (compile context statements).1 = .ok code → code.size < Instruction.offsetBound →
        code.WellFormed) ∧
      ∀ id function, (compile context statements).2.functions.get? id = some function →
        function.code.size < Instruction.offsetBound → function.code.WellFormed := by
  refine ⟨?_, ?_, ?_⟩
  · intro error hpatch
    have hcompile : compile context statements = (.error (.patch error), (compile context statements).2) :=
      Prod.ext hpatch rfl
    have hnot := (compile_of_error hcompile).1
    cases hnot
  · intro code hok hsize
    have hcompile : compile context statements = (.ok code, (compile context statements).2) :=
      Prod.ext hok rfl
    obtain ⟨rfl, -⟩ := compile_of_ok hcompile
    exact Stream.wellFormed_ofInstructions (Code.closed_stmts statements) hsize
  · intro id function hget hsize
    obtain ⟨body, hcode⟩ := (hreached.generated.compile statements) id function hget
    rw [hcode] at hsize ⊢
    exact Stream.wellFormed_ofInstructions (Code.closed_stmts body) hsize

/-- A function that counts its argument down in a loop and leaves it from within a branch. -/
def countdown : List Stmt :=
  [.function 100 [101]
    [.whileLoop (.var 101 (some .int64))
      [.conditional (.arm (.binary (.compare .lt) (.var 101 (some .int64)) (.literal (.int 3) (some .int64))
        (some .bool)) [.ret (some (.var 101 (some .int64)))] (.otherwise
          [.assign 101 .int64 (some .sub) (.literal (.int 1) (some .int64))]))]],
   .whileLoop (.literal (.bool true) (some .bool)) [.expr (.call 100 [.literal (.int 9) (some .int64)] none)]]

/-- Negates a text, which is refused; the function that does so stays without code. -/
def refused : List Stmt :=
  [.function 200 [] [.expr (.unary .neg (.var 201 (some .str)) none)]]

theorem compile_wellFormed_countdown :
    ∃ code function empty, (compile (compile .empty refused).2 countdown).1 = .ok code ∧
      (compile (compile .empty refused).2 countdown).2.functions.get? 100 = some function ∧
      (compile (compile .empty refused).2 countdown).2.functions.get? 200 = some empty ∧
      code.WellFormed ∧ function.code.WellFormed ∧ empty.code.WellFormed := by
  have hwellFormed := compile_wellFormed (Context.Reached.compile .empty refused) countdown
  have hcode : (compile (compile .empty refused).2 countdown).1 =
      .ok (.ofInstructions (Code.stmts countdown)) := by decide +kernel
  have hfunction : (compile (compile .empty refused).2 countdown).2.functions.get? 100 =
      (Declaration.find? (Declaration.ofStmts countdown) 100).map Declaration.function := by decide +kernel
  have hempty : (compile (compile .empty refused).2 countdown).2.functions.get? 200 = some ⟨[], .empty⟩ := by
    decide +kernel
  exact ⟨_, _, _, hcode, hfunction, hempty, hwellFormed.2.1 _ hcode (by decide +kernel),
    hwellFormed.2.2 100 _ hfunction (by decide +kernel), hwellFormed.2.2 200 _ hempty (by decide +kernel)⟩

end StackCode
