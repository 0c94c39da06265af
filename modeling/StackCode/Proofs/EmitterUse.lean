import StackCode.Proofs.UniqueFraming

/-! Emitters in use. Instructions with any operands, forward jumps, jumps back to boundaries and patches of the sites
handed out may follow one another in any order: no patch fails or touches more than the distance of its own jump, every
jump leads to where the calls say, and the stream passes the jump check. -/

namespace StackCode

/-- The instruction stands at an offset of the code. -/
def Stands (code : List Instruction) (offset : Nat) (instruction : Instruction) : Prop :=
  ∃ front back, code = front ++ instruction :: back ∧ offset = codeSize front

section Stands

variable {code : List Instruction} {offset : Nat} {instruction : Instruction}

theorem Stands.le (hstands : Stands code offset instruction) : offset + instruction.length ≤ codeSize code := by
  obtain ⟨front, back, rfl, rfl⟩ := hstands
  rw [codeSize_append, codeSize_cons]
  omega

theorem Stands.lt (hstands : Stands code offset instruction) : offset < codeSize code := by
  have hle := hstands.le
  have hlength := instruction.one_le_length
  omega

theorem Stands.append_right (hstands : Stands code offset instruction) (rest : List Instruction) :
    Stands (code ++ rest) offset instruction := by
  obtain ⟨front, back, rfl, rfl⟩ := hstands
  exact ⟨front, back ++ rest, by simp, rfl⟩

theorem stands_last (code : List Instruction) (last : Instruction) :
    Stands (code ++ [last]) (codeSize code) last :=
  ⟨code, [], rfl, rfl⟩

/-- With one instruction replaced by another as long, all others stand where they stood. -/
theorem Stands.replace {front back : List Instruction} {old new : Instruction} (hlength : new.length = old.length)
    (hstands : Stands (front ++ new :: back) offset instruction) :
    (offset = codeSize front ∧ instruction = new) ∨
      (offset ≠ codeSize front ∧ Stands (front ++ old :: back) offset instruction) := by
  obtain ⟨before, after, hcode, rfl⟩ := hstands
  rcases List.append_eq_append_iff.mp hcode with ⟨middle, rfl, hrest⟩ | ⟨middle, rfl, hrest⟩
  · cases middle with
    | nil =>
        cases hrest
        exact Or.inl ⟨by simp, rfl⟩
    | cons first middle =>
        cases hrest
        have hpos := old.one_le_length
        refine Or.inr ⟨?_, front ++ old :: middle, after, by simp, ?_⟩
        · simp only [codeSize_append, codeSize_cons]
          omega
        · simp only [codeSize_append, codeSize_cons, hlength]
  · cases middle with
    | nil =>
        cases hrest
        exact Or.inl ⟨by simp, rfl⟩
    | cons first middle =>
        cases hrest
        have hpos := instruction.one_le_length
        refine Or.inr ⟨?_, before, middle ++ old :: back, by simp, rfl⟩
        simp only [codeSize_append, codeSize_cons]
        omega

theorem stands_concat {last : Instruction} (hstands : Stands (code ++ [last]) offset instruction) :
    (offset = codeSize code ∧ instruction = last) ∨ Stands code offset instruction := by
  obtain ⟨front, back, hcode, rfl⟩ := hstands
  rcases last_or_split hcode with ⟨rfl, rfl⟩ | ⟨rest, rfl, -⟩
  · exact Or.inl ⟨rfl, rfl⟩
  · exact Or.inr ⟨front, rest, rfl, rfl⟩

end Stands

/-- Where code can be cut depends on the lengths of its instructions alone. -/
theorem cut_iff_mem_edges (code : List Instruction) (offset : Nat) :
    Cut 0 code offset ↔ offset ∈ edges 0 (code.map Instruction.length) := by
  have hedges := (Stream.boundaries_eq_ok_iff.mp (Stream.boundaries_ofInstructions code)).2
  rw [← hedges, Stream.mem_boundaries_iff (Stream.decodes_ofInstructions code), Stream.boundary_ofInstructions_iff]

theorem Cut.replace {front back : List Instruction} {old new : Instruction} {offset : Nat}
    (hlength : new.length = old.length) (hcut : Cut 0 (front ++ old :: back) offset) :
    Cut 0 (front ++ new :: back) offset := by
  rw [cut_iff_mem_edges] at hcut ⊢
  simpa [hlength] using hcut

/-- The jump at the offset has the opcode and leads to the target, which is a boundary. -/
def JumpLeads (code : List Instruction) (opcode : Opcode) (offset target : Nat) : Prop :=
  ∃ distance, Stands code offset (.withWord opcode distance) ∧
    (Instruction.withWord opcode distance).LeadsTo offset target ∧ Cut 0 code target

section JumpLeads

variable {code front back : List Instruction} {opcode : Opcode} {offset target : Nat}

theorem JumpLeads.append_right (hleads : JumpLeads code opcode offset target) (rest : List Instruction) :
    JumpLeads (code ++ rest) opcode offset target := by
  obtain ⟨distance, hstands, hleads, hcut⟩ := hleads
  exact ⟨distance, hstands.append_right rest, hleads, hcut.append_right rest⟩

theorem JumpLeads.replace {old new : Instruction} (hlength : new.length = old.length)
    (hleads : JumpLeads (front ++ old :: back) opcode offset target) :
    (offset = codeSize front ∧ opcode = old.opcode) ∨
      (offset ≠ codeSize front ∧ JumpLeads (front ++ new :: back) opcode offset target) := by
  obtain ⟨distance, hstands, hleads, hcut⟩ := hleads
  rcases hstands.replace hlength.symm with ⟨hoffset, rfl⟩ | ⟨hoffset, hstands⟩
  · exact Or.inl ⟨hoffset, rfl⟩
  · exact Or.inr ⟨hoffset, distance, hstands, hleads, hcut.replace hlength⟩

theorem cut_codeSize (code : List Instruction) : Cut 0 code (codeSize code) := by
  simpa using cut_end 0 code

/-- A jump over all that follows it leads to the end. -/
theorem leadsTo_end (hforward : opcode = .jump ∨ opcode = .jumpIfFalse) (front back : List Instruction)
    (hsize : codeSize back < Instruction.offsetBound) :
    (Code.jumpOver opcode back).LeadsTo (codeSize front) (codeSize (front ++ Code.jumpOver opcode back :: back)) := by
  have hleads := Code.leadsTo_jumpOver hforward hsize (codeSize front)
  rwa [Nat.add_assoc, ← codeSize_cons, ← codeSize_append] at hleads

theorem JumpLeads.jumpTarget? (hleads : JumpLeads code opcode offset target)
    (hsize : codeSize code < Instruction.offsetBound) :
    ∃ jump, (Stream.ofInstructions code).decodeAt offset = .ok jump ∧ jump.opcode = opcode ∧
      jump.jumpTarget? offset = some target := by
  obtain ⟨distance, ⟨front, back, rfl, rfl⟩, hleads, hcut⟩ := hleads
  refine ⟨.withWord opcode distance, ?_, rfl, ?_⟩
  · rw [Stream.decodeAt_ofInstructions_eq_reread rfl, Instruction.reread_of_leadsTo hleads]
  · have hle := hcut.le
    exact Instruction.jumpTarget?_of_leadsTo hleads (by omega)

end JumpLeads

namespace Stream

@[simp] theorem size_overwrite (new : List UInt8) (bytes : Array UInt8) (offset : Nat) :
    (overwrite bytes offset new).size = bytes.size := by
  induction new generalizing bytes offset with
  | nil => rfl
  | cons byte new ih => rw [overwrite, ih, Array.size_setIfInBounds]

theorem getElem?_overwrite {new : List UInt8} {offset position : Nat}
    (hother : position < offset ∨ offset + new.length ≤ position) (bytes : Array UInt8) :
    (overwrite bytes offset new)[position]? = bytes[position]? := by
  induction new generalizing bytes offset with
  | nil => rfl
  | cons byte new ih =>
      rw [List.length_cons] at hother
      rw [overwrite, ih (by omega), Array.getElem?_setIfInBounds_ne (by omega)]

/-- A patch changes no byte but those of a word. -/
theorem patchWord_eq_ok {code patched : Stream} {offset : Nat} {word : UInt64}
    (hpatch : code.patchWord offset word = .ok patched) :
    patched.size = code.size ∧ ∀ position, position < offset + 1 ∨ offset + 1 + Layout.wordBytes ≤ position →
      patched.bytes[position]? = code.bytes[position]? := by
  unfold patchWord at hpatch
  generalize hnew : littleEndian Layout.wordBytes word.toNat = new at hpatch
  have hlength : new.length = Layout.wordBytes := by rw [← hnew, length_littleEndian]
  split at hpatch
  · obtain rfl := Except.ok.inj hpatch
    refine ⟨size_overwrite new code.bytes (offset + 1), ?_⟩
    intro position hother
    exact getElem?_overwrite (by rwa [hlength]) code.bytes
  · cases hpatch

end Stream

theorem Emitter.patchToHere_eq_ok {out patched : Emitter} {site : JumpSite}
    (hpatch : out.patchToHere site = .ok patched) :
    patched.here = out.here ∧
      ∀ position, position < site.offset + 1 ∨ site.offset + 1 + Layout.wordBytes ≤ position →
        patched.code.bytes[position]? = out.code.bytes[position]? := by
  unfold patchToHere at hpatch
  split at hpatch
  · rename_i code hcode
    cases hpatch
    exact Stream.patchWord_eq_ok hcode
  · cases hpatch

/-- What can be asked of an emitter. -/
inductive EmitterCall where
  | emit (instruction : Instruction)
  | emitJump (opcode : Opcode)
  | patchToHere (site : JumpSite)
  | emitJumpBack (target : Nat)

/-- An emitter with the sites that it has handed out. -/
structure Emission where
  out : Emitter
  sites : List JumpSite

namespace Emission

def start : Emission := ⟨.empty, []⟩

def perform (stage : Emission) : EmitterCall → Except CompileError Emission
  | .emit instruction => .ok { stage with out := stage.out.emit instruction }
  | .emitJump opcode => .ok ⟨stage.out.emitJump opcode, stage.out.nextSite opcode :: stage.sites⟩
  | .patchToHere site => (stage.out.patchToHere site).map fun out => { stage with out }
  | .emitJumpBack target => .ok { stage with out := stage.out.emitJumpBack target }

def run (stage : Emission) (calls : List EmitterCall) : Except CompileError Emission := calls.foldlM perform stage

/-- Jumps are asked for as such, only sites that were handed out are patched, and jumps go back to boundaries. -/
def Allows (stage : Emission) : EmitterCall → Prop
  | .emit instruction => instruction.opcode.isJump = false
  | .emitJump opcode => opcode = .jump ∨ opcode = .jumpIfFalse
  | .patchToHere site => site ∈ stage.sites
  | .emitJumpBack target => target ∈ stage.out.code.boundaries.toOption.getD []

instance decidableAllows (stage : Emission) : (call : EmitterCall) → Decidable (stage.Allows call)
  | .emit instruction => inferInstanceAs (Decidable (instruction.opcode.isJump = false))
  | .emitJump opcode => inferInstanceAs (Decidable (opcode = .jump ∨ opcode = .jumpIfFalse))
  | .patchToHere site => inferInstanceAs (Decidable (site ∈ stage.sites))
  | .emitJumpBack target => inferInstanceAs (Decidable (target ∈ stage.out.code.boundaries.toOption.getD []))

/-- Every call is allowed when its turn comes. -/
def Disciplined (stage : Emission) : List EmitterCall → Prop
  | [] => True
  | call :: rest =>
    stage.Allows call ∧
      match stage.perform call with
      | .ok next => next.Disciplined rest
      | .error _ => True

instance decidableDisciplined : (stage : Emission) → (calls : List EmitterCall) → Decidable (stage.Disciplined calls)
  | _, [] => .isTrue trivial
  | stage, call :: rest =>
    have : Decidable (match stage.perform call with | .ok next => next.Disciplined rest | .error _ => True) :=
      match stage.perform call with
      | .ok next => decidableDisciplined next rest
      | .error _ => .isTrue trivial
    inferInstanceAs (Decidable (stage.Allows call ∧ _))

theorem run_concat {stage next : Emission} {calls : List EmitterCall} (hrun : stage.run calls = .ok next)
    (call : EmitterCall) : stage.run (calls ++ [call]) = next.perform call := by
  calc stage.run (calls ++ [call])
      = stage.run calls >>= fun next => next.perform call >>= pure := List.foldlM_append
    _ = next.perform call := by
      rw [hrun]
      exact bind_pure (next.perform call)

theorem disciplined_append {stage : Emission} {before after : List EmitterCall}
    (hcalls : stage.Disciplined (before ++ after)) :
    stage.Disciplined before ∧ ∀ next, stage.run before = .ok next → next.Disciplined after := by
  induction before generalizing stage with
  | nil =>
      refine ⟨trivial, ?_⟩
      rintro next ⟨⟩
      exact hcalls
  | cons call before ih =>
      obtain ⟨hallows, hrest⟩ := hcalls
      have hrun : stage.run (call :: before) = stage.perform call >>= fun next => next.run before := rfl
      rw [Disciplined, hrun]
      cases hperform : stage.perform call with
      | error error =>
          refine ⟨⟨hallows, trivial⟩, ?_⟩
          rintro next ⟨⟩
      | ok next =>
          rw [hperform] at hrest
          exact ⟨⟨hallows, (ih hrest).1⟩, (ih hrest).2⟩

/-- The jump of a site has this target after the calls: the end of the stream when the site was patched last, or the
next instruction if it never was. -/
def Aims (calls : List EmitterCall) (site : JumpSite) (target : Nat) : Prop :=
  (∃ before after stage, calls = before ++ .patchToHere site :: after ∧ .patchToHere site ∉ after ∧
    start.run before = .ok stage ∧ target = stage.out.here) ∨
  (.patchToHere site ∉ calls ∧ target = site.offset + site.length)

variable {calls : List EmitterCall} {code : List Instruction} {stage : Emission}

theorem Aims.concat {site : JumpSite} {target : Nat} (haims : Aims calls site target) {call : EmitterCall}
    (hcall : call ≠ .patchToHere site) : Aims (calls ++ [call]) site target := by
  rcases haims with ⟨before, after, stage, rfl, hlast, hrun, htarget⟩ | ⟨hnever, htarget⟩
  · refine Or.inl ⟨before, after ++ [call], stage, by simp, ?_, hrun, htarget⟩
    simp [hlast, hcall.symm]
  · exact Or.inr ⟨by simp [hnever, hcall.symm], htarget⟩

theorem aims_patched (hrun : start.run calls = .ok stage) (site : JumpSite) :
    Aims (calls ++ [.patchToHere site]) site stage.out.here :=
  Or.inl ⟨calls, [], stage, rfl, List.not_mem_nil, hrun, rfl⟩

/-- The jumps of the code, and where the calls that wrote them make them lead. -/
structure Aligned (calls : List EmitterCall) (code : List Instruction) : Prop where
  cuts : ∀ offset jump, Stands code offset jump → jump.opcode.isJump = true →
    ∃ target, jump.LeadsTo offset target ∧ Cut 0 code target
  forward : ∀ before opcode after, calls = before ++ .emitJump opcode :: after →
    ∃ earlier target, start.run before = .ok earlier ∧ JumpLeads code opcode earlier.out.here target ∧
      Aims calls (earlier.out.nextSite opcode) target
  backward : ∀ before target after, calls = before ++ .emitJumpBack target :: after →
    ∃ earlier, start.run before = .ok earlier ∧ JumpLeads code .jumpBackward earlier.out.here target

theorem aligned_nil : Aligned [] [] where
  cuts offset jump hstands := by
    have hlt := hstands.lt
    rw [codeSize_nil] at hlt
    omega
  forward before opcode after hcalls := by simp at hcalls
  backward before target after hcalls := by simp at hcalls

/-- A call that writes one more instruction leaves the others as they are. -/
theorem Aligned.concat (haligned : Aligned calls code) (hrun : start.run calls = .ok stage) {call : EmitterCall}
    {last : Instruction} (hcall : ∀ site, call ≠ .patchToHere site)
    (hcut : last.opcode.isJump = true →
      ∃ target, last.LeadsTo (codeSize code) target ∧ Cut 0 (code ++ [last]) target)
    (hforward : ∀ opcode, call = .emitJump opcode →
      ∃ target, JumpLeads (code ++ [last]) opcode stage.out.here target ∧
        Aims (calls ++ [call]) (stage.out.nextSite opcode) target)
    (hbackward : ∀ target, call = .emitJumpBack target →
      JumpLeads (code ++ [last]) .jumpBackward stage.out.here target) :
    Aligned (calls ++ [call]) (code ++ [last]) where
  cuts offset jump hstands hjump := by
    rcases stands_concat hstands with ⟨rfl, rfl⟩ | hstands
    · exact hcut hjump
    · obtain ⟨target, hleads, htarget⟩ := haligned.cuts offset jump hstands hjump
      exact ⟨target, hleads, htarget.append_right [last]⟩
  forward before opcode after hcalls := by
    rcases last_or_split hcalls with ⟨rfl, hlast⟩ | ⟨rest, hrest, -⟩
    · obtain ⟨target, hleads, haims⟩ := hforward opcode hlast
      exact ⟨stage, target, hrun, hleads, haims⟩
    · obtain ⟨earlier, target, hearlier, hleads, haims⟩ := haligned.forward before opcode rest hrest
      exact ⟨earlier, target, hearlier, hleads.append_right [last], haims.concat (hcall _)⟩
  backward before target after hcalls := by
    rcases last_or_split hcalls with ⟨rfl, hlast⟩ | ⟨rest, hrest, -⟩
    · exact ⟨stage, hrun, hbackward target hlast⟩
    · obtain ⟨earlier, hearlier, hleads⟩ := haligned.backward before target rest hrest
      exact ⟨earlier, hearlier, hleads.append_right [last]⟩

/-- A patch leaves all jumps but its own as they are. -/
theorem Aligned.patch {front back : List Instruction} {opcode : Opcode} {distance : UInt64} {site : JumpSite}
    (haligned : Aligned calls (front ++ .withWord opcode distance :: back)) (hrun : start.run calls = .ok stage)
    (hforward : opcode = .jump ∨ opcode = .jumpIfFalse)
    (hsite : site = ⟨codeSize front, opcode.encodedLength⟩)
    (hhere : stage.out.here = codeSize (front ++ Code.jumpOver opcode back :: back))
    (hsize : codeSize (front ++ Code.jumpOver opcode back :: back) < Instruction.offsetBound) :
    Aligned (calls ++ [.patchToHere site]) (front ++ Code.jumpOver opcode back :: back) := by
  have hback : codeSize back < Instruction.offsetBound := by
    rw [codeSize_append, codeSize_cons] at hsize
    omega
  have hlength : (Code.jumpOver opcode back).length = (Instruction.withWord opcode distance).length := rfl
  have hleadsToEnd := leadsTo_end hforward front back hback
  refine ⟨?_, ?_, ?_⟩
  · intro offset other hstands hother
    rcases hstands.replace hlength with ⟨rfl, rfl⟩ | ⟨-, hstands⟩
    · exact ⟨_, hleadsToEnd, cut_codeSize _⟩
    · obtain ⟨target, hleads, hcut⟩ := haligned.cuts offset other hstands hother
      exact ⟨target, hleads, hcut.replace hlength⟩
  · intro before other after hcalls
    rcases last_or_split hcalls with ⟨-, hlast⟩ | ⟨rest, hrest, -⟩
    · cases hlast
    · obtain ⟨earlier, target, hearlier, hleads, haims⟩ := haligned.forward before other rest hrest
      rcases hleads.replace hlength with ⟨hoffset, rfl⟩ | ⟨hoffset, hleads⟩
      · have hown : earlier.out.nextSite other = site := by rw [Emitter.nextSite, hoffset, hsite]
        refine ⟨earlier, stage.out.here, hearlier, ?_, ?_⟩
        · rw [hoffset, hhere]
          exact ⟨_, ⟨front, back, rfl, rfl⟩, hleadsToEnd, cut_codeSize _⟩
        · rw [hown]
          exact aims_patched hrun site
      · refine ⟨earlier, target, hearlier, hleads, haims.concat ?_⟩
        rintro ⟨⟩
        exact hoffset (congrArg JumpSite.offset hsite)
  · intro before target after hcalls
    rcases last_or_split hcalls with ⟨-, hlast⟩ | ⟨rest, hrest, -⟩
    · cases hlast
    · obtain ⟨earlier, hearlier, hleads⟩ := haligned.backward before target rest hrest
      rcases hleads.replace hlength with ⟨-, hopcode⟩ | ⟨-, hleads⟩
      · -- a backward jump is no site
        rcases hforward with rfl | rfl <;> cases hopcode
      · exact ⟨earlier, hearlier, hleads⟩

/-- What has been written after the calls, as instructions. Every site that was handed out is that of a forward jump
among them. -/
structure Keeps (calls : List EmitterCall) (stage : Emission) (code : List Instruction) : Prop where
  out : stage.out = Emitter.empty.emitAll code
  sites : ∀ site ∈ stage.sites, ∃ opcode distance, (opcode = .jump ∨ opcode = .jumpIfFalse) ∧
    Stands code site.offset (.withWord opcode distance) ∧ site.length = opcode.encodedLength
  patched : ∀ site, .patchToHere site ∈ calls → site ∈ stage.sites
  aligned : codeSize code < Instruction.offsetBound → Aligned calls code

theorem keeps_start : Keeps [] start [] where
  out := rfl
  sites site hmem := by cases hmem
  patched site hmem := by cases hmem
  aligned _ := aligned_nil

theorem Keeps.here_eq (hkeeps : Keeps calls stage code) : stage.out.here = codeSize code := by
  rw [hkeeps.out, Emitter.here_emitAll]
  exact Nat.zero_add _

/-- A site that is handed out next has never been patched. -/
theorem Keeps.aims_fresh (hkeeps : Keeps calls stage code) (opcode : Opcode) :
    Aims (calls ++ [.emitJump opcode]) (stage.out.nextSite opcode) (codeSize code + opcode.encodedLength) := by
  refine Aims.concat (Or.inr ⟨?_, ?_⟩) (by simp)
  · intro hmem
    obtain ⟨_, _, _, hstands, _⟩ := hkeeps.sites _ (hkeeps.patched _ hmem)
    have hlt : stage.out.here < codeSize code := hstands.lt
    rw [hkeeps.here_eq] at hlt
    omega
  · rw [← hkeeps.here_eq]
    rfl

/-- A call that writes an instruction. -/
theorem Keeps.concat (hkeeps : Keeps calls stage code) {call : EmitterCall} {last : Instruction} {next : Emission}
    (hout : next.out = stage.out.emit last) (hcall : ∀ site, call ≠ .patchToHere site)
    (hold : ∀ site ∈ stage.sites, site ∈ next.sites)
    (hnew : ∀ site ∈ next.sites, site ∈ stage.sites ∨ ∃ opcode, (opcode = .jump ∨ opcode = .jumpIfFalse) ∧
      last = .withWord opcode 0 ∧ site = stage.out.nextSite opcode)
    (haligned : codeSize (code ++ [last]) < Instruction.offsetBound → Aligned (calls ++ [call]) (code ++ [last])) :
    Keeps (calls ++ [call]) next (code ++ [last]) where
  out := by
    rw [hout, hkeeps.out, ← Emitter.emitAll_append]
    rfl
  sites site hmem := by
    rcases hnew site hmem with hmem | ⟨opcode, hforward, rfl, rfl⟩
    · obtain ⟨opcode, distance, hforward, hstands, hlength⟩ := hkeeps.sites site hmem
      exact ⟨opcode, distance, hforward, hstands.append_right [last], hlength⟩
    · refine ⟨opcode, 0, hforward, ?_, rfl⟩
      change Stands _ stage.out.here _
      rw [hkeeps.here_eq]
      exact stands_last code _
  patched site hmem := by
    rcases List.mem_append.mp hmem with hmem | hmem
    · exact hold site (hkeeps.patched site hmem)
    · exact absurd (List.mem_singleton.mp hmem).symm (hcall site)
  aligned := haligned

theorem Keeps.emit (hkeeps : Keeps calls stage code) (hrun : start.run calls = .ok stage) {instruction : Instruction}
    (hstraight : instruction.opcode.isJump = false) :
    Keeps (calls ++ [.emit instruction]) { stage with out := stage.out.emit instruction } (code ++ [instruction]) := by
  refine hkeeps.concat rfl (by simp) (fun _ hmem => hmem) (fun _ hmem => Or.inl hmem) ?_
  intro hsize
  rw [codeSize_append] at hsize
  refine (hkeeps.aligned (by omega)).concat hrun (by simp) ?_ (by simp) (by simp)
  rw [hstraight]
  simp

theorem Keeps.emitJump (hkeeps : Keeps calls stage code) (hrun : start.run calls = .ok stage) {opcode : Opcode}
    (hforward : opcode = .jump ∨ opcode = .jumpIfFalse) :
    Keeps (calls ++ [.emitJump opcode]) ⟨stage.out.emitJump opcode, stage.out.nextSite opcode :: stage.sites⟩
      (code ++ [.withWord opcode 0]) := by
  have hleads : (Instruction.withWord opcode 0).LeadsTo (codeSize code) (codeSize (code ++ [.withWord opcode 0])) :=
    leadsTo_end hforward code [] (by decide)
  refine hkeeps.concat rfl (by simp) (fun _ hmem => List.mem_cons_of_mem _ hmem) ?_ ?_
  · intro site hmem
    rcases List.mem_cons.mp hmem with rfl | hmem
    · exact Or.inr ⟨opcode, hforward, rfl, rfl⟩
    · exact Or.inl hmem
  · intro hsize
    rw [codeSize_append] at hsize
    refine (hkeeps.aligned (by omega)).concat hrun (by simp) ?_ ?_ (by simp)
    · exact fun _ => ⟨_, hleads, cut_codeSize _⟩
    · rintro _ ⟨⟩
      refine ⟨codeSize (code ++ [.withWord opcode 0]), ?_, ?_⟩
      · rw [hkeeps.here_eq]
        exact ⟨0, stands_last code _, hleads, cut_codeSize _⟩
      · rw [codeSize_concat]
        exact hkeeps.aims_fresh opcode

theorem Keeps.emitJumpBack (hkeeps : Keeps calls stage code) (hrun : start.run calls = .ok stage) {target : Nat}
    (htarget : target ∈ stage.out.code.boundaries.toOption.getD []) :
    Keeps (calls ++ [.emitJumpBack target]) { stage with out := stage.out.emitJumpBack target }
      (code ++ [.withWord .jumpBackward
        (UInt64.ofNat (codeSize code + Opcode.jumpBackward.encodedLength - target))]) := by
  have hcut : Cut 0 code target := by
    rw [hkeeps.out, Emitter.code_emitAll_empty, Stream.boundaries_ofInstructions] at htarget
    exact (cut_iff_mem_edges code target).mpr htarget
  have hle := hcut.le
  refine hkeeps.concat ?_ (by simp) (fun _ hmem => hmem) (fun _ hmem => Or.inl hmem) ?_
  · rw [← hkeeps.here_eq]
    rfl
  · intro hsize
    rw [codeSize_concat] at hsize
    change codeSize code + Opcode.jumpBackward.encodedLength < _ at hsize
    have hleads : target + (UInt64.ofNat (codeSize code + Opcode.jumpBackward.encodedLength - target)).toNat =
        codeSize code + Opcode.jumpBackward.encodedLength := by
      rw [toNat_ofNat_of_short (by omega)]
      omega
    refine (hkeeps.aligned (by omega)).concat hrun (by simp) ?_ (by simp) ?_
    · exact fun _ => ⟨target, hleads, hcut.append_right _⟩
    · rintro _ ⟨⟩
      rw [hkeeps.here_eq]
      exact ⟨_, stands_last code _, hleads, hcut.append_right _⟩

theorem Keeps.patchToHere (hkeeps : Keeps calls stage code) (hrun : start.run calls = .ok stage) {site : JumpSite}
    (hsite : site ∈ stage.sites) :
    ∃ patched changed, stage.out.patchToHere site = .ok patched ∧
      Keeps (calls ++ [.patchToHere site]) { stage with out := patched } changed := by
  obtain ⟨opcode, distance, hforward, ⟨front, back, rfl, hoffset⟩, hlength⟩ := hkeeps.sites site hsite
  have hlayout : opcode.layout = .word := by rcases hforward with rfl | rfl <;> rfl
  have hown : site = ⟨codeSize front, opcode.encodedLength⟩ := by rw [← hoffset, ← hlength]
  have hnextSite : (Emitter.empty.emitAll front).nextSite opcode = site := by
    rw [hown, Emitter.nextSite, Emitter.here_emitAll]
    exact congrArg (JumpSite.mk · _) (Nat.zero_add _)
  have hsame : (Code.jumpOver opcode back).length = (Instruction.withWord opcode distance).length := rfl
  have hpatch := (Emitter.empty.emitAll front).patchToHere_emitAll hlayout distance back
  rw [hnextSite] at hpatch
  refine ⟨Emitter.empty.emitAll (front ++ Code.jumpOver opcode back :: back),
    front ++ Code.jumpOver opcode back :: back, ?_, rfl, ?_, ?_, ?_⟩
  · rw [hkeeps.out, ← Emitter.emitAll_append, ← Emitter.emitAll_append]
    exact hpatch
  · intro other hmem
    obtain ⟨found, word, hfound, hstands, hother⟩ := hkeeps.sites other hmem
    rcases hstands.replace hsame.symm with ⟨hplace, hword⟩ | ⟨-, hstands⟩
    · refine ⟨opcode, _, hforward, ⟨front, back, rfl, hplace⟩, ?_⟩
      rw [hother]
      exact congrArg Instruction.length hword
    · exact ⟨found, word, hfound, hstands, hother⟩
  · intro other hmem
    rcases List.mem_append.mp hmem with hmem | hmem
    · exact hkeeps.patched other hmem
    · cases List.mem_singleton.mp hmem
      exact hsite
  · intro hsize
    have hcodeSize : codeSize (front ++ Code.jumpOver opcode back :: back) =
        codeSize (front ++ .withWord opcode distance :: back) := by
      rw [codeSize_append, codeSize_append, codeSize_cons, codeSize_cons, hsame]
    rw [hcodeSize] at hsize
    exact (hkeeps.aligned hsize).patch hrun hforward hown (hkeeps.here_eq.trans hcodeSize.symm) (by omega)

/-- What is allowed is done, and keeps the jumps aligned. -/
theorem Keeps.step (hkeeps : Keeps calls stage code) (hrun : start.run calls = .ok stage) {call : EmitterCall}
    (hallows : stage.Allows call) :
    ∃ next changed, stage.perform call = .ok next ∧ Keeps (calls ++ [call]) next changed := by
  cases call with
  | emit instruction => exact ⟨_, _, rfl, hkeeps.emit hrun hallows⟩
  | emitJump opcode => exact ⟨_, _, rfl, hkeeps.emitJump hrun hallows⟩
  | emitJumpBack target => exact ⟨_, _, rfl, hkeeps.emitJumpBack hrun hallows⟩
  | patchToHere site =>
      obtain ⟨patched, changed, hpatch, hnext⟩ := hkeeps.patchToHere hrun hallows
      refine ⟨_, changed, ?_, hnext⟩
      rw [perform, hpatch]
      rfl

theorem run_keeps (hcalls : start.Disciplined calls) :
    ∃ last code, start.run calls = .ok last ∧ Keeps calls last code := by
  induction calls using List.reverseRecOn with
  | nil => exact ⟨start, [], rfl, keeps_start⟩
  | append_singleton calls call ih =>
      obtain ⟨hbefore, hcall⟩ := disciplined_append hcalls
      obtain ⟨stage, code, hrun, hkeeps⟩ := ih hbefore
      obtain ⟨next, changed, hperform, hnext⟩ := hkeeps.step hrun (hcall stage hrun).1
      exact ⟨next, changed, (run_concat hrun call).trans hperform, hnext⟩

theorem Aligned.checkJumps (haligned : Aligned calls code) (hsize : codeSize code < Instruction.offsetBound) :
    (Stream.ofInstructions code).checkJumps = .ok () := by
  refine Stream.checkJumps_eq_ok_iff.mpr ⟨Stream.decodes_ofInstructions code, ?_⟩
  apply Stream.jumpsAligned_of_leadsTo hsize
  intro front jump back hcode hjump
  exact haligned.cuts _ jump ⟨front, back, hcode, rfl⟩ hjump

end Emission

/-- An emitter can be used in any order. Every call succeeds. A patch keeps the length of the stream and all bytes but
the distance of its own jump. As long as offsets stay below their bound, each site's jump leads to the end of the stream
when it was patched last, or to the next instruction if it never was; each backward jump leads to the boundary that was
asked for; and the stream passes the jump check. -/
theorem emitter_aligned {calls : List EmitterCall} (hcalls : Emission.start.Disciplined calls) :
    ∃ last, Emission.start.run calls = .ok last ∧
      (∀ before site after, calls = before ++ .patchToHere site :: after →
        ∃ stage patched, Emission.start.run before = .ok stage ∧ stage.out.patchToHere site = .ok patched ∧
          patched.here = stage.out.here ∧ site.length = 1 + Layout.wordBytes ∧
          ∀ position, position < site.offset + 1 ∨ site.offset + site.length ≤ position →
            patched.code.bytes[position]? = stage.out.code.bytes[position]?) ∧
      (last.out.here < Instruction.offsetBound →
        (∀ before opcode after, calls = before ++ .emitJump opcode :: after →
          ∃ stage jump target, Emission.start.run before = .ok stage ∧
            last.out.code.decodeAt stage.out.here = .ok jump ∧ jump.opcode = opcode ∧
            jump.jumpTarget? stage.out.here = some target ∧
            Emission.Aims calls (stage.out.nextSite opcode) target) ∧
        (∀ before target after, calls = before ++ .emitJumpBack target :: after →
          ∃ stage jump, Emission.start.run before = .ok stage ∧
            last.out.code.decodeAt stage.out.here = .ok jump ∧ jump.opcode = .jumpBackward ∧
            jump.jumpTarget? stage.out.here = some target) ∧
        last.out.code.checkJumps = .ok ()) := by
  obtain ⟨last, code, hrun, hkeeps⟩ := Emission.run_keeps hcalls
  refine ⟨last, hrun, ?_, ?_⟩
  · rintro before site after rfl
    obtain ⟨hbefore, hrest⟩ := Emission.disciplined_append hcalls
    obtain ⟨stage, written, hstage, hwritten⟩ := Emission.run_keeps hbefore
    have hsite : site ∈ stage.sites := (hrest stage hstage).1
    obtain ⟨patched, -, hpatch, -⟩ := hwritten.patchToHere hstage hsite
    obtain ⟨hhere, hbytes⟩ := Emitter.patchToHere_eq_ok hpatch
    have hlength : site.length = 1 + Layout.wordBytes := by
      obtain ⟨opcode, -, hforward, -, hlength⟩ := hwritten.sites site hsite
      rw [hlength]
      rcases hforward with rfl | rfl <;> rfl
    refine ⟨stage, patched, hstage, hpatch, hhere, hlength, ?_⟩
    intro position hother
    exact hbytes position (by omega)
  · intro hsize
    have hcode : last.out.code = .ofInstructions code := by rw [hkeeps.out, Emitter.code_emitAll_empty]
    rw [hkeeps.here_eq] at hsize
    have haligned := hkeeps.aligned hsize
    rw [hcode]
    refine ⟨?_, ?_, haligned.checkJumps hsize⟩
    · intro before opcode after hsplit
      obtain ⟨stage, target, hstage, hleads, haims⟩ := haligned.forward before opcode after hsplit
      obtain ⟨jump, hdecode, hopcode, htarget⟩ := hleads.jumpTarget? hsize
      exact ⟨stage, jump, target, hstage, hdecode, hopcode, htarget, haims⟩
    · intro before target after hsplit
      obtain ⟨stage, hstage, hleads⟩ := haligned.backward before target after hsplit
      obtain ⟨jump, hdecode, hopcode, htarget⟩ := hleads.jumpTarget? hsize
      exact ⟨stage, jump, hstage, hdecode, hopcode, htarget⟩

/-- Two forward jumps that overlap, the outer one patched twice, a jump back between them and one that is not patched. -/
def overlapping : List EmitterCall :=
  [.emitJump .jumpIfFalse, .emit ⟨.allocFilled, .word 2⟩, .emitJump .jump, .patchToHere ⟨0, 9⟩,
    .emit ⟨.pushInt .w8, .int 300⟩, .patchToHere ⟨19, 9⟩, .emitJumpBack 9, .emitJump .jumpIfFalse, .patchToHere ⟨0, 9⟩]

/-- The stream that they write. -/
def overlapped : Stream :=
  .ofInstructions [.withWord .jumpIfFalse 39, ⟨.allocFilled, .word 2⟩, .withWord .jump 2, ⟨.pushInt .w8, .int 300⟩,
    .withWord .jumpBackward 30, .withWord .jumpIfFalse 0]

theorem emitter_aligned_overlapping :
    Emission.start.Disciplined overlapping ∧
      ∃ last, Emission.start.run overlapping = .ok last ∧ last.out.code = overlapped ∧
        last.out.code.checkJumps = .ok () := by
  have hcalls : Emission.start.Disciplined overlapping := by decide +kernel
  obtain ⟨last, hrun, -, haligned⟩ := emitter_aligned hcalls
  have hcode : (Emission.start.run overlapping).map (fun stage => stage.out.code) = .ok overlapped := by
    decide +kernel
  rw [hrun] at hcode
  have hlast : last.out.code = overlapped := Except.ok.inj hcode
  have hsize : last.out.here < Instruction.offsetBound := by
    rw [Emitter.here, hlast]
    decide +kernel
  exact ⟨hcalls, last, hrun, hlast, (haligned hsize).2.2⟩

end StackCode
