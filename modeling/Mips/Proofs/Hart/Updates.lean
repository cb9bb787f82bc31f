import Mips.Proofs.Hart.Alignment
import Mips.Proofs.Hart.Stores

/-!
All that an instruction changes, told by the state before it. Main statement: `updates_of_exec`, an
instruction that succeeds changes its destination, the halves of the product register, the program
counter and the bytes that it stores, each from operands read before it, and nothing else. At the
end stand runs of instructions without a fetch, `execAll`.
-/
namespace Mips.Hart

variable {h h' : Hart} {i : Instruction}

/-- What an instruction puts into its destination. A link is the address behind the instruction. -/
def value? (h : Hart) : Instruction → Option Word
  | .alu op _ rs rt => op.result? (h.cpu.read rs) (h.cpu.read rt)
  | .aluImm op _ rs imm => op.alu.result? (h.cpu.read rs) (op.operand imm)
  | .lui _ imm => some (Word.ofNat (imm.toNat * 0x10000))
  | .shift op _ rt shamt => some (op.result (h.cpu.read rt) (shamt.toNat % 32))
  | .shiftVar op _ rt rs => some (op.result (h.cpu.read rt) ((h.cpu.read rs).toNat % 32))
  | .moveFrom .hi _ => some h.cpu.hi
  | .moveFrom .lo _ => some h.cpu.lo
  | .count op _ rs => some (op.result (h.cpu.read rs))
  | .jalr .. => some h.cpu.pc
  | .jump op _ => if op.links then some h.cpu.pc else none
  | .branchZero op _ _ => if op.links then some h.cpu.pc else none
  | .load op rt rs imm =>
    (h.mem.readWord (op.place (h.effective rs imm)) op.width).toOption.map
      (op.result (h.cpu.read rt) · (h.effective rs imm))
  | .store op _ _ _ => if op = .sc then some 1 else none
  | .mulDiv .. | .moveTo .. | .trap .. | .trapImm .. | .breakpoint _ | .syscall | .jr _
  | .branchPair .. => none

def high? (h : Hart) : Instruction → Option Word
  | .mulDiv op rs rt => some (Word.high (op.result h.cpu.product (h.cpu.read rs) (h.cpu.read rt)))
  | .moveTo .hi rs => some (h.cpu.read rs)
  | _ => none

def low? (h : Hart) : Instruction → Option Word
  | .mulDiv op rs rt => some (Word.low (op.result h.cpu.product (h.cpu.read rs) (h.cpu.read rt)))
  | .moveTo .lo rs => some (h.cpu.read rs)
  | _ => none

def target? (h : Hart) : Instruction → Option Word
  | .jr rs | .jalr _ rs => some (h.cpu.read rs)
  | .jump _ target => some (jumpAddress h.cpu.pc target)
  | .branchPair op rs rt imm =>
    if op.taken (h.cpu.read rs) (h.cpu.read rt) then
      some (h.cpu.pc.add ((Word.extendHalf imm).shiftLeft 2))
    else none
  | .branchZero op rs imm =>
    if op.taken (h.cpu.read rs) then some (h.cpu.pc.add ((Word.extendHalf imm).shiftLeft 2))
    else none
  | _ => none

def storedByte? (h : Hart) (a : Nat) : Instruction → Option UInt8
  | .store op rt rs imm =>
    if op.Covers (h.effective rs imm) a then
      some (op.byte (h.cpu.read rt) (h.effective rs imm) a)
    else none
  | _ => none

/-- A state that follows on another by an instruction. What the instruction puts nowhere stays. -/
structure Updates (h : Hart) (i : Instruction) (h' : Hart) : Prop where
  dest : ∀ r, i.destination? = some r → ¬h.cpu.Discards r → h.value? i = some (h'.cpu.read r)
  others : ∀ r : Register, r.toNat < 32 → (i.destination? = some r → h.cpu.Discards r) →
    h'.cpu.read r = h.cpu.read r
  hi : h'.cpu.hi = (h.high? i).getD h.cpu.hi
  lo : h'.cpu.lo = (h.low? i).getD h.cpu.lo
  pc : h'.cpu.pc = (h.target? i).getD h.cpu.pc
  settings : h'.cpu.settings = h.cpu.settings
  bytes : ∀ k, h'.mem.byteAt k =
    (h.storedByte? (h.mem.layout.base.toNat + k) i).getD (h.mem.byteAt k)
  marks : h'.mem.marks = h.mem.marks
  layout : h'.mem.layout = h.mem.layout

def gpr? (h : Hart) (i : Instruction) : Option (Vector Word 32) :=
  match i.destination? with
  | none => some h.cpu.gpr
  | some r => (h.value? i).map fun w => (h.cpu.write r w).gpr

theorem eq_ok_of_attempt {x : Except Trap Hart} (done : h.attempt x = (h', none)) : x = .ok h' := by
  cases x with
  | ok _ =>
    cases done
    rfl
  | error _ => cases done

theorem cpu_link (h : Hart) (links : Bool) :
    (h.link links).cpu = { h.cpu with gpr := (h.link links).cpu.gpr } := by
  cases links with
  | true => exact h.cpu.write_eq Register.ra h.cpu.pc
  | false => rfl

theorem cpu_branch (h : Hart) (taken : Bool) (imm : BitVec 16) :
    (h.branch taken imm).cpu =
      { h.cpu with
        pc := (if taken then some (h.cpu.pc.add ((Word.extendHalf imm).shiftLeft 2))
          else none).getD h.cpu.pc } := by
  cases taken <;> rfl

theorem cpu_of_load {op : Load} {rt : Register} {addr : Word}
    (loaded : h.load op rt addr = .ok h') : ∃ w, h.mem.readWord (op.place addr) op.width = .ok w ∧
      h'.cpu = h.cpu.write rt (op.result (h.cpu.read rt) w addr) := by
  obtain ⟨w, fetched, rfl⟩ := map_eq_ok_iff.mp loaded
  exact ⟨w, readWord_of_loadAt fetched, rfl⟩

theorem cpu_of_store {op : Store} {rt : Register} {addr : Word}
    (stored : h.store op rt addr = .ok h') :
    h'.cpu = if op = .sc then h.cpu.write rt 1 else h.cpu := by
  obtain ⟨w, _, stored⟩ := bind_eq_ok_iff.mp stored
  obtain ⟨h₁, written, rfl⟩ := map_eq_ok_iff.mp stored
  have same := cpu_of_storeAt written
  split
  · exact congrArg (·.write rt 1) same
  · exact same

/-- The processor behind an instruction, part by part. An instruction that links or jumps has read
its operands before it does so. -/
theorem cpu_exec (done : h.exec i = (h', none)) :
    ∃ gpr, h.gpr? i = some gpr ∧
      h'.cpu =
        { h.cpu with
          pc := (h.target? i).getD h.cpu.pc
          gpr := gpr
          hi := (h.high? i).getD h.cpu.hi
          lo := (h.low? i).getD h.cpu.lo } := by
  cases i with
  | alu op rd rs rt | aluImm op rd rs imm =>
    unfold exec at done
    dsimp only at done
    split at done
    · rename_i w result
      cases done
      exact ⟨_, congrArg (Option.map _) result, Cpu.write_eq ..⟩
    · cases done
  | lui | shift | shiftVar | count =>
    cases done
    exact ⟨_, rfl, Cpu.write_eq ..⟩
  | moveFrom half rd =>
    cases half <;>
      · cases done
        exact ⟨_, rfl, Cpu.write_eq ..⟩
  | moveTo half rs =>
    cases half <;>
      · cases done
        exact ⟨_, rfl, rfl⟩
  | mulDiv | jr =>
    cases done
    exact ⟨_, rfl, rfl⟩
  | trap | trapImm =>
    obtain rfl : h = h' := congrArg Prod.fst done
    exact ⟨_, rfl, rfl⟩
  | jalr rd rs =>
    cases done
    exact ⟨_, rfl, congrArg (fun c : Cpu => { c with pc := h.cpu.read rs }) (Cpu.write_eq ..)⟩
  | jump op target =>
    cases done
    refine ⟨(h.link op.links).cpu.gpr, by cases op <;> rfl, ?_⟩
    exact congrArg (fun c : Cpu => { c with pc := jumpAddress h.cpu.pc target }) (cpu_link ..)
  | branchPair op rs rt imm =>
    cases done
    exact ⟨_, rfl, cpu_branch ..⟩
  | branchZero op rs imm =>
    cases done
    refine ⟨(h.link op.links).cpu.gpr, by cases op <;> rfl, ?_⟩
    rw [cpu_branch, cpu_link]
    rfl
  | load op rt rs imm =>
    obtain ⟨w, fetched, same⟩ := cpu_of_load (eq_ok_of_attempt done)
    have value : h.value? (.load op rt rs imm) =
        some (op.result (h.cpu.read rt) w (h.effective rs imm)) := by rw [value?, fetched]; rfl
    exact ⟨_, congrArg (Option.map _) value, same.trans (Cpu.write_eq ..)⟩
  | store op rt rs imm =>
    have same := cpu_of_store (eq_ok_of_attempt done)
    split at same
    · rename_i conditional
      subst conditional
      exact ⟨_, rfl, same.trans (Cpu.write_eq ..)⟩
    · rename_i plain
      have kept : h.gpr? (.store op rt rs imm) = some h.cpu.gpr := by
        rw [gpr?, Instruction.destination?, if_neg plain]
      exact ⟨_, kept, same⟩
  | breakpoint | syscall => cases done

theorem byteAt_of_exec (done : h.exec i = (h', none)) (k : Nat) :
    h'.mem.byteAt k =
      (h.storedByte? (h.mem.layout.base.toNat + k) i).getD (h.mem.byteAt k) := by
  have kept := h.byteAt_exec i (k := k)
  rw [done] at kept
  cases i with
  | store op rt rs imm =>
    rw [byteAt_of_store (eq_ok_of_attempt done), storedByte?]
    split <;> rfl
  | _ => exact kept id

/-- An instruction that succeeds changes only what it names, each part from the state before. -/
theorem updates_of_exec (small : ∀ r ∈ i.registers, r.toNat < 32)
    (done : h.exec i = (h', none)) : Updates h i h' := by
  obtain ⟨gpr, written, same⟩ := cpu_exec done
  have state : (h.exec i).1 = h' := congrArg Prod.fst done
  have writes := state ▸ writes_exec h i
  obtain ⟨layout, marks, _⟩ := (state ▸ written_exec h i).marks_eq
  have named : ∀ r ∈ i.destination?, r.toNat < 32 := by
    intro r dest
    rcases Instruction.mem_registers_of_destination? dest with among | rfl
    · exact small r among
    · decide
  have value : ∀ r, i.destination? = some r → ¬h.cpu.Discards r →
      h.value? i = some (h'.cpu.read r) := by
    intro r dest kept
    rw [gpr?, dest] at written
    obtain ⟨w, result, rfl⟩ := Option.map_eq_some_iff.mp written
    rw [result, same]
    exact congrArg some (h.cpu.read_write_self kept w).symm
  exact {
    dest := value
    others := fun r hr apart => writes.read_eq named hr apart
    hi := congrArg Cpu.hi same
    lo := congrArg Cpu.lo same
    pc := congrArg Cpu.pc same
    settings := writes.settings
    bytes := byteAt_of_exec done
    marks, layout }

theorem updates_of_exec_conditional :
    let h : Hart := ⟨Cpu.reset {} 0x00400004, .empty {}⟩
    let i : Instruction := .store .sc Register.sp Register.sp (-4)
    ∃ h', h.exec i = (h', none) ∧ Updates h i h' ∧ h'.cpu.read Register.sp = 1 ∧
      h'.mem.byteAt 0x5FFFFD = 0xA0 := by
  intro h i
  have quiet : (h.exec i).2 = none := by decide +kernel
  have done : h.exec i = ((h.exec i).1, none) := by
    rw [← quiet]
  have updates := updates_of_exec (by decide) done
  have value := updates.dest Register.sp rfl (h.cpu.not_discards (by decide))
  have byte := updates.bytes 0x5FFFFD
  exact ⟨_, done, updates, (Option.some.inj value).symm, byte.trans (by decide +kernel)⟩

def execAll (h : Hart) : List Instruction → Hart × Option Trap
  | [] => (h, none)
  | i :: is =>
    match h.exec i with
    | (h', none) => h'.execAll is
    | trapped => trapped

theorem execAll_cons (done : h.exec i = (h', none)) (is : List Instruction) :
    h.execAll (i :: is) = h'.execAll is := by
  rw [execAll, done]

theorem execAll_cons_eq_none {is : List Instruction} (done : h.execAll (i :: is) = (h', none)) :
    ∃ h₁, h.exec i = (h₁, none) ∧ h₁.execAll is = (h', none) := by
  rw [execAll] at done
  split at done
  · rename_i h₁ first
    exact ⟨h₁, first, done⟩
  · rename_i trapped
    exact absurd done (trapped h')

theorem execAll_append_congr {is js : List Instruction}
    (same : ∀ h' : Hart, h'.execAll is = h'.execAll js) (front : List Instruction) :
    h.execAll (front ++ is) = h.execAll (front ++ js) := by
  induction front generalizing h with
  | nil => exact same h
  | cons i front ih =>
    simp only [List.cons_append, execAll]
    split
    · exact ih
    · rfl

end Mips.Hart
