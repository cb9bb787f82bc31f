import Mips.Proofs.Hart.Registers
import Mips.Proofs.Hart.Transfer

namespace Mips

def Word.InLine (start addr : Word) : Prop := addr.toNat % 4 = start.toNat % 4

instance (start addr : Word) : Decidable (start.InLine addr) := inferInstanceAs (Decidable (_ = _))

namespace Word

variable {start addr : Word}

theorem inLine_add_four (line : start.InLine addr) : start.InLine (addr.add 4) := by
  unfold InLine at line ⊢
  rw [add_eq, BitVec.toNat_add]
  have four : (4 : Word).toNat = 4 := rfl
  omega

theorem inLine_add_shifted (line : start.InLine addr) (distance : Word) :
    start.InLine (addr.add (distance.shiftLeft 2)) := by
  unfold InLine at line ⊢
  rw [add_eq, BitVec.toNat_add, shiftLeft_eq _ (by decide), BitVec.toNat_shiftLeft,
    Nat.shiftLeft_eq]
  omega

end Word

namespace Hart

variable {h : Hart} {start : Word}

/-- Whether an instruction jumps to an address that is out of line. Those that a field gives are
multiples of four. -/
def Misjumps (h : Hart) (start : Word) : Instruction → Prop
  | .jr rs | .jalr _ rs => ¬start.InLine (h.cpu.read rs)
  | .jump .. => ¬start.InLine 0
  | _ => False

instance (h : Hart) (start : Word) : (i : Instruction) → Decidable (h.Misjumps start i)
  | .jr _ | .jalr .. | .jump .. => inferInstanceAs (Decidable (¬_))
  | .alu .. | .aluImm .. | .lui .. | .shift .. | .shiftVar .. | .mulDiv .. | .moveFrom ..
  | .moveTo .. | .count .. | .trap .. | .trapImm .. | .breakpoint _ | .syscall | .branchPair ..
  | .branchZero .. | .load .. | .store .. => inferInstanceAs (Decidable False)

theorem misjumps_setPc {pc : Word} {i : Instruction} :
    (h.setPc pc).Misjumps start i ↔ h.Misjumps start i := by
  cases i <;> exact Iff.rfl

theorem toNat_jumpAddress_mod_four (pc target : Word) : (jumpAddress pc target).toNat % 4 = 0 := by
  have high : (pc >>> 28 <<< 28).toNat % 2 ^ 2 = 0 := by
    rw [BitVec.toNat_shiftLeft, Nat.shiftLeft_eq]
    omega
  have low : (target.shiftLeft 2).toNat % 2 ^ 2 = 0 := by
    rw [Word.shiftLeft_eq _ (by decide), BitVec.toNat_shiftLeft, Nat.shiftLeft_eq]
    omega
  rw [jumpAddress, and_region, BitVec.toNat_or]
  calc _ = _ ||| _ := Nat.or_mod_two_pow (n := 2)
    _ = 0 := by rw [high, low]; rfl

theorem inLine_branch (line : start.InLine h.cpu.pc) (taken : Bool) (imm : BitVec 16) :
    start.InLine (h.branch taken imm).cpu.pc := by
  cases taken with
  | true => exact Word.inLine_add_shifted line _
  | false => exact line

theorem pc_of_load {h' : Hart} {op : Load} {rt : Register} {addr : Word}
    (loaded : h.load op rt addr = .ok h') : h'.cpu.pc = h.cpu.pc := by
  obtain ⟨w, _, rfl⟩ := map_eq_ok_iff.mp loaded
  exact Cpu.pc_write ..

theorem pc_of_store {h' : Hart} {op : Store} {rt : Register} {addr : Word}
    (stored : h.store op rt addr = .ok h') : h'.cpu.pc = h.cpu.pc := by
  obtain ⟨w, _, stored⟩ := bind_eq_ok_iff.mp stored
  obtain ⟨h₁, written, rfl⟩ := map_eq_ok_iff.mp stored
  have same : h₁.cpu.pc = h.cpu.pc := congrArg Cpu.pc (cpu_of_storeAt written)
  split
  · exact (Cpu.pc_write ..).trans same
  · exact same

theorem inLine_attempt {x : Except Trap Hart} (line : start.InLine h.cpu.pc)
    (kept : ∀ h', x = .ok h' → h'.cpu.pc = h.cpu.pc) : start.InLine (h.attempt x).1.cpu.pc := by
  cases x with
  | error t => exact line
  | ok h' => exact kept h' rfl ▸ line

/-- From behind an instruction in line, its execution gets to one in line unless it jumps out of
it. -/
theorem inLine_exec {i : Instruction} (line : start.InLine h.cpu.pc)
    (straight : ¬h.Misjumps start i) : start.InLine (h.exec i).1.cpu.pc := by
  have written (r : Register) (w : Word) : start.InLine (h.cpu.write r w).pc := by
    rwa [Cpu.pc_write]
  cases i with
  | alu op rd rs rt =>
    unfold exec
    dsimp only
    split
    · exact written rd _
    · exact line
  | aluImm op rt rs imm =>
    unfold exec
    dsimp only
    split
    · exact written rt _
    · exact line
  | lui rt imm => exact written rt _
  | shift op rd rt shamt => exact written rd _
  | shiftVar op rd rt rs => exact written rd _
  | count op rd rs => exact written rd _
  | moveFrom half rd => cases half <;> exact written rd _
  | moveTo half rs => cases half <;> exact line
  | jr rs => exact Decidable.not_not.mp straight
  | jalr rd rs => exact Decidable.not_not.mp straight
  | jump op target =>
    have zero : start.InLine 0 := Decidable.not_not.mp straight
    exact (toNat_jumpAddress_mod_four ..).trans zero
  | branchPair op rs rt imm => exact inLine_branch line ..
  | branchZero op rs imm => exact inLine_branch (by rwa [pc_link]) ..
  | load op rt rs imm => exact inLine_attempt line fun h' loaded => pc_of_load loaded
  | store op rt rs imm => exact inLine_attempt line fun h' stored => pc_of_store stored
  | mulDiv | trap | trapImm | breakpoint | syscall => exact line

end Hart
end Mips
