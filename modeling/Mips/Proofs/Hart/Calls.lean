import Mips.Proofs.Hart.Updates
import Mips.Proofs.Machine.Steps

/-!
Calls and returns. Main statement: `step_call`, a call leaves the address behind it in its link
register and goes where the registers say that it has found, and a return through a register that
still holds the link goes on behind the call.
-/
namespace Mips

def Instruction.link? : Instruction → Option Register
  | .jalr rd _ => some rd
  | .jump .jal _ | .branchZero .bltzal _ _ | .branchZero .bgezal _ _ => some Register.ra
  | _ => none

namespace Hart

variable {h : Hart} {i : Instruction} {r : Register}

/-- Where a call leads, by the registers before it. A conditional call that is not taken leads
behind itself. -/
def goal (h : Hart) : Instruction → Word
  | .jalr _ rs => h.cpu.read rs
  | .jump _ target => jumpAddress (h.cpu.pc + 4) target
  | .branchZero .bltzal rs imm => destination h.cpu.pc ((h.cpu.read rs).signed < 0) imm
  | .branchZero .bgezal rs imm => destination h.cpu.pc (0 ≤ (h.cpu.read rs).signed) imm
  | _ => h.cpu.pc + 4

def called (h : Hart) (i : Instruction) (r : Register) : Hart :=
  (h.write r (h.cpu.pc + 4)).setPc (h.goal i)

theorem write_setPc (h : Hart) (pc : Word) (r : Register) (w : Word) :
    (h.setPc pc).write r w = (h.write r w).setPc pc := by
  unfold write setPc Cpu.write
  dsimp only
  split <;> rfl

theorem branch_setPc (h : Hart) (pc : Word) (taken : Bool) (imm : BitVec 16) :
    (h.setPc (pc.add 4)).branch taken imm = h.setPc (destination pc taken imm) := by
  cases taken <;> rfl

theorem step_of_link? (next : h.next? = some i) (links : i.link? = some r) :
    h.step = (h.called i r, none) := by
  have linked : (h.setPc (h.cpu.pc.add 4)).link true =
      (h.write Register.ra (h.cpu.pc.add 4)).setPc (h.cpu.pc.add 4) := write_setPc ..
  rw [step_of_next? next]
  cases i with
  | jalr rd rs =>
    obtain rfl := Option.some.inj links
    rw [exec, write_setPc]
    rfl
  | jump op target =>
    cases op with
    | j => cases links
    | jal =>
      obtain rfl := Option.some.inj links
      rw [exec, Jump.links, linked]
      rfl
  | branchZero op rs imm =>
    cases op with
    | bltzal | bgezal =>
      obtain rfl := Option.some.inj links
      rw [exec, BranchZero.links, linked, branch_setPc]
      rfl
    | _ => cases links
  | _ => cases links

theorem step_jr (next : h.next? = some (.jr r)) : h.step = (h.setPc (h.cpu.read r), none) := by
  rw [step_of_next? next]
  rfl

/-- A call leaves the address behind it in its link register, taken or not, and goes where the
registers from before that lead. A return through the register goes on behind the call in every
state in which the register still holds what the call has left. -/
theorem step_call (next : h.next? = some i) (links : i.link? = some r) :
    h.step = (h.called i r, none) ∧
      (¬h.cpu.Discards r → (h.called i r).cpu.read r = h.cpu.pc + 4 ∧
        ∀ later : Hart, later.next? = some (.jr r) →
          later.cpu.read r = (h.called i r).cpu.read r →
            later.step = (later.setPc (h.cpu.pc + 4), none)) := by
  refine ⟨step_of_link? next links, fun kept => ?_⟩
  have held : (h.called i r).cpu.read r = h.cpu.pc + 4 := h.cpu.read_write_self kept _
  refine ⟨held, fun later returns same => ?_⟩
  rw [step_jr returns, same, held]

theorem step_call_aliased :
    let h : Hart := ⟨(Cpu.reset {} 0x00400000).write Register.ra 0x80000000,
      { Memory.empty {} with
        contents := (∅ : Contents).write 0 [0x07, 0xF0, 0x00, 0x01, 0, 0, 0, 0, 0x03, 0xE0, 0, 8] }⟩
    h.next? = some (.branchZero .bltzal Register.ra 1) ∧
      h.step = (h.called (.branchZero .bltzal Register.ra 1) Register.ra, none) ∧
      h.step.1.cpu.pc = 0x00400008 ∧ h.step.1.cpu.read Register.ra = 0x00400004 ∧
      h.step.1.step.1.cpu.pc = 0x00400004 := by
  intro h
  have next : h.next? = some (.branchZero .bltzal Register.ra 1) := by decide +kernel
  obtain ⟨stepped, returns⟩ := step_call next rfl
  obtain ⟨held, resumes⟩ := returns (h.cpu.not_discards (by decide))
  have back := resumes (h.called (.branchZero .bltzal Register.ra 1) Register.ra)
    (by decide +kernel) rfl
  refine ⟨next, stepped, ?_, ?_, ?_⟩
  · rw [stepped]
    decide +kernel
  · rw [stepped]
    exact held
  · rw [stepped, back]
    rfl

end Hart
end Mips
