import Mips.Instruction.Encoding
import Mips.Semantics

namespace Mips.Instruction

variable {i : Instruction} {r : Register}

def registers : Instruction → List Register
  | alu _ rd rs rt => [rd, rs, rt]
  | aluImm _ rt rs _ => [rt, rs]
  | lui rt _ => [rt]
  | shift _ rd rt _ => [rd, rt]
  | shiftVar _ rd rt rs => [rd, rt, rs]
  | mulDiv _ rs rt => [rs, rt]
  | moveFrom _ rd => [rd]
  | moveTo _ rs => [rs]
  | count _ rd rs => [rd, rs]
  | trap _ rs rt => [rs, rt]
  | trapImm _ rs _ => [rs]
  | breakpoint _ => []
  | syscall => []
  | jr rs => [rs]
  | jalr rd rs => [rd, rs]
  | jump _ _ => []
  | branchPair _ rs rt _ => [rs, rt]
  | branchZero _ rs _ => [rs]
  | load _ rt rs _ => [rt, rs]
  | store _ rt rs _ => [rt, rs]

/-- The register that an instruction writes, if it writes one. -/
def destination? : Instruction → Option Register
  | alu _ rd _ _ => some rd
  | aluImm _ rt _ _ => some rt
  | lui rt _ => some rt
  | shift _ rd _ _ => some rd
  | shiftVar _ rd _ _ => some rd
  | moveFrom _ rd => some rd
  | count _ rd _ => some rd
  | jalr rd _ => some rd
  | jump op _ => if op.links then some Register.ra else none
  | branchZero op _ _ => if op.links then some Register.ra else none
  | load _ rt _ _ => some rt
  | store op rt _ _ => if op = .sc then some rt else none
  | mulDiv .. | moveTo .. | trap .. | trapImm .. | breakpoint _ | syscall | jr _ | branchPair .. =>
    none

theorem mem_registers_of_destination? (writes : i.destination? = some r) :
    r ∈ i.registers ∨ r = Register.ra := by
  cases i with
  | jump op target =>
    simp only [destination?, Option.ite_none_right_eq_some] at writes
    exact .inr (Option.some.inj writes.2).symm
  | branchZero op rs imm =>
    simp only [destination?, Option.ite_none_right_eq_some] at writes
    exact .inr (Option.some.inj writes.2).symm
  | store op rt rs imm =>
    simp only [destination?, Option.ite_none_right_eq_some] at writes
    obtain rfl := Option.some.inj writes.2
    exact .inl List.mem_cons_self
  | mulDiv | moveTo | trap | trapImm | breakpoint | syscall | jr | branchPair => cases writes
  | _ =>
    cases writes
    exact .inl List.mem_cons_self

theorem mem_registers_instruction {o : Op} {f : Fields} (named : r ∈ (o.instruction f).registers) :
    r = f.rs ∨ r = f.rt ∨ r = f.rd := by
  cases o <;> grind [Op.instruction, registers]

theorem lt_of_decode {w : Word} (decoded : decode w = some i) (named : r ∈ i.registers) :
    r.toNat < 32 := by
  obtain ⟨o, _, rfl⟩ := Option.map_eq_some_iff.mp decoded
  rcases mem_registers_instruction named with rfl | rfl | rfl
  · exact Nat.mod_lt _ (by decide)
  · exact Nat.mod_lt _ (by decide)
  · exact Nat.mod_lt _ (by decide)

theorem lt_of_destination? {w : Word} (decoded : decode w = some i)
    (writes : i.destination? = some r) : r.toNat < 32 := by
  rcases mem_registers_of_destination? writes with named | rfl
  · exact lt_of_decode decoded named
  · decide

end Mips.Instruction
