import Mips.Instruction

namespace Mips.Instruction

def signedImm (imm : BitVec 16) : List Char := Numeral.signed imm.toInt

def distance (imm : BitVec 16) : List Char := Numeral.forcedSign imm.toInt

def memoryOperand (rs : Register) (imm : BitVec 16) : List Char :=
  signedImm imm ++ '(' :: rs.render ++ [')']

/-- The operands of an instruction, in the order of a source line. The bitwise immediates and the
upper immediate are shown in hexadecimal, a jump by its byte address. -/
def operands : Instruction → List (List Char)
  | alu _ rd rs rt => [rd.render, rs.render, rt.render]
  | aluImm op rt rs imm =>
    [rt.render, rs.render,
      match op with
      | .andi | .ori | .xori => Numeral.hex imm.toNat
      | _ => signedImm imm]
  | lui rt imm => [rt.render, Numeral.hex imm.toNat]
  | shift _ rd rt shamt => [rd.render, rt.render, Numeral.decimal shamt.toNat]
  | shiftVar _ rd rt rs => [rd.render, rt.render, rs.render]
  | mulDiv _ rs rt => [rs.render, rt.render]
  | moveFrom _ rd => [rd.render]
  | moveTo _ rs => [rs.render]
  | count _ rd rs => [rd.render, rs.render]
  | trap _ rs rt => [rs.render, rt.render]
  | trapImm _ rs imm => [rs.render, signedImm imm]
  | breakpoint code => [Numeral.decimal code.toNat]
  | syscall => []
  | jr rs => [rs.render]
  | jalr rd rs => [rs.render, rd.render]
  | jump _ target => [Numeral.hex8 (target <<< 2).toNat]
  | branchPair _ rs rt imm => [rs.render, rt.render, distance imm]
  | branchZero _ rs imm => [rs.render, distance imm]
  | load _ rt rs imm => [rt.render, memoryOperand rs imm]
  | store _ rt rs imm => [rt.render, memoryOperand rs imm]

def render (i : Instruction) : List Char :=
  if i = nop then "nop".toList
  else
    match i.operands with
    | [] => i.op.name.toList
    | ops => i.op.name.toList ++ ' ' :: [',', ' '].intercalate ops

end Mips.Instruction
