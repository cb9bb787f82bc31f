import Mips.Register

namespace Mips

inductive Alu
  | add | addu | sub | subu | and | or | xor | nor | slt | sltu | mul
  deriving DecidableEq, Repr

inductive AluImm
  | addi | addiu | slti | sltiu | andi | ori | xori
  deriving DecidableEq, Repr

inductive Shift
  | sll | srl | sra
  deriving DecidableEq, Repr

inductive MulDiv
  | mult | multu | div | divu | madd | maddu | msub | msubu
  deriving DecidableEq, Repr

inductive Half
  | hi | lo
  deriving DecidableEq, Repr

inductive Count
  | clz | clo
  deriving DecidableEq, Repr

inductive Relation
  | eq | ne | ge | geu | lt | ltu
  deriving DecidableEq, Repr

inductive BranchPair
  | beq | bne
  deriving DecidableEq, Repr

inductive BranchZero
  | blez | bgtz | bltz | bgez | bltzal | bgezal
  deriving DecidableEq, Repr

inductive Jump
  | j | jal
  deriving DecidableEq, Repr

inductive Load
  | lb | lbu | lh | lhu | lw | ll | lwl | lwr
  deriving DecidableEq, Repr

inductive Store
  | sb | sh | sw | sc | swl | swr
  deriving DecidableEq, Repr

inductive Op
  | alu (op : Alu)
  | aluImm (op : AluImm)
  | lui
  | shift (op : Shift)
  | shiftVar (op : Shift)
  | mulDiv (op : MulDiv)
  | moveFrom (half : Half)
  | moveTo (half : Half)
  | count (op : Count)
  | trap (rel : Relation)
  | trapImm (rel : Relation)
  | breakpoint
  | syscall
  | jr
  | jalr
  | jump (op : Jump)
  | branchPair (op : BranchPair)
  | branchZero (op : BranchZero)
  | load (op : Load)
  | store (op : Store)
  deriving DecidableEq, Repr

/-- An instruction. Register numbers and shift amounts are eight bits wide and may exceed what the
encoding holds, `imm` is extended only on execution, and `target` counts words. -/
inductive Instruction
  | alu (op : Alu) (rd rs rt : Register)
  | aluImm (op : AluImm) (rt rs : Register) (imm : BitVec 16)
  | lui (rt : Register) (imm : BitVec 16)
  | shift (op : Shift) (rd rt : Register) (shamt : BitVec 8)
  | shiftVar (op : Shift) (rd rt rs : Register)
  | mulDiv (op : MulDiv) (rs rt : Register)
  | moveFrom (half : Half) (rd : Register)
  | moveTo (half : Half) (rs : Register)
  | count (op : Count) (rd rs : Register)
  | trap (rel : Relation) (rs rt : Register)
  | trapImm (rel : Relation) (rs : Register) (imm : BitVec 16)
  | breakpoint (code : Word)
  | syscall
  | jr (rs : Register)
  | jalr (rd rs : Register)
  | jump (op : Jump) (target : Word)
  | branchPair (op : BranchPair) (rs rt : Register) (imm : BitVec 16)
  | branchZero (op : BranchZero) (rs : Register) (imm : BitVec 16)
  | load (op : Load) (rt rs : Register) (imm : BitVec 16)
  | store (op : Store) (rt rs : Register) (imm : BitVec 16)
  deriving DecidableEq, Repr

namespace Op

def all : List Op :=
  [Alu.add, .addu, .sub, .subu, .and, .or, .xor, .nor, .slt, .sltu, .mul].map alu ++
  [AluImm.addi, .addiu, .slti, .sltiu, .andi, .ori, .xori].map aluImm ++ [lui] ++
  [Shift.sll, .srl, .sra].map shift ++ [Shift.sll, .srl, .sra].map shiftVar ++
  [MulDiv.mult, .multu, .div, .divu, .madd, .maddu, .msub, .msubu].map mulDiv ++
  [Half.hi, .lo].map moveFrom ++ [Half.hi, .lo].map moveTo ++ [Count.clz, .clo].map count ++
  [Relation.eq, .ne, .ge, .geu, .lt, .ltu].map trap ++
  [Relation.eq, .ne, .ge, .geu, .lt, .ltu].map trapImm ++
  [breakpoint, syscall, jr, jalr] ++ [Jump.j, .jal].map jump ++
  [BranchPair.beq, .bne].map branchPair ++
  [BranchZero.blez, .bgtz, .bltz, .bgez, .bltzal, .bgezal].map branchZero ++
  [Load.lb, .lbu, .lh, .lhu, .lw, .ll, .lwl, .lwr].map load ++
  [Store.sb, .sh, .sw, .sc, .swl, .swr].map store

theorem mem_all (o : Op) : o ∈ all := by
  cases o <;> first | decide | (rename_i x; cases x <;> decide)

def name : Op → String
  | alu .add => "add"
  | alu .addu => "addu"
  | alu .sub => "sub"
  | alu .subu => "subu"
  | alu .and => "and"
  | alu .or => "or"
  | alu .xor => "xor"
  | alu .nor => "nor"
  | alu .slt => "slt"
  | alu .sltu => "sltu"
  | alu .mul => "mul"
  | aluImm .addi => "addi"
  | aluImm .addiu => "addiu"
  | aluImm .slti => "slti"
  | aluImm .sltiu => "sltiu"
  | aluImm .andi => "andi"
  | aluImm .ori => "ori"
  | aluImm .xori => "xori"
  | lui => "lui"
  | shift .sll => "sll"
  | shift .srl => "srl"
  | shift .sra => "sra"
  | shiftVar .sll => "sllv"
  | shiftVar .srl => "srlv"
  | shiftVar .sra => "srav"
  | mulDiv .mult => "mult"
  | mulDiv .multu => "multu"
  | mulDiv .div => "div"
  | mulDiv .divu => "divu"
  | mulDiv .madd => "madd"
  | mulDiv .maddu => "maddu"
  | mulDiv .msub => "msub"
  | mulDiv .msubu => "msubu"
  | moveFrom .hi => "mfhi"
  | moveFrom .lo => "mflo"
  | moveTo .hi => "mthi"
  | moveTo .lo => "mtlo"
  | count .clz => "clz"
  | count .clo => "clo"
  | trap .eq => "teq"
  | trap .ne => "tne"
  | trap .ge => "tge"
  | trap .geu => "tgeu"
  | trap .lt => "tlt"
  | trap .ltu => "tltu"
  | trapImm .eq => "teqi"
  | trapImm .ne => "tnei"
  | trapImm .ge => "tgei"
  | trapImm .geu => "tgeiu"
  | trapImm .lt => "tlti"
  | trapImm .ltu => "tltiu"
  | breakpoint => "break"
  | syscall => "syscall"
  | jr => "jr"
  | jalr => "jalr"
  | jump .j => "j"
  | jump .jal => "jal"
  | branchPair .beq => "beq"
  | branchPair .bne => "bne"
  | branchZero .blez => "blez"
  | branchZero .bgtz => "bgtz"
  | branchZero .bltz => "bltz"
  | branchZero .bgez => "bgez"
  | branchZero .bltzal => "bltzal"
  | branchZero .bgezal => "bgezal"
  | load .lb => "lb"
  | load .lbu => "lbu"
  | load .lh => "lh"
  | load .lhu => "lhu"
  | load .lw => "lw"
  | load .ll => "ll"
  | load .lwl => "lwl"
  | load .lwr => "lwr"
  | store .sb => "sb"
  | store .sh => "sh"
  | store .sw => "sw"
  | store .sc => "sc"
  | store .swl => "swl"
  | store .swr => "swr"

end Op

namespace Instruction

def op : Instruction → Op
  | alu o .. => .alu o
  | aluImm o .. => .aluImm o
  | lui .. => .lui
  | shift o .. => .shift o
  | shiftVar o .. => .shiftVar o
  | mulDiv o .. => .mulDiv o
  | moveFrom h _ => .moveFrom h
  | moveTo h _ => .moveTo h
  | count o .. => .count o
  | trap r .. => .trap r
  | trapImm r .. => .trapImm r
  | breakpoint _ => .breakpoint
  | syscall => .syscall
  | jr _ => .jr
  | jalr .. => .jalr
  | jump o _ => .jump o
  | branchPair o .. => .branchPair o
  | branchZero o .. => .branchZero o
  | load o .. => .load o
  | store o .. => .store o

def nop : Instruction := .shift .sll 0 0 0

end Instruction
end Mips
